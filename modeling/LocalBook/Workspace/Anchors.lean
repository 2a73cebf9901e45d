import LocalBook.Workspace.Preview

/-! Links from a note to the page: what `preprocessWikilinks` writes for a link is read by Markdown
as an inline link, and the renderer reads its destination again. -/
namespace LocalBook.Workspace.Anchors

open Renaming
open Preview (escapeLabel wikilinkToMarkdown linkPair replaceInlineWikilinks)
open References (encodeURIComponent decodeURIComponent)

/-! ### Inline links of Markdown -/

def isMark (c : Char) : Bool :=
  let n := c.toNat
  (33 ≤ n && n ≤ 47) || (58 ≤ n && n ≤ 64) || (91 ≤ n && n ≤ 96) || (123 ≤ n && n ≤ 126)

def readText (depth : Nat) (escaped : Bool) : Text → Option (Text × Text)
  | [] => none
  | c :: rest =>
    let put (front : Text) (read : Text × Text) : Text × Text := (front ++ read.1,read.2)
    if escaped then (readText depth false rest).map (put (if isMark c then [c] else ['\\',c]))
    else if c = '\\' then readText depth true rest
    else if c = '[' then (readText (depth + 1) false rest).map (put [c])
    else if c = ']' then
      if depth = 0 then some ([],rest) else (readText (depth - 1) false rest).map (put [c])
    else (readText depth false rest).map (put [c])

def endsDestination (c : Char) : Bool := c.toNat ≤ 32 || c.toNat = 127

def readDestination (depth : Nat) : Text → Option (Text × Text)
  | [] => none
  | c :: rest =>
    if endsDestination c then none
    else if c = '(' then (readDestination (depth + 1) rest).map fun read => (c :: read.1,read.2)
    else if c = ')' then
      if depth = 0 then some ([],rest)
      else (readDestination (depth - 1) rest).map fun read => (c :: read.1,read.2)
    else (readDestination depth rest).map fun read => (c :: read.1,read.2)

structure Anchor where
  text : Text
  destination : Text
  /-- What stands behind the link. -/
  rest : Text

def readLink : Text → Option Anchor
  | '[' :: inner => (readText 0 false inner).bind fun (text,behind) =>
    match behind with
    | '(' :: inside => (readDestination 0 inside).map fun (destination,rest) =>
      ⟨text,destination,rest⟩
    | _ => none
  | _ => none

def Unescaped (ahead : Text) : Prop := (ahead.reverse.takeWhile (· = '\\')).length % 2 = 0

/-! ### The renderer -/

def scheme : Text := "wikilink:".toList

/-- What `rewrite` reads from the `href` of an anchor. -/
def rewriteHref (href : Text) : Option WikilinkTarget :=
  if Text.startsWith href scheme then (decodeURIComponent (href.drop scheme.length)).map parseWikilink
  else none

def dataAttribute (value : Option Text) : Option Text := value.filter (· ≠ [])

/-- The link is one that is written as a Markdown link. -/
def Authored (pair : Pair) : Prop :=
  pair.linked = true ∧ pair.parsed.embed = false ∧ pair.parsed.web = false

/-- The link becomes one anchor that carries its parts, and what stands behind it stays. -/
def Carried (pair : Pair) (behind : Text) : Prop :=
  Unescaped pair.gap ∧ ∃ anchor parsed,
    readLink (wikilinkToMarkdown (bracketed pair.inner) ++ behind) = some anchor ∧
    anchor.rest = behind ∧ anchor.text = pair.parsed.label ∧
    rewriteHref anchor.destination = some parsed ∧ parsed.target = pair.parsed.target ∧
    dataAttribute parsed.section_ = dataAttribute pair.parsed.section_ ∧
    dataAttribute parsed.block = dataAttribute pair.parsed.block

def parens (depth : Nat) : Text → Option Nat
  | [] => some depth
  | c :: rest =>
    if c = '(' then parens (depth + 1) rest
    else if c = ')' then if depth = 0 then none else parens (depth - 1) rest
    else parens depth rest

structure Survives (pair : Pair) : Prop where
  opens : Unescaped pair.gap
  named : pair.parsed.target ≠ []
  plain : pair.parsed.target.head? ≠ some '!'
  balanced : parens 0 (encodeURIComponent pair.parsed.target) = some 0
  unsectioned : dataAttribute pair.parsed.section_ = none
  unblocked : dataAttribute pair.parsed.block = none

section Reading

variable {depth : Nat} {text : Text} {read : Text × Text}

theorem consumed_text {escaped : Bool} (found : readText depth escaped text = some read) :
    ∃ front,text = front ++ ']' :: read.2 := by
  induction text generalizing depth escaped read with
  | nil => cases found
  | cons c rest ih =>
    have later {depth : Nat} {escaped : Bool} {front : Text}
        (found : ((readText depth escaped rest).map fun read =>
          (front ++ read.1,read.2)) = some read) : ∃ front,c :: rest = front ++ ']' :: read.2 := by
      obtain ⟨read,found',rfl⟩ := Option.map_eq_some_iff.mp found
      obtain ⟨front,whole⟩ := ih found'
      exact ⟨c :: front,by rw [whole]; rfl⟩
    rw [readText] at found
    split at found
    · exact later found
    · split at found
      · obtain ⟨front,whole⟩ := ih found
        exact ⟨c :: front,by rw [whole]; rfl⟩
      · split at found
        · exact later found
        · split at found
          · next closes =>
            split at found
            · cases found
              exact ⟨[],by rw [closes]; rfl⟩
            · exact later found
          · exact later found

theorem consumed_destination (found : readDestination depth text = some read) :
    ∃ front,text = front ++ ')' :: read.2 := by
  induction text generalizing depth read with
  | nil => cases found
  | cons c rest ih =>
    have later {depth : Nat} (found : ((readDestination depth rest).map fun read =>
        (c :: read.1,read.2)) = some read) : ∃ front,c :: rest = front ++ ')' :: read.2 := by
      obtain ⟨read,found',rfl⟩ := Option.map_eq_some_iff.mp found
      obtain ⟨front,whole⟩ := ih found'
      exact ⟨c :: front,by rw [whole]; rfl⟩
    rw [readDestination] at found
    split at found
    · cases found
    · split at found
      · exact later found
      · split at found
        · next closes =>
          split at found
          · cases found
            exact ⟨[],by rw [closes]; rfl⟩
          · exact later found
        · exact later found

theorem consumed_link {anchor : Anchor} (found : readLink text = some anchor) :
    ∃ front,text = front ++ ')' :: anchor.rest := by
  unfold readLink at found
  split at found
  · obtain ⟨⟨inner,behind⟩,read,found⟩ := Option.bind_eq_some_iff.mp found
    obtain ⟨front,whole⟩ := consumed_text read
    dsimp only at found whole
    split at found
    · obtain ⟨⟨destination,rest⟩,read',rfl⟩ := Option.map_eq_some_iff.mp found
      obtain ⟨front',whole'⟩ := consumed_destination read'
      refine ⟨'[' :: front ++ ']' :: '(' :: front',?_⟩
      rw [whole,whole']
      simp
    · cases found
  · cases found

/-- The escaped label is read as the label. -/
theorem readText_escapeLabel (label : Text) (rest : Text) :
    readText depth false (escapeLabel label ++ rest) =
      (readText depth false rest).map fun read => (label ++ read.1,read.2) := by
  induction label with
  | nil => simp [escapeLabel]
  | cons c label ih =>
    have step : readText depth false (escapeLabel [c] ++ (escapeLabel label ++ rest)) =
        (readText depth false (escapeLabel label ++ rest)).map fun read => (c :: read.1,read.2) := by
      by_cases escapes : ['\\','[',']'].contains c = true
      · have mark : isMark c = true := by
          have cases_ : c = '\\' ∨ c = '[' ∨ c = ']' := by simpa using escapes
          rcases cases_ with rfl | rfl | rfl <;> decide
        have one : escapeLabel [c] = ['\\',c] := by
          simp only [escapeLabel,List.flatMap_cons,List.flatMap_nil,escapes,if_true,List.append_nil]
        rw [one,List.cons_append,readText,if_neg Bool.false_ne_true,if_pos rfl,List.cons_append,
          readText,if_pos rfl,if_pos mark]
        rfl
      · have one : escapeLabel [c] = [c] := by
          simp only [escapeLabel,List.flatMap_cons,List.flatMap_nil,if_neg escapes,List.append_nil]
        have plain : ¬ c = '\\' ∧ ¬ c = '[' ∧ ¬ c = ']' := by simpa using escapes
        rw [one,List.cons_append,readText,if_neg Bool.false_ne_true,if_neg plain.1,
          if_neg plain.2.1,if_neg plain.2.2]
        rfl
    have whole : escapeLabel (c :: label) ++ rest =
        escapeLabel [c] ++ (escapeLabel label ++ rest) := by
      simp [escapeLabel]
    rw [whole,step,ih,Option.map_map]
    rfl

theorem readDestination_append {e : Text} (solid : ∀ c ∈ e,endsDestination c = false) (rest : Text) :
    match parens depth e with
    | some inner => readDestination depth (e ++ rest) =
      (readDestination inner rest).map fun read => (e ++ read.1,read.2)
    | none => ∃ a b,e = a ++ ')' :: b ∧ readDestination depth (e ++ rest) = some (a,b ++ rest) := by
  induction e generalizing depth with
  | nil => simp [parens]
  | cons c e ih =>
    have here := solid c List.mem_cons_self
    have later (depth : Nat) := @ih depth fun x inside => solid x (List.mem_cons_of_mem _ inside)
    have put {inner : Nat} (step : readDestination depth (c :: (e ++ rest)) =
        (readDestination inner (e ++ rest)).map fun read => (c :: read.1,read.2)) :
        match parens inner e with
        | some inner => readDestination depth (c :: e ++ rest) =
          (readDestination inner rest).map fun read => (c :: e ++ read.1,read.2)
        | none => ∃ a b,c :: e = a ++ ')' :: b ∧
          readDestination depth (c :: e ++ rest) = some (a,b ++ rest) := by
      have more := later inner
      rw [List.cons_append,step]
      generalize parens inner e = last at more ⊢
      cases last with
      | some last =>
        dsimp only at more ⊢
        rw [more,Option.map_map]
        rfl
      | none =>
        obtain ⟨a,b,whole,read⟩ := more
        exact ⟨c :: a,b,by rw [whole]; rfl,by rw [read]; rfl⟩
    rw [parens]
    have start := readDestination.eq_def depth (c :: (e ++ rest))
    dsimp only at start
    rw [here,if_neg Bool.false_ne_true] at start
    by_cases opens : c = '('
    · rw [if_pos opens] at start ⊢
      exact put start
    · rw [if_neg opens] at start ⊢
      by_cases closes : c = ')'
      · rw [if_pos closes] at start ⊢
        by_cases bottom : depth = 0
        · rw [if_pos bottom] at start ⊢
          exact ⟨[],e,by rw [closes]; rfl,start⟩
        · rw [if_neg bottom] at start ⊢
          exact put start
      · rw [if_neg closes] at start ⊢
        exact put start

end Reading

section Encoding

theorem unreserved_single : ∀ n < 256,References.unreserved (UInt8.ofNat n) = true →
    Char.ofNat n ≠ '%' ∧ String.utf8EncodeChar (Char.ofNat n) = [UInt8.ofNat n] := by
  decide +kernel

theorem decode_encodeURIComponent (text : Text) :
    decodeURIComponent (encodeURIComponent text) = some text := by
  have back : decodeUtf8 ⟨(encodeUtf8 text).data⟩ = some text := decodeUtf8_encodeUtf8 text
  have bytes : References.strictBytes (encodeURIComponent text) =
      some (encodeUtf8 text).data.toList := References.strictBytes_encoded unreserved_single _
  rw [decodeURIComponent,bytes,Option.bind_some,Array.toArray_toList,back]

/-- An encoded byte ends no destination. -/
theorem solid_componentByte : ∀ n < 256,
    ((References.componentByte (UInt8.ofNat n)).all fun c => !endsDestination c) = true := by
  decide +kernel

theorem solid_encoded {text : Text} {c : Char} (inside : c ∈ encodeURIComponent text) :
    endsDestination c = false := by
  obtain ⟨b,-,there⟩ := List.mem_flatMap.mp inside
  have solid := List.all_eq_true.mp (solid_componentByte b.toNat b.toNat_lt) c (by simpa using there)
  simpa using solid

theorem parens_plain {depth : Nat} {e : Text} (plain : ∀ c ∈ e,c ≠ '(' ∧ c ≠ ')') (rest : Text) :
    parens depth (e ++ rest) = parens depth rest := by
  induction e with
  | nil => rfl
  | cons c e ih =>
    obtain ⟨opens,closes⟩ := plain c List.mem_cons_self
    rw [List.cons_append,parens,if_neg opens,if_neg closes,
      ih fun x inside => plain x (List.mem_cons_of_mem _ inside)]

end Encoding

section Parsing

variable {inner target : Text} {embed : Bool}

theorem length_target (embed : Bool) (inner : Text) :
    (parseInner embed inner).target.length ≤ inner.length := by
  obtain ⟨named,block,section_,alias_,rfl,free⟩ := exists_compose inner
  obtain ⟨a,b,whole⟩ := trim_infix named
  have sized := congrArg List.length whole
  rw [parse_compose free]
  simp only [compose,List.length_append] at sized ⊢
  omega

/-- A target that a link names, as it is read from a destination. -/
theorem parse_target (apart : cutAt ']' (inner ++ [']']) = none) :
    let target := (parseInner embed inner).target
    (target.head? = some '!' → (parseWikilink target).target ≠ target) ∧
      (target.head? ≠ some '!' → (parseWikilink target).target = target ∧
        (parseWikilink target).section_ = none ∧ (parseWikilink target).block = none) := by
  obtain ⟨named,block,section_,alias_,rfl,free⟩ := exists_compose inner
  have clear : cutAt ']' named = none := by
    have := (cutAt_append_none apart).1
    simp only [compose,List.append_assoc] at this
    exact (cutAt_append_none this).1
  rw [parse_compose free]
  dsimp only
  have clear' := cutAt_trim clear
  have free' : Free (trim named) none none :=
    ⟨fun inside => free.pipe (mem_trim inside),
      fun inside => free.hash (mem_trim inside),
      fun inside => free.caret (mem_trim inside),(fun _ inside => by cases inside),
      fun _ inside => by cases inside⟩
  have again := Following.trim_trim named
  generalize trim named = target at clear' free' again ⊢
  constructor
  · intro bang same
    obtain ⟨rest,rfl⟩ : ∃ rest,target = '!' :: rest := by
      cases target with
      | nil => cases bang
      | cons c rest => exact ⟨rest,by rw [Option.some.inj bang]⟩
    have embeds : Text.startsWith ('!' :: rest) ['!'] = true := by simp [Text.startsWith]
    rw [parseWikilink] at same
    simp only [embeds,if_true,List.drop_succ_cons,List.drop_zero] at same
    have sized := congrArg List.length same
    have short := length_target true (if Text.startsWith rest ['[','['] ∧
      Text.endsWith rest [']',']'] then (rest.take (rest.length - 2)).drop 2 else rest)
    have cut : (if Text.startsWith rest ['[','['] ∧ Text.endsWith rest [']',']'] then
        (rest.take (rest.length - 2)).drop 2 else rest).length ≤ rest.length := by
      split
      · simp only [List.length_drop,List.length_take]
        omega
      · exact le_rfl
    simp only [List.length_cons] at sized
    omega
  · intro plain
    have unembedded : Text.startsWith target ['!'] = false := by
      cases target with
      | nil => rfl
      | cons c rest =>
        have other : c ≠ '!' := fun same => plain (by rw [same]; rfl)
        simp [Text.startsWith,List.isPrefixOf,other.symm]
    have unclosed : Text.endsWith target [']',']'] = false := by
      rw [Bool.eq_false_iff]
      intro ends
      obtain ⟨front,rfl⟩ := List.isSuffixOf_iff_suffix.mp ends
      have := (cutAt_append_none clear').2
      simp [cutAt] at this
    have same := @parse_compose false _ _ _ free' none
    simp only [compose,part,List.append_nil] at same
    rw [parseWikilink]
    simp only [unembedded,Bool.false_eq_true,if_false,unclosed,and_false]
    rw [same]
    exact ⟨again,rfl,rfl⟩

end Parsing

section Links

variable {pair : Pair} {behind : Text}

theorem attribute_none {value : Option Text} : dataAttribute value = none ↔ value.getD [] = [] := by
  cases value with
  | none => simp [dataAttribute]
  | some text => simp [dataAttribute,Option.filter]

theorem written_scheme : "](wikilink:".toList = ']' :: '(' :: scheme := by decide

theorem parse_authored (authored : Authored pair) :
    parseWikilink (bracketed pair.inner) = pair.parsed := by
  have unembedded : embeds pair.gap = false := by
    simpa [Pair.parsed,parseInner] using authored.2.1
  rw [(parse_bracketed pair.inner).1,Pair.parsed,unembedded]

/-- A link without a name is left as it is. -/
theorem wikilinkToMarkdown_unnamed (authored : Authored pair) (unnamed : pair.parsed.target = []) :
    wikilinkToMarkdown (bracketed pair.inner) = bracketed pair.inner := by
  simp only [wikilinkToMarkdown,parse_authored authored,unnamed,or_true,if_true]

theorem wikilinkToMarkdown_eq (authored : Authored pair) (named : pair.parsed.target ≠ []) :
    ∃ suffix,wikilinkToMarkdown (bracketed pair.inner) =
        '[' :: (escapeLabel pair.parsed.label ++ (suffix ++ ']' :: '(' ::
          (scheme ++ encodeURIComponent pair.parsed.target ++ [')']))) ∧
      (suffix = [] ↔ dataAttribute pair.parsed.section_ = none ∧
        dataAttribute pair.parsed.block = none) ∧
      ∀ c rest,suffix = c :: rest → c = '#' ∨ c = '^' := by
  have parsed := parse_authored authored
  obtain ⟨-,embed,web⟩ := authored
  rw [wikilinkToMarkdown]
  simp only [parsed,embed,web,named,Bool.false_eq_true,or_self,if_false]
  rw [attribute_none,attribute_none]
  by_cases sectioned : pair.parsed.section_.getD [] = []
  · rw [if_neg (not_not.mpr sectioned)]
    by_cases blocked : pair.parsed.block.getD [] = []
    · refine ⟨[],?_,by simp only [sectioned,blocked,and_self],fun _ _ same => by cases same⟩
      simp only [behind,if_pos blocked,written_scheme,List.append_assoc,
        List.cons_append,List.nil_append]
    · refine ⟨'^' :: pair.parsed.block.getD [],?_,?_,fun _ _ same => ?_⟩
      · simp only [behind,if_neg blocked,written_scheme,List.append_assoc,
          List.cons_append,List.nil_append]
      · simp only [blocked,and_false,reduceCtorEq]
      · cases same
        exact .inr rfl
  · rw [if_pos sectioned]
    refine ⟨'#' :: pair.parsed.section_.getD [],?_,?_,fun _ _ same => ?_⟩
    · simp only [written_scheme,List.append_assoc,List.cons_append,List.nil_append]
    · simp only [sectioned,false_and,reduceCtorEq]
    · cases same
      exact .inl rfl

theorem solid_written (target : Text) : ∀ c ∈ scheme ++ encodeURIComponent target,
    endsDestination c = false := by
  have solid : (scheme.all fun c => !endsDestination c) = true := by decide
  intro c inside
  rcases List.mem_append.mp inside with inside | inside
  · simpa using List.all_eq_true.mp solid c inside
  · exact solid_encoded inside

theorem parens_written (target : Text) :
    parens 0 (scheme ++ encodeURIComponent target) = parens 0 (encodeURIComponent target) := by
  have plain : (scheme.all fun c => c != '(' && c != ')') = true := by decide
  exact parens_plain (fun c inside => by simpa using List.all_eq_true.mp plain c inside) _

theorem rewriteHref_written (target : Text) :
    rewriteHref (scheme ++ encodeURIComponent target) = some (parseWikilink target) := by
  have starts : Text.startsWith (scheme ++ encodeURIComponent target) scheme = true :=
    List.isPrefixOf_iff_prefix.mpr (List.prefix_append _ _)
  rw [rewriteHref,if_pos starts,List.drop_left,decode_encodeURIComponent]
  rfl

/-- A link without a section and a block, as Markdown reads it. -/
theorem readLink_plain (label target : Text) :
    readLink ('[' :: (escapeLabel label ++ (']' :: '(' ::
        (scheme ++ encodeURIComponent target ++ [')']))) ++ behind) =
      (readDestination 0 (scheme ++ encodeURIComponent target ++ ')' :: behind)).map fun read =>
        ⟨label,read.1,read.2⟩ := by
  have text : readText 0 false (escapeLabel label ++ (']' :: '(' ::
      (scheme ++ encodeURIComponent target ++ ')' :: behind))) =
        some (label,'(' :: (scheme ++ encodeURIComponent target ++ ')' :: behind)) := by
    rw [readText_escapeLabel,readText]
    simp
  have whole : '[' :: (escapeLabel label ++ (']' :: '(' ::
      (scheme ++ encodeURIComponent target ++ [')']))) ++ behind =
        '[' :: (escapeLabel label ++ (']' :: '(' ::
          (scheme ++ encodeURIComponent target ++ ')' :: behind))) := by simp
  rw [whole,readLink,text]
  rfl

theorem readDestination_balanced {target : Text}
    (balanced : parens 0 (encodeURIComponent target) = some 0) :
    readDestination 0 (scheme ++ encodeURIComponent target ++ ')' :: behind) =
      some (scheme ++ encodeURIComponent target,behind) := by
  have step := @readDestination_append 0 _ (solid_written target) (')' :: behind)
  have closed : readDestination 0 (')' :: behind) = some ([],behind) := by
    simp [readDestination,endsDestination]
  rw [parens_written,balanced] at step
  rw [step,closed]
  simp

/-- A link is read to its end only where its parentheses come in pairs. -/
theorem balanced_of_read {target : Text} {read : Text × Text}
    (found : readDestination 0 (scheme ++ encodeURIComponent target ++ ')' :: behind) = some read)
    (rest : read.2 = behind) : parens 0 (encodeURIComponent target) = some 0 := by
  have step := @readDestination_append 0 _ (solid_written target) (')' :: behind)
  rw [parens_written] at step
  have sized := congrArg List.length rest
  cases deep : parens 0 (encodeURIComponent target) with
  | none =>
    rw [deep] at step
    obtain ⟨a,b,-,cut⟩ := step
    rw [found] at cut
    cases cut
    simp only [List.length_append,List.length_cons] at sized
    omega
  | some depth =>
    cases depth with
    | zero => rfl
    | succ depth =>
      rw [deep] at step
      dsimp only at step
      rw [step] at found
      obtain ⟨last,found',rfl⟩ := Option.map_eq_some_iff.mp found
      have inner : readDestination (depth + 1) (')' :: behind) =
          (readDestination depth behind).map fun read => (')' :: read.1,read.2) := by
        simp [readDestination,endsDestination]
      rw [inner] at found'
      obtain ⟨last,found'',rfl⟩ := Option.map_eq_some_iff.mp found'
      obtain ⟨front,whole⟩ := consumed_destination found''
      have longer := congrArg List.length whole
      simp only [List.length_append,List.length_cons] at sized longer
      omega

theorem text_of_readLink {inner : Text} {anchor : Anchor}
    (found : readLink ('[' :: inner) = some anchor) :
    ∃ rest,readText 0 false inner = some (anchor.text,rest) := by
  obtain ⟨⟨text,rest⟩,read,found⟩ := Option.bind_eq_some_iff.mp found
  dsimp only at found
  split at found
  · obtain ⟨_,_,rfl⟩ := Option.map_eq_some_iff.mp found
    exact ⟨_,read⟩
  · cases found

/-- A section or a block is read into the text of the link. -/
theorem text_suffixed {label suffix : Text} {c : Char} {anchor : Anchor} (starts : c = '#' ∨ c = '^')
    (found : readLink ('[' :: (escapeLabel label ++ c :: suffix)) = some anchor) :
    anchor.text ≠ label := by
  obtain ⟨rest,read⟩ := text_of_readLink found
  have plain : readText 0 false (c :: suffix) =
      (readText 0 false suffix).map fun read => (c :: read.1,read.2) := by
    rcases starts with rfl | rfl <;> simp [readText]
  rw [readText_escapeLabel,plain,Option.map_map] at read
  obtain ⟨more,-,same⟩ := Option.map_eq_some_iff.mp read
  intro text
  have sized := congrArg List.length ((Prod.mk.inj same).1.trans text)
  simp only [List.length_append,List.length_cons] at sized
  omega

/-- A link becomes an anchor with its parts exactly when they survive. -/
theorem carried_iff (authored : Authored pair)
    (apart : cutAt ']' (pair.inner ++ [']']) = none) :
    Carried pair behind ↔ Survives pair := by
  have reparsed := @parse_target _ (embeds pair.gap) apart
  constructor
  · rintro ⟨opens,anchor,parsed,read,rest,text,href,target,section_,block⟩
    have named : pair.parsed.target ≠ [] := by
      intro unnamed
      obtain ⟨front,whole⟩ := consumed_link read
      rw [wikilinkToMarkdown_unnamed authored unnamed,rest,List.append_cons front] at whole
      have last := List.append_cancel_right whole
      have shape : bracketed pair.inner = '[' :: '[' :: (pair.inner ++ [']']) ++ [']'] := by
        simp [bracketed]
      rw [shape] at last
      exact absurd (List.append_inj_right' last rfl) (by decide)
    obtain ⟨suffix,written,empty,starts⟩ := wikilinkToMarkdown_eq authored named
    cases suffix with
    | cons c more =>
      rw [written,List.cons_append,List.append_assoc,List.cons_append] at read
      exact (text_suffixed (starts c more rfl) read text).elim
    | nil =>
      obtain ⟨unsectioned,unblocked⟩ := empty.mp rfl
      rw [written,List.nil_append,readLink_plain] at read
      obtain ⟨destination,found,rfl⟩ := Option.map_eq_some_iff.mp read
      have balanced := balanced_of_read found rest
      rw [readDestination_balanced balanced] at found
      obtain rfl := Option.some.inj found
      rw [rewriteHref_written] at href
      obtain rfl := Option.some.inj href
      exact ⟨opens,named,fun bang => reparsed.1 bang target,balanced,unsectioned,unblocked⟩
  · intro survives
    obtain ⟨suffix,written,empty,-⟩ := wikilinkToMarkdown_eq authored survives.named
    obtain rfl := empty.mpr ⟨survives.unsectioned,survives.unblocked⟩
    obtain ⟨same,section_,block⟩ := reparsed.2 survives.plain
    refine ⟨survives.opens,⟨pair.parsed.label,scheme ++ encodeURIComponent pair.parsed.target,
      behind⟩,parseWikilink pair.parsed.target,?_,rfl,rfl,rewriteHref_written _,same,?_,?_⟩
    · rw [written,List.nil_append,readLink_plain,readDestination_balanced survives.balanced]
      rfl
    · rw [survives.unsectioned]
      exact congrArg dataAttribute section_
    · rw [survives.unblocked]
      exact congrArg dataAttribute block

end Links


section Notes

instance (pair : Pair) : Decidable (Authored pair) := inferInstanceAs (Decidable (_ ∧ _ ∧ _))

/-- The text of a link in the line that is parsed. -/
def written (pair : Pair) : Text :=
  if Authored pair then wikilinkToMarkdown (bracketed pair.inner) else bracketed pair.inner

/-- Only what stands in the brackets of authored links is written anew. -/
theorem linkPair_eq (pair : Pair) : linkPair pair = pair.gap ++ written pair := by
  have parsed := parse_bracketed pair.inner
  rw [linkPair,written]
  cases embedded : embeds pair.gap with
  | true =>
    have foreign : ¬ Authored pair := fun authored => by
      have embed := authored.2.1
      simp [Pair.parsed,parseInner,embedded] at embed
    have kept : wikilinkToMarkdown ('!' :: bracketed pair.inner) = '!' :: bracketed pair.inner := by
      rw [wikilinkToMarkdown,parsed.2]
      exact if_pos (.inr (.inl rfl))
    have gap : pair.gap.dropLast ++ ['!'] = pair.gap := by
      have last : pair.gap.getLast? = some '!' := by simpa [embeds] using embedded
      obtain ⟨front,same⟩ := List.getLast?_eq_some_iff.mp last
      rw [same,List.dropLast_concat]
    rw [if_neg foreign]
    simp only [if_true,List.singleton_append,kept,ite_self]
    rw [← List.singleton_append,← List.append_assoc,gap]
  | false =>
    simp only [Bool.false_eq_true,if_false,List.nil_append]
    congr 1
    by_cases authored : Authored pair
    · rw [if_pos authored,if_pos authored.1]
    · rw [if_neg authored]
      split
      · next linked =>
        have web : pair.parsed.web = true := by
          by_contra plain
          refine authored ⟨linked,?_,by simpa using plain⟩
          simp [Pair.parsed,parseInner,embedded]
        have same : parseWikilink (bracketed pair.inner) = pair.parsed := by
          rw [parsed.1,Pair.parsed,embedded]
        rw [wikilinkToMarkdown,same]
        exact if_pos (.inl web)
      · rfl

theorem render_marked (list : List (Text × Text)) (ahead tail : Text) :
    (marked ahead list).flatMap (fun pair => pair.gap ++ bracketed pair.inner) ++ tail =
      renderPairs list tail := by
  induction list generalizing ahead with
  | nil => rfl
  | cons first rest ih =>
    rw [marked,List.flatMap_cons,List.append_assoc,ih]
    rfl

def sectioned : Text := "[[note#Goal]]".toList

end Notes

end LocalBook.Workspace.Anchors
