import LocalBook.Workspace.Following

/-! Renaming a note in the links to it. A link is read into its parts and written again, so what
is read back depends on what the new name and the parts make of each other. -/
namespace LocalBook.Workspace.Renaming

open Following (withoutMarkdown)

/-! ### Cutting texts -/

/-- What stands around the first two `mark`s in a row. -/
def cutAt (mark : Char) : Text → Option (Text × Text)
  | a :: b :: rest =>
    if a = mark ∧ b = mark then some ([],rest)
    else (cutAt mark (b :: rest)).map fun parts => (a :: parts.1,parts.2)
  | _ => none

def cutChar (c : Char) (t : Text) : Text × Option Text :=
  if c ∈ t then (t.takeWhile (· ≠ c),some ((t.dropWhile (· ≠ c)).drop 1)) else (t,none)

section Cutting

variable {mark c : Char} {a b t : Text}

theorem cutAt_some (cut : cutAt mark t = some (a,b)) :
    t = a ++ mark :: mark :: b ∧ cutAt mark (a ++ [mark]) = none := by
  induction t generalizing a with
  | nil => cases cut
  | cons x rest ih =>
    cases rest with
    | nil => cases cut
    | cons y rest =>
      rw [cutAt] at cut
      split at cut
      · next both =>
        cases cut
        exact ⟨by rw [both.1,both.2]; rfl,rfl⟩
      · next other =>
        obtain ⟨⟨a',b'⟩,cut',same⟩ := Option.map_eq_some_iff.mp cut
        cases same
        obtain ⟨whole,clear⟩ := ih cut'
        refine ⟨by rw [whole]; rfl,?_⟩
        cases a' with
        | nil =>
          cases whole
          have first : x ≠ mark := fun same => other ⟨same,rfl⟩
          simp [cutAt,first]
        | cons z a' =>
          cases whole
          simp only [List.cons_append] at clear ⊢
          rw [cutAt,if_neg other,clear]
          rfl

theorem cutAt_append (clear : cutAt mark (a ++ [mark]) = none) (b : Text) :
    cutAt mark (a ++ mark :: mark :: b) = some (a,b) := by
  induction a with
  | nil => simp [cutAt]
  | cons x a ih =>
    cases a with
    | nil =>
      have first : x ≠ mark := by
        rintro rfl
        simp [cutAt] at clear
      simp [cutAt,first]
    | cons y a =>
      simp only [List.cons_append] at clear ih ⊢
      rw [cutAt] at clear ⊢
      split at clear
      · cases clear
      · next other =>
        rw [if_neg other,ih (Option.map_eq_none_iff.mp clear)]
        rfl

theorem cutAt_split (other : c ≠ mark) :
    cutAt mark (a ++ c :: b) = none ↔ cutAt mark a = none ∧ cutAt mark b = none := by
  induction a with
  | nil =>
    cases b with
    | nil => simp [cutAt]
    | cons y b => simp [cutAt,other]
  | cons x a ih =>
    cases a with
    | nil =>
      simp only [List.cons_append,List.nil_append] at ih ⊢
      rw [cutAt,if_neg fun both => other both.2,Option.map_eq_none_iff,ih]
      simp [cutAt]
    | cons y a =>
      simp only [List.cons_append] at ih ⊢
      rw [cutAt,cutAt]
      by_cases both : x = mark ∧ y = mark
      · simp [if_pos both]
      · rw [if_neg both,if_neg both,Option.map_eq_none_iff,Option.map_eq_none_iff,ih]

theorem cutAt_append_none : cutAt mark (a ++ b) = none →
    cutAt mark a = none ∧ cutAt mark b = none := by
  induction a with
  | nil => exact fun clear => ⟨rfl,clear⟩
  | cons x a ih =>
    intro clear
    cases a with
    | nil =>
      cases b with
      | nil => exact ⟨rfl,rfl⟩
      | cons y b =>
        simp only [List.cons_append,List.nil_append,cutAt] at clear
        split at clear
        · cases clear
        · exact ⟨rfl,Option.map_eq_none_iff.mp clear⟩
    | cons y a =>
      simp only [List.cons_append] at clear ih
      rw [cutAt] at clear ⊢
      split at clear
      · cases clear
      · next other =>
        obtain ⟨left,right⟩ := ih (Option.map_eq_none_iff.mp clear)
        rw [if_neg other,left]
        exact ⟨rfl,right⟩

/-- A text without the two marks, and without one at its end. -/
theorem cutAt_closed (clear : cutAt mark a = none) (ends : a.getLast? ≠ some mark) :
    cutAt mark (a ++ [mark]) = none := by
  induction a with
  | nil => rfl
  | cons x a ih =>
    cases a with
    | nil =>
      have first : x ≠ mark := fun same => ends (by rw [same]; rfl)
      simp [cutAt,first]
    | cons y a =>
      simp only [List.cons_append] at ih ⊢
      rw [cutAt] at clear ⊢
      split at clear
      · cases clear
      · next other =>
        rw [if_neg other,ih (Option.map_eq_none_iff.mp clear) (by simpa using ends)]
        rfl

theorem cutChar_free (free : c ∉ t) : cutChar c t = (t,none) := if_neg free

theorem cutChar_append (free : c ∉ a) (b : Text) : cutChar c (a ++ c :: b) = (a,some b) := by
  have kept : ∀ x ∈ a,decide (x ≠ c) = true := fun x inside =>
    decide_eq_true fun same => free (same ▸ inside)
  rw [cutChar,if_pos (by simp),List.takeWhile_append_of_pos kept,List.dropWhile_append_of_pos kept]
  simp

/-- How a text is cut at a character. -/
theorem cutChar_cases (c : Char) (t : Text) : (c ∉ t ∧ cutChar c t = (t,none)) ∨
    ∃ a b,c ∉ a ∧ t = a ++ c :: b ∧ cutChar c t = (a,some b) := by
  by_cases inside : c ∈ t
  · obtain ⟨a,b,whole,free⟩ := List.eq_append_cons_of_mem inside
    exact .inr ⟨a,b,free,whole,by rw [whole,cutChar_append free]⟩
  · exact .inl ⟨inside,cutChar_free inside⟩

end Cutting

/-! ### Lone backticks -/

def tick : Char := Char.ofNat 96

def loneTicks (behind : Bool) : Text → Nat
  | [] => 0
  | c :: rest =>
    if c = tick then
      (if behind = false ∧ rest.head? ≠ some tick then 1 else 0) + loneTicks true rest
    else loneTicks false rest

/-- ``text.match(/(?<!`)`(?!`)/g).length``. -/
def ticks (t : Text) : Nat := loneTicks false t

theorem loneTicks_split {c : Char} (other : c ≠ tick) (behind : Bool) (a b : Text) :
    loneTicks behind (a ++ c :: b) = loneTicks behind a + ticks b := by
  induction a generalizing behind with
  | nil => simp [loneTicks,other,ticks]
  | cons x a ih =>
    have next_ : (a ++ c :: b).head? ≠ some tick ↔ a.head? ≠ some tick := by
      cases a with
      | nil => simp [other]
      | cons y a => simp
    simp only [List.cons_append,loneTicks,ih,next_]
    split
    · omega
    · rfl

theorem ticks_split {c : Char} (other : c ≠ tick) (a b : Text) :
    ticks (a ++ c :: b) = ticks a + ticks b := loneTicks_split other false a b

theorem isJsSpace_tick : isJsSpace tick = false := by decide

theorem ticks_lstrip (t : Text) : ticks (Text.lstripBy isJsSpace t) = ticks t := by
  induction t with
  | nil => rfl
  | cons c rest ih =>
    rw [Text.lstripBy,List.dropWhile_cons]
    split
    · next blank =>
      have other : c ≠ tick := by
        rintro rfl
        rw [isJsSpace_tick] at blank
        cases blank
      have whole := ticks_split other [] rest
      rw [List.nil_append] at whole
      rw [whole]
      change ticks (Text.lstripBy isJsSpace rest) = _
      rw [ih]
      simp [ticks,loneTicks]
    · rfl

theorem ticks_rstrip (t : Text) : ticks (Text.rstripBy isJsSpace t) = ticks t := by
  induction t using List.reverseRecOn with
  | nil => rfl
  | append_singleton rest c ih =>
    rw [Text.rstripBy,List.reverse_append,List.reverse_singleton,List.singleton_append,
      List.dropWhile_cons]
    split
    · next blank =>
      have other : c ≠ tick := by
        rintro rfl
        rw [isJsSpace_tick] at blank
        cases blank
      rw [ticks_split other rest []]
      exact ih
    · simp

theorem ticks_trim (t : Text) : ticks (trim t) = ticks t := by
  rw [trim,Text.stripBy,ticks_rstrip,ticks_lstrip]

/-! ### The pairs of brackets of a line -/

theorem cutAt_shorter {mark : Char} {t a b : Text} (cut : cutAt mark t = some (a,b)) :
    b.length < t.length := by
  rw [(cutAt_some cut).1]
  simp
  omega

/-- The brackets of a line, each with the text in front of it, and the rest. -/
def pairs (line : Text) : List (Text × Text) × Text :=
  match _opened : cutAt '[' line with
  | none => ([],line)
  | some (gap,after) =>
    match _closed : cutAt ']' after with
    | none => ([],line)
    | some (inner,rest) => ((gap,inner) :: (pairs rest).1,(pairs rest).2)
termination_by line.length
decreasing_by
  all_goals exact (cutAt_shorter _closed).trans (cutAt_shorter _opened)

def bracketed (inner : Text) : Text := '[' :: '[' :: (inner ++ [']',']'])

def renderPairs : List (Text × Text) → Text → Text
  | [],tail => tail
  | (gap,inner) :: rest,tail => gap ++ bracketed inner ++ renderPairs rest tail

def Apart (pair : Text × Text) : Prop :=
  cutAt '[' (pair.1 ++ ['[']) = none ∧ cutAt ']' (pair.2 ++ [']']) = none

def Bare (tail : Text) : Prop := (pairs tail).1 = []

theorem pairs_cons {gap inner : Text} (apart : Apart (gap,inner)) (rest : Text) :
    pairs (gap ++ bracketed inner ++ rest) = ((gap,inner) :: (pairs rest).1,(pairs rest).2) := by
  have opened : cutAt '[' (gap ++ bracketed inner ++ rest) =
      some (gap,inner ++ ']' :: ']' :: rest) := by
    have cut := cutAt_append apart.1 (inner ++ ']' :: ']' :: rest)
    simpa [bracketed] using cut
  have closed := cutAt_append apart.2 rest
  rw [pairs]
  split
  · next none_ =>
    rw [opened] at none_
    cases none_
  · next some_ =>
    rw [opened] at some_
    cases some_
    split
    · next none_ =>
      rw [closed] at none_
      cases none_
    · next some_ =>
      rw [closed] at some_
      cases some_
      rfl

/-- A line is its pairs and the rest. -/
theorem render_pairs (line : Text) : renderPairs (pairs line).1 (pairs line).2 = line ∧
    (∀ pair ∈ (pairs line).1,Apart pair) ∧ Bare (pairs line).2 := by
  induction line using pairs.induct with
  | case1 line opened =>
    have alone : pairs line = ([],line) := by
      rw [pairs]
      split
      · rfl
      · next some_ =>
        rw [opened] at some_
        cases some_
    rw [alone]
    exact ⟨rfl,by simp,by rw [Bare,alone]⟩
  | case2 line gap after opened closed =>
    have alone : pairs line = ([],line) := by
      rw [pairs]
      split
      · rfl
      · next some_ =>
        rw [opened] at some_
        cases some_
        split
        · rfl
        · next some_ =>
          rw [closed] at some_
          cases some_
    rw [alone]
    exact ⟨rfl,by simp,by rw [Bare,alone]⟩
  | case3 line gap after opened inner rest closed ih =>
    obtain ⟨front,clear⟩ := cutAt_some opened
    obtain ⟨back,clear'⟩ := cutAt_some closed
    have whole : line = gap ++ bracketed inner ++ rest := by
      rw [front,back]
      simp [bracketed]
    rw [whole,pairs_cons ⟨clear,clear'⟩]
    obtain ⟨rendered,apart,bare⟩ := ih
    refine ⟨by rw [renderPairs,rendered],?_,bare⟩
    intro pair inside
    rcases List.mem_cons.mp inside with rfl | later
    · exact ⟨clear,clear'⟩
    · exact apart pair later

theorem pairs_bare {tail : Text} (bare : Bare tail) : pairs tail = ([],tail) := by
  have back := (render_pairs tail).1
  rw [bare,renderPairs] at back
  exact Prod.ext bare back

theorem pairs_render {list : List (Text × Text)} {tail : Text} (apart : ∀ pair ∈ list,Apart pair)
    (bare : Bare tail) : pairs (renderPairs list tail) = (list,tail) := by
  induction list with
  | nil => exact pairs_bare bare
  | cons pair rest ih =>
    obtain ⟨gap,inner⟩ := pair
    rw [renderPairs,pairs_cons (apart _ List.mem_cons_self),
      ih fun pair inside => apart pair (List.mem_cons_of_mem _ inside)]

/-! ### The links of a line -/

structure Pair where
  gap : Text
  inner : Text
  /-- The pair is not in inline code. -/
  linked : Bool

/-- Whether an even number of lone backticks stands in front of each pair. -/
def marked (ahead : Text) : List (Text × Text) → List Pair
  | [] => []
  | (gap,inner) :: rest =>
    ⟨gap,inner,ticks (ahead ++ gap) % 2 = 0⟩ :: marked (ahead ++ gap ++ bracketed inner) rest

structure WikilinkSpan where
  ahead : Text
  body : Text

def embeds (gap : Text) : Bool := gap.getLast? = some '!'

/-- `held` is the text since the last link. -/
def collect (held : Text) : List Pair → Text → List WikilinkSpan × Text
  | [],tail => ([],held ++ tail)
  | ⟨gap,inner,true⟩ :: rest,tail =>
    let span : WikilinkSpan := if embeds gap then ⟨held ++ gap.dropLast,'!' :: bracketed inner⟩
      else ⟨held ++ gap,bracketed inner⟩
    (span :: (collect [] rest tail).1,(collect [] rest tail).2)
  | ⟨gap,inner,false⟩ :: rest,tail => collect (held ++ gap ++ bracketed inner) rest tail

def lineSpans (line : Text) : List WikilinkSpan × Text :=
  collect [] (marked [] (pairs line).1) (pairs line).2

/-- ``/^\s{0,3}(`{3,}|~{3,})/.exec(line)``: the character of the marker. -/
def fenceMatch (line : Text) : Option Char :=
  let rest := line.dropWhile isJsSpace
  if (line.takeWhile isJsSpace).length ≤ 3 then
    if Text.startsWith rest [tick,tick,tick] then some tick
    else if Text.startsWith rest ['~','~','~'] then some '~' else none
  else none

def scanLines (fence : Option Char) : List Text → List (List WikilinkSpan × Text)
  | [] => []
  | line :: lines =>
    match fenceMatch line with
    | some marker =>
      ([],line) :: scanLines (if fence = some marker then none
        else if fence = none then some marker else fence) lines
    | none => (if fence = none then lineSpans line else ([],line)) :: scanLines fence lines

def wikilinkSpans (source : Text) : List (List WikilinkSpan × Text) :=
  scanLines none (Text.split '\n' source)

/-! ### Reading and writing a link -/

structure WikilinkTarget where
  target : Text
  label : Text
  section_ : Option Text
  block : Option Text
  embed : Bool
  web : Bool
deriving DecidableEq

/-- `/^[A-Za-z][A-Za-z0-9+.-]*:\/\//.test(target)`. -/
def isWeb (target : Text) : Bool :=
  match target with
  | [] => false
  | first :: rest => first.isAlpha &&
      Text.startsWith (rest.dropWhile fun c => c.isAlphanum || c = '+' || c = '.' || c = '-')
        [':','/','/']

def parseInner (embed : Bool) (inner : Text) : WikilinkTarget :=
  let piped := cutChar '|' inner
  let hashed := cutChar '#' piped.1
  let careted := cutChar '^' hashed.1
  let target := trim careted.1
  let label := trim (piped.2.getD target)
  {target
   label := if label = [] then target else label
   section_ := hashed.2
   block := careted.2
   embed
   web := isWeb target}

def parseWikilink (body : Text) : WikilinkTarget :=
  let embed := Text.startsWith body ['!']
  let rest := if embed then body.drop 1 else body
  parseInner embed (if Text.startsWith rest ['[','['] ∧ Text.endsWith rest [']',']'] then
    (rest.take (rest.length - 2)).drop 2 else rest)

def lastSegment (target : Text) : Text := trim ((Text.split '/' target).getLast?.getD target)

/-- `segments.slice(0, -1).join("/")`. -/
def leading (target : Text) : Text := Text.join ['/'] (Text.split '/' target).dropLast

def behind (c : Char) (text : Text) : Text := if text = [] then [] else c :: text

def rebuilt (newStem : Text) (parsed : WikilinkTarget) : Text :=
  (if leading parsed.target ≠ [] then leading parsed.target ++ ['/'] else []) ++ newStem ++
    behind '#' (parsed.section_.getD []) ++ behind '^' (parsed.block.getD []) ++
    (if parsed.label ≠ parsed.target then '|' :: parsed.label else [])

section Rewriting

variable [Hierarchy.Locale]

open Hierarchy.Locale (toLowerCase)

def Renamed (oldStem : Text) (parsed : WikilinkTarget) : Prop :=
  parsed.web = false ∧ parsed.target ≠ [] ∧
    toLowerCase (lastSegment parsed.target) = toLowerCase oldStem

instance (oldStem : Text) : DecidablePred (Renamed oldStem) := fun _ => by
  unfold Renamed
  infer_instance

def rewriteBody (oldStem newStem body : Text) : Text :=
  let parsed := parseWikilink body
  if Renamed oldStem parsed then
    (if parsed.embed then ['!'] else []) ++ bracketed (rebuilt newStem parsed)
  else body

def rewriteLine (oldStem newStem : Text) (line : List WikilinkSpan × Text) : Text :=
  (line.1.flatMap fun span => span.ahead ++ rewriteBody oldStem newStem span.body) ++ line.2

def rewriteWikilinkTarget (source oldStem newStem : Text) (ambiguous : Bool) : Text :=
  if oldStem = [] ∨ newStem = [] ∨ ambiguous then source
  else Text.join ['\n'] ((wikilinkSpans source).map (rewriteLine oldStem newStem))

end Rewriting

/-! ### Rewriting the pairs -/

section Pairing

variable [Hierarchy.Locale] {oldStem newStem : Text}

def Pair.parsed (pair : Pair) : WikilinkTarget := parseInner (embeds pair.gap) pair.inner

omit [Hierarchy.Locale] in
theorem parse_bracketed (inner : Text) :
    parseWikilink (bracketed inner) = parseInner false inner ∧
      parseWikilink ('!' :: bracketed inner) = parseInner true inner := by
  have ends : Text.endsWith (bracketed inner) [']',']'] = true := by
    simp [Text.endsWith,bracketed,List.isSuffixOf_iff_suffix]
    exact ⟨'[' :: '[' :: inner,by simp⟩
  have starts : Text.startsWith (bracketed inner) ['[','['] = true := by
    simp [Text.startsWith,bracketed]
  have cut : ((bracketed inner).take ((bracketed inner).length - 2)).drop 2 = inner := by
    simp [bracketed]
  have plain : Text.startsWith (bracketed inner) ['!'] = false := by
    simp [Text.startsWith,bracketed,List.isPrefixOf]
  have bang : Text.startsWith ('!' :: bracketed inner) ['!'] = true := by
    simp [Text.startsWith]
  constructor
  · simp only [parseWikilink,plain,Bool.false_eq_true,if_false,starts,ends,and_self,if_true,cut]
  · simp only [parseWikilink,bang,if_true,List.drop_succ_cons,List.drop_zero,starts,ends,and_self,
      cut]

/-- What stands between the brackets after the rewriting. -/
def Pair.written (oldStem newStem : Text) (pair : Pair) : Text :=
  if pair.linked = true ∧ Renamed oldStem pair.parsed then rebuilt newStem pair.parsed
  else pair.inner

theorem rewriteLine_collect (list : List Pair) (held tail : Text) :
    rewriteLine oldStem newStem (collect held list tail) =
      held ++ renderPairs (list.map fun pair => (pair.gap,pair.written oldStem newStem)) tail := by
  induction list generalizing held with
  | nil => simp [collect,rewriteLine,renderPairs]
  | cons pair rest ih =>
    obtain ⟨gap,inner,linked⟩ := pair
    cases linked with
    | false =>
      rw [collect,ih]
      simp [renderPairs,Pair.written]
    | true =>
      have later := ih []
      rw [List.nil_append] at later
      rw [List.map_cons,renderPairs,← later]
      by_cases embed : embeds gap = true
      · have ends : gap.dropLast ++ ['!'] = gap := by
          obtain ⟨front,rfl⟩ := List.getLast?_eq_some_iff.mp (of_decide_eq_true embed)
          simp
        have parsed : (Pair.mk gap inner true).parsed = parseInner true inner := by
          rw [Pair.parsed,embed]
        have reads : (parseInner true inner).embed = true := rfl
        simp only [collect,if_pos embed,rewriteLine,List.flatMap_cons,rewriteBody,
          (parse_bracketed inner).2,Pair.written,parsed,true_and]
        split
        · conv_rhs => rw [← ends]
          simp
        · conv_rhs => rw [← ends]
          simp
      · have parsed : (Pair.mk gap inner true).parsed = parseInner false inner := by
          rw [Pair.parsed,Bool.eq_false_iff.mpr embed]
        have reads : (parseInner false inner).embed = false := rfl
        simp only [collect,if_neg embed,rewriteLine,List.flatMap_cons,rewriteBody,
          (parse_bracketed inner).1,Pair.written,parsed,true_and]
        split
        · simp [reads]
        · simp

def Closes (ahead : Text) : Prop := ∀ gap,ticks (ahead ++ gap) = ticks ahead + ticks gap

omit [Hierarchy.Locale] in
theorem closes_nil : Closes [] := fun gap => by simp [ticks,loneTicks]

omit [Hierarchy.Locale] in
theorem ticks_bracketed (front inner gap : Text) :
    ticks (front ++ bracketed inner ++ gap) = ticks front + ticks inner + ticks gap := by
  have opening : '[' ≠ tick := by decide
  have closing : ']' ≠ tick := by decide
  have whole : front ++ bracketed inner ++ gap =
      front ++ '[' :: ([] ++ '[' :: (inner ++ ']' :: ([] ++ ']' :: gap))) := by
    simp [bracketed]
  rw [whole,ticks_split opening,ticks_split opening,ticks_split closing,ticks_split closing]
  simp [ticks,loneTicks]
  omega

omit [Hierarchy.Locale] in
theorem closes_bracketed (front inner : Text) : Closes (front ++ bracketed inner) := by
  intro gap
  have alone := ticks_bracketed front inner []
  rw [List.append_nil] at alone
  rw [ticks_bracketed,alone]
  simp [ticks,loneTicks]

omit [Hierarchy.Locale] in
/-- Brackets stay in or out of code where what stands in front of them keeps the parity of its
lone backticks. -/
theorem marked_map (write : Pair → Text) (list : List (Text × Text)) {ahead ahead' : Text}
    (closes : Closes ahead) (closes' : Closes ahead') (even : ticks ahead' % 2 = ticks ahead % 2)
    (steady : ∀ pair ∈ (marked ahead list).dropLast,
      ticks (write pair) % 2 = ticks pair.inner % 2) :
    marked ahead' ((marked ahead list).map fun pair => (pair.gap,write pair)) =
      (marked ahead list).map fun pair => {pair with inner := write pair} := by
  induction list generalizing ahead ahead' with
  | nil => rfl
  | cons pair rest ih =>
    obtain ⟨gap,inner⟩ := pair
    have same : ticks (ahead' ++ gap) % 2 = ticks (ahead ++ gap) % 2 := by
      rw [closes,closes']
      omega
    simp only [marked,List.map_cons,same]
    congr 1
    cases rest with
    | nil => rfl
    | cons after rest =>
      have own := steady ⟨gap,inner,ticks (ahead ++ gap) % 2 = 0⟩ (by simp [marked])
      apply ih (closes_bracketed _ _) (closes_bracketed _ _)
      · have one := ticks_bracketed (ahead ++ gap) inner []
        have two := ticks_bracketed (ahead' ++ gap)
          (write ⟨gap,inner,ticks (ahead ++ gap) % 2 = 0⟩) []
        rw [List.append_nil] at one two
        have kept : ticks (write ⟨gap,inner,ticks (ahead ++ gap) % 2 = 0⟩) % 2 =
            ticks inner % 2 := own
        have empty : ticks [] = 0 := rfl
        rw [one,two,empty]
        omega
      · intro pair inside
        apply steady pair
        obtain ⟨gap',inner'⟩ := after
        rw [marked] at inside
        rw [marked,marked,List.dropLast_cons_cons]
        exact List.mem_cons_of_mem _ inside

end Pairing

/-! ### What is kept -/

section Keeping

variable [Hierarchy.Locale]

open Hierarchy.Locale (toLowerCase)

def Named (oldStem : Text) (parsed : WikilinkTarget) : Prop :=
  parsed.web = false ∧ parsed.target ≠ [] ∧
    (toLowerCase (lastSegment parsed.target) = toLowerCase oldStem ∨
      toLowerCase (withoutMarkdown (lastSegment parsed.target)) = toLowerCase oldStem)

def Names (stem target : Text) : Prop :=
  lastSegment target = stem ∨ withoutMarkdown (lastSegment target) = stem

structure Repointed (newStem : Text) (parsed parsed' : WikilinkTarget) : Prop where
  folders : (Text.split '/' parsed'.target).dropLast = (Text.split '/' parsed.target).dropLast
  stem : Names newStem parsed'.target
  label : parsed'.label = if parsed.label = parsed.target then parsed'.target else parsed.label
  section_ : parsed'.section_ = parsed.section_
  block : parsed'.block = parsed.block
  embed : parsed'.embed = parsed.embed
  web : parsed'.web = false

def Follows (oldStem newStem : Text) (parsed parsed' : WikilinkTarget) : Prop :=
  (Named oldStem parsed → Repointed newStem parsed parsed') ∧
    (¬Named oldStem parsed → parsed' = parsed)

/-- The links of a line are those of the other one, in the same number and order, and the text
between them is the same. -/
def LineFollows (oldStem newStem : Text) (line line' : List WikilinkSpan × Text) : Prop :=
  List.Forall₂ (fun span span' => span'.ahead = span.ahead ∧
    Follows oldStem newStem (parseWikilink span.body) (parseWikilink span'.body)) line.1 line'.1 ∧
  line'.2 = line.2

/-- The rewritten text, read again, has the links of the text. -/
def Faithful (oldStem newStem source : Text) : Prop :=
  List.Forall₂ (LineFollows oldStem newStem) (wikilinkSpans source)
    (wikilinkSpans (rewriteWikilinkTarget source oldStem newStem false))

def lastPart (newStem : Text) (parsed : WikilinkTarget) : Text :=
  if parsed.label ≠ parsed.target then parsed.label
  else (parsed.block.or parsed.section_).getD newStem

/-- The parts of a link that are written so that they are read again. -/
structure Rewritable (newStem : Text) (parsed : WikilinkTarget) : Prop where
  folders : '/' ∈ parsed.target → leading parsed.target ≠ []
  one : parsed.section_ = none ∨ parsed.block = none
  section_ : parsed.section_ ≠ some []
  block : parsed.block ≠ some []
  ends : (lastPart newStem parsed).getLast? ≠ some ']'

structure Unmarked (stem : Text) : Prop where
  trimmed : trim stem = stem
  pipe : '|' ∉ stem
  hash : '#' ∉ stem
  caret : '^' ∉ stem
  line : '\n' ∉ stem
  closing : cutAt ']' stem = none

structure LinkFits (oldStem newStem : Text) (parsed : WikilinkTarget) : Prop where
  renamed : Renamed oldStem parsed → Rewritable newStem parsed ∧ Unmarked newStem
  other : Named oldStem parsed → ¬Renamed oldStem parsed → Names newStem parsed.target

def leftOut (pair : Pair) : Text :=
  if pair.parsed.label = pair.parsed.target then ((cutChar '|' pair.inner).2).getD [] else []

structure LineFits (oldStem newStem line : Text) : Prop where
  links : ∀ pair ∈ marked [] (pairs line).1,pair.linked = true →
    LinkFits oldStem newStem pair.parsed
  code : ∀ pair ∈ (marked [] (pairs line).1).dropLast,pair.linked = true →
    Renamed oldStem pair.parsed →
      ticks newStem % 2 = (ticks (lastSegment pair.parsed.target) + ticks (leftOut pair)) % 2

/-- The lines that stand outside fences. -/
def openLines (fence : Option Char) : List Text → List Text
  | [] => []
  | line :: lines =>
    match fenceMatch line with
    | some marker =>
      openLines (if fence = some marker then none
        else if fence = none then some marker else fence) lines
    | none => if fence = none then line :: openLines fence lines else openLines fence lines

def Fits (oldStem newStem source : Text) : Prop :=
  ∀ line ∈ openLines none (Text.split '\n' source),LineFits oldStem newStem line

theorem collect_follows {oldStem newStem : Text} (write : Pair → Text) (tail : Text)
    {list : List Pair} (kept : ∀ pair ∈ list,pair.linked = false → write pair = pair.inner)
    (follows : ∀ pair ∈ list,pair.linked = true → Follows oldStem newStem pair.parsed
      (parseInner (embeds pair.gap) (write pair))) (held : Text) :
    LineFollows oldStem newStem (collect held list tail)
      (collect held (list.map fun pair => {pair with inner := write pair}) tail) := by
  induction list generalizing held with
  | nil => exact ⟨.nil,rfl⟩
  | cons pair rest ih =>
    have later := ih (fun pair inside => kept pair (List.mem_cons_of_mem _ inside))
      fun pair inside => follows pair (List.mem_cons_of_mem _ inside)
    have own := follows pair List.mem_cons_self
    have same := kept pair List.mem_cons_self
    obtain ⟨gap,inner,linked⟩ := pair
    cases linked with
    | false =>
      rw [List.map_cons,same rfl,collect,collect]
      exact later _
    | true =>
      obtain ⟨spans,tails⟩ := later []
      have reads : Follows oldStem newStem (parseInner (embeds gap) inner)
          (parseInner (embeds gap) (write ⟨gap,inner,true⟩)) := own rfl
      rw [List.map_cons,collect,collect]
      refine ⟨.cons ?_ spans,tails⟩
      by_cases embed : embeds gap = true
      · rw [embed] at reads
        simp only [if_pos embed,(parse_bracketed _).2]
        exact ⟨trivial,reads⟩
      · rw [Bool.eq_false_iff.mpr embed] at reads
        simp only [if_neg embed,(parse_bracketed _).1]
        exact ⟨trivial,reads⟩

end Keeping

/-! ### Reading back what is written -/

section Reading

variable {embed : Bool} {inner newStem target : Text} {parsed : WikilinkTarget} {mark : Char}

theorem leading_top (top : '/' ∉ target) : leading target = [] ∧
    (Text.split '/' target).getLast?.getD target = target := by
  simp [leading,Text.split,List.splitOn_eq_singleton top,Text.join]

theorem leading_inner (parent : Text) {name : Text} (free : '/' ∉ name) :
    leading (parent ++ '/' :: name) = parent ∧
      (Text.split '/' (parent ++ '/' :: name)).getLast?.getD (parent ++ '/' :: name) = name ∧
      (Text.split '/' (parent ++ '/' :: name)).dropLast = Text.split '/' parent := by
  rw [leading,Vault.split_last_slash parent free,List.dropLast_concat,Text.join_split]
  simp

theorem mem_trim {t : Text} {c : Char} (inside : c ∈ trim t) : c ∈ t :=
  Vault.mem_of_mem_stripBy inside

theorem trim_infix (t : Text) : ∃ a b,t = a ++ trim t ++ b := by
  obtain ⟨tail,back⟩ := Vault.rstripBy_begins isJsSpace (Text.lstripBy isJsSpace t)
  obtain ⟨front,whole⟩ := Vault.lstripBy_suffix isJsSpace t
  refine ⟨front,tail,?_⟩
  change trim t ++ tail = _ at back
  rw [List.append_assoc,back,whole]

theorem cutAt_trim {t : Text} (clear : cutAt mark t = none) : cutAt mark (trim t) = none := by
  obtain ⟨a,b,whole⟩ := trim_infix t
  rw [whole,List.append_assoc] at clear
  exact (cutAt_append_none (cutAt_append_none clear).2).1

def part (c : Char) : Option Text → Text
  | none => []
  | some t => c :: t

theorem cutChar_part {c : Char} {t : Text} (free : c ∉ t) (rest : Option Text) :
    cutChar c (t ++ part c rest) = (t,rest) := by
  cases rest with
  | none => rw [part,List.append_nil,cutChar_free free]
  | some rest => exact cutChar_append free rest

theorem exists_part (c : Char) (t : Text) : ∃ a rest,c ∉ a ∧ t = a ++ part c rest := by
  rcases cutChar_cases c t with ⟨free,_⟩ | ⟨a,b,free,whole,_⟩
  · exact ⟨t,none,free,by simp [part]⟩
  · exact ⟨a,some b,free,whole⟩

theorem cutAt_part {c : Char} (other : c ≠ mark) (t : Text) (rest : Option Text) :
    cutAt mark (t ++ part c rest) = none ↔
      cutAt mark t = none ∧ ∀ text ∈ rest,cutAt mark text = none := by
  cases rest with
  | none => simp [part]
  | some rest =>
    rw [part,cutAt_split other]
    simp

theorem last_part {c : Char} (other : c ≠ mark) {t : Text} {rest : Option Text}
    (ends : (rest.getD t).getLast? ≠ some mark) : (t ++ part c rest).getLast? ≠ some mark := by
  cases rest with
  | none => simpa [part] using ends
  | some rest =>
    cases rest with
    | nil => simpa [part] using other
    | cons x rest => simpa [part,List.getLast?_cons_cons] using ends

theorem ticks_part {c : Char} (other : c ≠ tick) (t : Text) (rest : Option Text) :
    ticks (t ++ part c rest) = ticks t + ticks (rest.getD []) := by
  cases rest with
  | none => simp [part,ticks,loneTicks]
  | some rest => exact ticks_split other t rest

def compose (named : Text) (block section_ alias_ : Option Text) : Text :=
  named ++ part '^' block ++ part '#' section_ ++ part '|' alias_

/-- The parts are free of the marks that would be read before theirs. -/
structure Free (named : Text) (block section_ : Option Text) : Prop where
  pipe : '|' ∉ named
  hash : '#' ∉ named
  caret : '^' ∉ named
  block : ∀ text ∈ block,'|' ∉ text ∧ '#' ∉ text
  section_ : ∀ text ∈ section_,'|' ∉ text

theorem not_mem_part {c d : Char} {t : Text} {rest : Option Text} (free : c ∉ t) (other : c ≠ d)
    (inner : ∀ text ∈ rest,c ∉ text) : c ∉ t ++ part d rest := by
  cases rest with
  | none => simpa [part] using free
  | some rest => simpa [part,free,other] using inner rest rfl

theorem parse_compose {named : Text} {block section_ : Option Text}
    (free : Free named block section_) (alias_ : Option Text) :
    parseInner embed (compose named block section_ alias_) =
      {target := trim named
       label := if trim (alias_.getD (trim named)) = [] then trim named
        else trim (alias_.getD (trim named))
       section_,block,embed,web := isWeb (trim named)} := by
  have hash : '#' ∉ named ++ part '^' block :=
    not_mem_part free.hash (by decide) fun text inside => (free.block text inside).2
  have pipe : '|' ∉ named ++ part '^' block ++ part '#' section_ :=
    not_mem_part (not_mem_part free.pipe (by decide) fun text inside =>
      (free.block text inside).1) (by decide) free.section_
  simp only [parseInner,compose,cutChar_part pipe,cutChar_part hash,cutChar_part free.caret]

theorem exists_compose (inner : Text) : ∃ named block section_ alias_,
    inner = compose named block section_ alias_ ∧ Free named block section_ := by
  obtain ⟨whole,alias_,pipe,rfl⟩ := exists_part '|' inner
  obtain ⟨linked,section_,hash,rfl⟩ := exists_part '#' whole
  obtain ⟨named,block,caret,rfl⟩ := exists_part '^' linked
  refine ⟨named,block,section_,alias_,rfl,?_,?_,caret,?_,?_⟩
  · exact fun inside => pipe (by simp [inside])
  · exact fun inside => hash (by simp [inside])
  · rintro text there
    obtain rfl : block = some text := there
    exact ⟨fun inside => pipe (by simp [part,inside]),fun inside => hash (by simp [part,inside])⟩
  · rintro text there
    obtain rfl : section_ = some text := there
    exact fun inside => pipe (by simp [part,inside])

theorem isWeb_leading (parent : Text) {name name' : Text} (free : '/' ∉ name)
    (free' : '/' ∉ name') : isWeb (parent ++ '/' :: name) = isWeb (parent ++ '/' :: name') := by
  have short : ∀ (t name : Text),'/' ∉ name → Text.startsWith (t ++ '/' :: name) [':','/','/'] =
      Text.startsWith (t ++ ['/']) [':','/','/'] := by
    intro t name free
    cases t with
    | nil => simp [Text.startsWith,List.isPrefixOf]
    | cons a t =>
      cases t with
      | nil =>
        cases name with
        | nil => rfl
        | cons c name =>
          have other : c ≠ '/' := fun same => free (by simp [same])
          simp [Text.startsWith,List.isPrefixOf,Ne.symm other]
      | cons b t =>
        cases t with
        | nil => simp [Text.startsWith,List.isPrefixOf]
        | cons c t => simp [Text.startsWith,List.isPrefixOf]
  have dropped : ∀ (t name : Text),((t ++ '/' :: name).dropWhile fun c => c.isAlphanum || c = '+' ||
      c = '.' || c = '-') = (t.dropWhile fun c => c.isAlphanum || c = '+' || c = '.' ||
        c = '-') ++ '/' :: name := by
    intro t name
    rw [List.dropWhile_append]
    split
    · next gone =>
      rw [List.isEmpty_iff.mp gone,List.nil_append]
      rfl
    · rfl
  cases parent with
  | nil => rfl
  | cons first parent =>
    simp only [List.cons_append,isWeb]
    rw [dropped,dropped,short _ _ free,short _ _ free']

theorem isWeb_top {name : Text} (free : '/' ∉ name) : isWeb name = false := by
  cases name with
  | nil => rfl
  | cons first rest =>
    rw [isWeb,Bool.and_eq_false_iff]
    right
    rw [Bool.eq_false_iff]
    intro starts
    obtain ⟨after,whole⟩ := List.isPrefixOf_iff_prefix.mp starts
    have inside : '/' ∈ rest.dropWhile fun c => c.isAlphanum || c = '+' || c = '.' || c = '-' := by
      rw [← whole]
      simp
    exact free (List.mem_cons_of_mem _ ((List.dropWhile_sublist _).subset inside))

end Reading

/-! ### A link that is kept -/

section Keeps

variable [Hierarchy.Locale] {oldStem newStem inner : Text} {embed : Bool}

/-- A target, as far as its last segment. -/
def before (target : Text) : Text := if leading target ≠ [] then leading target ++ ['/'] else []

omit [Hierarchy.Locale] in
theorem target_cases {target : Text} (folders : '/' ∈ target → leading target ≠ []) :
    ('/' ∉ target ∧ before target = []) ∨ ∃ parent name,parent ≠ [] ∧ '/' ∉ name ∧
      target = parent ++ '/' :: name ∧ before target = parent ++ ['/'] := by
  by_cases slash : '/' ∈ target
  · obtain ⟨parent,name,rfl,free⟩ := Vault.exists_last_slash slash
    have some_ := folders slash
    rw [(leading_inner parent free).1] at some_
    exact .inr ⟨parent,name,some_,free,rfl,by
      rw [before,(leading_inner parent free).1,if_pos some_]⟩
  · exact .inl ⟨slash,by rw [before,(leading_top slash).1]; rfl⟩

omit [Hierarchy.Locale] in
/-- A part is written where it is there and not empty. -/
theorem behind_eq {c : Char} {rest : Option Text} (some_ : rest ≠ some []) :
    behind c (rest.getD []) = part c rest := by
  cases rest with
  | none => rfl
  | some rest =>
    have nonempty : rest ≠ [] := fun empty => some_ (by rw [empty])
    rw [Option.getD_some,behind,if_neg nonempty,part]

omit [Hierarchy.Locale] in
theorem rebuilt_eq {parsed : WikilinkTarget} (fits : Rewritable newStem parsed) :
    rebuilt newStem parsed = compose (before parsed.target ++ newStem) parsed.block
      parsed.section_ (if parsed.label ≠ parsed.target then some parsed.label else none) := by
  have last : (if parsed.label ≠ parsed.target then '|' :: parsed.label else []) =
      part '|' (if parsed.label ≠ parsed.target then some parsed.label else none) := by
    split
    · rfl
    · rfl
  rw [rebuilt,behind_eq fits.section_,behind_eq fits.block,last,compose,before]
  rcases fits.one with none_ | none_
  · simp [none_,part]
  · simp [none_,part]

omit [Hierarchy.Locale] in
/-- The new target has the folders of the old one and the new stem behind them. -/
theorem renamed_target {target : Text} (trimmed : trim target = target)
    (folders : '/' ∈ target → leading target ≠ []) (web : isWeb target = false)
    (unmarked : trim newStem = newStem) (segment : '/' ∉ newStem) :
    trim (before target ++ newStem) = before target ++ newStem ∧
      lastSegment (before target ++ newStem) = newStem ∧
      (Text.split '/' (before target ++ newStem)).dropLast = (Text.split '/' target).dropLast ∧
      isWeb (before target ++ newStem) = false := by
  rcases target_cases folders with ⟨top,none_⟩ | ⟨parent,name,some_,free,rfl,whole⟩
  · rw [none_,List.nil_append]
    refine ⟨unmarked,?_,?_,isWeb_top segment⟩
    · rw [lastSegment,(leading_top segment).2,unmarked]
    · simp [Text.split,List.splitOn_eq_singleton segment,List.splitOn_eq_singleton top]
  · have joined : before (parent ++ '/' :: name) ++ newStem = parent ++ '/' :: newStem := by
      rw [whole]
      simp
    rw [joined]
    obtain ⟨_,last,dropped⟩ := leading_inner parent segment
    refine ⟨?_,?_,?_,?_⟩
    · apply Following.trim_fixed
      · intro c first
        obtain ⟨x,rest,rfl⟩ := List.exists_cons_of_ne_nil some_
        obtain rfl : x = c := Option.some.inj first
        apply Following.head_trim (t := x :: rest ++ '/' :: name)
        rw [trimmed]
        rfl
      · intro c final
        by_cases empty : newStem = []
        · rw [empty,List.getLast?_concat] at final
          obtain rfl : '/' = c := Option.some.inj final
          decide
        · apply Following.last_trim (t := newStem)
          rw [unmarked]
          obtain ⟨x,rest,rfl⟩ := List.exists_cons_of_ne_nil empty
          rw [List.getLast?_append,List.getLast?_cons_cons,List.getLast?_cons,
            Option.some_or] at final
          rwa [List.getLast?_cons]
    · rw [lastSegment,last,unmarked]
    · rw [dropped,(leading_inner parent free).2.2]
    · rw [← web]
      exact isWeb_leading parent segment free

omit [Hierarchy.Locale] in
theorem before_sub {target : Text} {c : Char} (inside : c ∈ before target) : c ∈ target := by
  by_cases folders : '/' ∈ target → leading target ≠ []
  · rcases target_cases folders with ⟨_,none_⟩ | ⟨parent,name,_,_,rfl,whole⟩
    · rw [none_] at inside
      cases inside
    · rw [whole] at inside
      simp only [List.mem_append,List.mem_singleton] at inside
      rcases inside with inner | rfl
      · simp [inner]
      · simp
  · obtain ⟨_,none_⟩ := Classical.not_imp.mp folders
    rw [before,if_neg none_] at inside
    cases inside

omit [Hierarchy.Locale] in
theorem free_written {named : Text} {block section_ : Option Text}
    (free : Free named block section_) (unmarked : Unmarked newStem) :
    Free (before (trim named) ++ newStem) block section_ where
  pipe inside := (List.mem_append.mp inside).elim
    (fun inner => free.pipe (mem_trim (before_sub inner))) unmarked.pipe
  hash inside := (List.mem_append.mp inside).elim
    (fun inner => free.hash (mem_trim (before_sub inner))) unmarked.hash
  caret inside := (List.mem_append.mp inside).elim
    (fun inner => free.caret (mem_trim (before_sub inner))) unmarked.caret
  block := free.block
  section_ := free.section_

/-- A link that is written anew names the new stem and is otherwise as it was. -/
theorem repointed (renamed : Renamed oldStem (parseInner embed inner))
    (fits : Rewritable newStem (parseInner embed inner)) (unmarked : Unmarked newStem)
    (some_ : newStem ≠ []) (segment : '/' ∉ newStem) :
    Repointed newStem (parseInner embed inner)
      (parseInner embed (rebuilt newStem (parseInner embed inner))) := by
  obtain ⟨named,block,section_,alias_,rfl,free⟩ := exists_compose inner
  rw [rebuilt_eq fits]
  have web := renamed.1
  have folders := fits.folders
  rw [parse_compose free] at web folders ⊢
  obtain ⟨trimmed,last,dropped,plain⟩ := renamed_target (Following.trim_trim named) folders web
    unmarked.trimmed segment
  have longer : before (trim named) ++ newStem ≠ [] := by simp [some_]
  rw [parse_compose (free_written free unmarked),trimmed]
  refine ⟨dropped,.inl last,?_,rfl,rfl,rfl,plain⟩
  generalize shown : (if trim (alias_.getD (trim named)) = [] then trim named
    else trim (alias_.getD (trim named))) = label
  by_cases same : label = trim named
  · simp [same,trimmed]
  · have own : label = trim (alias_.getD (trim named)) ∧ label ≠ [] := by
      rw [← shown] at same ⊢
      split
      · next empty =>
        rw [if_pos empty] at same
        exact absurd rfl same
      · next nonempty => exact ⟨rfl,nonempty⟩
    have again : trim label = label := by
      rw [own.1]
      exact Following.trim_trim _
    simp [same,again,own.2]

omit [Hierarchy.Locale] in
/-- A label that is not the target is the trimmed alias. -/
theorem label_cases (named : Text) (alias_ : Option Text) :
    ((if trim (alias_.getD (trim named)) = [] then trim named
      else trim (alias_.getD (trim named))) = trim named) ∨
    ∃ shown,alias_ = some shown ∧ (if trim (alias_.getD (trim named)) = [] then trim named
      else trim (alias_.getD (trim named))) = trim shown := by
  cases alias_ with
  | none =>
    left
    rw [Option.getD_none,Following.trim_trim]
    split
    · rfl
    · rfl
  | some shown =>
    rw [Option.getD_some]
    split
    · exact .inl rfl
    · exact .inr ⟨shown,rfl,rfl⟩

omit [Hierarchy.Locale] in
/-- Nothing in the link that is written closes it early. -/
theorem clear_written (clear : cutAt ']' (inner ++ [']']) = none)
    (fits : Rewritable newStem (parseInner embed inner)) (unmarked : Unmarked newStem)
    (some_ : newStem ≠ []) :
    cutAt ']' (rebuilt newStem (parseInner embed inner) ++ [']']) = none := by
  obtain ⟨named,block,section_,alias_,rfl,free⟩ := exists_compose inner
  rw [rebuilt_eq fits]
  obtain ⟨folders,one,_,_,ends⟩ := fits
  rw [lastPart] at ends
  simp only [parse_compose free] at folders one ends ⊢
  obtain ⟨⟨⟨named_,block_⟩,sections⟩,aliases⟩ : ((cutAt ']' named = none ∧
      ∀ text ∈ block,cutAt ']' text = none) ∧ ∀ text ∈ section_,cutAt ']' text = none) ∧
        ∀ text ∈ alias_,cutAt ']' text = none := by
    rw [← cutAt_part (by decide : '^' ≠ ']'),← cutAt_part (by decide : '#' ≠ ']'),
      ← cutAt_part (by decide : '|' ≠ ']')]
    exact (cutAt_append_none clear).1
  have front : cutAt ']' (before (trim named) ++ newStem) = none := by
    have target := cutAt_trim named_
    rcases target_cases folders with ⟨_,none_⟩ | ⟨parent,name,_,_,whole,none_⟩
    · rw [none_]
      exact unmarked.closing
    · rw [whole,cutAt_split (by decide)] at target
      rw [none_,List.append_assoc]
      exact (cutAt_split (by decide)).mpr ⟨target.1,unmarked.closing⟩
  have labelled := label_cases named alias_
  generalize (if trim (alias_.getD (trim named)) = [] then trim named
    else trim (alias_.getD (trim named))) = label at ends labelled ⊢
  apply cutAt_closed
  · rw [compose,cutAt_part (by decide),cutAt_part (by decide),cutAt_part (by decide)]
    refine ⟨⟨⟨front,block_⟩,sections⟩,?_⟩
    intro text there
    split at there
    · next other =>
      obtain rfl : label = text := Option.some.inj there
      rcases labelled with same | ⟨shown,rfl,rfl⟩
      · exact absurd same other
      · exact cutAt_trim (aliases shown rfl)
    · cases there
  · apply last_part (by decide)
    split at ends
    · next other => rwa [if_pos other,Option.getD_some]
    · next same =>
      rw [if_neg same,Option.getD_none]
      apply last_part (by decide)
      cases section_ with
      | some text =>
        obtain rfl : block = none := one.resolve_left (by simp)
        exact ends
      | none =>
        rw [Option.getD_none]
        apply last_part (by decide)
        cases block with
        | some text => exact ends
        | none =>
          obtain ⟨x,rest,rfl⟩ := List.exists_cons_of_ne_nil some_
          have ends' : (x :: rest).getLast? ≠ some ']' := ends
          rw [List.getLast?_cons] at ends'
          rwa [Option.getD_none,List.getLast?_append,List.getLast?_cons,Option.some_or]

omit [Hierarchy.Locale] in
/-- The lone backticks of the link that is written differ from those of the link by the segment
and the alias that are left out. -/
theorem ticks_written {pair : Pair} (fits : Rewritable newStem pair.parsed) :
    ticks (rebuilt newStem pair.parsed) + ticks (lastSegment pair.parsed.target) +
      ticks (leftOut pair) = ticks pair.inner + ticks newStem := by
  obtain ⟨gap,inner,linked⟩ := pair
  rw [rebuilt_eq fits,leftOut]
  have folders := fits.folders
  simp only [Pair.parsed] at folders ⊢
  obtain ⟨named,block,section_,alias_,rfl,free⟩ := exists_compose inner
  have pipe : '|' ∉ named ++ part '^' block ++ part '#' section_ :=
    not_mem_part (not_mem_part free.pipe (by decide) fun text inside =>
      (free.block text inside).1) (by decide) free.section_
  have cut := cutChar_part pipe alias_
  simp only [parse_compose free] at folders ⊢
  have front : ticks (before (trim named) ++ newStem) + ticks (lastSegment (trim named)) =
      ticks named + ticks newStem := by
    rcases target_cases folders with ⟨top,none_⟩ | ⟨parent,name,_,free',whole,none_⟩
    · rw [none_,lastSegment,(leading_top top).2,ticks_trim,ticks_trim,List.nil_append]
      omega
    · have parts : ticks named = ticks parent + ticks name := by
        rw [← ticks_trim named,whole,ticks_split (by decide)]
      rw [none_,whole,lastSegment,(leading_inner parent free').2.1,ticks_trim,List.append_assoc,
        List.singleton_append,ticks_split (by decide),parts]
      omega
  have labelled := label_cases named alias_
  simp only [compose,ticks_part (by decide : '^' ≠ tick),ticks_part (by decide : '#' ≠ tick),
    ticks_part (by decide : '|' ≠ tick),cut]
  generalize (if trim (alias_.getD (trim named)) = [] then trim named
    else trim (alias_.getD (trim named))) = label at labelled ⊢
  by_cases same : label = trim named
  · have empty : ticks [] = 0 := rfl
    simp only [same,ne_eq,not_true_eq_false,if_false,if_true,Option.getD_none,empty]
    omega
  · obtain ⟨shown,rfl,rfl⟩ := labelled.resolve_left same
    have empty : ticks [] = 0 := rfl
    simp only [same,ne_eq,not_false_eq_true,if_true,if_false,Option.getD_some,ticks_trim,empty]
    omega

end Keeps

/-! ### The whole text -/

section Whole

variable [Hierarchy.Locale] {oldStem newStem line : Text}

omit [Hierarchy.Locale] in
theorem mem_marked {pair : Pair} {list : List (Text × Text)} {ahead : Text}
    (inside : pair ∈ marked ahead list) : (pair.gap,pair.inner) ∈ list := by
  induction list generalizing ahead with
  | nil => cases inside
  | cons first rest ih =>
    obtain ⟨gap,inner⟩ := first
    rcases List.mem_cons.mp inside with rfl | later
    · exact List.mem_cons_self
    · exact List.mem_cons_of_mem _ (ih later)

theorem rewriteLine_eq (line : Text) : rewriteLine oldStem newStem (lineSpans line) =
    renderPairs ((marked [] (pairs line).1).map fun pair =>
      (pair.gap,pair.written oldStem newStem)) (pairs line).2 := by
  rw [lineSpans,rewriteLine_collect,List.nil_append]

/-- A link is kept by the rewriting. -/
theorem follows_written {pair : Pair} (fits : LinkFits oldStem newStem pair.parsed)
    (linked : pair.linked = true) (some_ : newStem ≠ []) (segment : '/' ∉ newStem) :
    Follows oldStem newStem pair.parsed
      (parseInner (embeds pair.gap) (pair.written oldStem newStem)) := by
  by_cases renamed : Renamed oldStem pair.parsed
  · obtain ⟨rewritable,unmarked⟩ := fits.renamed renamed
    rw [Pair.written,if_pos ⟨linked,renamed⟩]
    constructor
    · exact fun _ => repointed renamed rewritable unmarked some_ segment
    · intro other
      exact absurd ⟨renamed.1,renamed.2.1,.inl renamed.2.2⟩ other
  · rw [Pair.written,if_neg fun both => renamed both.2]
    constructor
    · intro named
      refine ⟨rfl,fits.other named renamed,?_,rfl,rfl,rfl,named.1⟩
      split
      · next same => exact same
      · rfl
    · exact fun _ => rfl

theorem line_follows (fits : LineFits oldStem newStem line) (some_ : newStem ≠ [])
    (segment : '/' ∉ newStem) : LineFollows oldStem newStem (lineSpans line)
      (lineSpans (rewriteLine oldStem newStem (lineSpans line))) := by
  obtain ⟨_,apart,bare⟩ := render_pairs line
  have written : pairs (rewriteLine oldStem newStem (lineSpans line)) =
      ((marked [] (pairs line).1).map fun pair => (pair.gap,pair.written oldStem newStem),
        (pairs line).2) := by
    rw [rewriteLine_eq]
    refine pairs_render ?_ bare
    intro pair inside
    obtain ⟨pair,there,rfl⟩ := List.mem_map.mp inside
    obtain ⟨front,clear⟩ := apart _ (mem_marked there)
    refine ⟨front,?_⟩
    unfold Pair.written
    split
    · next renamed =>
      obtain ⟨rewritable,unmarked⟩ := (fits.links pair there renamed.1).renamed renamed.2
      exact clear_written clear rewritable unmarked some_
    · exact clear
  have flags : marked [] ((marked [] (pairs line).1).map fun pair =>
      (pair.gap,pair.written oldStem newStem)) = (marked [] (pairs line).1).map fun pair =>
        {pair with inner := pair.written oldStem newStem} := by
    refine marked_map _ _ closes_nil closes_nil rfl ?_
    intro pair there
    unfold Pair.written
    split
    · next renamed =>
      have whole := List.dropLast_subset _ there
      obtain ⟨rewritable,_⟩ := (fits.links pair whole renamed.1).renamed renamed.2
      have own := fits.code pair there renamed.1 renamed.2
      have sum := ticks_written rewritable
      omega
    · rfl
  have after : lineSpans (rewriteLine oldStem newStem (lineSpans line)) = collect []
      ((marked [] (pairs line).1).map fun pair =>
        {pair with inner := pair.written oldStem newStem}) (pairs line).2 := by
    change collect [] (marked [] (pairs (rewriteLine oldStem newStem (lineSpans line))).1)
      (pairs (rewriteLine oldStem newStem (lineSpans line))).2 = _
    rw [written,flags]
  rw [after]
  apply collect_follows
  · intro pair _ unlinked
    simp [Pair.written,unlinked]
  · intro pair there linked
    exact follows_written (fits.links pair there linked) linked some_ segment

omit [Hierarchy.Locale] in
/-- Brackets of a line say nothing of a fence. -/
theorem fenceMatch_bracket (gap x y : Text) :
    fenceMatch (gap ++ '[' :: x) = fenceMatch (gap ++ '[' :: y) := by
  have solid : isJsSpace '[' = false := by decide
  have dropped : ∀ x,(gap ++ '[' :: x).dropWhile isJsSpace =
      gap.dropWhile isJsSpace ++ '[' :: x := by
    intro x
    rw [List.dropWhile_append]
    split
    · next gone =>
      rw [List.isEmpty_iff.mp gone]
      simp [solid]
    · rfl
  have taken : ∀ x,(gap ++ '[' :: x).takeWhile isJsSpace = gap.takeWhile isJsSpace := by
    intro x
    rw [List.takeWhile_append]
    split
    · next whole =>
      have kept := (List.takeWhile_prefix isJsSpace).eq_of_length whole
      simp [solid,kept]
    · rfl
  have starts : ∀ (c : Char),c ≠ '[' → ∀ (rest x y : Text),
      Text.startsWith (rest ++ '[' :: x) [c,c,c] = Text.startsWith (rest ++ '[' :: y) [c,c,c] := by
    intro c other rest x y
    have unlike : (c == '[') = false := beq_false_of_ne other
    cases rest with
    | nil => simp [Text.startsWith,List.isPrefixOf,unlike]
    | cons a rest =>
      cases rest with
      | nil => simp [Text.startsWith,List.isPrefixOf,unlike]
      | cons b rest =>
        cases rest with
        | nil => simp [Text.startsWith,List.isPrefixOf,unlike]
        | cons d rest => simp [Text.startsWith,List.isPrefixOf]
  simp only [fenceMatch,dropped,taken,starts tick (by decide) _ x y,starts '~' (by decide) _ x y]

theorem fenceMatch_rewriteLine (line : Text) :
    fenceMatch (rewriteLine oldStem newStem (lineSpans line)) = fenceMatch line := by
  rw [rewriteLine_eq]
  conv_rhs => rw [← (render_pairs line).1]
  cases (pairs line).1 with
  | nil => rfl
  | cons pair rest =>
    obtain ⟨gap,inner⟩ := pair
    simp only [marked,List.map_cons,renderPairs,bracketed,List.append_assoc,List.cons_append]
    exact fenceMatch_bracket gap _ _

theorem scan_follows (some_ : newStem ≠ []) (segment : '/' ∉ newStem) (lines : List Text)
    (fence : Option Char) (fits : ∀ line ∈ openLines fence lines,LineFits oldStem newStem line) :
    List.Forall₂ (LineFollows oldStem newStem) (scanLines fence lines)
      (scanLines fence ((scanLines fence lines).map (rewriteLine oldStem newStem))) := by
  induction lines generalizing fence with
  | nil => exact .nil
  | cons line lines ih =>
    have still : rewriteLine oldStem newStem ([],line) = line := rfl
    have same : LineFollows oldStem newStem ([],line) ([],line) := ⟨.nil,rfl⟩
    cases found : fenceMatch line with
    | some marker =>
      simp only [openLines,scanLines,found,List.map_cons,still] at fits ⊢
      exact .cons same (ih _ fits)
    | none =>
      by_cases outside : fence = none
      · simp only [openLines,scanLines,found,outside,if_true,List.map_cons,
          fenceMatch_rewriteLine] at fits ⊢
        refine .cons (line_follows (fits line List.mem_cons_self) some_ segment) ?_
        exact ih none fun line inside => fits line (List.mem_cons_of_mem _ inside)
      · simp only [openLines,scanLines,found,if_neg outside,List.map_cons,still] at fits ⊢
        exact .cons same (ih fence fits)

omit [Hierarchy.Locale] in
theorem not_mem_compose {c : Char} {named : Text} {block section_ alias_ : Option Text}
    (other : c ≠ '^' ∧ c ≠ '#' ∧ c ≠ '|') : c ∉ compose named block section_ alias_ ↔ c ∉ named ∧
      (∀ text ∈ block,c ∉ text) ∧ (∀ text ∈ section_,c ∉ text) ∧ ∀ text ∈ alias_,c ∉ text := by
  cases block <;> cases section_ <;> cases alias_ <;>
    simp [compose,part,other.1,other.2.1,other.2.2]

omit [Hierarchy.Locale] in
/-- The written link stays on its line. -/
theorem line_written {inner : Text} {embed : Bool} (free' : '\n' ∉ inner)
    (fits : Rewritable newStem (parseInner embed inner)) (unmarked : Unmarked newStem) :
    '\n' ∉ rebuilt newStem (parseInner embed inner) := by
  obtain ⟨named,block,section_,alias_,rfl,free⟩ := exists_compose inner
  have others : '\n' ≠ '^' ∧ '\n' ≠ '#' ∧ '\n' ≠ '|' := by decide
  obtain ⟨named_,block_,sections,aliases⟩ := (not_mem_compose others).mp free'
  rw [rebuilt_eq fits]
  simp only [parse_compose free]
  apply (not_mem_compose others).mpr
  refine ⟨?_,block_,sections,?_⟩
  · intro inside
    rcases List.mem_append.mp inside with inner | fresh
    · exact named_ (mem_trim (before_sub inner))
    · exact unmarked.line fresh
  · have labelled := label_cases named alias_
    generalize (if trim (alias_.getD (trim named)) = [] then trim named
      else trim (alias_.getD (trim named))) = label at labelled ⊢
    intro text there
    split at there
    · next other =>
      obtain rfl : label = text := Option.some.inj there
      obtain ⟨shown,rfl,rfl⟩ := labelled.resolve_left other
      exact fun inside => aliases shown rfl (mem_trim inside)
    · cases there

omit [Hierarchy.Locale] in
theorem not_mem_render {c : Char} (other : c ≠ '[' ∧ c ≠ ']') (list : List (Text × Text))
    (tail : Text) : c ∉ renderPairs list tail ↔
      (∀ pair ∈ list,c ∉ pair.1 ∧ c ∉ pair.2) ∧ c ∉ tail := by
  induction list with
  | nil => simp [renderPairs]
  | cons pair rest ih =>
    obtain ⟨gap,inner⟩ := pair
    rw [renderPairs,List.mem_append,not_or,ih]
    simp [bracketed,other.1,other.2,and_assoc]

theorem line_rewritten (fits : LineFits oldStem newStem line) (free : '\n' ∉ line) :
    '\n' ∉ rewriteLine oldStem newStem (lineSpans line) := by
  have others : '\n' ≠ '[' ∧ '\n' ≠ ']' := by decide
  rw [rewriteLine_eq,not_mem_render others]
  have whole := (render_pairs line).1
  rw [← whole,not_mem_render others] at free
  refine ⟨?_,free.2⟩
  intro pair inside
  obtain ⟨pair,there,rfl⟩ := List.mem_map.mp inside
  obtain ⟨gap,inner⟩ := free.1 _ (mem_marked there)
  refine ⟨gap,?_⟩
  unfold Pair.written
  split
  · next renamed =>
    obtain ⟨rewritable,unmarked⟩ := (fits.links pair there renamed.1).renamed renamed.2
    exact line_written inner rewritable unmarked
  · exact inner

theorem lines_rewritten (lines : List Text) (fence : Option Char)
    (fits : ∀ line ∈ openLines fence lines,LineFits oldStem newStem line)
    (free : ∀ line ∈ lines,'\n' ∉ line) :
    ∀ line ∈ (scanLines fence lines).map (rewriteLine oldStem newStem),'\n' ∉ line := by
  induction lines generalizing fence with
  | nil => simp [scanLines]
  | cons line lines ih =>
    have own := free line List.mem_cons_self
    have later := fun line inside => free line (List.mem_cons_of_mem _ inside)
    have still : rewriteLine oldStem newStem ([],line) = line := rfl
    cases found : fenceMatch line with
    | some marker =>
      simp only [openLines,scanLines,found,List.map_cons,still] at fits ⊢
      exact List.forall_mem_cons.mpr ⟨own,ih _ fits later⟩
    | none =>
      by_cases outside : fence = none
      · simp only [openLines,scanLines,found,outside,if_true,List.map_cons] at fits ⊢
        refine List.forall_mem_cons.mpr ⟨?_,ih none (fun line inside =>
          fits line (List.mem_cons_of_mem _ inside)) later⟩
        exact line_rewritten (fits line List.mem_cons_self) own
      · simp only [openLines,scanLines,found,if_neg outside,List.map_cons,still] at fits ⊢
        exact List.forall_mem_cons.mpr ⟨own,ih fence fits later⟩

omit [Hierarchy.Locale] in
theorem scanLines_ne_nil {lines : List Text} (some_ : lines ≠ []) (fence : Option Char) :
    scanLines fence lines ≠ [] := by
  obtain ⟨line,rest,rfl⟩ := List.exists_cons_of_ne_nil some_
  rw [scanLines]
  split
  · simp
  · simp

omit [Hierarchy.Locale] in
theorem free_of_mem_split {c : Char} {t piece : Text} (inside : piece ∈ Text.split c t) :
    c ∉ piece := by
  induction size : t.length using Nat.strong_induction_on generalizing t with
  | _ size ih =>
    rcases exists_part c t with ⟨first,rest,free,rfl⟩
    cases rest with
    | none =>
      rw [part,List.append_nil,Text.split,List.splitOn_eq_singleton free] at inside
      rwa [List.mem_singleton.mp inside]
    | some rest =>
      rw [part,Text.split,List.splitOn_append_cons_self,List.splitOn_eq_singleton free] at inside
      rcases List.mem_cons.mp inside with rfl | later
      · exact free
      · refine ih rest.length ?_ later rfl
        rw [← size,part]
        simp
        omega

/-- Where every link of the text fits, the rewritten text has the links of the text. -/
theorem faithful_of_fits (source : Text) (named : oldStem ≠ []) (some_ : newStem ≠ [])
    (segment : '/' ∉ newStem) (fits : Fits oldStem newStem source) :
    Faithful oldStem newStem source := by
  have free : ∀ line ∈ Text.split '\n' source,'\n' ∉ line := fun line inside =>
    free_of_mem_split inside
  have nonempty : Text.split '\n' source ≠ [] := List.splitOn_ne_nil _ _
  have again : Text.split '\n' (rewriteWikilinkTarget source oldStem newStem false) =
      (wikilinkSpans source).map (rewriteLine oldStem newStem) := by
    rw [rewriteWikilinkTarget,if_neg (by simp [named,some_])]
    apply List.splitOn_intercalate
    · exact lines_rewritten _ none fits free
    · exact fun empty => scanLines_ne_nil nonempty none (List.map_eq_nil_iff.mp empty)
  have back : wikilinkSpans (rewriteWikilinkTarget source oldStem newStem false) =
      scanLines none ((wikilinkSpans source).map (rewriteLine oldStem newStem)) := by
    rw [← again]
    rfl
  rw [Faithful,back]
  exact scan_follows some_ segment _ none fits

end Whole

section Example

open scoped Hierarchy.PlainLocale

theorem bare_of_absent {tail : Text} (absent : cutAt '[' tail = none) : Bare tail := by
  rw [Bare,pairs]
  split
  · rfl
  · next opened =>
    rw [absent] at opened
    cases opened

theorem spans_single {source : Text} {list : List (Text × Text)} {tail : Text}
    (alone : Text.split '\n' source = [source]) (open_ : fenceMatch source = none)
    (found : pairs source = (list,tail)) :
    wikilinkSpans source = [collect [] (marked [] list) tail] := by
  rw [wikilinkSpans,alone]
  simp only [scanLines,open_,if_true,lineSpans,found]

def oldName : Text := "Old".toList

def newName : Text := "New".toList

def oneLink : Text := "See [[old#Aim|there]].".toList

theorem oneLink_pairs : pairs oneLink =
    ([("See ".toList,"old#Aim|there".toList)],".".toList) := by
  have apart : ∀ pair ∈ [("See ".toList,"old#Aim|there".toList)],Apart pair := by
    intro pair inside
    obtain rfl := List.mem_singleton.mp inside
    exact ⟨by decide,by decide⟩
  exact pairs_render apart (bare_of_absent (by decide))

/-- The section and the alias are kept. -/
theorem oneLink_faithful : Faithful oldName newName oneLink := by
  refine faithful_of_fits oneLink (by decide) (by decide) (by decide) ?_
  intro line inside
  have opened : openLines none (Text.split '\n' oneLink) = [oneLink] := by decide
  rw [opened] at inside
  obtain rfl := List.mem_singleton.mp inside
  have unmarked : Unmarked newName :=
    ⟨by decide,by decide,by decide,by decide,by decide,by decide⟩
  constructor
  · intro pair there _
    rw [oneLink_pairs] at there
    obtain rfl := List.mem_singleton.mp there
    refine ⟨fun _ => ⟨⟨by decide,by decide,by decide,by decide,by decide⟩,unmarked⟩,?_⟩
    exact fun _ other => absurd ⟨by decide,by decide,by decide⟩ other
  · intro pair there
    rw [oneLink_pairs] at there
    cases there

def extended : Text := "[[Old.md]]".toList

theorem extended_spans : wikilinkSpans extended = [([⟨[],extended⟩],[])] := by
  have apart : ∀ pair ∈ [(([],"Old.md".toList) : Text × Text)],Apart pair := by
    intro pair inside
    obtain rfl := List.mem_singleton.mp inside
    exact ⟨by decide,by decide⟩
  have found : pairs extended = ([([],"Old.md".toList)],[]) :=
    pairs_render apart (bare_of_absent (by decide))
  rw [spans_single (by decide) (by decide) found]
  rfl

/-- A link with its extension keeps the old name. -/
theorem extended_kept : ¬∀ source oldStem newStem : Text,oldStem ≠ [] → newStem ≠ [] →
    '/' ∉ newStem → Faithful oldStem newStem source := by
  intro every
  have faithful := every extended oldName newName (by decide) (by decide) (by decide)
  have same : rewriteWikilinkTarget extended oldName newName false = extended := by
    rw [rewriteWikilinkTarget,if_neg (by decide),extended_spans]
    decide
  rw [Faithful,same,extended_spans] at faithful
  obtain ⟨⟨spans,_⟩,_⟩ := List.forall₂_cons.mp faithful
  obtain ⟨⟨_,follows⟩,_⟩ := List.forall₂_cons.mp spans
  have named : Named oldName (parseWikilink extended) :=
    ⟨by decide,by decide,.inr (by decide)⟩
  rcases (follows.1 named).stem with whole | stem
  · revert whole
    decide
  · revert stem
    decide

end Example

end LocalBook.Workspace.Renaming
