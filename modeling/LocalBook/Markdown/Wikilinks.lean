import LocalBook.Actions.Patches
import LocalBook.Finding
import LocalBook.Index.Entry

/-! The links of a note. Fenced blocks and inline code are masked line by line, and the text is
scanned for the brackets that stand outside them. -/
namespace LocalBook.Wikilinks

open Patches (splitLines endsLine lf)
open Index (WikilinkRef)

def tick : Char := Char.ofNat 96

def isTick (c : Char) : Bool := c == tick

def runLength (t : Text) : Nat := (t.takeWhile isTick).length

/-- The loop over the inline code spans of a line, with `cursor` characters behind it. -/
def spansFrom : Nat → Nat → Text → List (Nat × Nat)
  | 0,_,_ => []
  | fuel + 1,cursor,rest =>
    match Text.find [tick] rest with
    | none => []
    | some before =>
      let run := runLength (rest.drop before)
      match Text.find (List.replicate run tick) (rest.drop (before + run)) with
      | none => []
      | some body =>
        let stop := before + run + body + run
        (cursor + before,cursor + stop) :: spansFrom fuel (cursor + stop) (rest.drop stop)

/-- The inline code spans the code finds in a line. -/
def codeSpans (line : Text) : List (Nat × Nat) := spansFrom line.length 0 line

/-- A run of exactly `n` backticks begins at the position. -/
def runAt (n : Nat) (t : Text) (i : Nat) : Bool :=
  runLength (t.drop i) == n && (i == 0 || !(t[i - 1]?).any isTick)

/-- The inline code spans as they are meant: a run closes at the next one of its own length, and
one that nothing closes is ordinary text. -/
def exactFrom : Nat → Nat → Text → List (Nat × Nat)
  | 0,_,_ => []
  | fuel + 1,cursor,rest =>
    match Text.find [tick] rest with
    | none => []
    | some before =>
      let run := runLength (rest.drop before)
      let behind := rest.drop (before + run)
      match (List.range behind.length).find? (runAt run behind) with
      | none => exactFrom fuel (cursor + (before + run)) behind
      | some body =>
        let stop := before + run + body + run
        (cursor + before,cursor + stop) :: exactFrom fuel (cursor + stop) (rest.drop stop)

def exactSpans (line : Text) : List (Nat × Nat) := exactFrom line.length 0 line

/-- `_FENCE_RE.match(line.lstrip())`: the character and the length of the marker. -/
def fenceMarker (line : Text) : Option (Char × Nat) :=
  match Text.lstripBy Text.isSpace line with
  | [] => none
  | c :: rest =>
    let length := ((c :: rest).takeWhile (· == c)).length
    if (c = tick ∨ c = Char.ofNat 126) ∧ 3 ≤ length then some (c,length) else none

def nextFence (fence : Option (Char × Nat)) (line : Text) : Option (Char × Nat) :=
  match fence,fenceMarker line with
  | none,marker => marker
  | some fence,none => some fence
  | some fence,some marker =>
    if marker.1 = fence.1 ∧ fence.2 ≤ marker.2 then none else some fence

structure Scan where
  fence : Option (Char × Nat) := none
  fenceStart : Nat := 0
  offset : Nat := 0
  ranges : List (Nat × Nat) := []

def shifted (offset : Nat) (spans : List (Nat × Nat)) : List (Nat × Nat) :=
  spans.map fun span => (offset + span.1,offset + span.2)

section Ranges

variable (inline : Text → List (Nat × Nat))

/-- One line of `_code_ranges`. -/
def scanLine (s : Scan) (line : Text) : Scan :=
  let fence := nextFence s.fence line
  let fenceStart := if s.fence.isNone ∧ fence.isSome then s.offset else s.fenceStart
  let closed := if s.fence.isSome ∧ fence.isNone then [(s.fenceStart,s.offset + line.length)] else []
  let spans := if fence.isNone then shifted s.offset (inline line) else []
  ⟨fence,fenceStart,s.offset + line.length,s.ranges ++ closed ++ spans⟩

/-- `_code_ranges`, for a reading of inline code. -/
def codeRanges (text : Text) : List (Nat × Nat) :=
  let s := (splitLines text).foldl (scanLine inline) {}
  if s.fence.isSome then s.ranges ++ [(s.fenceStart,s.offset)] else s.ranges

end Ranges

/-- `_is_inside`. -/
def isInside (position : Nat) (ranges : List (Nat × Nat)) : Bool :=
  ranges.any fun range => decide (range.1 ≤ position) && decide (position < range.2)

/-- `text.find(pattern, position)`. -/
def findFrom (pattern text : Text) (position : Nat) : Option Nat :=
  (Text.find pattern (text.drop position)).map fun index => position + index

def opening : Text := ['[','[']

def closing : Text := [']',']']

/-- `text[start:stop]`. -/
def slice (text : Text) (start stop : Nat) : Text := (text.take stop).drop start

/-- A link by the positions of its raw text, of its first bracket and of what closes it. -/
structure Link where
  start : Nat
  bracket : Nat
  close : Nat
deriving DecidableEq

/-- The loop of `parse_wikilinks`, for a mask of the code. The leftmost match of the pattern has its
brackets at the leftmost brackets, and takes an exclamation mark before them with it. -/
def linksFrom (code : Nat → Bool) (text : Text) : Nat → Nat → List Link
  | 0,_ => []
  | fuel + 1,position =>
    match findFrom opening text position with
    | none => []
    | some bracket =>
      let start := if position < bracket ∧ text[bracket - 1]? = some '!' then bracket - 1
        else bracket
      if code start then linksFrom code text fuel (bracket + 2)
      else
        match findFrom closing text (bracket + 2) with
        | none => []
        | some close =>
          if Text.strip (slice text (bracket + 2) close) = [] then
            linksFrom code text fuel (close + 2)
          else ⟨start,bracket,close⟩ :: linksFrom code text fuel (close + 2)

/-- `text.partition(separator)`: what stands in front of it, and behind it where it is found. -/
def partition (separator : Char) (t : Text) : Text × Option Text :=
  (t.takeWhile (· != separator),
    if separator ∈ t then some ((t.dropWhile (· != separator)).drop 1) else none)

/-- `_parse_inner`: target, section, block and alias. -/
def parseInner (inner : Text) : Text × Option Text × Option Text × Option Text :=
  let (inner,behind) := partition '|' inner
  let anchor := if '#' ∈ inner then partition '#' inner else partition '^' inner
  let told := anchor.2.bind fun t => if t = [] then none else some (Text.strip t)
  (Text.strip anchor.1,if '#' ∈ inner then told else none,if '#' ∈ inner then none else told,
    behind.bind fun t => if Text.strip t = [] then none else some (Text.strip t))

/-- `_URL_SCHEME_RE.match(target)`. -/
def isUrl (target : Text) : Bool :=
  match target with
  | [] => false
  | c :: rest => c.isAlpha && Text.startsWith (rest.dropWhile fun c =>
      c.isAlphanum || c == '+' || c == '.' || c == '-') "://".toList

def contextWindow : Nat := 200

/-- `_line_context`. -/
def lineContext (text : Text) (position : Nat) : Option Text :=
  let before := (text.take position).reverse.takeWhile (· != lf)
  let behind := (text.drop position).takeWhile (· != lf)
  let line := Text.strip (before.reverse ++ behind)
  let line := if contextWindow < line.length then
    Text.rstripBy Text.isSpace (line.take contextWindow) ++ [Char.ofNat 0x2026] else line
  if line = [] then none else some line

/-- What is returned of a link. -/
def refOf (text : Text) (link : Link) : WikilinkRef :=
  let raw := slice text link.start (link.close + 2)
  let (target,section',block,display) :=
    parseInner (Text.strip (slice text (link.bracket + 2) link.close))
  let ref : WikilinkRef := {target,raw,display,context := lineContext text link.start}
  if isUrl target then {ref with kind := .web}
  else {ref with
    kind := if raw.head? = some '!' then .embed else .wikilink,section_ := section',block}

def links (inline : Text → List (Nat × Nat)) (text : Text) : List Link :=
  linksFrom (fun position => isInside position (codeRanges inline text)) text (text.length + 1) 0

/-- `parse_wikilinks`. -/
def parseWikilinks (text : Text) : List WikilinkRef := (links codeSpans text).map (refOf text)

section Spans

/-- What every reading of inline code keeps: a span lies in its line, from a backtick to one. -/
structure Ticked (row : Text) (span : Nat × Nat) : Prop where
  less : span.1 < span.2
  within : span.2 ≤ row.length
  first : row[span.1]? = some tick
  last : row[span.2 - 1]? = some tick

/-- The loops go on in the rest of a line. -/
theorem Ticked.behind {line : Text} {k : Nat} {span : Nat × Nat} (inside : k ≤ line.length)
    (ticked : Ticked (line.drop k) span) : Ticked line (k + span.1,k + span.2) := by
  obtain ⟨less,bounded,first,last⟩ := ticked
  rw [List.length_drop] at bounded
  rw [List.getElem?_drop] at first last
  refine ⟨by dsimp only; omega,by dsimp only; omega,first,?_⟩
  rw [← last]
  congr 1
  dsimp only
  omega

variable {rest : Text} {before run body : Nat}

theorem getElem?_of_run {t : Text} {i k : Nat} (stands : List.replicate run tick <+: t.drop k)
    (less : i < run) : t[k + i]? = some tick := by
  rw [← List.getElem?_drop]
  obtain ⟨tail,same⟩ := stands
  rw [← same,List.getElem?_append_left (by simpa using less),List.getElem?_replicate,if_pos less]

theorem runLength_stands (t : Text) : List.replicate (runLength t) tick <+: t := by
  have same : t.takeWhile isTick = List.replicate (runLength t) tick := by
    rw [runLength,List.eq_replicate_iff]
    refine ⟨rfl,fun c found => ?_⟩
    simpa [isTick] using List.mem_takeWhile_imp found
  rw [← same]
  exact List.takeWhile_prefix _

/-- Where the first backtick stands, a run begins. -/
theorem run_of_find (found : Text.find [tick] rest = some before) :
    before ≤ rest.length ∧ rest[before]? = some tick ∧ 0 < runLength (rest.drop before) := by
  obtain ⟨bounded,⟨tail,same⟩,_⟩ := Text.find_eq_some.mp found
  refine ⟨bounded,?_,?_⟩
  · have here := congrArg (fun t : Text => t[0]?) same
    simpa using here.symm
  · rw [← same,runLength]
    simp [isTick]

theorem ticked_span (first : rest[before]? = some tick) (positive : 0 < run)
    (stands : List.replicate run tick <+: rest.drop (before + run + body)) :
    Ticked rest (before,before + run + body + run) := by
  have last := getElem?_of_run stands (i := run - 1) (by omega)
  have bounded := (List.getElem?_eq_some_iff.mp last).1
  refine ⟨by dsimp only; omega,by dsimp only; omega,first,?_⟩
  rw [← last]
  congr 1
  dsimp only
  omega

theorem ticked_spansFrom (fuel cursor : Nat) (rest : Text) :
    ∀ span ∈ spansFrom fuel cursor rest,∃ inner,Ticked rest inner ∧
      span = (cursor + inner.1,cursor + inner.2) := by
  induction fuel generalizing cursor rest with
  | zero => exact fun _ impossible => by cases impossible
  | succ fuel ih =>
    intro span member
    rw [spansFrom] at member
    split at member
    · cases member
    · next before found =>
      obtain ⟨_,first,positive⟩ := run_of_find found
      dsimp only at member
      split at member
      · cases member
      · next body closed =>
        obtain ⟨_,stands,_⟩ := Text.find_eq_some.mp closed
        rw [List.drop_drop] at stands
        have ticked := ticked_span first positive stands
        rcases List.mem_cons.mp member with rfl | later
        · exact ⟨_,ticked,rfl⟩
        · obtain ⟨inner,within,rfl⟩ := ih _ _ span later
          refine ⟨_,within.behind ticked.within,?_⟩
          simp only [Prod.mk.injEq]
          omega

theorem ticked_exactFrom (fuel cursor : Nat) (rest : Text) :
    ∀ span ∈ exactFrom fuel cursor rest,∃ inner,Ticked rest inner ∧
      span = (cursor + inner.1,cursor + inner.2) := by
  induction fuel generalizing cursor rest with
  | zero => exact fun _ impossible => by cases impossible
  | succ fuel ih =>
    intro span member
    rw [exactFrom] at member
    split at member
    · cases member
    · next before found =>
      obtain ⟨bounded,first,positive⟩ := run_of_find found
      dsimp only at member
      split at member
      · obtain ⟨inner,within,rfl⟩ := ih _ _ span member
        have run := (runLength_stands (rest.drop before)).length_le
        rw [List.length_replicate,List.length_drop] at run
        refine ⟨_,within.behind (by omega),?_⟩
        simp only [Prod.mk.injEq]
        omega
      · next body closed =>
        have exact' := List.find?_some closed
        simp only [runAt,Bool.and_eq_true,beq_iff_eq] at exact'
        have stands := runLength_stands (((rest.drop (before + runLength (rest.drop before))).drop body))
        rw [exact'.1,List.drop_drop] at stands
        have ticked := ticked_span first positive stands
        rcases List.mem_cons.mp member with rfl | later
        · exact ⟨_,ticked,rfl⟩
        · obtain ⟨inner,within,rfl⟩ := ih _ _ span later
          refine ⟨_,within.behind ticked.within,?_⟩
          simp only [Prod.mk.injEq]
          omega

theorem ticked_codeSpans (line : Text) : ∀ span ∈ codeSpans line,Ticked line span := by
  intro span member
  obtain ⟨inner,ticked,rfl⟩ := ticked_spansFrom _ _ _ span member
  simpa using ticked

theorem ticked_exactSpans (line : Text) : ∀ span ∈ exactSpans line,Ticked line span := by
  intro span member
  obtain ⟨inner,ticked,rfl⟩ := ticked_exactFrom _ _ _ span member
  simpa using ticked

end Spans

section Lines

theorem flatten_splitLines (text : Text) : (splitLines text).flatten = text := by
  induction text with
  | nil => rfl
  | cons c rest ih =>
    unfold splitLines
    split
    · simp [ih]
    · split
      next line others same =>
        rw [same] at ih
        simpa using ih
      next same =>
        rw [same] at ih
        simpa using ih

/-- Every line but the last ends in a line boundary. -/
theorem endsLine_of_dropLast (text : Text) : ∀ line ∈ (splitLines text).dropLast,
    ∃ c,line.getLast? = some c ∧ endsLine c = true := by
  induction text with
  | nil => exact fun _ impossible => by cases impossible
  | cons c rest ih =>
    unfold splitLines
    intro line member
    split at member
    · next ends =>
      cases others : splitLines rest with
      | nil => rw [others] at member; cases member
      | cons next others' =>
        rw [others,List.dropLast_cons_of_ne_nil (by simp)] at member
        rcases List.mem_cons.mp member with rfl | later
        · exact ⟨c,rfl,ends.1⟩
        · exact ih line (by rwa [others])
    · split at member
      next first others same =>
        cases others with
        | nil => cases member
        | cons next others' =>
          rw [same,List.dropLast_cons_of_ne_nil (by simp)] at ih
          rw [List.dropLast_cons_of_ne_nil (by simp)] at member
          rcases List.mem_cons.mp member with rfl | later
          · obtain ⟨d,last,ends⟩ := ih first List.mem_cons_self
            refine ⟨d,?_,ends⟩
            cases first with
            | nil => cases last
            | cons e t => rw [List.getLast?_cons_cons]; exact last
          · exact ih line (List.mem_cons_of_mem _ later)
      next same => cases member

end Lines

def fenceAfter (lines : List Text) : Option (Char × Nat) := lines.foldl nextFence none

def Fenced (before : List Text) (line : Text) : Prop :=
  (fenceAfter before).isSome ∨ (fenceMarker line).isSome

/-- The position stands in code: its line is fenced, or it lies in an inline span of its line. -/
def Covered (inline : Text → List (Nat × Nat)) (lines : List Text) (position : Nat) : Prop :=
  ∃ before line behind,lines = before ++ line :: behind ∧ before.flatten.length ≤ position ∧
    position < before.flatten.length + line.length ∧
    (Fenced before line ∨ isInside (position - before.flatten.length) (inline line) = true)

def InCode (inline : Text → List (Nat × Nat)) (text : Text) (position : Nat) : Prop :=
  Covered inline (splitLines text) position

section Covering

variable {inline : Text → List (Nat × Nat)} {lines : List Text} {line : Text} {position : Nat}

theorem isInside_iff {ranges : List (Nat × Nat)} : isInside position ranges = true ↔
    ∃ range ∈ ranges,range.1 ≤ position ∧ position < range.2 := by
  simp [isInside]

theorem isInside_append {a b : List (Nat × Nat)} : isInside position (a ++ b) = true ↔
    isInside position a = true ∨ isInside position b = true := by
  simp [isInside]

theorem isInside_shifted {offset : Nat} {spans : List (Nat × Nat)} :
    isInside position (shifted offset spans) = true ↔
      offset ≤ position ∧ isInside (position - offset) spans = true := by
  simp only [isInside_iff,shifted,List.mem_map]
  constructor
  · rintro ⟨_,⟨span,member,rfl⟩,low,high⟩
    dsimp only at low high
    exact ⟨by omega,span,member,by omega,by omega⟩
  · rintro ⟨least,span,member,low,high⟩
    exact ⟨_,⟨span,member,rfl⟩,by dsimp only; omega,by dsimp only; omega⟩

theorem covered_append : Covered inline (lines ++ [line]) position ↔
    Covered inline lines position ∨ (lines.flatten.length ≤ position ∧
      position < lines.flatten.length + line.length ∧
      (Fenced lines line ∨ isInside (position - lines.flatten.length) (inline line) = true)) := by
  constructor
  · rintro ⟨before,here,behind,same,low,high,code⟩
    rcases List.eq_nil_or_concat behind with rfl | ⟨behind,last,rfl⟩
    · obtain ⟨rfl,last⟩ := List.append_inj' same rfl
      obtain ⟨rfl,_⟩ := List.cons.inj last
      exact .inr ⟨low,high,code⟩
    · rw [List.concat_eq_append,← List.cons_append,← List.append_assoc] at same
      obtain ⟨rfl,_⟩ := List.append_inj' same rfl
      exact .inl ⟨before,here,behind,rfl,low,high,code⟩
  · rintro (⟨before,here,behind,rfl,low,high,code⟩ | ⟨low,high,code⟩)
    · exact ⟨before,here,behind ++ [line],by simp,low,high,code⟩
    · exact ⟨lines,line,[],rfl,low,high,code⟩

structure Kept (inline : Text → List (Nat × Nat)) (lines : List Text) (s : Scan) : Prop where
  fence : s.fence = fenceAfter lines
  offset : s.offset = lines.flatten.length
  start : s.fence.isSome → s.fenceStart ≤ s.offset
  covers : ∀ position,(isInside position s.ranges = true ∨
    (s.fence.isSome ∧ s.fenceStart ≤ position ∧ position < s.offset)) ↔
      Covered inline lines position

theorem kept_start : Kept inline [] {} := by
  refine ⟨rfl,rfl,fun impossible => (by cases impossible),?_⟩
  intro position
  constructor
  · rintro (inside | ⟨impossible,_⟩)
    · simp [isInside] at inside
    · cases impossible
  · rintro ⟨before,here,behind,same,_⟩
    simp at same

theorem fenceAfter_append : fenceAfter (lines ++ [line]) = nextFence (fenceAfter lines) line := by
  rw [fenceAfter,List.foldl_append]
  rfl

theorem kept_scanLine (within : ∀ line,∀ span ∈ inline line,Ticked line span) {s : Scan}
    (kept : Kept inline lines s) : Kept inline (lines ++ [line]) (scanLine inline s line) := by
  obtain ⟨fence,fenceStart,offset,ranges⟩ := s
  obtain ⟨same,rfl,start,covers⟩ := kept
  dsimp only at same start covers
  subst same
  have spans : ∀ position,isInside position (inline line) = true → position < line.length := by
    intro position inside
    obtain ⟨span,member,_,high⟩ := isInside_iff.mp inside
    exact lt_of_lt_of_le high (within line span member).within
  refine ⟨fenceAfter_append.symm,by simp [scanLine],?_,?_⟩
  · intro held
    dsimp only [scanLine] at held ⊢
    split
    · omega
    · next still =>
      have before : (fenceAfter lines).isSome := by
        by_contra closed
        exact still ⟨by simpa using closed,held⟩
      have := start before
      omega
  · intro position
    rw [covered_append,← covers]
    have bound := spans (position - lines.flatten.length)
    dsimp only [scanLine]
    rw [isInside_append,isInside_append,Fenced]
    generalize lines.flatten.length = offset at start bound ⊢
    have none' : isInside position [] = false := rfl
    cases before : fenceAfter lines with
    | none =>
      cases marker : fenceMarker line with
      | none =>
        simp only [nextFence,marker,Option.isSome_none,Option.isNone_none,Bool.false_eq_true,
          false_and,if_false,if_true,none',or_false,false_or,isInside_shifted]
        apply or_congr_right
        constructor
        · rintro ⟨low,inside⟩
          have := bound inside
          exact ⟨low,by omega,inside⟩
        · rintro ⟨low,_,inside⟩
          exact ⟨low,inside⟩
      | some marker =>
        simp only [nextFence,marker,Option.isSome_none,Option.isSome_some,Option.isNone_none,
          Option.isNone_some,Bool.false_eq_true,false_and,if_false,if_true,none',or_false,
          and_self,true_and,or_true,true_or,and_true]
    | some fence =>
      have least := start (by rw [before]; rfl)
      have held : (some fence).isSome = true := rfl
      cases closed : nextFence (some fence) line with
      | none =>
        have block : isInside position [(fenceStart,offset + line.length)] = true ↔
            fenceStart ≤ position ∧ position < offset + line.length := by simp [isInside]
        simp only [Option.isSome_none,Option.isSome_some,Option.isNone_none,Option.isNone_some,
          Bool.false_eq_true,false_and,and_self,if_true,or_false,true_and,true_or,and_true,
          isInside_shifted,block,or_assoc]
        apply or_congr_right
        constructor
        · rintro (⟨low,high⟩ | ⟨low,inside⟩)
          · omega
          · have := bound inside
            omega
        · omega
      | some fence' =>
        simp only [Option.isSome_some,Option.isNone_some,Bool.false_eq_true,and_false,
          if_false,none',or_false,true_and,true_or,and_true,or_assoc]
        apply or_congr_right
        omega

/-- The ranges cover the code. -/
theorem isInside_codeRanges (within : ∀ line,∀ span ∈ inline line,Ticked line span) (text : Text) :
    isInside position (codeRanges inline text) = true ↔ InCode inline text position := by
  have kept : Kept inline (splitLines text) ((splitLines text).foldl (scanLine inline) {}) := by
    generalize splitLines text = lines
    induction lines using List.reverseRecOn with
    | nil => exact kept_start
    | append_singleton lines line ih =>
      rw [List.foldl_append]
      exact kept_scanLine within ih
  rw [InCode,← kept.covers,codeRanges]
  split
  · next open' =>
    rw [isInside_append]
    simp [isInside,open']
  · next closed => simp [closed]

end Covering

section Scanning

variable {text pattern : Text} {code code' : Nat → Prop} {k i : Nat} {c : Char}

def At (pattern text : Text) (i : Nat) : Prop := pattern <+: text.drop i

theorem at_two : At [c,c] text i ↔ text[i]? = some c ∧ text[i + 1]? = some c := by
  have second : text[i + 1]? = (text.drop i)[1]? := by rw [List.getElem?_drop]
  have first : text[i]? = (text.drop i)[0]? := by rw [List.getElem?_drop]; rfl
  rw [At,first,second]
  generalize text.drop i = rest
  rcases rest with _ | ⟨d,_ | ⟨e,rest⟩⟩
  · simp
  · simp
  · simp [List.cons_prefix_cons,eq_comm]

theorem findFrom_eq_some (found : findFrom pattern text k = some i) :
    k ≤ i ∧ At pattern text i ∧ ∀ j,k ≤ j → j < i → ¬At pattern text j := by
  obtain ⟨n,inner,rfl⟩ := Option.map_eq_some_iff.mp found
  obtain ⟨_,stands,first⟩ := Text.find_eq_some.mp inner
  rw [List.drop_drop] at stands
  refine ⟨Nat.le_add_right _ _,stands,?_⟩
  intro j low high there
  apply first (j - k) (by omega)
  rw [List.drop_drop,show k + (j - k) = j by omega]
  exact there

theorem findFrom_eq_none (missing : findFrom pattern text k = none) :
    ∀ j,k ≤ j → ¬At pattern text j := by
  intro j low there
  rw [findFrom,Option.map_eq_none_iff,Text.find_eq_none] at missing
  apply missing
  have rest : text.drop j = (text.drop k).drop (j - k) := by
    rw [List.drop_drop,show k + (j - k) = j by omega]
  rw [At,rest] at there
  exact there.isInfix.trans (List.drop_suffix _ _).isInfix

/-- A link: brackets, the first closing ones behind them, and something between. -/
structure WellFormed (text : Text) (bracket close : Nat) : Prop where
  opens : At opening text bracket
  apart : bracket + 2 ≤ close
  closes : At closing text close
  first : ∀ j,bracket + 2 ≤ j → j < close → ¬At closing text j
  inner : Text.strip (slice text (bracket + 2) close) ≠ []

def startOf (text : Text) (bracket : Nat) : Nat :=
  if 0 < bracket ∧ text[bracket - 1]? = some '!' then bracket - 1 else bracket

/-- The links are those whose brackets stand outside the code, from a position on: in order, none
within another, and none is missing. -/
structure Selects (code : Nat → Prop) (text : Text) (k : Nat) (found : List Link) : Prop where
  ordered : found.Pairwise fun a b => a.close + 2 ≤ b.bracket
  sound : ∀ link ∈ found,k ≤ link.bracket ∧ WellFormed text link.bracket link.close ∧
    ¬code link.bracket ∧ link.start = startOf text link.bracket
  complete : ∀ bracket close,k ≤ bracket → WellFormed text bracket close → ¬code bracket →
    ∃ link ∈ found,link.bracket ≤ bracket ∧ bracket < link.close + 2

def Even (code : Nat → Prop) (text : Text) : Prop :=
  ∀ i,(text[i]? = some '!' ∨ text[i]? = some '[') → text[i + 1]? = some '[' →
    (code i ↔ code (i + 1))

theorem WellFormed.unique {bracket close close' : Nat} (one : WellFormed text bracket close)
    (two : WellFormed text bracket close') : close = close' := by
  rcases Nat.lt_trichotomy close close' with less | same | less
  · exact absurd one.closes (two.first close one.apart less)
  · exact same
  · exact absurd two.closes (one.first close' two.apart less)

theorem spaces_of_strip {t : Text} (blank : Text.strip t = []) : ∀ d ∈ t,Text.isSpace d = true := by
  rw [Text.strip,Text.stripBy,Text.rstripBy,List.reverse_eq_nil_iff,List.dropWhile_eq_nil_iff]
    at blank
  intro d found
  rw [← List.takeWhile_append_dropWhile (p := Text.isSpace) (l := t)] at found
  rcases List.mem_append.mp found with front | back
  · exact List.mem_takeWhile_imp front
  · exact blank d (List.mem_reverse.mpr back)

theorem mem_slice {start stop : Nat} (there : text[i]? = some c) (low : start ≤ i) (high : i < stop) :
    c ∈ slice text start stop := by
  apply List.mem_of_getElem? (i := i - start)
  rw [slice,List.getElem?_drop,show start + (i - start) = i by omega,List.getElem?_take_of_lt high]
  exact there

/-- Nothing opens between the brackets of a link without content. -/
theorem not_opens_blank {bracket close : Nat} (apart : bracket + 2 ≤ close)
    (closes : At closing text close) (blank : Text.strip (slice text (bracket + 2) close) = [])
    {i : Nat} (low : bracket < i) (high : i < close + 2) : ¬At opening text i := by
  intro opens
  obtain ⟨first,second⟩ := at_two.mp opens
  obtain ⟨one,two⟩ := at_two.mp closes
  have within : ∃ j,bracket + 2 ≤ j ∧ j < close + 2 ∧ text[j]? = some '[' := by
    by_cases next : i = bracket + 1
    · refine ⟨i + 1,by omega,?_,second⟩
      by_contra beyond
      have edge : i = close + 1 := by omega
      rw [edge,two] at first
      simp at first
    · exact ⟨i,by omega,high,first⟩
  obtain ⟨j,least,less,found⟩ := within
  have inside : j < close := by
    by_contra beyond
    rcases (show j = close ∨ j = close + 1 by omega) with rfl | rfl
    · rw [one] at found
      simp at found
    · rw [two] at found
      simp at found
  have space := spaces_of_strip blank _ (mem_slice found least inside)
  revert space
  decide

theorem selects_linksFrom {mask : Nat → Bool} (even : Even (fun i => mask i = true) text)
    (fuel k : Nat) (enough : text.length < k + fuel) (before : k = 0 ∨ text[k - 1]? ≠ some '!') :
    Selects (fun i => mask i = true) text k (linksFrom mask text fuel k) := by
  induction fuel generalizing k with
  | zero =>
    refine ⟨.nil,fun _ impossible => (by cases impossible),?_⟩
    intro bracket close low formed
    obtain ⟨there,_⟩ := at_two.mp formed.opens
    have := (List.getElem?_eq_some_iff.mp there).1
    omega
  | succ fuel ih =>
    rw [linksFrom]
    cases opened : findFrom opening text k with
    | none =>
      refine ⟨.nil,fun _ impossible => (by cases impossible),?_⟩
      intro bracket close low formed
      exact absurd formed.opens (findFrom_eq_none opened bracket low)
    | some bracket =>
      obtain ⟨low,opens,least⟩ := findFrom_eq_some opened
      obtain ⟨first,second⟩ := at_two.mp opens
      have reach : ∀ {b c : Nat},k ≤ b → WellFormed text b c → bracket ≤ b := by
        intro b c low' formed
        by_contra earlier
        exact least b low' (by omega) formed.opens
      have start : (if k < bracket ∧ text[bracket - 1]? = some '!' then bracket - 1 else bracket) =
          startOf text bracket := by
        rw [startOf]
        rcases Nat.eq_or_lt_of_le low with rfl | less
        · rcases before with rfl | plain
          · simp
          · simp [plain]
        · simp [less,show 0 < bracket by omega]
      have masked : mask (startOf text bracket) = mask bracket := by
        rw [startOf]
        split
        · next marked =>
          have same : bracket - 1 + 1 = bracket := by omega
          have both := even (bracket - 1) (.inl marked.2) (by rw [same]; exact first)
          rw [same] at both
          exact Bool.eq_iff_iff.mpr both
        · rfl
      dsimp only
      rw [start,masked]
      split
      · next inside =>
        have next := ih (bracket + 2) (by omega) (.inr (by
          rw [show bracket + 2 - 1 = bracket + 1 by omega,second]
          simp))
        refine ⟨next.ordered,?_,?_⟩
        · intro link member
          obtain ⟨behind,kept⟩ := next.sound link member
          exact ⟨by omega,kept⟩
        · intro b c low' formed outside
          have far := reach low' formed
          have other : b ≠ bracket := by
            rintro rfl
            exact outside inside
          have other' : b ≠ bracket + 1 := by
            rintro rfl
            exact outside ((even bracket (.inr first) second).mp inside)
          exact next.complete b c (by omega) formed outside
      · next outside =>
        cases closed : findFrom closing text (bracket + 2) with
        | none =>
          refine ⟨.nil,fun _ impossible => (by cases impossible),?_⟩
          intro b c low' formed
          have far := reach low' formed
          have apart := formed.apart
          exact absurd formed.closes (findFrom_eq_none closed c (by omega))
        | some close =>
          obtain ⟨apart,closes,first'⟩ := findFrom_eq_some closed
          obtain ⟨_,two⟩ := at_two.mp closes
          have later := ih (close + 2) (by omega) (.inr (by
            rw [show close + 2 - 1 = close + 1 by omega,two]
            simp))
          dsimp only
          split
          · next blank =>
            refine ⟨later.ordered,?_,?_⟩
            · intro link member
              obtain ⟨behind,kept⟩ := later.sound link member
              exact ⟨by omega,kept⟩
            · intro b c low' formed outside'
              have far := reach low' formed
              apply later.complete b c _ formed outside'
              by_contra within
              rcases Nat.eq_or_lt_of_le far with rfl | inner
              · have same : c = close := by
                  rcases Nat.lt_trichotomy c close with less | same | less
                  · exact absurd formed.closes (first' c formed.apart less)
                  · exact same
                  · exact absurd closes (formed.first close apart less)
                rw [same] at formed
                exact formed.inner blank
              · exact not_opens_blank apart closes blank inner (by omega) formed.opens
          · next some' =>
            refine ⟨List.pairwise_cons.mpr ⟨?_,later.ordered⟩,?_,?_⟩
            · exact fun link member => (later.sound link member).1
            · intro link member
              rcases List.mem_cons.mp member with rfl | behind
              · exact ⟨low,⟨opens,apart,closes,first',some'⟩,outside,rfl⟩
              · obtain ⟨far,kept⟩ := later.sound link behind
                exact ⟨by omega,kept⟩
            · intro b c low' formed outside'
              have far := reach low' formed
              by_cases within : b < close + 2
              · exact ⟨_,List.mem_cons_self,far,within⟩
              · obtain ⟨link,member,kept⟩ := later.complete b c (by omega) formed outside'
                exact ⟨link,List.mem_cons_of_mem _ member,kept⟩

theorem Selects.tail {link : Link} {rest : List Link}
    (selects : Selects code text k (link :: rest)) : Selects code text (link.close + 2) rest := by
  obtain ⟨ordered,sound,complete⟩ := selects
  obtain ⟨behind,ordered⟩ := List.pairwise_cons.mp ordered
  refine ⟨ordered,?_,?_⟩
  · intro other member
    obtain ⟨_,kept⟩ := sound other (List.mem_cons_of_mem _ member)
    exact ⟨behind other member,kept⟩
  · intro bracket close low formed outside
    obtain ⟨_,own,_⟩ := sound link List.mem_cons_self
    have apart := own.apart
    obtain ⟨first,_⟩ := sound link List.mem_cons_self
    obtain ⟨other,member,least,less⟩ := complete bracket close (by omega) formed outside
    rcases List.mem_cons.mp member with rfl | later
    · omega
    · exact ⟨other,later,least,less⟩

/-- Two masks that agree where links may begin select the same links. -/
theorem selects_agree {found found' : List Link} (selects : Selects code text k found)
    (selects' : Selects code' text k found') (agree : ∀ bracket close,k ≤ bracket →
      WellFormed text bracket close →
      (∀ link ∈ found,¬(link.bracket < bracket ∧ bracket < link.close + 2)) →
      (code bracket ↔ code' bracket)) : found = found' := by
  induction found generalizing k found' with
  | nil =>
    cases found' with
    | nil => rfl
    | cons link rest =>
      obtain ⟨low,formed,outside,_⟩ := selects'.sound link List.mem_cons_self
      have clear := agree _ _ low formed fun _ impossible => by cases impossible
      obtain ⟨_,impossible,_⟩ := selects.complete _ _ low formed (mt clear.mp outside)
      cases impossible
  | cons link rest ih =>
    obtain ⟨low,formed,outside,start⟩ := selects.sound link List.mem_cons_self
    have apart := formed.apart
    have behind := (List.pairwise_cons.mp selects.ordered).1
    -- no link of the other list begins earlier
    have earliest : ∀ other ∈ found',link.bracket ≤ other.bracket := by
      intro other member
      by_contra earlier
      obtain ⟨low',formed',outside',_⟩ := selects'.sound other member
      have least : ∀ one ∈ link :: rest,link.bracket ≤ one.bracket := by
        intro one member
        rcases List.mem_cons.mp member with rfl | later
        · exact le_rfl
        · have := behind one later
          omega
      have clear := agree _ _ low' formed' fun one member inside => by
        have := least one member
        omega
      obtain ⟨one,member,within,_⟩ := selects.complete _ _ low' formed' (mt clear.mp outside')
      have := least one member
      omega
    have clear := agree _ _ low formed fun one member inside => by
      rcases List.mem_cons.mp member with rfl | later
      · omega
      · have := behind one later
        omega
    obtain ⟨own,member,within,_⟩ := selects'.complete _ _ low formed (mt clear.mpr outside)
    cases found' with
    | nil => cases member
    | cons head rest' =>
      obtain ⟨_,formed',_,start'⟩ := selects'.sound head List.mem_cons_self
      have apart' := formed'.apart
      have first := earliest head List.mem_cons_self
      have same : head.bracket = link.bracket := by
        rcases List.mem_cons.mp member with rfl | later
        · omega
        · have := (List.pairwise_cons.mp selects'.ordered).1 own later
          omega
      have equal : head = link := by
        obtain ⟨s,b,e⟩ := head
        obtain ⟨s',b',e'⟩ := link
        dsimp only at same start start' formed formed'
        subst same start start'
        rw [formed.unique formed']
      subst equal
      congr 1
      apply ih selects.tail selects'.tail
      intro bracket close low' formed'' clear'
      apply agree bracket close (by omega) formed''
      intro one member inside
      rcases List.mem_cons.mp member with rfl | later
      · omega
      · exact clear' one later inside

end Scanning

section Exact

variable {inline : Text → List (Nat × Nat)} {text : Text}

theorem text_of_lines {before behind : List Text} {line : Text}
    (same : splitLines text = before ++ line :: behind) :
    text = before.flatten ++ line ++ behind.flatten := by
  rw [← flatten_splitLines text,same]
  simp

/-- The characters of a line are those of the text. -/
theorem getElem?_of_line {before behind : List Text} {line : Text} {i : Nat}
    (same : splitLines text = before ++ line :: behind) (low : before.flatten.length ≤ i)
    (high : i < before.flatten.length + line.length) :
    text[i]? = (line)[i - before.flatten.length]? := by
  rw [text_of_lines same,List.getElem?_append_left (by simpa using high),
    List.getElem?_append_right low]

/-- In front of a further line stands a line boundary. -/
theorem endsLine_before {before behind : List Text} {line : Text} {i : Nat}
    (same : splitLines text = before ++ line :: behind) (more : behind ≠ [])
    (edge : i + 1 = before.flatten.length + line.length) :
    ∃ c,text[i]? = some c ∧ endsLine c = true := by
  have inner : line ∈ (splitLines text).dropLast := by
    rw [same,List.dropLast_append_of_ne_nil (by simp),List.dropLast_cons_of_ne_nil more]
    simp
  obtain ⟨c,last,ends⟩ := endsLine_of_dropLast text line inner
  refine ⟨c,?_,ends⟩
  have some' : line ≠ [] := by
    rintro rfl
    cases last
  have positive := List.length_pos_of_ne_nil some'
  rw [getElem?_of_line same (by omega) (by omega),← last,List.getLast?_eq_getElem?]
  congr 1
  omega

theorem plain_of_mark {c : Char} (mark : c = '!' ∨ c = '[') : endsLine c = false ∧ c ≠ tick := by
  rcases mark with rfl | rfl
  · decide
  · decide

/-- Neither a line nor an inline span begins or ends within an opening. -/
theorem even_inCode (within : ∀ line,∀ span ∈ inline line,Ticked line span) (text : Text) :
    Even (InCode inline text) text := by
  intro i mark next
  obtain ⟨c,here,plain,other⟩ : ∃ c,text[i]? = some c ∧ endsLine c = false ∧ c ≠ tick := by
    rcases mark with found | found
    · exact ⟨_,found,plain_of_mark (.inl rfl)⟩
    · exact ⟨_,found,plain_of_mark (.inr rfl)⟩
  have unbroken : ∀ {before behind : List Text} {line : Text},
      splitLines text = before ++ line :: behind → behind ≠ [] →
      i + 1 ≠ before.flatten.length + line.length := by
    intro before behind line same more edge
    obtain ⟨d,found,ends⟩ := endsLine_before same more edge
    rw [here] at found
    rw [Option.some.inj found,ends] at plain
    cases plain
  constructor
  · rintro ⟨before,line,behind,same,low,high,code⟩
    have inside : i + 1 < before.flatten.length + line.length := by
      by_contra outside
      apply unbroken same _ (by omega)
      rintro rfl
      have bounded := (List.getElem?_eq_some_iff.mp next).1
      rw [text_of_lines same] at bounded
      simp only [List.length_append,List.flatten_nil,List.length_nil] at bounded
      omega
    refine ⟨before,line,behind,same,by omega,inside,code.imp id ?_⟩
    intro inSpan
    obtain ⟨span,member,least,less⟩ := isInside_iff.mp inSpan
    refine isInside_iff.mpr ⟨span,member,by omega,?_⟩
    by_contra beyond
    have last := (within line span member).last
    rw [show span.2 - 1 = i - before.flatten.length by omega,← getElem?_of_line same low high,here]
      at last
    exact other (Option.some.inj last)
  · rintro ⟨before,line,behind,same,low,high,code⟩
    have inside : before.flatten.length ≤ i := by
      by_contra outside
      rcases List.eq_nil_or_concat before with rfl | ⟨init,last,rfl⟩
      · simp at outside
      · rw [List.concat_eq_append,List.append_assoc] at same
        apply unbroken same (by simp)
        simp only [List.concat_eq_append,List.flatten_append,List.length_append,List.flatten_cons,
          List.flatten_nil,List.append_nil] at low outside
        omega
    refine ⟨before,line,behind,same,inside,by omega,code.imp id ?_⟩
    intro inSpan
    obtain ⟨span,member,least,less⟩ := isInside_iff.mp inSpan
    refine isInside_iff.mpr ⟨span,member,?_,by omega⟩
    by_contra beyond
    have first := (within line span member).first
    rw [show span.1 = i + 1 - before.flatten.length by omega,← getElem?_of_line same low high,next]
      at first
    exact absurd (Option.some.inj first) (by decide)

theorem selects_links (within : ∀ line,∀ span ∈ inline line,Ticked line span) (text : Text) :
    Selects (InCode inline text) text 0 (links inline text) := by
  have mask : (fun position => isInside position (codeRanges inline text) = true) =
      InCode inline text := funext fun position => propext (isInside_codeRanges within text)
  rw [← mask,links]
  apply selects_linksFrom
  · rw [mask]
    exact even_inCode within text
  · omega
  · exact .inl rfl

end Exact

end LocalBook.Wikilinks
