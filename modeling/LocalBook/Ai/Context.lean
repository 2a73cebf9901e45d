import LocalBook.Actions.Patches

/-! The notes that are put into a request to the model: the sources are met in one order and cut to
two budgets, and a heading of a source selects the section behind it. -/
namespace LocalBook.Ai

open Patches (cr lf endsLine)

/-! ### Lines -/

/-- `text.splitlines()`. -/
def splitLines : Text → List Text
  | [] => []
  | c :: rest =>
    if c = cr ∧ rest.head? = some lf then splitLines rest
    else if endsLine c then [] :: splitLines rest
    else
      match splitLines rest with
      | line :: others => (c :: line) :: others
      | [] => [[c]]

theorem free_of_mem_splitLines {t line : Text} (inside : line ∈ splitLines t) : lf ∉ line := by
  induction t generalizing line with
  | nil => cases inside
  | cons c rest ih =>
    rw [splitLines] at inside
    split at inside
    · exact ih inside
    split at inside
    · rcases List.mem_cons.mp inside with rfl | later
      · simp
      · exact ih later
    · next plain =>
      have other : lf ≠ c := by
        rintro rfl
        exact plain (by decide)
      split at inside
      · next first others found =>
        rcases List.mem_cons.mp inside with rfl | later
        · intro there
          rcases List.mem_cons.mp there with same | there
          · exact other same
          · exact ih (by rw [found]; exact List.mem_cons_self) there
        · exact ih (by rw [found]; exact List.mem_cons_of_mem _ later)
      · rw [List.mem_singleton.mp inside]
        simpa using other

theorem joined_injective {a b : List Text} (free : ∀ line ∈ a,lf ∉ line)
    (free' : ∀ line ∈ b,lf ∉ line) (some_ : a ≠ []) (some' : b ≠ [])
    (same : Text.join [lf] a = Text.join [lf] b) : a = b := by
  rw [← List.splitOn_intercalate lf free some_,← List.splitOn_intercalate lf free' some']
  exact congrArg _ same

/-! ### The section behind a heading -/

/-- `line.lstrip().startswith("#")`. -/
def looksHeading (line : Text) : Bool := (Text.lstripBy Text.isSpace line).head? = some '#'

/-- `line.lstrip().lstrip("#").strip()`. -/
def headingText (line : Text) : Text :=
  Text.strip (Text.lstripBy (· = '#') (Text.lstripBy Text.isSpace line))

def lineAt (lines : List Text) (i : Nat) : Text := lines[i]?.getD []

/-- `len(line) - len(line.lstrip())`. -/
def indent (line : Text) : Nat := line.length - (Text.lstripBy Text.isSpace line).length

/-- The first of these lines behind `marker`, or the end. -/
def endBehind (stops : Nat → Bool) (marker count : Nat) : Nat :=
  ((List.range' (marker + 1) (count - (marker + 1))).find? stops).getD count

def markerOf (lines : List Text) (heading : Text) : Option Nat :=
  lines.findIdx? fun line => looksHeading line && headingText line = heading

/-- A line that ends the section of the line at `marker`. -/
def stops (lines : List Text) (marker i : Nat) : Bool :=
  looksHeading (lineAt lines i) &&
    decide (indent (lineAt lines i) ≤ indent (lineAt lines marker))

def between (lines : List Text) (start stop : Nat) : Text :=
  Text.join [lf] ((lines.take stop).drop start)

structure ContextSource where
  path : Text
  title : Text
  heading : Option Text := none
  text : Text
  relevance : Option ℚ := none
  truncated : Bool := false
deriving DecidableEq

/-- The text of a source, as far as its heading selects it. -/
def selected (source : ContextSource) : Text :=
  match source.heading with
  | none => source.text
  | some heading =>
    if heading = [] then source.text
    else
      let lines := splitLines source.text
      match markerOf lines heading with
      | none => source.text
      | some marker => between lines marker (endBehind (stops lines marker) marker lines.length)

/-! ### Headings of Markdown -/

def opensFence (line : Text) : Option (Char × Nat) :=
  let rest := line.dropWhile (· = ' ')
  match rest with
  | [] => none
  | c :: _ =>
    let run := (rest.takeWhile (· = c)).length
    if line.length - rest.length ≤ 3 ∧ 3 ≤ run ∧
        (c = '~' ∨ c = Char.ofNat 96 ∧ c ∉ rest.drop run) then some (c,run)
    else none

def closesFence (fence : Char × Nat) (line : Text) : Bool :=
  let rest := line.dropWhile (· = ' ')
  let run := (rest.takeWhile (· = fence.1)).length
  decide (line.length - rest.length ≤ 3) && decide (fence.2 ≤ run) &&
    (rest.drop run).all fun c => c = ' ' || c = Char.ofNat 9

def headingLevel (line : Text) : Option Nat :=
  let rest := line.dropWhile (· = ' ')
  let level := (rest.takeWhile (· = '#')).length
  if line.length - rest.length ≤ 3 ∧ 1 ≤ level ∧ level ≤ 6 ∧
      (rest.drop level).head?.all fun c => c = ' ' || c = Char.ofNat 9 then some level
  else none

def outline (fence : Option (Char × Nat)) : List Text → List (Option Nat)
  | [] => []
  | line :: rest =>
    match fence with
    | some opened =>
      none :: outline (if closesFence opened line then none else some opened) rest
    | none =>
      match opensFence line with
      | some opened => none :: outline (some opened) rest
      | none => headingLevel line :: outline none rest

def markLevel (line : Text) : Nat :=
  ((Text.lstripBy Text.isSpace line).takeWhile (· = '#')).length

def closes (lines : List Text) (marker i : Nat) : Bool :=
  ((outline none lines)[i]?.join).any fun level => level ≤ markLevel (lineAt lines marker)

def wholeSection (lines : List Text) (marker : Nat) : Text :=
  between lines marker (endBehind (closes lines marker) marker lines.length)

/-! ### The two ends of a section -/

section Ends

theorem find_range_iff {p q : Nat → Bool} (count start : Nat) :
    ((List.range' start count).find? p).getD (start + count) =
      ((List.range' start count).find? q).getD (start + count) ↔
    ∀ j,start ≤ j → j < start + count → (∀ i,start ≤ i → i < j → p i = false ∧ q i = false) →
      p j = q j := by
  induction count generalizing start with
  | zero =>
    simp only [List.range'_zero,List.find?_nil,true_iff]
    intro j low high
    omega
  | succ count ih =>
    have later : start + (count + 1) = start + 1 + count := by omega
    have behind : ∀ r : Nat → Bool,start < ((List.range' (start + 1) count).find? r).getD
        (start + 1 + count) := by
      intro r
      cases found : (List.range' (start + 1) count).find? r with
      | none => simp; omega
      | some i =>
        have inside := List.mem_of_find?_eq_some found
        rw [List.mem_range'_1] at inside
        exact inside.1
    rw [List.range'_succ,List.find?_cons,List.find?_cons,later]
    cases here : p start with
    | true =>
      cases there : q start with
      | true =>
        simp only [Option.getD_some,true_iff]
        intro j low high before
        by_cases same : j = start
        · rw [same,here,there]
        · have first := (before start le_rfl (by omega)).1
          rw [here] at first
          cases first
      | false =>
        constructor
        · intro same
          have more := behind q
          simp only [Option.getD_some] at same
          omega
        · intro agree
          have same := agree start le_rfl (by omega) fun i low high => by omega
          rw [here,there] at same
          cases same
    | false =>
      cases there : q start with
      | true =>
        constructor
        · intro same
          have more := behind p
          simp only [Option.getD_some] at same
          omega
        · intro agree
          have same := agree start le_rfl (by omega) fun i low high => by omega
          rw [here,there] at same
          cases same
      | false =>
        simp only
        rw [ih]
        constructor
        · intro agree j low high before
          by_cases same : j = start
          · rw [same,here,there]
          · exact agree j (by omega) (by omega) fun i low' high' => before i (by omega) high'
        · intro agree j low high before
          refine agree j (by omega) (by omega) fun i low' high' => ?_
          by_cases same : i = start
          · rw [same]
            exact ⟨here,there⟩
          · exact before i (by omega) high'

theorem endBehind_spec (stops : Nat → Bool) {marker count : Nat} (inside : marker < count) :
    marker < endBehind stops marker count ∧ endBehind stops marker count ≤ count := by
  unfold endBehind
  cases found : (List.range' (marker + 1) (count - (marker + 1))).find? stops with
  | none => exact ⟨inside,le_rfl⟩
  | some i =>
    have there := List.mem_of_find?_eq_some found
    rw [List.mem_range'_1] at there
    rw [Option.getD_some]
    omega

theorem between_injective {t : Text} {marker a b : Nat} (first : marker < a) (second : marker < b)
    (within : a ≤ (splitLines t).length) (within' : b ≤ (splitLines t).length)
    (same : between (splitLines t) marker a = between (splitLines t) marker b) : a = b := by
  have free : ∀ stop,∀ line ∈ ((splitLines t).take stop).drop marker,lf ∉ line :=
    fun stop line inside =>
      free_of_mem_splitLines (List.mem_of_mem_take (List.mem_of_mem_drop inside))
  have length : ∀ stop,stop ≤ (splitLines t).length →
      (((splitLines t).take stop).drop marker).length = stop - marker := by
    intro stop within
    rw [List.length_drop,List.length_take]
    omega
  have some_ : ∀ stop,marker < stop → stop ≤ (splitLines t).length →
      ((splitLines t).take stop).drop marker ≠ [] := by
    intro stop more within empty
    have count := length stop within
    rw [empty] at count
    simp at count
    omega
  have lists := joined_injective (free a) (free b) (some_ a first within) (some_ b second within')
    same
  have counts := congrArg List.length lists
  rw [length a within,length b within'] at counts
  omega

/-- No line at which the two rules differ stands before the first line that either of them stops
at. -/
def Agrees (lines : List Text) (marker : Nat) : Prop :=
  ∀ j,marker < j → j < lines.length →
    (∀ i,marker < i → i < j → stops lines marker i = false ∧ closes lines marker i = false) →
      stops lines marker j = closes lines marker j

theorem whole_iff {t : Text} {marker : Nat} (inside : marker < (splitLines t).length) :
    between (splitLines t) marker
        (endBehind (stops (splitLines t) marker) marker (splitLines t).length) =
      wholeSection (splitLines t) marker ↔ Agrees (splitLines t) marker := by
  have count : marker + 1 + ((splitLines t).length - (marker + 1)) = (splitLines t).length := by
    omega
  have ends := @find_range_iff (stops (splitLines t) marker) (closes (splitLines t) marker)
    ((splitLines t).length - (marker + 1)) (marker + 1)
  rw [count] at ends
  obtain ⟨low,high⟩ := endBehind_spec (stops (splitLines t) marker) inside
  obtain ⟨low',high'⟩ := endBehind_spec (closes (splitLines t) marker) inside
  constructor
  · intro same
    exact ends.mp (between_injective low low' high high' same)
  · intro agrees
    have same : endBehind (stops (splitLines t) marker) marker (splitLines t).length =
        endBehind (closes (splitLines t) marker) marker (splitLines t).length := ends.mpr agrees
    rw [same]
    rfl

end Ends

/-! ### Building the context -/

structure ContextBundle where
  notes : List ContextSource
  totalChars : Nat
  omittedNotes : Nat

structure ContextBuilder where
  maxNotes : Nat := 8
  maxCharsPerNote : Nat := 12000
  maxCharsTotal : Nat := 60000
  notes_pos : 1 ≤ maxNotes
  chars_pos : 500 ≤ maxCharsPerNote
  total_pos : 1000 ≤ maxCharsTotal

/-- The nested `safe`. -/
def safe (path : Text) : Bool :=
  path ≠ [] && !(Text.startsWith path ['/'] || Text.startsWith path ['\\']) &&
    !Text.startsWith path ".localnote".toList && !(Text.split '/' path).contains ['.','.'] &&
    !path.contains '\\'

section Order

variable [Host]

def sortKey (first : Option Text) (item : ContextSource × Nat) : Bool ×ₗ ℚ ×ₗ Text ×ₗ Nat :=
  toLex (first.any fun path => item.1.path ≠ path,toLex (-(item.1.relevance.getD 0),
    toLex (Host.casefold item.1.path,item.2)))

def ordered (sources : List ContextSource) : List (ContextSource × Nat) :=
  sources.zipIdx.insertionSort fun a b =>
    sortKey (sources.head?.map ContextSource.path) a ≤
      sortKey (sources.head?.map ContextSource.path) b

end Order

structure Assembly where
  unique : List ContextSource := []
  seen : List Text := []
  total : Nat := 0

namespace ContextBuilder

variable (builder : ContextBuilder)

/-- What is shown of a source, and whether that is cut, when `total` characters are taken. -/
def shown (total : Nat) (source : ContextSource) : Text × Bool :=
  let text := (selected source).take builder.maxCharsPerNote
  if total + text.length > builder.maxCharsTotal then
    (text.take (builder.maxCharsTotal - total),true)
  else (text,decide ((selected source).length > builder.maxCharsPerNote))

def assemble (acc : Assembly) : List ContextSource → Assembly
  | [] => acc
  | source :: rest =>
    if source.path ∈ acc.seen ∨ safe source.path = false then assemble acc rest
    else
      let seen := acc.seen ++ [source.path]
      let text := (selected source).take builder.maxCharsPerNote
      if acc.total + text.length > builder.maxCharsTotal ∧ builder.maxCharsTotal ≤ acc.total then
        assemble {acc with seen} rest
      else
        let cut := builder.shown acc.total source
        let next : Assembly :=
          {unique := acc.unique ++ [{source with text := cut.1,truncated := cut.2}]
           seen
           total := acc.total + cut.1.length}
        if builder.maxNotes ≤ next.unique.length then next else assemble next rest

def build [Host] (sources : List ContextSource) : ContextBundle :=
  let acc := builder.assemble {} ((ordered sources).map Prod.fst)
  {notes := acc.unique
   totalChars := acc.total
   omittedNotes := sources.length - acc.unique.length}

end ContextBuilder

/-- The note shows the start of what is selected of the source, and is marked when that is less
than all of it. -/
structure Shows (builder : ContextBuilder) (source note : ContextSource) : Prop where
  same : note = {source with text := note.text,truncated := note.truncated}
  text : note.text <+: selected source
  bounded : note.text.length ≤ builder.maxCharsPerNote
  truncated : note.truncated = true ↔ note.text.length < (selected source).length

section Assembling

variable {builder : ContextBuilder} {acc : Assembly}

theorem shown_shows {source : ContextSource} {total : Nat}
    (within : total ≤ builder.maxCharsTotal) :
    Shows builder source {source with
      text := (builder.shown total source).1,truncated := (builder.shown total source).2} ∧
    total + (builder.shown total source).1.length ≤ builder.maxCharsTotal := by
  simp only [ContextBuilder.shown,List.length_take]
  split
  · next more =>
    refine ⟨⟨rfl,?_,?_,?_⟩,?_⟩
    · exact (List.take_prefix _ _).trans (List.take_prefix _ _)
    · simp only [List.length_take]
      omega
    · simp only [List.length_take,true_iff]
      omega
    · simp only [List.length_take]
      omega
  · next fits =>
    refine ⟨⟨rfl,List.take_prefix _ _,?_,?_⟩,?_⟩
    · simp only [List.length_take]
      omega
    · simp only [List.length_take,decide_eq_true_eq]
      omega
    · simp only [List.length_take]
      omega

/-- What holds of the notes so far, taken from the sources that were met. -/
structure Invariant (builder : ContextBuilder) (met : List ContextSource) (acc : Assembly) :
    Prop where
  shows : ∃ chosen,chosen.Sublist met ∧ List.Forall₂ (Shows builder) chosen acc.unique
  safe : ∀ note ∈ acc.unique,safe note.path = true
  distinct : (acc.unique.map ContextSource.path).Nodup
  seen : ∀ note ∈ acc.unique,note.path ∈ acc.seen
  total : acc.total = (acc.unique.map fun note => note.text.length).sum
  bounded : acc.total ≤ builder.maxCharsTotal
  short : acc.unique.length ≤ builder.maxNotes
  met : ∀ source ∈ met,Ai.safe source.path = true → source.path ∈ acc.seen
  kept : ∀ path ∈ acc.seen,(∃ note ∈ acc.unique,note.path = path) ∨
    acc.total = builder.maxCharsTotal

theorem Invariant.start : Invariant builder [] {} where
  shows := ⟨[],List.Sublist.refl _,.nil⟩
  safe := by simp
  distinct := by simp
  seen := by simp
  total := rfl
  bounded := Nat.zero_le _
  short := Nat.zero_le _
  met := by simp
  kept := by simp

theorem Invariant.pass {met : List ContextSource} {source : ContextSource}
    (valid : Invariant builder met acc)
    (known : source.path ∈ acc.seen ∨ Ai.safe source.path = false) :
    Invariant builder (met ++ [source]) acc where
  shows := by
    obtain ⟨chosen,part,shows⟩ := valid.shows
    exact ⟨chosen,part.trans (List.sublist_append_left _ _),shows⟩
  safe := valid.safe
  distinct := valid.distinct
  seen := valid.seen
  total := valid.total
  bounded := valid.bounded
  short := valid.short
  met other inside safe' := by
    rcases List.mem_append.mp inside with old | new
    · exact valid.met other old safe'
    · rw [List.mem_singleton.mp new] at safe' ⊢
      exact known.resolve_right (by simp [safe'])
  kept := valid.kept

theorem Invariant.skip {met : List ContextSource} {source : ContextSource}
    (valid : Invariant builder met acc) (full : builder.maxCharsTotal ≤ acc.total) :
    Invariant builder (met ++ [source]) {acc with seen := acc.seen ++ [source.path]} where
  shows := by
    obtain ⟨chosen,part,shows⟩ := valid.shows
    exact ⟨chosen,part.trans (List.sublist_append_left _ _),shows⟩
  safe := valid.safe
  distinct := valid.distinct
  seen note inside := List.mem_append_left _ (valid.seen note inside)
  total := valid.total
  bounded := valid.bounded
  short := valid.short
  met other inside safe' := by
    rcases List.mem_append.mp inside with old | new
    · exact List.mem_append_left _ (valid.met other old safe')
    · rw [List.mem_singleton.mp new]
      exact List.mem_append_right _ List.mem_cons_self
  kept _ _ := .inr (le_antisymm valid.bounded full)

theorem Invariant.take {met : List ContextSource} {source note : ContextSource}
    (valid : Invariant builder met acc) (fresh : source.path ∉ acc.seen)
    (safe' : Ai.safe source.path = true) (shows : Shows builder source note)
    (within : acc.total + note.text.length ≤ builder.maxCharsTotal)
    (room : acc.unique.length < builder.maxNotes) :
    Invariant builder (met ++ [source]) {
      unique := acc.unique ++ [note]
      seen := acc.seen ++ [source.path]
      total := acc.total + note.text.length} where
  shows := by
    obtain ⟨chosen,part,all⟩ := valid.shows
    exact ⟨chosen ++ [source],part.append (List.Sublist.refl _),
      List.rel_append all (.cons shows .nil)⟩
  safe other inside := by
    rcases List.mem_append.mp inside with old | new
    · exact valid.safe other old
    · rw [List.mem_singleton.mp new,shows.same]
      exact safe'
  distinct := by
    have path : note.path = source.path := by rw [shows.same]
    rw [List.map_append,List.nodup_append]
    refine ⟨valid.distinct,by simp,?_⟩
    rintro a old b new rfl
    obtain ⟨other,inside,named⟩ := List.mem_map.mp old
    simp only [List.map_cons,List.map_nil,List.mem_singleton] at new
    exact fresh (path ▸ new ▸ named ▸ valid.seen other inside)
  seen other inside := by
    rcases List.mem_append.mp inside with old | new
    · exact List.mem_append_left _ (valid.seen other old)
    · rw [List.mem_singleton.mp new,shows.same]
      exact List.mem_append_right _ List.mem_cons_self
  total := by
    rw [List.map_append,List.sum_append,← valid.total]
    simp
  bounded := within
  short := by
    rw [List.length_append]
    simpa using room
  met other inside safe' := by
    rcases List.mem_append.mp inside with old | new
    · exact List.mem_append_left _ (valid.met other old safe')
    · rw [List.mem_singleton.mp new]
      exact List.mem_append_right _ List.mem_cons_self
  kept path inside := by
    rcases List.mem_append.mp inside with old | new
    · rcases valid.kept path old with ⟨other,there,named⟩ | full
      · exact .inl ⟨other,List.mem_append_left _ there,named⟩
      · exact .inr (le_antisymm within (full ▸ Nat.le_add_right _ _))
    · refine .inl ⟨note,List.mem_append_right _ List.mem_cons_self,?_⟩
      rw [shows.same]
      exact (List.mem_singleton.mp new).symm

/-- What the loop ends with: every source was met, or no note more is taken. -/
theorem assemble_spec {met : List ContextSource} (valid : Invariant builder met acc)
    (room : acc.unique.length < builder.maxNotes) (rest : List ContextSource) :
    ∃ more,more <+: rest ∧ Invariant builder (met ++ more) (builder.assemble acc rest) ∧
      (more = rest ∨ (builder.assemble acc rest).unique.length = builder.maxNotes) := by
  induction rest generalizing met acc with
  | nil => exact ⟨[],List.prefix_rfl,by simpa [ContextBuilder.assemble] using valid,.inl rfl⟩
  | cons source rest ih =>
    have extend : ∀ {acc' : Assembly},Invariant builder (met ++ [source]) acc' →
        acc'.unique.length < builder.maxNotes → ∃ more,more <+: source :: rest ∧
          Invariant builder (met ++ more) (builder.assemble acc' rest) ∧
          (more = source :: rest ∨
            (builder.assemble acc' rest).unique.length = builder.maxNotes) := by
      intro acc' valid' room'
      obtain ⟨more,part,kept,done⟩ := ih valid' room'
      refine ⟨source :: more,(List.prefix_cons_inj source).mpr part,by simpa using kept,?_⟩
      exact done.imp_left fun same => by rw [same]
    simp only [ContextBuilder.assemble]
    split
    · next known => exact extend (valid.pass known) room
    · next new =>
      rw [not_or,Bool.not_eq_false] at new
      split
      · next full => exact extend (valid.skip full.2) room
      · obtain ⟨shows,within⟩ := shown_shows valid.bounded
        have taken := valid.take new.1 new.2 shows within room
        split
        · next last =>
          refine ⟨[source],⟨rest,rfl⟩,taken,.inr ?_⟩
          exact le_antisymm taken.short last
        · next more => exact extend taken (not_le.mp more)

/-- Notes stay where they are. -/
theorem unique_assemble (acc : Assembly) (rest : List ContextSource) :
    acc.unique <+: (builder.assemble acc rest).unique := by
  induction rest generalizing acc with
  | nil => exact List.prefix_rfl
  | cons source rest ih =>
    simp only [ContextBuilder.assemble]
    split
    · exact ih acc
    · split
      · exact ih {acc with seen := acc.seen ++ [source.path]}
      · split
        · exact List.prefix_append _ _
        · exact (List.prefix_append _ _).trans (ih ⟨acc.unique ++ [_],_,_⟩)

end Assembling

/-! ### The order of the notes -/

def relevanceOf (source : ContextSource) : ℚ := source.relevance.getD 0

def Precedes (first : Text) (a b : ContextSource) : Prop :=
  (a.path ≠ first → b.path ≠ first) ∧
    ((a.path = first ↔ b.path = first) → relevanceOf b ≤ relevanceOf a)

section Showing

variable {builder : ContextBuilder}

theorem mem_shows {chosen notes : List ContextSource} {note : ContextSource}
    (shows : List.Forall₂ (Shows builder) chosen notes) (inside : note ∈ notes) :
    ∃ source ∈ chosen,Shows builder source note := by
  induction shows with
  | nil => cases inside
  | @cons source other chosen notes own _ ih =>
    rcases List.mem_cons.mp inside with rfl | later
    · exact ⟨source,List.mem_cons_self,own⟩
    · obtain ⟨found,there,shows⟩ := ih later
      exact ⟨found,List.mem_cons_of_mem _ there,shows⟩

/-- The first source that is met is shown first. -/
theorem first_note {source : ContextSource} (safe' : safe source.path = true)
    (rest : List ContextSource) : ∃ note,
      (builder.assemble {} (source :: rest)).unique.head? = some note ∧
        Shows builder source note := by
  have pos := builder.total_pos
  have fresh : ¬(source.path ∈ ([] : List Text) ∨ safe source.path = false) := by simp [safe']
  obtain ⟨shows,_⟩ := @shown_shows builder source 0 (Nat.zero_le _)
  refine ⟨_,?_,shows⟩
  simp only [ContextBuilder.assemble,if_neg fresh,List.nil_append]
  rw [if_neg (by omega)]
  split
  · rfl
  · have kept := @unique_assemble builder
      ⟨[{source with text := (builder.shown 0 source).1,truncated := (builder.shown 0 source).2}],
        [source.path],0 + (builder.shown 0 source).1.length⟩ rest
    obtain ⟨more,whole⟩ := kept
    rw [← whole]
    rfl

/-- The notes stand in the order of their sources. -/
theorem Shows.pairwise {first : Text} {chosen notes : List ContextSource}
    (shows : List.Forall₂ (Shows builder) chosen notes)
    (order : chosen.Pairwise (Precedes first)) : notes.Pairwise (Precedes first) := by
  induction shows with
  | nil => exact .nil
  | @cons source note chosen notes own rest ih =>
    have parts := List.pairwise_cons.mp order
    refine .cons ?_ (ih parts.2)
    intro other inside
    obtain ⟨source',there,own'⟩ := mem_shows rest inside
    have before := parts.1 source' there
    rw [own.same,own'.same]
    exact before

end Showing

/-! ### What is assembled -/

section Built

variable [Host] {sources : List ContextSource} {builder : ContextBuilder}

structure Assembled (builder : ContextBuilder) (sources : List ContextSource)
    (bundle : ContextBundle) : Prop where
  distinct : (bundle.notes.map ContextSource.path).Nodup
  safe : ∀ note ∈ bundle.notes,safe note.path = true
  short : bundle.notes.length ≤ builder.maxNotes
  bounded : ∀ note ∈ bundle.notes,note.text.length ≤ builder.maxCharsPerNote
  total : (bundle.notes.map fun note => note.text.length).sum = bundle.totalChars ∧
    bundle.totalChars ≤ builder.maxCharsTotal
  shows : ∀ note ∈ bundle.notes,∃ source ∈ sources,Shows builder source note
  first : ∀ source ∈ sources.head?,Ai.safe source.path = true → source.text ≠ [] →
    ∃ note ∈ bundle.notes.head?,note = {source with text := note.text,truncated := note.truncated}
  descending : (bundle.notes.filter fun note => sources.head?.any fun source =>
    note.path ≠ source.path).Pairwise fun a b => relevanceOf b ≤ relevanceOf a
  kept : ∀ source ∈ sources,Ai.safe source.path = true →
    (∃ note ∈ bundle.notes,note.path = source.path) ∨
      bundle.notes.length = builder.maxNotes ∨ bundle.totalChars = builder.maxCharsTotal
  whole : ∀ source ∈ sources,∀ heading ∈ source.heading,heading ≠ [] →
    ∀ marker ∈ markerOf (splitLines source.text) heading,
      selected source = wholeSection (splitLines source.text) marker

theorem ordered_perm (sources : List ContextSource) :
    ((ordered sources).map Prod.fst).Perm sources := by
  have whole := (List.perm_insertionSort (fun a b : ContextSource × Nat =>
    sortKey (sources.head?.map ContextSource.path) a ≤
      sortKey (sources.head?.map ContextSource.path) b) sources.zipIdx).map Prod.fst
  rwa [List.zipIdx_map_fst] at whole

theorem ordered_sorted (sources : List ContextSource) : (ordered sources).Pairwise fun a b =>
    sortKey (sources.head?.map ContextSource.path) a ≤
      sortKey (sources.head?.map ContextSource.path) b :=
  List.pairwise_insertionSort _ _

/-- What the order of the keys says of the two sources. -/
theorem sortKey_le {first : Text} {a b : ContextSource × Nat}
    (before : sortKey (some first) a ≤ sortKey (some first) b) :
    (a.1.path ≠ first → b.1.path ≠ first) ∧
      ((a.1.path = first ↔ b.1.path = first) → relevanceOf b.1 ≤ relevanceOf a.1) := by
  rw [sortKey,sortKey,Prod.Lex.toLex_le_toLex] at before
  simp only [Option.any_some] at before
  rcases before with less | ⟨same,after⟩
  · have parts := Bool.lt_iff.mp less
    simp only [decide_eq_false_iff_not,decide_eq_true_eq,not_not] at parts
    constructor
    · exact fun other => absurd parts.1 other
    · intro both
      exact absurd (both.mp parts.1) parts.2
  · rw [decide_eq_decide] at same
    constructor
    · exact same.mp
    · intro _
      rw [Prod.Lex.toLex_le_toLex] at after
      unfold relevanceOf
      rcases after with less | ⟨equal,_⟩
      · exact le_of_lt (neg_lt_neg_iff.mp less)
      · exact le_of_eq (neg_injective equal.symm)

theorem ordered_precedes (source : ContextSource) (rest : List ContextSource) :
    ((ordered (source :: rest)).map Prod.fst).Pairwise (Precedes source.path) := by
  rw [List.pairwise_map]
  exact (ordered_sorted (source :: rest)).imp sortKey_le

/-- The source that is met first has the path of the first one, and the highest relevance of
those. -/
theorem ordered_head (source : ContextSource) (rest : List ContextSource) :
    ∃ first others,ordered (source :: rest) = first :: others ∧ first.1.path = source.path ∧
      (∀ other ∈ source :: rest,other.path = source.path →
        relevanceOf other ≤ relevanceOf first.1) ∧
      ((∀ other ∈ source :: rest,other.path = source.path →
        relevanceOf other ≤ relevanceOf source) → first.1 = source) := by
  have there : (source,0) ∈ ordered (source :: rest) := by
    rw [ordered,List.mem_insertionSort]
    simp
  have perm := ordered_perm (source :: rest)
  have sorted := ordered_sorted (source :: rest)
  have members : ∀ item ∈ ordered (source :: rest),item ∈ (source :: rest).zipIdx := by
    intro item inside
    rwa [ordered,List.mem_insertionSort] at inside
  cases whole : ordered (source :: rest) with
  | nil =>
    rw [whole] at there
    cases there
  | cons first others =>
    rw [whole] at perm sorted there members
    have least : ∀ item ∈ first :: others,sortKey (some source.path) first ≤
        sortKey (some source.path) item := by
      intro item inside
      rcases List.mem_cons.mp inside with rfl | later
      · exact le_rfl
      · exact (List.pairwise_cons.mp sorted).1 item later
    have named : first.1.path = source.path := by
      by_contra other
      exact (sortKey_le (least _ there)).1 other rfl
    have highest : ∀ other ∈ source :: rest,other.path = source.path →
        relevanceOf other ≤ relevanceOf first.1 := by
      intro other inside same
      obtain ⟨item,member,rfl⟩ := List.mem_map.mp (perm.mem_iff.mpr inside)
      exact (sortKey_le (least item member)).2 (by simp [named,same])
    refine ⟨first,others,rfl,named,highest,?_⟩
    intro top
    have member := members first List.mem_cons_self
    have own : first.1 ∈ source :: rest := perm.subset (List.mem_map_of_mem List.mem_cons_self)
    have equal : relevanceOf first.1 = relevanceOf source :=
      le_antisymm (top _ own named) (highest _ List.mem_cons_self rfl)
    have keys := least _ there
    have index : first.2 = 0 := by
      rw [sortKey,sortKey,Prod.Lex.toLex_le_toLex] at keys
      simp only [named,Option.any_some,ne_eq,not_true_eq_false,decide_false,lt_irrefl,false_or,
        true_and] at keys
      rw [Prod.Lex.toLex_le_toLex] at keys
      unfold relevanceOf at equal
      simp only [equal,lt_irrefl,false_or,true_and,Prod.Lex.toLex_le_toLex] at keys
      exact Nat.le_zero.mp keys
    obtain ⟨item,i⟩ := first
    simp only at index
    subst index
    have at_ := List.mk_mem_zipIdx_iff_getElem?.mp member
    exact (Option.some.inj at_).symm

omit [Host] in
theorem marker_inside {lines : List Text} {heading : Text} {marker : Nat}
    (found : marker ∈ markerOf lines heading) : marker < lines.length :=
  (List.findIdx?_eq_some_iff_findIdx_eq.mp found).1

end Built

section Example

open scoped AsciiHost

theorem defaults_notes : 1 ≤ 8 := by decide

theorem defaults_chars : 500 ≤ 12000 := by decide

theorem defaults_total : 1000 ≤ 60000 := by decide

def defaults : ContextBuilder where
  notes_pos := defaults_notes
  chars_pos := defaults_chars
  total_pos := defaults_total

def nested : ContextSource where
  path := "a.md".toList
  title := "a".toList
  heading := some "A".toList
  text := "# A\n## B\nx".toList

end Example

end LocalBook.Ai
