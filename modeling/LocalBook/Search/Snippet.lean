import LocalBook.Words
import LocalBook.Finding

/-! The snippet of a search hit. The first match is found in the case-folded text and the window
around it is cut from the text as it stands, so every character that case folding lengthens in
front of the match moves the window to the right. -/
namespace LocalBook.Search

open Text (find find_eq_some find_eq_none infix_iff_drop)

def snippetLeft : Nat := 40

def snippetRight : Nat := 80

def scanLimit : Nat := 30

def ellipsis : Char := Char.ofNat 0x2026

def nonSpace (c : Char) : Bool := !Text.isSpace c

/-- `text.split()`. -/
def split (text : Text) : List Text := words nonSpace text

/-- `" ".join(text.split())`. -/
def normalize (text : Text) : Text := Text.join [' '] (split text)

def best (folded : Text) (terms : List Text) : Option (Nat × Text) :=
  terms.foldl (fun best term => match find term folded with
    | none => best
    | some index => match best with
      | none => some (index,term)
      | some (earliest,_) => if index < earliest then some (index,term) else best) none

/-- `body[start] in " \t\n"`. -/
def isBoundary (c : Char) : Bool := c == ' ' || c == '\t' || c == '\n'

def scan (body : Text) : Nat → Nat → Nat
  | 0, start => start
  | steps + 1, start =>
    if 0 < start ∧ start < body.length then
      if (body[start]?).any isBoundary then start else scan body steps (start + 1)
    else start

/-- Where the window starts, for a match at `index`. -/
def windowStart (body : Text) (index : Nat) : Nat :=
  let originalStart := index - snippetLeft
  let start := scan body scanLimit originalStart
  let start := if start > index then originalStart else start
  min start body.length

def windowEnd (body : Text) (index termLength : Nat) : Nat :=
  let stop := min body.length (index + termLength + snippetRight)
  max (windowStart body index) (min stop body.length)

section Host

variable [Host]

/-- `_snippet`. -/
def snippet (body : Text) (terms : List Text) : Text :=
  if body.isEmpty then []
  else match best (Host.casefold body) terms with
    | none => []
    | some (index,term) =>
      let start := windowStart body index
      let stop := windowEnd body index term.length
      let window := normalize ((body.take stop).drop start)
      let window := if start > 0 then ellipsis :: window else window
      if stop < body.length then window ++ [ellipsis] else window

/-- The terms of a query. -/
def queryTerms (query : Text) : List Text := ((split query).map Host.casefold).eraseDups

/-- The snippet shows one of the terms that occur in the body. -/
def Shows (body : Text) (terms : List Text) : Prop :=
  ∃ term ∈ terms,term <:+: Host.casefold body ∧ term <:+: Host.casefold (snippet body terms)

end Host

/-- The first place of a folded text at which a term stands, and the first term that does. -/
structure First (folded : Text) (terms : List Text) (index : Nat) (term : Text) : Prop where
  stands : term <+: folded.drop index
  within : index ≤ folded.length
  least : ∀ other ∈ terms,∀ i < index,¬other <+: folded.drop i
  order : ∃ before after,terms = before ++ term :: after ∧
    ∀ other ∈ before,¬other <+: folded.drop index

section Finding

variable {folded term : Text} {index : Nat}

/-- One more term replaces the match only with an earlier one. -/
theorem best_append (terms : List Text) : best folded (terms ++ [term]) =
    match find term folded with
    | none => best folded terms
    | some index => match best folded terms with
      | none => some (index,term)
      | some (earliest,first) =>
        if index < earliest then some (index,term) else some (earliest,first) := by
  rw [best,List.foldl_append,List.foldl_cons,List.foldl_nil]
  change (match find term folded with
    | none => best folded terms
    | some index => match best folded terms with
      | none => some (index,term)
      | some (earliest,_) => if index < earliest then some (index,term) else best folded terms) = _
  cases find term folded with
  | none => rfl
  | some index =>
    cases best folded terms with
    | none => rfl
    | some pair => rfl

theorem First.occurs {terms : List Text} (first : First folded terms index term) :
    term <:+: folded :=
  infix_iff_drop.mpr ⟨index,first.within,first.stands⟩

/-- A further term that stands nowhere earlier leaves the match. -/
theorem First.append {terms : List Text} {first : Text} (here : First folded terms index first)
    (later : ∀ i < index,¬term <+: folded.drop i) : First folded (terms ++ [term]) index first := by
  obtain ⟨before,after,rfl,absent⟩ := here.order
  refine ⟨here.stands,here.within,?_,before,after ++ [term],by simp,absent⟩
  intro other listed
  rcases List.mem_append.mp listed with old | new
  · exact here.least other old
  · rw [List.mem_singleton.mp new]
    exact later

/-- A further term that stands where none of the others does, nor before, is the match. -/
theorem first_of_absent {terms : List Text} (within : index ≤ folded.length)
    (stands : term <+: folded.drop index) (least : ∀ i < index,¬term <+: folded.drop i)
    (absent : ∀ other ∈ terms,∀ i ≤ index,¬other <+: folded.drop i) :
    First folded (terms ++ [term]) index term := by
  refine ⟨stands,within,?_,terms,[],rfl,fun other listed => absent other listed index le_rfl⟩
  intro other listed i less
  rcases List.mem_append.mp listed with old | new
  · exact absent other old i (le_of_lt less)
  · rw [List.mem_singleton.mp new]
    exact least i less

theorem best_spec (folded : Text) (terms : List Text) : match best folded terms with
    | none => ∀ term ∈ terms,¬term <:+: folded
    | some (index,term) => First folded terms index term := by
  induction terms using List.reverseRecOn with
  | nil => simp [best]
  | append_singleton terms term ih =>
    rw [best_append]
    cases found : find term folded with
    | none =>
      have absent := find_eq_none.mp found
      cases earlier : best folded terms with
      | none =>
        rw [earlier] at ih
        simpa [or_imp,forall_and] using ⟨ih,absent⟩
      | some pair =>
        rw [earlier] at ih
        apply First.append ih
        intro i less there
        exact absent (infix_iff_drop.mpr ⟨i,(le_of_lt less).trans ih.within,there⟩)
    | some index =>
      obtain ⟨within,stands,least⟩ := find_eq_some.mp found
      cases earlier : best folded terms with
      | none =>
        rw [earlier] at ih
        apply first_of_absent within stands least
        intro other listed i bounded there
        exact ih other listed (infix_iff_drop.mpr ⟨i,bounded.trans within,there⟩)
      | some pair =>
        obtain ⟨first,held⟩ := pair
        rw [earlier] at ih
        by_cases sooner : index < first
        · simp only [if_pos sooner]
          apply first_of_absent within stands least
          exact fun other listed i bounded => ih.least other listed i (by omega)
        · simp only [if_neg sooner]
          exact First.append ih fun i less => least i (by omega)

theorem First.unique {terms : List Text} {i j : Nat} {s t : Text} (one : First folded terms i s)
    (two : First folded terms j t) : i = j ∧ s = t := by
  have listed : ∀ {i : Nat} {s : Text},First folded terms i s → s ∈ terms := by
    rintro i s ⟨_,_,_,before,after,rfl,_⟩
    simp
  have same : i = j := by
    by_contra differ
    rcases Nat.lt_or_gt_of_ne differ with less | less
    · exact two.least s (listed one) i less one.stands
    · exact one.least t (listed two) j less two.stands
  subst same
  refine ⟨rfl,?_⟩
  obtain ⟨before,after,rfl,absent⟩ := one.order
  obtain ⟨before',after',split,absent'⟩ := two.order
  rcases List.append_eq_append_iff.mp split with ⟨mid,rfl,tail⟩ | ⟨mid,rfl,tail⟩
  · cases mid with
    | nil => exact (List.cons.inj tail).1
    | cons other rest =>
      obtain ⟨rfl,_⟩ := List.cons.inj tail
      exact absurd one.stands (absent' s (by simp))
  · cases mid with
    | nil => exact (List.cons.inj tail).1.symm
    | cons other rest =>
      obtain ⟨rfl,_⟩ := List.cons.inj tail
      exact absurd two.stands (absent t (by simp))

theorem best_eq_some {terms : List Text} :
    best folded terms = some (index,term) ↔ First folded terms index term := by
  have spec := best_spec folded terms
  constructor
  · intro found
    rwa [found] at spec
  · intro first
    cases found : best folded terms with
    | none =>
      rw [found] at spec
      obtain ⟨before,after,rfl,_⟩ := first.order
      exact absurd first.occurs (spec term (by simp))
    | some pair =>
      rw [found] at spec
      obtain ⟨rfl,rfl⟩ := First.unique spec first
      rfl

end Finding

section Window

variable {body : Text} {index : Nat}

def BoundaryAt (body : Text) (i : Nat) : Prop := ∃ c,body[i]? = some c ∧ isBoundary c = true

/-- The loop stops at the first word boundary, at the end, or when its steps are used up. -/
theorem scan_spec (body : Text) (steps start : Nat) (positive : 0 < start) :
    start ≤ scan body steps start ∧ scan body steps start ≤ start + steps ∧
      (∀ i,start ≤ i → i < scan body steps start → ¬BoundaryAt body i) ∧
      (scan body steps start = start + steps ∨ body.length ≤ scan body steps start ∨
        BoundaryAt body (scan body steps start)) := by
  induction steps generalizing start with
  | zero =>
    refine ⟨le_rfl,le_rfl,?_,.inl rfl⟩
    intro i low high
    rw [scan] at high
    omega
  | succ steps ih =>
    rw [scan]
    split
    · next inside =>
      split
      · next boundary =>
        obtain ⟨c,here,there⟩ := Option.any_eq_true _ _ |>.mp boundary
        exact ⟨le_rfl,by omega,fun i low high => by omega,.inr (.inr ⟨c,here,there⟩)⟩
      · next plain =>
        obtain ⟨low,high,before,ends⟩ := ih (start + 1) (by omega)
        refine ⟨by omega,by omega,?_,?_⟩
        · intro i least less
          rcases Nat.eq_or_lt_of_le least with rfl | later
          · rintro ⟨c,here,there⟩
            simp [here,there] at plain
          · exact before i later less
        · rcases ends with all | over' | boundary
          · exact .inl (by omega)
          · exact .inr (.inl over')
          · exact .inr (.inr boundary)
    · next outside => exact ⟨le_rfl,by omega,fun i low high => by omega,.inr (.inl (by omega))⟩

/-- The window reaches back to a position exactly when the match is near the beginning, or a word
boundary or the position ten before the match lies between. -/
theorem windowStart_le {n : Nat} (inside : n < body.length) : windowStart body index ≤ n ↔
    index ≤ 40 ∨ ∃ s ≤ n,index ≤ s + 40 ∧ (s + 10 = index ∨ BoundaryAt body s) := by
  by_cases near : index ≤ 40
  · have zero : index - snippetLeft = 0 := by
      rw [snippetLeft]
      omega
    have still : scan body scanLimit 0 = 0 := by simp [scanLimit,scan]
    simp [windowStart,zero,still,near]
  · obtain ⟨low,high,before,ends⟩ := scan_spec body scanLimit (index - snippetLeft)
      (by rw [snippetLeft]; omega)
    rw [windowStart]
    generalize scan body scanLimit (index - snippetLeft) = r at low high before ends
    simp only [snippetLeft,scanLimit] at low high before ends ⊢
    rw [if_neg (by omega)]
    constructor
    · intro reach
      refine .inr ⟨r,by omega,by omega,?_⟩
      rcases ends with all | over' | boundary
      · exact .inl (by omega)
      · omega
      · exact .inr boundary
    · rintro (impossible | ⟨s,reach,far,ten | boundary⟩)
      · omega
      · omega
      · by_contra short
        exact before s (by omega) (by omega) boundary

end Window

/-- How full case folding behaves: it goes character by character, drops none, makes no space of
another character and no other character of a space. -/
class FoldsCharacters [Host] : Prop where
  casefold_append : ∀ a b : Text,Host.casefold (a ++ b) = Host.casefold a ++ Host.casefold b
  casefold_ne_nil : ∀ c : Char,Host.casefold [c] ≠ []
  casefold_space : ∀ c,Text.isSpace c = true → Host.casefold [c] = [c]
  casefold_plain : ∀ c,Text.isSpace c = false → ∀ d ∈ Host.casefold [c],Text.isSpace d = false
  casefold_ellipsis : Host.casefold [ellipsis] = [ellipsis]

section Folding

variable [Host] [FoldsCharacters] {t word term window : Text} {c : Char}

omit [FoldsCharacters] in
theorem casefold_nil : Host.casefold [] = [] := Host.casefold_ascii [] rfl

theorem casefold_cons (c : Char) (t : Text) :
    Host.casefold (c :: t) = Host.casefold [c] ++ Host.casefold t :=
  FoldsCharacters.casefold_append [c] t

theorem casefold_part {s t : Text} (part : s <:+: t) : Host.casefold s <:+: Host.casefold t := by
  obtain ⟨a,b,rfl⟩ := part
  rw [FoldsCharacters.casefold_append,FoldsCharacters.casefold_append]
  exact ⟨_,_,rfl⟩

theorem nonSpace_casefold (plain : nonSpace c = true) :
    ∀ d ∈ Host.casefold [c],nonSpace d = true := by
  intro d found
  have kept := FoldsCharacters.casefold_plain c (by simpa [nonSpace] using plain) d found
  simp [nonSpace,kept]

theorem isWord_casefold (isWord : IsWord nonSpace word) :
    IsWord nonSpace (Host.casefold word) := by
  obtain ⟨c,rest,rfl⟩ := List.exists_cons_of_ne_nil isWord.nonempty
  refine ⟨?_,?_⟩
  · rw [casefold_cons]
    simp [FoldsCharacters.casefold_ne_nil]
  · have each := isWord.inner
    generalize c :: rest = word at each
    induction word with
    | nil => simp [casefold_nil]
    | cons c rest ih =>
      intro d found
      rw [casefold_cons] at found
      rcases List.mem_append.mp found with here | later
      · exact nonSpace_casefold (each c List.mem_cons_self) d here
      · exact ih (fun e there => each e (List.mem_cons_of_mem _ there)) d later

theorem casefold_spaces (spaces : ∀ c ∈ t,nonSpace c = false) : Host.casefold t = t := by
  induction t with
  | nil => exact casefold_nil
  | cons c rest ih =>
    have space : Text.isSpace c = true := by simpa [nonSpace] using spaces c List.mem_cons_self
    rw [casefold_cons,FoldsCharacters.casefold_space c space,
      ih fun d there => spaces d (List.mem_cons_of_mem _ there)]
    rfl

theorem casefold_starts (starts : StartsOuter nonSpace t) :
    StartsOuter nonSpace (Host.casefold t) := by
  cases t with
  | nil =>
    rw [casefold_nil]
    exact starts
  | cons c rest =>
    have space := starts c rfl
    rw [casefold_cons,FoldsCharacters.casefold_space c (by simpa [nonSpace] using space)]
    intro d first
    obtain rfl : c = d := by simpa using first
    exact space

/-- The words of a folded text are the folded words. -/
theorem split_casefold (t : Text) : split (Host.casefold t) = (split t).map Host.casefold := by
  induction length : t.length using Nat.strong_induction_on generalizing t with
  | h n ih =>
    rcases first_word nonSpace t with none' | ⟨gap,word,rest,rfl,outer,isWord,starts⟩
    · rw [casefold_spaces none',split,words_of_outer none']
      rfl
    · have shorter : rest.length < n := by
        have positive := List.length_pos_of_ne_nil isWord.nonempty
        rw [← length]
        simp only [List.length_append]
        omega
      rw [FoldsCharacters.casefold_append,FoldsCharacters.casefold_append,casefold_spaces outer,
        split,split,words_first outer (isWord_casefold isWord) (casefold_starts starts),
        words_first outer isWord starts,List.map_cons]
      congr 1
      exact ih _ shorter rest rfl

omit [Host] [FoldsCharacters] in
theorem split_normalize (t : Text) : split (normalize t) = split t :=
  words_intercalate rfl fun _ listed => isWord_of_mem listed

/-- Normalising spaces neither hides a term nor makes one. -/
theorem infix_normalize (isWord : IsWord nonSpace term) (t : Text) :
    term <:+: Host.casefold (normalize t) ↔ term <:+: Host.casefold t := by
  rw [infix_iff_words isWord,infix_iff_words isWord]
  change (∃ w ∈ split (Host.casefold (normalize t)),_) ↔ ∃ w ∈ split (Host.casefold t),_
  rw [split_casefold,split_casefold,split_normalize]

theorem isWord_of_queryTerm {query : Text} (listed : term ∈ queryTerms query) :
    IsWord nonSpace term := by
  rw [queryTerms,List.mem_eraseDups,List.mem_map] at listed
  obtain ⟨word,found,rfl⟩ := listed
  exact isWord_casefold (isWord_of_mem found)

end Folding

/-- A term stands where the window reaches: it is folded from a piece of the body that ends no
later than eighty characters after the place the match has in the folded text, and that begins no
earlier than the first word boundary, at most thirty characters on, after the position forty before
that place. -/
def InReach [Host] (body : Text) (terms : List Text) : Prop :=
  ∃ index first,First (Host.casefold body) terms index first ∧
    ∃ term ∈ terms,∃ a m b,body = a ++ m ++ b ∧ term <:+: Host.casefold m ∧
      (a ++ m).length ≤ index + first.length + 80 ∧
      (index ≤ 40 ∨ ∃ s ≤ a.length,index ≤ s + 40 ∧ (s + 10 = index ∨ BoundaryAt body s))

section Reach

variable [Host] [FoldsCharacters] {body term first : Text} {terms : List Text} {index start stop : Nat}

theorem folded_window (bounded : start ≤ stop) (inside : stop ≤ body.length) :
    term <:+: Host.casefold ((body.take stop).drop start) ↔
      ∃ a m b,body = a ++ m ++ b ∧ term <:+: Host.casefold m ∧ start ≤ a.length ∧
        (a ++ m).length ≤ stop := by
  constructor
  · intro shown
    refine ⟨body.take start,(body.take stop).drop start,body.drop stop,?_,shown,?_,?_⟩
    · have front : body.take start = (body.take stop).take start := by
        rw [List.take_take,Nat.min_eq_left bounded]
      rw [front,List.take_append_drop,List.take_append_drop]
    · rw [List.length_take]
      omega
    · simp only [List.length_append,List.length_take,List.length_drop]
      omega
  · rintro ⟨a,m,b,rfl,shown,low,high⟩
    apply shown.trans
    apply casefold_part
    have front : (a ++ m ++ b).take stop = a ++ m ++ b.take (stop - (a ++ m).length) := by
      rw [List.take_append,List.take_of_length_le high]
    rw [front,List.append_assoc,List.drop_append_of_le_length low]
    exact ⟨a.drop start,b.take (stop - (a ++ m).length),by simp⟩

theorem casefold_ellipsis_cons (t : Text) :
    Host.casefold (ellipsis :: t) = ellipsis :: Host.casefold t := by
  rw [casefold_cons,FoldsCharacters.casefold_ellipsis]
  rfl

/-- Around the folded window stand at most two ellipses. -/
theorem casefold_snippet (found : First (Host.casefold body) terms index first)
    (nonempty : body ≠ []) : ∃ before after,
      (before = [] ∨ before = [ellipsis]) ∧ (after = [] ∨ after = [ellipsis]) ∧
      Host.casefold (snippet body terms) = before ++ Host.casefold (normalize
        ((body.take (windowEnd body index first.length)).drop (windowStart body index))) ++
          after := by
  rw [snippet,if_neg (by simpa using nonempty),best_eq_some.mpr found]
  dsimp only
  generalize normalize _ = window
  by_cases front : windowStart body index > 0 <;>
    by_cases back : windowEnd body index first.length < body.length
  all_goals
    simp only [front,back,if_true,if_false,FoldsCharacters.casefold_append,casefold_ellipsis_cons,
      casefold_nil]
  · exact ⟨[ellipsis],[ellipsis],by simp,by simp,by simp⟩
  · exact ⟨[ellipsis],[],by simp,by simp,by simp⟩
  · exact ⟨[],[ellipsis],by simp,by simp,by simp⟩
  · exact ⟨[],[],by simp,by simp,by simp⟩

omit [Host] [FoldsCharacters] in
theorem windowEnd_spec (body : Text) (index length : Nat) :
    windowStart body index ≤ windowEnd body index length ∧
      windowEnd body index length ≤ body.length ∧ ∀ n,windowStart body index < n →
        n ≤ body.length → (n ≤ windowEnd body index length ↔ n ≤ index + length + 80) := by
  have start : windowStart body index ≤ body.length := by
    rw [windowStart]
    exact Nat.min_le_right _ _
  rw [windowEnd,snippetRight]
  refine ⟨Nat.le_max_left _ _,by omega,?_⟩
  intro n low high
  omega

/-- Where a term is shown, in terms of the place of the match. -/
theorem window_shows (isWord : IsWord nonSpace term) :
    term <:+: Host.casefold (normalize
        ((body.take (windowEnd body index first.length)).drop (windowStart body index))) ↔
      ∃ a m b,body = a ++ m ++ b ∧ term <:+: Host.casefold m ∧
        (a ++ m).length ≤ index + first.length + 80 ∧
        (index ≤ 40 ∨ ∃ s ≤ a.length,index ≤ s + 40 ∧ (s + 10 = index ∨ BoundaryAt body s)) := by
  obtain ⟨low,high,ends⟩ := windowEnd_spec body index first.length
  rw [infix_normalize isWord,folded_window low high]
  apply exists_congr
  intro a
  apply exists_congr
  intro m
  apply exists_congr
  intro b
  apply and_congr_right
  rintro rfl
  apply and_congr_right
  intro shown
  have filled : m ≠ [] := by
    rintro rfl
    rw [casefold_nil,List.infix_nil] at shown
    exact isWord.nonempty shown
  have positive := List.length_pos_of_ne_nil filled
  have inside : a.length < (a ++ m ++ b).length := by
    simp only [List.length_append]
    omega
  rw [← windowStart_le inside,and_comm]
  apply and_congr_left
  intro begins
  apply ends
  · simp only [List.length_append]
    omega
  · simp

omit [Host] [FoldsCharacters] in
/-- A term without ellipsis is not shown by the ellipses around the window. -/
theorem infix_of_ellipses {before after middle : Text} (plain : ellipsis ∉ term)
    (nonempty : term ≠ []) (front : before = [] ∨ before = [ellipsis])
    (back : after = [] ∨ after = [ellipsis]) (found : term <:+: before ++ middle ++ after) :
    term <:+: middle := by
  have isWord : IsWord (fun c => c != ellipsis) term := by
    refine ⟨nonempty,?_⟩
    intro c member
    simp only [bne_iff_ne]
    rintro rfl
    exact plain member
  have outer : (ellipsis != ellipsis) = false := by simp
  have inside : term <:+: middle ++ after := by
    rcases front with rfl | rfl
    · exact found
    · rw [List.append_assoc] at found
      rcases infix_append_outer isWord outer (a := []) found with before | after
      · exact absurd (List.infix_nil.mp before) nonempty
      · exact after
  rcases back with rfl | rfl
  · rwa [List.append_nil] at inside
  · rcases infix_append_outer isWord outer inside with before | after
    · exact before
    · exact absurd (List.infix_nil.mp after) nonempty

/-- The snippet shows a term that occurs in the body if one stands in reach, and only then unless a
term has an ellipsis of its own. -/
theorem snippet_shows (body query : Text) :
    (InReach body (queryTerms query) → Shows body (queryTerms query)) ∧
      ((∀ term ∈ queryTerms query,ellipsis ∉ term) →
        Shows body (queryTerms query) → InReach body (queryTerms query)) := by
  constructor
  · rintro ⟨index,first,found,term,listed,reach⟩
    have isWord := isWord_of_queryTerm listed
    have occurs : term <:+: Host.casefold body := by
      obtain ⟨a,m,b,rfl,shown,_⟩ := reach
      exact shown.trans (casefold_part ⟨a,b,rfl⟩)
    have nonempty : body ≠ [] := by
      rintro rfl
      rw [casefold_nil,List.infix_nil] at occurs
      exact isWord.nonempty occurs
    obtain ⟨before,after,_,_,same⟩ := casefold_snippet found nonempty
    refine ⟨term,listed,occurs,?_⟩
    rw [same]
    exact ((window_shows isWord).mpr reach).trans ⟨before,after,rfl⟩
  · rintro plain ⟨term,listed,occurs,shown⟩
    have isWord := isWord_of_queryTerm listed
    have nonempty : body ≠ [] := by
      rintro rfl
      rw [casefold_nil,List.infix_nil] at occurs
      exact isWord.nonempty occurs
    have spec := best_spec (Host.casefold body) (queryTerms query)
    cases found : best (Host.casefold body) (queryTerms query) with
    | none =>
      rw [found] at spec
      exact absurd occurs (spec term listed)
    | some pair =>
      obtain ⟨index,first⟩ := pair
      rw [found] at spec
      obtain ⟨before,after,front,back,same⟩ := casefold_snippet spec nonempty
      rw [same] at shown
      exact ⟨index,first,spec,term,listed,(window_shows isWord).mp
        (infix_of_ellipses (plain term listed) isWord.nonempty front back shown)⟩

end Reach

namespace SharpS

def sharpS : Char := Char.ofNat 0xDF

def fold (c : Char) : Text := if c = sharpS then ['s','s'] else [Text.asciiLower c]

theorem fold_plain {c : Char} (other : c ≠ sharpS) : fold c = [Text.asciiLower c] := if_neg other

theorem asciiLower_capital {c : Char} (low : 'A' ≤ c) (high : c ≤ 'Z') :
    Text.isSpace c = false ∧ Text.isSpace (Text.asciiLower c) = false := by
  have each : ∀ n : Fin 26,Text.isSpace (Char.ofNat (n + 65)) = false ∧
      Text.isSpace (Text.asciiLower (Char.ofNat (n + 65))) = false := by decide
  have least : 65 ≤ c.toNat := low
  have most : c.toNat ≤ 90 := high
  have here := each ⟨c.toNat - 65,by omega⟩
  have back : c.toNat - 65 + 65 = c.toNat := by omega
  simpa only [back,Char.ofNat_toNat] using here

theorem isSpace_asciiLower (c : Char) : Text.isSpace (Text.asciiLower c) = Text.isSpace c := by
  by_cases capital : 'A' ≤ c ∧ c ≤ 'Z'
  · obtain ⟨plain,lowered⟩ := asciiLower_capital capital.1 capital.2
    rw [plain,lowered]
  · rw [Text.asciiLower,if_neg capital]

theorem fold_space {c : Char} (space : Text.isSpace c = true) : fold c = [c] := by
  rw [fold_plain]
  · rw [Text.asciiLower,if_neg]
    rintro ⟨low,high⟩
    rw [(asciiLower_capital low high).1] at space
    cases space
  · rintro rfl
    revert space
    decide

theorem fold_inner {c : Char} (plain : Text.isSpace c = false) :
    ∀ d ∈ fold c,Text.isSpace d = false := by
  intro d found
  by_cases sharp : c = sharpS
  · rw [fold,if_pos sharp] at found
    obtain rfl : d = 's' := by simpa using found
    decide
  · rw [fold_plain sharp,List.mem_singleton] at found
    rw [found,isSpace_asciiLower,plain]

theorem fold_ascii (t : Text) (ascii : t.all Text.isAscii) :
    t.flatMap fold = t.map Text.asciiLower := by
  induction t with
  | nil => rfl
  | cons c rest ih =>
    rw [List.all_cons,Bool.and_eq_true] at ascii
    have other : c ≠ sharpS := by
      rintro rfl
      revert ascii
      simp [Text.isAscii,sharpS]
    rw [List.flatMap_cons,fold_plain other,ih ascii.2]
    rfl

scoped instance host : Host where
  lower := List.map Text.asciiLower
  upper := List.map Text.asciiUpper
  casefold := List.flatMap fold
  nfc := id
  lower_ascii := AsciiHost.host.lower_ascii
  upper_ascii := AsciiHost.host.upper_ascii
  casefold_ascii := fold_ascii
  nfc_ascii := AsciiHost.host.nfc_ascii

theorem casefold_single (c : Char) : Host.casefold [c] = fold c := List.append_nil _

instance foldsCharacters : FoldsCharacters where
  casefold_append _ _ := List.flatMap_append
  casefold_ne_nil c := by
    rw [casefold_single,fold]
    split
    · simp
    · simp
  casefold_space c space := by rw [casefold_single,fold_space space]
  casefold_plain c plain := by
    rw [casefold_single]
    exact fold_inner plain
  casefold_ellipsis := by decide

/-- A match behind one sharp s is shown. -/
theorem near_shown : InReach [sharpS,' ','x'] (queryTerms ['X']) ∧
    Shows [sharpS,' ','x'] (queryTerms ['X']) := by
  have shows : Shows [sharpS,' ','x'] (queryTerms ['X']) := by
    refine ⟨['x'],?_⟩
    decide +kernel
  have reach := (snippet_shows [sharpS,' ','x'] ['X']).2 (by decide +kernel) shows
  exact ⟨reach,(snippet_shows [sharpS,' ','x'] ['X']).1 reach⟩

/-- Behind fifty of them the window begins at the end of the text. -/
theorem far_lost : ¬∀ body query : Text,
    (∃ term ∈ queryTerms query,term <:+: Host.casefold body) → Shows body (queryTerms query) := by
  intro every
  obtain ⟨term,listed,_,shown⟩ := every (List.replicate 50 sharpS ++ ['x']) ['x'] (by decide +kernel)
  revert term
  decide +kernel

end SharpS

end LocalBook.Search
