import LocalBook.Actions.Patches

/-! Patch application against what it is meant to be: all spans of the original text replaced at
once. The loop works on the text that the hunks before have already changed; where the spans lie
apart from one another that makes no difference, elsewhere a hunk may be matched against text
that no one has reviewed. -/
namespace LocalBook

/-- Where the span of a hunk ends in the original text. -/
def PatchHunk.stop (hunk : PatchHunk) : Nat := hunk.start + hunk.oldText.length

/-- The span of a hunk: its start and its length. -/
def PatchHunk.span (hunk : PatchHunk) : Nat × Nat := (hunk.start,hunk.oldText.length)

namespace Patches

/-- `apply_hunks` with its output limit. -/
def applyHunksWithin (limit : Nat) (text : Text) (hunks : List PatchHunk) :
    Except Unsupported Text := do
  let result ← replaceHunks (hunks.mergeSort fun a b => a.start ≤ b.start) 0 text
  if limit < Text.utf8Length result then .error "patch output exceeds the size limit"
  pure result

theorem applyHunks_eq (text : Text) (hunks : List PatchHunk) :
    applyHunks text hunks = applyHunksWithin maxOutputBytes text hunks := rfl

/-- The span is in range and the original text there is the text to be replaced. -/
def Stands (text : Text) (hunk : PatchHunk) : Prop :=
  hunk.stop ≤ text.length ∧ slice text hunk.start hunk.stop = hunk.oldText

def Apart (a b : Nat × Nat) : Prop := a.1 + a.2 ≤ b.1 ∨ b.1 + b.2 ≤ a.1

def Applicable (text : Text) (hunks : List PatchHunk) : Prop :=
  (∀ hunk ∈ hunks,Stands text hunk) ∧ (hunks.map PatchHunk.span).Pairwise Apart

/-- Position by position of the original text: what the spans that begin there are replaced by,
then the character itself where no span covers it. -/
def replacedAt (text : Text) (hunks : List PatchHunk) (index : Nat) : Text :=
  (hunks.filter fun hunk => hunk.start = index).flatMap PatchHunk.newText ++
    if hunks.any fun hunk => hunk.start ≤ index && index < hunk.stop then []
    else text[index]?.toList

def replacedAtOnce (text : Text) (hunks : List PatchHunk) : Text :=
  (List.range (text.length + 1)).flatMap (replacedAt text hunks)

def bounded (limit : Nat) (result : Text) : Except Unsupported Text :=
  if limit < Text.utf8Length result then .error "patch output exceeds the size limit"
  else .ok result

/-- In any order the hunks are replaced at once where they can be applied, and refused where
they cannot. -/
def Simultaneous (limit : Nat) (text : Text) (hunks : List PatchHunk) : Prop :=
  ∀ order : List PatchHunk,order.Perm hunks →
    (Applicable text hunks →
      applyHunksWithin limit text order = bounded limit (replacedAtOnce text hunks)) ∧
    (¬ Applicable text hunks → ∃ reason,applyHunksWithin limit text order = .error reason)

/-- The spans lie apart and no two of them begin at one place. -/
def Separated (spans : List (Nat × Nat)) : Prop :=
  spans.Pairwise fun a b => Apart a b ∧ a.1 ≠ b.1

/-- The text from `done` on, with the spans of ordered hunks replaced. -/
def splice (text : Text) : Nat → List PatchHunk → Text
  | done,[] => text.drop done
  | done,hunk :: rest => slice text done hunk.start ++ hunk.newText ++ splice text hunk.stop rest

section Loop

variable {text : Text}

theorem slice_shift (rewritten : Text) {done start stop : Nat} (behind : done ≤ start) :
    slice (rewritten ++ text.drop done) (rewritten.length + (start - done))
      (rewritten.length + (start - done) + (stop - start)) = slice text start stop := by
  have moved : done + (start - done) = start := by omega
  have past : rewritten.drop (rewritten.length + (start - done)) = [] :=
    List.drop_eq_nil_of_le (by omega)
  simp [slice,List.drop_append,List.drop_drop,moved,past]

theorem take_shift (rewritten : Text) {done start : Nat} :
    (rewritten ++ text.drop done).take (rewritten.length + (start - done)) =
      rewritten ++ slice text done start := by
  simp [slice,List.take_append]

theorem drop_shift (rewritten : Text) {done stop : Nat} (behind : done ≤ stop) :
    (rewritten ++ text.drop done).drop (rewritten.length + (stop - done)) = text.drop stop := by
  have moved : done + (stop - done) = stop := by omega
  simp [List.drop_append,List.drop_drop,moved]

/-- Ordered hunks with disjoint spans: the loop replaces them all, or refuses one that does not
stand in the original text. -/
theorem replaceHunks_ordered (text : Text) (hunks : List PatchHunk) (done : Nat) (offset : Int)
    (rewritten : Text) (ordered : hunks.Pairwise fun a b => a.stop ≤ b.start)
    (behind : ∀ hunk ∈ hunks,done ≤ hunk.start) (inside : done ≤ text.length)
    (shift : (rewritten.length : Int) = done + offset) :
    ((∀ hunk ∈ hunks,Stands text hunk) ∧
      replaceHunks hunks offset (rewritten ++ text.drop done) =
        .ok (rewritten ++ splice text done hunks)) ∨
    (¬ (∀ hunk ∈ hunks,Stands text hunk) ∧
      ∃ reason,replaceHunks hunks offset (rewritten ++ text.drop done) = .error reason) := by
  induction hunks generalizing done offset rewritten with
  | nil => exact .inl ⟨by simp,rfl⟩
  | cons hunk rest ih =>
    have from' : done ≤ hunk.start := behind hunk (by simp)
    have place : ((hunk.start : Int) + offset) =
        ((rewritten.length + (hunk.start - done) : Nat) : Int) := by omega
    have whole : ((rewritten ++ text.drop done).length : Int) = text.length + offset := by
      simp only [List.length_append,List.length_drop]
      omega
    simp only [replaceHunks]
    split
    next outside =>
      refine .inr ⟨fun each => ?_,_,rfl⟩
      have within := (each hunk (by simp)).1
      rw [whole] at outside
      simp only [PatchHunk.stop] at within
      omega
    next within =>
      have length : hunk.stop - hunk.start = hunk.oldText.length := by simp [PatchHunk.stop]
      have reached : hunk.stop ≤ text.length := by
        rw [whole] at within
        simp only [PatchHunk.stop]
        omega
      have window : slice (rewritten ++ text.drop done) ((hunk.start : Int) + offset).toNat
          (((hunk.start : Int) + offset).toNat + hunk.oldText.length) =
            slice text hunk.start hunk.stop := by
        rw [place,Int.toNat_natCast,← length]
        exact slice_shift rewritten from'
      rw [window]
      split
      next differs => exact .inr ⟨fun each => differs (each hunk (by simp)).2,_,rfl⟩
      next same =>
        have same : slice text hunk.start hunk.stop = hunk.oldText := by simpa using same
        have before : (rewritten ++ text.drop done).take (rewritten.length + (hunk.start - done)) =
            rewritten ++ slice text done hunk.start := take_shift rewritten
        have ends : rewritten.length + (hunk.start - done) + hunk.oldText.length =
            rewritten.length + (hunk.stop - done) := by
          simp only [PatchHunk.stop]
          omega
        have after : (rewritten ++ text.drop done).drop (rewritten.length + (hunk.stop - done)) =
            text.drop hunk.stop := drop_shift rewritten (by simp only [PatchHunk.stop]; omega)
        rw [place,Int.toNat_natCast,before,ends,after]
        obtain ⟨first,later⟩ := List.pairwise_cons.mp ordered
        have moved : ((rewritten ++ slice text done hunk.start ++ hunk.newText).length : Int) =
            hunk.stop + (offset + hunk.newText.length - hunk.oldText.length) := by
          have before' : hunk.start ≤ text.length := by simp only [PatchHunk.stop] at reached; omega
          simp [slice,PatchHunk.stop]
          omega
        rcases ih _ _ _ later first reached moved with ⟨each,run⟩ | ⟨missing,reason,run⟩
        · refine .inl ⟨?_,?_⟩
          · intro other found
            rcases List.mem_cons.mp found with rfl | found
            · exact ⟨reached,same⟩
            · exact each other found
          · rw [run]
            simp [splice,List.append_assoc]
        · exact .inr ⟨fun each => missing fun other found => each other (by simp [found]),reason,run⟩

end Loop

section Splice

variable {text : Text}

theorem flatMap_characters (start count : Nat) :
    (List.range' start count).flatMap (fun index => text[index]?.toList) =
      (text.drop start).take count := by
  induction count generalizing start with
  | zero => simp
  | succ count ih =>
    rw [List.range'_succ,List.flatMap_cons,ih]
    by_cases inside : start < text.length
    · rw [List.drop_eq_getElem_cons inside,List.take_succ_cons,List.getElem?_eq_getElem inside]
      rfl
    · have past : text.length ≤ start := by omega
      simp [past,List.drop_eq_nil_of_le (Nat.le_succ_of_le past)]

variable {hunk : PatchHunk} {rest : List PatchHunk} {index : Nat}

theorem replacedAt_before (behind : ∀ other ∈ rest,index < other.start) :
    replacedAt text rest index = text[index]?.toList := by
  have none : rest.filter (fun other => other.start = index) = [] := by
    apply List.filter_eq_nil_iff.mpr
    intro other found same
    have later := behind other found
    simp only [decide_eq_true_eq] at same
    omega
  have uncovered : rest.any (fun other => other.start ≤ index && index < other.stop) = false := by
    apply List.any_eq_false.mpr
    intro other found covered
    have later := behind other found
    simp only [Bool.and_eq_true,decide_eq_true_eq] at covered
    omega
  simp [replacedAt,none,uncovered]

/-- At the start of a hunk, behind which the others begin. -/
theorem replacedAt_start (begins : hunk.start < hunk.stop)
    (behind : ∀ other ∈ rest,hunk.stop ≤ other.start) :
    replacedAt text (hunk :: rest) hunk.start = hunk.newText := by
  have none : rest.filter (fun other => other.start = hunk.start) = [] := by
    apply List.filter_eq_nil_iff.mpr
    intro other found same
    have later := behind other found
    simp only [decide_eq_true_eq] at same
    omega
  simp [replacedAt,none,begins]

theorem replacedAt_inside (begins : hunk.start < index) (ends : index < hunk.stop)
    (behind : ∀ other ∈ rest,hunk.stop ≤ other.start) :
    replacedAt text (hunk :: rest) index = [] := by
  have none : rest.filter (fun other => other.start = index) = [] := by
    apply List.filter_eq_nil_iff.mpr
    intro other found same
    have later := behind other found
    simp only [decide_eq_true_eq] at same
    omega
  have other : hunk.start ≠ index := by omega
  simp [replacedAt,none,other,ends,Nat.le_of_lt begins]

theorem replacedAt_after (ends : hunk.stop ≤ index) :
    replacedAt text (hunk :: rest) index =
      (if hunk.start = index then hunk.newText else []) ++ replacedAt text rest index := by
  have outside : ¬ index < hunk.stop := by omega
  by_cases here : hunk.start = index
  · simp [replacedAt,here,outside]
  · simp [replacedAt,here,outside]

/-- The span of the first hunk, and the place behind it. -/
theorem flatMap_span (behind : ∀ other ∈ rest,hunk.stop ≤ other.start)
    (reached : hunk.stop ≤ text.length) :
    (List.range' hunk.start (text.length + 1 - hunk.start)).flatMap
        (replacedAt text (hunk :: rest)) =
      hunk.newText ++ (List.range' hunk.stop (text.length + 1 - hunk.stop)).flatMap
        (replacedAt text rest) := by
  have order : hunk.start ≤ hunk.stop := Nat.le_add_right _ _
  rcases Nat.eq_or_lt_of_le order with empty | filled
  · rw [← empty]
    obtain ⟨count,length⟩ : ∃ count,text.length + 1 - hunk.start = count + 1 :=
      ⟨text.length - hunk.start,by omega⟩
    have later : (List.range' (hunk.start + 1) count).flatMap (replacedAt text (hunk :: rest)) =
        (List.range' (hunk.start + 1) count).flatMap (replacedAt text rest) := by
      apply List.flatMap_congr
      intro index found
      have past := (List.mem_range'_1.mp found).1
      have other : hunk.start ≠ index := by omega
      have same : replacedAt text (hunk :: rest) index = _ := replacedAt_after (by omega)
      simpa [other] using same
    rw [length,List.range'_succ,List.flatMap_cons,List.flatMap_cons,later,
      replacedAt_after (Nat.le_of_eq empty.symm)]
    simp
  · have split : List.range' hunk.start (text.length + 1 - hunk.start) =
        hunk.start :: (List.range' (hunk.start + 1) (hunk.stop - hunk.start - 1) ++
          List.range' hunk.stop (text.length + 1 - hunk.stop)) := by
      have first : text.length + 1 - hunk.start = (text.length - hunk.start) + 1 := by omega
      have second : text.length - hunk.start =
          (hunk.stop - hunk.start - 1) + (text.length + 1 - hunk.stop) := by omega
      have place : hunk.start + 1 + (hunk.stop - hunk.start - 1) = hunk.stop := by omega
      rw [first,List.range'_succ,second,← List.range'_append_1,place]
    have covered : (List.range' (hunk.start + 1) (hunk.stop - hunk.start - 1)).flatMap
        (replacedAt text (hunk :: rest)) = [] := by
      apply List.flatMap_eq_nil_iff.mpr
      intro index found
      have bounds := List.mem_range'_1.mp found
      exact replacedAt_inside (by omega) (by omega) behind
    have later : (List.range' hunk.stop (text.length + 1 - hunk.stop)).flatMap
        (replacedAt text (hunk :: rest)) =
        (List.range' hunk.stop (text.length + 1 - hunk.stop)).flatMap (replacedAt text rest) := by
      apply List.flatMap_congr
      intro index found
      have past := (List.mem_range'_1.mp found).1
      have other : hunk.start ≠ index := by omega
      have same : replacedAt text (hunk :: rest) index = _ := replacedAt_after past
      simpa [other] using same
    rw [split,List.flatMap_cons,List.flatMap_append,covered,later,
      replacedAt_start filled behind]
    simp

/-- Splicing ordered hunks replaces them all at once. -/
theorem splice_eq (hunks : List PatchHunk) {done : Nat}
    (ordered : hunks.Pairwise fun a b => a.stop ≤ b.start)
    (behind : ∀ hunk ∈ hunks,done ≤ hunk.start)
    (reached : ∀ hunk ∈ hunks,hunk.stop ≤ text.length) :
    splice text done hunks =
      (List.range' done (text.length + 1 - done)).flatMap (replacedAt text hunks) := by
  induction hunks generalizing done with
  | nil =>
    have plain : replacedAt text [] = fun index => text[index]?.toList := by
      funext index
      simp [replacedAt]
    rw [plain,flatMap_characters,List.take_of_length_le (by simp; omega)]
    rfl
  | cons hunk rest ih =>
    obtain ⟨first,later⟩ := List.pairwise_cons.mp ordered
    have from' : done ≤ hunk.start := behind hunk (by simp)
    have within : hunk.stop ≤ text.length := reached hunk (by simp)
    have order : hunk.start ≤ hunk.stop := Nat.le_add_right _ _
    have split : List.range' done (text.length + 1 - done) =
        List.range' done (hunk.start - done) ++
          List.range' hunk.start (text.length + 1 - hunk.start) := by
      have parts : text.length + 1 - done =
          (hunk.start - done) + (text.length + 1 - hunk.start) := by omega
      have place : done + (hunk.start - done) = hunk.start := by omega
      rw [parts,← List.range'_append_1,place]
    have before : (List.range' done (hunk.start - done)).flatMap
        (replacedAt text (hunk :: rest)) = slice text done hunk.start := by
      rw [slice,← flatMap_characters]
      apply List.flatMap_congr
      intro index found
      have bounds := List.mem_range'_1.mp found
      apply replacedAt_before
      intro other named
      rcases List.mem_cons.mp named with rfl | named
      · omega
      · have := first other named
        omega
    rw [split,List.flatMap_append,before,flatMap_span first within,splice,
      ih later first (fun other found => reached other (by simp [found]))]
    simp [List.append_assoc]

end Splice

section Ordering

variable {text : Text} {hunks order : List PatchHunk}

theorem Apart.symm {a b : Nat × Nat} (apart : Apart a b) : Apart b a := Or.symm apart

theorem separated_perm {spans others : List (Nat × Nat)} (same : spans.Perm others) :
    Separated spans ↔ Separated others :=
  same.pairwise_iff fun apart => ⟨apart.1.symm,apart.2.symm⟩

theorem pairwise_apart_perm {spans others : List (Nat × Nat)} (same : spans.Perm others) :
    spans.Pairwise Apart ↔ others.Pairwise Apart := same.pairwise_iff Apart.symm

def byStart (hunks : List PatchHunk) : List PatchHunk :=
  hunks.mergeSort fun a b => a.start ≤ b.start

theorem byStart_perm : (byStart hunks).Perm hunks := List.mergeSort_perm _ _

theorem byStart_sorted : (byStart hunks).Pairwise fun a b => a.start ≤ b.start := by
  have sorted : (byStart hunks).Pairwise fun a b => decide (a.start ≤ b.start) = true :=
    List.pairwise_mergeSort (fun a b c first second => by simp only [decide_eq_true_eq] at *; omega)
      (fun a b => by simp; omega) hunks
  simpa using sorted

/-- In that order separated spans follow one another. -/
theorem byStart_ordered (apart : Separated (hunks.map PatchHunk.span)) :
    (byStart hunks).Pairwise fun a b => a.stop ≤ b.start := by
  have perm : (byStart hunks).Perm hunks := byStart_perm
  have sorted := List.pairwise_map.mp ((separated_perm (perm.map PatchHunk.span)).mpr apart)
  refine (sorted.and byStart_sorted).imp ?_
  intro a b ⟨⟨disjoint,different⟩,before⟩
  simp only [Apart,PatchHunk.span,PatchHunk.stop] at *
  omega

theorem single_of_separated (apart : Separated (hunks.map PatchHunk.span)) (index : Nat) :
    (hunks.filter fun hunk => hunk.start = index).length ≤ 1 := by
  have sub : (hunks.filter fun hunk => hunk.start = index).Pairwise
      fun a b => a.start ≠ b.start :=
    ((List.pairwise_map.mp apart).imp fun both => both.2).filter _
  cases found : hunks.filter fun hunk => hunk.start = index with
  | nil => simp
  | cons first later =>
    cases later with
    | nil => simp
    | cons second later =>
      have equal : ∀ hunk ∈ hunks.filter (fun hunk => hunk.start = index),hunk.start = index :=
        fun hunk named => by simpa using (List.mem_filter.mp named).2
      rw [found] at sub equal
      have different := (List.pairwise_cons.mp sub).1 second (by simp)
      rw [equal first (by simp),equal second (by simp)] at different
      exact absurd rfl different

/-- Where the spans are separated, the order of the list does not matter. -/
theorem replacedAtOnce_perm (apart : Separated (hunks.map PatchHunk.span))
    (same : order.Perm hunks) : replacedAtOnce text order = replacedAtOnce text hunks := by
  have pointwise : replacedAt text order = replacedAt text hunks := by
    funext index
    have begins : order.filter (fun hunk => hunk.start = index) =
        hunks.filter fun hunk => hunk.start = index := by
      have perm := same.filter fun hunk => hunk.start = index
      have single := single_of_separated apart index
      cases found : hunks.filter fun hunk => hunk.start = index with
      | nil => rwa [found,List.perm_nil] at perm
      | cons first later =>
        rw [found] at perm single
        have alone : later = [] := by simpa using single
        rw [alone] at perm ⊢
        exact List.perm_singleton.mp perm
    have covers : order.any (fun hunk => hunk.start ≤ index && index < hunk.stop) =
        hunks.any fun hunk => hunk.start ≤ index && index < hunk.stop := same.any_eq
    simp only [replacedAt,begins,covers]
  simp only [replacedAtOnce,pointwise]

theorem stands_perm (same : order.Perm hunks) :
    (∀ hunk ∈ order,Stands text hunk) ↔ ∀ hunk ∈ hunks,Stands text hunk := by
  simp only [same.mem_iff]

/-- What the call makes of the outcome of the loop. -/
theorem applyHunksWithin_ok {limit : Nat} {result : Text}
    (run : replaceHunks (byStart order) 0 text = .ok result) :
    applyHunksWithin limit text order = bounded limit result := by
  have run : replaceHunks (order.mergeSort fun a b => a.start ≤ b.start) 0 text = .ok result := run
  by_cases large : limit < Text.utf8Length result
  · simp [applyHunksWithin,run,bounded,large,bind,Except.bind]
  · simp [applyHunksWithin,run,bounded,large,bind,Except.bind,pure,Except.pure]

theorem applyHunksWithin_error {limit : Nat} {reason : Unsupported}
    (run : replaceHunks (byStart order) 0 text = .error reason) :
    applyHunksWithin limit text order = .error reason := by
  have run : replaceHunks (order.mergeSort fun a b => a.start ≤ b.start) 0 text =
    .error reason := run
  simp [applyHunksWithin,run,bind,Except.bind]

/-- Separated spans are replaced at once, in whatever order they are listed. -/
theorem simultaneous_of_separated (limit : Nat) (text : Text) {hunks : List PatchHunk}
    (apart : Separated (hunks.map PatchHunk.span)) : Simultaneous limit text hunks := by
  intro order same
  have listed : Separated (order.map PatchHunk.span) :=
    (separated_perm (same.map PatchHunk.span)).mpr apart
  have ordered := byStart_ordered listed
  have sorted : (byStart order).Perm hunks := byStart_perm.trans same
  have disjoint : (hunks.map PatchHunk.span).Pairwise Apart := apart.imp fun both => both.1
  have loop := replaceHunks_ordered text (byStart order) 0 0 [] ordered
    (fun hunk _ => Nat.zero_le _) (Nat.zero_le _) (by simp)
  simp only [List.nil_append,List.drop_zero] at loop
  rw [stands_perm sorted] at loop
  rcases loop with ⟨each,run⟩ | ⟨missing,reason,run⟩
  · have reached : ∀ hunk ∈ byStart order,hunk.stop ≤ text.length :=
      fun hunk found => (each hunk (sorted.mem_iff.mp found)).1
    have once : splice text 0 (byStart order) = replacedAtOnce text hunks := by
      rw [splice_eq _ ordered (fun hunk _ => Nat.zero_le _) reached,
        ← replacedAtOnce_perm apart sorted,replacedAtOnce,List.range_eq_range']
      rfl
    rw [once] at run
    exact ⟨fun _ => applyHunksWithin_ok run,fun not => absurd ⟨each,disjoint⟩ not⟩
  · exact ⟨fun applicable => absurd applicable.1 missing,
      fun _ => ⟨reason,applyHunksWithin_error run⟩⟩

end Ordering

section Necessity

/-- A hunk that replaces a run of one letter by itself. -/
def idle (span : Nat × Nat) : PatchHunk where
  start := span.1
  oldText := List.replicate span.2 'a'
  newText := List.replicate span.2 'a'

@[simp] theorem span_idle (span : Nat × Nat) : (idle span).span = span := by
  simp [idle,PatchHunk.span]

theorem take_slice_drop (text : Text) {start stop : Nat} (order : start ≤ stop) :
    text.take start ++ slice text start stop ++ text.drop stop = text := by
  have joined : slice text start stop ++ text.drop stop = text.drop start := by
    have moved : start + (stop - start) = stop := by omega
    rw [slice,← moved,← List.drop_drop,moved]
    exact List.take_append_drop _ _
  rw [List.append_assoc,joined]
  exact List.take_append_drop _ _

/-- What replaces a text by itself can be left out. -/
theorem replaceHunks_active (hunks : List PatchHunk) {offset : Int} {text result : Text}
    (run : replaceHunks hunks offset text = .ok result) :
    replaceHunks (hunks.filter fun hunk => hunk.oldText ≠ hunk.newText) offset text =
      .ok result := by
  induction hunks generalizing offset text with
  | nil => exact run
  | cons hunk rest ih =>
    simp only [replaceHunks] at run
    split at run
    · cases run
    next within =>
      split at run
      · cases run
      next same =>
        have later := ih run
        by_cases still : hunk.oldText = hunk.newText
        · have same : slice text ((hunk.start : Int) + offset).toNat
              (((hunk.start : Int) + offset).toNat + hunk.oldText.length) = hunk.oldText := by
            simpa using same
          have kept := take_slice_drop text
            (Nat.le_add_right ((hunk.start : Int) + offset).toNat hunk.oldText.length)
          have shift : offset + hunk.newText.length - hunk.oldText.length = offset := by
            rw [still]
            omega
          rw [same,still] at kept
          rw [shift,still,kept] at later
          simpa [still] using later
        · rw [List.filter_cons_of_pos (by simpa using still),replaceHunks,if_neg within,if_neg same]
          exact later

/-- One hunk that stands where it is looked for. -/
theorem replaceHunks_step (hunk : PatchHunk) (rest : List PatchHunk) (offset : Int)
    (before after : Text) (place : (hunk.start : Int) + offset = before.length) :
    replaceHunks (hunk :: rest) offset (before ++ hunk.oldText ++ after) =
      replaceHunks rest (offset + hunk.newText.length - hunk.oldText.length)
        (before ++ hunk.newText ++ after) := by
  have range : ¬ (((before.length : Int) < 0) ∨
      ((before ++ hunk.oldText ++ after).length : Int) < before.length + hunk.oldText.length) := by
    simp only [List.length_append]
    omega
  have window : slice (before ++ hunk.oldText ++ after) before.length
      (before.length + hunk.oldText.length) = hunk.oldText := by
    simp [slice,List.append_assoc]
  have front : (before ++ hunk.oldText ++ after).take before.length = before := by
    simp [List.append_assoc]
  have back : (before ++ hunk.oldText ++ after).drop (before.length + hunk.oldText.length) =
      after := by
    rw [← List.length_append,List.drop_left]
  rw [replaceHunks]
  simp only [place,Int.toNat_natCast]
  rw [if_neg range,if_neg (not_not_intro window),front,back]

theorem replaceHunks_idle (hunks : List PatchHunk) (length : Nat)
    (still : ∀ hunk ∈ hunks,hunk = idle hunk.span) (within : ∀ hunk ∈ hunks,hunk.stop ≤ length) :
    replaceHunks hunks 0 (List.replicate length 'a') = .ok (List.replicate length 'a') := by
  induction hunks with
  | nil => rfl
  | cons hunk rest ih =>
    have inside : hunk.stop ≤ length := within hunk (by simp)
    have run := replaceHunks_step hunk rest 0 (List.replicate hunk.start 'a')
      (List.replicate (length - hunk.stop) 'a') (by simp)
    have old : hunk.oldText = List.replicate hunk.oldText.length 'a' :=
      congrArg PatchHunk.oldText (still hunk (by simp))
    have new : hunk.newText = hunk.oldText :=
      (congrArg PatchHunk.newText (still hunk (by simp))).trans old.symm
    have whole : List.replicate hunk.start 'a' ++ hunk.oldText ++
        List.replicate (length - hunk.stop) 'a' = List.replicate length 'a' := by
      rw [old,List.replicate_append_replicate,List.replicate_append_replicate]
      congr
      simp only [PatchHunk.stop] at inside ⊢
      omega
    have shift : (0 : Int) + hunk.oldText.length - hunk.oldText.length = 0 := by omega
    rw [new,whole,shift] at run
    rw [run]
    exact ih (fun other found => still other (by simp [found]))
      fun other found => within other (by simp [found])

def lexicographic (a b : PatchHunk) : Bool :=
  a.start < b.start || (a.start = b.start && a.stop ≤ b.stop)

theorem lexicographic_trans (a b c : PatchHunk) (first : lexicographic a b = true)
    (second : lexicographic b c = true) : lexicographic a c = true := by
  simp only [lexicographic,Bool.or_eq_true,Bool.and_eq_true,decide_eq_true_eq] at *
  omega

theorem lexicographic_total (a b : PatchHunk) :
    (lexicographic a b || lexicographic b a) = true := by
  simp only [lexicographic,Bool.or_eq_true,Bool.and_eq_true,decide_eq_true_eq]
  omega

/-- In that order disjoint spans follow one another. -/
theorem lexicographic_ordered {hunks : List PatchHunk}
    (apart : (hunks.map PatchHunk.span).Pairwise Apart) :
    (hunks.mergeSort lexicographic).Pairwise fun a b => a.stop ≤ b.start := by
  have perm : (hunks.mergeSort lexicographic).Perm hunks := List.mergeSort_perm _ _
  have disjoint := List.pairwise_map.mp
    ((pairwise_apart_perm (perm.map PatchHunk.span)).mpr apart)
  have sorted := List.pairwise_mergeSort lexicographic_trans lexicographic_total hunks
  refine (disjoint.and sorted).imp ?_
  intro a b ⟨disjoint,before⟩
  have before : a.start < b.start ∨ a.start = b.start ∧ a.stop ≤ b.stop := by
    simpa [lexicographic] using before
  have disjoint : a.stop ≤ b.start ∨ b.stop ≤ a.start := disjoint
  have extent : b.start ≤ b.stop := Nat.le_add_right _ _
  omega

theorem byStart_of_sorted {hunks : List PatchHunk}
    (sorted : hunks.Pairwise fun a b => a.start ≤ b.start) : byStart hunks = hunks :=
  List.mergeSort_of_pairwise (sorted.imp fun order => by simpa using order)

/-- Two sorted orders of the same hunks agree on what is left once the idle ones are gone. -/
theorem active_pair {hunks : List PatchHunk} {a b : PatchHunk} {rest : List (Nat × Nat)}
    (perm : hunks.Perm (a :: b :: rest.map idle)) (order : [a,b].Sublist hunks)
    (first : a.oldText ≠ a.newText) (second : b.oldText ≠ b.newText) :
    hunks.filter (fun hunk => hunk.oldText ≠ hunk.newText) = [a,b] := by
  have still : (rest.map idle).filter (fun hunk => hunk.oldText ≠ hunk.newText) = [] := by
    apply List.filter_eq_nil_iff.mpr
    intro hunk found
    obtain ⟨span,_,rfl⟩ := List.mem_map.mp found
    simp [idle]
  have kept := perm.filter fun hunk => hunk.oldText ≠ hunk.newText
  have pair := order.filter fun hunk => hunk.oldText ≠ hunk.newText
  simp only [List.filter_cons,first,second,still,ne_eq,not_false_eq_true,decide_true,
    if_true,List.filter_nil] at kept pair
  exact (pair.eq_of_length kept.length_eq.symm).symm

def insertion (start : Nat) : PatchHunk where
  start
  newText := ['b']

def growth (start length : Nat) : PatchHunk where
  start
  oldText := List.replicate length 'a'
  newText := List.replicate (length + 1) 'c'

section Pair

variable {start length whole : Nat}

theorem run_split (inside : start + length ≤ whole) : List.replicate whole 'a' =
    List.replicate start 'a' ++ List.replicate length 'a' ++
      List.replicate (whole - (start + length)) 'a' := by
  rw [List.replicate_append_replicate,List.replicate_append_replicate]
  congr
  omega

/-- Taken first, the insertion comes to stand before what is put in the place of the other. -/
theorem insertion_first (inside : start + length ≤ whole) :
    replaceHunks [insertion start,growth start length] 0 (List.replicate whole 'a') =
      .ok (List.replicate start 'a' ++ ['b'] ++ List.replicate (length + 1) 'c' ++
        List.replicate (whole - (start + length)) 'a') := by
  have first := replaceHunks_step (insertion start) [growth start length] 0
    (List.replicate start 'a')
    (List.replicate length 'a' ++ List.replicate (whole - (start + length)) 'a') (by simp [insertion])
  have second := replaceHunks_step (growth start length) [] 1
    (List.replicate start 'a' ++ ['b'])
    (List.replicate (whole - (start + length)) 'a') (by simp [growth])
  rw [run_split inside]
  simp only [insertion,growth,List.append_nil,List.length_cons,List.length_nil,
    List.append_assoc] at first second ⊢
  rw [first]
  simpa [replaceHunks] using second

/-- Taken second, it comes to stand inside it. -/
theorem growth_first (inside : start + length ≤ whole) :
    replaceHunks [growth start length,insertion start] 0 (List.replicate whole 'a') =
      .ok (List.replicate start 'a' ++ ['c'] ++ ['b'] ++ List.replicate length 'c' ++
        List.replicate (whole - (start + length)) 'a') := by
  have first := replaceHunks_step (growth start length) [insertion start] 0
    (List.replicate start 'a')
    (List.replicate (whole - (start + length)) 'a') (by simp [growth])
  have second := replaceHunks_step (insertion start) [] 1
    (List.replicate start 'a' ++ ['c'])
    (List.replicate length 'c' ++ List.replicate (whole - (start + length)) 'a') (by simp [insertion])
  rw [run_split inside]
  simp only [insertion,growth,List.append_nil,List.length_cons,List.length_nil,
    List.append_assoc] at first second ⊢
  rw [first]
  simpa [replaceHunks,List.replicate_succ] using second

end Pair

theorem spans_of_related {spans : List (Nat × Nat)} {hunks : List PatchHunk}
    (related : List.Forall₂ (fun span hunk => PatchHunk.span hunk = span) spans hunks) :
    hunks.map PatchHunk.span = spans := by
  induction related with
  | nil => rfl
  | cons first _ ih => rw [List.map_cons,first,ih]

variable {spans : List (Nat × Nat)}

/-- Of two orders of one list, the second comes out as the first does. -/
theorem same_outcome {limit : Nat} {text result : Text} {order other : List PatchHunk}
    (all : ∀ hunks : List PatchHunk,hunks.map PatchHunk.span = spans →
      Simultaneous limit text hunks)
    (listed : (order.map PatchHunk.span).Perm spans) (same : order.Perm other)
    (run : applyHunksWithin limit text order = .ok result) :
    applyHunksWithin limit text other = .ok result := by
  have related : List.Forall₂ (fun span hunk => PatchHunk.span hunk = span)
      (order.map PatchHunk.span) order := by
    simp [List.forall₂_map_left_iff,List.forall₂_same]
  obtain ⟨hunks,equal,perm⟩ := List.perm_comp_forall₂ listed.symm related
  have holds := all hunks (spans_of_related equal)
  by_cases applicable : Applicable text hunks
  · rw [(holds other (same.symm.trans perm.symm)).1 applicable,
      ← (holds order perm.symm).1 applicable,run]
  · obtain ⟨reason,refused⟩ := (holds order perm.symm).2 applicable
    rw [run] at refused
    cases refused

def AllSimultaneous (spans : List (Nat × Nat)) : Prop :=
  ∀ (limit : Nat) (text : Text) (hunks : List PatchHunk),
    hunks.map PatchHunk.span = spans → Simultaneous limit text hunks

theorem stop_le_sum {hunk : PatchHunk} (found : hunk.span ∈ spans) :
    hunk.stop ≤ (spans.map fun span => span.1 + span.2).sum :=
  List.le_sum_of_mem (List.mem_map.mpr ⟨hunk.span,found,rfl⟩)

/-- Idle hunks are accepted, so that their spans must lie apart. -/
theorem apart_of_all (all : AllSimultaneous spans) : spans.Pairwise Apart := by
  have listed : (spans.map idle).map PatchHunk.span = spans := by simp [Function.comp_def]
  have perm : (byStart (spans.map idle)).Perm (spans.map idle) := byStart_perm
  have still : ∀ hunk ∈ byStart (spans.map idle),∃ span ∈ spans,hunk = idle span := by
    intro hunk found
    obtain ⟨span,named,same⟩ := List.mem_map.mp (perm.mem_iff.mp found)
    exact ⟨span,named,same.symm⟩
  have run := replaceHunks_idle (byStart (spans.map idle))
    (spans.map fun span => span.1 + span.2).sum
    (by rintro hunk found; obtain ⟨span,_,rfl⟩ := still hunk found; simp)
    (by rintro hunk found; obtain ⟨span,named,rfl⟩ := still hunk found
        exact stop_le_sum (by simpa using named))
  let text := List.replicate (spans.map fun span => span.1 + span.2).sum 'a'
  have holds := all (Text.utf8Length text) text (spans.map idle) listed _ (.refl _)
  by_contra touching
  have refused : ¬ Applicable text (spans.map idle) := fun applicable =>
    touching (listed ▸ applicable.2)
  obtain ⟨reason,refused⟩ := holds.2 refused
  rw [applyHunksWithin_ok run,bounded,if_neg (by simp [text])] at refused
  cases refused

/-- Two hunks at one place, of which one inserts: their order in the list shows. -/
theorem places_of_all (all : AllSimultaneous spans) {start length : Nat}
    {rest : List (Nat × Nat)} (listed : spans.Perm ((start,0) :: (start,length) :: rest)) :
    False := by
  let whole := (spans.map fun span => span.1 + span.2).sum
  let text := List.replicate whole 'a'
  let hunks := insertion start :: growth start length :: rest.map idle
  have spelled : (hunks.map PatchHunk.span).Perm spans := by
    have same : hunks.map PatchHunk.span = (start,0) :: (start,length) :: rest := by
      simp [hunks,insertion,growth,PatchHunk.span,idle,Function.comp_def]
    rw [same]
    exact listed.symm
  have inside : start + length ≤ whole := by
    have found : (growth start length).span ∈ spans :=
      spelled.mem_iff.mp (by simp [hunks])
    have reached := stop_le_sum found
    simp only [growth,PatchHunk.stop,List.length_replicate] at reached
    exact reached
  -- one order in which the hunks are taken without overlapping
  let order := hunks.mergeSort lexicographic
  have perm : order.Perm hunks := List.mergeSort_perm _ _
  have apart : (hunks.map PatchHunk.span).Pairwise Apart :=
    (pairwise_apart_perm spelled).mpr (apart_of_all all)
  have ordered := lexicographic_ordered apart
  have sorted : byStart order = order := byStart_of_sorted
    (ordered.imp fun before => (Nat.le_add_right _ _).trans before)
  have loop := replaceHunks_ordered text order 0 0 [] ordered (fun _ _ => Nat.zero_le _)
    (Nat.zero_le _) (by simp)
  have each : ∀ hunk ∈ order,Stands text hunk := by
    intro hunk found
    have named := perm.mem_iff.mp found
    have within : hunk.stop ≤ whole := stop_le_sum
      (spelled.mem_iff.mp (List.mem_map.mpr ⟨hunk,named,rfl⟩))
    have letters : hunk.oldText = List.replicate hunk.oldText.length 'a' := by
      simp only [hunks,List.mem_cons,List.mem_map] at named
      rcases named with rfl | rfl | ⟨span,_,rfl⟩ <;> simp [insertion,growth,idle]
    refine ⟨by simpa [text] using within,?_⟩
    rw [letters]
    simp only [slice,text,List.drop_replicate,List.take_replicate]
    simp only [PatchHunk.stop] at within ⊢
    congr
    omega
  obtain ⟨_,run⟩ := loop.resolve_right fun failed => failed.1 each
  simp only [List.nil_append,List.drop_zero] at run
  have first : [insertion start,growth start length].Sublist order :=
    List.pair_sublist_mergeSort lexicographic_trans lexicographic_total
      (by simp [lexicographic,insertion,growth,PatchHunk.stop]) (by simp [hunks])
  have active := replaceHunks_active order run
  rw [active_pair perm first (by simp [insertion]) (by simp [growth]),
    insertion_first inside] at active
  -- the order in which the insertion is listed second
  let other := growth start length :: insertion start :: rest.map idle
  have swapped : order.Perm other := perm.trans (.swap _ _ _)
  have run : applyHunksWithin (Text.utf8Length (splice text 0 order)) text order =
      .ok (splice text 0 order) := by
    rw [applyHunksWithin_ok (by rwa [sorted]),bounded,if_neg (by omega)]
  have outcome := same_outcome (all _ _) ((perm.map PatchHunk.span).trans spelled) swapped run
  have taken : (byStart other).Perm other := byStart_perm
  have second : [growth start length,insertion start].Sublist (byStart other) :=
    List.pair_sublist_mergeSort
      (fun a b c first second => by simp only [decide_eq_true_eq] at *; omega)
      (fun a b => by simp; omega) (by simp [insertion,growth]) (by simp [other])
  cases done : replaceHunks (byStart other) 0 text with
  | error reason =>
    rw [applyHunksWithin_error done] at outcome
    cases outcome
  | ok result =>
    have same : result = splice text 0 order := by
      rw [applyHunksWithin_ok done,bounded] at outcome
      split at outcome
      · cases outcome
      · exact Except.ok.inj outcome
    have acted := replaceHunks_active (byStart other) done
    rw [active_pair taken second (by simp [growth]) (by simp [insertion]),
      growth_first inside,same,← active] at acted
    simp [List.replicate_succ] at acted

/-- The patches that have a given list of spans are applied at once, for every text and every
replacement, exactly when the spans are separated. -/
theorem simultaneous_iff (spans : List (Nat × Nat)) :
    (∀ (limit : Nat) (text : Text) (hunks : List PatchHunk),
      hunks.map PatchHunk.span = spans → Simultaneous limit text hunks) ↔ Separated spans := by
  constructor
  swap
  · intro apart limit text hunks spelled
    exact simultaneous_of_separated limit text (spelled ▸ apart)
  intro all
  have apart := apart_of_all all
  apply List.pairwise_iff_forall_sublist.mpr
  intro a b pair
  have disjoint : Apart a b := List.pairwise_iff_forall_sublist.mp apart pair
  refine ⟨disjoint,fun place => ?_⟩
  obtain ⟨rest,listed⟩ := pair.exists_perm_append
  obtain ⟨start,first⟩ := a
  obtain ⟨same,second⟩ := b
  have same : start = same := place
  subst same
  have empty : first = 0 ∨ second = 0 := by
    simp only [Apart] at disjoint
    omega
  rcases empty with rfl | rfl
  · exact places_of_all all listed
  · exact places_of_all all (listed.trans (.swap _ _ _))

end Necessity

/-- The second hunk names text that the note has never had: only the first one puts it there. -/
def chained : List PatchHunk :=
  [{start := 0,oldText := "todo".toList,newText := "done".toList},
   {start := 3,oldText := "e todo".toList,newText := "e next".toList}]

/-- The patch is accepted, although its second hunk overlaps the first and does not stand in
the note. -/
theorem chained_accepted :
    ¬ Simultaneous maxOutputBytes "todo todo".toList chained ∧
      applyHunks "todo todo".toList chained = .ok "done next".toList := by
  have sorted : byStart chained = chained := byStart_of_sorted (by simp [chained])
  have run : replaceHunks (byStart chained) 0 "todo todo".toList = .ok "done next".toList := by
    rw [sorted]
    decide
  have accepted : applyHunksWithin maxOutputBytes "todo todo".toList chained = _ :=
    applyHunksWithin_ok run
  have small : bounded maxOutputBytes "done next".toList = .ok "done next".toList := by decide
  rw [small] at accepted
  refine ⟨fun simultaneous => ?_,accepted⟩
  have refused : ¬ Applicable "todo todo".toList chained := fun applicable => by
    have second := applicable.1 _ (List.mem_cons_of_mem _ (List.mem_cons_self))
    exact absurd second.2 (by decide)
  obtain ⟨reason,failed⟩ := (simultaneous chained (.refl _)).2 refused
  rw [accepted] at failed
  cases failed

end Patches

end LocalBook
