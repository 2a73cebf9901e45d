import LocalBook.Text

/-! Where one text stands in another. -/
namespace LocalBook.Text

/-- `text.find(term)`. -/
def find (term : Text) : Text → Option Nat
  | [] => if term = [] then some 0 else none
  | c :: rest =>
    if term.isPrefixOf (c :: rest) then some 0 else (find term rest).map fun index => index + 1

variable {folded term : Text} {index : Nat}

theorem find_eq_some : find term folded = some index ↔
    index ≤ folded.length ∧ term <+: folded.drop index ∧
      ∀ i < index,¬term <+: folded.drop i := by
  induction folded generalizing index with
  | nil =>
    rw [find]
    split
    · next empty =>
      subst empty
      simp only [Option.some.injEq,List.length_nil,Nat.le_zero_eq]
      constructor
      · rintro rfl
        simp
      · rintro ⟨rfl,_⟩
        rfl
    · next some' =>
      simp [some']
  | cons c rest ih =>
    rw [find]
    split
    · next stands =>
      rw [List.isPrefixOf_iff_prefix] at stands
      simp only [Option.some.injEq]
      constructor
      · rintro rfl
        simp [stands]
      · rintro ⟨_,_,first⟩
        by_contra later
        exact first 0 (Nat.pos_of_ne_zero fun zero => later zero.symm) stands
    · next absent =>
      rw [List.isPrefixOf_iff_prefix] at absent
      rw [Option.map_eq_some_iff]
      constructor
      · rintro ⟨i,found,rfl⟩
        obtain ⟨bounded,stands,first⟩ := ih.mp found
        refine ⟨by simpa using bounded,by simpa using stands,?_⟩
        intro j less
        cases j with
        | zero => exact absent
        | succ j => simpa using first j (by omega)
      · rintro ⟨bounded,stands,first⟩
        cases index with
        | zero => exact absurd stands absent
        | succ i =>
          refine ⟨i,ih.mpr ⟨by simpa using bounded,by simpa using stands,?_⟩,rfl⟩
          intro j less
          simpa using first (j + 1) (by omega)

theorem infix_iff_drop : term <:+: folded ↔
    ∃ i ≤ folded.length,term <+: folded.drop i := by
  constructor
  · rintro ⟨a,b,rfl⟩
    exact ⟨a.length,by simp,b,by simp⟩
  · rintro ⟨i,_,stands⟩
    exact stands.isInfix.trans (List.drop_suffix i folded).isInfix

theorem find_eq_none : find term folded = none ↔ ¬term <:+: folded := by
  rw [infix_iff_drop]
  constructor
  · rintro absent found
    classical
    obtain ⟨bounded,stands⟩ := Nat.find_spec found
    have first := find_eq_some.mpr ⟨bounded,stands,fun i less there =>
      Nat.find_min found less ⟨(le_of_lt less).trans bounded,there⟩⟩
    rw [absent] at first
    cases first
  · intro absent
    cases found : find term folded with
    | none => rfl
    | some i =>
      obtain ⟨bounded,stands,_⟩ := find_eq_some.mp found
      exact absurd ⟨i,bounded,stands⟩ absent

end LocalBook.Text
