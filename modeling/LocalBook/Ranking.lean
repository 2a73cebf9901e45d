import Mathlib

/-! What stands among the first elements of a list that is sorted by a key. Where two elements
have one key, either may come first: the counts below and up to an element say what holds of
every such list. -/
namespace LocalBook.Ranking

variable {α κ : Type} [LinearOrder κ] (key : α → κ)

def Ascending (l : List α) : Prop := l.Pairwise fun a b => key a ≤ key b

def below (a : α) (l : List α) : Nat := l.countP fun b => key b < key a

def upTo (a : α) (l : List α) : Nat := l.countP fun b => key b ≤ key a

variable {key} {l l' : List α} {a b : α} {n : Nat}

theorem below_perm (same : l.Perm l') : below key a l = below key a l' := same.countP_eq _

theorem upTo_perm (same : l.Perm l') : upTo key a l = upTo key a l' := same.countP_eq _

section Cut

theorem mem_cut (there : a ∈ l) : a ∈ l.take n ∨ a ∈ l.drop n := by
  rw [← List.take_append_drop n l] at there
  exact List.mem_append.mp there

/-- What follows a cut has the whole first part before it. -/
theorem cut_full (there : a ∈ l.drop n) : (l.take n).length = n := by
  have inside := List.length_pos_of_mem there
  rw [List.length_drop] at inside
  rw [List.length_take]
  omega

theorem before_cut {R : α → α → Prop} (sorted : l.Pairwise R) (first : a ∈ l.take n)
    (second : b ∈ l.drop n) : R a b := by
  rw [← List.take_append_drop n l] at sorted
  exact (List.pairwise_append.mp sorted).2.2 a first b second

/-- Where at most `n` keys are no greater, the element is among the first `n`. -/
theorem mem_take_of_upTo_le (sorted : Ascending key l) (there : a ∈ l)
    (few : upTo key a l ≤ n) : a ∈ l.take n := by
  rcases mem_cut there with first | second
  · exact first
  · have taken : upTo key a (l.take n) = (l.take n).length := by
      apply List.countP_eq_length.mpr
      intro b before
      simpa using before_cut sorted before second
    have dropped : 0 < upTo key a (l.drop n) := by
      apply List.countP_pos_iff.mpr
      exact ⟨a,second,by simp⟩
    have whole : upTo key a l = upTo key a (l.take n) + upTo key a (l.drop n) := by
      rw [upTo,upTo,upTo,← List.countP_append,List.take_append_drop]
    have full := cut_full second
    omega

/-- Where at least `n` keys are smaller, the element is not among the first `n`. -/
theorem not_mem_take_of_le_below (sorted : Ascending key l) (many : n ≤ below key a l) :
    a ∉ l.take n := by
  intro first
  have dropped : below key a (l.drop n) = 0 := by
    apply List.countP_eq_zero.mpr
    intro b after
    simpa using before_cut sorted first after
  have whole : below key a l = below key a (l.take n) + below key a (l.drop n) := by
    rw [below,below,below,← List.countP_append,List.take_append_drop]
  have strict : below key a (l.take n) < (l.take n).length := by
    apply lt_of_le_of_ne List.countP_le_length
    intro all
    have self := List.countP_eq_length.mp all a first
    simp at self
  have short := List.length_take_le n l
  omega

end Cut

section Ties

def Foremost (key : α → κ) (a : α) (x y : α) : Prop :=
  key x < key y ∨ key x = key y ∧ (y = a → x = a)

def Hindmost (key : α → κ) (a : α) (x y : α) : Prop :=
  key x < key y ∨ key x = key y ∧ (x = a → y = a)

instance [DecidableEq α] (a : α) : DecidableRel (Foremost key a) := fun _ _ =>
  inferInstanceAs (Decidable (_ ∨ _))

instance [DecidableEq α] (a : α) : DecidableRel (Hindmost key a) := fun _ _ =>
  inferInstanceAs (Decidable (_ ∨ _))

instance (a : α) : Std.Total (Foremost key a) where
  total x y := by
    rcases lt_trichotomy (key x) (key y) with less | same | more
    · exact .inl (.inl less)
    · by_cases here : x = a
      · exact .inl (.inr ⟨same,fun _ => here⟩)
      · exact .inr (.inr ⟨same.symm,fun found => absurd found here⟩)
    · exact .inr (.inl more)

instance (a : α) : Std.Total (Hindmost key a) where
  total x y := by
    rcases lt_trichotomy (key x) (key y) with less | same | more
    · exact .inl (.inl less)
    · by_cases here : x = a
      · exact .inr (.inr ⟨same.symm,fun _ => here⟩)
      · exact .inl (.inr ⟨same,fun found => absurd found here⟩)
    · exact .inr (.inl more)

instance (a : α) : IsTrans α (Foremost key a) where
  trans x y z := by
    rintro (first | ⟨first,keeps⟩) (second | ⟨second,keeps'⟩)
    · exact .inl (first.trans second)
    · exact .inl (first.trans_eq second)
    · exact .inl (first.trans_lt second)
    · exact .inr ⟨first.trans second,fun found => keeps (keeps' found)⟩

instance (a : α) : IsTrans α (Hindmost key a) where
  trans x y z := by
    rintro (first | ⟨first,keeps⟩) (second | ⟨second,keeps'⟩)
    · exact .inl (first.trans second)
    · exact .inl (first.trans_eq second)
    · exact .inl (first.trans_lt second)
    · exact .inr ⟨first.trans second,fun found => keeps' (keeps found)⟩

theorem Foremost.le {c : α} (before : Foremost key a b c) : key b ≤ key c := by
  rcases before with less | ⟨same,_⟩
  · exact less.le
  · exact same.le

theorem Hindmost.le {c : α} (before : Hindmost key a b c) : key b ≤ key c := by
  rcases before with less | ⟨same,_⟩
  · exact less.le
  · exact same.le

/-- Put before the others of its key, an element is among the first `n` where fewer than `n`
keys are smaller. -/
theorem mem_take_of_foremost (distinct : l.Nodup) (sorted : l.Pairwise (Foremost key a))
    (there : a ∈ l) (few : below key a l < n) : a ∈ l.take n := by
  rcases mem_cut there with first | second
  · exact first
  · have taken : below key a (l.take n) = (l.take n).length := by
      apply List.countP_eq_length.mpr
      intro b before
      rcases before_cut sorted before second with less | ⟨_,same⟩
      · exact decide_eq_true less
      · exact absurd (same rfl ▸ before) fun before =>
          List.disjoint_take_drop distinct le_rfl before second
    have part : below key a (l.take n) ≤ below key a l :=
      (List.take_sublist n l).countP_le
    have full := cut_full second
    omega

/-- Put after the others of its key, an element is not among the first `n` where more than `n`
keys are no greater. -/
theorem not_mem_take_of_hindmost (distinct : l.Nodup) (sorted : l.Pairwise (Hindmost key a))
    (many : n < upTo key a l) : a ∉ l.take n := by
  intro first
  have dropped : upTo key a (l.drop n) = 0 := by
    apply List.countP_eq_zero.mpr
    intro b after
    rcases before_cut sorted first after with less | ⟨_,same⟩
    · simpa using less
    · exact absurd (same rfl ▸ after) fun after =>
        List.disjoint_take_drop distinct le_rfl first after
  have whole : upTo key a l = upTo key a (l.take n) + upTo key a (l.drop n) := by
    rw [upTo,upTo,upTo,← List.countP_append,List.take_append_drop]
  have part : upTo key a (l.take n) ≤ (l.take n).length := List.countP_le_length
  have short := List.length_take_le n l
  omega

end Ties

end LocalBook.Ranking
