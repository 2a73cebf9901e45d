import Mathlib

/-! Searches that go upwards: the first hit in a sorted list, the first hit over a range, and
the runs that a function to the next member of a set makes. -/
namespace LocalBook.Succession

/-- Dropping what does not even pass a weaker test changes no search. -/
theorem find?_drop_findIdx {α : Type} {p q : α → Bool} {l : List α}
    (weaker : ∀ x ∈ l, p x → q x) :
    (l.drop (l.findIdx q)).find? p = l.find? p := by
  induction l with
  | nil => rfl
  | cons x l ih =>
    rw [List.findIdx_cons]
    cases passed : q x with
    | true => rfl
    | false =>
      have failed : p x = false := by
        cases found : p x with
        | false => rfl
        | true => exact absurd (weaker x List.mem_cons_self found) (by simp [passed])
      have rest := ih fun y mem => weaker y (List.mem_cons_of_mem x mem)
      simpa [List.find?_cons,failed] using rest

/-- The first hit in a list that a key sorts is the least one. -/
theorem find?_least {α : Type} {p : α → Bool} {key : α → Nat} {l : List α} {x : α}
    (sorted : l.Pairwise fun a b => key a < key b) (found : l.find? p = some x) :
    ∀ y ∈ l, p y → key x ≤ key y := by
  obtain ⟨passed,before,after,rfl,failed⟩ := List.find?_eq_some_iff_append.mp found
  intro y mem hit
  rcases List.mem_append.mp mem with early | late
  · have := failed y early
    simp [hit] at this
  · rcases List.mem_cons.mp late with rfl | late
    · exact le_rfl
    · exact (List.rel_of_pairwise_cons (List.pairwise_append.mp sorted).2.1 late).le

theorem findSome?_range {β : Type} {f : Nat → Option β} {n : Nat} {b : β}
    (found : (List.range n).findSome? f = some b) :
    ∃ k < n, f k = some b ∧ ∀ j < k, f j = none := by
  induction n with
  | zero => cases found
  | succ n ih =>
    rw [List.range_succ,List.findSome?_append] at found
    cases earlier : (List.range n).findSome? f with
    | some c =>
      rw [earlier] at found
      obtain ⟨k,bound,hit,least⟩ := ih (earlier.trans found)
      exact ⟨k,by omega,hit,least⟩
    | none =>
      rw [earlier] at found
      refine ⟨n,by omega,?_,?_⟩
      · simpa using found
      · intro j bound
        exact List.findSome?_eq_none_iff.mp earlier j (List.mem_range.mpr bound)

variable {P : Nat → Prop} {next : Nat → Option Nat} {a m : Nat}

structure IsNext (P : Nat → Prop) (a m : Nat) : Prop where
  mem : P m
  later : a < m
  least : ∀ other, P other → a < other → m ≤ other

/-- A function to the next member, which fails only where no member follows. -/
structure Succeeds (P : Nat → Prop) (next : Nat → Option Nat) : Prop where
  found : ∀ {a m}, next a = some m → IsNext P a m
  exhausted : ∀ {a}, next a = none → ∀ m, P m → m ≤ a

def chain (next : Nat → Option Nat) (a : Nat) : Nat → Option Nat
  | 0 => next a
  | n + 1 => (chain next a n).bind next

/-- A run that begins one step later. -/
theorem chain_succ {b : Nat} (first : next a = some b) (n : Nat) :
    chain next a (n + 1) = chain next b n := by
  induction n with
  | zero => simp [chain,first]
  | succ n ih => rw [chain,ih,chain]

theorem chain_none (first : next a = none) (n : Nat) : chain next a n = none := by
  induction n with
  | zero => exact first
  | succ n ih => rw [chain,ih]; rfl

theorem chain_mem (found : ∀ {a m}, next a = some m → IsNext P a m) {n : Nat}
    (reached : chain next a n = some m) : a < m ∧ P m := by
  induction n generalizing m with
  | zero => exact ⟨(found reached).later,(found reached).mem⟩
  | succ n ih =>
    obtain ⟨b,earlier,step⟩ := Option.bind_eq_some_iff.mp reached
    exact ⟨(ih earlier).1.trans (found step).later,(found step).mem⟩

/-- The run goes through all members after its beginning. -/
theorem exists_chain (succeeds : Succeeds P next) (later : a < m) (mem : P m) :
    ∃ n, chain next a n = some m := by
  -- By induction on the distance, which the first step of the run makes smaller.
  induction distance : m - a using Nat.strong_induction_on generalizing a with
  | _ d ih =>
    cases first : next a with
    | none => exact absurd (succeeds.exhausted first m mem) (by omega)
    | some b =>
      have isNext := succeeds.found first
      have reached := isNext.least m mem later
      have ahead := isNext.later
      rcases Nat.lt_or_eq_of_le reached with short | rfl
      · obtain ⟨n,hit⟩ := ih (m - b) (by omega) short rfl
        exact ⟨n + 1,(chain_succ first n).trans hit⟩
      · exact ⟨0,first⟩

theorem chain_iff (succeeds : Succeeds P next) :
    (∃ n, chain next a n = some m) ↔ a < m ∧ P m :=
  ⟨fun ⟨_,reached⟩ => chain_mem succeeds.found reached,
    fun ⟨later,mem⟩ => exists_chain succeeds later mem⟩

end LocalBook.Succession
