import Mathlib

/-! Breadth-first search with a bound on its rounds: it finds what is within so many steps. -/
namespace LocalBook.Levels

variable {α : Type} [DecidableEq α]

/-- One round adds the neighbours of the frontier that are new. -/
def search (next : α → Finset α) : Nat → Finset α → Finset α → Finset α
  | 0,visited,_ => visited
  | n + 1,visited,frontier =>
    if frontier = ∅ then visited
    else
      let neighbours := frontier.biUnion next \ visited
      search next n (visited ∪ neighbours) neighbours

inductive Within (r : α → α → Prop) : Nat → α → α → Prop where
  | here {n : Nat} {a : α} : Within r n a a
  | step {n : Nat} {a b c : α} : r a b → Within r n b c → Within r (n + 1) a c

omit [DecidableEq α] in
theorem Within.succ {r : α → α → Prop} {n : Nat} {a b : α} (within : Within r n a b) :
    Within r (n + 1) a b := by
  induction within with
  | here => exact .here
  | step edge _ ih => exact .step edge ih

omit [DecidableEq α] in
theorem within_congr {r s : α → α → Prop} (same : ∀ a b,r a b ↔ s a b) {n : Nat} {a b : α} :
    Within r n a b ↔ Within s n a b := by
  have equal : r = s := funext fun a => funext fun b => propext (same a b)
  rw [equal]

variable {next : α → Finset α}

omit [DecidableEq α] in
theorem Within.closed {visited : Finset α} (closed : ∀ x ∈ visited,next x ⊆ visited) {n : Nat}
    {a b : α} (within : Within (fun a b => b ∈ next a) n a b) (inside : a ∈ visited) :
    b ∈ visited := by
  induction within with
  | here => exact inside
  | step edge _ ih => exact ih (closed _ inside edge)

/-- What the search visits, as long as nothing but the frontier leads on from what it knows. -/
theorem mem_search {n : Nat} {visited frontier : Finset α} (known : frontier ⊆ visited)
    (done : ∀ x ∈ visited,x ∉ frontier → next x ⊆ visited) (y : α) :
    y ∈ search next n visited frontier ↔ ∃ x ∈ visited,Within (fun a b => b ∈ next a) n x y := by
  induction n generalizing visited frontier with
  | zero =>
    rw [search]
    constructor
    · exact fun inside => ⟨y,inside,.here⟩
    · rintro ⟨x,inside,within⟩
      cases within
      exact inside
  | succ n ih =>
    rw [search]
    split
    · next none_ =>
      have closed : ∀ x ∈ visited,next x ⊆ visited := fun x inside =>
        done x inside (by simp [none_])
      exact ⟨fun inside => ⟨y,inside,.here⟩,fun ⟨x,inside,within⟩ => within.closed closed inside⟩
    · have further : ∀ x ∈ visited ∪ (frontier.biUnion next \ visited),
          x ∉ frontier.biUnion next \ visited →
            next x ⊆ visited ∪ (frontier.biUnion next \ visited) := by
        intro x inside old b edge
        have seen : x ∈ visited := (Finset.mem_union.mp inside).resolve_right old
        by_cases active : x ∈ frontier
        · by_cases known : b ∈ visited
          · exact Finset.mem_union_left _ known
          · exact Finset.mem_union_right _
              (Finset.mem_sdiff.mpr ⟨Finset.mem_biUnion.mpr ⟨x,active,edge⟩,known⟩)
        · exact Finset.mem_union_left _ (done x seen active edge)
      rw [ih Finset.subset_union_right further]
      constructor
      · rintro ⟨x,inside,within⟩
        rcases Finset.mem_union.mp inside with old | new
        · exact ⟨x,old,within.succ⟩
        · obtain ⟨b,active,edge⟩ := Finset.mem_biUnion.mp (Finset.mem_sdiff.mp new).1
          exact ⟨b,known active,.step edge within⟩
      · rintro ⟨x,inside,within⟩
        have member := Finset.mem_union_left (frontier.biUnion next \ visited) inside
        have old : x ∉ frontier.biUnion next \ visited := fun new =>
          (Finset.mem_sdiff.mp new).2 inside
        cases within with
        | here => exact ⟨_,member,.here⟩
        | step edge rest => exact ⟨_,further _ member old edge,rest⟩

theorem mem_search_root {n : Nat} {root y : α} :
    y ∈ search next n {root} {root} ↔ Within (fun a b => b ∈ next a) n root y := by
  rw [mem_search Finset.Subset.rfl (by simp)]
  simp

end LocalBook.Levels
