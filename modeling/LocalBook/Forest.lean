import Mathlib

/-! Forests that are grown from an owner for some of finitely many things: what is owned hangs
under its owner, and a walk leaves out what hangs under something closed. -/
namespace LocalBook.Forest

variable {α κ : Type}

inductive Tree (α : Type) where
  | node (label : α) (children : List (Tree α))

mutual

def walk (closed : α → Bool) : Tree α → List α
  | .node label children => label :: if closed label then [] else walkAll closed children

def walkAll (closed : α → Bool) : List (Tree α) → List α
  | [] => []
  | tree :: rest => walk closed tree ++ walkAll closed rest

end

mutual

def walkM (closed : α → Option Bool) : Tree α → Option (List α)
  | .node label children => do
    if ← closed label then return [label]
    return label :: (← walkAllM closed children)

def walkAllM (closed : α → Option Bool) : List (Tree α) → Option (List α)
  | [] => some []
  | tree :: rest => do return (← walkM closed tree) ++ (← walkAllM closed rest)

end

def rows (trees : List (Tree α)) : List α := walkAll (fun _ => false) trees

section Growing

variable (children : κ → List κ) (label : Nat → κ → α)

/-- The tree of a thing at a depth; `none` where the growing does not come to an end. -/
def grow : Nat → Nat → κ → Option (Tree α)
  | 0,_,_ => none
  | fuel + 1,depth,k =>
    ((children k).mapM (grow fuel (depth + 1))).map (Tree.node (label depth k))

def tree : Nat → Nat → κ → Tree α
  | 0,depth,k => .node (label depth k) []
  | fuel + 1,depth,k => .node (label depth k) ((children k).map (tree fuel (depth + 1)))

end Growing

theorem mapM_some {β : Type} {f : κ → Option β} {g : κ → β} {ks : List κ}
    (all : ∀ k ∈ ks,f k = some (g k)) : ks.mapM f = some (ks.map g) := by
  induction ks with
  | nil => rfl
  | cons k rest ih =>
    have behind := ih fun other member => all other (List.mem_cons_of_mem k member)
    simp [all k List.mem_cons_self,behind]

theorem walkAll_map (closed : α → Bool) (grown : κ → Tree α) (ks : List κ) :
    walkAll closed (ks.map grown) = ks.flatMap fun k => walk closed (grown k) := by
  induction ks with
  | nil => rfl
  | cons k rest ih => rw [List.map_cons,walkAll,ih,List.flatMap_cons]

mutual

theorem walkM_eq {closed : α → Option Bool} {shut : α → Bool} (tree : Tree α)
    (known : ∀ row ∈ walk (fun _ => false) tree,closed row = some (shut row)) :
    walkM closed tree = some (walk shut tree) := by
  cases tree with
  | node label children =>
    have here := known label (by simp [walk])
    have behind := walkAllM_eq children fun row member => known row (by
      rw [rows] at member
      simp [walk,member])
    simp only [walkM,walk,here,behind]
    cases shut label <;> rfl

theorem walkAllM_eq {closed : α → Option Bool} {shut : α → Bool} (trees : List (Tree α))
    (known : ∀ row ∈ rows trees,closed row = some (shut row)) :
    walkAllM closed trees = some (walkAll shut trees) := by
  cases trees with
  | nil => rfl
  | cons tree rest =>
    have here := walkM_eq tree fun row member => known row (by simp [rows,walkAll,member])
    have behind := walkAllM_eq rest fun row member => known row (by
      rw [rows] at member
      simp [rows,walkAll,member])
    simp [walkAllM,walkAll,here,behind]

end

/-- Things with owners among them, and no ownership that goes round: every owner has a lower
rank. -/
structure Ownership (κ : Type) where
  things : List κ
  owner : κ → Option κ
  rank : κ → Nat
  bound : Nat
  distinct : things.Nodup
  inside : ∀ k ∈ things,∀ o ∈ owner k,o ∈ things
  descends : ∀ k ∈ things,∀ o ∈ owner k,rank o < rank k
  bounded : ∀ k ∈ things,rank k ≤ bound

namespace Ownership

variable (s : Ownership κ)

def Owns (k o : κ) : Prop := k ∈ s.things ∧ s.owner k = some o

def Chain : κ → κ → Prop := Relation.TransGen s.Owns

theorem owns_unique : Relator.RightUnique s.Owns := by
  rintro k o o' ⟨_,first⟩ ⟨_,second⟩
  exact Option.some.inj (first.symm.trans second)

variable {s}

theorem Owns.inside {k o : κ} (owns : s.Owns k o) : o ∈ s.things := s.inside k owns.1 o owns.2

theorem Owns.descends {k o : κ} (owns : s.Owns k o) : s.rank o < s.rank k :=
  s.descends k owns.1 o owns.2

theorem Chain.descends {k o : κ} (chain : s.Chain k o) : s.rank o < s.rank k := by
  induction chain with
  | single owns => exact owns.descends
  | tail _ owns ih => exact owns.descends.trans ih

theorem chain_irrefl (k : κ) : ¬s.Chain k k := fun chain => lt_irrefl _ chain.descends

/-- What has one owner is not one above the other. -/
theorem siblings {a b k : κ} (first : s.Owns a k) (second : s.Owns b k) : ¬s.Chain a b := by
  intro chain
  obtain ⟨o,owns,above⟩ := Relation.TransGen.head'_iff.mp chain
  rw [s.owns_unique owns first] at above
  exact chain_irrefl b (Relation.TransGen.head' second above)

theorem not_chain_of_root {k o : κ} (free : s.owner k = none) : ¬s.Chain k o := by
  intro chain
  obtain ⟨_,owns,_⟩ := Relation.TransGen.head'_iff.mp chain
  cases free.symm.trans owns.2

/-- Everything hangs under something that has no owner. -/
theorem exists_root {k : κ} (member : k ∈ s.things) : ∃ root ∈ s.things,s.owner root = none ∧
    Relation.ReflTransGen s.Owns k root := by
  induction rank : s.rank k using Nat.strong_induction_on generalizing k with
  | _ n ih =>
    cases owned : s.owner k with
    | none => exact ⟨k,member,owned,.refl⟩
    | some o =>
      have owns : s.Owns k o := ⟨member,owned⟩
      obtain ⟨root,inside,free,above⟩ := ih (s.rank o) (rank ▸ owns.descends) owns.inside rfl
      exact ⟨root,inside,free,.head owns above⟩

abbrev Way (s : Ownership κ) (shut : κ → Bool) : κ → κ → Prop :=
  Relation.ReflTransGen fun c k => s.Owns c k ∧ shut k = false

theorem Way.chain {shut : κ → Bool} {c k : κ} (way : Way s shut c k) :
    Relation.ReflTransGen s.Owns c k :=
  Relation.ReflTransGen.mono (fun _ _ step => step.1) _ _ way

theorem Way.opened {shut : κ → Bool} {x root o : κ} (free : s.owner root = none)
    (way : Way s shut x root) (chain : s.Chain x o) : shut o = false := by
  induction way using Relation.ReflTransGen.head_induction_on with
  | refl => exact absurd chain (not_chain_of_root free)
  | head step _ ih =>
    obtain ⟨k,owns,above⟩ := Relation.TransGen.head'_iff.mp chain
    rw [s.owns_unique owns step.1] at above
    rcases Relation.reflTransGen_iff_eq_or_transGen.mp above with same | further
    · exact same ▸ step.2
    · exact ih further

theorem Way.of_opened {shut : κ → Bool} {x root : κ} (above : Relation.ReflTransGen s.Owns x root)
    (opened : ∀ o,s.Chain x o → shut o = false) : Way s shut x root := by
  induction above using Relation.ReflTransGen.head_induction_on with
  | refl => exact .refl
  | head owns _ ih =>
    exact .head ⟨owns,opened _ (.single owns)⟩ (ih fun o further => opened o (.head owns further))

/-- Nothing hangs under two things none of which hangs under the other one. -/
theorem apart {a b x : κ} (first : Relation.ReflTransGen s.Owns x a)
    (second : Relation.ReflTransGen s.Owns x b) : a = b ∨ s.Chain a b ∨ s.Chain b a := by
  rcases Relation.ReflTransGen.total_of_right_unique s.owns_unique first second with below | below
  · exact (Relation.reflTransGen_iff_eq_or_transGen.mp below).imp (fun same => same.symm) .inl
  · exact (Relation.reflTransGen_iff_eq_or_transGen.mp below).imp id .inr

variable [DecidableEq κ]

/-- The lists of what hangs under each thing and of what has no owner. -/
structure Listed (s : Ownership κ) (children : κ → List κ) (roots : List κ) : Prop where
  children_perm : ∀ k,(children k).Perm (s.things.filter fun c => s.owner c = some k)
  roots_perm : roots.Perm (s.things.filter fun c => s.owner c = none)

namespace Listed

variable {children : κ → List κ} {roots : List κ} (listed : s.Listed children roots)

include listed

theorem mem_children {c k : κ} : c ∈ children k ↔ s.Owns c k := by
  rw [(listed.children_perm k).mem_iff,List.mem_filter,decide_eq_true_eq]
  rfl

theorem mem_roots {k : κ} : k ∈ roots ↔ k ∈ s.things ∧ s.owner k = none := by
  rw [listed.roots_perm.mem_iff,List.mem_filter,decide_eq_true_eq]

theorem nodup_children (k : κ) : (children k).Nodup :=
  (listed.children_perm k).nodup_iff.mpr (s.distinct.filter _)

theorem nodup_roots : roots.Nodup := listed.roots_perm.nodup_iff.mpr (s.distinct.filter _)

variable {label : Nat → κ → α}

/-- With enough fuel the growing comes to an end. -/
theorem grow_eq {fuel : Nat} (depth : Nat) {k : κ} (enough : s.bound < fuel + s.rank k) :
    k ∈ s.things → grow children label fuel depth k = some (tree children label fuel depth k) := by
  induction fuel generalizing depth k with
  | zero =>
    intro member
    have := s.bounded k member
    omega
  | succ fuel ih =>
    intro member
    have below : ∀ c ∈ children k,grow children label fuel (depth + 1) c =
        some (tree children label fuel (depth + 1) c) := by
      intro c child
      have owns := listed.mem_children.mp child
      have higher := owns.descends
      exact ih (depth + 1) (by omega) owns.1
    rw [grow,mapM_some below]
    rfl

variable {key : α → κ}

/-- A walk from a thing comes to what hangs under it, unless something closed is between. -/
theorem mem_walk (keyed : ∀ depth k,key (label depth k) = k) (shut : κ → Bool) {fuel : Nat}
    (depth : Nat) {k x : κ} (enough : s.bound < fuel + s.rank k) (member : k ∈ s.things) :
    x ∈ (walk (fun row => shut (key row)) (tree children label fuel depth k)).map key ↔
      Way s shut x k := by
  induction fuel generalizing depth k with
  | zero =>
    have := s.bounded k member
    omega
  | succ fuel ih =>
    have below : ∀ c ∈ children k,
        (x ∈ (walk (fun row => shut (key row)) (tree children label fuel (depth + 1) c)).map key ↔
          Way s shut x c) := by
      intro c child
      have owns := listed.mem_children.mp child
      have higher := owns.descends
      exact ih (depth + 1) (by omega) owns.1
    rw [tree,walk,List.map_cons,List.mem_cons,keyed]
    constructor
    · rintro (rfl | under)
      · exact .refl
      · split at under
        · cases under
        · next opened =>
          rw [walkAll_map,List.map_flatMap,List.mem_flatMap] at under
          obtain ⟨c,child,there⟩ := under
          exact .tail ((below c child).mp there)
            ⟨listed.mem_children.mp child,Bool.eq_false_iff.mpr opened⟩
    · intro way
      rcases Relation.ReflTransGen.cases_tail way with rfl | ⟨c,rest,owns,opened⟩
      · exact .inl rfl
      · right
        have child := listed.mem_children.mpr owns
        rw [opened,if_neg Bool.false_ne_true,walkAll_map,List.map_flatMap,List.mem_flatMap]
        exact ⟨c,child,(below c child).mpr rest⟩

/-- A tree has everything once. -/
theorem nodup_rows (keyed : ∀ depth k,key (label depth k) = k) {fuel : Nat} (depth : Nat) {k : κ}
    (enough : s.bound < fuel + s.rank k) (member : k ∈ s.things) :
    ((walk (fun _ => false) (tree children label fuel depth k)).map key).Nodup := by
  induction fuel generalizing depth k with
  | zero =>
    have := s.bounded k member
    omega
  | succ fuel ih =>
    have deep : ∀ c ∈ children k,s.Owns c k ∧ s.bound < fuel + s.rank c := by
      intro c child
      have owns := listed.mem_children.mp child
      have higher := owns.descends
      exact ⟨owns,by omega⟩
    have under : ∀ c ∈ children k,∀ x,
        x ∈ (walk (fun _ => false) (tree children label fuel (depth + 1) c)).map key →
          Relation.ReflTransGen s.Owns x c := by
      intro c child x there
      exact ((listed.mem_walk keyed (fun _ => false) (depth + 1) (deep c child).2
        (deep c child).1.1).mp there).chain
    rw [tree,walk,if_neg Bool.false_ne_true,walkAll_map,List.map_cons,keyed,List.map_flatMap,
      List.nodup_cons,List.mem_flatMap,List.nodup_flatMap]
    refine ⟨?_,fun c child => ih (depth + 1) (deep c child).2 (deep c child).1.1,?_⟩
    · rintro ⟨c,child,there⟩
      have above := under c child k there
      exact chain_irrefl k (Relation.TransGen.tail' above (deep c child).1)
    · apply (listed.nodup_children k).pairwise_of_forall_ne
      intro a first b second differs x inA inB
      rcases apart (under a first x inA) (under b second x inB) with same | chain | chain
      · exact differs same
      · exact siblings (deep a first).1 (deep b second).1 chain
      · exact siblings (deep b second).1 (deep a first).1 chain

theorem grow_all (label : Nat → κ → α) {fuel : Nat} (enough : s.bound < fuel) :
    roots.mapM (grow children label fuel 0) = some (roots.map (tree children label fuel 0)) :=
  mapM_some fun k root => listed.grow_eq 0 (by omega) (listed.mem_roots.mp root).1

/-- The trees show all that has nothing closed above it. -/
theorem mem_walkAll (keyed : ∀ depth k,key (label depth k) = k) (shut : κ → Bool) {fuel : Nat}
    (enough : s.bound < fuel) {x : κ} :
    x ∈ (walkAll (fun row => shut (key row))
      (roots.map (tree children label fuel 0))).map key ↔
        x ∈ s.things ∧ ∀ o,s.Chain x o → shut o = false := by
  have each : ∀ root ∈ roots,
      (x ∈ (walk (fun row => shut (key row)) (tree children label fuel 0 root)).map key ↔
        Way s shut x root) := fun root member =>
    listed.mem_walk keyed shut 0 (by omega) (listed.mem_roots.mp member).1
  rw [walkAll_map,List.map_flatMap,List.mem_flatMap]
  constructor
  · rintro ⟨root,member,there⟩
    have way := (each root member).mp there
    have free := listed.mem_roots.mp member
    refine ⟨?_,fun o chain => way.opened free.2 chain⟩
    rcases Relation.ReflTransGen.cases_head way with rfl | ⟨_,step,_⟩
    · exact free.1
    · exact step.1.1
  · rintro ⟨member,opened⟩
    obtain ⟨root,inside,free,above⟩ := exists_root member
    have isRoot := listed.mem_roots.mpr ⟨inside,free⟩
    exact ⟨root,isRoot,(each root isRoot).mpr (Way.of_opened above opened)⟩

/-- The trees have everything once. -/
theorem perm_rows (keyed : ∀ depth k,key (label depth k) = k) {fuel : Nat}
    (enough : s.bound < fuel) :
    ((rows (roots.map (tree children label fuel 0))).map key).Perm s.things := by
  rw [List.perm_ext_iff_of_nodup ?_ s.distinct]
  · intro x
    rw [rows,listed.mem_walkAll keyed (fun _ => false) enough]
    simp
  · rw [rows,walkAll_map,List.map_flatMap,List.nodup_flatMap]
    refine ⟨fun root member => listed.nodup_rows keyed 0 (by omega) (listed.mem_roots.mp member).1,
      ?_⟩
    apply listed.nodup_roots.pairwise_of_forall_ne
    intro a first b second differs x inA inB
    have under : ∀ root ∈ roots,
        x ∈ (walk (fun _ => false) (tree children label fuel 0 root)).map key →
          Relation.ReflTransGen s.Owns x root := fun root member there =>
      ((listed.mem_walk keyed (fun _ => false) 0 (by omega)
        (listed.mem_roots.mp member).1).mp there).chain
    rcases apart (under a first inA) (under b second inB) with same | chain | chain
    · exact differs same
    · exact not_chain_of_root (listed.mem_roots.mp first).2 chain
    · exact not_chain_of_root (listed.mem_roots.mp second).2 chain

end Listed

end Ownership

end LocalBook.Forest
