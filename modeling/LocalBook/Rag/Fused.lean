import LocalBook.Rag.Fusing

/-! What a fusion ranks, for any lists with any weights: the ids by what all lists together add to
them, so that the order of the lists does not matter. -/
namespace LocalBook.Rag

namespace Fusion

variable {k : Nat} {fusion : Fusion}

/-- What the lists add to an id. -/
def total (k : Nat) (lists : List (List RetrievalResult × ℚ)) (id : Text) : ℚ :=
  (lists.map fun list => if list.2 ≤ 0 then 0 else points k list.2 (list.1.zipIdx 1) id).sum

theorem score_lists (lists : List (List RetrievalResult × ℚ)) (id : Text) :
    (lists.foldl (addList k) fusion).score id = fusion.score id + total k lists id := by
  induction lists generalizing fusion with
  | nil => simp [total]
  | cons list rest ih =>
    obtain ⟨list,weight⟩ := list
    rw [List.foldl_cons,ih,total,total,List.map_cons,List.sum_cons,← add_assoc]
    by_cases none_ : weight ≤ 0
    · rw [addList,if_pos none_,if_pos none_,add_zero]
    · rw [score_addList (not_le.mp none_),if_neg none_]

theorem mem_ids_lists (lists : List (List RetrievalResult × ℚ)) (id : Text) :
    id ∈ (lists.foldl (addList k) fusion).ids ↔ id ∈ fusion.ids ∨
      ∃ list ∈ lists,0 < list.2 ∧ id ∈ list.1.map RetrievalResult.chunkId := by
  induction lists generalizing fusion with
  | nil => simp
  | cons list rest ih =>
    obtain ⟨list,weight⟩ := list
    rw [List.foldl_cons,ih,List.exists_mem_cons_iff]
    by_cases none_ : weight ≤ 0
    · rw [addList,if_pos none_]
      simp [not_lt.mpr none_]
    · rw [mem_ids_addList (not_le.mp none_),or_assoc]
      simp [not_le.mp none_]

theorem keyed_lists (lists : List (List RetrievalResult × ℚ)) (keyed : fusion.Keyed) :
    (lists.foldl (addList k) fusion).Keyed := by
  induction lists generalizing fusion with
  | nil => exact keyed
  | cons list rest ih => exact ih (keyed_addList keyed)

end Fusion

section Ranked

variable {k : Nat} {lists lists' : List (List RetrievalResult × ℚ)} {ids ids' : List Text}

/-- Each id of a list that counts stands once, behind the ids that more is added to. -/
structure Fused (k : Nat) (lists : List (List RetrievalResult × ℚ)) (ids : List Text) : Prop where
  distinct : ids.Nodup
  found : ∀ id,id ∈ ids ↔ ∃ list ∈ lists,0 < list.2 ∧ id ∈ list.1.map RetrievalResult.chunkId
  ordered : ids.Pairwise fun a b =>
    Store.better (Fusion.total k lists a,a) (Fusion.total k lists b,b)

theorem fused (k : Nat) (lists : List (List RetrievalResult × ℚ)) :
    Fused k lists ((reciprocalRankFusion k lists).map RetrievalResult.chunkId) := by
  have keyed := Fusion.keyed_lists (k := k) lists QueryResult.keyed_empty
  have same := Fusion.ids_ranked keyed
  rw [reciprocalRankFusion,same]
  refine ⟨(List.perm_insertionSort _ _).nodup_iff.mpr keyed.distinct,fun id => ?_,?_⟩
  · rw [(List.perm_insertionSort _ _).mem_iff,Fusion.mem_ids_lists]
    simp [Fusion.ids]
  · refine (List.pairwise_insertionSort _ _).imp fun {a b} before => ?_
    rw [Fusion.ahead,Fusion.score_lists,Fusion.score_lists] at before
    simpa [Fusion.score] using before

theorem Fused.perm (here : Fused k lists ids) (perm : lists.Perm lists') : Fused k lists' ids := by
  have total (id : Text) : Fusion.total k lists id = Fusion.total k lists' id :=
    (perm.map _).sum_eq
  refine ⟨here.distinct,fun id => ?_,?_⟩
  · simp only [here.found,perm.mem_iff]
  · simpa only [total] using here.ordered

theorem Fused.unique (here : Fused k lists ids) (there : Fused k lists ids') : ids = ids' := by
  have perm : ids.Perm ids' := (List.perm_ext_iff_of_nodup here.distinct there.distinct).mpr
    fun id => (here.found id).trans (there.found id).symm
  refine perm.eq_of_pairwise (fun a b _ _ before after => ?_) here.ordered there.ordered
  rcases before with more | ⟨same,le⟩
  · rcases after with more' | ⟨same',-⟩
    · exact absurd more' (lt_asymm more)
    · exact absurd more (same' ▸ lt_irrefl _)
  · rcases after with more' | ⟨-,le'⟩
    · exact absurd more' (same ▸ lt_irrefl _)
    · exact le_antisymm le le'

end Ranked

end LocalBook.Rag
