import LocalBook.Rag.Fusing

/-! Reranking of the fused candidates. The reranker sees a shortlist and replies with rows of an
index and a score; the candidates it does not name follow behind the ones it does. -/
namespace LocalBook.Rag.Reranking

/-- A row of a reply, as `int` and `float` read it. -/
structure RerankItem where
  index : Option Int
  score : Option ℚ
deriving DecidableEq

structure Candidate where
  result : RetrievalResult
  rerankScore : Option ℚ := none
deriving DecidableEq

def Candidate.chunkId (candidate : Candidate) : Text := candidate.result.chunkId

/-- The reranker: what it makes of a shortlist, or nothing where it raises. -/
abbrev Reranker := List RetrievalResult → Nat → Option (List RerankItem)

def preferred (a b : RerankItem) : Prop :=
  b.score.getD 0 < a.score.getD 0 ∨
    (a.score.getD 0 = b.score.getD 0 ∧ a.index.getD 0 ≤ b.index.getD 0)

instance : DecidableRel preferred := fun _ _ => inferInstanceAs (Decidable (_ ∨ _))

/-- `parse_rerank_response`: the usable rows, the best first; nothing where it raises. -/
def parseRerankResponse (payload : List RerankItem) (documentCount : Nat) :
    Option (List RerankItem) :=
  let items := payload.filter fun row =>
    row.score.isSome && row.index.any fun index : Int => 0 ≤ index ∧ index < documentCount
  if items = [] then none else some (items.insertionSort preferred)

def usable (count : Nat) (row : RerankItem) : Option (Fin count) :=
  row.index.bind fun index =>
    if within : 0 ≤ index ∧ index.toNat < count then some ⟨index.toNat,within.2⟩ else none

def lastScore (count : Nat) (rows : List RerankItem) (index : Fin count) : Option ℚ :=
  (rows.reverse.find? fun row => usable count row = some index).bind RerankItem.score

def shortlist (rerankTopK : Nat) (candidates : List RetrievalResult) : List RetrievalResult :=
  candidates.take (max (rerankTopK * 2) rerankTopK)

def named (subset : List RetrievalResult) (rows : List RerankItem) : List (Fin subset.length) :=
  rows.filterMap (usable subset.length)

/-- `_rerank`. -/
def rerank (reranker : Reranker) (rerankTopK : Nat) (candidates : List RetrievalResult) :
    Option (List Candidate) :=
  let subset := shortlist rerankTopK candidates
  match reranker subset (min rerankTopK subset.length) with
  | none => none
  | some rows =>
    let reranked := (named subset rows).map fun index =>
      (⟨subset.get index,lastScore subset.length rows index⟩ : Candidate)
    if reranked = [] then none
    else
      let seen := reranked.map Candidate.chunkId
      some (reranked ++ (candidates.filter fun item => item.chunkId ∉ seen).map fun item => ⟨item,none⟩)

/-- The end of `search`, for the whole fused ranking. -/
def search (reranker : Option Reranker) (rerankTopK topK : Nat) (ranking : List RetrievalResult) :
    List Candidate :=
  match reranker with
  | none => (ranking.take topK).map fun item => ⟨item,none⟩
  | some reranker =>
    let fused := ranking.take (max topK rerankTopK)
    match if fused = [] then none else rerank reranker rerankTopK fused with
    | none => fused.map fun item => ⟨item,none⟩
    | some reranked => reranked.take topK

def Answered (reranker : Reranker) (rerankTopK topK : Nat) (ranking : List RetrievalResult) :
    Option (List Nat) :=
  let subset := shortlist rerankTopK (ranking.take (max topK rerankTopK))
  (reranker subset (min rerankTopK subset.length)).bind fun rows =>
    if named subset rows = [] then none else some ((named subset rows).map Fin.val)

/-- At most `top_k` results, each chunk once and all of them candidates; without an answer of the
reranker they are the first ones of the fused ranking. -/
structure Cut (reranker : Option Reranker) (rerankTopK topK : Nat)
    (ranking : List RetrievalResult) (results : List Candidate) : Prop where
  short : results.length ≤ topK
  once : (results.map Candidate.chunkId).Nodup
  known : ∀ candidate ∈ results,candidate.result ∈ ranking
  failed : (∀ asked ∈ reranker,Answered asked rerankTopK topK ranking = none) →
    results.map Candidate.result = ranking.take topK

section Cutting

variable {rerankTopK topK : Nat} {ranking candidates : List RetrievalResult} {reranker : Reranker}

theorem shortlist_sublist (rerankTopK : Nat) (candidates : List RetrievalResult) :
    (shortlist rerankTopK candidates).Sublist candidates := List.take_sublist _ _

theorem rerank_eq_none {fused : List RetrievalResult}
    (fused_ : fused = ranking.take (max topK rerankTopK)) :
    rerank reranker rerankTopK fused = none ↔ Answered reranker rerankTopK topK ranking = none := by
  subst fused_
  rw [rerank,Answered]
  dsimp only
  cases reranker _ _ with
  | none => simp
  | some rows => simp

theorem rerank_eq_some {reranked : List Candidate} (found : rerank reranker rerankTopK candidates =
    some reranked) : ∃ rows,
      reranker (shortlist rerankTopK candidates)
        (min rerankTopK (shortlist rerankTopK candidates).length) = some rows ∧
      named (shortlist rerankTopK candidates) rows ≠ [] ∧
      reranked.map Candidate.result =
        (named (shortlist rerankTopK candidates) rows).map (shortlist rerankTopK candidates).get ++
          candidates.filter fun item => item.chunkId ∉
            ((named (shortlist rerankTopK candidates) rows).map fun index =>
              ((shortlist rerankTopK candidates).get index).chunkId) := by
  rw [rerank] at found
  dsimp only at found
  split at found
  · cases found
  · next rows replied =>
    split at found
    · cases found
    · next some_ =>
      refine ⟨rows,replied,by simpa using some_,?_⟩
      obtain rfl := Option.some.inj found
      simp [Function.comp_def,Candidate.chunkId]

/-- The named documents and then the others, each once: as long as none is named twice. -/
theorem nodup_take_iff {subset : List RetrievalResult} (picks : List (Fin subset.length))
    (part : subset.Sublist candidates)
    (distinct : (candidates.map RetrievalResult.chunkId).Nodup) :
    (((picks.map subset.get ++ candidates.filter fun item =>
        item.chunkId ∉ (picks.map fun index => (subset.get index).chunkId)).take topK).map
          RetrievalResult.chunkId).Nodup ↔ (picks.take topK).Nodup := by
  have own : (subset.map RetrievalResult.chunkId).Nodup :=
    List.Sublist.nodup (part.map _) distinct
  have injective : Function.Injective fun index : Fin subset.length =>
      (subset.get index).chunkId := by
    intro i j same
    have there : (i.cast (by simp) : Fin (subset.map RetrievalResult.chunkId).length) =
        j.cast (by simp) := List.nodup_iff_injective_get.mp own (by simpa using same)
    simpa [Fin.ext_iff] using there
  rw [List.take_append,List.map_append,List.nodup_append']
  have front : ((picks.map subset.get).take topK).map RetrievalResult.chunkId =
      (picks.take topK).map fun index => (subset.get index).chunkId := by
    rw [← List.map_take,List.map_map]
    rfl
  rw [front,List.nodup_map_iff injective]
  constructor
  · exact fun parts => parts.1
  · intro once
    refine ⟨once,?_,?_⟩
    · apply List.Sublist.nodup _ distinct
      exact ((List.take_sublist _ _).trans List.filter_sublist).map _
    · intro id inFront inBack
      obtain ⟨index,picked,rfl⟩ := List.mem_map.mp inFront
      obtain ⟨item,member,same⟩ := List.mem_map.mp inBack
      have unseen := (List.mem_filter.mp (List.mem_of_mem_take member)).2
      rw [decide_eq_true_eq,same] at unseen
      exact unseen (List.mem_map.mpr ⟨index,List.mem_of_mem_take picked,rfl⟩)

theorem rerank_nil : rerank reranker rerankTopK [] = none := by
  have empty : named (shortlist rerankTopK []) = fun _ => [] := by
    funext rows
    rw [named,List.filterMap_eq_nil_iff]
    intro row _
    cases pick : usable (shortlist rerankTopK []).length row with
    | none => rfl
    | some index => exact absurd index.isLt (by simp [shortlist])
  rw [rerank]
  split <;> simp [empty]

/-- With a reranker, the answer is cut to `top_k`, and the pool stays as it is without one. -/
theorem search_some (fused : List RetrievalResult)
    (pool : fused = ranking.take (max topK rerankTopK)) :
    search (some reranker) rerankTopK topK ranking =
      match rerank reranker rerankTopK fused with
      | none => fused.map fun item => ⟨item,none⟩
      | some reranked => reranked.take topK := by
  subst pool
  by_cases empty : ranking.take (max topK rerankTopK) = []
  · simp only [search,empty,rerank_nil,if_true]
  · simp only [search,empty,if_false]

theorem untouched_ids (candidates : List RetrievalResult) :
    (candidates.map fun item => (⟨item,none⟩ : Candidate)).map Candidate.chunkId =
      candidates.map RetrievalResult.chunkId := by
  rw [List.map_map]
  rfl

theorem untouched_results (candidates : List RetrievalResult) :
    (candidates.map fun item => (⟨item,none⟩ : Candidate)).map Candidate.result = candidates := by
  rw [List.map_map]
  exact List.map_id _

/-- Candidates that are left as they are, are cut right exactly where there are no more than
`top_k`. -/
theorem cut_untouched {asked : Option Reranker} {count : Nat} (enough : topK ≤ count)
    (distinct : (ranking.map RetrievalResult.chunkId).Nodup) :
    Cut asked rerankTopK topK ranking ((ranking.take count).map fun item => ⟨item,none⟩) ↔
      count ≤ topK ∨ ranking.length ≤ topK := by
  constructor
  · intro cut
    have short := cut.short
    rw [List.length_map,List.length_take] at short
    omega
  · intro few
    have same : ranking.take count = ranking.take topK := by
      rcases few with few | few
      · rw [Nat.le_antisymm few enough]
      · rw [List.take_of_length_le few,List.take_of_length_le (few.trans enough)]
    rw [same]
    constructor
    · rw [List.length_map]
      exact List.length_take_le _ _
    · rw [untouched_ids]
      exact List.Sublist.nodup ((List.take_sublist _ _).map _) distinct
    · intro candidate member
      obtain ⟨item,taken,rfl⟩ := List.mem_map.mp member
      exact List.mem_of_mem_take taken
    · intro _
      exact untouched_results _

/-- An answer is cut right exactly where its first `top_k` indexes differ. -/
theorem cut_answered {fused : List RetrievalResult} {reranked : List Candidate}
    (pool : fused = ranking.take (max topK rerankTopK))
    (distinct : (ranking.map RetrievalResult.chunkId).Nodup)
    (found : rerank reranker rerankTopK fused = some reranked) :
    ∃ indexes,Answered reranker rerankTopK topK ranking = some indexes ∧
      (Cut (some reranker) rerankTopK topK ranking (reranked.take topK) ↔
        (indexes.take topK).Nodup) := by
  obtain ⟨rows,replied,names,results⟩ := rerank_eq_some found
  have answered : Answered reranker rerankTopK topK ranking =
      some ((named (shortlist rerankTopK fused) rows).map Fin.val) := by
    rw [Answered,← pool,replied,Option.bind_some,if_neg names]
  have within : fused.Sublist ranking := pool ▸ List.take_sublist _ _
  have ids : ((reranked.take topK).map Candidate.chunkId) =
      ((reranked.map Candidate.result).take topK).map RetrievalResult.chunkId := by
    rw [← List.map_take,List.map_map]
    rfl
  have once := @nodup_take_iff topK _ _ (named (shortlist rerankTopK fused) rows)
    (shortlist_sublist rerankTopK fused) (List.Sublist.nodup (within.map _) distinct)
  rw [← results,← ids] at once
  refine ⟨_,answered,?_⟩
  rw [← List.map_take,List.nodup_map_iff Fin.val_injective,← once]
  constructor
  · exact fun cut => cut.once
  · intro nodup
    constructor
    · exact List.length_take_le _ _
    · exact nodup
    · intro candidate member
      apply within.subset
      have listed := List.mem_map_of_mem (f := Candidate.result) (List.mem_of_mem_take member)
      rw [results,List.mem_append] at listed
      rcases listed with front | back
      · obtain ⟨index,_,same⟩ := List.mem_map.mp front
        rw [← same]
        exact (shortlist_sublist rerankTopK fused).subset (List.get_mem _ _)
      · exact (List.mem_filter.mp back).1
    · intro failed
      have unanswered := failed reranker rfl
      rw [answered] at unanswered
      cases unanswered

/-- The cut is right if and only if either the reranker answers and names no document twice among
its first `top_k` rows that count, or it does not answer and the widened pool is no longer than
`top_k`. -/
theorem search_cut_iff (reranker : Option Reranker) (rerankTopK topK : Nat)
    (ranking : List RetrievalResult) (distinct : (ranking.map RetrievalResult.chunkId).Nodup) :
    Cut reranker rerankTopK topK ranking (search reranker rerankTopK topK ranking) ↔
      ∀ asked ∈ reranker,match Answered asked rerankTopK topK ranking with
        | none => rerankTopK ≤ topK ∨ ranking.length ≤ topK
        | some indexes => (indexes.take topK).Nodup := by
  cases reranker with
  | none =>
    have cut := (@cut_untouched rerankTopK topK ranking none topK le_rfl distinct).mpr
      (.inl (le_refl topK))
    simpa [search] using cut
  | some asked =>
    have pool : ranking.take (max topK rerankTopK) = ranking.take (max topK rerankTopK) := rfl
    rw [search_some _ pool]
    cases found : rerank asked rerankTopK (ranking.take (max topK rerankTopK)) with
    | none =>
      have unanswered := (rerank_eq_none pool).mp found
      have cut := @cut_untouched rerankTopK topK ranking (some asked) _
        (le_max_left topK rerankTopK) distinct
      simp only [Option.mem_def,Option.some.injEq,forall_eq',unanswered]
      rw [cut]
      omega
    | some reranked =>
      obtain ⟨indexes,answered,cut⟩ := cut_answered pool distinct found
      simp only [Option.mem_def,Option.some.injEq,forall_eq',answered]
      exact cut

/-- A shortlist of two whose first document is named twice. -/
theorem search_cut_iff_two :
    ([⟨['a'],['a'],some 1,none,none⟩,⟨['b'],['b'],some 2,none,none⟩].map
      RetrievalResult.chunkId).Nodup ∧
    (Cut (some fun subset _ => parseRerankResponse [⟨some 1,some 1⟩] subset.length) 1 2
      [⟨['a'],['a'],some 1,none,none⟩,⟨['b'],['b'],some 2,none,none⟩]
      (search (some fun subset _ => parseRerankResponse [⟨some 1,some 1⟩] subset.length) 1 2
        [⟨['a'],['a'],some 1,none,none⟩,⟨['b'],['b'],some 2,none,none⟩]) ↔
      ∀ asked ∈ some fun (subset : List RetrievalResult) (_ : Nat) =>
          parseRerankResponse [⟨some 1,some 1⟩] subset.length,
        match Answered asked 1 2
          [⟨['a'],['a'],some 1,none,none⟩,⟨['b'],['b'],some 2,none,none⟩] with
        | none => 1 ≤ 2 ∨ 2 ≤ 2
        | some indexes => (indexes.take 2).Nodup) :=
  ⟨by decide,search_cut_iff _ 1 2 _ (by decide)⟩

/-- A provider that names a document twice has its chunk returned twice. -/
theorem not_cut : ¬ ∀ (reranker : Option Reranker) (rerankTopK topK : Nat)
    (ranking : List RetrievalResult), (ranking.map RetrievalResult.chunkId).Nodup →
      Cut reranker rerankTopK topK ranking (search reranker rerankTopK topK ranking) := by
  intro always
  have repeated := (always
    (some fun subset _ => parseRerankResponse [⟨some 0,some 1⟩,⟨some 0,some 1⟩] subset.length)
    2 2 [⟨['a'],['a'],some 1,none,none⟩,⟨['b'],['b'],some 2,none,none⟩] (by decide)).once
  revert repeated
  decide +kernel

end Cutting

end LocalBook.Rag.Reranking
