import LocalBook.Dict
import LocalBook.Rag.Search

/-! Reciprocal rank fusion of the keyword, the vector and the link results. The link results
are additive: only those of documents that the direct paths missed are fused. -/
namespace LocalBook.Rag

structure RetrievalResult where
  chunkId : Text
  path : Text
  keywordRank : Option Nat := none
  vectorRank : Option Nat := none
  linkRank : Option Nat := none
deriving DecidableEq

structure RagSettings where
  ftsTopK : Nat := 30
  vectorTopK : Nat := 30
  linkTopK : Nat := 20
  rrfK : Nat := 60
  ftsBounds : 1 ≤ ftsTopK ∧ ftsTopK ≤ 200
  vectorBounds : 1 ≤ vectorTopK ∧ vectorTopK ≤ 200
  linkBounds : 1 ≤ linkTopK ∧ linkTopK ≤ 200
  rrfBounds : 1 ≤ rrfK ∧ rrfK ≤ 1000

def truthyRank (rank : Option Nat) : Option Nat := rank.filter (· ≠ 0)

theorem truthyRank_some {rank : Nat} (some_ : rank ≠ 0) :
    truthyRank (some rank) = some rank := by
  simp [truthyRank,Option.filter,some_]

@[simp] theorem truthyRank_none : truthyRank none = none := rfl

/-- `effective_rank`. -/
def effectiveRank (item : RetrievalResult) (position : Nat) : Nat :=
  (((truthyRank item.keywordRank).or (truthyRank item.vectorRank)).or
    (truthyRank item.linkRank)).getD position

structure Fusion where
  merged : Dict Text RetrievalResult := []
  scores : Dict Text ℚ := []

namespace Fusion

def score (fusion : Fusion) (chunkId : Text) : ℚ := (fusion.scores.find chunkId).getD 0

/-- What one result adds. The first occurrence is kept, with the ranks of the others. -/
def add (k : Nat) (weight : ℚ) (fusion : Fusion) (entry : RetrievalResult × Nat) : Fusion :=
  let item := entry.1
  let effective := effectiveRank item entry.2
  let scores := fusion.scores.set item.chunkId
    (fusion.score item.chunkId + weight * (1 / ((k : ℚ) + effective)))
  match fusion.merged.find item.chunkId with
  | none => {merged := fusion.merged.set item.chunkId item,scores}
  | some existing =>
    {merged := fusion.merged.set item.chunkId
      {existing with
        keywordRank := existing.keywordRank.or item.keywordRank
        vectorRank := existing.vectorRank.or item.vectorRank
        linkRank := existing.linkRank.or item.linkRank}
     scores}

def addList (k : Nat) (fusion : Fusion) (list : List RetrievalResult × ℚ) : Fusion :=
  if list.2 ≤ 0 then fusion else (list.1.zipIdx 1).foldl (add k list.2) fusion

/-- The better score first, and then the smaller id. -/
def before (fusion : Fusion) (a b : RetrievalResult) : Prop :=
  Store.better (fusion.score a.chunkId,a.chunkId) (fusion.score b.chunkId,b.chunkId)

instance (fusion : Fusion) : DecidableRel fusion.before := fun _ _ =>
  inferInstanceAs (Decidable (Store.better _ _))

end Fusion

/-- `reciprocal_rank_fusion`, of lists with their weights. -/
def reciprocalRankFusion (k : Nat) (lists : List (List RetrievalResult × ℚ)) :
    List RetrievalResult :=
  let fusion := lists.foldl (Fusion.addList k) {}
  (fusion.merged.map Prod.snd).insertionSort fusion.before

/-- `_new_link_candidates`. -/
def newLinkCandidates (link keyword vector : List RetrievalResult) : List RetrievalResult :=
  let covered := keyword.map RetrievalResult.path ++ vector.map RetrievalResult.path
  ((link.filter fun item => item.path ∉ covered).zipIdx 1).map fun entry =>
    {entry.1 with linkRank := some entry.2}

def defaultLinkRrfWeight : ℚ := 1 / 2

def RanksWithin (limit : Nat) (ranks : List Nat) : Prop :=
  ranks.Pairwise (· < ·) ∧ ∀ rank ∈ ranks, 1 ≤ rank ∧ rank ≤ limit

/-- What the three retrievers return for a query. A chunk is of one document. -/
structure QueryResult (settings : RagSettings) where
  keyword : List RetrievalResult
  vector : List RetrievalResult
  link : List RetrievalResult
  keywordRanks : ∃ ranks, RanksWithin settings.ftsTopK ranks ∧
    keyword.map (fun item => (item.keywordRank,item.vectorRank,item.linkRank)) =
      ranks.map fun rank => (some rank,none,none)
  vectorRanks : ∃ ranks, RanksWithin settings.vectorTopK ranks ∧
    vector.map (fun item => (item.keywordRank,item.vectorRank,item.linkRank)) =
      ranks.map fun rank => (none,some rank,none)
  linkRanks : link.map (fun item => (item.keywordRank,item.vectorRank,item.linkRank)) =
    (List.range' 1 link.length).map fun rank => (none,none,some rank)
  linkLimit : link.length ≤ settings.linkTopK
  distinct : (keyword.map RetrievalResult.chunkId).Nodup ∧
    (vector.map RetrievalResult.chunkId).Nodup ∧ (link.map RetrievalResult.path).Nodup
  placed : ∀ a ∈ keyword ++ vector ++ link, ∀ b ∈ keyword ++ vector ++ link,
    a.chunkId = b.chunkId → a.path = b.path

namespace QueryResult

variable {settings : RagSettings} (result : QueryResult settings)

def direct : List RetrievalResult :=
  reciprocalRankFusion settings.rrfK [(result.keyword,1),(result.vector,1)]

/-- The ranking of `search`, with them. -/
def expanded : List RetrievalResult :=
  reciprocalRankFusion settings.rrfK [(result.keyword,1),(result.vector,1),
    (newLinkCandidates result.link result.keyword result.vector,defaultLinkRrfWeight)]

def IsDirect (chunkId : Text) : Prop := chunkId ∈ result.direct.map RetrievalResult.chunkId

instance (chunkId : Text) : Decidable (result.IsDirect chunkId) :=
  inferInstanceAs (Decidable (_ ∈ _))

/-- The link results leave the order of the direct candidates as it was, come after all of
them, and push none out of the first results. -/
structure Undisturbed (topK : Int) : Prop where
  order : ((result.expanded.map RetrievalResult.chunkId).filter fun id => result.IsDirect id) =
    result.direct.map RetrievalResult.chunkId
  first : (result.expanded.map RetrievalResult.chunkId).Pairwise fun a b =>
    result.IsDirect b → result.IsDirect a
  kept : ∀ id ∈ (result.direct.take topK.toNat).map RetrievalResult.chunkId,
    id ∈ (result.expanded.take topK.toNat).map RetrievalResult.chunkId

end QueryResult

section Order

variable {α β : Type}

/-- Two parts of a list of which one goes ahead of the other are sorted apart. -/
theorem insertionSort_append {r : α → α → Prop} [DecidableRel r] [Std.Total r] [IsTrans α r]
    [Std.Antisymm r] {l first second : List α} (perm : l.Perm (first ++ second))
    (ahead : ∀ a ∈ first, ∀ b ∈ second, r a b) :
    l.insertionSort r = first.insertionSort r ++ second.insertionSort r := by
  refine List.Perm.eq_of_pairwise' (List.pairwise_insertionSort r l) ?_
    ((List.perm_insertionSort r l).trans (perm.trans
      ((List.perm_insertionSort r first).append (List.perm_insertionSort r second)).symm))
  refine List.pairwise_append.mpr ⟨List.pairwise_insertionSort r first,
    List.pairwise_insertionSort r second,fun a left b right => ?_⟩
  exact ahead a ((List.mem_insertionSort r).mp left) b ((List.mem_insertionSort r).mp right)

theorem mem_names_iff [DecidableEq β] (d : Dict β α) (key : β) :
    key ∈ d.map Prod.fst ↔ d.find key ≠ none := by
  constructor
  · intro listed absent
    obtain ⟨entry,member,same⟩ := List.mem_map.mp listed
    have unequal := List.lookup_eq_none_iff.mp absent entry member
    simp [same] at unequal
  · intro found
    by_contra absent
    exact found (Dict.find_absent absent)

end Order

namespace Fusion

def ahead (fusion : Fusion) (a b : Text) : Prop :=
  Store.better (fusion.score a,a) (fusion.score b,b)

instance (fusion : Fusion) : DecidableRel fusion.ahead := fun _ _ =>
  inferInstanceAs (Decidable (Store.better _ _))

variable (fusion : Fusion)

instance : Std.Total fusion.ahead where
  total a b := by
    unfold ahead Store.better
    rcases lt_trichotomy (fusion.score a) (fusion.score b) with less | same | more
    · exact .inr (.inl less)
    · rcases le_total a b with le | le
      · exact .inl (.inr ⟨same,le⟩)
      · exact .inr (.inr ⟨same.symm,le⟩)
    · exact .inl (.inl more)

instance : IsTrans Text fusion.ahead where
  trans a b c := by
    unfold ahead Store.better
    rintro (more | ⟨same,le⟩) (more' | ⟨same',le'⟩)
    · exact .inl (more'.trans more)
    · exact .inl (same' ▸ more)
    · exact .inl (same ▸ more')
    · exact .inr ⟨same.trans same',le.trans le'⟩

instance : Std.Antisymm fusion.ahead where
  antisymm a b := by
    unfold ahead Store.better
    rintro (more | ⟨same,le⟩) (more' | ⟨same',le'⟩)
    · exact absurd more' (lt_asymm more)
    · exact absurd more (same' ▸ lt_irrefl _)
    · exact absurd more' (same ▸ lt_irrefl _)
    · exact le_antisymm le le'

def points (k : Nat) (weight : ℚ) (entries : List (RetrievalResult × Nat)) (id : Text) : ℚ :=
  (entries.map fun entry =>
    if entry.1.chunkId = id then weight * (1 / ((k : ℚ) + effectiveRank entry.1 entry.2))
    else 0).sum

structure Keyed (fusion : Fusion) : Prop where
  named : ∀ entry ∈ fusion.merged, entry.2.chunkId = entry.1
  distinct : (fusion.merged.map Prod.fst).Nodup

def ids : List Text := fusion.merged.map Prod.fst

variable {fusion} {k : Nat} {weight : ℚ} {entry : RetrievalResult × Nat} {id : Text}

theorem score_add : (fusion.add k weight entry).score id = fusion.score id +
    if entry.1.chunkId = id then weight * (1 / ((k : ℚ) + effectiveRank entry.1 entry.2))
    else 0 := by
  have scores : (fusion.add k weight entry).scores = fusion.scores.set entry.1.chunkId
      (fusion.score entry.1.chunkId +
        weight * (1 / ((k : ℚ) + effectiveRank entry.1 entry.2))) := by
    unfold add
    dsimp only
    split <;> rfl
  rw [score,scores,Dict.find_set]
  by_cases same : entry.1.chunkId = id
  · rw [if_pos same.symm,if_pos same,same,Option.getD_some]
  · rw [if_neg (Ne.symm same),if_neg same,add_zero,score]

theorem score_foldl (entries : List (RetrievalResult × Nat)) (fusion : Fusion) :
    (entries.foldl (add k weight) fusion).score id =
      fusion.score id + points k weight entries id := by
  induction entries generalizing fusion with
  | nil => simp [points]
  | cons entry rest ih =>
    rw [List.foldl_cons,ih,score_add,points,points,List.map_cons,List.sum_cons,add_assoc]

theorem keyed_add (keyed : fusion.Keyed) : (fusion.add k weight entry).Keyed := by
  unfold add
  dsimp only
  split
  · refine ⟨fun other listed => ?_,Dict.nodup_names_set keyed.distinct _ _⟩
    rcases Dict.mem_set listed with rfl | old
    · rfl
    · exact keyed.named other old
  · rename_i existing found
    refine ⟨fun other listed => ?_,Dict.nodup_names_set keyed.distinct _ _⟩
    rcases Dict.mem_set listed with rfl | old
    · have own : existing.chunkId = entry.1.chunkId := keyed.named _ (Dict.mem_of_find found)
      exact own
    · exact keyed.named other old

theorem mem_ids_iff (fusion : Fusion) : id ∈ fusion.ids ↔ fusion.merged.find id ≠ none :=
  mem_names_iff fusion.merged id

theorem mem_ids_add : id ∈ (fusion.add k weight entry).ids ↔
    id = entry.1.chunkId ∨ id ∈ fusion.ids := by
  rw [mem_ids_iff,mem_ids_iff]
  unfold add
  dsimp only
  split <;> rw [Dict.find_set] <;> split <;> simp_all

theorem mem_ids_foldl (entries : List (RetrievalResult × Nat)) (fusion : Fusion) :
    id ∈ (entries.foldl (add k weight) fusion).ids ↔
      id ∈ fusion.ids ∨ ∃ entry ∈ entries, entry.1.chunkId = id := by
  induction entries generalizing fusion with
  | nil => simp
  | cons entry rest ih =>
    rw [List.foldl_cons,ih,mem_ids_add]
    constructor
    · rintro ((rfl | old) | ⟨other,listed,same⟩)
      · exact .inr ⟨entry,List.mem_cons_self,rfl⟩
      · exact .inl old
      · exact .inr ⟨other,List.mem_cons_of_mem _ listed,same⟩
    · rintro (old | ⟨other,listed,same⟩)
      · exact .inl (.inr old)
      · rcases List.mem_cons.mp listed with rfl | later
        · exact .inl (.inl same.symm)
        · exact .inr ⟨other,later,same⟩

theorem keyed_foldl (entries : List (RetrievalResult × Nat)) (keyed : fusion.Keyed) :
    (entries.foldl (add k weight) fusion).Keyed := by
  induction entries generalizing fusion with
  | nil => exact keyed
  | cons entry rest ih => exact ih (keyed_add keyed)

/-- The ids of a list of results. -/
theorem mem_zipIdx_id {list : List RetrievalResult} :
    (∃ entry ∈ list.zipIdx 1, entry.1.chunkId = id) ↔
      id ∈ list.map RetrievalResult.chunkId := by
  rw [List.mem_map]
  constructor
  · rintro ⟨entry,listed,same⟩
    exact ⟨entry.1,List.fst_mem_of_mem_zipIdx listed,same⟩
  · rintro ⟨item,listed,same⟩
    obtain ⟨i,bound,rfl⟩ := List.getElem_of_mem listed
    exact ⟨(list[i],1 + i),List.mk_mem_zipIdx_iff_le_and_getElem?_sub.mpr (by simp),same⟩

theorem mem_ids_addList {list : List RetrievalResult} (positive : 0 < weight) :
    id ∈ (fusion.addList k (list,weight)).ids ↔
      id ∈ fusion.ids ∨ id ∈ list.map RetrievalResult.chunkId := by
  rw [addList,if_neg (not_le.mpr positive),mem_ids_foldl,mem_zipIdx_id]

theorem score_addList {list : List RetrievalResult} (positive : 0 < weight) :
    (fusion.addList k (list,weight)).score id =
      fusion.score id + points k weight (list.zipIdx 1) id := by
  rw [addList,if_neg (not_le.mpr positive),score_foldl]

theorem keyed_addList {list : List RetrievalResult × ℚ} (keyed : fusion.Keyed) :
    (fusion.addList k list).Keyed := by
  unfold addList
  split
  · exact keyed
  · exact keyed_foldl _ keyed

theorem ids_ranked (keyed : fusion.Keyed) :
    ((fusion.merged.map Prod.snd).insertionSort fusion.before).map RetrievalResult.chunkId =
      fusion.ids.insertionSort fusion.ahead := by
  rw [List.map_insertionSort fusion.before fusion.ahead]
  · rw [List.map_map,ids]
    congr 1
    exact List.map_congr_left keyed.named
  · exact fun a _ b _ => Iff.rfl

theorem points_nonneg (entries : List (RetrievalResult × Nat)) (positive : 0 ≤ weight) :
    0 ≤ points k weight entries id := by
  refine List.sum_nonneg fun x listed => ?_
  obtain ⟨entry,-,rfl⟩ := List.mem_map.mp listed
  split
  · positivity
  · exact le_rfl

/-- An entry adds what its rank is worth, or more is added. -/
theorem le_points {entries : List (RetrievalResult × Nat)} (positive : 0 ≤ weight)
    (listed : entry ∈ entries) :
    weight * (1 / ((k : ℚ) + effectiveRank entry.1 entry.2)) ≤
      points k weight entries entry.1.chunkId := by
  refine List.single_le_sum (fun x found => ?_) _
    (List.mem_map.mpr ⟨entry,listed,if_pos rfl⟩)
  obtain ⟨other,-,rfl⟩ := List.mem_map.mp found
  split
  · positivity
  · exact le_rfl

theorem points_absent {entries : List (RetrievalResult × Nat)}
    (absent : ∀ entry ∈ entries, entry.1.chunkId ≠ id) : points k weight entries id = 0 := by
  refine List.sum_eq_zero fun x listed => ?_
  obtain ⟨entry,member,rfl⟩ := List.mem_map.mp listed
  exact if_neg (absent entry member)

/-- Where every chunk is listed once, it gets what its own rank is worth. -/
theorem points_once {entries : List (RetrievalResult × Nat)}
    (distinct : (entries.map fun entry => entry.1.chunkId).Nodup) (listed : entry ∈ entries) :
    points k weight entries entry.1.chunkId =
      weight * (1 / ((k : ℚ) + effectiveRank entry.1 entry.2)) := by
  induction entries with
  | nil => cases listed
  | cons head rest ih =>
    obtain ⟨fresh,others⟩ := List.nodup_cons.mp distinct
    rw [points,List.map_cons,List.sum_cons,← points]
    rcases List.mem_cons.mp listed with rfl | later
    · rw [if_pos rfl,points_absent fun other member same => fresh
        (List.mem_map.mpr ⟨other,member,same⟩),add_zero]
    · rw [if_neg fun same => fresh (List.mem_map.mpr ⟨entry,later,same.symm⟩),zero_add,
        ih others later]

end Fusion

namespace QueryResult

section Ranking

variable {settings : RagSettings} (result : QueryResult settings)

def directFusion : Fusion :=
  [(result.keyword,1),(result.vector,1)].foldl (Fusion.addList settings.rrfK) {}

def candidates : List RetrievalResult :=
  newLinkCandidates result.link result.keyword result.vector

def expandedFusion : Fusion :=
  result.directFusion.addList settings.rrfK (result.candidates,defaultLinkRrfWeight)

theorem keyed_empty : Fusion.Keyed {} :=
  ⟨fun _ listed => absurd listed List.not_mem_nil,List.nodup_nil⟩

theorem keyed_directFusion : result.directFusion.Keyed := by
  rw [directFusion,List.foldl_cons,List.foldl_cons,List.foldl_nil]
  exact Fusion.keyed_addList (Fusion.keyed_addList keyed_empty)

theorem keyed_expandedFusion : result.expandedFusion.Keyed :=
  Fusion.keyed_addList result.keyed_directFusion

theorem ids_direct : result.direct.map RetrievalResult.chunkId =
    result.directFusion.ids.insertionSort result.directFusion.ahead :=
  Fusion.ids_ranked result.keyed_directFusion

theorem ids_expanded : result.expanded.map RetrievalResult.chunkId =
    result.expandedFusion.ids.insertionSort result.expandedFusion.ahead :=
  Fusion.ids_ranked result.keyed_expandedFusion

theorem isDirect_iff {id : Text} : result.IsDirect id ↔
    id ∈ result.keyword.map RetrievalResult.chunkId ∨
      id ∈ result.vector.map RetrievalResult.chunkId := by
  rw [IsDirect,ids_direct,List.mem_insertionSort,directFusion,List.foldl_cons,List.foldl_cons,
    List.foldl_nil,Fusion.mem_ids_addList one_pos,Fusion.mem_ids_addList one_pos]
  simp [Fusion.ids]

theorem isDirect_iff_mem {id : Text} : result.IsDirect id ↔ id ∈ result.directFusion.ids := by
  rw [IsDirect,ids_direct,List.mem_insertionSort]

theorem score_direct (id : Text) : result.directFusion.score id =
    Fusion.points settings.rrfK 1 (result.keyword.zipIdx 1) id +
      Fusion.points settings.rrfK 1 (result.vector.zipIdx 1) id := by
  rw [directFusion,List.foldl_cons,List.foldl_cons,List.foldl_nil,Fusion.score_addList one_pos,
    Fusion.score_addList one_pos]
  simp [Fusion.score]

theorem score_expanded (id : Text) : result.expandedFusion.score id =
    result.directFusion.score id +
      Fusion.points settings.rrfK defaultLinkRrfWeight (result.candidates.zipIdx 1) id :=
  Fusion.score_addList (by norm_num [defaultLinkRrfWeight])

/-- A candidate is a link result of a document that the direct paths missed. -/
theorem mem_candidates {item : RetrievalResult} (listed : item ∈ result.candidates) :
    ∃ origin ∈ result.link, origin.chunkId = item.chunkId ∧ origin.path = item.path ∧
      origin.keywordRank = item.keywordRank ∧ origin.vectorRank = item.vectorRank ∧
        item.path ∉ result.keyword.map RetrievalResult.path ++
          result.vector.map RetrievalResult.path := by
  obtain ⟨entry,member,rfl⟩ := List.mem_map.mp listed
  obtain ⟨kept,missed⟩ := List.mem_filter.mp (List.fst_mem_of_mem_zipIdx member)
  exact ⟨entry.1,kept,rfl,rfl,rfl,rfl,by simpa using missed⟩

theorem candidate_not_direct {item : RetrievalResult} (listed : item ∈ result.candidates) :
    ¬ result.IsDirect item.chunkId := by
  obtain ⟨origin,linked,chunk,place,-,-,missed⟩ := result.mem_candidates listed
  rw [isDirect_iff]
  rintro (found | found) <;> obtain ⟨other,member,same⟩ := List.mem_map.mp found
  · have placed := result.placed other (by simp [member]) origin (by simp [linked])
      (same.trans chunk.symm)
    exact missed (List.mem_append_left _ (List.mem_map.mpr ⟨other,member,placed.trans place⟩))
  · have placed := result.placed other (by simp [member]) origin (by simp [linked])
      (same.trans chunk.symm)
    exact missed (List.mem_append_right _ (List.mem_map.mpr ⟨other,member,placed.trans place⟩))

theorem paths_candidates : result.candidates.map RetrievalResult.path =
    (result.link.filter fun item => item.path ∉ result.keyword.map RetrievalResult.path ++
      result.vector.map RetrievalResult.path).map RetrievalResult.path := by
  rw [candidates,newLinkCandidates,List.map_map]
  dsimp only
  conv_rhs => rw [← List.zipIdx_map_fst 1 (List.filter _ result.link),List.map_map]
  rfl

theorem nodup_candidates : (result.candidates.map RetrievalResult.chunkId).Nodup := by
  have paths : (result.candidates.map RetrievalResult.path).Nodup := by
    rw [paths_candidates]
    exact result.distinct.2.2.sublist (List.filter_sublist.map _)
  refine List.Nodup.map_on (fun a first b second same => ?_) paths.of_map
  obtain ⟨origin,linked,chunk,place,-⟩ := result.mem_candidates first
  obtain ⟨origin',linked',chunk',place',-⟩ := result.mem_candidates second
  have equal := result.placed origin (by simp [linked]) origin' (by simp [linked'])
    (chunk.trans (same.trans chunk'.symm))
  exact List.inj_on_of_nodup_map paths first second (place.symm.trans (equal.trans place'))

theorem ids_perm : result.expandedFusion.ids.Perm
    (result.directFusion.ids ++ result.candidates.map RetrievalResult.chunkId) := by
  have apart : (result.directFusion.ids ++
      result.candidates.map RetrievalResult.chunkId).Nodup := by
    refine List.nodup_append.mpr ⟨result.keyed_directFusion.distinct,result.nodup_candidates,
      fun id direct other candidate same => ?_⟩
    obtain ⟨item,listed,rfl⟩ := List.mem_map.mp candidate
    exact result.candidate_not_direct listed (result.isDirect_iff_mem.mpr (same ▸ direct))
  refine (List.perm_ext_iff_of_nodup result.keyed_expandedFusion.distinct apart).mpr fun id => ?_
  rw [List.mem_append]
  exact Fusion.mem_ids_addList (by norm_num [defaultLinkRrfWeight])

/-- The score of a direct candidate does not change. -/
theorem score_expanded_direct {id : Text} (direct : result.IsDirect id) :
    result.expandedFusion.score id = result.directFusion.score id := by
  rw [score_expanded,Fusion.points_absent,add_zero]
  intro entry listed same
  exact result.candidate_not_direct (List.fst_mem_of_mem_zipIdx listed) (same ▸ direct)

/-- A candidate has the rank of its place in the list. -/
theorem effectiveRank_candidate {entry : RetrievalResult × Nat}
    (listed : entry ∈ result.candidates.zipIdx 1) :
    effectiveRank entry.1 entry.2 = entry.2 ∧ 1 ≤ entry.2 := by
  obtain ⟨low,found⟩ := List.mk_mem_zipIdx_iff_le_and_getElem?_sub.mp listed
  have member : entry.1 ∈ result.candidates := List.fst_mem_of_mem_zipIdx listed
  obtain ⟨origin,linked,-,-,keyword,vector,-⟩ := result.mem_candidates member
  have ranks := List.mem_map_of_mem linked
    (f := fun item => (item.keywordRank,item.vectorRank,item.linkRank))
  rw [result.linkRanks] at ranks
  obtain ⟨rank,-,same⟩ := List.mem_map.mp ranks
  simp only [Prod.mk.injEq] at same
  have numbered : entry.1.linkRank = some entry.2 := by
    rw [candidates,newLinkCandidates,List.getElem?_map,List.getElem?_zipIdx] at found
    simp only [Option.map_map,Option.map_eq_some_iff,Function.comp_apply] at found
    obtain ⟨item,-,equal⟩ := found
    rw [← equal]
    simp only [Option.some.injEq]
    omega
  have some_ : entry.2 ≠ 0 := by omega
  refine ⟨?_,low⟩
  rw [effectiveRank,← keyword,← vector,← same.1,← same.2.1,numbered,truthyRank_some some_]
  rfl

/-- The score of a candidate is at most that of the first rank. -/
theorem score_expanded_candidate {entry : RetrievalResult × Nat}
    (listed : entry ∈ result.candidates.zipIdx 1) :
    result.expandedFusion.score entry.1.chunkId =
      defaultLinkRrfWeight * (1 / ((settings.rrfK : ℚ) + entry.2)) := by
  have other := result.candidate_not_direct (List.fst_mem_of_mem_zipIdx listed)
  rw [isDirect_iff,not_or] at other
  have distinct : ((result.candidates.zipIdx 1).map fun entry => entry.1.chunkId).Nodup := by
    have names := result.nodup_candidates
    rwa [← List.zipIdx_map_fst 1 result.candidates,List.map_map] at names
  rw [score_expanded,score_direct,Fusion.points_absent,Fusion.points_absent,
    Fusion.points_once distinct listed,(result.effectiveRank_candidate listed).1]
  · ring
  · exact fun hit member same => other.2
      (List.mem_map.mpr ⟨hit.1,List.fst_mem_of_mem_zipIdx member,same⟩)
  · exact fun hit member same => other.1
      (List.mem_map.mpr ⟨hit.1,List.fst_mem_of_mem_zipIdx member,same⟩)

/-- The ranks of a result are among those of its list. -/
theorem exists_ranks {items : List RetrievalResult} {ranks : List Nat}
    {place : Nat → Option Nat × Option Nat × Option Nat}
    (same : items.map (fun item => (item.keywordRank,item.vectorRank,item.linkRank)) =
      ranks.map place) {item : RetrievalResult} (listed : item ∈ items) :
    ∃ rank ∈ ranks,place rank = (item.keywordRank,item.vectorRank,item.linkRank) := by
  have member := List.mem_map_of_mem listed
    (f := fun item => (item.keywordRank,item.vectorRank,item.linkRank))
  rw [same] at member
  exact List.mem_map.mp member

/-- The rank of a direct result is within its limit. -/
theorem effectiveRank_keyword {item : RetrievalResult} (listed : item ∈ result.keyword)
    (position : Nat) : effectiveRank item position ≤ settings.ftsTopK := by
  obtain ⟨ranks,within,same⟩ := result.keywordRanks
  obtain ⟨rank,found,equal⟩ := exists_ranks same listed
  simp only [Prod.mk.injEq] at equal
  have bounds := within.2 rank found
  have positive : rank ≠ 0 := by omega
  rw [effectiveRank,← equal.1,truthyRank_some positive]
  exact bounds.2

theorem effectiveRank_vector {item : RetrievalResult} (listed : item ∈ result.vector)
    (position : Nat) : effectiveRank item position ≤ settings.vectorTopK := by
  obtain ⟨ranks,within,same⟩ := result.vectorRanks
  obtain ⟨rank,found,equal⟩ := exists_ranks same listed
  simp only [Prod.mk.injEq] at equal
  have bounds := within.2 rank found
  have positive : rank ≠ 0 := by omega
  rw [effectiveRank,← equal.1,← equal.2.1,truthyRank_some positive]
  exact bounds.2

theorem exists_position {list : List RetrievalResult} {item : RetrievalResult}
    (listed : item ∈ list) : ∃ position, (item,position) ∈ list.zipIdx 1 := by
  obtain ⟨i,bound,rfl⟩ := List.getElem_of_mem listed
  exact ⟨1 + i,List.mk_mem_zipIdx_iff_le_and_getElem?_sub.mpr (by simp)⟩

/-- The score of a direct candidate is at least that of the last rank. -/
theorem le_score_direct {id : Text} (direct : result.IsDirect id) :
    1 / ((settings.rrfK : ℚ) + max settings.ftsTopK settings.vectorTopK) ≤
      result.directFusion.score id := by
  have some_ : (0 : ℚ) < settings.rrfK := by exact_mod_cast settings.rrfBounds.1
  have worth : ∀ entry : RetrievalResult × Nat,
      effectiveRank entry.1 entry.2 ≤ max settings.ftsTopK settings.vectorTopK →
      1 / ((settings.rrfK : ℚ) + max settings.ftsTopK settings.vectorTopK) ≤
        1 * (1 / ((settings.rrfK : ℚ) + effectiveRank entry.1 entry.2)) := by
    intro entry within
    rw [one_mul]
    refine one_div_le_one_div_of_le (by positivity) ?_
    exact_mod_cast Nat.add_le_add_left within settings.rrfK
  rw [score_direct]
  rcases result.isDirect_iff.mp direct with found | found <;>
    obtain ⟨item,listed,rfl⟩ := List.mem_map.mp found <;>
    obtain ⟨position,member⟩ := exists_position listed
  · have own := (worth (item,position)
      ((result.effectiveRank_keyword listed position).trans (le_max_left _ _))).trans
        (Fusion.le_points (k := settings.rrfK) zero_le_one member)
    exact le_add_of_le_of_nonneg own (Fusion.points_nonneg _ zero_le_one)
  · have own := (worth (item,position)
      ((result.effectiveRank_vector listed position).trans (le_max_right _ _))).trans
        (Fusion.le_points (k := settings.rrfK) zero_le_one member)
    exact le_add_of_nonneg_of_le (Fusion.points_nonneg _ zero_le_one) own

/-- While no direct rank goes beyond the one after `rrf_k`, every direct candidate is better
than every link candidate. -/
theorem ahead_of_bound (bound : max settings.ftsTopK settings.vectorTopK ≤ settings.rrfK + 1)
    {id : Text} (direct : result.IsDirect id) {item : RetrievalResult}
    (listed : item ∈ result.candidates) : result.expandedFusion.ahead id item.chunkId := by
  obtain ⟨position,member⟩ := exists_position listed
  have low := (result.effectiveRank_candidate member).2
  left
  show result.expandedFusion.score item.chunkId < result.expandedFusion.score id
  rw [result.score_expanded_candidate member,result.score_expanded_direct direct]
  refine lt_of_lt_of_le ?_ (result.le_score_direct direct)
  have some_ : (1 : ℚ) ≤ settings.rrfK := by exact_mod_cast settings.rrfBounds.1
  have rank : (1 : ℚ) ≤ position := by exact_mod_cast low
  have limit : ((max settings.ftsTopK settings.vectorTopK : Nat) : ℚ) ≤ settings.rrfK + 1 := by
    exact_mod_cast bound
  rw [defaultLinkRrfWeight,one_div_mul_one_div]
  push_cast at limit ⊢
  refine one_div_lt_one_div_of_lt (by positivity) ?_
  linarith

/-- The ranking is that of the direct candidates, and then that of the others. -/
theorem expanded_eq (bound : max settings.ftsTopK settings.vectorTopK ≤ settings.rrfK + 1) :
    result.expanded.map RetrievalResult.chunkId = result.direct.map RetrievalResult.chunkId ++
      (result.candidates.map RetrievalResult.chunkId).insertionSort
        result.expandedFusion.ahead := by
  rw [ids_expanded,insertionSort_append result.ids_perm]
  · congr 1
    rw [ids_direct]
    have same := List.map_insertionSort result.expandedFusion.ahead result.directFusion.ahead id
      result.directFusion.ids fun a first b second => by
        rw [Fusion.ahead,Fusion.ahead,
          result.score_expanded_direct (result.isDirect_iff_mem.mpr first),
          result.score_expanded_direct (result.isDirect_iff_mem.mpr second)]
        rfl
    rwa [List.map_id,List.map_id] at same
  · intro a first b second
    obtain ⟨item,listed,rfl⟩ := List.mem_map.mp second
    exact result.ahead_of_bound bound (result.isDirect_iff_mem.mpr first) listed

theorem undisturbed_of_bound
    (bound : max settings.ftsTopK settings.vectorTopK ≤ settings.rrfK + 1) (topK : Int) :
    result.Undisturbed topK := by
  have others : ∀ id ∈ (result.candidates.map RetrievalResult.chunkId).insertionSort
      result.expandedFusion.ahead, ¬ result.IsDirect id := by
    intro id listed
    obtain ⟨item,member,rfl⟩ := List.mem_map.mp ((List.mem_insertionSort _).mp listed)
    exact result.candidate_not_direct member
  refine ⟨?_,?_,fun id listed => ?_⟩
  · rw [expanded_eq result bound,List.filter_append,List.filter_eq_self.mpr,
      List.filter_eq_nil_iff.mpr,List.append_nil]
    · exact fun id listed => by simpa using others id listed
    · exact fun id listed => by simpa [IsDirect] using listed
  · rw [expanded_eq result bound,List.pairwise_append]
    refine ⟨List.pairwise_of_forall_mem_list fun a left _ _ _ => left,?_,fun a left _ _ _ => left⟩
    exact List.pairwise_of_forall_mem_list fun _ _ b right direct =>
      absurd direct (others b right)
  · rw [List.map_take] at listed ⊢
    rw [expanded_eq result bound,List.take_append]
    exact List.mem_append_left _ listed

end Ranking

/-- Where the link results disturb nothing, every direct candidate is ahead of every other. -/
theorem ahead_of_undisturbed {settings : RagSettings} {result : QueryResult settings}
    {topK : Int} (undisturbed : result.Undisturbed topK) {id : Text}
    (direct : result.IsDirect id) {item : RetrievalResult} (listed : item ∈ result.candidates) :
    result.expandedFusion.ahead id item.chunkId := by
  have other := result.candidate_not_direct listed
  have first := undisturbed.first
  rw [ids_expanded] at first
  have both := (List.pairwise_insertionSort result.expandedFusion.ahead
    result.expandedFusion.ids).and first
  have here : id ∈ result.expandedFusion.ids.insertionSort result.expandedFusion.ahead := by
    rw [List.mem_insertionSort]
    exact result.ids_perm.mem_iff.mpr (List.mem_append_left _ (result.isDirect_iff_mem.mp direct))
  have there : item.chunkId ∈
      result.expandedFusion.ids.insertionSort result.expandedFusion.ahead := by
    rw [List.mem_insertionSort]
    exact result.ids_perm.mem_iff.mpr (List.mem_append_right _ (List.mem_map_of_mem listed))
  obtain ⟨i,small,rfl⟩ := List.getElem_of_mem here
  obtain ⟨j,small',same⟩ := List.getElem_of_mem there
  rw [← same] at other ⊢
  rcases lt_trichotomy i j with less | equal | more
  · exact (List.pairwise_iff_getElem.mp both i j small small' less).1
  · subst equal
    exact absurd direct other
  · exact absurd ((List.pairwise_iff_getElem.mp both j i small' small more).2 direct) other

section Crowded

def numbered (letter : Char) (rank : Nat) : Text := List.replicate rank letter

theorem numbered_inj {letter other : Char} {rank rank' : Nat} (some_ : rank ≠ 0)
    (same : numbered letter rank = numbered other rank') : letter = other ∧ rank = rank' := by
  obtain ⟨lengths,letters⟩ := List.replicate_inj.mp same
  exact ⟨letters.resolve_left some_,lengths⟩

def keywordHit (rank : Nat) : RetrievalResult where
  chunkId := numbered 'b' rank
  path := numbered 'b' rank
  keywordRank := some rank

def vectorHit (rank : Nat) : RetrievalResult where
  chunkId := numbered 'c' rank
  path := numbered 'c' rank
  vectorRank := some rank

def linkHit : RetrievalResult where
  chunkId := numbered 'a' 1
  path := numbered 'a' 1
  linkRank := some 1

variable (settings : RagSettings)

theorem ranksWithin_range (limit : Nat) : RanksWithin limit (List.range' 1 limit) :=
  ⟨List.pairwise_lt_range' ..,fun rank listed => by
    rw [List.mem_range'_1] at listed
    omega⟩

/-- As many keyword and vector results as the settings allow, and one linked document. -/
def crowded : QueryResult settings where
  keyword := (List.range' 1 settings.ftsTopK).map keywordHit
  vector := (List.range' 1 settings.vectorTopK).map vectorHit
  link := [linkHit]
  keywordRanks := ⟨_,ranksWithin_range _,by rw [List.map_map]; rfl⟩
  vectorRanks := ⟨_,ranksWithin_range _,by rw [List.map_map]; rfl⟩
  linkRanks := rfl
  linkLimit := settings.linkBounds.1
  distinct := by
    refine ⟨?_,?_,List.nodup_singleton _⟩ <;> rw [List.map_map]
    · refine List.Nodup.map_on (fun a first b _ same => ?_) List.nodup_range'
      rw [List.mem_range'_1] at first
      exact (numbered_inj (by omega) same).2
    · refine List.Nodup.map_on (fun a first b _ same => ?_) List.nodup_range'
      rw [List.mem_range'_1] at first
      exact (numbered_inj (by omega) same).2
  placed := by
    have own : ∀ item ∈ (List.range' 1 settings.ftsTopK).map keywordHit ++
        (List.range' 1 settings.vectorTopK).map vectorHit ++ [linkHit],
        item.path = item.chunkId := by
      intro item listed
      simp only [List.mem_append,List.mem_map,List.mem_singleton] at listed
      rcases listed with (⟨rank,-,rfl⟩ | ⟨rank,-,rfl⟩) | rfl <;> rfl
    intro a first b second same
    rw [own a first,own b second,same]

theorem candidates_crowded : (crowded settings).candidates = [linkHit] := by
  have missed : linkHit.path ∉ (crowded settings).keyword.map RetrievalResult.path ++
      (crowded settings).vector.map RetrievalResult.path := by
    intro covered
    simp only [crowded,List.map_map,List.mem_append,List.mem_map,Function.comp_apply] at covered
    rcases covered with ⟨rank,-,same⟩ | ⟨rank,-,same⟩
    · exact absurd (numbered_inj (by decide) same.symm).1 (by decide)
    · exact absurd (numbered_inj (by decide) same.symm).1 (by decide)
  rw [candidates,newLinkCandidates,show (crowded settings).link = [linkHit] from rfl,
    List.filter_cons_of_pos (by simpa using missed)]
  rfl

theorem linkHit_candidate : linkHit ∈ (crowded settings).candidates :=
  candidates_crowded settings ▸ List.mem_singleton_self _

theorem points_other (letter : Char) {hit : Nat → RetrievalResult} {k count : Nat} {id : Text}
    (named : ∀ rank, (hit rank).chunkId = numbered letter rank)
    (other : ∀ rank, rank ≠ 0 → numbered letter rank ≠ id) :
    Fusion.points k 1 (((List.range' 1 count).map hit).zipIdx 1) id = 0 := by
  refine Fusion.points_absent fun entry listed same => ?_
  obtain ⟨rank,found,equal⟩ := List.mem_map.mp (List.fst_mem_of_mem_zipIdx listed)
  rw [List.mem_range'_1] at found
  rw [← equal,named] at same
  exact other rank (by omega) same

theorem points_last {letter : Char} {hit : Nat → RetrievalResult} {k count : Nat}
    (named : ∀ rank, (hit rank).chunkId = numbered letter rank) (some_ : 1 ≤ count)
    (effective : ∀ position, effectiveRank (hit count) position = count) :
    Fusion.points k 1 (((List.range' 1 count).map hit).zipIdx 1) (numbered letter count) =
      1 / ((k : ℚ) + count) := by
  have distinct : ((((List.range' 1 count).map hit).zipIdx 1).map
      fun entry => entry.1.chunkId).Nodup := by
    have names : (((List.range' 1 count).map hit).map RetrievalResult.chunkId).Nodup := by
      rw [List.map_map]
      refine List.Nodup.map_on (fun a first b _ same => ?_) List.nodup_range'
      rw [List.mem_range'_1] at first
      rw [Function.comp_apply,Function.comp_apply,named,named] at same
      exact (numbered_inj (by omega) same).2
    rwa [← List.zipIdx_map_fst 1 ((List.range' 1 count).map hit),List.map_map] at names
  obtain ⟨position,member⟩ := exists_position
    (List.mem_map_of_mem (f := hit) (List.mem_range'_1.mpr ⟨some_,by omega⟩ :
      count ∈ List.range' 1 count))
  have once : Fusion.points k 1 (((List.range' 1 count).map hit).zipIdx 1) (hit count).chunkId =
      1 * (1 / ((k : ℚ) + effectiveRank (hit count) position)) :=
    Fusion.points_once distinct member
  rwa [named,effective,one_mul] at once

theorem isDirect_keyword : (crowded settings).IsDirect (numbered 'b' settings.ftsTopK) := by
  have low := settings.ftsBounds.1
  refine (isDirect_iff _).mpr (.inl (List.mem_map.mpr ⟨keywordHit settings.ftsTopK,?_,rfl⟩))
  exact List.mem_map_of_mem (List.mem_range'_1.mpr ⟨low,by omega⟩)

theorem isDirect_vector : (crowded settings).IsDirect (numbered 'c' settings.vectorTopK) := by
  have low := settings.vectorBounds.1
  refine (isDirect_iff _).mpr (.inr (List.mem_map.mpr ⟨vectorHit settings.vectorTopK,?_,rfl⟩))
  exact List.mem_map_of_mem (List.mem_range'_1.mpr ⟨low,by omega⟩)

theorem score_lastKeyword : (crowded settings).directFusion.score
    (numbered 'b' settings.ftsTopK) = 1 / ((settings.rrfK : ℚ) + settings.ftsTopK) := by
  have low := settings.ftsBounds.1
  rw [score_direct]
  show Fusion.points _ 1 (((List.range' 1 settings.ftsTopK).map keywordHit).zipIdx 1) _ +
    Fusion.points _ 1 (((List.range' 1 settings.vectorTopK).map vectorHit).zipIdx 1) _ = _
  rw [points_last (fun _ => rfl) low,points_other 'c' (fun _ => rfl),add_zero]
  · exact fun rank some_ same => absurd (numbered_inj some_ same).1 (by decide)
  · intro position
    rw [effectiveRank,keywordHit,truthyRank_some (by omega)]
    rfl

theorem score_lastVector : (crowded settings).directFusion.score
    (numbered 'c' settings.vectorTopK) = 1 / ((settings.rrfK : ℚ) + settings.vectorTopK) := by
  have low := settings.vectorBounds.1
  rw [score_direct]
  show Fusion.points _ 1 (((List.range' 1 settings.ftsTopK).map keywordHit).zipIdx 1) _ +
    Fusion.points _ 1 (((List.range' 1 settings.vectorTopK).map vectorHit).zipIdx 1) _ = _
  rw [points_last (fun _ => rfl) low,points_other 'b' (fun _ => rfl),zero_add]
  · exact fun rank some_ same => absurd (numbered_inj some_ same).1 (by decide)
  · intro position
    rw [effectiveRank,vectorHit,truthyRank_none,truthyRank_some (by omega)]
    rfl

theorem score_linkHit : (crowded settings).expandedFusion.score linkHit.chunkId =
    1 / (2 * ((settings.rrfK : ℚ) + 1)) := by
  have one : ((crowded settings).candidates.zipIdx 1) = [(linkHit,1)] := by
    rw [candidates_crowded]
    rfl
  have listed : (linkHit,1) ∈ (crowded settings).candidates.zipIdx 1 :=
    one ▸ List.mem_singleton_self _
  have score := (crowded settings).score_expanded_candidate listed
  rw [score,defaultLinkRrfWeight,one_div_mul_one_div]
  norm_num

/-- A candidate whose rank goes beyond the one after `rrf_k` is not ahead of the link. -/
theorem bound_of_ahead {id : Text} {rank : Nat} (direct : (crowded settings).IsDirect id)
    (score : (crowded settings).directFusion.score id = 1 / ((settings.rrfK : ℚ) + rank))
    (later : linkHit.chunkId < id)
    (ahead : (crowded settings).expandedFusion.ahead id linkHit.chunkId) :
    rank ≤ settings.rrfK + 1 := by
  have some_ : (1 : ℚ) ≤ settings.rrfK := by exact_mod_cast settings.rrfBounds.1
  rcases ahead with better | ⟨-,earlier⟩
  · replace better : (crowded settings).expandedFusion.score linkHit.chunkId <
        (crowded settings).expandedFusion.score id := better
    rw [score_linkHit,(crowded settings).score_expanded_direct direct,score,
      one_div_lt_one_div (by positivity) (by positivity)] at better
    have less : (rank : ℚ) < settings.rrfK + 2 := by linarith
    have natural : rank < settings.rrfK + 2 := by exact_mod_cast less
    omega
  · exact absurd earlier (not_le.mpr later)

theorem linkHit_lt {letter : Char} {rank : Nat} (greater : 'a' < letter) (some_ : 1 ≤ rank) :
    linkHit.chunkId < numbered letter rank := by
  obtain ⟨more,rfl⟩ := Nat.exists_eq_add_of_le' some_
  rw [numbered,List.replicate_succ]
  exact List.Lex.rel greater

theorem bound_of_undisturbed {topK : Int} (undisturbed : (crowded settings).Undisturbed topK) :
    max settings.ftsTopK settings.vectorTopK ≤ settings.rrfK + 1 := by
  refine max_le ?_ ?_
  · exact bound_of_ahead settings (isDirect_keyword settings) (score_lastKeyword settings)
      (linkHit_lt (by decide) settings.ftsBounds.1)
      (ahead_of_undisturbed undisturbed (isDirect_keyword settings) (linkHit_candidate settings))
  · exact bound_of_ahead settings (isDirect_vector settings) (score_lastVector settings)
      (linkHit_lt (by decide) settings.vectorBounds.1)
      (ahead_of_undisturbed undisturbed (isDirect_vector settings) (linkHit_candidate settings))

end Crowded

/-- The smallest `rrf_k` that is admitted, with the other defaults. -/
def smallestK : RagSettings where
  rrfK := 1
  ftsBounds := by decide
  vectorBounds := by decide
  linkBounds := by decide
  rrfBounds := by decide

end QueryResult

end LocalBook.Rag
