import LocalBook.Finding
import LocalBook.Rag.Fusing

/-! The ranks that the retrievers give their results, and the fusion of lists whose ranks grow: it
keeps the order of two candidates on which all lists agree. -/
namespace LocalBook.Rag.Ranks

section Orders

def Increasing (list : List RetrievalResult) : Prop :=
  ((list.zipIdx 1).map fun entry => effectiveRank entry.1 entry.2).Pairwise (· < ·)

def Precedes (a b : Text) (list : List RetrievalResult) : Prop :=
  [a,b].Sublist (list.map RetrievalResult.chunkId)

/-- A ranking respects its lists: their ranks grow, and where one candidate stands before another
in every list that counts and has the other, it does so in the ranking. -/
structure Respects (lists : List (List RetrievalResult × ℚ)) (ranking : List RetrievalResult) :
    Prop where
  increasing : ∀ list ∈ lists,Increasing list.1
  kept : ∀ a b,b ∈ ranking.map RetrievalResult.chunkId →
    (∀ list ∈ lists,0 < list.2 → b ∈ list.1.map RetrievalResult.chunkId → Precedes a b list.1) →
      Precedes a b ranking

variable {k : Nat} {a b id : Text} {weight : ℚ} {list : List RetrievalResult}
  {lists : List (List RetrievalResult × ℚ)} {fusion : Fusion}

def added (k : Nat) (list : List RetrievalResult × ℚ) (id : Text) : ℚ :=
  if list.2 ≤ 0 then 0 else Fusion.points k list.2 (list.1.zipIdx 1) id

theorem score_lists (lists : List (List RetrievalResult × ℚ)) (fusion : Fusion) :
    (lists.foldl (Fusion.addList k) fusion).score id =
      fusion.score id + (lists.map fun list => added k list id).sum := by
  induction lists generalizing fusion with
  | nil => simp
  | cons list rest ih =>
    rw [List.foldl_cons,ih,List.map_cons,List.sum_cons,← add_assoc]
    congr 1
    rw [added,Fusion.addList]
    split
    · rw [add_zero]
    · exact Fusion.score_foldl _ _

theorem mem_ids_lists (lists : List (List RetrievalResult × ℚ)) (fusion : Fusion) :
    id ∈ (lists.foldl (Fusion.addList k) fusion).ids ↔
      id ∈ fusion.ids ∨ ∃ list ∈ lists,0 < list.2 ∧ id ∈ list.1.map RetrievalResult.chunkId := by
  induction lists generalizing fusion with
  | nil => simp
  | cons list rest ih =>
    rw [List.foldl_cons,ih]
    simp only [List.mem_cons,exists_eq_or_imp]
    rcases le_or_gt list.2 0 with none' | counts
    · rw [Fusion.addList,if_pos none']
      simp [not_lt.mpr none']
    · rw [show list = (list.1,list.2) from rfl,Fusion.mem_ids_addList counts]
      simp only [counts,true_and,or_assoc]

theorem keyed_lists (lists : List (List RetrievalResult × ℚ)) (keyed : fusion.Keyed) :
    (lists.foldl (Fusion.addList k) fusion).Keyed := by
  induction lists generalizing fusion with
  | nil => exact keyed
  | cons list rest ih => exact ih (Fusion.keyed_addList keyed)

/-- The entry of an id in a list that has it once. -/
theorem points_mem (distinct : (list.map RetrievalResult.chunkId).Nodup)
    {entry : RetrievalResult × Nat} (listed : entry ∈ list.zipIdx 1) :
    Fusion.points k weight (list.zipIdx 1) entry.1.chunkId =
      weight * (1 / ((k : ℚ) + effectiveRank entry.1 entry.2)) := by
  apply Fusion.points_once _ listed
  rw [← List.zipIdx_map_fst 1 list,List.map_map] at distinct
  exact distinct

/-- Of two ids of a list whose ranks grow, the first gets more. -/
theorem points_lt (some' : 0 < k) (counts : 0 < weight) (increasing : Increasing list)
    (distinct : (list.map RetrievalResult.chunkId).Nodup) (precedes : Precedes a b list) :
    Fusion.points k weight (list.zipIdx 1) b < Fusion.points k weight (list.zipIdx 1) a := by
  have ids : list.map RetrievalResult.chunkId =
      (list.zipIdx 1).map fun entry => entry.1.chunkId := by
    conv_lhs => rw [← List.zipIdx_map_fst 1 list,List.map_map]
    rfl
  rw [Precedes,ids] at precedes
  obtain ⟨pair,part,same⟩ := List.sublist_map_iff.mp precedes
  obtain ⟨first,others,rfl,rfl,same'⟩ := List.map_eq_cons_iff.mp same.symm
  obtain ⟨second,none',rfl,rfl,last⟩ := List.map_eq_cons_iff.mp same'
  rw [List.map_eq_nil_iff] at last
  subst last
  have members := part.subset
  rw [points_mem distinct (members (by simp)),points_mem distinct (members (by simp))]
  have less := (List.pairwise_map.mp increasing).sublist part
  have ranks : effectiveRank first.1 first.2 < effectiveRank second.1 second.2 := by
    simpa using less
  have ranks' : (effectiveRank first.1 first.2 : ℚ) < effectiveRank second.1 second.2 := by
    exact_mod_cast ranks
  have positive : (0 : ℚ) < k := by exact_mod_cast some'
  have low : (0 : ℚ) ≤ effectiveRank first.1 first.2 := Nat.cast_nonneg _
  apply mul_lt_mul_of_pos_left _ counts
  apply one_div_lt_one_div_of_lt
  · linarith
  · linarith

/-- Lists whose ranks grow are respected by their fusion. -/
theorem respects_of_increasing (some' : 0 < k)
    (distinct : ∀ list ∈ lists,(list.1.map RetrievalResult.chunkId).Nodup)
    (increasing : ∀ list ∈ lists,Increasing list.1) :
    Respects lists (reciprocalRankFusion k lists) := by
  refine ⟨increasing,?_⟩
  intro a b candidate agree
  have keyed := keyed_lists (k := k) lists QueryResult.keyed_empty
  have ids : (reciprocalRankFusion k lists).map RetrievalResult.chunkId =
      (lists.foldl (Fusion.addList k) {}).ids.insertionSort
        (lists.foldl (Fusion.addList k) {}).ahead := Fusion.ids_ranked keyed
  rw [Precedes,ids]
  rw [ids,List.mem_insertionSort,mem_ids_lists] at candidate
  have members (id : Text) : id ∈ (lists.foldl (Fusion.addList k) {}).ids ↔
      ∃ list ∈ lists,0 < list.2 ∧ id ∈ list.1.map RetrievalResult.chunkId := by
    rw [mem_ids_lists]
    simp [Fusion.ids]
  obtain ⟨list,listed,counts,there⟩ := candidate.resolve_left (by simp [Fusion.ids])
  have least (list : List RetrievalResult × ℚ) (listed : list ∈ lists) :
      added k list b ≤ added k list a := by
    rw [added,added]
    split
    · exact le_rfl
    · next counts =>
      have positive := not_le.mp counts
      by_cases inside : b ∈ list.1.map RetrievalResult.chunkId
      · exact (points_lt some' positive (increasing list listed) (distinct list listed)
          (agree list listed positive inside)).le
      · rw [Fusion.points_absent]
        · exact Fusion.points_nonneg _ positive.le
        · intro entry member same
          exact inside (same ▸ List.mem_map_of_mem (List.fst_mem_of_mem_zipIdx member))
  have scores : (lists.map fun list => added k list b).sum <
      (lists.map fun list => added k list a).sum := by
    apply List.sum_lt_sum _ _ least
    refine ⟨list,listed,?_⟩
    rw [added,added,if_neg (not_le.mpr counts),if_neg (not_le.mpr counts)]
    exact points_lt some' counts (increasing list listed) (distinct list listed)
      (agree list listed counts there)
  have ahead : (lists.foldl (Fusion.addList k) {}).score b <
      (lists.foldl (Fusion.addList k) {}).score a := by
    rw [score_lists,score_lists]
    exact add_lt_add_of_le_of_lt le_rfl scores
  apply List.pair_sublist_insertionSort' (.inl ahead)
  apply List.subperm_of_subset
  · rw [List.nodup_cons]
    refine ⟨?_,List.nodup_singleton b⟩
    intro same
    rw [List.mem_singleton.mp same] at ahead
    exact lt_irrefl _ ahead
  · intro id member
    rcases List.mem_cons.mp member with rfl | last
    · have first := (agree list listed counts there).subset (List.mem_cons_self)
      exact (members id).mpr ⟨list,listed,counts,first⟩
    · rw [List.mem_singleton.mp last]
      exact (members b).mpr ⟨list,listed,counts,there⟩

end Orders

/-! The retrievers -/

def documentMark : Text := "doc::".toList

/-- What the retrievers read: the chunk store, and what the full-text indexes, the substring
search, the link graph and the vectors make of a query. The rows of a statement are of different
chunks, and those of an index of different notes. -/
structure Sources where
  store : Store ℚ
  /-- The rows of the chunk index for an expression, up to a limit. -/
  chunkRows : Text → Nat → List Chunk
  /-- The notes of the document index for an expression; there may be no such index. -/
  noteRows : Option (Text → List Text)
  /-- The rows of the substring search with the full coverage or without; none when it fails. -/
  substringRows : List Text → Nat → Bool → Option (List Chunk)
  /-- The notes that links connect, the best first, and the chunk that stands for one. -/
  connected : List Text
  linkChunk : Text → Option Chunk
  entry : Text → Bool
  /-- The chunks by the similarity of their vectors. -/
  scored : List (ℚ × Text)
  chunkIds : (ids store.chunks).Nodup
  placed : ∀ chunk ∈ store.chunks,chunk.path = chunk.documentId
  named : ∀ chunk ∈ store.chunks,¬documentMark <+: chunk.chunkId
  chunkRowIds : ∀ expression limit,(ids (chunkRows expression limit)).Nodup
  noteRowIds : ∀ rows ∈ noteRows,∀ expression,(rows expression).Nodup
  substringRowIds : ∀ terms limit covering,∀ rows ∈ substringRows terms limit covering,
    (ids rows).Nodup
  connectedIds : connected.Nodup
  linkChunkOf : ∀ path,∀ chunk ∈ linkChunk path,chunk ∈ store.chunksForDocument path
  scoredIds : (scored.map Prod.snd).Nodup

structure Retrieval where
  ftsTopK : Nat
  vectorTopK : Nat
  linkTopK : Nat
  minScore : ℚ
  rrfK : Nat
  linkWeight : ℚ
  linkAddOnly : Bool
  positive : 0 < rrfK

section Retrievers

variable [Host]

/-- `_FTS_SAFE_TERM_RE.match`. -/
def ftsSafe (term : Text) : Bool :=
  match term with
  | [] => false
  | first :: rest => first.isAlphanum && rest.all fun c =>
      c.isAlphanum || c = '.' || c = '_' || c = '-'

omit [Host] in
/-- `fts_match_expression`. -/
def ftsMatchExpression (terms : List Text) : Option Text :=
  let cleaned := terms.filter fun term => Text.strip term ≠ []
  if cleaned = [] ∨ !cleaned.all ftsSafe then none
  else some (Text.join [' '] (cleaned.map fun term => '"' :: term ++ ['"']))

def termCount (terms : List Text) (chunk : Chunk) : Nat :=
  (terms.filter fun term => (Text.find term (Host.casefold chunk.piece.content)).isSome).length +
    (terms.filter fun term =>
      (Text.find term (Host.casefold (chunk.piece.heading.getD []))).isSome).length

/-- The loop of `_best_chunk`: the first of the best ones. -/
def bestOf (terms : List Text) : Chunk → List Chunk → Chunk
  | best,[] => best
  | best,chunk :: rest =>
    bestOf terms (if termCount terms best < termCount terms chunk then chunk else best) rest

/-- `_best_chunk`. -/
def bestChunk (store : Store ℚ) (path : Text) (terms : List Text) : Option Chunk :=
  match store.chunksForDocument path with
  | [] => none
  | first :: rest => some (bestOf terms first rest)

omit [Host] in
def enumerated (rows : List Chunk) : List RetrievalResult :=
  (rows.zipIdx 1).map fun entry =>
    {chunkId := entry.1.chunkId,path := entry.1.path,keywordRank := some entry.2}

omit [Host] in
/-- `_chunk_fts`. -/
def chunkFts (sources : Sources) (terms : List Text) (topK : Nat) : List RetrievalResult :=
  match ftsMatchExpression terms with
  | none => []
  | some expression => enumerated (sources.chunkRows expression topK)

def noteResult (store : Store ℚ) (terms : List Text) (entry : Text × Nat) : RetrievalResult :=
  match bestChunk store entry.1 terms with
  | some chunk => {chunkId := chunk.chunkId,path := chunk.path,keywordRank := some 1}
  | none => {chunkId := documentMark ++ entry.1,path := entry.1,keywordRank := some entry.2}

omit [Host] in
/-- The notes that `_document_fts` goes through. -/
def notes (sources : Sources) (terms : List Text) (topK : Nat) : List Text :=
  match sources.noteRows,ftsMatchExpression terms with
  | some rows,some expression => (rows expression).take topK
  | _,_ => []

/-- `_document_fts`. -/
def documentFts (sources : Sources) (terms : List Text) (topK : Nat) : List RetrievalResult :=
  ((notes sources terms topK).zipIdx 1).map (noteResult sources.store terms)

omit [Host] in
/-- The loop of `_substring`: terms are dropped from the front. -/
def substringFrom (sources : Sources) (cleaned : List Text) (topK : Nat) :
    List Nat → List RetrievalResult
  | [] => []
  | dropped :: rest =>
    let subset := cleaned.filter fun term => term ∉ cleaned.take dropped
    if subset = [] then []
    else
      match sources.substringRows subset topK false with
      | none => []
      | some [] =>
        match sources.substringRows subset topK true with
        | none => []
        | some [] => substringFrom sources cleaned topK rest
        | some rows => enumerated rows
      | some rows => enumerated rows

omit [Host] in
/-- `_substring`. -/
def substring (sources : Sources) (terms : List Text) (topK : Nat) : List RetrievalResult :=
  let cleaned := terms.filter fun term => term ≠ []
  substringFrom sources cleaned topK (List.range cleaned.length)

omit [Host] in
/-- `_filter`. -/
def allowedOnly (allowed : Option (List Text)) (hits : List RetrievalResult) :
    List RetrievalResult :=
  hits.filter fun hit => allowed.all fun paths => hit.path ∈ paths

/-- `KeywordRetriever.retrieve`, for the terms of the query. -/
def keyword (sources : Sources) (terms : List Text) (topK : Nat) (allowed : Option (List Text)) :
    List RetrievalResult :=
  if terms = [] ∨ topK = 0 then []
  else if chunkFts sources terms topK ≠ [] then allowedOnly allowed (chunkFts sources terms topK)
  else if documentFts sources terms topK ≠ [] then
    allowedOnly allowed (documentFts sources terms topK)
  else allowedOnly allowed (substring sources terms topK)

omit [Host] in
/-- `VectorRetriever.retrieve`. -/
def vector (sources : Sources) (topK : Nat) (minScore : ℚ) : List RetrievalResult :=
  if topK = 0 then []
  else (Store.reaching minScore (sources.store.ranked topK sources.scored)).map fun hit =>
    {chunkId := hit.chunk.chunkId,path := hit.chunk.path,vectorRank := some hit.rank}

omit [Host] in
/-- `_materialise`: the chunk and the path of a connected note. -/
def materialise (sources : Sources) (path : Text) : Option (Text × Text) :=
  match sources.linkChunk path with
  | some chunk => some (chunk.chunkId,chunk.path)
  | none => if sources.entry path then some (documentMark ++ path,path) else none

omit [Host] in
/-- `LinkRetriever.retrieve`. -/
def link (sources : Sources) (topK : Nat) : List RetrievalResult :=
  (((sources.connected.filterMap (materialise sources)).take topK).zipIdx 1).map fun entry =>
    {chunkId := entry.1.1,path := entry.1.2,linkRank := some entry.2}

/-- The lists that `search` hands to the fusion, with their weights. -/
def handed (sources : Sources) (settings : Retrieval) (terms : List Text)
    (allowed : Option (List Text)) : List (List RetrievalResult × ℚ) :=
  let lexical := keyword sources terms settings.ftsTopK allowed
  let similar := vector sources settings.vectorTopK settings.minScore
  let linked := link sources settings.linkTopK
  [(lexical,1),(similar,1),
    (if settings.linkAddOnly then newLinkCandidates linked lexical similar else linked,
      settings.linkWeight)]

/-- The notes of the document index whose results are handed over, when it is used. -/
def handedNotes (sources : Sources) (terms : List Text) (topK : Nat)
    (allowed : Option (List Text)) : List Text :=
  if terms = [] ∨ topK = 0 ∨ chunkFts sources terms topK ≠ [] then []
  else (notes sources terms topK).filter fun path => allowed.all fun paths => path ∈ paths

end Retrievers

section Growing

structure Ranked (list : List RetrievalResult) : Prop where
  own : ∀ item ∈ list,∀ n,effectiveRank item n = effectiveRank item 0
  grows : list.Pairwise fun x y => effectiveRank x 0 < effectiveRank y 0

variable {list part : List RetrievalResult}

theorem increasing_iff (own : ∀ item ∈ list,∀ n,effectiveRank item n = effectiveRank item 0) :
    Increasing list ↔ list.Pairwise fun x y => effectiveRank x 0 < effectiveRank y 0 := by
  have ranks : (list.zipIdx 1).map (fun entry => effectiveRank entry.1 entry.2) =
      list.map fun item => effectiveRank item 0 := by
    conv_rhs => rw [← List.zipIdx_map_fst 1 list,List.map_map]
    apply List.map_congr_left
    intro entry member
    exact own entry.1 (List.fst_mem_of_mem_zipIdx member) entry.2
  rw [Increasing,ranks,List.pairwise_map]

theorem Ranked.increasing (ranked : Ranked list) : Increasing list :=
  (increasing_iff ranked.own).mpr ranked.grows

theorem Ranked.sublist (ranked : Ranked list) (sub : part.Sublist list) : Ranked part :=
  ⟨fun item member => ranked.own item (sub.subset member),ranked.grows.sublist sub⟩

theorem ranked_nil : Ranked [] :=
  ⟨fun _ impossible => (List.not_mem_nil impossible).elim,List.Pairwise.nil⟩

theorem effectiveRank_keyword {item : RetrievalResult} {rank : Nat}
    (there : item.keywordRank = some rank) (some' : rank ≠ 0) (n : Nat) :
    effectiveRank item n = rank := by
  rw [effectiveRank,there,truthyRank_some some']
  rfl

theorem effectiveRank_vector {item : RetrievalResult} {rank : Nat}
    (absent : item.keywordRank = none) (there : item.vectorRank = some rank) (some' : rank ≠ 0)
    (n : Nat) : effectiveRank item n = rank := by
  rw [effectiveRank,absent,there,truthyRank_some some']
  rfl

theorem effectiveRank_link {item : RetrievalResult} {rank : Nat}
    (absent : item.keywordRank = none) (missing : item.vectorRank = none)
    (there : item.linkRank = some rank) (some' : rank ≠ 0) (n : Nat) :
    effectiveRank item n = rank := by
  rw [effectiveRank,absent,missing,there,truthyRank_some some']
  rfl

theorem zipIdx_grows {α : Type} (l : List α) :
    (l.zipIdx 1).Pairwise fun x y => x.2 < y.2 := by
  have places : ((l.zipIdx 1).map Prod.snd).Pairwise (· < ·) := by
    rw [List.zipIdx_map_snd]
    exact List.pairwise_lt_range'
  exact List.pairwise_map.mp places

/-- Entries with growing places, each of which is the rank of its result. -/
theorem ranked_map {α : Type} {entries : List (α × Nat)} {make : α × Nat → RetrievalResult}
    (places : entries.Pairwise fun x y => x.2 < y.2)
    (ranks : ∀ entry ∈ entries,∀ n,effectiveRank (make entry) n = entry.2) :
    Ranked (entries.map make) := by
  constructor
  · intro item member n
    obtain ⟨entry,there,rfl⟩ := List.mem_map.mp member
    rw [ranks entry there,ranks entry there]
  · rw [List.pairwise_map]
    apply places.imp_of_mem
    intro x y first second less
    rw [ranks x first,ranks y second]
    exact less

theorem place_ne_zero {α : Type} {l : List α} {entry : α × Nat} (member : entry ∈ l.zipIdx 1) :
    entry.2 ≠ 0 := Nat.ne_of_gt (List.le_snd_of_mem_zipIdx member)

theorem ranked_enumerated (rows : List Chunk) : Ranked (enumerated rows) :=
  ranked_map (zipIdx_grows rows) fun _ member =>
    effectiveRank_keyword rfl (place_ne_zero member)

theorem ranked_substringFrom (sources : Sources) (cleaned : List Text) (topK : Nat)
    (drops : List Nat) : Ranked (substringFrom sources cleaned topK drops) := by
  induction drops with
  | nil => exact ranked_nil
  | cons dropped rest ih =>
    rw [substringFrom]
    split
    · exact ranked_nil
    · split
      · exact ranked_nil
      · split
        · exact ranked_nil
        · exact ih
        · exact ranked_enumerated _
      · exact ranked_enumerated _

theorem ranked_vector (sources : Sources) (topK : Nat) (minScore : ℚ) :
    Ranked (vector sources topK minScore) := by
  rw [vector]
  split
  · exact ranked_nil
  · have places : (sources.store.ranked topK sources.scored).Pairwise fun x y => x.rank < y.rank := by
      rw [Store.ranked,List.pairwise_filterMap]
      apply (zipIdx_grows _).imp
      intro x y less hit first hit' second
      obtain ⟨_,_,rfl⟩ := Option.map_eq_some_iff.mp first
      obtain ⟨_,_,rfl⟩ := Option.map_eq_some_iff.mp second
      exact less
    have some' : ∀ hit ∈ sources.store.ranked topK sources.scored,hit.rank ≠ 0 := by
      intro hit member
      obtain ⟨entry,there,made⟩ := List.mem_filterMap.mp member
      obtain ⟨_,_,rfl⟩ := Option.map_eq_some_iff.mp made
      exact place_ne_zero there
    constructor
    · intro item member n
      obtain ⟨hit,there,rfl⟩ := List.mem_map.mp member
      have rank := some' hit (List.mem_of_mem_filter there)
      rw [effectiveRank_vector rfl rfl rank,effectiveRank_vector rfl rfl rank]
    · rw [List.pairwise_map]
      apply (places.sublist List.filter_sublist).imp_of_mem
      intro x y first second less
      rw [effectiveRank_vector rfl rfl (some' x (List.mem_of_mem_filter first)),
        effectiveRank_vector rfl rfl (some' y (List.mem_of_mem_filter second))]
      exact less

theorem ranked_allowedOnly (allowed : Option (List Text)) (ranked : Ranked list) :
    Ranked (allowedOnly allowed list) := ranked.sublist List.filter_sublist

theorem link_bare {sources : Sources} {topK : Nat} {item : RetrievalResult}
    (member : item ∈ link sources topK) : item.keywordRank = none ∧ item.vectorRank = none := by
  obtain ⟨entry,_,rfl⟩ := List.mem_map.mp member
  exact ⟨rfl,rfl⟩

theorem ranked_link (sources : Sources) (topK : Nat) : Ranked (link sources topK) :=
  ranked_map (zipIdx_grows _) fun _ member =>
    effectiveRank_link rfl rfl rfl (place_ne_zero member)

/-- What is left of the link results is ranked anew. -/
theorem ranked_newLinkCandidates {linked lexical similar : List RetrievalResult}
    (bare : ∀ item ∈ linked,item.keywordRank = none ∧ item.vectorRank = none) :
    Ranked (newLinkCandidates linked lexical similar) := by
  apply ranked_map (zipIdx_grows _)
  intro entry member
  obtain ⟨absent,missing⟩ :=
    bare entry.1 (List.mem_of_mem_filter (List.fst_mem_of_mem_zipIdx member))
  exact effectiveRank_link absent missing rfl (place_ne_zero member)

end Growing

section Documents

variable [Host] {sources : Sources} {terms : List Text} {topK : Nat} {allowed : Option (List Text)}

theorem bestOf_mem (terms : List Text) (best : Chunk) (chunks : List Chunk) :
    bestOf terms best chunks ∈ best :: chunks := by
  induction chunks generalizing best with
  | nil => exact List.mem_cons_self
  | cons chunk rest ih =>
    rw [bestOf]
    split
    · exact List.mem_cons_of_mem _ (ih chunk)
    · rcases List.mem_cons.mp (ih best) with same | later
      · rw [same]
        exact List.mem_cons_self
      · exact List.mem_cons_of_mem _ (List.mem_cons_of_mem _ later)

theorem bestChunk_eq_none {path : Text} :
    bestChunk sources.store path terms = none ↔ sources.store.chunksForDocument path = [] := by
  rw [bestChunk]
  split
  · next none' => simp [none']
  · next some' => simp [some']

theorem bestChunk_mem {path : Text} {chunk : Chunk}
    (found : bestChunk sources.store path terms = some chunk) :
    chunk ∈ sources.store.chunksForDocument path := by
  rw [bestChunk] at found
  split at found
  · cases found
  · next first rest rows =>
    obtain rfl := Option.some.inj found
    rw [rows]
    exact bestOf_mem terms first rest

omit [Host] in
theorem mem_chunksForDocument {path : Text} {chunk : Chunk} :
    chunk ∈ sources.store.chunksForDocument path ↔
      chunk ∈ sources.store.chunks ∧ chunk.documentId = path := by
  rw [Store.chunksForDocument,rowsOf,List.mem_insertionSort,List.mem_filter,decide_eq_true_eq]

omit [Host] in
theorem path_of_mem {path : Text} {chunk : Chunk}
    (member : chunk ∈ sources.store.chunksForDocument path) : chunk.path = path := by
  obtain ⟨there,same⟩ := mem_chunksForDocument.mp member
  rw [sources.placed chunk there,same]

theorem path_noteResult (entry : Text × Nat) :
    (noteResult sources.store terms entry).path = entry.1 := by
  rw [noteResult]
  split
  · next found => exact path_of_mem (bestChunk_mem found)
  · rfl

theorem effectiveRank_noteResult {entry : Text × Nat} (some' : entry.2 ≠ 0) (n : Nat) :
    effectiveRank (noteResult sources.store terms entry) n =
      if sources.store.chunksForDocument entry.1 = [] then entry.2 else 1 := by
  rw [noteResult]
  split
  · next found =>
    rw [if_neg fun none' => by rw [bestChunk_eq_none.mpr none'] at found; cases found]
    exact effectiveRank_keyword rfl (by decide) n
  · next absent =>
    rw [if_pos (bestChunk_eq_none.mp absent)]
    exact effectiveRank_keyword rfl some' n

/-- The results of notes have growing ranks exactly where only the first one can be a chunk. -/
theorem increasing_notes_iff {entries : List (Text × Nat)}
    (places : entries.Pairwise fun x y => x.2 < y.2) (some' : ∀ entry ∈ entries,entry.2 ≠ 0) :
    Increasing (entries.map (noteResult sources.store terms)) ↔
      ∀ entry ∈ entries.tail,sources.store.chunksForDocument entry.1 = [] := by
  rw [increasing_iff,List.pairwise_map]
  · cases entries with
    | nil => simp
    | cons first rest =>
      obtain ⟨least,places'⟩ := List.pairwise_cons.mp places
      have rank (entry : Text × Nat) (member : entry ∈ first :: rest) :
          effectiveRank (noteResult sources.store terms entry) 0 =
            if sources.store.chunksForDocument entry.1 = [] then entry.2 else 1 :=
        effectiveRank_noteResult (some' entry member) 0
      constructor
      · intro grows entry member
        have less := (List.pairwise_cons.mp grows).1 entry member
        rw [rank first (by simp),rank entry (List.mem_cons_of_mem _ member)] at less
        by_contra some''
        rw [if_neg some''] at less
        have positive := some' first (by simp)
        split at less <;> omega
      · intro bare
        rw [List.pairwise_cons]
        constructor
        · intro entry member
          rw [rank first (by simp),rank entry (List.mem_cons_of_mem _ member),
            if_pos (bare entry member)]
          have less := least entry member
          have positive := some' first (by simp)
          split <;> omega
        · apply places'.imp_of_mem
          intro x y inX inY less
          rw [rank x (List.mem_cons_of_mem _ inX),rank y (List.mem_cons_of_mem _ inY),
            if_pos (bare x inX),if_pos (bare y inY)]
          exact less
  · intro item member n
    obtain ⟨entry,there,rfl⟩ := List.mem_map.mp member
    rw [effectiveRank_noteResult (some' entry there),effectiveRank_noteResult (some' entry there)]

omit [Host] in
theorem ranked_chunkFts : Ranked (chunkFts sources terms topK) := by
  rw [chunkFts]
  split
  · exact ranked_nil
  · exact ranked_enumerated _

/-- The ranks of the keyword list grow exactly where none of the notes it is made from but the first
has chunks. -/
theorem increasing_keyword_iff :
    Increasing (keyword sources terms topK allowed) ↔
      ∀ path ∈ (handedNotes sources terms topK allowed).tail,
        sources.store.chunksForDocument path = [] := by
  rw [keyword,handedNotes]
  by_cases idle : terms = [] ∨ topK = 0
  · rw [if_pos idle,if_pos (idle.elim .inl fun zero => .inr (.inl zero))]
    simp [Increasing]
  · rw [if_neg idle]
    by_cases fts : chunkFts sources terms topK ≠ []
    · rw [if_pos fts,if_pos (.inr (.inr fts))]
      have grows : Increasing (allowedOnly allowed (chunkFts sources terms topK)) :=
        (ranked_allowedOnly allowed ranked_chunkFts).increasing
      simpa using grows
    · have used : ¬(terms = [] ∨ topK = 0 ∨ chunkFts sources terms topK ≠ []) := by
        rintro (none' | zero | some')
        · exact idle (.inl none')
        · exact idle (.inr zero)
        · exact fts some'
      rw [if_neg fts,if_neg used]
      have filtered : allowedOnly allowed (documentFts sources terms topK) =
          (((notes sources terms topK).zipIdx 1).filter fun entry =>
            allowed.all fun paths => entry.1 ∈ paths).map (noteResult sources.store terms) := by
        rw [allowedOnly,documentFts,List.filter_map]
        congr 2
        funext entry
        simp only [Function.comp_apply,path_noteResult]
      have listed : (notes sources terms topK).filter
          (fun path => allowed.all fun paths => path ∈ paths) =
          (((notes sources terms topK).zipIdx 1).filter fun entry =>
            allowed.all fun paths => entry.1 ∈ paths).map Prod.fst := by
        conv_lhs => rw [← List.zipIdx_map_fst 1 (notes sources terms topK),List.filter_map]
        rfl
      have exact' := @increasing_notes_iff _ sources terms _
        ((zipIdx_grows (notes sources terms topK)).sublist
          (List.filter_sublist (p := fun entry => allowed.all fun paths => entry.1 ∈ paths)))
        fun entry member => place_ne_zero (List.mem_of_mem_filter member)
      rw [listed,← List.map_tail,List.forall_mem_map]
      by_cases documents : documentFts sources terms topK ≠ []
      · rw [if_pos documents,filtered]
        exact exact'
      · have none' : notes sources terms topK = [] := by
          rw [not_not,documentFts,List.map_eq_nil_iff,List.zipIdx_eq_nil_iff] at documents
          exact documents
        rw [if_neg documents,none']
        have grows : Ranked (substring sources terms topK) := ranked_substringFrom _ _ _ _
        simpa using (ranked_allowedOnly allowed grows).increasing

end Documents

section Distinct

variable [Host] {sources : Sources} {terms : List Text} {topK : Nat} {allowed : Option (List Text)}

omit [Host] in
/-- Chunks of the store with one id are of one document. -/
theorem document_unique {path path' : Text} {chunk chunk' : Chunk}
    (left : chunk ∈ sources.store.chunksForDocument path)
    (right : chunk' ∈ sources.store.chunksForDocument path')
    (same : chunk.chunkId = chunk'.chunkId) : path = path' := by
  obtain ⟨there,rfl⟩ := mem_chunksForDocument.mp left
  obtain ⟨there',rfl⟩ := mem_chunksForDocument.mp right
  rw [List.inj_on_of_nodup_map sources.chunkIds there there' same]

omit [Host] in
/-- The id of a chunk that stands for a note, or of the note itself, is of that note only. -/
theorem markedId_injective {pick : Text → Option Chunk}
    (of' : ∀ path,∀ chunk ∈ pick path,chunk ∈ sources.store.chunksForDocument path) :
    Function.Injective fun path =>
      ((pick path).map Chunk.chunkId).getD (documentMark ++ path) := by
  intro path path' same
  dsimp only at same
  cases left : pick path with
  | none =>
    cases right : pick path' with
    | none =>
      rw [left,right] at same
      exact List.append_cancel_left same
    | some chunk =>
      rw [left,right] at same
      have there := (mem_chunksForDocument.mp (of' path' chunk right)).1
      exact absurd ⟨path,same⟩ (sources.named chunk there)
  | some chunk =>
    have here := of' path chunk left
    cases right : pick path' with
    | none =>
      rw [left,right] at same
      exact absurd ⟨path',same.symm⟩ (sources.named chunk (mem_chunksForDocument.mp here).1)
    | some chunk' =>
      rw [left,right] at same
      exact document_unique here (of' path' chunk' right) same

omit [Host] in
theorem nodup_enumerated {rows : List Chunk} (distinct : (ids rows).Nodup) :
    ((enumerated rows).map RetrievalResult.chunkId).Nodup := by
  rw [ids,← List.zipIdx_map_fst 1 rows,List.map_map] at distinct
  rw [enumerated,List.map_map]
  exact distinct

omit [Host] in
theorem nodup_substringFrom (cleaned : List Text) (drops : List Nat) :
    ((substringFrom sources cleaned topK drops).map RetrievalResult.chunkId).Nodup := by
  induction drops with
  | nil => exact List.nodup_nil
  | cons dropped rest ih =>
    rw [substringFrom]
    split
    · exact List.nodup_nil
    · split
      · exact List.nodup_nil
      · split
        · exact List.nodup_nil
        · exact ih
        · next rows _ found =>
          exact nodup_enumerated (sources.substringRowIds _ _ _ rows found)
      · next rows _ found => exact nodup_enumerated (sources.substringRowIds _ _ _ rows found)

theorem nodup_documentFts :
    ((documentFts sources terms topK).map RetrievalResult.chunkId).Nodup := by
  have names : (documentFts sources terms topK).map RetrievalResult.chunkId =
      (notes sources terms topK).map fun path =>
        ((bestChunk sources.store path terms).map Chunk.chunkId).getD (documentMark ++ path) := by
    conv_rhs => rw [← List.zipIdx_map_fst 1 (notes sources terms topK),List.map_map]
    rw [documentFts,List.map_map]
    apply List.map_congr_left
    intro entry _
    simp only [Function.comp_apply,noteResult]
    split
    · next found => rw [found]; rfl
    · next absent => rw [absent]; rfl
  have distinct : (notes sources terms topK).Nodup := by
    rw [notes]
    split
    · next rows expression rows' _ =>
      exact (sources.noteRowIds rows rows' expression).sublist (List.take_sublist _ _)
    · exact List.nodup_nil
  rw [names]
  exact distinct.map (markedId_injective fun path chunk found =>
    bestChunk_mem found)

theorem nodup_keyword : ((keyword sources terms topK allowed).map RetrievalResult.chunkId).Nodup := by
  have cut {hits : List RetrievalResult} (distinct : (hits.map RetrievalResult.chunkId).Nodup) :
      ((allowedOnly allowed hits).map RetrievalResult.chunkId).Nodup :=
    distinct.sublist (List.filter_sublist.map _)
  rw [keyword]
  split
  · exact List.nodup_nil
  · split
    · apply cut
      rw [chunkFts]
      split
      · exact List.nodup_nil
      · exact nodup_enumerated (sources.chunkRowIds _ _)
    · split
      · exact cut nodup_documentFts
      · exact cut (nodup_substringFrom _ _)

omit [Host] in
theorem nodup_vector (minScore : ℚ) :
    ((vector sources topK minScore).map RetrievalResult.chunkId).Nodup := by
  rw [vector]
  split
  · exact List.nodup_nil
  · rw [List.map_map]
    apply List.Nodup.sublist (List.filter_sublist.map _)
    have sorted : (((sources.scored.insertionSort Store.better).take (max 1 (topK : Int)).toNat).map
        Prod.snd).Nodup := by
      apply List.Nodup.sublist ((List.take_sublist _ _).map _)
      exact ((List.perm_insertionSort Store.better sources.scored).map Prod.snd).nodup_iff.mpr
        sources.scoredIds
    apply List.Nodup.sublist _ sorted
    rw [Store.ranked]
    conv_rhs => rw [← List.zipIdx_map_fst 1 (List.take _ _),List.map_map]
    generalize (List.zipIdx (List.take (max 1 (topK : Int)).toNat
      (sources.scored.insertionSort Store.better)) 1) = entries
    induction entries with
    | nil => exact List.Sublist.refl _
    | cons entry rest ih =>
      rw [List.filterMap_cons]
      cases found : sources.store.chunk entry.1.2 with
      | none => exact ih.cons _
      | some chunk =>
        have same : chunk.chunkId = entry.1.2 := by simpa using List.find?_some found
        simp only [Option.map_some,List.map_cons,Function.comp_apply,same]
        exact ih.cons_cons _

omit [Host] in
theorem nodup_link : ((link sources topK).map RetrievalResult.chunkId).Nodup := by
  have names : (link sources topK).map RetrievalResult.chunkId =
      ((sources.connected.filterMap (materialise sources)).take topK).map Prod.fst := by
    conv_rhs => rw [← List.zipIdx_map_fst 1 (List.take _ _),List.map_map]
    rw [link,List.map_map]
    rfl
  rw [names]
  apply List.Nodup.sublist ((List.take_sublist _ _).map _)
  apply List.Nodup.sublist _ (sources.connectedIds.map (markedId_injective sources.linkChunkOf))
  generalize sources.connected = paths
  induction paths with
  | nil => exact List.Sublist.refl _
  | cons path rest ih =>
    rw [List.filterMap_cons,List.map_cons]
    cases found : sources.linkChunk path with
    | some chunk =>
      simp only [materialise,found,List.map_cons,Option.map_some,Option.getD_some]
      exact ih.cons_cons _
    | none =>
      simp only [materialise,found,Option.map_none,Option.getD_none]
      cases sources.entry path with
      | true => exact ih.cons_cons _
      | false => exact ih.cons _

omit [Host] in
theorem nodup_newLinkCandidates {linked lexical similar : List RetrievalResult}
    (distinct : (linked.map RetrievalResult.chunkId).Nodup) :
    ((newLinkCandidates linked lexical similar).map RetrievalResult.chunkId).Nodup := by
  rw [newLinkCandidates,List.map_map]
  apply List.Nodup.sublist _ distinct
  apply List.Sublist.trans _ ((List.filter_sublist (p := fun item => item.path ∉
    lexical.map RetrievalResult.path ++ similar.map RetrievalResult.path)).map _)
  conv_rhs => rw [← List.zipIdx_map_fst 1 (List.filter _ linked),List.map_map]
  exact List.Sublist.refl _

end Distinct

def twoChunks : List Chunk :=
  [⟨['1'],['a'],['a'],0,{content := ['x']}⟩,⟨['2'],['b'],['b'],0,{content := ['x']}⟩]

theorem ids_twoChunks : (ids twoChunks).Nodup := by decide

theorem placed_twoChunks : ∀ chunk ∈ twoChunks,chunk.path = chunk.documentId := by decide

theorem named_twoChunks : ∀ chunk ∈ twoChunks,¬documentMark <+: chunk.chunkId := by decide

theorem noteRowIds_twoNotes : ∀ rows ∈ some fun _ : Text => ([['a'],['b']] : List Text),
    ∀ expression,(rows expression).Nodup := by
  intro rows given expression
  obtain rfl := Option.some.inj given
  show ([['a'],['b']] : List Text).Nodup
  decide

/-- The document index finds both notes, and the chunk index nothing. -/
def twoNotes : Sources where
  store := {chunks := twoChunks}
  chunkRows _ _ := []
  noteRows := some fun _ => [['a'],['b']]
  substringRows _ _ _ := none
  connected := []
  linkChunk _ := none
  entry _ := false
  scored := []
  chunkIds := ids_twoChunks
  placed := placed_twoChunks
  named := named_twoChunks
  chunkRowIds _ _ := List.nodup_nil
  noteRowIds := noteRowIds_twoNotes
  substringRowIds _ _ _ _ impossible := (Option.not_mem_none _ impossible).elim
  connectedIds := List.nodup_nil
  linkChunkOf _ _ impossible := (Option.not_mem_none _ impossible).elim
  scoredIds := List.nodup_nil

end LocalBook.Rag.Ranks
