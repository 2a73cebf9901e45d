import LocalBook.Rag.Covering

/-! Every run of indexing rounds and searches that leaves no gap: the packed search returns
what the plain scan of the stored vectors returns. -/
namespace LocalBook.Rag

section Agreement

variable {α : Type} {store : Store α} {path : Text} {dimension : Nat}

namespace Store

def Current (store : Store α) (cache : Dict Text (List Text)) : Prop :=
  ∀ path found, cache.find path = some found → found = store.chunkIdsOf path

theorem find_grouped (f : Text → List Text) (window : List Text) (d : Dict Text (List Text))
    (path : Text) : Dict.find ((window.map fun path => (path,f path)).foldl
      (fun d entry => Dict.set d entry.1 entry.2) d) path =
        if path ∈ window then some (f path) else d.find path := by
  induction window generalizing d with
  | nil => rfl
  | cons first rest ih =>
    rw [List.map_cons,List.foldl_cons,ih,Dict.find_set]
    by_cases later : path ∈ rest
    · simp [later]
    · by_cases here : path = first
      · simp [here]
      · simp [later,here]

theorem find_listed (f : Text → List Text) (paths : List Text) (path : Text) :
    Dict.find (paths.map fun path => (path,f path)) path =
      if path ∈ paths then some (f path) else none := by
  induction paths with
  | nil => rfl
  | cons first rest ih =>
    rw [List.map_cons,Dict.find_cons,ih]
    by_cases here : path = first
    · simp [here]
    · simp [here]

theorem find_cached (cache : Dict Text (List Text)) (paths : List Text) (path : Text) :
    Dict.find (paths.filterMap fun path => (cache.find path).map fun found => (path,found)) path =
      if path ∈ paths then cache.find path else none := by
  induction paths with
  | nil => rfl
  | cons first rest ih =>
    cases held : cache.find first with
    | none =>
      rw [List.filterMap_cons_none (by simp [held]),ih]
      by_cases here : path = first
      · simp [here,held]
      · simp [here]
    | some found =>
      rw [List.filterMap_cons_some (by simp [held]; rfl),Dict.find_cons,ih]
      by_cases here : path = first
      · simp [here,held]
      · simp [here]

theorem Current.grouped {cache : Dict Text (List Text)} (current : store.Current cache)
    (window : List Text) : store.Current ((window.map fun path =>
      (path,ids (store.chunksForDocument path))).foldl
        (fun d entry => Dict.set d entry.1 entry.2) cache) := by
  intro path found here
  rw [find_grouped fun path => ids (store.chunksForDocument path)] at here
  split at here
  · exact (Option.some.inj here).symm
  · exact current path found here

/-- Loading the ids of documents that are not cached. -/
theorem loadIds_windows (windows : List (List Text))
    {state : Dict Text (List Text) × Dict Text (List Text)} (loaded : store.Current state.1)
    (cached : store.Current state.2) :
    store.Current (windows.foldl store.loadIds state).1 ∧
    store.Current (windows.foldl store.loadIds state).2 ∧
    ∀ path, ((state.1.find path).isSome ∨ ∃ window ∈ windows, path ∈ window) →
      (Dict.find (windows.foldl store.loadIds state).1 path).isSome := by
  induction windows generalizing state with
  | nil => exact ⟨loaded,cached,fun path found => found.resolve_right (by simp)⟩
  | cons window rest ih =>
    have emptied : store.Current (if state.2.length + window.length > 512 then []
        else state.2) := by
      split
      · exact fun _ _ found => absurd found (by simp)
      · exact cached
    obtain ⟨later,kept,all⟩ := @ih (store.loadIds state window) (loaded.grouped window)
      (emptied.grouped window)
    refine ⟨later,kept,fun path found => all path ?_⟩
    rw [loadIds,find_grouped fun path => ids (store.chunksForDocument path)]
    split
    · exact .inl rfl
    · rename_i elsewhere
      rcases found with before | ⟨other,member,here⟩
      · exact .inl before
      · rcases List.mem_cons.mp member with rfl | after
        · exact absurd here elsewhere
        · exact .inr ⟨other,after,here⟩

/-- Whatever is cached, the ids of a document are the current ones. -/
theorem chunkIdsForMany_spec (current : store.Current store.idCache) (paths : List Text) :
    (∀ path ∈ paths, (store.chunkIdsForMany paths).1.find path = some (store.chunkIdsOf path)) ∧
    ∃ idCache, (store.chunkIdsForMany paths).2 = {store with idCache} ∧
      store.Current idCache := by
  have start : store.Current (paths.dedup.filterMap fun path =>
      (store.idCache.find path).map fun found => (path,found)) := by
    intro path found here
    rw [find_cached] at here
    split at here
    · exact current path found here
    · cases here
  obtain ⟨loaded,kept,all⟩ := @loadIds_windows _ store (windows 400
    (paths.dedup.filter fun path => (store.idCache.find path).isNone).length
    (paths.dedup.filter fun path => (store.idCache.find path).isNone)) (_,store.idCache)
    start current
  refine ⟨fun path member => ?_,⟨_,rfl,kept⟩⟩
  have listed : path ∈ paths.dedup := List.mem_dedup.mpr member
  rw [chunkIdsForMany]
  dsimp only
  rw [find_listed,if_pos listed]
  have some_ := all path (by
    by_cases cached : (store.idCache.find path).isNone
    · refine .inr (windows_of_mem (by omega) le_rfl (List.mem_filter.mpr ⟨listed,cached⟩))
    · refine .inl ?_
      rw [find_cached,if_pos listed]
      simpa [Option.isNone_iff_eq_none,Option.ne_none_iff_isSome] using cached)
  obtain ⟨found,here⟩ := Option.isSome_iff_exists.mp some_
  rw [here,Option.getD_some,loaded path found here]

end Store

end Agreement

section Ranking

variable {α : Type} [Mul α] [AddMonoid α] [LinearOrder α] {store : Store α} {path : Text}
  {dimension : Nat} {query : List α} {topK : Int}

namespace Store

omit [Mul α] [AddMonoid α] in
/-- Ranking forgets in which order the chunks were scored. -/
theorem ranked_perm {first second : List (α × Text)} (perm : List.Perm first second) :
    store.ranked topK first = store.ranked topK second := by
  have total : Std.Total (@better α _) := by
    refine ⟨fun a b => ?_⟩
    rcases lt_trichotomy a.1 b.1 with less | same | more
    · exact .inr (.inl less)
    · exact (le_total a.2 b.2).imp (fun before => .inr ⟨same,before⟩)
        fun after => .inr ⟨same.symm,after⟩
    · exact .inl (.inl more)
  have trans : IsTrans (α × Text) better := by
    refine ⟨fun a b c left right => ?_⟩
    rcases left with more | ⟨same,before⟩
    · rcases right with further | ⟨equal,-⟩
      · exact .inl (further.trans more)
      · exact .inl (equal ▸ more)
    · rcases right with further | ⟨equal,after⟩
      · exact .inl (same ▸ further)
      · exact .inr ⟨same.trans equal,before.trans after⟩
  have sorted : first.insertionSort better = second.insertionSort better := by
    refine List.Perm.eq_of_pairwise (fun a b _ _ left right => ?_)
      (List.pairwise_insertionSort better first) (List.pairwise_insertionSort better second)
      (((List.perm_insertionSort better first).trans perm).trans
        (List.perm_insertionSort better second).symm)
    rcases left with more | ⟨same,before⟩
    · rcases right with less | ⟨equal,-⟩
      · exact absurd more less.asymm
      · exact absurd equal more.ne
    · rcases right with less | ⟨-,after⟩
      · exact absurd same less.ne
      · exact Prod.ext same (le_antisymm before after)
  rw [ranked,ranked,sorted]

def scoresOf (store : Store α) (query : List α) (path : Text) : List (α × Text) :=
  (store.chunkIdsOf path).filterMap fun id =>
    (store.vectorOf query.length id).map fun vector => (dot vector query,id)

omit [LinearOrder α] in
theorem mem_scoresOf {entry : α × Text} : entry ∈ store.scoresOf query path ↔
    entry.2 ∈ store.chunkIdsOf path ∧ ∃ vector,
      store.vectorOf query.length entry.2 = some vector ∧ dot vector query = entry.1 := by
  rw [scoresOf,List.mem_filterMap]
  constructor
  · rintro ⟨id,member,here⟩
    obtain ⟨vector,found,rfl⟩ := Option.map_eq_some_iff.mp here
    exact ⟨member,vector,found,rfl⟩
  · rintro ⟨member,vector,found,scored⟩
    exact ⟨entry.2,member,Option.map_eq_some_iff.mpr ⟨vector,found,Prod.ext scored rfl⟩⟩

omit [Mul α] [AddMonoid α] [LinearOrder α] in
theorem length_of_vectorOf {id : Text} {vector : List α}
    (found : store.vectorOf dimension id = some vector) : vector.length = dimension := by
  obtain ⟨-,length⟩ := Option.filter_eq_some_iff.mp found
  exact of_decide_eq_true length

omit [LinearOrder α] in
/-- The vectors of a packed run are matched with their own chunks by position. -/
theorem scores_of_run (aligned : Aligned store) (some_ : query ≠ []) {row : Document α}
    (stored : store.document path = some row) :
    (((row.vectors query.length).filter fun run => query.length ≤ run.length).elim []
      fun run => (dotProducts run query).zip (store.chunkIdsOf path)) =
        store.scoresOf query path := by
  have positive : 0 < query.length := List.length_pos_iff.mpr some_
  have run := aligned.packed path row stored query.length positive
  have uniform : ∀ vector ∈ store.documentVectors path query.length,
      vector.length = query.length := by
    intro vector member
    rw [documentVectors_eq] at member
    obtain ⟨id,-,found⟩ := List.mem_filterMap.mp member
    exact length_of_vectorOf found
  have scores : (dotProducts (store.documentVectors path query.length).flatten query).zip
      (store.chunkIdsOf path) = store.scoresOf query path := by
    rw [dotProducts,windows_flatten positive uniform,documentVectors_eq,List.map_filterMap]
    have leading : (store.chunkIdsOf path).Pairwise fun a b =>
        ((store.vectorOf query.length b).map fun vector => dot vector query).isSome →
          ((store.vectorOf query.length a).map fun vector => dot vector query).isSome := by
      refine (aligned.leading path).imp fun before later => ?_
      rw [Option.isSome_map,aligned.sound.isSome_vectorOf] at later ⊢
      exact ⟨before later.1,later.2⟩
    have matched := @zip_filterMap _ _ _ _ (fun id : Text => id) _ leading
    rw [List.map_id'] at matched
    rw [matched,scoresOf]
    exact List.filterMap_congr fun id _ => Option.map_map ..
  have silent : (store.documentVectors path query.length).flatten.length < query.length →
      store.scoresOf query path = [] := by
    intro short
    have empty : store.documentVectors path query.length = [] := by
      refine List.eq_nil_iff_forall_not_mem.mpr fun vector member => ?_
      have within := (List.sublist_flatten_of_mem member).length_le
      rw [uniform vector member] at within
      omega
    rw [← scores,empty]
    simp [dotProducts,windows]
  cases packed : row.vectors query.length with
  | none =>
    rw [packed] at run
    refine (silent ?_).symm
    rw [← run]
    exact positive
  | some blob =>
    rw [packed] at run
    by_cases long : query.length ≤ blob.length
    · rw [Option.filter_some,if_pos (decide_eq_true long),← scores,← run]
      rfl
    · rw [Option.filter_some,if_neg (by simpa using long)]
      refine (silent ?_).symm
      rw [← run]
      exact not_le.mp long

omit [Mul α] [AddMonoid α] [LinearOrder α] in
theorem vectorOf_eq_some (sound : Sound store) {id : Text} {vector : List α} :
    store.vectorOf dimension id = some vector ↔ ∃ row ∈ store.scannedRows dimension,
      row.chunkId = id ∧ row.vector = vector := by
  constructor
  · intro found
    obtain ⟨here,length⟩ := Option.filter_eq_some_iff.mp found
    obtain ⟨row,stored,rfl⟩ := Option.map_eq_some_iff.mp here
    have member := List.mem_of_find?_eq_some stored
    have named := List.find?_some stored
    refine ⟨row,List.mem_filter.mpr ⟨member,decide_eq_true ⟨?_,sound.references row member,
      of_decide_eq_true length⟩⟩,of_decide_eq_true named,rfl⟩
    exact (sound.uniform row member).2.symm.trans (of_decide_eq_true length)
  · rintro ⟨row,scanned,rfl,rfl⟩
    obtain ⟨member,shape⟩ := List.mem_filter.mp scanned
    have length := (of_decide_eq_true shape).2.2
    have here : store.embedding row.chunkId = some row :=
      find?_of_distinct sound.embeddingIds member rfl
    rw [vectorOf,here,Option.map_some,Option.filter_some,if_pos (decide_eq_true length)]

omit [LinearOrder α] in
/-- The documents have the scores of the plain scan, each once. -/
theorem scores_perm (sound : Sound store) (query : List α) :
    List.Perm (store.documents.flatMap fun entry => store.scoresOf query entry.1)
      ((store.scannedRows query.length).map fun row => (dot row.vector query,row.chunkId)) := by
  have distinct : ∀ path, (store.chunkIdsOf path).Nodup := by
    intro path
    refine List.Nodup.perm ?_ ((List.perm_insertionSort Chunk.precedes _).map _).symm
    exact sound.chunkIds.sublist (List.filter_sublist.map _)
  refine (List.perm_ext_iff_of_nodup ?_ ?_).mpr fun entry => ?_
  · refine List.nodup_flatMap.mpr ⟨fun document _ => ?_,?_⟩
    · refine (distinct document.1).filterMap fun a b entry first second => ?_
      obtain ⟨_,-,rfl⟩ := Option.map_eq_some_iff.mp first
      obtain ⟨_,-,same⟩ := Option.map_eq_some_iff.mp second
      exact (Prod.mk.inj same).2.symm
    · refine (List.pairwise_map.mp sound.paths).imp fun apart => ?_
      refine List.disjoint_left.mpr fun entry first second => apart ?_
      obtain ⟨a,here,home,id⟩ := mem_chunkIdsOf.mp (mem_scoresOf.mp first).1
      obtain ⟨b,there,house,same⟩ := mem_chunkIdsOf.mp (mem_scoresOf.mp second).1
      have one := eq_of_chunkId sound.chunkIds here there (id.trans same.symm)
      exact home.symm.trans ((congrArg Chunk.documentId one).trans house)
  · refine List.Nodup.of_map Prod.snd ?_
    rw [List.map_map]
    exact sound.embeddingIds.sublist (List.filter_sublist.map _)
  · simp only [List.mem_flatMap,mem_scoresOf,List.mem_map]
    constructor
    · rintro ⟨-,-,-,vector,found,scored⟩
      obtain ⟨row,scanned,named,rfl⟩ := (vectorOf_eq_some sound).mp found
      exact ⟨row,scanned,Prod.ext scored named⟩
    · rintro ⟨row,scanned,rfl⟩
      obtain ⟨-,shape⟩ := List.mem_filter.mp scanned
      obtain ⟨chunk,member,named⟩ := mem_ids.mp (of_decide_eq_true shape).2.1
      obtain ⟨document,stored⟩ := Option.isSome_iff_exists.mp (sound.homes chunk member)
      refine ⟨(chunk.documentId,document),Dict.mem_of_find stored,
        mem_chunkIdsOf.mpr ⟨chunk,member,rfl,named⟩,row.vector,
        (vectorOf_eq_some sound).mpr ⟨row,scanned,rfl,rfl⟩,rfl⟩

omit [Mul α] [AddMonoid α] [LinearOrder α] in
theorem flatMap_packedRuns {γ : Type} (documents : Dict Text (Document α)) (dimension : Nat)
    (f : Text → List α → List γ) :
    (documents.filterMap fun entry => ((entry.2.vectors dimension).filter fun run =>
        dimension ≤ run.length).map fun run => (entry.1,run)).flatMap (fun row => f row.1 row.2) =
      documents.flatMap fun entry => ((entry.2.vectors dimension).filter fun run =>
        dimension ≤ run.length).elim [] fun run => f entry.1 run := by
  induction documents with
  | nil => rfl
  | cons entry rest ih =>
    rw [List.flatMap_cons,← ih]
    cases here : (entry.2.vectors dimension).filter fun run => dimension ≤ run.length with
    | none => rw [List.filterMap_cons_none (by rw [here]; rfl)]; rfl
    | some run => rw [List.filterMap_cons_some (by rw [here]; rfl),List.flatMap_cons]; rfl

/-- Where every document is packed as its chunks stand, the packed search is the plain scan. -/
theorem search_eq_scan (aligned : Aligned store) (query : List α) (topK : Int) :
    (store.search query topK none).1 = store.legacyVectorScan query topK := by
  unfold search legacyVectorScan
  split
  · rfl
  · rename_i asked
    have some_ : query ≠ [] := fun empty => asked (.inl empty)
    split
    · rename_i missing
      have none_ : store.scannedRows query.length = [] := by
        refine List.eq_nil_iff_forall_not_mem.mpr fun row found => missing ?_
        obtain ⟨member,shape⟩ := List.mem_filter.mp found
        have used := (aligned.sound.uniform row member).1
        rw [(of_decide_eq_true shape).1] at used
        exact aligned.sound.column _ used
      rw [none_]
      simp [ranked]
    · dsimp only
      rw [Option.map_none,if_neg (by simp)]
      obtain ⟨current,idCache,kept,-⟩ := chunkIdsForMany_spec aligned.sound.cached
        ((store.packedRuns query.length none).map Prod.fst)
      generalize store.chunkIdsForMany ((store.packedRuns query.length none).map Prod.fst) =
        found at *
      rw [kept]
      refine (ranked_perm ?_ : store.ranked topK _ = _)
      refine List.Perm.trans (List.Perm.of_eq ?_) (scores_perm aligned.sound query)
      have matched : (store.packedRuns query.length none).flatMap (fun row =>
          (dotProducts row.2 query).zip ((found.1.find row.1).getD [])) =
          (store.packedRuns query.length none).flatMap fun row =>
            (dotProducts row.2 query).zip (store.chunkIdsOf row.1) := by
        refine List.flatMap_congr fun row member => ?_
        rw [current row.1 (List.mem_map_of_mem member),Option.getD_some]
      rw [matched,packedRuns]
      simp only [Option.all_none,if_true]
      rw [flatMap_packedRuns store.documents query.length fun path run =>
        (dotProducts run query).zip (store.chunkIdsOf path)]
      refine List.flatMap_congr fun entry member => ?_
      exact scores_of_run aligned some_ (Dict.find_of_mem aligned.sound.paths member)

end Store

end Ranking

inductive StoreStep (α : Type) where
  | delete (path : Text)
  | rename (oldPath newPath : Text)
  | fail (path reason : Text)
  | restamp (path sha256 : Text)
  | index (path : Text) (pieces : List Piece) (sha256 hash : Text) (pruneFts early : Bool)
      (provider : Provider α)
  | complete (path : Text) (provider : Provider α)
  | pass (provider : Provider α)
  | reset
  | search (query : List α) (topK : Int) (allowedPaths : Option (List Text))

namespace StoreStep

variable {α : Type} {settings : Settings} {store : Store α}

def reusedBy (settings : Settings) (store stored : Store α) (early : Bool)
    (chunks : List Chunk) : Dict Text Text :=
  reusable settings (if early then store else stored) chunks

def incomplete (settings : Settings) (store : Store α) (path : Text) : List Chunk :=
  unembedded (store.chunksForDocument path)
    (reusable settings store (store.chunksForDocument path))

/-- One round of `_embed_pending`. -/
def lacking (settings : Settings) (store : Store α) : List Chunk :=
  store.chunksWithoutEmbeddings (max 1 settings.batchSize * 8) settings.model settings.version

section Apply

variable [Mul α] [AddMonoid α] [LinearOrder α]

def apply (settings : Settings) (store : Store α) : StoreStep α → Store α
  | .delete path => store.deleteDocument path
  | .rename oldPath newPath =>
    match store.renameDocument oldPath newPath with
    | .ok (_,renamed) => renamed
    | .error _ => store
  | .fail path reason => store.markDocumentFailed path reason
  | .restamp path sha256 => store.setDocumentSha256 path sha256
  | .index path pieces sha256 hash pruneFts early provider =>
    let chunks := chunkDocument path pieces
    if chunks = [] then store.deleteDocument path
    else
      let stored := store.upsertChunks path chunks sha256 hash pruneFts
      embedChunks settings provider stored chunks (reusedBy settings store stored early chunks)
  | .complete path provider =>
    embedChunks settings provider store (incomplete settings store path) []
  | .pass provider =>
    let chunks := lacking settings store
    embedChunks settings provider store chunks (reusable settings store chunks)
  | .reset => store.reset
  | .search query topK allowedPaths => (store.search query topK allowedPaths).2

def run (settings : Settings) (steps : List (StoreStep α)) (store : Store α) : Store α :=
  steps.foldl (apply settings) store

/-- The ids of new chunks are distinct and unclaimed; the provider's answers leave no chunk
without a vector before one with a vector, in no document; and a document is packed anew
unless its chunks with a vector stay as they were. -/
def Conforms (settings : Settings) (store : Store α) : StoreStep α → Prop
  | .index path pieces sha256 hash pruneFts early provider =>
    let chunks := chunkDocument path pieces
    let stored := store.upsertChunks path chunks sha256 hash pruneFts
    let covered := cover settings provider
      (unembedded chunks (reusedBy settings store stored early chunks)) (coverageOf stored)
    chunks = [] ∨ (Unclaimed store.chunks path pieces ∧ Seamless stored covered ∧
      (path ∈ covered.packed ∨
        store.heldOf (store.chunkIdsOf path) = store.heldOf (ids chunks)))
  | .complete path provider => Seamless store (cover settings provider
      (unembedded (incomplete settings store path) []) (coverageOf store))
  | .pass provider => Seamless store (cover settings provider (unembedded (lacking settings store)
      (reusable settings store (lacking settings store))) (coverageOf store))
  | _ => True

def Conforming (settings : Settings) : List (StoreStep α) → Store α → Prop
  | [],_ => True
  | step :: rest,store =>
    Conforms settings store step ∧ Conforming settings rest (apply settings store step)

omit [Mul α] [AddMonoid α] [LinearOrder α] in
/-- Embedding chunks of the table, so that no gap is left. -/
theorem aligned_embedChunks (aligned : Aligned store) (provider : Provider α)
    {chunks : List Chunk} (reused : Dict Text Text) (there : ∀ chunk ∈ chunks, chunk ∈ store.chunks)
    (seamless : Seamless store (cover settings provider (unembedded chunks reused)
      (coverageOf store))) :
    Aligned (embedChunks settings provider store chunks reused) :=
  (continues_embedChunks provider reused (covers_coverageOf aligned.sound) there).aligned
    aligned.sound seamless fun path => .inr (aligned.packed path)

theorem aligned_search (aligned : Aligned store) (query : List α) (topK : Int)
    (allowedPaths : Option (List Text)) :
    Aligned (store.search query topK allowedPaths).2 := by
  unfold Store.search
  split
  · exact aligned
  · split
    · exact aligned
    · dsimp only
      split
      · exact aligned
      · obtain ⟨-,idCache,kept,current⟩ := Store.chunkIdsForMany_spec aligned.sound.cached
          ((store.packedRuns query.length (allowedPaths.map fun allowed =>
            allowed.filter fun path => path ≠ [])).map Prod.fst)
        rw [kept]
        exact ⟨{aligned.sound with cached := current},aligned.packed,aligned.leading⟩

theorem aligned_apply (aligned : Aligned store) {step : StoreStep α}
    (conforms : Conforms settings store step) : Aligned (apply settings store step) := by
  cases step with
  | delete path => exact Store.aligned_deleteDocument aligned path
  | rename oldPath newPath =>
    rw [apply]
    split
    · rename_i done renamed success
      rcases Store.renameDocument_cases success with rfl | ⟨apart,free,rfl⟩
      · exact aligned
      · exact Store.aligned_renamed aligned apart free
    · exact aligned
  | fail path reason => exact Store.aligned_modifyDocument aligned path fun _ => rfl
  | restamp path sha256 => exact Store.aligned_modifyDocument aligned path fun _ => rfl
  | index path pieces sha256 hash pruneFts early provider =>
    rw [apply]
    dsimp only
    split
    · exact Store.aligned_deleteDocument aligned path
    · rename_i some_
      obtain ⟨unclaimed,seamless,packed⟩ := conforms.resolve_left some_
      have sound := @Store.Sound.upsertChunks _ store path pieces sha256 hash pruneFts
        aligned.sound some_ unclaimed
      have there : ∀ chunk ∈ chunkDocument path pieces, chunk ∈ (store.upsertChunks path
          (chunkDocument path pieces) sha256 hash pruneFts).chunks := by
        intro chunk found
        rw [(Store.upsertChunks_eq some_).1]
        exact (replaceChunks_perm aligned.sound.chunkIds unclaimed).symm.subset
          (List.mem_append_left _ found)
      refine (continues_embedChunks provider _ (covers_coverageOf sound) there).aligned sound
        seamless fun other => ?_
      by_cases same : other = path
      · subst same
        exact packed.imp id fun kept =>
          Store.packed_upsertChunks aligned.sound some_ unclaimed (aligned.packed other) kept
      · exact .inr ((Store.undisturbed_upsertChunks aligned.sound some_ unclaimed same).packed
          (aligned.packed other))
  | complete path provider =>
    refine aligned_embedChunks aligned provider [] (fun chunk found => ?_) conforms
    have listed := (List.mem_filter.mp found).1
    rw [Store.chunksForDocument,rowsOf,List.mem_insertionSort] at listed
    exact (List.mem_filter.mp listed).1
  | pass provider =>
    refine aligned_embedChunks aligned provider _ (fun chunk found => ?_) conforms
    have listed := List.mem_of_mem_take found
    rw [List.mem_insertionSort] at listed
    exact (List.mem_filter.mp listed).1
  | reset => exact Store.aligned_reset store
  | search query topK allowedPaths => exact aligned_search aligned query topK allowedPaths

theorem aligned_run {steps : List (StoreStep α)} (aligned : Aligned store)
    (conforming : Conforming settings steps store) : Aligned (run settings steps store) := by
  induction steps generalizing store with
  | nil => exact aligned
  | cons step rest ih => exact ih (aligned_apply aligned conforming.1) conforming.2

end Apply

end StoreStep

/-- One round of indexing, with the files it reads and what the provider answers, or a
search. A full rebuild is a reset, a round for each note and rounds over the chunks without a
vector; a retry is such rounds. -/
inductive IndexingStep (α : Type) where
  | sync (files : Files) (provider : Provider α) (path : Text)
  | move (files : Files) (provider : Provider α) (oldPath newPath : Text)
  | reindex (files : Files) (provider : Provider α) (path : Text) (embed pruneFts : Bool)
  | pass (provider : Provider α)
  | reset
  | search (query : List α) (topK : Int) (allowedPaths : Option (List Text))

namespace IndexingStep

variable {α : Type} [Mul α] [AddMonoid α] [LinearOrder α] {settings : Settings} {store : Store α}
  {files : Files} {provider : Provider α} {path oldPath newPath : Text}

omit [Mul α] [AddMonoid α] [LinearOrder α] in
/-- What `_reindex_document` writes. -/
def reindexWrites (settings : Settings) (provider : Provider α) (files : Files) (path : Text)
    (embed pruneFts : Bool) : List (StoreStep α) :=
  match files path with
  | none => []
  | some data =>
    match decodeUtf8 data with
    | none => [.fail path notUtf8]
    | some text => [.index path (settings.segment text) (sha256Bytes data) (contentHash text)
        pruneFts false (if embed then provider else none)]

omit [Mul α] [AddMonoid α] [LinearOrder α] in
/-- What `_sync_path` writes. -/
def syncWrites (settings : Settings) (provider : Provider α) (files : Files) (store : Store α)
    (path : Text) : List (StoreStep α) :=
  match files path with
  | none => if (store.document path).isNone then [] else [.delete path]
  | some data =>
    match decodeUtf8 data with
    | none => [.fail path notUtf8]
    | some text =>
      if store.documentContentHash path = some (contentHash text) then [.complete path provider]
      else [.index path (settings.segment text) (sha256Bytes data) (contentHash text) true true
        provider]

theorem reindexDocument_eq (embed pruneFts : Bool) :
    reindexDocument settings provider files store path embed pruneFts =
      StoreStep.run settings (reindexWrites settings provider files path embed pruneFts) store := by
  unfold reindexDocument reindexWrites
  cases files path with
  | none => rfl
  | some data =>
    dsimp only
    cases decodeUtf8 data with
    | none => rfl
    | some text =>
      cases embed with
      | true => rfl
      | false =>
        refine Eq.trans ?_ (rfl : StoreStep.apply settings store (.index path
          (settings.segment text) (sha256Bytes data) (contentHash text) pruneFts false none) = _)
        rw [StoreStep.apply]
        rfl

theorem syncPath_eq : syncPath settings provider files store path =
    StoreStep.run settings (syncWrites settings provider files store path) store := by
  unfold syncPath syncWrites
  cases files path with
  | none =>
    dsimp only
    split <;> rfl
  | some data =>
    dsimp only
    cases decodeUtf8 data with
    | none => rfl
    | some text =>
      dsimp only
      split <;> rfl

variable [Host]

omit [Mul α] [AddMonoid α] [LinearOrder α] in
/-- What the full re-index at the end of `_apply_move` writes. -/
def movedWrites (settings : Settings) (provider : Provider α) (files : Files)
    (oldPath newPath : Text) : List (StoreStep α) :=
  .delete oldPath :: if newPath ≠ [] && isMarkdown newPath then
    reindexWrites settings provider files newPath true true else []

omit [Mul α] [AddMonoid α] [LinearOrder α] in
/-- What `_apply_move` writes. -/
def moveWrites (settings : Settings) (provider : Provider α) (files : Files) (store : Store α)
    (oldPath newPath : Text) : List (StoreStep α) :=
  if isMarkdown oldPath && isMarkdown newPath then
    match store.documentContentHash oldPath with
    | none => movedWrites settings provider files oldPath newPath
    | some storedHash =>
      match files newPath with
      | none => [.delete oldPath]
      | some data =>
        match decodeUtf8 data with
        | none => [.delete oldPath,.fail newPath notUtf8]
        | some text =>
          if contentHash text = storedHash then
            match store.renameDocument oldPath newPath with
            | .ok (true,_) => [.rename oldPath newPath,.restamp newPath (sha256Bytes data)]
            | .ok (false,_) => movedWrites settings provider files oldPath newPath
            | .error _ => []
          else movedWrites settings provider files oldPath newPath
  else movedWrites settings provider files oldPath newPath

theorem reindexMoved_eq : reindexMoved settings provider files store oldPath newPath =
    StoreStep.run settings (movedWrites settings provider files oldPath newPath) store := by
  unfold reindexMoved movedWrites
  dsimp only
  split
  · exact reindexDocument_eq true true
  · rfl

theorem moveDocument_eq : moveDocument settings provider files store oldPath newPath =
    StoreStep.run settings (moveWrites settings provider files store oldPath newPath) store := by
  unfold moveDocument moveWrites
  split
  · cases store.documentContentHash oldPath with
    | none => exact reindexMoved_eq
    | some storedHash =>
      dsimp only
      cases files newPath with
      | none => rfl
      | some data =>
        dsimp only
        cases decodeUtf8 data with
        | none => rfl
        | some text =>
          dsimp only
          split
          · cases renamed : store.renameDocument oldPath newPath with
            | error message => rfl
            | ok result =>
              obtain ⟨done,moved⟩ := result
              cases done with
              | true => simp [StoreStep.run,StoreStep.apply,renamed]
              | false => exact reindexMoved_eq
          · exact reindexMoved_eq
  · exact reindexMoved_eq

def apply (settings : Settings) (store : Store α) : IndexingStep α → Store α
  | .sync files provider path => syncPath settings provider files store path
  | .move files provider oldPath newPath =>
    moveDocument settings provider files store oldPath newPath
  | .reindex files provider path embed pruneFts =>
    reindexDocument settings provider files store path embed pruneFts
  | .pass provider =>
    let chunks := StoreStep.lacking settings store
    embedChunks settings provider store chunks (reusable settings store chunks)
  | .reset => store.reset
  | .search query topK allowedPaths => (store.search query topK allowedPaths).2

def run (settings : Settings) (steps : List (IndexingStep α)) (store : Store α) : Store α :=
  steps.foldl (apply settings) store

def writes (settings : Settings) (store : Store α) : IndexingStep α → List (StoreStep α)
  | .sync files provider path => syncWrites settings provider files store path
  | .move files provider oldPath newPath =>
    moveWrites settings provider files store oldPath newPath
  | .reindex files provider path embed pruneFts =>
    reindexWrites settings provider files path embed pruneFts
  | .pass provider => [.pass provider]
  | .reset => [.reset]
  | .search query topK allowedPaths => [.search query topK allowedPaths]

theorem apply_eq (step : IndexingStep α) :
    apply settings store step = StoreStep.run settings (writes settings store step) store := by
  cases step with
  | sync files provider path => exact syncPath_eq
  | move files provider oldPath newPath => exact moveDocument_eq
  | reindex files provider path embed pruneFts => exact reindexDocument_eq embed pruneFts
  | pass provider => rfl
  | reset => rfl
  | search query topK allowedPaths => rfl

/-- Every write of every step conforms where it finds the store. -/
def Conforming (settings : Settings) : List (IndexingStep α) → Store α → Prop
  | [],_ => True
  | step :: rest,store => StoreStep.Conforming settings (writes settings store step) store ∧
      Conforming settings rest (apply settings store step)

theorem aligned_run {steps : List (IndexingStep α)} (aligned : Aligned store)
    (conforming : Conforming settings steps store) : Aligned (run settings steps store) := by
  induction steps generalizing store with
  | nil => exact aligned
  | cons step rest ih =>
    refine ih ?_ conforming.2
    rw [apply_eq]
    exact StoreStep.aligned_run aligned conforming.1

/-- In every conforming run from an empty store, the packed search returns what the plain scan
returns, and so does any part of it above a threshold. -/
theorem search_eq_scan_of_run {steps : List (IndexingStep α)}
    (conforming : Conforming settings steps ({} : Store α)) (query : List α) (topK : Int) :
    ((run settings steps ({} : Store α)).search query topK none).1 =
        (run settings steps ({} : Store α)).legacyVectorScan query topK ∧
      ∀ minScore, Store.reaching minScore
          ((run settings steps ({} : Store α)).search query topK none).1 =
        Store.reaching minScore
          ((run settings steps ({} : Store α)).legacyVectorScan query topK) := by
  have agree := Store.search_eq_scan
    (aligned_run (Store.aligned_reset ({} : Store α)) conforming) query topK
  exact ⟨agree,fun minScore => congrArg (Store.reaching minScore) agree⟩

end IndexingStep

section Deciding

variable {α : Type} [Mul α] [AddMonoid α] [LinearOrder α]

omit [Mul α] [AddMonoid α] [LinearOrder α] in
instance (store : Store α) (c : Coverage) : Decidable (Seamless store c) :=
  inferInstanceAs (Decidable (∀ path ∈ _,List.Pairwise _ _))

instance (table : List Chunk) (document : Text) (pieces : List Piece) :
    Decidable (Unclaimed table document pieces) :=
  inferInstanceAs (Decidable (_ ∧ ∀ row ∈ table,_ → _))

instance (settings : Settings) (store : Store α) (step : StoreStep α) :
    Decidable (StoreStep.Conforms settings store step) :=
  match step with
  | .index _ _ _ _ _ _ _ => inferInstanceAs (Decidable (_ ∨ (Unclaimed _ _ _ ∧ Seamless _ _ ∧ _)))
  | .complete _ _ => inferInstanceAs (Decidable (Seamless _ _))
  | .pass _ => inferInstanceAs (Decidable (Seamless _ _))
  | .delete _ | .rename _ _ | .fail _ _ | .restamp _ _ | .reset | .search _ _ _ => .isTrue trivial

instance StoreStep.decideConforming (settings : Settings) : (steps : List (StoreStep α)) →
    (store : Store α) → Decidable (StoreStep.Conforming settings steps store)
  | [],_ => .isTrue trivial
  | step :: rest,store =>
    @instDecidableAnd _ _ inferInstance
      (decideConforming settings rest (StoreStep.apply settings store step))

instance IndexingStep.decideConforming [Host] (settings : Settings) :
    (steps : List (IndexingStep α)) → (store : Store α) →
      Decidable (IndexingStep.Conforming settings steps store)
  | [],_ => .isTrue trivial
  | step :: rest,store =>
    @instDecidableAnd _ _ inferInstance
      (decideConforming settings rest (IndexingStep.apply settings store step))

end Deciding

section Runs

open scoped AsciiHost

def letters : Settings where
  segment := fun text => text.map fun letter => {content := [letter],embeddingText := [letter]}
  model := []
  version := []
  batchSize := 1

/-- The vector of a text is the code of its first character. There is none for a `C`. -/
def letterBatch (texts : List Text) : Except Text (Batch Nat) :=
  if ['C'] ∈ texts then .error []
  else .ok {dimension := 1,vectors := texts.map fun text => [(text.headD 'A').toNat],
            positive := Nat.one_pos,uniform := fun vector found => by
              obtain ⟨text,-,rfl⟩ := List.mem_map.mp found
              rfl}

def noteOf (text : Text) : Files := fun path =>
  if path = "a.md".toList then some (encodeUtf8 text) else none

def syncNote (text : Text) : IndexingStep Nat := .sync (noteOf text) (some letterBatch) "a.md".toList

def grownNote : List (IndexingStep Nat) := [syncNote "AB".toList,syncNote "ABC".toList]

def shortenedNote : List (IndexingStep Nat) := [syncNote "AB".toList,syncNote "B".toList]

theorem grownNote_agrees :
    ((IndexingStep.run letters grownNote ({} : Store Nat)).search [1] 5 none).1 =
        (IndexingStep.run letters grownNote ({} : Store Nat)).legacyVectorScan [1] 5 ∧
      ∀ minScore, Store.reaching minScore
          ((IndexingStep.run letters grownNote ({} : Store Nat)).search [1] 5 none).1 =
        Store.reaching minScore
          ((IndexingStep.run letters grownNote ({} : Store Nat)).legacyVectorScan [1] 5) :=
  IndexingStep.search_eq_scan_of_run (by decide +kernel) [1] 5

/-- The packed search scores the second letter with the vector of the first. -/
theorem shortenedNote_differs :
    ((IndexingStep.run letters shortenedNote ({} : Store Nat)).search [1] 5 none).1 ≠
      (IndexingStep.run letters shortenedNote ({} : Store Nat)).legacyVectorScan [1] 5 := by
  intro same
  have scores := congrArg (List.map Hit.score) same
  exact absurd scores (by decide +kernel)

end Runs

end LocalBook.Rag
