import LocalBook.Rag.Searching

/-! The status of the RAG index, recounted from the tables at every report, and the embedding
settings of the running service, which may change while the tables stay. -/
namespace LocalBook.Rag

inductive IndexStatus where
  | empty
  | ready
  | pending
  | failed
  | outdated
deriving Repr,DecidableEq

/-- `RAGIndexState`, the row of `rag_index_state`, without its time stamp. -/
structure IndexState where
  embeddingProvider : Text := []
  embeddingModel : Text := []
  embeddingDimension : Nat := 0
  embeddingVersion : Text := []
  indexedDocuments : Nat := 0
  chunkCount : Nat := 0
  status : IndexStatus := .empty
  pending : Nat := 0
  failed : Nat := 0
deriving Repr,DecidableEq

/-- What a running service embeds with: the class of its provider, empty without one, and the
dimension of its vectors. -/
structure Embedder extends Settings where
  provider : Text
  dimension : Nat

def Embedder.labels (embedder : Embedder) : Text × Text × Nat × Text :=
  (embedder.provider,embedder.model,embedder.dimension,embedder.version)

structure RagIndex (α : Type) where
  embedder : Embedder
  store : Store α := {}
  state : IndexState := {}

/-- A round of indexing or a search, a report of the status, the end of a rebuild, a flag set from
outside, and a new stack on the same tables, with or without the rebuild at its start. -/
inductive RagStep (α : Type) where
  | index (step : IndexingStep α)
  | report
  | rebuilt
  | markOutdated
  | reconfigure (embedder : Embedder) (rebuilds : Bool)

section Status

variable {α : Type}

def Store.withStatus (store : Store α) (status : DocumentStatus) : Nat :=
  store.documents.countP fun entry => entry.2.status = status

def Store.missing (store : Store α) : List Chunk :=
  store.chunks.filter fun chunk => (store.embedding chunk.chunkId).isNone

/-- `refresh_counts`. -/
def refreshCounts (store : Store α) (state : IndexState) : IndexState :=
  {state with
    indexedDocuments := store.documents.length
    chunkCount := store.chunks.length
    pending := store.withStatus .pending
    failed := store.withStatus .failed
    status :=
      if store.chunks.length = 0 then .empty
      else if store.missing.length = 0 then .ready
      else if store.withStatus .failed ≠ 0 then .failed
      else .pending}

def Embedder.overlay (embedder : Embedder) (state : IndexState) : IndexState :=
  {state with
    embeddingProvider := embedder.provider
    embeddingModel := embedder.model
    embeddingVersion := embedder.version
    embeddingDimension :=
      if embedder.dimension ≠ 0 then embedder.dimension else state.embeddingDimension}

/-- What `reset` leaves of the saved state. -/
def cleared (state : IndexState) : IndexState := {state with pending := 0,failed := 0}

/-- `ensure_ready` of a new store object: the column in use is the one of the saved state. -/
def reopened (store : Store α) (state : IndexState) : Store α :=
  {store with
    embeddingColumn := if 0 < state.embeddingDimension then some state.embeddingDimension else none
    idCache := []}

namespace RagIndex

variable [Mul α] [AddMonoid α] [LinearOrder α] [Host]

omit [Mul α] [AddMonoid α] [LinearOrder α] [Host] in
/-- `index_status`: what is reported. -/
def indexStatus (w : RagIndex α) : IndexState :=
  w.embedder.overlay (refreshCounts w.store w.state)

omit [Mul α] [AddMonoid α] [LinearOrder α] [Host] in
def stateAfter (state : IndexState) : IndexingStep α → IndexState
  | .reset => cleared state
  | _ => state

def step (w : RagIndex α) : RagStep α → RagIndex α
  | .index round =>
    {w with
      store := round.apply w.embedder.toSettings w.store
      state := stateAfter w.state round}
  | .report => {w with state := refreshCounts w.store w.state}
  | .rebuilt =>
    {w with state := {refreshCounts w.store w.state with
      embeddingProvider := w.embedder.provider
      embeddingModel := w.embedder.model
      embeddingVersion := w.embedder.version
      embeddingDimension := w.embedder.dimension}}
  | .markOutdated => {w with state := {w.state with status := .outdated}}
  | .reconfigure embedder rebuilds =>
    let opened := reopened w.store w.state
    {w with
      embedder
      store := if rebuilds then opened.reset else opened
      state := if rebuilds then cleared w.state else w.state}

def run (steps : List (RagStep α)) (w : RagIndex α) : RagIndex α := steps.foldl step w

end RagIndex

end Status

/-! The vectors that are current: `made` tells the vectors that a provider has made. -/
section Currency

variable {α : Type} (made : Text → List α → Prop)

structure Labelled (embedder : Embedder) (row : Embedding α) : Prop where
  provider : made embedder.provider row.vector
  model : row.model = embedder.model
  version : row.version = embedder.version
  dimension : row.dimension = embedder.dimension ∧ row.vector.length = embedder.dimension

structure Current (embedder : Embedder) (chunk : Chunk) (row : Embedding α) : Prop
    extends Labelled made embedder row where
  content : row.contentHash = chunk.hash

namespace RagIndex

def AllCurrent (w : RagIndex α) : Prop :=
  ∀ chunk ∈ w.store.chunks,∃ row ∈ w.store.embeddings,
    row.chunkId = chunk.chunkId ∧ Current made w.embedder chunk row

def Truthful (w : RagIndex α) : Prop := w.indexStatus.status = .ready → w.AllCurrent made

end RagIndex

def IndexingStep.provider : IndexingStep α → Provider α
  | .sync _ provider _ => provider
  | .move _ provider _ _ => provider
  | .reindex _ provider _ _ _ => provider
  | .pass provider => provider
  | .reset => none
  | .search _ _ _ => none

def Supplies (embedder : Embedder) (provider : Provider α) : Prop :=
  ∀ embed ∈ provider,∀ texts batch,embed texts = .ok batch →
    batch.dimension = embedder.dimension ∧ ∀ vector ∈ batch.vectors,made embedder.provider vector

def StoreStep.provider : StoreStep α → Provider α
  | .index _ _ _ _ _ _ provider => provider
  | .complete _ provider => provider
  | .pass provider => provider
  | _ => none

def StoreStep.Apart (store : Store α) : StoreStep α → Prop
  | .index path pieces _ _ _ _ _ => ∀ chunk ∈ chunkDocument path pieces,
      ∀ row ∈ store.embeddings,row.chunkId = chunk.chunkId → row.contentHash = chunk.hash
  | _ => True

variable [Mul α] [AddMonoid α] [LinearOrder α]

def StoreStep.AllApart (settings : Settings) : List (StoreStep α) → Store α → Prop
  | [],_ => True
  | step :: rest,store => step.Apart store ∧ AllApart settings rest (step.apply settings store)

variable [Host]

namespace RagIndex

def Supplied (w : RagIndex α) : RagStep α → Prop
  | .index round => Supplies made w.embedder round.provider
  | _ => True

/-- The settings change while no vector is stored, or with a rebuild; and ids of chunks are kept
apart. -/
def Keeps (w : RagIndex α) : RagStep α → Prop
  | .index round => StoreStep.AllApart w.embedder.toSettings
      (round.writes w.embedder.toSettings w.store) w.store
  | .reconfigure embedder rebuilds =>
    rebuilds = true ∨ w.store.embeddings = [] ∨ embedder.labels = w.embedder.labels
  | _ => True

def AllSupplied : List (RagStep α) → RagIndex α → Prop
  | [],_ => True
  | step :: rest,w => w.Supplied made step ∧ AllSupplied rest (w.step step)

def AllKept : List (RagStep α) → RagIndex α → Prop
  | [],_ => True
  | step :: rest,w => w.Keeps step ∧ AllKept rest (w.step step)

end RagIndex

end Currency

section Providers

variable {α : Type} {settings : Settings} {provider : Provider α} {files : Files}
  {store : Store α} {path oldPath newPath : Text} {embed pruneFts : Bool}

theorem provider_reindexWrites :
    ∀ write ∈ IndexingStep.reindexWrites settings provider files path embed pruneFts,
      write.provider = none ∨ write.provider = provider := by
  unfold IndexingStep.reindexWrites
  split
  · simp
  · split
    · simp [StoreStep.provider]
    · cases embed <;> simp [StoreStep.provider]

theorem provider_syncWrites :
    ∀ write ∈ IndexingStep.syncWrites settings provider files store path,
      write.provider = none ∨ write.provider = provider := by
  unfold IndexingStep.syncWrites
  split
  · split <;> simp [StoreStep.provider]
  · split
    · simp [StoreStep.provider]
    · split <;> simp [StoreStep.provider]

variable [Host]

theorem provider_movedWrites :
    ∀ write ∈ IndexingStep.movedWrites settings provider files oldPath newPath,
      write.provider = none ∨ write.provider = provider := by
  intro write member
  unfold IndexingStep.movedWrites at member
  rcases List.mem_cons.mp member with rfl | later
  · exact .inl rfl
  · split at later
    · exact provider_reindexWrites write later
    · cases later

theorem provider_moveWrites :
    ∀ write ∈ IndexingStep.moveWrites settings provider files store oldPath newPath,
      write.provider = none ∨ write.provider = provider := by
  unfold IndexingStep.moveWrites
  split
  · split
    · exact provider_movedWrites
    · split
      · simp [StoreStep.provider]
      · split
        · simp [StoreStep.provider]
        · split
          · split
            · simp [StoreStep.provider]
            · exact provider_movedWrites
            · simp
          · exact provider_movedWrites
  · exact provider_movedWrites

end Providers

section Writing

variable {α : Type} {made : Text → List α → Prop} {embedder : Embedder}
  {store store' store'' : Store α}

/-- What an embedding call writes: vectors of stored chunks by the current settings. -/
structure Writes (made : Text → List α → Prop) (embedder : Embedder) (store store' : Store α) :
    Prop where
  chunks : store'.chunks = store.chunks
  rows : ∀ row ∈ store'.embeddings,row ∈ store.embeddings ∨
    ∃ chunk ∈ store.chunks,row.chunkId = chunk.chunkId ∧ Current made embedder chunk row

theorem Writes.refl (store : Store α) : Writes made embedder store store :=
  ⟨rfl,fun _ => .inl⟩

theorem Writes.trans (first : Writes made embedder store store')
    (second : Writes made embedder store' store'') : Writes made embedder store store'' := by
  refine ⟨second.chunks.trans first.chunks,fun row found => ?_⟩
  rcases second.rows row found with before | ⟨chunk,there,written⟩
  · exact first.rows row before
  · exact .inr ⟨chunk,first.chunks ▸ there,written⟩

theorem writes_foldl {β : Type} {f : Store α → β → Store α} {items : List β}
    (each : ∀ store,∀ item ∈ items,Writes made embedder store (f store item)) (store : Store α) :
    Writes made embedder store (items.foldl f store) := by
  induction items generalizing store with
  | nil => exact Writes.refl store
  | cons item rest ih =>
    have later := ih (fun store other member => each store other (List.mem_cons_of_mem _ member))
    exact (each store item (List.mem_cons_self ..)).trans (later (f store item))

theorem writes_modifyDocument (store : Store α) (path : Text)
    (change : Document α → Document α) :
    Writes made embedder store (store.modifyDocument path change) := ⟨rfl,fun _ => .inl⟩

theorem writes_ensureEmbeddingColumn (store : Store α) (dimension : Nat) :
    Writes made embedder store (store.ensureEmbeddingColumn dimension) := by
  unfold Store.ensureEmbeddingColumn
  split
  · exact Writes.refl store
  · cases store.embeddingColumn with
    | none => exact ⟨rfl,fun _ => .inl⟩
    | some previous => exact ⟨rfl,fun row found => by cases found⟩

theorem rows_storeVectors {found : List Chunk} {entries : List (Text × List α)} {dimension : Nat}
    (ours : ∀ entry ∈ entries,made embedder.provider entry.2 ∧ entry.2.length = dimension)
    (same : dimension = embedder.dimension) (embeddings : List (Embedding α)) :
    ∀ row ∈ entries.foldl (Store.storeVector embedder.model embedder.version dimension found) embeddings,
      row ∈ embeddings ∨
        ∃ chunk ∈ found,row.chunkId = chunk.chunkId ∧ Current made embedder chunk row := by
  induction entries generalizing embeddings with
  | nil => exact fun row member => .inl member
  | cons entry rest ih =>
    intro row member
    rw [List.foldl_cons] at member
    have later := ih (fun other listed => ours other (List.mem_cons_of_mem _ listed)) _ row member
    obtain ⟨mine,long⟩ := ours entry (List.mem_cons_self ..)
    rcases later with stored | written
    · rw [Store.storeVector] at stored
      split at stored
      · exact .inl stored
      · next chunk named =>
        have listed := List.mem_of_find?_eq_some named
        have current : Current made embedder chunk
            (Store.embeddingRow embedder.model embedder.version dimension chunk entry.2) :=
          ⟨⟨mine,rfl,rfl,same,long.trans same⟩,rfl⟩
        rcases mem_insertEmbedding stored with before | rfl | ⟨old,_,_,rfl⟩
        · exact .inl before
        · exact .inr ⟨chunk,listed,rfl,current⟩
        · exact .inr ⟨chunk,listed,rfl,⟨⟨mine,rfl,rfl,same,long.trans same⟩,rfl⟩⟩
    · exact .inr written

theorem writes_upsertEmbeddings (store : Store α) (chunkIds : List Text) {batch : Batch α}
    (same : batch.dimension = embedder.dimension)
    (ours : ∀ vector ∈ batch.vectors,made embedder.provider vector) :
    Writes made embedder store
      (store.upsertEmbeddings chunkIds batch embedder.model embedder.version) := by
  unfold Store.upsertEmbeddings
  split
  · exact Writes.refl store
  · apply (writes_ensureEmbeddingColumn store batch.dimension).trans
    generalize store.ensureEmbeddingColumn batch.dimension = store
    dsimp only
    have vectors : Writes made embedder store {store with
        embeddings := (chunkIds.zip batch.vectors).foldl
          (Store.storeVector embedder.model embedder.version batch.dimension
            (store.chunks.filter fun row => row.chunkId ∈ chunkIds)) store.embeddings} := by
      refine ⟨rfl,fun row member => ?_⟩
      have listed := rows_storeVectors (fun entry there => by
        have vector := (List.of_mem_zip there).2
        exact ⟨ours _ vector,batch.uniform _ vector⟩) same store.embeddings row member
      exact listed.imp_right fun ⟨chunk,there,written⟩ =>
        ⟨chunk,(List.mem_filter.mp there).1,written⟩
    apply vectors.trans
    have packs (store : Store α) (path : Text) :
        Writes made embedder store (store.repackDocument batch.dimension path) :=
      writes_modifyDocument store path _
    apply (writes_foldl (fun store path _ => packs store path) _).trans
    split
    · exact Writes.refl _
    · exact ⟨rfl,fun row member => .inl (mem_cascade member).1⟩

theorem writes_embedWindow {embed : List Text → Except Text (Batch α)}
    (supplies : Supplies made embedder (some embed)) (store : Store α) (window : List Chunk) :
    Writes made embedder store (embedWindow embedder.toSettings embed store window) := by
  unfold embedWindow
  split
  · exact writes_foldl (fun store path _ => writes_modifyDocument store path _) store
  · next batch answered =>
    obtain ⟨same,ours⟩ := supplies embed rfl _ batch answered
    split
    · exact Writes.refl store
    · exact writes_upsertEmbeddings store _ same ours

theorem writes_embedChunks {provider : Provider α} (supplies : Supplies made embedder provider)
    (store : Store α) (chunks : List Chunk) (reused : Dict Text Text) :
    Writes made embedder store
      (embedChunks embedder.toSettings provider store chunks reused) := by
  unfold embedChunks
  split
  · exact Writes.refl store
  · exact writes_foldl (fun store window _ => writes_embedWindow supplies store window) store

end Writing

section Freshness

variable {α : Type} {made : Text → List α → Prop} {embedder : Embedder} {store store' : Store α}

/-- Every vector is by the current settings, and of the content of the chunk it stands for. -/
structure Fresh (made : Text → List α → Prop) (embedder : Embedder) (store : Store α) :
    Prop where
  chunkIds : (ids store.chunks).Nodup
  labels : ∀ row ∈ store.embeddings,Labelled made embedder row
  contents : ∀ row ∈ store.embeddings,∀ chunk ∈ store.chunks,row.chunkId = chunk.chunkId →
    row.contentHash = chunk.hash

theorem Fresh.writes (fresh : Fresh made embedder store)
    (writes : Writes made embedder store store') : Fresh made embedder store' := by
  constructor
  · rw [writes.chunks]
    exact fresh.chunkIds
  · intro row found
    rcases writes.rows row found with before | ⟨_,_,_,current⟩
    · exact fresh.labels row before
    · exact current.toLabelled
  · intro row found chunk there named
    rw [writes.chunks] at there
    rcases writes.rows row found with before | ⟨written,stored,own,current⟩
    · exact fresh.contents row before chunk there named
    · rw [eq_of_chunkId fresh.chunkIds there stored (named.symm.trans own)]
      exact current.content

/-- Rows may go, and chunks may come that no vector of other content stands for. -/
theorem Fresh.part (fresh : Fresh made embedder store) (distinct : (ids store'.chunks).Nodup)
    (rows : ∀ row ∈ store'.embeddings,row ∈ store.embeddings)
    (chunks : ∀ chunk ∈ store'.chunks,chunk ∈ store.chunks ∨
      ∀ row ∈ store.embeddings,row.chunkId = chunk.chunkId → row.contentHash = chunk.hash) :
    Fresh made embedder store' := by
  refine ⟨distinct,fun row found => fresh.labels row (rows row found),?_⟩
  intro row found chunk there named
  rcases chunks chunk there with before | new
  · exact fresh.contents row (rows row found) chunk before named
  · exact new row (rows row found) named

theorem Fresh.sameTables (fresh : Fresh made embedder store) (chunks : store'.chunks = store.chunks)
    (embeddings : store'.embeddings = store.embeddings) : Fresh made embedder store' :=
  fresh.writes ⟨chunks,fun _ found => .inl (embeddings ▸ found)⟩

theorem fresh_empty : Fresh made embedder ({} : Store α) :=
  ⟨List.nodup_nil,fun _ found => (by cases found),fun _ found => (by cases found)⟩

theorem fresh_deleteDocument (fresh : Fresh made embedder store) (path : Text) :
    Fresh made embedder (store.deleteDocument path) := by
  apply fresh.part
  · exact fresh.chunkIds.sublist (List.filter_sublist.map _)
  · exact fun row found => (mem_cascade found).1
  · exact fun chunk there => .inl (List.mem_of_mem_filter there)

theorem hash_repoint (oldPath newPath : Text) (chunk : Chunk) :
    (repoint oldPath newPath chunk).hash = chunk.hash := by
  unfold repoint
  split <;> rfl

theorem fresh_renamed (fresh : Fresh made embedder store) (oldPath newPath : Text) :
    Fresh made embedder (store.renamed oldPath newPath) := by
  have origin {row : Embedding α} (found : row ∈ (store.renamed oldPath newPath).embeddings) :
      ∃ old ∈ store.embeddings,row = {old with documentId := row.documentId} := by
    obtain ⟨old,before,rfl⟩ := List.mem_map.mp found
    refine ⟨old,before,?_⟩
    split <;> rfl
  constructor
  · exact (Store.ids_repoint store.chunks).symm ▸ fresh.chunkIds
  · intro row found
    obtain ⟨old,before,same⟩ := origin found
    have labelled := fresh.labels old before
    rw [same]
    exact ⟨labelled.provider,labelled.model,labelled.version,labelled.dimension⟩
  · intro row found chunk there named
    obtain ⟨old,before,same⟩ := origin found
    obtain ⟨chunk',stored,rfl⟩ := List.mem_map.mp there
    rw [Store.repoint_chunkId] at named
    rw [same] at named ⊢
    rw [hash_repoint]
    exact fresh.contents old before chunk' stored named

theorem mem_insertAll {rows table : List Chunk} {chunk : Chunk}
    (found : chunk ∈ rows.foldl insertChunk table) : chunk ∈ rows ∨ chunk ∈ table := by
  induction rows generalizing table with
  | nil => exact .inr found
  | cons row rest ih =>
    rcases ih found with later | before
    · exact .inl (List.mem_cons_of_mem _ later)
    · exact (Store.mem_insertChunk before).imp_left fun same => List.mem_cons.mpr (.inl same)

theorem fresh_upsertChunks (fresh : Fresh made embedder store) {path sha256 hash : Text}
    {pieces : List Piece} {pruneFts : Bool} (some' : chunkDocument path pieces ≠ [])
    (apart : ∀ chunk ∈ chunkDocument path pieces,∀ row ∈ store.embeddings,
      row.chunkId = chunk.chunkId → row.contentHash = chunk.hash) :
    Fresh made embedder
      (store.upsertChunks path (chunkDocument path pieces) sha256 hash pruneFts) := by
  obtain ⟨chunks,embeddings,_⟩ := @Store.upsertChunks_eq _ store path pieces sha256 hash
    pruneFts some'
  apply fresh.part
  · rw [chunks]
    exact nodup_ids_insertAll (fresh.chunkIds.sublist (List.filter_sublist.map _)) _
  · intro row found
    rw [embeddings] at found
    exact (mem_cascade found).1
  · intro chunk there
    rw [chunks] at there
    rcases mem_insertAll there with new | before
    · exact .inr (apart chunk new)
    · exact .inl (List.mem_of_mem_filter before)

theorem fresh_embedChunks {provider : Provider α} (fresh : Fresh made embedder store)
    (supplies : Supplies made embedder provider) (chunks : List Chunk) (reused : Dict Text Text) :
    Fresh made embedder (embedChunks embedder.toSettings provider store chunks reused) :=
  fresh.writes (writes_embedChunks supplies store chunks reused)

section Steps

variable [Mul α] [AddMonoid α] [LinearOrder α]

theorem fresh_search (fresh : Fresh made embedder store) (query : List α) (topK : Int)
    (allowedPaths : Option (List Text)) :
    Fresh made embedder (store.search query topK allowedPaths).2 := by
  unfold Store.search
  split
  · exact fresh
  · split
    · exact fresh
    · dsimp only
      split
      · exact fresh
      · exact fresh.sameTables rfl rfl

theorem fresh_apply (fresh : Fresh made embedder store) {step : StoreStep α}
    (supplies : Supplies made embedder step.provider) (apart : step.Apart store) :
    Fresh made embedder (step.apply embedder.toSettings store) := by
  cases step with
  | delete path => exact fresh_deleteDocument fresh path
  | rename oldPath newPath =>
    rw [StoreStep.apply]
    split
    · next done renamed success =>
      rcases Store.renameDocument_cases success with rfl | ⟨_,_,rfl⟩
      · exact fresh
      · exact fresh_renamed fresh oldPath newPath
    · exact fresh
  | fail path reason => exact fresh.sameTables rfl rfl
  | restamp path sha256 => exact fresh.sameTables rfl rfl
  | index path pieces sha256 hash pruneFts early provider =>
    rw [StoreStep.apply]
    dsimp only
    split
    · exact fresh_deleteDocument fresh path
    · next some' =>
      exact fresh_embedChunks (fresh_upsertChunks fresh some' apart) supplies _ _
  | complete path provider => exact fresh_embedChunks fresh supplies _ _
  | pass provider => exact fresh_embedChunks fresh supplies _ _
  | reset => exact fresh_empty.sameTables rfl rfl
  | search query topK allowedPaths => exact fresh_search fresh query topK allowedPaths

theorem fresh_writes {steps : List (StoreStep α)} (fresh : Fresh made embedder store)
    (supplies : ∀ step ∈ steps,Supplies made embedder step.provider)
    (apart : StoreStep.AllApart embedder.toSettings steps store) :
    Fresh made embedder (StoreStep.run embedder.toSettings steps store) := by
  induction steps generalizing store with
  | nil => exact fresh
  | cons step rest ih =>
    apply ih
    · exact fresh_apply fresh (supplies step (List.mem_cons_self ..)) apart.1
    · exact fun later member => supplies later (List.mem_cons_of_mem _ member)
    · exact apart.2

variable [Host]

omit [Mul α] [AddMonoid α] [LinearOrder α] in
theorem supplies_writes {settings : Settings} {round : IndexingStep α}
    (supplies : Supplies made embedder round.provider) :
    ∀ write ∈ round.writes settings store,Supplies made embedder write.provider := by
  intro write member
  have own : write.provider = none ∨ write.provider = round.provider := by
    cases round with
    | sync files provider path => exact provider_syncWrites write member
    | move files provider oldPath newPath => exact provider_moveWrites write member
    | reindex files provider path embed pruneFts => exact provider_reindexWrites write member
    | pass provider =>
      rw [List.mem_singleton.mp member]
      exact .inr rfl
    | reset =>
      rw [List.mem_singleton.mp member]
      exact .inl rfl
    | search query topK allowedPaths =>
      rw [List.mem_singleton.mp member]
      exact .inl rfl
  rcases own with idle | own
  · rw [idle]
    exact fun _ impossible => by cases impossible
  · rw [own]
    exact supplies

namespace RagIndex

variable {w : RagIndex α}

theorem fresh_step (fresh : Fresh made w.embedder w.store) {step : RagStep α}
    (supplied : w.Supplied made step) (keeps : w.Keeps step) :
    Fresh made (w.step step).embedder (w.step step).store := by
  cases step with
  | index round =>
    rw [RagIndex.step]
    dsimp only
    rw [IndexingStep.apply_eq]
    exact fresh_writes fresh (supplies_writes supplied) keeps
  | report => exact fresh
  | rebuilt => exact fresh
  | markOutdated => exact fresh
  | reconfigure embedder rebuilds =>
    rw [RagIndex.step]
    dsimp only
    split
    · exact fresh_empty.sameTables rfl rfl
    · next idle =>
      rcases keeps with rebuilds | bare | same
      · exact absurd rebuilds idle
      · refine ⟨fresh.chunkIds,fun row found => ?_,fun row found => ?_⟩
        · exact absurd (bare ▸ found : row ∈ []) (List.not_mem_nil)
        · exact absurd (bare ▸ found : row ∈ []) (List.not_mem_nil)
      · obtain ⟨provider,model,dimension,version⟩ : embedder.provider = w.embedder.provider ∧
            embedder.model = w.embedder.model ∧ embedder.dimension = w.embedder.dimension ∧
              embedder.version = w.embedder.version := by
          simpa [Embedder.labels] using same
        refine ⟨fresh.chunkIds,fun row found => ?_,fresh.contents⟩
        have labelled := fresh.labels row found
        exact ⟨provider ▸ labelled.provider,labelled.model.trans model.symm,
          labelled.version.trans version.symm,dimension ▸ labelled.dimension⟩

theorem fresh_run {steps : List (RagStep α)} (fresh : Fresh made w.embedder w.store)
    (supplied : AllSupplied made steps w) (kept : AllKept steps w) :
    Fresh made (run steps w).embedder (run steps w).store := by
  induction steps generalizing w with
  | nil => exact fresh
  | cons step rest ih => exact ih (fresh_step fresh supplied.1 kept.1) supplied.2 kept.2

omit [Mul α] [AddMonoid α] [LinearOrder α] [Host] in
theorem allCurrent_of_missing (fresh : Fresh made w.embedder w.store)
    (none' : w.store.missing = []) : w.AllCurrent made := by
  intro chunk there
  have listed : chunk ∉ w.store.missing := none' ▸ List.not_mem_nil
  have held : (w.store.embedding chunk.chunkId).isSome := by
    by_contra absent
    exact listed (List.mem_filter.mpr ⟨there,by simpa using absent⟩)
  obtain ⟨row,found⟩ := Option.isSome_iff_exists.mp held
  have stored := List.mem_of_find?_eq_some found
  have named : row.chunkId = chunk.chunkId := by simpa using List.find?_some found
  exact ⟨row,stored,named,fresh.labels row stored,fresh.contents row stored chunk there named⟩

omit [Mul α] [AddMonoid α] [LinearOrder α] [Host] in
theorem status_eq_ready (store : Store α) (state : IndexState) :
    (refreshCounts store state).status = .ready ↔ store.chunks ≠ [] ∧ store.missing = [] := by
  rw [refreshCounts]
  dsimp only
  simp only [List.length_eq_zero_iff]
  split
  · next none' => simp [none']
  · next some' =>
    split
    · next held => simp [held,some']
    · next missing =>
      split <;> simp [missing]

/-- New settings for the vectors of a ready index break it, unless they only replace the provider. -/
theorem not_truthful_reconfigure (fresh : Fresh made w.embedder w.store)
    (ready : w.indexStatus.status = .ready) {other : Embedder}
    (apart : other.model ≠ w.embedder.model ∨ other.dimension ≠ w.embedder.dimension ∨
      other.version ≠ w.embedder.version) :
    ¬ (w.step (.reconfigure other false)).Truthful made := by
  intro truthful
  obtain ⟨some',held⟩ := (status_eq_ready w.store w.state).mp ready
  obtain ⟨chunk,there⟩ := List.exists_mem_of_ne_nil _ some'
  obtain ⟨row,found,_,made'⟩ :=
    truthful ((status_eq_ready (reopened w.store w.state) w.state).mpr ⟨some',held⟩) chunk there
  have labelled := fresh.labels row found
  rcases apart with model | dimension | version
  · exact model (made'.model.symm.trans labelled.model)
  · exact dimension (made'.dimension.1.symm.trans labelled.dimension.1)
  · exact version (made'.version.symm.trans labelled.version)

/-- In every run from empty tables whose settings change only while no vector is stored, or with a
rebuild, and whose ids of chunks are kept apart: where the status is reported as ready, every stored
chunk has a current vector; and so it is where a step makes an outdated index a ready one. Of a
ready index, no other change of the model, the dimension or the version leaves this true. -/
theorem truthful_of_run {steps : List (RagStep α)} (embedder : Embedder)
    (supplied : AllSupplied made steps {embedder}) (kept : AllKept steps {embedder}) :
    (run steps {embedder}).Truthful made ∧
      (∀ step,(run steps {embedder}).state.status = .outdated →
        ((run steps {embedder}).step step).state.status = .ready →
          ((run steps {embedder}).step step).AllCurrent made) ∧
      ∀ other : Embedder,(run steps {embedder}).indexStatus.status = .ready →
        (other.model ≠ (run steps {embedder}).embedder.model ∨
          other.dimension ≠ (run steps {embedder}).embedder.dimension ∨
            other.version ≠ (run steps {embedder}).embedder.version) →
        ¬ ((run steps {embedder}).step (.reconfigure other false)).Truthful made := by
  have fresh : Fresh made (run steps {embedder}).embedder (run steps {embedder}).store :=
    fresh_run fresh_empty supplied kept
  generalize run steps {embedder} = w at fresh ⊢
  have current (state : IndexState) (ready : (refreshCounts w.store state).status = .ready) :=
    allCurrent_of_missing fresh ((status_eq_ready w.store state).mp ready).2
  refine ⟨current w.state,?_,fun other ready apart => not_truthful_reconfigure fresh ready apart⟩
  intro step outdated ready
  cases step with
  | index round =>
    have same : (stateAfter w.state round).status = w.state.status := by cases round <;> rfl
    rw [RagIndex.step] at ready
    dsimp only at ready
    rw [same,outdated] at ready
    cases ready
  | report => exact current w.state ready
  | rebuilt => exact current w.state ready
  | markOutdated => cases ready
  | reconfigure other rebuilds =>
    have same : (if rebuilds then cleared w.state else w.state).status = w.state.status := by
      cases rebuilds <;> rfl
    rw [RagIndex.step] at ready
    dsimp only at ready
    rw [same,outdated] at ready
    cases ready

end RagIndex

end Steps

end Freshness

section Switched

open scoped AsciiHost

open RagIndex

def lettered (model : Text) : Embedder := {letters with model,provider := ['p'],dimension := 1}

/-- A note is indexed, the model is changed, the index is marked, and the status is asked for. -/
def switchedModel : List (RagStep Nat) :=
  [.index (syncNote ['A']),.reconfigure (lettered ['n']) false,.markOutdated,.report]

instance (store : Store Nat) (step : StoreStep Nat) : Decidable (step.Apart store) :=
  match step with
  | .index _ _ _ _ _ _ _ => inferInstanceAs (Decidable (∀ chunk ∈ _,∀ row ∈ _,_ → _))
  | .delete _ | .rename _ _ | .fail _ _ | .restamp _ _ | .complete _ _ | .pass _ | .reset
  | .search _ _ _ => .isTrue trivial

instance StoreStep.decideAllApart (settings : Settings) : (steps : List (StoreStep Nat)) →
    (store : Store Nat) → Decidable (StoreStep.AllApart settings steps store)
  | [],_ => .isTrue trivial
  | step :: rest,store =>
    @instDecidableAnd _ _ inferInstance
      (decideAllApart settings rest (StoreStep.apply settings store step))

theorem letterBatch_supplies (model : Text) :
    Supplies (fun _ _ => True) (lettered model) (some letterBatch) := by
  intro embed found texts batch answered
  obtain rfl := Option.mem_some_iff.mp found
  refine ⟨?_,fun _ _ => trivial⟩
  rw [letterBatch] at answered
  split at answered
  · cases answered
  · obtain rfl := Except.ok.inj answered
    rfl

theorem not_truthful :
    AllSupplied (fun _ _ => True) switchedModel {embedder := lettered ['m']} ∧
      ¬ (run switchedModel {embedder := lettered ['m']}).Truthful (fun _ _ => True) ∧
      (run (switchedModel.take 3) {embedder := lettered ['m']}).state.status = .outdated ∧
      (run switchedModel {embedder := lettered ['m']}).state.status = .ready ∧
      ¬ (run switchedModel {embedder := lettered ['m']}).AllCurrent (fun _ _ => True) := by
  obtain ⟨ready,some',old⟩ :
      (run switchedModel {embedder := lettered ['m']}).state.status = .ready ∧
        (run switchedModel {embedder := lettered ['m']}).store.chunks ≠ [] ∧
          ∀ row ∈ (run switchedModel {embedder := lettered ['m']}).store.embeddings,
            row.model = ['m'] := by decide +kernel
  have stale : ¬ (run switchedModel {embedder := lettered ['m']}).AllCurrent
      (fun _ _ => True) := by
    intro current
    obtain ⟨chunk,there⟩ := List.exists_mem_of_ne_nil _ some'
    obtain ⟨row,found,_,made⟩ := current chunk there
    exact absurd ((old row found).symm.trans made.model) (by decide)
  exact ⟨⟨letterBatch_supplies _,trivial,trivial,trivial,trivial⟩,
    fun truthful => stale (truthful ready),rfl,ready,stale⟩

/-- A note is indexed, and the model is changed by a rebuild. -/
theorem truthful_of_run_rebuilt :
    (run [.index (syncNote ['A']),.report,.reconfigure (lettered ['n']) true]
      {embedder := lettered ['m']}).Truthful (fun _ _ => True) := by
  refine (truthful_of_run (lettered ['m']) ?_ ?_).1
  · exact ⟨letterBatch_supplies _,trivial,trivial,trivial⟩
  · have apart : StoreStep.AllApart (lettered ['m']).toSettings
        ((syncNote ['A']).writes (lettered ['m']).toSettings ({} : Store Nat)) {} := by
      decide +kernel
    exact ⟨apart,trivial,.inl rfl,trivial⟩

end Switched

end LocalBook.Rag
