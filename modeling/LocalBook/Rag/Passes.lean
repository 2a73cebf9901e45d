import LocalBook.Rag.IndexService
import LocalBook.Rag.Pending

/-! The passes that embed what has no vector, while the provider fails on some texts and the
dimension of its vectors depends on the text. A window fails as a whole, and vectors of two
dimensions in one window are an error that ends the passes. -/
namespace LocalBook.Rag

structure TextProvider (α : Type) where
  fails : Text → Bool
  code : Text
  vector : Text → List α
  proper : ∀ text,0 < (vector text).length

/-- Why passes do not come to their end: `upsert_embeddings` raises, or there have been as many as
we allow. -/
inductive Unfinished where
  | raised
  | passes
deriving DecidableEq

section Passes

variable {α : Type}

/-- `embed_documents`. -/
def TextProvider.embedDocuments (provider : TextProvider α) (texts : List Text) :
    Except Text (List (List α)) :=
  if texts.any provider.fails then .error provider.code else .ok (texts.map provider.vector)

/-- The checks of `upsert_embeddings`: the vectors are of the dimension of the first. -/
def batchOf : List (List α) → Option (Batch α)
  | [] => none
  | first :: rest =>
    if h : 0 < first.length ∧ ∀ vector ∈ first :: rest,vector.length = first.length then
      some ⟨first.length,first :: rest,h.1,h.2⟩
    else none

variable (settings : Settings) (provider : TextProvider α)

/-- One window of `_embed_chunks`: the store, and how many vectors were stored. -/
def storeWindow (store : Store α) (window : List Chunk) : Except Unfinished (Store α × Nat) :=
  match provider.embedDocuments (window.map fun chunk => chunk.piece.embeddingText) with
  | .error code => .ok (store.markDocumentsPending (window.map Chunk.documentId).dedup code,0)
  | .ok vectors =>
    if vectors.length ≠ window.length then .ok (store,0)
    else
      match batchOf vectors with
      | none => .error .raised
      | some batch =>
        .ok (store.upsertEmbeddings (ids window) batch settings.model settings.version,
          window.length)

def storeWindows : List (List Chunk) → Store α → Except Unfinished (Store α × Nat)
  | [],store => .ok (store,0)
  | window :: rest,store =>
    match storeWindow settings provider store window with
    | .error unfinished => .error unfinished
    | .ok (after,stored) =>
      match storeWindows rest after with
      | .error unfinished => .error unfinished
      | .ok (last,total) => .ok (last,stored + total)

/-- `_embed_chunks`, of the chunks that a pass finds. -/
def storeChunks (store : Store α) (chunks : List Chunk) : Except Unfinished (Store α × Nat) :=
  let pending := unembedded chunks (reusable settings store chunks)
  storeWindows settings provider (windows (max 1 settings.batchSize) pending.length pending) store

/-- `_embed_pending`, which makes so many passes at most. -/
def storePending : Nat → Store α → Except Unfinished (Store α)
  | 0,_ => .error .passes
  | passes + 1,store =>
    let chunks := store.chunksWithoutEmbeddings (max 1 settings.batchSize * 8) settings.model
      settings.version
    if chunks = [] then .ok store
    else
      match storeChunks settings provider store chunks with
      | .error unfinished => .error unfinished
      | .ok (after,stored) => if stored = 0 then .ok after else storePending passes after

variable {settings provider}

def TextProvider.failsOn (provider : TextProvider α) (chunk : Chunk) : Bool :=
  provider.fails chunk.piece.embeddingText

def TextProvider.dimension (provider : TextProvider α) (chunk : Chunk) : Nat :=
  (provider.vector chunk.piece.embeddingText).length

def TextProvider.Answers (provider : TextProvider α) (dimension : Nat) (chunks : List Chunk) :
    Prop :=
  ∀ chunk ∈ chunks,provider.failsOn chunk = false ∧ provider.dimension chunk = dimension

variable {store store' store'' : Store α} {dimension : Nat}

structure Advances (settings : Settings) (store store' : Store α) (dimension : Nat)
    (done : List Chunk) : Prop where
  sound : Store.Sound store'
  chunks : store'.chunks = store.chunks
  column : store'.embeddingColumn = some dimension
  lacks : ∀ chunk ∈ store.chunks,
    (store'.lacksVector settings.model settings.version chunk = false ↔ chunk ∈ done ∨
      (store.embeddingColumn = some dimension ∧
        store.lacksVector settings.model settings.version chunk = false))

theorem Advances.trans {done next : List Chunk}
    (first : Advances settings store store' dimension done)
    (second : Advances settings store' store'' dimension next) :
    Advances settings store store'' dimension (done ++ next) := by
  refine ⟨second.sound,second.chunks.trans first.chunks,second.column,?_⟩
  intro chunk there
  rw [second.lacks chunk (first.chunks ▸ there),first.lacks chunk there,List.mem_append]
  have column := first.column
  tauto

theorem batchOf_uniform {vectors : List (List α)} (some_ : vectors ≠ [])
    (positive : 0 < dimension)
    (uniform : ∀ vector ∈ vectors,vector.length = dimension) :
    ∃ batch,batchOf vectors = some batch ∧ batch.dimension = dimension ∧
      batch.vectors = vectors := by
  cases vectors with
  | nil => exact absurd rfl some_
  | cons first rest =>
    have long := uniform first (List.mem_cons_self ..)
    refine ⟨⟨first.length,first :: rest,long ▸ positive,long ▸ uniform⟩,?_,long,rfl⟩
    exact dif_pos ⟨long ▸ positive,long ▸ uniform⟩

theorem embedDocuments_ok {window : List Chunk}
    (works : ∀ chunk ∈ window,provider.failsOn chunk = false) :
    provider.embedDocuments (window.map fun chunk => chunk.piece.embeddingText) =
      .ok ((window.map fun chunk => chunk.piece.embeddingText).map provider.vector) := by
  have texts : (window.map fun chunk => chunk.piece.embeddingText).any provider.fails = false := by
    rw [List.any_map,List.any_eq_false]
    intro chunk member
    simpa [TextProvider.failsOn] using works chunk member
  rw [TextProvider.embedDocuments,texts]
  rfl

theorem storeWindow_answered (settings : Settings) {window : List Chunk} (sound : Store.Sound store)
    (there : ∀ chunk ∈ window,chunk ∈ store.chunks) (some_ : window ≠ [])
    (answers : provider.Answers dimension window) :
    ∃ after,storeWindow settings provider store window = .ok (after,window.length) ∧
      Advances settings store after dimension window := by
  have uniform : ∀ vector ∈
      (window.map fun chunk => chunk.piece.embeddingText).map provider.vector,
      vector.length = dimension := by
    rw [List.map_map]
    intro vector member
    obtain ⟨chunk,inside,rfl⟩ := List.mem_map.mp member
    exact (answers chunk inside).2
  have positive : 0 < dimension := by
    obtain ⟨chunk,inside⟩ := List.exists_mem_of_ne_nil _ some_
    exact (answers chunk inside).2 ▸ provider.proper _
  obtain ⟨batch,found,same,vectors⟩ := batchOf_uniform (by simpa using some_) positive uniform
  have complete : batch.vectors.length = window.length := by rw [vectors]; simp
  have stores := Store.stores_upsertEmbeddings settings.model settings.version sound there some_
    complete
  refine ⟨store.upsertEmbeddings (ids window) batch settings.model settings.version,?_,
    stores.sound,stores.chunks,same ▸ stores.column,?_⟩
  · rw [storeWindow,embedDocuments_ok fun chunk member => (answers chunk member).1]
    simp only [List.length_map,ne_eq,not_true_eq_false,if_false,found]
  · intro chunk stored
    rw [← same]
    exact Store.lacksVector_upsertEmbeddings sound there some_ complete stored

theorem storeWindows_answered (settings : Settings) {batches : List (List Chunk)}
    (sound : Store.Sound store)
    (there : ∀ window ∈ batches,window ≠ [] ∧ ∀ chunk ∈ window,chunk ∈ store.chunks)
    (some_ : batches ≠ []) (answers : ∀ window ∈ batches,provider.Answers dimension window) :
    ∃ after stored,storeWindows settings provider batches store = .ok (after,stored) ∧
      0 < stored ∧
      Advances settings store after dimension batches.flatten := by
  induction batches generalizing store with
  | nil => exact absurd rfl some_
  | cons window rest ih =>
    obtain ⟨full,inside⟩ := there window (List.mem_cons_self ..)
    obtain ⟨after,first,advances⟩ := storeWindow_answered settings sound inside full
      (answers window (List.mem_cons_self ..))
    have positive := List.length_pos_iff.mpr full
    by_cases last : rest = []
    · subst last
      refine ⟨after,window.length,?_,positive,by simpa using advances⟩
      rw [storeWindows,first]
      rfl
    · obtain ⟨final,total,later,_,more⟩ := ih advances.sound (fun other member => by
        rw [advances.chunks]
        exact there other (List.mem_cons_of_mem _ member)) last
        fun other member => answers other (List.mem_cons_of_mem _ member)
      refine ⟨final,window.length + total,?_,by omega,advances.trans more⟩
      rw [storeWindows,first]
      simp only [later]

def lackingChunks (settings : Settings) (store : Store α) : List Chunk :=
  store.chunks.filter (store.lacksVector settings.model settings.version)

theorem tables_markDocumentsPending (store : Store α) (paths : List Text) (reason : Text) :
    (store.markDocumentsPending paths reason).chunks = store.chunks ∧
      (store.markDocumentsPending paths reason).embeddings = store.embeddings := by
  unfold Store.markDocumentsPending
  induction paths generalizing store with
  | nil => exact ⟨rfl,rfl⟩
  | cons path rest ih =>
    rw [List.foldl_cons]
    exact ih _

theorem storeWindow_failed (settings : Settings) (store : Store α) {window : List Chunk}
    (failing : ∃ chunk ∈ window,provider.failsOn chunk = true) :
    ∃ after,storeWindow settings provider store window = .ok (after,0) ∧
      after.chunks = store.chunks ∧ after.embeddings = store.embeddings := by
  have texts : (window.map fun chunk => chunk.piece.embeddingText).any provider.fails = true := by
    rw [List.any_map,List.any_eq_true]
    exact failing
  obtain ⟨chunks,embeddings⟩ := tables_markDocumentsPending store
    (window.map Chunk.documentId).dedup provider.code
  refine ⟨_,?_,chunks,embeddings⟩
  rw [storeWindow,TextProvider.embedDocuments,texts]
  rfl

theorem storeWindows_failed {batches : List (List Chunk)}
    (failing : ∀ window ∈ batches,∃ chunk ∈ window,provider.failsOn chunk = true) :
    ∃ after,storeWindows settings provider batches store = .ok (after,0) ∧
      after.chunks = store.chunks ∧ after.embeddings = store.embeddings := by
  induction batches generalizing store with
  | nil => exact ⟨store,rfl,rfl,rfl⟩
  | cons window rest ih =>
    obtain ⟨after,first,chunks,embeddings⟩ :=
      storeWindow_failed settings store (failing window (List.mem_cons_self ..))
    obtain ⟨last,later,chunks',embeddings'⟩ := @ih after fun other member =>
      failing other (List.mem_cons_of_mem _ member)
    refine ⟨last,?_,chunks'.trans chunks,embeddings'.trans embeddings⟩
    rw [storeWindows,first]
    simp only [later]

theorem lacksVector_congr (same : store'.embeddings = store.embeddings) (model version : Text) :
    store'.lacksVector model version = store.lacksVector model version := by
  funext chunk
  unfold Store.lacksVector Store.embedding
  rw [same]

theorem unembedded_lacking (settings : Settings) {chunks : List Chunk} (sound : Store.Sound store)
    (lacking : ∀ chunk ∈ chunks,
      store.lacksVector settings.model settings.version chunk = true) :
    unembedded chunks (reusable settings store chunks) = chunks := by
  apply List.filter_eq_self.mpr
  intro chunk member
  rw [decide_eq_true_eq]
  intro found
  obtain ⟨row,there,same⟩ := List.mem_map.mp (Dict.mem_of_find found)
  obtain ⟨stored,labels⟩ := List.mem_filter.mp there
  simp only [decide_eq_true_eq] at labels
  obtain ⟨own,content⟩ := Prod.mk.inj same
  have current : Store.Labels store.embeddings settings.model settings.version chunk.hash
      chunk.chunkId :=
    ⟨row,find?_of_distinct sound.embeddingIds stored own,labels.1,labels.2.1,content⟩
  have lacks := lacking chunk member
  rw [Store.lacksVector_eq_false.mpr current] at lacks
  cases lacks

theorem mem_chunksWithoutEmbeddings {limit : Nat} {chunk : Chunk}
    (taken : chunk ∈ store.chunksWithoutEmbeddings limit settings.model settings.version) :
    chunk ∈ lackingChunks settings store :=
  (List.mem_insertionSort _).mp (List.mem_of_mem_take taken)

theorem chunksWithoutEmbeddings_eq_nil {limit : Nat} :
    store.chunksWithoutEmbeddings limit settings.model settings.version = [] ↔
      lackingChunks settings store = [] := by
  rw [Store.chunksWithoutEmbeddings,List.take_eq_nil_iff]
  constructor
  · rintro (none_ | empty)
    · omega
    · exact (empty ▸ List.perm_insertionSort Store.pathOrder (lackingChunks settings store) :
        List.Perm [] _).nil_eq.symm
  · intro empty
    right
    change List.insertionSort _ (lackingChunks settings store) = []
    rw [empty]
    rfl

theorem chunksWithoutEmbeddings_all {limit : Nat}
    (few : (lackingChunks settings store).length ≤ limit) :
    store.chunksWithoutEmbeddings limit settings.model settings.version =
      (lackingChunks settings store).insertionSort Store.pathOrder := by
  apply List.take_of_length_le
  change (List.insertionSort _ (lackingChunks settings store)).length ≤ _
  rw [List.length_insertionSort]
  omega

theorem mem_windows_iff {β : Type} {size : Nat} (positive : 0 < size) {items : List β}
    {item : β} :
    item ∈ (windows size items.length items).flatten ↔ item ∈ items := by
  rw [List.mem_flatten]
  constructor
  · rintro ⟨window,found,member⟩
    exact mem_of_windows found member
  · exact windows_of_mem positive le_rfl

theorem Advances.congr {done done' : List Chunk}
    (advances : Advances settings store store' dimension done)
    (same : ∀ chunk,chunk ∈ done ↔ chunk ∈ done') :
    Advances settings store store' dimension done' := by
  refine ⟨advances.sound,advances.chunks,advances.column,?_⟩
  intro chunk there
  rw [advances.lacks chunk there,same]

theorem storeChunks_answered (settings : Settings) {chunks : List Chunk} (sound : Store.Sound store)
    (lacking : ∀ chunk ∈ chunks,chunk ∈ lackingChunks settings store) (some_ : chunks ≠ [])
    (answers : provider.Answers dimension chunks) :
    ∃ after stored,storeChunks settings provider store chunks = .ok (after,stored) ∧
      0 < stored ∧
      Advances settings store after dimension chunks := by
  have size : 0 < max 1 settings.batchSize := lt_max_of_lt_left Nat.one_pos
  have same := unembedded_lacking settings sound
    fun chunk member => (List.mem_filter.mp (lacking chunk member)).2
  have full : windows (max 1 settings.batchSize) chunks.length chunks ≠ [] := by
    obtain ⟨n,length⟩ := Nat.exists_eq_succ_of_ne_zero (mt List.length_eq_zero_iff.mp some_)
    rw [length,windows_succ some_]
    exact List.cons_ne_nil _ _
  obtain ⟨after,stored,run,positive,advances⟩ := storeWindows_answered settings sound
    (fun window found => ⟨windows_ne_nil size found,fun chunk member =>
      List.mem_of_mem_filter (lacking chunk (mem_of_windows found member))⟩) full
    fun window found chunk member => answers chunk (mem_of_windows found member)
  refine ⟨after,stored,?_,positive,advances.congr fun chunk => mem_windows_iff size⟩
  rw [storeChunks,same]
  exact run

theorem storeChunks_failed (settings : Settings) (provider : TextProvider α)
    {chunks : List Chunk} (sound : Store.Sound store)
    (lacking : ∀ chunk ∈ chunks,chunk ∈ lackingChunks settings store)
    (failing : ∀ chunk ∈ chunks,provider.failsOn chunk = true) :
    ∃ after,storeChunks settings provider store chunks = .ok (after,0) ∧
      after.chunks = store.chunks ∧ after.embeddings = store.embeddings := by
  have size : 0 < max 1 settings.batchSize := lt_max_of_lt_left Nat.one_pos
  have same := unembedded_lacking settings sound
    fun chunk member => (List.mem_filter.mp (lacking chunk member)).2
  rw [storeChunks,same]
  apply storeWindows_failed
  intro window found
  obtain ⟨chunk,member⟩ := List.exists_mem_of_ne_nil _ (windows_ne_nil size found)
  exact ⟨chunk,member,failing chunk (mem_of_windows found member)⟩

theorem Advances.lackingChunks_eq {done : List Chunk}
    (advances : Advances settings store store' dimension done)
    (column : store.embeddingColumn = some dimension) :
    lackingChunks settings store' = (lackingChunks settings store).filter (· ∉ done) := by
  rw [lackingChunks,lackingChunks,advances.chunks,List.filter_filter]
  apply List.filter_congr
  intro chunk there
  have lacks := advances.lacks chunk there
  cases before : store.lacksVector settings.model settings.version chunk <;>
    cases after : store'.lacksVector settings.model settings.version chunk <;>
      simp_all

theorem storePending_done (passes : Nat) (none_ : lackingChunks settings store = []) :
    storePending settings provider (passes + 1) store = .ok store := by
  rw [storePending,if_pos (chunksWithoutEmbeddings_eq_nil.mpr none_)]

theorem lacksVector_of_done (none_ : lackingChunks settings store = []) {chunk : Chunk}
    (there : chunk ∈ store.chunks) :
    store.lacksVector settings.model settings.version chunk = false := by
  simpa using List.filter_eq_nil_iff.mp none_ chunk there

theorem storePending_step (settings : Settings) (provider : TextProvider α)
    (sound : Store.Sound store) (some_ : lackingChunks settings store ≠ [])
    (answers : provider.Answers dimension (lackingChunks settings store)) :
    ∃ after,Advances settings store after dimension (store.chunksWithoutEmbeddings
        (max 1 settings.batchSize * 8) settings.model settings.version) ∧
      ∀ passes,storePending settings provider (passes + 1) store =
        storePending settings provider passes after := by
  have taken : store.chunksWithoutEmbeddings (max 1 settings.batchSize * 8) settings.model
      settings.version ≠ [] := mt chunksWithoutEmbeddings_eq_nil.mp some_
  obtain ⟨after,stored,pass,positive,advances⟩ := storeChunks_answered settings sound
    (fun chunk member => mem_chunksWithoutEmbeddings member) taken
    fun chunk member => answers chunk (mem_chunksWithoutEmbeddings member)
  refine ⟨after,advances,fun passes => ?_⟩
  rw [storePending,if_neg taken,pass]
  simp only [if_neg positive.ne']

/-- Passes over chunks that the provider answers in the dimension of the others come to an end,
and no chunk lacks a vector there. -/
theorem storePending_answered (settings : Settings) (provider : TextProvider α) {n : Nat}
    (sound : Store.Sound store)
    (column : store.embeddingColumn = some dimension)
    (answers : provider.Answers dimension (lackingChunks settings store))
    (bound : (lackingChunks settings store).length ≤ n) :
    ∃ finished,storePending settings provider (n + 1) store = .ok finished ∧
      ∀ chunk ∈ store.chunks,
        finished.lacksVector settings.model settings.version chunk = false := by
  induction n generalizing store with
  | zero =>
    have none_ := List.length_eq_zero_iff.mp (Nat.le_zero.mp bound)
    exact ⟨store,storePending_done 0 none_,fun _ => lacksVector_of_done none_⟩
  | succ n ih =>
    by_cases none_ : lackingChunks settings store = []
    · exact ⟨store,storePending_done _ none_,fun _ => lacksVector_of_done none_⟩
    · obtain ⟨after,advances,step⟩ := storePending_step settings provider sound none_ answers
      have left_ := advances.lackingChunks_eq column
      have fewer : (lackingChunks settings after).length ≤ n := by
        have some_ : store.chunksWithoutEmbeddings (max 1 settings.batchSize * 8) settings.model
            settings.version ≠ [] := mt chunksWithoutEmbeddings_eq_nil.mp none_
        obtain ⟨chunk,taken⟩ := List.exists_mem_of_ne_nil _ some_
        have shorter : ((lackingChunks settings store).filter (· ∉ store.chunksWithoutEmbeddings
            (max 1 settings.batchSize * 8) settings.model settings.version)).length <
            (lackingChunks settings store).length :=
          List.length_filter_lt_length_iff_exists.mpr
            ⟨chunk,mem_chunksWithoutEmbeddings taken,by simpa using taken⟩
        rw [left_]
        omega
      obtain ⟨finished,passes,current⟩ := ih advances.sound advances.column (fun chunk member =>
        answers chunk (List.mem_of_mem_filter (left_ ▸ member))) fewer
      exact ⟨finished,(step _).trans passes,
        fun chunk there => current chunk (advances.chunks ▸ there)⟩

/-- The passes come to their end, and every chunk on which the provider does not fail has a vector
there, whatever the limit of a batch. -/
def Progresses (settings : Settings) (provider : TextProvider α) (store : Store α) : Prop :=
  ∀ batchSize,∃ passes finished,
    storePending {settings with batchSize} provider passes store = .ok finished ∧
      ∀ chunk ∈ store.chunks,provider.failsOn chunk = false →
        finished.lacksVector settings.model settings.version chunk = false

def currentChunks (settings : Settings) (store : Store α) : List Chunk :=
  store.chunks.filter fun chunk => !store.lacksVector settings.model settings.version chunk

/-- The provider fails on all the chunks that lack a vector, or it answers all of them in one
dimension, which is the one in use or in which it answers the other chunks as well. -/
def Favourable (settings : Settings) (provider : TextProvider α) (store : Store α) : Prop :=
  (∀ chunk ∈ lackingChunks settings store,provider.failsOn chunk = true) ∨
    ∃ dimension,provider.Answers dimension (lackingChunks settings store) ∧
      (store.embeddingColumn = some dimension ∨
        provider.Answers dimension (currentChunks settings store))

/-- The provider answers the chunks that lack a vector in another dimension than that in use, and
fails on the others, all of which have vectors from before. -/
def Displaces (settings : Settings) (provider : TextProvider α) (store : Store α) : Prop :=
  currentChunks settings store ≠ [] ∧
    (∀ chunk ∈ currentChunks settings store,provider.failsOn chunk = true) ∧
    ∃ dimension,provider.Answers dimension (lackingChunks settings store) ∧
      store.embeddingColumn ≠ some dimension

theorem mem_lackingChunks {chunk : Chunk} : chunk ∈ lackingChunks settings store ↔
    chunk ∈ store.chunks ∧ store.lacksVector settings.model settings.version chunk = true :=
  List.mem_filter

theorem mem_currentChunks {chunk : Chunk} : chunk ∈ currentChunks settings store ↔
    chunk ∈ store.chunks ∧ store.lacksVector settings.model settings.version chunk = false := by
  rw [currentChunks,List.mem_filter,Bool.not_eq_true']

/-- The first pass may change the dimension; from then on it stays. -/
theorem storePending_all (settings : Settings) (sound : Store.Sound store)
    (answers : provider.Answers dimension store.chunks) :
    ∃ passes finished,storePending settings provider passes store = .ok finished ∧
      ∀ chunk ∈ store.chunks,
        finished.lacksVector settings.model settings.version chunk = false := by
  by_cases none_ : lackingChunks settings store = []
  · exact ⟨1,store,storePending_done 0 none_,fun _ => lacksVector_of_done none_⟩
  · obtain ⟨after,advances,step⟩ := storePending_step settings provider sound none_
      fun chunk member => answers chunk (mem_lackingChunks.mp member).1
    obtain ⟨finished,passes,current⟩ := storePending_answered settings provider advances.sound
      advances.column (fun chunk member =>
        answers chunk (advances.chunks ▸ (mem_lackingChunks.mp member).1)) le_rfl
    exact ⟨_,finished,(step _).trans passes,
      fun chunk there => current chunk (advances.chunks ▸ there)⟩

theorem Favourable.progresses (sound : Store.Sound store)
    (favourable : Favourable settings provider store) : Progresses settings provider store := by
  intro batchSize
  rcases favourable with failing | ⟨dimension,answers,column | others⟩
  · have others : ∀ chunk ∈ store.chunks,provider.failsOn chunk = false →
        store.lacksVector settings.model settings.version chunk = false := by
      intro chunk there works
      by_contra lacks
      have fails := failing chunk (mem_lackingChunks.mpr ⟨there,by simpa using lacks⟩)
      rw [works] at fails
      cases fails
    by_cases none_ : store.chunksWithoutEmbeddings (max 1 batchSize * 8) settings.model
        settings.version = []
    · exact ⟨1,store,by rw [storePending,if_pos none_],others⟩
    · obtain ⟨after,pass,_,embeddings⟩ := storeChunks_failed {settings with batchSize} provider
        sound (fun chunk taken => mem_chunksWithoutEmbeddings taken)
        fun chunk taken => failing chunk (mem_chunksWithoutEmbeddings taken)
      refine ⟨1,after,?_,?_⟩
      · rw [storePending,if_neg none_,pass]
        rfl
      · rw [lacksVector_congr embeddings]
        exact others
  · obtain ⟨finished,passes,current⟩ :=
      storePending_answered {settings with batchSize} provider sound column answers le_rfl
    exact ⟨_,finished,passes,fun chunk there _ => current chunk there⟩
  · have all : provider.Answers dimension store.chunks := by
      intro chunk there
      cases lacks : store.lacksVector settings.model settings.version chunk with
      | true => exact answers chunk (mem_lackingChunks.mpr ⟨there,lacks⟩)
      | false => exact others chunk (mem_currentChunks.mpr ⟨there,lacks⟩)
    obtain ⟨passes,finished,run,current⟩ := storePending_all {settings with batchSize} sound all
    exact ⟨passes,finished,run,fun chunk there _ => current chunk there⟩

/-! A batch that takes all chunks at once. -/

theorem windows_one {β : Type} {size : Nat} {items : List β} (some_ : items ≠ [])
    (all : items.length ≤ size) : windows size items.length items = [items] := by
  obtain ⟨n,length⟩ := Nat.exists_eq_succ_of_ne_zero (mt List.length_eq_zero_iff.mp some_)
  rw [length,windows_succ some_,List.take_of_length_le all,List.drop_of_length_le all]
  cases n <;> rfl

theorem storePending_whole (provider : TextProvider α) (sound : Store.Sound store)
    (size : store.chunks.length ≤ settings.batchSize)
    (some_ : lackingChunks settings store ≠ []) (passes : Nat) :
    ∃ window,(∀ chunk,chunk ∈ window ↔ chunk ∈ lackingChunks settings store) ∧
      storePending settings provider (passes + 1) store =
        match storeWindow settings provider store window with
        | .error unfinished => .error unfinished
        | .ok (after,stored) =>
          if stored = 0 then .ok after else storePending settings provider passes after := by
  have perm := List.perm_insertionSort Store.pathOrder (lackingChunks settings store)
  have few : (lackingChunks settings store).length ≤ settings.batchSize :=
    le_trans (List.length_filter_le ..) size
  have taken : (lackingChunks settings store).insertionSort Store.pathOrder ≠ [] := by
    intro empty
    exact some_ (empty ▸ perm).nil_eq.symm
  refine ⟨(lackingChunks settings store).insertionSort Store.pathOrder,
    fun chunk => perm.mem_iff,?_⟩
  rw [storePending,chunksWithoutEmbeddings_all (by omega),if_neg taken,storeChunks,unembedded_lacking settings sound
    (fun chunk member => (mem_lackingChunks.mp (perm.mem_iff.mp member)).2)]
  rw [windows_one taken (by rw [perm.length_eq]; omega),storeWindows]
  cases storeWindow settings provider store
      ((lackingChunks settings store).insertionSort Store.pathOrder) with
  | error unfinished => rfl
  | ok outcome => simp [storeWindows]

theorem batchOf_some {vectors : List (List α)} {batch : Batch α}
    (found : batchOf vectors = some batch) : batch.vectors = vectors := by
  cases vectors with
  | nil => cases found
  | cons first rest =>
    rw [batchOf] at found
    split at found
    · cases found
      rfl
    · cases found

theorem storeWindow_ok {window : List Chunk} {outcome : Store α × Nat}
    (works : ∀ chunk ∈ window,provider.failsOn chunk = false)
    (run : storeWindow settings provider store window = .ok outcome) :
    ∃ dimension,provider.Answers dimension window := by
  rw [storeWindow,embedDocuments_ok works] at run
  simp only [List.length_map,ne_eq,not_true_eq_false,if_false] at run
  cases found : batchOf
      ((window.map fun chunk => chunk.piece.embeddingText).map provider.vector) with
  | none =>
    rw [found] at run
    cases run
  | some batch =>
    refine ⟨batch.dimension,fun chunk member => ⟨works chunk member,?_⟩⟩
    apply batch.uniform
    rw [batchOf_some found,List.map_map]
    exact List.mem_map.mpr ⟨chunk,member,rfl⟩

section

variable {finished : Store α} {passes : Nat} (sound : Store.Sound store)
  (size : store.chunks.length ≤ settings.batchSize)
include sound size

theorem embeddings_of_failing {chunk : Chunk} (lacking : chunk ∈ lackingChunks settings store)
    (fails : provider.failsOn chunk = true)
    (run : storePending settings provider passes store = .ok finished) :
    finished.embeddings = store.embeddings := by
  cases passes with
  | zero => cases run
  | succ passes =>
    obtain ⟨window,same,pass⟩ := storePending_whole provider sound size
      (List.ne_nil_of_mem lacking) passes
    have failing : ∃ chunk ∈ window,provider.failsOn chunk = true :=
      ⟨chunk,(same chunk).mpr lacking,fails⟩
    obtain ⟨after,failed,_,embeddings⟩ := storeWindow_failed settings store failing
    rw [pass,failed] at run
    cases run
    exact embeddings

theorem advances_of_working (some_ : lackingChunks settings store ≠ [])
    (works : ∀ chunk ∈ lackingChunks settings store,provider.failsOn chunk = false)
    (run : storePending settings provider passes store = .ok finished) :
    ∃ dimension after passes',provider.Answers dimension (lackingChunks settings store) ∧
      Advances settings store after dimension (lackingChunks settings store) ∧
      passes = passes' + 1 ∧ storePending settings provider passes' after = .ok finished := by
  cases passes with
  | zero => cases run
  | succ passes =>
    obtain ⟨window,same,pass⟩ := storePending_whole provider sound size some_ passes
    rw [pass] at run
    cases outcome : storeWindow settings provider store window with
    | error unfinished =>
      rw [outcome] at run
      cases run
    | ok result =>
      obtain ⟨dimension,answers⟩ :=
        storeWindow_ok (fun chunk member => works chunk ((same chunk).mp member)) outcome
      have full : window ≠ [] := by
        obtain ⟨chunk,member⟩ := List.exists_mem_of_ne_nil _ some_
        exact List.ne_nil_of_mem ((same chunk).mpr member)
      obtain ⟨after,stored,advances⟩ := storeWindow_answered settings sound
        (fun chunk member => (mem_lackingChunks.mp ((same chunk).mp member)).1) full answers
      rw [stored] at run
      simp only [if_neg (List.length_pos_iff.mpr full).ne'] at run
      exact ⟨dimension,after,passes,fun chunk member => answers chunk ((same chunk).mpr member),
        advances.congr same,rfl,run⟩

end

/-- After vectors of another dimension have been stored, the chunks that had vectors lack them. -/
theorem Advances.swaps (advances : Advances settings store store' dimension
      (lackingChunks settings store)) (other : store.embeddingColumn ≠ some dimension) :
    lackingChunks settings store' = currentChunks settings store ∧
      currentChunks settings store' = lackingChunks settings store := by
  have lacks : ∀ chunk ∈ store.chunks,
      store'.lacksVector settings.model settings.version chunk =
        !store.lacksVector settings.model settings.version chunk := by
    intro chunk there
    have iff := advances.lacks chunk there
    rw [mem_lackingChunks] at iff
    cases before : store.lacksVector settings.model settings.version chunk <;>
      cases after : store'.lacksVector settings.model settings.version chunk <;> simp_all
  constructor
  · rw [lackingChunks,currentChunks,advances.chunks]
    exact List.filter_congr lacks
  · rw [lackingChunks,currentChunks,advances.chunks]
    apply List.filter_congr
    intro chunk there
    rw [lacks chunk there,Bool.not_not]

/-- With two dimensions, each pass stores the vectors that the last one has cleared. -/
theorem not_ends_of_swinging {first second : Nat} {finished : Store α} (apart : first ≠ second)
    {passes : Nat} (sound : Store.Sound store) (size : store.chunks.length ≤ settings.batchSize)
    (column : store.embeddingColumn = some second)
    (lacking : provider.Answers first (lackingChunks settings store))
    (current : provider.Answers second (currentChunks settings store))
    (some_ : lackingChunks settings store ≠ []) (others : currentChunks settings store ≠ []) :
    storePending settings provider passes store ≠ .ok finished := by
  induction passes generalizing store first second with
  | zero => exact fun run => by cases run
  | succ passes ih =>
    intro run
    obtain ⟨dimension,after,passes',answers,advances,rest,run'⟩ :=
      advances_of_working sound size some_ (fun chunk member => (lacking chunk member).1) run
    obtain rfl := Nat.succ.inj rest
    obtain ⟨chunk,member⟩ := List.exists_mem_of_ne_nil _ some_
    obtain rfl : first = dimension :=
      (lacking chunk member).2.symm.trans (answers chunk member).2
    obtain ⟨lacking',current'⟩ := advances.swaps
      (column ▸ fun same => apart (Option.some.inj same).symm)
    exact ih (Ne.symm apart) advances.sound (advances.chunks ▸ size) advances.column
      (lacking'.symm ▸ current) (current'.symm ▸ lacking) (lacking'.symm ▸ others)
      (current'.symm ▸ some_) run'

/-- Where the passes do what they should with every limit, the provider is favourable, or it
displaces vectors that it does not make again. -/
theorem Progresses.favourable (sound : Store.Sound store)
    (progresses : Progresses settings provider store) :
    Favourable settings provider store ∨ Displaces settings provider store := by
  obtain ⟨passes,finished,run,current⟩ := progresses store.chunks.length
  have size : store.chunks.length ≤ ({settings with batchSize := store.chunks.length} :
    Settings).batchSize := le_rfl
  have lacks : ∀ chunk ∈ lackingChunks settings store,provider.failsOn chunk = false →
      finished.embeddings ≠ store.embeddings := by
    intro chunk lacking works same
    obtain ⟨there,before⟩ := mem_lackingChunks.mp lacking
    have after := current chunk there works
    rw [lacksVector_congr same,before] at after
    cases after
  by_cases all : ∀ chunk ∈ lackingChunks settings store,provider.failsOn chunk = true
  · exact .inl (.inl all)
  · push Not at all
    obtain ⟨working,member,works⟩ := all
    have none_ : ∀ chunk ∈ lackingChunks settings store,provider.failsOn chunk = false := by
      intro chunk lacking
      by_contra fails
      exact lacks working member (by simpa using works)
        (embeddings_of_failing sound size lacking (by simpa using fails) run)
    obtain ⟨dimension,after,passes',answers,advances,_,run'⟩ :=
      advances_of_working sound size (List.ne_nil_of_mem member) none_ run
    by_cases column : store.embeddingColumn = some dimension
    · exact .inl (.inr ⟨dimension,answers,.inl column⟩)
    · obtain ⟨lacking',current'⟩ := advances.swaps column
      by_cases displaced : ∀ chunk ∈ currentChunks settings store,provider.failsOn chunk = true
      · by_cases none_ : currentChunks settings store = []
        · refine .inl (.inr ⟨dimension,answers,.inr ?_⟩)
          rw [none_]
          exact fun chunk member => absurd member List.not_mem_nil
        · exact .inr ⟨none_,displaced,dimension,answers,column⟩
      · push Not at displaced
        obtain ⟨kept,among,works'⟩ := displaced
        have size' : after.chunks.length ≤ ({settings with batchSize := store.chunks.length} :
          Settings).batchSize := advances.chunks ▸ le_rfl
        -- The second pass embeds the chunks whose vectors the first has cleared.
        have cleared : ∀ chunk ∈ lackingChunks {settings with batchSize := store.chunks.length}
            after,provider.failsOn chunk = false := by
          intro chunk lacking
          by_contra fails
          have same := embeddings_of_failing advances.sound size' lacking
            (by simpa using fails) run'
          have last := current kept (mem_currentChunks.mp among).1 (by simpa using works')
          have before := (mem_lackingChunks.mp (lacking'.symm ▸ among)).2
          rw [lacksVector_congr same] at last
          exact absurd (last.symm.trans before) (by decide)
        have listed : lackingChunks {settings with batchSize := store.chunks.length} after ≠ [] :=
          List.ne_nil_of_mem (lacking'.symm ▸ among)
        obtain ⟨dimension',_,_,answers',_⟩ :=
          advances_of_working advances.sound size' listed cleared run'
        by_cases same : dimension' = dimension
        · subst same
          exact .inl (.inr ⟨dimension',answers,.inr (lacking' ▸ answers')⟩)
        · exact absurd run' (not_ends_of_swinging same advances.sound size' advances.column
            answers' (current'.symm ▸ answers) listed (current'.symm ▸ List.ne_nil_of_mem member))

/-- Vectors are displaced only after the first pass, which takes eight chunks with every limit. -/
theorem Displaces.progresses (sound : Store.Sound store)
    (displaces : Displaces settings provider store)
    (few : (lackingChunks settings store).length ≤ 8) : Progresses settings provider store := by
  obtain ⟨_,failing,dimension,answers,column⟩ := displaces
  intro batchSize
  by_cases none_ : lackingChunks settings store = []
  · exact Favourable.progresses sound (.inl fun chunk lacking =>
      absurd (none_ ▸ lacking) List.not_mem_nil) batchSize
  · have perm := List.perm_insertionSort Store.pathOrder (lackingChunks settings store)
    obtain ⟨after,advances,step⟩ :=
      storePending_step {settings with batchSize} provider sound none_ answers
    have few : (lackingChunks {settings with batchSize} store).length ≤ max 1 batchSize * 8 := by
      change (lackingChunks settings store).length ≤ _
      omega
    rw [chunksWithoutEmbeddings_all few] at advances
    have advances : Advances {settings with batchSize} store after dimension
        (lackingChunks settings store) := advances.congr fun chunk => perm.mem_iff
    obtain ⟨lacking',_⟩ := advances.swaps column
    have favourable : Favourable {settings with batchSize} provider after :=
      .inl fun chunk lacking => failing chunk (lacking' ▸ lacking)
    obtain ⟨passes,finished,run,current⟩ := favourable.progresses advances.sound batchSize
    exact ⟨passes + 1,finished,(step passes).trans run,
      fun chunk there => current chunk (advances.chunks ▸ there)⟩

/-- The passes do what they should, with every limit of a batch, if the provider is favourable,
and only then, except where vectors are displaced that are not made again; these do no harm
if no more than eight chunks lack a vector. -/
theorem progresses_iff (sound : Store.Sound store) :
    (Favourable settings provider store → Progresses settings provider store) ∧
      (Progresses settings provider store →
        Favourable settings provider store ∨ Displaces settings provider store) ∧
      (Displaces settings provider store → (lackingChunks settings store).length ≤ 8 →
        Progresses settings provider store) :=
  ⟨Favourable.progresses sound,Progresses.favourable sound,Displaces.progresses sound⟩

end Passes

def twoLetters : Store Nat where
  documents := [("a.md".toList,
    {documentId := "a.md".toList,sha256 := [],contentHash := [],chunkCount := 2})]
  chunks := [
    ⟨"1".toList,"a.md".toList,"a.md".toList,0,{content := ['A'],embeddingText := ['A']}⟩,
    ⟨"2".toList,"a.md".toList,"a.md".toList,1,{content := ['C'],embeddingText := ['C']}⟩]

def oneByOne : Settings where
  segment := fun _ => []
  model := []
  version := []
  batchSize := 1

theorem zero_proper (_ : Text) : 0 < ([0] : List Nat).length := Nat.one_pos

def failingOn (letters : List Text) : TextProvider Nat where
  fails := fun text => text ∈ letters
  code := []
  vector := fun _ => [0]
  proper := zero_proper

theorem sound_twoLetters : Store.Sound twoLetters where
  chunkIds := by decide
  homes := by decide
  paths := by decide
  embeddingIds := List.nodup_nil
  references := fun row found => by cases found
  uniform := fun row found => by cases found
  column := fun dimension used => by cases used
  idle := fun path row found dimension _ => by
    rcases List.mem_cons.mp (Dict.mem_of_find found) with head | stored
    · cases head
      rfl
    · cases stored
  cached := fun path found cached => by cases cached

theorem lacking_twoLetters {chunk : Chunk} (there : chunk ∈ twoLetters.chunks) :
    chunk ∈ lackingChunks oneByOne twoLetters :=
  mem_lackingChunks.mpr ⟨there,rfl⟩

/-- If the provider fails on neither, both get their vectors. -/
theorem progresses_twoLetters : Progresses oneByOne (failingOn []) twoLetters :=
  (progresses_iff sound_twoLetters).1
    (.inr ⟨1,fun _ _ => ⟨rfl,rfl⟩,.inr fun _ _ => ⟨rfl,rfl⟩⟩)

/-- If it fails on one of them, a window with both of them leaves the other without a vector. -/
theorem twoLetters_not_progresses :
    ¬ Progresses oneByOne (failingOn [['C']]) twoLetters := by
  intro progresses
  have first := lacking_twoLetters (List.mem_cons_self ..)
  have second := lacking_twoLetters (List.mem_cons_of_mem _ (List.mem_cons_self ..))
  have works : ∀ dimension,¬ (failingOn [['C']]).Answers dimension
      (lackingChunks oneByOne twoLetters) := by
    intro dimension answers
    exact absurd (answers _ second).1 (by decide)
  rcases progresses.favourable sound_twoLetters with
    (failing | ⟨dimension,answers,_⟩) | ⟨_,_,dimension,answers,_⟩
  · exact absurd (failing _ first) (by decide)
  · exact works dimension answers
  · exact works dimension answers

end LocalBook.Rag
