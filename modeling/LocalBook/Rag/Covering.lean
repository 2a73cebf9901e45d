import LocalBook.Rag.Packing

/-! What embedding stores: the vectors the provider answers, packed for the documents of their
chunks. A coverage says which chunks have one, from the answers alone. -/
namespace LocalBook.Rag

section Vectors

variable {α : Type} {store : Store α} {path : Text}

namespace Store

theorem keys_insertEmbedding (embeddings : List (Embedding α)) (new : Embedding α) (id : Text) :
    id ∈ (insertEmbedding embeddings new).map Embedding.chunkId ↔
      id ∈ embeddings.map Embedding.chunkId ∨ id = new.chunkId := by
  induction embeddings with
  | nil => simp [insertEmbedding]
  | cons old rest ih =>
    rw [insertEmbedding]
    split
    · rename_i same
      simp only [List.map_cons,List.mem_cons,same]
      tauto
    · simp only [List.map_cons,List.mem_cons,ih]
      tauto

theorem nodup_insertEmbedding {embeddings : List (Embedding α)}
    (distinct : (embeddings.map Embedding.chunkId).Nodup) (new : Embedding α) :
    ((insertEmbedding embeddings new).map Embedding.chunkId).Nodup := by
  induction embeddings with
  | nil => simp [insertEmbedding]
  | cons old rest ih =>
    obtain ⟨fresh,others⟩ := List.nodup_cons.mp distinct
    rw [insertEmbedding]
    split
    · rename_i same
      exact List.nodup_cons.mpr ⟨same ▸ fresh,others⟩
    · rename_i apart
      refine List.nodup_cons.mpr ⟨fun found => ?_,ih others⟩
      rcases (keys_insertEmbedding rest new _).mp found with before | same
      · exact fresh before
      · exact apart same

/-- The vector of another chunk is found as before. -/
theorem find_insertEmbedding (embeddings : List (Embedding α)) {new : Embedding α} {id : Text}
    (apart : id ≠ new.chunkId) :
    (insertEmbedding embeddings new).find? (fun row => row.chunkId = id) =
      embeddings.find? fun row => row.chunkId = id := by
  induction embeddings with
  | nil => simp [insertEmbedding,Ne.symm apart]
  | cons old rest ih =>
    rw [insertEmbedding]
    split
    · rename_i same
      rw [List.find?_cons_of_neg (by simpa using Ne.symm apart),
        List.find?_cons_of_neg (by simpa [same] using Ne.symm apart)]
    · rw [List.find?_cons,List.find?_cons,ih]

structure VectorTable (chunkIds : List Text) (dimension : Nat)
    (embeddings : List (Embedding α)) : Prop where
  distinct : (embeddings.map Embedding.chunkId).Nodup
  stored : ∀ row ∈ embeddings, row.chunkId ∈ chunkIds
  uniform : ∀ row ∈ embeddings, row.dimension = dimension ∧ row.vector.length = dimension

theorem VectorTable.insert {chunkIds : List Text} {dimension : Nat}
    {embeddings : List (Embedding α)} (table : VectorTable chunkIds dimension embeddings)
    {new : Embedding α} (there : new.chunkId ∈ chunkIds)
    (shaped : new.dimension = dimension ∧ new.vector.length = dimension) :
    VectorTable chunkIds dimension (insertEmbedding embeddings new) := by
  refine ⟨nodup_insertEmbedding table.distinct new,fun row found => ?_,fun row found => ?_⟩
  · rcases mem_insertEmbedding found with before | rfl | ⟨old,-,-,rfl⟩
    · exact table.stored row before
    · exact there
    · exact there
  · rcases mem_insertEmbedding found with before | rfl | ⟨old,-,-,rfl⟩
    · exact table.uniform row before
    · exact shaped
    · exact shaped

variable {model version : Text} {dimension : Nat} {found : List Chunk}

/-- Storing the vectors of chunks that are there adds exactly their vectors. -/
theorem storeVectors {chunkIds : List Text} {entries : List (Text × List α)}
    (there : ∀ entry ∈ entries, entry.1 ∈ ids found) (within : ∀ id ∈ ids found, id ∈ chunkIds)
    (shaped : ∀ entry ∈ entries, entry.2.length = dimension) {embeddings : List (Embedding α)}
    (table : VectorTable chunkIds dimension embeddings) :
    VectorTable chunkIds dimension
        (entries.foldl (storeVector model version dimension found) embeddings) ∧
    (∀ id, id ∈ (entries.foldl (storeVector model version dimension found) embeddings).map
        Embedding.chunkId ↔ id ∈ embeddings.map Embedding.chunkId ∨ id ∈ entries.map Prod.fst) ∧
    ∀ id, id ∉ entries.map Prod.fst →
      (entries.foldl (storeVector model version dimension found) embeddings).find?
        (fun row => row.chunkId = id) = embeddings.find? fun row => row.chunkId = id := by
  induction entries generalizing embeddings with
  | nil => exact ⟨table,by simp,fun _ _ => rfl⟩
  | cons entry rest ih =>
    have listed := there entry (List.mem_cons_self ..)
    obtain ⟨chunk,here,named⟩ : ∃ chunk, found.find? (fun row => row.chunkId = entry.1) =
        some chunk ∧ chunk.chunkId = entry.1 := by
      obtain ⟨row,member,same⟩ := mem_ids.mp listed
      have some_ : (found.find? fun row => row.chunkId = entry.1).isSome :=
        List.find?_isSome.mpr ⟨row,member,decide_eq_true same⟩
      obtain ⟨chunk,here⟩ := Option.isSome_iff_exists.mp some_
      have named := List.find?_some here
      exact ⟨chunk,here,of_decide_eq_true named⟩
    have step : storeVector model version dimension found embeddings entry =
        insertEmbedding embeddings (embeddingRow model version dimension chunk entry.2) := by
      rw [storeVector,here]
    have next : VectorTable chunkIds dimension
        (storeVector model version dimension found embeddings entry) := by
      rw [step]
      refine table.insert ?_ ⟨rfl,shaped entry (List.mem_cons_self ..)⟩
      rw [← named] at listed
      exact within chunk.chunkId listed
    obtain ⟨final,keys,others⟩ :=
      ih (fun later member => there later (List.mem_cons_of_mem _ member))
        (fun later member => shaped later (List.mem_cons_of_mem _ member)) next
    refine ⟨final,fun id => ?_,fun id missing => ?_⟩
    · rw [List.foldl_cons,keys,step,keys_insertEmbedding,List.map_cons,List.mem_cons]
      simp only [embeddingRow,named]
      tauto
    · obtain ⟨apart,absent⟩ := not_or.mp (mt List.mem_cons.mpr missing)
      rw [List.foldl_cons,others id absent,step,find_insertEmbedding]
      simpa [embeddingRow,named] using apart

/-- A store whose column for a dimension is there, with vectors of no other one. -/
theorem sound_ensureEmbeddingColumn (sound : Sound store) (dimension : Nat) :
    Sound (store.ensureEmbeddingColumn dimension) ∧
    (store.ensureEmbeddingColumn dimension).embeddingColumn = some dimension ∧
    (∀ id, (store.ensureEmbeddingColumn dimension).Held id ↔
      store.embeddingColumn = some dimension ∧ store.Held id) ∧
    ∀ path, store.Packed path → (store.ensureEmbeddingColumn dimension).Packed path := by
  unfold ensureEmbeddingColumn
  split
  · rename_i used
    exact ⟨sound,used,fun id => by simp [used],fun _ => id⟩
  · rename_i other
    cases used : store.embeddingColumn with
    | none =>
      have empty : store.embeddings = [] := by
        refine List.eq_nil_iff_forall_not_mem.mpr fun row found => ?_
        have column := (sound.uniform row found).1
        rw [used] at column
        cases column
      have none_ : ∀ row ∈ store.embeddings,
          some dimension = some row.dimension ∧ row.vector.length = row.dimension := by
        rw [empty]
        exact fun _ found => absurd found List.not_mem_nil
      refine ⟨{sound with
        uniform := fun row found => none_ row found,
        column := ?_,idle := ?_},rfl,?_,?_⟩
      · intro found same
        obtain rfl := Option.some.inj same
        exact List.mem_cons_self ..
      · intro path row found unused _
        exact sound.idle path row found unused (by simp [used])
      · intro id
        simp [Held,empty]
      · exact fun path packed => packed
    | some previous =>
      have cleared : ∀ path, (Dict.find (store.documents.mapValues (clearVectors previous)) path) =
          (store.document path).map (clearVectors previous) := Dict.find_mapValues _ _
      have runs : ∀ path row, Dict.find (store.documents.mapValues (clearVectors previous)) path =
          some row → ∀ dimension, (row.vectors dimension).getD [] = [] := by
        intro path row found any
        rw [cleared] at found
        obtain ⟨before,stored,rfl⟩ := Option.map_eq_some_iff.mp found
        rw [clearVectors]
        dsimp only
        rw [Function.update_apply]
        split
        · rfl
        · rename_i apart
          refine sound.idle path before stored any ?_
          rw [used]
          exact fun same => apart (Option.some.inj same).symm
      refine ⟨⟨sound.chunkIds,fun chunk found => ?_,?_,List.nodup_nil,
        fun _ found => absurd found List.not_mem_nil,fun _ found => absurd found List.not_mem_nil,
        fun found same => ?_,fun path row found any _ => runs path row found any,sound.cached⟩,
        rfl,fun id => ?_,fun path _ row found any _ => ?_⟩
      · have stored := sound.homes chunk found
        rw [document]
        dsimp only
        rw [cleared,Option.isSome_map]
        exact stored
      · have names : (store.documents.mapValues (clearVectors previous)).map Prod.fst =
            store.documents.map Prod.fst := by
          rw [Dict.mapValues,List.map_map]
          rfl
        exact names ▸ sound.paths
      · obtain rfl := Option.some.inj same
        exact List.mem_cons_self ..
      · rw [used] at other
        exact iff_of_false List.not_mem_nil fun found => other found.1
      · rw [runs path row found any,documentVectors_eq]
        symm
        refine List.flatten_eq_nil_iff.mpr fun vector member => ?_
        obtain ⟨id,-,here⟩ := List.mem_filterMap.mp member
        cases here

end Store

end Vectors

section Repacking

variable {α : Type} {store : Store α} {path : Text} {dimension : Nat}

namespace Store

theorem Sound.documentVectors_idle (sound : Sound store)
    (unused : store.embeddingColumn ≠ some dimension) (path : Text) :
    store.documentVectors path dimension = [] := by
  rw [documentVectors_eq]
  refine List.filterMap_eq_nil_iff.mpr fun id _ => ?_
  refine Option.not_isSome_iff_eq_none.mp fun found => ?_
  exact unused (sound.isSome_vectorOf.mp found).2

/-- What packing documents anew keeps, and which documents it packs. -/
structure Repacks (store store' : Store α) (packed : List Text) : Prop where
  sound : Sound store'
  chunks : store'.chunks = store.chunks
  embeddings : store'.embeddings = store.embeddings
  column : store'.embeddingColumn = store.embeddingColumn
  done : ∀ path ∈ packed, store'.Packed path
  kept : ∀ path, store.Packed path → store'.Packed path

theorem repacks_repackDocument (sound : Sound store)
    (used : store.embeddingColumn = some dimension) (path : Text) :
    Repacks store (store.repackDocument dimension path) [path] := by
  have here : (store.repackDocument dimension path).Packed path := by
    intro row found any _
    rw [repackDocument,document_modify,if_pos rfl] at found
    obtain ⟨before,stored,rfl⟩ := Option.map_eq_some_iff.mp found
    dsimp only
    rw [Function.update_apply]
    split
    · rename_i same
      rw [same]
      rfl
    · rename_i apart
      have unused : store.embeddingColumn ≠ some any := by
        rw [used]
        exact fun same => apart (Option.some.inj same).symm
      rw [sound.idle path before stored any unused]
      exact (congrArg List.flatten (sound.documentVectors_idle unused path)).symm
  refine ⟨sound.modifyDocument path fun row any unused => ?_,rfl,rfl,rfl,fun other found => ?_,
    fun other packed => ?_⟩
  · rw [used] at unused
    exact Function.update_of_ne (fun same => unused (congrArg some same.symm)) _ _
  · exact List.mem_singleton.mp found ▸ here
  · by_cases same : other = path
    · exact same ▸ here
    · refine packed.transfer (fun row found => ⟨row,?_,rfl⟩) rfl fun _ _ _ => rfl
      rwa [repackDocument,document_modify,if_neg same] at found

theorem repacks_foldl (sound : Sound store) (used : store.embeddingColumn = some dimension)
    (paths : List Text) :
    Repacks store (paths.foldl (repackDocument dimension) store) paths := by
  induction paths generalizing store with
  | nil => exact ⟨sound,rfl,rfl,rfl,fun _ found => absurd found List.not_mem_nil,fun _ => id⟩
  | cons path rest ih =>
    have first := repacks_repackDocument sound used path
    have later := ih first.sound (first.column.trans used)
    refine ⟨later.sound,later.chunks.trans first.chunks,later.embeddings.trans first.embeddings,
      later.column.trans first.column,fun other found => ?_,fun other packed =>
        later.kept other (first.kept other packed)⟩
    rcases List.mem_cons.mp found with rfl | after
    · exact later.kept other (first.done other (List.mem_singleton_self _))
    · exact later.done other after

/-- Vectors are stored for chunks of the table: their documents are packed anew, and no other
document is disturbed. -/
structure Stores (store store' : Store α) (dimension : Nat) (window : List Chunk) : Prop where
  sound : Sound store'
  chunks : store'.chunks = store.chunks
  column : store'.embeddingColumn = some dimension
  held : ∀ id, store'.Held id ↔
    (store.embeddingColumn = some dimension ∧ store.Held id) ∨ id ∈ ids window
  done : ∀ chunk ∈ window, store'.Packed chunk.documentId
  kept : ∀ path, store.Packed path → store'.Packed path

theorem stores_vectors {chunks : List Chunk} {batch : Batch α} {model version : Text}
    (sound : Sound store) (used : store.embeddingColumn = some batch.dimension)
    (there : ∀ chunk ∈ chunks, chunk ∈ store.chunks)
    (complete : batch.vectors.length = chunks.length) :
    let found := store.chunks.filter fun row => row.chunkId ∈ ids chunks
    let embeddings := ((ids chunks).zip batch.vectors).foldl
      (storeVector model version batch.dimension found) store.embeddings
    Sound {store with embeddings} ∧
      (∀ id, Held {store with embeddings} id ↔ store.Held id ∨ id ∈ ids chunks) ∧
      ∀ id, id ∉ ids chunks → embedding {store with embeddings} id = store.embedding id := by
  intro found embeddings
  have names : ((ids chunks).zip batch.vectors).map Prod.fst = ids chunks := by
    refine List.map_fst_zip ?_
    rw [ids,List.length_map,complete]
  have table : VectorTable (ids store.chunks) batch.dimension store.embeddings := by
    refine ⟨sound.embeddingIds,sound.references,fun row member => ?_⟩
    obtain ⟨same,length⟩ := sound.uniform row member
    have equal : row.dimension = batch.dimension := Option.some.inj (same.symm.trans used)
    exact ⟨equal,length.trans equal⟩
  have listed : ∀ entry ∈ (ids chunks).zip batch.vectors, entry.1 ∈ ids found := by
    intro entry member
    obtain ⟨chunk,here,same⟩ := mem_ids.mp (List.of_mem_zip member).1
    refine mem_ids.mpr ⟨chunk,List.mem_filter.mpr ⟨there chunk here,decide_eq_true ?_⟩,same⟩
    exact mem_ids.mpr ⟨chunk,here,rfl⟩
  have within : ∀ id ∈ ids found, id ∈ ids store.chunks := by
    intro id member
    obtain ⟨row,here,same⟩ := mem_ids.mp member
    exact mem_ids.mpr ⟨row,(List.mem_filter.mp here).1,same⟩
  have shaped : ∀ entry ∈ (ids chunks).zip batch.vectors, entry.2.length = batch.dimension :=
    fun entry member => batch.uniform entry.2 (List.of_mem_zip member).2
  obtain ⟨final,keys,others⟩ := @storeVectors _ model version _ _ _ _ listed within shaped _ table
  rw [names] at keys others
  refine ⟨⟨sound.chunkIds,sound.homes,sound.paths,final.distinct,final.stored,
    fun row member => ?_,sound.column,sound.idle,sound.cached⟩,keys,others⟩
  obtain ⟨same,length⟩ := final.uniform row member
  exact ⟨used.trans (congrArg some same.symm),length.trans same.symm⟩

theorem cascade_of_references (sound : Sound store) :
    cascade store.chunks store.embeddings = store.embeddings :=
  List.filter_eq_self.mpr fun row found => decide_eq_true (sound.references row found)

theorem stores_upsertEmbeddings {window : List Chunk} {batch : Batch α} (model version : Text)
    (sound : Sound store) (there : ∀ chunk ∈ window, chunk ∈ store.chunks)
    (some_ : window ≠ []) (complete : batch.vectors.length = window.length) :
    Stores store (store.upsertEmbeddings (ids window) batch model version) batch.dimension
      window := by
  have chunks : (store.ensureEmbeddingColumn batch.dimension).chunks = store.chunks :=
    (embeds_ensureEmbeddingColumn store batch.dimension).chunks
  obtain ⟨ready,used,before,packed⟩ := sound_ensureEmbeddingColumn sound batch.dimension
  rw [upsertEmbeddings,if_neg (by simpa [ids] using some_)]
  generalize store.ensureEmbeddingColumn batch.dimension = open_ at *
  obtain ⟨written,held,others⟩ := @stores_vectors _ open_ window batch model version ready used
    (chunks.symm ▸ there) complete
  dsimp only at written held others ⊢
  generalize ((ids window).zip batch.vectors).foldl (storeVector model version batch.dimension
    (open_.chunks.filter fun row => row.chunkId ∈ ids window)) open_.embeddings = embeddings at *
  have touched : ∀ chunk ∈ window, chunk.documentId ∈ ((open_.chunks.filter fun row =>
      row.chunkId ∈ ids window).map Chunk.documentId).dedup := by
    intro chunk member
    refine List.mem_dedup.mpr (List.mem_map_of_mem (List.mem_filter.mpr ⟨?_,decide_eq_true ?_⟩))
    · exact chunks.symm ▸ there chunk member
    · exact mem_ids.mpr ⟨chunk,member,rfl⟩
  have repacks := repacks_foldl written used ((open_.chunks.filter fun row =>
    row.chunkId ∈ ids window).map Chunk.documentId).dedup
  generalize ((open_.chunks.filter fun row => row.chunkId ∈ ids window).map
    Chunk.documentId).dedup = paths at *
  have final : (if paths = [] then paths.foldl (repackDocument batch.dimension)
        {open_ with embeddings}
      else {paths.foldl (repackDocument batch.dimension) {open_ with embeddings} with
        embeddings := cascade (paths.foldl (repackDocument batch.dimension)
          {open_ with embeddings}).chunks (paths.foldl (repackDocument batch.dimension)
          {open_ with embeddings}).embeddings}) =
      paths.foldl (repackDocument batch.dimension) {open_ with embeddings} := by
    rw [cascade_of_references repacks.sound]
    split <;> rfl
  rw [final]
  refine ⟨repacks.sound,repacks.chunks.trans chunks,repacks.column.trans used,fun id => ?_,
    fun chunk member => repacks.done _ (touched chunk member),fun path old => ?_⟩
  · rw [Held,repacks.embeddings]
    exact (held id).trans (or_congr_left (before id))
  · by_cases here : ∃ chunk ∈ window, chunk.documentId = path
    · obtain ⟨chunk,member,rfl⟩ := here
      exact repacks.done _ (touched chunk member)
    · refine repacks.kept path ((packed path old).transfer (fun row found => ⟨row,found,rfl⟩) rfl
        fun any id member => vectorOf_congr (others id fun listed => ?_) any)
      obtain ⟨chunk,inside,same⟩ := mem_ids.mp listed
      obtain ⟨row,stored,home,equal⟩ := mem_chunkIdsOf.mp member
      have one := eq_of_chunkId ready.chunkIds (chunks.symm ▸ there chunk inside) stored
        (same.trans equal.symm)
      exact here ⟨chunk,inside,one ▸ home⟩

end Store

end Repacking

/-- Which chunks have a vector, of which dimension, and which documents were packed since. -/
structure Coverage where
  dimension : Option Nat
  held : List Text
  packed : List Text := []

section Coverage

variable {α : Type} {settings : Settings} {store store' : Store α} {c c' : Coverage}

def coverageOf (store : Store α) : Coverage where
  dimension := store.embeddingColumn
  held := store.embeddings.map Embedding.chunkId

def coverWindow (embed : List Text → Except Text (Batch α)) (c : Coverage)
    (window : List Chunk) : Coverage :=
  match embed (window.map fun chunk => chunk.piece.embeddingText) with
  | .error _ => c
  | .ok batch =>
    if batch.vectors.length ≠ window.length then c
    else
      {dimension := some batch.dimension,
       held := (if c.dimension = some batch.dimension then c.held else []) ++ ids window,
       packed := c.packed ++ window.map Chunk.documentId}

def cover (settings : Settings) (provider : Provider α) (pending : List Chunk) (c : Coverage) :
    Coverage :=
  match provider with
  | none => c
  | some embed => (windows (max 1 settings.batchSize) pending.length pending).foldl
      (coverWindow embed) c

structure Covers (store : Store α) (c : Coverage) : Prop where
  sound : Store.Sound store
  dimension : store.embeddingColumn = c.dimension
  held : ∀ id, store.Held id ↔ id ∈ c.held
  packed : ∀ path ∈ c.packed, store.Packed path

theorem covers_coverageOf (sound : Store.Sound store) : Covers store (coverageOf store) :=
  ⟨sound,rfl,fun _ => Iff.rfl,fun _ found => absurd found List.not_mem_nil⟩

structure Continues (store store' : Store α) (c : Coverage) : Prop where
  covers : Covers store' c
  chunks : store'.chunks = store.chunks
  kept : ∀ path, store.Packed path → store'.Packed path

namespace Store

theorem repacks_modifyDocument (sound : Sound store) (path : Text)
    {change : Document α → Document α} (same : ∀ row, (change row).vectors = row.vectors) :
    Repacks store (store.modifyDocument path change) [] :=
  ⟨sound.modifyDocument path fun row dimension _ => congrFun (same row) dimension,rfl,rfl,rfl,
    fun _ found => absurd found List.not_mem_nil,fun _ packed => packed.modifyDocument path same⟩

theorem repacks_markDocumentsPending (sound : Sound store) (paths : List Text) (reason : Text) :
    Repacks store (store.markDocumentsPending paths reason) [] := by
  unfold markDocumentsPending
  induction paths generalizing store with
  | nil => exact ⟨sound,rfl,rfl,rfl,fun _ found => absurd found List.not_mem_nil,fun _ => id⟩
  | cons path rest ih =>
    have first := @repacks_modifyDocument _ store sound path
      (fun row => {row with status := .pending,diagnostic := some (reason.take 200)}) fun _ => rfl
    have later := ih first.sound
    exact ⟨later.sound,later.chunks.trans first.chunks,later.embeddings.trans first.embeddings,
      later.column.trans first.column,fun _ found => absurd found List.not_mem_nil,
      fun other packed => later.kept other (first.kept other packed)⟩

end Store

theorem Store.Repacks.continues (repacks : Store.Repacks store store' [])
    (covers : Covers store c) : Continues store store' c := by
  refine ⟨⟨repacks.sound,repacks.column.trans covers.dimension,fun id => ?_,fun path found =>
    repacks.kept path (covers.packed path found)⟩,repacks.chunks,repacks.kept⟩
  rw [Store.Held,repacks.embeddings]
  exact covers.held id

theorem continues_embedWindow (embed : List Text → Except Text (Batch α)) {window : List Chunk}
    (covers : Covers store c) (there : ∀ chunk ∈ window, chunk ∈ store.chunks)
    (some_ : window ≠ []) :
    Continues store (embedWindow settings embed store window) (coverWindow embed c window) := by
  unfold embedWindow coverWindow
  cases embed (window.map fun chunk => chunk.piece.embeddingText) with
  | error code =>
    exact (Store.repacks_markDocumentsPending covers.sound _ code).continues covers
  | ok batch =>
    dsimp only
    split
    · exact ⟨covers,rfl,fun _ => id⟩
    · rename_i complete
      have stores := Store.stores_upsertEmbeddings settings.model settings.version covers.sound
        there some_ (not_not.mp complete)
      refine ⟨⟨stores.sound,stores.column,fun id => ?_,fun path found => ?_⟩,stores.chunks,
        stores.kept⟩
      · rw [stores.held,covers.dimension,covers.held,List.mem_append]
        split <;> simp_all
      · rcases List.mem_append.mp found with before | now
        · exact stores.kept path (covers.packed path before)
        · obtain ⟨chunk,member,rfl⟩ := List.mem_map.mp now
          exact stores.done chunk member

theorem continues_windows (embed : List Text → Except Text (Batch α))
    {windows : List (List Chunk)} (covers : Covers store c)
    (there : ∀ window ∈ windows, window ≠ [] ∧ ∀ chunk ∈ window, chunk ∈ store.chunks) :
    Continues store (windows.foldl (embedWindow settings embed) store)
      (windows.foldl (coverWindow embed) c) := by
  induction windows generalizing store c with
  | nil => exact ⟨covers,rfl,fun _ => id⟩
  | cons window rest ih =>
    obtain ⟨some_,inside⟩ := there window (List.mem_cons_self ..)
    have first := @continues_embedWindow _ settings _ _ embed _ covers inside some_
    have later := ih first.covers fun other member => by
      rw [first.chunks]
      exact there other (List.mem_cons_of_mem _ member)
    exact ⟨later.covers,later.chunks.trans first.chunks,fun path packed =>
      later.kept path (first.kept path packed)⟩

theorem windows_ne_nil {β : Type} {size fuel : Nat} {items window : List β} (positive : 0 < size)
    (found : window ∈ windows size fuel items) : window ≠ [] := by
  induction fuel generalizing items with
  | zero => cases found
  | succ fuel ih =>
    cases items with
    | nil => cases found
    | cons first rest =>
      rcases List.mem_cons.mp found with rfl | later
      · obtain ⟨n,rfl⟩ := Nat.exists_eq_succ_of_ne_zero positive.ne'
        exact List.cons_ne_nil _ _
      · exact ih later

def unembedded (chunks : List Chunk) (reused : Dict Text Text) : List Chunk :=
  chunks.filter fun chunk => reused.find chunk.chunkId ≠ some chunk.hash

/-- Embedding chunks of the table stores what the provider answers, and packs it. -/
theorem continues_embedChunks (provider : Provider α) {chunks : List Chunk}
    (reused : Dict Text Text) (covers : Covers store c)
    (there : ∀ chunk ∈ chunks, chunk ∈ store.chunks) :
    Continues store (embedChunks settings provider store chunks reused)
      (cover settings provider (unembedded chunks reused) c) := by
  unfold embedChunks cover
  cases provider with
  | none => exact ⟨covers,rfl,fun _ => id⟩
  | some embed =>
    have size : 0 < max 1 settings.batchSize := lt_max_of_lt_left Nat.one_pos
    exact continues_windows embed covers fun window found =>
      ⟨windows_ne_nil size found,fun chunk member =>
        there chunk (List.mem_filter.mp (mem_of_windows found member)).1⟩

def Seamless (store : Store α) (c : Coverage) : Prop :=
  ∀ path ∈ store.documents.map Prod.fst,
    (store.chunkIdsOf path).Pairwise fun a b => b ∈ c.held → a ∈ c.held

theorem Continues.aligned (continues : Continues store store' c) (sound : Store.Sound store)
    (seamless : Seamless store c) (packed : ∀ path, path ∈ c.packed ∨ store.Packed path) :
    Aligned store' := by
  refine ⟨continues.covers.sound,fun path => ?_,fun path => ?_⟩
  · exact (packed path).elim (continues.covers.packed path) (continues.kept path)
  · have chunks : store'.chunkIdsOf path = store.chunkIdsOf path := by
      rw [Store.chunkIdsOf,Store.chunksForDocument,continues.chunks]
      rfl
    rw [Store.Leading,chunks]
    by_cases stored : path ∈ store.documents.map Prod.fst
    · refine (seamless path stored).imp fun before later => ?_
      exact (continues.covers.held _).mpr (before ((continues.covers.held _).mp later))
    · have absent : store.document path = none := Dict.find_absent stored
      rw [sound.chunkIdsOf_absent absent]
      exact List.Pairwise.nil

end Coverage

end LocalBook.Rag
