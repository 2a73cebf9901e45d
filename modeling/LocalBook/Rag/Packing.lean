import LocalBook.Rag.Search
import LocalBook.Rag.Syncing

/-! The packed runs and the chunks they are matched with: what a deletion, an upsert, a rename
and a reset make of both. -/
namespace LocalBook.Rag

section Lists

variable {β γ δ : Type}

/-- What has a key that no other has is found by it. -/
theorem find?_of_distinct [DecidableEq γ] {key : β → γ} {rows : List β} {row : β} {k : γ}
    (distinct : (rows.map key).Nodup) (there : row ∈ rows) (same : key row = k) :
    rows.find? (fun other => key other = k) = some row := by
  have exists_ : (rows.find? fun other => key other = k).isSome :=
    List.find?_isSome.mpr ⟨row,there,decide_eq_true same⟩
  obtain ⟨other,found⟩ := Option.isSome_iff_exists.mp exists_
  have named : key other = k := by simpa using List.find?_some found
  rw [found,List.inj_on_of_nodup_map distinct (List.mem_of_find?_eq_some found) there
    (named.trans same.symm)]

theorem mem_of_windows {size fuel : Nat} {items window : List β} {item : β}
    (found : window ∈ windows size fuel items) (member : item ∈ window) : item ∈ items := by
  induction fuel generalizing items with
  | zero => cases found
  | succ fuel ih =>
    cases items with
    | nil => cases found
    | cons first rest =>
      rcases List.mem_cons.mp found with rfl | later
      · exact List.mem_of_mem_take member
      · exact List.mem_of_mem_drop (ih later)

theorem windows_of_mem {size fuel : Nat} {items : List β} {item : β} (positive : 0 < size)
    (enough : items.length ≤ fuel) (member : item ∈ items) :
    ∃ window ∈ windows size fuel items, item ∈ window := by
  induction fuel generalizing items with
  | zero => exact absurd member (by simp [List.length_eq_zero_iff.mp (Nat.le_zero.mp enough)])
  | succ fuel ih =>
    cases items with
    | nil => cases member
    | cons first rest =>
      rw [← List.take_append_drop size (first :: rest)] at member
      rcases List.mem_append.mp member with early | late
      · exact ⟨_,List.mem_cons_self ..,early⟩
      · have shorter : ((first :: rest).drop size).length ≤ fuel := by
          rw [List.length_drop]
          omega
        obtain ⟨window,found,here⟩ := ih shorter late
        exact ⟨window,List.mem_cons_of_mem _ found,here⟩

theorem windows_succ {size fuel : Nat} {items : List β} (some_ : items ≠ []) :
    windows size (fuel + 1) items = items.take size :: windows size fuel (items.drop size) := by
  cases items with
  | nil => exact absurd rfl some_
  | cons first rest => rfl

/-- Vectors of one length are the windows of their run. -/
theorem windows_flatten {size : Nat} {rows : List (List β)} (positive : 0 < size)
    (uniform : ∀ row ∈ rows, row.length = size) :
    windows size (rows.flatten.length / size) rows.flatten = rows := by
  induction rows with
  | nil => cases h : ([] : List (List β)).flatten.length / size <;> simp_all [windows]
  | cons row rest ih =>
    have here := uniform row (List.mem_cons_self ..)
    have later := ih fun other found => uniform other (List.mem_cons_of_mem _ found)
    have count : (row :: rest).flatten.length / size = rest.flatten.length / size + 1 := by
      rw [List.flatten_cons,List.length_append,here,Nat.add_comm,Nat.add_div_right _ positive]
    rw [count]
    have cut : (row ++ rest.flatten).take size = row := by rw [← here,List.take_left]
    have left : (row ++ rest.flatten).drop size = rest.flatten := by rw [← here,List.drop_left]
    have some_ : row ++ rest.flatten ≠ [] := by
      intro empty
      rw [(List.append_eq_nil_iff.mp empty).1] at here
      exact absurd here (by simpa using positive.ne)
    rw [List.flatten_cons,windows_succ some_,cut,left,later]

/-- Where the marked elements come first, they are matched by position. -/
theorem zip_filterMap {f : β → Option γ} {g : β → δ} {items : List β}
    (leading : items.Pairwise fun a b => (f b).isSome → (f a).isSome) :
    (items.filterMap f).zip (items.map g) =
      items.filterMap fun item => (f item).map fun value => (value,g item) := by
  induction items with
  | nil => rfl
  | cons item rest ih =>
    obtain ⟨first,later⟩ := List.pairwise_cons.mp leading
    cases marked : f item with
    | some value => simp [marked,ih later]
    | none =>
      have none_ : ∀ other ∈ rest, f other = none := by
        intro other found
        have unmarked := mt (first other found) (by simp [marked])
        exact Option.not_isSome_iff_eq_none.mp unmarked
      have left : rest.filterMap f = [] := List.filterMap_eq_nil_iff.mpr none_
      have right : (rest.filterMap fun item => (f item).map fun value => (value,g item)) = [] :=
        List.filterMap_eq_nil_iff.mpr fun other found => by simp [none_ other found]
      simp [marked,left,right]

end Lists

section Tables

variable {α : Type} {store store' : Store α} {path path' : Text}

namespace Store

def Held (store : Store α) (id : Text) : Prop := id ∈ store.embeddings.map Embedding.chunkId

def vectorOf (store : Store α) (dimension : Nat) (id : Text) : Option (List α) :=
  ((store.embedding id).map Embedding.vector).filter fun vector => vector.length = dimension

def chunkIdsOf (store : Store α) (path : Text) : List Text := ids (store.chunksForDocument path)

def Packed (store : Store α) (path : Text) : Prop :=
  ∀ row, store.document path = some row → ∀ dimension, 0 < dimension →
    (row.vectors dimension).getD [] = (store.documentVectors path dimension).flatten

def Leading (store : Store α) (path : Text) : Prop :=
  (store.chunkIdsOf path).Pairwise fun a b => store.Held b → store.Held a

/-- The keys of the tables are keys, chunks belong to stored documents, vectors to stored
chunks; all vectors are of the dimension in use, as are the runs, and cached ids are
current. -/
structure Sound (store : Store α) : Prop where
  chunkIds : (ids store.chunks).Nodup
  homes : ∀ chunk ∈ store.chunks, (store.document chunk.documentId).isSome
  paths : (store.documents.map Prod.fst).Nodup
  embeddingIds : (store.embeddings.map Embedding.chunkId).Nodup
  references : ∀ row ∈ store.embeddings, row.chunkId ∈ ids store.chunks
  uniform : ∀ row ∈ store.embeddings,
    store.embeddingColumn = some row.dimension ∧ row.vector.length = row.dimension
  column : ∀ dimension, store.embeddingColumn = some dimension → dimension ∈ store.columns
  idle : ∀ path row, store.document path = some row → ∀ dimension,
    store.embeddingColumn ≠ some dimension → (row.vectors dimension).getD [] = []
  cached : ∀ path found, store.idCache.find path = some found → found = store.chunkIdsOf path

theorem documentVectors_eq (store : Store α) (path : Text) (dimension : Nat) :
    store.documentVectors path dimension =
      (store.chunkIdsOf path).filterMap (store.vectorOf dimension) := by
  rw [chunkIdsOf,ids,List.filterMap_map]
  rfl

theorem isSome_embedding {id : Text} : (store.embedding id).isSome ↔ store.Held id := by
  rw [embedding,List.find?_isSome,Held,List.mem_map]
  simp only [decide_eq_true_eq]

/-- The dimension of a stored vector is the one in use. -/
theorem Sound.isSome_vectorOf (sound : Sound store) {dimension : Nat} {id : Text} :
    (store.vectorOf dimension id).isSome ↔
      store.Held id ∧ store.embeddingColumn = some dimension := by
  rw [← isSome_embedding,vectorOf]
  cases found : store.embedding id with
  | none => simp
  | some row =>
    obtain ⟨used,length⟩ := sound.uniform row (List.mem_of_find?_eq_some found)
    rw [used,Option.map_some,Option.filter_some]
    by_cases same : row.vector.length = dimension
    · simp [same,← length]
    · simp [same,← length]

theorem held_of_vectorOf {dimension : Nat} {id : Text}
    (found : (store.vectorOf dimension id).isSome) : store.Held id := by
  rw [vectorOf] at found
  refine isSome_embedding.mp ?_
  cases here : store.embedding id with
  | none => simp [here] at found
  | some row => rfl

/-- A document keeps its packed runs when its chunks keep their order and their vectors. -/
theorem Packed.transfer (packed : Packed store path)
    (kept : ∀ row', store'.document path' = some row' →
      ∃ row, store.document path = some row ∧ row'.vectors = row.vectors)
    (chunks : store'.chunkIdsOf path' = store.chunkIdsOf path)
    (vectors : ∀ dimension, ∀ id ∈ store.chunkIdsOf path,
      store'.vectorOf dimension id = store.vectorOf dimension id) : Packed store' path' := by
  intro row' found dimension positive
  obtain ⟨row,before,same⟩ := kept row' found
  rw [same,packed row before dimension positive,documentVectors_eq,documentVectors_eq,chunks]
  congr 1
  exact List.filterMap_congr fun id member => (vectors dimension id member).symm

theorem Leading.transfer (leading : Leading store path)
    (chunks : store'.chunkIdsOf path' = store.chunkIdsOf path)
    (held : ∀ id ∈ store.chunkIdsOf path, store'.Held id ↔ store.Held id) :
    Leading store' path' := by
  rw [Leading,chunks]
  refine List.Pairwise.imp_of_mem (fun first second before later => ?_) leading
  exact (held _ first).mpr (before ((held _ second).mp later))

theorem mem_chunkIdsOf {id : Text} : id ∈ store.chunkIdsOf path ↔
    ∃ chunk ∈ store.chunks, chunk.documentId = path ∧ chunk.chunkId = id := by
  rw [chunkIdsOf,chunksForDocument,rowsOf,mem_ids]
  simp only [List.mem_insertionSort,List.mem_filter,decide_eq_true_eq,and_assoc]

/-- Only the rows of documents change, and they stay where they are. -/
theorem Sound.documents (sound : Sound store) {documents : Dict Text (Document α)}
    (names : documents.map Prod.fst = store.documents.map Prod.fst)
    (same : ∀ path, (documents.find path).isSome = (store.document path).isSome)
    (idle : ∀ path row, documents.find path = some row → ∀ dimension,
      store.embeddingColumn ≠ some dimension → (row.vectors dimension).getD [] = []) :
    Sound {store with documents} where
  chunkIds := sound.chunkIds
  homes := fun chunk found => (same chunk.documentId).trans (sound.homes chunk found)
  paths := names ▸ sound.paths
  embeddingIds := sound.embeddingIds
  references := sound.references
  uniform := sound.uniform
  column := sound.column
  idle := idle
  cached := sound.cached

theorem names_modify (documents : Dict Text (Document α)) (path : Text)
    (change : Document α → Document α) :
    (documents.modify path change).map Prod.fst = documents.map Prod.fst := by
  rw [Dict.modify,List.map_map]
  refine List.map_congr_left fun entry _ => ?_
  simp only [Function.comp_apply]
  split <;> simp_all

theorem document_modify (store : Store α) (path other : Text) (change : Document α → Document α) :
    (store.modifyDocument path change).document other =
      if other = path then (store.document path).map change else store.document other :=
  Dict.find_modify _ _ _ _

theorem Sound.modifyDocument (sound : Sound store) (path : Text)
    {change : Document α → Document α} (same : ∀ row dimension,
      store.embeddingColumn ≠ some dimension → (change row).vectors dimension =
        row.vectors dimension) : Sound (store.modifyDocument path change) := by
  refine sound.documents (names_modify _ _ _) (fun other => ?_) fun other row found dimension => ?_
  · rw [Dict.find_modify]
    split
    · rename_i here
      rw [here,Option.isSome_map]
      rfl
    · rfl
  · intro unused
    rw [Dict.find_modify] at found
    split at found
    · obtain ⟨before,stored,rfl⟩ := Option.map_eq_some_iff.mp found
      rw [same before dimension unused]
      exact sound.idle path before stored dimension unused
    · exact sound.idle other row found dimension unused

theorem Packed.modifyDocument (packed : Packed store path) (other : Text)
    {change : Document α → Document α} (same : ∀ row, (change row).vectors = row.vectors) :
    Packed (store.modifyDocument other change) path := by
  refine packed.transfer (fun row' found => ?_) rfl fun _ _ _ => rfl
  rw [document_modify] at found
  split at found
  · rename_i here
    obtain ⟨row,before,rfl⟩ := Option.map_eq_some_iff.mp found
    exact ⟨row,here ▸ before,same row⟩
  · exact ⟨row',found,rfl⟩

end Store

end Tables

section Changes

variable {α : Type} {store : Store α} {path other : Text} {new : List Piece}

namespace Store

structure Undisturbed (store store' : Store α) (path : Text) : Prop where
  document : ∀ row', store'.document path = some row' →
    ∃ row, store.document path = some row ∧ row'.vectors = row.vectors
  chunks : store'.chunkIdsOf path = store.chunkIdsOf path
  vectors : ∀ id ∈ store.chunkIdsOf path, store'.embedding id = store.embedding id

theorem vectorOf_congr {store' : Store α} {id : Text}
    (same : store'.embedding id = store.embedding id) (dimension : Nat) :
    store'.vectorOf dimension id = store.vectorOf dimension id := by
  rw [vectorOf,vectorOf,same]

theorem held_congr {store' : Store α} {id : Text}
    (same : store'.embedding id = store.embedding id) : store'.Held id ↔ store.Held id := by
  rw [← isSome_embedding,← isSome_embedding,same]

theorem Undisturbed.packed {store' : Store α} (undisturbed : Undisturbed store store' path)
    (packed : Packed store path) : Packed store' path :=
  packed.transfer undisturbed.document undisturbed.chunks fun _ id member =>
    vectorOf_congr (undisturbed.vectors id member) _

theorem Undisturbed.leading {store' : Store α} (undisturbed : Undisturbed store store' path)
    (leading : Leading store path) : Leading store' path :=
  leading.transfer undisturbed.chunks fun id member => held_congr (undisturbed.vectors id member)

theorem find_cascade {chunks : List Chunk} {embeddings : List (Embedding α)} {id : Text}
    (stays : id ∈ ids chunks) :
    (cascade chunks embeddings).find? (fun row => row.chunkId = id) =
      embeddings.find? fun row => row.chunkId = id := by
  rw [cascade,List.find?_filter]
  congr 1
  funext row
  by_cases same : row.chunkId = id
  · simp [same,stays]
  · simp [same]

theorem nodup_cascade {chunks : List Chunk} {embeddings : List (Embedding α)}
    (distinct : (embeddings.map Embedding.chunkId).Nodup) :
    ((cascade chunks embeddings).map Embedding.chunkId).Nodup :=
  distinct.sublist (List.filter_sublist.map _)

theorem names_pop (documents : Dict Text (Document α)) (path : Text) :
    List.Sublist ((documents.pop path).map Prod.fst) (documents.map Prod.fst) :=
  List.filter_sublist.map _

/-- The chunks of another document are not touched by a deletion. -/
theorem rowsOf_filter (table : List Chunk) (apart : other ≠ path) :
    rowsOf (table.filter fun row => row.documentId ≠ path) other = rowsOf table other := by
  rw [rowsOf,rowsOf,List.filter_filter]
  congr 1
  refine List.filter_congr fun row _ => ?_
  by_cases here : row.documentId = other
  · simp [here,apart]
  · simp [here]

theorem Sound.deleteDocument (sound : Sound store) (path : Text) :
    Sound (store.deleteDocument path) where
  chunkIds := sound.chunkIds.sublist (List.filter_sublist.map _)
  homes := fun chunk found => by
    obtain ⟨before,apart⟩ := List.mem_filter.mp found
    have home := sound.homes chunk before
    rw [document,Store.deleteDocument]
    dsimp only
    rw [Dict.find_pop,if_neg (of_decide_eq_true apart)]
    exact home
  paths := sound.paths.sublist (names_pop _ _)
  embeddingIds := nodup_cascade sound.embeddingIds
  references := fun row found => mem_ids.mpr (mem_cascade found).2
  uniform := fun row found => sound.uniform row (mem_cascade found).1
  column := sound.column
  idle := fun other row found => by
    rw [document,Store.deleteDocument] at found
    dsimp only at found
    rw [Dict.find_pop] at found
    split at found
    · cases found
    · exact sound.idle other row found
  cached := fun other found here => by
    rw [Store.deleteDocument] at here
    dsimp only at here
    rw [Dict.find_pop] at here
    split at here
    · cases here
    · rename_i apart
      rw [sound.cached other found here,chunkIdsOf,chunkIdsOf,chunksForDocument,
        chunksForDocument]
      exact congrArg ids (rowsOf_filter store.chunks apart).symm

theorem undisturbed_deleteDocument (apart : other ≠ path) :
    Undisturbed store (store.deleteDocument path) other := by
  have chunks : (store.deleteDocument path).chunkIdsOf other = store.chunkIdsOf other :=
    congrArg ids (rowsOf_filter store.chunks apart)
  refine ⟨fun row found => ⟨row,?_,rfl⟩,chunks,fun id member => find_cascade ?_⟩
  · rw [document,Store.deleteDocument] at found
    dsimp only at found
    rw [Dict.find_pop,if_neg apart] at found
    exact found
  · rw [← chunks] at member
    obtain ⟨chunk,here,-,rfl⟩ := mem_chunkIdsOf.mp member
    exact mem_ids.mpr ⟨chunk,here,rfl⟩

theorem Sound.chunkIdsOf_absent (sound : Sound store) (absent : store.document path = none) :
    store.chunkIdsOf path = [] := by
  refine List.eq_nil_iff_forall_not_mem.mpr fun id member => ?_
  obtain ⟨chunk,here,home,-⟩ := mem_chunkIdsOf.mp member
  have stored := sound.homes chunk here
  rw [home,absent] at stored
  cases stored

/-- A path without a document has neither runs nor chunks. -/
theorem Sound.absent (sound : Sound store) (absent : store.document path = none) :
    Packed store path ∧ Leading store path := by
  have unstored : Packed store path := by
    intro row found
    rw [absent] at found
    cases found
  refine ⟨unstored,?_⟩
  rw [Leading,sound.chunkIdsOf_absent absent]
  exact List.Pairwise.nil

theorem document_deleteDocument (store : Store α) (path : Text) :
    (store.deleteDocument path).document path = none := by
  rw [document,Store.deleteDocument]
  dsimp only
  rw [Dict.find_pop,if_pos rfl]

end Store

/-- Every document is packed as its chunks stand, and those with a vector come first. -/
structure Aligned (store : Store α) : Prop where
  sound : Store.Sound store
  packed : ∀ path, store.Packed path
  leading : ∀ path, store.Leading path

namespace Store

theorem aligned_deleteDocument (aligned : Aligned store) (path : Text) :
    Aligned (store.deleteDocument path) := by
  have sound := aligned.sound.deleteDocument path
  have gone := sound.absent (document_deleteDocument store path)
  refine ⟨sound,fun other => ?_,fun other => ?_⟩
  · by_cases same : other = path
    · exact same ▸ gone.1
    · exact (undisturbed_deleteDocument same).packed (aligned.packed other)
  · by_cases same : other = path
    · exact same ▸ gone.2
    · exact (undisturbed_deleteDocument same).leading (aligned.leading other)

/-- Rows of one document displace no row of another. -/
theorem filter_insertChunk {table : List Chunk} {chunk : Chunk}
    (own : chunk.documentId ≠ other)
    (free : ∀ row ∈ table, row.chunkId = chunk.chunkId → row.documentId ≠ other) :
    (insertChunk table chunk).filter (fun row => row.documentId = other) =
      table.filter fun row => row.documentId = other := by
  induction table with
  | nil => simp [insertChunk,own]
  | cons row rest ih =>
    have later := ih fun found here => free found (List.mem_cons_of_mem _ here)
    rw [insertChunk]
    split
    · rename_i same
      have elsewhere := free row (List.mem_cons_self ..) same
      rw [List.filter_cons_of_neg (by simpa using own),
        List.filter_cons_of_neg (by simpa using elsewhere)]
    · rw [List.filter_cons,List.filter_cons,later]

theorem mem_insertChunk {table : List Chunk} {chunk row : Chunk}
    (found : row ∈ insertChunk table chunk) : row = chunk ∨ row ∈ table := by
  induction table with
  | nil => exact .inl (List.mem_singleton.mp found)
  | cons first rest ih =>
    rw [insertChunk] at found
    split at found
    · exact (List.mem_cons.mp found).imp_right (List.mem_cons_of_mem _)
    · rcases List.mem_cons.mp found with rfl | later
      · exact .inr (List.mem_cons_self ..)
      · exact (ih later).imp_right (List.mem_cons_of_mem _)

theorem filter_insertAll {rows table : List Chunk} (own : ∀ row ∈ rows, row.documentId ≠ other)
    (free : ∀ row ∈ table, row.chunkId ∈ ids rows → row.documentId ≠ other) :
    (rows.foldl insertChunk table).filter (fun row => row.documentId = other) =
      table.filter fun row => row.documentId = other := by
  induction rows generalizing table with
  | nil => rfl
  | cons row rest ih =>
    have first := own row (List.mem_cons_self ..)
    rw [List.foldl_cons,ih (fun later found => own later (List.mem_cons_of_mem _ found)),
      filter_insertChunk first fun found here same =>
        free found here (by rw [same]; exact List.mem_cons_self ..)]
    intro found here listed
    rcases mem_insertChunk here with rfl | before
    · exact first
    · exact free found before (List.mem_cons_of_mem _ listed)

theorem rowsOf_replaceChunks_other {table : List Chunk} (unclaimed : Unclaimed table path new)
    (apart : other ≠ path) :
    rowsOf (replaceChunks path (chunkDocument path new) table) other = rowsOf table other := by
  have own : ∀ row ∈ chunkDocument path new, row.documentId ≠ other := fun row found =>
    (document_chunksFrom found).1 ▸ Ne.symm apart
  rw [rowsOf,replaceChunks,filter_insertAll own,List.filter_filter,rowsOf]
  · congr 1
    refine List.filter_congr fun row _ => ?_
    by_cases here : row.documentId = other
    · simp [here,apart]
    · simp [here]
  · intro row found listed
    exact unclaimed.2 row (List.mem_filter.mp found).1 listed ▸ Ne.symm apart

/-- The rows of the upserted document are its chunks, in order. -/
theorem rowsOf_replaceChunks {table : List Chunk} (distinct : (ids table).Nodup)
    (unclaimed : Unclaimed table path new) :
    rowsOf (replaceChunks path (chunkDocument path new) table) path = chunkDocument path new := by
  have perm := (replaceChunks_perm distinct unclaimed).filter fun row => row.documentId = path
  have own : (chunkDocument path new).filter (fun row => row.documentId = path) =
      chunkDocument path new :=
    List.filter_eq_self.mpr fun row found => decide_eq_true (document_chunksFrom found).1
  have others : (table.filter fun row => row.documentId ≠ path).filter
      (fun row => row.documentId = path) = [] := by
    refine List.filter_eq_nil_iff.mpr fun row found => ?_
    simpa using (List.mem_filter.mp found).2
  rw [List.filter_append,own,others,List.append_nil] at perm
  have strict := sorted_chunksFrom path 0 new
  have total : Std.Total Chunk.precedes := ⟨fun a b => Nat.le_total _ _⟩
  have trans : IsTrans Chunk Chunk.precedes := ⟨fun a b c => Nat.le_trans⟩
  have same := (List.perm_insertionSort Chunk.precedes _).trans perm
  refine List.Perm.eq_of_pairwise (fun a b left right first second => ?_)
    (List.pairwise_insertionSort Chunk.precedes _)
    (strict.imp fun less => Nat.le_of_lt less) same
  have indexes : ((chunkDocument path new).map Chunk.chunkIndex).Nodup :=
    List.pairwise_map.mpr (strict.imp fun less => Nat.ne_of_lt less)
  exact List.inj_on_of_nodup_map indexes (same.subset left) right (Nat.le_antisymm first second)

end Store

end Changes

section Upserts

variable {α : Type} {store : Store α} {path other : Text} {new : List Piece}
  {sha256 hash : Text} {pruneFts : Bool}

namespace Store

instance (store : Store α) (id : Text) : Decidable (store.Held id) :=
  inferInstanceAs (Decidable (id ∈ _))

def heldOf (store : Store α) (chunkIds : List Text) : List Text :=
  chunkIds.filter fun id => store.Held id

theorem filterMap_heldOf (store : Store α) (chunkIds : List Text) (dimension : Nat) :
    (store.heldOf chunkIds).filterMap (store.vectorOf dimension) =
      chunkIds.filterMap (store.vectorOf dimension) := by
  rw [heldOf,List.filterMap_filter]
  refine List.filterMap_congr fun id _ => ?_
  split
  · rfl
  · rename_i unheld
    have none_ := mt (@held_of_vectorOf _ store dimension id) (by simpa using unheld)
    exact (Option.not_isSome_iff_eq_none.mp none_).symm

theorem upsertChunks_eq (some_ : chunkDocument path new ≠ []) :
    (store.upsertChunks path (chunkDocument path new) sha256 hash pruneFts).chunks =
        replaceChunks path (chunkDocument path new) store.chunks ∧
    (store.upsertChunks path (chunkDocument path new) sha256 hash pruneFts).embeddings =
        cascade (store.chunks.filter fun row => ¬ (row.documentId = path ∧
          row.chunkId ∉ ids (chunkDocument path new))) store.embeddings ∧
    (store.upsertChunks path (chunkDocument path new) sha256 hash pruneFts).documents =
        store.documents.set path (upsertedRow (store.document path) path sha256 hash
          (chunkDocument path new).length) ∧
    (store.upsertChunks path (chunkDocument path new) sha256 hash pruneFts).idCache =
        store.idCache.pop path ∧
    (store.upsertChunks path (chunkDocument path new) sha256 hash pruneFts).columns =
        store.columns ∧
    (store.upsertChunks path (chunkDocument path new) sha256 hash pruneFts).embeddingColumn =
        store.embeddingColumn := by
  rw [upsertChunks,if_neg some_,chunkDocument_sorted]
  exact ⟨rfl,rfl,rfl,rfl,rfl,rfl⟩

theorem vectors_upsertedRow (old : Option (Document α)) (document sha256 hash : Text)
    (count : Nat) : (upsertedRow old document sha256 hash count).vectors =
      (old.map Document.vectors).getD fun _ => none := by
  cases old <;> rfl

theorem document_upsertChunks (some_ : chunkDocument path new ≠ []) (other : Text) :
    (store.upsertChunks path (chunkDocument path new) sha256 hash pruneFts).document other =
      if other = path then some (upsertedRow (store.document path) path sha256 hash
        (chunkDocument path new).length) else store.document other := by
  rw [document,(upsertChunks_eq some_).2.2.1,Dict.find_set]
  rfl

theorem chunkIdsOf_upsertChunks (sound : Sound store) (some_ : chunkDocument path new ≠ [])
    (unclaimed : Unclaimed store.chunks path new) (other : Text) :
    (store.upsertChunks path (chunkDocument path new) sha256 hash pruneFts).chunkIdsOf other =
      if other = path then ids (chunkDocument path new) else store.chunkIdsOf other := by
  rw [chunkIdsOf,chunksForDocument,(upsertChunks_eq some_).1]
  split
  · rename_i same
    rw [same,rowsOf_replaceChunks sound.chunkIds unclaimed]
  · rename_i apart
    rw [rowsOf_replaceChunks_other unclaimed apart]
    rfl

/-- No chunk that is stored after an upsert loses its vector, and none gains one. -/
theorem embedding_upsertChunks (sound : Sound store) (some_ : chunkDocument path new ≠ [])
    {id : Text}
    (stored : id ∈ ids (chunkDocument path new) ∨ ∃ other, other ≠ path ∧
      id ∈ store.chunkIdsOf other) :
    (store.upsertChunks path (chunkDocument path new) sha256 hash pruneFts).embedding id =
      store.embedding id := by
  rw [embedding,(upsertChunks_eq some_).2.1,embedding]
  by_cases stays : id ∈ ids (store.chunks.filter fun row => ¬ (row.documentId = path ∧
      row.chunkId ∉ ids (chunkDocument path new)))
  · exact find_cascade stays
  · have unheld : ¬ store.Held id := by
      intro held
      obtain ⟨row,found,rfl⟩ := List.mem_map.mp held
      obtain ⟨chunk,here,same⟩ := mem_ids.mp (sound.references row found)
      refine stays (mem_ids.mpr ⟨chunk,List.mem_filter.mpr ⟨here,decide_eq_true ?_⟩,same⟩)
      rintro ⟨home,missing⟩
      rcases stored with fresh | ⟨elsewhere,apart,listed⟩
      · exact missing (same.symm ▸ fresh)
      · obtain ⟨owner,there,owned,equal⟩ := mem_chunkIdsOf.mp listed
        have one := eq_of_chunkId sound.chunkIds here there (same.trans equal.symm)
        exact apart ((one ▸ owned).symm.trans home)
    have none_ : store.embeddings.find? (fun row => row.chunkId = id) = none :=
      Option.not_isSome_iff_eq_none.mp (mt isSome_embedding.mp unheld)
    rw [none_]
    refine List.find?_eq_none.mpr fun row found => ?_
    exact List.find?_eq_none.mp none_ row (mem_cascade found).1

theorem Sound.upsertChunks (sound : Sound store) (some_ : chunkDocument path new ≠ [])
    (unclaimed : Unclaimed store.chunks path new) :
    Sound (store.upsertChunks path (chunkDocument path new) sha256 hash pruneFts) := by
  obtain ⟨chunks,embeddings,documents,idCache,columns,embeddingColumn⟩ :=
    @upsertChunks_eq _ store path new sha256 hash pruneFts some_
  have perm := replaceChunks_perm sound.chunkIds unclaimed
  constructor
  · rw [chunks]
    exact nodup_ids_insertAll (sound.chunkIds.sublist (List.filter_sublist.map _)) _
  · intro chunk found
    rw [document_upsertChunks some_]
    split
    · rfl
    · rename_i apart
      rw [chunks] at found
      rcases List.mem_append.mp (perm.subset found) with own | before
      · exact absurd (document_chunksFrom own).1 apart
      · exact sound.homes chunk (List.mem_filter.mp before).1
  · rw [documents]
    exact Dict.nodup_names_set sound.paths _ _
  · rw [embeddings]
    exact nodup_cascade sound.embeddingIds
  · intro row found
    rw [embeddings] at found
    obtain ⟨-,chunk,here,same⟩ := mem_cascade found
    obtain ⟨before,stays⟩ := List.mem_filter.mp here
    rw [chunks]
    by_cases listed : chunk.chunkId ∈ ids (chunkDocument path new)
    · obtain ⟨fresh,added,equal⟩ := mem_ids.mp listed
      exact mem_ids.mpr ⟨fresh,perm.symm.subset (List.mem_append_left _ added),equal.trans same⟩
    · have apart : chunk.documentId ≠ path := fun home =>
        of_decide_eq_true stays ⟨home,listed⟩
      exact mem_ids.mpr ⟨chunk,perm.symm.subset (List.mem_append_right _
        (List.mem_filter.mpr ⟨before,decide_eq_true apart⟩)),same⟩
  · intro row found
    rw [embeddings] at found
    rw [embeddingColumn]
    exact sound.uniform row (mem_cascade found).1
  · intro dimension used
    rw [columns]
    exact sound.column dimension (embeddingColumn ▸ used)
  · intro other row found dimension unused
    rw [embeddingColumn] at unused
    rw [document_upsertChunks some_] at found
    split at found
    · obtain rfl := Option.some.inj found
      rw [vectors_upsertedRow]
      cases old : store.document path with
      | some before => exact sound.idle path before old dimension unused
      | none => rfl
    · exact sound.idle other row found dimension unused
  · intro other found here
    rw [idCache,Dict.find_pop] at here
    rw [chunkIdsOf_upsertChunks sound some_ unclaimed]
    split at here
    · cases here
    · rename_i apart
      rw [if_neg apart]
      exact sound.cached other found here

theorem undisturbed_upsertChunks (sound : Sound store) (some_ : chunkDocument path new ≠ [])
    (unclaimed : Unclaimed store.chunks path new) (apart : other ≠ path) :
    Undisturbed store (store.upsertChunks path (chunkDocument path new) sha256 hash pruneFts)
      other := by
  refine ⟨fun row found => ⟨row,?_,rfl⟩,?_,fun id member =>
    embedding_upsertChunks sound some_ (.inr ⟨other,apart,member⟩)⟩
  · rwa [document_upsertChunks some_,if_neg apart] at found
  · rw [chunkIdsOf_upsertChunks sound some_ unclaimed,if_neg apart]

/-- An upsert after which the chunks with a vector are those from before, in their order. -/
theorem packed_upsertChunks (sound : Sound store) (some_ : chunkDocument path new ≠ [])
    (unclaimed : Unclaimed store.chunks path new) (packed : store.Packed path)
    (same : store.heldOf (store.chunkIdsOf path) = store.heldOf (ids (chunkDocument path new))) :
    Packed (store.upsertChunks path (chunkDocument path new) sha256 hash pruneFts) path := by
  intro row found dimension positive
  rw [document_upsertChunks some_,if_pos rfl] at found
  obtain rfl := Option.some.inj found
  have vectors : (store.upsertChunks path (chunkDocument path new) sha256 hash
      pruneFts).documentVectors path dimension = store.documentVectors path dimension := by
    rw [documentVectors_eq,documentVectors_eq,chunkIdsOf_upsertChunks sound some_ unclaimed,
      if_pos rfl,← filterMap_heldOf store (store.chunkIdsOf path),same,filterMap_heldOf]
    exact List.filterMap_congr fun id member =>
      vectorOf_congr (embedding_upsertChunks sound some_ (.inl member)) dimension
  rw [vectors,vectors_upsertedRow]
  cases old : store.document path with
  | some row => exact packed row old dimension positive
  | none =>
    have none_ : store.chunkIdsOf path = [] := sound.chunkIdsOf_absent old
    rw [documentVectors_eq,none_]
    rfl

end Store

end Upserts

section Renames

variable {α : Type} {store : Store α} {oldPath newPath other : Text}

namespace Store

def renamed (store : Store α) (oldPath newPath : Text) : Store α :=
  {store with
    documents := store.documents.rekey oldPath newPath,
    chunks := store.chunks.map (repoint oldPath newPath),
    embeddings := store.embeddings.map fun row =>
      if row.documentId = oldPath then {row with documentId := newPath} else row,
    fts := store.fts.map fun row =>
      if row.documentId = oldPath then {row with documentId := newPath,path := newPath} else row,
    idCache := (store.idCache.pop oldPath).pop newPath}

theorem renameDocument_cases {done : Bool} {moved : Store α}
    (success : store.renameDocument oldPath newPath = .ok (done,moved)) :
    moved = store ∨ (oldPath ≠ newPath ∧ store.document newPath = none ∧
      moved = store.renamed oldPath newPath) := by
  unfold renameDocument at success
  split at success
  · obtain ⟨-,rfl⟩ := Prod.mk.inj (Except.ok.inj success)
    exact .inl rfl
  · rename_i apart
    split at success
    · obtain ⟨-,rfl⟩ := Prod.mk.inj (Except.ok.inj success)
      exact .inl rfl
    · split at success
      · cases success
      · rename_i free
        obtain ⟨-,rfl⟩ := Prod.mk.inj (Except.ok.inj success)
        exact .inr ⟨apart,Option.not_isSome_iff_eq_none.mp free,rfl⟩

theorem repoint_chunkId (row : Chunk) : (repoint oldPath newPath row).chunkId = row.chunkId := by
  unfold repoint
  split <;> rfl

theorem ids_repoint (rows : List Chunk) : ids (rows.map (repoint oldPath newPath)) = ids rows := by
  rw [ids,List.map_map]
  exact List.map_congr_left fun row _ => repoint_chunkId row

theorem rowsOf_repoint {table : List Chunk} {path path' : Text}
    (same : ∀ row ∈ table, (repoint oldPath newPath row).documentId = path' ↔
      row.documentId = path) :
    ids (rowsOf (table.map (repoint oldPath newPath)) path') = ids (rowsOf table path) := by
  have index : ∀ row, (repoint oldPath newPath row).chunkIndex = row.chunkIndex := by
    intro row
    unfold repoint
    split <;> rfl
  have rows : (table.map (repoint oldPath newPath)).filter (fun row => row.documentId = path') =
      (table.filter fun row => row.documentId = path).map (repoint oldPath newPath) := by
    rw [List.filter_map]
    exact congrArg _ (List.filter_congr fun row found => decide_eq_decide.mpr (same row found))
  rw [rowsOf,rows,← List.map_insertionSort Chunk.precedes Chunk.precedes,ids_repoint,rowsOf]
  intro a _ b _
  simp only [Chunk.precedes,index]

theorem chunkIdsOf_renamed (sound : Sound store) (apart : oldPath ≠ newPath)
    (free : store.document newPath = none) (other : Text) :
    (store.renamed oldPath newPath).chunkIdsOf other =
      if other = newPath then store.chunkIdsOf oldPath
      else if other = oldPath then [] else store.chunkIdsOf other := by
  have vacant : ∀ row ∈ store.chunks, row.documentId ≠ newPath := by
    intro row found home
    have stored := sound.homes row found
    rw [home,free] at stored
    cases stored
  by_cases arrived : other = newPath
  · rw [if_pos arrived,arrived]
    refine rowsOf_repoint fun row found => ?_
    rw [repoint_documentId]
    split
    · simp [*]
    · simp [*,vacant row found]
  · rw [if_neg arrived]
    by_cases gone : other = oldPath
    · rw [if_pos gone,gone]
      refine List.eq_nil_iff_forall_not_mem.mpr fun id member => ?_
      obtain ⟨chunk,here,home,-⟩ := mem_chunkIdsOf.mp member
      obtain ⟨row,-,rfl⟩ := List.mem_map.mp here
      rw [repoint_documentId] at home
      split at home
      · exact apart home.symm
      · exact absurd home ‹_›
    · rw [if_neg gone]
      refine rowsOf_repoint fun row found => ?_
      rw [repoint_documentId]
      split
      · rename_i moved
        rw [moved]
        exact iff_of_false (Ne.symm arrived) (Ne.symm gone)
      · rfl

theorem vector_renamed (store : Store α) (oldPath newPath id : Text) :
    ((store.renamed oldPath newPath).embedding id).map Embedding.vector =
      (store.embedding id).map Embedding.vector := by
  rw [embedding,renamed,List.find?_map,Option.map_map,embedding]
  have keys : ((fun row : Embedding α => decide (row.chunkId = id)) ∘ fun row =>
      if row.documentId = oldPath then {row with documentId := newPath} else row) =
      fun row => decide (row.chunkId = id) := by
    funext row
    simp only [Function.comp_apply]
    split <;> rfl
  rw [keys]
  refine Option.map_congr fun row _ => ?_
  simp only [Function.comp_apply]
  split <;> rfl

theorem vectorOf_renamed (dimension : Nat) (id : Text) :
    (store.renamed oldPath newPath).vectorOf dimension id = store.vectorOf dimension id := by
  rw [vectorOf,vector_renamed,vectorOf]

theorem held_renamed (id : Text) : (store.renamed oldPath newPath).Held id ↔ store.Held id := by
  rw [← isSome_embedding,← isSome_embedding,← Option.isSome_map (f := Embedding.vector),
    vector_renamed,Option.isSome_map]

theorem document_renamed (free : store.document newPath = none) (other : Text) :
    (store.renamed oldPath newPath).document other =
      if other = newPath then store.document oldPath
      else if other = oldPath then none else store.document other :=
  Dict.find_rekey _ _ free

theorem Sound.renamed (sound : Sound store) (apart : oldPath ≠ newPath)
    (free : store.document newPath = none) : Sound (store.renamed oldPath newPath) := by
  have keys : (store.renamed oldPath newPath).embeddings.map Embedding.chunkId =
      store.embeddings.map Embedding.chunkId := by
    rw [Store.renamed,List.map_map]
    refine List.map_congr_left fun row _ => ?_
    simp only [Function.comp_apply]
    split <;> rfl
  have chunks : ids (store.renamed oldPath newPath).chunks = ids store.chunks := ids_repoint _
  constructor
  · exact chunks ▸ sound.chunkIds
  · intro chunk found
    obtain ⟨row,here,rfl⟩ := List.mem_map.mp found
    rw [document_renamed free,repoint_documentId]
    by_cases moved : row.documentId = oldPath
    · rw [if_pos moved,if_pos rfl,← moved]
      exact sound.homes row here
    · have stored := sound.homes row here
      have elsewhere : row.documentId ≠ newPath := by
        intro home
        rw [home,free] at stored
        cases stored
      rw [if_neg moved,if_neg elsewhere,if_neg moved]
      exact stored
  · exact Dict.nodup_names_rekey sound.paths free
  · exact keys ▸ sound.embeddingIds
  · intro row found
    rw [chunks]
    obtain ⟨before,here,rfl⟩ := List.mem_map.mp found
    have stored := sound.references before here
    split <;> exact stored
  · intro row found
    obtain ⟨before,here,rfl⟩ := List.mem_map.mp found
    have used := sound.uniform before here
    split <;> exact used
  · exact sound.column
  · intro path row found
    rw [document_renamed free] at found
    split at found
    · exact sound.idle oldPath row found
    · split at found
      · cases found
      · exact sound.idle path row found
  · intro path found here
    rw [Store.renamed] at here
    dsimp only at here
    rw [Dict.find_pop,Dict.find_pop] at here
    rw [chunkIdsOf_renamed sound apart free]
    split at here
    · cases here
    · rename_i other
      split at here
      · cases here
      · rename_i gone
        rw [if_neg other,if_neg gone]
        exact sound.cached path found here

theorem aligned_renamed (aligned : Aligned store) (apart : oldPath ≠ newPath)
    (free : store.document newPath = none) : Aligned (store.renamed oldPath newPath) := by
  have sound := aligned.sound.renamed apart free
  have chunks := chunkIdsOf_renamed aligned.sound apart free
  have documents := @document_renamed _ store oldPath newPath free
  have gone := sound.absent ((documents oldPath).trans (by rw [if_neg apart,if_pos rfl]))
  refine ⟨sound,fun other => ?_,fun other => ?_⟩
  · by_cases left : other = oldPath
    · exact left ▸ gone.1
    · by_cases arrived : other = newPath
      · refine (aligned.packed oldPath).transfer (fun row found => ⟨row,?_,rfl⟩) ?_
          fun dimension id _ => vectorOf_renamed dimension id
        · rwa [documents,if_pos arrived] at found
        · rw [chunks,if_pos arrived]
      · refine (aligned.packed other).transfer (fun row found => ⟨row,?_,rfl⟩) ?_
          fun dimension id _ => vectorOf_renamed dimension id
        · rwa [documents,if_neg arrived,if_neg left] at found
        · rw [chunks,if_neg arrived,if_neg left]
  · by_cases left : other = oldPath
    · exact left ▸ gone.2
    · by_cases arrived : other = newPath
      · refine (aligned.leading oldPath).transfer ?_ fun id _ => held_renamed id
        rw [chunks,if_pos arrived]
      · refine (aligned.leading other).transfer ?_ fun id _ => held_renamed id
        rw [chunks,if_neg arrived,if_neg left]

theorem aligned_modifyDocument (aligned : Aligned store) (path : Text)
    {change : Document α → Document α} (same : ∀ row, (change row).vectors = row.vectors) :
    Aligned (store.modifyDocument path change) :=
  ⟨aligned.sound.modifyDocument path fun row dimension _ => congrFun (same row) dimension,
    fun other => (aligned.packed other).modifyDocument path same,fun other => aligned.leading other⟩

theorem aligned_reset (store : Store α) : Aligned store.reset where
  sound :=
    {chunkIds := List.nodup_nil,
     homes := fun _ found => absurd found (List.not_mem_nil),
     paths := List.nodup_nil,
     embeddingIds := List.nodup_nil,
     references := fun _ found => absurd found (List.not_mem_nil),
     uniform := fun _ found => absurd found (List.not_mem_nil),
     column := fun _ used => absurd used (by simp [reset]),
     idle := fun _ _ found => absurd found (by simp [reset,document]),
     cached := fun _ _ found => absurd found (by simp [reset])}
  packed := fun _ _ found => absurd found (by simp [reset,document])
  leading := fun _ => List.Pairwise.nil

end Store

end Renames

end LocalBook.Rag
