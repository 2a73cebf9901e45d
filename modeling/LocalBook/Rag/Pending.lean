import LocalBook.Rag.Covering
import LocalBook.Rag.Search

/-! Which chunks lack a vector after a window has been stored: the chunks of the window have one
by the current settings, and the others keep theirs unless the dimension has changed. -/
namespace LocalBook.Rag

section Pending

variable {α : Type} {store : Store α} {model version : Text}

namespace Store

def Labels (embeddings : List (Embedding α)) (model version hash id : Text) : Prop :=
  ∃ row,embeddings.find? (fun row => row.chunkId = id) = some row ∧ row.model = model ∧
    row.version = version ∧ row.contentHash = hash

theorem lacksVector_eq_false {chunk : Chunk} : store.lacksVector model version chunk = false ↔
    Labels store.embeddings model version chunk.hash chunk.chunkId := by
  unfold lacksVector Labels embedding
  cases store.embeddings.find? fun row => row.chunkId = chunk.chunkId with
  | none => simp
  | some row => simp [and_assoc]

theorem labels_insertEmbedding (embeddings : List (Embedding α)) (new : Embedding α) :
    Labels (insertEmbedding embeddings new) new.model new.version new.contentHash new.chunkId := by
  induction embeddings with
  | nil => exact ⟨new,by simp [insertEmbedding],rfl,rfl,rfl⟩
  | cons old rest ih =>
    rw [insertEmbedding]
    split
    · exact ⟨{new with documentId := old.documentId},by simp,rfl,rfl,rfl⟩
    · next apart =>
      obtain ⟨row,found,labels⟩ := ih
      refine ⟨row,?_,labels⟩
      rw [List.find?_cons_of_neg (by simpa using apart)]
      exact found

/-- The vectors of stored chunks are labelled by the settings that made them. -/
theorem labels_storeVectors {found : List Chunk} {dimension : Nat} {chunk : Chunk}
    (named : found.find? (fun row => row.chunkId = chunk.chunkId) = some chunk)
    (entries : List (Text × List α)) (embeddings : List (Embedding α))
    (listed : chunk.chunkId ∈ entries.map Prod.fst ∨
      Labels embeddings model version chunk.hash chunk.chunkId) :
    Labels (entries.foldl (storeVector model version dimension found) embeddings) model version
      chunk.hash chunk.chunkId := by
  induction entries generalizing embeddings with
  | nil => exact listed.resolve_left List.not_mem_nil
  | cons entry rest ih =>
    rw [List.foldl_cons]
    by_cases same : entry.1 = chunk.chunkId
    · apply ih
      right
      rw [storeVector,same,named]
      exact labels_insertEmbedding embeddings
        (embeddingRow model version dimension chunk entry.2)
    · apply ih
      rcases listed with later | labels
      · exact .inl ((List.mem_cons.mp later).resolve_left (Ne.symm same))
      · right
        unfold storeVector
        split
        · exact labels
        · next other named' =>
          have own : other.chunkId = entry.1 := by simpa using List.find?_some named'
          obtain ⟨row,there,labelled⟩ := labels
          refine ⟨row,?_,labelled⟩
          rw [find_insertEmbedding _ (fun equal => same (own.symm.trans equal.symm))]
          exact there

/-- After a window has been stored, its chunks lack no vector, and the others lack none that they
did not lack before in the same dimension. -/
theorem lacksVector_upsertEmbeddings {window : List Chunk} {batch : Batch α} (sound : Sound store)
    (there : ∀ chunk ∈ window,chunk ∈ store.chunks) (some_ : window ≠ [])
    (complete : batch.vectors.length = window.length) {chunk : Chunk}
    (stored : chunk ∈ store.chunks) :
    (store.upsertEmbeddings (ids window) batch model version).lacksVector model version chunk =
        false ↔
      chunk ∈ window ∨ (store.embeddingColumn = some batch.dimension ∧
        store.lacksVector model version chunk = false) := by
  have chunks : (store.ensureEmbeddingColumn batch.dimension).chunks = store.chunks :=
    (embeds_ensureEmbeddingColumn store batch.dimension).chunks
  obtain ⟨ready,used,held,_⟩ := sound_ensureEmbeddingColumn sound batch.dimension
  have before : (store.ensureEmbeddingColumn batch.dimension).lacksVector model version chunk =
      false ↔ store.embeddingColumn = some batch.dimension ∧
        store.lacksVector model version chunk = false := by
    by_cases same : store.embeddingColumn = some batch.dimension
    · rw [ensureEmbeddingColumn,if_pos same]
      simp [same]
    · have absent := mt (held chunk.chunkId).mp (fun both => same both.1)
      rw [← isSome_embedding,Option.not_isSome_iff_eq_none] at absent
      simp [lacksVector,absent,same]
  rw [← before,upsertEmbeddings,if_neg (by simpa [ids] using some_)]
  generalize store.ensureEmbeddingColumn batch.dimension = opened at *
  obtain ⟨written,_,others⟩ := @stores_vectors _ opened window batch model version ready used
    (chunks.symm ▸ there) complete
  dsimp only at written others ⊢
  have labelled : chunk ∈ window → Labels (((ids window).zip batch.vectors).foldl
      (storeVector model version batch.dimension (opened.chunks.filter fun row =>
        row.chunkId ∈ ids window)) opened.embeddings) model version chunk.hash chunk.chunkId := by
    intro inside
    apply labels_storeVectors
    · have listed : chunk ∈ opened.chunks.filter fun row => row.chunkId ∈ ids window :=
        List.mem_filter.mpr ⟨chunks ▸ stored,decide_eq_true (List.mem_map_of_mem inside)⟩
      exact find?_of_distinct (ready.chunkIds.sublist (List.filter_sublist.map _)) listed rfl
    · left
      rw [List.map_fst_zip (by rw [ids,List.length_map,complete])]
      exact List.mem_map_of_mem inside
  generalize ((ids window).zip batch.vectors).foldl (storeVector model version batch.dimension
    (opened.chunks.filter fun row => row.chunkId ∈ ids window)) opened.embeddings =
      embeddings at *
  have repacks := repacks_foldl written used ((opened.chunks.filter fun row =>
    row.chunkId ∈ ids window).map Chunk.documentId).dedup
  generalize ((opened.chunks.filter fun row => row.chunkId ∈ ids window).map
    Chunk.documentId).dedup = paths at *
  rw [cascade_of_references repacks.sound]
  have same : (if paths = [] then paths.foldl (repackDocument batch.dimension)
        {opened with embeddings}
      else {paths.foldl (repackDocument batch.dimension) {opened with embeddings} with
        embeddings := (paths.foldl (repackDocument batch.dimension)
          {opened with embeddings}).embeddings}).embeddings = embeddings := by
    split <;> exact repacks.embeddings
  rw [lacksVector_eq_false,same]
  by_cases inside : chunk ∈ window
  · exact ⟨fun _ => .inl inside,fun _ => labelled inside⟩
  · have apart : chunk.chunkId ∉ ids window := by
      intro listed
      obtain ⟨other,member,own⟩ := mem_ids.mp listed
      have equal := eq_of_chunkId sound.chunkIds (there other member) stored own
      exact inside (equal ▸ member)
    have kept := others chunk.chunkId apart
    rw [lacksVector_eq_false,Labels,Labels]
    rw [embedding,embedding] at kept
    rw [kept]
    exact ⟨.inr,fun either => either.resolve_left inside⟩

end Store

end Pending

end LocalBook.Rag
