import LocalBook.Rag.Identity
import LocalBook.Rag.IndexService

/-! What the service keeps of the notes: after every flush the stored chunks of a path are
those of its current bytes, as long as no stored note becomes undecodable, no chunk id is
claimed twice and nothing is renamed onto a stored note. -/
namespace LocalBook.Rag

section Embedding

variable {α : Type} {store store' store'' : Store α}

/-- Every vector and every full-text row belongs to a stored chunk of its document. -/
structure Owned (store : Store α) : Prop where
  embeddings : ∀ row ∈ store.embeddings, ∃ chunk ∈ store.chunks,
    chunk.chunkId = row.chunkId ∧ chunk.documentId = row.documentId
  fts : ∀ row ∈ store.fts, ∃ chunk ∈ store.chunks,
    chunk.chunkId = row.chunkId ∧ chunk.documentId = row.documentId

structure Embeds (store store' : Store α) : Prop where
  chunks : store'.chunks = store.chunks
  hashes : ∀ path, store'.documentContentHash path = store.documentContentHash path
  owned : Owned store → Owned store'

theorem Embeds.refl (store : Store α) : Embeds store store := ⟨rfl,fun _ => rfl,id⟩

theorem Embeds.trans (first : Embeds store store') (second : Embeds store' store'') :
    Embeds store store'' :=
  ⟨second.chunks.trans first.chunks,fun path => (second.hashes path).trans (first.hashes path),
    fun owned => second.owned (first.owned owned)⟩

theorem embeds_foldl {β : Type} {f : Store α → β → Store α}
    (each : ∀ store b, Embeds store (f store b)) (l : List β) (store : Store α) :
    Embeds store (l.foldl f store) := by
  induction l generalizing store with
  | nil => exact Embeds.refl store
  | cons b rest ih => exact (each store b).trans (ih (f store b))

theorem embeds_modifyDocument (store : Store α) (path : Text) {change : Document α → Document α}
    (same : ∀ row, (change row).contentHash = row.contentHash) :
    Embeds store (store.modifyDocument path change) := by
  refine ⟨rfl,fun other => ?_,fun owned => ⟨owned.embeddings,owned.fts⟩⟩
  rw [Store.documentContentHash,Store.documentContentHash,Store.document,Store.document,
    Store.modifyDocument]
  dsimp only
  rw [Dict.find_modify]
  split
  · rename_i here
    subst here
    rw [Option.map_map]
    cases store.documents.find other <;> simp [same]
  · rfl

theorem embeds_markDocumentFailed (store : Store α) (path reason : Text) :
    Embeds store (store.markDocumentFailed path reason) :=
  embeds_modifyDocument store path fun _ => rfl

theorem embeds_markDocumentsPending (store : Store α) (paths : List Text) (reason : Text) :
    Embeds store (store.markDocumentsPending paths reason) :=
  embeds_foldl (fun store path => @embeds_modifyDocument _ store path (fun row =>
    {row with status := .pending,diagnostic := some (reason.take 200)}) fun _ => rfl) paths store

theorem embeds_repackDocument (dimension : Nat) (store : Store α) (path : Text) :
    Embeds store (store.repackDocument dimension path) :=
  embeds_modifyDocument store path fun _ => rfl

theorem mem_insertEmbedding {embeddings : List (Embedding α)} {new row : Embedding α}
    (found : row ∈ insertEmbedding embeddings new) :
    row ∈ embeddings ∨ row = new ∨ ∃ old ∈ embeddings, old.chunkId = new.chunkId ∧
      row = {new with documentId := old.documentId} := by
  induction embeddings with
  | nil => exact .inr (.inl (List.mem_singleton.mp found))
  | cons old rest ih =>
    rw [insertEmbedding] at found
    split at found
    · rename_i same
      rcases List.mem_cons.mp found with rfl | later
      · exact .inr (.inr ⟨old,List.mem_cons_self ..,same,rfl⟩)
      · exact .inl (List.mem_cons_of_mem _ later)
    · rcases List.mem_cons.mp found with rfl | later
      · exact .inl (List.mem_cons_self ..)
      · rcases ih later with kept | new | ⟨other,member,same,shape⟩
        · exact .inl (List.mem_cons_of_mem _ kept)
        · exact .inr (.inl new)
        · exact .inr (.inr ⟨other,List.mem_cons_of_mem _ member,same,shape⟩)

def VectorsOwned (chunks : List Chunk) (embeddings : List (Embedding α)) : Prop :=
  ∀ row ∈ embeddings, ∃ chunk ∈ chunks,
    chunk.chunkId = row.chunkId ∧ chunk.documentId = row.documentId

/-- A vector stored for a chunk that was found belongs to it. -/
theorem owned_storeVector {chunks found : List Chunk} {embeddings : List (Embedding α)}
    (owned : VectorsOwned chunks embeddings) (stored : ∀ chunk ∈ found, chunk ∈ chunks)
    (model version : Text) (dimension : Nat) (entry : Text × List α) :
    VectorsOwned chunks
      (Store.storeVector model version dimension found embeddings entry) := by
  intro row member
  unfold Store.storeVector at member
  split at member
  · exact owned row member
  · rename_i chunk here
    rcases mem_insertEmbedding member with kept | rfl | ⟨old,before,same,rfl⟩
    · exact owned row kept
    · exact ⟨chunk,stored chunk (List.mem_of_find?_eq_some here),rfl,rfl⟩
    · obtain ⟨owner,found,id,document⟩ := owned old before
      exact ⟨owner,found,id.trans same,document⟩

theorem owned_storeVectors {chunks found : List Chunk}
    (stored : ∀ chunk ∈ found, chunk ∈ chunks) (model version : Text) (dimension : Nat)
    (entries : List (Text × List α)) {embeddings : List (Embedding α)}
    (owned : VectorsOwned chunks embeddings) : VectorsOwned chunks
      (entries.foldl (Store.storeVector model version dimension found) embeddings) := by
  induction entries generalizing embeddings with
  | nil => exact owned
  | cons entry rest ih => exact ih (owned_storeVector owned stored model version dimension entry)

/-- Only the vectors are written. -/
theorem embeds_vectors (store : Store α) {embeddings : List (Embedding α)}
    (owned : VectorsOwned store.chunks store.embeddings → VectorsOwned store.chunks embeddings) :
    Embeds store {store with embeddings} :=
  ⟨rfl,fun _ => rfl,fun old => {embeddings := owned old.embeddings,fts := old.fts}⟩

theorem embeds_ensureEmbeddingColumn (store : Store α) (dimension : Nat) :
    Embeds store (store.ensureEmbeddingColumn dimension) := by
  unfold Store.ensureEmbeddingColumn
  split
  · exact Embeds.refl store
  · cases store.embeddingColumn with
    | none => exact ⟨rfl,fun _ => rfl,fun owned => {embeddings := owned.embeddings,fts := owned.fts}⟩
    | some previous =>
      refine ⟨rfl,fun path => ?_,fun owned =>
        {embeddings := (fun _ found => by cases found),fts := owned.fts}⟩
      rw [Store.documentContentHash,Store.documentContentHash,Store.document,Store.document]
      dsimp only
      rw [Dict.find_mapValues,Option.map_map]
      rfl

theorem embeds_upsertEmbeddings (store : Store α) (chunkIds : List Text) (batch : Batch α)
    (model version : Text) : Embeds store (store.upsertEmbeddings chunkIds batch model version) := by
  unfold Store.upsertEmbeddings
  split
  · exact Embeds.refl store
  · refine (embeds_ensureEmbeddingColumn store batch.dimension).trans ?_
    generalize store.ensureEmbeddingColumn batch.dimension = store
    dsimp only
    have found : ∀ chunk ∈ store.chunks.filter (fun row => row.chunkId ∈ chunkIds),
        chunk ∈ store.chunks := fun chunk member => (List.mem_filter.mp member).1
    refine (embeds_vectors store (owned_storeVectors found model version batch.dimension
      (chunkIds.zip batch.vectors))).trans ?_
    refine (embeds_foldl (fun store path => embeds_repackDocument batch.dimension store path)
      (((store.chunks.filter fun row => row.chunkId ∈ chunkIds).map Chunk.documentId).dedup)
      _).trans ?_
    split
    · exact Embeds.refl _
    · exact embeds_vectors _ fun owned row found => owned row (List.mem_filter.mp found).1

theorem embeds_embedWindow (settings : Settings) (embed : List Text → Except Text (Batch α))
    (store : Store α) (window : List Chunk) :
    Embeds store (embedWindow settings embed store window) := by
  unfold embedWindow
  split
  · exact embeds_markDocumentsPending _ _ _
  · split
    · exact Embeds.refl store
    · exact embeds_upsertEmbeddings _ _ _ _ _

theorem embeds_embedChunks (settings : Settings) (provider : Provider α) (store : Store α)
    (chunks : List Chunk) (reusable : Dict Text Text) :
    Embeds store (embedChunks settings provider store chunks reusable) := by
  unfold embedChunks
  split
  · exact Embeds.refl store
  · exact embeds_foldl (embeds_embedWindow settings _) _ store

end Embedding

section Owners

variable {α : Type} {store : Store α} {pieces : Text → List Piece} {document : Text}

theorem eq_of_chunkId {table : List Chunk} (distinct : (ids table).Nodup) {a b : Chunk}
    (first : a ∈ table) (second : b ∈ table) (same : a.chunkId = b.chunkId) : a = b :=
  List.inj_on_of_nodup_map distinct first second same

theorem mem_cascade {chunks : List Chunk} {embeddings : List (Embedding α)} {row : Embedding α}
    (found : row ∈ cascade chunks embeddings) :
    row ∈ embeddings ∧ ∃ chunk ∈ chunks, chunk.chunkId = row.chunkId := by
  obtain ⟨before,here⟩ := List.mem_filter.mp found
  exact ⟨before,mem_ids.mp (of_decide_eq_true here)⟩

theorem Owned.delete (owned : Owned store) (distinct : (ids store.chunks).Nodup)
    (document : Text) : Owned (store.deleteDocument document) := by
  refine {embeddings := fun row found => ?_,fts := fun row found => ?_}
  · obtain ⟨before,kept,member,id⟩ := mem_cascade found
    obtain ⟨chunk,stored,own,same⟩ := owned.embeddings row before
    obtain rfl := eq_of_chunkId distinct (List.mem_filter.mp member).1 stored (id.trans own.symm)
    exact ⟨kept,member,own,same⟩
  · obtain ⟨before,other⟩ := List.mem_filter.mp found
    obtain ⟨chunk,stored,id,same⟩ := owned.fts row before
    refine ⟨chunk,List.mem_filter.mpr ⟨stored,decide_eq_true ?_⟩,id,same⟩
    rw [same]
    exact of_decide_eq_true other

theorem Owned.upsert (owned : Owned store) (distinct : (ids store.chunks).Nodup)
    {new : List Piece} (some_ : chunkDocument document new ≠ [])
    (unclaimed : Unclaimed store.chunks document new) (sha256 hash : Text) (pruneFts : Bool) :
    Owned (store.upsertChunks document (chunkDocument document new) sha256 hash pruneFts) := by
  have perm := replaceChunks_perm distinct unclaimed
  rw [Store.upsertChunks,if_neg some_,chunkDocument_sorted]
  dsimp only
  have stays : ∀ chunk ∈ store.chunks, chunk.documentId ≠ document →
      chunk ∈ replaceChunks document (chunkDocument document new) store.chunks := by
    intro chunk found other
    exact perm.symm.subset (List.mem_append_right _
      (List.mem_filter.mpr ⟨found,decide_eq_true other⟩))
  have comes : ∀ chunk ∈ chunkDocument document new,
      chunk ∈ replaceChunks document (chunkDocument document new) store.chunks :=
    fun chunk found => perm.symm.subset (List.mem_append_left _ found)
  have mirrored : ∀ row ∈ store.fts.filter (fun row => row.documentId ≠ document) ++
      (chunkDocument document new).map ftsRow,
      ∃ chunk ∈ replaceChunks document (chunkDocument document new) store.chunks,
        chunk.chunkId = row.chunkId ∧ chunk.documentId = row.documentId := by
    intro row found
    rcases List.mem_append.mp found with before | added
    · obtain ⟨member,other⟩ := List.mem_filter.mp before
      obtain ⟨chunk,stored,id,same⟩ := owned.fts row member
      refine ⟨chunk,stays chunk stored ?_,id,same⟩
      rw [same]
      exact of_decide_eq_true other
    · obtain ⟨chunk,member,rfl⟩ := List.mem_map.mp added
      exact ⟨chunk,comes chunk member,rfl,rfl⟩
  refine {embeddings := fun row found => ?_,fts := fun row found => ?_}
  · obtain ⟨before,kept,member,id⟩ := mem_cascade found
    obtain ⟨stored,stay⟩ := List.mem_filter.mp member
    obtain ⟨chunk,table,own,same⟩ := owned.embeddings row before
    obtain rfl := eq_of_chunkId distinct stored table (id.trans own.symm)
    by_cases here : kept.documentId = document
    · have listed : kept.chunkId ∈ ids (chunkDocument document new) := by
        by_contra gone
        exact of_decide_eq_true stay ⟨here,gone⟩
      obtain ⟨fresh,added,equal⟩ := mem_ids.mp listed
      exact ⟨fresh,comes fresh added,equal.trans own,
        (document_chunksFrom added).1.trans (here.symm.trans same)⟩
    · exact ⟨kept,stays kept table here,own,same⟩
  · split at found
    · exact mirrored row (List.mem_filter.mp found).1
    · exact mirrored row found

theorem Owned.rename (owned : Owned store) {oldPath newPath : Text} {moved : Store α} {done : Bool}
    (renamed : store.renameDocument oldPath newPath = .ok (done,moved)) : Owned moved := by
  unfold Store.renameDocument at renamed
  split at renamed
  · obtain ⟨-,rfl⟩ := Prod.mk.inj (Except.ok.inj renamed)
    exact owned
  · split at renamed
    · obtain ⟨-,rfl⟩ := Prod.mk.inj (Except.ok.inj renamed)
      exact owned
    · split at renamed
      · cases renamed
      · obtain ⟨-,rfl⟩ := Prod.mk.inj (Except.ok.inj renamed)
        have follow : ∀ (chunk : Chunk), (repoint oldPath newPath chunk).chunkId = chunk.chunkId ∧
            (repoint oldPath newPath chunk).documentId =
              if chunk.documentId = oldPath then newPath else chunk.documentId := by
          intro chunk
          exact ⟨by unfold repoint; split <;> rfl,repoint_documentId chunk⟩
        refine {embeddings := fun row found => ?_,fts := fun row found => ?_}
        · obtain ⟨before,member,rfl⟩ := List.mem_map.mp found
          obtain ⟨chunk,stored,id,same⟩ := owned.embeddings before member
          refine ⟨repoint oldPath newPath chunk,List.mem_map_of_mem stored,?_,?_⟩
          · rw [(follow chunk).1,id]
            split <;> rfl
          · rw [(follow chunk).2,same]
            split <;> rfl
        · obtain ⟨before,member,rfl⟩ := List.mem_map.mp found
          obtain ⟨chunk,stored,id,same⟩ := owned.fts before member
          refine ⟨repoint oldPath newPath chunk,List.mem_map_of_mem stored,?_,?_⟩
          · rw [(follow chunk).1,id]
            split <;> rfl
          · rw [(follow chunk).2,same]
            split <;> rfl

end Owners

section Known

variable {α : Type} {settings : Settings} {texts : Text → Prop} {store store' : Store α}
  {pieces : Text → List Piece}

/-- The store tracks these pieces, and every stored hash is that of a text with the pieces of
its document. -/
structure Known (settings : Settings) (texts : Text → Prop) (store : Store α)
    (pieces : Text → List Piece) : Prop where
  tracks : DocumentStep.Tracks store pieces
  owned : Owned store
  hashes : ∀ path hash, store.documentContentHash path = some hash →
    ∃ text, texts text ∧ contentHash text = hash ∧ pieces path = settings.segment text

theorem isSome_document (store : Store α) (path : Text) :
    (store.document path).isSome = (store.documentContentHash path).isSome := by
  rw [Store.documentContentHash,Option.isSome_map]

theorem Known.embeds (known : Known settings texts store pieces) (embeds : Embeds store store') :
    Known settings texts store' pieces := by
  refine ⟨⟨embeds.chunks ▸ known.tracks.faithful,fun path => ?_⟩,embeds.owned known.owned,
    fun path hash stored => known.hashes path hash (embeds.hashes path ▸ stored)⟩
  rw [isSome_document,embeds.hashes,← isSome_document]
  exact known.tracks.stored path

theorem Known.pieces_of_absent (known : Known settings texts store pieces) {path : Text}
    (absent : store.document path = none) : pieces path = [] := by
  by_contra some_
  have found := (known.tracks.stored path).mpr some_
  rw [absent] at found
  cases found

theorem Known.delete (known : Known settings texts store pieces) (path : Text) :
    Known settings texts (store.deleteDocument path) (Function.update pieces path []) := by
  refine ⟨@DocumentStep.tracks_apply _ _ _ (.delete path) known.tracks trivial,
    known.owned.delete known.tracks.faithful.ids path,fun other hash stored => ?_⟩
  rw [Store.documentContentHash,Store.document,Store.deleteDocument] at stored
  dsimp only at stored
  rw [Dict.find_pop] at stored
  split at stored
  · cases stored
  · rename_i apart
    rw [Function.update_of_ne apart]
    exact known.hashes other hash stored

theorem Known.upsert (known : Known settings texts store pieces) {path text : Text}
    (seen : texts text) (some_ : chunkDocument path (settings.segment text) ≠ [])
    (unclaimed : Unclaimed store.chunks path (settings.segment text)) (sha256 : Text)
    (pruneFts : Bool) :
    Known settings texts (store.upsertChunks path (chunkDocument path (settings.segment text))
      sha256 (contentHash text) pruneFts)
      (Function.update pieces path (settings.segment text)) := by
  have nonempty : settings.segment text ≠ [] := by
    intro empty
    simp [empty,chunkDocument,chunksFrom] at some_
  have tracks := @DocumentStep.tracks_apply _ _ _
    (.upsert path (settings.segment text) sha256 (contentHash text) pruneFts)
    known.tracks unclaimed
  rw [DocumentStep.expected,if_neg nonempty] at tracks
  refine ⟨tracks,known.owned.upsert known.tracks.faithful.ids some_ unclaimed _ _ _,
    fun other hash stored => ?_⟩
  rw [Store.documentContentHash,Store.document,Store.upsertChunks,if_neg some_] at stored
  dsimp only at stored
  rw [Dict.find_set] at stored
  split at stored
  · rename_i same
    subst same
    rw [Function.update_self]
    refine ⟨text,seen,?_,rfl⟩
    rw [Option.map_some] at stored
    unfold Store.upsertedRow at stored
    split at stored <;> exact Option.some.inj stored
  · rename_i apart
    rw [Function.update_of_ne apart]
    exact known.hashes other hash stored

theorem Known.rename (known : Known settings texts store pieces) {oldPath newPath : Text}
    (apart : oldPath ≠ newPath) (stored : (store.document oldPath).isSome)
    (free : store.document newPath = none) :
    ∃ moved, store.renameDocument oldPath newPath = .ok (true,moved) ∧
      Known settings texts moved (movedPieces pieces oldPath newPath) := by
  have some_ : pieces oldPath ≠ [] := (known.tracks.stored oldPath).mp stored
  have vacant : pieces newPath = [] := known.pieces_of_absent free
  have present : ¬ (store.document oldPath).isNone := by
    simpa [Option.isNone_iff_eq_none,Option.ne_none_iff_isSome] using stored
  have tracks := @DocumentStep.tracks_apply _ _ _ (.rename oldPath newPath) known.tracks trivial
  have done : ∃ moved, store.renameDocument oldPath newPath = .ok (true,moved) ∧
      moved.documents = store.documents.rekey oldPath newPath := by
    rw [Store.renameDocument,if_neg apart,if_neg present,if_neg (by simp [free])]
    exact ⟨_,rfl,rfl⟩
  obtain ⟨moved,renamed,documents⟩ := done
  rw [DocumentStep.apply,renamed,DocumentStep.expected,if_neg (by simp [apart,some_,vacant])]
    at tracks
  refine ⟨moved,renamed,tracks,known.owned.rename renamed,fun other hash found => ?_⟩
  rw [Store.documentContentHash,Store.document,documents,Dict.find_rekey _ _ free] at found
  rw [movedPieces,Function.update_apply,Function.update_apply]
  by_cases arrived : other = newPath
  · rw [if_pos arrived] at found
    rw [if_neg (arrived ▸ Ne.symm apart),if_pos arrived]
    exact known.hashes oldPath hash found
  · rw [if_neg arrived] at found
    by_cases gone : other = oldPath
    · rw [if_pos gone] at found
      cases found
    · rw [if_neg gone] at found
      rw [if_neg gone,if_neg arrived]
      exact known.hashes other hash found

end Known

section Service

variable {α : Type} [Host] {settings : Settings} {texts : Text → Prop} {store : Store α}
  {pieces : Text → List Piece} {files : Files} {provider : Provider α} {path : Text}

omit [Host] in
def contents (settings : Settings) (files : Files) (path : Text) : List Piece :=
  match (files path).bind decodeUtf8 with
  | some text => settings.segment text
  | none => []

/-- What the index should hold of a path. -/
def target (settings : Settings) (files : Files) (path : Text) : List Piece :=
  if isMarkdown path then contents settings files path else []

/-- Texts the run meets with one hash are segmented alike. -/
def CollisionFree (settings : Settings) (texts : Text → Prop) : Prop :=
  ∀ a b, texts a → texts b → contentHash a = contentHash b → settings.segment a = settings.segment b

/-- Bytes that may be indexed at a path: a stored note does not become undecodable, and the
ids of new chunks are unclaimed. -/
def Indexable (settings : Settings) (store : Store α) (path : Text) (data : Bytes) : Prop :=
  match decodeUtf8 data with
  | none => store.document path = none
  | some text => store.documentContentHash path = some (contentHash text) ∨
      Unclaimed store.chunks path (settings.segment text)

def SyncConforms (settings : Settings) (files : Files) (store : Store α) (path : Text) : Prop :=
  ∀ data, files path = some data → Indexable settings store path data

def Texts (texts : Text → Prop) (files : Files) : Prop :=
  ∀ path data text, files path = some data → decodeUtf8 data = some text → texts text

omit [Host] in
theorem chunkDocument_eq_nil {path : Text} {group : List Piece} :
    chunkDocument path group = [] ↔ group = [] := by
  cases group <;> simp [chunkDocument,chunksFrom]

omit [Host] in
theorem known_syncPath (known : Known settings texts store pieces) (met : Texts texts files)
    (free : CollisionFree settings texts) (conforms : SyncConforms settings files store path) :
    Known settings texts (syncPath settings provider files store path)
      (Function.update pieces path (contents settings files path)) := by
  unfold syncPath contents
  cases read : files path with
  | none =>
    dsimp only [Option.bind_none]
    split
    · rename_i absent
      have none_ := known.pieces_of_absent (Option.isNone_iff_eq_none.mp absent)
      rw [← none_,Function.update_eq_self]
      exact known
    · exact known.delete path
  | some data =>
    have indexable := conforms data read
    unfold Indexable at indexable
    dsimp only [Option.bind_some]
    cases decoded : decodeUtf8 data with
    | none =>
      rw [decoded] at indexable
      dsimp only at indexable ⊢
      have none_ := known.pieces_of_absent indexable
      rw [← none_,Function.update_eq_self]
      exact known.embeds (embeds_markDocumentFailed _ _ _)
    | some text =>
      rw [decoded] at indexable
      dsimp only at indexable ⊢
      have seen := met path data text read decoded
      split
      · rename_i same
        obtain ⟨old,before,equal,held⟩ := known.hashes path _ same
        have unchanged : pieces path = settings.segment text :=
          held.trans (free old text before seen equal)
        rw [← unchanged,Function.update_eq_self]
        exact known.embeds (embeds_embedChunks _ _ _ _ _)
      · rename_i changed
        have unclaimed := indexable.resolve_left changed
        split
        · rename_i empty
          rw [chunkDocument_eq_nil.mp empty]
          exact known.delete path
        · rename_i some_
          exact (known.upsert seen some_ unclaimed _ _).embeds (embeds_embedChunks _ _ _ _ _)

omit [Host] in
theorem known_reindexDocument {data : Bytes} (known : Known settings texts store pieces)
    (met : Texts texts files) (read : files path = some data)
    (conforms : match decodeUtf8 data with
      | none => store.document path = none
      | some text => Unclaimed store.chunks path (settings.segment text)) :
    Known settings texts (reindexDocument settings provider files store path true true)
      (Function.update pieces path (contents settings files path)) := by
  unfold reindexDocument contents
  rw [read]
  dsimp only [Option.bind_some]
  cases decoded : decodeUtf8 data with
  | none =>
    rw [decoded] at conforms
    dsimp only at conforms ⊢
    have none_ := known.pieces_of_absent conforms
    rw [← none_,Function.update_eq_self]
    exact known.embeds (embeds_markDocumentFailed _ _ _)
  | some text =>
    rw [decoded] at conforms
    dsimp only at conforms ⊢
    split
    · rename_i empty
      rw [chunkDocument_eq_nil.mp empty]
      exact known.delete path
    · rename_i some_
      rw [if_pos rfl]
      exact (known.upsert (met path data text read decoded) some_ conforms _ _).embeds
        (embeds_embedChunks _ _ _ _ _)

/-- A moved file may be indexed anew: nothing is stored at its new path when it is
undecodable, and its chunk ids are unclaimed otherwise. -/
def ReindexConforms (settings : Settings) (files : Files) (store : Store α) (path : Text) : Prop :=
  ∃ data, files path = some data ∧ match decodeUtf8 data with
    | none => store.document path = none
    | some text => Unclaimed store.chunks path (settings.segment text)

def Unchanged (files : Files) (store : Store α) (oldPath newPath : Text) : Prop :=
  ∃ data text, files newPath = some data ∧ decodeUtf8 data = some text ∧
    store.documentContentHash oldPath = some (contentHash text)

def MoveConforms (settings : Settings) (files : Files) (store : Store α) (oldPath newPath : Text) :
    Prop :=
  isMarkdown newPath = true →
    (isMarkdown oldPath = true → Unchanged files store oldPath newPath →
      store.document newPath = none) ∧
    (¬ (isMarkdown oldPath = true ∧ Unchanged files store oldPath newPath) →
      ReindexConforms settings files (store.deleteDocument oldPath) newPath)

def afterMove (settings : Settings) (files : Files) (pieces : Text → List Piece)
    (oldPath newPath : Text) : Text → List Piece :=
  Function.update (Function.update pieces oldPath []) newPath
    (if isMarkdown newPath then contents settings files newPath else pieces newPath)

theorem known_reindexMoved {oldPath newPath : Text} (known : Known settings texts store pieces)
    (met : Texts texts files) (apart : oldPath ≠ newPath) (named : newPath ≠ [])
    (conforms : isMarkdown newPath = true →
      ReindexConforms settings files (store.deleteDocument oldPath) newPath) :
    Known settings texts (reindexMoved settings provider files store oldPath newPath)
      (afterMove settings files pieces oldPath newPath) := by
  unfold reindexMoved afterMove
  by_cases markdown : isMarkdown newPath = true
  · obtain ⟨data,read,indexable⟩ := conforms markdown
    simp only [markdown,named,ne_eq,not_false_eq_true,decide_true,Bool.and_true,if_true]
    exact known_reindexDocument (known.delete oldPath) met read indexable
  · simp only [markdown,Bool.and_false,Bool.false_eq_true,if_false]
    have same : Function.update (Function.update pieces oldPath []) newPath (pieces newPath) =
        Function.update pieces oldPath [] := by
      refine Function.update_eq_iff.mpr ⟨?_,fun _ _ => rfl⟩
      rw [Function.update_of_ne (Ne.symm apart)]
    rw [same]
    exact known.delete oldPath

theorem known_moveDocument {oldPath newPath : Text} (known : Known settings texts store pieces)
    (met : Texts texts files) (free : CollisionFree settings texts) (apart : oldPath ≠ newPath)
    (named : newPath ≠ []) (there : files newPath ≠ none)
    (conforms : MoveConforms settings files store oldPath newPath) :
    Known settings texts (moveDocument settings provider files store oldPath newPath)
      (afterMove settings files pieces oldPath newPath) := by
  have anew : ¬ (isMarkdown oldPath = true ∧ Unchanged files store oldPath newPath) →
      Known settings texts (reindexMoved settings provider files store oldPath newPath)
        (afterMove settings files pieces oldPath newPath) := fun changed =>
    known_reindexMoved known met apart named fun markdown => (conforms markdown).2 changed
  unfold moveDocument
  by_cases both : (isMarkdown oldPath && isMarkdown newPath) = true
  · obtain ⟨oldMarkdown,newMarkdown⟩ := Bool.and_eq_true_iff.mp both
    rw [if_pos both]
    cases stored : store.documentContentHash oldPath with
    | none =>
      refine anew fun unchanged => ?_
      obtain ⟨_,_,-,-,recorded⟩ := unchanged.2
      rw [stored] at recorded
      cases recorded
    | some storedHash =>
      dsimp only
      cases read : files newPath with
      | none => exact absurd read there
      | some data =>
        dsimp only
        cases decoded : decodeUtf8 data with
        | none =>
          dsimp only
          have reindex := anew fun unchanged => by
            obtain ⟨other,text,again,decodes,-⟩ := unchanged.2
            rw [read] at again
            obtain rfl := Option.some.inj again
            rw [decoded] at decodes
            cases decodes
          simpa [reindexMoved,newMarkdown,named,reindexDocument,read,decoded] using reindex
        | some text =>
          dsimp only
          by_cases same : contentHash text = storedHash
          · rw [if_pos same]
            have unchanged : Unchanged files store oldPath newPath :=
              ⟨data,text,read,decoded,stored.trans (congrArg some same.symm)⟩
            have vacant := (conforms newMarkdown).1 oldMarkdown unchanged
            have present : (store.document oldPath).isSome := by
              rw [isSome_document,stored]
              rfl
            obtain ⟨moved,renamed,later⟩ := known.rename apart present vacant
            rw [renamed]
            dsimp only
            obtain ⟨old,before,equal,held⟩ := known.hashes oldPath _ stored
            have kept : pieces oldPath = contents settings files newPath := by
              rw [contents,read,Option.bind_some,decoded]
              exact held.trans (free old text before (met newPath data text read decoded)
                (equal.trans same.symm))
            have result : movedPieces pieces oldPath newPath =
                afterMove settings files pieces oldPath newPath := by
              rw [movedPieces,afterMove,if_pos newMarkdown,← kept,
                Function.update_comm (Ne.symm apart)]
            rw [← result]
            exact later.embeds (embeds_modifyDocument _ _ fun _ => rfl)
          · rw [if_neg same]
            refine anew fun unchanged => same ?_
            obtain ⟨other,otherText,again,decodes,recorded⟩ := unchanged.2
            rw [read] at again
            obtain rfl := Option.some.inj again
            rw [decoded] at decodes
            obtain rfl := Option.some.inj decodes
            rw [stored] at recorded
            exact (Option.some.inj recorded).symm
  · rw [if_neg both]
    refine known_reindexMoved known met apart named fun markdown => ?_
    refine (conforms markdown).2 fun unchanged => both ?_
    simp [unchanged.1,markdown]

def FlushConforms (settings : Settings) (provider : Provider α) (files : Files) :
    List Text → Store α → Prop
  | [],_ => True
  | path :: rest,store => SyncConforms settings files store path ∧
      FlushConforms settings provider files rest (syncPath settings provider files store path)

omit [Host] in
theorem known_flush {paths : List Text} (known : Known settings texts store pieces)
    (met : Texts texts files) (free : CollisionFree settings texts)
    (conforms : FlushConforms settings provider files paths store) :
    ∃ pieces', Known settings texts (paths.foldl (syncPath settings provider files) store) pieces' ∧
      (∀ path ∈ paths, pieces' path = contents settings files path) ∧
      ∀ path, path ∉ paths → pieces' path = pieces path := by
  induction paths generalizing store pieces with
  | nil => exact ⟨pieces,known,by simp,fun _ _ => rfl⟩
  | cons path rest ih =>
    obtain ⟨pieces',later,done,others⟩ :=
      ih (known_syncPath known met free conforms.1) conforms.2
    refine ⟨pieces',later,fun other found => ?_,fun other missing => ?_⟩
    · by_cases again : other ∈ rest
      · exact done other again
      · obtain rfl := (List.mem_cons.mp found).resolve_right again
        rw [others other again,Function.update_self]
    · obtain ⟨apart,absent⟩ := not_or.mp (mt List.mem_cons.mpr missing)
      rw [others other absent,Function.update_of_ne apart]

end Service

structure NoteWorld (α : Type) where
  files : Files := fun _ => none
  service : IndexService α := {}

/-- A change of a file, whose event the service handles, or a flush. The provider answers
what is embedded on the way. -/
inductive FileStep (α : Type) where
  | write (path : Text) (data : Bytes)
  | remove (path : Text)
  | rename (oldPath newPath : Text) (provider : Provider α)
  | flush (provider : Provider α)

namespace FileStep

variable {α : Type} [Host] {settings : Settings} {texts : Text → Prop} {w : NoteWorld α}

/-- The files after a rename. -/
def moved (files : Files) (oldPath newPath : Text) : Files :=
  Function.update (Function.update files newPath (files oldPath)) oldPath none

def Renames (files : Files) (oldPath newPath : Text) : Prop :=
  oldPath ≠ newPath ∧ oldPath ≠ [] ∧ newPath ≠ [] ∧ files oldPath ≠ none

instance (files : Files) (oldPath newPath : Text) : Decidable (Renames files oldPath newPath) :=
  inferInstanceAs (Decidable (_ ∧ _ ∧ _ ∧ ¬ _))

def change (settings : Settings) (w : NoteWorld α) (path : Text) (data : Option Bytes) :
    NoteWorld α where
  files := Function.update w.files path data
  service := handleEvent settings none (Function.update w.files path data) w.service
    (.changed path)

def step (settings : Settings) (w : NoteWorld α) : FileStep α → NoteWorld α
  | .write path data => change settings w path (some data)
  | .remove path => change settings w path none
  | .rename oldPath newPath provider =>
    if Renames w.files oldPath newPath then
      let files := moved w.files oldPath newPath
      {files,service := handleEvent settings provider files w.service (.moved oldPath newPath)}
    else w
  | .flush provider => {w with service := Rag.flush settings provider w.files w.service}

def run (settings : Settings) (steps : List (FileStep α)) (w : NoteWorld α) : NoteWorld α :=
  steps.foldl (step settings) w

def Conforms (settings : Settings) (texts : Text → Prop) (w : NoteWorld α) : FileStep α → Prop
  | .write _ data => ∀ text, decodeUtf8 data = some text → texts text
  | .remove _ => True
  | .rename oldPath newPath _ => Renames w.files oldPath newPath →
      MoveConforms settings (moved w.files oldPath newPath) w.service.store oldPath newPath
  | .flush provider => FlushConforms settings provider w.files
      (w.service.pendingPaths.insertionSort fun a b => a ≤ b) w.service.store

def Conforming (settings : Settings) (texts : Text → Prop) :
    List (FileStep α) → NoteWorld α → Prop
  | [],_ => True
  | s :: rest,w => Conforms settings texts w s ∧ Conforming settings texts rest (step settings w s)

structure Synced (settings : Settings) (texts : Text → Prop) (w : NoteWorld α)
    (pieces : Text → List Piece) : Prop where
  known : Known settings texts w.service.store pieces
  met : Texts texts w.files
  markdown : ∀ path ∈ w.service.pendingPaths, isMarkdown path = true
  current : ∀ path, path ∉ w.service.pendingPaths → pieces path = target settings w.files path

theorem target_of_eq {files files' : Files} {path : Text} (same : files' path = files path) :
    target settings files' path = target settings files path := by
  unfold target contents
  rw [same]

theorem target_of_not_markdown {files : Files} {path : Text} (other : ¬ isMarkdown path = true) :
    target settings files path = [] := if_neg other

theorem synced_changed {pieces : Text → List Piece} (synced : Synced settings texts w pieces)
    (path : Text) (data : Option Bytes)
    (met : ∀ bytes text, data = some bytes → decodeUtf8 bytes = some text → texts text) :
    Synced settings texts (change settings w path data) pieces := by
  have texts' : Texts texts (Function.update w.files path data) := by
    intro other bytes text read decoded
    rw [Function.update_apply] at read
    split at read
    · exact met bytes text read decoded
    · exact synced.met other bytes text read decoded
  unfold change handleEvent
  dsimp only
  split
  · rename_i markdown
    refine ⟨synced.known,texts',fun other found => ?_,fun other missing => ?_⟩
    · rcases List.mem_cons.mp found with rfl | before
      · exact markdown
      · exact synced.markdown other (List.mem_of_mem_erase before)
    · obtain ⟨apart,absent⟩ := not_or.mp (mt List.mem_cons.mpr missing)
      have before : other ∉ w.service.pendingPaths := fun found =>
        absent ((List.mem_erase_of_ne apart).mpr found)
      rw [synced.current other before]
      exact (target_of_eq (Function.update_of_ne apart _ _)).symm
  · rename_i plain
    refine ⟨synced.known,texts',synced.markdown,fun other missing => ?_⟩
    rw [synced.current other missing]
    by_cases same : other = path
    · rw [same,target_of_not_markdown plain,target_of_not_markdown plain]
    · exact (target_of_eq (Function.update_of_ne same _ _)).symm

theorem synced_step {pieces : Text → List Piece} (synced : Synced settings texts w pieces)
    (free : CollisionFree settings texts) {s : FileStep α}
    (conforms : Conforms settings texts w s) :
    ∃ pieces', Synced settings texts (step settings w s) pieces' := by
  cases s with
  | write path data =>
    refine ⟨pieces,synced_changed synced path (some data) fun bytes text same decoded => ?_⟩
    obtain rfl := Option.some.inj same
    exact conforms text decoded
  | remove path =>
    exact ⟨pieces,synced_changed synced path none fun _ _ same => by cases same⟩
  | rename oldPath newPath provider =>
    rw [step]
    split
    · rename_i renames
      obtain ⟨apart,oldNamed,newNamed,there⟩ := renames
      have atNew : moved w.files oldPath newPath newPath = w.files oldPath := by
        rw [moved,Function.update_of_ne (Ne.symm apart),Function.update_self]
      have atOld : moved w.files oldPath newPath oldPath = none := Function.update_self ..
      have elsewhere : ∀ path, path ≠ oldPath → path ≠ newPath →
          moved w.files oldPath newPath path = w.files path := by
        intro path old new
        rw [moved,Function.update_of_ne old,Function.update_of_ne new]
      have texts' : Texts texts (moved w.files oldPath newPath) := by
        intro path bytes text read decoded
        by_cases old : path = oldPath
        · rw [old,atOld] at read
          cases read
        · by_cases new : path = newPath
          · rw [new,atNew] at read
            exact synced.met oldPath bytes text read decoded
          · rw [elsewhere path old new] at read
            exact synced.met path bytes text read decoded
      refine ⟨afterMove settings (moved w.files oldPath newPath) pieces oldPath newPath,?_⟩
      unfold handleEvent
      dsimp only
      rw [if_neg oldNamed]
      refine ⟨known_moveDocument synced.known texts' free apart newNamed (atNew ▸ there)
        (conforms ⟨apart,oldNamed,newNamed,there⟩),texts',fun path found =>
          synced.markdown path (List.mem_of_mem_erase found),fun path missing => ?_⟩
      rw [afterMove,Function.update_apply]
      split
      · rename_i new
        subst new
        by_cases markdown : isMarkdown path = true
        · rw [if_pos markdown,target,if_pos markdown]
        · have waits : path ∉ w.service.pendingPaths := fun found =>
            markdown (synced.markdown path found)
          rw [if_neg markdown,synced.current path waits,target_of_not_markdown markdown,
            target_of_not_markdown markdown]
      · rename_i new
        by_cases old : path = oldPath
        · have none_ : target settings (moved w.files oldPath newPath) oldPath = [] := by
            rw [target,contents,atOld]
            split <;> rfl
          rw [old,Function.update_self]
          exact none_.symm
        · have before : path ∉ w.service.pendingPaths := fun found =>
            missing ((List.mem_erase_of_ne old).mpr found)
          rw [Function.update_of_ne old,synced.current path before]
          exact (target_of_eq (elsewhere path old new)).symm
    · exact ⟨pieces,synced⟩
  | flush provider =>
    obtain ⟨pieces',known,done,others⟩ := known_flush synced.known synced.met free conforms
    refine ⟨pieces',known,synced.met,by simp [step,Rag.flush],fun path _ => ?_⟩
    by_cases waited : path ∈ w.service.pendingPaths
    · rw [done path ((List.mem_insertionSort _).mpr waited),target,
        if_pos (synced.markdown path waited)]
      rfl
    · rw [others path fun found => waited ((List.mem_insertionSort _).mp found)]
      exact synced.current path waited

theorem synced_run {steps : List (FileStep α)} {pieces : Text → List Piece}
    (synced : Synced settings texts w pieces) (free : CollisionFree settings texts)
    (conforming : Conforming settings texts steps w) :
    ∃ pieces', Synced settings texts (run settings steps w) pieces' := by
  induction steps generalizing w pieces with
  | nil => exact ⟨pieces,synced⟩
  | cons s rest ih =>
    obtain ⟨pieces',next⟩ := synced_step synced free conforming.1
    exact ih next conforming.2

/-- The rows of a path are the chunks of its current bytes; a path without any has no row,
no full-text row and no vector. -/
structure Indexed (settings : Settings) (w : NoteWorld α) (path : Text) : Prop where
  chunks : Holds w.service.store.chunks path (target settings w.files path)
  absent : target settings w.files path = [] →
    (∀ row ∈ w.service.store.chunks, row.documentId ≠ path) ∧
    (∀ row ∈ w.service.store.fts, row.documentId ≠ path) ∧
    ∀ row ∈ w.service.store.embeddings, row.documentId ≠ path

omit [Host] in
/-- Nothing is known of an empty store. -/
theorem known_empty {store : Store α} (documents : store.documents = []) (chunks : store.chunks = [])
    (embeddings : store.embeddings = []) (fts : store.fts = []) :
    Known settings texts store fun _ => [] := by
  refine ⟨⟨⟨?_,fun path => ?_⟩,fun path => ?_⟩,⟨?_,?_⟩,fun path hash stored => ?_⟩
  · rw [chunks]
    exact List.nodup_nil
  · rw [chunks]
    rfl
  · simp [Store.document,documents]
  · simp [embeddings]
  · simp [fts]
  · simp [Store.documentContentHash,Store.document,documents] at stored

/-- A path that does not wait for a flush is indexed as its file stands. -/
theorem indexed_of_synced {pieces : Text → List Piece} (synced : Synced settings texts w pieces)
    {path : Text} (flushed : path ∉ w.service.pendingPaths) : Indexed settings w path := by
  have current := synced.current path flushed
  have holds := synced.known.tracks.faithful.holds path
  rw [current] at holds
  refine ⟨holds,fun empty => ?_⟩
  rw [empty] at holds
  have none_ : ∀ row ∈ w.service.store.chunks,row.documentId ≠ path := by
    intro row found same
    have nil := List.map_eq_nil_iff.mp (List.Perm.eq_nil holds.perm)
    have member : row ∈ w.service.store.chunks.filter (fun row => row.documentId = path) :=
      List.mem_filter.mpr ⟨found,decide_eq_true same⟩
    rw [nil] at member
    cases member
  refine ⟨none_,fun row found same => ?_,fun row found same => ?_⟩
  · obtain ⟨chunk,member,-,owner⟩ := synced.known.owned.fts row found
    exact none_ chunk member (owner.trans same)
  · obtain ⟨chunk,member,-,owner⟩ := synced.known.owned.embeddings row found
    exact none_ chunk member (owner.trans same)

end FileStep

section Runs

open scoped AsciiHost

def wholeText (text : Text) : List Piece := if text = [] then [] else [{content := text}]

def wholeTexts : Settings where
  segment := wholeText
  model := []
  version := []
  batchSize := 1

def greeting : Text := "Hi".toList

def writtenNote : List (FileStep Nat) := [.write "a.md".toList (encodeUtf8 greeting)] ++ [.flush none]

def undecodableNote : List (FileStep Nat) :=
  writtenNote ++ [.write "a.md".toList ⟨#[255]⟩,.flush none]

theorem decodeUtf8_greeting : decodeUtf8 (encodeUtf8 greeting) = some greeting := by
  decide +kernel

theorem writtenNote_conforming :
    FileStep.Conforming wholeTexts (fun text => text = greeting) writtenNote {} := by
  refine ⟨fun text decoded => ?_,?_,trivial⟩
  · exact Option.some.inj (decoded.symm.trans decodeUtf8_greeting)
  · have waiting : (FileStep.step wholeTexts ({} : NoteWorld Nat)
        (.write "a.md".toList (encodeUtf8 greeting))).service.pendingPaths
        = ["a.md".toList] := by decide +kernel
    rw [FileStep.Conforms,waiting]
    refine ⟨fun data read => ?_,trivial⟩
    obtain rfl : encodeUtf8 greeting = data := by
      simpa [FileStep.step,FileStep.change] using read
    rw [Indexable,decodeUtf8_greeting]
    exact .inr ⟨by decide +kernel,fun row found => nomatch found⟩

end Runs

end LocalBook.Rag
