import LocalBook.Rag.Chunks

/-! The SQLite vector store: chunk rows, their full-text mirror, one vector for a chunk and
one packed run of vectors for a document. Scalars are exact. -/
namespace LocalBook.Rag

/-- A row of `rag_chunks_fts`. -/
structure FtsRow where
  chunkId : Text
  documentId : Text
  path : Text
  heading : Text
  tags : List Text
  content : Text
deriving Repr,DecidableEq

/-- A row of `rag_embeddings`. -/
structure Embedding (α : Type) where
  chunkId : Text
  documentId : Text
  contentHash : Text
  model : Text
  version : Text
  dimension : Nat
  vector : List α
deriving Repr,DecidableEq

inductive DocumentStatus where
  | ready
  | pending
  | failed
deriving Repr,DecidableEq

/-- A row of `rag_documents`. There is one column of packed vectors for each dimension. -/
structure Document (α : Type) where
  documentId : Text
  sha256 : Text
  contentHash : Text
  chunkCount : Nat
  embeddedCount : Nat := 0
  status : DocumentStatus := .ready
  diagnostic : Option Text := none
  vectors : Nat → Option (List α) := fun _ => none

/-- The tables, and what the instance keeps of them: the columns there are, the one in use,
and the chunk ids of documents it searched. -/
structure Store (α : Type) where
  documents : Dict Text (Document α) := []
  chunks : List Chunk := []
  embeddings : List (Embedding α) := []
  fts : List FtsRow := []
  columns : List Nat := []
  embeddingColumn : Option Nat := none
  idCache : Dict Text (List Text) := []

section Store

variable {α : Type}

def ftsRow (chunk : Chunk) : FtsRow where
  chunkId := chunk.chunkId
  documentId := chunk.documentId
  path := chunk.path
  heading := Text.join [' '] ([chunk.piece.headingPath,chunk.piece.sectionPath].filterMap fun part =>
    part.filter fun text => text ≠ [])
  tags := chunk.piece.tags
  content := chunk.piece.content

def cascade (chunks : List Chunk) (embeddings : List (Embedding α)) : List (Embedding α) :=
  embeddings.filter fun row => row.chunkId ∈ ids chunks

/-- `UPDATE rag_chunks SET document_id = ?, path = ? WHERE document_id = ?`. -/
def repoint (oldPath newPath : Text) (chunk : Chunk) : Chunk :=
  if chunk.documentId = oldPath then {chunk with documentId := newPath,path := newPath}
  else chunk

namespace Store

def document (store : Store α) (path : Text) : Option (Document α) := store.documents.find path

def documentContentHash (store : Store α) (path : Text) : Option Text :=
  (store.document path).map Document.contentHash

/-- `UPDATE rag_documents SET … WHERE path = ?`. -/
def modifyDocument (store : Store α) (path : Text) (change : Document α → Document α) : Store α :=
  {store with documents := store.documents.modify path change}

def upsertedRow (old : Option (Document α)) (document sha256 contentHash : Text) (count : Nat) :
    Document α :=
  match old with
  | some row => {row with sha256,contentHash,chunkCount := count,status := .ready,
                          diagnostic := none}
  | none => {documentId := document,sha256,contentHash,chunkCount := count}

/-- `upsert_chunks` of the chunks of one document, the only way it is called. -/
def upsertChunks (store : Store α) (document : Text) (chunks : List Chunk)
    (sha256 contentHash : Text) (pruneFts : Bool) : Store α :=
  if chunks = [] then store
  else
    let ordered := chunks.insertionSort Chunk.precedes
    let kept := store.chunks.filter fun row =>
      ¬ (row.documentId = document ∧ row.chunkId ∉ ids ordered)
    let table := replaceChunks document ordered store.chunks
    let mirror := store.fts.filter (fun row => row.documentId ≠ document) ++ ordered.map ftsRow
    {store with
      chunks := table,
      embeddings := cascade kept store.embeddings,
      fts := if pruneFts then mirror.filter fun row => row.chunkId ∈ ids table else mirror,
      documents := store.documents.set document
        (upsertedRow (store.document document) document sha256 contentHash chunks.length),
      idCache := store.idCache.pop document}

/-- `delete_document`. -/
def deleteDocument (store : Store α) (path : Text) : Store α :=
  let table := store.chunks.filter fun row => row.documentId ≠ path
  {store with
    chunks := table,
    embeddings := cascade table store.embeddings,
    fts := store.fts.filter fun row => row.documentId ≠ path,
    documents := store.documents.pop path,
    idCache := store.idCache.pop path}

/-- `rename_document`: whether there were rows, and an error when the new path is taken. -/
def renameDocument (store : Store α) (oldPath newPath : Text) : Except String (Bool × Store α) :=
  if oldPath = newPath then .ok (true,store)
  else if (store.document oldPath).isNone then .ok (false,store)
  else if (store.document newPath).isSome then .error "RAG index write failed"
  else .ok (true,{store with
    documents := store.documents.rekey oldPath newPath,
    chunks := store.chunks.map (repoint oldPath newPath),
    embeddings := store.embeddings.map fun row =>
      if row.documentId = oldPath then {row with documentId := newPath} else row,
    fts := store.fts.map fun row =>
      if row.documentId = oldPath then {row with documentId := newPath,path := newPath} else row,
    idCache := (store.idCache.pop oldPath).pop newPath})

/-- `mark_document_failed`: only a stored document is marked. -/
def markDocumentFailed (store : Store α) (path reason : Text) : Store α :=
  store.modifyDocument path fun row =>
    {row with status := .failed,diagnostic := some (reason.take 200)}

/-- `mark_documents_pending`. -/
def markDocumentsPending (store : Store α) (paths : List Text) (reason : Text) : Store α :=
  paths.foldl (fun store path => store.modifyDocument path fun row =>
    {row with status := .pending,diagnostic := some (reason.take 200)}) store

/-- `set_document_sha256`. -/
def setDocumentSha256 (store : Store α) (path sha256 : Text) : Store α :=
  store.modifyDocument path fun row => {row with sha256}

/-- `chunks_for_document`. -/
def chunksForDocument (store : Store α) (document : Text) : List Chunk :=
  rowsOf store.chunks document

/-- `existing_embeddings`: the content hash of each reusable vector. -/
def existingEmbeddings (store : Store α) (chunkIds : List Text) (model version : Text) :
    Dict Text Text :=
  (store.embeddings.filter fun row =>
    row.model = model ∧ row.version = version ∧ row.chunkId ∈ chunkIds).map fun row =>
      (row.chunkId,row.contentHash)

end Store

/-- The vectors a provider returns for one window of texts, all of one dimension. -/
structure Batch (α : Type) where
  dimension : Nat
  vectors : List (List α)
  positive : 0 < dimension
  uniform : ∀ vector ∈ vectors, vector.length = dimension

/-- `INSERT INTO rag_embeddings … ON CONFLICT(chunk_id) DO UPDATE`: the document of a stored
vector is kept. -/
def insertEmbedding : List (Embedding α) → Embedding α → List (Embedding α)
  | [],row => [row]
  | old :: rest,row =>
    if old.chunkId = row.chunkId then {row with documentId := old.documentId} :: rest
    else old :: insertEmbedding rest row

namespace Store

def clearVectors (dimension : Nat) (row : Document α) : Document α :=
  {row with embeddedCount := 0,vectors := Function.update row.vectors dimension none}

/-- `_ensure_embedding_column`: another dimension than the one in use clears the vectors. -/
def ensureEmbeddingColumn (store : Store α) (dimension : Nat) : Store α :=
  if store.embeddingColumn = some dimension then store
  else
    let cleared := match store.embeddingColumn with
      | none => store
      | some previous =>
        {store with
          documents := store.documents.mapValues (clearVectors previous),
          embeddings := []}
    {cleared with columns := dimension :: cleared.columns,embeddingColumn := some dimension}

def embedding (store : Store α) (chunkId : Text) : Option (Embedding α) :=
  store.embeddings.find? fun row => row.chunkId = chunkId

def documentVectors (store : Store α) (document : Text) (dimension : Nat) : List (List α) :=
  (store.chunksForDocument document).filterMap fun chunk =>
    ((store.embedding chunk.chunkId).map Embedding.vector).filter fun vector =>
      vector.length = dimension

/-- `_repack_document`: the vectors there are, one after the other. -/
def repackDocument (dimension : Nat) (store : Store α) (document : Text) : Store α :=
  let vectors := store.documentVectors document dimension
  store.modifyDocument document fun row =>
    {row with
      embeddedCount := vectors.length,
      vectors := Function.update row.vectors dimension (some vectors.flatten)}

def embeddingRow (model version : Text) (dimension : Nat) (chunk : Chunk) (vector : List α) :
    Embedding α where
  chunkId := chunk.chunkId
  documentId := chunk.documentId
  contentHash := chunk.hash
  model := model
  version := version
  dimension := dimension
  vector := vector

def storeVector (model version : Text) (dimension : Nat) (found : List Chunk)
    (embeddings : List (Embedding α)) (entry : Text × List α) : List (Embedding α) :=
  match found.find? fun row => row.chunkId = entry.1 with
  | none => embeddings
  | some chunk => insertEmbedding embeddings (embeddingRow model version dimension chunk entry.2)

/-- `upsert_embeddings`: the vectors are stored, and the documents they belong to repacked. -/
def upsertEmbeddings (store : Store α) (chunkIds : List Text) (batch : Batch α)
    (model version : Text) : Store α :=
  if chunkIds = [] then store
  else
    let store := store.ensureEmbeddingColumn batch.dimension
    let found := store.chunks.filter fun row => row.chunkId ∈ chunkIds
    let touched := (found.map Chunk.documentId).dedup
    let embeddings := (chunkIds.zip batch.vectors).foldl
      (storeVector model version batch.dimension found) store.embeddings
    let stored := {store with embeddings}
    let packed := touched.foldl (repackDocument batch.dimension) stored
    if touched = [] then packed
    else {packed with embeddings := cascade packed.chunks packed.embeddings}

end Store

end Store

end LocalBook.Rag
