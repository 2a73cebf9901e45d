import LocalBook.Rag.Store

/-! The service that keeps the store up to date: it buffers the paths of changed notes,
synchronises each with the bytes of its file, and follows renames at once. -/
namespace LocalBook.Rag

/-- How texts are segmented, and how vectors are labelled and batched. -/
structure Settings where
  segment : Text → List Piece
  model : Text
  version : Text
  batchSize : Nat

/-- The embedding provider during one call of the service: it may fail on some windows. None
is configured without an embedding model. -/
abbrev Provider (α : Type) := Option (List Text → Except Text (Batch α))

/-- What `read_bytes` finds at a path: nothing, when it raises. -/
abbrev Files := Text → Option Bytes

structure IndexService (α : Type) where
  store : Store α := {}
  pendingPaths : List Text := []

/-- Windows of at most `size` elements. -/
def windows {β : Type} (size : Nat) : Nat → List β → List (List β)
  | 0,_ => []
  | _,[] => []
  | fuel + 1,items => items.take size :: windows size fuel (items.drop size)

section Service

variable {α : Type} [Host]

/-- `_is_markdown`. -/
def isMarkdown (path : Text) : Bool :=
  let folded := Host.casefold path
  Text.endsWith folded ".md".toList || Text.endsWith folded ".markdown".toList

variable (settings : Settings) (provider : Provider α)

omit [Host] in
/-- One window of `_embed_chunks`. -/
def embedWindow (embed : List Text → Except Text (Batch α)) (store : Store α)
    (window : List Chunk) : Store α :=
  match embed (window.map fun chunk => chunk.piece.embeddingText) with
  | .error code => store.markDocumentsPending (window.map Chunk.documentId).dedup code
  | .ok batch =>
    if batch.vectors.length ≠ window.length then store
    else store.upsertEmbeddings (ids window) batch settings.model settings.version

/-- `_embed_chunks`: chunks with a reusable vector are skipped. -/
def embedChunks (store : Store α) (chunks : List Chunk) (reusable : Dict Text Text) : Store α :=
  match provider with
  | none => store
  | some embed =>
    let pending := chunks.filter fun chunk => reusable.find chunk.chunkId ≠ some chunk.hash
    (windows (max 1 settings.batchSize) pending.length pending).foldl
      (embedWindow settings embed) store

def reusable (store : Store α) (chunks : List Chunk) : Dict Text Text :=
  store.existingEmbeddings (ids chunks) settings.model settings.version

def notUtf8 : Text := "not_utf8".toList

/-- `_reindex_document`. -/
def reindexDocument (files : Files) (store : Store α) (path : Text) (embed pruneFts : Bool) :
    Store α :=
  match files path with
  | none => store
  | some data =>
    match decodeUtf8 data with
    | none => store.markDocumentFailed path notUtf8
    | some text =>
      let chunks := chunkDocument path (settings.segment text)
      if chunks = [] then store.deleteDocument path
      else
        let stored := store.upsertChunks path chunks (sha256Bytes data) (contentHash text) pruneFts
        if embed then embedChunks settings provider stored chunks (reusable settings stored chunks)
        else stored

/-- `_sync_path`: index or delete one path according to its current bytes. -/
def syncPath (files : Files) (store : Store α) (path : Text) : Store α :=
  match files path with
  | none => if (store.document path).isNone then store else store.deleteDocument path
  | some data =>
    match decodeUtf8 data with
    | none => store.markDocumentFailed path notUtf8
    | some text =>
      if store.documentContentHash path = some (contentHash text) then
        let stored := store.chunksForDocument path
        let existing := reusable settings store stored
        let pending := stored.filter fun chunk => existing.find chunk.chunkId ≠ some chunk.hash
        embedChunks settings provider store pending []
      else
        let chunks := chunkDocument path (settings.segment text)
        if chunks = [] then store.deleteDocument path
        else
          let known := reusable settings store chunks
          let stored := store.upsertChunks path chunks (sha256Bytes data) (contentHash text) true
          embedChunks settings provider stored chunks known

/-- The full re-index at the end of `_apply_move`. -/
def reindexMoved (files : Files) (store : Store α) (oldPath newPath : Text) : Store α :=
  let dropped := store.deleteDocument oldPath
  if newPath ≠ [] && isMarkdown newPath then
    reindexDocument settings provider files dropped newPath true true
  else dropped

/-- The store after `_apply_move`; an error is logged and changes nothing. -/
def moveDocument (files : Files) (store : Store α) (oldPath newPath : Text) : Store α :=
  if isMarkdown oldPath && isMarkdown newPath then
    match store.documentContentHash oldPath with
    | none => reindexMoved settings provider files store oldPath newPath
    | some storedHash =>
      match files newPath with
      | none => store.deleteDocument oldPath
      | some data =>
        match decodeUtf8 data with
        | none => (store.deleteDocument oldPath).markDocumentFailed newPath notUtf8
        | some text =>
          if contentHash text = storedHash then
            match store.renameDocument oldPath newPath with
            | .ok (true,renamed) => renamed.setDocumentSha256 newPath (sha256Bytes data)
            | .ok (false,_) => reindexMoved settings provider files store oldPath newPath
            | .error _ => store
          else reindexMoved settings provider files store oldPath newPath
  else reindexMoved settings provider files store oldPath newPath

inductive FileEvent where
  | changed (path : Text)
  | moved (oldPath newPath : Text)

/-- `handle_event`. -/
def handleEvent (files : Files) (service : IndexService α) : FileEvent → IndexService α
  | .changed path =>
    if isMarkdown path then {service with pendingPaths := path :: service.pendingPaths.erase path}
    else service
  | .moved oldPath newPath =>
    if oldPath = [] then service
    else {store := moveDocument settings provider files service.store oldPath newPath,
          pendingPaths := service.pendingPaths.erase oldPath}

/-- `flush`: every buffered path, in order. -/
def flush (files : Files) (service : IndexService α) : IndexService α :=
  {store := (service.pendingPaths.insertionSort fun a b => a ≤ b).foldl
    (syncPath settings provider files) service.store}

end Service

end LocalBook.Rag
