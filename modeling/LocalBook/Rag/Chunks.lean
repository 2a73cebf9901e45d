import LocalBook.Dict
import LocalBook.Sha256

/-! Chunks of notes. The segmentation of a text is the chunker's; a chunk carries its place
in the document and an identity derived from the path and the content. -/
namespace LocalBook.Rag

/-- What the chunker makes of one group of blocks. -/
structure Piece where
  content : Text
  heading : Option Text := none
  headingPath : Option Text := none
  sectionPath : Option Text := none
  startOffset : Nat := 0
  endOffset : Nat := 0
  startLine : Nat := 1
  endLine : Nat := 1
  tags : List Text := []
  aliases : List Text := []
  tokenEstimate : Nat := 0
  embeddingText : Text := []
deriving Repr,DecidableEq

/-- `content_hash`. -/
def contentHash (content : Text) : Text := Sha256.hexdigest (encodeUtf8 content)

/-- `_chunk_id`: the place in the document is left out. -/
def chunkId (path content : Text) : Text :=
  (Sha256.hexdigest (encodeUtf8 (path ++ Char.ofNat 0 :: contentHash content))).take 24

/-- A row of `rag_chunks`. -/
structure Chunk where
  chunkId : Text
  documentId : Text
  path : Text
  chunkIndex : Nat
  piece : Piece
deriving Repr,DecidableEq

namespace Chunk

def hash (chunk : Chunk) : Text := contentHash chunk.piece.content

def shape (chunk : Chunk) : Text × Text × Nat × Piece :=
  (chunk.documentId,chunk.path,chunk.chunkIndex,chunk.piece)

def precedes (a b : Chunk) : Prop := a.chunkIndex ≤ b.chunkIndex

instance : DecidableRel precedes := fun a b =>
  inferInstanceAs (Decidable (a.chunkIndex ≤ b.chunkIndex))

end Chunk

/-- The chunk of a piece at a place of a document, as `chunk_document` builds it. -/
def chunkAt (path : Text) (index : Nat) (piece : Piece) : Chunk where
  chunkId := chunkId path piece.content
  documentId := path
  path := path
  chunkIndex := index
  piece := piece

def chunksFrom (path : Text) : Nat → List Piece → List Chunk
  | _,[] => []
  | n,piece :: rest => chunkAt path n piece :: chunksFrom path (n + 1) rest

def chunkDocument (path : Text) (pieces : List Piece) : List Chunk := chunksFrom path 0 pieces

def ids (chunks : List Chunk) : List Text := chunks.map Chunk.chunkId

/-- `INSERT … ON CONFLICT(chunk_id) DO UPDATE`: the row with this id is overwritten. -/
def insertChunk : List Chunk → Chunk → List Chunk
  | [],chunk => [chunk]
  | row :: rest,chunk =>
    if row.chunkId = chunk.chunkId then chunk :: rest else row :: insertChunk rest chunk

/-- The rows of a document, by their place. -/
def rowsOf (table : List Chunk) (document : Text) : List Chunk :=
  (table.filter fun row => row.documentId = document).insertionSort Chunk.precedes

/-- What upserting a document makes of the chunk table: its rows with other ids go, and the
new ones are inserted. -/
def replaceChunks (document : Text) (chunks table : List Chunk) : List Chunk :=
  chunks.foldl insertChunk
    (table.filter fun row => ¬ (row.documentId = document ∧ row.chunkId ∉ ids chunks))

end LocalBook.Rag
