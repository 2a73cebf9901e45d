import LocalBook.Rag.IndexService

/-! Vector search: the scan of the packed run of each document, and the plain scan of the
stored vectors that it should agree with. -/
namespace LocalBook.Rag

/-- A `VectorHit`: the row of the chunk, its score and its place in the ranking. -/
structure Hit (α : Type) where
  chunk : Chunk
  score : α
  rank : Nat

namespace Store

section Ids

variable {α : Type}

/-- `reset`: every row goes; the columns stay. -/
def reset (store : Store α) : Store α := {columns := store.columns}

/-- The order of `chunks_without_embeddings`. -/
def pathOrder (a b : Chunk) : Prop :=
  a.path < b.path ∨ (a.path = b.path ∧ a.chunkIndex ≤ b.chunkIndex)

instance : DecidableRel pathOrder := fun a b =>
  inferInstanceAs (Decidable (a.path < b.path ∨ (a.path = b.path ∧ a.chunkIndex ≤ b.chunkIndex)))

def lacksVector (store : Store α) (model version : Text) (chunk : Chunk) : Bool :=
  match store.embedding chunk.chunkId with
  | none => true
  | some row => row.model ≠ model || row.version ≠ version || row.contentHash ≠ chunk.hash

/-- `chunks_without_embeddings`. -/
def chunksWithoutEmbeddings (store : Store α) (limit : Nat) (model version : Text) : List Chunk :=
  ((store.chunks.filter (store.lacksVector model version)).insertionSort pathOrder).take
    (max 1 limit)

/-- One batch of `_chunk_ids_for_many`: what is loaded, and the cache, which a large batch
empties first. -/
def loadIds (store : Store α) (state : Dict Text (List Text) × Dict Text (List Text))
    (window : List Text) : Dict Text (List Text) × Dict Text (List Text) :=
  let grouped := window.map fun path => (path,ids (store.chunksForDocument path))
  let cache := if state.2.length + window.length > 512 then [] else state.2
  (grouped.foldl (fun d entry => d.set entry.1 entry.2) state.1,
    grouped.foldl (fun d entry => d.set entry.1 entry.2) cache)

/-- `_chunk_ids_for_many`: the chunk ids of the documents, through the cache. -/
def chunkIdsForMany (store : Store α) (paths : List Text) :
    Dict Text (List Text) × Store α :=
  let unique := paths.dedup
  let missing := unique.filter fun path => (store.idCache.find path).isNone
  let loaded := unique.filterMap fun path => (store.idCache.find path).map fun found => (path,found)
  let state := (windows 400 missing.length missing).foldl store.loadIds (loaded,store.idCache)
  (unique.map fun path => (path,(Dict.find state.1 path).getD []),{store with idCache := state.2})

/-- `_details_by_chunk_id`, for one of the ids. -/
def chunk (store : Store α) (chunkId : Text) : Option Chunk :=
  store.chunks.find? fun row => row.chunkId = chunkId

/-- The packed runs of one dimension that hold a vector at least, of all documents or of
those at the given paths. -/
def packedRuns (store : Store α) (dimension : Nat) (paths : Option (List Text)) :
    List (Text × List α) :=
  store.documents.filterMap fun entry =>
    if paths.all fun allowed => entry.1 ∈ allowed then
      ((entry.2.vectors dimension).filter fun run => dimension ≤ run.length).map fun run =>
        (entry.1,run)
    else none

end Ids

section Scores

variable {α : Type} [Mul α] [AddMonoid α] [LinearOrder α]

omit [LinearOrder α] in
def dot (vector query : List α) : α := (List.zipWith (· * ·) vector query).sum

omit [LinearOrder α] in
/-- `dot_products`: the score of each vector of a packed run, in order. -/
def dotProducts (run query : List α) : List α :=
  (windows query.length (run.length / query.length) run).map fun vector => dot vector query

def better (a b : α × Text) : Prop := b.1 < a.1 ∨ (a.1 = b.1 ∧ a.2 ≤ b.2)

omit [Mul α] [AddMonoid α] in
instance : DecidableRel (@better α _) := fun a b =>
  inferInstanceAs (Decidable (b.1 < a.1 ∨ (a.1 = b.1 ∧ a.2 ≤ b.2)))

omit [Mul α] [AddMonoid α] in
def ranked (store : Store α) (topK : Int) (scored : List (α × Text)) : List (Hit α) :=
  (((scored.insertionSort better).take (max 1 topK).toNat).zipIdx 1).filterMap fun entry =>
    (store.chunk entry.1.2).map fun chunk => {chunk,score := entry.1.1,rank := entry.2}

/-- `search`, and the store with the ids it cached. The scores of a run are matched with the
ids of the document's chunks by position. -/
def search (store : Store α) (query : List α) (topK : Int) (allowedPaths : Option (List Text)) :
    List (Hit α) × Store α :=
  if query = [] ∨ topK ≤ 0 then ([],store)
  else if query.length ∉ store.columns then ([],store)
  else
    let paths := allowedPaths.map fun allowed => allowed.filter fun path => path ≠ []
    if paths = some [] then ([],store)
    else
      let rows := store.packedRuns query.length paths
      let found := store.chunkIdsForMany (rows.map Prod.fst)
      let scored := rows.flatMap fun row =>
        (dotProducts row.2 query).zip ((found.1.find row.1).getD [])
      (found.2.ranked topK scored,found.2)

def scannedRows (store : Store α) (dimension : Nat) : List (Embedding α) :=
  store.embeddings.filter fun row =>
    row.dimension = dimension ∧ row.chunkId ∈ ids store.chunks ∧ row.vector.length = dimension

/-- `legacy_vector_scan`. -/
def legacyVectorScan (store : Store α) (query : List α) (topK : Int) : List (Hit α) :=
  if query = [] ∨ topK ≤ 0 then []
  else store.ranked topK ((store.scannedRows query.length).map fun row =>
    (dot row.vector query,row.chunkId))

/-- What `retrieve` keeps of the hits: those that reach `min_score`. -/
def reaching (minScore : α) (hits : List (Hit α)) : List (Hit α) :=
  hits.filter fun hit => minScore ≤ hit.score

end Scores

end Store

end LocalBook.Rag
