import LocalBook.Rag.Evidence
import LocalBook.Rag.Ranks

/-! The link retriever: notes that the derived graph connects to the notes a query matched, by
their wikilinks, their backlinks, their tags or over two links. -/
namespace LocalBook.Rag.Link

open Context (Retrieved)

/-! ### The graph -/

structure GraphTagRow where
  notePath : Text
  tagFolded : Text
deriving DecidableEq

structure GraphLinkRow where
  sourcePath : Text
  resolvedPath : Option Text
  broken : Bool
deriving DecidableEq

structure GraphSnapshot where
  notes : List Text
  tags : List GraphTagRow
  links : List GraphLinkRow

/-- `_GraphView`. -/
structure GraphView where
  notes : List Text
  outgoing : Dict Text (List Text)
  incoming : Dict Text (List Text)
  tags : Dict Text (List Text)
  tagIndex : Dict Text (List Text)

/-- `d.get(key, ())`. -/
def bucket (d : Dict Text (List Text)) (key : Text) : List Text := (d.find key).getD []

/-- `d.setdefault(key, []).append(value)`. -/
def append (d : Dict Text (List Text)) (key value : Text) : Dict Text (List Text) :=
  d.set key (bucket d key ++ [value])

def appendNew (d : Dict Text (List Text)) (key value : Text) : Dict Text (List Text) :=
  if value ∈ bucket d key then d else append d key value

structure Edges where
  outgoing : Dict Text (List Text) := []
  incoming : Dict Text (List Text) := []
  seenEdges : List (Text × Text) := []

def edgeOf (notes : List Text) (link : GraphLinkRow) : Option (Text × Text) :=
  match link.resolvedPath with
  | none => none
  | some target =>
    if target = [] ∨ link.broken then none
    else if link.sourcePath = target ∨ target ∉ notes then none
    else some (link.sourcePath,target)

namespace Edges

def insert (edges : Edges) (edge : Text × Text) : Edges where
  outgoing := append edges.outgoing edge.1 edge.2
  incoming := append edges.incoming edge.2 edge.1
  seenEdges := edges.seenEdges ++ [edge]

def add (notes : List Text) (edges : Edges) (link : GraphLinkRow) : Edges :=
  (edgeOf notes link).elim edges fun edge =>
    if edges.seenEdges.contains edge then edges else edges.insert edge

end Edges

/-- `_build_graph_view`. -/
def buildGraphView (snapshot : GraphSnapshot) : GraphView :=
  let edges := snapshot.links.foldl (Edges.add snapshot.notes) {}
  {notes := snapshot.notes
   outgoing := edges.outgoing
   incoming := edges.incoming
   tags := snapshot.tags.foldl (fun d row => appendNew d row.notePath row.tagFolded) []
   tagIndex := snapshot.tags.foldl (fun d row => appendNew d row.tagFolded row.notePath) []}

/-! ### Connections -/

inductive Signal where
  | wikilink
  | backlink
  | tag
  | graph
deriving DecidableEq

def signals : List Signal := [.wikilink,.backlink,.tag,.graph]

/-- The settings of a `LinkRetriever`, as they are given. -/
structure LinkRetriever where
  topK : Int := 20
  seedTopK : Int := 5
  wikilinkWeight : ℚ := 1
  backlinkWeight : ℚ := 4 / 5
  tagWeight : ℚ := 3 / 5
  graphWeight : ℚ := 2 / 5
  maxTagNeighbours : Int := 50
  documentCharLimit : Int := 2000
  excludePaths : List Text := []

/-- A call of `connect`: a path, the signal and the seed. -/
abbrev Call := Text × Signal × Text

abbrev Signals := Signal → Finset Text

namespace LinkRetriever

variable (r : LinkRetriever)

/-- `weights`. -/
def weight : Signal → ℚ
  | .wikilink => max 0 r.wikilinkWeight
  | .backlink => max 0 r.backlinkWeight
  | .tag => max 0 r.tagWeight
  | .graph => max 0 r.graphWeight

/-- `exclude_paths`, without empty ones. -/
def excluded : List Text := r.excludePaths.filter (· ≠ [])

def tagCap : Nat := (max 0 r.maxTagNeighbours).toNat

def neighbours (view : GraphView) (seeds : List Text) (tag : Text) : List Text :=
  let all := bucket view.tagIndex tag
  if r.tagCap ≠ 0 then (all.filter (· ∉ seeds)).take r.tagCap else all

def directCalls (view : GraphView) (seeds : List Text) (seed : Text) : List Call :=
  (bucket view.outgoing seed).map (fun target => (target,.wikilink,seed)) ++
    (bucket view.incoming seed).map (fun source => (source,.backlink,seed)) ++
    (bucket view.tags seed).flatMap fun tag =>
      (r.neighbours view seeds tag).map fun other => (other,.tag,seed)

end LinkRetriever

/-- `set(outgoing) | set(incoming)` of a note, without the note. -/
def oneHop (view : GraphView) (seed : Text) : List Text :=
  ((bucket view.outgoing seed ++ bucket view.incoming seed).dedup.filter (· ≠ seed)).insertionSort
    (· ≤ ·)

def hopCalls (view : GraphView) (seed : Text) : List Call :=
  (oneHop view seed).flatMap fun hop =>
    ((bucket view.outgoing hop ++ bucket view.incoming hop).filter fun path =>
      path ∉ oneHop view seed ∧ path ≠ seed).map fun path => (path,.graph,seed)

namespace LinkRetriever

variable (r : LinkRetriever)

def calls (view : GraphView) (seeds : List Text) : List Call :=
  seeds.flatMap (r.directCalls view seeds) ++
    if 0 < r.weight .graph then seeds.flatMap (hopCalls view) else []

/-- `connect` does not turn the call away. -/
def Admits (view : GraphView) (seeds : List Text) (allowed : Option (List Text)) (call : Call) :
    Prop :=
  call.1 ≠ call.2.2 ∧ call.1 ∈ view.notes ∧ call.1 ∉ r.excluded ∧
    (∀ paths ∈ allowed,call.1 ∈ paths) ∧ call.1 ∉ seeds

instance (view : GraphView) (seeds : List Text) (allowed : Option (List Text)) (call : Call) :
    Decidable (r.Admits view seeds allowed call) := by
  unfold Admits
  infer_instance

end LinkRetriever

def signalsAt (connections : Dict Text Signals) (path : Text) : Signals :=
  (connections.find path).getD fun _ => ∅

/-- `connections.setdefault(path, {}).setdefault(signal, set()).add(seed)`. -/
def connect (connections : Dict Text Signals) (call : Call) : Dict Text Signals :=
  let known := signalsAt connections call.1
  connections.set call.1
    (Function.update known call.2.1 (insert call.2.2 (known call.2.1)))

namespace LinkRetriever

variable (r : LinkRetriever)

/-- `_connections`. -/
def connections (view : GraphView) (seeds : List Text) (allowed : Option (List Text)) :
    Dict Text Signals :=
  ((r.calls view seeds).filter fun call => r.Admits view seeds allowed call).foldl connect []

def total (of : Signals) : ℚ := (signals.map fun signal => r.weight signal * (of signal).card).sum

end LinkRetriever

/-- `_source_of`. -/
def sourceOf (of : Signals) : Text :=
  if of .graph ≠ ∅ ∧ of .wikilink = ∅ ∧ of .backlink = ∅ ∧ of .tag = ∅ then "graph".toList
  else "link".toList

/-! ### Results -/

structure Entry where
  title : Text
  text : Text
  tags : List Text

/-- What the retriever reads beside the graph: the chunks of a document, none when the store
cannot be read, and the entries of the index. -/
structure Sources where
  chunksFor : Text → List Chunk
  entry : Text → Option Entry
  own : ∀ path,∀ chunk ∈ chunksFor path,chunk.path = path

structure LinkHit extends Retrieved where
  source : Text

section Materialising

variable [Host]

def coverage (terms : List Text) (chunk : Chunk) : Nat :=
  2 * (terms.filter fun term =>
      term ≠ [] ∧ (Text.find term (Host.casefold chunk.piece.content)).isSome).length +
    (terms.filter fun term => term ≠ [] ∧
      (Text.find term (Host.casefold (chunk.piece.heading.getD []))).isSome).length

/-- The loop of `_best_chunk`: the first of the best ones. -/
def bestOf (terms : List Text) : Chunk → List Chunk → Chunk
  | best,[] => best
  | best,chunk :: rest =>
    bestOf terms (if coverage terms best < coverage terms chunk then chunk else best) rest

/-- `_best_chunk`. -/
def bestChunk (sources : Sources) (path : Text) (terms : List Text) : Option Chunk :=
  match sources.chunksFor path with
  | [] => none
  | first :: rest => some (bestOf terms first rest)

/-- `text or None`. -/
def orNone (text : Text) : Option Text := if text = [] then none else some text

/-- `_materialise`. -/
def materialise (r : LinkRetriever) (sources : Sources) (path : Text) (terms : List Text)
    (source : Text) : Option LinkHit :=
  match bestChunk sources path terms with
  | some chunk => some {
      chunkId := chunk.chunkId
      path := chunk.path
      heading := chunk.piece.heading
      headingPath := Context.eitherText chunk.piece.sectionPath chunk.piece.headingPath
      content := chunk.piece.content
      startLine := chunk.piece.startLine
      endLine := chunk.piece.endLine
      tags := chunk.piece.tags
      contentHash := chunk.hash
      source}
  | none =>
    (sources.entry path).map fun entry =>
      let limit := (max 0 r.documentCharLimit).toNat
      let content := if limit = 0 then entry.text else entry.text.take limit
      {chunkId := Ranks.documentMark ++ path
       path
       heading := orNone entry.title
       headingPath := orNone entry.title
       content
       tags := entry.tags
       contentHash := contentHash content
       documentLevel := true
       source}

end Materialising

/-- `round(x, 6)` of an exact number: to the nearest, and to the even one where two are. -/
def round6 (x : ℚ) : ℚ :=
  let scaled := x * 1000000
  let low := ⌊scaled⌋
  let high := scaled - low
  (if high < 1 / 2 ∨ high = 1 / 2 ∧ low % 2 = 0 then low else low + 1 : ℤ) / 1000000

namespace LinkRetriever

variable (r : LinkRetriever)

/-- The loop of `_seeds`. -/
def seedsFrom (seeds : List Text) : List Text → List Text
  | [] => seeds
  | path :: rest =>
    if path ∈ seeds ∨ path ∈ r.excluded then seedsFrom seeds rest
    else if (max 1 r.seedTopK).toNat ≤ seeds.length + 1 then seeds ++ [path]
    else seedsFrom (seeds ++ [path]) rest

def seeds (hits : List Text) : List Text := r.seedsFrom [] hits

/-- The connected notes with their totals and sources, the best first. -/
def ordered (connections : Dict Text Signals) : List (ℚ × Text × Text) :=
  ((connections.filter fun entry => 0 < r.total entry.2).map fun entry =>
    (r.total entry.2,entry.1,sourceOf entry.2)).insertionSort fun a b =>
      Store.better (a.1,a.2.1) (b.1,b.2.1)

end LinkRetriever

/-- What `retrieve` returns and leaves in the fields of the retriever. -/
structure Retrieval where
  results : List LinkHit := []
  lastDegraded : Option Text := none
  lastSeedPaths : List Text := []
  lastSignals : List (Text × List (Signal × Nat)) := []

inductive RetrieverUnavailable where
  | seeds
  | graph

/-- The index that `retrieve` reads: the snapshot, unless it is unavailable, and the entries. -/
structure Index where
  graphSnapshot : Option GraphSnapshot

section Retrieving

variable [Host] (r : LinkRetriever) (sources : Sources)

def resultsOf (connections : Dict Text Signals) (terms : List Text) (limit : Nat) :
    List LinkHit :=
  let hits := (r.ordered connections).filterMap fun entry =>
    (materialise r sources entry.2.1 terms entry.2.2).map fun hit =>
      {hit with score := round6 entry.1}
  ((hits.take limit).zipIdx 1).map fun entry => {entry.1 with linkRank := some entry.2}

/-- `LinkRetriever.retrieve`, for the words of the query and the notes that the seed retriever
finds. -/
def retrieve (index : Option Index) (query : Text) (terms : List Text)
    (seedHits : Option (List Text)) (topK : Option Int) (allowed : Option (List Text)) :
    Except RetrieverUnavailable Retrieval :=
  let limit := (max 0 (topK.getD (max 1 r.topK))).toNat
  if Text.strip query = [] then .ok {}
  else if limit = 0 then .ok {}
  else
    match index with
    | none => .ok {lastDegraded := some "link_unavailable".toList}
    | some index =>
      match seedHits with
      | none => .error .seeds
      | some hits =>
        let seeds := r.seeds hits
        if seeds = [] then .ok {lastDegraded := some "link_no_seed".toList}
        else
          match index.graphSnapshot with
          | none => .error .graph
          | some snapshot =>
            let connections := r.connections (buildGraphView snapshot) seeds allowed
            if connections = [] then .ok {lastSeedPaths := seeds}
            else
              let results := resultsOf r sources connections terms limit
              .ok {
                results
                lastSeedPaths := seeds
                lastSignals := results.map fun hit => (hit.path,signals.map fun signal =>
                  (signal,(signalsAt connections hit.path signal).card))}

end Retrieving

end LocalBook.Rag.Link
