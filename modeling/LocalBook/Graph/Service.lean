import LocalBook.Decimal
import LocalBook.Dict
import LocalBook.Levels
import LocalBook.Percent

/-! The graph of notes and tags, projected from one snapshot of the index: the whole of it, what is
around one note, or what carries one tag, in pages. -/
namespace LocalBook.Graph

/-! ### Ids -/

/-- `_pct`. -/
def pct (value : Text) : Text :=
  (encodeUtf8 value).data.toList.flatMap fun byte =>
    ['%',Percent.hexUpper (byte.toNat / 16),Percent.hexUpper (byte.toNat % 16)]

def noteId (path : Text) : Text := "note:".toList ++ pct path

def tagId (tagFolded : Text) : Text := "tag:".toList ++ pct tagFolded

def linkEdgeId (sourcePath : Text) (seq : Int) : Text :=
  "link:".toList ++ (pct sourcePath ++ '#' :: Decimal.render seq)

def tagEdgeId (notePath tagFolded : Text) : Text :=
  "tag:".toList ++ (pct notePath ++ '#' :: pct tagFolded)

def semanticEdgeId (a b : Text) : Text := "semantic:".toList ++ (pct a ++ '#' :: pct b)

/-! ### The snapshot -/

structure GraphNoteRow where
  path : Text
  title : Text
  basename : Text

structure GraphTagRow where
  notePath : Text
  tag : Text
  tagFolded : Text
  seq : Int

structure GraphLinkRow where
  sourcePath : Text
  seq : Int
  target : Text
  raw : Text
  kind : Text
  display : Option Text := none
  section_ : Option Text := none
  block : Option Text := none
  context : Option Text := none
  resolvedPath : Option Text := none
  broken : Bool := false
  ambiguous : Bool := false
  candidates : List Text := []

structure GraphSnapshot where
  notes : List GraphNoteRow
  tags : List GraphTagRow
  links : List GraphLinkRow
  notes_distinct : (notes.map GraphNoteRow.path).Nodup
  tags_distinct : (tags.map fun row => (row.notePath,row.tagFolded)).Nodup
  links_distinct : (links.map fun row => (row.sourcePath,row.seq)).Nodup

def GraphSnapshot.paths (snapshot : GraphSnapshot) : Finset Text :=
  (snapshot.notes.map GraphNoteRow.path).toFinset

structure GraphMaps where
  noteTitles : Dict Text Text
  noteBasenames : Dict Text Text
  tagsByNote : Dict Text (List (Text × Text))
  tagDisplays : Dict Text Text

/-- `d.setdefault(key, []).append(value)`. -/
def append {α : Type} (d : Dict Text (List α)) (key : Text) (value : α) : Dict Text (List α) :=
  d.set key ((d.find key).getD [] ++ [value])

section Maps

variable [Host]

/-- `_tag_display`. -/
def tagDisplay (tag : Text) : List Text := [Host.casefold tag,tag]

/-- `min(displays, key=_tag_display)`. -/
def minDisplay : List Text → Text
  | [] => []
  | display :: rest =>
    rest.foldl (fun best tag => if tagDisplay tag < tagDisplay best then tag else best) display

def buildMaps (snapshot : GraphSnapshot) : GraphMaps where
  noteTitles := snapshot.notes.foldl (fun d note => d.set note.path note.title) []
  noteBasenames := snapshot.notes.foldl (fun d note => d.set note.path note.basename) []
  tagsByNote := snapshot.tags.foldl (fun d row => append d row.notePath (row.tag,row.tagFolded)) []
  tagDisplays :=
    (snapshot.tags.foldl (fun d row => append d row.tagFolded row.tag)
      []).map fun entry => (entry.1,minDisplay entry.2)

end Maps

def GraphMaps.tagsOf (maps : GraphMaps) (path : Text) : List (Text × Text) :=
  (maps.tagsByNote.find path).getD []

/-- `_note_has_tag`. -/
def noteHasTag (maps : GraphMaps) (path folded : Text) : Bool :=
  (maps.tagsOf path).any fun item => item.2 = folded

def webKind : Text := "web".toList

/-- `d.setdefault(key, set()).add(value)`. -/
def addTo (d : Dict Text (Finset Text)) (key value : Text) : Dict Text (Finset Text) :=
  d.set key (insert value ((d.find key).getD ∅))

def neighbourOf (notes : Finset Text) (row : GraphLinkRow) : Option Text :=
  if row.kind = webKind then none
  else
    row.resolvedPath.filter fun target =>
      row.sourcePath ≠ target ∧ row.sourcePath ∈ notes ∧ target ∈ notes

/-- `_note_adjacency`. -/
def noteAdjacency (snapshot : GraphSnapshot) (notes : Finset Text) :
    Dict Text (Finset Text) × Dict Text (Finset Text) :=
  snapshot.links.foldl (fun maps row =>
    (neighbourOf notes row).elim maps fun target =>
      (addTo maps.1 row.sourcePath target,addTo maps.2 target row.sourcePath)) ([],[])

/-! ### Nodes and edges -/

inductive NodeType where
  | note
  | tag
deriving DecidableEq

def NodeType.text : NodeType → Text
  | note => "note".toList
  | tag => "tag".toList

inductive EdgeType where
  | link
  | backlink
  | tag
  | semantic
deriving DecidableEq

def EdgeType.text : EdgeType → Text
  | link => "link".toList
  | backlink => "backlink".toList
  | tag => "tag".toList
  | semantic => "semantic".toList

structure GraphNode where
  id : Text
  type : NodeType
  label : Text
  path : Option Text := none
  title : Option Text := none
  tag : Option Text := none
  tagFolded : Option Text := none

structure GraphEdge (Score : Type) where
  id : Text
  source : Text
  target : Text
  type : EdgeType
  score : Option Score := none
  directed : Bool := true
  raw : Option Text := none
  resolvedPath : Option Text := none
  section_ : Option Text := none
  block : Option Text := none
  broken : Bool := false
  ambiguous : Bool := false
  candidates : List Text := []
  context : Option Text := none

variable {Score : Type}

def nodeKey (node : GraphNode) : List Text := [node.type.text,node.id]

def edgeKey (edge : GraphEdge Score) : List Text :=
  [edge.type.text,edge.source,edge.target,edge.id]

def sortNodes (nodes : List GraphNode) : List GraphNode :=
  nodes.insertionSort fun a b => nodeKey a ≤ nodeKey b

def sortEdges (edges : List (GraphEdge Score)) : List (GraphEdge Score) :=
  edges.insertionSort fun a b => edgeKey a ≤ edgeKey b

theorem texts_trans : IsTrans Text (· ≤ ·) := inferInstance

theorem texts_antisymm : Std.Antisymm (α := Text) (· ≤ ·) := inferInstance

theorem texts_total : Std.Total (α := Text) (· ≤ ·) := inferInstance

/-- `sorted(texts)`. -/
def sorted (texts : Finset Text) : List Text :=
  @Finset.sort Text texts (· ≤ ·) inferInstance texts_trans texts_antisymm texts_total

/-- `sorted(texts, key=str.casefold)`, of a set that is met in the order of its texts. -/
def sortFold [Host] (texts : Finset Text) : List Text :=
  (sorted texts).insertionSort fun a b => Host.casefold a ≤ Host.casefold b

def noteNode (maps : GraphMaps) (path : Text) : GraphNode :=
  let title := (maps.noteTitles.find path).getD []
  let basename := (maps.noteBasenames.find path).getD []
  {id := noteId path
   type := .note
   label := if title ≠ [] then title else if basename ≠ [] then basename else path
   path := some path
   title := if title ≠ [] then some title else none}

def tagNode (maps : GraphMaps) (folded : Text) : GraphNode :=
  let display := (maps.tagDisplays.find folded).getD folded
  {id := tagId folded
   type := .tag
   label := display
   tag := some display
   tagFolded := some folded}

def tagFoldeds (maps : GraphMaps) (notePaths : Finset Text) (foldedFilter : Option Text) :
    Finset Text :=
  let present := notePaths.biUnion fun path => ((maps.tagsOf path).map Prod.snd).toFinset
  foldedFilter.elim present fun folded => present ∩ {folded}

def tagEdge (path folded : Text) : GraphEdge Score :=
  {id := tagEdgeId path folded
   source := noteId path
   target := tagId folded
   type := .tag}

def linkEdge (notePaths : Finset Text) (includeBroken : Bool) (row : GraphLinkRow) :
    Option (GraphEdge Score) :=
  let edge : GraphEdge Score :=
    {id := linkEdgeId row.sourcePath row.seq
     source := noteId row.sourcePath
     target := []
     type := .link
     raw := some row.raw
     section_ := row.section_
     block := row.block
     context := row.context}
  if row.sourcePath ∉ notePaths ∨ row.kind = webKind then none
  else
    match row.resolvedPath.filter (· ∈ notePaths) with
    | some resolved =>
      some {edge with
        target := noteId resolved
        resolvedPath := some resolved
        ambiguous := row.ambiguous
        candidates := if row.ambiguous then row.candidates else []}
    | none =>
      if row.broken then if includeBroken then some {edge with broken := true} else none
      else if row.ambiguous then
        if includeBroken then some {edge with ambiguous := true,candidates := row.candidates}
        else none
      else none

/-- `_scope_nodes_and_edges`. -/
def scopeNodesAndEdges [Host] (maps : GraphMaps) (snapshot : GraphSnapshot)
    (notePaths : Finset Text) (foldedFilter : Option Text) (includeBroken : Bool) :
    List GraphNode × List (GraphEdge Score) :=
  let tags := tagFoldeds maps notePaths foldedFilter
  (sortNodes ((sortFold notePaths).map (noteNode maps) ++ (sortFold tags).map (tagNode maps)),
    sortEdges ((sortFold notePaths).flatMap (fun path =>
      ((maps.tagsOf path).filter (·.2 ∈ tags)).map fun item => tagEdge path item.2) ++
        snapshot.links.filterMap (linkEdge notePaths includeBroken)))

/-! ### Pages -/

inductive SemanticStatus where
  | ready
  | unavailable
  | outdated
  | degraded
  | limited

inductive GraphScope where
  | global
  | around
  | tag

structure GraphPage where
  limit : Nat
  offset : Nat
  nextOffset : Option Nat
  totalNodes : Nat
  totalEdges : Nat
  truncated : Bool

structure GraphResponse (Score : Type) where
  scope : GraphScope
  root : Option Text
  nodes : List GraphNode
  edges : List (GraphEdge Score)
  page : GraphPage
  generatedAt : Nat
  semanticStatus : SemanticStatus := .unavailable
  semanticCoveredNodes : Nat := 0

/-- What a request asks for, behind the validation of its arguments. -/
structure Request where
  limit : Nat
  offset : Nat
  includeBroken : Bool
  includeSemantic : Bool

/-- `_page_response`. -/
def pageResponse (scope : GraphScope) (root : Option Text) (nodes : List GraphNode)
    (edges : List (GraphEdge Score)) (request : Request) (maxEdges now : Nat) :
    GraphResponse Score :=
  let edges := sortEdges edges
  let pageNodes := (nodes.drop request.offset).take request.limit
  let nextOffset := if request.offset + request.limit < nodes.length then
    some (request.offset + request.limit) else none
  let pageIds := pageNodes.map GraphNode.id
  let pageEdges := edges.filter fun edge =>
    edge.source ∈ pageIds ∧ (edge.target = [] ∨ edge.target ∈ pageIds)
  {scope := scope
   root := root
   nodes := pageNodes
   edges := pageEdges.take maxEdges
   page := ⟨request.limit,request.offset,nextOffset,nodes.length,edges.length,
     nextOffset.isSome || maxEdges < pageEdges.length⟩
   generatedAt := now}

/-! ### Semantic neighbours -/

/-- What the vector store and its provider answer for some notes: why there is nothing, or the
ranked neighbours of each note, with everything named once. -/
structure Semantics (Score : Type) where
  neighbors : Finset Text → Except SemanticStatus (Dict Text (List (Text × Score)))
  round : Score → Score
  names_distinct : ∀ paths found,neighbors paths = .ok found → (found.map Prod.fst).Nodup
  ranked_distinct : ∀ paths found,neighbors paths = .ok found →
    ∀ row ∈ found,(row.2.map Prod.fst).Nodup

def semanticEdge (round : Score → Score) (source : Text) (item : Text × Score) :
    GraphEdge Score :=
  {id := semanticEdgeId (min source item.1) (max source item.1)
   source := noteId source
   target := noteId item.1
   type := .semantic
   directed := false
   score := some (round item.2)}

def semanticEdges (round : Score → Score) (neighbors : Dict Text (List (Text × Score))) :
    List (GraphEdge Score) :=
  neighbors.flatMap fun row =>
    (row.2.filter fun item => row.1 < item.1 ∧
      ((neighbors.find item.1).getD []).any fun other => other.1 = row.1).map
        (semanticEdge round row.1)

/-- `_semantic_projection`. -/
def semanticProjection (semantics : Semantics Score) (paths : Finset Text) (wanted : Bool) :
    List (GraphEdge Score) × SemanticStatus × Nat :=
  if !wanted then ([],.unavailable,0)
  else
    match semantics.neighbors paths with
    | .error status => ([],status,0)
    | .ok neighbors => (semanticEdges semantics.round neighbors,.ready,neighbors.length)

def betweenNodes (nodes : List GraphNode) (edges : List (GraphEdge Score)) :
    List (GraphEdge Score) :=
  edges.filter fun edge =>
    edge.source ∈ nodes.map GraphNode.id ∧ edge.target ∈ nodes.map GraphNode.id

/-! ### Scopes -/

inductive Direction where
  | both
  | outgoing
  | incoming
deriving DecidableEq

/-- What is asked for: all notes, those around one or those with a tag. -/
inductive Scope where
  | global (tag : Option Text)
  | around (root : Text) (depth : Nat) (direction : Direction) (tag : Option Text)
  | tag (tag : Text)

def Scope.kind : Scope → GraphScope
  | global _ => .global
  | around .. => .around
  | tag _ => .tag

def Scope.root : Scope → Option Text
  | around root .. => some root
  | global _ | tag _ => none

section Service

variable [Host] (semantics : Semantics Score) (snapshot : GraphSnapshot)

def neighbours (direction : Direction)
    (adjacency : Dict Text (Finset Text) × Dict Text (Finset Text)) (node : Text) : Finset Text :=
  (if direction ≠ .incoming then (adjacency.1.find node).getD ∅ else ∅) ∪
    (if direction ≠ .outgoing then (adjacency.2.find node).getD ∅ else ∅)

def matched (maps : GraphMaps) (root : Text) (folded : Option Text) (visited : Finset Text) :
    Finset Text :=
  folded.elim visited fun folded =>
    visited.filter fun path => path = root ∨ noteHasTag maps path folded

def semanticCandidates (root : Text) : Finset Text :=
  insert root ((sorted (snapshot.paths.erase root)).take 499).toFinset

def semanticPaths (root : Text) (semantic : List (GraphEdge Score)) : Finset Text :=
  let joined := (semantic.filter fun edge =>
    edge.source = noteId root ∨ edge.target = noteId root).map fun edge =>
      if edge.source = noteId root then edge.target else edge.source
  snapshot.paths.filter fun path => noteId path ∈ joined

/-- `_validated_tag_filter` of the tag. -/
def Scope.foldedFilter : Scope → Option Text
  | .global word | .around _ _ _ word => word.map Host.casefold
  | .tag word => some (Host.casefold word)

def notePathsOf (scope : Scope) (includeSemantic : Bool) : Finset Text :=
  let maps := buildMaps snapshot
  match scope with
  | .global word =>
    word.elim snapshot.paths fun word =>
      snapshot.paths.filter fun path => noteHasTag maps path (Host.casefold word)
  | .tag word =>
    ((maps.tagsByNote.map Prod.fst).filter fun path =>
      noteHasTag maps path (Host.casefold word)).toFinset
  | .around root depth direction word =>
    let folded := word.map Host.casefold
    let adjacency := noteAdjacency snapshot snapshot.paths
    let visited := Levels.search (neighbours direction adjacency) depth {root} {root}
    let semantic := (semanticProjection semantics (semanticCandidates snapshot root)
      includeSemantic).1
    matched maps root folded (matched maps root folded visited ∪
      semanticPaths snapshot root semantic)

def semanticOf (scope : Scope) (includeSemantic : Bool) :
    List (GraphEdge Score) × SemanticStatus × Nat :=
  match scope with
  | .global _ | .tag _ =>
    semanticProjection semantics (notePathsOf semantics snapshot scope includeSemantic)
      includeSemantic
  | .around root .. =>
    let found := semanticProjection semantics (semanticCandidates snapshot root) includeSemantic
    (found.1,if 500 < snapshot.paths.card ∧ includeSemantic then .limited else found.2.1,found.2.2)

/-- The nodes and edges of a scope, before they are cut into pages. -/
def candidatesOf (scope : Scope) (includeBroken includeSemantic : Bool) :
    List GraphNode × List (GraphEdge Score) :=
  let found := scopeNodesAndEdges (buildMaps snapshot) snapshot
    (notePathsOf semantics snapshot scope includeSemantic) scope.foldedFilter includeBroken
  (found.1,found.2 ++
    betweenNodes found.1 (semanticOf semantics snapshot scope includeSemantic).1)

/-- What is asked for is there: otherwise `PathNotFound`. -/
def missing (scope : Scope) : Option Text :=
  match scope with
  | .global _ => none
  | .around root .. => if root ∈ snapshot.paths then none else some root
  | .tag word =>
    if ((buildMaps snapshot).tagDisplays.find (Host.casefold word)).isSome then none
    else some word

/-- `global_graph`, `local_graph` and `tag_graph`, behind the validation of their arguments; the
path that is not found where the scope is not there. -/
def graph (scope : Scope) (request : Request) (maxEdges now : Nat) :
    Except Text (GraphResponse Score) :=
  match missing snapshot scope with
  | some path => .error path
  | none =>
    let found := candidatesOf semantics snapshot scope request.includeBroken
      request.includeSemantic
    let semantic := semanticOf semantics snapshot scope request.includeSemantic
    .ok {pageResponse scope.kind scope.root found.1 found.2 request maxEdges now with
      semanticStatus := semantic.2.1
      semanticCoveredNodes := semantic.2.2}

end Service

end LocalBook.Graph
