import LocalBook.Graph.Service

/-! What a graph response says: ids that name one thing, edges between nodes of the response, and
edges without a target only where the index knows none. -/
namespace LocalBook.Graph

/-! ### Ids -/

theorem unquoteToBytes_pct (bytes : List UInt8) :
    Percent.unquoteToBytes (bytes.flatMap fun byte =>
      ['%',Percent.hexUpper (byte.toNat / 16),Percent.hexUpper (byte.toNat % 16)]) = bytes := by
  induction bytes with
  | nil => simp [Percent.unquoteToBytes]
  | cons b rest ih =>
    have small := b.toNat_lt
    have high := Percent.hexValue_hexUpper (b.toNat / 16) (by omega)
    have low := Percent.hexValue_hexUpper (b.toNat % 16) (by omega)
    have whole : 16 * (b.toNat / 16) + b.toNat % 16 = b.toNat := Nat.div_add_mod _ _
    rw [List.flatMap_cons,List.cons_append,List.cons_append,List.cons_append,List.nil_append,
      Percent.unquoteToBytes]
    simp only [high,low,whole,ih]
    simp

theorem pct_injective : Function.Injective pct := by
  intro a b same
  have bytes := congrArg Percent.unquoteToBytes same
  rw [pct,pct,unquoteToBytes_pct,unquoteToBytes_pct] at bytes
  rw [← Percent.decodeReplace_encode a,bytes,Percent.decodeReplace_encode]

theorem hexUpper_ne_hash : ∀ n < 16,Percent.hexUpper n ≠ '#' := by decide

theorem hash_not_mem_pct (value : Text) : '#' ∉ pct value := by
  intro member
  obtain ⟨byte,_,inside⟩ := List.mem_flatMap.mp member
  have small := byte.toNat_lt
  simp only [List.mem_cons,List.not_mem_nil,or_false] at inside
  rcases inside with same | same | same
  · cases same
  · exact hexUpper_ne_hash _ (by omega) same.symm
  · exact hexUpper_ne_hash _ (by omega) same.symm

theorem hash_cut {a b x y : Text} (same : pct a ++ '#' :: x = pct b ++ '#' :: y) :
    a = b ∧ x = y := by
  have before : ∀ value rest,(pct value ++ '#' :: rest).takeWhile (· ≠ '#') = pct value := by
    intro value rest
    have plain : ∀ c ∈ pct value,decide (c ≠ '#') = true := by
      intro c member
      exact decide_eq_true fun same => hash_not_mem_pct value (same ▸ member)
    rw [List.takeWhile_append_of_pos plain]
    simp
  have first := congrArg (List.takeWhile (· ≠ '#')) same
  rw [before,before] at first
  have equal := pct_injective first
  subst equal
  exact ⟨rfl,(List.cons.inj (List.append_cancel_left same)).2⟩

theorem noteId_injective : Function.Injective noteId := fun _ _ same =>
  pct_injective (List.append_cancel_left same)

theorem tagId_injective : Function.Injective tagId := fun _ _ same =>
  pct_injective (List.append_cancel_left same)

theorem noteId_ne_tagId (path folded : Text) : noteId path ≠ tagId folded := by
  intro same
  have first := congrArg List.head? same
  simp [noteId,tagId] at first

theorem tagEdgeId_inj {a b x y : Text} (same : tagEdgeId a x = tagEdgeId b y) : a = b ∧ x = y := by
  have cut : pct a ++ '#' :: pct x = pct b ++ '#' :: pct y := List.append_cancel_left same
  obtain ⟨first,second⟩ := hash_cut cut
  exact ⟨first,pct_injective second⟩

theorem semanticEdgeId_inj {a b x y : Text} (same : semanticEdgeId a x = semanticEdgeId b y) :
    a = b ∧ x = y := by
  have cut : pct a ++ '#' :: pct x = pct b ++ '#' :: pct y := List.append_cancel_left same
  obtain ⟨first,second⟩ := hash_cut cut
  exact ⟨first,pct_injective second⟩

theorem render_injective : Function.Injective Decimal.render := by
  intro a b same
  have back := congrArg Decimal.parse same
  rwa [Decimal.parse_render,Decimal.parse_render,Option.some.injEq] at back

theorem linkEdgeId_inj {a b : Text} {m n : Int} (same : linkEdgeId a m = linkEdgeId b n) :
    a = b ∧ m = n := by
  have cut : pct a ++ '#' :: Decimal.render m = pct b ++ '#' :: Decimal.render n :=
    List.append_cancel_left same
  obtain ⟨first,second⟩ := hash_cut cut
  exact ⟨first,render_injective second⟩

/-! ### Tags and neighbours of a snapshot -/

theorem find_append {α : Type} (d : Dict Text (List α)) (key : Text) (value : α) (other : Text) :
    ((append d key value).find other).getD [] =
      (d.find other).getD [] ++ if other = key then [value] else [] := by
  rw [append,Dict.find_set]
  by_cases same : other = key
  · simp [same]
  · simp [same]

section Tags

variable [Host] {snapshot : GraphSnapshot}

theorem tagsOf_buildMaps (path : Text) : (buildMaps snapshot).tagsOf path =
    (snapshot.tags.filter fun row => row.notePath = path).map fun row =>
      (row.tag,row.tagFolded) := by
  have run : ∀ (rows : List GraphTagRow) (d : Dict Text (List (Text × Text))),
      ((rows.foldl (fun d row => append d row.notePath (row.tag,row.tagFolded)) d).find
        path).getD [] = (d.find path).getD [] ++
          (rows.filter fun row => row.notePath = path).map fun row => (row.tag,row.tagFolded) := by
    intro rows
    induction rows with
    | nil => simp
    | cons row rest ih =>
      intro d
      rw [List.foldl_cons,ih,find_append]
      by_cases here : row.notePath = path
      · simp [here]
      · simp [here,Ne.symm here]
  exact run snapshot.tags []

def Tagged (snapshot : GraphSnapshot) (path folded : Text) : Prop :=
  ∃ row ∈ snapshot.tags,row.notePath = path ∧ row.tagFolded = folded

theorem noteHasTag_iff {path folded : Text} :
    noteHasTag (buildMaps snapshot) path folded = true ↔ Tagged snapshot path folded := by
  rw [noteHasTag,tagsOf_buildMaps]
  simp [Tagged]

theorem foldeds_nodup (path : Text) :
    (((buildMaps snapshot).tagsOf path).map Prod.snd).Nodup := by
  rw [tagsOf_buildMaps,List.map_map]
  have rows := snapshot.tags_distinct.of_map
  apply List.Nodup.map_on
  · intro a first b second same
    have keys := snapshot.tags_distinct
    have pathA := List.mem_filter.mp first
    have pathB := List.mem_filter.mp second
    have here : a.notePath = b.notePath :=
      (of_decide_eq_true pathA.2).trans (of_decide_eq_true pathB.2).symm
    exact List.inj_on_of_nodup_map keys pathA.1 pathB.1 (Prod.ext here same)
  · exact rows.filter _

end Tags

theorem mem_addTo (d : Dict Text (Finset Text)) (key value other x : Text) :
    x ∈ ((addTo d key value).find other).getD ∅ ↔
      (other = key ∧ x = value) ∨ x ∈ (d.find other).getD ∅ := by
  rw [addTo,Dict.find_set]
  by_cases same : other = key
  · simp [same]
  · simp [same]

theorem noteAdjacency_spec (snapshot : GraphSnapshot) (notes : Finset Text) (a b : Text) :
    (b ∈ ((noteAdjacency snapshot notes).1.find a).getD ∅ ↔
      ∃ row ∈ snapshot.links,row.sourcePath = a ∧ neighbourOf notes row = some b) ∧
    (a ∈ ((noteAdjacency snapshot notes).2.find b).getD ∅ ↔
      ∃ row ∈ snapshot.links,row.sourcePath = a ∧ neighbourOf notes row = some b) := by
  have run : ∀ (rows : List GraphLinkRow)
      (maps : Dict Text (Finset Text) × Dict Text (Finset Text)),
      let found := rows.foldl (fun maps row =>
        (neighbourOf notes row).elim maps fun target =>
          (addTo maps.1 row.sourcePath target,addTo maps.2 target row.sourcePath)) maps
      (b ∈ (found.1.find a).getD ∅ ↔ b ∈ (maps.1.find a).getD ∅ ∨
        ∃ row ∈ rows,row.sourcePath = a ∧ neighbourOf notes row = some b) ∧
      (a ∈ (found.2.find b).getD ∅ ↔ a ∈ (maps.2.find b).getD ∅ ∨
        ∃ row ∈ rows,row.sourcePath = a ∧ neighbourOf notes row = some b) := by
    intro rows
    induction rows with
    | nil => simp
    | cons row rest ih =>
      intro maps
      simp only [List.foldl_cons]
      obtain ⟨forward,backward⟩ := ih ((neighbourOf notes row).elim maps fun target =>
        (addTo maps.1 row.sourcePath target,addTo maps.2 target row.sourcePath))
      cases leads : neighbourOf notes row with
      | none =>
        simp only [leads,Option.elim_none] at forward backward ⊢
        rw [forward,backward]
        simp [leads]
      | some target =>
        simp only [leads,Option.elim_some] at forward backward ⊢
        rw [forward,backward,mem_addTo,mem_addTo]
        simp only [List.exists_mem_cons_iff,leads,Option.some.injEq]
        constructor
        · grind
        · grind
  have whole := run snapshot.links ([],[])
  simpa [noteAdjacency] using whole

/-! ### The notes of a scope -/

section Scopes

variable [Host] {Score : Type} (semantics : Semantics Score) (snapshot : GraphSnapshot)

def Linked (direction : Direction) (a b : Text) : Prop :=
  ∃ row ∈ snapshot.links,row.kind ≠ webKind ∧ a ≠ b ∧ a ∈ snapshot.paths ∧ b ∈ snapshot.paths ∧
    ((direction ≠ .incoming ∧ row.sourcePath = a ∧ row.resolvedPath = some b) ∨
      (direction ≠ .outgoing ∧ row.sourcePath = b ∧ row.resolvedPath = some a))

def SemanticNeighbour (root : Text) (includeSemantic : Bool) (path : Text) : Prop :=
  path ∈ snapshot.paths ∧
    ∃ edge ∈ (semanticProjection semantics (semanticCandidates snapshot root) includeSemantic).1,
      (edge.source = noteId root ∧ edge.target = noteId path) ∨
        (edge.target = noteId root ∧ edge.source = noteId path)

/-- The notes that a scope means. -/
def InScope (scope : Scope) (includeSemantic : Bool) (path : Text) : Prop :=
  match scope with
  | .global word =>
    path ∈ snapshot.paths ∧ ∀ w ∈ word,Tagged snapshot path (Host.casefold w)
  | .around root depth direction word =>
    (Levels.Within (Linked snapshot direction) depth root path ∨
      SemanticNeighbour semantics snapshot root includeSemantic path) ∧
      ∀ w ∈ word,path = root ∨ Tagged snapshot path (Host.casefold w)
  | .tag word => Tagged snapshot path (Host.casefold word)

variable {snapshot}

omit [Host] in
theorem neighbourOf_iff {notes : Finset Text} {row : GraphLinkRow} {target : Text} :
    neighbourOf notes row = some target ↔ row.kind ≠ webKind ∧ row.resolvedPath = some target ∧
      row.sourcePath ≠ target ∧ row.sourcePath ∈ notes ∧ target ∈ notes := by
  rw [neighbourOf]
  split
  · next web => simp [web]
  · next other => simp [other,Option.filter_eq_some_iff]

omit [Host] in
theorem mem_neighbours {direction : Direction} {a b : Text} :
    b ∈ neighbours direction (noteAdjacency snapshot snapshot.paths) a ↔
      Linked snapshot direction a b := by
  have forward := (noteAdjacency_spec snapshot snapshot.paths a b).1
  have backward := (noteAdjacency_spec snapshot snapshot.paths b a).2
  simp only [neighbourOf_iff] at forward backward
  rw [neighbours,Finset.mem_union,Linked]
  constructor
  · rintro (out | back)
    · split at out
      · next goes =>
        obtain ⟨row,member,rfl,kind,resolved,apart,inA,inB⟩ := forward.mp out
        exact ⟨row,member,kind,apart,inA,inB,.inl ⟨goes,rfl,resolved⟩⟩
      · cases out
    · split at back
      · next goes =>
        obtain ⟨row,member,rfl,kind,resolved,apart,inB,inA⟩ := backward.mp back
        exact ⟨row,member,kind,apart.symm,inA,inB,.inr ⟨goes,rfl,resolved⟩⟩
      · cases back
  · rintro ⟨row,member,kind,apart,inA,inB,⟨goes,rfl,resolved⟩ | ⟨goes,rfl,resolved⟩⟩
    · left
      rw [if_pos goes]
      exact forward.mpr ⟨row,member,rfl,kind,resolved,apart,inA,inB⟩
    · right
      rw [if_pos goes]
      exact backward.mpr ⟨row,member,rfl,kind,resolved,apart.symm,inB,inA⟩

theorem mem_matched {root path : Text} {word : Option Text} {visited : Finset Text} :
    path ∈ matched (buildMaps snapshot) root (word.map Host.casefold) visited ↔
      path ∈ visited ∧ ∀ w ∈ word,path = root ∨ Tagged snapshot path (Host.casefold w) := by
  cases word with
  | none => simp [matched]
  | some w => simp [matched,noteHasTag_iff]

variable {semantics}

omit [Host] in
theorem mem_semanticPaths {root path : Text} {includeSemantic : Bool} :
    path ∈ semanticPaths snapshot root
      (semanticProjection semantics (semanticCandidates snapshot root) includeSemantic).1 ↔
        SemanticNeighbour semantics snapshot root includeSemantic path := by
  rw [semanticPaths,SemanticNeighbour]
  simp only [Finset.mem_filter,List.mem_map,List.mem_filter,decide_eq_true_eq]
  constructor
  · rintro ⟨inside,edge,⟨member,joins⟩,other⟩
    refine ⟨inside,edge,member,?_⟩
    split at other
    · next source => exact .inl ⟨source,other⟩
    · next source => exact .inr ⟨joins.resolve_left source,other⟩
  · rintro ⟨inside,edge,member,⟨source,target⟩ | ⟨target,source⟩⟩
    · exact ⟨inside,edge,⟨member,.inl source⟩,by rw [if_pos source,target]⟩
    · refine ⟨inside,edge,⟨member,.inr target⟩,?_⟩
      split
      · next same => rw [target,← same,source]
      · exact source

theorem mem_notePathsOf {scope : Scope} {includeSemantic : Bool} {path : Text} :
    path ∈ notePathsOf semantics snapshot scope includeSemantic ↔
      InScope semantics snapshot scope includeSemantic path := by
  cases scope with
  | global word =>
    cases word with
    | none => simp [notePathsOf,InScope]
    | some w => simp [notePathsOf,InScope,noteHasTag_iff]
  | tag word =>
    have named : noteHasTag (buildMaps snapshot) path (Host.casefold word) = true →
        path ∈ (buildMaps snapshot).tagsByNote.map Prod.fst := by
      intro has
      by_contra absent
      rw [noteHasTag,GraphMaps.tagsOf,Dict.find_absent absent] at has
      cases has
    simp only [notePathsOf,InScope,List.mem_toFinset,List.mem_filter]
    rw [← noteHasTag_iff]
    exact ⟨And.right,fun has => ⟨named has,has⟩⟩
  | around root depth direction word =>
    rw [notePathsOf,InScope,mem_matched,Finset.mem_union,mem_matched,mem_semanticPaths,
      Levels.mem_search_root,Levels.within_congr fun a b => mem_neighbours]
    tauto

end Scopes

/-! ### The nodes and edges of a scope -/

section Parts

variable [Host] {Score : Type} {snapshot : GraphSnapshot} {notePaths : Finset Text}
  {foldedFilter : Option Text} {includeBroken : Bool}

theorem sortFold_perm (texts : Finset Text) : (sortFold texts).Perm texts.toList :=
  (List.perm_insertionSort _ _).trans (Finset.sort_perm_toList _ _)

theorem mem_sortFold {texts : Finset Text} {text : Text} :
    text ∈ sortFold texts ↔ text ∈ texts := by
  rw [(sortFold_perm texts).mem_iff,Finset.mem_toList]

theorem sortFold_nodup (texts : Finset Text) : (sortFold texts).Nodup :=
  (sortFold_perm texts).nodup_iff.mpr (Finset.nodup_toList _)

theorem nodes_perm : ((scopeNodesAndEdges (buildMaps snapshot) snapshot notePaths foldedFilter
      includeBroken : List GraphNode × List (GraphEdge Score)).1).Perm
    ((sortFold notePaths).map (noteNode (buildMaps snapshot)) ++
      (sortFold (tagFoldeds (buildMaps snapshot) notePaths foldedFilter)).map
        (tagNode (buildMaps snapshot))) := List.perm_insertionSort _ _

omit [Host] in
theorem sortEdges_perm (edges : List (GraphEdge Score)) : (sortEdges edges).Perm edges :=
  List.perm_insertionSort _ _

theorem edges_perm : (scopeNodesAndEdges (buildMaps snapshot) snapshot notePaths foldedFilter
      includeBroken : List GraphNode × List (GraphEdge Score)).2.Perm
    ((sortFold notePaths).flatMap (fun path => (((buildMaps snapshot).tagsOf path).filter
      (·.2 ∈ tagFoldeds (buildMaps snapshot) notePaths foldedFilter)).map fun item =>
        tagEdge path item.2) ++ snapshot.links.filterMap (linkEdge notePaths includeBroken)) :=
  sortEdges_perm _

theorem nodes_distinct : ((scopeNodesAndEdges (buildMaps snapshot) snapshot notePaths foldedFilter
      includeBroken : List GraphNode × List (GraphEdge Score)).1.map GraphNode.id).Nodup := by
  rw [(nodes_perm.map GraphNode.id).nodup_iff,List.map_append,List.map_map,List.map_map]
  apply List.Nodup.append
  · exact (sortFold_nodup _).map noteId_injective
  · exact (sortFold_nodup _).map tagId_injective
  · intro id first second
    obtain ⟨path,_,rfl⟩ := List.mem_map.mp first
    obtain ⟨folded,_,same⟩ := List.mem_map.mp second
    exact noteId_ne_tagId path folded same.symm

theorem mem_note_nodes {path : Text} :
    (∃ node ∈ (scopeNodesAndEdges (buildMaps snapshot) snapshot notePaths foldedFilter
      includeBroken : List GraphNode × List (GraphEdge Score)).1,
        node.type = .note ∧ node.path = some path) ↔ path ∈ notePaths := by
  constructor
  · rintro ⟨node,member,type,named⟩
    rcases List.mem_append.mp (nodes_perm.mem_iff.mp member) with note | tag
    · obtain ⟨other,inside,rfl⟩ := List.mem_map.mp note
      have same : other = path := Option.some.inj named
      exact same ▸ mem_sortFold.mp inside
    · obtain ⟨folded,_,rfl⟩ := List.mem_map.mp tag
      cases type
  · intro inside
    refine ⟨noteNode (buildMaps snapshot) path,nodes_perm.mem_iff.mpr ?_,rfl,rfl⟩
    exact List.mem_append_left _ (List.mem_map_of_mem (mem_sortFold.mpr inside))

omit [Host] in
theorem linkEdge_spec {row : GraphLinkRow} {edge : GraphEdge Score}
    (found : linkEdge notePaths includeBroken row = some edge) :
    edge.id = linkEdgeId row.sourcePath row.seq ∧ edge.source = noteId row.sourcePath ∧
      ((edge.target = [] ∧ includeBroken = true ∧ row.sourcePath ∈ notePaths ∧
        row.kind ≠ webKind ∧ (∀ t,row.resolvedPath = some t → t ∉ notePaths) ∧
          (row.broken = true ∨ row.ambiguous = true)) ∨
        ∃ t ∈ notePaths,row.resolvedPath = some t ∧ edge.target = noteId t) := by
  rw [linkEdge] at found
  simp only at found
  split at found
  · cases found
  · next kept =>
    rw [not_or,not_not] at kept
    cases resolved : row.resolvedPath.filter (· ∈ notePaths) with
    | some t =>
      rw [resolved] at found
      obtain rfl := Option.some.inj found
      obtain ⟨there,inside⟩ := Option.filter_eq_some_iff.mp resolved
      exact ⟨rfl,rfl,.inr ⟨t,of_decide_eq_true inside,there,rfl⟩⟩
    | none =>
      rw [resolved] at found
      have outside : ∀ t,row.resolvedPath = some t → t ∉ notePaths := by
        intro t there inside
        rw [there,Option.filter_some_pos (by simpa using inside)] at resolved
        cases resolved
      simp only at found
      split at found
      · next broken =>
        split at found
        · next shown =>
          obtain rfl := Option.some.inj found
          exact ⟨rfl,rfl,.inl ⟨rfl,shown,kept.1,kept.2,outside,.inl broken⟩⟩
        · cases found
      · split at found
        · next ambiguous =>
          split at found
          · next shown =>
            obtain rfl := Option.some.inj found
            exact ⟨rfl,rfl,.inl ⟨rfl,shown,kept.1,kept.2,outside,.inr ambiguous⟩⟩
          · cases found
        · cases found

omit [Host] in
/-- An ambiguous link that leads out of the scope is an edge without a target. -/
theorem linkEdge_ambiguous {row : GraphLinkRow} (source : row.sourcePath ∈ notePaths)
    (kind : row.kind ≠ webKind) (outside : ∀ t,row.resolvedPath = some t → t ∉ notePaths)
    (whole : row.broken = false) (ambiguous : row.ambiguous = true) :
    ∃ edge : GraphEdge Score,linkEdge notePaths true row = some edge ∧ edge.target = [] := by
  have nowhere : row.resolvedPath.filter (· ∈ notePaths) = none := by
    cases there : row.resolvedPath with
    | none => rfl
    | some t => simp [outside t there]
  simp [linkEdge,source,kind,nowhere,whole,ambiguous]

omit [Host] in
theorem tagEdge_id (path folded : Text) :
    (tagEdge path folded : GraphEdge Score).id = tagEdgeId path folded := rfl

omit [Host] in
theorem head_ids (a b : Text) (seq : Int) : (tagEdgeId a b).head? = some 't' ∧
    (linkEdgeId a seq).head? = some 'l' ∧ (semanticEdgeId a b).head? = some 's' := ⟨rfl,rfl,rfl⟩

theorem tagEdges_distinct (maps : GraphMaps) (maps_eq : maps = buildMaps snapshot)
    (tags : Finset Text) :
    (((sortFold notePaths).flatMap fun path => ((maps.tagsOf path).filter (·.2 ∈ tags)).map
      fun item => (tagEdge path item.2 : GraphEdge Score)).map GraphEdge.id).Nodup := by
  subst maps_eq
  rw [List.map_flatMap,List.nodup_flatMap]
  constructor
  · intro path _
    rw [List.map_map]
    have foldeds : (((buildMaps snapshot).tagsOf path).filter (·.2 ∈ tags)).Nodup :=
      (foldeds_nodup path).of_map.filter _
    apply foldeds.map_on
    intro a first b second same
    exact List.inj_on_of_nodup_map (foldeds_nodup path) (List.mem_filter.mp first).1
      (List.mem_filter.mp second).1 (tagEdgeId_inj same).2
  · apply (sortFold_nodup notePaths).pairwise_of_forall_ne
    intro a _ b _ differs id first second
    simp only [List.map_map,List.mem_map] at first second
    obtain ⟨x,_,rfl⟩ := first
    obtain ⟨y,_,same⟩ := second
    exact differs (tagEdgeId_inj same).1.symm

omit [Host] in
theorem linkEdges_distinct : ((snapshot.links.filterMap (linkEdge notePaths includeBroken)).map
    (GraphEdge.id : GraphEdge Score → Text)).Nodup := by
  have rows : (snapshot.links.map fun row => linkEdgeId row.sourcePath row.seq).Nodup := by
    apply snapshot.links_distinct.of_map.map_on
    intro a first b second same
    obtain ⟨source,seq⟩ := linkEdgeId_inj same
    exact List.inj_on_of_nodup_map snapshot.links_distinct first second (Prod.ext source seq)
  have within : ∀ links : List GraphLinkRow,
      ((links.filterMap (linkEdge notePaths includeBroken)).map
        (GraphEdge.id : GraphEdge Score → Text)).Sublist
          (links.map fun row => linkEdgeId row.sourcePath row.seq) := by
    intro links
    induction links with
    | nil => exact List.Sublist.slnil
    | cons row rest ih =>
      cases found : (linkEdge notePaths includeBroken row : Option (GraphEdge Score)) with
      | none =>
        rw [List.filterMap_cons_none found,List.map_cons]
        exact ih.cons _
      | some edge =>
        rw [List.filterMap_cons_some found,List.map_cons,List.map_cons,(linkEdge_spec found).1]
        exact ih.cons_cons _
  exact rows.sublist (within snapshot.links)

omit [Host] in
theorem semantic_spec {semantics : Semantics Score} {paths : Finset Text} {wanted : Bool} :
    ((semanticProjection semantics paths wanted).1.map GraphEdge.id).Nodup ∧
      ∀ edge ∈ (semanticProjection semantics paths wanted).1,
        edge.target ≠ [] ∧ ∃ a b,edge.id = semanticEdgeId a b := by
  unfold semanticProjection
  split
  · simp
  · split
    · simp
    · next neighbors found =>
      have ids : ∀ (row : Text × List (Text × Score)) (item : Text × Score),row.1 < item.1 →
          (semanticEdge semantics.round row.1 item).id = semanticEdgeId row.1 item.1 := by
        intro row item less
        rw [semanticEdge,min_eq_left less.le,max_eq_right less.le]
      constructor
      · rw [semanticEdges,List.map_flatMap,List.nodup_flatMap]
        constructor
        · intro row member
          rw [List.map_map]
          have ranked := semantics.ranked_distinct paths neighbors found row member
          apply (ranked.of_map.filter _).map_on
          intro x first y second same
          obtain ⟨inX,lessX⟩ := List.mem_filter.mp first
          obtain ⟨inY,lessY⟩ := List.mem_filter.mp second
          rw [Function.comp_apply,Function.comp_apply,ids row x (of_decide_eq_true lessX).1,
            ids row y (of_decide_eq_true lessY).1] at same
          exact List.inj_on_of_nodup_map ranked inX inY (semanticEdgeId_inj same).2
        · have names := semantics.names_distinct paths neighbors found
          apply names.of_map.pairwise_of_forall_ne
          intro a inA b inB differs id first second
          simp only [List.map_map,List.mem_map,List.mem_filter] at first second
          obtain ⟨x,⟨_,lessX⟩,rfl⟩ := first
          obtain ⟨y,⟨_,lessY⟩,same⟩ := second
          rw [Function.comp_apply,Function.comp_apply,ids a x (of_decide_eq_true lessX).1,
            ids b y (of_decide_eq_true lessY).1] at same
          exact differs (List.inj_on_of_nodup_map names inA inB (semanticEdgeId_inj same).1.symm)
      · intro edge member
        obtain ⟨row,_,inside⟩ := List.mem_flatMap.mp member
        obtain ⟨item,_,rfl⟩ := List.mem_map.mp inside
        exact ⟨by simp [semanticEdge,noteId],_,_,rfl⟩

end Parts

/-! ### Responses -/

section Responses

variable {Score : Type}

/-- A response names everything once, joins only what it shows, and leaves a target open only where
the index knows of none. -/
structure Truthful (snapshot : GraphSnapshot) (response : GraphResponse Score) : Prop where
  nodes_distinct : (response.nodes.map GraphNode.id).Nodup
  edges_distinct : (response.edges.map GraphEdge.id).Nodup
  source_mem : ∀ edge ∈ response.edges,edge.source ∈ response.nodes.map GraphNode.id
  target_mem : ∀ edge ∈ response.edges,edge.target ≠ [] →
    edge.target ∈ response.nodes.map GraphNode.id
  open_ : ∀ edge ∈ response.edges,edge.target = [] → ∃ row ∈ snapshot.links,
    edge.id = linkEdgeId row.sourcePath row.seq ∧ (row.broken = true ∨
      row.ambiguous = true ∧ ∀ target,row.resolvedPath = some target → target ∉ snapshot.paths)

variable [Host] {semantics : Semantics Score} {snapshot : GraphSnapshot} {scope : Scope}
  {includeBroken includeSemantic : Bool}

theorem candidates_distinct : ((candidatesOf semantics snapshot scope includeBroken
    includeSemantic).2.map GraphEdge.id).Nodup := by
  have semantic : ((semanticOf semantics snapshot scope includeSemantic).1.map
      GraphEdge.id).Nodup ∧ ∀ edge ∈ (semanticOf semantics snapshot scope includeSemantic).1,
        edge.target ≠ [] ∧ ∃ a b,edge.id = semanticEdgeId a b := by
    cases scope <;> exact semantic_spec
  rw [candidatesOf,List.map_append]
  apply List.Nodup.append
  · rw [(edges_perm.map GraphEdge.id).nodup_iff,List.map_append]
    apply List.Nodup.append (tagEdges_distinct _ rfl _) linkEdges_distinct
    intro id first second
    simp only [List.mem_map,List.mem_flatMap,List.mem_filterMap] at first second
    obtain ⟨_,⟨path,_,item,_,rfl⟩,rfl⟩ := first
    obtain ⟨edge,⟨row,_,found⟩,same⟩ := second
    rw [(linkEdge_spec found).1,tagEdge_id] at same
    have heads := congrArg List.head? same
    rw [(head_ids row.sourcePath [] row.seq).2.1,(head_ids path item.2 0).1] at heads
    cases heads
  · exact semantic.1.sublist (List.filter_sublist.map _)
  · intro id first second
    obtain ⟨edge,member,rfl⟩ := List.mem_map.mp second
    obtain ⟨_,a,b,name⟩ := semantic.2 edge (List.mem_filter.mp member).1
    obtain ⟨other,inside,same⟩ := List.mem_map.mp first
    rw [name] at same
    have heads := congrArg List.head? same
    rw [(head_ids a b 0).2.2] at heads
    rcases List.mem_append.mp (edges_perm.mem_iff.mp inside) with tag | link
    · simp only [List.mem_map,List.mem_flatMap] at tag
      obtain ⟨path,_,item,_,rfl⟩ := tag
      rw [tagEdge_id,(head_ids path item.2 0).1] at heads
      cases heads
    · obtain ⟨row,_,found⟩ := List.mem_filterMap.mp link
      rw [(linkEdge_spec found).1,(head_ids row.sourcePath [] row.seq).2.1] at heads
      cases heads

theorem exists_row {edge : GraphEdge Score} (member : edge ∈ (candidatesOf semantics snapshot scope
    includeBroken includeSemantic).2) (open_ : edge.target = []) : ∃ row ∈ snapshot.links,
      linkEdge (notePathsOf semantics snapshot scope includeSemantic) includeBroken row =
        some edge := by
  rcases List.mem_append.mp member with own | semantic
  · rcases List.mem_append.mp (edges_perm.mem_iff.mp own) with tag | link
    · simp only [List.mem_map,List.mem_flatMap] at tag
      obtain ⟨path,_,item,_,rfl⟩ := tag
      cases open_
    · exact List.mem_filterMap.mp link
  · have inside := (List.mem_filter.mp semantic).1
    have target : edge.target ≠ [] := by
      cases scope <;> exact (semantic_spec.2 edge inside).1
    exact absurd open_ target

theorem graph_spec {request : Request} {maxEdges now : Nat} {response : GraphResponse Score}
    (answer : graph semantics snapshot scope request maxEdges now = .ok response) :
    response.nodes = ((candidatesOf semantics snapshot scope request.includeBroken
      request.includeSemantic).1.drop request.offset).take request.limit ∧
    response.edges = ((sortEdges (candidatesOf semantics snapshot scope request.includeBroken
      request.includeSemantic).2).filter fun edge =>
        edge.source ∈ response.nodes.map GraphNode.id ∧
          (edge.target = [] ∨ edge.target ∈ response.nodes.map GraphNode.id)).take maxEdges := by
  unfold graph at answer
  split at answer
  · cases answer
  · obtain rfl := Except.ok.inj answer
    exact ⟨rfl,rfl⟩

/-- The link leads to a note outside of the scope, and the index could not tell which note is
meant. -/
def Slips (semantics : Semantics Score) (snapshot : GraphSnapshot) (scope : Scope)
    (includeSemantic : Bool) (row : GraphLinkRow) : Prop :=
  row.kind ≠ webKind ∧ row.broken = false ∧ row.ambiguous = true ∧
    InScope semantics snapshot scope includeSemantic row.sourcePath ∧
    ∃ target,row.resolvedPath = some target ∧ target ∈ snapshot.paths ∧
      ¬InScope semantics snapshot scope includeSemantic target

theorem truthful_of_graph {request : Request} {maxEdges now : Nat}
    {response : GraphResponse Score}
    (answer : graph semantics snapshot scope request maxEdges now = .ok response)
    (fits : ¬(request.includeBroken = true ∧ ∃ row ∈ snapshot.links,
      Slips semantics snapshot scope request.includeSemantic row)) :
    Truthful snapshot response := by
  obtain ⟨nodes,edges⟩ := graph_spec answer
  have member : ∀ edge ∈ response.edges,edge ∈ (candidatesOf semantics snapshot scope
      request.includeBroken request.includeSemantic).2 ∧
      edge.source ∈ response.nodes.map GraphNode.id ∧
        (edge.target = [] ∨ edge.target ∈ response.nodes.map GraphNode.id) := by
    intro edge inside
    rw [edges] at inside
    obtain ⟨there,kept⟩ := List.mem_filter.mp (List.mem_of_mem_take inside)
    exact ⟨(sortEdges_perm _).mem_iff.mp there,of_decide_eq_true kept⟩
  constructor
  · have whole := @nodes_distinct _ Score snapshot
      (notePathsOf semantics snapshot scope request.includeSemantic) scope.foldedFilter
        request.includeBroken
    rw [nodes]
    exact whole.sublist
      (((List.take_sublist _ _).trans (List.drop_sublist _ _)).map GraphNode.id)
  · have whole := @candidates_distinct _ _ semantics snapshot scope request.includeBroken
      request.includeSemantic
    rw [← ((sortEdges_perm _).map GraphEdge.id).nodup_iff] at whole
    rw [edges]
    exact whole.sublist
      (((List.take_sublist _ _).trans List.filter_sublist).map GraphEdge.id)
  · exact fun edge inside => (member edge inside).2.1
  · exact fun edge inside some_ => (member edge inside).2.2.resolve_left some_
  · intro edge inside open_
    obtain ⟨row,listed,found⟩ := exists_row (member edge inside).1 open_
    obtain ⟨name,_,⟨_,shown,source,kind,outside,reason⟩ | ⟨t,_,_,target⟩⟩ := linkEdge_spec found
    · refine ⟨row,listed,name,?_⟩
      cases broken : row.broken with
      | true => exact .inl rfl
      | false =>
        have ambiguous : row.ambiguous = true := reason.resolve_left (by simp [broken])
        refine .inr ⟨ambiguous,fun target resolved known => fits ⟨shown,row,listed,kind,broken,
          ambiguous,mem_notePathsOf.mp source,target,resolved,known,fun inScope => ?_⟩⟩
        exact outside target resolved (mem_notePathsOf.mpr inScope)
    · rw [open_] at target
      cases target

theorem exists_response (answered : missing snapshot scope = none) (includeSemantic : Bool) :
    ∃ response,graph semantics snapshot scope
      ⟨(candidatesOf semantics snapshot scope includeBroken includeSemantic).1.length,0,
        includeBroken,includeSemantic⟩
      (candidatesOf semantics snapshot scope includeBroken includeSemantic).2.length 0 =
        .ok response ∧
      ∀ edge ∈ (candidatesOf semantics snapshot scope includeBroken includeSemantic).2,
        edge.source ∈ (candidatesOf semantics snapshot scope includeBroken
          includeSemantic).1.map GraphNode.id → edge.target = [] → edge ∈ response.edges := by
  obtain ⟨response,answer⟩ : ∃ response,graph semantics snapshot scope
      ⟨(candidatesOf semantics snapshot scope includeBroken includeSemantic).1.length,0,
        includeBroken,includeSemantic⟩
      (candidatesOf semantics snapshot scope includeBroken includeSemantic).2.length 0 =
        .ok response := by
    unfold graph
    rw [answered]
    exact ⟨_,rfl⟩
  refine ⟨response,answer,fun edge member source open_ => ?_⟩
  obtain ⟨nodes,edges⟩ := graph_spec answer
  rw [List.drop_zero,List.take_length] at nodes
  rw [edges,List.take_of_length_le]
  · rw [List.mem_filter,(sortEdges_perm _).mem_iff,nodes]
    exact ⟨member,decide_eq_true ⟨source,.inl open_⟩⟩
  · exact (List.length_filter_le _ _).trans (sortEdges_perm _).length_eq.le

theorem not_slips_of_truthful (answered : missing snapshot scope = none)
    (all : ∀ limit offset maxEdges now response,
      graph semantics snapshot scope ⟨limit,offset,true,includeSemantic⟩ maxEdges now =
        .ok response → Truthful snapshot response)
    {row : GraphLinkRow} (listed : row ∈ snapshot.links) :
    ¬Slips semantics snapshot scope includeSemantic row := by
  rintro ⟨kind,whole,ambiguous,source,target,resolved,known,outside⟩
  have inside := (@mem_notePathsOf _ _ semantics snapshot scope includeSemantic _).mpr source
  have leaves : ∀ t,row.resolvedPath = some t →
      t ∉ notePathsOf semantics snapshot scope includeSemantic := by
    intro t there within
    obtain rfl := Option.some.inj (resolved.symm.trans there)
    exact outside (mem_notePathsOf.mp within)
  obtain ⟨edge,found,open_⟩ := @linkEdge_ambiguous Score _ row inside kind leaves whole ambiguous
  obtain ⟨response,answer,member⟩ := exists_response answered includeSemantic
  have listed' : edge ∈ (candidatesOf semantics snapshot scope true includeSemantic).2 :=
    List.mem_append_left _
      (edges_perm.mem_iff.mpr (List.mem_append_right _ (List.mem_filterMap.mpr ⟨row,listed,found⟩)))
  have shown : edge.source ∈
      (candidatesOf semantics snapshot scope true includeSemantic).1.map GraphNode.id := by
    rw [(linkEdge_spec found).2.1]
    have node : noteNode (buildMaps snapshot) row.sourcePath ∈
        (candidatesOf semantics snapshot scope true includeSemantic).1 :=
      (@nodes_perm _ Score snapshot _ scope.foldedFilter true).mem_iff.mpr
        (List.mem_append_left _ (List.mem_map_of_mem (mem_sortFold.mpr inside)))
    exact List.mem_map_of_mem node
  obtain ⟨row',there,name,reason⟩ :=
    (all _ _ _ _ response answer).open_ edge (member edge listed' shown open_) open_
  rw [(linkEdge_spec found).1] at name
  obtain ⟨same,same'⟩ := linkEdgeId_inj name
  obtain rfl := List.inj_on_of_nodup_map snapshot.links_distinct listed there
    (Prod.ext same same')
  rcases reason with broken | ⟨_,unknown⟩
  · cases whole.symm.trans broken
  · exact unknown target resolved known

/-- Every response of a scope is truthful, and its note nodes are the notes of the scope, iff broken
links are left out or no ambiguous link leads from the scope to a note outside of it. -/
theorem truthful_iff (semantics : Semantics Score) (snapshot : GraphSnapshot) (scope : Scope)
    (includeBroken includeSemantic : Bool) (answered : missing snapshot scope = none) :
    ((∀ limit offset maxEdges now response,
        graph semantics snapshot scope ⟨limit,offset,includeBroken,includeSemantic⟩ maxEdges now =
          .ok response → Truthful snapshot response) ∧
      ∀ path,(∃ node ∈ (candidatesOf semantics snapshot scope includeBroken includeSemantic).1,
        node.type = .note ∧ node.path = some path) ↔
          InScope semantics snapshot scope includeSemantic path) ↔
    ¬(includeBroken = true ∧
      ∃ row ∈ snapshot.links,Slips semantics snapshot scope includeSemantic row) := by
  constructor
  · rintro ⟨all,_⟩ ⟨rfl,row,listed,slips⟩
    exact not_slips_of_truthful answered all listed slips
  · intro fits
    refine ⟨fun limit offset maxEdges now response answer => truthful_of_graph answer fits,
      fun path => ?_⟩
    rw [← mem_notePathsOf]
    exact @mem_note_nodes _ Score snapshot _ scope.foldedFilter includeBroken path

end Responses

section Example

open scoped AsciiHost

instance (snapshot : GraphSnapshot) (path folded : Text) :
    Decidable (Tagged snapshot path folded) := by
  unfold Tagged
  infer_instance

def noNeighbors (_ : Finset Text) : Except SemanticStatus (Dict Text (List (Text × Unit))) :=
  .error .unavailable

theorem noNeighbors_names (paths : Finset Text) (found : Dict Text (List (Text × Unit)))
    (ready : noNeighbors paths = .ok found) : (found.map Prod.fst).Nodup := by
  cases ready

theorem noNeighbors_ranked (paths : Finset Text) (found : Dict Text (List (Text × Unit)))
    (ready : noNeighbors paths = .ok found) : ∀ row ∈ found,(row.2.map Prod.fst).Nodup := by
  cases ready

def noSemantics : Semantics Unit where
  neighbors := noNeighbors
  round := id
  names_distinct := noNeighbors_names
  ranked_distinct := noNeighbors_ranked

def aNote : Text := "a.md".toList

def anotherNote : Text := "x/b.md".toList

def ambiguousLink : GraphLinkRow :=
  {sourcePath := aNote
   seq := 0
   target := "b".toList
   raw := "[[b]]".toList
   kind := "wikilink".toList
   resolvedPath := some anotherNote
   ambiguous := true
   candidates := [anotherNote,"y/b.md".toList]}

def someNotes : List GraphNoteRow :=
  [⟨aNote,"a".toList,"a".toList⟩,⟨anotherNote,"b".toList,"b".toList⟩]

def someTags : List GraphTagRow := [⟨aNote,"t".toList,"t".toList,0⟩]

theorem someNotes_distinct : (someNotes.map GraphNoteRow.path).Nodup := by decide

theorem someTags_distinct :
    (someTags.map fun row => (row.notePath,row.tagFolded)).Nodup := by decide

theorem someLinks_distinct :
    ([ambiguousLink].map fun row => (row.sourcePath,row.seq)).Nodup := by decide

def someSnapshot : GraphSnapshot :=
  ⟨someNotes,someTags,[ambiguousLink],someNotes_distinct,someTags_distinct,someLinks_distinct⟩

def aroundNote : Scope := .around aNote 1 .outgoing none

theorem aroundNote_truthful :
    (∀ limit offset maxEdges now response,
      graph noSemantics someSnapshot aroundNote ⟨limit,offset,true,true⟩ maxEdges now =
        .ok response → Truthful someSnapshot response) ∧
    ∀ path,(∃ node ∈ (candidatesOf noSemantics someSnapshot aroundNote true true).1,
      node.type = .note ∧ node.path = some path) ↔
        InScope noSemantics someSnapshot aroundNote true path := by
  have linked : Linked someSnapshot .outgoing aNote anotherNote :=
    ⟨ambiguousLink,List.mem_singleton_self _,by decide,by decide,by decide,by decide,
      .inl ⟨by decide,rfl,rfl⟩⟩
  apply (truthful_iff noSemantics someSnapshot aroundNote true true (by decide)).mpr
  rintro ⟨_,row,listed,_,_,_,_,target,resolved,_,outside⟩
  obtain rfl := List.mem_singleton.mp listed
  obtain rfl := Option.some.inj resolved
  exact outside ⟨.inl (.step linked .here),nofun⟩

/-- The notes with a tag: the link leads to a note without it, and is shown without a target. -/
theorem tagged_not_truthful : ¬∀ (snapshot : GraphSnapshot) (scope : Scope)
    (limit offset maxEdges now : Nat) (response : GraphResponse Unit),
      graph noSemantics snapshot scope ⟨limit,offset,true,true⟩ maxEdges now = .ok response →
        Truthful snapshot response := by
  intro every
  have slips : Slips noSemantics someSnapshot (.tag "t".toList) true ambiguousLink :=
    ⟨by decide,rfl,rfl,show Tagged _ _ _ by decide,anotherNote,rfl,by decide,
      show ¬Tagged _ _ _ by decide⟩
  exact not_slips_of_truthful (by decide) (every someSnapshot (.tag "t".toList))
    (List.mem_singleton_self _) slips

end Example

end LocalBook.Graph
