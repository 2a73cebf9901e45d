import LocalBook.Rag.Linking

/-! What link retrieval depends on: the sets of seeds and of rows, and not their order, as long as
no cap on the notes of a tag takes hold. -/
namespace LocalBook.Rag.Link

/-! ### Buckets -/

theorem bucket_append (d : Dict Text (List Text)) (key value other : Text) :
    bucket (append d key value) other =
      if other = key then bucket d key ++ [value] else bucket d other := by
  simp only [bucket,append,Dict.find_set]
  split <;> rfl

theorem mem_bucket_append (d : Dict Text (List Text)) (key value other x : Text) :
    x ∈ bucket (append d key value) other ↔ x ∈ bucket d other ∨ key = other ∧ value = x := by
  rw [bucket_append]
  split
  · next same => simp [same,eq_comm]
  · next differs => simp [Ne.symm differs]

theorem mem_bucket_appendNew (d : Dict Text (List Text)) (key value other x : Text) :
    x ∈ bucket (appendNew d key value) other ↔ x ∈ bucket d other ∨ key = other ∧ value = x := by
  unfold appendNew
  split
  · next there =>
    constructor
    · exact .inl
    · rintro (old | ⟨rfl,rfl⟩)
      · exact old
      · exact there
  · exact mem_bucket_append d key value other x

theorem nodup_bucket_appendNew {d : Dict Text (List Text)}
    (distinct : ∀ other,(bucket d other).Nodup) (key value other : Text) :
    (bucket (appendNew d key value) other).Nodup := by
  unfold appendNew
  split
  · exact distinct other
  · next fresh =>
    rw [bucket_append]
    split
    · simpa using List.Nodup.concat fresh (distinct key)
    · exact distinct other

section Rows

variable {ρ : Type} (key value : ρ → Text)

theorem mem_bucket_rows (rows : List ρ) (d : Dict Text (List Text)) (other x : Text) :
    x ∈ bucket (rows.foldl (fun d row => appendNew d (key row) (value row)) d) other ↔
      x ∈ bucket d other ∨ ∃ row ∈ rows,key row = other ∧ value row = x := by
  induction rows generalizing d with
  | nil => simp
  | cons row rest ih => simp [ih,mem_bucket_appendNew,or_assoc]

theorem nodup_bucket_rows (rows : List ρ) {d : Dict Text (List Text)}
    (distinct : ∀ other,(bucket d other).Nodup) (other : Text) :
    (bucket (rows.foldl (fun d row => appendNew d (key row) (value row)) d) other).Nodup := by
  induction rows generalizing d with
  | nil => exact distinct other
  | cons row rest ih => exact ih fun x => nodup_bucket_appendNew distinct (key row) (value row) x

end Rows

/-! ### The graph of the rows -/

def Edge (snapshot : GraphSnapshot) (a b : Text) : Prop :=
  ∃ link ∈ snapshot.links,edgeOf snapshot.notes link = some (a,b)

def Carries (snapshot : GraphSnapshot) (note tag : Text) : Prop :=
  ⟨note,tag⟩ ∈ snapshot.tags

theorem edgeOf_eq_some {notes : List Text} {link : GraphLinkRow} {a b : Text} :
    edgeOf notes link = some (a,b) ↔ link.sourcePath = a ∧ link.resolvedPath = some b ∧
      link.broken = false ∧ b ≠ [] ∧ a ≠ b ∧ b ∈ notes := by
  unfold edgeOf
  cases found : link.resolvedPath with
  | none => simp
  | some target => grind

structure Edges.Sound (edges : Edges) : Prop where
  outgoing : ∀ a b,b ∈ bucket edges.outgoing a ↔ (a,b) ∈ edges.seenEdges
  incoming : ∀ a b,a ∈ bucket edges.incoming b ↔ (a,b) ∈ edges.seenEdges

theorem Edges.Sound.add {edges : Edges} (sound : edges.Sound) (notes : List Text)
    (link : GraphLinkRow) : (edges.add notes link).Sound := by
  unfold Edges.add
  cases edgeOf notes link with
  | none => exact sound
  | some edge =>
    rw [Option.elim_some]
    split
    · exact sound
    · constructor
      · intro a b
        simp [Edges.insert,mem_bucket_append,sound.outgoing,Prod.ext_iff,eq_comm]
      · intro a b
        simp [Edges.insert,mem_bucket_append,sound.incoming,Prod.ext_iff,eq_comm,and_comm]

theorem Edges.sound_foldl {edges : Edges} (sound : edges.Sound) (notes : List Text)
    (links : List GraphLinkRow) : (links.foldl (Edges.add notes) edges).Sound := by
  induction links generalizing edges with
  | nil => exact sound
  | cons link rest ih => exact ih (sound.add notes link)

theorem mem_seenEdges (notes : List Text) (links : List GraphLinkRow) (edges : Edges)
    (edge : Text × Text) : edge ∈ (links.foldl (Edges.add notes) edges).seenEdges ↔
      edge ∈ edges.seenEdges ∨ ∃ link ∈ links,edgeOf notes link = some edge := by
  induction links generalizing edges with
  | nil => simp
  | cons link rest ih =>
    rw [List.foldl_cons,ih]
    have here : edge ∈ (edges.add notes link).seenEdges ↔
        edge ∈ edges.seenEdges ∨ edgeOf notes link = some edge := by
      unfold Edges.add
      cases edgeOf notes link with
      | none => simp
      | some first =>
        rw [Option.elim_some]
        split
        · next seen =>
          rw [List.contains_iff_mem] at seen
          grind
        · simp [Edges.insert,eq_comm]
    rw [here]
    simp [or_assoc]

theorem sound_start : Edges.Sound {} where
  outgoing := by simp [bucket]
  incoming := by simp [bucket]

section View

variable {snapshot : GraphSnapshot}

theorem mem_outgoing (a b : Text) :
    b ∈ bucket (buildGraphView snapshot).outgoing a ↔ Edge snapshot a b := by
  have sound := Edges.sound_foldl sound_start snapshot.notes snapshot.links
  simp [buildGraphView,sound.outgoing,mem_seenEdges,Edge]

theorem mem_incoming (a b : Text) :
    a ∈ bucket (buildGraphView snapshot).incoming b ↔ Edge snapshot a b := by
  have sound := Edges.sound_foldl sound_start snapshot.notes snapshot.links
  simp [buildGraphView,sound.incoming,mem_seenEdges,Edge]

theorem mem_tags (note tag : Text) :
    tag ∈ bucket (buildGraphView snapshot).tags note ↔ Carries snapshot note tag := by
  simp only [buildGraphView,mem_bucket_rows GraphTagRow.notePath GraphTagRow.tagFolded]
  constructor
  · rintro (none_ | ⟨row,member,rfl,rfl⟩)
    · simp [bucket] at none_
    · exact member
  · exact fun member => .inr ⟨_,member,rfl,rfl⟩

theorem mem_tagIndex (note tag : Text) :
    note ∈ bucket (buildGraphView snapshot).tagIndex tag ↔ Carries snapshot note tag := by
  simp only [buildGraphView,mem_bucket_rows GraphTagRow.tagFolded GraphTagRow.notePath]
  constructor
  · rintro (none_ | ⟨row,member,rfl,rfl⟩)
    · simp [bucket] at none_
    · exact member
  · exact fun member => .inr ⟨_,member,rfl,rfl⟩

theorem nodup_tagIndex (tag : Text) : (bucket (buildGraphView snapshot).tagIndex tag).Nodup :=
  nodup_bucket_rows _ _ snapshot.tags (fun _ => by simp [bucket]) tag

end View

/-! ### What connects a note to a seed -/

def Near (snapshot : GraphSnapshot) (a b : Text) : Prop := Edge snapshot a b ∨ Edge snapshot b a

def TwoHops (snapshot : GraphSnapshot) (seed path : Text) : Prop :=
  (∃ hop,Near snapshot seed hop ∧ Near snapshot hop path) ∧ ¬Near snapshot seed path ∧
    path ≠ seed

def SharesTag (r : LinkRetriever) (snapshot : GraphSnapshot) (seeds : List Text)
    (seed path : Text) : Prop :=
  ∃ tag,Carries snapshot seed tag ∧ path ∈ r.neighbours (buildGraphView snapshot) seeds tag

def Linked (r : LinkRetriever) (snapshot : GraphSnapshot) (seeds : List Text) (signal : Signal)
    (seed path : Text) : Prop :=
  match signal with
  | .wikilink => Edge snapshot seed path
  | .backlink => Edge snapshot path seed
  | .tag => SharesTag r snapshot seeds seed path
  | .graph => 0 < r.weight .graph ∧ TwoHops snapshot seed path

section Calls

variable {r : LinkRetriever} {snapshot : GraphSnapshot} {seeds : List Text}

theorem not_near_self (a : Text) : ¬Near snapshot a a := by
  rintro (⟨link,_,edge⟩ | ⟨link,_,edge⟩)
  · exact (edgeOf_eq_some.mp edge).2.2.2.2.1 rfl
  · exact (edgeOf_eq_some.mp edge).2.2.2.2.1 rfl

theorem mem_oneHop (seed path : Text) :
    path ∈ oneHop (buildGraphView snapshot) seed ↔ Near snapshot seed path := by
  simp only [oneHop,List.mem_insertionSort,List.mem_filter,List.mem_dedup,List.mem_append,
    mem_outgoing,mem_incoming,decide_eq_true_eq]
  constructor
  · exact And.left
  · intro near
    exact ⟨near,fun same => not_near_self seed (same ▸ near)⟩

theorem mem_hopCalls (seed : Text) (call : Call) : call ∈ hopCalls (buildGraphView snapshot) seed ↔
    call.2.1 = .graph ∧ call.2.2 = seed ∧ TwoHops snapshot seed call.1 := by
  obtain ⟨path,signal,from_⟩ := call
  simp only [hopCalls,List.mem_flatMap,List.mem_map,List.mem_filter,List.mem_append,mem_oneHop,
    mem_outgoing,mem_incoming,decide_eq_true_eq,Prod.mk.injEq]
  constructor
  · rintro ⟨hop,near,other,⟨next,apart,differs⟩,rfl,rfl,rfl⟩
    exact ⟨rfl,rfl,⟨hop,near,next⟩,apart,differs⟩
  · rintro ⟨rfl,rfl,⟨hop,near,next⟩,apart,differs⟩
    exact ⟨hop,near,path,⟨next,apart,differs⟩,rfl,rfl,rfl⟩

theorem mem_directCalls (seed : Text) (call : Call) :
    call ∈ r.directCalls (buildGraphView snapshot) seeds seed ↔
      call.2.1 ≠ .graph ∧ call.2.2 = seed ∧ Linked r snapshot seeds call.2.1 seed call.1 := by
  obtain ⟨path,signal,from_⟩ := call
  simp only [LinkRetriever.directCalls,List.mem_append,List.mem_map,List.mem_flatMap,mem_outgoing,
    mem_incoming,mem_tags,Prod.mk.injEq]
  cases signal with
  | wikilink => simp [Linked,and_comm,eq_comm]
  | backlink => simp [Linked,and_comm,eq_comm]
  | tag =>
    simp only [Linked,SharesTag]
    grind
  | graph => simp

/-- `connect` is called for what is linked to a seed. -/
theorem mem_calls (call : Call) : call ∈ r.calls (buildGraphView snapshot) seeds ↔
    call.2.2 ∈ seeds ∧ Linked r snapshot seeds call.2.1 call.2.2 call.1 := by
  simp only [LinkRetriever.calls,List.mem_append,List.mem_flatMap,mem_directCalls]
  obtain ⟨path,signal,seed⟩ := call
  by_cases counts : 0 < r.weight .graph
  · cases signal <;> simp [Linked,counts,mem_hopCalls]
  · cases signal <;> simp [Linked,counts]

end Calls

/-! ### The connections -/

@[simp] theorem signalsAt_nil (path : Text) : signalsAt [] path = fun _ => ∅ := rfl

@[simp] theorem notes_view (snapshot : GraphSnapshot) :
    (buildGraphView snapshot).notes = snapshot.notes := rfl

theorem signalsAt_connect (d : Dict Text Signals) (call : Call) (path : Text) (signal : Signal)
    (seed : Text) : seed ∈ signalsAt (connect d call) path signal ↔
      seed ∈ signalsAt d path signal ∨ call = (path,signal,seed) := by
  obtain ⟨target,kind,from_⟩ := call
  by_cases here : path = target
  · subst here
    have found : signalsAt (connect d (path,kind,from_)) path = Function.update (signalsAt d path)
        kind (insert from_ (signalsAt d path kind)) := by
      simp [signalsAt,connect]
    rw [found]
    by_cases same : signal = kind
    · subst same
      simp [or_comm,eq_comm]
    · simp [Function.update_of_ne same,Ne.symm same]
  · have found : signalsAt (connect d (target,kind,from_)) path = signalsAt d path := by
      simp [signalsAt,connect,here]
    simp [found,Ne.symm here]

theorem signalsAt_foldl (calls : List Call) (d : Dict Text Signals) (path : Text)
    (signal : Signal) (seed : Text) : seed ∈ signalsAt (calls.foldl connect d) path signal ↔
      seed ∈ signalsAt d path signal ∨ (path,signal,seed) ∈ calls := by
  induction calls generalizing d with
  | nil => simp
  | cons call rest ih => simp [ih,signalsAt_connect,or_assoc,eq_comm]

theorem names_connect (d : Dict Text Signals) (call : Call) (path : Text) :
    path ∈ (connect d call).map Prod.fst ↔ path ∈ d.map Prod.fst ∨ call.1 = path := by
  constructor
  · intro member
    obtain ⟨entry,inside,rfl⟩ := List.mem_map.mp member
    rcases Dict.mem_set inside with rfl | old
    · exact .inr rfl
    · exact .inl (List.mem_map.mpr ⟨entry,old,rfl⟩)
  · intro named
    by_cases here : call.1 = path
    · exact List.mem_map.mpr ⟨_,Dict.set_mem d call.1 _,here⟩
    · obtain ⟨entry,inside,rfl⟩ := List.mem_map.mp (named.resolve_right here)
      exact List.mem_map.mpr ⟨entry,Dict.mem_set_of_ne inside (Ne.symm here),rfl⟩

theorem names_foldl (calls : List Call) (d : Dict Text Signals) (path : Text) :
    path ∈ (calls.foldl connect d).map Prod.fst ↔
      path ∈ d.map Prod.fst ∨ ∃ call ∈ calls,call.1 = path := by
  induction calls generalizing d with
  | nil => simp
  | cons call rest ih =>
    rw [List.foldl_cons,ih,names_connect]
    simp [or_assoc]

theorem distinct_foldl (calls : List Call) {d : Dict Text Signals}
    (distinct : (d.map Prod.fst).Nodup) : ((calls.foldl connect d).map Prod.fst).Nodup := by
  induction calls generalizing d with
  | nil => exact distinct
  | cons call rest ih => exact ih (Dict.nodup_names_set distinct _ _)

theorem mem_iff_signalsAt {d : Dict Text Signals} (distinct : (d.map Prod.fst).Nodup)
    (entry : Text × Signals) :
    entry ∈ d ↔ entry.1 ∈ d.map Prod.fst ∧ signalsAt d entry.1 = entry.2 := by
  constructor
  · intro member
    exact ⟨List.mem_map.mpr ⟨entry,member,rfl⟩,by simp [signalsAt,Dict.find_of_mem distinct member]⟩
  · rintro ⟨named,value⟩
    obtain ⟨other,member,same⟩ := List.mem_map.mp named
    rw [← same,signalsAt,Dict.find_of_mem distinct member] at value
    exact (Prod.ext same value : other = entry) ▸ member

theorem perm_of_same {d d' : Dict Text Signals} (distinct : (d.map Prod.fst).Nodup)
    (distinct' : (d'.map Prod.fst).Nodup)
    (names : ∀ path,path ∈ d.map Prod.fst ↔ path ∈ d'.map Prod.fst)
    (same : ∀ path,signalsAt d path = signalsAt d' path) : d.Perm d' := by
  apply (List.perm_ext_iff_of_nodup (List.Nodup.of_map _ distinct)
    (List.Nodup.of_map _ distinct')).mpr
  intro entry
  rw [mem_iff_signalsAt distinct,mem_iff_signalsAt distinct',names,same]

section Connections

variable {r : LinkRetriever} {snapshot : GraphSnapshot} {seeds : List Text}
variable {allowed : Option (List Text)}

/-- The retriever may return the note. -/
def Candidate (r : LinkRetriever) (snapshot : GraphSnapshot) (seeds : List Text)
    (allowed : Option (List Text)) (path : Text) : Prop :=
  path ∈ snapshot.notes ∧ path ∉ r.excluded ∧ (∀ paths ∈ allowed,path ∈ paths) ∧ path ∉ seeds

theorem mem_admitted (call : Call) :
    call ∈ (r.calls (buildGraphView snapshot) seeds).filter (fun call =>
        r.Admits (buildGraphView snapshot) seeds allowed call) ↔
      call.2.2 ∈ seeds ∧ Linked r snapshot seeds call.2.1 call.2.2 call.1 ∧
        Candidate r snapshot seeds allowed call.1 := by
  rw [List.mem_filter,mem_calls,decide_eq_true_eq]
  simp only [LinkRetriever.Admits,Candidate,notes_view]
  constructor
  · rintro ⟨⟨seed,linked⟩,_,notes,excluded,allows,fresh⟩
    exact ⟨seed,linked,notes,excluded,allows,fresh⟩
  · rintro ⟨seed,linked,notes,excluded,allows,fresh⟩
    exact ⟨⟨seed,linked⟩,fun same => fresh (same ▸ seed),notes,excluded,allows,fresh⟩

theorem mem_signalsAt (path : Text) (signal : Signal) (seed : Text) :
    seed ∈ signalsAt (r.connections (buildGraphView snapshot) seeds allowed) path signal ↔
      seed ∈ seeds ∧ Linked r snapshot seeds signal seed path ∧
        Candidate r snapshot seeds allowed path := by
  rw [LinkRetriever.connections,signalsAt_foldl,mem_admitted]
  simp

theorem mem_names (path : Text) :
    path ∈ (r.connections (buildGraphView snapshot) seeds allowed).map Prod.fst ↔
      ∃ signal,∃ seed ∈ seeds,Linked r snapshot seeds signal seed path ∧
        Candidate r snapshot seeds allowed path := by
  rw [LinkRetriever.connections,names_foldl]
  constructor
  · rintro (none_ | ⟨⟨path,signal,seed⟩,member,rfl⟩)
    · cases none_
    · exact ⟨signal,seed,mem_admitted _ |>.mp member⟩
  · rintro ⟨signal,seed,linked⟩
    exact .inr ⟨(path,signal,seed),(mem_admitted _).mpr linked,rfl⟩

theorem distinct_connections :
    ((r.connections (buildGraphView snapshot) seeds allowed).map Prod.fst).Nodup :=
  distinct_foldl _ List.nodup_nil

end Connections

/-! ### Two orders of the rows and the seeds -/

structure SameRows (snapshot snapshot' : GraphSnapshot) : Prop where
  notes : snapshot.notes.Perm snapshot'.notes
  tags : snapshot.tags.Perm snapshot'.tags
  links : snapshot.links.Perm snapshot'.links

def carriers (snapshot : GraphSnapshot) (tag : Text) : List Text :=
  ((snapshot.tags.filter (·.tagFolded = tag)).map GraphTagRow.notePath).dedup

/-- The cap is off, or no tag of a seed has more other notes than it. -/
def Uncrowded (r : LinkRetriever) (snapshot : GraphSnapshot) (seeds : List Text) : Prop :=
  r.tagCap = 0 ∨ ∀ seed ∈ seeds,∀ tag,Carries snapshot seed tag →
    ((carriers snapshot tag).filter (· ∉ seeds)).length ≤ r.tagCap

theorem mem_carriers {snapshot : GraphSnapshot} {tag note : Text} :
    note ∈ carriers snapshot tag ↔ Carries snapshot note tag := by
  simp only [carriers,List.mem_dedup,List.mem_map,List.mem_filter,decide_eq_true_eq,Carries]
  constructor
  · rintro ⟨row,⟨member,rfl⟩,rfl⟩
    exact member
  · exact fun member => ⟨_,⟨member,rfl⟩,rfl⟩

section Orders

variable {r : LinkRetriever} {snapshot snapshot' : GraphSnapshot} {seeds seeds' : List Text}

theorem Edge.congr (same : SameRows snapshot snapshot') (a b : Text) :
    Edge snapshot a b ↔ Edge snapshot' a b := by
  simp only [Edge,edgeOf_eq_some,same.links.mem_iff,same.notes.mem_iff]

theorem mem_neighbours (calm : Uncrowded r snapshot seeds) {seed tag : Text} (among : seed ∈ seeds)
    (carries : Carries snapshot seed tag) (path : Text) :
    path ∈ r.neighbours (buildGraphView snapshot) seeds tag ↔
      Carries snapshot path tag ∧ (r.tagCap ≠ 0 → path ∉ seeds) := by
  have whole : (bucket (buildGraphView snapshot).tagIndex tag).Perm (carriers snapshot tag) :=
    (List.perm_ext_iff_of_nodup (nodup_tagIndex tag) (List.nodup_dedup _)).mpr fun note => by
      rw [mem_tagIndex,← mem_carriers,carriers]
  by_cases off : r.tagCap = 0
  · simp [LinkRetriever.neighbours,off,mem_tagIndex]
  · have short := calm.resolve_left off seed among tag carries
    rw [← (whole.filter _).length_eq] at short
    simp only [LinkRetriever.neighbours,ne_eq,off,not_false_eq_true,if_true]
    rw [List.take_of_length_le short]
    simp [mem_tagIndex]

theorem Carries.congr (same : SameRows snapshot snapshot') (note tag : Text) :
    Carries snapshot note tag ↔ Carries snapshot' note tag := same.tags.mem_iff

theorem carriers_perm (same : SameRows snapshot snapshot') (tag : Text) :
    (carriers snapshot tag).Perm (carriers snapshot' tag) :=
  (List.perm_ext_iff_of_nodup (List.nodup_dedup _) (List.nodup_dedup _)).mpr fun note =>
    mem_carriers.trans ((Carries.congr same note tag).trans mem_carriers.symm)

theorem fresh_congr (seedsSame : seeds.Perm seeds') :
    (fun note : Text => decide (note ∉ seeds)) = fun note => decide (note ∉ seeds') := by
  funext note
  simp [seedsSame.mem_iff]

theorem Uncrowded.congr (same : SameRows snapshot snapshot') (seedsSame : seeds.Perm seeds')
    (calm : Uncrowded r snapshot seeds) : Uncrowded r snapshot' seeds' := by
  refine calm.imp_right fun short seed among tag carries => ?_
  have bound := short seed (seedsSame.mem_iff.mpr among) tag
    ((Carries.congr same seed tag).mpr carries)
  rw [← fresh_congr seedsSame,← ((carriers_perm same tag).filter _).length_eq]
  exact bound

theorem Near.congr (same : SameRows snapshot snapshot') (a b : Text) :
    Near snapshot a b ↔ Near snapshot' a b := by
  simp only [Near,Edge.congr same]

theorem SharesTag.congr (same : SameRows snapshot snapshot') (seedsSame : seeds.Perm seeds')
    (steady : snapshot.tags = snapshot'.tags ∨ Uncrowded r snapshot seeds) {seed : Text}
    (among : seed ∈ seeds) (path : Text) :
    SharesTag r snapshot seeds seed path ↔ SharesTag r snapshot' seeds' seed path := by
  have taken : ∀ tag,Carries snapshot seed tag →
      (path ∈ r.neighbours (buildGraphView snapshot) seeds tag ↔
        path ∈ r.neighbours (buildGraphView snapshot') seeds' tag) := by
    intro tag carries
    rcases steady with rows | calm
    · have index : (buildGraphView snapshot).tagIndex = (buildGraphView snapshot').tagIndex := by
        simp [buildGraphView,rows]
      unfold LinkRetriever.neighbours
      rw [index,fresh_congr seedsSame]
    · rw [mem_neighbours calm among carries,mem_neighbours (calm.congr same seedsSame)
        (seedsSame.mem_iff.mp among) ((Carries.congr same seed tag).mp carries),
        Carries.congr same,seedsSame.mem_iff]
  constructor
  · rintro ⟨tag,carries,member⟩
    exact ⟨tag,(Carries.congr same seed tag).mp carries,(taken tag carries).mp member⟩
  · rintro ⟨tag,carries,member⟩
    have carries' := (Carries.congr same seed tag).mpr carries
    exact ⟨tag,carries',(taken tag carries').mpr member⟩

theorem Linked.congr (same : SameRows snapshot snapshot') (seedsSame : seeds.Perm seeds')
    (steady : snapshot.tags = snapshot'.tags ∨ Uncrowded r snapshot seeds) {seed : Text}
    (among : seed ∈ seeds) (signal : Signal) (path : Text) :
    Linked r snapshot seeds signal seed path ↔ Linked r snapshot' seeds' signal seed path := by
  cases signal with
  | wikilink => exact Edge.congr same seed path
  | backlink => exact Edge.congr same path seed
  | tag => exact SharesTag.congr same seedsSame steady among path
  | graph => simp only [Linked,TwoHops,Near.congr same]

theorem Candidate.congr (same : SameRows snapshot snapshot') (seedsSame : seeds.Perm seeds')
    (allowed : Option (List Text)) (path : Text) :
    Candidate r snapshot seeds allowed path ↔ Candidate r snapshot' seeds' allowed path := by
  simp only [Candidate,same.notes.mem_iff,seedsSame.mem_iff]

theorem connections_perm (same : SameRows snapshot snapshot') (seedsSame : seeds.Perm seeds')
    (steady : snapshot.tags = snapshot'.tags ∨ Uncrowded r snapshot seeds)
    (allowed : Option (List Text)) :
    (r.connections (buildGraphView snapshot) seeds allowed).Perm
      (r.connections (buildGraphView snapshot') seeds' allowed) := by
  have linked : ∀ signal seed path,(seed ∈ seeds ∧ Linked r snapshot seeds signal seed path ∧
      Candidate r snapshot seeds allowed path) ↔ seed ∈ seeds' ∧
        Linked r snapshot' seeds' signal seed path ∧
          Candidate r snapshot' seeds' allowed path := by
    intro signal seed path
    rw [← seedsSame.mem_iff,← Candidate.congr same seedsSame]
    exact and_congr_right fun among => by rw [Linked.congr same seedsSame steady among]
  apply perm_of_same distinct_connections distinct_connections
  · intro path
    rw [mem_names,mem_names]
    exact exists_congr fun signal => exists_congr fun seed => linked signal seed path
  · intro path
    funext signal
    ext seed
    rw [mem_signalsAt,mem_signalsAt]
    exact linked signal seed path

end Orders

/-! ### The results -/

section Results

variable {r : LinkRetriever}

def ahead (a b : ℚ × Text × Text) : Prop := Store.better (a.1,a.2.1) (b.1,b.2.1)

instance : DecidableRel ahead := fun _ _ => inferInstanceAs (Decidable (Store.better _ _))

instance : Std.Total ahead where
  total a b := by
    rcases lt_trichotomy a.1 b.1 with less | same | greater
    · exact .inr (.inl less)
    · rcases le_total a.2.1 b.2.1 with first | second
      · exact .inl (.inr ⟨same,first⟩)
      · exact .inr (.inr ⟨same.symm,second⟩)
    · exact .inl (.inl greater)

instance : IsTrans (ℚ × Text × Text) ahead where
  trans a b c := by
    rintro (first | ⟨same,first⟩) (second | ⟨same',second⟩)
    · exact .inl (second.trans first)
    · exact .inl (lt_of_eq_of_lt same'.symm first)
    · exact .inl (lt_of_lt_of_eq second same.symm)
    · exact .inr ⟨same.trans same',first.trans second⟩

def entriesOf (r : LinkRetriever) (d : Dict Text Signals) : List (ℚ × Text × Text) :=
  (d.filter fun entry => 0 < r.total entry.2).map fun entry =>
    (r.total entry.2,entry.1,sourceOf entry.2)

theorem mem_entriesOf {d : Dict Text Signals} {entry : ℚ × Text × Text}
    (member : entry ∈ entriesOf r d) : ∃ known : Signals,(entry.2.1,known) ∈ d ∧
      entry.1 = r.total known ∧ entry.2.2 = sourceOf known := by
  obtain ⟨⟨path,known⟩,inside,rfl⟩ := List.mem_map.mp member
  exact ⟨known,(List.mem_filter.mp inside).1,rfl,rfl⟩

theorem ordered_eq {d d' : Dict Text Signals} (distinct : (d.map Prod.fst).Nodup)
    (perm : d.Perm d') : r.ordered d = r.ordered d' := by
  have same : (entriesOf r d).Perm (entriesOf r d') := (perm.filter _).map _
  have sorted := List.pairwise_insertionSort ahead (entriesOf r d)
  have sorted' := List.pairwise_insertionSort ahead (entriesOf r d')
  refine List.Perm.eq_of_pairwise (fun a b here there first second => ?_) sorted sorted'
    ((List.perm_insertionSort _ _).trans (same.trans (List.perm_insertionSort _ _).symm))
  obtain ⟨known,inside,total,source⟩ := mem_entriesOf ((List.mem_insertionSort _).mp here)
  obtain ⟨known',inside',total',source'⟩ :=
    mem_entriesOf (same.symm.subset ((List.mem_insertionSort _).mp there))
  have paths : a.2.1 = b.2.1 := by
    rcases first with less | ⟨equal,low⟩ <;> rcases second with less' | ⟨equal',high⟩
    · exact absurd less' (lt_asymm less)
    · exact absurd equal' less.ne
    · exact absurd equal less'.ne
    · exact le_antisymm low high
  rw [← paths] at inside'
  have known_eq : known = known' := by
    have value := Dict.find_of_mem distinct inside
    rw [Dict.find_of_mem distinct inside'] at value
    exact (Option.some.inj value).symm
  exact Prod.ext (total.trans (known_eq ▸ total'.symm))
    (Prod.ext paths (source.trans (known_eq ▸ source'.symm)))

variable [Host] {sources : Sources}

theorem bestOf_mem (terms : List Text) (best : Chunk) (chunks : List Chunk) :
    bestOf terms best chunks ∈ best :: chunks := by
  induction chunks generalizing best with
  | nil => exact List.mem_cons_self
  | cons chunk rest ih =>
    unfold bestOf
    split
    · exact List.mem_cons_of_mem _ (ih chunk)
    · rcases List.mem_cons.mp (ih best) with same | later
      · simp [same]
      · exact List.mem_cons_of_mem _ (List.mem_cons_of_mem _ later)

theorem materialise_path {path : Text} {terms : List Text} {source : Text} {hit : LinkHit}
    (made : materialise r sources path terms source = some hit) : hit.path = path := by
  unfold materialise at made
  split at made
  · next chunk best =>
    obtain rfl := Option.some.inj made
    apply sources.own path chunk
    unfold bestChunk at best
    split at best
    · cases best
    · next first rest rows =>
      rw [rows,← Option.some.inj best]
      exact bestOf_mem terms first rest
  · obtain ⟨entry,_,rfl⟩ := Option.map_eq_some_iff.mp made
    rfl

/-- A result for a note that is linked to a seed, scored by the seeds it is linked to. -/
def Explained (r : LinkRetriever) (snapshot : GraphSnapshot) (seeds : List Text)
    (allowed : Option (List Text)) (hit : LinkHit) : Prop :=
  Candidate r snapshot seeds allowed hit.path ∧
    (∃ signal,∃ seed ∈ seeds,Linked r snapshot seeds signal seed hit.path) ∧
    ∃ linked : Signals,
      (∀ signal seed,seed ∈ linked signal ↔
        seed ∈ seeds ∧ Linked r snapshot seeds signal seed hit.path) ∧
      hit.score = round6 (signals.map fun signal => r.weight signal * (linked signal).card).sum

theorem explained_resultsOf {snapshot : GraphSnapshot} {seeds : List Text}
    {allowed : Option (List Text)} {terms : List Text} {limit : Nat} {hit : LinkHit}
    (member : hit ∈ resultsOf r sources
      (r.connections (buildGraphView snapshot) seeds allowed) terms limit) :
    Explained r snapshot seeds allowed hit := by
  obtain ⟨ranked,listed,rfl⟩ := List.mem_map.mp member
  have kept := List.mem_of_mem_take (List.fst_mem_of_mem_zipIdx listed)
  obtain ⟨entry,inside,made⟩ := List.mem_filterMap.mp kept
  obtain ⟨plain,made,scored⟩ := Option.map_eq_some_iff.mp made
  obtain ⟨known,there,total,_⟩ := mem_entriesOf ((List.mem_insertionSort _).mp inside)
  have path : ranked.1.path = entry.2.1 := by
    rw [← scored]
    exact (materialise_path made : plain.path = entry.2.1)
  have value : signalsAt (r.connections (buildGraphView snapshot) seeds allowed) entry.2.1 =
      known := ((mem_iff_signalsAt distinct_connections _).mp there).2
  obtain ⟨signal,seed,among,linked,candidate⟩ :=
    mem_names entry.2.1 |>.mp (List.mem_map.mpr ⟨_,there,rfl⟩)
  have score : ranked.1.score = round6 (r.total known) := by
    rw [← scored,← total]
  refine ⟨path ▸ candidate,⟨signal,seed,among,path ▸ linked⟩,known,fun signal seed => ?_,score⟩
  rw [← value,mem_signalsAt,path]
  exact ⟨fun all => ⟨all.1,all.2.1⟩,fun all => ⟨all.1,all.2,candidate⟩⟩

end Results

def found [Host] (r : LinkRetriever) (sources : Sources) (query : Text) (terms : List Text)
    (topK : Option Int) (allowed : Option (List Text)) (snapshot : GraphSnapshot)
    (hits : List Text) : Except RetrieverUnavailable (List LinkHit) :=
  (retrieve r sources (some ⟨some snapshot⟩) query terms (some hits) topK allowed).map
    Retrieval.results

/-- Link retrieval is a function of the graph and the set of seeds, as long as no cap takes hold,
and each result is explained by the links to the seeds. -/
theorem found_explained [Host] (r : LinkRetriever) (sources : Sources) (query : Text)
    (terms : List Text) (topK : Option Int) (allowed : Option (List Text))
    (snapshot : GraphSnapshot) (hits : List Text) :
    (∀ snapshot' hits',SameRows snapshot snapshot' → (r.seeds hits).Perm (r.seeds hits') →
      (snapshot.tags = snapshot'.tags ∨ Uncrowded r snapshot (r.seeds hits)) →
        found r sources query terms topK allowed snapshot hits =
          found r sources query terms topK allowed snapshot' hits') ∧
    ∃ results,found r sources query terms topK allowed snapshot hits = .ok results ∧
      ∀ hit ∈ results,Explained r snapshot (r.seeds hits) allowed hit := by
  have unfolded : ∀ snapshot hits,found r sources query terms topK allowed snapshot hits =
      .ok (if Text.strip query = [] ∨ (max 0 (topK.getD (max 1 r.topK))).toNat = 0 ∨
        r.seeds hits = [] then []
      else resultsOf r sources (r.connections (buildGraphView snapshot) (r.seeds hits) allowed)
        terms (max 0 (topK.getD (max 1 r.topK))).toNat) := by
    intro snapshot hits
    have nothing : resultsOf r sources [] terms (max 0 (topK.getD (max 1 r.topK))).toNat = [] := by
      simp [resultsOf,LinkRetriever.ordered]
    unfold found retrieve
    by_cases blank : Text.strip query = []
    · simp [blank,Except.map]
    · by_cases zero : (max 0 (topK.getD (max 1 r.topK))).toNat = 0
      · simp only [blank,zero,if_true,if_false,Except.map,true_or,or_true]
      · by_cases seedless : r.seeds hits = []
        · simp only [blank,zero,seedless,if_true,if_false,Except.map,or_true]
        · by_cases unlinked :
              r.connections (buildGraphView snapshot) (r.seeds hits) allowed = []
          · simp only [blank,zero,seedless,unlinked,if_true,if_false,Except.map,or_self,nothing]
          · simp only [blank,zero,seedless,unlinked,if_false,Except.map,or_self]
  constructor
  · intro snapshot' hits' same seedsSame steady
    have perm := connections_perm same seedsSame steady allowed
    have ordered := ordered_eq (r := r) distinct_connections perm
    have empty : r.seeds hits = [] ↔ r.seeds hits' = [] := by
      constructor <;> intro none_ <;> simpa [none_] using seedsSame
    rw [unfolded,unfolded]
    simp only [empty,resultsOf,ordered]
  · refine ⟨_,unfolded snapshot hits,fun hit member => ?_⟩
    split at member
    · cases member
    · exact explained_resultsOf member

/-! Three notes with one tag, of which a cap lets one through. -/

def taggedNotes (order : List Text) : GraphSnapshot where
  notes := ["a".toList,"b".toList,"c".toList]
  tags := order.map fun note => ⟨note,"t".toList⟩
  links := []

def namedEntries : Sources where
  chunksFor _ := []
  entry path := some ⟨path,path,[]⟩
  own _ _ member := absurd member List.not_mem_nil

open scoped AsciiHost in
theorem capped_by_position : ¬∀ (r : LinkRetriever) (sources : Sources) (query : Text)
    (terms : List Text) (topK : Option Int) (allowed : Option (List Text))
    (snapshot snapshot' : GraphSnapshot) (hits hits' : List Text),
    SameRows snapshot snapshot' → (r.seeds hits).Perm (r.seeds hits') →
      (found r sources query terms topK allowed snapshot hits).map (List.map fun hit => hit.path) =
        (found r sources query terms topK allowed snapshot' hits').map
          (List.map fun hit => hit.path) := by
  intro every
  have same : SameRows (taggedNotes ["a".toList,"b".toList,"c".toList])
      (taggedNotes ["a".toList,"c".toList,"b".toList]) :=
    ⟨List.Perm.refl _,(List.Perm.swap _ _ _).cons _,List.Perm.refl _⟩
  have equal := every {maxTagNeighbours := 1} namedEntries "q".toList [] none none _ _
    ["a".toList] ["a".toList] same (List.Perm.refl _)
  have paths := congrArg Except.toOption equal
  revert paths
  decide +kernel

end LocalBook.Rag.Link
