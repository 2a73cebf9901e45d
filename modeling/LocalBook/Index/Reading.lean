import LocalBook.Index.Rebuilding

/-! What the index answers of a note: its entry, read back from the tables, its links, and the
links of other notes to it. -/
namespace LocalBook.Index

open Rebuilding (DerivedIndexService)

namespace Tables

variable (t : Tables) (path : Text)

/-- `_tags_of`. -/
def tagsOf : List TagRow :=
  (t.tags.filter fun row => row.notePath = path).insertionSort fun a b => a.seq ≤ b.seq

/-- `_properties_of`. -/
def propertiesOf : Dict Text Text :=
  ((t.properties.filter fun row => row.notePath = path).insertionSort fun a b =>
    a.key ≤ b.key).map fun row => (row.key,row.valueJson)

/-- `_outgoing_refs`. -/
def outgoingRefs : List WikilinkRef :=
  ((t.links.filter fun row => row.sourcePath = path).insertionSort fun a b =>
    a.seq ≤ b.seq).map LinkRow.ref

/-- `_entry_from_row`. -/
def entryFromRow (row : NoteRow) : NoteIndexEntry where
  path := row.path
  sha256 := row.sha256
  title := row.title
  basename := row.basename
  text := row.text
  textTruncated := row.textTruncated
  tags := (t.tagsOf row.path).map TagRow.tag
  tagsFolded := (t.tagsOf row.path).map TagRow.tagFolded
  properties := t.propertiesOf row.path
  frontmatterStatus := row.frontmatterStatus
  parseError := row.parseError
  outgoing := t.outgoingRefs row.path
  searchFolded := row.searchFolded
  diagnostic := row.diagnostic

def entry : Option NoteIndexEntry := (t.note path).map t.entryFromRow

def linksTo (source : Text) : List WikilinkRef :=
  ((t.links.filter fun row => row.sourcePath = source ∧
    row.ref.resolvedPath = some path).insertionSort fun a b => a.seq ≤ b.seq).map LinkRow.ref

def sources : List Text :=
  (((t.backlinks.filter fun row => row.targetPath = path).map
    Backlink.sourcePath).insertionSort (· ≤ ·)).filter (· ≠ path)

/-- `backlink_sources`. -/
def backlinkSources [Host] : List (Text × WikilinkRef) :=
  ((t.sources path).flatMap fun source => (t.linksTo path source).map (source,·)).insertionSort
    fun a b => toLex (Host.casefold a.1,a.2.raw) ≤ toLex (Host.casefold b.1,b.2.raw)

end Tables

namespace Links

inductive LinksError where
  | indexUnavailable
  | pathNotFound (path : Text)
deriving DecidableEq

structure NoteLinksResponse where
  path : Text
  outgoing : List WikilinkRef
  brokenCount : Nat

structure BacklinkRef where
  sourcePath : Text
  title : Text
  text : Option Text

structure BacklinksResponse where
  path : Text
  backlinks : List BacklinkRef
  count : Nat

/-- `_to_link`; the context of a link is not answered. -/
def toLink (ref : WikilinkRef) : WikilinkRef := {ref with context := none}

/-- The tables and the entry of a path, once the index is ready. -/
def found (s : DerivedIndexService) (path : Text) :
    Except LinksError (Tables × NoteIndexEntry) :=
  match s.reported.buildState,s.db with
  | .ready,some connection =>
    match connection.view.entry path with
    | none => .error (.pathNotFound path)
    | some entry => .ok (connection.view,entry)
  | _,_ => .error .indexUnavailable

def outgoing (s : DerivedIndexService) (path : Text) : Except LinksError NoteLinksResponse :=
  (found s path).map fun (_,entry) =>
    {path,outgoing := entry.outgoing.map toLink,
     brokenCount := (entry.outgoing.map toLink).countP WikilinkRef.broken}

def backlinkRef (t : Tables) (item : Text × WikilinkRef) : BacklinkRef where
  sourcePath := item.1
  title := ((t.entry item.1).map NoteIndexEntry.title).getD item.1
  text := item.2.context

def backlinks [Host] (s : DerivedIndexService) (path : Text) :
    Except LinksError BacklinksResponse :=
  (found s path).map fun (t,_) =>
    let result := (t.backlinkSources path).map (backlinkRef t)
    {path,backlinks := result,count := result.length}

end Links

section Duality

variable {fts : Bool} {t : Tables} {path other : Text}

theorem filter_pairs {β : Type} {keys : List Text} (distinct : keys.Nodup) (refs : Text → List β) :
    ((keys.flatMap fun key => (refs key).map (key,·)).filter (·.1 = other)).map Prod.snd =
      if other ∈ keys then refs other else [] := by
  induction keys with
  | nil => rfl
  | cons key rest ih =>
    obtain ⟨once,distinct⟩ := List.nodup_cons.mp distinct
    rw [List.flatMap_cons,List.filter_append,List.map_append,ih distinct,List.filter_map,
      List.map_map]
    by_cases same : other = key
    · subst same
      simp [Function.comp_def,once]
    · simp [Function.comp_def,same,Ne.symm same]

theorem linksTo_perm (t : Tables) (path source : Text) :
    (t.linksTo path source).Perm
      ((t.outgoingRefs source).filter fun ref => ref.resolvedPath = some path) := by
  rw [Tables.linksTo,Tables.outgoingRefs,List.filter_map]
  refine ((List.perm_insertionSort _ _).trans (.trans ?_
    ((List.perm_insertionSort _ _).symm.filter _))).map _
  rw [List.filter_filter]
  refine .of_eq (List.filter_congr fun row _ => ?_)
  simp [Bool.and_comm]

theorem nodup_sources (projects : Projects t) (path : Text) : (t.sources path).Nodup := by
  refine ((List.perm_insertionSort _ _).nodup_iff.mpr ?_).filter _
  refine (projects.distinct.of_map.filter _).map_on fun a left b right same => ?_
  have target (row : Backlink) (here : row ∈ t.backlinks.filter fun row => row.targetPath = path) :
      row.targetPath = path := of_decide_eq_true (List.mem_filter.mp here).2
  exact List.inj_on_of_nodup_map projects.distinct (List.mem_filter.mp left).1
    (List.mem_filter.mp right).1 (Prod.ext ((target a left).trans (target b right).symm) same)

theorem mem_sources : other ∈ t.sources path ↔ (path,other) ∈ keys t.backlinks ∧ other ≠ path := by
  simp only [Tables.sources,keys,List.mem_filter,(List.perm_insertionSort _ _).mem_iff,
    List.mem_map,decide_eq_true_eq]
  refine and_congr_left fun _ => ⟨?_,?_⟩
  · rintro ⟨row,⟨there,rfl⟩,rfl⟩
    exact ⟨row,there,rfl⟩
  · rintro ⟨row,there,same⟩
    exact ⟨row,⟨there,congrArg Prod.fst same⟩,congrArg Prod.snd same⟩

variable [Host]

theorem backlinkSources_perm (t : Tables) (path : Text) : (t.backlinkSources path).Perm
    ((t.sources path).flatMap fun source => (t.linksTo path source).map (source,·)) :=
  List.perm_insertionSort _ _

/-- Backlinks are the links of the others, seen from the note they resolve to. -/
theorem Projects.dual (projects : Projects t) (path other : Text) :
    (((t.backlinkSources path).filter (·.1 = other)).map Prod.snd).Perm
      (if other = path then []
        else (t.outgoingRefs other).filter fun ref => ref.resolvedPath = some path) := by
  refine (((backlinkSources_perm t path).filter _).map _).trans ?_
  rw [filter_pairs (nodup_sources projects path)]
  by_cases same : other = path
  · rw [if_pos same,if_neg fun there => (mem_sources.mp there).2 same]
  · rw [if_neg same]
    split
    · exact linksTo_perm t path other
    · rename_i absent
      refine .of_eq (List.filter_eq_nil_iff.mpr fun ref there resolved => absent ?_).symm
      obtain ⟨row,linked,rfl⟩ := List.mem_map.mp there
      obtain ⟨stored,source⟩ :=
        List.mem_filter.mp ((List.perm_insertionSort _ _).mem_iff.mp linked)
      exact mem_sources.mpr ⟨(projects.exact_ path other).mpr ⟨row,stored,
        of_decide_eq_true resolved,of_decide_eq_true source,Ne.symm same⟩,same⟩

/-- Whatever links to a path is a note, and is answered under its title. -/
theorem Derived.titled (derived : Derived fts t) {item : Text × WikilinkRef}
    (there : item ∈ t.backlinkSources path) :
    ∃ entry,t.entry item.1 = some entry ∧ entry.path = item.1 ∧
      (Links.backlinkRef t item).title = entry.title := by
  obtain ⟨source,known,linked⟩ :=
    List.mem_flatMap.mp ((backlinkSources_perm t path).mem_iff.mp there)
  obtain ⟨ref,-,rfl⟩ := List.mem_map.mp linked
  obtain ⟨row,stored,same⟩ := List.mem_map.mp (mem_sources.mp known).1
  obtain ⟨note,noted,named⟩ := List.mem_map.mp (derived.owned.backlinks row stored)
  have name : note.path = source := named.trans (congrArg Prod.snd same)
  cases present : t.note source with
  | none => exact absurd name (by simpa using List.find?_eq_none.mp present note noted)
  | some found =>
    have entry : t.entry source = some (t.entryFromRow found) := by rw [Tables.entry,present]; rfl
    have named : found.path = source := by simpa using List.find?_some present
    refine ⟨_,entry,named,?_⟩
    rw [Links.backlinkRef,entry]
    rfl

theorem derived_steps {settings : IndexSettings} {d : DerivedIndex}
    (derived : Derived settings.ftsAvailable d.tables) (steps : List IndexStep) :
    Derived settings.ftsAvailable (IndexStep.run settings steps d).tables := by
  induction steps generalizing d with
  | nil => exact derived
  | cons step rest ih => exact ih (IndexStep.derived_apply derived step)

abbrev reached (settings : IndexSettings) (steps : List IndexStep) : Tables :=
  (IndexStep.run settings steps {}).tables

/-- In every state that operations reach, what a note is shown of the links of another is what the
other one links to it, each link as often as it is there; and each is shown with its title. -/
theorem backlinks_dual (settings : IndexSettings) (steps : List IndexStep) (path : Text) :
    (∀ other,(((reached settings steps).backlinkSources path).filter
        (·.1 = other)).map Prod.snd |>.Perm
      (if other = path then [] else ((reached settings steps).outgoingRefs
        other).filter fun ref => ref.resolvedPath = some path)) ∧
    ∀ item ∈ (reached settings steps).backlinkSources path,
      ∃ entry,(reached settings steps).entry item.1 = some entry ∧ entry.path = item.1 ∧
        (Links.backlinkRef (reached settings steps) item).title = entry.title := by
  have derived := @derived_steps _ settings {} derived_empty steps
  exact ⟨derived.projects.dual path,fun _ => derived.titled⟩

end Duality

section Entries

variable {fts : Bool} {t t' : Tables} {path : Text}

def NoteRows.tables (rows : NoteRows) : Tables :=
  ⟨rows.notes,rows.tags,rows.properties,rows.links,rows.backlinks,rows.fts⟩

/-- An entry is read from the rows of its path. -/
theorem entry_rowsOf (t : Tables) (path : Text) :
    t.entry path = (t.rowsOf path).tables.entry path := by
  have rows (row : NoteRow) (named : row.path = path) :
      t.entryFromRow row = (t.rowsOf path).tables.entryFromRow {row with rowid := 0} := by
    subst named
    simp [Tables.entryFromRow,Tables.tagsOf,Tables.propertiesOf,Tables.outgoingRefs,
      NoteRows.tables,Tables.rowsOf,List.filter_filter]
  have notes : (t.rowsOf path).tables.note path =
      (t.note path).map fun row => {row with rowid := 0} := by
    simp [Tables.note,NoteRows.tables,Tables.rowsOf,List.find?_map]
  rw [Tables.entry,Tables.entry,notes]
  cases present : t.note path with
  | none => rfl
  | some row => exact congrArg some (rows row (by simpa using List.find?_some present))

variable [Host] {settings : IndexSettings} {files : VaultFiles} {names : Basenames}

/-- The entry, with its properties in the order of their keys. -/
def NoteIndexEntry.keyed (entry : NoteIndexEntry) : NoteIndexEntry :=
  {entry with properties := entry.properties.insertionSort fun a b => a.1 ≤ b.1}

omit [Host] in
theorem sorted_zipIdx {α β : Type} (l : List α) {make : α × Nat → β} (seq : β → Nat)
    (made : ∀ item,seq (make item) = item.2) :
    (l.zipIdx.map make).Pairwise fun a b => seq a ≤ seq b := by
  rw [List.pairwise_map,List.pairwise_iff_getElem]
  intro i j _ _ before
  simp only [made,List.getElem_zipIdx]
  omega

omit [Host] in
theorem read_own {α : Type} {rows : List α} {mine : α → Prop} [DecidablePred mine]
    {order : α → α → Prop} [DecidableRel order] (own : ∀ row ∈ rows,mine row)
    (sorted : rows.Pairwise order) :
    (rows.filter fun row => mine row).insertionSort order = rows := by
  rw [List.filter_eq_self.mpr fun row found => decide_eq_true (own row found),
    sorted.insertionSort_eq]

theorem named_entryOf (data : Bytes) : (entryOf settings names path data).path = path ∧
    (entryOf settings names path data).tagsFolded =
      (entryOf settings names path data).tags.map Host.casefold := by
  rw [entryOf]
  cases decodeUtf8 data with
  | none => exact ⟨rfl,rfl⟩
  | some text => exact ⟨rfl,rfl⟩

theorem entry_writtenRows (fts : Bool) {entry : NoteIndexEntry}
    (named : entry.path = path ∧ entry.tagsFolded = entry.tags.map Host.casefold) :
    (writtenRows fts path entry).tables.entry path = some entry.keyed := by
  obtain ⟨named,folded⟩ := named
  have keyed : (propertyRows path entry).Pairwise fun a b => a.key ≤ b.key :=
    List.pairwise_map.mpr (List.pairwise_insertionSort _ entry.properties)
  have tags : (writtenRows fts path entry).tables.tagsOf path = tagRows path entry :=
    read_own (mem_tagRows path entry) (sorted_zipIdx _ TagRow.seq fun _ => rfl)
  have properties : (writtenRows fts path entry).tables.propertiesOf path =
      (propertyRows path entry).map fun row => (row.key,row.valueJson) :=
    congrArg _ (read_own (mem_propertyRows path entry) keyed)
  have links : (writtenRows fts path entry).tables.outgoingRefs path =
      (linkRows path entry).map LinkRow.ref :=
    congrArg _ (read_own (mem_linkRows path entry) (sorted_zipIdx _ LinkRow.seq fun _ => rfl))
  have note : (writtenRows fts path entry).tables.note path = some (noteRow path entry 0) := by
    simp [Tables.note,NoteRows.tables,writtenRows,noteRow]
  have both : foldedTags entry = entry.tags.map Host.casefold := by
    rw [foldedTags,folded]
    split <;> rfl
  have column (pick : Text × Text → Text) : (tagRows path entry).map
      (fun row => pick (row.tag,row.tagFolded)) = (entry.tags.zip (foldedTags entry)).map pick := by
    conv_rhs => rw [← List.zipIdx_map_fst 0 (entry.tags.zip (foldedTags entry)),List.map_map]
    rw [tagRows,List.map_map]
    rfl
  have shown := (column Prod.fst).trans (List.map_fst_zip (by simp [both]))
  have compared := (column Prod.snd).trans (List.map_snd_zip (by simp [both]))
  rw [Tables.entry,note]
  refine congrArg some ?_
  simp only [Tables.entryFromRow,noteRow,tags,properties,links,shown,compared,both,
    NoteIndexEntry.keyed,named,folded]
  simp [propertyRows,linkRows,Function.comp_def]

end Entries

end LocalBook.Index
