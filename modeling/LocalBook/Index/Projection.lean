import LocalBook.Index.Service

/-! The tables that are kept by hand beside the notes: backlinks project the resolved links,
the full-text rows mirror the notes, and no row outlives the note it belongs to. -/
namespace LocalBook.Index

section Backlinks

variable {t : Tables} {path : Text}

def keys (backlinks : List Backlink) : List (Text × Text) := backlinks.map Backlink.key

theorem keys_insertBacklink (backlinks : List Backlink) (row : Backlink) (key : Text × Text) :
    key ∈ keys (Tables.insertBacklink backlinks row) ↔ key ∈ keys backlinks ∨ key = row.key := by
  rw [Tables.insertBacklink]
  split
  · rename_i there
    refine ⟨.inl,fun found => found.elim id ?_⟩
    rintro rfl
    exact there
  · simp [keys]

theorem keys_insertAll (rows backlinks : List Backlink) (key : Text × Text) :
    key ∈ keys (rows.foldl Tables.insertBacklink backlinks) ↔
      key ∈ keys backlinks ∨ key ∈ keys rows := by
  induction rows generalizing backlinks with
  | nil => simp [keys]
  | cons row rest ih =>
    rw [List.foldl_cons,ih,keys_insertBacklink]
    simp only [keys,List.map_cons,List.mem_cons]
    tauto

theorem nodup_insertAll {rows backlinks : List Backlink} (distinct : (keys backlinks).Nodup) :
    (keys (rows.foldl Tables.insertBacklink backlinks)).Nodup := by
  induction rows generalizing backlinks with
  | nil => exact distinct
  | cons row rest ih =>
    apply ih
    rw [Tables.insertBacklink]
    split
    · exact distinct
    · rename_i absent
      simp only [keys,List.map_append,List.map_cons,List.map_nil]
      exact List.nodup_append.mpr ⟨distinct,List.nodup_singleton _,fun a found b single same =>
        absent (List.mem_singleton.mp single ▸ same ▸ found)⟩

def contributed (links : List LinkRow) : List (Text × Text) :=
  keys (links.filterMap LinkRow.backlink)

theorem backlink_source {row : LinkRow} {backlink : Backlink}
    (found : row.backlink = some backlink) : backlink.sourcePath = row.sourcePath := by
  unfold LinkRow.backlink at found
  split at found
  · cases found
  · split at found
    · cases found
    · obtain rfl := Option.some.inj found
      rfl

theorem mem_contributed {links : List LinkRow} {key : Text × Text} :
    key ∈ contributed links ↔ ∃ row ∈ links, row.ref.resolvedPath = some key.1 ∧
      row.sourcePath = key.2 ∧ key.1 ≠ key.2 := by
  simp only [contributed,keys,List.mem_map,List.mem_filterMap]
  constructor
  · rintro ⟨backlink,⟨row,found,made⟩,rfl⟩
    refine ⟨row,found,?_⟩
    unfold LinkRow.backlink at made
    split at made
    · cases made
    · rename_i target resolved
      split at made
      · cases made
      · rename_i other
        obtain rfl := Option.some.inj made
        exact ⟨resolved,rfl,other⟩
  · rintro ⟨row,found,resolved,source,other⟩
    refine ⟨⟨key.1,key.2,row.ref.context⟩,⟨row,found,?_⟩,rfl⟩
    rw [LinkRow.backlink,resolved]
    dsimp only
    rw [if_neg (source ▸ other),source]

end Backlinks

/-- Backlinks are the pairs of a resolved link and its note, each once. -/
structure Projects (t : Tables) : Prop where
  distinct : (keys t.backlinks).Nodup
  exact_ : ∀ target source, (target,source) ∈ keys t.backlinks ↔
    ∃ row ∈ t.links, row.ref.resolvedPath = some target ∧ row.sourcePath = source ∧
      target ≠ source

/-- Every path and every row id is that of one note; where there is a full-text table, its
rows are those of the notes, in their order. -/
structure Mirrors (fts : Bool) (t : Tables) : Prop where
  paths : (t.notes.map NoteRow.path).Nodup
  rowids : (t.notes.map NoteRow.rowid).Nodup
  mirror : t.fts.map FtsRow.indexed = if fts then t.notes.map NoteRow.indexed else []

structure Owned (t : Tables) : Prop where
  tags : ∀ row ∈ t.tags, row.notePath ∈ t.notes.map NoteRow.path
  properties : ∀ row ∈ t.properties, row.notePath ∈ t.notes.map NoteRow.path
  links : ∀ row ∈ t.links, row.sourcePath ∈ t.notes.map NoteRow.path
  backlinks : ∀ row ∈ t.backlinks, row.sourcePath ∈ t.notes.map NoteRow.path

structure Derived (fts : Bool) (t : Tables) : Prop where
  projects : Projects t
  mirrors : Mirrors fts t
  owned : Owned t

section Statements

variable {fts : Bool} {t t' : Tables} {path : Text} {entry : NoteIndexEntry}

theorem projects_iff : Projects t ↔ (keys t.backlinks).Nodup ∧
    ∀ key, key ∈ keys t.backlinks ↔ key ∈ contributed t.links := by
  refine ⟨fun projects => ⟨projects.distinct,fun key => ?_⟩,fun same => ⟨same.1,fun _ _ => ?_⟩⟩
  · rw [mem_contributed]
    exact projects.exact_ key.1 key.2
  · rw [same.2,mem_contributed]

theorem lt_nextRowid {notes : List NoteRow} {row : NoteRow} (found : row ∈ notes) :
    row.rowid < Tables.nextRowid notes := by
  induction notes with
  | nil => cases found
  | cons head rest ih =>
    simp only [Tables.nextRowid,List.map_cons,List.foldr_cons] at ih ⊢
    rcases List.mem_cons.mp found with rfl | later
    · omega
    · have := ih later
      omega

theorem derived_empty : Derived fts ({} : Tables) :=
  ⟨⟨List.nodup_nil,by simp [keys]⟩,⟨List.nodup_nil,List.nodup_nil,by simp⟩,
    ⟨by simp,by simp,by simp,by simp⟩⟩

theorem mem_paths_filter {notes : List NoteRow} {owner : Text}
    (found : owner ∈ notes.map NoteRow.path) (other : owner ≠ path) :
    owner ∈ (notes.filter fun row => row.path ≠ path).map NoteRow.path := by
  obtain ⟨row,there,rfl⟩ := List.mem_map.mp found
  exact List.mem_map_of_mem (List.mem_filter.mpr ⟨there,decide_eq_true other⟩)

theorem Owned.deleteNoteRows (owned : Owned t) : Owned (t.deleteNoteRows fts path) := by
  refine ⟨fun row found => ?_,fun row found => ?_,fun row found => ?_,fun row found => ?_⟩ <;>
    obtain ⟨there,other⟩ := List.mem_filter.mp found
  · exact mem_paths_filter (owned.tags row there) (of_decide_eq_true other)
  · exact mem_paths_filter (owned.properties row there) (of_decide_eq_true other)
  · exact mem_paths_filter (owned.links row there) (of_decide_eq_true other)
  · exact mem_paths_filter (owned.backlinks row there) (of_decide_eq_true other)

theorem contributed_filter (links : List LinkRow) (key : Text × Text) :
    key ∈ contributed (links.filter fun row => row.sourcePath ≠ path) ↔
      key ∈ contributed links ∧ key.2 ≠ path := by
  simp only [mem_contributed,List.mem_filter,decide_eq_true_eq]
  constructor
  · rintro ⟨row,⟨found,kept⟩,resolved,source,other⟩
    exact ⟨⟨row,found,resolved,source,other⟩,source ▸ kept⟩
  · rintro ⟨⟨row,found,resolved,source,other⟩,kept⟩
    exact ⟨row,⟨found,source ▸ kept⟩,resolved,source,other⟩

theorem keys_filter (backlinks : List Backlink) (key : Text × Text) :
    key ∈ keys (backlinks.filter fun row => row.sourcePath ≠ path) ↔
      key ∈ keys backlinks ∧ key.2 ≠ path := by
  simp only [keys,List.mem_map,List.mem_filter,decide_eq_true_eq]
  constructor
  · rintro ⟨row,⟨found,kept⟩,rfl⟩
    exact ⟨⟨row,found,rfl⟩,kept⟩
  · rintro ⟨⟨row,found,rfl⟩,kept⟩
    exact ⟨row,⟨found,kept⟩,rfl⟩

theorem Projects.deleteNoteRows (projects : Projects t) :
    Projects (t.deleteNoteRows fts path) := by
  obtain ⟨distinct,same⟩ := projects_iff.mp projects
  refine projects_iff.mpr ⟨distinct.sublist (List.filter_sublist.map _),fun key => ?_⟩
  rw [Tables.deleteNoteRows,keys_filter,contributed_filter,same]

/-- Among notes with distinct paths and row ids, deleting a path is deleting its row id. -/
theorem filter_rowid {notes : List NoteRow} {found : NoteRow}
    (rowids : (notes.map NoteRow.rowid).Nodup) (paths : (notes.map NoteRow.path).Nodup)
    (there : found ∈ notes) :
    (notes.filter fun row => row.rowid ≠ found.rowid) =
      notes.filter fun row => row.path ≠ found.path := by
  refine List.filter_congr fun row member => ?_
  have ids : row.rowid = found.rowid ↔ row.path = found.path :=
    ⟨fun same => congrArg NoteRow.path (List.inj_on_of_nodup_map rowids member there same),
      fun same => congrArg NoteRow.rowid (List.inj_on_of_nodup_map paths member there same)⟩
  simp [ids]

theorem Mirrors.deleteNoteRows (mirrors : Mirrors fts t) :
    Mirrors fts (t.deleteNoteRows fts path) := by
  refine ⟨mirrors.paths.sublist (List.filter_sublist.map _),
    mirrors.rowids.sublist (List.filter_sublist.map _),?_⟩
  have mirror := mirrors.mirror
  rw [Tables.deleteNoteRows]
  dsimp only
  cases present : t.note path with
  | none =>
    have absent : ∀ row ∈ t.notes, row.path ≠ path := by
      intro row found same
      exact absurd (List.find?_eq_none.mp present row found) (by simp [same])
    rw [List.filter_eq_self.mpr fun row found => decide_eq_true (absent row found)]
    exact mirror
  | some found =>
    have there := List.mem_of_find?_eq_some present
    have named : found.path = path := by simpa using List.find?_some present
    cases fts with
    | false => exact mirror
    | true =>
      rw [if_pos rfl] at mirror ⊢
      dsimp only
      have rows := filter_rowid mirrors.rowids mirrors.paths there
      rw [named] at rows
      rw [if_pos rfl,← rows]
      have kept := congrArg (List.filter fun (row : Nat × Text × Text × Text × Text) =>
        row.1 ≠ found.rowid) mirror
      rwa [List.filter_map,List.filter_map] at kept

theorem Derived.deleteNoteRows (derived : Derived fts t) (path : Text) :
    Derived fts (t.deleteNoteRows fts path) :=
  ⟨derived.projects.deleteNoteRows,derived.mirrors.deleteNoteRows,derived.owned.deleteNoteRows⟩

variable [Host]

theorem insertNoteRow_eq_some (inserted : t.insertNoteRow fts path entry = some t') :
    path ∉ t.notes.map NoteRow.path ∧
      t' = {t with
        notes := t.notes ++ [noteRow path entry (Tables.nextRowid t.notes)],
        tags := t.tags ++ tagRows path entry,
        properties := t.properties ++ propertyRows path entry,
        links := t.links ++ linkRows path entry,
        fts := if fts then t.fts ++ [ftsRow path entry (Tables.nextRowid t.notes)]
          else t.fts} := by
  rw [Tables.insertNoteRow] at inserted
  split at inserted
  · cases inserted
  · rename_i fits
    exact ⟨fun there => fits (.inl there),(Option.some.inj inserted).symm⟩

theorem Owned.insertNoteRow (owned : Owned t)
    (inserted : t.insertNoteRow fts path entry = some t') : Owned t' := by
  obtain ⟨-,rfl⟩ := insertNoteRow_eq_some inserted
  have old : ∀ owner ∈ t.notes.map NoteRow.path, owner ∈
      (t.notes ++ [noteRow path entry (Tables.nextRowid t.notes)]).map NoteRow.path := by
    intro owner found
    rw [List.map_append]
    exact List.mem_append_left _ found
  have new : path ∈
      (t.notes ++ [noteRow path entry (Tables.nextRowid t.notes)]).map NoteRow.path := by
    rw [List.map_append]
    exact List.mem_append_right _ (List.mem_singleton.mpr rfl)
  refine ⟨fun row found => ?_,fun row found => ?_,fun row found => ?_,fun row found =>
    old _ (owned.backlinks row found)⟩ <;> rcases List.mem_append.mp found with there | made
  · exact old _ (owned.tags row there)
  · obtain ⟨_,-,rfl⟩ := List.mem_map.mp made
    exact new
  · exact old _ (owned.properties row there)
  · obtain ⟨_,-,rfl⟩ := List.mem_map.mp made
    exact new
  · exact old _ (owned.links row there)
  · obtain ⟨_,-,rfl⟩ := List.mem_map.mp made
    exact new

theorem Mirrors.insertNoteRow (mirrors : Mirrors fts t)
    (inserted : t.insertNoteRow fts path entry = some t') : Mirrors fts t' := by
  obtain ⟨absent,rfl⟩ := insertNoteRow_eq_some inserted
  refine ⟨?_,?_,?_⟩
  · rw [List.map_append]
    refine List.nodup_append.mpr ⟨mirrors.paths,List.nodup_singleton _,
      fun a found b single same => ?_⟩
    have new : b = path := List.mem_singleton.mp single
    exact absent (new ▸ same ▸ found)
  · rw [List.map_append]
    refine List.nodup_append.mpr ⟨mirrors.rowids,List.nodup_singleton _,
      fun a found b single same => ?_⟩
    obtain ⟨row,there,rfl⟩ := List.mem_map.mp found
    have new : b = Tables.nextRowid t.notes := List.mem_singleton.mp single
    exact absurd (lt_nextRowid there) (by omega)
  · have mirror := mirrors.mirror
    cases fts with
    | false => exact mirror
    | true =>
      simp only [if_true] at mirror ⊢
      rw [List.map_append,List.map_append,mirror]
      rfl

theorem insertNoteRow_backlinks (inserted : t.insertNoteRow fts path entry = some t') :
    t'.backlinks = t.backlinks := by
  obtain ⟨-,rfl⟩ := insertNoteRow_eq_some inserted
  rfl

omit [Host] in
theorem Mirrors.insertBacklinks (mirrors : Mirrors fts t) (links : List LinkRow) :
    Mirrors fts (t.insertBacklinks links) := ⟨mirrors.paths,mirrors.rowids,mirrors.mirror⟩

omit [Host] in
theorem Owned.insertBacklinks (owned : Owned t) {links : List LinkRow}
    (stored : ∀ row ∈ links, row ∈ t.links) : Owned (t.insertBacklinks links) := by
  refine ⟨owned.tags,owned.properties,owned.links,fun row found => ?_⟩
  have keyed : row.key ∈ keys (t.insertBacklinks links).backlinks := List.mem_map_of_mem found
  rw [Tables.insertBacklinks,keys_insertAll] at keyed
  rcases keyed with there | new
  · obtain ⟨old,member,same⟩ := List.mem_map.mp there
    have source : old.sourcePath = row.sourcePath := congrArg Prod.snd same
    exact source ▸ owned.backlinks old member
  · obtain ⟨made,from_,same⟩ := List.mem_map.mp new
    obtain ⟨link,member,linked⟩ := List.mem_filterMap.mp from_
    have source : made.sourcePath = row.sourcePath := congrArg Prod.snd same
    exact source ▸ backlink_source linked ▸ owned.links link (stored link member)

/-- An upsert that is not rolled back: the links of its note are those of the entry, and the
backlinks follow. -/
theorem Derived.upsert (derived : Derived fts t)
    (upserted : t.upsert fts path entry = some t') : Derived fts t' := by
  obtain ⟨written,inserted,rfl⟩ := Option.map_eq_some_iff.mp upserted
  have before := derived.deleteNoteRows path
  refine ⟨?_,(before.mirrors.insertNoteRow inserted).insertBacklinks _,
    (before.owned.insertNoteRow inserted).insertBacklinks
      fun row found => (List.mem_filter.mp found).1⟩
  obtain ⟨distinct,same⟩ := projects_iff.mp before.projects
  have backlinks := insertNoteRow_backlinks inserted
  have links : written.links = (t.deleteNoteRows fts path).links ++ linkRows path entry := by
    obtain ⟨-,rfl⟩ := insertNoteRow_eq_some inserted
    rfl
  refine projects_iff.mpr ⟨?_,fun key => ?_⟩
  · rw [Tables.syncOutgoingBacklinks,Tables.insertBacklinks]
    exact nodup_insertAll (backlinks ▸ distinct)
  · rw [Tables.syncOutgoingBacklinks,Tables.insertBacklinks]
    dsimp only
    rw [keys_insertAll,backlinks,same,← contributed]
    simp only [mem_contributed,List.mem_filter,decide_eq_true_eq,links]
    constructor
    · rintro (⟨row,found,fits⟩ | ⟨row,⟨found,-⟩,fits⟩)
      · exact ⟨row,List.mem_append_left _ found,fits⟩
      · exact ⟨row,found,fits⟩
    · rintro ⟨row,found,fits⟩
      rcases List.mem_append.mp found with old | new
      · exact .inl ⟨row,old,fits⟩
      · refine .inr ⟨row,⟨found,?_⟩,fits⟩
        obtain ⟨_,-,rfl⟩ := List.mem_map.mp new
        rfl

end Statements

section Operations

variable [Host] {settings : IndexSettings} {d : DerivedIndex} {files : VaultFiles}

structure Unlinked (fts : Bool) (t : Tables) : Prop where
  mirrors : Mirrors fts t
  owned : Owned t
  none_ : t.backlinks = []

theorem unlinked_rebuildNote {t t' : Tables} {names : Basenames} {path : Text}
    (unlinked : Unlinked settings.ftsAvailable t)
    (written : rebuildNote settings files names t path = some t') :
    Unlinked settings.ftsAvailable t' := by
  rw [rebuildNote] at written
  split at written
  · exact Option.some.inj written ▸ unlinked
  · exact ⟨unlinked.mirrors.insertNoteRow written,unlinked.owned.insertNoteRow written,
      (insertNoteRow_backlinks written).trans unlinked.none_⟩

theorem unlinked_rebuildNotes {t t' : Tables} {names : Basenames} {paths : List Text}
    (unlinked : Unlinked settings.ftsAvailable t)
    (written : paths.foldlM (rebuildNote settings files names) t = some t') :
    Unlinked settings.ftsAvailable t' := by
  induction paths generalizing t with
  | nil => exact Option.some.inj written ▸ unlinked
  | cons path rest ih =>
    rw [List.foldlM_cons] at written
    obtain ⟨next,first,later⟩ := Option.bind_eq_some_iff.mp written
    exact ih (unlinked_rebuildNote unlinked first) later

theorem derived_rebuildTables {t t' : Tables} {names : Basenames} {paths : List Text}
    (derived : Derived settings.ftsAvailable t)
    (written : rebuildTables settings files names paths t = some t') :
    Derived settings.ftsAvailable t' := by
  obtain ⟨rows,inserted,rfl⟩ := Option.map_eq_some_iff.mp written
  have start : Unlinked settings.ftsAvailable (t.cleared settings.ftsAvailable) := by
    refine ⟨⟨List.nodup_nil,List.nodup_nil,?_⟩,⟨by simp [Tables.cleared],by simp [Tables.cleared],
      by simp [Tables.cleared],by simp [Tables.cleared]⟩,rfl⟩
    have mirror := derived.mirrors.mirror
    cases fts : settings.ftsAvailable with
    | false => simpa [fts,Tables.cleared] using mirror
    | true => simp [Tables.cleared]
  have unlinked := unlinked_rebuildNotes start inserted
  refine ⟨projects_iff.mpr ⟨?_,fun key => ?_⟩,unlinked.mirrors.insertBacklinks _,
    unlinked.owned.insertBacklinks fun _ found => found⟩
  · rw [Tables.insertBacklinks,unlinked.none_]
    exact nodup_insertAll List.nodup_nil
  · rw [Tables.insertBacklinks,unlinked.none_]
    dsimp only
    rw [keys_insertAll,contributed]
    simp [keys]

theorem derived_rebuild (derived : Derived settings.ftsAvailable d.tables) :
    Derived settings.ftsAvailable (rebuild settings files d).tables := by
  rw [rebuild]
  split
  · exact derived
  · rename_i listing _
    dsimp only
    cases written : rebuildTables settings files (Basenames.ofFiles (scanned listing))
        (scanned listing) d.tables with
    | none => exact derived
    | some t => exact derived_rebuildTables derived written

theorem derived_refresh (derived : Derived settings.ftsAvailable d.tables) :
    Derived settings.ftsAvailable (refresh settings files d).tables := by
  rw [refresh]
  split
  · exact derived_rebuild derived
  · split
    · exact derived
    · exact derived_rebuild derived

theorem derived_applyCreate (derived : Derived settings.ftsAvailable d.tables) (path : Text) :
    Derived settings.ftsAvailable (applyCreate settings files d path).tables := by
  rw [applyCreate]
  split
  · exact derived
  · split
    · exact derived
    · split
      · exact derived
      · rename_i data _
        split
        · exact derived
        · dsimp only
          cases upserted : d.tables.upsert settings.ftsAvailable path
              (entryOf settings (d.names.refresh path) path data) with
          | none => exact derived
          | some t => exact derived.upsert upserted

theorem derived_applyDelete (derived : Derived settings.ftsAvailable d.tables) (path : Text) :
    Derived settings.ftsAvailable (applyDelete settings d path).tables := by
  rw [applyDelete]
  split
  · exact derived
  · dsimp only
    split
    · exact derived.deleteNoteRows path
    · exact derived

end Operations

inductive IndexStep where
  | rebuild (files : VaultFiles)
  | refresh (files : VaultFiles)
  | upsert (files : VaultFiles) (path : Text)
  | delete (path : Text)
  | move (files : VaultFiles) (oldPath newPath : Text)

namespace IndexStep

variable [Host]

def apply (settings : IndexSettings) (d : DerivedIndex) : IndexStep → DerivedIndex
  | .rebuild files => Index.rebuild settings files d
  | .refresh files => Index.refresh settings files d
  | .upsert files path => applyCreate settings files d path
  | .delete path => applyDelete settings d path
  | .move files oldPath newPath => applyMove settings files d oldPath newPath

def run (settings : IndexSettings) (steps : List IndexStep) (d : DerivedIndex) : DerivedIndex :=
  steps.foldl (apply settings) d

theorem derived_apply {settings : IndexSettings} {d : DerivedIndex}
    (derived : Derived settings.ftsAvailable d.tables) (step : IndexStep) :
    Derived settings.ftsAvailable (apply settings d step).tables := by
  cases step with
  | rebuild files => exact derived_rebuild derived
  | refresh files => exact derived_refresh derived
  | upsert files path => exact derived_applyCreate derived path
  | delete path => exact derived_applyDelete derived path
  | move files oldPath newPath => exact derived_applyCreate (derived_applyDelete derived oldPath) _

/-- In every state that operations reach from an empty index, the backlinks are those of the
resolved links, the full-text rows are those of the notes, and no row outlives its note. -/
theorem derived_run (settings : IndexSettings) (steps : List IndexStep) :
    Derived settings.ftsAvailable (run settings steps {}).tables := by
  have kept : ∀ (steps : List IndexStep) (d : DerivedIndex),
      Derived settings.ftsAvailable d.tables →
        Derived settings.ftsAvailable (run settings steps d).tables := by
    intro steps
    induction steps with
    | nil => exact fun _ derived => derived
    | cons step rest ih => exact fun d derived => ih _ (derived_apply derived step)
  exact kept steps {} derived_empty

end IndexStep

section Runs

open scoped AsciiHost

def oneLink : NoteParser where
  frontmatter _ := {}
  body text := text
  title _ fallback := fallback
  wikilinks text :=
    if text = "[[b]]".toList then [{target := "b".toList,raw := "[[b]]".toList}] else []

def oneLinkIndex : IndexSettings where
  parser := oneLink
  noteTextCap := 1000000
  ftsAvailable := true

def twoNotes : VaultFiles where
  listing := some ["a.md".toList,"b.md".toList]
  read path :=
    if path = "a.md".toList then some (encodeUtf8 "[[b]]".toList)
    else if path = "b.md".toList then some (encodeUtf8 "B".toList) else none
  distinct paths listed := by
    obtain rfl := Option.some.inj listed
    decide

def deletedTarget : List IndexStep := [.rebuild twoNotes,.delete "b.md".toList]

/-- The deleted note was indexed; a link and a backlink of the other note still refer to it. -/
theorem deletedTarget_refers :
    "b.md".toList ∈ (IndexStep.run oneLinkIndex [.rebuild twoNotes] {}).tables.notes.map
      NoteRow.path ∧
    "b.md".toList ∉ (IndexStep.run oneLinkIndex deletedTarget {}).tables.notes.map
      NoteRow.path ∧
    (∃ row ∈ (IndexStep.run oneLinkIndex deletedTarget {}).tables.links,
      row.ref.resolvedPath = some "b.md".toList) ∧
    ∃ row ∈ (IndexStep.run oneLinkIndex deletedTarget {}).tables.backlinks,
      row.targetPath = "b.md".toList := by
  refine ⟨?_,?_,?_,?_⟩ <;> decide +kernel

end Runs

end LocalBook.Index
