import LocalBook.Index.Projection

/-! The rows of one path in every table, without the row ids: what each statement makes of
them. -/
namespace LocalBook.Index

structure NoteRows where
  notes : List NoteRow := []
  tags : List TagRow := []
  properties : List PropertyRow := []
  links : List LinkRow := []
  backlinks : List Backlink := []
  fts : List FtsRow := []
deriving DecidableEq

namespace Tables

/-- The rows of a path. -/
def rowsOf (t : Tables) (path : Text) : NoteRows where
  notes := (t.notes.filter fun row => row.path = path).map fun row => {row with rowid := 0}
  tags := t.tags.filter fun row => row.notePath = path
  properties := t.properties.filter fun row => row.notePath = path
  links := t.links.filter fun row => row.sourcePath = path
  backlinks := t.backlinks.filter fun row => row.sourcePath = path
  fts := (t.fts.filter fun row => row.path = path).map fun row => {row with rowid := 0}

end Tables

def writtenRows [Host] (fts : Bool) (path : Text) (entry : NoteIndexEntry) : NoteRows where
  notes := [noteRow path entry 0]
  tags := tagRows path entry
  properties := propertyRows path entry
  links := linkRows path entry
  backlinks := ((linkRows path entry).filterMap LinkRow.backlink).foldl Tables.insertBacklink []
  fts := if fts then [ftsRow path entry 0] else []

section Filters

variable {α β : Type} [DecidableEq β] {owner : α → β} {mine other : β}

theorem filter_without (owner : α → β) (rows : List α) :
    ((rows.filter fun row => owner row ≠ mine).filter fun row => owner row = other) =
      if other = mine then [] else rows.filter fun row => owner row = other := by
  rw [List.filter_filter]
  split
  · rename_i same
    exact List.filter_eq_nil_iff.mpr fun row _ => by simp [same]
  · rename_i differs
    refine List.filter_congr fun row _ => ?_
    by_cases named : owner row = other
    · simp [named,differs]
    · simp [named]

theorem filter_owned {rows : List α} (owned : ∀ row ∈ rows, owner row = mine) :
    (rows.filter fun row => owner row = other) = if other = mine then rows else [] := by
  split
  · rename_i same
    exact List.filter_eq_self.mpr fun row found => decide_eq_true (same ▸ owned row found)
  · rename_i differs
    exact List.filter_eq_nil_iff.mpr fun row found named =>
      differs ((of_decide_eq_true named).symm.trans (owned row found))

theorem filter_absent {rows : List α} (absent : ∀ row ∈ rows, owner row ≠ mine) :
    (rows.filter fun row => owner row = mine) = [] :=
  List.filter_eq_nil_iff.mpr fun row found named => absent row found (of_decide_eq_true named)

end Filters

section Backlinks

theorem filter_insertBacklink (backlinks : List Backlink) (row : Backlink) (path : Text) :
    (Tables.insertBacklink backlinks row).filter (fun row => row.sourcePath = path) =
      if row.sourcePath = path then
        Tables.insertBacklink (backlinks.filter fun row => row.sourcePath = path) row
      else backlinks.filter fun row => row.sourcePath = path := by
  have there : row.sourcePath = path → (row.key ∈ backlinks.map Backlink.key ↔
      row.key ∈ (backlinks.filter fun row => row.sourcePath = path).map Backlink.key) := by
    intro source
    simp only [List.mem_map,List.mem_filter,decide_eq_true_eq]
    constructor
    · rintro ⟨old,found,same⟩
      exact ⟨old,⟨found,(congrArg Prod.snd same).trans source⟩,same⟩
    · rintro ⟨old,⟨found,-⟩,same⟩
      exact ⟨old,found,same⟩
  by_cases source : row.sourcePath = path
  · rw [if_pos source,Tables.insertBacklink,Tables.insertBacklink]
    by_cases known : row.key ∈ backlinks.map Backlink.key
    · rw [if_pos known,if_pos ((there source).mp known)]
    · rw [if_neg known,if_neg fun found => known ((there source).mpr found),List.filter_append]
      simp [source]
  · rw [if_neg source,Tables.insertBacklink]
    split
    · rfl
    · rw [List.filter_append]
      simp [source]

/-- Inserting backlinks touches, for each source, those of that source only. -/
theorem filter_insertAll (rows backlinks : List Backlink) (path : Text) :
    (rows.foldl Tables.insertBacklink backlinks).filter (fun row => row.sourcePath = path) =
      (rows.filter fun row => row.sourcePath = path).foldl Tables.insertBacklink
        (backlinks.filter fun row => row.sourcePath = path) := by
  induction rows generalizing backlinks with
  | nil => rfl
  | cons row rest ih =>
    rw [List.foldl_cons,ih,filter_insertBacklink,List.filter_cons]
    by_cases source : row.sourcePath = path
    · simp [source]
    · simp [source]

theorem filter_backlinks (links : List LinkRow) (path : Text) :
    (links.filterMap LinkRow.backlink).filter (fun row => row.sourcePath = path) =
      (links.filter fun row => row.sourcePath = path).filterMap LinkRow.backlink := by
  induction links with
  | nil => rfl
  | cons row rest ih =>
    rw [List.filter_cons]
    cases made : row.backlink with
    | none =>
      rw [List.filterMap_cons_none made,ih]
      split
      · rw [List.filterMap_cons_none made]
      · rfl
    | some backlink =>
      rw [List.filterMap_cons_some made,List.filter_cons,ih,backlink_source made]
      split
      · rw [List.filterMap_cons_some made]
      · rfl

end Backlinks

section Statements

variable {fts : Bool} {t t' : Tables} {path other : Text} {entry : NoteIndexEntry}

/-- A full-text row is that of a note. -/
theorem Mirrors.owner (mirrors : Mirrors fts t) {row : FtsRow} (found : row ∈ t.fts) :
    ∃ note ∈ t.notes, note.rowid = row.rowid ∧ note.path = row.path := by
  have mirror := mirrors.mirror
  have there : row.indexed ∈ t.fts.map FtsRow.indexed := List.mem_map_of_mem found
  rw [mirror] at there
  split at there
  · obtain ⟨note,member,same⟩ := List.mem_map.mp there
    exact ⟨note,member,congrArg Prod.fst same,congrArg (fun row => row.2.1) same⟩
  · cases there

theorem Mirrors.fts_deleteNoteRows (mirrors : Mirrors fts t) :
    (t.deleteNoteRows fts path).fts = t.fts.filter fun row => row.path ≠ path := by
  rw [Tables.deleteNoteRows]
  dsimp only
  cases present : t.note path with
  | none =>
    have elsewhere : ∀ row ∈ t.fts, row.path ≠ path := by
      intro row found same
      obtain ⟨note,member,-,named⟩ := mirrors.owner found
      exact absurd (List.find?_eq_none.mp present note member) (by simp [named.trans same])
    exact (List.filter_eq_self.mpr fun row found => decide_eq_true (elsewhere row found)).symm
  | some found =>
    have there := List.mem_of_find?_eq_some present
    have named : found.path = path := by simpa using List.find?_some present
    dsimp only
    cases fts with
    | false =>
      have empty : t.fts = [] := by simpa using mirrors.mirror
      simp [empty]
    | true =>
      rw [if_pos rfl]
      refine List.filter_congr fun row member => ?_
      obtain ⟨note,noted,id,placed⟩ := mirrors.owner member
      have ids : row.rowid = found.rowid ↔ row.path = path := by
        rw [← id,← placed,← named]
        exact ⟨fun same => congrArg NoteRow.path
            (List.inj_on_of_nodup_map mirrors.rowids noted there same),
          fun same => congrArg NoteRow.rowid
            (List.inj_on_of_nodup_map mirrors.paths noted there same)⟩
      simp [ids]

/-- Deleting a note takes its own rows and no others. -/
theorem rowsOf_deleteNoteRows (mirrors : Mirrors fts t) :
    (t.deleteNoteRows fts path).rowsOf other = if other = path then {} else t.rowsOf other := by
  rw [Tables.rowsOf,mirrors.fts_deleteNoteRows]
  simp only [Tables.deleteNoteRows]
  rw [filter_without NoteRow.path,filter_without TagRow.notePath,
    filter_without PropertyRow.notePath,filter_without LinkRow.sourcePath,
    filter_without Backlink.sourcePath,filter_without FtsRow.path]
  split
  · rfl
  · rfl

theorem rowsOf_insertBacklinks (links : List LinkRow) :
    (t.insertBacklinks links).rowsOf path = {t.rowsOf path with
      backlinks := ((links.filter fun row => row.sourcePath = path).filterMap
        LinkRow.backlink).foldl Tables.insertBacklink (t.rowsOf path).backlinks} := by
  rw [Tables.insertBacklinks,Tables.rowsOf,Tables.rowsOf]
  simp only [filter_insertAll,filter_backlinks]

theorem rowsOf_absent (mirrors : Mirrors fts t) (owned : Owned t)
    (absent : path ∉ t.notes.map NoteRow.path) : t.rowsOf path = {} := by
  have notes : ∀ row ∈ t.notes, row.path ≠ path := fun row found same =>
    absent (same ▸ List.mem_map_of_mem found)
  have mirrored : ∀ row ∈ t.fts, row.path ≠ path := by
    intro row found same
    obtain ⟨note,member,-,named⟩ := mirrors.owner found
    exact notes note member (named.trans same)
  have tags : ∀ row ∈ t.tags, row.notePath ≠ path := fun row found same =>
    absent (same ▸ owned.tags row found)
  have properties : ∀ row ∈ t.properties, row.notePath ≠ path := fun row found same =>
    absent (same ▸ owned.properties row found)
  have links : ∀ row ∈ t.links, row.sourcePath ≠ path := fun row found same =>
    absent (same ▸ owned.links row found)
  have backlinks : ∀ row ∈ t.backlinks, row.sourcePath ≠ path := fun row found same =>
    absent (same ▸ owned.backlinks row found)
  rw [Tables.rowsOf,filter_absent notes,filter_absent mirrored,filter_absent tags,
    filter_absent properties,filter_absent links,filter_absent backlinks]
  rfl

variable [Host]

theorem mem_tagRows (path : Text) (entry : NoteIndexEntry) :
    ∀ row ∈ tagRows path entry, row.notePath = path := by
  intro row found
  obtain ⟨_,-,rfl⟩ := List.mem_map.mp found
  rfl

omit [Host] in
theorem mem_propertyRows (path : Text) (entry : NoteIndexEntry) :
    ∀ row ∈ propertyRows path entry, row.notePath = path := by
  intro row found
  obtain ⟨_,-,rfl⟩ := List.mem_map.mp found
  rfl

omit [Host] in
theorem mem_linkRows (path : Text) (entry : NoteIndexEntry) :
    ∀ row ∈ linkRows path entry, row.sourcePath = path := by
  intro row found
  obtain ⟨_,-,rfl⟩ := List.mem_map.mp found
  rfl

theorem rowsOf_insertNoteRow (mirrors : Mirrors fts t) (owned : Owned t)
    (inserted : t.insertNoteRow fts path entry = some t') (other : Text) :
    t'.rowsOf other =
      if other = path then {writtenRows fts path entry with backlinks := []}
      else t.rowsOf other := by
  obtain ⟨absent,rfl⟩ := insertNoteRow_eq_some inserted
  have none_ := rowsOf_absent mirrors owned absent
  rw [Tables.rowsOf]
  simp only [List.filter_append]
  rw [filter_owned (mem_tagRows path entry),
    filter_owned (mem_propertyRows path entry),
    filter_owned (mem_linkRows path entry)]
  split
  · rename_i same
    subst same
    rw [Tables.rowsOf,NoteRows.mk.injEq] at none_
    obtain ⟨notes,tags,properties,links,backlinks,mirrored⟩ := none_
    rw [tags,properties,links,backlinks,List.map_append,notes]
    cases fts with
    | false => simp [writtenRows,noteRow,mirrored]
    | true => simp [writtenRows,noteRow,ftsRow,List.filter_append,mirrored]
  · rename_i differs
    have apart : path ≠ other := fun same => differs same.symm
    cases fts with
    | false => simp [Tables.rowsOf,noteRow,apart]
    | true => simp [Tables.rowsOf,noteRow,ftsRow,List.filter_append,apart]

/-- An upsert writes the rows of its note and no others. -/
theorem rowsOf_upsert (derived : Derived fts t)
    (upserted : t.upsert fts path entry = some t') :
    t'.rowsOf other = if other = path then writtenRows fts path entry else t.rowsOf other := by
  obtain ⟨rows,inserted,rfl⟩ := Option.map_eq_some_iff.mp upserted
  have before := derived.deleteNoteRows path
  have written := rowsOf_insertNoteRow before.mirrors before.owned inserted other
  have mine := rowsOf_insertNoteRow before.mirrors before.owned inserted path
  rw [if_pos rfl] at mine
  have links : rows.links.filter (fun row => row.sourcePath = path) = linkRows path entry :=
    congrArg NoteRows.links mine
  rw [Tables.syncOutgoingBacklinks,rowsOf_insertBacklinks,links,written,
    filter_owned (mem_linkRows path entry)]
  split
  · rfl
  · rename_i differs
    rw [rowsOf_deleteNoteRows derived.mirrors,if_neg differs]
    rfl

/-- The entry of a note keeps the keys of its tags and properties apart. -/
theorem fits_entryOf (settings : IndexSettings) (names : Basenames) (data : Bytes) :
    ((tagRows path (entryOf settings names path data)).map TagRow.tagFolded).Nodup ∧
      ((propertyRows path (entryOf settings names path data)).map PropertyRow.key).Nodup := by
  rw [entryOf]
  cases decodeUtf8 data with
  | none => exact ⟨List.nodup_nil,List.nodup_nil⟩
  | some text =>
    have folded : foldedTags (entryFromText settings names path text (sha256Bytes data)) =
        (settings.parser.frontmatter text).tagsFolded := by
      rw [foldedTags,entryFromText]
      dsimp only
      split
      · rfl
      · rfl
    constructor
    · have tags : (tagRows path (entryFromText settings names path text
          (sha256Bytes data))).map TagRow.tagFolded =
          (settings.parser.frontmatter text).tagsFolded := by
        rw [tagRows,folded,List.map_map]
        have columns : (TagRow.tagFolded ∘ fun row : (Text × Text) × Nat =>
            (⟨path,row.1.1,row.1.2,row.2⟩ : TagRow)) = Prod.snd ∘ Prod.fst := rfl
        rw [columns,← List.map_map,List.zipIdx_map_fst,List.map_snd_zip]
        simp [entryFromText,FrontmatterResult.tagsFolded]
      rw [tags]
      exact (settings.parser.frontmatter text).distinctTags
    · rw [propertyRows,List.map_map]
      exact ((List.perm_insertionSort _ _).map Prod.fst).nodup_iff.mpr
        (settings.parser.frontmatter text).propertyKeys

theorem insertNoteRow_succeeds (mirrors : Mirrors fts t) (absent : path ∉ t.notes.map NoteRow.path)
    (settings : IndexSettings) (names : Basenames) (data : Bytes) :
    ∃ t', t.insertNoteRow fts path (entryOf settings names path data) = some t' := by
  obtain ⟨tags,properties⟩ := @fits_entryOf path _ settings names data
  have free : ¬ (fts = true ∧ Tables.nextRowid t.notes ∈ t.fts.map FtsRow.rowid) := by
    rintro ⟨-,taken⟩
    obtain ⟨row,found,id⟩ := List.mem_map.mp taken
    obtain ⟨note,member,same,-⟩ := mirrors.owner found
    exact absurd (lt_nextRowid member) (by omega)
  have fits : ¬ t.Conflicts fts path (entryOf settings names path data) := by
    rintro (there | clash | clash | taken)
    · exact absent there
    · exact clash tags
    · exact clash properties
    · exact free taken
  exact ⟨_,if_neg fits⟩

omit [Host] in
theorem absent_deleteNoteRows (fts : Bool) (t : Tables) (path : Text) :
    path ∉ (t.deleteNoteRows fts path).notes.map NoteRow.path := by
  intro there
  obtain ⟨row,found,same⟩ := List.mem_map.mp there
  exact of_decide_eq_true (List.mem_filter.mp found).2 same

/-- No upsert of a note is rolled back. -/
theorem upsert_succeeds (derived : Derived fts t) (settings : IndexSettings) (names : Basenames)
    (data : Bytes) : ∃ t', t.upsert fts path (entryOf settings names path data) = some t' := by
  obtain ⟨rows,inserted⟩ := insertNoteRow_succeeds (derived.deleteNoteRows path).mirrors
    (absent_deleteNoteRows fts t path) settings names data
  exact ⟨_,congrArg (Option.map _) inserted⟩

end Statements

section Rebuilding

variable [Host] {settings : IndexSettings} {files : VaultFiles} {names : Basenames}
  {paths : List Text} {t : Tables}

def readRows (settings : IndexSettings) (files : VaultFiles) (names : Basenames) (path : Text) :
    NoteRows :=
  match files.read path with
  | none => {}
  | some data => writtenRows settings.ftsAvailable path (entryOf settings names path data)

def rebuiltRows (settings : IndexSettings) (files : VaultFiles) (names : Basenames)
    (paths : List Text) (path : Text) : NoteRows :=
  if path ∈ paths.filter markdownFile then readRows settings files names path else {}

/-- Scanning distinct paths writes each of them and keeps the others. -/
theorem rebuildNotes_rows (distinct : paths.Nodup)
    (unlinked : Unlinked settings.ftsAvailable t)
    (fresh : ∀ path ∈ paths, path ∉ t.notes.map NoteRow.path) :
    ∃ t', paths.foldlM (rebuildNote settings files names) t = some t' ∧
      ∀ path, t'.rowsOf path =
        if path ∈ paths then {readRows settings files names path with backlinks := []}
        else t.rowsOf path := by
  induction paths generalizing t with
  | nil => exact ⟨t,rfl,fun path => by simp⟩
  | cons first rest ih =>
    obtain ⟨once,distinct⟩ := List.nodup_cons.mp distinct
    have absent := fresh first (List.mem_cons_self ..)
    have step : ∃ next, rebuildNote settings files names t first = some next ∧
        (∀ path, path ≠ first → path ∈ next.notes.map NoteRow.path →
          path ∈ t.notes.map NoteRow.path) ∧
        ∀ path, next.rowsOf path =
          if path = first then {readRows settings files names first with backlinks := []}
          else t.rowsOf path := by
      rw [rebuildNote]
      cases read : files.read first with
      | none =>
        refine ⟨t,rfl,fun _ _ found => found,fun path => ?_⟩
        split
        · rename_i same
          rw [same,rowsOf_absent unlinked.mirrors unlinked.owned absent,readRows,read]
        · rfl
      | some data =>
        obtain ⟨next,inserted⟩ := insertNoteRow_succeeds unlinked.mirrors absent settings names data
        refine ⟨next,inserted,fun path other found => ?_,fun path => ?_⟩
        · obtain ⟨-,rfl⟩ := insertNoteRow_eq_some inserted
          rw [List.map_append] at found
          rcases List.mem_append.mp found with old | new
          · exact old
          · exact absurd (List.mem_singleton.mp new) other
        · rw [rowsOf_insertNoteRow unlinked.mirrors unlinked.owned inserted,readRows,read]
    obtain ⟨next,written,others,rows⟩ := step
    obtain ⟨t',later,all⟩ := ih distinct (unlinked_rebuildNote unlinked written)
      fun path found there =>
        fresh path (List.mem_cons_of_mem _ found)
          (others path (fun same => once (same ▸ found)) there)
    refine ⟨t',by rw [List.foldlM_cons,written]; exact later,fun path => ?_⟩
    rw [all path,rows path]
    by_cases again : path ∈ rest
    · rw [if_pos again,if_pos (List.mem_cons_of_mem _ again)]
    · rw [if_neg again]
      by_cases same : path = first
      · rw [if_pos same,if_pos (same ▸ List.mem_cons_self ..),same]
      · rw [if_neg same,if_neg (by simp [same,again])]

theorem unlinked_cleared (derived : Derived settings.ftsAvailable t) :
    Unlinked settings.ftsAvailable (t.cleared settings.ftsAvailable) := by
  refine ⟨⟨List.nodup_nil,List.nodup_nil,?_⟩,⟨by simp [Tables.cleared],by simp [Tables.cleared],
    by simp [Tables.cleared],by simp [Tables.cleared]⟩,rfl⟩
  have mirror := derived.mirrors.mirror
  cases fts : settings.ftsAvailable with
  | false => simpa [fts,Tables.cleared] using mirror
  | true => simp [Tables.cleared]

/-- A rebuild succeeds, and writes the rows of every listed note that can be read. -/
theorem rebuildTables_rows (distinct : paths.Nodup) (derived : Derived settings.ftsAvailable t) :
    ∃ t', rebuildTables settings files names paths t = some t' ∧
      ∀ path, t'.rowsOf path = rebuiltRows settings files names paths path := by
  have start := unlinked_cleared derived
  obtain ⟨rows,written,all⟩ := @rebuildNotes_rows _ settings files names _ _
    (distinct.filter markdownFile) start (by simp [Tables.cleared])
  refine ⟨_,congrArg (Option.map _) written,fun path => ?_⟩
  have before : (t.cleared settings.ftsAvailable).rowsOf path = {} :=
    rowsOf_absent start.mirrors start.owned (by simp [Tables.cleared])
  have mine := all path
  rw [before] at mine
  have links : rows.links.filter (fun row => row.sourcePath = path) =
      (rebuiltRows settings files names paths path).links := by
    have same := congrArg NoteRows.links mine
    rw [rebuiltRows]
    split
    · rename_i listed
      rw [if_pos listed] at same
      exact same
    · rename_i missing
      rw [if_neg missing] at same
      exact same
  rw [rowsOf_insertBacklinks,links,mine,rebuiltRows]
  split
  · rw [readRows]
    cases files.read path with
    | none => rfl
    | some data => rfl
  · rfl

end Rebuilding

end LocalBook.Index
