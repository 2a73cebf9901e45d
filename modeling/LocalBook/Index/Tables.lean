import LocalBook.Index.Entry

/-! The tables of the derived index, and the statements that write them. Foreign keys are
enforced, so what belongs to a note goes with its row. -/
namespace LocalBook.Index

/-- A row of `notes`, with its implicit row id. -/
structure NoteRow where
  rowid : Nat
  path : Text
  sha256 : Text
  title : Text
  basename : Text
  text : Text
  textTruncated : Bool
  frontmatterStatus : FrontmatterStatus
  diagnostic : Option Text
  parseError : Option Text
  searchFolded : Text
deriving Repr,DecidableEq

structure TagRow where
  notePath : Text
  tag : Text
  tagFolded : Text
  seq : Nat
deriving Repr,DecidableEq

structure PropertyRow where
  notePath : Text
  key : Text
  valueJson : Text
deriving Repr,DecidableEq

/-- A row of `links`: a resolved wikilink of a note. -/
structure LinkRow where
  sourcePath : Text
  seq : Nat
  ref : WikilinkRef
deriving Repr,DecidableEq

structure Backlink where
  targetPath : Text
  sourcePath : Text
  context : Option Text
deriving Repr,DecidableEq

structure FtsRow where
  rowid : Nat
  path : Text
  title : Text
  basename : Text
  tags : Text
  body : Text
deriving Repr,DecidableEq

structure Tables where
  notes : List NoteRow := []
  tags : List TagRow := []
  properties : List PropertyRow := []
  links : List LinkRow := []
  backlinks : List Backlink := []
  fts : List FtsRow := []
deriving Repr,DecidableEq

def NoteRow.indexed (row : NoteRow) : Nat × Text × Text × Text × Text :=
  (row.rowid,row.path,row.title,row.basename,row.text)

def FtsRow.indexed (row : FtsRow) : Nat × Text × Text × Text × Text :=
  (row.rowid,row.path,row.title,row.basename,row.body)

def Backlink.key (row : Backlink) : Text × Text := (row.targetPath,row.sourcePath)

def LinkRow.backlink (row : LinkRow) : Option Backlink :=
  match row.ref.resolvedPath with
  | none => none
  | some target =>
    if target = row.sourcePath then none
    else some {targetPath := target,sourcePath := row.sourcePath,context := row.ref.context}

section Rows

variable [Host] (path : Text) (entry : NoteIndexEntry)

def foldedTags : List Text :=
  if entry.tagsFolded = [] then entry.tags.map Host.casefold else entry.tagsFolded

omit [Host] in
def noteRow (rowid : Nat) : NoteRow where
  rowid := rowid
  path := path
  sha256 := entry.sha256
  title := entry.title
  basename := entry.basename
  text := entry.text
  textTruncated := entry.textTruncated
  frontmatterStatus := entry.frontmatterStatus
  diagnostic := entry.diagnostic
  parseError := entry.parseError
  searchFolded := entry.searchFolded

def tagRows : List TagRow :=
  (entry.tags.zip (foldedTags entry)).zipIdx.map fun row => ⟨path,row.1.1,row.1.2,row.2⟩

omit [Host] in
def propertyRows : List PropertyRow :=
  (entry.properties.insertionSort fun a b => a.1 ≤ b.1).map fun row => ⟨path,row.1,row.2⟩

omit [Host] in
def linkRows : List LinkRow := entry.outgoing.zipIdx.map fun row => ⟨path,row.2,row.1⟩

def ftsRow (rowid : Nat) : FtsRow where
  rowid := rowid
  path := path
  title := entry.title
  basename := entry.basename
  tags := Text.join [' '] (foldedTags entry)
  body := entry.text

end Rows

namespace Tables

def nextRowid (notes : List NoteRow) : Nat := (notes.map NoteRow.rowid).foldr max 0 + 1

/-- A row that `_insert_note_row` inserts breaks a primary key. -/
def Conflicts [Host] (t : Tables) (fts : Bool) (path : Text) (entry : NoteIndexEntry) : Prop :=
  path ∈ t.notes.map NoteRow.path ∨ ¬ ((tagRows path entry).map TagRow.tagFolded).Nodup ∨
    ¬ ((propertyRows path entry).map PropertyRow.key).Nodup ∨
    (fts = true ∧ nextRowid t.notes ∈ t.fts.map FtsRow.rowid)

instance [Host] (t : Tables) (fts : Bool) (path : Text) (entry : NoteIndexEntry) :
    Decidable (t.Conflicts fts path entry) :=
  inferInstanceAs (Decidable (_ ∨ ¬ _ ∨ ¬ _ ∨ (_ ∧ _)))

/-- `_insert_note_row`; a conflict raises. -/
def insertNoteRow [Host] (fts : Bool) (t : Tables) (path : Text) (entry : NoteIndexEntry) :
    Option Tables :=
  if t.Conflicts fts path entry then none
  else
    let rowid := nextRowid t.notes
    some {t with
      notes := t.notes ++ [noteRow path entry rowid],
      tags := t.tags ++ tagRows path entry,
      properties := t.properties ++ propertyRows path entry,
      links := t.links ++ linkRows path entry,
      fts := if fts then t.fts ++ [ftsRow path entry rowid] else t.fts}

/-- The row of a path. -/
def note (t : Tables) (path : Text) : Option NoteRow := t.notes.find? fun row => row.path = path

/-- `_delete_note_rows`. -/
def deleteNoteRows (fts : Bool) (t : Tables) (path : Text) : Tables where
  notes := t.notes.filter fun row => row.path ≠ path
  tags := t.tags.filter fun row => row.notePath ≠ path
  properties := t.properties.filter fun row => row.notePath ≠ path
  links := t.links.filter fun row => row.sourcePath ≠ path
  backlinks := t.backlinks.filter fun row => row.sourcePath ≠ path
  fts := match t.note path with
    | some found => if fts then t.fts.filter fun row => row.rowid ≠ found.rowid else t.fts
    | none => t.fts

/-- `INSERT OR IGNORE INTO backlinks`. -/
def insertBacklink (backlinks : List Backlink) (row : Backlink) : List Backlink :=
  if row.key ∈ backlinks.map Backlink.key then backlinks else backlinks ++ [row]

def insertBacklinks (t : Tables) (links : List LinkRow) : Tables :=
  {t with backlinks := (links.filterMap LinkRow.backlink).foldl insertBacklink t.backlinks}

/-- `_sync_outgoing_backlinks`. -/
def syncOutgoingBacklinks (t : Tables) (path : Text) : Tables :=
  t.insertBacklinks (t.links.filter fun row => row.sourcePath = path)

def upsert [Host] (fts : Bool) (t : Tables) (path : Text) (entry : NoteIndexEntry) :
    Option Tables :=
  ((t.deleteNoteRows fts path).insertNoteRow fts path entry).map
    fun inserted => inserted.syncOutgoingBacklinks path

def cleared (fts : Bool) (t : Tables) : Tables := {fts := if fts then [] else t.fts}

end Tables

end LocalBook.Index
