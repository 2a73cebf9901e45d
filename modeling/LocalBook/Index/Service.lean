import LocalBook.Index.Tables
import LocalBook.Vault.Watcher

/-! The derived index over the files of a Vault: the full rebuild, the reuse of stored rows
at startup, and the incremental updates that the watcher drives. -/
namespace LocalBook.Index

open Vault (VaultEvent)

/-- The files of the Vault: what `list_tree` lists, unless it fails, and what `read_bytes`
returns of a path. -/
structure VaultFiles where
  listing : Option (List Text)
  read : Text → Option Bytes
  distinct : ∀ paths ∈ listing, paths.Nodup

/-- The service. The paths of buffered events are kept in the order of their first event. -/
structure DerivedIndex where
  tables : Tables := {}
  names : Basenames := {}
  pending : List Text := []

section Service

variable [Host] (settings : IndexSettings)

def scanned (listing : List Text) : List Text := listing.insertionSort byCasefold

def rebuildNote (files : VaultFiles) (names : Basenames) (t : Tables) (path : Text) :
    Option Tables :=
  match files.read path with
  | none => some t
  | some data => t.insertNoteRow settings.ftsAvailable path (entryOf settings names path data)

def rebuildTables (files : VaultFiles) (names : Basenames) (paths : List Text) (t : Tables) :
    Option Tables :=
  ((paths.filter markdownFile).foldlM (rebuildNote settings files names)
    (t.cleared settings.ftsAvailable)).map fun written => written.insertBacklinks written.links

/-- `rebuild`; a failed transaction is rolled back. -/
def rebuild (files : VaultFiles) (d : DerivedIndex) : DerivedIndex :=
  match files.listing with
  | none => d
  | some listing =>
    let paths := scanned listing
    let names := Basenames.ofFiles paths
    {d with
      names,
      tables := (rebuildTables settings files names paths d.tables).getD d.tables}

def digestsMatch (files : VaultFiles) (t : Tables) (paths : List Text) : Bool :=
  paths.all fun path => ((t.note path).map NoteRow.sha256).isSome &&
    (t.note path).map NoteRow.sha256 = (files.read path).map sha256Bytes

/-- The stored rows fit the files, as far as `refresh` checks. -/
def fingerprintsMatch (files : VaultFiles) (t : Tables) (listing : List Text) : Bool :=
  let paths := (listing.filter markdownFile).dedup
  let stored := t.notes.map NoteRow.path
  stored.length = paths.length && stored.all (· ∈ paths) && paths.all (· ∈ stored) &&
    (!settings.ftsAvailable || t.fts.length = paths.length) && digestsMatch files t paths

/-- `refresh`. -/
def refresh (files : VaultFiles) (d : DerivedIndex) : DerivedIndex :=
  match files.listing with
  | none => rebuild settings files d
  | some listing =>
    if fingerprintsMatch settings files d.tables listing then
      {d with names := Basenames.ofFiles (scanned listing)}
    else rebuild settings files d

/-- `_apply_create`. -/
def applyCreate (files : VaultFiles) (d : DerivedIndex) (path : Text) : DerivedIndex :=
  if path = [] then d
  else if ¬ markdownFile path then {d with names := d.names.refresh path}
  else
    match files.read path with
    | none => d
    | some data =>
      if (d.tables.note path).map NoteRow.sha256 = some (sha256Bytes data) then d
      else
        let names := d.names.refresh path
        let entry := entryOf settings names path data
        {d with
          names,
          tables := (d.tables.upsert settings.ftsAvailable path entry).getD d.tables}

/-- `_apply_delete`. -/
def applyDelete (d : DerivedIndex) (path : Text) : DerivedIndex :=
  if path = [] then d
  else
    let tables := if (d.tables.note path).isSome then
      d.tables.deleteNoteRows settings.ftsAvailable path else d.tables
    {d with tables,names := d.names.remove path}

def syncEvent (files : VaultFiles) (d : DerivedIndex) (path : Text) : DerivedIndex :=
  if (files.read path).isSome then applyCreate settings files d path
  else applyDelete settings d path

/-- `_flush_event`, when the timer of the last event of a path fires. -/
def flushEvent (files : VaultFiles) (d : DerivedIndex) (path : Text) : DerivedIndex :=
  if path ∈ d.pending then
    syncEvent settings files {d with pending := d.pending.erase path} path
  else d

/-- `flush_events`. -/
def flushEvents (files : VaultFiles) (d : DerivedIndex) : DerivedIndex :=
  d.pending.foldl (flushEvent settings files) d

omit [Host] in
def buffer (d : DerivedIndex) (path : Text) : DerivedIndex :=
  if path = [] ∨ path ∈ d.pending then d else {d with pending := d.pending ++ [path]}

def applyMove (files : VaultFiles) (d : DerivedIndex) (oldPath newPath : Text) : DerivedIndex :=
  applyCreate settings files (applyDelete settings d oldPath) newPath

/-- `handle_event`. -/
def handleEvent (files : VaultFiles) (d : DerivedIndex) : VaultEvent → DerivedIndex
  | .moved oldPath newPath _ => applyMove settings files d oldPath newPath
  | .created path _ | .modified path _ | .deleted path _ => buffer d path

end Service

end LocalBook.Index
