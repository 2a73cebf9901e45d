import LocalBook.ReadFlow.Outbox

/-! The local database of the reading client. A local edit writes its row and the entry of
the outbox that tells the server of it in one transaction. -/
namespace LocalBook.ReadFlow

abbrev Date := Int

structure SourceMetadata where
  author : Option Text := none
  publishedDate : Option Date := none
  domain : Option Text := none
  favicon : Option Text := none
  pageCount : Option Int := none
  fileSize : Option Int := none
  appBundleID : Option Text := none
  appName : Option Text := none
deriving DecidableEq

inductive SourceType where
  | web
  | pdf
  | document
  | markdown
  | app
deriving DecidableEq

structure Source where
  id : UUID
  type : SourceType
  title : Text
  url : Option Text := none
  canonicalURL : Option Text := none
  filePath : Option Text := none
  fileHash : Option Text := none
  createdAt : Date
  lastReadAt : Option Date := none
  metadata : Option SourceMetadata := none
deriving DecidableEq

inductive ItemType where
  | source
  | highlight
  | note
  | question
  | answer
deriving DecidableEq

/-- The states of an item. A highlight or a note is in the first, the second or the fourth. -/
inductive SyncState where
  | localOnly
  | pending
  | syncing
  | synced
  | conflict
  | failed
deriving DecidableEq

structure ReaderItem where
  id : UUID
  type : ItemType
  sourceID : Option UUID := none
  sessionID : Option UUID := none
  parentID : Option UUID := none
  content : Text
  metadata : Option (List UInt8) := none
  createdAt : Date
  updatedAt : Date
  syncState : SyncState := .localOnly
deriving DecidableEq

structure Highlight where
  id : UUID
  sourceID : UUID
  sessionID : Option UUID := none
  selectedText : Text
  contextBefore : Text := []
  contextAfter : Text := []
  page : Option Int := none
  location : Option Text := none
  createdAt : Date
  syncState : SyncState := .localOnly
deriving DecidableEq

structure Note where
  id : UUID
  sourceID : UUID
  highlightID : Option UUID := none
  sessionID : Option UUID := none
  content : Text
  createdAt : Date
  updatedAt : Date
  revision : Int := 1
  syncState : SyncState := .localOnly
deriving DecidableEq

structure Tables where
  sources : List Source := []
  readerItems : List ReaderItem := []
  highlights : List Highlight := []
  notes : List Note := []
deriving DecidableEq

inductive Entity where
  | source (source : Source)
  | readerItem (item : ReaderItem)
  | highlight (highlight : Highlight)
  | note (note : Note)
deriving DecidableEq

inductive Key where
  | source (id : UUID)
  | readerItem (id : UUID)
  | highlight (id : UUID)
  | note (id : UUID)
deriving DecidableEq

def Entity.key : Entity → Key
  | .source row => .source row.id
  | .readerItem row => .readerItem row.id
  | .highlight row => .highlight row.id
  | .note row => .note row.id

inductive DatabaseError where
  | constraint
  | recordNotFound
deriving DecidableEq

namespace Tables

def has (tables : Tables) : Key → Bool
  | .source id => tables.sources.any fun row => row.id = id
  | .readerItem id => tables.readerItems.any fun row => row.id = id
  | .highlight id => tables.highlights.any fun row => row.id = id
  | .note id => tables.notes.any fun row => row.id = id

def append (tables : Tables) : Entity → Tables
  | .source source => {tables with sources := tables.sources ++ [source]}
  | .readerItem item => {tables with readerItems := tables.readerItems ++ [item]}
  | .highlight highlight => {tables with highlights := tables.highlights ++ [highlight]}
  | .note note => {tables with notes := tables.notes ++ [note]}

def replace (tables : Tables) : Entity → Tables
  | .source source =>
    {tables with
      sources := tables.sources.map fun row => if row.id = source.id then source else row}
  | .readerItem item =>
    {tables with
      readerItems := tables.readerItems.map fun row => if row.id = item.id then item else row}
  | .highlight highlight =>
    {tables with
      highlights := tables.highlights.map fun row =>
        if row.id = highlight.id then highlight else row}
  | .note note =>
    {tables with notes := tables.notes.map fun row => if row.id = note.id then note else row}

/-- The foreign keys of a record hold, and its columns that must not be null are given. An
item may be its own parent. -/
def accepts (tables : Tables) : Entity → Bool
  | .source _ => true
  | .readerItem item =>
    item.sourceID.any (fun id => tables.has (.source id)) &&
      item.parentID.all fun id => id = item.id || tables.has (.readerItem id)
  | .highlight highlight => tables.has (.source highlight.sourceID)
  | .note note =>
    tables.has (.source note.sourceID) &&
      note.highlightID.all fun id => tables.has (.highlight id)

/-- `insert(db)`. -/
def insert (entity : Entity) (tables : Tables) : Except DatabaseError Tables :=
  if tables.has entity.key || !tables.accepts entity then .error .constraint
  else .ok (tables.append entity)

/-- `update(db)`. -/
def update (entity : Entity) (tables : Tables) : Except DatabaseError Tables :=
  if !tables.accepts entity then .error .constraint
  else if tables.has entity.key then .ok (tables.replace entity)
  else .error .recordNotFound

/-- `save(db)`: an update, or an insert when there is no row. -/
def save (entity : Entity) (tables : Tables) : Except DatabaseError Tables :=
  if tables.has entity.key then tables.update entity else tables.insert entity

def dropNotes (gone : Note → Bool) (tables : Tables) : Tables :=
  {tables with notes := tables.notes.filter fun note => !gone note}

/-- `ON DELETE CASCADE`: a highlight takes its notes along. -/
def dropHighlights (gone : Highlight → Bool) (tables : Tables) : Tables :=
  let ids := (tables.highlights.filter gone).map Highlight.id
  dropNotes (fun note => note.highlightID.any fun id => id ∈ ids)
    {tables with highlights := tables.highlights.filter fun row => !gone row}

/-- An item takes the items along whose parent it is, and those theirs. Every round but the
last takes one item at least. -/
def cascadeItems : Nat → (ReaderItem → Bool) → List ReaderItem → List ReaderItem
  | 0,_,items => items
  | rounds + 1,gone,items =>
    let ids := (items.filter gone).map ReaderItem.id
    let kept := items.filter fun item => !gone item
    if ids.isEmpty then kept
    else cascadeItems rounds (fun item => item.parentID.any fun id => id ∈ ids) kept

def dropItems (gone : ReaderItem → Bool) (tables : Tables) : Tables :=
  {tables with
    readerItems := cascadeItems (tables.readerItems.length + 1) gone tables.readerItems}

def dropSource (id : UUID) (tables : Tables) : Tables :=
  if tables.has (.source id) then
    dropItems (fun item => item.sourceID = some id)
      (dropHighlights (fun highlight => highlight.sourceID = id)
        (dropNotes (fun note => note.sourceID = id)
          {tables with sources := tables.sources.filter fun row => row.id ≠ id}))
  else tables

/-- `deleteOne(db, key:)`. -/
def deleteOne (key : Key) (tables : Tables) : Tables :=
  match key with
  | .source id => tables.dropSource id
  | .readerItem id => tables.dropItems fun row => row.id = id
  | .highlight id => tables.dropHighlights fun row => row.id = id
  | .note id => tables.dropNotes fun row => row.id = id

end Tables

/-- An entry of `sync_outbox`, before it is sent. Its payload is kept as the record that it
encodes; that of a deletion is empty. -/
structure OutboxEntry where
  id : Nat
  key : Key
  operation : Reader.SyncOperation
  payload : Option Entity
  createdAt : Date
  retryCount : Nat := 0
  lastError : Option String := none
deriving DecidableEq

/-- The database. `sequence` is the largest id the outbox ever gave out, and `history` is
every entry it was ever given. -/
structure ReaderDatabase where
  tables : Tables := {}
  outbox : List OutboxEntry := []
  sequence : Nat := 0
  history : List OutboxEntry := []

namespace ReaderDatabase

/-- `SyncOutbox(…).insert(db)`. -/
def enqueue (key : Key) (operation : Reader.SyncOperation) (payload : Option Entity)
    (now : Date) (db : ReaderDatabase) : ReaderDatabase :=
  let entry : OutboxEntry := {id := db.sequence + 1,key,operation,payload,createdAt := now}
  {db with
    outbox := db.outbox ++ [entry],
    sequence := db.sequence + 1,
    history := db.history ++ [entry]}

def create (entity : Entity) (now : Date) (db : ReaderDatabase) :
    Except DatabaseError ReaderDatabase := do
  let tables ← db.tables.insert entity
  return enqueue entity.key .create (some entity) now {db with tables}

def update (entity : Entity) (now : Date) (db : ReaderDatabase) :
    Except DatabaseError ReaderDatabase := do
  let tables ← db.tables.update entity
  return enqueue entity.key .update (some entity) now {db with tables}

def delete (key : Key) (now : Date) (db : ReaderDatabase) : ReaderDatabase :=
  enqueue key .delete none now {db with tables := db.tables.deleteOne key}

def upsert (entity : Entity) (db : ReaderDatabase) : Except DatabaseError ReaderDatabase := do
  let tables ← db.tables.save entity
  return {db with tables}

def createSource (source : Source) := create (.source source)

/-- The one update that is not enqueued. -/
def updateSource (source : Source) (_now : Date) (db : ReaderDatabase) :
    Except DatabaseError ReaderDatabase := do
  let tables ← db.tables.update (.source source)
  return {db with tables}

def deleteSource (id : UUID) (_now : Date) (db : ReaderDatabase) : ReaderDatabase :=
  {db with tables := db.tables.deleteOne (.source id)}

def upsertSource (source : Source) := upsert (.source source)

def createReaderItem (item : ReaderItem) := create (.readerItem item)

def updateReaderItem (item : ReaderItem) := update (.readerItem item)

def deleteReaderItem (id : UUID) := delete (.readerItem id)

def upsertReaderItem (item : ReaderItem) := upsert (.readerItem item)

def createHighlight (highlight : Highlight) := create (.highlight highlight)

def updateHighlight (highlight : Highlight) := update (.highlight highlight)

def deleteHighlight (id : UUID) := delete (.highlight id)

def upsertHighlight (highlight : Highlight) := upsert (.highlight highlight)

def createNote (note : Note) := create (.note note)

def updateNote (note : Note) := update (.note note)

def deleteNote (id : UUID) := delete (.note id)

def upsertNote (note : Note) := upsert (.note note)

/-- `markSyncItemSuccess`. -/
def markSuccess (id : Nat) (db : ReaderDatabase) : ReaderDatabase :=
  {db with outbox := db.outbox.filter fun entry => entry.id ≠ id}

/-- `markSyncItemFailed`. -/
def markFailed (id : Nat) (error : String) (db : ReaderDatabase) : ReaderDatabase :=
  {db with
    outbox := db.outbox.map fun entry =>
      if entry.id = id then
        {entry with retryCount := entry.retryCount + 1,lastError := some error}
      else entry}

def clearOutbox (db : ReaderDatabase) : ReaderDatabase := {db with outbox := []}

end ReaderDatabase

end LocalBook.ReadFlow
