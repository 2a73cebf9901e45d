import LocalBook.Reader.Json

/-! The entity tables of the reader database and the statements that write them. A
statement is checked before it runs, so its checks read no clock: what it returns is
the change, for the clock it will read. -/
namespace LocalBook.Reader

/-- The readings of the clock while one operation is applied. -/
abbrev Clock := Nat → Int

abbrev Table (α : Type) := Text → Option α

structure Source where
  type : Value
  title : Value
  url : Value
  canonicalUrl : Value
  filePath : Value
  fileHash : Value
  createdAt : Value
  lastReadAt : Value := .null
  metadata : Value

structure Session where
  deviceId : Text
  sourceId : Value
  startedAt : Value
  endedAt : Value
  duration : Value
  highlightCount : Value
  queryCount : Value
  noteCount : Value

structure Highlight where
  sourceId : Value
  sessionId : Value
  selectedText : Value
  contextBefore : Value
  contextAfter : Value
  page : Value
  location : Value
  createdAt : Value
  syncState : Value

structure Note where
  sourceId : Value
  highlightId : Value
  sessionId : Value
  content : Value
  createdAt : Value
  updatedAt : Value
  revision : Int := 1
  syncState : Value

structure ReaderItem where
  deviceId : Text
  type : Value
  sourceId : Value
  sessionId : Value
  parentId : Value
  content : Value
  metadata : Value
  createdAt : Value
  updatedAt : Value
  syncState : Value

inductive SyncOperation where
  | create
  | update
  | delete
deriving Repr,DecidableEq

inductive SyncEntityType where
  | source
  | session
  | highlight
  | note
  | readerItem
deriving Repr,DecidableEq

/-- A row of `reader_sync_outbox`. -/
structure OutboxRow where
  id : Nat
  deviceId : Text
  entityType : SyncEntityType
  entityId : Text
  operation : SyncOperation
  data : Data
  createdAt : Int

/-- The database. `sequence` is the largest id the outbox ever gave out. -/
structure Db where
  devices : List Text := []
  sources : Table Source := fun _ => none
  sessions : Table Session := fun _ => none
  highlights : Table Highlight := fun _ => none
  notes : Table Note := fun _ => none
  items : Table ReaderItem := fun _ => none
  outbox : List OutboxRow := []
  sequence : Nat := 0

def refuse (condition : Bool) (fault : Fault) : Except Fault Unit :=
  if condition then .error fault else .ok ()

def invalidOperation (message : String) : Fault := .reader ⟨.invalidOperation,message,none⟩

def missing (what : String) : Fault := invalidOperation ("Missing required " ++ what)

/-- Every message of an `IntegrityError` says that a constraint failed. -/
def integrity (what : String) : Fault :=
  invalidOperation ("Missing required field or constraint violation: " ++ what)

def unique (column : String) : Fault := integrity ("UNIQUE constraint failed: " ++ column)

def check (constraint : String) : Fault := integrity ("CHECK constraint failed: " ++ constraint)

def foreignKey : Fault := integrity "FOREIGN KEY constraint failed"

def references (key : Value) (table : Table α) : Bool :=
  key.isNull || (key.text?.bind table).isSome

def sourceTypes : List String := ["web","pdf","document","markdown"]

def syncStates : List String := ["local_only","pending","synced"]

def itemTypes : List String := ["source","highlight","note","question","answer"]

def itemSyncStates : List String := ["local_only","pending","synced","conflict","failed"]

/-- `data.get(…) or int(time.time())`: the value given, when there is one. -/
def given (json : Json) : Except Fault (Option Value) :=
  if json.truthy then some <$> bindParam json else .ok none

def stamp (value : Option Value) (reading : Int) : Value := value.getD (.int reading)

/-- `json.dumps(…) if … else None`. -/
def dumpedIf (condition : Bool) (json : Json) : Value :=
  if condition then .dumped json else .null

def insertSource (id : Text) (data : Data) (db : Db) : Except Fault (Clock → Db) := do
  let sourceType := (data.get "source_type").or (data.get "type")
  refuse (!sourceType.truthy) (missing "field: type or source_type")
  let type ← bindText sourceType
  let title ← bindText (data.get "title")
  let url ← bindText (data.get "url")
  let canonicalUrl ← bindText (data.get "canonical_url")
  let filePath ← bindText (data.get "file_path")
  let fileHash ← bindText (data.get "file_hash")
  refuse (db.sources id).isSome (unique "reader_sources.id")
  refuse (!type.isIn sourceTypes) (check "type")
  return fun clock =>
    {db with sources := Function.update db.sources id (some
      {type,title,url,canonicalUrl,filePath,fileHash,createdAt := .int (clock 0),
       metadata := .dumped (data.getD "metadata" (.obj []))})}

def insertSession (device id : Text) (data : Data) (db : Db) : Except Fault (Clock → Db) := do
  refuse (device = [] || !(data.get "source_id").truthy)
    (missing "fields: device_id and source_id")
  let sourceId ← bindText (data.get "source_id")
  let startedAt ← given (data.get "started_at")
  let endedAt ← bindParam (data.get "ended_at")
  let duration ← bindParam ((data.get "duration").or (data.get "duration_seconds"))
  let highlightCount ← bindParam (data.getD "highlight_count" (.int 0))
  let queryCount ← bindParam (data.getD "query_count" (.int 0))
  let noteCount ← bindParam (data.getD "note_count" (.int 0))
  refuse (db.sessions id).isSome (unique "reader_sessions.id")
  refuse (device ∉ db.devices || !references sourceId db.sources) foreignKey
  return fun clock =>
    {db with sessions := Function.update db.sessions id (some
      {deviceId := device,sourceId,startedAt := stamp startedAt (clock 0),endedAt,duration,
       highlightCount,queryCount,noteCount})}

def insertHighlight (id : Text) (data : Data) (db : Db) : Except Fault (Clock → Db) := do
  let text := (data.get "selected_text").or (data.get "text")
  refuse (!text.truthy) (missing "field: selected_text or text")
  refuse (!(data.get "source_id").truthy) (missing "field: source_id")
  let sourceId ← bindText (data.get "source_id")
  let sessionId ← bindText (data.get "session_id")
  let selectedText ← bindText text
  let contextBefore ← bindText (data.get "context_before")
  let contextAfter ← bindText (data.get "context_after")
  let page ← bindParam (data.get "page")
  let location := dumpedIf (data.get "location").truthy (data.get "location")
  let syncState ← bindText (data.getD "sync_state" (.str "pending".toList))
  refuse (db.highlights id).isSome (unique "reader_highlights.id")
  refuse syncState.isNull (integrity "NOT NULL constraint failed: reader_highlights.sync_state")
  refuse (!syncState.isIn syncStates) (check "sync_state")
  refuse (!references sourceId db.sources || !references sessionId db.sessions) foreignKey
  return fun clock =>
    {db with highlights := Function.update db.highlights id (some
      {sourceId,sessionId,selectedText,contextBefore,contextAfter,page,location,
       createdAt := .int (clock 0),syncState})}

def insertNote (id : Text) (data : Data) (db : Db) : Except Fault (Clock → Db) := do
  refuse (!(data.get "content").truthy) (missing "field: content")
  refuse (!(data.get "source_id").truthy) (missing "field: source_id")
  let sourceId ← bindText (data.get "source_id")
  let highlightId ← bindText (data.get "highlight_id")
  let sessionId ← bindText (data.get "session_id")
  let content ← bindText (data.get "content")
  let createdAt ← given (data.get "created_at")
  let updatedAt ← given (data.get "updated_at")
  let syncState ← bindText (data.getD "sync_state" (.str "pending".toList))
  refuse (db.notes id).isSome (unique "reader_notes.id")
  refuse syncState.isNull (integrity "NOT NULL constraint failed: reader_notes.sync_state")
  refuse (!syncState.isIn syncStates) (check "sync_state")
  refuse (!references sourceId db.sources || !references highlightId db.highlights ||
    !references sessionId db.sessions) foreignKey
  return fun clock =>
    {db with notes := Function.update db.notes id (some
      {sourceId,highlightId,sessionId,content,createdAt := stamp createdAt (clock 0),
       updatedAt := stamp updatedAt (clock 1),syncState})}

def insertItem (device id : Text) (data : Data) (db : Db) : Except Fault (Clock → Db) := do
  let itemType := data.get "type"
  refuse (!itemType.truthy || !(data.get "content").truthy)
    (missing "fields: type and content")
  let type ← bindText itemType
  let sourceId ← bindText (data.get "source_id")
  let sessionId ← bindText (data.get "session_id")
  let parentId ← bindText (data.get "parent_id")
  let content ← bindText (data.get "content")
  let metadata ← bindText (data.get "metadata")
  let createdAt ← given (data.get "created_at")
  let updatedAt ← given (data.get "updated_at")
  let syncState ← bindText (data.getD "sync_state" (.str "pending".toList))
  refuse (db.items id).isSome (unique "reader_items.id")
  refuse (!type.isIn itemTypes) (check "type")
  refuse syncState.isNull (integrity "NOT NULL constraint failed: reader_items.sync_state")
  refuse (!syncState.isIn itemSyncStates) (check "sync_state")
  refuse (device ∉ db.devices) foreignKey
  return fun clock =>
    {db with items := Function.update db.items id (some
      {deviceId := device,type,sourceId,sessionId,parentId,content,metadata,
       createdAt := stamp createdAt (clock 0),updatedAt := stamp updatedAt (clock 1),
       syncState})}

/-- `_insert_entity`. -/
def insertEntity (device : Text) (type : SyncEntityType) (id : Text) (data : Data) (db : Db) :
    Except Fault (Clock → Db) :=
  match type with
  | .source => insertSource id data db
  | .session => insertSession device id data db
  | .highlight => insertHighlight id data db
  | .note => insertNote id data db
  | .readerItem => insertItem device id data db

/-- `UPDATE … WHERE id = ?`, which may find no row. -/
def Table.modify (table : Table α) (id : Text) (change : α → α) : Table α :=
  Function.update table id ((table id).map change)

/-- The `IntegrityError` of an update. -/
def updateFailed (constraint : String) : Fault :=
  invalidOperation ("Update failed: CHECK constraint failed: " ++ constraint)

def updateSource (id : Text) (data : Data) (db : Db) : Except Fault (Clock → Db) := do
  let title ← bindText (data.get "title")
  let lastReadAt ← bindParam (data.get "last_read_at")
  let metadata := dumpedIf (data.contains "metadata") (data.get "metadata")
  return fun _ =>
    {db with sources := db.sources.modify id fun row =>
      {row with title := title.coalesce row.title,
                lastReadAt := lastReadAt.coalesce row.lastReadAt,
                metadata := metadata.coalesce row.metadata}}

def updateSession (id : Text) (data : Data) (db : Db) : Except Fault (Clock → Db) := do
  let endedAt ← bindParam (data.get "ended_at")
  let duration ← bindParam ((data.get "duration").or (data.get "duration_seconds"))
  let highlightCount ← bindParam (data.get "highlight_count")
  let queryCount ← bindParam (data.get "query_count")
  let noteCount ← bindParam (data.get "note_count")
  return fun _ =>
    {db with sessions := db.sessions.modify id fun row =>
      {row with endedAt := endedAt.coalesce row.endedAt,
                duration := duration.coalesce row.duration,
                highlightCount := highlightCount.coalesce row.highlightCount,
                queryCount := queryCount.coalesce row.queryCount,
                noteCount := noteCount.coalesce row.noteCount}}

def updateHighlight (id : Text) (data : Data) (db : Db) : Except Fault (Clock → Db) := do
  let selectedText ← bindText ((data.get "selected_text").or (data.get "text"))
  let contextBefore ← bindText (data.get "context_before")
  let contextAfter ← bindText (data.get "context_after")
  let page ← bindParam (data.get "page")
  let location := dumpedIf (data.contains "location") (data.get "location")
  let syncState ← bindText (data.get "sync_state")
  refuse ((db.highlights id).isSome && !syncState.isIn syncStates) (updateFailed "sync_state")
  return fun _ =>
    {db with highlights := db.highlights.modify id fun row =>
      {row with selectedText := selectedText.coalesce row.selectedText,
                contextBefore := contextBefore.coalesce row.contextBefore,
                contextAfter := contextAfter.coalesce row.contextAfter,
                page := page.coalesce row.page,
                location := location.coalesce row.location,
                syncState := syncState.coalesce row.syncState}}

def updateNote (id : Text) (data : Data) (db : Db) : Except Fault (Clock → Db) := do
  let content ← bindText (data.get "content")
  return fun clock =>
    {db with notes := db.notes.modify id fun row =>
      {row with content := content.coalesce row.content,
                updatedAt := .int (clock 0),
                revision := row.revision + 1}}

def updateItem (id : Text) (data : Data) (db : Db) : Except Fault (Clock → Db) := do
  let type ← bindText (data.get "type")
  let sourceId ← bindText (data.get "source_id")
  let sessionId ← bindText (data.get "session_id")
  let parentId ← bindText (data.get "parent_id")
  let content ← bindText (data.get "content")
  let metadata ← bindText (data.get "metadata")
  let syncState ← bindText (data.get "sync_state")
  refuse ((db.items id).isSome && !type.isIn itemTypes) (updateFailed "type")
  refuse ((db.items id).isSome && !syncState.isIn itemSyncStates) (updateFailed "sync_state")
  return fun clock =>
    {db with items := db.items.modify id fun row =>
      {row with type := type.coalesce row.type,
                sourceId := sourceId.coalesce row.sourceId,
                sessionId := sessionId.coalesce row.sessionId,
                parentId := parentId.coalesce row.parentId,
                content := content.coalesce row.content,
                metadata := metadata.coalesce row.metadata,
                updatedAt := .int (clock 0),
                syncState := syncState.coalesce row.syncState}}

/-- `_update_entity`. -/
def updateEntity (type : SyncEntityType) (id : Text) (data : Data) (db : Db) :
    Except Fault (Clock → Db) :=
  match type with
  | .source => updateSource id data db
  | .session => updateSession id data db
  | .highlight => updateHighlight id data db
  | .note => updateNote id data db
  | .readerItem => updateItem id data db

def among (gone : Text → Bool) (key : Value) : Bool := key.text?.any gone

/-- `ON DELETE SET NULL`. -/
def forget (gone : Text → Bool) (key : Value) : Value := if among gone key then .null else key

def Table.without (table : Table α) (gone : Text → Bool) : Table α :=
  fun id => if gone id then none else table id

def Table.keys (table : Table α) (holds : α → Bool) (id : Text) : Bool := (table id).any holds

def deleteNotes (gone : Text → Bool) (db : Db) : Db := {db with notes := db.notes.without gone}

def deleteHighlights (gone : Text → Bool) (db : Db) : Db :=
  deleteNotes (db.notes.keys fun note => among gone note.highlightId)
    {db with highlights := db.highlights.without gone}

def deleteSessions (gone : Text → Bool) (db : Db) : Db :=
  {db with
    sessions := db.sessions.without gone,
    highlights := fun id => (db.highlights id).map fun row =>
      {row with sessionId := forget gone row.sessionId},
    notes := fun id => (db.notes id).map fun row =>
      {row with sessionId := forget gone row.sessionId}}

def deleteSources (gone : Text → Bool) (db : Db) : Db :=
  deleteSessions (db.sessions.keys fun session => among gone session.sourceId)
    (deleteHighlights (db.highlights.keys fun highlight => among gone highlight.sourceId)
      (deleteNotes (db.notes.keys fun note => among gone note.sourceId)
        {db with sources := db.sources.without gone}))

/-- `_delete_entity`, with what the foreign keys make of it. -/
def deleteEntity (type : SyncEntityType) (id : Text) (db : Db) : Db :=
  let gone : Text → Bool := fun key => key = id
  match type with
  | .source => deleteSources gone db
  | .session => deleteSessions gone db
  | .highlight => deleteHighlights gone db
  | .note => deleteNotes gone db
  | .readerItem => {db with items := db.items.without gone}

end LocalBook.Reader
