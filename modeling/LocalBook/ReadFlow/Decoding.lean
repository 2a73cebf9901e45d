import LocalBook.ReadFlow.Storage

/-! What a pull makes of the answer of the server: its objects are decoded as full records,
and these are written to the tables. -/
namespace LocalBook.ReadFlow

open Reader (Json Data)

/-- What the system libraries make of numbers, texts and dictionaries. -/
class Foundation where
  lowercased : Text → Text
  capitalized : Text → Text
  /-- A number as a `Double` keeps it. -/
  number : Json → Option Json
  /-- A number decoded as an `Int`. -/
  integer : Json → Option Int
  /-- `.iso8601`. -/
  date : Text → Option Date
  base64 : Text → Option (List UInt8)
  /-- A dictionary in the order it is encoded in. -/
  listing : Data → Data

namespace UUID

def hexValue (c : Char) : Option (Fin 16) :=
  (List.finRange 16).find? fun d => hexDigit d = c || Text.asciiLower (hexDigit d) = c

/-- `UUID(uuidString:)`. -/
def parse (text : Text) : Option UUID :=
  let groups := Text.split '-' text
  if groups.map List.length = [8,4,4,4,12] then
    (groups.flatten.mapM hexValue).bind fun digits =>
      if length : digits.length = 32 then some ⟨digits,length⟩ else none
  else none

end UUID

section Client

variable [Foundation]

mutual

/-- `JSONValue(from:)`. -/
def jsonValue : Json → Option Json
  | .null => some .null
  | .bool value => some (.bool value)
  | .int value => Foundation.number (.int value)
  | .float text zero => Foundation.number (.float text zero)
  | .str text => some (.str text)
  | .surrogates => none
  | .arr items => (jsonValues items).map .arr
  | .obj fields => (jsonFields fields).map .obj

def jsonValues : List Json → Option (List Json)
  | [] => some []
  | item :: rest => do return (← jsonValue item) :: (← jsonValues rest)

def jsonFields : Data → Option Data
  | [] => some []
  | (key,value) :: rest => do return (key,← jsonValue value) :: (← jsonFields rest)

end

/-- `.convertFromSnakeCase`: the underscores at the ends stay, and a key of one part is left
as it is. -/
def convertFromSnakeCase (key : Text) : Text :=
  let leading := key.takeWhile (· = '_')
  let rest := key.dropWhile (· = '_')
  let trailing := rest.reverse.takeWhile (· = '_')
  let middle := (rest.reverse.dropWhile (· = '_')).reverse
  match (Text.split '_' middle).filter (· ≠ []) with
  | [] => key
  | [_] => key
  | first :: others =>
    leading ++ Foundation.lowercased first ++ (others.map Foundation.capitalized).flatten ++
      trailing

/-- The value of a coding key: of several keys that convert to it, the first. -/
def field (data : Data) (name : String) : Option Json :=
  ((Foundation.listing data).find? fun entry =>
    convertFromSnakeCase entry.1 = name.toList).map Prod.snd

/-- `decode(_:forKey:)`. -/
def required (read : Json → Option α) (data : Data) (name : String) : Option α :=
  (field data name).bind read

/-- `decodeIfPresent(_:forKey:)`. -/
def optional (read : Json → Option α) (data : Data) (name : String) : Option (Option α) :=
  match field data name with
  | none | some .null => some none
  | some json => (read json).map some

def readText : Json → Option Text
  | .str text => some text
  | _ => none

def readUUID (json : Json) : Option UUID := (readText json).bind UUID.parse

def readDate (json : Json) : Option Date := (readText json).bind Foundation.date

def readBytes (json : Json) : Option (List UInt8) := (readText json).bind Foundation.base64

def readInt (json : Json) : Option Int := Foundation.integer json

def readCase (cases : List (String × α)) (json : Json) : Option α :=
  (readText json).bind fun text => cases.lookup (String.ofList text)

def readSourceType : Json → Option SourceType :=
  readCase [("web",.web),("pdf",.pdf),("document",.document),("markdown",.markdown),("app",.app)]

def readItemType : Json → Option ItemType :=
  readCase [("source",.source),("highlight",.highlight),("note",.note),("question",.question),
    ("answer",.answer)]

def readSyncState : Json → Option SyncState :=
  readCase [("local_only",.localOnly),("pending",.pending),("synced",.synced)]

def readItemSyncState : Json → Option SyncState :=
  readCase [("local_only",.localOnly),("pending",.pending),("syncing",.syncing),
    ("synced",.synced),("conflict",.conflict),("failed",.failed)]

def readMetadata : Json → Option SourceMetadata
  | .obj data => do
    return {author := ← optional readText data "author"
            publishedDate := ← optional readDate data "publishedDate"
            domain := ← optional readText data "domain"
            favicon := ← optional readText data "favicon"
            pageCount := ← optional readInt data "pageCount"
            fileSize := ← optional readInt data "fileSize"
            appBundleID := ← optional readText data "appBundleID"
            appName := ← optional readText data "appName"}
  | _ => none

def decodeSource (data : Data) : Option Source := do
  return {id := ← required readUUID data "id"
          type := ← required readSourceType data "type"
          title := ← required readText data "title"
          url := ← optional readText data "url"
          canonicalURL := ← optional readText data "canonicalURL"
          filePath := ← optional readText data "filePath"
          fileHash := ← optional readText data "fileHash"
          createdAt := ← required readDate data "createdAt"
          lastReadAt := ← optional readDate data "lastReadAt"
          metadata := ← optional readMetadata data "metadata"}

def decodeHighlight (data : Data) : Option Highlight := do
  return {id := ← required readUUID data "id"
          sourceID := ← required readUUID data "sourceID"
          sessionID := ← optional readUUID data "sessionID"
          selectedText := ← required readText data "selectedText"
          contextBefore := ← required readText data "contextBefore"
          contextAfter := ← required readText data "contextAfter"
          page := ← optional readInt data "page"
          location := ← optional readText data "location"
          createdAt := ← required readDate data "createdAt"
          syncState := ← required readSyncState data "syncState"}

def decodeNote (data : Data) : Option Note := do
  return {id := ← required readUUID data "id"
          sourceID := ← required readUUID data "sourceID"
          highlightID := ← optional readUUID data "highlightID"
          sessionID := ← optional readUUID data "sessionID"
          content := ← required readText data "content"
          createdAt := ← required readDate data "createdAt"
          updatedAt := ← required readDate data "updatedAt"
          revision := ← required readInt data "revision"
          syncState := ← required readSyncState data "syncState"}

def decodeReaderItem (data : Data) : Option ReaderItem := do
  return {id := ← required readUUID data "id"
          type := ← required readItemType data "type"
          sourceID := ← optional readUUID data "sourceID"
          sessionID := ← optional readUUID data "sessionID"
          parentID := ← optional readUUID data "parentID"
          content := ← required readText data "content"
          metadata := ← optional readBytes data "metadata"
          createdAt := ← required readDate data "createdAt"
          updatedAt := ← required readDate data "updatedAt"
          syncState := ← required readItemSyncState data "syncState"}

structure ServerOperation where
  entityType : Reader.SyncEntityType
  entityID : UUID
  operation : Reader.SyncOperation
  data : Data

/-- `SyncOperation(from:)`. -/
def decodeOperation (row : Reader.OutboxRow) : Option ServerOperation := do
  return {entityType := row.entityType
          entityID := ← UUID.parse row.entityId
          operation := row.operation
          data := ← jsonFields row.data}

open ReaderDatabase in
/-- `applySourceOperation`. -/
def applySourceOperation (op : ServerOperation) (now : Date) (db : ReaderDatabase) :
    Option ReaderDatabase :=
  match op.operation with
  | .create | .update => (decodeSource op.data).bind fun source => (upsertSource source db).toOption
  | .delete => some (deleteSource op.entityID now db)

open ReaderDatabase in
/-- `applyHighlightOperation`. -/
def applyHighlightOperation (op : ServerOperation) (now : Date) (db : ReaderDatabase) :
    Option ReaderDatabase :=
  match op.operation with
  | .create | .update =>
    (decodeHighlight op.data).bind fun highlight => (upsertHighlight highlight db).toOption
  | .delete => some (deleteHighlight op.entityID now db)

open ReaderDatabase in
/-- `applyNoteOperation`. -/
def applyNoteOperation (op : ServerOperation) (now : Date) (db : ReaderDatabase) :
    Option ReaderDatabase :=
  match op.operation with
  | .create | .update => (decodeNote op.data).bind fun note => (upsertNote note db).toOption
  | .delete => some (deleteNote op.entityID now db)

open ReaderDatabase in
/-- `applyReaderItemOperation`. -/
def applyReaderItemOperation (op : ServerOperation) (now : Date) (db : ReaderDatabase) :
    Option ReaderDatabase :=
  match op.operation with
  | .create | .update =>
    (decodeReaderItem op.data).bind fun item => (upsertReaderItem item db).toOption
  | .delete => some (deleteReaderItem op.entityID now db)

/-- One round of `applyServerOperations`. A session is no entity of the client. -/
def applyServerOperation (op : ServerOperation) (now : Date) (db : ReaderDatabase) :
    Option ReaderDatabase :=
  match op.entityType with
  | .source => applySourceOperation op now db
  | .highlight => applyHighlightOperation op now db
  | .note => applyNoteOperation op now db
  | .readerItem => applyReaderItemOperation op now db
  | .session => none

structure Puller where
  database : ReaderDatabase := {}
  cursor : Option Text := none

/-- `applyServerOperations`: the database after, and whether no operation threw. What was
applied before one did stays. -/
def applyServerOperations (now : Date) : List ServerOperation → ReaderDatabase →
    ReaderDatabase × Bool
  | [],db => (db,true)
  | op :: rest,db =>
    match applyServerOperation op now db with
    | some db' => applyServerOperations now rest db'
    | none => (db,false)

/-- One round of `pullChanges`, and whether it did not throw. -/
def pullPage (page : Reader.Page) (now : Date) (client : Puller) : Puller × Bool :=
  match page.rows.mapM decodeOperation with
  | none => (client,false)
  | some operations =>
    match applyServerOperations now operations client.database with
    | (database,true) => ({database,cursor := page.nextCursor.or client.cursor},true)
    | (database,false) => ({client with database},false)

end Client

end LocalBook.ReadFlow
