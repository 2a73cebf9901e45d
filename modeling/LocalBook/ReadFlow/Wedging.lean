import LocalBook.ReadFlow.Decoding
import LocalBook.ReadFlow.Replaying
import LocalBook.Reader.Pulling

/-! When a pull goes through: its cursor moves on exactly when every operation of the page
can be digested where the client stands. -/
namespace LocalBook.ReadFlow

open Reader (Json Data)

section Client

variable [Foundation]

section Spelling

variable {read : Json → Option α} {data : Data} {name : String}

def Reads (read : Json → Option α) (data : Data) (name : String) (value : α) : Prop :=
  ∃ json, field data name = some json ∧ read json = some value

def MayRead (read : Json → Option α) (data : Data) (name : String) : Option α → Prop
  | none => field data name = none ∨ field data name = some .null
  | some value => field data name ≠ some .null ∧ Reads read data name value

theorem required_eq_some {value : α} :
    required read data name = some value ↔ Reads read data name value :=
  Option.bind_eq_some_iff

theorem optional_eq_some {value : Option α} :
    optional read data name = some value ↔ MayRead read data name value := by
  unfold optional
  split
  · rename_i absent
    cases value <;> simp [MayRead,Reads,absent]
  · rename_i null
    cases value <;> simp [MayRead,Reads,null]
  · rename_i json other present
    have proper : json ≠ .null := fun null => other null
    cases value <;> simp [MayRead,Reads,present,proper]

structure SpellsSource (data : Data) (source : Source) : Prop where
  id : Reads readUUID data "id" source.id
  type : Reads readSourceType data "type" source.type
  title : Reads readText data "title" source.title
  url : MayRead readText data "url" source.url
  canonicalURL : MayRead readText data "canonicalURL" source.canonicalURL
  filePath : MayRead readText data "filePath" source.filePath
  fileHash : MayRead readText data "fileHash" source.fileHash
  createdAt : Reads readDate data "createdAt" source.createdAt
  lastReadAt : MayRead readDate data "lastReadAt" source.lastReadAt
  metadata : MayRead readMetadata data "metadata" source.metadata

structure SpellsHighlight (data : Data) (highlight : Highlight) : Prop where
  id : Reads readUUID data "id" highlight.id
  sourceID : Reads readUUID data "sourceID" highlight.sourceID
  sessionID : MayRead readUUID data "sessionID" highlight.sessionID
  selectedText : Reads readText data "selectedText" highlight.selectedText
  contextBefore : Reads readText data "contextBefore" highlight.contextBefore
  contextAfter : Reads readText data "contextAfter" highlight.contextAfter
  page : MayRead readInt data "page" highlight.page
  location : MayRead readText data "location" highlight.location
  createdAt : Reads readDate data "createdAt" highlight.createdAt
  syncState : Reads readSyncState data "syncState" highlight.syncState

structure SpellsNote (data : Data) (note : Note) : Prop where
  id : Reads readUUID data "id" note.id
  sourceID : Reads readUUID data "sourceID" note.sourceID
  highlightID : MayRead readUUID data "highlightID" note.highlightID
  sessionID : MayRead readUUID data "sessionID" note.sessionID
  content : Reads readText data "content" note.content
  createdAt : Reads readDate data "createdAt" note.createdAt
  updatedAt : Reads readDate data "updatedAt" note.updatedAt
  revision : Reads readInt data "revision" note.revision
  syncState : Reads readSyncState data "syncState" note.syncState

structure SpellsReaderItem (data : Data) (item : ReaderItem) : Prop where
  id : Reads readUUID data "id" item.id
  type : Reads readItemType data "type" item.type
  sourceID : MayRead readUUID data "sourceID" item.sourceID
  sessionID : MayRead readUUID data "sessionID" item.sessionID
  parentID : MayRead readUUID data "parentID" item.parentID
  content : Reads readText data "content" item.content
  metadata : MayRead readBytes data "metadata" item.metadata
  createdAt : Reads readDate data "createdAt" item.createdAt
  updatedAt : Reads readDate data "updatedAt" item.updatedAt
  syncState : Reads readItemSyncState data "syncState" item.syncState

theorem decodeSource_eq_some {source : Source} :
    decodeSource data = some source ↔ SpellsSource data source := by
  simp only [decodeSource,bind,pure,Option.bind_eq_some_iff,required_eq_some,optional_eq_some,
    Option.some.injEq]
  constructor
  · rintro ⟨_,id,_,type,_,title,_,url,_,canonicalURL,_,filePath,_,fileHash,_,createdAt,_,
      lastReadAt,_,metadata,rfl⟩
    exact ⟨id,type,title,url,canonicalURL,filePath,fileHash,createdAt,lastReadAt,metadata⟩
  · intro spelled
    exact ⟨_,spelled.id,_,spelled.type,_,spelled.title,_,spelled.url,_,spelled.canonicalURL,_,
      spelled.filePath,_,spelled.fileHash,_,spelled.createdAt,_,spelled.lastReadAt,_,
      spelled.metadata,rfl⟩

theorem decodeHighlight_eq_some {highlight : Highlight} :
    decodeHighlight data = some highlight ↔ SpellsHighlight data highlight := by
  simp only [decodeHighlight,bind,pure,Option.bind_eq_some_iff,required_eq_some,
    optional_eq_some,Option.some.injEq]
  constructor
  · rintro ⟨_,id,_,sourceID,_,sessionID,_,selectedText,_,contextBefore,_,contextAfter,_,page,_,
      location,_,createdAt,_,syncState,rfl⟩
    exact ⟨id,sourceID,sessionID,selectedText,contextBefore,contextAfter,page,location,
      createdAt,syncState⟩
  · intro spelled
    exact ⟨_,spelled.id,_,spelled.sourceID,_,spelled.sessionID,_,spelled.selectedText,_,
      spelled.contextBefore,_,spelled.contextAfter,_,spelled.page,_,spelled.location,_,
      spelled.createdAt,_,spelled.syncState,rfl⟩

theorem decodeNote_eq_some {note : Note} :
    decodeNote data = some note ↔ SpellsNote data note := by
  simp only [decodeNote,bind,pure,Option.bind_eq_some_iff,required_eq_some,optional_eq_some,
    Option.some.injEq]
  constructor
  · rintro ⟨_,id,_,sourceID,_,highlightID,_,sessionID,_,content,_,createdAt,_,updatedAt,_,
      revision,_,syncState,rfl⟩
    exact ⟨id,sourceID,highlightID,sessionID,content,createdAt,updatedAt,revision,syncState⟩
  · intro spelled
    exact ⟨_,spelled.id,_,spelled.sourceID,_,spelled.highlightID,_,spelled.sessionID,_,
      spelled.content,_,spelled.createdAt,_,spelled.updatedAt,_,spelled.revision,_,
      spelled.syncState,rfl⟩

theorem decodeReaderItem_eq_some {item : ReaderItem} :
    decodeReaderItem data = some item ↔ SpellsReaderItem data item := by
  simp only [decodeReaderItem,bind,pure,Option.bind_eq_some_iff,required_eq_some,
    optional_eq_some,Option.some.injEq]
  constructor
  · rintro ⟨_,id,_,type,_,sourceID,_,sessionID,_,parentID,_,content,_,metadata,_,createdAt,_,
      updatedAt,_,syncState,rfl⟩
    exact ⟨id,type,sourceID,sessionID,parentID,content,metadata,createdAt,updatedAt,syncState⟩
  · intro spelled
    exact ⟨_,spelled.id,_,spelled.type,_,spelled.sourceID,_,spelled.sessionID,_,
      spelled.parentID,_,spelled.content,_,spelled.metadata,_,spelled.createdAt,_,
      spelled.updatedAt,_,spelled.syncState,rfl⟩

end Spelling

def Spells (data : Data) : Reader.SyncEntityType → Entity → Prop
  | .source,.source source => SpellsSource data source
  | .highlight,.highlight highlight => SpellsHighlight data highlight
  | .note,.note note => SpellsNote data note
  | .readerItem,.readerItem item => SpellsReaderItem data item
  | _,_ => False

/-- An operation the client can digest: it names its entity by a UUID, all its values can be
represented, its entity is no session, and unless it deletes it carries a full record whose
foreign keys the client knows. -/
def Digestible (row : Reader.OutboxRow) (tables : Tables) : Prop :=
  (∃ id, UUID.parse row.entityId = some id) ∧ row.entityType ≠ .session ∧
    ∃ data, jsonFields row.data = some data ∧ (row.operation ≠ .delete →
      ∃ entity, Spells data row.entityType entity ∧ tables.accepts entity = true)

/-- Every operation can be digested where the ones before it lead. -/
def AllDigestible (now : Date) : List Reader.OutboxRow → ReaderDatabase → Prop
  | [],_ => True
  | row :: rest,db => Digestible row db.tables ∧ ∀ op db', decodeOperation row = some op →
      applyServerOperation op now db = some db' → AllDigestible now rest db'

section Applying

variable {entity : Entity} {db : ReaderDatabase} {op : ServerOperation} {now : Date}
  {row : Reader.OutboxRow}

omit [Foundation] in
/-- A record is saved exactly when its foreign keys hold. -/
theorem isSome_upsert : ((db.upsert entity).toOption.isSome = true) ↔
    db.tables.accepts entity = true := by
  unfold ReaderDatabase.upsert Tables.save Tables.update Tables.insert
  cases known : db.tables.has entity.key <;> cases accepted : db.tables.accepts entity <;>
    simp [bind,Except.bind,pure,Except.pure,Except.toOption]

omit [Foundation] in
/-- A decoded record is saved exactly when one is spelled whose foreign keys hold. -/
theorem isSome_saved {spells : α → Prop} {decoded : Option α} {entity : α → Entity}
    (decodes : ∀ a, decoded = some a ↔ spells a) :
    (decoded.bind fun a => (db.upsert (entity a)).toOption).isSome = true ↔
      ∃ a, spells a ∧ db.tables.accepts (entity a) = true := by
  cases result : decoded with
  | none =>
    refine iff_of_false Bool.false_ne_true ?_
    rintro ⟨a,spelled,-⟩
    rw [(decodes a).mpr spelled] at result
    cases result
  | some b =>
    rw [Option.bind_some,isSome_upsert]
    constructor
    · intro accepted
      exact ⟨b,(decodes b).mp result,accepted⟩
    · rintro ⟨a,spelled,accepted⟩
      obtain rfl := Option.some.inj (result.symm.trans ((decodes a).mpr spelled))
      exact accepted

/-- The records a type of entities may have. -/
theorem exists_spelled {data : Data} {holds : Entity → Prop} {type : Reader.SyncEntityType} :
    (∃ entity, Spells data type entity ∧ holds entity) ↔
      match type with
      | .source => ∃ row, SpellsSource data row ∧ holds (.source row)
      | .highlight => ∃ row, SpellsHighlight data row ∧ holds (.highlight row)
      | .note => ∃ row, SpellsNote data row ∧ holds (.note row)
      | .readerItem => ∃ row, SpellsReaderItem data row ∧ holds (.readerItem row)
      | .session => False := by
  constructor
  · rintro ⟨entity,spelled,fine⟩
    cases type <;> cases entity <;> first
      | exact False.elim spelled
      | exact ⟨_,spelled,fine⟩
  · intro found
    cases type with
    | session => exact False.elim found
    | source =>
      obtain ⟨row,spelled,fine⟩ := found
      exact ⟨.source row,spelled,fine⟩
    | highlight =>
      obtain ⟨row,spelled,fine⟩ := found
      exact ⟨.highlight row,spelled,fine⟩
    | note =>
      obtain ⟨row,spelled,fine⟩ := found
      exact ⟨.note row,spelled,fine⟩
    | readerItem =>
      obtain ⟨row,spelled,fine⟩ := found
      exact ⟨.readerItem row,spelled,fine⟩

/-- An operation is applied exactly when it is no session's and carries what it writes. -/
theorem isSome_applyServerOperation :
    (applyServerOperation op now db).isSome = true ↔
      op.entityType ≠ .session ∧ (op.operation ≠ .delete →
        ∃ entity, Spells op.data op.entityType entity ∧ db.tables.accepts entity = true) := by
  obtain ⟨type,id,operation,data⟩ := op
  rw [exists_spelled]
  cases type with
  | session => simp [applyServerOperation]
  | source =>
    cases operation <;> simp [applyServerOperation,applySourceOperation]
    all_goals exact isSome_saved fun _ => decodeSource_eq_some
  | highlight =>
    cases operation <;> simp [applyServerOperation,applyHighlightOperation]
    all_goals exact isSome_saved fun _ => decodeHighlight_eq_some
  | note =>
    cases operation <;> simp [applyServerOperation,applyNoteOperation]
    all_goals exact isSome_saved fun _ => decodeNote_eq_some
  | readerItem =>
    cases operation <;> simp [applyServerOperation,applyReaderItemOperation]
    all_goals exact isSome_saved fun _ => decodeReaderItem_eq_some

theorem digestible_iff : Digestible row db.tables ↔
    ∃ op, decodeOperation row = some op ∧ (applyServerOperation op now db).isSome = true := by
  simp only [decodeOperation,bind,pure,Option.bind_eq_some_iff,Option.some.injEq,
    isSome_applyServerOperation]
  constructor
  · rintro ⟨⟨id,named⟩,type,data,sent,spelled⟩
    exact ⟨_,⟨id,named,data,sent,rfl⟩,type,spelled⟩
  · rintro ⟨_,⟨id,named,data,sent,rfl⟩,type,spelled⟩
    exact ⟨⟨id,named⟩,type,data,sent,spelled⟩

omit [Foundation] in
theorem mapM_cons_eq_some {f : α → Option β} {a : α} {l : List α} {bs : List β} :
    (a :: l).mapM f = some bs ↔ ∃ b rest, f a = some b ∧ l.mapM f = some rest ∧
      bs = b :: rest := by
  simp only [List.mapM_cons,bind,pure,Option.bind_eq_some_iff,Option.some.injEq]
  constructor
  · rintro ⟨b,here,rest,later,rfl⟩
    exact ⟨b,rest,here,later,rfl⟩
  · rintro ⟨b,rest,here,later,rfl⟩
    exact ⟨b,here,rest,later,rfl⟩

theorem allDigestible_iff (rows : List Reader.OutboxRow) (db : ReaderDatabase) :
    AllDigestible now rows db ↔ ∃ operations, rows.mapM decodeOperation = some operations ∧
      (applyServerOperations now operations db).2 = true := by
  induction rows generalizing db with
  | nil => exact ⟨fun _ => ⟨[],rfl,rfl⟩,fun _ => trivial⟩
  | cons row rest ih =>
    rw [AllDigestible,digestible_iff]
    constructor
    · rintro ⟨⟨op,decoded,applied⟩,later⟩
      obtain ⟨db',next⟩ := Option.isSome_iff_exists.mp applied
      obtain ⟨operations,all,fine⟩ := (ih db').mp (later op db' decoded next)
      exact ⟨op :: operations,mapM_cons_eq_some.mpr ⟨op,operations,decoded,all,rfl⟩,by
        rw [applyServerOperations,next]
        exact fine⟩
    · rintro ⟨all,decoded,fine⟩
      obtain ⟨op,operations,here,rest_,rfl⟩ := mapM_cons_eq_some.mp decoded
      rw [applyServerOperations] at fine
      cases next : applyServerOperation op now db with
      | none => simp [next] at fine
      | some db' =>
        rw [next] at fine
        refine ⟨⟨op,here,by simp [next]⟩,fun op' other here' next' => ?_⟩
        obtain rfl := Option.some.inj (here.symm.trans here')
        obtain rfl := Option.some.inj (next.symm.trans next')
        exact (ih db').mpr ⟨operations,rest_,fine⟩

end Applying

/-- A push to the server, a pull of the client, or a transaction on its database. -/
inductive Exchange where
  | push (device : Text) (operations : List Reader.Operation) (clock : Nat → Reader.Clock)
  | pull (limit : Nat) (now : Date)
  | transaction (step : Step)

structure Pair where
  server : Reader.Db := {}
  client : Puller := {}

/-- A pull the server refuses changes nothing. -/
def Exchange.run (reader : Text) (pair : Pair) : Exchange → Pair
  | .push device operations clock =>
    {pair with server := (Reader.pushSync device operations clock pair.server).2}
  | .pull limit now =>
    match Reader.pullSync reader pair.client.cursor limit pair.server with
    | .ok page => {pair with client := (pullPage page now pair.client).1}
    | .error _ => pair
  | .transaction step =>
    {pair with client := {pair.client with database := step.run pair.client.database}}

/-- A predicate holds of every page that is pulled in a run, where it is pulled. -/
def EveryPull (reader : Text) (holds : Reader.Page → Date → Puller → Prop) :
    List Exchange → Pair → Prop
  | [],_ => True
  | exchange :: rest,pair =>
    (∀ limit now page, exchange = .pull limit now →
      Reader.pullSync reader pair.client.cursor limit pair.server = .ok page →
        holds page now pair.client) ∧
      EveryPull reader holds rest (exchange.run reader pair)

/-- The client applies a whole page without an error, and its cursor moves past it. -/
def Advances (page : Reader.Page) (now : Date) (client : Puller) : Prop :=
  (pullPage page now client).2 = true ∧
    (pullPage page now client).1.cursor = page.nextCursor.or client.cursor

theorem advances_iff (page : Reader.Page) (now : Date) (client : Puller) :
    Advances page now client ↔ AllDigestible now page.rows client.database := by
  rw [allDigestible_iff,Advances,pullPage]
  cases decoded : page.rows.mapM decodeOperation with
  | none => simp
  | some operations =>
    cases applied : applyServerOperations now operations client.database with
    | mk database fine => cases fine <;> simp [applied]

theorem everyPull_congr {reader : Text} {holds holds' : Reader.Page → Date → Puller → Prop}
    (same : ∀ page now client, holds page now client ↔ holds' page now client)
    (exchanges : List Exchange) (pair : Pair) :
    EveryPull reader holds exchanges pair ↔ EveryPull reader holds' exchanges pair := by
  induction exchanges generalizing pair with
  | nil => exact Iff.rfl
  | cons exchange rest ih => simp only [EveryPull,same,ih]

/-- No pull of a run is wedged exactly when every operation it delivers can be digested. -/
theorem unwedged_iff (reader : Text) (exchanges : List Exchange) (pair : Pair) :
    EveryPull reader Advances exchanges pair ↔
      EveryPull reader (fun page now client => AllDigestible now page.rows client.database)
        exchanges pair :=
  everyPull_congr advances_iff exchanges pair

end Client

namespace PlainFoundation

scoped instance foundation : Foundation where
  lowercased := List.map Text.asciiLower
  capitalized
    | [] => []
    | c :: rest => Text.asciiUpper c :: rest.map Text.asciiLower
  number _ := none
  integer _ := none
  date _ := none
  base64 _ := none
  listing data := data

end PlainFoundation

open scoped PlainFoundation

def newTitle : Reader.Operation where
  operation := .update
  entityType := .source
  entityId := "00000000-0000-0000-0000-000000000000".toList
  data := [("title".toList,.str "B".toList)]

/-- The new title is pushed from one device, and pulled by the other. -/
def titlePushed : Exchange := .push "macbook".toList [newTitle] fun _ _ => 0

/-- The server accepts an update of one field, and the pull of it throws. -/
theorem newTitle_wedges :
    (Reader.pushSync "macbook".toList [newTitle] (fun _ _ => 0) Reader.twoDevices).1.toOption.map
        Reader.PushSyncResponse.accepted = some 1 ∧
      ¬ EveryPull "iphone".toList Advances [titlePushed,.pull 100 0]
        {server := Reader.twoDevices} := by
  refine ⟨by decide +kernel,fun every => ?_⟩
  have thrown : ((Reader.pullSync "iphone".toList none 100
      (titlePushed.run "iphone".toList {server := Reader.twoDevices}).server).toOption.map
        fun page => (pullPage page 0 {}).2) = some false := by decide +kernel
  cases pulled : Reader.pullSync "iphone".toList none 100
      (titlePushed.run "iphone".toList {server := Reader.twoDevices}).server with
  | error fault =>
    rw [pulled] at thrown
    cases thrown
  | ok page =>
    have advanced := (every.2.1 100 0 page rfl pulled).1
    rw [pulled] at thrown
    exact absurd (advanced.symm.trans (Option.some.inj thrown)) (by decide)

end LocalBook.ReadFlow
