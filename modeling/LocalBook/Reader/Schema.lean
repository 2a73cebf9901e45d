import LocalBook.Reader.Sync
import LocalBook.Keeps

/-! The schema migrations of the reader database, under the commit rules of the driver: a
statement that writes rows opens a transaction, one that defines a table or an index does
not, and a script is run statement by statement after a commit. -/
namespace LocalBook.Reader.Schema

open Effect

structure LegacyRow where
  id : Nat
  entityType : Text
  entityId : Text
  operation : SyncOperation
  payload : Text
  createdAt : Int
  processedAt : Option Int := none
  retryCount : Nat := 0
deriving DecidableEq

inductive SyncState where
  | pending
  | synced
  | failed
deriving DecidableEq

structure Row where
  id : Nat
  deviceId : Text
  entityType : Text
  entityId : Text
  operation : SyncOperation
  data : Text
  createdAt : Int
  syncState : SyncState
deriving DecidableEq

/-- `SELECT id, ? as device_id, …, payload as data, created_at, CASE … END as sync_state`. -/
def migrateRow (device : Text) (row : LegacyRow) : Row where
  id := row.id
  deviceId := device
  entityType := row.entityType
  entityId := row.entityId
  operation := row.operation
  data := row.payload
  createdAt := row.createdAt
  syncState := if row.processedAt.isSome then .synced else .pending

inductive Outbox where
  | legacy (rows : List LegacyRow)
  | current (rows : List Row)
deriving DecidableEq

/-- What the migrations ask of `reader_conversations`. -/
structure Conversations where
  sourceRequired : Bool := false
  owner : Bool := false
deriving DecidableEq

inductive Table where
  | devices
  | sources
  | sessions
  | highlights
  | notes
  | conversations
  | conversationsNew
  | messages
  | outbox
  | outboxNew
  | versions
  | migrations
  | pairingTokens
  | accessTokens
  | items
deriving DecidableEq

/-- The files of `migrations`, in order. -/
inductive Migration where
  | initReaderSchema
  | pairingAndOutbox
  | conversationSourceNullable
  | accessTokens
  | readerItems
  | pairingApproval
  | conversationOwner
deriving DecidableEq

/-- The tables, each absent or with what the migrations read of it. Of the `others` only the
names count. -/
structure Database where
  devices : Option (List Text) := none
  conversations : Option Conversations := none
  conversationsNew : Option Conversations := none
  outbox : Option Outbox := none
  outboxNew : Option (List Row) := none
  versions : Option (List Nat) := none
  ledger : Option (List Migration) := none
  pairing : Option (List String) := none
  others : List Table := []
  indexes : List (String × Table) := []
deriving DecidableEq

namespace Database

def has (db : Database) : Table → Bool
  | .devices => db.devices.isSome
  | .conversations => db.conversations.isSome
  | .conversationsNew => db.conversationsNew.isSome
  | .outbox => db.outbox.isSome
  | .outboxNew => db.outboxNew.isSome
  | .versions => db.versions.isSome
  | .migrations => db.ledger.isSome
  | .pairingTokens => db.pairing.isSome
  | other => other ∈ db.others

def hasIndex (db : Database) (name : String) : Bool := db.indexes.any fun entry => entry.1 = name

/-- A new table, as the migration files define it. -/
def add (db : Database) : Table → Database
  | .devices => {db with devices := some []}
  | .conversations => {db with conversations := some {}}
  | .conversationsNew => {db with conversationsNew := some {}}
  | .outbox => {db with outbox := some (.legacy [])}
  | .outboxNew => {db with outboxNew := some []}
  | .versions => {db with versions := some []}
  | .migrations => {db with ledger := some []}
  | .pairingTokens =>
    {db with pairing := some ["token_hash","device_name","device_type","expires_at","used_at",
      "used_by_device_id","created_at"]}
  | other => {db with others := db.others ++ [other]}

def unindex (table : Table) (db : Database) : Database :=
  {db with indexes := db.indexes.filter fun entry => entry.2 ≠ table}

def reindex (old new : Table) (db : Database) : Database :=
  {db with indexes := db.indexes.map fun entry =>
    if entry.2 = old then (entry.1,new) else entry}

def recorded (db : Database) (migration : Migration) : Bool :=
  db.ledger.any fun files => migration ∈ files

def versioned (db : Database) (version : Nat) : Bool :=
  db.versions.any fun versions => version ∈ versions

end Database

inductive SqlError where
  | alreadyExists
  | missing
  | constraint
deriving DecidableEq

inductive Statement where
  | createTableIfNotExists (table : Table)
  | createOutbox
  | createOutboxNew
  | createConversationsNew
  | createIndex (name : String) (table : Table)
  | createIndexIfNotExists (name : String) (table : Table)
  | insertVersion (version : Nat)
  | insertOrIgnoreVersion (version : Nat)
  | recordMigration (migration : Migration)
  | addPairingColumn (column : String)
  | dropOutboxNewIfExists
  | insertPlaceholder (device : Text)
  | copyOutbox (device : Text)
  | dropOutbox
  | renameOutboxNew
  | dropConversationsNewIfExists
  | copyConversations
  | dropConversations
  | renameConversationsNew
  | addOwner
  | assignOwners
deriving DecidableEq

namespace Statement

def opens : Statement → Bool
  | .insertVersion _ | .insertOrIgnoreVersion _ | .recordMigration _ | .insertPlaceholder _
  | .copyOutbox _ | .copyConversations | .assignOwners => true
  | _ => false

def run (db : Database) : Statement → Except SqlError Database
  | .createTableIfNotExists table => .ok (if db.has table then db else db.add table)
  | .createOutbox =>
    if db.outbox.isSome then .error .alreadyExists
    else .ok {db with outbox := some (.current [])}
  | .createOutboxNew =>
    if db.outboxNew.isSome then .error .alreadyExists else .ok {db with outboxNew := some []}
  | .createConversationsNew =>
    if db.conversationsNew.isSome then .error .alreadyExists
    else .ok {db with conversationsNew := some {}}
  | .createIndex name table =>
    if db.hasIndex name then .error .alreadyExists
    else if db.has table then .ok {db with indexes := db.indexes ++ [(name,table)]}
    else .error .missing
  | .createIndexIfNotExists name table =>
    if db.hasIndex name then .ok db
    else if db.has table then .ok {db with indexes := db.indexes ++ [(name,table)]}
    else .error .missing
  | .insertVersion version =>
    match db.versions with
    | none => .error .missing
    | some versions =>
      if version ∈ versions then .error .constraint
      else .ok {db with versions := some (versions ++ [version])}
  | .insertOrIgnoreVersion version =>
    match db.versions with
    | none => .error .missing
    | some versions =>
      .ok {db with versions := some (if version ∈ versions then versions
        else versions ++ [version])}
  | .recordMigration migration =>
    match db.ledger with
    | none => .error .missing
    | some files =>
      if migration ∈ files then .error .constraint
      else .ok {db with ledger := some (files ++ [migration])}
  | .addPairingColumn column =>
    match db.pairing with
    | none => .error .missing
    | some columns =>
      if column ∈ columns then .error .alreadyExists
      else .ok {db with pairing := some (columns ++ [column])}
  | .dropOutboxNewIfExists => .ok ({db with outboxNew := none}.unindex .outboxNew)
  | .insertPlaceholder device =>
    match db.devices with
    | none => .error .missing
    | some devices =>
      if device ∈ devices then .error .constraint
      else .ok {db with devices := some (devices ++ [device])}
  | .copyOutbox device =>
    match db.outbox,db.outboxNew with
    | some (.legacy rows),some copied =>
      if db.devices.all fun devices => device ∉ devices then .error .constraint
      else if rows.any fun row => row.id ∈ copied.map Row.id then .error .constraint
      else .ok {db with outboxNew := some (copied ++ rows.map (migrateRow device))}
    | _,_ => .error .missing
  | .dropOutbox =>
    if db.outbox.isSome then .ok ({db with outbox := none}.unindex .outbox)
    else .error .missing
  | .renameOutboxNew =>
    match db.outboxNew,db.outbox with
    | none,_ => .error .missing
    | some _,some _ => .error .alreadyExists
    | some rows,none =>
      .ok ({db with outbox := some (.current rows),outboxNew := none}.reindex
        .outboxNew .outbox)
  | .dropConversationsNewIfExists =>
    .ok ({db with conversationsNew := none}.unindex .conversationsNew)
  | .copyConversations =>
    if db.conversations.isSome && db.conversationsNew.isSome then .ok db else .error .missing
  | .dropConversations =>
    if db.conversations.isSome then .ok ({db with conversations := none}.unindex .conversations)
    else .error .missing
  | .renameConversationsNew =>
    match db.conversationsNew,db.conversations with
    | none,_ => .error .missing
    | some _,some _ => .error .alreadyExists
    | some table,none =>
      .ok ({db with conversations := some table,conversationsNew := none}.reindex
        .conversationsNew .conversations)
  | .addOwner =>
    match db.conversations with
    | none => .error .missing
    | some table =>
      if table.owner then .error .alreadyExists
      else .ok {db with conversations := some {table with owner := true}}
  | .assignOwners =>
    if db.conversations.any Conversations.owner && db.has .sessions then .ok db
    else .error .missing

end Statement

structure Connection where
  disk : Database
  pending : Option Database := none
deriving DecidableEq

def Connection.visible (c : Connection) : Database := c.pending.getD c.disk

def Connection.keep (c : Connection) (opens : Bool) (db : Database) : Connection :=
  if opens || c.pending.isSome then {c with pending := some db} else {disk := db}

/-- The calls of the driver: a query, a statement, a statement of a script, and the ends of a
transaction. -/
inductive Sql where
  | look
  | execute (statement : Statement)
  | step (statement : Statement)
  | begin
  | commit

abbrev Answer : Sql → Type
  | .look => Database
  | .execute _ | .step _ => Except SqlError Unit
  | .begin | .commit => Unit

def sqlite : Handler Sql Answer Connection
  | .look,c => (c.visible,c)
  | .execute statement,c =>
    match statement.run c.visible with
    | .ok db => (.ok (),c.keep statement.opens db)
    | .error fault => (.error fault,c)
  | .step statement,c =>
    match statement.run c.visible with
    | .ok db => (.ok (),c.keep false db)
    | .error fault => (.error fault,c)
  | .begin,c => ((),{c with pending := some c.visible})
  | .commit,c => ((),{disk := c.visible})

abbrev Action (α : Type) := Proc Sql Answer SqlError α

def look : Action Database := Proc.perform Sql.look

/-- `conn.execute(…)`. -/
def execute (statement : Statement) : Action Unit :=
  Proc.perform (Sql.execute statement) >>= Proc.ofExcept

def step (statement : Statement) : Action Unit :=
  Proc.perform (Sql.step statement) >>= Proc.ofExcept

def begin : Action Unit := Proc.perform Sql.begin

def commit : Action Unit := Proc.perform Sql.commit

def skipIf (condition : Prop) [Decidable condition] (action : Action Unit) : Action Unit :=
  if condition then pure () else action

def inTurn (action : α → Action Unit) : List α → Action Unit
  | [] => pure ()
  | a :: rest => do
    action a
    inTurn action rest

/-- `conn.executescript(…)`. -/
def executeScript (script : List Statement) : Action Unit := do
  commit
  inTurn step script

/-- `001_init_reader_schema.sql`. -/
def initReaderSchema : List Statement :=
  [.createTableIfNotExists .devices,
   .createIndex "idx_devices_device_type" .devices,
   .createIndex "idx_devices_last_seen" .devices,
   .createTableIfNotExists .sources,
   .createIndex "idx_reader_sources_type" .sources,
   .createIndex "idx_reader_sources_url" .sources,
   .createIndex "idx_reader_sources_canonical_url" .sources,
   .createIndex "idx_reader_sources_file_hash" .sources,
   .createIndex "idx_reader_sources_last_read_at" .sources,
   .createTableIfNotExists .sessions,
   .createIndex "idx_reader_sessions_device_id" .sessions,
   .createIndex "idx_reader_sessions_source_id" .sessions,
   .createIndex "idx_reader_sessions_started_at" .sessions,
   .createIndex "idx_reader_sessions_device_source" .sessions,
   .createTableIfNotExists .highlights,
   .createIndex "idx_reader_highlights_source_id" .highlights,
   .createIndex "idx_reader_highlights_session_id" .highlights,
   .createIndex "idx_reader_highlights_sync_state" .highlights,
   .createIndex "idx_reader_highlights_created_at" .highlights,
   .createIndex "idx_reader_highlights_source_sync" .highlights,
   .createTableIfNotExists .notes,
   .createIndex "idx_reader_notes_source_id" .notes,
   .createIndex "idx_reader_notes_highlight_id" .notes,
   .createIndex "idx_reader_notes_session_id" .notes,
   .createIndex "idx_reader_notes_sync_state" .notes,
   .createIndex "idx_reader_notes_updated_at" .notes,
   .createIndex "idx_reader_notes_source_sync" .notes,
   .createTableIfNotExists .conversations,
   .createIndex "idx_reader_conversations_source_id" .conversations,
   .createIndex "idx_reader_conversations_highlight_id" .conversations,
   .createIndex "idx_reader_conversations_session_id" .conversations,
   .createIndex "idx_reader_conversations_created_at" .conversations,
   .createTableIfNotExists .messages,
   .createIndex "idx_reader_messages_conversation_id" .messages,
   .createIndex "idx_reader_messages_created_at" .messages,
   .createIndex "idx_reader_messages_role" .messages,
   .createTableIfNotExists .outbox,
   .createIndex "idx_reader_sync_outbox_entity" .outbox,
   .createIndex "idx_reader_sync_outbox_created_at" .outbox,
   .createIndex "idx_reader_sync_outbox_processed_at" .outbox,
   .createIndex "idx_reader_sync_outbox_unprocessed" .outbox,
   .createTableIfNotExists .versions,
   .insertVersion 1]

/-- `002_reader_pairing_and_outbox.sql`. -/
def pairingAndOutbox : List Statement :=
  [.createTableIfNotExists .pairingTokens,
   .createIndexIfNotExists "idx_pairing_tokens_expires_at" .pairingTokens,
   .createIndexIfNotExists "idx_pairing_tokens_used_at" .pairingTokens,
   .insertOrIgnoreVersion 2]

/-- `003_reader_conversation_source_nullable.sql`. -/
def conversationSourceNullable : List Statement := [.insertOrIgnoreVersion 3]

/-- `004_reader_access_tokens.sql`. -/
def readerAccessTokens : List Statement :=
  [.createTableIfNotExists .accessTokens,
   .createIndexIfNotExists "idx_reader_access_tokens_hash" .accessTokens]

/-- `005_reader_items.sql`. -/
def readerItems : List Statement :=
  [.createTableIfNotExists .items,
   .createIndexIfNotExists "idx_reader_items_device_id" .items,
   .createIndexIfNotExists "idx_reader_items_source_id" .items,
   .createIndexIfNotExists "idx_reader_items_updated_at" .items]

/-- `006_reader_pairing_approval.sql`. -/
def readerPairingApproval : List Statement := [.addPairingColumn "approved_at"]

def outboxIndexes : List String :=
  ["idx_reader_sync_outbox_device_id","idx_reader_sync_outbox_entity",
   "idx_reader_sync_outbox_created_at","idx_reader_sync_outbox_sync_state",
   "idx_reader_sync_outbox_device_pending"]

def indexOutbox : Action Unit :=
  inTurn (fun name => execute (.createIndex name .outbox)) outboxIndexes

/-- The columns of `pairing_tokens` that the code needs. -/
def ensurePairingColumns (columns : List String) : Action Unit :=
  skipIf ("used_at" ∈ columns ∧ "used_by_device_id" ∈ columns) do
    skipIf ("used_at" ∈ columns) (execute (.addPairingColumn "used_at"))
    skipIf ("used_by_device_id" ∈ columns) (execute (.addPairingColumn "used_by_device_id"))
    commit

def ensurePairingTokens : Action Unit := do
  let db ← look
  match db.pairing with
  | some columns => ensurePairingColumns columns
  | none => do
    executeScript pairingAndOutbox
    commit

def defaultDevice : Action Text := do
  let db ← look
  match db.devices.getD [] with
  | device :: _ => return device
  | [] => do
    execute (.insertPlaceholder placeholderDevice)
    return placeholderDevice

def transformOutbox : Action Unit := do
  execute .dropOutboxNewIfExists
  execute .createOutboxNew
  let device ← defaultDevice
  execute (.copyOutbox device)
  execute .dropOutbox
  execute .renameOutboxNew
  indexOutbox
  commit

def ensureOutbox : Action Unit := do
  let db ← look
  match db.outbox with
  | none => do
    execute .createOutbox
    indexOutbox
    commit
  | some (.current _) => pure ()
  | some (.legacy _) => transformOutbox

/-- `_apply_migration_002`. -/
def applyMigration002 : Action Unit := do
  ensurePairingTokens
  ensureOutbox

/-- The rebuild of `reader_conversations`, in one transaction. -/
def rebuildConversations : Action Unit := do
  begin
  execute .dropConversationsNewIfExists
  execute .createConversationsNew
  execute .copyConversations
  execute .dropConversations
  execute .renameConversationsNew
  execute (.createIndexIfNotExists "idx_reader_conversations_source_id" .conversations)
  execute (.createIndexIfNotExists "idx_reader_conversations_highlight_id" .conversations)
  execute (.createIndexIfNotExists "idx_reader_conversations_session_id" .conversations)
  execute (.createIndexIfNotExists "idx_reader_conversations_created_at" .conversations)
  commit

/-- `_apply_migration_003`. -/
def applyMigration003 : Action Unit := do
  let db ← look
  match db.conversations with
  | none => pure ()
  | some table =>
    skipIf (table.sourceRequired = false) do
      rebuildConversations
      executeScript conversationSourceNullable

/-- `_apply_migration_007`. -/
def applyMigration007 : Action Unit := do
  let db ← look
  skipIf (db.conversations.any Conversations.owner) (execute .addOwner)
  execute .assignOwners
  execute (.createIndexIfNotExists "idx_reader_conversations_device_id" .conversations)
  commit

def apply : Migration → Action Unit
  | .initReaderSchema => executeScript initReaderSchema
  | .pairingAndOutbox => applyMigration002
  | .conversationSourceNullable => applyMigration003
  | .accessTokens => executeScript readerAccessTokens
  | .readerItems => executeScript readerItems
  | .pairingApproval => executeScript readerPairingApproval
  | .conversationOwner => applyMigration007

def migrate (migration : Migration) : Action Unit := do
  let db ← look
  skipIf (db.recorded migration) do
    apply migration
    execute (.recordMigration migration)
    commit

def recordInitialised : Action Unit := do
  let db ← look
  skipIf (db.versioned 1 = false ∨ db.recorded .initReaderSchema) do
    execute (.recordMigration .initReaderSchema)
    commit

def healthCheck : Action Unit := do
  let db ← look
  skipIf (db.recorded .pairingAndOutbox = false) applyMigration002

/-- `_ensure_schema`. -/
def ensureSchema : Action Unit := do
  execute (.createTableIfNotExists .migrations)
  commit
  recordInitialised
  inTurn migrate [.initReaderSchema,.pairingAndOutbox,.conversationSourceNullable,
    .accessTokens,.readerItems,.pairingApproval,.conversationOwner]
  healthCheck

/-- One start of the server: it runs to its end, or is cut off after a number of calls. An
open transaction is lost with the connection. -/
def start (cut : Option Nat) (db : Database) : Database :=
  match cut with
  | none => (Effect.run sqlite ensureSchema {disk := db}).2.disk
  | some calls => (Effect.crash sqlite calls ensureSchema {disk := db}).disk

def starts (cuts : List (Option Nat)) (db : Database) : Database :=
  cuts.foldl (fun db cut => start cut db) db

end LocalBook.Reader.Schema
