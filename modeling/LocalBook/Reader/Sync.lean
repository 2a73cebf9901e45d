import LocalBook.Reader.Tables

/-! The sync operations of the server: a batch of operations is pushed in one transaction,
and the operations of the other devices are pulled page by page along a cursor. -/
namespace LocalBook.Reader

structure Operation where
  operation : SyncOperation
  entityType : SyncEntityType
  entityId : Text
  data : Data := []

def outboxRow (device : Text) (op : Operation) (clock : Clock) (db : Db) : OutboxRow where
  id := db.sequence + 1
  deviceId := device
  entityType := op.entityType
  entityId := op.entityId
  operation := op.operation
  data := op.data
  createdAt := clock 2

/-- `_add_to_outbox`. -/
def addToOutbox (device : Text) (op : Operation) (clock : Clock) (db : Db) : Db :=
  {db with
    outbox := db.outbox ++ [outboxRow device op clock db],
    sequence := db.sequence + 1}

/-- The statement of one operation. -/
def statement (device : Text) (op : Operation) (db : Db) : Except Fault (Clock → Db) :=
  match op.operation with
  | .create => insertEntity device op.entityType op.entityId op.data db
  | .update => updateEntity op.entityType op.entityId op.data db
  | .delete => .ok fun _ => deleteEntity op.entityType op.entityId db

/-- `_apply_sync_operation`. -/
def applySyncOperation (device : Text) (op : Operation) (db : Db) : Except Fault (Clock → Db) :=
  (statement device op db).map fun change clock => addToOutbox device op clock (change clock)

/-- What became of one operation: accepted, or refused with a domain error. -/
abbrev Verdict := Option ReaderError

/-- The loop of `push_sync_operations`: a domain error is counted, and any other exception
ends the transaction. Operation `n` reads the clock `clock n`. -/
def applyOperations (device : Text) (clock : Nat → Clock) :
    Nat → List Operation → Db → Except String (List Verdict × Db)
  | _,[],db => .ok ([],db)
  | n,op :: rest,db =>
    match applySyncOperation device op db with
    | .ok change =>
      (applyOperations device clock (n + 1) rest (change (clock n))).map fun result =>
        (none :: result.1,result.2)
    | .error (.reader error) =>
      (applyOperations device clock (n + 1) rest db).map fun result =>
        (some error :: result.1,result.2)
    | .error (.unwrapped what) => .error what

structure PushSyncResponse where
  accepted : Nat
  rejected : Nat
  acceptedIds : List Text
  rejectedIds : List Text
  conflicts : List SyncConflict

def idsOf (test : Verdict → Bool) (operations : List Operation) (verdicts : List Verdict) :
    List Text :=
  ((operations.zip verdicts).filter fun entry => test entry.2).map fun entry => entry.1.entityId

def conflictOf : Verdict → Option SyncConflict
  | some ⟨.syncConflict,_,conflict⟩ => conflict
  | _ => none

/-- What the loop counts and collects. -/
def tally (operations : List Operation) (verdicts : List Verdict) : PushSyncResponse where
  accepted := verdicts.countP Option.isNone
  rejected := verdicts.countP Option.isSome
  acceptedIds := idsOf Option.isNone operations verdicts
  rejectedIds := idsOf Option.isSome operations verdicts
  conflicts := verdicts.filterMap conflictOf

def maxBatchSize : Nat := 100

def placeholderDevice : Text := "migration-device-001".toList

/-- `get_device`, which hides the migration placeholder. -/
def getDevice (device : Text) (db : Db) : Except Fault Unit :=
  refuse (device = placeholderDevice || device ∉ db.devices)
    (.reader ⟨.deviceNotFound,"Device not found: " ++ String.ofList device,none⟩)

/-- `push_sync` with `push_sync_operations`: the verdicts, and the database after the commit. -/
def pushVerdicts (device : Text) (operations : List Operation) (clock : Nat → Clock) (db : Db) :
    Except Fault (List Verdict × Db) := do
  refuse (maxBatchSize < operations.length)
    (.reader ⟨.batchTooLarge,"Batch size exceeds maximum of 100 operations",none⟩)
  getDevice device db
  match applyOperations device clock 0 operations db with
  | .ok result => return result
  | .error what => throw (.unwrapped what)

/-- `push_sync`. A push that raises is rolled back. -/
def pushSync (device : Text) (operations : List Operation) (clock : Nat → Clock) (db : Db) :
    Except Fault PushSyncResponse × Db :=
  match pushVerdicts device operations clock db with
  | .ok (verdicts,db') => (.ok (tally operations verdicts),db')
  | .error fault => (.error fault,db)

/-- `timestamp:offset`. -/
structure Cursor where
  timestamp : Int
  offset : Int
deriving Repr,DecidableEq

namespace Cursor

def render (cursor : Cursor) : Text :=
  Decimal.render cursor.timestamp ++ ':' :: Decimal.render cursor.offset

def parse (text : Text) : Option Cursor :=
  match Text.split ':' text with
  | [timestamp,offset] => do return ⟨← Decimal.parse timestamp,← Decimal.parse offset⟩
  | _ => none

def start : Cursor := ⟨0,0⟩

end Cursor

def parseCursor : Option Text → Except Fault Cursor
  | none | some [] => .ok .start
  | some text =>
    match Cursor.parse text with
    | some cursor => .ok cursor
    | none => .error (.reader ⟨.invalidCursor,"Invalid sync cursor format",none⟩)

/-- `ORDER BY created_at ASC, id ASC`. -/
def OutboxRow.precedes (a b : OutboxRow) : Prop :=
  a.createdAt < b.createdAt ∨ (a.createdAt = b.createdAt ∧ a.id ≤ b.id)

instance : DecidableRel OutboxRow.precedes := fun a b =>
  inferInstanceAs (Decidable (a.createdAt < b.createdAt ∨ _))

/-- `WHERE device_id != ? AND created_at >= ? AND id > ?`. -/
def OutboxRow.after (device : Text) (cursor : Cursor) (row : OutboxRow) : Bool :=
  row.deviceId ≠ device && cursor.timestamp ≤ row.createdAt && cursor.offset < row.id

def changesAfter (device : Text) (cursor : Cursor) (db : Db) : List OutboxRow :=
  (db.outbox.filter (OutboxRow.after device cursor)).insertionSort OutboxRow.precedes

structure Page where
  rows : List OutboxRow
  nextCursor : Option Text
  hasMore : Bool

def OutboxRow.cursor (row : OutboxRow) : Cursor := ⟨row.createdAt,row.id⟩

/-- `pull_sync_changes`: one row more than the limit is fetched. -/
def pullSyncChanges (device : Text) (cursor : Option Text) (limit : Nat) (db : Db) :
    Except Fault Page := do
  let cursor ← parseCursor cursor
  let rows := (changesAfter device cursor db).take (limit + 1)
  let page := rows.take limit
  return {rows := page,nextCursor := page.getLast?.map fun row => row.cursor.render,
          hasMore := decide (limit < rows.length)}

/-- `pull_sync`. -/
def pullSync (device : Text) (cursor : Option Text) (limit : Nat) (db : Db) :
    Except Fault Page := do
  getDevice device db
  pullSyncChanges device cursor limit db

end LocalBook.Reader
