import LocalBook.Reader.Retry

/-! The outbox of the reading client. A batch of its rows is pushed, and the answer of the
server, which names entities, decides which rows leave the queue. -/
namespace LocalBook.ReadFlow

open Reader

structure UUID where
  digits : List (Fin 16)
  length : digits.length = 32
deriving DecidableEq

namespace UUID

def hexDigit (d : Fin 16) : Char := "0123456789ABCDEF".toList.get (d.cast (by decide))

/-- `uuidString`: groups of eight, four, four, four and twelve upper-case digits. -/
def uuidString (u : UUID) : Text :=
  let hex := u.digits.map hexDigit
  hex.take 8 ++ '-' :: ((hex.drop 8).take 4 ++ '-' :: ((hex.drop 12).take 4 ++
    '-' :: ((hex.drop 16).take 4 ++ '-' :: hex.drop 20)))

end UUID

/-- A row of `sync_outbox`. The payload is kept as the object that is sent. -/
structure SyncOutbox where
  id : Nat
  entityType : SyncEntityType
  entityID : UUID
  operation : Reader.SyncOperation
  payload : Data := []
  createdAt : Int
  retryCount : Nat := 0
  lastError : Option String := none

variable [Host]

/-- `caseInsensitiveCompare(…) == .orderedSame`. -/
def sameId (a b : Text) : Bool := Host.casefold a = Host.casefold b

/-- `.order(createdAt.asc, id.asc)`. -/
def SyncOutbox.precedes (a b : SyncOutbox) : Prop :=
  a.createdAt < b.createdAt ∨ (a.createdAt = b.createdAt ∧ a.id ≤ b.id)

instance : DecidableRel SyncOutbox.precedes := fun a b =>
  inferInstanceAs (Decidable (a.createdAt < b.createdAt ∨ _))

def getPendingSyncItems (limit : Nat) (outbox : List SyncOutbox) : List SyncOutbox :=
  (outbox.insertionSort SyncOutbox.precedes).take limit

def markSyncItemSuccess (id : Nat) (outbox : List SyncOutbox) : List SyncOutbox :=
  outbox.filter fun row => row.id ≠ id

def markSyncItemFailed (id : Nat) (error : String) (outbox : List SyncOutbox) :
    List SyncOutbox :=
  outbox.map fun row =>
    if row.id = id then {row with retryCount := row.retryCount + 1,lastError := some error}
    else row

/-- `items.first(where:)`: the first row of the batch with this entity id. -/
def firstItem (items : List SyncOutbox) (id : Text) : Option SyncOutbox :=
  items.find? fun item => sameId item.entityID.uuidString id

def acknowledge (items : List SyncOutbox) (outbox : List SyncOutbox) (id : Text) :
    List SyncOutbox :=
  match firstItem items id with
  | some item => markSyncItemSuccess item.id outbox
  | none => outbox

def failWith (items : List SyncOutbox) (reason : String) (outbox : List SyncOutbox)
    (id : Text) : List SyncOutbox :=
  match firstItem items id with
  | some item => markSyncItemFailed item.id reason outbox
  | none => outbox

def reasonFor (conflicts : List SyncConflict) (id : Text) : String :=
  ((conflicts.find? fun conflict => sameId conflict.entityId id).map SyncConflict.reason).getD
    "服务器拒绝了同步操作"

/-- The three loops of `pushChanges` over the answer of the server. -/
def processResponse (items : List SyncOutbox) (response : PushSyncResponse)
    (outbox : List SyncOutbox) : List SyncOutbox :=
  let acknowledged := response.acceptedIds.foldl (acknowledge items) outbox
  let rejected := response.rejectedIds.foldl
    (fun outbox id => failWith items (reasonFor response.conflicts id) outbox id) acknowledged
  response.conflicts.foldl
    (fun outbox conflict => failWith items conflict.reason outbox conflict.entityId) rejected

/-- The operation a row is sent as. -/
def SyncOutbox.toOperation (row : SyncOutbox) : Operation where
  operation := row.operation
  entityType := row.entityType
  entityId := row.entityID.uuidString
  data := row.payload

def pushLimit : Nat := 100

/-- `pushChanges` against a server. When the push fails the queue stays as it is. -/
def pushChanges (device : Text) (clock : Nat → Clock) (outbox : List SyncOutbox) (db : Db) :
    List SyncOutbox × Db :=
  let items := getPendingSyncItems pushLimit outbox
  if items.isEmpty then (outbox,db)
  else
    match pushSync device (items.map SyncOutbox.toOperation) clock db with
    | (.ok response,db') => (processResponse items response outbox,db')
    | (.error _,db') => (outbox,db')

end LocalBook.ReadFlow
