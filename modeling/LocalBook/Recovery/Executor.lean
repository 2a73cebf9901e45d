import LocalBook.World

/-! The transaction executor: every step is journaled before it writes, and a failure
rolls the completed steps back in reverse order. -/
namespace LocalBook.Recovery

open Effect Vault

inductive OperationKind where
  | create
  | update
  | move
deriving Repr,DecidableEq

/-- One deterministic step of a job transaction; `source` is its `metadata`. -/
structure TransactionOperation where
  operation : OperationKind
  path : Text
  beforeExists : Bool
  beforeBytes : Option Bytes
  beforeHash : Option Text
  afterBytes : Option Bytes
  afterHash : Option Text
  targetPath : Option Text := none
  source : Option Text := none
deriving DecidableEq

structure RecoveryResult where
  jobId : Text
  status : JobStatus
  restored : List Text := []
  conflictPaths : List Text := []
  error : Option Text := none
deriving DecidableEq

def OperationKind.journal : OperationKind → JournalOperation
  | .create => .create
  | .update => .update
  | .move => .move

/-- `value or fallback` of an optional text. -/
def orElse (value fallback : Option Text) : Option Text :=
  if falsy value then fallback else value

/-- `make_entry`. -/
def makeEntry (jobId : Text) (seq : Nat) (op : TransactionOperation) :
    Except Exc JournalEntry :=
  JournalEntry.modelValidate {
    jobId,seq
    operation := op.operation.journal
    path := (orElse op.targetPath (some op.path)).getD []
    beforeExists := op.beforeExists
    beforeBytes := op.beforeBytes
    beforeHash := op.beforeHash
    afterExists := true
    afterHash := orElse op.afterHash (op.afterBytes.map sha256Bytes)
    source := if op.operation = .move then some (op.source.getD []) else none}

structure Executed where
  operation : TransactionOperation
  afterHash : Text

structure TransactionExecutor where
  vault : VaultService
  maxJournalBytes : Nat

/-- `_assert_absent`. -/
def assertAbsent (v : VaultService) (path : Text) (present : Exc) : Fs Unit :=
  (liftM (v.readBytes path) : Fs (Bytes × Text)).andThen fun
  | .ok _ => Proc.throw present
  | .error reason =>
    if reason.vaultCode? = some .notFound then pure () else Proc.throw reason

/-- `before_hash and result.get("sha256") != before_hash`. -/
def differs (beforeHash digest : Option Text) : Bool :=
  !falsy beforeHash && digest != beforeHash

section Inverse

variable [Host] (v : VaultService)

def deleteAgain (path : Text) (digest : Option Text) (present : Exc) : Fs Unit := do
  let _ ← v.deleteFile path digest
  assertAbsent v path present

def writeBack (path : Text) (data : Bytes) (digest : Option Text) (wrong : Option Text → Bool)
    (mismatch : Exc) : Fs Unit := do
  let result ← v.writeBytes path data digest
  Proc.raiseIf (wrong result.sha256) mismatch

def moveBack (path source : Text) (digest : Option Text) (wrong : Option Text → Bool)
    (mismatch : Exc) : Fs Unit := do
  let result ← v.moveFile path source digest
  Proc.raiseIf (wrong result.sha256) mismatch

end Inverse

namespace TransactionExecutor

variable (x : TransactionExecutor)

/-- `record_operation`; `bytes` is what the journal of this run holds already. -/
def record (jobId : Text) (seq bytes : Nat) (op : TransactionOperation) : Sys Nat := do
  let entry ← Proc.ofExcept (makeEntry jobId seq op)
  Proc.raiseIf (bytes + entry.journalLength > x.maxJournalBytes)
    (m7 .historyLimitExceeded "Journal before-state exceeds the size limit".toList)
  History.addJournal entry
  pure (bytes + entry.journalLength)

/-- `_apply`. -/
def apply [Host] (op : TransactionOperation) : Fs Receipt := match op.operation with
  | .create => match op.afterBytes with
    | none => Proc.throw (.value "create operation requires after_bytes")
    | some data => x.vault.createBytes op.path data
  | .update => match op.afterBytes with
    | none => Proc.throw (.value "update operation requires after_bytes")
    | some data => x.vault.writeBytes op.path data op.beforeHash
  | .move =>
    if falsy op.source then Proc.throw (.value "move operation requires a source path")
    else x.vault.moveFile (op.source.getD []) op.path op.beforeHash

/-- `_after_hash`. -/
def afterHash (op : TransactionOperation) (result : Receipt) : Except Exc Text :=
  match orElse result.sha256 (op.afterBytes.map sha256Bytes) with
  | some digest => .ok digest
  | none => .error (.runtime "cannot derive the after hash for rollback")

/-- One turn of the loop of `execute`. -/
def step [Host] (jobId : Text) (seq bytes : Nat) (op : TransactionOperation) :
    Sys (Nat × Executed) := do
  let bytes ← x.record jobId seq bytes op
  let result ← (liftM (x.apply op) : Sys Receipt)
  let digest ← Proc.ofExcept (afterHash op result)
  pure (bytes,⟨op,digest⟩)

/-- The loop of `execute`: the completed steps, and the exception that ended it. -/
def steps [Host] (jobId : Text) :
    Nat → Nat → List TransactionOperation → Sys (List Executed × Option Exc)
  | _, _, [] => pure ([],none)
  | seq, bytes, op :: rest =>
    (x.step jobId seq bytes op).andThen fun
    | .error reason => pure ([],some reason)
    | .ok (bytes,executed) => do
      let (later,failure) ← steps jobId (seq + 1) bytes rest
      pure (executed :: later,failure)

/-- `_undo_one`. -/
def undoOne [Host] (done : Executed) : Fs Unit := match done.operation.operation with
  | .create => deleteAgain x.vault done.operation.path (some done.afterHash)
      (.runtime "file still exists after inverse delete")
  | .update => match done.operation.beforeBytes with
    | none => Proc.throw (.value "update inverse requires before bytes")
    | some data => writeBack x.vault done.operation.path data (some done.afterHash)
        (fun digest => digest ≠ done.operation.beforeHash)
        (.runtime "restored bytes do not match the before hash")
  | .move =>
    if falsy done.operation.source then
      Proc.throw (.value "move inverse requires a source path")
    else moveBack x.vault done.operation.path (done.operation.source.getD [])
      (some done.afterHash) (differs done.operation.beforeHash)
      (.runtime "moved-back bytes do not match the before hash")

def restoredPaths (restored : List Text) (path : Text) (source : Option Text) : List Text :=
  let restored := restored ++ [path]
  if falsy source ∨ source.getD [] ∈ restored then restored else restored ++ [source.getD []]

/-- The loop of `_rollback`, over the completed steps in reverse order. -/
def undoAll [Host] :
    List Executed → List Text → Sys (List Text × Option (TransactionOperation × Exc))
  | [], restored => pure (restored,none)
  | done :: rest, restored =>
    (liftM (x.undoOne done) : Sys Unit).andThen fun
    | .error reason => pure (restored,some (done.operation,reason))
    | .ok _ => undoAll rest (restoredPaths restored done.operation.path
        (if done.operation.operation = .move then done.operation.source else none))

variable [Runtime]

/-- `_rollback`. -/
def rollback (jobId : Text) (executed : List Executed) (cause : Exc) : Sys RecoveryResult := do
  let (restored,failure) ← x.undoAll executed.reverse []
  History.setJournalState jobId .rolledBack
  match failure with
  | some (op,reason) => pure {
      jobId,status := .rollbackFailed,restored,conflictPaths := [op.path]
      error := some ("rollback failed on ".toList ++ op.path ++ ": ".toList ++
        reason.safeMessage)}
  | none => pure {
      jobId,status := .rolledBack,restored
      error := some ("transaction failed: ".toList ++ cause.safeMessage)}

/-- `TransactionExecutor.execute`. -/
def execute (jobId : Text) (operations : List TransactionOperation) : Sys RecoveryResult := do
  let (executed,failure) ← x.steps jobId 0 0 operations
  match failure with
  | none => do
    History.setJournalState jobId .applied
    pure {jobId,status := .committed}
  | some reason =>
    if executed.isEmpty then do
      History.setJournalState jobId .pending
      pure {
        jobId,status := .conflict
        error := some ("conflict before any write: ".toList ++ reason.safeMessage)}
    else x.rollback jobId executed reason

end TransactionExecutor

end LocalBook.Recovery
