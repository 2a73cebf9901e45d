import LocalBook.Recovery.Undo

/-! Explicit recovery of a job that a crash interrupted: every journaled step is
classified by digest first, and only then are the applied ones reversed. -/
namespace LocalBook.Recovery

open Effect Vault

/-- `_current_hash`: `none` when the file is absent. -/
def currentHash (v : VaultService) (path : Text) : Look (Option Text) :=
  (v.readBytes path).andThen fun
  | .ok (_,digest) => pure (some digest)
  | .error reason =>
    if reason.vaultCode? = some .notFound then pure none else Proc.throw reason

inductive Finding where
  | applied (digest : Text)
  | untouched
  | changed
deriving DecidableEq

def classify (v : VaultService) (entry : JournalEntry) : Look Finding :=
  (currentHash v entry.path).andThen fun
  | .error _ => pure .changed
  | .ok current => pure <| match entry.afterHash with
    | some digest =>
      if current = some digest then .applied digest
      else if current = none ∨ current = entry.beforeHash then .untouched
      else .changed
    | none => if current = none ∨ current = entry.beforeHash then .untouched else .changed

def classifyAll (v : VaultService) :
    List JournalEntry → Look (List (JournalEntry × Text) × List Text)
  | [] => pure ([],[])
  | entry :: rest => do
    let finding ← classify v entry
    let (applied,conflicts) ← classifyAll v rest
    pure <| match finding with
    | .applied digest => ((entry,digest) :: applied,conflicts)
    | .untouched => (applied,conflicts)
    | .changed => (applied,entry.path :: conflicts)

def flagged (status : JobStatus) : Bool :=
  status ∈ [.recoveryRequired,.executing,.validating,.captured,.preflighted,.planned]

def uncertain (entry : JournalEntry) : Bool :=
  entry.operation.executable && (entry.state = .pending || entry.state = .applied)

/-- `_finish_recovery_record`. -/
def finishRecoveryRecord (jobId : Text) (status : JobStatus) (code : String) (message : Text) :
    Sys Unit := do
  match ← History.get jobId with
  | none => pure ()
  | some record => History.save {record with status := status,error := some {code,message}}

structure RecoveryService where
  vault : VaultService
  maxJournalBytes : Nat

namespace RecoveryService

variable (r : RecoveryService)

def executor : TransactionExecutor := ⟨r.vault,r.maxJournalBytes⟩

def undoService : UndoService := ⟨r.vault⟩

section Restore

variable [Host]

/-- `_restore_entry`. -/
def restoreEntry (entry : JournalEntry) (digest : Text) : Fs Unit := match entry.operation with
  | .update => writeBack r.vault entry.path (entry.beforeBytes.getD .empty) (some digest)
      (differs entry.beforeHash) (.runtime "restored bytes do not match the before hash")
  | .create => deleteAgain r.vault entry.path (some digest)
      (.runtime "file still exists after inverse delete")
  | .move =>
    if falsy entry.source then Proc.throw (.runtime "move inverse requires a source path")
    else moveBack r.vault entry.path (entry.source.getD []) (some digest)
      (differs entry.beforeHash) (.runtime "moved-back bytes do not match the before hash")
  | .undo => Proc.throw (.runtime "unsupported inverse for undo")

def restoreEntries (jobId : Text) :
    List (JournalEntry × Text) → Nat → List Text →
      Sys (List Text × Option (JournalEntry × Exc))
  | [], _, restored => pure (restored,none)
  | (entry,digest) :: rest, seq, restored =>
    (liftM (r.restoreEntry entry digest) : Sys Unit).andThen fun
    | .error reason => pure (restored,some (entry,reason))
    | .ok _ => do
      appendAudit jobId seq entry.path entry.beforeHash
      restoreEntries jobId rest (seq + 1) (TransactionExecutor.restoredPaths restored entry.path
        (if entry.operation = .move then entry.source else none))

end Restore

variable [Runtime]

def restorePass (jobId : Text) (entries : List JournalEntry)
    (applied : List (JournalEntry × Text)) : Sys RecoveryResult := do
  let (restored,failure) ← r.restoreEntries jobId applied.reverse (nextSeq entries) []
  History.setJournalState jobId .rolledBack
  match failure with
  | some (entry,reason) => pure {
      jobId,status := .rollbackFailed,restored,conflictPaths := [entry.path]
      error := some ("explicit rollback failed on ".toList ++ entry.path ++ ": ".toList ++
        reason.safeMessage)}
  | none => do
    finishRecoveryRecord jobId .rolledBack "recovery_rolled_back"
      "explicit recovery rollback complete".toList
    pure {
      jobId,status := .rolledBack,restored
      error := some "explicit recovery rollback complete".toList}

def recover (jobId : Text) (entries : List JournalEntry) : Sys RecoveryResult :=
  let executable := entries.filter uncertain
  if executable = [] then do
    finishRecoveryRecord jobId .failed "recovery_nothing_applied"
      "no journaled steps were applied".toList
    pure {jobId,status := .rolledBack,error := some "nothing to restore".toList}
  else do
    let (applied,conflictPaths) ←
      (liftM (classifyAll r.vault executable) : Sys (List (JournalEntry × Text) × List Text))
    if conflictPaths = [] then r.restorePass jobId entries applied
    else pure {
      jobId,status := .conflict,conflictPaths
      error := some "files changed externally; refusing to overwrite".toList}

/-- `rollback_if_safe`. -/
def rollbackIfSafe (jobId : Text) : Sys RecoveryResult := do
  match ← History.get jobId with
  | none => pure {
      jobId,status := .undoUnavailable
      error := some "job not found; nothing to recover".toList}
  | some record =>
    if flagged record.status then do
      let entries ← History.journal jobId
      r.recover jobId entries
    else pure {
      jobId,status := .undoUnavailable
      error := some
        "job is not in an uncertain state; use /history undo for committed jobs".toList}

end RecoveryService

end LocalBook.Recovery
