import LocalBook.Recovery.Executor

/-! Undo of a committed job: the journaled before-states are restored in reverse order,
each guarded by the digest its step left, and each with an audit row. -/
namespace LocalBook.Recovery

open Effect Vault

def nextSeq (entries : List JournalEntry) : Nat :=
  entries.foldr (fun entry seq => max (entry.seq + 1) seq) 0

def auditRow (jobId : Text) (seq : Nat) (path : Text) (restoredHash : Option Text) :
    JournalEntry := {
  jobId,seq,path
  operation := .undo
  beforeExists := false
  beforeBytes := none
  beforeHash := restoredHash
  afterExists := false
  afterHash := none
  state := .applied}

/-- `_append_audit`. -/
def appendAudit (jobId : Text) (seq : Nat) (path : Text) (restoredHash : Option Text) :
    Sys Unit := do
  let entry ← Proc.ofExcept (auditRow jobId seq path restoredHash).modelValidate
  History.addJournal entry

structure UndoService where
  vault : VaultService

/-- `_require_current`. -/
def requireCurrent (v : VaultService) (path : Text) (expected : Option Text) : Look Unit :=
  (v.readBytes path).andThen fun
  | .error _ => Proc.throw (.conflict path)
  | .ok (_,current) => Proc.raiseIf (some current ≠ expected) (.conflict path)

namespace UndoService

variable [Host] (u : UndoService)

/-- The part of `_restore_one` that writes. -/
def restoreFile (entry : JournalEntry) : Fs Unit := match entry.operation with
  | .move =>
    if falsy entry.source then Proc.throw (.conflict entry.path)
    else do
      liftM (requireCurrent u.vault entry.path entry.afterHash)
      moveBack u.vault entry.path (entry.source.getD []) entry.afterHash
        (differs entry.beforeHash) (.conflict entry.path)
  | .create => do
    liftM (requireCurrent u.vault entry.path entry.afterHash)
    deleteAgain u.vault entry.path entry.afterHash (.conflict entry.path)
  | _ => do
    liftM (requireCurrent u.vault entry.path entry.afterHash)
    writeBack u.vault entry.path (entry.beforeBytes.getD .empty) entry.afterHash
      (fun digest => digest ≠ entry.beforeHash) (.conflict entry.path)

omit [Host] in
def auditOf (jobId : Text) (seq : Nat) (entry : JournalEntry) : Sys Unit :=
  match entry.operation with
  | .move => appendAudit jobId seq (entry.source.getD []) entry.beforeHash
  | .create => appendAudit jobId seq entry.path none
  | _ => appendAudit jobId seq entry.path entry.beforeHash

/-- `_restore_one`. -/
def restoreOne (entry : JournalEntry) (jobId : Text) (seq : Nat) : Sys Unit := do
  (liftM (u.restoreFile entry) : Sys Unit)
  auditOf jobId seq entry

/-- The loop of `undo`: the restored paths, and the path of the conflict that ended it. -/
def restoreAll (jobId : Text) :
    List JournalEntry → Nat → List Text → Sys (List Text × Option Text)
  | [], _, restored => pure (restored,none)
  | entry :: rest, seq, restored =>
    (u.restoreOne entry jobId seq).andThen fun
    | .ok _ => restoreAll jobId rest (seq + 1) (restored ++ [entry.path])
    | .error (.conflict path) => pure (restored,some path)
    | .error reason => Proc.throw reason

omit [Host] in
def conclude (jobId : Text) : List Text × Option Text → RecoveryResult
  | (restored,some path) => {
      jobId,status := .conflict,restored,conflictPaths := [path]
      error := some "file changed externally".toList}
  | (restored,none) => {jobId,status := .undone,restored}

def undoEntries (jobId : Text) (entries : List JournalEntry) : Sys RecoveryResult := do
  let executed := entries.filter fun entry => entry.operation.executable
  let outcome ← u.restoreAll jobId executed.reverse (nextSeq entries) []
  pure (conclude jobId outcome)

/-- `UndoService.undo`. -/
def undo (jobId : Text) : Sys RecoveryResult := do
  let entries ← History.journal jobId
  if entries = [] then pure {
    jobId,status := .undoUnavailable,error := some "no journal for this job".toList}
  else if entries.any fun entry => entry.operation = .undo then pure {
    jobId,status := .undoUnavailable,error := some "job has already been undone".toList}
  else u.undoEntries jobId entries

end UndoService

end LocalBook.Recovery
