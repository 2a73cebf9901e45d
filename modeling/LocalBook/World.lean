import LocalBook.Vault.Plain
import LocalBook.History

/-! What survives a crash: the Vault on disk and the derived database. A transaction is
a procedure whose calls go to either of them. -/
namespace LocalBook

open Effect

structure World where
  disk : Vault.Disk
  db : Db

inductive SysOp where
  | fs (op : Vault.FsOp)
  | db (op : DbOp)

def SysOp.Res : SysOp → Type
  | .fs op => op.Res
  | .db op => op.Res

def SysOp.step (op : SysOp) (w : World) : op.Res × World := match op with
  | .fs op => ((op.step w.disk).1,{w with disk := (op.step w.disk).2})
  | .db op => ((op.step w.db).1,{w with db := (op.step w.db).2})

abbrev Sys := Proc SysOp SysOp.Res Exc

instance : MonadLift Vault.Fs Sys where
  monadLift := Effect.lift SysOp.fs fun _ response => response

namespace History

def save (record : HistoryRecord) : Sys Unit := Proc.perform (SysOp.db (.save record))

def get (jobId : Text) : Sys (Option HistoryRecord) := Proc.perform (SysOp.db (.get jobId))

def journal (jobId : Text) : Sys (List JournalEntry) := Proc.perform (SysOp.db (.journal jobId))

def setJournalState (jobId : Text) (state : RowState) : Sys Unit :=
  Proc.perform (SysOp.db (.setJournalState jobId state))

/-- `append_journal`, of a row that has passed its validators. -/
def addJournal (entry : JournalEntry) : Sys Unit := do
  let outcome : Except Exc Unit ← Proc.perform (SysOp.db (.addJournal entry))
  Proc.ofExcept outcome

/-- `finish`, without the time it stamps. -/
def finish (record : HistoryRecord) (status : JobStatus) (error : Option RecordError) :
    Sys HistoryRecord := do
  save {record with status,error}
  pure {record with status,error}

variable {w : World}

@[simp] theorem run_save (record : HistoryRecord) :
    run SysOp.step (save record) w = (.ok (),{w with db := w.db.save record}) := rfl

@[simp] theorem run_get (jobId : Text) :
    run SysOp.step (get jobId) w = (.ok (w.db.get jobId),w) := rfl

@[simp] theorem run_journal (jobId : Text) :
    run SysOp.step (journal jobId) w = (.ok (w.db.journal jobId).rows,w) := rfl

@[simp] theorem run_setJournalState (jobId : Text) (state : RowState) :
    run SysOp.step (setJournalState jobId state) w =
      (.ok (),{w with db := w.db.setJournalState jobId state}) := rfl

@[simp] theorem run_addJournal (entry : JournalEntry) :
    run SysOp.step (addJournal entry) w =
      ((w.db.addJournal entry).1,{w with db := (w.db.addJournal entry).2}) := by
  change run SysOp.step (Proc.ofExcept (w.db.addJournal entry).1 : Sys Unit)
    {w with db := (w.db.addJournal entry).2} = _
  rw [run_ofExcept]

end History

def World.diskPart : Part World Vault.Disk where
  get w := w.disk
  set disk w := {w with disk}
  get_set _ _ := rfl
  set_set _ _ _ := rfl
  set_get _ := rfl

section Lift

variable {α : Type}

theorem fs_agrees (op : Vault.FsOp) (w : World) :
    ((SysOp.step (.fs op) w).1,(SysOp.step (.fs op) w).2) =
      ((op.step (World.diskPart.get w)).1,
        World.diskPart.set (op.step (World.diskPart.get w)).2 w) := rfl

@[simp] theorem run_liftFs (p : Vault.Fs α) (w : World) :
    run SysOp.step (liftM p : Sys α) w =
      ((run Vault.FsOp.step p w.disk).1,{w with disk := (run Vault.FsOp.step p w.disk).2}) :=
  run_lift World.diskPart fs_agrees p w

@[simp] theorem run_liftLookSys (p : Vault.Look α) (w : World) :
    run SysOp.step (liftM p : Sys α) w = (eval Vault.ReadOp.answer p w.disk,w) := by
  change run SysOp.step (liftM (liftM p : Vault.Fs α) : Sys α) w = _
  rw [run_liftFs,Vault.run_liftLook]

theorem visits_liftFs (p : Vault.Fs α) (w u : World) :
    Visits SysOp.step (liftM p : Sys α) w u ↔
      ∃ disk, Visits Vault.FsOp.step p w.disk disk ∧ u = {w with disk} :=
  visits_lift World.diskPart fs_agrees p w u

end Lift

end LocalBook
