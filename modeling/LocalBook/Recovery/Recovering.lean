import LocalBook.Recovery.Reversal

/-! What one attempt of explicit recovery does: nothing was journaled as uncertain and
the job is closed, something was changed from outside and nothing happens, or the
applied rows are reversed. -/
namespace LocalBook.Recovery

open Effect Vault UndoLog

namespace Step

variable {v : VaultService} {d : Disk} {step : Step}

def finding (v : VaultService) (d : Disk) (step : Step) : Finding :=
  match eval ReadOp.answer (currentHash v step.path) d with
  | .error _ => .changed
  | .ok current =>
    if current = some step.digest then .applied step.digest
    else if current = none ∨ current = step.operation.beforeHash then .untouched
    else .changed

theorem eval_classify (jobId : Text) (seq : Nat) (state : RowState) :
    eval ReadOp.answer (classify v (step.row jobId seq state)) d = .ok (step.finding v d) := by
  have same : (step.row jobId seq state).path = step.path := rfl
  unfold classify finding
  rw [eval_andThen,same]
  cases eval ReadOp.answer (currentHash v step.path) d <;> rfl

theorem eval_currentHash_iff {path digest : Text} :
    eval ReadOp.answer (currentHash v path) d = .ok (some digest) ↔ Holding v d path digest := by
  rw [← eval_readBytes_holding]
  unfold currentHash
  rw [eval_andThen]
  cases eval ReadOp.answer (v.readBytes path) d with
  | ok found => cases found; simp
  | error reason =>
    dsimp only
    split <;> simp

theorem finding_applied_iff : step.finding v d = .applied step.digest ↔ step.Applied v d := by
  unfold finding Applied
  rw [← eval_currentHash_iff]
  cases eval ReadOp.answer (currentHash v step.path) d with
  | error reason => simp
  | ok current =>
    by_cases applied : current = some step.digest
    · simp [applied]
    · simp only [applied,if_false,Except.ok.injEq,iff_false]
      split <;> simp

theorem finding_digest {digest : Text} (found : step.finding v d = .applied digest) :
    digest = step.digest := by
  unfold finding at found
  generalize eval ReadOp.answer (currentHash v step.path) d = outcome at found
  cases outcome with
  | error reason => simp at found
  | ok current =>
    dsimp only at found
    split at found
    · simpa [eq_comm] using found
    · split at found <;> simp at found

end Step

def appliedOf (v : VaultService) (d : Disk) (log : List Logged) : List Logged :=
  log.filter fun logged => logged.step.finding v d = .applied logged.step.digest

def changedOf (v : VaultService) (d : Disk) (log : List Logged) : List Logged :=
  log.filter fun logged => logged.step.finding v d = .changed

theorem mem_appliedOf {v : VaultService} {d : Disk} {log : List Logged} {logged : Logged} :
    logged ∈ appliedOf v d log ↔ logged ∈ log ∧ logged.step.Applied v d := by
  simp [appliedOf,Step.finding_applied_iff]

theorem eval_classifyAll (v : VaultService) (d : Disk) (jobId : Text) (log : List Logged) :
    eval ReadOp.answer (classifyAll v (log.map (Logged.row jobId))) d =
      .ok ((appliedOf v d log).map fun logged => (logged.row jobId,logged.step.digest),
        (changedOf v d log).map fun logged => logged.step.path) := by
  induction log with
  | nil => rfl
  | cons first rest ih =>
    have found : eval ReadOp.answer (classify v (first.row jobId)) d =
        .ok (first.step.finding v d) := Step.eval_classify _ _ _
    simp only [List.map_cons,classifyAll,eval_bind,found,ih,eval_pure]
    cases finding : first.step.finding v d with
    | applied digest =>
      obtain rfl := Step.finding_digest finding
      simp [appliedOf,changedOf,finding]
    | untouched => simp [appliedOf,changedOf,finding]
    | changed => simp [appliedOf,changedOf,finding]

/-- Pass 2 reverses rows until one cannot be. -/
theorem run_restoreEntries [Host] {r : RecoveryService} {jobId : Text} (log : List Logged)
    (seq : Nat) (restored : List Text) (w : World) (auditable : Auditable jobId w) :
    ∃ stop w', Reversal r.vault jobId log seq w stop w' ∧ ∃ names failure,
      run SysOp.step (r.restoreEntries jobId
          (log.map fun logged => (logged.row jobId,logged.step.digest)) seq restored) w =
        (.ok (names,failure),w') ∧ (stop = none ↔ failure = none) := by
  induction log generalizing seq restored w with
  | nil => exact ⟨none,w,.nil seq w,_,_,rfl,by simp⟩
  | cons first rest ih =>
    simp only [List.map_cons,RecoveryService.restoreEntries]
    rw [run_andThen,run_liftFs]
    cases first.step.restoreEntry_outcome w.disk jobId first.seq first.state r with
    | refused unready reason ended =>
      rw [Logged.row,ended]
      exact ⟨some first,w,.stuck seq w unready,_,_,rfl,by simp⟩
    | done ready ended =>
      obtain ⟨stop,w',reversal,names,failure,ran,whole⟩ := ih (seq + 1)
        (TransactionExecutor.restoredPaths restored (first.row jobId).path
          (if (first.row jobId).operation = .move then (first.row jobId).source else none)) {
          disk := first.step.undone w.disk
          db := w.db.putRow (auditRow jobId seq first.step.path first.step.operation.beforeHash)}
        ⟨auditable.named,auditable.known⟩
      have audit := run_appendAudit (w := {w with disk := first.step.undone w.disk}) seq
        first.step.operation.beforeHash ⟨auditable.named,auditable.known⟩
        (short_path ready.1.1)
      refine ⟨stop,w',.cons ready reversal,names,failure,?_,whole⟩
      rw [Logged.row,ended]
      exact (run_bind_ok SysOp.step audit).trans ran

/-- The record of a job that explicit recovery has closed. -/
def closed (record : HistoryRecord) (status : JobStatus) (code : String) (message : Text) :
    HistoryRecord :=
  {record with status := status,error := some {code,message}}

theorem run_finishRecoveryRecord {jobId : Text} {w : World} {record : HistoryRecord}
    (stored : w.db.get jobId = some record) (status : JobStatus) (code : String)
    (message : Text) :
    run SysOp.step (finishRecoveryRecord jobId status code message) w =
      (.ok (),{w with db := w.db.save (closed record status code message)}) := by
  unfold finishRecoveryRecord
  rw [run_bind_ok SysOp.step (History.run_get jobId),stored]
  rfl

inductive Attempt (v : VaultService) (jobId : Text) (record : HistoryRecord) (log : List Logged)
    (w : World) : JobStatus → World → Prop where
  | nothing (empty : log = []) :
    Attempt v jobId record log w .rolledBack {w with
      db := w.db.save (closed record .failed "recovery_nothing_applied"
        "no journaled steps were applied".toList)}
  | conflict (changed : changedOf v w.disk log ≠ []) : Attempt v jobId record log w .conflict w
  | restored {seq : Nat} {w' : World} (some : log ≠ []) (clean : changedOf v w.disk log = [])
    (reversal : Reversal v jobId (appliedOf v w.disk log).reverse seq w none w') :
    Attempt v jobId record log w .rolledBack {w' with
      db := (w'.db.setJournalState jobId .rolledBack).save (closed record .rolledBack
        "recovery_rolled_back" "explicit recovery rollback complete".toList)}
  | failed {seq : Nat} {stop : Logged} {w' : World} (clean : changedOf v w.disk log = [])
    (reversal : Reversal v jobId (appliedOf v w.disk log).reverse seq w (some stop) w') :
    Attempt v jobId record log w .rollbackFailed {w' with
      db := w'.db.setJournalState jobId .rolledBack}

/-- Explicit recovery does one of these. -/
theorem rollback_attempt [Runtime] {r : RecoveryService} {jobId : Text} {record : HistoryRecord}
    {log : List Logged} {w : World} (auditable : Auditable jobId w)
    (stored : w.db.get jobId = some record) (open_ : flagged record.status)
    (pending : (w.db.journal jobId).rows.filter uncertain = log.map (Logged.row jobId)) :
    ∃ result w', run SysOp.step (r.rollbackIfSafe jobId) w = (.ok result,w') ∧
      Attempt r.vault jobId record log w result.status w' := by
  unfold RecoveryService.rollbackIfSafe
  rw [run_bind_ok SysOp.step (History.run_get jobId),stored]
  dsimp only
  rw [if_pos open_,run_bind_ok SysOp.step (History.run_journal jobId)]
  unfold RecoveryService.recover
  rw [pending]
  dsimp only
  by_cases empty : log = []
  · subst empty
    rw [List.map_nil,if_pos rfl]
    exact ⟨_,_,run_bind_ok SysOp.step (run_finishRecoveryRecord stored _ _ _),.nothing rfl⟩
  rw [if_neg (by simpa using empty),run_bind_ok SysOp.step
    ((run_liftLookSys _ w).trans (by rw [eval_classifyAll]))]
  dsimp only
  by_cases clean : changedOf r.vault w.disk log = []
  · rw [clean,List.map_nil,if_pos rfl]
    unfold RecoveryService.restorePass
    obtain ⟨stop,w',reversal,names,failure,ran,whole⟩ := run_restoreEntries (r := r)
      (appliedOf r.vault w.disk log).reverse (nextSeq (w.db.journal jobId).rows) [] w auditable
    rw [List.map_reverse] at ran
    rw [run_bind_ok SysOp.step ran]
    dsimp only
    rw [run_bind_ok SysOp.step (History.run_setJournalState jobId .rolledBack)]
    cases failure with
    | some failure =>
      cases stop with
      | none => exact absurd (whole.mp rfl) (by simp)
      | some stop => exact ⟨_,_,rfl,.failed clean reversal⟩
    | none =>
      obtain rfl := whole.mpr rfl
      refine ⟨_,_,run_bind_ok SysOp.step (run_finishRecoveryRecord ?_ _ _ _),
        .restored empty clean reversal⟩
      have same : (w'.db.setJournalState jobId .rolledBack).jobs = w.db.jobs := reversal.jobs
      unfold Db.get at stored ⊢
      rw [same]
      exact stored
  · rw [if_neg (by simpa using clean)]
    exact ⟨_,_,rfl,.conflict clean⟩

end LocalBook.Recovery
