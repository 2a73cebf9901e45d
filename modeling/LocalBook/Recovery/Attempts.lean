import LocalBook.Recovery.Recovering

/-! Runs of attempts at one crashed job, with edits from outside in between: no attempt
closes a job whose steps are still on disk, as long as none is cut short. -/
namespace LocalBook.Recovery

open Effect Vault UndoLog

inductive Event where
  | edit (disk : Disk)
  | attempt

section Attempts

variable [Runtime] (r : RecoveryService) (jobId : Text) (log : List Logged)

def attempt (w : World) : Except Exc RecoveryResult × World :=
  run SysOp.step (r.rollbackIfSafe jobId) w

omit [Runtime] in
def Unfinished (w : World) : Prop :=
  ∃ record, w.db.get jobId = some record ∧ flagged record.status = true

omit [Runtime] in
def StillApplied (d : Disk) (logged : Logged) : Prop :=
  logged.step.Applied r.vault d ∧ ¬ logged.step.Silent

omit [Runtime] in
/-- No row is in the way of an attempt: none was changed from outside, and every applied
one can be reversed. -/
def Unblocked (w : World) : Prop :=
  (∀ logged ∈ log, logged.state = .rolledBack → ¬ StillApplied r w.disk logged) ∧
    ∀ logged ∈ log, logged.state ≠ .rolledBack → logged.step.finding r.vault w.disk ≠ .changed ∧
      (logged.step.Applied r.vault w.disk → logged.step.Undoable r.vault w.disk)

omit [Runtime] in
def Fails (ended : Except Exc RecoveryResult) : Prop :=
  ∃ result, ended = .ok result ∧ (result.status = .conflict ∨ result.status = .rollbackFailed)

/-- What is asked of one attempt: it closes the job only if no step is still applied, and
after a failure an unblocked later attempt reverses what is left. -/
structure Sound (w : World) : Prop where
  closes : Unfinished jobId w → ¬ Unfinished jobId (attempt r jobId w).2 →
    ∀ logged ∈ log, ¬ StillApplied r (attempt r jobId w).2.disk logged
  resumes : Fails (attempt r jobId w).1 → ∀ d, Unblocked r log {(attempt r jobId w).2 with disk := d} →
      ¬ Unfinished jobId (attempt r jobId {(attempt r jobId w).2 with disk := d}).2 ∧
        ∀ logged ∈ log,
          ¬ StillApplied r (attempt r jobId {(attempt r jobId w).2 with disk := d}).2.disk logged

/-- Every attempt of a run is sound. -/
def SoundRun : World → List Event → Prop
  | _, [] => True
  | w, .edit d :: rest => SoundRun {w with disk := d} rest
  | w, .attempt :: rest => Sound r jobId log w ∧ SoundRun (attempt r jobId w).2 rest

omit [Runtime] in
/-- An attempt that starts to restore is not cut short, and no row that counts as
reversed has its result on disk. -/
def Completes (w : World) : Prop :=
  (∀ logged ∈ log, logged.state = .rolledBack → ¬ StillApplied r w.disk logged) ∧
    ((∀ logged ∈ log, logged.state ≠ .rolledBack →
        logged.step.finding r.vault w.disk ≠ .changed) →
      ∀ logged ∈ log, logged.state ≠ .rolledBack → logged.step.Applied r.vault w.disk →
        logged.step.Undoable r.vault w.disk)

/-- Every attempt at the unfinished job completes. -/
def CompleteRun : World → List Event → Prop
  | _, [] => True
  | w, .edit d :: rest => CompleteRun {w with disk := d} rest
  | w, .attempt :: rest =>
    (Unfinished jobId w → Completes r log w) ∧ CompleteRun (attempt r jobId w).2 rest

omit [Runtime] in
/-- A job that did not finish, with the steps its journal tells of. -/
structure CrashedJob (w : World) : Prop where
  auditable : Auditable jobId w
  unfinished : Unfinished jobId w
  rows : ((w.db.journal jobId).rows.filter fun entry => entry.operation.executable) =
    log.map (Logged.row jobId)
  separate : Separate log

variable {r jobId log} {w : World}

omit [Runtime] in
theorem CrashedJob.edit (crashed : CrashedJob jobId log w) (d : Disk) :
    CrashedJob jobId log {w with disk := d} :=
  ⟨⟨crashed.auditable.named,crashed.auditable.known⟩,crashed.unfinished,crashed.rows,
    crashed.separate⟩

omit [Runtime] in
def openRows (log : List Logged) : List Logged :=
  log.filter fun logged => logged.state ≠ .rolledBack

omit [Runtime] in
theorem mem_openRows {logged : Logged} :
    logged ∈ openRows log ↔ logged ∈ log ∧ logged.state ≠ .rolledBack := by
  simp [openRows]

omit [Runtime] in
theorem CrashedJob.pending (crashed : CrashedJob jobId log w) :
    (w.db.journal jobId).rows.filter uncertain = (openRows log).map (Logged.row jobId) := by
  have split : (w.db.journal jobId).rows.filter uncertain =
      ((w.db.journal jobId).rows.filter fun entry => entry.operation.executable).filter
        fun entry => entry.state ≠ .rolledBack := by
    rw [List.filter_filter]
    refine List.filter_congr fun entry _ => ?_
    cases state : entry.state <;> simp [uncertain,state]
  rw [split,crashed.rows,List.filter_map]
  rfl

omit [Runtime] in
theorem CrashedJob.openSeparate (crashed : CrashedJob jobId log w) : Separate (openRows log) :=
  crashed.separate.filter _

theorem CrashedJob.attempts (crashed : CrashedJob jobId log w) :
    ∃ record result w', w.db.get jobId = some record ∧ attempt r jobId w = (.ok result,w') ∧
      Attempt r.vault jobId record (openRows log) w result.status w' := by
  obtain ⟨record,stored,unfinished⟩ := crashed.unfinished
  obtain ⟨result,w',ran,attempted⟩ := rollback_attempt (r := r) crashed.auditable stored
    unfinished crashed.pending
  exact ⟨record,result,w',stored,ran,attempted⟩

omit [Runtime] in
theorem finished_save {record : HistoryRecord} {db db' : Db} {status : JobStatus}
    {code : String} {message : Text} (stored : db.get jobId = some record) (d : Disk)
    (closing : flagged status = false) :
    ¬ Unfinished jobId ⟨d,db'.save (closed record status code message)⟩ := by
  obtain ⟨found,fits⟩ := Db.get_eq_some.mp stored
  obtain rfl := db.keyed jobId record found
  have saved : (db'.save (closed record status code message)).get record.jobId =
      some (closed record status code message) := Db.get_save db' fits
  intro unfinished
  obtain ⟨other,same,open_⟩ := unfinished
  obtain rfl := Option.some.inj (saved.symm.trans same)
  simp [closed,closing] at open_

omit [Runtime] in
theorem openRows_clean {d : Disk} (clean : changedOf r.vault d (openRows log) = []) :
    ∀ logged ∈ log, logged.state ≠ .rolledBack → logged.step.finding r.vault d ≠ .changed := by
  intro logged found recorded changed
  have member : logged ∈ changedOf r.vault d (openRows log) := by
    simp [changedOf,mem_openRows,found,recorded,changed]
  simp [clean] at member

theorem attempt_unblocked (crashed : CrashedJob jobId log w) (unblocked : Unblocked r log w) :
    (∃ result, (attempt r jobId w).1 = .ok result ∧ result.status = .rolledBack) ∧
      ¬ Unfinished jobId (attempt r jobId w).2 ∧
        ∀ logged ∈ log, ¬ StillApplied r (attempt r jobId w).2.disk logged := by
  obtain ⟨record,result,w',stored,ran,attempted⟩ := crashed.attempts (r := r)
  obtain ⟨quiet,ready⟩ := unblocked
  rw [ran]
  generalize same : result.status = status at attempted
  cases attempted with
  | nothing empty =>
    refine ⟨⟨result,rfl,same⟩,finished_save stored w.disk rfl,fun logged found => ?_⟩
    refine quiet logged found ?_
    by_contra recorded
    have member := mem_openRows.mpr ⟨found,recorded⟩
    simp [empty] at member
  | conflict changed =>
    obtain ⟨logged,found⟩ := List.exists_mem_of_ne_nil _ changed
    simp only [changedOf,List.mem_filter,mem_openRows,decide_eq_true_eq] at found
    exact absurd found.2 (ready logged found.1.1 found.1.2).1
  | @restored seq w' some clean reversal =>
    refine ⟨⟨result,rfl,same⟩,finished_save stored w'.disk rfl,fun logged found still => ?_⟩
    have separate : Separate (appliedOf r.vault w.disk (openRows log)).reverse :=
      separate_reverse (crashed.openSeparate.filter _)
    have reversed := reversal.reversed separate rfl
    by_cases member : logged ∈ appliedOf r.vault w.disk (openRows log)
    · exact reversed.gone logged (List.mem_reverse.mpr member) still.2 still.1
    · have free : ∀ p ∈ (appliedOf r.vault w.disk (openRows log)).reverse.flatMap
          fun logged => logged.step.keys, p ∉ logged.step.keys := by
        intro p key
        obtain ⟨other,among,key⟩ := List.mem_flatMap.mp key
        have applied := List.mem_reverse.mp among
        have differs : other ≠ logged := fun same => member (same ▸ applied)
        have among := (mem_openRows.mp (mem_appliedOf.mp applied).1).1
        exact separate_apart crashed.separate among found differs p key
      have before := (Step.applied_within reversed.within free).mp still.1
      by_cases recorded : logged.state = .rolledBack
      · exact quiet logged found recorded ⟨before,still.2⟩
      · exact member (mem_appliedOf.mpr ⟨mem_openRows.mpr ⟨found,recorded⟩,before⟩)
  | @failed seq stop w' clean reversal =>
    have separate : Separate (appliedOf r.vault w.disk (openRows log)).reverse :=
      separate_reverse (crashed.openSeparate.filter _)
    refine absurd ((reversal.stop_iff separate).mpr fun logged found => ?_) (by simp)
    obtain ⟨member,applied⟩ := mem_appliedOf.mp (List.mem_reverse.mp found)
    obtain ⟨found,recorded⟩ := mem_openRows.mp member
    exact (ready logged found recorded).2 applied

theorem attempt_blocked (crashed : CrashedJob jobId log w) (completes : Completes r log w)
    (blocked : ¬ Unblocked r log w) : (attempt r jobId w).2 = w := by
  obtain ⟨record,result,w',stored,ran,attempted⟩ := crashed.attempts (r := r)
  have changed : changedOf r.vault w.disk (openRows log) ≠ [] := by
    intro clean
    have untouched := openRows_clean clean
    exact blocked ⟨completes.1,fun logged found recorded =>
      ⟨untouched logged found recorded,completes.2 untouched logged found recorded⟩⟩
  rw [ran]
  generalize result.status = status at attempted
  cases attempted with
  | nothing empty => simp [empty,changedOf] at changed
  | conflict changed => rfl
  | restored some clean reversal => exact absurd clean changed
  | failed clean reversal => exact absurd clean changed

theorem attempt_finished (finished : ¬ Unfinished jobId w) :
    (attempt r jobId w).2 = w ∧ ¬ Fails (attempt r jobId w).1 := by
  unfold attempt RecoveryService.rollbackIfSafe
  rw [run_bind_ok SysOp.step (History.run_get jobId)]
  cases stored : w.db.get jobId with
  | none => simp [Fails]
  | some record =>
    have closing : flagged record.status = false := by
      by_contra open_
      exact finished ⟨record,stored,by simpa using open_⟩
    simp [closing,Fails]

theorem attempt_sound (crashed : CrashedJob jobId log w) (completes : Completes r log w) :
    Sound r jobId log w ∧
      (CrashedJob jobId log (attempt r jobId w).2 ∨ ¬ Unfinished jobId (attempt r jobId w).2) := by
  by_cases unblocked : Unblocked r log w
  · obtain ⟨⟨result,ended,status⟩,closing,gone⟩ := attempt_unblocked crashed unblocked
    refine ⟨⟨fun _ _ => gone,fun fails => ?_⟩,.inr closing⟩
    obtain ⟨other,same,failed⟩ := fails
    obtain rfl := Except.ok.inj (ended.symm.trans same)
    simp [status] at failed
  · have same := attempt_blocked crashed completes unblocked
    refine ⟨⟨fun unfinished closing => ?_,fun _ d free => ?_⟩,.inl ?_⟩
    · rw [same] at closing
      exact absurd unfinished closing
    · rw [same] at free ⊢
      exact (attempt_unblocked (crashed.edit d) free).2
    · rw [same]
      exact crashed

theorem sound_finished (finished : ¬ Unfinished jobId w) : Sound r jobId log w :=
  ⟨fun unfinished => absurd unfinished finished,
    fun fails => absurd fails (attempt_finished finished).2⟩

theorem soundRun_finished (events : List Event) (finished : ¬ Unfinished jobId w) :
    SoundRun r jobId log w events := by
  induction events generalizing w with
  | nil => trivial
  | cons event rest ih =>
    cases event with
    | edit d => exact ih finished
    | attempt =>
      have same := (attempt_finished (r := r) finished).1
      exact ⟨sound_finished finished,by rw [same]; exact ih finished⟩

end Attempts

section HalfMove

open scoped AsciiRuntime

def smallRecovery : RecoveryService := ⟨⟨100,hundred_pos⟩,1000⟩

def unmade : Logged := ⟨0,.pending,.create "a.md".toList "note".toUTF8⟩

def halfMove : Logged := ⟨0,.pending,.move "a.md".toList "b.md".toList "note".toUTF8⟩

def halfMoved : World where
  disk := (Disk.bare.setTree ["a.md".toList] (some (.file "note".toUTF8))).setTree
    ["b.md".toList] (some (.file "note".toUTF8))
  db := (Db.empty.save {jobId := "j".toList,status := .executing}).putRow
    (halfMove.row "j".toList)

end HalfMove

end LocalBook.Recovery
