import LocalBook.History
import LocalBook.Ranking
import LocalBook.Scheduler.Service

/-! The retention cleanup of the derived history, over the tables and over the in-memory
mirror. -/
namespace LocalBook.Scheduler

/-- The `job_terminal` of the cleanup. -/
def isTerminal : JobStatus → Bool
  | .committed | .rejected | .rolledBack | .failed | .conflict | .undone | .undoUnavailable
  | .rollbackFailed => true
  | .planned | .preflighted | .captured | .awaitingConfirmation | .executing | .validating
  | .recoveryRequired => false

/-- What the cleanup reads of a row of `ai_jobs`. -/
structure JobRow where
  jobId : Text
  status : JobStatus
  startTime : Nat
  endTime : Option Nat := none
deriving Repr,DecidableEq

/-- The history: `job_id` and `run_id` are primary keys, a journal row references its job. -/
structure Audit where
  jobs : List JobRow
  journal : List JournalEntry
  runs : List Run
  jobsNamed : (jobs.map JobRow.jobId).Nodup
  runsNamed : (runs.map Run.runId).Nodup
  referenced : ∀ entry ∈ journal,∃ job ∈ jobs,job.jobId = entry.jobId

/-- `COALESCE(end_time, start_time)`, and `record.end_time or record.start_time`. -/
def JobRow.finished (job : JobRow) : Nat := job.endTime.getD job.startTime

/-- `COALESCE(finished_at, started_at)`, and `finished_at or started_at`. -/
def Run.finished (run : Run) : Nat := run.finishedAt.getD run.startedAt

namespace Audit

/-- `DELETE FROM ai_jobs WHERE job_id=?`: the journal rows go with their job. -/
def deleteJob (rows : Audit) (jobId : Text) : Audit where
  jobs := rows.jobs.filter fun job => job.jobId ≠ jobId
  journal := rows.journal.filter fun entry => entry.jobId ≠ jobId
  runs := rows.runs
  jobsNamed := rows.jobsNamed.sublist (List.filter_sublist.map _)
  runsNamed := rows.runsNamed
  referenced entry there := by
    obtain ⟨there,kept⟩ := List.mem_filter.mp there
    obtain ⟨job,found,same⟩ := rows.referenced entry there
    exact ⟨job,List.mem_filter.mpr ⟨found,by simpa [same] using kept⟩,same⟩

def deleteJobs (rows : Audit) (jobIds : List Text) : Audit := jobIds.foldl deleteJob rows

/-- `DELETE FROM scheduler_runs WHERE run_id=?`. -/
def deleteRun (rows : Audit) (runId : Text) : Audit where
  jobs := rows.jobs
  journal := rows.journal
  runs := rows.runs.filter fun run => run.runId ≠ runId
  jobsNamed := rows.jobsNamed
  runsNamed := rows.runsNamed.sublist (List.filter_sublist.map _)
  referenced := rows.referenced

def deleteRuns (rows : Audit) (runIds : List Text) : Audit := runIds.foldl deleteRun rows

/-- `terminal_job_rows`. -/
def terminalJobRows (rows : Audit) (cutoff : Nat) : List JobRow :=
  rows.jobs.filter fun job => isTerminal job.status && job.finished < cutoff

/-- `terminal_run_rows`. -/
def terminalRunRows (rows : Audit) (cutoff : Nat) : List Run :=
  rows.runs.filter fun run => run.status.isTerminal && run.finished < cutoff

end Audit

/-- How the database answers `ORDER BY started_at` and `ORDER BY started_at DESC`: rows that
started at one time come in any order. -/
structure RowOrder where
  ascending : List Run → List Run
  descending : List Run → List Run
  ascending_perm : ∀ runs,(ascending runs).Perm runs
  descending_perm : ∀ runs,(descending runs).Perm runs
  ascending_sorted : ∀ runs,(ascending runs).Pairwise fun a b => a.startedAt ≤ b.startedAt
  descending_sorted : ∀ runs,(descending runs).Pairwise fun a b => b.startedAt ≤ a.startedAt

/-- `d.setdefault(key, value)`. -/
def setDefault (d : Dict Task Text) (task : Task) (runId : Text) : Dict Task Text :=
  match d.find task with
  | some _ => d
  | none => d.set task runId

/-- The `newest_per_task` of rows that come newest first. -/
def newestPerTask (runs : List Run) : Dict Task Text :=
  runs.foldl (fun newest run => setDefault newest run.task run.runId) []

/-- `now - retention_days`, and `now` itself where no date is that early. -/
def retentionBound (now retentionDays : Nat) : Nat :=
  if retentionDays * 86400 ≤ now then now - retentionDays * 86400 else now

structure CleanupReport where
  deletedJobs : Nat := 0
  deletedRuns : Nat := 0
  keptActiveRuns : Nat := 0
  retentionDays : Nat
deriving Repr,DecidableEq

def expireJobs (rows : Audit) (cutoff : Nat) : Audit :=
  rows.deleteJobs ((rows.terminalJobRows cutoff).map JobRow.jobId)

namespace Repository

variable (order : RowOrder) (rows : Audit)

def deletable (cutoff : Nat) : List Text :=
  let keepIds := (newestPerTask (order.descending rows.runs)).map Prod.snd
  ((rows.terminalRunRows cutoff).map Run.runId).filter fun runId => runId ∉ keepIds

/-- `oldest_terminal_runs`. -/
def oldestTerminalRuns (count : Nat) : List Run :=
  (order.ascending (rows.runs.filter fun run => run.status.isTerminal)).take count

def capRuns (maxSchedulerRuns : Nat) : Audit :=
  let excess := rows.runs.length - maxSchedulerRuns
  rows.deleteRuns ((oldestTerminalRuns order rows excess).map Run.runId)

def cleanup (cutoff retentionDays maxSchedulerRuns : Nat) : Audit × CleanupReport :=
  let jobsDone := expireJobs rows cutoff
  let aged := jobsDone.deleteRuns (deletable order jobsDone cutoff)
  let counted := capRuns order aged maxSchedulerRuns
  (counted,{
    deletedJobs := rows.jobs.length - jobsDone.jobs.length
    deletedRuns := jobsDone.runs.length - counted.runs.length
    keptActiveRuns := (jobsDone.terminalRunRows cutoff).length -
      (deletable order jobsDone cutoff).length
    retentionDays })

end Repository

namespace Memory

variable (rows : Audit)

/-- `sorted(runs, key=started_at)`: runs that started at one time stay as they were saved. -/
def byStart (runs : List Run) : List Run :=
  runs.insertionSort fun a b => a.startedAt ≤ b.startedAt

def deletable (cutoff : Nat) : List Text :=
  let runs := byStart rows.runs
  let newest := (newestPerTask runs.reverse).map Prod.snd
  (runs.filter fun run => run.status.isTerminal && run.finished < cutoff &&
    run.runId ∉ newest).map Run.runId

def capRuns (maxSchedulerRuns : Nat) : Audit :=
  let excess := rows.runs.length - maxSchedulerRuns
  rows.deleteRuns ((((byStart rows.runs).take excess).filter fun run =>
    run.status.isTerminal).map Run.runId)

/-- `_cleanup_memory`. -/
def cleanup (cutoff maxSchedulerRuns : Nat) : Audit :=
  let jobsDone := expireJobs rows cutoff
  capRuns (jobsDone.deleteRuns (deletable jobsDone cutoff)) maxSchedulerRuns

end Memory

/-- `cleanup_retention`; the report of the mirror counts nothing. -/
def cleanupRetention (repository : Option RowOrder) (rows : Audit)
    (now retentionDays maxSchedulerRuns : Nat) : Audit × CleanupReport :=
  let cutoff := retentionBound now retentionDays
  match repository with
  | some order => Repository.cleanup order rows cutoff retentionDays maxSchedulerRuns
  | none => (Memory.cleanup rows cutoff maxSchedulerRuns,{ retentionDays })

namespace Audit

variable {rows : Audit}

theorem eq_of_lists {a b : Audit} (jobs : a.jobs = b.jobs) (journal : a.journal = b.journal)
    (runs : a.runs = b.runs) : a = b := by
  cases a
  cases b
  simp_all

theorem deleteJobs_jobs (jobIds : List Text) :
    (rows.deleteJobs jobIds).jobs = rows.jobs.filter fun job => job.jobId ∉ jobIds := by
  induction jobIds generalizing rows with
  | nil => simp [deleteJobs]
  | cons jobId rest ih =>
    rw [deleteJobs,List.foldl_cons,← deleteJobs,ih]
    simp [deleteJob,List.filter_filter,Bool.and_comm]

theorem deleteJobs_journal (jobIds : List Text) :
    (rows.deleteJobs jobIds).journal = rows.journal.filter fun entry => entry.jobId ∉ jobIds := by
  induction jobIds generalizing rows with
  | nil => simp [deleteJobs]
  | cons jobId rest ih =>
    rw [deleteJobs,List.foldl_cons,← deleteJobs,ih]
    simp [deleteJob,List.filter_filter,Bool.and_comm]

@[simp] theorem deleteJobs_runs (jobIds : List Text) :
    (rows.deleteJobs jobIds).runs = rows.runs := by
  induction jobIds generalizing rows with
  | nil => rfl
  | cons jobId rest ih => exact ih

theorem deleteRuns_runs (runIds : List Text) :
    (rows.deleteRuns runIds).runs = rows.runs.filter fun run => run.runId ∉ runIds := by
  induction runIds generalizing rows with
  | nil => simp [deleteRuns]
  | cons runId rest ih =>
    rw [deleteRuns,List.foldl_cons,← deleteRuns,ih]
    simp [deleteRun,List.filter_filter,Bool.and_comm]

@[simp] theorem deleteRuns_jobs (runIds : List Text) :
    (rows.deleteRuns runIds).jobs = rows.jobs := by
  induction runIds generalizing rows with
  | nil => rfl
  | cons runId rest ih => exact ih

@[simp] theorem deleteRuns_journal (runIds : List Text) :
    (rows.deleteRuns runIds).journal = rows.journal := by
  induction runIds generalizing rows with
  | nil => rfl
  | cons runId rest ih => exact ih

theorem run_unique {a b : Run} (here : a ∈ rows.runs) (there : b ∈ rows.runs)
    (same : a.runId = b.runId) : a = b :=
  List.inj_on_of_nodup_map rows.runsNamed here there same

theorem job_unique {a b : JobRow} (here : a ∈ rows.jobs) (there : b ∈ rows.jobs)
    (same : a.jobId = b.jobId) : a = b :=
  List.inj_on_of_nodup_map rows.jobsNamed here there same

theorem runs_nodup (rows : Audit) : rows.runs.Nodup := rows.runsNamed.of_map

/-- An id names one run, so that rows chosen among those of the table are deleted and no other. -/
theorem mem_runId {chosen : List Run} (among : chosen ⊆ rows.runs) {run : Run}
    (there : run ∈ rows.runs) : run.runId ∈ chosen.map Run.runId ↔ run ∈ chosen := by
  constructor
  · intro found
    obtain ⟨other,here,same⟩ := List.mem_map.mp found
    exact run_unique (among here) there same ▸ here
  · exact List.mem_map_of_mem

theorem deleteRuns_chosen {chosen : List Run} (among : chosen ⊆ rows.runs) :
    (rows.deleteRuns (chosen.map Run.runId)).runs =
      rows.runs.filter fun run => run ∉ chosen := by
  rw [deleteRuns_runs]
  apply List.filter_congr
  intro run there
  simp only [mem_runId among there]

end Audit

section NewestPerTask

variable {d : Dict Task Text} {entry : Task × Text} {runs : List Run}

theorem mem_setDefault {task : Task} {runId : Text} (found : entry ∈ setDefault d task runId) :
    entry ∈ d ∨ entry = (task,runId) ∧ ∀ other ∈ d,other.1 ≠ task := by
  rw [setDefault] at found
  split at found
  · exact .inl found
  · rename_i absent
    rcases Dict.mem_set found with new | old
    · refine .inr ⟨new,fun other there same => ?_⟩
      simpa [same] using List.lookup_eq_none_iff.mp absent other there
    · exact .inl old

theorem setDefault_has (d : Dict Task Text) (task : Task) (runId : Text) :
    ∃ entry ∈ setDefault d task runId,entry.1 = task := by
  rw [setDefault]
  split
  · rename_i value found
    exact ⟨(task,value),Dict.mem_of_find found,rfl⟩
  · exact ⟨(task,runId),Dict.set_mem ..,rfl⟩

theorem setDefault_keeps {task : Task} {runId : Text} (there : entry ∈ d) :
    ∃ other ∈ setDefault d task runId,other.1 = entry.1 := by
  rw [setDefault]
  split
  · exact ⟨entry,there,rfl⟩
  · by_cases same : entry.1 = task
    · exact ⟨(task,runId),Dict.set_mem ..,same.symm⟩
    · exact ⟨entry,Dict.mem_set_of_ne there same,rfl⟩

theorem newestPerTask_append (runs : List Run) (run : Run) : newestPerTask (runs ++ [run]) =
    setDefault (newestPerTask runs) run.task run.runId := by
  rw [newestPerTask,List.foldl_append]
  rfl

theorem newestPerTask_covers {run : Run} (there : run ∈ runs) :
    ∃ entry ∈ newestPerTask runs,entry.1 = run.task := by
  induction runs using List.reverseRecOn with
  | nil => cases there
  | append_singleton runs last ih =>
    rw [newestPerTask_append]
    rcases List.mem_append.mp there with earlier | now
    · obtain ⟨entry,found,same⟩ := ih earlier
      obtain ⟨other,here,kept⟩ := setDefault_keeps found
      exact ⟨other,here,kept.trans same⟩
    · rw [List.mem_singleton.mp now]
      exact setDefault_has ..

theorem newestPerTask_first {R : Run → Run → Prop} (sorted : runs.Pairwise R)
    (found : entry ∈ newestPerTask runs) : ∃ run ∈ runs,run.task = entry.1 ∧
      run.runId = entry.2 ∧ ∀ other ∈ runs,other.task = run.task → other = run ∨ R run other := by
  induction runs using List.reverseRecOn with
  | nil => cases found
  | append_singleton runs last ih =>
    obtain ⟨before,_,after⟩ := List.pairwise_append.mp sorted
    rw [newestPerTask_append] at found
    rcases mem_setDefault found with old | ⟨rfl,absent⟩
    · obtain ⟨run,there,task,runId,first⟩ := ih before old
      refine ⟨run,List.mem_append_left _ there,task,runId,fun other among same => ?_⟩
      rcases List.mem_append.mp among with earlier | now
      · exact first other earlier same
      · exact .inr (after run there other now)
    · refine ⟨last,List.mem_append_right _ (List.mem_singleton.mpr rfl),rfl,rfl,
        fun other among same => ?_⟩
      rcases List.mem_append.mp among with earlier | now
      · obtain ⟨entry,noted,task⟩ := newestPerTask_covers earlier
        exact absurd (task.trans same) (absent entry noted)
      · exact .inl (List.mem_singleton.mp now)

end NewestPerTask

def superseded (runs : List Run) (run : Run) : Bool :=
  runs.any fun later => later.task = run.task && run.startedAt < later.startedAt

def expired (cutoff : Nat) (run : Run) : Bool :=
  run.status.isTerminal && run.finished < cutoff

def remaining (runs : List Run) (cutoff : Nat) : List Run :=
  runs.filter fun run => !(expired cutoff run && superseded runs run)

def terminal (runs : List Run) : List Run := runs.filter fun run => run.status.isTerminal

def excess (runs : List Run) (cutoff maxSchedulerRuns : Nat) : Nat :=
  (remaining runs cutoff).length - maxSchedulerRuns

/-- An expired run after which no run of its task started shares its start with none of them. -/
def Alone (runs : List Run) (cutoff : Nat) : Prop :=
  ∀ run ∈ runs,expired cutoff run = true → superseded runs run = false →
    ∀ other ∈ runs,other.task = run.task → other.startedAt = run.startedAt → other = run

theorem superseded_eq_false {runs : List Run} {run : Run} : superseded runs run = false ↔
    ∀ later ∈ runs,later.task = run.task → later.startedAt ≤ run.startedAt := by
  simp [superseded]

section Aging

variable {rows : Audit} {sorted : List Run} {cutoff : Nat}

theorem not_noted (perm : sorted.Perm rows.runs)
    (descending : sorted.Pairwise fun a b => b.startedAt ≤ a.startedAt) {run : Run}
    (there : run ∈ rows.runs) (late : superseded rows.runs run = true) :
    run.runId ∉ (newestPerTask sorted).map Prod.snd := by
  intro noted
  obtain ⟨entry,found,named⟩ := List.mem_map.mp noted
  obtain ⟨first,here,_,runId,newest⟩ := newestPerTask_first descending found
  obtain rfl : first = run :=
    Audit.run_unique (perm.mem_iff.mp here) there (runId.trans named)
  obtain ⟨later,among,task,after⟩ : ∃ later ∈ rows.runs,later.task = first.task ∧
      first.startedAt < later.startedAt := by simpa [superseded] using late
  rcases newest later (perm.mem_iff.mpr among) task with same | before
  · rw [same] at after
    exact lt_irrefl _ after
  · omega

theorem noted (perm : sorted.Perm rows.runs)
    (descending : sorted.Pairwise fun a b => b.startedAt ≤ a.startedAt) {run : Run}
    (there : run ∈ rows.runs) (last : superseded rows.runs run = false)
    (only : ∀ other ∈ rows.runs,other.task = run.task → other.startedAt = run.startedAt →
      other = run) : run.runId ∈ (newestPerTask sorted).map Prod.snd := by
  have here := perm.mem_iff.mpr there
  obtain ⟨entry,found,task⟩ := newestPerTask_covers here
  obtain ⟨first,among,task',runId,newest⟩ := newestPerTask_first descending found
  have among := perm.mem_iff.mp among
  have same : first.task = run.task := task'.trans task
  have upper := superseded_eq_false.mp last first among same
  have equal : first = run := by
    rcases newest run here same.symm with equal | lower
    · exact equal.symm
    · exact only first among same (le_antisymm upper lower)
  exact List.mem_map.mpr ⟨entry,found,runId.symm.trans (congrArg Run.runId equal)⟩

theorem spared_iff (alone : Alone rows.runs cutoff) (perm : sorted.Perm rows.runs)
    (descending : sorted.Pairwise fun a b => b.startedAt ≤ a.startedAt) {run : Run}
    (there : run ∈ rows.runs) (old : expired cutoff run = true) :
    run.runId ∈ (newestPerTask sorted).map Prod.snd ↔ superseded rows.runs run = false := by
  constructor
  · intro found
    by_contra late
    exact not_noted perm descending there (Bool.eq_true_of_not_eq_false late) found
  · intro last
    exact noted perm descending there last (alone run there old last)

theorem Repository.mem_deletable {order : RowOrder} {run : Run} (there : run ∈ rows.runs) :
    run.runId ∈ deletable order rows cutoff ↔ expired cutoff run = true ∧
      run.runId ∉ (newestPerTask (order.descending rows.runs)).map Prod.snd := by
  rw [deletable,List.mem_filter,Audit.terminalRunRows,
    Audit.mem_runId (List.filter_subset_self _) there,List.mem_filter]
  simp [there,expired]

theorem Memory.mem_deletable {run : Run} (there : run ∈ rows.runs) :
    run.runId ∈ deletable rows cutoff ↔ expired cutoff run = true ∧
      run.runId ∉ (newestPerTask (byStart rows.runs).reverse).map Prod.snd := by
  have among : ∀ keep : Run → Bool,(byStart rows.runs).filter keep ⊆ rows.runs :=
    fun keep run found => (List.perm_insertionSort _ _).mem_iff.mp (List.mem_filter.mp found).1
  rw [deletable,Audit.mem_runId (among _) there,List.mem_filter,byStart,
    (List.perm_insertionSort _ _).mem_iff]
  simp [there,expired]

end Aging

section Capping

variable {rows : Audit} {order : RowOrder} {cutoff maxSchedulerRuns : Nat}

theorem aged_runs {victims : List Text} (chosen : ∀ run ∈ rows.runs,run.runId ∈ victims ↔
    expired cutoff run = true ∧ superseded rows.runs run = true) :
    (rows.deleteRuns victims).runs = remaining rows.runs cutoff := by
  rw [Audit.deleteRuns_runs,remaining]
  apply List.filter_congr
  intro run there
  simp only [chosen run there]
  cases expired cutoff run <;> cases superseded rows.runs run <;> rfl

theorem Repository.aged (alone : Alone rows.runs cutoff) :
    (rows.deleteRuns (deletable order rows cutoff)).runs = remaining rows.runs cutoff := by
  apply aged_runs
  intro run there
  rw [mem_deletable there]
  apply and_congr_right
  intro old
  rw [spared_iff alone (order.descending_perm _) (order.descending_sorted _) there old]
  rw [Bool.not_eq_false]

theorem byStart_sorted (runs : List Run) :
    Ranking.Ascending Run.startedAt (Memory.byStart runs) :=
  List.pairwise_insertionSort (fun a b : Run => a.startedAt ≤ b.startedAt) runs

theorem byStart_perm (runs : List Run) : (Memory.byStart runs).Perm runs :=
  List.perm_insertionSort _ runs

theorem Memory.aged (alone : Alone rows.runs cutoff) :
    (rows.deleteRuns (deletable rows cutoff)).runs = remaining rows.runs cutoff := by
  have perm : (byStart rows.runs).reverse.Perm rows.runs :=
    (List.reverse_perm _).trans (byStart_perm _)
  have descending : (byStart rows.runs).reverse.Pairwise fun a b => b.startedAt ≤ a.startedAt :=
    List.pairwise_reverse.mpr (byStart_sorted _)
  apply aged_runs
  intro run there
  rw [mem_deletable there]
  apply and_congr_right
  intro old
  rw [spared_iff alone perm descending there old]
  rw [Bool.not_eq_false]

theorem Repository.capRuns_runs : (capRuns order rows maxSchedulerRuns).runs =
    rows.runs.filter fun run =>
      run ∉ oldestTerminalRuns order rows (rows.runs.length - maxSchedulerRuns) := by
  apply Audit.deleteRuns_chosen
  intro run found
  have found := (order.ascending_perm _).mem_iff.mp (List.mem_of_mem_take found)
  exact (List.mem_filter.mp found).1

theorem Memory.capRuns_runs : (capRuns rows maxSchedulerRuns).runs =
    rows.runs.filter fun run =>
      run ∉ ((byStart rows.runs).take (rows.runs.length - maxSchedulerRuns)).filter fun run =>
        run.status.isTerminal := by
  apply Audit.deleteRuns_chosen
  intro run found
  exact (byStart_perm _).mem_iff.mp (List.mem_of_mem_take (List.mem_filter.mp found).1)

end Capping

/-- A terminal run that the age leaves has as many terminal ones below it as are over the cap,
or a later run of its task is there and it is among the first of the terminal ones and of all,
whichever comes first of those that started at one time. -/
def Room (runs : List Run) (cutoff maxSchedulerRuns : Nat) : Prop :=
  ∀ run ∈ terminal (remaining runs cutoff),
    excess runs cutoff maxSchedulerRuns ≤
        Ranking.below Run.startedAt run (terminal (remaining runs cutoff)) ∨
      superseded runs run = true ∧
        Ranking.upTo Run.startedAt run (terminal (remaining runs cutoff)) ≤
          excess runs cutoff maxSchedulerRuns ∧
        run ∈ (Memory.byStart (remaining runs cutoff)).take (excess runs cutoff maxSchedulerRuns)

structure Keeps (rows after : Audit) : Prop where
  jobs : after.jobs ⊆ rows.jobs ∧
    ∀ job ∈ rows.jobs,isTerminal job.status = false → job ∈ after.jobs
  runs : after.runs ⊆ rows.runs ∧
    ∀ run ∈ rows.runs,run.status.isTerminal = false → run ∈ after.runs
  newest : ∀ run ∈ rows.runs,superseded rows.runs run = false → run ∈ after.runs
  journal : after.journal ⊆ rows.journal ∧ ∀ entry ∈ rows.journal,entry ∉ after.journal ↔
    ∃ job ∈ rows.jobs,job ∉ after.jobs ∧ job.jobId = entry.jobId

structure Retained (order : RowOrder) (rows : Audit) (now retentionDays maxSchedulerRuns : Nat) :
    Prop where
  repository : Keeps rows
    (cleanupRetention (some order) rows now retentionDays maxSchedulerRuns).1
  memory : Keeps rows (cleanupRetention none rows now retentionDays maxSchedulerRuns).1
  same : (cleanupRetention (some order) rows now retentionDays maxSchedulerRuns).1 =
    (cleanupRetention none rows now retentionDays maxSchedulerRuns).1

section Cleanup

variable {rows : Audit} {order : RowOrder} {cutoff retentionDays maxSchedulerRuns : Nat}

theorem expireJobs_jobs : (expireJobs rows cutoff).jobs =
    rows.jobs.filter fun job => !(isTerminal job.status && job.finished < cutoff) := by
  rw [expireJobs,Audit.deleteJobs_jobs]
  apply List.filter_congr
  intro job there
  have chosen : job.jobId ∈ (rows.terminalJobRows cutoff).map JobRow.jobId ↔
      job ∈ rows.terminalJobRows cutoff := by
    constructor
    · intro found
      obtain ⟨other,here,same⟩ := List.mem_map.mp found
      exact Audit.job_unique (List.mem_filter.mp here).1 there same ▸ here
    · exact List.mem_map_of_mem
  simp only [chosen]
  simp only [Audit.terminalJobRows,List.mem_filter,there,true_and]
  rw [Bool.eq_iff_iff]
  simp

theorem expireJobs_journal : (expireJobs rows cutoff).journal ⊆ rows.journal ∧
    ∀ entry ∈ rows.journal,entry ∉ (expireJobs rows cutoff).journal ↔
      ∃ job ∈ rows.jobs,job ∉ (expireJobs rows cutoff).jobs ∧ job.jobId = entry.jobId := by
  have lists : (expireJobs rows cutoff).journal = rows.journal.filter fun entry =>
      entry.jobId ∉ (rows.terminalJobRows cutoff).map JobRow.jobId :=
    Audit.deleteJobs_journal _
  rw [lists,expireJobs_jobs]
  refine ⟨List.filter_subset_self _,fun entry there => ?_⟩
  have gone : entry ∉ rows.journal.filter (fun entry =>
      entry.jobId ∉ (rows.terminalJobRows cutoff).map JobRow.jobId) ↔
      ∃ job ∈ rows.terminalJobRows cutoff,job.jobId = entry.jobId := by
    simp [there]
  rw [gone]
  simp only [Audit.terminalJobRows,List.mem_filter,not_and]
  constructor
  · rintro ⟨job,⟨among,old⟩,same⟩
    exact ⟨job,among,fun _ => by simpa using old,same⟩
  · rintro ⟨job,among,gone,same⟩
    exact ⟨job,⟨among,by simpa using gone among⟩,same⟩

theorem keeps_of_runs (cutoff : Nat) {after : Audit} (jobs : after.jobs = (expireJobs rows cutoff).jobs)
    (journal : after.journal = (expireJobs rows cutoff).journal)
    (fewer : after.runs ⊆ rows.runs)
    (active : ∀ run ∈ rows.runs,run.status.isTerminal = false → run ∈ after.runs)
    (newest : ∀ run ∈ rows.runs,superseded rows.runs run = false → run ∈ after.runs) :
    Keeps rows after where
  jobs := by
    rw [jobs,expireJobs_jobs]
    refine ⟨List.filter_subset_self _,fun job there active => ?_⟩
    exact List.mem_filter.mpr ⟨there,by simp [active]⟩
  runs := ⟨fewer,active⟩
  newest := newest
  journal := by
    rw [journal,jobs]
    exact expireJobs_journal

theorem sameRuns : (expireJobs rows cutoff).runs = rows.runs := Audit.deleteJobs_runs _

theorem victim_iff (room : Room rows.runs cutoff maxSchedulerRuns) {sorted : List Run}
    (perm : sorted.Perm (terminal (remaining rows.runs cutoff)))
    (ascending : Ranking.Ascending Run.startedAt sorted) {run : Run}
    (there : run ∈ terminal (remaining rows.runs cutoff)) :
    (run ∈ sorted.take (excess rows.runs cutoff maxSchedulerRuns) ↔
      run ∈ (Memory.byStart (remaining rows.runs cutoff)).take
        (excess rows.runs cutoff maxSchedulerRuns)) ∧
    (run ∈ sorted.take (excess rows.runs cutoff maxSchedulerRuns) →
      superseded rows.runs run = true) := by
  rcases room run there with many | ⟨late,few,oldest⟩
  · have kept : run ∉ sorted.take (excess rows.runs cutoff maxSchedulerRuns) := by
      apply Ranking.not_mem_take_of_le_below ascending
      rw [Ranking.below_perm perm]
      exact many
    have more : Ranking.below Run.startedAt run (terminal (remaining rows.runs cutoff)) ≤
        Ranking.below Run.startedAt run (Memory.byStart (remaining rows.runs cutoff)) := by
      rw [Ranking.below_perm (byStart_perm _)]
      exact List.filter_sublist.countP_le
    have kept' := Ranking.not_mem_take_of_le_below (byStart_sorted _) (many.trans more)
    exact ⟨iff_of_false kept kept',fun found => absurd found kept⟩
  · have first : run ∈ sorted.take (excess rows.runs cutoff maxSchedulerRuns) := by
      apply Ranking.mem_take_of_upTo_le ascending (perm.mem_iff.mpr there)
      rw [Ranking.upTo_perm perm]
      exact few
    exact ⟨iff_of_true first oldest,fun _ => late⟩

variable (order rows cutoff retentionDays maxSchedulerRuns)

theorem Repository.cleanup_runs (alone : Alone rows.runs cutoff) :
    (cleanup order rows cutoff retentionDays maxSchedulerRuns).1.runs =
      (remaining rows.runs cutoff).filter fun run =>
        run ∉ (order.ascending (terminal (remaining rows.runs cutoff))).take
          (excess rows.runs cutoff maxSchedulerRuns) := by
  have aged : ((expireJobs rows cutoff).deleteRuns
      (deletable order (expireJobs rows cutoff) cutoff)).runs = remaining rows.runs cutoff := by
    rw [Repository.aged (by rw [sameRuns]; exact alone),sameRuns]
  rw [cleanup]
  simp only [capRuns_runs,oldestTerminalRuns,aged]
  rfl

theorem Memory.cleanup_runs (alone : Alone rows.runs cutoff) :
    (cleanup rows cutoff maxSchedulerRuns).runs =
      (remaining rows.runs cutoff).filter fun run =>
        run ∉ ((byStart (remaining rows.runs cutoff)).take
          (excess rows.runs cutoff maxSchedulerRuns)).filter fun run =>
            run.status.isTerminal := by
  have aged : ((expireJobs rows cutoff).deleteRuns
      (deletable (expireJobs rows cutoff) cutoff)).runs = remaining rows.runs cutoff := by
    rw [Memory.aged (by rw [sameRuns]; exact alone),sameRuns]
  rw [cleanup]
  simp only [capRuns_runs,aged]
  rfl

variable {order rows cutoff retentionDays maxSchedulerRuns}

theorem same_runs (alone : Alone rows.runs cutoff) (room : Room rows.runs cutoff maxSchedulerRuns) :
    (Repository.cleanup order rows cutoff retentionDays maxSchedulerRuns).1.runs =
      (Memory.cleanup rows cutoff maxSchedulerRuns).runs := by
  rw [Repository.cleanup_runs _ _ _ _ _ alone,Memory.cleanup_runs _ _ _ alone]
  apply List.filter_congr
  intro run there
  have agree : run ∈ (order.ascending (terminal (remaining rows.runs cutoff))).take
        (excess rows.runs cutoff maxSchedulerRuns) ↔
      run ∈ ((Memory.byStart (remaining rows.runs cutoff)).take
        (excess rows.runs cutoff maxSchedulerRuns)).filter fun run => run.status.isTerminal := by
    rw [List.mem_filter]
    by_cases ended : run.status.isTerminal = true
    · have among : run ∈ terminal (remaining rows.runs cutoff) :=
        List.mem_filter.mpr ⟨there,ended⟩
      rw [(victim_iff room (order.ascending_perm _) (order.ascending_sorted _) among).1]
      simp [ended]
    · have outside : run ∉ (order.ascending (terminal (remaining rows.runs cutoff))).take
          (excess rows.runs cutoff maxSchedulerRuns) := by
        intro found
        have among := (order.ascending_perm _).mem_iff.mp (List.mem_of_mem_take found)
        exact ended (List.mem_filter.mp among).2
      simp [outside,ended]
  simp only [agree]

theorem mem_remaining {runs : List Run} {run : Run} (there : run ∈ runs)
    (kept : expired cutoff run = false ∨ superseded runs run = false) :
    run ∈ remaining runs cutoff :=
  List.mem_filter.mpr ⟨there,by rcases kept with young | last <;> simp [*]⟩

theorem Repository.cleanup_keeps (alone : Alone rows.runs cutoff)
    (room : Room rows.runs cutoff maxSchedulerRuns) :
    Keeps rows (cleanup order rows cutoff retentionDays maxSchedulerRuns).1 := by
  have victim : ∀ run ∈ (order.ascending (terminal (remaining rows.runs cutoff))).take
      (excess rows.runs cutoff maxSchedulerRuns),
      run.status.isTerminal = true ∧ superseded rows.runs run = true := by
    intro run found
    have among := (order.ascending_perm _).mem_iff.mp (List.mem_of_mem_take found)
    exact ⟨(List.mem_filter.mp among).2,
      (victim_iff room (order.ascending_perm _) (order.ascending_sorted _) among).2 found⟩
  apply keeps_of_runs cutoff
  · rw [cleanup,capRuns,Audit.deleteRuns_jobs,Audit.deleteRuns_jobs]
  · rw [cleanup,capRuns,Audit.deleteRuns_journal,Audit.deleteRuns_journal]
  · rw [cleanup_runs _ _ _ _ _ alone]
    intro run found
    exact (List.mem_filter.mp (List.mem_filter.mp found).1).1
  · intro run there active
    rw [cleanup_runs _ _ _ _ _ alone,List.mem_filter]
    refine ⟨mem_remaining there (.inl (by simp [expired,active])),?_⟩
    simp only [decide_eq_true_eq]
    intro found
    exact absurd (victim run found).1 (by simp [active])
  · intro run there last
    rw [cleanup_runs _ _ _ _ _ alone,List.mem_filter]
    refine ⟨mem_remaining there (.inr last),?_⟩
    simp only [decide_eq_true_eq]
    intro found
    exact absurd (victim run found).2 (by simp [last])

theorem same_of_room (alone : Alone rows.runs cutoff)
    (room : Room rows.runs cutoff maxSchedulerRuns) :
    (Repository.cleanup order rows cutoff retentionDays maxSchedulerRuns).1 =
      Memory.cleanup rows cutoff maxSchedulerRuns := by
  apply Audit.eq_of_lists
  · rw [Repository.cleanup,Memory.cleanup,Repository.capRuns,Memory.capRuns]
    simp only [Audit.deleteRuns_jobs]
  · rw [Repository.cleanup,Memory.cleanup,Repository.capRuns,Memory.capRuns]
    simp only [Audit.deleteRuns_journal]
  · exact same_runs alone room

end Cleanup

section Orders

def RowOrder.of (before : Run → Run → Prop) [DecidableRel before] [Std.Total before]
    [IsTrans Run before] (sorts : ∀ a b,before a b → a.startedAt ≤ b.startedAt) : RowOrder where
  ascending runs := runs.insertionSort before
  descending runs := (runs.insertionSort before).reverse
  ascending_perm runs := List.perm_insertionSort before runs
  descending_perm runs := (List.reverse_perm _).trans (List.perm_insertionSort before runs)
  ascending_sorted runs := (List.pairwise_insertionSort before runs).imp (sorts _ _)
  descending_sorted runs :=
    List.pairwise_reverse.mpr ((List.pairwise_insertionSort before runs).imp (sorts _ _))

def RowOrder.foremost (run : Run) : RowOrder :=
  .of (Ranking.Foremost Run.startedAt run) fun _ _ => Ranking.Foremost.le

def RowOrder.hindmost (run : Run) : RowOrder :=
  .of (Ranking.Hindmost Run.startedAt run) fun _ _ => Ranking.Hindmost.le

end Orders

section Necessary

variable {rows : Audit} {now retentionDays maxSchedulerRuns : Nat}

theorem alone_of_retained
    (retained : ∀ order,Retained order rows now retentionDays maxSchedulerRuns) :
    Alone rows.runs (retentionBound now retentionDays) := by
  intro run there old last other among task start
  let order := RowOrder.foremost run
  let cutoff := retentionBound now retentionDays
  have kept : run ∈ (Repository.cleanup order rows cutoff retentionDays maxSchedulerRuns).1.runs :=
    (retained order).repository.newest run there last
  rw [Repository.cleanup,Repository.capRuns_runs,List.mem_filter,Audit.deleteRuns_runs,
    List.mem_filter] at kept
  have spared : run.runId ∉ Repository.deletable order (expireJobs rows cutoff) cutoff := by
    simpa using kept.1.2
  have there' : run ∈ (expireJobs rows cutoff).runs := by rwa [sameRuns]
  rw [Repository.mem_deletable there'] at spared
  have noted : run.runId ∈ (newestPerTask (order.descending rows.runs)).map Prod.snd := by
    rw [sameRuns] at spared
    by_contra absent
    exact spared ⟨old,absent⟩
  obtain ⟨entry,found,named⟩ := List.mem_map.mp noted
  have sorted : (order.descending rows.runs).Pairwise fun a b =>
      Ranking.Foremost Run.startedAt run b a :=
    List.pairwise_reverse.mpr (List.pairwise_insertionSort _ _)
  obtain ⟨first,here,_,runId,newest⟩ := newestPerTask_first sorted found
  obtain rfl : first = run :=
    Audit.run_unique ((order.descending_perm _).mem_iff.mp here) there (runId.trans named)
  rcases newest other ((order.descending_perm _).mem_iff.mpr among) task with
    same | less | ⟨_,same⟩
  · exact same
  · exact absurd start less.ne
  · exact same rfl

/-- Put first of its start, a run with too few below it is deleted; put last, one with too many
of its start is not; without the tables only the start and the order of saving decide. -/
theorem room_of_retained
    (retained : ∀ order,Retained order rows now retentionDays maxSchedulerRuns) :
    Room rows.runs (retentionBound now retentionDays) maxSchedulerRuns := by
  intro run there
  let cutoff := retentionBound now retentionDays
  let left := terminal (remaining rows.runs cutoff)
  let many := excess rows.runs cutoff maxSchedulerRuns
  have alone : Alone rows.runs cutoff := alone_of_retained retained
  have inside : run ∈ remaining rows.runs cutoff := (List.mem_filter.mp there).1
  have here : run ∈ rows.runs := (List.mem_filter.mp inside).1
  have distinct : left.Nodup := (rows.runs_nodup.filter _).filter _
  have repository : ∀ order : RowOrder,
      run ∈ (Repository.cleanup order rows cutoff retentionDays maxSchedulerRuns).1.runs ↔
        run ∉ (order.ascending left).take many := by
    intro order
    rw [Repository.cleanup_runs _ _ _ _ _ alone,List.mem_filter]
    simp [inside,left,many]
  have memory : run ∈ (Memory.cleanup rows cutoff maxSchedulerRuns).runs ↔
      run ∉ (Memory.byStart (remaining rows.runs cutoff)).take many := by
    rw [Memory.cleanup_runs _ _ _ alone,List.mem_filter]
    simp [inside,many,(List.mem_filter.mp there).2]
  have agree : ∀ order : RowOrder,run ∉ (order.ascending left).take many ↔
      run ∉ (Memory.byStart (remaining rows.runs cutoff)).take many := by
    intro order
    have same := congrArg Audit.runs (retained order).same
    rw [← repository,← memory]
    exact iff_of_eq (congrArg (run ∈ ·) same)
  by_cases full : many ≤ Ranking.below Run.startedAt run left
  · exact .inl full
  · have perm : (left.insertionSort (Ranking.Foremost Run.startedAt run)).Perm left :=
      List.perm_insertionSort _ _
    have first : run ∈ ((RowOrder.foremost run).ascending left).take many := by
      apply Ranking.mem_take_of_foremost (perm.nodup_iff.mpr distinct)
        (List.pairwise_insertionSort _ _) (perm.mem_iff.mpr there)
      rw [Ranking.below_perm perm]
      exact not_le.mp full
    have late : superseded rows.runs run = true := by
      by_contra last
      have kept := (retained (RowOrder.foremost run)).repository.newest run here
        (Bool.eq_false_of_not_eq_true last)
      exact (repository _).mp kept first
    have oldest : run ∈ (Memory.byStart (remaining rows.runs cutoff)).take many := by
      by_contra later
      exact (agree (RowOrder.foremost run)).mpr later first
    have few : Ranking.upTo Run.startedAt run left ≤ many := by
      by_contra more
      have perm' : (left.insertionSort (Ranking.Hindmost Run.startedAt run)).Perm left :=
        List.perm_insertionSort _ _
      have kept : run ∉ ((RowOrder.hindmost run).ascending left).take many := by
        apply Ranking.not_mem_take_of_hindmost (perm'.nodup_iff.mpr distinct)
          (List.pairwise_insertionSort _ _)
        rw [Ranking.upTo_perm perm']
        exact not_le.mp more
      exact (agree _).mp kept oldest
    exact .inr ⟨late,few,oldest⟩

end Necessary

/-- Whatever order the database gives the rows of one start: the cleanup keeps what it has to
keep, and does the same with tables and without, if and only if an expired run that is the
newest of its task is alone in that and the cap takes none that is the newest, none but the
oldest, and none while an active one is older. -/
theorem retained_iff (rows : Audit) (now retentionDays maxSchedulerRuns : Nat) :
    (∀ order,Retained order rows now retentionDays maxSchedulerRuns) ↔
      Alone rows.runs (retentionBound now retentionDays) ∧
        Room rows.runs (retentionBound now retentionDays) maxSchedulerRuns := by
  constructor
  · intro retained
    exact ⟨alone_of_retained retained,room_of_retained retained⟩
  · rintro ⟨alone,room⟩ order
    have keeps : Keeps rows
        (cleanupRetention (some order) rows now retentionDays maxSchedulerRuns).1 :=
      Repository.cleanup_keeps alone room
    have same : (cleanupRetention (some order) rows now retentionDays maxSchedulerRuns).1 =
        (cleanupRetention none rows now retentionDays maxSchedulerRuns).1 :=
      same_of_room alone room
    have mirrored : Keeps rows
        (cleanupRetention none rows now retentionDays maxSchedulerRuns).1 := by
      rw [← same]
      exact keeps
    exact ⟨keeps,mirrored,same⟩

section Busy

def finishedRun (task : Task) (n : Nat) : Run where
  runId := List.replicate n 'r'
  task
  scheduled := true
  status := .committed
  startedAt := n
  finishedAt := some n

def busyMonth : Audit where
  jobs := []
  journal := []
  runs := finishedRun .weeklyReview 0 ::
    (List.range 100).map fun n => finishedRun .dailyOrganizer (n + 1)
  jobsNamed := List.nodup_nil
  runsNamed := by decide +kernel
  referenced _ there := by cases there

/-- The only weekly review is deleted, though it is young: the cap does not look at the tasks. -/
theorem busyMonth_loses : ¬ ∀ order,Retained order busyMonth 2592000 30 100 := by
  intro retained
  have kept := (retained (RowOrder.foremost (finishedRun .weeklyReview 0))).memory.newest
    (finishedRun .weeklyReview 0) (by decide +kernel) (by decide +kernel)
  revert kept
  decide +kernel

end Busy

end LocalBook.Scheduler
