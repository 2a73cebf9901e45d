import LocalBook.Dict
import LocalBook.Text

/-! The scheduler service: triggers begin runs of a task, each run has a pipeline on the
worker, and a table of run rows is all the gate looks at. Threads interleave between the
beginning of a run and the submission of its pipeline, and while the service stops. -/
namespace LocalBook.Scheduler

inductive Task where
  | dailyOrganizer
  | weeklyReview
  | indexConsistency
deriving Repr,DecidableEq

inductive RunStatus where
  | queued
  | running
  | previewed
  | committed
  | skippedDuplicate
  | failed
  | timedOut
  | recoveryRequired
deriving Repr,DecidableEq

namespace RunStatus

/-- `_ACTIVE_RUN_STATUSES`. -/
def isActive (status : RunStatus) : Bool := status = .queued || status = .running

def isTerminal : RunStatus → Bool
  | .previewed | .committed | .skippedDuplicate | .failed | .timedOut => true
  | .queued | .running | .recoveryRequired => false

end RunStatus

/-- How a run is asked for: by the schedule, by a request whose pipeline goes to the worker,
or by a request that found the service stopped and runs its pipeline itself. A retry
bypasses the recovery gate. -/
inductive Trigger where
  | scheduled
  | manual (bypassRecovery inline : Bool)
deriving Repr,DecidableEq

namespace Trigger

def bypasses : Trigger → Bool
  | .scheduled => false
  | .manual bypassRecovery _ => bypassRecovery

end Trigger

/-- A row of `scheduler_runs`. -/
structure Run where
  runId : Text
  task : Task
  scheduled : Bool
  status : RunStatus
  startedAt : Nat
  finishedAt : Option Nat := none
  agentJobId : Option Text := none
  errorCode : Option String := none
  message : Option String := none
deriving Repr,DecidableEq

structure Settings where
  enabled : Bool := true
  staleRunAfter : Nat := 3600
  jobTimeout : Nat := 300

/-- What a pipeline returns, also when its task raises: a run that was previewed, committed or
failed. -/
structure RunOutcome where
  status : RunStatus
  agentJobId : Option Text := none
  errorCode : Option String := none
  message : Option String := none
  settled : status = .previewed ∨ status = .committed ∨ status = .failed

structure Pipeline where
  runId : Text
  task : Task
  trigger : Trigger
deriving Repr,DecidableEq

/-- What held when a run was begun: whether a pipeline of its task was under way, and whether
an earlier run of it was marked for recovery. -/
structure Begin where
  task : Task
  bypass : Bool
  underWay : Bool
  unrecovered : Bool
deriving Repr,DecidableEq

structure World where
  now : Nat := 0
  runs : List Run := []
  started : Bool := false
  reconfiguring : Bool := false
  workerThread : Bool := false
  workerRunning : Bool := false
  active : Dict Text Task := []
  draining : Nat := 0
  marking : Nat := 0
  waiting : List Pipeline := []
  executing : List Pipeline := []
  ended : List Text := []
  begun : List Begin := []

inductive Refusal where
  | schedulerDisabled
  | schedulerUnavailable
  | recoveryRequired
  | jobInProgress
deriving Repr,DecidableEq

/-- `ORDER BY started_at DESC, run_id DESC`. -/
def Run.newest (a b : Run) : Prop :=
  b.startedAt < a.startedAt ∨ (a.startedAt = b.startedAt ∧ b.runId ≤ a.runId)

instance : DecidableRel Run.newest := fun a b =>
  inferInstanceAs (Decidable (b.startedAt < a.startedAt ∨
    (a.startedAt = b.startedAt ∧ b.runId ≤ a.runId)))

/-- `_last_run`. -/
def lastRun (runs : List Run) (task : Task) : Option Run :=
  ((runs.filter fun row => row.task = task).insertionSort Run.newest).head?

def World.live (w : World) : List Pipeline := w.waiting ++ w.executing

inductive Verdict where
  | pass
  | supersede (runId : Text)
  | skip (refusal : Refusal) (errorCode message : String)
deriving Repr,DecidableEq

/-- The gate of `_begin_run_unlocked`. -/
def gate (settings : Settings) (now : Nat) (trigger : Trigger) : Option Run → Verdict
  | none => .pass
  | some last =>
    if last.status = .recoveryRequired then
      if trigger.bypasses then .pass
      else .skip .recoveryRequired "recovery_required" "previous run needs explicit recovery"
    else if last.status.isActive then
      if settings.staleRunAfter < now - last.startedAt then .supersede last.runId
      else .skip .jobInProgress "duplicate_run" "the task already has an active run"
    else .pass

/-- `_update_status`: only a stored row changes, and only in the fields that are given. -/
def updateStatus (runs : List Run) (runId : Text) (status : RunStatus)
    (agentJobId : Option Text) (errorCode message : Option String) (finishedAt : Option Nat) :
    List Run :=
  runs.map fun row =>
    if row.runId = runId then
      {row with status,
                agentJobId := agentJobId.or row.agentJobId,
                errorCode := errorCode.or row.errorCode,
                message := message.or row.message,
                finishedAt := finishedAt.or row.finishedAt}
    else row

/-- `_write_skip`. -/
def skipRow (w : World) (task : Task) (trigger : Trigger) (runId : Text)
    (errorCode message : String) : Run where
  runId := runId
  task := task
  scheduled := trigger = .scheduled
  status := .skippedDuplicate
  startedAt := w.now
  finishedAt := some w.now
  errorCode := some errorCode
  message := some message

def runningRow (w : World) (task : Task) (trigger : Trigger) (runId : Text) : Run where
  runId := runId
  task := task
  scheduled := trigger = .scheduled
  status := .running
  startedAt := w.now

def beginOf (w : World) (runs : List Run) (task : Task) (trigger : Trigger) : Begin where
  task := task
  bypass := trigger.bypasses
  underWay := w.live.any fun pipeline => pipeline.task = task
  unrecovered := runs.any fun row => row.task = task && row.status = .recoveryRequired

def register (w : World) (runs : List Run) (task : Task) (trigger : Trigger) (runId : Text) :
    World :=
  {w with
    runs := runs ++ [runningRow w task trigger runId],
    active := w.active.set runId task,
    waiting := w.waiting ++ [{runId,task,trigger}],
    begun := beginOf w runs task trigger :: w.begun}

/-- `_begin_run`, under the lock: the id of the run, or none when a scheduled trigger is
skipped. -/
def beginRun (settings : Settings) (w : World) (task : Task) (trigger : Trigger)
    (runId skipId : Text) : Except Refusal (Option Text) × World :=
  if w.reconfiguring then
    (if trigger = .scheduled then .ok none else .error .schedulerUnavailable,w)
  else if !settings.enabled then (.error .schedulerDisabled,w)
  else if !w.started then (.error .schedulerUnavailable,w)
  else
    match gate settings w.now trigger (lastRun w.runs task) with
    | .skip refusal errorCode message =>
      (if trigger = .scheduled then .ok none else .error refusal,
        {w with runs := w.runs ++ [skipRow w task trigger skipId errorCode message]})
    | .supersede stale =>
      (.ok (some runId),register w (updateStatus w.runs stale .recoveryRequired none
        (some "process_interrupted") (some "stale run superseded at startup/trigger") none)
        task trigger runId)
    | .pass => (.ok (some runId),register w w.runs task trigger runId)

/-- `_finalize`: a run that was marked as timed out is to be verified. -/
def finalize (w : World) (runId : Text) (outcome : RunOutcome) : List Run :=
  match w.runs.find? fun row => row.runId = runId with
  | none => w.runs
  | some current =>
    if current.status = .timedOut then
      updateStatus w.runs runId .recoveryRequired outcome.agentJobId (some "job_timeout")
        (some "job finished after the timeout mark; verify state") (some w.now)
    else updateStatus w.runs runId outcome.status outcome.agentJobId outcome.errorCode
      outcome.message (some w.now)

/-- `_mark_timed_out`. -/
def markTimedOut (w : World) (runId : Text) : List Run :=
  updateStatus w.runs runId .timedOut none (some "job_timeout") (some "exceeded the job timeout")
    (some w.now)

def watchRow (settings : Settings) (w : World) (row : Run) : Run :=
  if !row.status.isActive then row
  else
    let alive := (w.active.find row.runId).isSome
    let age := w.now - row.startedAt
    if !alive && settings.staleRunAfter < age then
      {row with status := .recoveryRequired,errorCode := some "process_interrupted",
                message := some "abandoned running run flagged by watchdog",
                finishedAt := some w.now}
    else if alive && settings.jobTimeout < age then
      {row with status := .timedOut,errorCode := some "job_timeout",
                message := some "exceeded the job timeout",finishedAt := some w.now}
    else row

/-- What `_mark_interrupted_after_shutdown` makes of a row. -/
def interruptRow (w : World) (row : Run) : Run :=
  if (w.active.find row.runId).isSome && row.status.isActive then
    {row with status := .recoveryRequired,errorCode := some "process_interrupted",
              message := some "scheduler shut down while the run was active",
              finishedAt := some w.now}
  else row

def scanRow (w : World) (row : Run) : Run :=
  if row.status.isActive then
    {row with status := .recoveryRequired,finishedAt := some w.now}
  else row

/-- `pause_for_reconfigure`. The task locks are never held. -/
def pauseForReconfigure (w : World) : Bool × World :=
  if w.active ≠ [] then (false,w) else (true,{w with reconfiguring := true})

inductive Step where
  | tick (seconds : Nat)
  | start
  | workerUp
  | stop
  | stopWorker
  | stopMark
  | pause
  | resume
  | trigger (task : Task) (kind : Trigger) (runId skipId : Text)
  | submit (runId : Text)
  | finish (runId : Text) (outcome : RunOutcome)
  | timeOut (runId : Text)
  | cancel (runId : Text)
  | watchdog
  | resolve (runId : Text)
  | cleanup (runIds : List Text)
  | reboot (scan : Bool)

namespace Step

def Fresh (w : World) (id : Text) : Prop :=
  (∀ row ∈ w.runs, row.runId ≠ id) ∧ (w.active.find id).isNone = true ∧
    (∀ pipeline ∈ w.live, pipeline.runId ≠ id) ∧ id ∉ w.ended

instance (w : World) (id : Text) : Decidable (Fresh w id) :=
  inferInstanceAs (Decidable ((∀ row ∈ w.runs,_) ∧ _ ∧ (∀ pipeline ∈ w.live,_) ∧ _))

/-- `_submit`, and what becomes of the pipeline: an error, or a scheduled trigger that finds
the service stopped, drops it. -/
def submitted (w : World) (pipeline : Pipeline) : Bool :=
  match pipeline.trigger with
  | .scheduled => w.started && w.workerRunning
  | .manual _ inline => inline || w.workerRunning

def without (runId : Text) (pipelines : List Pipeline) : List Pipeline :=
  pipelines.filter fun pipeline => pipeline.runId ≠ runId

def step (settings : Settings) (w : World) : Step → World
  | .tick seconds => {w with now := w.now + seconds}
  | .start =>
    if w.started || !settings.enabled then w
    else {w with started := true,workerThread := true}
  | .workerUp => {w with workerRunning := w.workerRunning || w.workerThread}
  | .stop => if w.started then {w with started := false,draining := w.draining + 1} else w
  | .stopWorker =>
    if w.draining = 0 then w
    else {w with workerThread := false,workerRunning := false,draining := w.draining - 1,
                 marking := w.marking + 1}
  | .stopMark =>
    if w.marking = 0 then w
    else {w with runs := w.runs.map (interruptRow w),active := [],marking := w.marking - 1}
  | .pause => (pauseForReconfigure w).2
  | .resume => {w with reconfiguring := false}
  | .trigger task kind runId skipId =>
    if Fresh w runId ∧ Fresh w skipId then (beginRun settings w task kind runId skipId).2
    else w
  | .submit runId =>
    match w.waiting.find? fun pipeline => pipeline.runId = runId with
    | none => w
    | some pipeline =>
      let waiting := without runId w.waiting
      if submitted w pipeline then {w with waiting,executing := w.executing ++ [pipeline]}
      else {w with waiting}
  | .finish runId outcome =>
    if ∃ pipeline ∈ w.executing, pipeline.runId = runId then
      {w with runs := finalize w runId outcome,active := w.active.pop runId,
              executing := without runId w.executing,ended := runId :: w.ended}
    else w
  | .timeOut runId =>
    if ∃ pipeline ∈ w.executing, pipeline.runId = runId then {w with runs := markTimedOut w runId}
    else w
  | .cancel runId =>
    if ∃ pipeline ∈ w.executing, pipeline.runId = runId then
      {w with executing := without runId w.executing,ended := runId :: w.ended}
    else w
  | .watchdog => if w.started then {w with runs := w.runs.map (watchRow settings w)} else w
  | .resolve runId => {w with runs := w.runs.map fun row =>
      if row.runId = runId ∧ row.status = .recoveryRequired then {row with status := .failed}
      else row}
  | .cleanup runIds => {w with runs := w.runs.filter fun row =>
      ¬ (row.status.isTerminal ∧ row.runId ∈ runIds)}
  | .reboot scan =>
    -- the pipelines of the old service end with it
    {now := w.now,runs := if scan then w.runs.map (scanRow w) else w.runs,begun := w.begun,
     ended := w.live.map Pipeline.runId ++ w.ended}

def run (settings : Settings) (steps : List Step) (w : World) : World :=
  steps.foldl (step settings) w

end Step

end LocalBook.Scheduler
