import LocalBook.Agents.Service
import LocalBook.Scheduler.Service

/-! The runner of the daily and the weekly job: it plans through the agent service and, when
everything about the plan is low-risk, accepts it at once. The texts it reports are left out. -/
namespace LocalBook.Runner

open Effect Policies Agents
open Scheduler (RunStatus)

inductive AgentTask where
  | dailyOrganizer
  | weeklyReview
deriving Repr,DecidableEq

def AgentTask.taskType : AgentTask → TaskType
  | .dailyOrganizer => .dailyOrganizer
  | .weeklyReview => .weeklyReview

inductive RunErrorCode where
  | m7 (code : M7ErrorCode)
  | schedulerUnavailable
  | policyDenied
  | transactionFailed
deriving Repr,DecidableEq

/-- The result of one handler; `detail` is the job as it is left. -/
structure RunOutcome where
  status : RunStatus
  agentJobId : Option Text := none
  policy : Option PolicyView := none
  errorCode : Option RunErrorCode := none
  detail : Option Job := none
deriving DecidableEq

structure JobRunner where
  agentService : Option AgentJobService
  level2AutoEnabled : Bool
  level2AutoActions : List ActionType
  defaultScope : JobScope
  tagsOnly : ∀ kind ∈ level2AutoActions, kind ∈ autoActions

/-- `JobRunner.__init__`. -/
def JobRunner.init (agentService : Option AgentJobService) (level2AutoEnabled : Bool)
    (level2AutoActions : List ActionType) (defaultScope : Option JobScope) : JobRunner where
  agentService
  level2AutoEnabled
  level2AutoActions := level2AutoActions.filter (· ∈ autoActions)
  defaultScope := defaultScope.getD {}
  tagsOnly := fun _ found => by simpa using (List.mem_filter.mp found).2

/-- How a run is triggered: the scope of a manual request, none when it is absent or does not
pass its validators, and its wish for level 2, none when the configuration decides. -/
structure Trigger where
  task : AgentTask
  scope : Option JobScope := none
  requestAutoLevel2 : Option Bool := none

def failure (jobId : Option Text) (policy : Option PolicyView) (unexpected : RunErrorCode)
    (reason : Exc) : RunOutcome :=
  let errorCode := match reason with
    | .m7 error => RunErrorCode.m7 error.code
    | _ => unexpected
  {status := .failed,agentJobId := jobId,policy,errorCode := some errorCode}

def refusedView : Exc → Option PolicyView
  | .m7 error => if error.extra.rules = [] then none else some ⟨.deny,error.extra.rules⟩
  | _ => none

/-- `exc.meta.get("job_id")`. -/
def refusedJob : Exc → Option Text
  | .m7 error => error.extra.jobId
  | _ => none

namespace JobRunner

variable (runner : JobRunner)

def level2 (trigger : Trigger) : Bool :=
  runner.level2AutoEnabled && !runner.level2AutoActions.isEmpty &&
    trigger.requestAutoLevel2.getD true

def request (trigger : Trigger) : JobRequest where
  taskType := trigger.task.taskType
  permissionLevel := if runner.level2 trigger then 2 else 1
  scope := trigger.scope.getD runner.defaultScope
  actions := []
  execute := false

/-- `_whitelist_ok`. -/
def whitelistOk (job : Job) : Bool :=
  !runner.level2AutoActions.isEmpty && !job.record.proposedActions.isEmpty &&
    job.record.proposedActions.all fun action => action.action ∈ runner.level2AutoActions

def judge (trigger : Trigger) : Except Exc Job → RunOutcome ⊕ Job
  | .error reason => .inl (failure (refusedJob reason) (refusedView reason)
      .schedulerUnavailable reason)
  | .ok job =>
    let ended (status : RunStatus) (errorCode : Option RunErrorCode) : RunOutcome :=
      {status,agentJobId := some job.record.jobId,policy := job.policy,errorCode}
    if !runner.level2 trigger then .inl {ended .previewed none with detail := some job}
    else if job.policy.map PolicyView.decision ≠ some .allow then
      .inl (ended .failed (some .policyDenied))
    else if !runner.whitelistOk job then .inl (ended .failed (some .policyDenied))
    else .inr job

/-- What the runner makes of an acceptance. -/
def accepted (job : Job) : Except Exc Job → RunOutcome
  | .error reason => failure (some job.record.jobId) job.policy .transactionFailed reason
  | .ok committed => {
      status := .committed,agentJobId := some job.record.jobId,policy := job.policy
      detail := some committed}

/-- A run, with the worlds before and after its last part. Others may change the world, the
Vault with it, between the planning and the acceptance. -/
structure Run where
  outcome : RunOutcome
  before : World
  after : World

variable [Runtime]

/-- `_run_agent_task`, with what the planner answers and what others do in between. -/
def run (trigger : Trigger) (jobId : Text) (planned : Except Exc (List Action))
    (meanwhile : World → World) (w : World) : Run :=
  match runner.agentService with
  | none => ⟨{status := .failed,errorCode := some .schedulerUnavailable},w,w⟩
  | some service =>
    let (plan,next) := Effect.run SysOp.step (service.plan jobId (runner.request trigger) planned) w
    match runner.judge trigger plan with
    | .inl outcome => ⟨outcome,w,next⟩
    | .inr job =>
      let between := meanwhile next
      let (result,last) := Effect.run SysOp.step (service.accept job true []) between
      ⟨accepted job result,between,last⟩

end JobRunner

end LocalBook.Runner
