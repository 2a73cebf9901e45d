import LocalBook.Recovery.Executing
import LocalBook.Scheduler.Runner

/-! What a run of the daily or the weekly job does to the Vault: it plans without a write, and
what it accepts by itself are tag actions that the policy allows. -/
namespace LocalBook.Agents

open Effect Vault Recovery Policies

namespace AgentJobService

section Reading

variable [Host] {s : AgentJobService} {d : Disk} {action : Action} {item : Prepared}

omit [Host] in
theorem eval_tryRead {path digest : Text} {data : Bytes}
    (read : eval ReadOp.answer (s.tryRead path) d = .ok (data,some digest)) :
    eval ReadOp.answer (s.vault.readBytes path) d = .ok (data,digest) := by
  rw [tryRead,eval_andThen] at read
  cases found : eval ReadOp.answer (s.vault.readBytes path) d with
  | error reason => simp [found] at read
  | ok content => simpa [found,Prod.ext_iff] using read

structure Retagging (before after : Text) : Prop where
  tagsOnly : Patches.tagsOnlyChange before after = true
  body : Patches.bodyOf before <:+ after

theorem patched_tags {facts judged : ActionFacts} {data after : Bytes} {before : Text}
    (kind : action.action = .addTags ∨ action.action = .removeTags)
    (made : eval ReadOp.answer (s.patched action facts data before) d = .ok (judged,after))
    (kept : judged.bodyChange = false) :
    ∃ text, after = encodeUtf8 text ∧ Retagging before text := by
  rcases kind with kind | kind
  · simp only [patched,kind,eval_bind_eq_ok,eval_ofExcept] at made
    obtain ⟨text,patch,same⟩ := made
    obtain ⟨rfl,rfl⟩ := Prod.mk.inj (Except.ok.inj same)
    refine ⟨text,rfl,by simpa using kept,?_⟩
    cases added : Patches.addTags before action.tags with
    | error message => simp [added,supported] at patch
    | ok written =>
      obtain rfl : written = text := by simpa [added,supported] using patch
      exact Patches.addTags_body added
  · simp only [patched,kind,eval_bind_eq_ok,eval_ofExcept] at made
    obtain ⟨text,patch,same⟩ := made
    obtain ⟨rfl,rfl⟩ := Prod.mk.inj (Except.ok.inj same)
    refine ⟨text,rfl,by simpa using kept,?_⟩
    cases removed : Patches.removeTags before action.tags with
    | error message => simp [removed,supported] at patch
    | ok written =>
      obtain rfl : written = text := by simpa [removed,supported] using patch
      exact Patches.removeTags_body removed

/-- What is prepared for a tag action that leaves the body alone. -/
theorem preflightOne_tags (kind : action.action ∈ autoActions)
    (prepared : eval ReadOp.answer (s.preflightOne action) d = .ok item)
    (existing : item.facts.existing = true) (markdown : item.facts.markdown = true)
    (kept : item.facts.bodyChange = false) :
    ∃ before after, isMarkdown action.file = true ∧ Retagging before after ∧
      d.tree.FileAt (relativeParts action.file) (encodeUtf8 before) ∧
      item.operation = some (Step.update action.file (encodeUtf8 before)
        (encodeUtf8 after)).operation := by
  have tags : action.action = .addTags ∨ action.action = .removeTags := by
    simpa [autoActions] using kind
  simp only [preflightOne,eval_bind_eq_ok] at prepared
  obtain ⟨⟨data,digest⟩,read,rest⟩ := prepared
  obtain ⟨⟨judged,operation⟩,made,same⟩ : ∃ pair, eval ReadOp.answer (s.preflightUpdate action {
      existing := digest.isSome
      isProtected := s.guarded action.file || s.guarded (action.targetFile.getD []) ||
        s.guarded (action.linkTarget.getD [])
      markdown := isMarkdown action.file
      attachment := !isMarkdown action.file} data digest) d = .ok pair ∧
      (Except.ok ⟨action,pair.1,pair.2⟩ : Except Exc Prepared) = .ok item := by
    rcases tags with kind | kind <;> simpa only [kind,eval_bind_eq_ok,eval_pure] using rest
  obtain rfl := Except.ok.inj same
  have unlinked : action.action ≠ .addLink := by
    rcases tags with kind | kind <;> simp [kind]
  simp only [preflightUpdate,if_neg unlinked] at made
  cases digest with
  | none =>
    obtain ⟨rfl,rfl⟩ := Prod.mk.inj (Except.ok.inj made)
    cases existing
  | some digest =>
    cases marked : isMarkdown action.file with
    | false =>
      simp only [marked,Bool.not_false,Bool.or_true,if_true] at made
      obtain ⟨rfl,rfl⟩ := Prod.mk.inj (Except.ok.inj made)
      cases markdown
    | true =>
      simp only [marked,Option.isSome_some,Bool.not_true,Bool.or_self,Bool.false_eq_true,
        if_false] at made
      cases decoded : decodeUtf8 data with
      | none => simp [decoded] at made
      | some before =>
        simp only [decoded,eval_bind_eq_ok] at made
        obtain ⟨⟨facts,after⟩,patch,same⟩ := made
        obtain ⟨rfl,rfl⟩ := Prod.mk.inj (Except.ok.inj same)
        obtain ⟨text,rfl,retagging⟩ := patched_tags tags patch kept
        obtain rfl := encodeUtf8_of_decodeUtf8 decoded
        obtain ⟨_,file,_,rfl⟩ := eval_readBytes.mp (eval_tryRead read)
        exact ⟨before,text,rfl,retagging,file,rfl⟩

theorem preflightOne_action (prepared : eval ReadOp.answer (s.preflightOne action) d = .ok item) :
    item.action = action := by
  simp only [preflightOne,eval_bind_eq_ok] at prepared
  obtain ⟨⟨data,digest⟩,_,rest⟩ := prepared
  cases kind : action.action <;>
    simp only [kind,eval_bind_eq_ok,eval_pure] at rest <;>
    obtain ⟨_,_,same⟩ := rest <;>
    rw [← Except.ok.inj same]

theorem preflightEach_each {actions : List Action} {items : List Prepared}
    (prepared : eval ReadOp.answer (s.preflightEach actions) d = .ok items) :
    items.map Prepared.action = actions ∧
      ∀ item ∈ items, eval ReadOp.answer (s.preflightOne item.action) d = .ok item := by
  induction actions generalizing items with
  | nil =>
    obtain rfl := Except.ok.inj prepared
    simp
  | cons action rest ih =>
    simp only [preflightEach,eval_bind_eq_ok,eval_pure] at prepared
    obtain ⟨first,one,later,more,same⟩ := prepared
    obtain rfl := Except.ok.inj same
    obtain ⟨actions,each⟩ := ih more
    have named := preflightOne_action one
    refine ⟨by simp [named,actions],fun item found => ?_⟩
    rcases List.mem_cons.mp found with rfl | found
    · rw [named]
      exact one
    · exact each item found

def counted (files : Nat) (item : Prepared) : Prepared :=
  {item with facts := {item.facts with fileCount := files}}

theorem preflight_each {actions : List Action} {preflight : Preflight}
    (prepared : eval ReadOp.answer (s.preflight actions) d = .ok preflight) :
    ∃ items : List Prepared, preflight.prepared = items.map (counted (distinctFiles actions).length) ∧
      items.map Prepared.action = actions ∧
      ∀ item ∈ items, eval ReadOp.answer (s.preflightOne item.action) d = .ok item := by
  simp only [AgentJobService.preflight,eval_bind_eq_ok,eval_pure] at prepared
  obtain ⟨items,each,same⟩ := prepared
  obtain rfl := Except.ok.inj same
  exact ⟨items,rfl,preflightEach_each each⟩

theorem preflight_lengths {actions : List Action} {preflight : Preflight}
    (prepared : eval ReadOp.answer (s.preflight actions) d = .ok preflight) :
    preflight.facts.length = actions.length := by
  obtain ⟨items,same,rfl,_⟩ := preflight_each prepared
  simp [Preflight.facts,same]

omit [Host] in
theorem one_path (action : Action) : 1 ≤ (mutatedPaths action).length := by
  unfold mutatedPaths
  split <;> simp

omit [Host] in
theorem length_le_distinctFiles {actions : List Action}
    (apart : (actions.flatMap mutatedPaths).Nodup) :
    actions.length ≤ (distinctFiles actions).length := by
  rw [distinctFiles,List.dedup_eq_self.mpr apart]
  clear apart
  induction actions with
  | nil => simp
  | cons action rest ih =>
    have one := one_path action
    simp only [List.flatMap_cons,List.length_append,List.length_cons]
    omega

/-- The set a preflight was made for, once the policy has let it pass at level 2, is a single
action when it is short or when the policy allows one file. -/
theorem single_of_passed {actions : List Action} {preflight : Preflight}
    (prepared : eval ReadOp.answer (s.preflight actions) d = .ok preflight)
    (passed : (s.policy.evaluateSet actions preflight.facts 2).decision ≠ .deny)
    (few : s.policy.level2MaxFiles ≤ 1 ∨ actions.length ≤ 1) :
    ∃ action item, actions = [action] ∧
      eval ReadOp.answer (s.preflightOne action) d = .ok item ∧
      preflight.prepared = [counted (distinctFiles actions).length item] ∧
      Automatic s.policy action (counted (distinctFiles actions).length item).facts := by
  have lengths := preflight_lengths prepared
  obtain ⟨nonempty,apart,_⟩ := evaluateSet_passed lengths passed
  have automatic := (evaluateSet_automatic lengths passed).2
  obtain ⟨items,same,named,each⟩ := preflight_each prepared
  have pairs : actions.zip preflight.facts = items.map fun item =>
      (item.action,(counted (distinctFiles actions).length item).facts) := by
    rw [Preflight.facts,same,← named]
    simp [List.zip_map',Function.comp_def]
  have short : actions.length ≤ 1 := by
    rcases few with narrow | short
    · have many := length_le_distinctFiles apart
      cases items with
      | nil => exact absurd named.symm nonempty
      | cons item rest =>
        have fits := (automatic _ (by rw [pairs]; exact List.mem_cons_self)).files
        exact many.trans (fits.trans narrow)
    · exact short
  cases items with
  | nil => exact absurd named.symm nonempty
  | cons item rest =>
    have alone : rest = [] := by
      rw [← named] at short
      simpa using short
    subst alone
    refine ⟨item.action,item,by simpa using named.symm,each item (by simp),same,?_⟩
    exact automatic _ (by rw [pairs]; exact List.mem_cons_self)

theorem modelValidate_kept {action valid : Action} (checked : action.modelValidate = .ok valid) :
    valid.action = action.action ∧ valid.actionId = action.actionId := by
  simp only [Action.modelValidate,bind,Except.bind,pure,Except.pure] at checked
  repeat' split at checked
  all_goals first
    | exact Except.ok.inj checked ▸ ⟨rfl,rfl⟩
    | cases checked

/-- Validating a list validates each of its actions. -/
theorem validated_each {actions valid : List Action}
    (checked : actions.mapM Action.modelValidate = .ok valid) :
    List.Forall₂ (fun action kept => action.modelValidate = .ok kept) actions valid := by
  induction actions generalizing valid with
  | nil =>
    obtain rfl := Except.ok.inj checked
    exact .nil
  | cons action rest ih =>
    rw [List.mapM_cons] at checked
    cases first : action.modelValidate with
    | error reason => simp [first,bind,Except.bind] at checked
    | ok kept =>
      cases later : rest.mapM Action.modelValidate with
      | error reason => simp [first,later,bind,Except.bind] at checked
      | ok others =>
        obtain rfl : kept :: others = valid := by
          simpa [first,later,bind,Except.bind,pure,Except.pure] using checked
        exact .cons first (ih later)

theorem validated_kinds {proposed selected : List Action}
    (checked : proposed.mapM Action.modelValidate = .ok selected) :
    selected.map Action.action = proposed.map Action.action := by
  have each := validated_each checked
  clear checked
  induction each with
  | nil => rfl
  | cons first _ ih => simp [(modelValidate_kept first).1,ih]

/-- What a review of a level-2 job comes to when it names one file. -/
structure Reviewed (d : Disk) (job : Job) (review : Review) : Prop where
  stored : actionsFromRecord job.record = .ok review.selected
  kinds : review.selected.map Action.action = job.record.proposedActions.map Action.action
  single : review.selected ≠ []
  allowed : review.result.decision = .allow
  carried : ∃ path before after, isMarkdown path = true ∧ Retagging before after ∧
    d.tree.FileAt (relativeParts path) (encodeUtf8 before) ∧
    review.operations = [(Step.update path (encodeUtf8 before) (encodeUtf8 after)).operation]

theorem eval_review {job : Job} {review : Review}
    (ended : eval ReadOp.answer (s.review job true []) d = .ok review)
    (level : job.record.permissionLevel = 2)
    (few : s.policy.level2MaxFiles ≤ 1 ∨ job.record.proposedActions.length ≤ 1) :
    Reviewed d job review := by
  simp only [AgentJobService.review,eval_bind_eq_ok,eval_ofExcept,eval_pure] at ended
  obtain ⟨_,_,_,_,proposed,stored,selected,chosen,preflight,prepared,_,_,_,undenied,_,_,_,_,same⟩ :=
    ended
  obtain rfl := Except.ok.inj same
  obtain rfl : proposed = selected := Except.ok.inj chosen
  have kinds : proposed.map Action.action = job.record.proposedActions.map Action.action := by
    unfold actionsFromRecord at stored
    split at stored
    next valid checked =>
      obtain rfl := Except.ok.inj stored
      exact validated_kinds checked
    · cases stored
  have passed : (s.policy.evaluateSet proposed preflight.facts 2).decision ≠ .deny := by
    intro denied
    simp [level,denied] at undenied
  have short : s.policy.level2MaxFiles ≤ 1 ∨ proposed.length ≤ 1 := by
    have lengths : proposed.length = job.record.proposedActions.length := by
      simpa using congrArg List.length kinds
    rwa [lengths]
  obtain ⟨action,item,rfl,one,only,automatic⟩ := single_of_passed prepared passed short
  obtain ⟨before,after,markdown,retagging,file,operation⟩ := preflightOne_tags
    (s.policy.tagsOnly _ automatic.configured) one automatic.existing automatic.markdown
    automatic.bodyKept
  refine ⟨stored,kinds,by simp,?_,action.file,before,after,markdown,retagging,file,?_⟩
  · rw [level]
    exact (evaluateSet_automatic (preflight_lengths prepared) passed).1
  · simp [Preflight.operations,only,counted,operation]

def Retagged (d e : Disk) : Prop :=
  ∃ path before after, isMarkdown path = true ∧ Retagging before after ∧
    d.tree.FileAt (relativeParts path) (encodeUtf8 before) ∧
    e = d.setTree (relativeParts path) (some (.file (encodeUtf8 after)))

structure Accepted (job committed : Job) (d e : Disk) : Prop where
  executed : ∃ selected, committed.record.executedActions = job.record.executedActions ++ selected ∧
    selected ≠ [] ∧ selected.map Action.action = job.record.proposedActions.map Action.action
  allowed : committed.policy.map PolicyView.decision = some .allow
  changed : Retagged d e

end Reading

section Accepting

variable [Runtime] (s : AgentJobService)

/-- A transaction of one step is carried out, or it ends in a conflict and writes nothing. -/
theorem run_execute_single (x : TransactionExecutor) (jobId : Text) (step : Step) (w : World) :
    (∃ u, run SysOp.step (x.execute jobId [step.operation]) w =
      (.ok {jobId,status := .committed},u) ∧ u.disk = step.done w.disk) ∨
    ∃ result u, run SysOp.step (x.execute jobId [step.operation]) w = (.ok result,u) ∧
      result.status = .conflict ∧ u.disk = w.disk := by
  simp only [TransactionExecutor.execute,TransactionExecutor.steps,run_bind,run_andThen]
  by_cases admitted : step.Admitted x jobId 0 w
  · refine .inl ⟨{step.ran jobId 0 w with
      db := (step.ran jobId 0 w).db.setJournalState jobId .applied},?_,rfl⟩
    rw [Step.run_step admitted]
    rfl
  · obtain ⟨reason,u,refused,same⟩ : ∃ reason u,
        run SysOp.step (x.step jobId 0 0 step.operation) w = (.error reason,u) ∧
          (u = w ∨ u = step.recorded jobId 0 w) := Step.run_step_refused admitted
    refine .inr ⟨{
      jobId,status := .conflict
      error := some ("conflict before any write: ".toList ++ reason.safeMessage)},
      {u with db := u.db.setJournalState jobId .pending},?_,rfl,?_⟩
    · rw [refused]
      rfl
    · rcases same with rfl | rfl <;> rfl

omit [Runtime] in
theorem run_commit [Host] {record : HistoryRecord} {review : Review}
    (stored : actionsFromRecord record = .ok review.selected) (w : World) :
    ∃ committed u, run SysOp.step (commit record review) w = (.ok committed,u) ∧
      u.disk = w.disk ∧
      committed.record.executedActions = record.executedActions ++ review.selected ∧
      committed.policy.map PolicyView.decision = some review.result.decision := by
  simp only [commit,run_bind,run_ofExcept,stored,History.run_save,run_pure]
  exact ⟨_,_,rfl,rfl,rfl,rfl⟩

/-- An acceptance of a level-2 job that names one file either raises and leaves the Vault as
it is, or it rewrites one note. -/
theorem run_accept {job : Job} (level : job.record.permissionLevel = 2)
    (few : s.policy.level2MaxFiles ≤ 1 ∨ job.record.proposedActions.length ≤ 1) (w : World) :
    ∃ result u, run SysOp.step (s.accept job true []) w = (result,u) ∧ match result with
      | .error _ => u.disk = w.disk
      | .ok committed => Accepted job committed w.disk u.disk := by
  simp only [accept,executeLocked,run_bind,run_raiseIf,run_liftLookSys,Bool.true_eq_false,if_false]
  cases reviewed : eval ReadOp.answer (s.review job true []) w.disk with
  | error reason => exact ⟨_,_,rfl,rfl⟩
  | ok review =>
    obtain ⟨stored,kinds,single,allowed,path,before,after,markdown,retagging,file,operations⟩ :=
      eval_review reviewed level few
    simp only [operations,History.run_save]
    rcases run_execute_single s.recovery.executor job.record.jobId
        (.update path (encodeUtf8 before) (encodeUtf8 after))
        {w with db := w.db.save {job.record with status := .executing}} with
      ⟨u,ended,changed⟩ | ⟨result,u,ended,conflict,same⟩
    · obtain ⟨committed,v,kept,same,executed,policy⟩ := run_commit stored u
      simp only [ended,kept]
      refine ⟨_,_,rfl,⟨_,executed,single,kinds⟩,by rw [policy,allowed],?_⟩
      exact ⟨path,before,after,markdown,retagging,file,same.trans changed⟩
    · simp only [ended,conflict]
      exact ⟨_,_,rfl,same⟩

structure Planned (request : JobRequest) (planned : Except Exc (List Action)) (job : Job) :
    Prop where
  level : job.record.permissionLevel = request.permissionLevel
  pending : job.record.executedActions = []
  proposed : ∃ actions, planned = .ok actions ∧
    job.record.proposedActions = actions.map (stamp request.permissionLevel) ∧
    (actions.flatMap mutatedPaths).Nodup

omit [Runtime] in
theorem run_recordJob (jobId : Text) (request : JobRequest) (actions : List Action)
    (preflight : Preflight) (status : JobStatus) (w : World) :
    ∃ result u, run SysOp.step (recordJob jobId request actions preflight status) w =
        (result,u) ∧ u.disk = w.disk ∧
      ∀ record, result = .ok record → record.permissionLevel = request.permissionLevel ∧
        record.executedActions = [] ∧ record.proposedActions = actions := by
  simp only [recordJob,run_bind,run_raiseIf]
  split_ifs
  · refine ⟨_,_,rfl,rfl,fun record same => ?_⟩
    obtain rfl := Except.ok.inj same
    exact ⟨rfl,rfl,rfl⟩
  · exact ⟨_,_,rfl,rfl,fun _ made => by cases made⟩

omit [Runtime] in
theorem requestedActions_planned {request : JobRequest} {planned : Except Exc (List Action)}
    {actions : List Action} (bare : request.actions = [])
    (requested : requestedActions request planned = .ok actions) :
    ∃ proposed, planned = .ok proposed ∧
      actions = proposed.map (stamp request.permissionLevel) := by
  simp only [requestedActions,bare,ne_eq,not_true_eq_false,if_false] at requested
  split at requested
  · cases requested
  · cases planned with
    | error reason => simp [Except.map] at requested
    | ok proposed => exact ⟨proposed,rfl,(Except.ok.inj requested).symm⟩

/-- Planning writes nothing to the Vault. -/
theorem run_plan (jobId : Text) {request : JobRequest} (planned : Except Exc (List Action))
    (preview : request.execute = false) (bare : request.actions = []) (w : World) :
    ∃ result u, run SysOp.step (s.plan jobId request planned) w = (result,u) ∧
      u.disk = w.disk ∧ ∀ job, result = .ok job → Planned request planned job := by
  simp only [plan,run_bind,run_ofExcept]
  cases requested : requestedActions request planned with
  | error reason => exact ⟨_,_,rfl,rfl,fun _ made => by cases made⟩
  | ok actions =>
    dsimp only
    cases assertScopePaths request.scope actions with
    | error reason => exact ⟨_,_,rfl,rfl,fun _ made => by cases made⟩
    | ok _ =>
      simp only [run_liftLookSys]
      cases prepared : eval ReadOp.answer (s.preflight actions) w.disk with
      | error reason => exact ⟨_,_,rfl,rfl,fun _ made => by cases made⟩
      | ok preflight =>
        dsimp only
        cases noReadFailures preflight with
        | error reason => exact ⟨_,_,rfl,rfl,fun _ made => by cases made⟩
        | ok _ =>
          simp only [run_raiseIf]
          by_cases denied : (s.policy.evaluateSet actions preflight.facts
              request.permissionLevel).decision = .deny
          · simp only [denied,if_true]
            exact ⟨_,_,rfl,rfl,fun _ made => by cases made⟩
          · simp only [denied,if_false]
            obtain ⟨result,u,recorded,same,stored⟩ := run_recordJob jobId request actions
              preflight .awaitingConfirmation w
            simp only [recorded]
            cases result with
            | error reason => exact ⟨_,_,rfl,same,fun _ made => by cases made⟩
            | ok record =>
              simp only [preview,Bool.false_and,Bool.false_eq_true,if_false,run_pure]
              refine ⟨_,_,rfl,same,fun job same => ?_⟩
              obtain rfl := Except.ok.inj same
              obtain ⟨level,pending,rfl⟩ := stored record rfl
              have apart := (evaluateSet_passed (preflight_lengths prepared) denied).2.1
              obtain ⟨proposed,answer,stamped⟩ := requestedActions_planned bare requested
              refine ⟨level,pending,proposed,answer,stamped,?_⟩
              rw [stamped,List.flatMap_map] at apart
              exact apart

end Accepting

end AgentJobService

end LocalBook.Agents

namespace LocalBook.Runner

open Effect Vault Policies Agents

/-- What a run of the daily or the weekly job may come to: it is previewed or fails and leaves
the Vault as it was, or with level 2 switched on it carries out whitelisted tag actions that the
policy allows, and rewrites one Markdown note without its body. -/
inductive Confined [Host] (runner : JobRunner) (run : JobRunner.Run) : Prop where
  | unchanged (ended : run.outcome.status = .previewed ∨ run.outcome.status = .failed)
    (same : run.after.disk = run.before.disk)
  | retagged (job : Job) (ended : run.outcome.status = .committed)
    (enabled : runner.level2AutoEnabled = true) (detail : run.outcome.detail = some job)
    (executed : job.record.executedActions ≠ [] ∧
      ∀ action ∈ job.record.executedActions, action.action ∈ runner.level2AutoActions)
    (allowed : job.policy.map PolicyView.decision = some .allow)
    (changed : AgentJobService.Retagged run.before.disk run.after.disk)

/-- A run at level 2 whose plan is all in the whitelist is held to one file by the policy, or
its plan names no second one. -/
def OneFile (runner : JobRunner) (trigger : Trigger) (planned : Except Exc (List Action)) : Prop :=
  ∀ service ∈ runner.agentService, ∀ actions, planned = .ok actions →
    runner.level2 trigger = true → (∀ action ∈ actions, action.action ∈ runner.level2AutoActions) →
    service.policy.level2MaxFiles ≤ 1 ∨ (distinctFiles actions).length ≤ 1

section Confining

variable [Runtime] {runner : JobRunner} {trigger : Trigger} {jobId : Text}
variable {planned : Except Exc (List Action)} {meanwhile : World → World} {w : World}

omit [Runtime] in
/-- What the runner goes on to accept. -/
theorem judge_accepts {plan : Except Exc Job} {job : Job}
    (accepts : runner.judge trigger plan = .inr job) :
    plan = .ok job ∧ runner.level2 trigger = true ∧ runner.whitelistOk job = true := by
  cases plan with
  | error reason => cases accepts
  | ok planned =>
    unfold JobRunner.judge at accepts
    dsimp only at accepts
    split_ifs at accepts with preview refused outside
    obtain rfl := Sum.inr.inj accepts
    exact ⟨rfl,by simpa using preview,by simpa using outside⟩

omit [Runtime] in
/-- What it does not accept ends previewed or failed. -/
theorem judge_ends {plan : Except Exc Job} {outcome : RunOutcome}
    (ends : runner.judge trigger plan = .inl outcome) :
    outcome.status = .previewed ∨ outcome.status = .failed := by
  cases plan with
  | error reason =>
    obtain rfl := Sum.inl.inj ends
    exact .inr rfl
  | ok planned =>
    unfold JobRunner.judge at ends
    dsimp only at ends
    split_ifs at ends
    · obtain rfl := Sum.inl.inj ends
      exact .inl rfl
    · obtain rfl := Sum.inl.inj ends
      exact .inr rfl
    · obtain rfl := Sum.inl.inj ends
      exact .inr rfl

theorem confined_of_oneFile (one : OneFile runner trigger planned) :
    Confined runner (runner.run trigger jobId planned meanwhile w) := by
  unfold JobRunner.run
  cases attached : runner.agentService with
  | none => exact .unchanged (.inr rfl) rfl
  | some service =>
    have bare : (runner.request trigger).actions = [] := rfl
    obtain ⟨plan,next,ended,same,made⟩ :=
      AgentJobService.run_plan service jobId planned rfl bare w
    simp only [ended]
    cases judged : runner.judge trigger plan with
    | inl outcome => exact .unchanged (judge_ends judged) same
    | inr job =>
      obtain ⟨rfl,enabled,whitelisted⟩ := judge_accepts judged
      obtain ⟨level,pending,actions,answer,proposed,apart⟩ := made job rfl
      have two : job.record.permissionLevel = 2 := by simp [level,JobRunner.request,enabled]
      have within : ∀ kind ∈ job.record.proposedActions.map Action.action,
          kind ∈ runner.level2AutoActions := by
        simp only [JobRunner.whitelistOk,Bool.and_eq_true,List.all_eq_true] at whitelisted
        simpa using whitelisted.2
      have kept : ∀ action ∈ actions, action.action ∈ runner.level2AutoActions := by
        intro action found
        apply within
        rw [proposed,List.map_map]
        exact List.mem_map_of_mem found
      have few : service.policy.level2MaxFiles ≤ 1 ∨ job.record.proposedActions.length ≤ 1 := by
        refine (one service attached actions answer enabled kept).imp_right fun short => ?_
        rw [proposed,List.length_map]
        exact (AgentJobService.length_le_distinctFiles apart).trans short
      obtain ⟨result,last,accepted,outcome⟩ := AgentJobService.run_accept service two few
        (meanwhile next)
      simp only [accepted]
      cases result with
      | error reason => exact .unchanged (.inr rfl) outcome
      | ok committed =>
        obtain ⟨⟨selected,executed,nonempty,kinds⟩,allowed,changed⟩ := outcome
        rw [pending,List.nil_append] at executed
        refine .retagged committed rfl ?_ rfl ⟨by rwa [executed],fun action found => ?_⟩ allowed
          changed
        · simp only [JobRunner.level2,Bool.and_eq_true] at enabled
          exact enabled.1.1
        · rw [executed] at found
          apply within
          rw [← kinds]
          exact List.mem_map_of_mem found

end Confining

section Wide

open scoped AsciiRuntime
open Recovery

def loadsTags : Index.YamlRuntime where
  safeLoad := fun _ => .value (.dict [(.str (Index.PyStr.ofText "tags".toList),.null)])
  str := fun _ => []
  depth := 10

def wideService : AgentJobService where
  vault := ⟨100,hundred_pos⟩
  policy := PolicyEngine.init {level2AutoActions := [.addTags],level2MaxFiles := 2}
  recovery := ⟨⟨100,hundred_pos⟩,100⟩
  frontmatter := loadsTags
  protectedPrefixes := defaultProtectedPrefixes
  maxJournalBytes := 100

def wideRunner : JobRunner := .init (some wideService) true [.addTags] none

def untagged : Bytes := encodeUtf8 "---\ntags:\n---\nbody\n".toList

def twoUntagged : World where
  disk := (Disk.bare.setTree ["a.md".toList] (some (.file untagged))).setTree
    ["b.md".toList] (some (.file untagged))
  db := .empty

def tagging (path : String) : Action where
  actionId := path.toList
  action := .addTags
  file := path.toList
  tags := ["x".toList]

/-- The daily job, for which the planner tags the notes. -/
def dailyRun (paths : List String) : JobRunner.Run :=
  wideRunner.run {task := .dailyOrganizer} "j".toList (.ok (paths.map tagging)) id twoUntagged

theorem dailyRun_confined : (dailyRun ["a.md"]).outcome.status = .committed ∧
    Confined wideRunner (dailyRun ["a.md"]) := by
  refine ⟨by decide +kernel,confined_of_oneFile fun _ _ actions planned _ _ => .inr ?_⟩
  obtain rfl := Except.ok.inj planned
  decide

/-- One run tags both notes. -/
theorem dailyRun_unconfined : ¬ Confined wideRunner (dailyRun ["a.md","b.md"]) := by
  have committed : (dailyRun ["a.md","b.md"]).outcome.status = .committed := by decide +kernel
  intro confined
  cases confined with
  | unchanged ended => simp [committed] at ended
  | retagged job ended enabled detail executed allowed changed =>
    obtain ⟨path,before,after,_,_,_,same⟩ := changed
    have written (name : Path) (differs : (dailyRun ["a.md","b.md"]).after.disk.tree.get name ≠
        (dailyRun ["a.md","b.md"]).before.disk.tree.get name) : name = relativeParts path := by
      by_contra other
      apply differs
      rw [same,Disk.setTree_tree,Vault.Tree.get_set_ne _ _ other]
    have first := written ["a.md".toList] (by decide +kernel)
    have second := written ["b.md".toList] (by decide +kernel)
    exact absurd (first.trans second.symm) (by decide)

end Wide

end LocalBook.Runner
