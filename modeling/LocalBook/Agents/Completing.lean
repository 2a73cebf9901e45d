import LocalBook.Agents.Expecting

/-! How a job that is accepted in parts comes to its end. Whether anything remains is asked of the
selection of each acceptance alone, not of everything that has been executed so far. -/
namespace LocalBook.Agents.AgentJobService

open Effect Vault Recovery Policies

section Closing

variable [Runtime] (s : AgentJobService)

omit [Runtime] in
/-- `reject`. -/
def reject (job : Job) : Sys Job := do
  Proc.raiseIf (job.record.status ≠ .awaitingConfirmation)
    (jobStateConflict "job is not awaiting confirmation")
  Proc.raiseIf (job.record.executedActions ≠ [])
    (jobStateConflict "cannot reject a job that already executed actions")
  let record ← History.finish job.record .rejected none
  pure {record,policy := job.policy}

omit [Runtime] in
/-- The checks of `undo`. -/
def admitUndo (job : Job) (confirm : Bool) : Except Exc Unit :=
  if confirm = false then
    .error (m7 .confirmationRequired "Explicit confirmation is required".toList)
  else if job.record.status = .undone then
    .error (m7 .undoUnavailable "job has already been undone".toList)
  else if job.record.status ≠ .committed then
    .error (m7 .undoUnavailable "only committed jobs can be undone".toList)
  else .ok ()

omit [Runtime] in
/-- `_finish_undo`: the job that is kept, and the paths that are restored. -/
def finishUndo (record : HistoryRecord) (result : Recovery.RecoveryResult) :
    Sys (Job × List Text) :=
  match result.status with
  | .undone => do
    let updated ← History.finish record .undone none
    pure ({record := updated,policy := none},result.restored)
  | .undoUnavailable => Proc.throw (m7 .undoUnavailable
      ((orElse result.error (some "undo is unavailable".toList)).getD []))
  | _ => Proc.throw (m7 .undoConflict
      ((orElse result.error (some "files changed since the job ran".toList)).getD [])
      {jobId := some record.jobId,conflictPaths := result.conflictPaths})

/-- `undo`. -/
def undo (job : Job) (confirm : Bool) : Sys (Job × List Text) := do
  Proc.ofExcept (admitUndo job confirm)
  let result ← s.recovery.undoService.undo job.record.jobId
  finishUndo job.record result

end Closing

section Stepping

variable [Runtime] {s : AgentJobService} {jobId : Text} {request : JobRequest}
variable {planned : Except Exc (List Action)} {w u : World} {job last : Job}
variable {actionIds : List Text}

def proposedIds (job : Job) : List Text := job.record.proposedActions.map Action.actionId

def executedIds (job : Job) : List Text := job.record.executedActions.map Action.actionId

/-- The action is selected; no ids at all stand for every action. -/
def Selects (actionIds : List Text) (actionId : Text) : Prop :=
  actionIds = [] ∨ actionId ∈ actionIds

omit [Runtime] in
theorem validated_ids [Host] {actions valid : List Action}
    (checked : actions.mapM Action.modelValidate = .ok valid) :
    valid.map Action.actionId = actions.map Action.actionId := by
  have each := validated_each checked
  clear checked
  induction each with
  | nil => rfl
  | cons first _ ih => simp [(modelValidate_kept first).2,ih]

omit [Runtime] in
theorem stored_ids [Host] {proposed : List Action}
    (stored : actionsFromRecord job.record = .ok proposed) :
    proposed.map Action.actionId = proposedIds job := by
  unfold actionsFromRecord at stored
  split at stored
  next valid validated =>
    obtain rfl := Except.ok.inj stored
    exact validated_ids validated
  · cases stored

omit [Runtime] in
theorem mem_selected {proposed selected : List Action}
    (chosen : selectActions proposed actionIds jobId = .ok selected) (actionId : Text) :
    actionId ∈ selected.map Action.actionId ↔
      actionId ∈ proposed.map Action.actionId ∧ Selects actionIds actionId := by
  unfold selectActions at chosen
  split at chosen
  next unnamed =>
    obtain rfl := Except.ok.inj chosen
    simp [Selects,unnamed]
  next named =>
    split at chosen
    · obtain rfl := Except.ok.inj chosen
      simp only [List.mem_map,List.mem_filter,decide_eq_true_eq,Selects,named,false_or]
      constructor
      · rintro ⟨action,⟨listed,asked⟩,rfl⟩
        exact ⟨⟨action,listed,rfl⟩,asked⟩
      · rintro ⟨⟨action,listed,rfl⟩,asked⟩
        exact ⟨action,⟨listed,asked⟩,rfl⟩
    · cases chosen

structure Accepting (job last : Job) (actionIds : List Text) : Prop where
  awaiting : job.record.status = .awaitingConfirmation
  proposed : proposedIds last = proposedIds job
  executed : ∀ actionId,actionId ∈ executedIds last ↔
    actionId ∈ executedIds job ∨ actionId ∈ proposedIds job ∧ Selects actionIds actionId
  committed : last.record.status = .committed ↔
    ∀ actionId ∈ proposedIds job,Selects actionIds actionId

theorem accepting_executeLocked
    (ran : run SysOp.step (s.executeLocked job true actionIds) w = (.ok last,u)) :
    Accepting job last actionIds := by
  obtain ⟨review,v,v',looked,committing⟩ := committed_of_executeLocked ran
  simp only [AgentJobService.review,eval_bind_eq_ok,eval_ofExcept,eval_raiseIf,
    eval_pure] at looked
  obtain ⟨_,_,_,waiting,proposed,stored,selected,chosen,preflight,_,_,_,_,_,_,_,_,_,same⟩ := looked
  obtain rfl := Except.ok.inj same
  have awaiting : job.record.status = .awaitingConfirmation := by
    by_contra other
    simp [other] at waiting
  obtain ⟨again,_,restored,saved⟩ := run_bind_eq_ok SysOp.step committing
  obtain ⟨_,_,_,kept⟩ := run_bind_eq_ok SysOp.step saved
  obtain rfl := Except.ok.inj (Prod.mk.inj kept).1
  have both : proposed = again :=
    Except.ok.inj (stored.symm.trans (Prod.mk.inj restored).1)
  subst both
  have named := mem_selected chosen
  rw [stored_ids stored] at named
  refine ⟨awaiting,rfl,fun actionId => ?_,?_⟩
  · rw [executedIds,committedRecord,List.map_append,List.mem_append,named]
    rfl
  · rw [← stored_ids stored] at named ⊢
    have nothing : (proposed.filter fun action =>
        action.actionId ∉ selected.map Action.actionId) = [] ↔
          ∀ actionId ∈ proposed.map Action.actionId,Selects actionIds actionId := by
      simp only [List.filter_eq_nil_iff,decide_eq_true_eq,Classical.not_not,List.forall_mem_map]
      refine forall₂_congr fun action listed => ?_
      rw [named]
      exact and_iff_right (List.mem_map.mpr ⟨action,listed,rfl⟩)
    rw [← nothing]
    simp only [committedRecord]
    split
    next finished => simpa using finished
    next left => simpa using left

theorem accepting_accept
    (ran : run SysOp.step (s.accept job true actionIds) w = (.ok last,u)) :
    Accepting job last actionIds := by
  obtain ⟨_,_,_,executed⟩ := run_bind_eq_ok SysOp.step ran
  exact accepting_executeLocked executed

end Stepping

section Accepts

variable [Runtime] {s : AgentJobService} {jobId : Text} {request : JobRequest}
variable {planned : Except Exc (List Action)} {w u : World} {job last : Job}
variable {selections : List (List Text)}

/-- A run of successful acceptances with their selections; in between the Vault and the database
may have become anything. -/
inductive Accepts (s : AgentJobService) (job : Job) : List (List Text) → Job → Prop where
  | planned : Accepts s job [] job
  | accepted {selections : List (List Text)} {mid last : Job} {actionIds : List Text} {w u : World}
    (earlier : Accepts s job selections mid)
    (ran : run SysOp.step (s.accept mid true actionIds) w = (.ok last,u)) :
    Accepts s job (selections ++ [actionIds]) last

/-- The selections together name every proposed action. -/
def Exhausts (job : Job) (selections : List (List Text)) : Prop :=
  ∀ actionId ∈ proposedIds job,∃ actionIds ∈ selections,Selects actionIds actionId

/-- The last selection alone names every proposed action. -/
def LastExhausts (job : Job) (selections : List (List Text)) : Prop :=
  ∃ actionIds,selections.getLast? = some actionIds ∧
    ∀ actionId ∈ proposedIds job,Selects actionIds actionId

structure Fresh (job : Job) : Prop where
  proposed : proposedIds job ≠ []
  awaiting : job.record.status = .awaitingConfirmation
  executed : executedIds job = []

structure Progress (job last : Job) (selections : List (List Text)) : Prop where
  proposed : proposedIds last = proposedIds job
  executed : ∀ actionId ∈ proposedIds job,actionId ∈ executedIds last ↔
    ∃ actionIds ∈ selections,Selects actionIds actionId
  committed : last.record.status = .committed ↔ LastExhausts job selections

theorem Accepts.progress (accepts : Accepts s job selections last) (fresh : Fresh job) :
    Progress job last selections := by
  induction accepts with
  | planned =>
    refine ⟨rfl,?_,?_⟩
    · simp [fresh.executed]
    · simp [fresh.awaiting,LastExhausts]
  | @accepted selections mid last actionIds w u earlier ran ih =>
    have accepting := accepting_accept ran
    refine ⟨accepting.proposed.trans ih.proposed,?_,?_⟩
    · intro actionId listed
      rw [accepting.executed,ih.executed actionId listed,ih.proposed]
      simp [listed]
    · rw [accepting.committed,ih.proposed,LastExhausts]
      simp

/-- A committed job is not accepted again. -/
theorem Accepts.of_committed (accepts : Accepts s job selections last)
    (committed : job.record.status = .committed) : selections = [] ∧ last = job := by
  induction accepts with
  | planned => exact ⟨rfl,rfl⟩
  | accepted earlier ran ih =>
    have waiting := (accepting_accept ran).awaiting
    rw [ih.2,committed] at waiting
    cases waiting

theorem fresh_of_plan
    (made : run SysOp.step (s.plan jobId request planned) w = (.ok job,u)) :
    proposedIds job ≠ [] ∧ (Fresh job ∨ job.record.status = .committed) := by
  obtain ⟨preflight,prepared,passed,_⟩ := (previewed_of_plan made).made
  obtain ⟨nonempty,_,_⟩ := evaluateSet_passed (preflight_lengths prepared) passed
  have proposed : proposedIds job ≠ [] := by simpa [proposedIds] using nonempty
  refine ⟨proposed,?_⟩
  obtain ⟨first,recorded,rfl | ⟨v,executed⟩⟩ := recorded_of_plan made
  · exact .inl ⟨proposed,recorded.awaiting,by simp [executedIds,recorded.executed]⟩
  · exact .inr ((accepting_executeLocked executed).committed.mpr fun _ listed => .inr listed)

/-- Every proposed action has been executed. -/
def AllExecuted (job : Job) : Prop := ∀ actionId ∈ proposedIds job,actionId ∈ executedIds job

/-- A job whose actions have all been executed, and which nothing can close. -/
structure Stuck (s : AgentJobService) (job : Job) (w : World) : Prop where
  executed : AllExecuted job
  awaiting : job.record.status = .awaitingConfirmation
  accept : ∀ actionIds closed u,run SysOp.step (s.accept job true actionIds) w = (.ok closed,u) →
    closed.record.status ≠ .committed
  reject : ∀ closed u,run SysOp.step (reject job) w ≠ (.ok closed,u)
  undo : ∀ closed u,run SysOp.step (s.undo job true) w ≠ (.ok closed,u)

structure Completes (s : AgentJobService) (job : Job) : Prop where
  committed : AllExecuted job → job.record.status = .committed
  undoable : AllExecuted job → admitUndo job true = .ok ()
  unstuck : ∀ w,¬ Stuck s job w

omit [Runtime] in
theorem admitUndo_committed (committed : job.record.status = .committed) :
    admitUndo job true = .ok () := by
  simp [admitUndo,committed]

theorem completes_of_committed (committed : AllExecuted job → job.record.status = .committed) :
    Completes s job := by
  refine ⟨committed,fun executed => admitUndo_committed (committed executed),fun w stuck => ?_⟩
  have closed := committed stuck.executed
  rw [stuck.awaiting] at closed
  cases closed

/-- For every planned job and every run of successful acceptances: it completes exactly when the
selections leave something out or the last of them alone names everything. -/
theorem completes_iff
    (made : run SysOp.step (s.plan jobId request planned) w = (.ok job,u))
    (accepts : Accepts s job selections last) :
    Completes s last ↔ (Exhausts job selections → LastExhausts job selections) := by
  obtain ⟨nonempty,fresh | committed⟩ := fresh_of_plan made
  · have progress := accepts.progress fresh
    have all : AllExecuted last ↔ Exhausts job selections := by
      rw [AllExecuted,progress.proposed]
      exact forall₂_congr progress.executed
    rw [← all,← progress.committed]
    exact ⟨fun completes => completes.committed,completes_of_committed⟩
  · obtain ⟨rfl,rfl⟩ := accepts.of_committed committed
    constructor
    · intro _ exhausts
      obtain ⟨actionId,listed⟩ := List.exists_mem_of_ne_nil _ nonempty
      obtain ⟨_,selected,_⟩ := exhausts actionId listed
      simp at selected
    · intro _
      exact completes_of_committed fun _ => committed

def acceptEach (s : AgentJobService) : List (List Text) → Except Exc Job × World →
    Except Exc Job × World
  | actionIds :: rest,(.ok job,w) => acceptEach s rest (run SysOp.step (s.accept job true actionIds) w)
  | _,outcome => outcome

theorem Accepts.each {earlier : List (List Text)} {mid : Job}
    (accepts : Accepts s job earlier mid)
    (ended : acceptEach s selections (.ok mid,w) = (.ok last,u)) :
    Accepts s job (earlier ++ selections) last := by
  induction selections generalizing earlier mid w with
  | nil =>
    obtain rfl := Except.ok.inj (Prod.mk.inj ended).1
    simpa using accepts
  | cons actionIds rest ih =>
    rw [acceptEach] at ended
    cases ran : run SysOp.step (s.accept mid true actionIds) w with
    | mk outcome v =>
      rw [ran] at ended
      cases outcome with
      | error reason =>
        cases rest <;> cases (Prod.mk.inj ended).1
      | ok next =>
        have later := ih (.accepted accepts ran) ended
        simpa using later

end Accepts

section Parts

open scoped AsciiRuntime

def twoNotes : World where
  disk := (Disk.bare.setTree ["a.md".toList] (some (.file helloData))).setTree
    ["b.md".toList] (some (.file helloData))
  db := Db.empty

def twoMoves : JobRequest := {
  actions := [{moveOf (sha256Bytes helloData) with targetFile := some "c.md".toList},{
    moveOf (sha256Bytes helloData) with
    actionId := "b".toList,file := "b.md".toList,targetFile := some "d.md".toList}]}

def plannedMoves : Except Exc Job × World :=
  run SysOp.step (moving.plan "j".toList twoMoves (.ok [])) twoNotes

theorem accepts_of_planned {outcome : Except Exc Job × World} {selections : List (List Text)}
    {status : JobStatus} {ids : List Text}
    (ended : ((acceptEach moving selections outcome).1.toOption.map fun last =>
      (last.record.status,proposedIds last,executedIds last)) = some (status,ids,ids)) :
    ∃ job u last,outcome = (.ok job,u) ∧ Accepts moving job selections last ∧
      last.record.status = status ∧ AllExecuted last := by
  obtain ⟨reason | job,u⟩ := outcome
  · cases selections <;> cases ended
  · cases ran : acceptEach moving selections (.ok job,u) with
    | mk outcome v =>
      rw [ran] at ended
      cases outcome with
      | error reason => cases ended
      | ok last =>
        obtain ⟨rfl,proposed,executed⟩ : last.record.status = status ∧ proposedIds last = ids ∧
            executedIds last = ids := by simpa [Except.toOption] using ended
        refine ⟨job,u,last,rfl,?_,rfl,?_⟩
        · have accepts := Accepts.each .planned ran
          simpa using accepts
        · intro actionId listed
          rwa [executed,← proposed]

/-- Both moves are accepted, one after the other, and the job goes on waiting. -/
theorem parts_waiting : ¬ ∀ (s : AgentJobService) (jobId : Text) (request : JobRequest)
    (w u : World) (job last : Job) (selections : List (List Text)),
    run SysOp.step (s.plan jobId request (.ok [])) w = (.ok job,u) →
    Accepts s job selections last → Completes s last := by
  intro completes
  have ended : ((acceptEach moving [["a".toList],["b".toList]] plannedMoves).1.toOption.map
      fun last => (last.record.status,proposedIds last,executedIds last)) =
        some (.awaitingConfirmation,["a".toList,"b".toList],["a".toList,"b".toList]) := by
    decide +kernel
  obtain ⟨job,u,last,made,accepts,waiting,executed⟩ := accepts_of_planned ended
  have committed := (completes _ _ _ _ _ _ _ _ made accepts).committed executed
  rw [waiting] at committed
  cases committed

/-- Both moves are accepted at once. -/
theorem whole_completes : ∃ (job last : Job) (u : World),
    run SysOp.step (moving.plan "j".toList twoMoves (.ok [])) twoNotes = (.ok job,u) ∧
    Accepts moving job [[]] last ∧ AllExecuted last ∧ Completes moving last := by
  have ended : ((acceptEach moving [[]] plannedMoves).1.toOption.map fun last =>
      (last.record.status,proposedIds last,executedIds last)) =
        some (.committed,["a".toList,"b".toList],["a".toList,"b".toList]) := by decide +kernel
  obtain ⟨job,u,last,made,accepts,_,executed⟩ := accepts_of_planned ended
  exact ⟨job,last,u,made,accepts,executed,(completes_iff made accepts).mpr fun _ =>
    ⟨[],rfl,fun _ _ => .inl rfl⟩⟩

end Parts

end LocalBook.Agents.AgentJobService
