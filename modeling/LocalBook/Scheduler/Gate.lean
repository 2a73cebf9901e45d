import LocalBook.Scheduler.Service

/-! The gate looks at the last row of a task only. Whether runs are begun one after the
other depends on what that row says of the runs before it. -/
namespace LocalBook.Scheduler

variable {settings : Settings} {w : World} {task : Task} {kind : Trigger} {runId skipId : Text}

/-- No pipeline of the task was under way when the run was begun and, unless a retry asked for
it, no earlier run of the task was marked for recovery. -/
def Begin.Legitimate (b : Begin) : Prop :=
  b.underWay = false ∧ (b.bypass = true ∨ b.unrecovered = false)

/-- Every run was begun legitimately, and each task has one pipeline under way at most. -/
structure GateHeld (w : World) : Prop where
  begun : ∀ b ∈ w.begun, b.Legitimate
  single : ∀ task, w.live.countP (fun pipeline => pipeline.task = task) ≤ 1

def UnderWay (w : World) (task : Task) : Prop := ∃ pipeline ∈ w.live, pipeline.task = task

def Unrecovered (w : World) (task : Task) : Prop :=
  ∃ row ∈ w.runs, row.task = task ∧ row.status = .recoveryRequired

def Blocks (settings : Settings) (w : World) (row : Run) : Prop :=
  row.status.isActive = true ∧ w.now - row.startedAt ≤ settings.staleRunAfter

/-- The service is up, so that a trigger reaches the gate. -/
def Reaches (settings : Settings) (w : World) : Prop :=
  w.reconfiguring = false ∧ settings.enabled = true ∧ w.started = true

/-- The gate sees what it should see: while a pipeline of the task is under way, the last row
of the task is a young active one. A trigger that is no retry also finds no stale row last,
and, while a run of the task is marked for recovery, a row that blocks it. -/
def Sees (settings : Settings) (w : World) (task : Task) (kind : Trigger) : Prop :=
  match lastRun w.runs task with
  | none => ¬ UnderWay w task ∧ (kind.bypasses = false → ¬ Unrecovered w task)
  | some last =>
    if kind.bypasses then UnderWay w task → Blocks settings w last
    else if last.status = .recoveryRequired then True
    else (last.status.isActive = true → Blocks settings w last) ∧
      (UnderWay w task ∨ Unrecovered w task → Blocks settings w last)

namespace Step

def Conforms (settings : Settings) (w : World) : Step → Prop
  | .trigger task kind runId skipId =>
    Fresh w runId ∧ Fresh w skipId → Reaches settings w → Sees settings w task kind
  | _ => True

def Conforming (settings : Settings) : List Step → World → Prop
  | [],_ => True
  | s :: rest,w => Conforms settings w s ∧ Conforming settings rest (step settings w s)

end Step

section Gate

theorem mem_of_lastRun {runs : List Run} {last : Run} (found : lastRun runs task = some last) :
    last ∈ runs ∧ last.task = task := by
  have member := List.mem_of_mem_head? found
  rw [List.mem_insertionSort] at member
  obtain ⟨stored,same⟩ := List.mem_filter.mp member
  exact ⟨stored,of_decide_eq_true same⟩

theorem underWay_iff : (w.live.any fun pipeline => pipeline.task = task) = true ↔
    UnderWay w task := by
  simp [UnderWay,List.any_eq_true]

theorem unrecovered_iff {runs : List Run} :
    (runs.any fun row => row.task = task && row.status = .recoveryRequired) = true ↔
      ∃ row ∈ runs, row.task = task ∧ row.status = .recoveryRequired := by
  simp [List.any_eq_true]

theorem legitimate_beginOf {runs : List Run} : (beginOf w runs task kind).Legitimate ↔
    ¬ UnderWay w task ∧ (kind.bypasses = false →
      ¬ ∃ row ∈ runs, row.task = task ∧ row.status = .recoveryRequired) := by
  rw [Begin.Legitimate,beginOf,← underWay_iff,← unrecovered_iff]
  dsimp only
  cases kind.bypasses <;> simp

theorem not_active_of_recovery {row : Run} (marked : row.status = .recoveryRequired) :
    ¬ Blocks settings w row := by
  rintro ⟨active,-⟩
  rw [marked] at active
  cases active

theorem unrecovered_of_supersede {last : Run} (member : last ∈ w.runs) (own : last.task = task)
    (agentJobId : Option Text) (errorCode message : Option String) (finishedAt : Option Nat) :
    ∃ row ∈ updateStatus w.runs last.runId .recoveryRequired agentJobId errorCode message
      finishedAt, row.task = task ∧ row.status = .recoveryRequired := by
  refine ⟨_,List.mem_map_of_mem member,?_,?_⟩
  · rw [if_pos rfl]
    exact own
  · rw [if_pos rfl]

/-- A trigger that reaches the gate is skipped, or begins a run; that is legitimate exactly
when the gate sees what it should. -/
theorem gate_spec (task : Task) (kind : Trigger) :
    (∃ refusal errorCode message,
      gate settings w.now kind (lastRun w.runs task) = .skip refusal errorCode message ∧
        Sees settings w task kind) ∨
    (gate settings w.now kind (lastRun w.runs task) = .pass ∧
      (Sees settings w task kind ↔ (beginOf w w.runs task kind).Legitimate)) ∨
    ∃ stale, gate settings w.now kind (lastRun w.runs task) = .supersede stale ∧
      (Sees settings w task kind ↔ (beginOf w (updateStatus w.runs stale .recoveryRequired none
        (some "process_interrupted") (some "stale run superseded at startup/trigger") none)
        task kind).Legitimate) := by
  unfold Sees gate
  cases found : lastRun w.runs task with
  | none =>
    refine .inr (.inl ⟨rfl,?_⟩)
    rw [legitimate_beginOf]
    rfl
  | some last =>
    obtain ⟨member,own⟩ := mem_of_lastRun found
    dsimp only
    by_cases marked : last.status = .recoveryRequired
    · have open_ := @not_active_of_recovery settings w last marked
      cases retry : kind.bypasses with
      | true =>
        refine .inr (.inl ⟨by simp [marked],?_⟩)
        rw [legitimate_beginOf]
        simp [retry,open_]
      | false => exact .inl ⟨_,_,_,by simp [marked]; exact ⟨rfl,rfl,rfl⟩,by simp [marked]⟩
    · rw [if_neg marked,if_neg marked]
      by_cases active : last.status.isActive = true
      · rw [if_pos active]
        by_cases stale : settings.staleRunAfter < w.now - last.startedAt
        · have old : ¬ Blocks settings w last := fun blocks => absurd blocks.2 (not_le.mpr stale)
          refine .inr (.inr ⟨last.runId,if_pos stale,?_⟩)
          have flagged := @unrecovered_of_supersede w task last member own none
            (some "process_interrupted") (some "stale run superseded at startup/trigger") none
          rw [legitimate_beginOf]
          cases retry : kind.bypasses with
          | true => simp [old]
          | false => simp [old,active,flagged]
        · have young : Blocks settings w last := ⟨active,not_lt.mp stale⟩
          refine .inl ⟨_,_,_,if_neg stale,?_⟩
          split
          · exact fun _ => young
          · exact ⟨fun _ => young,fun _ => young⟩
      · have open_ : ¬ Blocks settings w last := fun blocks => active blocks.1
        rw [if_neg active]
        refine .inr (.inl ⟨rfl,?_⟩)
        rw [legitimate_beginOf]
        cases retry : kind.bypasses with
        | true => simp [open_]
        | false => simp [open_,active,Unrecovered]

end Gate

section Steps

theorem countP_without {p : Pipeline → Bool} {pipelines : List Pipeline} {pipeline : Pipeline}
    (member : pipeline ∈ pipelines) (named : pipeline.runId = runId) :
    (Step.without runId pipelines).countP p + (if p pipeline then 1 else 0) ≤
      pipelines.countP p := by
  induction pipelines with
  | nil => cases member
  | cons first rest ih =>
    have shorter : (Step.without runId rest).countP p ≤ rest.countP p :=
      List.filter_sublist.countP_le
    rcases List.mem_cons.mp member with rfl | later
    · rw [Step.without,List.filter_cons_of_neg (by simp [named]),List.countP_cons]
      exact Nat.add_le_add_right shorter _
    · have here := ih later
      rw [Step.without,List.filter_cons] at *
      split
      · rw [List.countP_cons,List.countP_cons]
        omega
      · rw [List.countP_cons]
        exact here.trans (Nat.le_add_right _ _)

/-- A step that begins no run: the pipelines under way become fewer at most. -/
structure Quiet (w w' : World) : Prop where
  begun : w'.begun = w.begun
  fewer : ∀ task, w'.live.countP (fun pipeline => pipeline.task = task) ≤
    w.live.countP (fun pipeline => pipeline.task = task)

theorem Quiet.of_same {w' : World} (begun : w'.begun = w.begun) (waiting : w'.waiting = w.waiting)
    (executing : w'.executing = w.executing) : Quiet w w' :=
  ⟨begun,fun task => by rw [World.live,World.live,waiting,executing]⟩

theorem quiet_executing (runs : List Run) (active : Dict Text Task) (ended : List Text) :
    Quiet w {w with runs,active,ended,executing := Step.without runId w.executing} := by
  refine ⟨rfl,fun task => ?_⟩
  rw [World.live,World.live,List.countP_append,List.countP_append]
  exact Nat.add_le_add_left List.filter_sublist.countP_le _

theorem quiet_submit {pipeline : Pipeline}
    (found : w.waiting.find? (fun pipeline => pipeline.runId = runId) = some pipeline) :
    Quiet w {w with waiting := Step.without runId w.waiting,
                    executing := w.executing ++ [pipeline]} := by
  have member := List.mem_of_find?_eq_some found
  have named := List.find?_some found
  refine ⟨rfl,fun task => ?_⟩
  have moved := @countP_without runId (fun pipeline => pipeline.task = task) _ _ member
    (of_decide_eq_true named)
  simp only [World.live,List.countP_append,List.countP_cons,List.countP_nil]
  omega

theorem step_cases (settings : Settings) (w : World) (s : Step) :
    (Quiet w (Step.step settings w s) ∧ Step.Conforms settings w s) ∨
    ∃ task kind runId skipId runs, s = .trigger task kind runId skipId ∧
      Step.step settings w s = register w runs task kind runId ∧
      (Step.Conforms settings w s ↔ (beginOf w runs task kind).Legitimate) := by
  cases s with
  | trigger task kind runId skipId =>
    rw [Step.step]
    split
    · rename_i fresh
      rw [beginRun]
      by_cases paused : w.reconfiguring = true
      · rw [if_pos paused]
        exact .inl ⟨.of_same rfl rfl rfl,fun _ reaches => by simp [reaches.1] at paused⟩
      · rw [if_neg paused]
        by_cases enabled : settings.enabled = true
        · rw [if_neg (by simp [enabled])]
          by_cases started : w.started = true
          · rw [if_neg (by simp [started])]
            have reaches : Reaches settings w := ⟨Bool.eq_false_iff.mpr paused,enabled,started⟩
            have seen : Step.Conforms settings w (.trigger task kind runId skipId) ↔
                Sees settings w task kind :=
              ⟨fun conforms => conforms fresh reaches,fun sees _ _ => sees⟩
            rcases @gate_spec settings w task kind with
              ⟨refusal,errorCode,message,skipped,sees⟩ | ⟨passed,iff⟩ | ⟨stale,old,iff⟩
            · rw [skipped]
              exact .inl ⟨.of_same rfl rfl rfl,seen.mpr sees⟩
            · rw [passed]
              exact .inr ⟨task,kind,runId,skipId,w.runs,rfl,rfl,seen.trans iff⟩
            · rw [old]
              exact .inr ⟨task,kind,runId,skipId,_,rfl,rfl,seen.trans iff⟩
          · rw [if_pos (by simpa using started)]
            exact .inl ⟨.of_same rfl rfl rfl,fun _ reaches => absurd reaches.2.2 started⟩
        · rw [if_pos (by simpa using enabled)]
          exact .inl ⟨.of_same rfl rfl rfl,fun _ reaches => absurd reaches.2.1 enabled⟩
    · rename_i stale
      exact .inl ⟨.of_same rfl rfl rfl,fun fresh => absurd fresh stale⟩
  | submit runId =>
    refine .inl ⟨?_,trivial⟩
    rw [Step.step]
    cases found : w.waiting.find? fun pipeline => pipeline.runId = runId with
    | none => exact .of_same rfl rfl rfl
    | some pipeline =>
      dsimp only
      split
      · exact quiet_submit found
      · refine ⟨rfl,fun task => ?_⟩
        rw [World.live,World.live,List.countP_append,List.countP_append]
        exact Nat.add_le_add_right List.filter_sublist.countP_le _
  | finish runId outcome =>
    refine .inl ⟨?_,trivial⟩
    rw [Step.step]
    split
    · exact quiet_executing _ _ _
    · exact .of_same rfl rfl rfl
  | cancel runId =>
    refine .inl ⟨?_,trivial⟩
    rw [Step.step]
    split
    · exact quiet_executing _ _ _
    · exact .of_same rfl rfl rfl
  | reboot scan => exact .inl ⟨⟨rfl,fun task => by simp [Step.step,World.live]⟩,trivial⟩
  | pause =>
    refine .inl ⟨?_,trivial⟩
    rw [Step.step,pauseForReconfigure]
    split <;> exact .of_same rfl rfl rfl
  | tick seconds => exact .inl ⟨.of_same rfl rfl rfl,trivial⟩
  | workerUp => exact .inl ⟨.of_same rfl rfl rfl,trivial⟩
  | resume => exact .inl ⟨.of_same rfl rfl rfl,trivial⟩
  | resolve runId => exact .inl ⟨.of_same rfl rfl rfl,trivial⟩
  | cleanup runIds => exact .inl ⟨.of_same rfl rfl rfl,trivial⟩
  | start | stop | stopWorker | stopMark | timeOut | watchdog =>
    refine .inl ⟨?_,trivial⟩
    rw [Step.step]
    split <;> exact .of_same rfl rfl rfl

theorem gateHeld_step (s : Step) (single : GateHeld w ∨ ¬ ∀ b ∈ w.begun, b.Legitimate) :
    GateHeld (Step.step settings w s) ↔ GateHeld w ∧ Step.Conforms settings w s := by
  rcases step_cases settings w s with ⟨quiet,conforms⟩ | ⟨task,kind,runId,skipId,runs,-,begins,iff⟩
  · rw [and_iff_left conforms]
    constructor
    · intro held
      exact single.resolve_right (not_not.mpr (quiet.begun ▸ held.begun))
    · intro held
      exact ⟨quiet.begun.symm ▸ held.begun,fun task => (quiet.fewer task).trans (held.single task)⟩
  · rw [begins,iff]
    constructor
    · intro held
      obtain ⟨legitimate,before⟩ := List.forall_mem_cons.mp held.begun
      exact ⟨single.resolve_right (not_not.mpr before),legitimate⟩
    · rintro ⟨held,legitimate⟩
      refine ⟨List.forall_mem_cons.mpr ⟨legitimate,held.begun⟩,fun other => ?_⟩
      have before := held.single other
      rw [World.live,List.countP_append] at before
      simp only [World.live,register,List.countP_append,List.countP_cons,List.countP_nil]
      by_cases same : task = other
      · have none_ : w.live.countP (fun pipeline => pipeline.task = task) = 0 := by
          refine List.countP_eq_zero.mpr fun pipeline member found => ?_
          have idle := (legitimate_beginOf.mp legitimate).1
          exact idle ⟨pipeline,member,of_decide_eq_true found⟩
        rw [World.live,List.countP_append,same] at none_
        simp only [same,decide_true,if_true]
        omega
      · simp only [same,decide_false,Bool.false_eq_true,if_false]
        omega

theorem begun_step (s : Step) (broken : ¬ ∀ b ∈ w.begun, b.Legitimate) :
    ¬ ∀ b ∈ (Step.step settings w s).begun, b.Legitimate := by
  rcases step_cases settings w s with ⟨quiet,-⟩ | ⟨task,kind,runId,skipId,runs,-,begins,-⟩
  · rw [quiet.begun]
    exact broken
  · rw [begins]
    exact fun all => broken (List.forall_mem_cons.mp all).2

theorem gateHeld_run {steps : List Step}
    (single : GateHeld w ∨ ¬ ∀ b ∈ w.begun, b.Legitimate) :
    GateHeld (Step.run settings steps w) ↔ GateHeld w ∧ Step.Conforming settings steps w := by
  induction steps generalizing w with
  | nil => exact (and_iff_left trivial).symm
  | cons s rest ih =>
    have step := @gateHeld_step settings w s single
    have next : GateHeld (Step.step settings w s) ∨
        ¬ ∀ b ∈ (Step.step settings w s).begun, b.Legitimate := by
      rcases single with held | broken
      · by_cases conforms : Step.Conforms settings w s
        · exact .inl (step.mpr ⟨held,conforms⟩)
        · rcases step_cases settings w s with ⟨-,fine⟩ | ⟨task,kind,runId,skipId,runs,-,begins,iff⟩
          · exact absurd fine conforms
          · rw [begins]
            exact .inr fun all => conforms (iff.mpr (List.forall_mem_cons.mp all).1)
      · exact .inr (begun_step s broken)
    rw [Step.run,List.foldl_cons,Step.Conforming,← and_assoc,← step]
    exact ih next

/-- Over every run of the service: runs of a task are begun one after the other, and none past
an unrecovered one, exactly when at each trigger the last row of its task shows what is under
way or unrecovered. -/
theorem gateHeld_iff (settings : Settings) (steps : List Step) :
    GateHeld (Step.run settings steps {}) ↔ Step.Conforming settings steps {} :=
  (gateHeld_run (.inl ⟨by simp,by simp [World.live]⟩)).trans
    (and_iff_right ⟨by simp,by simp [World.live]⟩)

end Steps

def triggeredThrice : List Step :=
  [.start,.workerUp,
   .trigger .weeklyReview (.manual false false) "1".toList "2".toList,.submit "1".toList,.tick 1,
   .trigger .weeklyReview (.manual false false) "3".toList "4".toList,.tick 1,
   .trigger .weeklyReview (.manual false false) "5".toList "6".toList]

theorem triggeredThrice_not_gateHeld : ¬ GateHeld (Step.run {} triggeredThrice {}) := by
  intro held
  have both := held.single .weeklyReview
  exact absurd both (by decide +kernel)

end LocalBook.Scheduler
