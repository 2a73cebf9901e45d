import LocalBook.Scheduler.Service

/-! A run is registered before its pipeline is submitted, and unregistered only where the
pipeline ends by itself. The registered runs are the ones under way as long as every
pipeline is submitted, none is cancelled and the service is marked stopped only when idle. -/
namespace LocalBook.Scheduler

variable {settings : Settings} {w w' : World} {runId : Text}

def Registered (w : World) : Prop :=
  ∀ id, (w.active.find id).isSome = true ↔ ∃ pipeline ∈ w.live, pipeline.runId = id

/-- No row of these runs is queued or running. -/
def Settled (runs : List Run) (ended : List Text) : Prop :=
  ∀ row ∈ runs, row.runId ∈ ended → row.status.isActive = false

structure Bookkept (w : World) : Prop where
  active : Registered w
  ended : Settled w.runs w.ended
  pause : w.live = [] → (pauseForReconfigure w).1 = true

def Distinct (w : World) : Prop := (w.live.map Pipeline.runId).Nodup

namespace Step

/-- Pipelines are submitted, none is cancelled, and what ends a service finds none under way
(or its rows are scanned). -/
def Orderly (w : World) : Step → Prop
  | .submit runId =>
    ∀ pipeline, w.waiting.find? (fun pipeline => pipeline.runId = runId) = some pipeline →
      submitted w pipeline = true
  | .cancel runId => ¬ ∃ pipeline ∈ w.executing, pipeline.runId = runId
  | .stopMark => w.marking ≠ 0 → w.live = []
  | .reboot scan => scan = false → Settled w.runs (w.live.map Pipeline.runId)
  | _ => True

def AllOrderly (settings : Settings) : List Step → World → Prop
  | [],_ => True
  | s :: rest,w => Orderly w s ∧ AllOrderly settings rest (step settings w s)

end Step

section Rows

def Settling (change : Run → Run) : Prop :=
  ∀ row, (change row).runId = row.runId ∧
    (row.status.isActive = false → (change row).status.isActive = false)

theorem Settled.map {runs : List Run} {ended : List Text} {change : Run → Run}
    (settled : Settled runs ended) (settling : Settling change) :
    Settled (runs.map change) ended := by
  intro row member finished
  obtain ⟨old,stored,rfl⟩ := List.mem_map.mp member
  rw [(settling old).1] at finished
  exact (settling old).2 (settled old stored finished)

theorem Settled.append {runs : List Run} {ended : List Text} {row : Run}
    (settled : Settled runs ended) (done : row.runId ∈ ended → row.status.isActive = false) :
    Settled (runs ++ [row]) ended := by
  intro other member finished
  rcases List.mem_append.mp member with old | new
  · exact settled other old finished
  · rw [List.mem_singleton.mp new] at finished ⊢
    exact done finished

theorem Settled.updateStatus {runs : List Run} {ended : List Text} {status : RunStatus}
    {agentJobId : Option Text} {errorCode message : Option String} {finishedAt : Option Nat}
    (settled : Settled runs ended) (done : status.isActive = false) :
    Settled (updateStatus runs runId status agentJobId errorCode message finishedAt) ended := by
  refine settled.map fun row => ?_
  split
  · exact ⟨rfl,fun _ => done⟩
  · exact ⟨rfl,id⟩

theorem settled_updateStatus {runs : List Run} {status : RunStatus}
    {agentJobId : Option Text} {errorCode message : Option String} {finishedAt : Option Nat}
    (done : status.isActive = false) :
    Settled (updateStatus runs runId status agentJobId errorCode message finishedAt) [runId] := by
  intro row member own
  obtain ⟨old,-,rfl⟩ := List.mem_map.mp member
  by_cases same : old.runId = runId
  · rw [if_pos same]
    exact done
  · rw [if_neg same] at own
    exact absurd (List.mem_singleton.mp own) same

theorem Settled.both {runs : List Run} {some_ others : List Text} (first : Settled runs some_)
    (second : Settled runs others) : Settled runs (some_ ++ others) := fun row member finished =>
  (List.mem_append.mp finished).elim (first row member) (second row member)

theorem outcome_settled (outcome : RunOutcome) : outcome.status.isActive = false := by
  rcases outcome.settled with same | same | same <;> rw [same] <;> rfl

theorem settled_finalize {ended : List Text} (outcome : RunOutcome)
    (settled : Settled w.runs ended) : Settled (finalize w runId outcome) (runId :: ended) := by
  rw [finalize]
  cases found : w.runs.find? fun row => row.runId = runId with
  | none =>
    intro row member finished
    rcases List.mem_cons.mp finished with same | old
    · have other := List.find?_eq_none.mp found row member
      exact absurd (decide_eq_true same) other
    · exact settled row member old
  | some current =>
    dsimp only
    split
    · exact (settled_updateStatus rfl).both (settled.updateStatus rfl)
    · exact (settled_updateStatus (outcome_settled outcome)).both
        (settled.updateStatus (outcome_settled outcome))

theorem settling_watchRow : Settling (watchRow settings w) := by
  intro row
  rw [watchRow]
  split
  · exact ⟨rfl,id⟩
  · dsimp only
    split
    · exact ⟨rfl,fun _ => rfl⟩
    · split
      · exact ⟨rfl,fun _ => rfl⟩
      · exact ⟨rfl,id⟩

theorem settling_interruptRow : Settling (interruptRow w) := by
  intro row
  rw [interruptRow]
  split
  · exact ⟨rfl,fun _ => rfl⟩
  · exact ⟨rfl,id⟩

theorem scanRow_settled (row : Run) : (scanRow w row).status.isActive = false := by
  rw [scanRow]
  split
  · rfl
  · rename_i idle
    exact Bool.eq_false_iff.mpr idle

end Rows

section Live

theorem nil_of_unregistered {active : Dict Text Task}
    (none_ : ∀ id, (active.find id).isSome = false) : active = [] := by
  cases active with
  | nil => rfl
  | cons entry rest =>
    have here := none_ entry.1
    rw [Dict.find_cons,if_pos rfl] at here
    cases here

theorem pause_of_registered (registered : Registered w) (idle : w.live = []) :
    (pauseForReconfigure w).1 = true := by
  have empty : w.active = [] := nil_of_unregistered fun id => by
    refine Bool.eq_false_iff.mpr fun found => ?_
    obtain ⟨pipeline,member,-⟩ := (registered id).mp found
    rw [idle] at member
    cases member
  rw [pauseForReconfigure,if_neg (not_not.mpr empty)]

theorem bookkept_iff : Bookkept w ↔ Registered w ∧ Settled w.runs w.ended :=
  ⟨fun kept => ⟨kept.active,kept.ended⟩,
    fun ⟨registered,settled⟩ => ⟨registered,settled,pause_of_registered registered⟩⟩

theorem mem_without {pipelines : List Pipeline} {pipeline : Pipeline} :
    pipeline ∈ Step.without runId pipelines ↔ pipeline ∈ pipelines ∧ pipeline.runId ≠ runId := by
  simp [Step.without]

theorem Distinct.apart (distinct : Distinct w) {waits runs : Pipeline} (waiting : waits ∈ w.waiting)
    (executing : runs ∈ w.executing) : waits.runId ≠ runs.runId := by
  rw [Distinct,World.live,List.map_append,List.nodup_append] at distinct
  exact distinct.2.2 _ (List.mem_map_of_mem waiting) _ (List.mem_map_of_mem executing)

theorem not_registered_of_dropped (registered : Registered w) (same : w'.active = w.active)
    {pipeline : Pipeline} (member : pipeline ∈ w.live) (named : pipeline.runId = runId)
    (gone : ∀ other ∈ w'.live, other.runId ≠ runId) : ¬ Registered w' := by
  intro still
  have found := (registered runId).mpr ⟨pipeline,member,named⟩
  rw [← same] at found
  obtain ⟨other,present,own⟩ := (still runId).mp found
  exact gone other present own

end Live

section Steps

/-- What is registered, under way and ended stays, and settled rows stay settled. -/
structure Kept (w w' : World) : Prop where
  active : w'.active = w.active
  waiting : w'.waiting = w.waiting
  executing : w'.executing = w.executing
  ended : w'.ended = w.ended
  settled : ∀ ids, Settled w.runs ids → Settled w'.runs ids

theorem Kept.live (kept : Kept w w') : w'.live = w.live := by
  rw [World.live,World.live,kept.waiting,kept.executing]

theorem Kept.bookkept (kept : Kept w w') (before : Bookkept w) : Bookkept w' := by
  refine bookkept_iff.mpr ⟨fun id => ?_,kept.ended ▸ kept.settled _ before.ended⟩
  rw [kept.active,kept.live]
  exact before.active id

theorem kept_rows {change : Run → Run} (settling : Settling change) :
    Kept w {w with runs := w.runs.map change} :=
  ⟨rfl,rfl,rfl,rfl,fun _ settled => settled.map settling⟩

theorem trigger_cases (task : Task) (kind : Trigger) (runId skipId : Text) :
    Kept w (Step.step settings w (.trigger task kind runId skipId)) ∨
    ∃ runs, Step.Fresh w runId ∧ (∀ ids, Settled w.runs ids → Settled runs ids) ∧
      Step.step settings w (.trigger task kind runId skipId) = register w runs task kind runId := by
  rw [Step.step]
  split
  · rename_i fresh
    rw [beginRun]
    split
    · exact .inl ⟨rfl,rfl,rfl,rfl,fun _ => id⟩
    · split
      · exact .inl ⟨rfl,rfl,rfl,rfl,fun _ => id⟩
      · split
        · exact .inl ⟨rfl,rfl,rfl,rfl,fun _ => id⟩
        · split
          · exact .inl ⟨rfl,rfl,rfl,rfl,fun _ settled => settled.append fun _ => rfl⟩
          · exact .inr ⟨_,fresh.1,fun _ settled => settled.updateStatus rfl,rfl⟩
          · exact .inr ⟨_,fresh.1,fun _ => id,rfl⟩
  · exact .inl ⟨rfl,rfl,rfl,rfl,fun _ => id⟩

theorem live_register {runs : List Run} {task : Task} {kind : Trigger} :
    (register w runs task kind runId).live.Perm ({runId,task,trigger := kind} :: w.live) := by
  simp only [register,World.live,List.append_assoc]
  exact List.perm_middle

theorem bookkept_register {runs : List Run} {task : Task} {kind : Trigger}
    (fresh : Step.Fresh w runId) (rows : ∀ ids, Settled w.runs ids → Settled runs ids)
    (before : Bookkept w) : Bookkept (register w runs task kind runId) := by
  refine bookkept_iff.mpr ⟨fun id => ?_,?_⟩
  · simp only [live_register.mem_iff,List.mem_cons,exists_eq_or_imp]
    rw [← before.active id,register]
    dsimp only
    rw [Dict.find_set]
    by_cases same : id = runId
    · simp [same]
    · rw [if_neg same]
      exact ⟨.inr,fun found => found.resolve_left fun new => same new.symm⟩
  · exact (rows _ before.ended).append fun finished => absurd finished fresh.2.2.2

theorem distinct_register {runs : List Run} {task : Task} {kind : Trigger}
    (fresh : Step.Fresh w runId) (distinct : Distinct w) :
    Distinct (register w runs task kind runId) := by
  refine (live_register.map Pipeline.runId).nodup_iff.mpr
    (List.nodup_cons.mpr ⟨fun member => ?_,distinct⟩)
  obtain ⟨pipeline,present,same⟩ := List.mem_map.mp member
  exact fresh.2.2.1 pipeline present same

theorem bookkept_submit (distinct : Distinct w) (before : Bookkept w) :
    Bookkept (Step.step settings w (.submit runId)) ↔ Step.Orderly w (.submit runId) := by
  rw [Step.step,Step.Orderly]
  cases found : w.waiting.find? fun pipeline => pipeline.runId = runId with
  | none => exact ⟨fun _ _ impossible => (by cases impossible),fun _ => before⟩
  | some pipeline =>
    have member := List.mem_of_find?_eq_some found
    have named : pipeline.runId = runId := by
      simpa using List.find?_some found
    dsimp only
    split
    · rename_i submitted
      refine ⟨fun _ other same => Option.some.inj same ▸ submitted,fun _ => ?_⟩
      refine bookkept_iff.mpr ⟨fun id => ?_,before.ended⟩
      dsimp only
      rw [before.active id]
      constructor
      · rintro ⟨other,present,own⟩
        by_cases same : other.runId = runId
        · exact ⟨pipeline,List.mem_append_right _ (List.mem_append_right _ (List.mem_singleton.mpr rfl)),
            named.trans (same.symm.trans own)⟩
        · refine ⟨other,?_,own⟩
          rcases List.mem_append.mp present with waits | runs
          · exact List.mem_append_left _ (mem_without.mpr ⟨waits,same⟩)
          · exact List.mem_append_right _ (List.mem_append_left _ runs)
      · rintro ⟨other,present,own⟩
        refine ⟨other,?_,own⟩
        rcases List.mem_append.mp present with waits | runs
        · exact List.mem_append_left _ (mem_without.mp waits).1
        · rcases List.mem_append.mp runs with runs | new
          · exact List.mem_append_right _ runs
          · exact List.mem_append_left _ (List.mem_singleton.mp new ▸ member)
    · rename_i refused
      constructor
      · intro after
        refine absurd after.active (not_registered_of_dropped before.active rfl
          (List.mem_append_left _ member) named fun other present => ?_)
        rcases List.mem_append.mp present with waits | runs
        · exact (mem_without.mp waits).2
        · exact fun same => distinct.apart member runs (named.trans same.symm)
      · exact fun orderly => absurd (orderly pipeline rfl) refused

theorem bookkept_finish {outcome : RunOutcome} (distinct : Distinct w) (before : Bookkept w) :
    Bookkept (Step.step settings w (.finish runId outcome)) := by
  rw [Step.step]
  split
  · rename_i ends
    obtain ⟨pipeline,executes,named⟩ := ends
    refine bookkept_iff.mpr ⟨fun id => ?_,settled_finalize outcome before.ended⟩
    dsimp only
    rw [Dict.find_pop]
    split
    · rename_i same
      refine ⟨fun impossible => (by cases impossible),?_⟩
      rintro ⟨other,present,own⟩
      rcases List.mem_append.mp present with waits | runs
      · exact absurd (own.trans (same.trans named.symm)) (distinct.apart waits executes)
      · exact absurd (own.trans same) (mem_without.mp runs).2
    · rename_i other
      rw [before.active id]
      constructor
      · rintro ⟨pipeline,present,own⟩
        refine ⟨pipeline,?_,own⟩
        rcases List.mem_append.mp present with waits | runs
        · exact List.mem_append_left _ waits
        · exact List.mem_append_right _ (mem_without.mpr ⟨runs,own ▸ other⟩)
      · rintro ⟨pipeline,present,own⟩
        refine ⟨pipeline,?_,own⟩
        rcases List.mem_append.mp present with waits | runs
        · exact List.mem_append_left _ waits
        · exact List.mem_append_right _ (mem_without.mp runs).1
  · exact before

theorem bookkept_cancel (distinct : Distinct w) (before : Bookkept w) :
    Bookkept (Step.step settings w (.cancel runId)) ↔ Step.Orderly w (.cancel runId) := by
  rw [Step.step,Step.Orderly]
  split
  · rename_i ends
    refine ⟨fun after => ?_,fun none_ => absurd ends none_⟩
    obtain ⟨pipeline,executes,named⟩ := ends
    refine absurd after.active (not_registered_of_dropped before.active rfl
      (List.mem_append_right _ executes) named fun other present => ?_)
    rcases List.mem_append.mp present with waits | runs
    · exact fun same => distinct.apart waits executes (same.trans named.symm)
    · exact (mem_without.mp runs).2
  · rename_i none_
    exact ⟨fun _ => none_,fun _ => before⟩

theorem bookkept_stopMark (before : Bookkept w) :
    Bookkept (Step.step settings w .stopMark) ↔ Step.Orderly w .stopMark := by
  rw [Step.step,Step.Orderly]
  split
  · rename_i unmarked
    exact ⟨fun _ marking => absurd unmarked marking,fun _ => before⟩
  · rename_i marking
    constructor
    · intro after _
      refine List.eq_nil_iff_forall_not_mem.mpr fun pipeline member => ?_
      have impossible := (after.active pipeline.runId).mpr ⟨pipeline,member,rfl⟩
      cases impossible
    · intro orderly
      refine bookkept_iff.mpr ⟨fun id => ?_,before.ended.map settling_interruptRow⟩
      refine ⟨fun impossible => (by cases impossible),?_⟩
      rintro ⟨pipeline,member,-⟩
      have idle := orderly marking
      rw [World.live] at idle member
      rw [idle] at member
      cases member

theorem bookkept_reboot {scan : Bool} (before : Bookkept w) :
    Bookkept (Step.step settings w (.reboot scan)) ↔ Step.Orderly w (.reboot scan) := by
  rw [Step.step,Step.Orderly,bookkept_iff]
  have empty (runs : List Run) (ended : List Text) :
      Registered {now := w.now,runs,begun := w.begun,ended} := fun id =>
    ⟨fun impossible => (by cases impossible),fun ⟨_,member,_⟩ => (by cases member)⟩
  rw [and_iff_right (empty _ _)]
  dsimp only
  cases scan with
  | true =>
    refine ⟨fun _ impossible => (by cases impossible),fun _ row member _ => ?_⟩
    obtain ⟨old,-,rfl⟩ := List.mem_map.mp member
    exact scanRow_settled old
  | false =>
    refine ⟨fun after _ row member finished => ?_,fun orderly => (orderly rfl).both before.ended⟩
    exact after row member (List.mem_append_left _ finished)

theorem bookkept_step (s : Step) (distinct : Distinct w) (before : Bookkept w) :
    Bookkept (Step.step settings w s) ↔ Step.Orderly w s := by
  have same : Kept w w := ⟨rfl,rfl,rfl,rfl,fun _ => id⟩
  have keep {w' : World} (kept : Kept w w') : Bookkept w' ↔ True :=
    iff_true_intro (kept.bookkept before)
  cases s with
  | trigger task kind runId skipId =>
    rcases @trigger_cases settings w task kind runId skipId with kept | ⟨runs,fresh,rows,begins⟩
    · exact keep kept
    · rw [begins]
      exact iff_true_intro (bookkept_register fresh rows before)
  | submit runId => exact bookkept_submit distinct before
  | finish runId outcome => exact iff_true_intro (bookkept_finish distinct before)
  | cancel runId => exact bookkept_cancel distinct before
  | stopMark => exact bookkept_stopMark before
  | reboot scan => exact bookkept_reboot before
  | tick seconds => exact keep ⟨rfl,rfl,rfl,rfl,fun _ => id⟩
  | workerUp => exact keep ⟨rfl,rfl,rfl,rfl,fun _ => id⟩
  | resume => exact keep ⟨rfl,rfl,rfl,rfl,fun _ => id⟩
  | start | stop | stopWorker =>
    rw [Step.step]
    split <;> exact keep ⟨rfl,rfl,rfl,rfl,fun _ => id⟩
  | pause =>
    rw [Step.step,pauseForReconfigure]
    split <;> exact keep ⟨rfl,rfl,rfl,rfl,fun _ => id⟩
  | timeOut runId =>
    rw [Step.step]
    split
    · exact keep ⟨rfl,rfl,rfl,rfl,fun _ settled => settled.updateStatus rfl⟩
    · exact keep same
  | watchdog =>
    rw [Step.step]
    split
    · exact keep (kept_rows settling_watchRow)
    · exact keep same
  | resolve runId =>
    refine keep (kept_rows fun row => ?_)
    split
    · exact ⟨rfl,fun _ => rfl⟩
    · exact ⟨rfl,id⟩
  | cleanup runIds =>
    exact keep ⟨rfl,rfl,rfl,rfl,fun _ settled row member =>
      settled row (List.mem_filter.mp member).1⟩

theorem distinct_step (s : Step) (distinct : Distinct w) : Distinct (Step.step settings w s) := by
  have fewer {w' : World} (sub : w'.live.Sublist w.live) : Distinct w' :=
    distinct.sublist (sub.map _)
  cases s with
  | trigger task kind runId skipId =>
    rcases @trigger_cases settings w task kind runId skipId with kept | ⟨runs,fresh,-,begins⟩
    · exact fewer (kept.live ▸ .refl _)
    · rw [begins]
      exact distinct_register fresh distinct
  | submit runId =>
    rw [Step.step]
    cases found : w.waiting.find? fun pipeline => pipeline.runId = runId with
    | none => exact distinct
    | some pipeline =>
      dsimp only
      split
      · have rest : ((Step.without runId w.waiting ++ w.executing).map Pipeline.runId).Nodup :=
          distinct.sublist ((List.filter_sublist.append_right _).map _)
        have named : pipeline.runId = runId := by simpa using List.find?_some found
        have member := List.mem_of_find?_eq_some found
        rw [Distinct,World.live,← List.append_assoc,List.map_append]
        refine rest.append (List.nodup_singleton _) ?_
        intro id old new
        obtain ⟨other,present,own⟩ := List.mem_map.mp old
        have same : other.runId = pipeline.runId := own.trans (List.mem_singleton.mp new)
        rcases List.mem_append.mp present with waits | runs
        · exact (mem_without.mp waits).2 (same.trans named)
        · exact distinct.apart member runs same.symm
      · exact fewer (List.filter_sublist.append_right _)
  | finish runId outcome =>
    rw [Step.step]
    split
    · exact fewer (List.filter_sublist.append_left _)
    · exact distinct
  | cancel runId =>
    rw [Step.step]
    split
    · exact fewer (List.filter_sublist.append_left _)
    · exact distinct
  | reboot scan => exact List.nodup_nil
  | pause =>
    rw [Step.step,pauseForReconfigure]
    split <;> exact distinct
  | tick | workerUp | resume | resolve | cleanup => exact distinct
  | start | stop | stopWorker | stopMark | timeOut | watchdog =>
    rw [Step.step]
    split <;> exact distinct

theorem bookkept_run {steps : List Step} (distinct : Distinct w) (before : Bookkept w) :
    (∀ done, done <+: steps → Bookkept (Step.run settings done w)) ↔
      Step.AllOrderly settings steps w := by
  induction steps generalizing w with
  | nil =>
    refine iff_of_true (fun done start => ?_) trivial
    rw [List.prefix_nil.mp start]
    exact before
  | cons s rest ih =>
    rw [Step.AllOrderly,← bookkept_step s distinct before]
    constructor
    · intro throughout
      have here : Bookkept (Step.step settings w s) := throughout [s] ⟨rest,rfl⟩
      refine ⟨here,(ih (distinct_step s distinct) here).mp fun done start => ?_⟩
      exact throughout (s :: done) (List.cons_prefix_cons.mpr ⟨rfl,start⟩)
    · rintro ⟨here,orderly⟩ done start
      rcases List.prefix_cons_iff.mp start with rfl | ⟨later,rfl,within⟩
      · exact before
      · exact (ih (distinct_step s distinct) here).mpr orderly later within

/-- In every state of a run the registered runs are those under way, ended runs have settled
rows and an idle service can be paused, exactly when every pipeline is submitted, none is
cancelled, and the service is stopped or replaced only when what it runs has settled. -/
theorem bookkept_iff_orderly (settings : Settings) (steps : List Step) :
    (∀ done, done <+: steps → Bookkept (Step.run settings done {})) ↔
      Step.AllOrderly settings steps {} := by
  refine bookkept_run List.nodup_nil (bookkept_iff.mpr ⟨fun id => ?_,?_⟩)
  · exact ⟨fun impossible => (by cases impossible),fun ⟨_,member,_⟩ => (by cases member)⟩
  · exact fun _ member => by cases member

end Steps

def triggeredEarly : List Step :=
  [.start,.trigger .weeklyReview (.manual false false) "1".toList "2".toList,.submit "1".toList]

/-- The run is never unregistered, and the service cannot be paused any more. -/
theorem triggeredEarly_not_bookkept : ¬ Bookkept (Step.run {} triggeredEarly {}) := by
  intro kept
  have idle : (Step.run {} triggeredEarly {}).live = [] := by decide +kernel
  exact absurd (kept.pause idle) (by decide +kernel)

end LocalBook.Scheduler
