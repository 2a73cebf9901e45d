import LocalBook.Text

/-! What runs at the same time in one server. Requests are counted in, a transition comes in
alone, and the scheduler keeps a gate of its own for its pipelines. -/
namespace LocalBook.Server

/-- `SettingsError`. -/
structure SettingsError where
  code : String
  message : String
  status : Nat := 409
deriving DecidableEq

/-- The `uuid4().hex` of a session. -/
abbrev SessionId := {text : Text // text ≠ []}

structure Request where
  id : Nat
  session : Option Text
  write : Bool
deriving DecidableEq

/-- What a scheduler knows of its pipelines: those of the registered runs, and those that were
taken off the register and are cleaning up the history. -/
structure SchedulerService where
  reconfiguring : Bool := false
  active : List Nat := []
  cleaning : List Nat := []
deriving DecidableEq

/-- The runtime with the schedulers made so far, the requests inside `request`, and the scheduler
that a transition has built; `running` says that a transition is inside its block. -/
structure Runtime where
  changing : Bool := false
  inFlight : Nat := 0
  revision : Int := 1
  sessionId : SessionId
  scheduler : Option Nat := some 0
  schedulers : Nat → SchedulerService := fun _ => {}
  made : Nat := 1
  requests : List Request := []
  running : Bool := false
  candidate : Option Nat := none

namespace Runtime

variable (s : Runtime)

def setScheduler (k : Nat) (scheduler : SchedulerService) : Runtime :=
  {s with schedulers := Function.update s.schedulers k scheduler}

/-- `if session`: neither absent nor empty. -/
def given (session : Option Text) : Bool := session ≠ none && session ≠ some []

/-- The admission of `request`. -/
def request (request : Request) : Except SettingsError Runtime :=
  if s.changing then
    .error ⟨"workspace_switching","The workspace is switching. Please retry shortly.",503⟩
  else if request.write && !given request.session then
    .error ⟨"vault_session_required","Refresh the workspace before making changes.",428⟩
  else if given request.session && request.session ≠ some s.sessionId.val then
    .error {
      code := "vault_session_changed"
      message := "The vault changed in another page. Your local draft has been preserved."}
  else .ok {s with inFlight := s.inFlight + 1,requests := request :: s.requests}

/-- `request` is left, whatever way. -/
def finish (id : Nat) : Runtime :=
  match s.requests.find? fun request => request.id = id with
  | some request =>
    {s with inFlight := s.inFlight - 1,requests := s.requests.erase request}
  | none => s

/-- `pause_for_reconfigure` of the scheduler; the locks of its tasks are never held. -/
def pauseForReconfigure : Option Runtime :=
  match s.scheduler with
  | none => some s
  | some k =>
    if (s.schedulers k).active ≠ [] then none
    else some (s.setScheduler k {s.schedulers k with reconfiguring := true})

/-- The begin of `transition`. -/
def enter (revision : Int) (session : Option Text) : Except SettingsError Runtime :=
  if s.changing ∨ s.inFlight ≠ 0 then
    .error ⟨"runtime_busy","A request or task is running. Please retry when it finishes.",409⟩
  else if revision ≠ s.revision then
    .error {
      code := "settings_conflict"
      message := "Settings changed in another page. Reload the current settings."}
  else if session ≠ none ∧ session ≠ some s.sessionId.val then
    .error ⟨"vault_session_changed","The active vault has changed. Reload settings.",409⟩
  else
    match s.pauseForReconfigure with
    | none =>
      .error {
        code := "runtime_busy"
        message := "A background task is still running. Please retry when it finishes."}
    | some s => .ok {s with changing := true,running := true}

/-- Inside a transition another scheduler is made, and paused before it starts. -/
def build : Runtime :=
  if s.running then
    {s.setScheduler s.made {reconfiguring := true} with
      made := s.made + 1
      candidate := some s.made}
  else s

/-- Inside a transition the services are swapped; a switch of the Vault brings a new session. -/
def commit (session : Option SessionId) : Runtime :=
  if s.running then
    {s with
      scheduler := s.candidate.or s.scheduler
      sessionId := session.getD s.sessionId
      revision := s.revision + 1
      candidate := none}
  else s

/-- The end of `transition`, whether it raises or not. -/
def leave : Runtime :=
  if s.running then
    let s := {s with changing := false,running := false,candidate := none}
    match s.scheduler with
    | none => s
    | some k => s.setScheduler k {s.schedulers k with reconfiguring := false}
  else s

/-- `_begin_run` for a trigger that nothing else refuses. -/
def trigger (k run : Nat) : Runtime :=
  let scheduler := s.schedulers k
  if s.made ≤ k ∨ scheduler.reconfiguring then s
  else s.setScheduler k {scheduler with active := run :: scheduler.active}

/-- The end of a pipeline: its run is finalized and taken off the register. -/
def complete (k run : Nat) : Runtime :=
  let scheduler := s.schedulers k
  if run ∈ scheduler.active then
    s.setScheduler k {scheduler with
      active := scheduler.active.erase run
      cleaning := run :: scheduler.cleaning}
  else s

/-- `cleanup.run_if_due` has returned. -/
def cleaned (k run : Nat) : Runtime :=
  let scheduler := s.schedulers k
  if run ∈ scheduler.cleaning then
    s.setScheduler k {scheduler with cleaning := scheduler.cleaning.erase run}
  else s

end Runtime

/-- One step of a thread between two points at which another may come in. -/
inductive Event where
  | request (request : Request)
  | finish (id : Nat)
  | enter (revision : Int) (session : Option Text)
  | build
  | commit (session : Option SessionId)
  | leave
  | trigger (scheduler run : Nat)
  | complete (scheduler run : Nat)
  | cleaned (scheduler run : Nat)

def orElse (s : Runtime) : Except SettingsError Runtime → Runtime
  | .ok t => t
  | .error _ => s

def step (s : Runtime) : Event → Runtime
  | .request request => orElse s (s.request request)
  | .finish id => s.finish id
  | .enter revision session => orElse s (s.enter revision session)
  | .build => s.build
  | .commit session => s.commit session
  | .leave => s.leave
  | .trigger k run => s.trigger k run
  | .complete k run => s.complete k run
  | .cleaned k run => s.cleaned k run

/-- A server that has just started, after a sequence of steps. -/
def served (sessionId : SessionId) (events : List Event) : Runtime :=
  events.foldl step {sessionId := sessionId}

structure Exclusive (s : Runtime) : Prop where
  /-- No request is in flight and no pipeline is active inside a transition. -/
  alone : s.running → s.requests = [] ∧
    ∀ k, (s.schedulers k).active = [] ∧ (s.schedulers k).cleaning = []
  /-- A write runs under the session that it was admitted for. -/
  own : ∀ request ∈ s.requests, request.write → request.session = some s.sessionId.val
  /-- Outside a transition requests are admitted. -/
  reopened : s.running = false → ∀ request : Request, request.session = some s.sessionId.val →
    (s.request request).isOk

def cleanedUp (s : Runtime) : Event → Prop
  | .enter revision session => (s.enter revision session).isOk →
      ∀ k, s.scheduler = some k → (s.schedulers k).cleaning = []
  | _ => True

def AllCleanedUp (s : Runtime) : List Event → Prop
  | [] => True
  | event :: events => cleanedUp s event ∧ AllCleanedUp (step s event) events

structure Gated (s : Runtime) : Prop where
  counted : s.inFlight = s.requests.length
  changing : s.changing = s.running
  alone : s.running → s.requests = []
  own : ∀ request ∈ s.requests, Runtime.given request.session →
    request.session = some s.sessionId.val
  bound : ∀ request ∈ s.requests, request.write → Runtime.given request.session

/-- The gate of the pipelines: they are only with the current scheduler, outside a transition. -/
structure Scheduled (s : Runtime) : Prop where
  current : ∀ k, s.scheduler = some k → k < s.made
  candidate : ∀ k, s.candidate = some k → k < s.made
  resumed : ∀ k < s.made, (s.schedulers k).reconfiguring = false →
    s.scheduler = some k ∧ s.running = false
  paused : ∀ k < s.made, (s.schedulers k).reconfiguring = true →
    (s.schedulers k).active = [] ∧ (s.schedulers k).cleaning = []
  unmade : ∀ k, s.made ≤ k → (s.schedulers k).active = [] ∧ (s.schedulers k).cleaning = []

section steps

variable {s t : Runtime}

theorem Scheduled.exclusive (scheduled : Scheduled s) (gated : Gated s) : Exclusive s where
  alone running := by
    refine ⟨gated.alone running,fun k => ?_⟩
    by_cases made : k < s.made
    · cases resumed : (s.schedulers k).reconfiguring with
      | true => exact scheduled.paused k made resumed
      | false =>
        have out := (scheduled.resumed k made resumed).2
        rw [running] at out
        cases out
    · exact scheduled.unmade k (by omega)
  own request mem write := gated.own request mem (gated.bound request mem write)
  reopened out request same := by
    have open_ : s.changing = false := gated.changing.trans out
    have given : Runtime.given (some s.sessionId.val) = true := by
      simp [Runtime.given,s.sessionId.property]
    simp [Runtime.request,open_,given,same,Except.isOk,Except.toBool]

theorem gated_request {request : Request} (gated : Gated s) (admitted : s.request request = .ok t) :
    Gated t := by
  unfold Runtime.request at admitted
  split at admitted
  · cases admitted
  · rename_i open_
    split at admitted
    · cases admitted
    · rename_i bound
      split at admitted
      · cases admitted
      · rename_i own
        obtain rfl := Except.ok.inj admitted
        have out : s.running = false := gated.changing.symm.trans (Bool.eq_false_iff.mpr open_)
        constructor
        · exact congrArg (· + 1) gated.counted
        · exact gated.changing
        · intro running
          rw [out] at running
          cases running
        · intro other mem given
          rcases List.mem_cons.mp mem with rfl | old
          · simpa [given] using own
          · exact gated.own other old given
        · intro other mem write
          rcases List.mem_cons.mp mem with rfl | old
          · simpa [write] using bound
          · exact gated.bound other old write

theorem gated_finish (gated : Gated s) (id : Nat) : Gated (s.finish id) := by
  unfold Runtime.finish
  split
  · rename_i request found
    have mem := List.mem_of_find?_eq_some found
    constructor
    · simp [gated.counted,List.length_erase_of_mem mem]
    · exact gated.changing
    · intro running
      rw [gated.alone running] at mem
      cases mem
    · exact fun other left => gated.own other (List.mem_of_mem_erase left)
    · exact fun other left => gated.bound other (List.mem_of_mem_erase left)
  · exact gated

theorem scheduled_of_same (scheduled : Scheduled s) (scheduler : t.scheduler = s.scheduler)
    (schedulers : t.schedulers = s.schedulers) (made : t.made = s.made)
    (running : t.running = s.running) (candidate : t.candidate = s.candidate) : Scheduled t where
  current := by simpa [scheduler,made] using scheduled.current
  candidate := by simpa [candidate,made] using scheduled.candidate
  resumed := by simpa [scheduler,schedulers,made,running] using scheduled.resumed
  paused := by simpa [schedulers,made] using scheduled.paused
  unmade := by simpa [schedulers,made] using scheduled.unmade

/-- One scheduler has changed. -/
theorem scheduled_setScheduler {k : Nat} (scheduled : Scheduled s) (scheduler : SchedulerService)
    (made : k < s.made)
    (resumed : scheduler.reconfiguring = false → s.scheduler = some k ∧ s.running = false)
    (paused : scheduler.reconfiguring = true → scheduler.active = [] ∧ scheduler.cleaning = []) :
    Scheduled (s.setScheduler k scheduler) where
  current := scheduled.current
  candidate := scheduled.candidate
  resumed j bound := by
    by_cases here : j = k
    · subst here
      simpa [Runtime.setScheduler] using resumed
    · simpa [Runtime.setScheduler,here] using scheduled.resumed j bound
  paused j bound := by
    by_cases here : j = k
    · subst here
      simpa [Runtime.setScheduler] using paused
    · simpa [Runtime.setScheduler,here] using scheduled.paused j bound
  unmade j bound := by
    have other : j ≠ k := by
      have made' : k < s.made := made
      have bound' : s.made ≤ j := bound
      omega
    simpa [Runtime.setScheduler,other] using scheduled.unmade j bound

theorem scheduled_trigger (scheduled : Scheduled s) (k run : Nat) :
    Scheduled (s.trigger k run) := by
  unfold Runtime.trigger
  simp only
  split
  · exact scheduled
  · rename_i passed
    rw [not_or,not_le,Bool.not_eq_true] at passed
    apply scheduled_setScheduler scheduled _ passed.1
    · exact fun _ => scheduled.resumed k passed.1 passed.2
    · intro paused
      rw [passed.2] at paused
      cases paused

/-- Only a scheduler that is not paused has pipelines. -/
theorem Scheduled.resumed_of_pipeline (scheduled : Scheduled s) {k run : Nat}
    (runs : run ∈ (s.schedulers k).active ∨ run ∈ (s.schedulers k).cleaning) :
    k < s.made ∧ (s.schedulers k).reconfiguring = false := by
  by_cases made : k < s.made
  · refine ⟨made,?_⟩
    cases paused : (s.schedulers k).reconfiguring with
    | false => rfl
    | true => simp [scheduled.paused k made paused] at runs
  · simp [scheduled.unmade k (by omega)] at runs

theorem scheduled_complete (scheduled : Scheduled s) (k run : Nat) :
    Scheduled (s.complete k run) := by
  unfold Runtime.complete
  simp only
  split
  · rename_i active
    obtain ⟨made,resumed⟩ := scheduled.resumed_of_pipeline (.inl active)
    apply scheduled_setScheduler scheduled _ made
    · exact fun _ => scheduled.resumed k made resumed
    · simp [resumed]
  · exact scheduled

theorem scheduled_cleaned (scheduled : Scheduled s) (k run : Nat) :
    Scheduled (s.cleaned k run) := by
  unfold Runtime.cleaned
  simp only
  split
  · rename_i cleans
    obtain ⟨made,resumed⟩ := scheduled.resumed_of_pipeline (.inr cleans)
    apply scheduled_setScheduler scheduled _ made
    · exact fun _ => scheduled.resumed k made resumed
    · simp [resumed]
  · exact scheduled

theorem scheduled_build (scheduled : Scheduled s) : Scheduled s.build := by
  unfold Runtime.build
  split
  · constructor
    · intro k known
      exact Nat.lt_succ_of_lt (scheduled.current k known)
    · intro k known
      obtain rfl := Option.some.inj known
      exact Nat.lt_succ_self _
    · intro k bound
      have bound' : k < s.made + 1 := bound
      by_cases new : k = s.made
      · subst new
        simp [Runtime.setScheduler]
      · simpa [Runtime.setScheduler,new] using scheduled.resumed k (by omega)
    · intro k bound
      have bound' : k < s.made + 1 := bound
      by_cases new : k = s.made
      · subst new
        simp [Runtime.setScheduler]
      · simpa [Runtime.setScheduler,new] using scheduled.paused k (by omega)
    · intro k bound
      have bound' : s.made + 1 ≤ k := bound
      have other : k ≠ s.made := by omega
      simpa [Runtime.setScheduler,other] using scheduled.unmade k (by omega)
  · exact scheduled

/-- Inside a transition every scheduler is paused, so the current one may be exchanged. -/
theorem scheduled_commit (scheduled : Scheduled s) (session : Option SessionId) :
    Scheduled (s.commit session) := by
  unfold Runtime.commit
  split
  · rename_i running
    constructor
    · intro k known
      cases built : s.candidate with
      | none => exact scheduled.current k (by simpa [built] using known)
      | some new => exact scheduled.candidate k (by simpa [built] using known)
    · nofun
    · intro k made resumed
      have out := (scheduled.resumed k made resumed).2
      rw [running] at out
      cases out
    · exact scheduled.paused
    · exact scheduled.unmade
  · exact scheduled

theorem scheduled_leave (scheduled : Scheduled s) : Scheduled s.leave := by
  unfold Runtime.leave
  split
  · rename_i running
    have left : Scheduled {s with changing := false,running := false,candidate := none} := {
      current := scheduled.current
      candidate := nofun
      resumed := fun k made resumed => ⟨(scheduled.resumed k made resumed).1,rfl⟩
      paused := scheduled.paused
      unmade := scheduled.unmade}
    simp only
    split
    · exact left
    · rename_i k here
      exact scheduled_setScheduler left _ (left.current k here) (fun _ => ⟨here,rfl⟩) nofun
  · exact scheduled

theorem gated_leave (gated : Gated s) : Gated s.leave := by
  unfold Runtime.leave
  split
  · simp only
    split <;> exact {
      counted := gated.counted
      changing := rfl
      alone := nofun
      own := gated.own
      bound := gated.bound}
  · exact gated

/-- A new session finds no request of the old one. -/
theorem gated_commit (gated : Gated s) (session : Option SessionId) : Gated (s.commit session) := by
  unfold Runtime.commit
  split
  · rename_i running
    have nobody := gated.alone running
    exact {
      counted := gated.counted
      changing := gated.changing
      alone := gated.alone
      own := by simp [nobody]
      bound := gated.bound}
  · exact gated

theorem enter_ok {revision : Int} {session : Option Text}
    (entered : s.enter revision session = .ok t) : s.changing = false ∧ s.inFlight = 0 ∧
      revision = s.revision ∧ ∃ paused, s.pauseForReconfigure = some paused ∧
        t = {paused with changing := true,running := true} := by
  unfold Runtime.enter at entered
  split at entered
  · cases entered
  · rename_i free
    rw [not_or,Bool.not_eq_true,not_not] at free
    split at entered
    · cases entered
    · rename_i current
      split at entered
      · cases entered
      · split at entered
        · cases entered
        · rename_i paused pauses
          exact ⟨free.1,free.2,not_not.mp current,paused,pauses,(Except.ok.inj entered).symm⟩

theorem gated_enter {revision : Int} {session : Option Text} (gated : Gated s)
    (entered : s.enter revision session = .ok t) : Gated t := by
  obtain ⟨-,free,-,paused,pauses,rfl⟩ := enter_ok entered
  have nobody : s.requests = [] := by
    rw [gated.counted] at free
    exact List.length_eq_zero_iff.mp free
  have same : paused.inFlight = s.inFlight ∧ paused.requests = s.requests := by
    unfold Runtime.pauseForReconfigure at pauses
    split at pauses
    · obtain rfl := Option.some.inj pauses
      exact ⟨rfl,rfl⟩
    · split at pauses
      · cases pauses
      · obtain rfl := Option.some.inj pauses
        exact ⟨rfl,rfl⟩
  have still : paused.requests = [] := same.2.trans nobody
  exact {
    counted := by simp [same.1,free,still]
    changing := rfl
    alone := fun _ => still
    own := by simp [still]
    bound := by simp [still]}

/-- A transition pauses the scheduler, whose pipelines have ended. -/
theorem scheduled_enter {revision : Int} {session : Option Text} (scheduled : Scheduled s)
    (entered : s.enter revision session = .ok t)
    (clean : ∀ k, s.scheduler = some k → (s.schedulers k).cleaning = []) : Scheduled t := by
  obtain ⟨-,-,-,paused,pauses,rfl⟩ := enter_ok entered
  have others (k : Nat) (made : k < s.made) (resumed : (s.schedulers k).reconfiguring = false) :=
    (scheduled.resumed k made resumed).1
  unfold Runtime.pauseForReconfigure at pauses
  split at pauses
  · rename_i none
    obtain rfl := Option.some.inj pauses
    exact {
      current := scheduled.current
      candidate := scheduled.candidate
      resumed := fun k made resumed => by
        have here := others k made resumed
        rw [none] at here
        cases here
      paused := scheduled.paused
      unmade := scheduled.unmade}
  · rename_i k here
    split at pauses
    · cases pauses
    · rename_i idle
      obtain rfl := Option.some.inj pauses
      have made := scheduled.current k here
      have stopped := scheduled_setScheduler scheduled
        {s.schedulers k with reconfiguring := true} made nofun
        fun _ => ⟨not_not.mp idle,clean k here⟩
      exact {
        current := stopped.current
        candidate := stopped.candidate
        resumed := fun j bound resumed => by
          by_cases same : j = k
          · subst same
            simp [Runtime.setScheduler] at resumed
          · have still : (s.schedulers j).reconfiguring = false := by
              simpa [Runtime.setScheduler,same] using resumed
            have current := others j bound still
            rw [here] at current
            exact absurd (Option.some.inj current).symm same
        paused := stopped.paused
        unmade := stopped.unmade}

theorem kept_step {event : Event} (kept : Gated s ∧ Scheduled s) (clean : cleanedUp s event) :
    Gated (step s event) ∧ Scheduled (step s event) := by
  obtain ⟨gated,scheduled⟩ := kept
  cases event with
  | request request =>
    cases admitted : s.request request with
    | error reason =>
      simp only [step,admitted]
      exact ⟨gated,scheduled⟩
    | ok t =>
      simp only [step,admitted]
      refine ⟨gated_request gated admitted,?_⟩
      unfold Runtime.request at admitted
      split at admitted
      · cases admitted
      · split at admitted
        · cases admitted
        · split at admitted
          · cases admitted
          · obtain rfl := Except.ok.inj admitted
            exact scheduled_of_same scheduled rfl rfl rfl rfl rfl
  | finish id =>
    refine ⟨gated_finish gated id,?_⟩
    simp only [step,Runtime.finish]
    split
    · exact scheduled_of_same scheduled rfl rfl rfl rfl rfl
    · exact scheduled
  | enter revision session =>
    cases entered : s.enter revision session with
    | error reason =>
      simp only [step,entered]
      exact ⟨gated,scheduled⟩
    | ok t =>
      simp only [step,entered]
      exact ⟨gated_enter gated entered,scheduled_enter scheduled entered
        (clean (by simp [entered,Except.isOk,Except.toBool]))⟩
  | build =>
    refine ⟨?_,scheduled_build scheduled⟩
    simp only [step,Runtime.build]
    split
    · exact ⟨gated.counted,gated.changing,gated.alone,gated.own,gated.bound⟩
    · exact gated
  | commit session => exact ⟨gated_commit gated session,scheduled_commit scheduled session⟩
  | leave => exact ⟨gated_leave gated,scheduled_leave scheduled⟩
  | trigger k run =>
    refine ⟨?_,scheduled_trigger scheduled k run⟩
    simp only [step,Runtime.trigger]
    split
    · exact gated
    · exact ⟨gated.counted,gated.changing,gated.alone,gated.own,gated.bound⟩
  | complete k run =>
    refine ⟨?_,scheduled_complete scheduled k run⟩
    simp only [step,Runtime.complete]
    split
    · exact ⟨gated.counted,gated.changing,gated.alone,gated.own,gated.bound⟩
    · exact gated
  | cleaned k run =>
    refine ⟨?_,scheduled_cleaned scheduled k run⟩
    simp only [step,Runtime.cleaned]
    split
    · exact ⟨gated.counted,gated.changing,gated.alone,gated.own,gated.bound⟩
    · exact gated

theorem kept_run {events : List Event} (kept : Gated s ∧ Scheduled s)
    (clean : AllCleanedUp s events) :
    Gated (events.foldl step s) ∧ Scheduled (events.foldl step s) := by
  induction events generalizing s with
  | nil => exact kept
  | cons event events ih => exact ih (kept_step kept clean.1) clean.2

end steps

/-- In a run in which no transition begins while a pipeline is still cleaning up, transitions
exclude requests and pipelines in every state reached. -/
theorem exclusive_of_cleanedUp (sessionId : SessionId) {events : List Event}
    (clean : AllCleanedUp {sessionId := sessionId} events) :
    Exclusive (served sessionId events) := by
  have start : Gated {sessionId := sessionId} ∧ Scheduled {sessionId := sessionId} := by
    constructor
    · exact ⟨rfl,rfl,fun _ => rfl,nofun,nofun⟩
    · constructor
      · intro k known
        obtain rfl := Option.some.inj known
        exact Nat.one_pos
      · nofun
      · intro k made _
        have made' : k < 1 := made
        obtain rfl : k = 0 := by omega
        exact ⟨rfl,rfl⟩
      · nofun
      · exact fun _ _ => ⟨rfl,rfl⟩
  obtain ⟨gated,scheduled⟩ := kept_run start clean
  exact scheduled.exclusive gated

def firstSession : SessionId := ⟨"0a".toList,by decide⟩

/-- A write, then a run of the scheduler that is over before the Vault is switched. -/
theorem exclusive_quietSwitch : Exclusive (served firstSession [.request ⟨0,some "0a".toList,true⟩,
    .finish 0,.trigger 0 5,.complete 0 5,.cleaned 0 5,.enter 1 none,.build,
    .commit (some ⟨"0b".toList,by decide⟩)]) := by
  apply exclusive_of_cleanedUp
  simp only [AllCleanedUp,cleanedUp,true_and,and_true]
  intro _ k known
  obtain rfl := Option.some.inj known
  decide

/-- A run is taken off the register, and the services are swapped before its cleanup is over. -/
theorem cleaning_overlaps : ¬ Exclusive (served firstSession [.trigger 0 5,.complete 0 5,
    .enter 1 none,.build,.commit (some ⟨"0b".toList,by decide⟩)]) := by
  intro exclusive
  have alone := (exclusive.alone (by decide)).2 0
  exact absurd alone.2 (by decide)

end LocalBook.Server
