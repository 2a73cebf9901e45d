import LocalBook.Dict
import LocalBook.Scheduler.Zones

/-! The backend of the scheduler that does without the library. Every job has a slot, which is
when it fires next; a tick fires the jobs whose slots have passed and computes their next ones. -/
namespace LocalBook.Scheduler.Cron

section

variable [Numerals]

/-- A job of the configuration, whose validator has accepted the expression. -/
structure CronJob where
  expression : Text
  zone : TimeZone
  accepted : ∃ value,validCron value = some expression

/-- `JobDefinition`, the expression of an interval having been read as a number of hours. -/
inductive Schedule where
  | interval (hours : Int)
  | cron (job : CronJob)

def hourTicks : Int := 3600000000

/-- `_compute_next`. -/
def computeNext (now : Int) : Schedule → Int
  | .interval hours => now + max 1 hours * hourTicks
  | .cron job => (job.zone.nextCronFire job.expression now).getD (now + 24 * hourTicks)

/-- `AsyncioBackend`: the definitions of the jobs, and their slots. -/
structure Backend where
  definitions : Dict Text Schedule
  next : Dict Text Int

namespace Backend

/-- `add`, which rejects an identifier that is registered. -/
def add (backend : Backend) (jobId : Text) (definition : Schedule) (now : Int) : Backend :=
  if (backend.definitions.find jobId).isSome then backend
  else
    { definitions := backend.definitions.set jobId definition
      next := backend.next.set jobId (computeNext now definition) }

/-- `remove`. -/
def remove (backend : Backend) (jobId : Text) : Backend where
  definitions := backend.definitions.pop jobId
  next := backend.next.pop jobId

def tickJob (now : Int) (state : Dict Text Int × List Text) (entry : Text × Schedule) :
    Dict Text Int × List Text :=
  match state.1.find entry.1 with
  | some nextRun =>
    if nextRun ≤ now then
      (state.1.set entry.1 (computeNext now entry.2),state.2 ++ [entry.1])
    else state
  | none => state

/-- `tick`: the backend afterwards, and the jobs that fire. -/
def tick (backend : Backend) (now : Int) : Backend × List Text :=
  let (next,due) := backend.definitions.foldl (tickJob now) (backend.next,[])
  ({ backend with next := next },due)

end Backend

inductive Event where
  | add (jobId : Text) (definition : Schedule) (now : Int)
  | remove (jobId : Text)
  | tick (now : Int)

def Backend.step (backend : Backend) : Event → Backend
  | .add jobId definition now => backend.add jobId definition now
  | .remove jobId => backend.remove jobId
  | .tick now => (backend.tick now).1

namespace CronJob

def Fires (job : CronJob) (instant : Int) : Prop :=
  job.zone.Fires (Matching job.expression) instant

/-- A minute that matches comes on the days that are scanned, all of whose minutes are whole. -/
structure Within (job : CronJob) (now : Int) : Prop where
  represented : 0 ≤ job.zone.clock now
  whole : job.zone.Whole (Matching job.expression) now
  reaches : job.zone.Reaches (Matching job.expression) now

theorem Within.isLeast {job : CronJob} {now : Int} (within : job.Within now) :
    IsLeast {i | now < i ∧ job.Fires i} (computeNext now (.cron job)) := by
  obtain ⟨value,accepted⟩ := job.accepted
  obtain ⟨instant,found,least⟩ := job.zone.isLeast_nextCronFire accepted within.represented
    within.whole within.reaches
  rw [computeNext,found]
  exact least

end CronJob

namespace Backend

def Passed (backend : Backend) (now : Int) (jobId : Text) : Prop :=
  ∃ slot,backend.next.find jobId = some slot ∧ slot ≤ now

/-- Whenever an event computes the next slot of a cron job, a minute that matches is in reach. -/
def Meets (backend : Backend) : Event → Prop
  | .add _ (.interval _) _ => True
  | .add _ (.cron job) now => job.Within now
  | .remove _ => True
  | .tick now => ∀ jobId job,backend.definitions.find jobId = some (.cron job) →
      backend.Passed now jobId → job.Within now

/-- The backends that come about when a minute that matches is always in reach. -/
inductive Reached : Backend → Prop where
  | start : Reached ⟨[],[]⟩
  | step {backend : Backend} {event : Event} :
      Reached backend → backend.Meets event → Reached (backend.step event)

/-- A tick fires a cron job only for a slot that matches its expression, which is not later, and
once: the next slot is the first one that matches after the tick, so that of the slots that have
been missed no other is made up for. -/
def FiresOnTime (backend : Backend) (now : Int) : Prop :=
  (backend.tick now).2.Nodup ∧ ∀ jobId ∈ (backend.tick now).2,∀ job,
    backend.definitions.find jobId = some (.cron job) →
      ∃ slot later,backend.next.find jobId = some slot ∧ slot ≤ now ∧ job.Fires slot ∧
        (backend.tick now).1.next.find jobId = some later ∧
        IsLeast {i | now < i ∧ job.Fires i} later

section

variable {backend : Backend} {now : Int}

theorem foldl_tickJob (entries : Dict Text Schedule) (distinct : (entries.map Prod.fst).Nodup)
    (state : Dict Text Int × List Text) :
    (∀ jobId definition,(jobId,definition) ∈ entries →
      (entries.foldl (tickJob now) state).1.find jobId = (state.1.find jobId).map fun slot =>
        if slot ≤ now then computeNext now definition else slot) ∧
    (∀ jobId,jobId ∉ entries.map Prod.fst →
      (entries.foldl (tickJob now) state).1.find jobId = state.1.find jobId) ∧
    (entries.foldl (tickJob now) state).2 = state.2 ++
      (entries.map Prod.fst).filter fun jobId => (state.1.find jobId).any (· ≤ now) := by
  induction entries generalizing state with
  | nil => simp
  | cons entry rest ih =>
    obtain ⟨name,definition⟩ := entry
    rw [List.map_cons,List.nodup_cons] at distinct
    obtain ⟨fresh,distinct⟩ := distinct
    obtain ⟨listed,others,due⟩ := ih distinct (tickJob now state (name,definition))
    -- The job itself comes once, and the step leaves the slots of the others alone.
    have same : ∀ jobId,jobId ≠ name →
        (tickJob now state (name,definition)).1.find jobId = state.1.find jobId := by
      intro jobId other
      unfold tickJob
      split
      · split
        · rw [Dict.find_set,if_neg other]
        · rfl
      · rfl
    have own : (tickJob now state (name,definition)).1.find name =
        (state.1.find name).map fun slot =>
          if slot ≤ now then computeNext now definition else slot := by
      unfold tickJob
      cases found : state.1.find name with
      | none => exact found
      | some slot =>
        by_cases passed : slot ≤ now
        · simp [passed]
        · simp [passed,found]
    have fired : (tickJob now state (name,definition)).2 = state.2 ++
        if (state.1.find name).any (· ≤ now) then [name] else [] := by
      unfold tickJob
      cases found : state.1.find name with
      | none => simp
      | some slot => by_cases passed : slot ≤ now <;> simp [passed]
    refine ⟨?_,?_,?_⟩
    · intro jobId definition' inside
      rw [List.foldl_cons]
      rcases List.mem_cons.mp inside with head | tail
      · cases head
        rw [others name fresh,own]
      · have other : jobId ≠ name := by
          rintro rfl
          exact fresh (List.mem_map.mpr ⟨_,tail,rfl⟩)
        rw [listed jobId definition' tail,same jobId other]
    · intro jobId outside
      rw [List.map_cons,List.mem_cons,not_or] at outside
      rw [List.foldl_cons,others jobId outside.2,same jobId outside.1]
    · rw [List.foldl_cons,due,fired,List.append_assoc,List.map_cons,List.filter_cons]
      have unchanged : (rest.map Prod.fst).filter (fun jobId =>
          ((tickJob now state (name,definition)).1.find jobId).any (· ≤ now)) =
          (rest.map Prod.fst).filter fun jobId => (state.1.find jobId).any (· ≤ now) := by
        apply List.filter_congr
        intro jobId inside
        rw [same jobId (fun equal => fresh (equal ▸ inside))]
      rw [unchanged]
      split <;> rfl

/-- The jobs are registered once, and the slot of a cron job matches its expression. -/
structure Kept (backend : Backend) : Prop where
  distinct : (backend.definitions.map Prod.fst).Nodup
  fires : ∀ jobId job slot,backend.definitions.find jobId = some (.cron job) →
    backend.next.find jobId = some slot → job.Fires slot

theorem Kept.mem_tick (kept : backend.Kept) {jobId : Text} :
    jobId ∈ (backend.tick now).2 ↔
      jobId ∈ backend.definitions.map Prod.fst ∧ backend.Passed now jobId := by
  have due := (@foldl_tickJob _ now backend.definitions kept.distinct (backend.next,[])).2.2
  rw [Backend.tick,due,List.nil_append,List.mem_filter,Option.any_eq_true]
  simp only [decide_eq_true_eq,Passed]

theorem Kept.next_tick (kept : backend.Kept) {jobId : Text} {definition : Schedule}
    (registered : backend.definitions.find jobId = some definition) :
    (backend.tick now).1.next.find jobId = (backend.next.find jobId).map fun slot =>
      if slot ≤ now then computeNext now definition else slot :=
  (foldl_tickJob backend.definitions kept.distinct (backend.next,[])).1 jobId definition
    (Dict.mem_of_find registered)

theorem Kept.add (kept : backend.Kept) {jobId : Text} {definition : Schedule}
    (meets : backend.Meets (.add jobId definition now)) :
    (backend.add jobId definition now).Kept := by
  unfold Backend.add
  split
  · exact kept
  · constructor
    · exact Dict.nodup_names_set kept.distinct jobId _
    · intro other job slot registered found
      rw [Dict.find_set] at registered found
      by_cases same : other = jobId
      · rw [if_pos same] at registered found
        cases registered
        cases found
        have within : job.Within now := meets
        exact within.isLeast.1.2
      · rw [if_neg same] at registered found
        exact kept.fires other job slot registered found

theorem Kept.remove (kept : backend.Kept) (jobId : Text) : (backend.remove jobId).Kept := by
  constructor
  · exact kept.distinct.sublist (List.filter_sublist.map _)
  · intro other job slot registered found
    rw [Backend.remove,Dict.find_pop] at registered found
    by_cases same : other = jobId
    · rw [if_pos same] at registered
      cases registered
    · rw [if_neg same] at registered found
      exact kept.fires other job slot registered found

theorem Kept.tick (kept : backend.Kept) (meets : backend.Meets (.tick now)) :
    (backend.tick now).1.Kept := by
  constructor
  · exact kept.distinct
  · intro jobId job slot registered found
    have registered : backend.definitions.find jobId = some (.cron job) := registered
    rw [kept.next_tick registered] at found
    obtain ⟨previous,before,rfl⟩ := Option.map_eq_some_iff.mp found
    split
    · next passed =>
      have within : job.Within now := meets jobId job registered ⟨previous,before,passed⟩
      exact within.isLeast.1.2
    · exact kept.fires jobId job previous registered before

theorem Kept.step (kept : backend.Kept) {event : Event} (meets : backend.Meets event) :
    (backend.step event).Kept := by
  cases event with
  | add jobId definition now => exact kept.add meets
  | remove jobId => exact kept.remove jobId
  | tick now => exact kept.tick meets

theorem Reached.kept (reached : backend.Reached) : backend.Kept := by
  induction reached with
  | start => exact ⟨List.nodup_nil,fun jobId job slot registered _ => by cases registered⟩
  | step _ meets ih => exact ih.step meets

theorem Kept.firesOnTime (kept : backend.Kept) (meets : backend.Meets (.tick now)) :
    backend.FiresOnTime now := by
  constructor
  · have due := (@foldl_tickJob _ now backend.definitions kept.distinct (backend.next,[])).2.2
    rw [Backend.tick,due,List.nil_append]
    exact kept.distinct.filter _
  · intro jobId inside job registered
    obtain ⟨_,slot,found,passed⟩ := kept.mem_tick.mp inside
    have within : job.Within now := meets jobId job registered ⟨slot,found,passed⟩
    have next : (backend.tick now).1.next.find jobId = _ := kept.next_tick registered
    rw [found,Option.map_some,if_pos passed] at next
    exact ⟨slot,_,found,passed,kept.fires jobId job slot registered found,next,within.isLeast⟩

end

end Backend

end

section

open scoped AsciiNumerals

theorem accepted_everyMinute : validCron "* * * * *".toList = some "* * * * *".toList := by
  decide +kernel

def everyMinute : CronJob where
  expression := "* * * * *".toList
  zone := TimeZone.fixed ⟨0⟩
  accepted := ⟨"* * * * *".toList,accepted_everyMinute⟩

theorem matching_everyMinute (minute : Nat) : Matching everyMinute.expression minute := by
  refine ⟨⟨.all,.all,.all,.all,.all⟩,rfl,?_⟩
  simp [Fields.onMinute,Fields.onDay,Field.fits,Field.restricted]

theorem everyMinute_within {now : Int} (represented : 0 ≤ now) : everyMinute.Within now where
  represented := by
    change 0 ≤ now + 0
    omega
  whole := TimeZone.fixed_whole ⟨0⟩ _ now
  reaches := by
    have begins := TimeZone.fixed_begins ⟨0⟩ (now.toNat / minuteTicks + 1)
    refine ⟨_,_,matching_everyMinute _,TimeZone.first_instant (Nat.succ_pos _) begins,?_,?_⟩
    · have remainder := Nat.lt_div_mul_add (a := now.toNat) (by decide : 0 < minuteTicks)
      change now < ((now.toNat / minuteTicks + 1) * minuteTicks : Nat) - 0
      rw [Nat.succ_mul]
      omega
    · have same : everyMinute.zone.localMinute now = now.toNat / minuteTicks := by
        change (now + 0).toNat / minuteTicks = _
        rw [Int.add_zero]
      rw [TimeZone.Scanned,same]
      simp only [dayOf,scanDays]
      omega

theorem accepted_lastOfFebruary : validCron "0 0 29 2 *".toList = some "0 0 29 2 *".toList := by
  decide +kernel

end

end LocalBook.Scheduler.Cron
