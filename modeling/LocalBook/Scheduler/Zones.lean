import LocalBook.Scheduler.Firing

/-! The next fire in a time zone whose clocks are set forward and back. A minute that its clocks
skip is left out, and one that they show twice counts when it is shown first. -/
namespace LocalBook.Scheduler.Cron

open Succession

/-- A time zone, in microseconds: what its clocks show at an instant, and the instant that a local
time attached to it stands for. A time that is shown stands for an instant at which it is; clocks
are set back only to times that they have shown, so that this is the first of them. -/
structure TimeZone where
  clock : Int → Int
  reading : Int → Int
  shown : ∀ instant,clock (reading (clock instant)) = clock instant
  passed : ∀ time instant,time ≤ clock instant → (∃ other,clock other = time) →
    reading time ≤ instant

namespace TimeZone

variable (zone : TimeZone)

def instant (minute : Nat) : Int := zone.reading (minute * minuteTicks : Nat)

def localMinute (instant : Int) : Nat := (zone.clock instant).toNat / minuteTicks

/-- `_wall_time_exists`. -/
def wallTimeExists (minute : Nat) : Bool :=
  timeOf (zone.localMinute (zone.instant minute)) = timeOf minute

def fireOn (allowed : Allowed) (after : Int) (offsetDays : Nat) : Option Int :=
  let afterLocal := zone.localMinute after
  let day := dayOf afterLocal + offsetDays
  let candidates := timeCandidates allowed
  if dayMatches (Calendar.date day).2 (Calendar.date day).1 (dowNumber day) allowed then
    let startIndex :=
      if offsetDays = 0 then candidates.findIdx (isLater · (timeOf afterLocal)) else 0
    ((candidates.drop startIndex).find? fun time =>
      zone.wallTimeExists (minuteAt day time) && after < zone.instant (minuteAt day time)).map
        fun time => zone.instant (minuteAt day time)
  else none

/-- `next_cron_fire`, with the calendar going on for ever. -/
def nextCronFire [Numerals] (expression : Text) (after : Int) : Option Int :=
  (parseCronExpression expression).bind fun allowed =>
    (List.range scanDays).findSome? (zone.fireOn allowed after)

def First (minute : Nat) (instant : Int) : Prop :=
  IsLeast {i | zone.localMinute i = minute} instant

def Begins (minute : Nat) : Prop := ∃ instant,zone.clock instant = (minute * minuteTicks : Nat)

def Scanned (after : Int) (minute : Nat) : Prop :=
  dayOf (zone.localMinute after) ≤ dayOf minute ∧
    dayOf minute < dayOf (zone.localMinute after) + scanDays

def Fires (due : Nat → Prop) (instant : Int) : Prop :=
  ∃ minute,due minute ∧ zone.First minute instant

/-- On the days that are scanned, the clocks show each minute of a set from its beginning or not at
all, and no minute that they skip is taken for one that they show: they are not set forward
within a minute, nor by a whole day. -/
def Whole (due : Nat → Prop) (after : Int) : Prop :=
  ∀ minute,due minute → zone.Scanned after minute →
    (zone.wallTimeExists minute = true ∨ ∃ instant,zone.localMinute instant = minute) →
    zone.Begins minute

/-- On one of the days that are scanned, a minute of the set comes after the instant. -/
def Reaches (due : Nat → Prop) (after : Int) : Prop :=
  ∃ minute instant,due minute ∧ zone.First minute instant ∧ after < instant ∧
    zone.Scanned after minute

/-- A next fire is the first one after an instant, and there is none only if no minute is in the
set. -/
def Correct (due : Nat → Prop) (after : Int) : Option Int → Prop
  | some instant => IsLeast {i | after < i ∧ zone.Fires due i} instant
  | none => ∀ minute,¬ due minute

end TimeZone

namespace TimeZone

variable {zone : TimeZone} {minute : Nat} {after : Int}

theorem localMinute_instant (begins : zone.Begins minute) :
    zone.localMinute (zone.instant minute) = minute := by
  obtain ⟨other,same⟩ := begins
  have again := zone.shown other
  rw [same] at again
  rw [localMinute,instant,again,Int.toNat_natCast,
    Nat.mul_div_cancel _ (by decide : 0 < minuteTicks)]

theorem wallTimeExists_of_begins (begins : zone.Begins minute) :
    zone.wallTimeExists minute = true := by
  rw [wallTimeExists,localMinute_instant begins,decide_eq_true_eq]

/-- A minute has begun where the clocks show it, or a later one. -/
theorem instant_le {i : Int} (begins : zone.Begins minute)
    (begun : ((minute * minuteTicks : Nat) : Int) ≤ zone.clock i) : zone.instant minute ≤ i :=
  zone.passed _ i begun begins

theorem clock_of_localMinute {i : Int} (positive : 0 < minute)
    (shows : minute ≤ zone.localMinute i) :
    ((minute * minuteTicks : Nat) : Int) ≤ zone.clock i := by
  have covers := (Nat.le_div_iff_mul_le (by decide : 0 < minuteTicks)).mp shows
  have ticks : 0 < minute * minuteTicks := Nat.mul_pos positive (by decide)
  omega

/-- A minute that begins after an instant is later than that of the instant. -/
theorem later_of_begins (represented : 0 ≤ zone.clock after) (begins : zone.Begins minute)
    (comes : after < zone.instant minute) : zone.localMinute after < minute := by
  by_contra early
  apply absurd (instant_le begins _) (not_le_of_gt comes)
  have covers := (Nat.le_div_iff_mul_le (by decide : 0 < minuteTicks)).mp (Nat.le_of_not_lt early)
  omega

/-- So is a minute that is shown for the first time after the instant. -/
theorem First.later {i : Int} (first : zone.First minute i) (comes : after < i) :
    zone.localMinute after < minute := by
  by_contra early
  have order := Nat.le_of_not_lt early
  rcases le_or_gt (zone.clock i) (zone.clock after) with back | forth
  · -- The clocks have shown that time before.
    have again : zone.localMinute (zone.reading (zone.clock i)) = minute := by
      rw [localMinute,zone.shown]
      exact first.1
    have before := zone.passed _ after back ⟨i,rfl⟩
    have least := first.2 again
    omega
  · have within : zone.localMinute after ≤ minute := by
      rw [← first.1]
      exact Nat.div_le_div_right (Int.toNat_le_toNat forth.le)
    have least := first.2 (le_antisymm within order)
    omega

theorem first_instant (positive : 0 < minute) (begins : zone.Begins minute) :
    zone.First minute (zone.instant minute) := by
  refine ⟨localMinute_instant begins,?_⟩
  intro i shows
  exact instant_le begins (clock_of_localMinute positive (ge_of_eq shows))

def comes (zone : TimeZone) (after : Int) (minute : Nat) : Bool :=
  zone.wallTimeExists minute && after < zone.instant minute

theorem comes_iff {due : Nat → Prop} (whole : zone.Whole due after) (isDue : due minute)
    (scanned : zone.Scanned after minute) :
    zone.comes after minute = true ↔ zone.Begins minute ∧ after < zone.instant minute := by
  rw [comes,Bool.and_eq_true,decide_eq_true_eq]
  constructor
  · rintro ⟨passes,later⟩
    exact ⟨whole minute isDue scanned (.inl passes),later⟩
  · rintro ⟨begins,later⟩
    exact ⟨wallTimeExists_of_begins begins,later⟩

variable {fields : Fields}

theorem due_of_candidate (valid : fields.Valid) {day : Nat} {time : Nat × Nat}
    (due : dayDue fields.allowed day = true) (candidate : time ∈ timeCandidates fields.allowed) :
    Due fields.allowed (minuteAt day time) :=
  (valid.due_minuteAt candidate).mpr due

theorem scanned_minuteAt (valid : fields.Valid) {k : Nat} (inside : k < scanDays)
    {time : Nat × Nat} (candidate : time ∈ timeCandidates fields.allowed) :
    zone.Scanned after (minuteAt (dayOf (zone.localMinute after) + k) time) := by
  obtain ⟨hour,minute,_⟩ := (valid.mem_timeCandidates time).mp candidate
  rw [Scanned,(dayOf_minuteAt _ hour minute).1]
  omega

theorem fireOn_eq (valid : fields.Valid) (represented : 0 ≤ zone.clock after)
    (whole : zone.Whole (Due fields.allowed) after) {k : Nat} (inside : k < scanDays) :
    zone.fireOn fields.allowed after k =
      if dayDue fields.allowed (dayOf (zone.localMinute after) + k) then
        ((timeCandidates fields.allowed).find? fun time =>
          zone.comes after (minuteAt (dayOf (zone.localMinute after) + k) time)).map
            fun time => zone.instant (minuteAt (dayOf (zone.localMinute after) + k) time)
      else none := by
  unfold fireOn
  dsimp only
  change (if dayDue fields.allowed (dayOf (zone.localMinute after) + k) = true then _ else _) = _
  split
  · next due =>
    congr 1
    by_cases today : k = 0
    · subst today
      -- What the start index skips has begun already.
      rw [if_pos rfl]
      apply find?_drop_findIdx
      intro time candidate found
      obtain ⟨begins,later⟩ := (comes_iff whole (due_of_candidate valid due candidate)
        (scanned_minuteAt valid inside candidate)).mp found
      have order := later_of_begins represented begins later
      obtain ⟨_,inner,_⟩ := (valid.mem_timeCandidates time).mp candidate
      conv at order => lhs; rw [← minuteAt_dayOf (zone.localMinute after)]
      have inHour : (timeOf (zone.localMinute after)).2 < 60 := Nat.mod_lt _ (by decide)
      simp only [minuteAt,Nat.add_zero] at order
      simp only [isLater,Bool.or_eq_true,Bool.and_eq_true,decide_eq_true_eq]
      omega
    · rw [if_neg today,List.drop_zero]
      rfl
  · rfl

/-- What the scan finds is the first minute that is due and comes. -/
theorem scan_some (valid : fields.Valid) (represented : 0 ≤ zone.clock after)
    (whole : zone.Whole (Due fields.allowed) after) {i : Int}
    (found : (List.range scanDays).findSome? (zone.fireOn fields.allowed after) = some i) :
    ∃ minute,Due fields.allowed minute ∧ zone.Scanned after minute ∧ zone.Begins minute ∧
      after < zone.instant minute ∧ i = zone.instant minute ∧
      ∀ other i',Due fields.allowed other → zone.First other i' → after < i' → minute ≤ other := by
  obtain ⟨k,inside,hit,earlier⟩ := findSome?_range found
  rw [fireOn_eq valid represented whole inside] at hit
  split at hit
  · next due =>
    obtain ⟨time,first,rfl⟩ := Option.map_eq_some_iff.mp hit
    have candidate := List.mem_of_find?_eq_some first
    have isDue := due_of_candidate valid due candidate
    have scanned : zone.Scanned after _ := scanned_minuteAt valid inside candidate
    have passes : zone.comes after (minuteAt (dayOf (zone.localMinute after) + k) time) = true :=
      List.find?_some (p := fun time => zone.comes after (minuteAt _ time)) first
    obtain ⟨begins,later⟩ := (comes_iff whole isDue scanned).mp passes
    refine ⟨_,isDue,scanned,begins,later,rfl,?_⟩
    intro other i' otherDue otherFirst otherComes
    have order := minuteAt_dayOf other
    have otherLater := otherFirst.later otherComes
    by_contra less
    rw [not_le] at less
    -- Another minute that is due is on the same day, or on a day that the scan has passed.
    have notAfter : dayOf other ≤ dayOf (zone.localMinute after) + k := by
      obtain ⟨hour,minute,_⟩ := (valid.mem_timeCandidates time).mp candidate
      rw [← (dayOf_minuteAt (dayOf (zone.localMinute after) + k) hour minute).1]
      exact Nat.div_le_div_right (Nat.div_le_div_right less.le)
    have notBefore : dayOf (zone.localMinute after) ≤ dayOf other :=
      Nat.div_le_div_right (Nat.div_le_div_right otherLater.le)
    have otherScanned : zone.Scanned after other := ⟨notBefore,by omega⟩
    have otherBegins := whole other otherDue otherScanned (.inr ⟨i',otherFirst.1⟩)
    have same := otherFirst.unique (first_instant (by omega) otherBegins)
    have otherHit := (comes_iff whole otherDue otherScanned).mpr ⟨otherBegins,same ▸ otherComes⟩
    obtain ⟨j,sameDay⟩ : ∃ j,dayOf other = dayOf (zone.localMinute after) + j :=
      ⟨_,(Nat.add_sub_of_le notBefore).symm⟩
    rw [← order,sameDay] at otherHit
    rcases Nat.lt_or_eq_of_le (by omega : j ≤ k) with early | rfl
    · have missed := earlier j early
      rw [fireOn_eq valid represented whole (by omega),if_pos (sameDay ▸ otherDue.1),
        Option.map_eq_none_iff,List.find?_eq_none] at missed
      exact missed _ otherDue.2 otherHit
    · have least := find?_least valid.timeCandidates_sorted first _ otherDue.2 otherHit
      rw [← order,minuteAt_eq,minuteAt_eq,sameDay] at less
      omega
  · cases hit

theorem scan_none (valid : fields.Valid) (represented : 0 ≤ zone.clock after)
    (whole : zone.Whole (Due fields.allowed) after)
    (exhausted : (List.range scanDays).findSome? (zone.fireOn fields.allowed after) = none) :
    ¬ zone.Reaches (Due fields.allowed) after := by
  rintro ⟨minute,i,due,first,comes,scanned⟩
  have later := first.later comes
  have begins := whole minute due scanned (.inr ⟨i,first.1⟩)
  have same := first.unique (first_instant (by omega) begins)
  have hit := (comes_iff whole due scanned).mpr ⟨begins,same ▸ comes⟩
  obtain ⟨notBefore,near⟩ := scanned
  have inside : dayOf minute - dayOf (zone.localMinute after) < scanDays := by omega
  have missed := List.findSome?_eq_none_iff.mp exhausted _ (List.mem_range.mpr inside)
  rw [fireOn_eq valid represented whole inside,Nat.add_sub_of_le notBefore,if_pos due.1,
    Option.map_eq_none_iff,List.find?_eq_none] at missed
  apply missed _ due.2
  rwa [minuteAt_dayOf]

/-- The next fire is right exactly where a minute that is due comes within the days that are
scanned, or no minute is ever due. -/
theorem scan_correct_iff (valid : fields.Valid) (represented : 0 ≤ zone.clock after)
    (whole : zone.Whole (Due fields.allowed) after) :
    zone.Correct (Due fields.allowed) after
        ((List.range scanDays).findSome? (zone.fireOn fields.allowed after)) ↔
      zone.Reaches (Due fields.allowed) after ∨ ∀ minute,¬ Due fields.allowed minute := by
  cases found : (List.range scanDays).findSome? (zone.fireOn fields.allowed after) with
  | none =>
    have far := scan_none valid represented whole found
    exact ⟨.inr,fun either => either.resolve_left far⟩
  | some i =>
    obtain ⟨minute,due,scanned,begins,comes,rfl,least⟩ := scan_some valid represented whole found
    have later := later_of_begins represented begins comes
    have first := first_instant (by omega) begins
    constructor
    · intro _
      exact .inl ⟨minute,_,due,first,comes,scanned⟩
    · intro _
      refine ⟨⟨comes,minute,due,first⟩,?_⟩
      rintro i' ⟨comes',other,otherDue,otherFirst⟩
      -- A minute that is due later is shown after this one has begun.
      apply instant_le begins
      apply clock_of_localMinute (by omega)
      rw [otherFirst.1]
      exact least other i' otherDue otherFirst comes'

theorem fixed_shown (zone : Zone) (instant : Int) :
    instant + zone.offset - zone.offset + zone.offset = instant + zone.offset := by
  omega

theorem fixed_passed (zone : Zone) (time instant : Int) (begun : time ≤ instant + zone.offset)
    (_ : ∃ other : Int,other + zone.offset = time) : time - zone.offset ≤ instant := by
  omega

/-- The time zone without transitions. -/
def fixed (zone : Zone) : TimeZone where
  clock instant := instant + zone.offset
  reading time := time - zone.offset
  shown := fixed_shown zone
  passed := fixed_passed zone

/-- With no transitions, the next fire is the one that the two backends share. -/
theorem nextCronFire_fixed [Numerals] (expression : Text) (zone : Zone) (after : Int) :
    (fixed zone).nextCronFire expression after = Cron.nextCronFire expression zone after := rfl

theorem fixed_begins (zone : Zone) (minute : Nat) : (fixed zone).Begins minute :=
  ⟨(minute * minuteTicks : Nat) - zone.offset,Int.sub_add_cancel ..⟩

theorem fixed_whole (zone : Zone) (due : Nat → Prop) (after : Int) :
    (fixed zone).Whole due after :=
  fun minute _ _ _ => fixed_begins zone minute

end TimeZone

namespace Fields

/-- The days of the fields of an expression: with both of them restricted, those on which the day
of the month or the day of the week matches, and otherwise those on which both do. Zero and seven
are the same Sunday. -/
def onDay (fields : Fields) (day : Nat) : Prop :=
  let dom := fields.day.fits 1 (Calendar.date day).2 = true
  let dow := fields.weekday.fits 0 (dowNumber day) = true ∨
    dowNumber day = 0 ∧ fields.weekday.fits 0 7 = true
  fields.month.fits 1 (Calendar.date day).1 = true ∧
    if fields.day.restricted ∧ fields.weekday.restricted then dom ∨ dow else dom ∧ dow

def onMinute (fields : Fields) (minute : Nat) : Prop :=
  fields.minute.fits 0 (timeOf minute).2 = true ∧ fields.hour.fits 0 (timeOf minute).1 = true ∧
    fields.onDay (dayOf minute)

variable {fields : Fields}

theorem Valid.dowMatches_iff (valid : fields.Valid) (day : Nat) :
    fields.allowed.dowMatches (dowNumber day) = true ↔
      fields.weekday.fits 0 (dowNumber day) = true ∨
        dowNumber day = 0 ∧ fields.weekday.fits 0 7 = true := by
  have week : dowNumber day < 7 := Nat.mod_lt _ (by decide)
  have listed : ∀ number ≤ 7,
      number ∈ fields.allowed.weekdays ↔ fields.weekday.fits 0 number = true := by
    intro number bound
    exact (Field.mem_values (by decide) valid.weekday).trans
      ⟨fun found => found.2.2,fun found => ⟨Nat.zero_le _,bound,found⟩⟩
  simp only [Allowed.dowMatches,Bool.or_eq_true,Bool.and_eq_true,decide_eq_true_eq,
    listed _ (by omega : dowNumber day ≤ 7),listed 7 le_rfl]

/-- The days that the scan accepts are those of the fields. -/
theorem Valid.dayDue_iff (valid : fields.Valid) (day : Nat) :
    dayDue fields.allowed day = true ↔ fields.onDay day := by
  have dow := valid.dowMatches_iff day
  by_cases both : fields.day.restricted ∧ fields.weekday.restricted
  · have bounds := Calendar.monthDay_bounds _ _ (Calendar.yearDay_lt day)
    have last := Calendar.date_le day
    change 1 ≤ (Calendar.date day).1 ∧ (Calendar.date day).1 ≤ 12 ∧ 1 ≤ (Calendar.date day).2 ∧ _
      at bounds
    have month : (Calendar.date day).1 ∈ fields.allowed.months ↔
        fields.month.fits 1 (Calendar.date day).1 = true :=
      (Field.mem_values (by decide) valid.month).trans
        ⟨fun found => found.2.2,fun found => ⟨bounds.1,bounds.2.1,found⟩⟩
    have dom : (Calendar.date day).2 ∈ fields.allowed.days ↔
        fields.day.fits 1 (Calendar.date day).2 = true :=
      (Field.mem_values (by decide) valid.day).trans
        ⟨fun found => found.2.2,fun found => ⟨bounds.2.2.1,last,found⟩⟩
    rw [dayDue,valid.dayMatches_both both.1 both.2,month,dom,dow,onDay,if_pos both]
  · rw [dayDue,valid.dayMatches_iff both,valid.weekdays_fits,dow,onDay,if_neg both]
    cases free : fields.weekday.restricted with
    | true => simp
    | false => simp [Field.fits_of_unrestricted free]

theorem Valid.due_iff_onMinute (valid : fields.Valid) (minute : Nat) :
    Due fields.allowed minute ↔ fields.onMinute minute := by
  have hour : (timeOf minute).1 < 24 := Nat.mod_lt _ (by decide)
  have second : (timeOf minute).2 < 60 := Nat.mod_lt _ (by decide)
  rw [Due,valid.dayDue_iff,valid.mem_timeCandidates,onMinute]
  constructor
  · rintro ⟨day,_,_,hours,minutes⟩
    exact ⟨minutes,hours,day⟩
  · rintro ⟨minutes,hours,day⟩
    exact ⟨day,by omega,by omega,hours,minutes⟩

end Fields

section

variable [Numerals]

/-- A minute of local time matches an expression. -/
def Matching (expression : Text) (minute : Nat) : Prop :=
  ∃ fields,Fields.read expression = some fields ∧ fields.onMinute minute

/-- The fields of an accepted expression, and the minutes that match it. -/
theorem matching_of_accepted {value expression : Text}
    (accepted : validCron value = some expression) :
    ∃ fields : Fields,fields.Valid ∧ parseCronExpression expression = some fields.allowed ∧
      Matching expression = Due fields.allowed := by
  obtain ⟨fields,read,valid,parsed,_⟩ := readings accepted
  refine ⟨fields,valid,parsed,?_⟩
  funext minute
  rw [valid.due_iff_onMinute,Matching]
  simp [read]

theorem TimeZone.correct_iff {value expression : Text}
    (accepted : validCron value = some expression) (zone : TimeZone) {after : Int}
    (represented : 0 ≤ zone.clock after) (whole : zone.Whole (Matching expression) after) :
    zone.Correct (Matching expression) after (zone.nextCronFire expression after) ↔
      zone.Reaches (Matching expression) after ∨ ∀ minute,¬ Matching expression minute := by
  obtain ⟨fields,valid,parsed,due⟩ := matching_of_accepted accepted
  rw [due] at whole ⊢
  rw [nextCronFire,parsed,Option.bind_some]
  exact scan_correct_iff valid represented whole

/-- Where a minute that matches comes on the days that are scanned, the next fire is the first
instant of one. -/
theorem TimeZone.isLeast_nextCronFire {value expression : Text}
    (accepted : validCron value = some expression) (zone : TimeZone) {after : Int}
    (represented : 0 ≤ zone.clock after) (whole : zone.Whole (Matching expression) after)
    (reaches : zone.Reaches (Matching expression) after) :
    ∃ instant,zone.nextCronFire expression after = some instant ∧
      IsLeast {i | after < i ∧ zone.Fires (Matching expression) i} instant := by
  have correct := (zone.correct_iff accepted represented whole).mpr (.inl reaches)
  cases found : zone.nextCronFire expression after with
  | none =>
    rw [found] at correct
    obtain ⟨minute,_,due,_⟩ := reaches
    exact absurd due (correct minute)
  | some instant =>
    rw [found] at correct
    exact ⟨instant,rfl,correct⟩

end

end LocalBook.Scheduler.Cron
