import LocalBook.Succession
import LocalBook.Scheduler.Cron

/-! When the two backends fire at the same instants. The computation of the next fire takes
the first minute of the scan that matches, so that a run of it goes through the minutes that
match; the trigger conjoins the fields where the computation does not. -/
namespace LocalBook.Scheduler.Cron

open Succession

section

variable [Numerals]

namespace Field

/-- The field that a text stands for. -/
def read (token : Text) : Option Field :=
  if Text.startsWith token stepPrefix then
    (Numerals.int (token.drop 2)).map fun step => .every step.toNat
  else if token = star then some .all
  else (Numerals.int token).map fun number => .single number.toNat

def Within (bounds : Bounds) : Field → Prop
  | .all => True
  | .every step => 1 ≤ step
  | .single value => bounds.low ≤ value ∧ value ≤ bounds.high

def StepAtMost (range : Nat) : Field → Prop
  | .every step => step ≤ range
  | _ => True

instance (range : Nat) (field : Field) : Decidable (field.StepAtMost range) := by
  cases field <;> unfold StepAtMost <;> infer_instance

def restricted : Field → Bool
  | .all => false
  | .every step => step ≠ 1
  | .single _ => true

def values (bounds : Bounds) : Field → List Nat
  | .all => pyRange bounds 1
  | .every step => pyRange bounds step
  | .single value => [value]

end Field

omit [Numerals] in
theorem star_not_step : Text.startsWith star stepPrefix = false := by decide

theorem read_of_validField {bounds : Bounds} {token : Text} (valid : validField bounds token) :
    ∃ field, Field.read token = some field ∧ field.Within bounds ∧
      fieldValues bounds token = some (field.values bounds) ∧
      (compileField bounds token =
        if field.StepAtMost (bounds.high - bounds.low) then some field else none) := by
  unfold validField at valid
  split at valid
  · rename_i stepped
    have notStar : token ≠ star := by
      rintro rfl
      simp [star_not_step] at stepped
    simp only [Bool.and_eq_true,Option.any_eq_true,Bool.not_eq_true',decide_eq_false_iff_not,
      not_lt] at valid
    obtain ⟨-,step,read,positive⟩ := valid
    obtain ⟨step,rfl⟩ := Int.eq_ofNat_of_zero_le (by omega : 0 ≤ step)
    refine ⟨.every step,by simp [Field.read,stepped,read],by simp [Field.Within]; omega,?_,?_⟩
    · simp only [fieldValues,if_neg notStar,if_pos stepped,read,Option.bind_some,
        if_neg (by omega : ¬ (step : Int) < 1),Int.toNat_natCast,Field.values]
    · simp only [compileField,if_neg notStar,if_pos stepped,read,Option.bind_some,Field.StepAtMost,
        Int.toNat_natCast]
      exact if_congr (by omega) rfl rfl
  · rename_i single
    split at valid
    · rename_i isStar
      subst isStar
      exact ⟨.all,by simp [Field.read,star_not_step],trivial,by simp [fieldValues,Field.values],
        by simp [compileField,Field.StepAtMost]⟩
    · rename_i notStar
      split at valid
      · rename_i digits
        simp only [Option.any_eq_true,Bool.and_eq_true,decide_eq_true_eq] at valid
        obtain ⟨number,read,within⟩ := valid
        obtain ⟨number,rfl⟩ := Int.eq_ofNat_of_zero_le (by omega : 0 ≤ number)
        have inBounds : bounds.low ≤ number ∧ number ≤ bounds.high := by omega
        refine ⟨.single number,by simp [Field.read,single,notStar,read],inBounds,?_,?_⟩
        · simp [fieldValues,notStar,single,digits,read,inBounds,Field.values]
        · simp [compileField,notStar,single,read,inBounds,Field.StepAtMost]
      · cases valid

def weekdaysOf : Field → Weekdays
  | .all => .all
  | field => .listed (((field.values ⟨0,7⟩).map fun value => (value + 6) % 7).dedup.mergeSort)

theorem vixieDow_of_read {token : Text} {field : Field} (read : Field.read token = some field) :
    vixieDowToApscheduler token = some (weekdaysOf field) := by
  unfold Field.read at read
  unfold vixieDowToApscheduler
  split at read
  · rename_i stepped
    have notStar : token ≠ star := by
      rintro rfl
      simp [star_not_step] at stepped
    obtain ⟨step,parsed,rfl⟩ := Option.map_eq_some_iff.mp read
    simp [notStar,stepped,parsed,weekdaysOf,Field.values]
  · rename_i single
    split at read
    · rename_i isStar
      cases read
      simp [isStar,weekdaysOf]
    · rename_i notStar
      obtain ⟨number,parsed,rfl⟩ := Option.map_eq_some_iff.mp read
      simp [notStar,single,parsed,weekdaysOf,Field.values]

structure Fields where
  minute : Field
  hour : Field
  day : Field
  month : Field
  weekday : Field

namespace Fields

def read (expression : Text) : Option Fields :=
  match Text.words expression with
  | [minute,hour,day,month,weekday] => do
    return ⟨← Field.read minute,← Field.read hour,← Field.read day,← Field.read month,
      ← Field.read weekday⟩
  | _ => none

structure Valid (fields : Fields) : Prop where
  minute : fields.minute.Within ⟨0,59⟩
  hour : fields.hour.Within ⟨0,23⟩
  day : fields.day.Within ⟨1,31⟩
  month : fields.month.Within ⟨1,12⟩
  weekday : fields.weekday.Within ⟨0,7⟩

def allowed (fields : Fields) : Allowed :=
  ⟨fields.minute.values ⟨0,59⟩,fields.hour.values ⟨0,23⟩,fields.day.values ⟨1,31⟩,
    fields.month.values ⟨1,12⟩,fields.weekday.values ⟨0,7⟩⟩

structure Steps (fields : Fields) : Prop where
  minute : fields.minute.StepAtMost 59
  hour : fields.hour.StepAtMost 23
  day : fields.day.StepAtMost 30
  month : fields.month.StepAtMost 11

def trigger (fields : Fields) : Trigger :=
  ⟨fields.minute,fields.hour,fields.day,fields.month,weekdaysOf fields.weekday⟩

end Fields

/-- What the validator, the computation of the next fire and the trigger make of the same
expression. -/
theorem readings {value text : Text} (valid : validCron value = some text) :
    ∃ fields, Fields.read text = some fields ∧ fields.Valid ∧
      parseCronExpression text = some fields.allowed ∧
      (fields.Steps → triggerFor text = some fields.trigger) ∧
      (∀ trigger, triggerFor text = some trigger → fields.Steps ∧ trigger = fields.trigger) := by
  unfold validCron at valid
  simp only [Text.words_strip] at valid
  split at valid
  · cases valid
  · rename_i five
    split at valid
    · rename_i each
      cases valid
      have words : Text.words (Text.strip value) = Text.words value := Text.words_strip value
      match split : Text.words value,not_not.mp five with
      | [minute,hour,day,month,weekday],_ =>
        simp only [split,fieldBounds,List.zipWith_cons_cons,List.zipWith_nil_right,List.all_cons,
          List.all_nil,id,Bool.and_true,Bool.and_eq_true] at each
        obtain ⟨m,h,d,mo,w⟩ := each
        obtain ⟨minuteF,readM,withinM,valuesM,compileM⟩ := read_of_validField m
        obtain ⟨hourF,readH,withinH,valuesH,compileH⟩ := read_of_validField h
        obtain ⟨dayF,readD,withinD,valuesD,compileD⟩ := read_of_validField d
        obtain ⟨monthF,readMo,withinMo,valuesMo,compileMo⟩ := read_of_validField mo
        obtain ⟨weekdayF,readW,withinW,valuesW,-⟩ := read_of_validField w
        refine ⟨⟨minuteF,hourF,dayF,monthF,weekdayF⟩,?_,⟨withinM,withinH,withinD,withinMo,withinW⟩,
          ?_,?_,?_⟩
        · simp [Fields.read,words,split,readM,readH,readD,readMo,readW]
        · simp [parseCronExpression,Text.words_strip,split,valuesM,valuesH,valuesD,valuesMo,
            valuesW,Fields.allowed]
        · rintro ⟨sM,sH,sD,sMo⟩
          simp only at sM sH sD sMo
          simp [triggerFor,words,split,vixieDow_of_read readW,fromCrontab,compileM,compileH,
            compileD,compileMo,sM,sH,sD,sMo,Fields.trigger]
        · intro trigger built
          simp only [triggerFor,words,split,vixieDow_of_read readW,fromCrontab,compileM,compileH,
            compileD,compileMo,Option.bind_some] at built
          by_cases sM : minuteF.StepAtMost 59 <;> by_cases sH : hourF.StepAtMost 23 <;>
            by_cases sD : dayF.StepAtMost 30 <;> by_cases sMo : monthF.StepAtMost 11 <;>
            simp [sM,sH,sD,sMo] at built
          exact ⟨⟨sM,sH,sD,sMo⟩,built.symm⟩
    · cases valid

omit [Numerals] in
theorem mem_pyRange {bounds : Bounds} (proper : bounds.low ≤ bounds.high) {step : Nat}
    (positive : 1 ≤ step) {value : Nat} : value ∈ pyRange bounds step ↔
      bounds.low ≤ value ∧ value ≤ bounds.high ∧ (value - bounds.low) % step = 0 := by
  simp only [pyRange,List.mem_map,List.mem_range,Nat.lt_succ_iff]
  constructor
  · rintro ⟨k,bound,rfl⟩
    have reach := (Nat.le_div_iff_mul_le (by omega)).mp bound
    rw [Nat.mul_comm] at reach
    exact ⟨by omega,by omega,by simp⟩
  · rintro ⟨low,high,divides⟩
    refine ⟨(value - bounds.low) / step,Nat.div_le_div_right (by omega),?_⟩
    have := Nat.div_add_mod (value - bounds.low) step
    omega

namespace Field

omit [Numerals] in
theorem mem_values {bounds : Bounds} (proper : bounds.low ≤ bounds.high) {field : Field}
    (within : field.Within bounds) {value : Nat} : value ∈ field.values bounds ↔
      bounds.low ≤ value ∧ value ≤ bounds.high ∧ field.fits bounds.low value := by
  cases field with
  | all => simp [values,mem_pyRange proper (le_refl 1),fits,Nat.mod_one]
  | every step => simp [values,mem_pyRange proper within,fits]
  | single own =>
    have : bounds.low ≤ own ∧ own ≤ bounds.high := within
    simp only [values,List.mem_singleton,fits,decide_eq_true_eq]
    exact ⟨fun same => by omega,fun fitting => fitting.2.2⟩

omit [Numerals] in
theorem values_sorted {bounds : Bounds} {field : Field} (within : field.Within bounds) :
    (field.values bounds).Pairwise (· < ·) := by
  have ranges : ∀ step, 1 ≤ step → (pyRange bounds step).Pairwise (· < ·) := by
    intro step positive
    refine List.Pairwise.map _ ?_ List.pairwise_lt_range
    intro i j less
    have := Nat.mul_lt_mul_of_pos_left less positive
    omega
  cases field with
  | all => exact ranges 1 (le_refl 1)
  | every step => exact ranges step within
  | single own => exact List.pairwise_singleton _ _

omit [Numerals] in
theorem values_ne_nil {bounds : Bounds} (field : Field) : field.values bounds ≠ [] := by
  cases field <;> simp [values,pyRange]

omit [Numerals] in
/-- A field is restricted if it has fewer values than its range. -/
theorem length_values {bounds : Bounds} (proper : bounds.low + 2 ≤ bounds.high) {field : Field}
    (within : field.Within bounds) :
    (field.values bounds).length = bounds.high - bounds.low + 1 ↔ field.restricted = false := by
  cases field with
  | all => simp [values,pyRange,restricted]
  | every step =>
    have positive : 1 ≤ step := within
    simp only [values,pyRange,List.length_map,List.length_range,restricted,decide_eq_false_iff_not,
      not_not,Nat.add_right_cancel_iff]
    constructor
    · intro whole
      have reach := Nat.div_mul_le_self (bounds.high - bounds.low) step
      rw [whole] at reach
      exact Nat.eq_of_mul_eq_mul_left (by omega : 0 < bounds.high - bounds.low)
        (le_antisymm (by omega) (Nat.mul_le_mul_left _ positive))
    · rintro rfl
      exact Nat.div_one _
  | single own => simp [values,restricted]; omega

omit [Numerals] in
/-- A field matches the first value of its range, or it is a single value. -/
theorem fits_first (field : Field) (low : Nat) :
    field.fits low low ∨ ∃ own, field = .single own := by
  cases field with
  | all => exact Or.inl rfl
  | every step => exact Or.inl (by simp [Field.fits])
  | single own => exact Or.inr ⟨own,rfl⟩

omit [Numerals] in
theorem fits_of_unrestricted {field : Field} (free : field.restricted = false) (low value : Nat) :
    field.fits low value := by
  cases field with
  | all => rfl
  | every step => simp_all [restricted,fits,Nat.mod_one]
  | single own => cases free

end Field

namespace Fields

variable {fields : Fields} (valid : fields.Valid)
include valid

omit [Numerals] in
theorem Valid.domRestricted : fields.allowed.domRestricted = fields.day.restricted := by
  have whole : fields.allowed.days.length = 31 ↔ fields.day.restricted = false :=
    Field.length_values (by decide) valid.day
  simp only [Allowed.domRestricted]
  cases free : fields.day.restricted with
  | true => simpa [free] using whole
  | false => simpa [free] using whole

omit [Numerals] in
theorem Valid.dowRestricted : fields.allowed.dowRestricted = fields.weekday.restricted := by
  have whole : fields.allowed.weekdays.length = 8 ↔ fields.weekday.restricted = false :=
    Field.length_values (by decide) valid.weekday
  simp only [Allowed.dowRestricted]
  cases free : fields.weekday.restricted with
  | true => simpa [free] using whole
  | false => simpa [free] using whole

omit [Numerals] in
/-- The translated weekdays match the days that the untranslated field matches. -/
theorem Valid.weekdays_fits (day : Nat) :
    (weekdaysOf fields.weekday).fits (Calendar.weekday day) ↔
      fields.weekday.restricted = false ∨ fields.allowed.dowMatches (dowNumber day) := by
  have week : Calendar.weekday day < 7 := Nat.mod_lt _ (by decide)
  have listed : ∀ field : Field, field.Within ⟨0,7⟩ →
      (Calendar.weekday day ∈
        ((field.values ⟨0,7⟩).map fun value => (value + 6) % 7).dedup.mergeSort ↔
        dowNumber day ∈ field.values ⟨0,7⟩ ∨ dowNumber day = 0 ∧ 7 ∈ field.values ⟨0,7⟩) := by
    intro field within
    simp only [List.mem_mergeSort,List.mem_dedup,List.mem_map,dowNumber]
    constructor
    · rintro ⟨value,mem,same⟩
      have bound := ((Field.mem_values (by decide) within).mp mem).2.1
      simp only at bound
      rcases Nat.lt_or_eq_of_le bound with early | rfl
      · left
        rwa [show (Calendar.weekday day + 1) % 7 = value by omega]
      · exact Or.inr ⟨by omega,mem⟩
    · rintro (mem | ⟨sunday,mem⟩)
      · exact ⟨_,mem,by omega⟩
      · exact ⟨_,mem,by omega⟩
  have matched : fields.allowed.dowMatches (dowNumber day) ↔
      (dowNumber day ∈ fields.allowed.weekdays ∨
        dowNumber day = 0 ∧ 7 ∈ fields.allowed.weekdays) := by
    simp [Allowed.dowMatches]
  change _ ↔ (dowNumber day ∈ fields.weekday.values ⟨0,7⟩ ∨
    dowNumber day = 0 ∧ 7 ∈ fields.weekday.values ⟨0,7⟩) at matched
  rw [matched]
  have within := valid.weekday
  cases shape : fields.weekday with
  | all => simp [weekdaysOf,Weekdays.fits,Field.restricted]
  | every step =>
    rw [shape] at within
    simp only [weekdaysOf,Weekdays.fits,decide_eq_true_eq,listed _ within,Field.restricted,
      decide_eq_false_iff_not,not_not]
    refine ⟨Or.inr,fun either => either.elim ?_ id⟩
    rintro rfl
    exact Or.inl ((Field.mem_values (by decide) within).mpr
      ⟨Nat.zero_le _,by simp only [dowNumber]; omega,by simp [Field.fits,Nat.mod_one]⟩)
  | single own =>
    rw [shape] at within
    simp only [weekdaysOf,Weekdays.fits,decide_eq_true_eq,listed _ within,Field.restricted,
      Bool.true_eq_false,false_or]

omit [Numerals] in
/-- With both of them restricted, the days are those of either field. -/
theorem Valid.dayMatches_both (dom : fields.day.restricted) (dow : fields.weekday.restricted)
    (day : Nat) :
    dayMatches (Calendar.date day).2 (Calendar.date day).1 (dowNumber day) fields.allowed ↔
      (Calendar.date day).1 ∈ fields.allowed.months ∧
        ((Calendar.date day).2 ∈ fields.allowed.days ∨
          fields.allowed.dowMatches (dowNumber day)) := by
  unfold dayMatches
  rw [valid.domRestricted,valid.dowRestricted,dom,dow]
  simp

omit [Numerals] in
/-- Otherwise the days are those at which both fields match. -/
theorem Valid.dayMatches_iff (notBoth : ¬ (fields.day.restricted ∧ fields.weekday.restricted))
    (day : Nat) :
    dayMatches (Calendar.date day).2 (Calendar.date day).1 (dowNumber day) fields.allowed ↔
      fields.month.fits 1 (Calendar.date day).1 ∧ fields.day.fits 1 (Calendar.date day).2 ∧
        (weekdaysOf fields.weekday).fits (Calendar.weekday day) := by
  have bounds := Calendar.monthDay_bounds _ _ (Calendar.yearDay_lt day)
  have last := Calendar.date_le day
  change 1 ≤ (Calendar.date day).1 ∧ (Calendar.date day).1 ≤ 12 ∧ 1 ≤ (Calendar.date day).2 ∧ _
    at bounds
  have month : (Calendar.date day).1 ∈ fields.allowed.months ↔
      fields.month.fits 1 (Calendar.date day).1 :=
    (Field.mem_values (by decide) valid.month).trans
      ⟨fun found => found.2.2,fun found => ⟨bounds.1,bounds.2.1,found⟩⟩
  have dom : (Calendar.date day).2 ∈ fields.allowed.days ↔
      fields.day.fits 1 (Calendar.date day).2 :=
    (Field.mem_values (by decide) valid.day).trans
      ⟨fun found => found.2.2,fun found => ⟨bounds.2.2.1,last,found⟩⟩
  rw [valid.weekdays_fits,← month]
  unfold dayMatches
  rw [valid.domRestricted,valid.dowRestricted]
  cases domR : fields.day.restricted with
  | true =>
    have dowR : fields.weekday.restricted = false := by
      by_contra found
      exact notBoth ⟨domR,by simpa using found⟩
    simp [dowR,← dom]
  | false =>
    have free := Field.fits_of_unrestricted domR 1 (Calendar.date day).2
    cases dowR : fields.weekday.restricted with
    | true => simp [free]
    | false => simp [free]

end Fields

def timeKey (time : Nat × Nat) : Nat := time.1 * 60 + time.2

omit [Numerals] in
theorem minuteAt_eq (day : Nat) (time : Nat × Nat) :
    minuteAt day time = day * 1440 + timeKey time := by
  simp only [minuteAt,timeKey]
  omega

omit [Numerals] in
theorem dayOf_minuteAt (day : Nat) {time : Nat × Nat} (hour : time.1 ≤ 23) (minute : time.2 ≤ 59) :
    dayOf (minuteAt day time) = day ∧ timeOf (minuteAt day time) = time := by
  refine ⟨by simp only [dayOf,minuteAt]; omega,Prod.ext ?_ ?_⟩
  · simp only [timeOf,minuteAt]
    omega
  · simp only [timeOf,minuteAt]
    omega

omit [Numerals] in
theorem minuteAt_dayOf (minute : Nat) : minuteAt (dayOf minute) (timeOf minute) = minute := by
  simp only [minuteAt,dayOf,timeOf]
  omega

namespace Zone

variable (zone : Zone)

omit [Numerals] in
@[simp] theorem localMinute_instant (minute : Nat) :
    zone.localMinute (zone.instant minute) = minute := by
  rw [localMinute,instant,Int.sub_add_cancel,Int.toNat_natCast,
    Nat.mul_div_cancel _ (by decide : 0 < minuteTicks)]

omit [Numerals] in
theorem instant_injective : Function.Injective zone.instant :=
  Function.LeftInverse.injective (localMinute_instant zone)

omit [Numerals] in
/-- An instant is before those of the minutes that are after its own. -/
theorem lt_instant {after : Int} (represented : 0 ≤ after + zone.offset) (minute : Nat) :
    after < zone.instant minute ↔ zone.localMinute after < minute := by
  obtain ⟨ticks,same⟩ := Int.eq_ofNat_of_zero_le represented
  rw [localMinute,same,Int.toNat_natCast,Nat.div_lt_iff_lt_mul (by decide),instant]
  omega

end Zone

omit [Numerals] in
@[simp] theorem wallTimeExists_eq (zone : Zone) (minute : Nat) :
    wallTimeExists zone minute = true := by
  simp [wallTimeExists]

namespace Fields

variable {fields : Fields} (valid : fields.Valid)
include valid

omit [Numerals] in
theorem Valid.timeCandidates_eq : timeCandidates fields.allowed =
    fields.allowed.hours.flatMap fun hour => fields.allowed.minutes.map (hour,·) := by
  have hours : fields.allowed.hours.mergeSort = fields.allowed.hours :=
    List.mergeSort_of_pairwise ((Field.values_sorted valid.hour).imp fun less => by
      simpa using less.le)
  have minutes : fields.allowed.minutes.mergeSort = fields.allowed.minutes :=
    List.mergeSort_of_pairwise ((Field.values_sorted valid.minute).imp fun less => by
      simpa using less.le)
  rw [timeCandidates,hours,minutes]

omit [Numerals] in
theorem Valid.mem_timeCandidates (time : Nat × Nat) : time ∈ timeCandidates fields.allowed ↔
    time.1 ≤ 23 ∧ time.2 ≤ 59 ∧ fields.hour.fits 0 time.1 ∧ fields.minute.fits 0 time.2 := by
  obtain ⟨hour,minute⟩ := time
  have hours : hour ∈ fields.allowed.hours ↔ _ := Field.mem_values (by decide) valid.hour
  have minutes : minute ∈ fields.allowed.minutes ↔ _ := Field.mem_values (by decide) valid.minute
  rw [valid.timeCandidates_eq]
  simp only [List.mem_flatMap,List.mem_map,Prod.mk.injEq]
  constructor
  · rintro ⟨_,inHours,_,inMinutes,rfl,rfl⟩
    obtain ⟨-,hourBound,hourFits⟩ := hours.mp inHours
    obtain ⟨-,minuteBound,minuteFits⟩ := minutes.mp inMinutes
    exact ⟨hourBound,minuteBound,hourFits,minuteFits⟩
  · rintro ⟨hourBound,minuteBound,hourFits,minuteFits⟩
    exact ⟨hour,hours.mpr ⟨Nat.zero_le _,hourBound,hourFits⟩,minute,
      minutes.mpr ⟨Nat.zero_le _,minuteBound,minuteFits⟩,rfl,rfl⟩

omit [Numerals] in
/-- The candidates are in the order of the day. -/
theorem Valid.timeCandidates_sorted :
    (timeCandidates fields.allowed).Pairwise fun a b => timeKey a < timeKey b := by
  rw [valid.timeCandidates_eq,List.pairwise_flatMap]
  constructor
  · intro hour _
    rw [List.pairwise_map]
    refine (Field.values_sorted valid.minute).imp ?_
    intro a b less
    simpa [timeKey] using less
  · refine (Field.values_sorted valid.hour).imp ?_
    intro a b less x inFirst y inSecond
    obtain ⟨m,inMinutes,rfl⟩ := List.mem_map.mp inFirst
    obtain ⟨n,-,rfl⟩ := List.mem_map.mp inSecond
    have bound := ((Field.mem_values (by decide) valid.minute).mp inMinutes).2.1
    simp only [timeKey] at bound ⊢
    omega

omit [Numerals] in
theorem Valid.exists_time : ∃ time, time ∈ timeCandidates fields.allowed := by
  obtain ⟨hour,inHours⟩ := List.exists_mem_of_ne_nil _ (Field.values_ne_nil fields.hour :
    fields.hour.values ⟨0,23⟩ ≠ [])
  obtain ⟨minute,inMinutes⟩ := List.exists_mem_of_ne_nil _ (Field.values_ne_nil fields.minute :
    fields.minute.values ⟨0,59⟩ ≠ [])
  refine ⟨(hour,minute),?_⟩
  rw [valid.timeCandidates_eq]
  exact List.mem_flatMap.mpr ⟨hour,inHours,List.mem_map_of_mem inMinutes⟩

end Fields

def dayDue (allowed : Allowed) (day : Nat) : Bool :=
  dayMatches (Calendar.date day).2 (Calendar.date day).1 (dowNumber day) allowed

def Due (allowed : Allowed) (minute : Nat) : Prop :=
  dayDue allowed (dayOf minute) ∧ timeOf minute ∈ timeCandidates allowed

def nextMinute (allowed : Allowed) (after : Nat) : Option Nat :=
  (List.range scanDays).findSome? fun offsetDays =>
    if dayDue allowed (dayOf after + offsetDays) then
      ((timeCandidates allowed).find? fun time =>
        after < minuteAt (dayOf after + offsetDays) time).map (minuteAt (dayOf after + offsetDays))
    else none

omit [Numerals] in
theorem Fields.Valid.fireOn_eq {fields : Fields} (valid : fields.Valid) {zone : Zone} {after : Int}
    (represented : 0 ≤ after + zone.offset) (offsetDays : Nat) :
    fireOn fields.allowed zone after offsetDays =
      (if dayDue fields.allowed (dayOf (zone.localMinute after) + offsetDays) then
        ((timeCandidates fields.allowed).find? fun time => zone.localMinute after <
          minuteAt (dayOf (zone.localMinute after) + offsetDays) time).map
            (minuteAt (dayOf (zone.localMinute after) + offsetDays))
      else none).map zone.instant := by
  unfold fireOn dayDue
  simp only [wallTimeExists_eq,Bool.true_and,zone.lt_instant represented]
  split
  · rw [Option.map_map]
    congr 1
    by_cases today : offsetDays = 0
    · subst today
      -- What the start index skips is not after the instant.
      rw [if_pos rfl]
      refine find?_drop_findIdx fun time candidate later => ?_
      obtain ⟨-,minute,-⟩ := (valid.mem_timeCandidates time).mp candidate
      rw [decide_eq_true_eq] at later
      conv at later => lhs; rw [← minuteAt_dayOf (zone.localMinute after)]
      have inHour : (timeOf (zone.localMinute after)).2 < 60 := Nat.mod_lt _ (by decide)
      simp only [minuteAt,Nat.add_zero] at later
      simp only [isLater,Bool.or_eq_true,Bool.and_eq_true,decide_eq_true_eq]
      omega
    · rw [if_neg today,List.drop_zero]
  · rfl

theorem nextCronFire_eq {expression : Text} {fields : Fields} (valid : fields.Valid)
    (parsed : parseCronExpression expression = some fields.allowed) {zone : Zone} {after : Int}
    (represented : 0 ≤ after + zone.offset) : nextCronFire expression zone after =
      (nextMinute fields.allowed (zone.localMinute after)).map zone.instant := by
  rw [nextCronFire,parsed,Option.bind_some,nextMinute,List.map_findSome?]
  congr 1
  funext offsetDays
  exact valid.fireOn_eq represented offsetDays

omit [Numerals] in
theorem Fields.Valid.nextMinute_some {fields : Fields} (valid : fields.Valid) {after minute : Nat}
    (found : nextMinute fields.allowed after = some minute) :
    IsNext (Due fields.allowed) after minute := by
  obtain ⟨k,-,hit,earlier⟩ := findSome?_range found
  split at hit
  · rename_i due
    obtain ⟨time,first,rfl⟩ := Option.map_eq_some_iff.mp hit
    have candidate := List.mem_of_find?_eq_some first
    have later : after < minuteAt (dayOf after + k) time := by
      simpa using List.find?_some first
    obtain ⟨hour,minute,-⟩ := (valid.mem_timeCandidates time).mp candidate
    obtain ⟨day,clock⟩ := dayOf_minuteAt (dayOf after + k) hour minute
    refine ⟨⟨by rwa [day],by rwa [clock]⟩,later,?_⟩
    intro other otherDue otherLater
    have order := minuteAt_dayOf other
    by_contra less
    rw [not_le] at less
    -- Another minute that is due is on the same day, or on a day that the scan has passed.
    have notAfter : dayOf other ≤ dayOf after + k := by
      rw [← day]
      exact Nat.div_le_div_right (Nat.div_le_div_right less.le)
    have notBefore : dayOf after ≤ dayOf other :=
      Nat.div_le_div_right (Nat.div_le_div_right otherLater.le)
    obtain ⟨j,same⟩ : ∃ j, dayOf other = dayOf after + j := ⟨_,(Nat.add_sub_of_le notBefore).symm⟩
    rcases Nat.lt_or_eq_of_le (by omega : j ≤ k) with early | rfl
    · have none := earlier j early
      rw [if_pos (same ▸ otherDue.1),Option.map_eq_none_iff,List.find?_eq_none] at none
      exact none _ otherDue.2 (by rw [← same,order]; simpa using otherLater)
    · have least := find?_least valid.timeCandidates_sorted first _ otherDue.2 (by
        rw [← same,order]
        simpa using otherLater)
      rw [← order,minuteAt_eq,minuteAt_eq,same] at less
      omega
  · cases hit

omit [Numerals] in
theorem nextMinute_none {allowed : Allowed} {after : Nat}
    (exhausted : nextMinute allowed after = none) {minute : Nat} (due : Due allowed minute)
    (later : after < minute) : dayOf after + scanDays ≤ dayOf minute := by
  by_contra less
  have notBefore : dayOf after ≤ dayOf minute :=
    Nat.div_le_div_right (Nat.div_le_div_right later.le)
  have none := List.findSome?_eq_none_iff.mp exhausted (dayOf minute - dayOf after)
    (List.mem_range.mpr (by omega))
  rw [Nat.add_sub_of_le notBefore,if_pos due.1,Option.map_eq_none_iff,List.find?_eq_none] at none
  exact none _ due.2 (by rw [minuteAt_dayOf]; simpa using later)

namespace Fields

/-- The fields on which the two backends agree: the library rejects no step, the day of the
month and the day of the week are not alternatives, and the days are not those of the leap
years alone, which the scan does not reach. -/
structure Agreeable (fields : Fields) : Prop where
  steps : fields.Steps
  conjoined : ¬ (fields.day.restricted ∧ fields.weekday.restricted)
  reached : ¬ (fields.day = .single 29 ∧ fields.month = .single 2)

variable {fields : Fields} (valid : fields.Valid)
include valid

omit [Numerals] in
theorem Valid.due_iff (conjoined : ¬ (fields.day.restricted ∧ fields.weekday.restricted))
    (minute : Nat) : Due fields.allowed minute ↔ fields.trigger.fits minute := by
  have hour : (timeOf minute).1 < 24 := Nat.mod_lt _ (by decide)
  have second : (timeOf minute).2 < 60 := Nat.mod_lt _ (by decide)
  rw [Due,dayDue,valid.dayMatches_iff conjoined,valid.mem_timeCandidates]
  simp only [Trigger.fits,trigger,Bool.and_eq_true]
  constructor
  · rintro ⟨⟨month,dom,dow⟩,-,-,hours,minutes⟩
    exact ⟨⟨⟨⟨minutes,hours⟩,dom⟩,month⟩,dow⟩
  · rintro ⟨⟨⟨⟨minutes,hours⟩,dom⟩,month⟩,dow⟩
    exact ⟨⟨month,dom,dow⟩,by omega,by omega,hours,minutes⟩

omit valid in
omit [Numerals] in
theorem day_fits {minute : Nat} (fits : fields.trigger.fits minute) :
    fields.day.fits 1 (Calendar.date (dayOf minute)).2 := by
  simp only [Trigger.fits,trigger,Bool.and_eq_true] at fits
  exact fits.1.1.2

omit [Numerals] in
theorem Valid.due_minuteAt {day : Nat} {time : Nat × Nat}
    (candidate : time ∈ timeCandidates fields.allowed) :
    Due fields.allowed (minuteAt day time) ↔ dayDue fields.allowed day := by
  obtain ⟨hour,minute,-⟩ := (valid.mem_timeCandidates time).mp candidate
  obtain ⟨sameDay,clock⟩ := dayOf_minuteAt day hour minute
  rw [Due,sameDay,clock]
  exact ⟨fun due => due.1,fun due => ⟨due,candidate⟩⟩

omit [Numerals] in
/-- A scan that fails has seen no day on which the expression is due. -/
theorem Valid.not_dayDue {after : Nat} (exhausted : nextMinute fields.allowed after = none) (k : Nat)
    (first : 1 ≤ k) (last : k < 400) : ¬ dayDue fields.allowed (dayOf after + k) := by
  intro due
  obtain ⟨time,candidate⟩ := valid.exists_time
  obtain ⟨hour,minute,-⟩ := (valid.mem_timeCandidates time).mp candidate
  obtain ⟨sameDay,-⟩ := dayOf_minuteAt (dayOf after + k) hour minute
  have later : after < minuteAt (dayOf after + k) time := by
    simp only [minuteAt,dayOf]
    omega
  have past := nextMinute_none exhausted ((valid.due_minuteAt candidate).mpr due) later
  rw [sameDay] at past
  simp only [scanDays] at past
  omega

omit [Numerals] in
/-- Once the scan fails, nothing is due any more. -/
theorem Valid.exhausted (agreeable : fields.Agreeable) {after : Nat}
    (exhausted : nextMinute fields.allowed after = none) (minute : Nat)
    (due : Due fields.allowed minute) : minute ≤ after := by
  have iff := valid.dayMatches_iff agreeable.conjoined
  have none := fun k first last => mt (iff _).mpr (valid.not_dayDue exhausted k first last)
  obtain ⟨month,dom,dow⟩ := (iff _).mp due.1
  have weekdays := valid.weekdays_fits
  have bounds := Calendar.monthDay_bounds _ _ (Calendar.yearDay_lt (dayOf minute))
  cases weekday : fields.weekday.restricted with
  | true =>
    -- The weekday comes within a year and a week, in a month that has to be allowed.
    exfalso
    have domFree : fields.day.restricted = false := by
      by_contra found
      exact agreeable.conjoined ⟨by simpa using found,weekday⟩
    obtain ⟨k,first,last,inMonth,onWeekday⟩ := Calendar.exists_weekday ⟨bounds.1,bounds.2.1⟩
      (Nat.mod_lt _ (by decide) : Calendar.weekday (dayOf minute) < 7) (dayOf after)
    refine none k first last ⟨?_,Field.fits_of_unrestricted domFree _ _,by rwa [onWeekday]⟩
    rw [inMonth]
    exact month
  | false =>
    have anyDay : ∀ day, (weekdaysOf fields.weekday).fits (Calendar.weekday day) :=
      fun day => (weekdays day).mpr (Or.inl weekday)
    have noYearly : ∀ month day, Calendar.Yearly month day → fields.month.fits 1 month →
        ¬ fields.day.fits 1 day := by
      intro month day yearly monthFits dayFits
      obtain ⟨k,first,last,there⟩ := Calendar.exists_date yearly (dayOf after)
      exact none k first (by omega) ⟨by rwa [there],by rwa [there],anyDay _⟩
    rcases Calendar.date_cases (dayOf minute) with leap | yearly
    · -- Only the twenty-ninth of February is left, which the fields may not name alone.
      exfalso
      rw [leap] at month dom
      rcases Field.fits_first fields.day 1 with one | ⟨own,day⟩
      · exact noYearly 2 1 (by decide) month one
      · rcases Field.fits_first fields.month 1 with january | ⟨only,months⟩
        · exact noYearly 1 29 (by decide) january dom
        · rw [day] at dom
          rw [months] at month
          simp only [Field.fits,decide_eq_true_eq] at dom month
          exact agreeable.reached ⟨by rw [day,dom],by rw [months,month]⟩
    · exact absurd dom (noYearly _ _ yearly month)

omit [Numerals] in
theorem Valid.succeeds (agreeable : fields.Agreeable) :
    Succeeds (Due fields.allowed) (nextMinute fields.allowed) where
  found := valid.nextMinute_some
  exhausted exhausted minute due := valid.exhausted agreeable exhausted minute due

end Fields

/-- The sequence that iterating `next_cron_fire` from an instant gives. -/
def firing (expression : Text) (zone : Zone) (start : Int) : Nat → Option Int
  | 0 => nextCronFire expression zone start
  | n + 1 => (firing expression zone start n).bind (nextCronFire expression zone)

/-- The two backends fire on the same instants: the trigger is built, its fire times after an
instant are those of the sequence, which goes upwards, and the status view reports the first
of them. -/
def Agree (expression : Text) (zone : Zone) : Prop :=
  ∃ trigger, triggerFor expression = some trigger ∧
    ∀ start, 0 ≤ start + zone.offset →
      (∀ instant, start < instant ∧ trigger.FiresAt zone instant ↔
        ∃ n, firing expression zone start n = some instant) ∧
      (∀ n instant later, firing expression zone start n = some instant →
        firing expression zone start (n + 1) = some later → instant < later) ∧
      computeNextRun expression zone start = firing expression zone start 0

theorem firing_eq {expression : Text} {fields : Fields} (valid : fields.Valid)
    (parsed : parseCronExpression expression = some fields.allowed) {zone : Zone} {start : Int}
    (represented : 0 ≤ start + zone.offset) (n : Nat) : firing expression zone start n =
      (chain (nextMinute fields.allowed) (zone.localMinute start) n).map zone.instant := by
  induction n with
  | zero => exact nextCronFire_eq valid parsed represented
  | succ n ih =>
    rw [firing,ih,chain]
    cases chain (nextMinute fields.allowed) (zone.localMinute start) n with
    | none => rfl
    | some minute =>
      have represented : 0 ≤ zone.instant minute + zone.offset := by
        simp only [Zone.instant]
        omega
      have next := nextCronFire_eq valid parsed represented
      rw [Zone.localMinute_instant] at next
      exact next

/-- The sequence goes through the minutes that are due, in order. -/
theorem firing_increasing {expression : Text} {fields : Fields} (valid : fields.Valid)
    (parsed : parseCronExpression expression = some fields.allowed) {zone : Zone} {start : Int}
    (represented : 0 ≤ start + zone.offset) {n : Nat} {instant later : Int}
    (now : firing expression zone start n = some instant)
    (next : firing expression zone start (n + 1) = some later) : instant < later := by
  rw [firing_eq valid parsed represented] at now next
  obtain ⟨minute,reached,rfl⟩ := Option.map_eq_some_iff.mp now
  obtain ⟨minute',reached',rfl⟩ := Option.map_eq_some_iff.mp next
  rw [chain,reached,Option.bind_some] at reached'
  rw [Zone.lt_instant zone (by simp only [Zone.instant]; omega),Zone.localMinute_instant]
  exact (valid.nextMinute_some reached').later

theorem exists_firing_iff {expression : Text} {fields : Fields} (valid : fields.Valid)
    (parsed : parseCronExpression expression = some fields.allowed) {zone : Zone} {start : Int}
    (represented : 0 ≤ start + zone.offset) (minute : Nat) :
    (∃ n, firing expression zone start n = some (zone.instant minute)) ↔
      ∃ n, chain (nextMinute fields.allowed) (zone.localMinute start) n = some minute := by
  simp only [firing_eq valid parsed represented,Option.map_eq_some_iff]
  constructor
  · rintro ⟨n,other,reached,same⟩
    exact ⟨n,zone.instant_injective same ▸ reached⟩
  · rintro ⟨n,reached⟩
    exact ⟨n,minute,reached,rfl⟩

/-- In minutes of local time: the trigger is built, and it matches what the scans go through. -/
theorem agree_iff_minutes {expression : Text} {fields : Fields} (valid : fields.Valid)
    (parsed : parseCronExpression expression = some fields.allowed)
    (built : fields.Steps → triggerFor expression = some fields.trigger)
    (steps : ∀ trigger, triggerFor expression = some trigger →
      fields.Steps ∧ trigger = fields.trigger) (zone : Zone) :
    Agree expression zone ↔ fields.Steps ∧ ∀ after minute,
      (after < minute ∧ fields.trigger.fits minute ↔
        ∃ n, chain (nextMinute fields.allowed) after n = some minute) := by
  constructor
  · rintro ⟨trigger,constructed,same⟩
    obtain ⟨inRange,rfl⟩ := steps trigger constructed
    refine ⟨inRange,fun after minute => ?_⟩
    have represented : 0 ≤ zone.instant after + zone.offset := by simp only [Zone.instant]; omega
    have iff := (same (zone.instant after) represented).1 (zone.instant minute)
    rw [exists_firing_iff valid parsed represented,Zone.lt_instant zone represented,
      Zone.localMinute_instant] at iff
    rw [← iff]
    refine and_congr_right fun _ => ⟨fun fits => ⟨minute,fits,rfl⟩,?_⟩
    rintro ⟨other,fits,equal⟩
    rwa [zone.instant_injective equal]
  · rintro ⟨inRange,same⟩
    refine ⟨fields.trigger,built inRange,fun start represented => ⟨fun instant => ?_,
      fun n instant later => firing_increasing valid parsed represented,rfl⟩⟩
    constructor
    · rintro ⟨later,minute,fits,rfl⟩
      rw [Zone.lt_instant zone represented] at later
      exact (exists_firing_iff valid parsed represented minute).mpr
        ((same _ _).mp ⟨later,fits⟩)
    · rintro ⟨n,reached⟩
      obtain ⟨minute,-,rfl⟩ := Option.map_eq_some_iff.mp
        ((firing_eq valid parsed represented n).symm.trans reached)
      obtain ⟨later,fits⟩ := (same _ _).mpr
        ((exists_firing_iff valid parsed represented minute).mp ⟨n,reached⟩)
      exact ⟨(Zone.lt_instant zone represented minute).mpr later,minute,fits,rfl⟩

namespace Fields

variable {fields : Fields} (valid : fields.Valid)
include valid

omit [Numerals] in
/-- What is due in a minute is what the scan from the minute before it finds. -/
theorem Valid.chain_before {minute : Nat} (due : Due fields.allowed (minute + 1)) :
    chain (nextMinute fields.allowed) minute 0 = some (minute + 1) := by
  cases found : nextMinute fields.allowed minute with
  | none =>
    have past := nextMinute_none found due (Nat.lt_succ_self minute)
    simp only [dayOf,scanDays] at past
    omega
  | some other =>
    have next := valid.nextMinute_some found
    have least := next.least _ due (Nat.lt_succ_self minute)
    have later := next.later
    rw [chain,found,show other = minute + 1 by omega]

omit [Numerals] in
theorem Valid.exists_month : ∃ month, 1 ≤ month ∧ month ≤ 12 ∧ fields.month.fits 1 month ∧
    month ∈ fields.allowed.months := by
  obtain ⟨month,mem⟩ := List.exists_mem_of_ne_nil _ (Field.values_ne_nil fields.month :
    fields.month.values ⟨1,12⟩ ≠ [])
  obtain ⟨low,high,fits⟩ := (Field.mem_values (by decide) valid.month).mp mem
  exact ⟨month,low,high,fits,mem⟩

omit [Numerals] in
/-- A restricted day of the month leaves out the first or the second. -/
theorem Valid.exists_unfit (dom : fields.day.restricted) :
    ∃ day < 3, 1 ≤ day ∧ ¬ fields.day.fits 1 day := by
  have within := valid.day
  cases shape : fields.day with
  | all => simp [shape,Field.restricted] at dom
  | every step =>
    rw [shape] at dom within
    simp only [Field.restricted,Field.Within,decide_eq_true_eq] at dom within
    refine ⟨2,by decide,by decide,?_⟩
    simp [Field.fits,Nat.mod_eq_of_lt (by omega : 1 < step)]
  | single own =>
    by_cases one : own = 1
    · exact ⟨2,by decide,by decide,by simp [Field.fits,one]⟩
    · exact ⟨1,by decide,by decide,by simpa [Field.fits] using Ne.symm one⟩

omit [Numerals] in
theorem Valid.exists_weekday : ∃ w < 7, ∀ day, Calendar.weekday day = w →
    fields.allowed.dowMatches (dowNumber day) := by
  obtain ⟨value,mem⟩ := List.exists_mem_of_ne_nil _ (Field.values_ne_nil fields.weekday :
    fields.weekday.values ⟨0,7⟩ ≠ [])
  have bound := ((Field.mem_values (by decide) valid.weekday).mp mem).2.1
  change value ∈ fields.allowed.weekdays at mem
  refine ⟨(value + 6) % 7,Nat.mod_lt _ (by decide),fun day onDay => ?_⟩
  simp only at bound
  simp only [Allowed.dowMatches,dowNumber,onDay,Bool.or_eq_true,Bool.and_eq_true,decide_eq_true_eq]
  rcases Nat.lt_or_eq_of_le bound with early | rfl
  · left
    rwa [show ((value + 6) % 7 + 1) % 7 = value by omega]
  · exact Or.inr ⟨by decide,mem⟩

omit [Numerals] in
/-- Alternatives make the scan find a day that the trigger does not match. -/
theorem Valid.not_same_of_both (dom : fields.day.restricted) (dow : fields.weekday.restricted) :
    ∃ after minute, (∃ n, chain (nextMinute fields.allowed) after n = some minute) ∧
      ¬ fields.trigger.fits minute := by
  obtain ⟨month,low,high,-,inMonths⟩ := valid.exists_month
  obtain ⟨day,early,positive,unfit⟩ := valid.exists_unfit dom
  obtain ⟨w,week,onWeekday⟩ := valid.exists_weekday
  obtain ⟨time,candidate⟩ := valid.exists_time
  obtain ⟨y,-,there⟩ := Calendar.exists_early month (by omega) low day early positive w week
  have earlies : ∀ month < 13, 1 ≤ month → ∀ day < 3, 1 ≤ day → Calendar.Yearly month day := by
    decide
  have date := Calendar.date_yearStart (earlies month (by omega) low day early positive) (y + 1)
  generalize place : Calendar.yearStart (y + 1) +
    Calendar.dayOfYear (Calendar.isLeap (y + 2)) month day = n at there date
  have due : dayDue fields.allowed n := by
    rw [dayDue,valid.dayMatches_both dom dow,date]
    exact ⟨inMonths,Or.inr (onWeekday n there)⟩
  have positiveDay : 1 ≤ n := by
    rw [← place,Calendar.yearStart]
    have : 365 ≤ Calendar.yearLength (Calendar.isLeap (y + 1)) := by
      cases Calendar.isLeap (y + 1) <;> decide
    omega
  obtain ⟨minute,same⟩ : ∃ minute, minuteAt n time = minute + 1 :=
    Nat.exists_eq_succ_of_ne_zero (by simp only [minuteAt]; omega)
  refine ⟨minute,minute + 1,⟨0,valid.chain_before (same ▸ (valid.due_minuteAt candidate).mpr due)⟩,
    ?_⟩
  obtain ⟨hour,clock,-⟩ := (valid.mem_timeCandidates time).mp candidate
  intro fits
  have fitting := day_fits fits
  rw [← same,(dayOf_minuteAt n hour clock).1,date] at fitting
  exact unfit fitting

omit [Numerals] in
/-- From the last of February in a leap year the scan does not come to the next one. -/
theorem Valid.not_same_of_leap (conjoined : ¬ (fields.day.restricted ∧ fields.weekday.restricted))
    (day : fields.day = .single 29) (month : fields.month = .single 2) :
    ∃ after minute, after < minute ∧ fields.trigger.fits minute ∧
      nextMinute fields.allowed after = none := by
  have iff := valid.dayMatches_iff conjoined
  have weekday : fields.weekday.restricted = false := by
    by_contra found
    exact conjoined ⟨by rw [day]; rfl,by simpa using found⟩
  have onLeap : ∀ n, dayDue fields.allowed n ↔ Calendar.date n = (2,29) := by
    intro n
    rw [dayDue,iff,valid.weekdays_fits,day,month]
    simp [weekday,Field.fits,Prod.ext_iff]
  obtain ⟨-,second⟩ := Calendar.date_leapYears
  obtain ⟨time,candidate⟩ := valid.exists_time
  refine ⟨minuteAt (Calendar.yearStart 3 + 59) (23,59),minuteAt (Calendar.yearStart 7 + 59) time,
    ?_,?_,?_⟩
  · have years : Calendar.yearStart 3 + 60 ≤ Calendar.yearStart 7 + 59 := by decide
    simp only [minuteAt]
    omega
  · exact (valid.due_iff conjoined _).mp
      ((valid.due_minuteAt candidate).mpr ((onLeap _).mpr second))
  · refine List.findSome?_eq_none_iff.mpr fun k inScan => ?_
    have last := List.mem_range.mp inScan
    rw [(dayOf_minuteAt _ (le_refl 23) (le_refl 59)).1]
    rcases Nat.eq_zero_or_pos k with rfl | first
    · -- No time of the day itself is later.
      split
      · rw [Option.map_eq_none_iff,List.find?_eq_none]
        intro time inDay
        obtain ⟨hour,minute,-⟩ := (valid.mem_timeCandidates time).mp inDay
        have inTime : timeKey time ≤ timeKey (23,59) := by
          simp only [timeKey]
          omega
        rw [decide_eq_true_eq,Nat.add_zero,minuteAt_eq,minuteAt_eq]
        omega
      · rfl
    · exact if_neg fun due => Calendar.date_ne_leap first last ((onLeap _).mp due)

end Fields

theorem agree_iff_agreeable {expression : Text} {fields : Fields} (valid : fields.Valid)
    (parsed : parseCronExpression expression = some fields.allowed)
    (built : fields.Steps → triggerFor expression = some fields.trigger)
    (steps : ∀ trigger, triggerFor expression = some trigger →
      fields.Steps ∧ trigger = fields.trigger) (zone : Zone) :
    Agree expression zone ↔ fields.Agreeable := by
  rw [agree_iff_minutes valid parsed built steps]
  constructor
  · rintro ⟨inRange,same⟩
    have conjoined : ¬ (fields.day.restricted ∧ fields.weekday.restricted) := by
      rintro ⟨dom,dow⟩
      obtain ⟨after,minute,reached,unfit⟩ := valid.not_same_of_both dom dow
      exact unfit ((same after minute).mpr reached).2
    refine ⟨inRange,conjoined,?_⟩
    rintro ⟨day,month⟩
    obtain ⟨after,minute,later,fits,exhausted⟩ := valid.not_same_of_leap conjoined day month
    obtain ⟨n,reached⟩ := (same after minute).mp ⟨later,fits⟩
    rw [chain_none exhausted] at reached
    cases reached
  · intro agreeable
    refine ⟨agreeable.steps,fun after minute => ?_⟩
    rw [chain_iff (valid.succeeds agreeable),valid.due_iff agreeable.conjoined]

/-- The two backends agree on an expression that the validator accepts exactly if the library
rejects none of its steps, the day of the month and the day of the week are not both
restricted, and the days are not the last of February alone. -/
theorem agree_iff {value expression : Text} (accepted : validCron value = some expression)
    (zone : Zone) : Agree expression zone ↔
      ∃ fields, Fields.read expression = some fields ∧ fields.Agreeable := by
  obtain ⟨fields,read,valid,parsed,built,steps⟩ := readings accepted
  rw [agree_iff_agreeable valid parsed built steps]
  constructor
  · intro agreeable
    exact ⟨fields,read,agreeable⟩
  · rintro ⟨other,sameRead,agreeable⟩
    obtain rfl := Option.some.inj (read.symm.trans sameRead)
    exact agreeable

end

open scoped AsciiNumerals in
/-- The weekly review, on Sundays at eight in the evening. -/
theorem agree_weekly : Agree "0 20 * * 0".toList ⟨28800000000⟩ :=
  (agree_iff (by decide +kernel : validCron "0 20 * * 0".toList = some "0 20 * * 0".toList) _).mpr
    ⟨⟨.single 0,.single 20,.all,.all,.single 0⟩,rfl,
      ⟨trivial,trivial,trivial,trivial⟩,by decide,by simp⟩

open scoped AsciiNumerals in
/-- On the first of the month or on Mondays, the two backends do not agree. -/
theorem firstOrMonday_not_agree : validCron "0 0 1 * 1".toList = some "0 0 1 * 1".toList ∧
    ¬ Agree "0 0 1 * 1".toList ⟨0⟩ := by
  have accepted : validCron "0 0 1 * 1".toList = some "0 0 1 * 1".toList := by decide +kernel
  refine ⟨accepted,fun agree => ?_⟩
  obtain ⟨fields,read,valid,parsed,built,steps⟩ := readings accepted
  have agreeable := (agree_iff_agreeable valid parsed built steps ⟨0⟩).mp agree
  have shape : Fields.read "0 0 1 * 1".toList =
      some ⟨.single 0,.single 0,.single 1,.all,.single 1⟩ := rfl
  obtain rfl := Option.some.inj (shape.symm.trans read)
  exact agreeable.conjoined ⟨rfl,rfl⟩

end LocalBook.Scheduler.Cron
