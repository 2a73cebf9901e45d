import LocalBook.Text
import LocalBook.Scheduler.Calendar

/-! Cron expressions: the validator of the configuration, the next fire that the module of
the scheduler computes, and the trigger that the other backend builds. The runtime supplies
`str.isdigit` and `int`. -/
namespace LocalBook

namespace Text

def finished (word : Text) : List Text := if word = [] then [] else [word]

def wordsFrom (word : Text) : Text → List Text
  | [] => finished word
  | c :: t => if isSpace c then finished word ++ wordsFrom [] t else wordsFrom (word ++ [c]) t

/-- `t.split()`. -/
def words (t : Text) : List Text := wordsFrom [] t

theorem words_lstrip (t : Text) : words (lstripBy isSpace t) = words t := by
  induction t with
  | nil => rfl
  | cons c t ih =>
    rw [lstripBy,List.dropWhile_cons]
    split
    · rename_i space
      rw [words,words,wordsFrom,if_pos space]
      exact ih
    · rfl

theorem wordsFrom_space {c : Char} (space : isSpace c) (word t : Text) :
    wordsFrom word (t ++ [c]) = wordsFrom word t := by
  induction t generalizing word with
  | nil => simp [wordsFrom,space,finished]
  | cons d t ih => simp only [List.cons_append,wordsFrom,ih]

theorem words_rstrip (t : Text) : words (rstripBy isSpace t) = words t := by
  induction t using List.reverseRecOn with
  | nil => rfl
  | append_singleton t c ih =>
    rw [rstripBy,List.reverse_append]
    simp only [List.reverse_cons,List.reverse_nil,List.nil_append,List.singleton_append,
      List.dropWhile_cons]
    split
    · rename_i space
      rw [words,words,wordsFrom_space space]
      exact ih
    · simp

theorem words_strip (t : Text) : words (strip t) = words t := by
  rw [strip,stripBy,words_rstrip,words_lstrip]

end Text

namespace Scheduler.Cron

/-- `str.isdigit`, and `int` of a text. -/
class Numerals where
  isDigit : Text → Bool
  int : Text → Option Int

namespace AsciiNumerals

scoped instance numerals : Numerals where
  isDigit t := t ≠ [] && t.all Char.isDigit
  int t := if t.all Char.isDigit && t ≠ [] then some (Nat.ofDigitChars 10 t 0 : Nat) else none

end AsciiNumerals

variable [Numerals]

structure Bounds where
  low : Nat
  high : Nat

/-- `_FIELD_BOUNDS` and `_CRON_FIELD_BOUNDS`. -/
def fieldBounds : List Bounds := [⟨0,59⟩,⟨0,23⟩,⟨1,31⟩,⟨1,12⟩,⟨0,7⟩]

def star : Text := "*".toList

def stepPrefix : Text := "*/".toList

def validField (bounds : Bounds) (token : Text) : Bool :=
  if Text.startsWith token stepPrefix then
    let step := token.drop 2
    Numerals.isDigit step && (Numerals.int step).any fun n => !(n < 1)
  else if token = star then true
  else if Numerals.isDigit token then
    (Numerals.int token).any fun n => (bounds.low : Int) ≤ n && n ≤ bounds.high
  else false

/-- `_valid_cron`. -/
def validCron (value : Text) : Option Text :=
  let text := Text.strip value
  let fields := Text.words text
  if fields.length ≠ 5 then none
  else if (List.zipWith validField fieldBounds fields).all id then some text else none

/-- `range(low, high + 1, step)`. -/
def pyRange (bounds : Bounds) (step : Nat) : List Nat :=
  (List.range ((bounds.high - bounds.low) / step + 1)).map (bounds.low + step * ·)

def fieldValues (bounds : Bounds) (raw : Text) : Option (List Nat) :=
  if raw = star then some (pyRange bounds 1)
  else if Text.startsWith raw stepPrefix then
    (Numerals.int (raw.drop 2)).bind fun step =>
      if step < 1 then none else some (pyRange bounds step.toNat)
  else if Numerals.isDigit raw then
    (Numerals.int raw).bind fun number =>
      if bounds.low ≤ number ∧ number ≤ bounds.high then some [number.toNat] else none
  else none

structure Allowed where
  minutes : List Nat
  hours : List Nat
  days : List Nat
  months : List Nat
  weekdays : List Nat

/-- `parse_cron_expression`. -/
def parseCronExpression (expression : Text) : Option Allowed :=
  match Text.words (Text.strip expression) with
  | [minute,hour,day,month,weekday] => do
    let minutes ← fieldValues ⟨0,59⟩ minute
    let hours ← fieldValues ⟨0,23⟩ hour
    let days ← fieldValues ⟨1,31⟩ day
    let months ← fieldValues ⟨1,12⟩ month
    let weekdays ← fieldValues ⟨0,7⟩ weekday
    return ⟨minutes,hours,days,months,weekdays⟩
  | _ => none

namespace Allowed

def domRestricted (allowed : Allowed) : Bool := allowed.days.length ≠ 31

def dowRestricted (allowed : Allowed) : Bool := allowed.weekdays.length ≠ 8

def dowMatches (allowed : Allowed) (dayOfWeek : Nat) : Bool :=
  dayOfWeek ∈ allowed.weekdays || (dayOfWeek = 0 && 7 ∈ allowed.weekdays)

end Allowed

/-- `_day_matches`: the day of the month or the day of the week, when both are restricted. -/
def dayMatches (dayOfMonth month dayOfWeek : Nat) (allowed : Allowed) : Bool :=
  if month ∉ allowed.months then false
  else if allowed.domRestricted && allowed.dowRestricted then
    dayOfMonth ∈ allowed.days || allowed.dowMatches dayOfWeek
  else if allowed.domRestricted then dayOfMonth ∈ allowed.days
  else if allowed.dowRestricted then allowed.dowMatches dayOfWeek
  else true

/-- `_time_candidates`. -/
def timeCandidates (allowed : Allowed) : List (Nat × Nat) :=
  (allowed.hours.mergeSort).flatMap fun hour => (allowed.minutes.mergeSort).map (hour,·)

def minuteTicks : Nat := 60000000

structure Zone where
  offset : Int

namespace Zone

/-- The instant of a minute of local time. Minutes and instants count from the beginning of
the year one, the latter in microseconds of universal time. -/
def instant (zone : Zone) (minute : Nat) : Int := (minute * minuteTicks : Nat) - zone.offset

def localMinute (zone : Zone) (instant : Int) : Nat :=
  (instant + zone.offset).toNat / minuteTicks

end Zone

def minuteAt (day : Nat) (time : Nat × Nat) : Nat := (day * 24 + time.1) * 60 + time.2

def dayOf (minute : Nat) : Nat := minute / 60 / 24

def timeOf (minute : Nat) : Nat × Nat := (minute / 60 % 24,minute % 60)

/-- `_wall_time_exists`. -/
def wallTimeExists (zone : Zone) (minute : Nat) : Bool :=
  timeOf (zone.localMinute (zone.instant minute)) = timeOf minute

def isLater (time other : Nat × Nat) : Bool :=
  other.1 < time.1 || (time.1 = other.1 && other.2 < time.2)

/-- `_SCAN_DAYS`. -/
def scanDays : Nat := 400

def dowNumber (day : Nat) : Nat := (Calendar.weekday day + 1) % 7

def fireOn (allowed : Allowed) (zone : Zone) (after : Int) (offsetDays : Nat) : Option Int :=
  let afterLocal := zone.localMinute after
  let day := dayOf afterLocal + offsetDays
  let candidates := timeCandidates allowed
  if dayMatches (Calendar.date day).2 (Calendar.date day).1 (dowNumber day) allowed then
    let startIndex :=
      if offsetDays = 0 then candidates.findIdx (isLater · (timeOf afterLocal)) else 0
    ((candidates.drop startIndex).find? fun time =>
      wallTimeExists zone (minuteAt day time) && after < zone.instant (minuteAt day time)).map
        fun time => zone.instant (minuteAt day time)
  else none

/-- `next_cron_fire`, with the calendar going on for ever. -/
def nextCronFire (expression : Text) (zone : Zone) (after : Int) : Option Int :=
  (parseCronExpression expression).bind fun allowed =>
    (List.range scanDays).findSome? (fireOn allowed zone after)

/-- `_compute_next_run` of a job with a cron trigger, in the status view. -/
def computeNextRun (expression : Text) (zone : Zone) (now : Int) : Option Int :=
  nextCronFire expression zone now

/-- The weekdays of a trigger: all of them, or a list in which Monday is zero. -/
inductive Weekdays where
  | all
  | listed (values : List Nat)

/-- `_vixie_dow_to_apscheduler`. -/
def vixieDowToApscheduler (token : Text) : Option Weekdays :=
  if token = star then some .all
  else
    let values :=
      if Text.startsWith token stepPrefix then
        (Numerals.int (token.drop 2)).map fun step => pyRange ⟨0,7⟩ step.toNat
      else (Numerals.int token).map fun number => [number.toNat]
    values.map fun values => .listed ((values.map fun value => (value + 6) % 7).dedup.mergeSort)

inductive Field where
  | all
  | every (step : Nat)
  | single (value : Nat)

/-- How the library reads a field. It rejects a step larger than the range of the field, and
a value outside of it. -/
def compileField (bounds : Bounds) (token : Text) : Option Field :=
  if token = star then some .all
  else if Text.startsWith token stepPrefix then
    (Numerals.int (token.drop 2)).bind fun step =>
      if 1 ≤ step ∧ step ≤ bounds.high - bounds.low then some (.every step.toNat) else none
  else (Numerals.int token).bind fun number =>
    if bounds.low ≤ number ∧ number ≤ bounds.high then some (.single number.toNat) else none

/-- `CronTrigger` of the library. -/
structure Trigger where
  minute : Field
  hour : Field
  day : Field
  month : Field
  weekdays : Weekdays

/-- `CronTrigger.from_crontab`, the weekdays having been translated. -/
def fromCrontab (minute hour day month : Text) (weekdays : Weekdays) : Option Trigger := do
  return ⟨← compileField ⟨0,59⟩ minute,← compileField ⟨0,23⟩ hour,← compileField ⟨1,31⟩ day,
    ← compileField ⟨1,12⟩ month,weekdays⟩

/-- `_trigger_for` of a job with a cron trigger. -/
def triggerFor (expression : Text) : Option Trigger :=
  match Text.words expression with
  | [minute,hour,day,month,weekday] =>
    (vixieDowToApscheduler weekday).bind (fromCrontab minute hour day month)
  | _ => none

namespace Field

/-- The values at which a field matches, of those that are in the range of the field. -/
def fits (low value : Nat) : Field → Bool
  | .all => true
  | .every step => (value - low) % step = 0
  | .single own => value = own

end Field

namespace Weekdays

/-- A list of weekdays matches the days in it. -/
def fits (weekday : Nat) : Weekdays → Bool
  | .all => true
  | .listed values => weekday ∈ values

end Weekdays

namespace Trigger

/-- The minutes of local time at which all five fields match. -/
def fits (trigger : Trigger) (minute : Nat) : Bool :=
  let date := Calendar.date (dayOf minute)
  trigger.minute.fits 0 (timeOf minute).2 && trigger.hour.fits 0 (timeOf minute).1 &&
    trigger.day.fits 1 date.2 && trigger.month.fits 1 date.1 &&
    trigger.weekdays.fits (Calendar.weekday (dayOf minute))

def FiresAt (trigger : Trigger) (zone : Zone) (instant : Int) : Prop :=
  ∃ minute, trigger.fits minute ∧ instant = zone.instant minute

end Trigger

end Scheduler.Cron

end LocalBook
