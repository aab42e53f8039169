import Mathlib.Algebra.Order.Group.Int
import Backbone.Lib.Except
import Backbone.Lib.Text

/-!
# Cron expressions

Five fields, each of which selects values of one part of the local time. `next_after` goes from minute
to minute until all of them match, and gives up after 100,000 minutes.

Times are in nanoseconds since the epoch. The time zones are a parameter: a zone is the local time it
shows. The values of a list are a `HashSet`; here they stay in the order of the text, which decides only
the one an error names when several are out of range.

Reference: `backbone-jobs/src/cron.rs` and `backbone-jobs/src/error.rs`.
-/

namespace Backbone.Jobs

open Text

/-- `JobError`, what jobs and their schedules are refused with. -/
inductive JobError where
  | cronParsing (message : String)
  | execution (message : String)
  | jobNotFound (jobId : String)
  | jobAlreadyExists (jobId : String)
  | timeZone (message : String)
  | invalidStatusTransition (source target : String)
  | validation (message : String)
deriving DecidableEq, Repr

inductive CronField where
  | all
  | single (v : ℕ)
  | range (start stop : ℕ)
  | list (values : List ℕ)
  | step (base : CronField) (every : ℕ)
deriving Repr

namespace CronField

/-- `CronField::parse` of a text without a step. -/
def parseBase (value : String) (min max : ℕ) : Except JobError CronField :=
  if value == "*" then .ok .all
  else match splitOnce value '-' with
    | some (start, stop) =>
      match parseU32 start, parseU32 stop with
      | none, _ => .error (.cronParsing s!"Invalid range start: {start}")
      | _, none => .error (.cronParsing s!"Invalid range end: {stop}")
      | some a, some b =>
        if a < min ∨ max < b ∨ b < a then
          .error (.cronParsing s!"Invalid range values: {a}-{b} (expected {min}-{max})")
        else .ok (.range a b)
    | none =>
      if contains value ',' then do
        let values ← (split value ',').mapM fun v =>
          match parseU32 v with
          | some n => .ok n
          | none => .error (.cronParsing s!"Invalid list value: {v}")
        match values.find? fun n => n < min ∨ max < n with
        | some n => .error (.cronParsing s!"Value {n} out of range (expected {min}-{max})")
        | none => .ok (.list values)
      else match parseU32 value with
        | none => .error (.cronParsing s!"Invalid value: {value}")
        | some n =>
          if n < min ∨ max < n then
            .error (.cronParsing s!"Value {n} out of range (expected {min}-{max})")
          else .ok (.single n)

/-- `CronField::parse`. The part before the first `/` has no further step. -/
def parse (value : String) (min max : ℕ) : Except JobError CronField :=
  if value == "*" then .ok .all
  else match splitOnce value '/' with
    | some (base, every) =>
      match parseU32 every with
      | none => .error (.cronParsing s!"Invalid step value: {every}")
      | some 0 => .error (.cronParsing "Step value cannot be zero")
      | some n => do
        let baseField ← parseBase base min max
        .ok (.step baseField n)
    | none => parseBase value min max

/-- `CronField::matches`. -/
def Matches : CronField → ℕ → Bool
  | .all, _ => true
  | .single v, value => v == value
  | .range start stop, value => start ≤ value && value ≤ stop
  | .list values, value => values.contains value
  | .step .all every, value => value % every == 0
  | .step base every, value =>
    base.Matches value &&
      match base with
      | .single v => (value - v) % every == 0
      | .range start _ => (value - start) % every == 0
      | _ => false

section Matches

variable {a b v every : ℕ} {values : List ℕ}

theorem matches_single : (single a).Matches v = true ↔ a = v := beq_iff_eq

theorem matches_range : (range a b).Matches v = true ↔ a ≤ v ∧ v ≤ b := by
  show (decide (a ≤ v) && decide (v ≤ b)) = true ↔ a ≤ v ∧ v ≤ b
  rw [Bool.and_eq_true, decide_eq_true_iff, decide_eq_true_iff]

theorem matches_list : (list values).Matches v = true ↔ v ∈ values := List.contains_iff_mem

theorem matches_step_all : (step .all every).Matches v = true ↔ v % every = 0 := beq_iff_eq

theorem matches_step_single :
    (step (.single a) every).Matches v = true ↔ a = v ∧ (v - a) % every = 0 := by
  show (a == v && (v - a) % every == 0) = true ↔ a = v ∧ (v - a) % every = 0
  rw [Bool.and_eq_true, beq_iff_eq, beq_iff_eq]

theorem matches_step_range : (step (.range a b) every).Matches v = true ↔
    (a ≤ v ∧ v ≤ b) ∧ (v - a) % every = 0 := by
  show ((range a b).Matches v && (v - a) % every == 0) = true ↔ (a ≤ v ∧ v ≤ b) ∧ (v - a) % every = 0
  rw [Bool.and_eq_true, matches_range, beq_iff_eq]

end Matches

end CronField

/-- The parts of a local time. -/
structure LocalTime where
  minute : ℕ
  hour : ℕ
  day : ℕ
  month : ℕ
  /-- From Sunday. -/
  weekday : ℕ
deriving DecidableEq, Repr

/-- A zone, as the local time it shows. -/
abbrev Zone := ℤ → LocalTime

/-- `chrono_tz`: the zones by their names. -/
abbrev TimeZones := String → Option Zone

structure CronExpression where
  minute : CronField
  hour : CronField
  dayOfMonth : CronField
  month : CronField
  dayOfWeek : CronField
deriving Repr

/-- One second. -/
def oneSecond : ℤ := 1000000000

/-- One minute. -/
def oneMinute : ℤ := 60 * oneSecond

namespace CronExpression

/-- `CronExpression::parse`. -/
def parse (expression : String) : Except JobError CronExpression :=
  match splitWhitespace expression with
  | [minute, hour, dayOfMonth, month, dayOfWeek] => do
    let minute ← CronField.parse minute 0 59
    let hour ← CronField.parse hour 0 23
    let dayOfMonth ← CronField.parse dayOfMonth 1 31
    let month ← CronField.parse month 1 12
    let dayOfWeek ← CronField.parse dayOfWeek 0 6
    .ok ⟨minute, hour, dayOfMonth, month, dayOfWeek⟩
  | parts =>
    .error (.cronParsing
      s!"Cron expression must have 5 fields, got {parts.length}: '{expression}'")

/-- `CronExpression::matches`. -/
def Matches (e : CronExpression) (datetime : ℤ) (timezone : Zone) : Bool :=
  e.minute.Matches (timezone datetime).minute && e.hour.Matches (timezone datetime).hour &&
    e.dayOfMonth.Matches (timezone datetime).day && e.month.Matches (timezone datetime).month &&
    e.dayOfWeek.Matches (timezone datetime).weekday

/-- The loop of `next_after`, with the attempts that are left. -/
def nextFrom (e : CronExpression) (timezone : Zone) : ℕ → ℤ → Option ℤ
  | 0, _ => none
  | attempts + 1, current =>
    if e.Matches current timezone then some current
    else nextFrom e timezone attempts (current + oneMinute)

/-- The start of the next minute: `next_after` advances to it before it looks for a match. -/
def nextMinute (after : ℤ) : ℤ :=
  let sec := after / oneSecond % 60
  let advanced := after + (60 - sec) * oneSecond
  advanced - advanced % oneSecond

/-- `CronExpression::next_after`. -/
def nextAfter (e : CronExpression) (after : ℤ) (timezone : Zone) : Except JobError ℤ :=
  match nextFrom e timezone 100000 (nextMinute after) with
  | some current => .ok current
  | none =>
    .error (.cronParsing "Could not find next execution time within reasonable bounds")

/-! ## The next match -/

theorem nextMinute_eq (after : ℤ) : nextMinute after = (after / oneMinute + 1) * oneMinute := by
  simp only [nextMinute, oneMinute, oneSecond]
  omega

theorem lt_nextMinute (after : ℤ) : after < nextMinute after := by
  rw [nextMinute_eq]
  simp only [oneMinute, oneSecond]
  omega

/-- The expression matches at the start of a minute. -/
def IsMatch (e : CronExpression) (timezone : Zone) (t : ℤ) : Prop :=
  t % oneMinute = 0 ∧ e.Matches t timezone = true

theorem nextFrom_spec {e : CronExpression} {timezone : Zone} {attempts : ℕ} {current r : ℤ}
    (hcurrent : current % oneMinute = 0) (h : nextFrom e timezone attempts current = some r) :
    current ≤ r ∧ IsMatch e timezone r ∧ ∀ t, current ≤ t → t < r → ¬ IsMatch e timezone t := by
  induction attempts generalizing current with
  | zero => cases h
  | succ attempts ih =>
    unfold nextFrom at h
    split at h
    · rename_i hmatches
      cases h
      refine ⟨le_refl _, ⟨hcurrent, hmatches⟩, fun t hle hlt => absurd hle (not_le_of_gt hlt)⟩
    · rename_i hmatches
      have hnext : (current + oneMinute) % oneMinute = 0 := by
        simp only [oneMinute, oneSecond] at hcurrent ⊢
        omega
      obtain ⟨hle, hr, hnone⟩ := ih hnext h
      have hpos : 0 < oneMinute := by decide
      refine ⟨by omega, hr, fun t ht htr hmatch => ?_⟩
      -- Between a minute and the next one there is no other start of a minute.
      rcases eq_or_ne t current with rfl | hne
      · exact hmatches hmatch.2
      · refine hnone t ?_ htr hmatch
        obtain ⟨ht0, -⟩ := hmatch
        simp only [oneMinute, oneSecond] at ht0 hcurrent ⊢
        omega

/-- What `next_after` answers is the next match behind the time. -/
theorem nextAfter_spec {e : CronExpression} {after r : ℤ} {timezone : Zone}
    (h : e.nextAfter after timezone = .ok r) :
    after < r ∧ IsMatch e timezone r ∧ ∀ t, after < t → t < r → ¬ IsMatch e timezone t := by
  unfold nextAfter at h
  split at h
  · rename_i current hnext
    cases h
    have hstart : nextMinute after % oneMinute = 0 := by
      rw [nextMinute_eq]
      exact Int.mul_emod_left _ _
    obtain ⟨hle, hr, hnone⟩ := nextFrom_spec hstart hnext
    refine ⟨lt_of_lt_of_le (lt_nextMinute after) hle, hr, fun t ht htr hmatch => ?_⟩
    refine hnone t ?_ htr hmatch
    -- A start of a minute behind the time is not before the next one.
    obtain ⟨ht0, -⟩ := hmatch
    rw [nextMinute_eq]
    simp only [oneMinute, oneSecond] at ht0 ⊢
    omega
  · cases h

end CronExpression

/-- `CronScheduler::new`. -/
def cronScheduler (zones : TimeZones) (expression timezone : String) :
    Except JobError (CronExpression × Zone) := do
  let e ← CronExpression.parse expression
  match zones timezone with
  | none => .error (.timeZone s!"Invalid timezone: {timezone}")
  | some z => .ok (e, z)

/-- UTC in January 1970. -/
def january : TimeZones
  | "UTC" => some fun t =>
    { minute := (t / oneMinute % 60).toNat
      hour := (t / (60 * oneMinute) % 24).toNat
      day := (t / (1440 * oneMinute)).toNat + 1
      month := 1
      weekday := ((t / (1440 * oneMinute) + 4) % 7).toNat }
  | _ => none

example : (CronExpression.parse "*/15 9-17 * * 1-5").toOption.map (CronExpression.nextAfter · 0
    ((january "UTC").getD fun _ => ⟨0, 0, 0, 0, 0⟩)) = some (.ok (540 * oneMinute)) := by
  decide +kernel

end Backbone.Jobs
