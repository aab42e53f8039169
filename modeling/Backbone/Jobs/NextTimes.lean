import Mathlib.Algebra.Order.Ring.Int
import Mathlib.Order.Bounds.Basic
import Backbone.Jobs.Cron

/-!
# The next run times

`next_after` looks at the next 100,000 starts of minutes: it answers the earliest match if that is
one of them, and fails if none of them matches. `next_n_after` chains such searches, each from a
second behind the match before.

Reference: `backbone-jobs/src/cron.rs`.
-/

namespace Backbone.Jobs

namespace CronExpression

/-- The times that `MAX_ATTEMPTS` minutes reach. -/
def searchReach : ℤ := 100000 * oneMinute

/-- `CronScheduler::next_n_after`, with the number of times that are left. -/
def nextNAfter (e : CronExpression) (timezone : Zone) : ℕ → ℤ → Except JobError (List ℤ)
  | 0, _ => .ok []
  | n + 1, current => do
    let next ← e.nextAfter current timezone
    let times ← nextNAfter e timezone n (next + oneSecond)
    .ok (next :: times)

variable {e : CronExpression} {timezone : Zone} {after : ℤ} {r : ℤ} {t : ℤ}
  {attempts : ℕ} {current : ℤ} {times : List ℤ}

/-! ## One search -/

theorem nextMinute_emod (after : ℤ) : nextMinute after % oneMinute = 0 := by
  rw [nextMinute_eq]
  exact Int.mul_emod_left _ _

/-- What a search finds is one of the minutes it looks at. -/
theorem nextFrom_lt (h : nextFrom e timezone attempts current = some r) :
    r < current + attempts * oneMinute := by
  induction attempts generalizing current with
  | zero => cases h
  | succ attempts ih =>
    have hpos : 0 < oneMinute := by decide
    have hrest : 0 ≤ attempts * oneMinute := mul_nonneg (Int.natCast_nonneg attempts) hpos.le
    unfold nextFrom at h
    push_cast
    rw [add_one_mul]
    split at h
    · cases h
      omega
    · have := ih h
      omega

/-- A search that finds nothing has looked at every minute in its reach. -/
theorem le_of_nextFrom_eq_none
    (h : nextFrom e timezone attempts current = none) (hcurrent : current % oneMinute = 0)
    (ht : IsMatch e timezone t) (hle : current ≤ t) : current + attempts * oneMinute ≤ t := by
  induction attempts generalizing current with
  | zero => simpa using hle
  | succ attempts ih =>
    unfold nextFrom at h
    split at h
    · cases h
    · rename_i hmatches
      have hne : t ≠ current := by
        rintro rfl
        exact hmatches ht.2
      -- Two starts of minutes are a minute apart.
      have hnext : (current + oneMinute) % oneMinute = 0 ∧ current + oneMinute ≤ t := by
        obtain ⟨ht0, -⟩ := ht
        simp only [oneMinute, oneSecond] at ht0 hcurrent ⊢
        omega
      have := ih h hnext.1 hnext.2
      push_cast
      rw [add_one_mul]
      omega

/-- The starts of minutes that a search looks at are those within its reach. -/
theorem lt_nextMinute_add_iff (ht : t % oneMinute = 0) :
    t < nextMinute after + (100000 : ℕ) * oneMinute ↔ t ≤ after + searchReach := by
  rw [nextMinute_eq, searchReach, Nat.cast_ofNat]
  simp only [oneMinute, oneSecond] at ht ⊢
  omega

theorem nextMinute_le (ht : t % oneMinute = 0) (hlt : after < t) : nextMinute after ≤ t := by
  rw [nextMinute_eq]
  simp only [oneMinute, oneSecond] at ht ⊢
  omega

theorem nextAfter_le (h : e.nextAfter after timezone = .ok r) : r ≤ after + searchReach := by
  obtain ⟨-, hr, -⟩ := nextAfter_spec h
  unfold nextAfter at h
  split at h
  · rename_i hnext
    cases h
    exact (lt_nextMinute_add_iff hr.1).mp (nextFrom_lt hnext)
  · cases h

theorem nextAfter_isLeast (h : e.nextAfter after timezone = .ok r) :
    IsLeast {t | after < t ∧ IsMatch e timezone t} r := by
  obtain ⟨hlt, hr, hnone⟩ := nextAfter_spec h
  refine ⟨⟨hlt, hr⟩, fun t ⟨ht, hmatch⟩ => ?_⟩
  by_contra hcon
  exact hnone t ht (not_le.mp hcon) hmatch

/-- A search that fails has no match in its reach. -/
theorem lt_of_nextAfter_error {err : JobError} (h : e.nextAfter after timezone = .error err)
    (hlt : after < t) (ht : IsMatch e timezone t) : after + searchReach < t := by
  unfold nextAfter at h
  split at h
  · cases h
  · rename_i hnext
    have hle := le_of_nextFrom_eq_none hnext (nextMinute_emod after) ht (nextMinute_le ht.1 hlt)
    by_contra hcon
    exact not_lt.mpr hle ((lt_nextMinute_add_iff ht.1).mpr (not_lt.mp hcon))

theorem nextAfter_eq_ok_iff :
    e.nextAfter after timezone = .ok r ↔
      IsLeast {t | after < t ∧ IsMatch e timezone t} r ∧ r ≤ after + searchReach := by
  constructor
  · exact fun h => ⟨nextAfter_isLeast h, nextAfter_le h⟩
  · rintro ⟨hleast, hle⟩
    cases h : e.nextAfter after timezone with
    | ok r' => rw [hleast.unique (nextAfter_isLeast h)]
    | error err =>
      have := lt_of_nextAfter_error h hleast.1.1 hleast.1.2
      omega

theorem nextAfter_eq_error_iff :
    (∃ err, e.nextAfter after timezone = .error err) ↔
      ∀ t, after < t → t ≤ after + searchReach → ¬ IsMatch e timezone t := by
  constructor
  · rintro ⟨err, h⟩ t hlt hle ht
    have := lt_of_nextAfter_error h hlt ht
    omega
  · intro hnone
    cases h : e.nextAfter after timezone with
    | ok r =>
      obtain ⟨hlt, hr, -⟩ := nextAfter_spec h
      exact absurd hr (hnone r hlt (nextAfter_le h))
    | error err => exact ⟨err, rfl⟩

/-! ## Searches in a chain -/

/-- The times are the first matches behind `after`, in their order and without gaps. -/
structure FirstMatches (e : CronExpression) (timezone : Zone) (after : ℤ) (times : List ℤ) :
    Prop where
  increasing : times.Pairwise (· < ·)
  isMatch : ∀ t ∈ times, after < t ∧ IsMatch e timezone t
  complete : ∀ t, after < t → IsMatch e timezone t → (∃ last ∈ times, t ≤ last) → t ∈ times

theorem firstMatches_nil (after : ℤ) : FirstMatches e timezone after [] where
  increasing := .nil
  isMatch := by simp
  complete := by simp

theorem firstMatches_cons :
    FirstMatches e timezone after (r :: times) ↔
      IsLeast {t | after < t ∧ IsMatch e timezone t} r ∧ FirstMatches e timezone r times := by
  constructor
  · intro h
    obtain ⟨hlt, hr⟩ := h.isMatch r List.mem_cons_self
    have hpairwise := List.pairwise_cons.mp h.increasing
    have hleast : IsLeast {t | after < t ∧ IsMatch e timezone t} r := by
      refine ⟨⟨hlt, hr⟩, fun t ⟨ht, hmatch⟩ => ?_⟩
      by_contra hcon
      -- A match before the first of the times would be one of them.
      have hmem := h.complete t ht hmatch ⟨r, List.mem_cons_self, by omega⟩
      rcases List.mem_cons.mp hmem with rfl | hmem
      · exact hcon le_rfl
      · exact hcon (hpairwise.1 t hmem).le
    refine ⟨hleast, hpairwise.2, fun t ht => ?_, fun t ht hmatch hlast => ?_⟩
    · exact ⟨hpairwise.1 t ht, (h.isMatch t (List.mem_cons_of_mem _ ht)).2⟩
    · obtain ⟨last, hlast, hle⟩ := hlast
      have hmem := h.complete t (hlt.trans ht) hmatch ⟨last, List.mem_cons_of_mem _ hlast, hle⟩
      rcases List.mem_cons.mp hmem with rfl | hmem
      · exact absurd ht (lt_irrefl _)
      · exact hmem
  · rintro ⟨⟨⟨hlt, hr⟩, hleast⟩, h⟩
    refine ⟨List.pairwise_cons.mpr ⟨fun t ht => (h.isMatch t ht).1, h.increasing⟩, fun t ht => ?_,
      fun t ht hmatch hlast => ?_⟩
    · rcases List.mem_cons.mp ht with rfl | ht
      · exact ⟨hlt, hr⟩
      · exact ⟨hlt.trans (h.isMatch t ht).1, (h.isMatch t ht).2⟩
    · rcases eq_or_lt_of_le (hleast ⟨ht, hmatch⟩) with rfl | hrt
      · exact List.mem_cons_self
      · obtain ⟨last, hmem, hle⟩ := hlast
        refine List.mem_cons_of_mem _ (h.complete t hrt hmatch ?_)
        rcases List.mem_cons.mp hmem with rfl | hmem
        · omega
        · exact ⟨last, hmem, hle⟩

/-- The second that `next_n_after` adds stays in the minute of the match. -/
theorem nextAfter_add_oneSecond (hr : r % oneMinute = 0) :
    e.nextAfter (r + oneSecond) timezone = e.nextAfter r timezone := by
  have hnext : nextMinute (r + oneSecond) = nextMinute r := by
    rw [nextMinute_eq, nextMinute_eq]
    simp only [oneMinute, oneSecond] at hr ⊢
    omega
  rw [nextAfter, nextAfter, hnext]

/-- Behind the start of a minute and behind a second later, the same times follow. -/
theorem nextNAfter_add_oneSecond (hr : r % oneMinute = 0) (n : ℕ) :
    e.nextNAfter timezone n (r + oneSecond) = e.nextNAfter timezone n r := by
  cases n with
  | zero => rfl
  | succ n => rw [nextNAfter, nextNAfter, nextAfter_add_oneSecond hr]

theorem nextNAfter_eq_ok_iff {n : ℕ} :
    e.nextNAfter timezone n after = .ok times ↔
      times.length = n ∧ FirstMatches e timezone after times ∧
        (after :: times).IsChain fun a b => b ≤ a + searchReach := by
  induction n generalizing after times with
  | zero =>
    constructor
    · intro h
      cases h
      exact ⟨rfl, firstMatches_nil after, .singleton _⟩
    · rintro ⟨hlength, -, -⟩
      rw [List.eq_nil_of_length_eq_zero hlength]
      rfl
  | succ n ih =>
    rw [nextNAfter]
    simp only [bind_eq_ok]
    constructor
    · rintro ⟨r, hr, rest, hrest, h⟩
      cases h
      obtain ⟨hleast, hle⟩ := nextAfter_eq_ok_iff.mp hr
      rw [nextNAfter_add_oneSecond hleast.1.2.1] at hrest
      obtain ⟨hlength, hfirst, hchain⟩ := ih.mp hrest
      exact ⟨by simp [hlength], firstMatches_cons.mpr ⟨hleast, hfirst⟩, .cons_cons hle hchain⟩
    · rintro ⟨hlength, hfirst, hchain⟩
      obtain ⟨r, rest, rfl⟩ := List.exists_cons_of_length_eq_add_one hlength
      obtain ⟨hleast, hrest⟩ := firstMatches_cons.mp hfirst
      obtain ⟨hle, hchain⟩ := List.isChain_cons_cons.mp hchain
      refine ⟨r, nextAfter_eq_ok_iff.mpr ⟨hleast, hle⟩, rest, ?_, rfl⟩
      rw [nextNAfter_add_oneSecond hleast.1.2.1]
      exact ih.mpr ⟨by simpa using hlength, hrest, hchain⟩

/-- The earliest match is found if it is one of the next 100,000 starts of minutes, the search fails
if none of them matches, and a chain of searches lists the first matches as long as each is in the
reach of the one before. -/
theorem next_times (e : CronExpression) (timezone : Zone) (after : ℤ) :
    (∀ r, e.nextAfter after timezone = .ok r ↔
      IsLeast {t | after < t ∧ IsMatch e timezone t} r ∧ r ≤ after + searchReach) ∧
    ((∃ err, e.nextAfter after timezone = .error err) ↔
      ∀ t, after < t → t ≤ after + searchReach → ¬ IsMatch e timezone t) ∧
    ∀ n times, e.nextNAfter timezone n after = .ok times ↔
      times.length = n ∧ FirstMatches e timezone after times ∧
        (after :: times).IsChain fun a b => b ≤ a + searchReach :=
  ⟨fun _ => nextAfter_eq_ok_iff, nextAfter_eq_error_iff, fun _ _ => nextNAfter_eq_ok_iff⟩

/-! ## A schedule out of reach -/

/-- The month and the day of the month, of months of these lengths. -/
def monthAndDay : List ℕ → ℕ → ℕ → ℕ × ℕ
  | [], month, day => (month, day + 1)
  | length :: lengths, month, day =>
    if day < length then (month, day + 1) else monthAndDay lengths (month + 1) (day - length)

/-- In a year that is no leap year. -/
def ordinaryDate (day : ℕ) : ℕ × ℕ :=
  monthAndDay [31, 28, 31, 30, 31, 30, 31, 31, 30, 31, 30, 31] 1 day

/-- UTC in 1970 and 1971. -/
def utc1970 : Zone := fun t =>
  { minute := (t / oneMinute % 60).toNat
    hour := (t / (60 * oneMinute) % 24).toNat
    day := (ordinaryDate (t / (1440 * oneMinute) % 365).toNat).2
    month := (ordinaryDate (t / (1440 * oneMinute) % 365).toNat).1
    weekday := ((t / (1440 * oneMinute) + 4) % 7).toNat }

/-- `0 0 1 1 *`. -/
def newYear : CronExpression := ⟨.single 0, .single 0, .single 1, .single 1, .all⟩

theorem parse_newYear : CronExpression.parse "0 0 1 1 *" = .ok newYear := by rfl

/-- The year begins at midnight of its first day. -/
theorem emod_of_newYear (h : IsMatch newYear utc1970 t) : t % (365 * 1440 * oneMinute) = 0 := by
  have hfirst : ∀ day < 365, ordinaryDate day = (1, 1) → day = 0 := by decide +kernel
  obtain ⟨ht, hmatches⟩ := h
  simp only [CronExpression.Matches, newYear, CronField.Matches, utc1970, Bool.and_eq_true,
    beq_iff_eq, and_true] at hmatches
  obtain ⟨⟨⟨hminute, hhour⟩, hday⟩, hmonth⟩ := hmatches
  have hday0 := hfirst _ (by omega) (Prod.ext hmonth.symm hday.symm)
  simp only [oneMinute, oneSecond] at *
  omega

/-- On New Year's Day the next one is not found. -/
theorem newYear_out_of_reach :
    ¬ ∀ (expression : String) (e : CronExpression) (timezone : Zone) (after : ℤ),
      CronExpression.parse expression = .ok e → (∃ t, after < t ∧ IsMatch e timezone t) →
        ∃ r, e.nextAfter after timezone = .ok r := by
  intro h
  obtain ⟨r, hr⟩ := h "0 0 1 1 *" newYear utc1970 0 parse_newYear
    ⟨365 * 1440 * oneMinute, by decide, by decide, by decide⟩
  obtain ⟨hlt, hmatch, -⟩ := nextAfter_spec hr
  have hle := nextAfter_le hr
  have := emod_of_newYear hmatch
  simp only [searchReach, oneMinute, oneSecond] at *
  omega

end CronExpression

end Backbone.Jobs
