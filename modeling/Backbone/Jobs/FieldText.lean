import Mathlib.Data.List.Dedup
import Mathlib.Data.List.Sort
import Backbone.Jobs.Cron
import Backbone.Lib.Table

/-!
# What a cron field selects, and its text

A field prints as it is written, a list in the order of its values and each of them once. Every field
that is read from a text selects a value in its bounds and prints back, unless it is a list with a
step, which selects nothing, or a step over `*` without a multiple in the bounds.

A list with one value left prints as that value: without a step it selects the same.

Reference: `backbone-jobs/src/cron.rs`.
-/

namespace Backbone.Jobs

open Text

namespace CronField

/-- `Display::fmt`. -/
def fmt : CronField → String
  | .all => "*"
  | .single v => toString v
  | .range start stop => toString start ++ "-" ++ toString stop
  | .list values => join "," ((values.dedup.insertionSort (· ≤ ·)).map toString)
  | .step base every => base.fmt ++ "/" ++ toString every

/-- `CronField::matches` with checked subtractions: `none` is an underflow. -/
def checkedMatches : CronField → ℕ → Option Bool
  | .step .all every, value => some (value % every == 0)
  | .step base every, value =>
    (base.checkedMatches value).bind fun
      | false => some false
      | true =>
        match base with
        | .single v => if value < v then none else some ((value - v) % every == 0)
        | .range start _ => if value < start then none else some ((value - start) % every == 0)
        | _ => some false
  | f, value => some (f.Matches value)

/-- `*`, or a step over it. -/
def wildcard : CronField → Bool
  | .all | .step .all _ => true
  | _ => false

/-- A field without a step, of values in the bounds. -/
inductive Plain (min max : ℕ) : CronField → Prop
  | all : Plain min max .all
  | single {v : ℕ} (hle : min ≤ v) (hmax : v ≤ max) (hlt : v < 2 ^ 32) : Plain min max (.single v)
  | range {a b : ℕ} (hle : min ≤ a) (hab : a ≤ b) (hmax : b ≤ max) (hlt : b < 2 ^ 32) :
    Plain min max (.range a b)
  | list {values : List ℕ} (hne : values ≠ [])
    (hvalues : ∀ v ∈ values, min ≤ v ∧ v ≤ max ∧ v < 2 ^ 32) : Plain min max (.list values)

/-- What a field is to be: it selects a value in the bounds and none outside of them, where `*`
leaves the bounds to the calendar; its subtractions do not underflow; its text is read as a field
that selects the same; and a step selects of a list what `selected` says. -/
structure Sound (selected : ℕ → List ℕ → ℕ → Prop) (min max : ℕ) (f : CronField) : Prop where
  selects : ∃ v, min ≤ v ∧ v ≤ max ∧ f.Matches v = true
  inside : ∀ v, f.Matches v = true → (min ≤ v ∧ v ≤ max) ∨ f.wildcard = true
  noUnderflow : ∀ v, f.checkedMatches v = some (f.Matches v)
  printsBack : ∃ g, parse f.fmt min max = .ok g ∧ ∀ v, g.Matches v = f.Matches v
  listed : ∀ values every, f = .step (.list values) every →
    ∀ v, f.Matches v = true ↔ v ∈ values ∧ selected every values v

/-- The text is no list with a step, and a step over `*` has a multiple in the bounds. -/
def Selective (value : String) (min max : ℕ) : Prop :=
  ¬ (contains value ',' = true ∧ contains value '/' = true) ∧
    ∀ every n, value = "*/" ++ every → parseU32 every = some n → ∃ v, min ≤ v ∧ v ≤ max ∧ n ∣ v

/-! ## Reading -/

section Reading

variable {value : String} {min max : ℕ} {f : CronField} {s : String}

theorem contains_eq_false {c : Char} (h : ∀ d ∈ s.toList, d ≠ c) : contains s c = false := by
  rw [contains, List.contains_eq_mem, decide_eq_false_iff_not]
  exact fun hmem => h c hmem rfl

theorem contains_append (s t : String) (c : Char) :
    contains (s ++ t) c = (contains s c || contains t c) := by
  simp [contains]

/-- No number holds a comma, a slash or a minus sign. -/
theorem not_contains_of_parseU32 {n : ℕ} (h : parseU32 s = some n) {c : Char}
    (hplus : c ≠ '+') (hdigit : c.isDigit = false) : contains s c = false := by
  refine contains_eq_false fun d hd heq => ?_
  subst heq
  rcases isDigit_of_mem_of_parseU32 h hd with rfl | hd
  · exact hplus rfl
  · rw [hdigit] at hd
    cases hd

section

variable (h : parseBase value min max = .ok f)
include h

/-- The forms of a text without a step. -/
theorem parseBase_cases :
    (value = "*" ∧ f = .all) ∨
    (∃ start stop a b, splitOnce value '-' = some (start, stop) ∧ parseU32 start = some a ∧
      parseU32 stop = some b ∧ (min ≤ a ∧ a ≤ b ∧ b ≤ max) ∧ f = .range a b) ∨
    (contains value ',' = true ∧ ∃ values,
      (split value ',').Forall₂ (fun v n => parseU32 v = some n) values ∧
        (∀ n ∈ values, min ≤ n ∧ n ≤ max) ∧ f = .list values) ∨
    (contains value ',' = false ∧ ∃ n, parseU32 value = some n ∧ (min ≤ n ∧ n ≤ max) ∧
      f = .single n) := by
  unfold parseBase at h
  split at h
  · rename_i hall
    cases h
    exact .inl ⟨beq_iff_eq.mp hall, rfl⟩
  · split at h
    · rename_i start stop hsplit
      split at h
      · cases h
      · cases h
      · rename_i a b hstart hstop
        split at h
        · cases h
        · rename_i hbounds
          cases h
          exact .inr (.inl ⟨start, stop, a, b, hsplit, hstart, hstop, by omega, rfl⟩)
    · split at h
      · rename_i hcomma
        obtain ⟨values, hvalues, h⟩ := bind_eq_ok.mp h
        refine .inr (.inr (.inl ⟨hcomma, values, ?_⟩))
        have hparts : (split value ',').Forall₂ (fun v n => parseU32 v = some n) values := by
          refine (mapM_eq_ok.mp hvalues).imp fun v n hv => ?_
          cases hn : parseU32 v with
          | none => simp [hn] at hv
          | some m => simpa [hn] using hv
        split at h
        · cases h
        · rename_i hfind
          cases h
          refine ⟨hparts, fun n hn => ?_, rfl⟩
          have := List.find?_eq_none.mp hfind n hn
          simp only [decide_eq_true_eq] at this
          omega
      · rename_i hcomma
        split at h
        · cases h
        · rename_i n hn
          split at h
          · cases h
          · rename_i hbounds
            cases h
            exact .inr (.inr (.inr ⟨Bool.eq_false_iff.mpr hcomma, n, hn, by omega, rfl⟩))

/-- What a text without a step is read as. -/
theorem plain_of_parseBase : Plain min max f := by
  rcases parseBase_cases h with ⟨-, rfl⟩ | ⟨start, stop, a, b, -, -, hstop, hbounds, rfl⟩ |
    ⟨-, values, hparts, hvalues, rfl⟩ | ⟨-, n, hn, hbounds, rfl⟩
  · exact .all
  · exact .range hbounds.1 hbounds.2.1 hbounds.2.2 (parseU32_lt hstop)
  · refine .list ?_ fun n hn => ⟨(hvalues n hn).1, (hvalues n hn).2, ?_⟩
    · rintro rfl
      have hlength := hparts.length_eq
      simp [split, List.splitOn_ne_nil] at hlength
    · obtain ⟨v, -, hv⟩ := Table.exists_of_mem_right hparts hn
      exact parseU32_lt hv
  · exact .single hbounds.1 hbounds.2 (parseU32_lt hn)

/-- A text with a comma is read as a list. -/
theorem list_of_parseBase (hcomma : contains value ',' = true) : ∃ values, f = .list values := by
  rcases parseBase_cases h with ⟨rfl, -⟩ | ⟨start, stop, a, b, hsplit, hstart, hstop, -, -⟩ |
    ⟨-, values, -, -, rfl⟩ | ⟨hfalse, -⟩
  · exact absurd hcomma (by decide)
  · -- The two numbers of a range hold no comma.
    have hstart := not_contains_of_parseU32 (c := ',') hstart (by decide) (by decide)
    have hstop := not_contains_of_parseU32 (c := ',') hstop (by decide) (by decide)
    rw [contains, toList_of_splitOnce hsplit] at hcomma
    simp only [contains, List.contains_eq_mem, decide_eq_false_iff_not] at hstart hstop
    simp [hstart, hstop] at hcomma
  · exact ⟨values, rfl⟩
  · rw [hcomma] at hfalse
    cases hfalse

end

theorem parse_of_not_contains (h : contains value '/' = false) :
    parse value min max = parseBase value min max := by
  unfold parse
  rw [splitOnce_eq_none h]
  split
  · rename_i hall
    rw [parseBase, if_pos hall]
  · rfl

/-- A text with a step. -/
theorem parse_of_splitOnce {base every : String} (h : splitOnce value '/' = some (base, every)) :
    parse value min max = .ok f ↔
      ∃ n b, parseU32 every = some n ∧ n ≠ 0 ∧ parseBase base min max = .ok b ∧ f = .step b n := by
  have hall : (value == "*") = false := by
    rw [beq_eq_false_iff_ne]
    rintro rfl
    rw [splitOnce_eq_none (by decide)] at h
    cases h
  unfold parse
  rw [hall, h]
  cases hn : parseU32 every with
  | none => simp [hn]
  | some n =>
    cases n with
    | zero => simp [hn]
    | succ n => simp [hn, bind_eq_ok, @eq_comm _ f]

/-- What a text is read as: a field without a step, or a step over one. -/
theorem parse_cases (h : parse value min max = .ok f) :
    (contains value '/' = false ∧ parseBase value min max = .ok f) ∨
      ∃ base every n b, splitOnce value '/' = some (base, every) ∧ parseU32 every = some n ∧ n ≠ 0 ∧
        parseBase base min max = .ok b ∧ f = .step b n := by
  cases hslash : contains value '/' with
  | false => exact .inl ⟨rfl, parse_of_not_contains hslash ▸ h⟩
  | true =>
    obtain ⟨⟨base, every⟩, hsplit⟩ := Option.isSome_iff_exists.mp (splitOnce_isSome hslash)
    obtain ⟨n, b, hn, hpos, hb, rfl⟩ := (parse_of_splitOnce hsplit).mp h
    exact .inr ⟨base, every, n, b, hsplit, hn, hpos, hb, rfl⟩

end Reading

/-! ## Printing -/

section Printing

variable {min max : ℕ} {f : CronField} {c : Char}

theorem not_contains_toString (n : ℕ) (hc : c.isDigit = false) :
    contains (toString n) c = false := by
  refine contains_eq_false fun d hd heq => ?_
  subst heq
  rw [isDigit_of_mem_toString hd] at hc
  cases hc

theorem mem_toList_join {sep : String} {parts : List String}
    (h : c ∈ (join sep parts).toList) : c ∈ sep.toList ∨ ∃ p ∈ parts, c ∈ p.toList := by
  induction parts using join.induct with
  | case1 => simp [join] at h
  | case2 p => exact .inr ⟨p, List.mem_cons_self, h⟩
  | case3 p rest hne ih =>
    rw [join, String.toList_append, String.toList_append, List.mem_append, List.mem_append] at h
    · rcases h with (h | h) | h
      · exact .inr ⟨p, List.mem_cons_self, h⟩
      · exact .inl h
      · obtain hsep | ⟨q, hq, hc⟩ := ih h
        · exact .inl hsep
        · exact .inr ⟨q, List.mem_cons_of_mem _ hq, hc⟩
    · exact hne

theorem not_contains_join (values : List ℕ) (hc : c.isDigit = false) (hcomma : c ≠ ',') :
    contains (join "," (values.map toString)) c = false := by
  refine contains_eq_false fun d hd heq => ?_
  subst heq
  rcases mem_toList_join hd with hsep | ⟨p, hp, hd⟩
  · exact hcomma (by simpa using hsep)
  · obtain ⟨v, -, rfl⟩ := List.mem_map.mp hp
    rw [isDigit_of_mem_toString hd] at hc
    cases hc

/-- No field without a step prints a slash. -/
theorem not_contains_fmt (hf : Plain min max f) : contains f.fmt '/' = false := by
  cases hf with
  | all => decide
  | single => exact not_contains_toString _ (by decide)
  | @range a b =>
    have ha := not_contains_toString a (c := '/') (by decide)
    have hb := not_contains_toString b (c := '/') (by decide)
    rw [fmt, contains_append, contains_append, ha, hb]
    decide
  | list => exact not_contains_join _ (by decide) (by decide)

theorem ne_all_of_not_contains {value : String} (h : contains value c = true)
    (hc : c ≠ '*') : (value == "*") = false := by
  rw [beq_eq_false_iff_ne]
  rintro rfl
  exact hc (by simpa [contains] using h)

theorem parseBase_toString {n : ℕ} (hle : min ≤ n) (hmax : n ≤ max) (hlt : n < 2 ^ 32) :
    parseBase (toString n) min max = .ok (.single n) := by
  have hall : (toString n == "*") = false := by
    rw [beq_eq_false_iff_ne]
    intro heq
    have := isDigit_of_mem_toString (n := n) (c := '*') (by rw [heq]; decide)
    exact absurd this (by decide)
  unfold parseBase
  rw [hall, splitOnce_eq_none (not_contains_toString n (by decide)),
    not_contains_toString n (by decide), parseU32_toString hlt]
  simp [hle, hmax]

theorem parseBase_range {a b : ℕ} (hle : min ≤ a) (hab : a ≤ b) (hmax : b ≤ max)
    (hlt : b < 2 ^ 32) : parseBase (toString a ++ "-" ++ toString b) min max = .ok (.range a b) := by
  have hminus : '-' ∉ (toString a).toList := by
    simpa [contains] using not_contains_toString a (c := '-') (by decide)
  have hsplit : splitOnce (toString a ++ "-" ++ toString b) '-' = some (toString a, toString b) :=
    splitOnce_append hminus _
  have hminus' : contains (toString a ++ "-" ++ toString b) '-' = true := by simp [contains]
  have hall := ne_all_of_not_contains hminus' (by decide)
  unfold parseBase
  rw [hall, hsplit]
  simp only [parseU32_toString hlt, parseU32_toString (hab.trans_lt hlt)]
  simp [hle, hab, hmax]

theorem parseBase_join {values : List ℕ} (hlength : 1 < values.length)
    (hvalues : ∀ v ∈ values, min ≤ v ∧ v ≤ max ∧ v < 2 ^ 32) :
    parseBase (join "," (values.map toString)) min max = .ok (.list values) := by
  have hsplit : split (join "," (values.map toString)) ',' = values.map toString := by
    refine split_join (by simpa using List.ne_nil_of_length_pos (by omega)) fun p hp => ?_
    obtain ⟨v, -, rfl⟩ := List.mem_map.mp hp
    simpa [contains] using not_contains_toString v (c := ',') (by decide)
  have hcomma : contains (join "," (values.map toString)) ',' = true := by
    rw [← one_lt_length_split, hsplit, List.length_map]
    exact hlength
  have hfind : values.find? (fun n => n < min ∨ max < n) = none := by
    rw [List.find?_eq_none]
    intro v hv
    have := hvalues v hv
    simp only [decide_eq_true_eq]
    omega
  unfold parseBase
  rw [ne_all_of_not_contains hcomma (by decide), hcomma,
    splitOnce_eq_none (not_contains_join values (by decide) (by decide)), hsplit]
  simp only [Bool.false_eq_true, if_false, if_true]
  refine bind_eq_ok.mpr ⟨values, ?_, by simp only [hfind]⟩
  rw [mapM_eq_ok, List.forall₂_map_left_iff, List.forall₂_same]
  intro v hv
  rw [parseU32_toString (hvalues v hv).2.2]

/-- A field without a step is read back as one that selects the same. -/
theorem parseBase_fmt (hf : Plain min max f) :
    ∃ g, parseBase f.fmt min max = .ok g ∧ (∀ v, g.Matches v = f.Matches v) ∧
      ((∀ values, f ≠ .list values) → g = f) := by
  cases hf with
  | all => exact ⟨.all, rfl, fun _ => rfl, fun _ => rfl⟩
  | single hle hmax hlt =>
    exact ⟨_, parseBase_toString hle hmax hlt, fun _ => rfl, fun _ => rfl⟩
  | range hle hab hmax hlt =>
    exact ⟨_, parseBase_range hle hab hmax hlt, fun _ => rfl, fun _ => rfl⟩
  | @list values hne hvalues =>
    have hmem (v : ℕ) : v ∈ values.dedup.insertionSort (· ≤ ·) ↔ v ∈ values := by
      rw [List.mem_insertionSort, List.mem_dedup]
    rw [fmt]
    generalize values.dedup.insertionSort (· ≤ ·) = sorted at hmem
    match sorted, hmem with
    | [], hmem =>
      obtain ⟨v, hv⟩ := List.exists_mem_of_ne_nil values hne
      exact absurd ((hmem v).mpr hv) List.not_mem_nil
    | [n], hmem =>
      obtain ⟨hle, hmax, hlt⟩ := hvalues n ((hmem n).mp List.mem_cons_self)
      refine ⟨_, parseBase_toString hle hmax hlt, fun v => ?_, fun h => absurd rfl (h values)⟩
      have hone : v ∈ values ↔ v = n := by rw [← hmem v, List.mem_singleton]
      show (n == v) = values.contains v
      rw [Bool.eq_iff_iff, beq_iff_eq, List.contains_iff_mem, hone]
      exact eq_comm
    | n :: m :: rest, hmem =>
      refine ⟨_, parseBase_join (by simp) fun v hv => hvalues v ((hmem v).mp hv), fun v => ?_,
        fun h => absurd rfl (h values)⟩
      rw [Bool.eq_iff_iff, matches_list, matches_list]
      exact hmem v

/-- A step over a field without one prints back. -/
theorem parse_fmt_step {n : ℕ} (hf : Plain min max f) (hne : ∀ values, f ≠ .list values)
    (hpos : n ≠ 0) (hlt : n < 2 ^ 32) :
    parse (CronField.step f n).fmt min max = .ok (.step f n) := by
  have hslash : '/' ∉ f.fmt.toList := by
    simpa [contains] using not_contains_fmt hf
  have hsplit : splitOnce (CronField.step f n).fmt '/' = some (f.fmt, toString n) :=
    splitOnce_append hslash _
  obtain ⟨g, hg, -, heq⟩ := parseBase_fmt hf
  rw [heq hne] at hg
  exact (parse_of_splitOnce hsplit).mpr ⟨n, f, parseU32_toString hlt, hpos, hg, rfl⟩

end Printing

/-! ## Sound fields -/

/-- Where a subtraction is made the value is not below what is subtracted. -/
theorem checkedMatches_eq (f : CronField) (value : ℕ) :
    f.checkedMatches value = some (f.Matches value) := by
  induction f with
  | all => rfl
  | single v => rfl
  | range start stop => rfl
  | list values => rfl
  | step base every ih =>
    cases base with
    | all => rfl
    | single v =>
      by_cases hv : v = value
      · simp [checkedMatches, Matches, hv]
      · simp [checkedMatches, Matches, beq_eq_false_iff_ne.mpr hv]
    | range start stop =>
      by_cases hv : start ≤ value ∧ value ≤ stop
      · simp [checkedMatches, Matches, hv, not_lt.mpr hv.1]
      · have hfalse : (decide (start ≤ value) && decide (value ≤ stop)) = false := by simpa using hv
        simp [checkedMatches, Matches, hfalse]
    | list values =>
      simp only [checkedMatches, Option.bind_some, Matches, Bool.and_false]
      split <;> rfl
    | step base every' =>
      have hstep : (CronField.step (.step base every') every).checkedMatches value =
          ((CronField.step base every').checkedMatches value).bind fun
            | false => some false
            | true => some false := rfl
      rw [hstep, ih]
      simp only [Option.bind_some, Matches, Bool.and_false]
      split <;> rfl

variable {selected : ℕ → List ℕ → ℕ → Prop} {value : String} {min max : ℕ} {f : CronField}

/-- A list with a step selects nothing. -/
theorem matches_listStep (values : List ℕ) (every v : ℕ) :
    (CronField.step (.list values) every).Matches v = false := Bool.and_false _

theorem selects_of_plain (hb : min ≤ max) (hf : Plain min max f) :
    ∃ v, min ≤ v ∧ v ≤ max ∧ f.Matches v = true := by
  cases hf with
  | all => exact ⟨min, le_rfl, hb, rfl⟩
  | single hle hmax => exact ⟨_, hle, hmax, matches_single.mpr rfl⟩
  | range hle hab hmax => exact ⟨_, hle, hab.trans hmax, matches_range.mpr ⟨le_rfl, hab⟩⟩
  | list hne hvalues =>
    obtain ⟨v, hv⟩ := List.exists_mem_of_ne_nil _ hne
    exact ⟨v, (hvalues v hv).1, (hvalues v hv).2.1, matches_list.mpr hv⟩

theorem inside_of_plain (hf : Plain min max f) {v : ℕ} (hv : f.Matches v = true) :
    (min ≤ v ∧ v ≤ max) ∨ f.wildcard = true := by
  cases hf with
  | all => exact .inr rfl
  | single hle hmax =>
    have := matches_single.mp hv
    exact .inl (by omega)
  | range hle hab hmax =>
    have := matches_range.mp hv
    exact .inl (by omega)
  | list hne hvalues =>
    have := hvalues v (matches_list.mp hv)
    exact .inl (by omega)

/-- A field without a step is sound. -/
theorem sound_of_plain (hb : min ≤ max) (hf : Plain min max f) : Sound selected min max f where
  selects := selects_of_plain hb hf
  inside _ hv := inside_of_plain hf hv
  noUnderflow := checkedMatches_eq f
  printsBack := by
    obtain ⟨g, hg, hmatches, -⟩ := parseBase_fmt hf
    exact ⟨g, (parse_of_not_contains (not_contains_fmt hf)).trans hg, hmatches⟩
  listed := by
    rintro values every rfl
    cases hf

/-- A step over a field without one selects its first value, and none that the field does not. -/
theorem step_matches (hf : Plain min max f) (hne : ∀ values, f ≠ .list values)
    {n : ℕ} (hall : f = .all → ∃ v, min ≤ v ∧ v ≤ max ∧ n ∣ v) :
    (∃ v, min ≤ v ∧ v ≤ max ∧ (CronField.step f n).Matches v = true) ∧
      ∀ v, (CronField.step f n).Matches v = true →
        (min ≤ v ∧ v ≤ max) ∨ (CronField.step f n).wildcard = true := by
  cases hf with
  | all =>
    obtain ⟨v, hle, hmax, hdvd⟩ := hall rfl
    exact ⟨⟨v, hle, hmax, matches_step_all.mpr (Nat.mod_eq_zero_of_dvd hdvd)⟩, fun _ _ => .inr rfl⟩
  | @single a hle hmax hlt =>
    refine ⟨⟨a, hle, hmax, matches_step_single.mpr ⟨rfl, by simp⟩⟩, fun v hv => .inl ?_⟩
    have := (matches_step_single.mp hv).1
    omega
  | @range a b hle hab hmax hlt =>
    refine ⟨⟨a, hle, hab.trans hmax, matches_step_range.mpr ⟨⟨le_rfl, hab⟩, by simp⟩⟩,
      fun v hv => .inl ?_⟩
    have := (matches_step_range.mp hv).1
    omega
  | @list values => exact absurd rfl (hne values)

theorem sound_step (hf : Plain min max f) (hne : ∀ values, f ≠ .list values) {n : ℕ}
    (hall : f = .all → ∃ v, min ≤ v ∧ v ≤ max ∧ n ∣ v) (hpos : n ≠ 0) (hlt : n < 2 ^ 32) :
    Sound selected min max (.step f n) where
  selects := (step_matches hf hne hall).1
  inside := (step_matches hf hne hall).2
  noUnderflow := checkedMatches_eq _
  printsBack := ⟨_, parse_fmt_step hf hne hpos hlt, fun _ => rfl⟩
  listed := by
    rintro values every ⟨⟩
    exact absurd rfl (hne values)

/-- The text of a sound field. -/
theorem selective_of_sound (h : parse value min max = .ok f) (hsound : Sound selected min max f) :
    Selective value min max := by
  obtain ⟨v, hle, hmax, hv⟩ := hsound.selects
  rcases parse_cases h with ⟨hslash, -⟩ | ⟨base, every, n, b, hsplit, hn, -, hbase, rfl⟩
  · refine ⟨fun hlist => ?_, ?_⟩
    · rw [hslash] at hlist
      cases hlist.2
    · rintro every n rfl -
      simp [contains] at hslash
  · refine ⟨fun hlist => ?_, fun every' n' heq hn' => ⟨v, hle, hmax, ?_⟩⟩
    · -- The comma is in front of the slash.
      have hcomma : contains base ',' = true := by
        have hevery := not_contains_of_parseU32 (c := ',') hn (by decide) (by decide)
        simp only [contains, List.contains_eq_mem, decide_eq_false_iff_not, decide_eq_true_eq,
          toList_of_splitOnce hsplit] at *
        simpa [hevery] using hlist.1
      obtain ⟨values, rfl⟩ := list_of_parseBase hbase hcomma
      rw [matches_listStep] at hv
      cases hv
    · have hsplit' : splitOnce value '/' = some ("*", every') := by
        rw [heq]
        exact splitOnce_append (a := "*") (c := '/') (by decide) every'
      obtain ⟨rfl, rfl⟩ := Prod.mk.inj (Option.some.inj (hsplit.symm.trans hsplit'))
      rw [hn] at hn'
      cases hn'
      cases hbase
      exact Nat.dvd_of_mod_eq_zero (matches_step_all.mp hv)

theorem sound_of_selective (hb : min ≤ max) (h : parse value min max = .ok f)
    (hsel : Selective value min max) : Sound selected min max f := by
  obtain ⟨hlist, hall⟩ := hsel
  rcases parse_cases h with ⟨-, hbase⟩ | ⟨base, every, n, b, hsplit, hn, hpos, hbase, rfl⟩
  · exact sound_of_plain hb (plain_of_parseBase hbase)
  · have hvalue := toList_of_splitOnce hsplit
    refine sound_step (plain_of_parseBase hbase) ?_ ?_ hpos (parseU32_lt hn)
    · rintro values rfl
      rcases parseBase_cases hbase with ⟨-, hb⟩ | ⟨_, _, _, _, -, -, -, -, hb⟩ | ⟨hcomma, -⟩ |
        ⟨-, _, -, -, hb⟩
      · cases hb
      · cases hb
      · refine hlist ?_
        simp only [contains, List.contains_eq_mem, decide_eq_true_eq] at hcomma ⊢
        simp [hvalue, hcomma]
      · cases hb
    · rintro rfl
      refine hall every n (String.toList_injective ?_) hn
      rcases parseBase_cases hbase with ⟨rfl, -⟩ | ⟨_, _, _, _, -, -, -, -, hb⟩ | ⟨-, _, -, -, hb⟩ |
        ⟨-, _, -, -, hb⟩
      · rw [hvalue, String.toList_append]
        rfl
      · cases hb
      · cases hb
      · cases hb

/-- A field that is read from a text is sound exactly when the text is no list with a step and no
step over `*` without a multiple in the bounds. -/
theorem sound_iff (selected : ℕ → List ℕ → ℕ → Prop) (value : String) (min max : ℕ) (f : CronField)
    (hb : min ≤ max) (h : parse value min max = .ok f) :
    Sound selected min max f ↔ Selective value min max :=
  ⟨selective_of_sound h, sound_of_selective hb h⟩

theorem sound_evenHours :
    Sound (fun every _ v => every ∣ v) 0 23 (.step (.range 8 18) 2) := by
  refine (sound_iff _ "8-18/2" 0 23 _ (by decide) rfl).mpr ⟨by decide, fun every n heq _ => ?_⟩
  have := congrArg String.toList heq
  simp at this

/-- The minutes `1,3/2` are accepted and select nothing, whatever a step is to select of a list. -/
theorem not_sound_listStep :
    ¬ ∃ selected : ℕ → List ℕ → ℕ → Prop, ∀ value min max f, min ≤ max →
      parse value min max = .ok f → Sound selected min max f := by
  rintro ⟨selected, h⟩
  obtain ⟨v, -, -, hv⟩ := (h "1,3/2" 0 59 (.step (.list [1, 3]) 2) (by decide) rfl).selects
  rw [matches_listStep] at hv
  cases hv

end CronField

end Backbone.Jobs
