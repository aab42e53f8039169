import Backbone.Authorization.Service
import Backbone.Lib.Run

/-!
# When removed access ends

A removal of a role deletes the user's cache entry, and a revocation leaves the entries to expire. A
check that fetched before either may write what it fetched afterwards, when the entry is deleted
already or when it will outlive the one the revocation left (`not_ended`). As long as no check does that,
what was taken away is refused (`ended_of_timely`).

Reference: `backbone-authorization/src/service.rs`.
-/

namespace Backbone.Authorization

open Machine

variable {config : AuthorizationConfig} {s s' : AuthorizationService} {a : Act} {user : String}
  {p : Permission} {i : ℕ} {check : Check}

/-- `cache_ttl_seconds`, in nanoseconds. -/
def AuthorizationConfig.ttl (config : AuthorizationConfig) : ℤ :=
  config.cacheTtlSeconds.toNat * nanosPerSecond

/-- `remove_role_from_user` returns for the user. -/
def Act.returnsRemoval (s : AuthorizationService) (user : String) : Act → Bool
  | .clearUserCache => s.writer = some (.removing user)
  | _ => false

def Act.isRevocation : Act → Bool
  | .revokePermissionFromRole _ _ => true
  | _ => false

/-- What happened to the permissions that users lack at present, since they lack them. -/
structure Absences where
  /-- A removal of a role from the user has returned. -/
  removed : String → Permission → Bool
  /-- When the first revocation returned. -/
  revoked : String → Permission → Option ℤ
  /-- The permission was to be refused when the check started, and was not granted again. -/
  barred : ℕ → Permission → Bool

namespace Absences

def empty : Absences := ⟨fun _ _ => false, fun _ _ => none, fun _ _ => false⟩

/-- A check that starts now must not allow the permission. -/
def refuses (config : AuthorizationConfig) (h : Absences) (now : ℤ) (user : String)
    (p : Permission) : Bool :=
  h.removed user p || (h.revoked user p).any fun r => r + config.ttl ≤ now

def note (config : AuthorizationConfig) (h : Absences) (s : AuthorizationService) (a : Act)
    (s' : AuthorizationService) : Absences where
  removed user p :=
    decide (p ∉ s'.fetchUserPermissions user) && (h.removed user p || a.returnsRemoval s user)
  revoked user p :=
    if p ∈ s'.fetchUserPermissions user then none
    else (h.revoked user p).or (if a.isRevocation then some s'.clock else none)
  barred i p :=
    match s'.checks i with
    | some check =>
      decide (p ∉ s'.fetchUserPermissions check.user) &&
        (if (s.checks i).isNone then h.refuses config s'.clock check.user p else h.barred i p)
    | none => false

end Absences

/-- No check was answered with a permission that had been taken away when it started, and was not
granted again. -/
def Ended (q : AuthorizationService × Absences) : Prop :=
  ∀ i user permissions, q.1.checks i = some ⟨user, .answered permissions⟩ →
    ∀ p ∈ permissions, q.2.barred i p = false

/-- An entry that has expired, or whose permissions no removal has ended, and which ends with the time
to live of every revocation. -/
def Lasting (config : AuthorizationConfig) (q : AuthorizationService × Absences) (user : String)
    (permissions : Finset Permission) (expiresAt : ℤ) : Prop :=
  expiresAt ≤ q.1.clock ∨ ∀ p ∈ permissions, q.2.removed user p = false ∧
    ∀ r ∈ q.2.revoked user p, expiresAt ≤ r + config.ttl

/-- What a check writes to the cache is not out of date. -/
def Timely (config : AuthorizationConfig) (q : AuthorizationService × Absences) : Act → Prop
  | .cacheSet i => ∀ user permissions expiresAt,
      q.1.checks i = some ⟨user, .writing permissions expiresAt⟩ →
        Lasting config q user permissions expiresAt
  | _ => True

/-! ## What a step can do -/

/-- How a check goes on. -/
inductive Advance (config : AuthorizationConfig) (s : AuthorizationService) (user : String) :
    Phase → Phase → Prop
  | hit (entry : CachedEntry) : s.cache user = some entry → s.clock < entry.expiresAt →
      Advance config s user .reading (.answered entry.permissions)
  | miss : Advance config s user .reading .fetching
  | fetch : Advance config s user .fetching (.stamping (s.fetchUserPermissions user))
  | uncached : Advance config s user .fetching (.answered (s.fetchUserPermissions user))
  | stamp (permissions : Finset Permission) (expiresAt : ℤ) :
      cacheExpiry s.clock config.cacheTtlSeconds = some expiresAt →
        Advance config s user (.stamping permissions) (.writing permissions expiresAt)
  | panic (permissions : Finset Permission) :
      Advance config s user (.stamping permissions) .panicked
  | write (permissions : Finset Permission) (expiresAt : ℤ) :
      Advance config s user (.writing permissions expiresAt) (.answered permissions)

theorem AuthorizationService.clock_le_step : s.clock ≤ (s.step config a).clock := by
  cases a with
  | elapse nanos =>
    show s.clock ≤ s.clock + nanos
    omega
  | _ =>
    simp only [step, setPhase]
    repeat' split
    all_goals exact le_rfl

/-- An entry was there before and is not the one a removal deletes, or a check writes it. -/
theorem AuthorizationService.cache_step {entry : CachedEntry}
    (h : (s.step config a).cache user = some entry) :
    s.cache user = some entry ∧ a.returnsRemoval s user = false ∨
      ∃ i, a = .cacheSet i ∧
        s.checks i = some ⟨user, .writing entry.permissions entry.expiresAt⟩ := by
  cases a with
  | clearUserCache =>
    simp only [step] at h
    split at h
    · next change hchange =>
      by_cases huser : user = change.user
      · simp [huser] at h
      · simp only [Function.update_of_ne huser] at h
        refine .inl ⟨h, ?_⟩
        simp only [Act.returnsRemoval, hchange, Option.some.injEq, decide_eq_false_iff_not]
        rintro rfl
        exact huser rfl
    · next hnone =>
      exact .inl ⟨h, by simp [Act.returnsRemoval, hnone]⟩
  | cacheSet j =>
    simp only [step] at h
    split at h
    · next user' permissions expiresAt hj =>
      by_cases huser : user = user'
      · subst huser
        simp only [setPhase, Function.update_self, Option.some.injEq] at h
        subst h
        exact .inr ⟨j, rfl, hj⟩
      · simp only [setPhase, Function.update_of_ne huser] at h
        exact .inl ⟨h, rfl⟩
    · exact .inl ⟨h, rfl⟩
  | _ =>
    refine .inl ⟨?_, rfl⟩
    simp only [step, setPhase] at h
    revert h
    repeat' split
    all_goals exact id

theorem AuthorizationService.checks_setPhase {user' : String} {phase : Phase} {j : ℕ}
    (h : (s.setPhase j user' phase).checks i = some check) :
    i = j ∧ check = ⟨user', phase⟩ ∨ s.checks i = some check := by
  by_cases hij : i = j
  · subst hij
    simp only [setPhase, Function.update_self, Option.some.injEq] at h
    exact .inl ⟨rfl, h.symm⟩
  · simp only [setPhase, Function.update_of_ne hij] at h
    exact .inr h

/-- A check stays as it is, starts or goes on. -/
theorem AuthorizationService.checks_step (h : (s.step config a).checks i = some check) :
    s.checks i = some check ∨
      s.checks i = none ∧ (check.phase = .reading ∨ check.phase = .fetching) ∨
      ∃ phase, s.checks i = some ⟨check.user, phase⟩ ∧
        Advance config s check.user phase check.phase := by
  cases a with
  | check j user' =>
    simp only [step] at h
    split at h
    · next hj =>
      rcases checks_setPhase h with ⟨rfl, rfl⟩ | hi
      · refine .inr (.inl ⟨hj, ?_⟩)
        dsimp only
        split
        · exact .inl rfl
        · exact .inr rfl
      · exact .inl hi
    · exact .inl h
  | cacheGet j =>
    simp only [step] at h
    split at h
    · next user' hj =>
      split at h
      · next permissions hcached =>
        rcases checks_setPhase h with ⟨rfl, rfl⟩ | hi
        · unfold cached at hcached
          split at hcached
          · next entry hentry =>
            split at hcached
            · next hvalid =>
              cases hcached
              exact .inr (.inr ⟨_, hj, .hit entry hentry hvalid⟩)
            · cases hcached
          · cases hcached
        · exact .inl hi
      · rcases checks_setPhase h with ⟨rfl, rfl⟩ | hi
        · exact .inr (.inr ⟨_, hj, .miss⟩)
        · exact .inl hi
    · exact .inl h
  | fetch j =>
    simp only [step] at h
    split at h
    · next user' hj _ =>
      rcases checks_setPhase h with ⟨rfl, rfl⟩ | hi
      · refine .inr (.inr ⟨_, hj, ?_⟩)
        dsimp only
        split
        · exact .fetch
        · exact .uncached
      · exact .inl hi
    · exact .inl h
  | stamp j =>
    simp only [step] at h
    split at h
    · next user' permissions hj =>
      split at h
      · next expiresAt hexpiry =>
        rcases checks_setPhase h with ⟨rfl, rfl⟩ | hi
        · exact .inr (.inr ⟨_, hj, .stamp permissions expiresAt hexpiry⟩)
        · exact .inl hi
      · rcases checks_setPhase h with ⟨rfl, rfl⟩ | hi
        · exact .inr (.inr ⟨_, hj, .panic permissions⟩)
        · exact .inl hi
    · exact .inl h
  | cacheSet j =>
    simp only [step] at h
    split at h
    · next user' permissions expiresAt hj =>
      rcases checks_setPhase h with ⟨rfl, rfl⟩ | hi
      · exact .inr (.inr ⟨_, hj, .write permissions expiresAt⟩)
      · exact .inl hi
    · exact .inl h
  | _ =>
    refine .inl ?_
    simp only [step] at h
    revert h
    repeat' split
    all_goals exact id

/-- Nothing is cached for longer than the time to live. -/
theorem expiry_le {now expiresAt : ℤ}
    (h : cacheExpiry now config.cacheTtlSeconds = some expiresAt) :
    expiresAt ≤ now + config.ttl := by
  have hsigned : config.cacheTtlSeconds.toBitVec.toInt ≤ config.cacheTtlSeconds.toNat := by
    have hcond := BitVec.toInt_eq_toNat_cond config.cacheTtlSeconds.toBitVec
    have htoNat : config.cacheTtlSeconds.toBitVec.toNat = config.cacheTtlSeconds.toNat := rfl
    split at hcond <;> omega
  simp only [cacheExpiry] at h
  split at h
  · cases h
    simp only [AuthorizationConfig.ttl, nanosPerSecond]
    omega
  · cases h

/-! ## What a step writes down -/

section Note

variable {h : Absences} {check' : Check}

/-- As long as the user lacks the permission, what there was to refuse is to be refused. -/
theorem Absences.refuses_note {now : ℤ} (hlacks : p ∉ s'.fetchUserPermissions user)
    (hclock : now ≤ s'.clock) (hrefuses : h.refuses config now user p = true) :
    (h.note config s a s').refuses config s'.clock user p = true := by
  simp only [refuses, Bool.or_eq_true, Option.any_eq_true, decide_eq_true_eq] at hrefuses ⊢
  rcases hrefuses with hremoved | ⟨r, hr, hpast⟩
  · left
    simp [note, hlacks, hremoved]
  · right
    refine ⟨r, ?_, by omega⟩
    simp [note, hlacks, hr]

theorem Absences.removed_note (hremoved : (h.note config s a s').removed user p = true) :
    h.removed user p = true ∨ a.returnsRemoval s user = true := by
  simp only [note, Bool.and_eq_true, Bool.or_eq_true] at hremoved
  exact hremoved.2

theorem Absences.revoked_note {r : ℤ} (hr : (h.note config s a s').revoked user p = some r) :
    h.revoked user p = some r ∨ r = s'.clock := by
  simp only [note] at hr
  split at hr
  · cases hr
  · rcases Option.or_eq_some_iff.mp hr with hold | ⟨-, hnew⟩
    · exact .inl hold
    · split at hnew
      · cases hnew
        exact .inr rfl
      · cases hnew

/-- What a check that was there before is barred from, it was barred from before. -/
theorem Absences.barred_note {check : Check} (hi' : s'.checks i = some check')
    (hi : s.checks i = some check) (hbarred : (h.note config s a s').barred i p = true) :
    h.barred i p = true ∧ p ∉ s'.fetchUserPermissions check'.user := by
  simp only [note, hi', hi, Option.isNone_some, Bool.false_eq_true, if_false, Bool.and_eq_true,
    decide_eq_true_eq] at hbarred
  exact ⟨hbarred.2, hbarred.1⟩

theorem Absences.barred_note_new (hi' : s'.checks i = some check')
    (hi : s.checks i = none) (hbarred : (h.note config s a s').barred i p = true) :
    h.refuses config s'.clock check'.user p = true ∧ p ∉ s'.fetchUserPermissions check'.user := by
  simp only [note, hi', hi, Option.isNone_none, if_true, Bool.and_eq_true,
    decide_eq_true_eq] at hbarred
  exact ⟨hbarred.2, hbarred.1⟩

end Note

/-! ## The invariant -/

section

variable {q : AuthorizationService × Absences} {entry : CachedEntry}

/-- The permissions that a check has in hand. -/
def Phase.permissions : Phase → Finset Permission
  | .stamping permissions | .writing permissions _ | .answered permissions => permissions
  | .reading | .fetching | .panicked => ∅

/-- The cache holds nothing that a check must not find, and no check has in hand what it must not
allow. -/
structure Sound (config : AuthorizationConfig) (q : AuthorizationService × Absences) : Prop where
  lasting : ∀ user entry, q.1.cache user = some entry →
    Lasting config q user entry.permissions entry.expiresAt
  /-- An entry that a revocation leaves does not outlive it by more than the time to live. -/
  young : ∀ user entry, q.1.cache user = some entry → entry.expiresAt ≤ q.1.clock + config.ttl
  stamped : ∀ i user permissions expiresAt,
    q.1.checks i = some ⟨user, .writing permissions expiresAt⟩ → expiresAt ≤ q.1.clock + config.ttl
  lacks : ∀ i check p, q.1.checks i = some check → q.2.barred i p = true →
    p ∉ q.1.fetchUserPermissions check.user
  reading : ∀ i user p, q.1.checks i = some ⟨user, .reading⟩ → q.2.barred i p = true →
    q.2.refuses config q.1.clock user p = true
  held : ∀ i check, q.1.checks i = some check → ∀ p ∈ check.phase.permissions,
    q.2.barred i p = false

theorem Sound.ended (h : Sound config q) : Ended q :=
  fun i _ _ hi => h.held i _ hi

theorem sound_new (now : ℤ) : Sound config (AuthorizationService.new now, Absences.empty) where
  lasting user entry he := by cases he
  young user entry he := by cases he
  stamped i user permissions expiresAt hi := by cases hi
  lacks i check p hi := by cases hi
  reading i user p hi := by cases hi
  held i check hi := by cases hi

/-- What the cache answers a check that has started is not barred. -/
theorem Sound.hit (h : Sound config q) (hentry : q.1.cache user = some entry)
    (hvalid : q.1.clock < entry.expiresAt) (hi : q.1.checks i = some ⟨user, .reading⟩)
    (hp : p ∈ entry.permissions) : q.2.barred i p = false := by
  by_contra hbarred
  have hrefuses := h.reading i user p hi (by simpa using hbarred)
  simp only [Absences.refuses, Bool.or_eq_true, Option.any_eq_true, decide_eq_true_eq] at hrefuses
  rcases h.lasting user entry hentry with hexpired | hlasting
  · omega
  · obtain ⟨hremoved, hrevoked⟩ := hlasting p hp
    rcases hrefuses with htrue | ⟨r, hr, hpast⟩
    · rw [hremoved] at htrue
      cases htrue
    · have hends := hrevoked r hr
      omega

theorem Sound.lasting_step (h : Sound config q) (ha : Timely config q a)
    (hentry : (q.1.step config a).cache user = some entry) :
    Lasting config (withHistory (AuthorizationService.step config) (Absences.note config) q a) user
      entry.permissions entry.expiresAt := by
  have hclock : q.1.clock ≤ (q.1.step config a).clock := AuthorizationService.clock_le_step
  -- Whether the entry was there or is written now, it lasted before the step, and no removal for the
  -- user returns in the step.
  have hbefore : Lasting config q user entry.permissions entry.expiresAt ∧
      entry.expiresAt ≤ q.1.clock + config.ttl ∧ a.returnsRemoval q.1 user = false := by
    rcases AuthorizationService.cache_step hentry with ⟨hold, hkept⟩ | ⟨i, rfl, hi⟩
    · exact ⟨h.lasting user entry hold, h.young user entry hold, hkept⟩
    · exact ⟨ha user _ _ hi, h.stamped i user _ _ hi, rfl⟩
  obtain ⟨hlasting, hyoung, hkept⟩ := hbefore
  rcases hlasting with hexpired | hlasting
  · exact .inl (hexpired.trans hclock)
  · refine .inr fun p hp => ⟨?_, fun r hr => ?_⟩
    · by_contra hremoved
      rcases Absences.removed_note (Bool.eq_true_of_not_eq_false hremoved) with hold | hreturns
      · rw [(hlasting p hp).1] at hold
        cases hold
      · rw [hkept] at hreturns
        cases hreturns
    · rcases Absences.revoked_note hr with hold | rfl
      · exact (hlasting p hp).2 r hold
      · omega

theorem Sound.held_step (h : Sound config q) {check : Check}
    (hi : (q.1.step config a).checks i = some check) (hp : p ∈ check.phase.permissions) :
    (withHistory (AuthorizationService.step config) (Absences.note config) q a).2.barred i p =
      false := by
  by_contra hbarred
  have htrue := Bool.eq_true_of_not_eq_false hbarred
  rcases AuthorizationService.checks_step hi with hold | ⟨hnone, hstart⟩ | ⟨phase, hold, hadvance⟩
  · have hsame := (Absences.barred_note hi hold htrue).1
    rw [h.held i check hold p hp] at hsame
    cases hsame
  · -- A check that starts has nothing in hand.
    rcases hstart with hstart | hstart <;> rw [hstart] at hp <;> simp [Phase.permissions] at hp
  · have hbefore := (Absences.barred_note hi hold htrue).1
    have hnot : q.2.barred i p = false := by
      generalize check.phase = phase' at hadvance hp
      cases hadvance with
      | hit entry hentry hvalid => exact h.hit hentry hvalid hold hp
      | miss => simp [Phase.permissions] at hp
      | fetch => exact absurd hp (h.lacks i ⟨check.user, .fetching⟩ p hold hbefore)
      | uncached => exact absurd hp (h.lacks i ⟨check.user, .fetching⟩ p hold hbefore)
      | stamp permissions expiresAt hexpiry => exact h.held i _ hold p hp
      | panic permissions => simp [Phase.permissions] at hp
      | write permissions expiresAt => exact h.held i _ hold p hp
    rw [hnot] at hbefore
    cases hbefore

/-- The invariant is kept by every step that meets the condition. -/
theorem Sound.step (h : Sound config q) (ha : Timely config q a) :
    Sound config (withHistory (AuthorizationService.step config) (Absences.note config) q a) := by
  have hclock : q.1.clock ≤ (q.1.step config a).clock := AuthorizationService.clock_le_step
  refine ⟨fun user entry hentry => h.lasting_step ha hentry, fun user entry hentry => ?_,
    fun i user permissions expiresAt hi => ?_, fun i check p hi hbarred => ?_,
    fun i user p hi hbarred => ?_, fun i check hi p hp => h.held_step hi hp⟩
  · refine le_trans ?_ (Int.add_le_add_right hclock _)
    rcases AuthorizationService.cache_step hentry with ⟨hold, -⟩ | ⟨i, -, hi⟩
    · exact h.young user entry hold
    · exact h.stamped i user _ _ hi
  · refine le_trans ?_ (Int.add_le_add_right hclock _)
    rcases AuthorizationService.checks_step hi with hold | ⟨-, hstart⟩ | ⟨phase, hold, hadvance⟩
    · exact h.stamped i user permissions expiresAt hold
    · rcases hstart with hstart | hstart <;> cases hstart
    · cases hadvance with
      | stamp _ _ hexpiry => exact expiry_le hexpiry
  · rcases AuthorizationService.checks_step hi with hold | ⟨hnone, -⟩ | ⟨phase, hold, -⟩
    · exact (Absences.barred_note hi hold hbarred).2
    · exact (Absences.barred_note_new hi hnone hbarred).2
    · exact (Absences.barred_note hi hold hbarred).2
  · rcases AuthorizationService.checks_step hi with hold | ⟨hnone, -⟩ | ⟨phase, hold, hadvance⟩
    · obtain ⟨hbefore, hlacks⟩ := Absences.barred_note hi hold hbarred
      exact Absences.refuses_note hlacks hclock (h.reading i user p hold hbefore)
    · obtain ⟨hrefuses, hlacks⟩ := Absences.barred_note_new hi hnone hbarred
      exact Absences.refuses_note hlacks le_rfl hrefuses
    · cases hadvance

end

/-- As long as no check writes to the cache what is out of date, no check that starts after a removal
or a time to live after a revocation is answered with a permission that was taken away. -/
theorem ended_of_timely (config : AuthorizationConfig) (now : ℤ) (as : List Act)
    (htimely : Along (withHistory (AuthorizationService.step config) (Absences.note config))
      (Timely config) (AuthorizationService.new now, Absences.empty) as) :
    Ended (run (withHistory (AuthorizationService.step config) (Absences.note config))
      (AuthorizationService.new now, Absences.empty) as) :=
  Sound.ended (invariant_along _ (fun _ _ h ha => h.step ha) (sound_new now) htimely)

/-- Cached for five minutes, the default. -/
def cachingConfig : AuthorizationConfig := ⟨300, true⟩

/-- A user is given a role that may read settings. -/
def given : List Act :=
  [.grantPermissionToRole "auditor" (.settings .read), .assignRoleToUser "u" "auditor",
    .clearUserCache]

/-- The check after a removal finds its entry deleted, and fetches. -/
theorem ended_of_timely_removed :
    let q := run (withHistory (AuthorizationService.step cachingConfig) (Absences.note cachingConfig))
      (AuthorizationService.new 0, Absences.empty)
      (given ++ [.check 0 "u", .cacheGet 0, .fetch 0, .stamp 0, .cacheSet 0,
        .removeRoleFromUser "u" "auditor", .clearUserCache, .check 1 "u", .cacheGet 1, .fetch 1,
        .stamp 1, .cacheSet 1])
    q.1.checks 0 = some ⟨"u", .answered {.settings .read}⟩ ∧
      q.1.checks 1 = some ⟨"u", .answered ∅⟩ ∧ Ended q := by
  refine ⟨by decide, by decide, ended_of_timely cachingConfig 0 _ ?_⟩
  refine ⟨trivial, trivial, trivial, trivial, trivial, trivial, trivial, ?_, trivial, trivial, trivial,
    trivial, trivial, trivial, ?_, trivial⟩
  · rintro _ _ _ hi
    cases hi
    exact .inr (by decide)
  · rintro _ _ _ hi
    cases hi
    exact .inr (by decide)

/-- A check that fetched before a removal writes its entry afterwards, and the next check is answered
from it. -/
theorem not_ended : ¬ ∀ config now as,
    Ended (run (withHistory (AuthorizationService.step config) (Absences.note config))
      (AuthorizationService.new now, Absences.empty) as) := by
  intro h
  have hrun := h cachingConfig 0 (given ++ [.check 0 "u", .cacheGet 0, .fetch 0,
    .removeRoleFromUser "u" "auditor", .clearUserCache, .stamp 0, .cacheSet 0, .check 1 "u",
    .cacheGet 1]) 1 "u" {.settings .read} (by decide) (.settings .read) (by decide)
  revert hrun
  decide

end Backbone.Authorization
