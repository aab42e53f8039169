import Backbone.RateLimit.StoreAgreement

/-!
# Clients of one counter in Redis

`RedisStorage::increment` and `reset` as the commands they send, with any number of clients between whose
commands those of others may come. A command may fail before Redis executes it or after, and a client
may stop between two of its own.

The counter is created by `INCR` and given its time to live by a command of its own, sent only by the
client that was answered `1`; whether it succeeds is not looked at. `KeepsExpiry` is the condition on a
step under which no counter is left without one: the last client that would set it does.

Reference: `backbone-rate-limit/src/redis_storage.rs`.
-/

namespace Backbone.RateLimit

open Machine

variable {k : String} {db : Redis}

/-! ## The clients -/

/-- A client that calls `increment` or `reset`, by the command it sends next. -/
inductive Client where
  /-- `TTL` of the lock. -/
  | askLock
  /-- `GET` of the counter, behind a lock with the given time to live. -/
  | readCount (lockTtl : ℤ)
  /-- `INCR` of the counter. -/
  | count
  /-- `EXPIRE` of the counter, which stands at `n`. -/
  | expire (n : ℕ)
  /-- `SETEX` of the lock. -/
  | lock (n lockout : ℕ)
  /-- `DEL` of the counter. -/
  | delCounter
  /-- `DEL` of the lock. -/
  | delLock
  | answered (answer : Except RateLimitError IncrementOutcome)
  | resetDone
  | stopped

/-- The client is inside `increment`. -/
def Client.incrementing : Client → Bool
  | .askLock | .readCount _ | .count | .expire _ | .lock _ _ => true
  | _ => false

/-- The client is to give the counter its time to live. -/
def Client.expiring : Client → Bool
  | .expire _ => true
  | _ => false

/-- How a command ends: executed and answered, not executed, or executed with its answer lost. -/
inductive Outcome where
  | ok
  | failed (error : String)
  | lost (error : String)

/-- Redis, its clients and its clock. -/
structure World where
  db : Redis
  clients : ℕ → Option Client
  clock : ℕ

inductive Act where
  | increment (i : ℕ)
  | reset (i : ℕ)
  /-- The client's next command; `now` is what its own clock reads after it. -/
  | exec (i now : ℕ) (outcome : Outcome)
  | stop (i : ℕ)
  | elapse (seconds : ℕ)

namespace World

def init (now : ℕ) : World := ⟨fun _ => none, fun _ => none, now⟩

def setClient (w : World) (i : ℕ) (c : Client) : World :=
  { w with clients := Function.update w.clients i (some c) }

end World

/-- Where a client of `increment` is once the counter stands at `n` and has its time to live. -/
def afterCount (config : RateLimitConfig) (n : ℕ) : Client :=
  match if config.maxRequests < n then config.lockoutSeconds else none with
  | some lockout => .lock n lockout
  | none => .answered (.ok ⟨n, none⟩)

/-- Where it is once `INCR` has answered `n`. -/
def afterIncr (config : RateLimitConfig) (n : ℕ) : Client :=
  if n = 1 then .expire n else afterCount config n

section Step

variable (keyPrefix : String) (config : RateLimitConfig) (key : String)

/-- The next command of a client. -/
def World.exec (w : World) (i now : ℕ) (outcome : Outcome) (c : Client) : World :=
  let counterKey := buildKey keyPrefix key
  let lockKey := buildLockKey keyPrefix key
  match c with
  | .askLock =>
    match outcome with
    | .ok =>
      let lockTtl := w.db.ttl w.clock lockKey
      w.setClient i (if 0 ≤ lockTtl then .readCount lockTtl else .count)
    | .failed e | .lost e => w.setClient i (.answered (.error (.redisOperation e)))
  | .readCount lockTtl =>
    match outcome with
    | .ok =>
      let count := (w.db.get w.clock counterKey).getD (addU64 config.maxRequests 1)
      w.setClient i (.answered (.ok ⟨count, some (addU64 now lockTtl.toNat)⟩))
    | .failed e | .lost e => w.setClient i (.answered (.error (.redisOperation e)))
  | .count =>
    match w.db.incr w.clock counterKey with
    | .error e => w.setClient i (.answered (.error (.redisOperation e)))
    | .ok (n, db) =>
      match outcome with
      | .ok => { w with db := db }.setClient i (afterIncr config n)
      | .failed e => w.setClient i (.answered (.error (.redisOperation e)))
      | .lost e => { w with db := db }.setClient i (.answered (.error (.redisOperation e)))
  | .expire n =>
    -- The result is not looked at.
    match outcome with
    | .failed _ => w.setClient i (afterCount config n)
    | _ => { w with db := w.db.expire w.clock counterKey (asI64 config.windowSeconds) }.setClient i
        (afterCount config n)
  | .lock n lockout =>
    let answer := Client.answered (.ok ⟨n, some (addU64 now lockout)⟩)
    match outcome with
    | .failed _ => w.setClient i answer
    | _ => { w with db := w.db.setEx w.clock lockKey 1 lockout }.setClient i answer
  | .delCounter =>
    match outcome with
    | .failed _ => w.setClient i .delLock
    | _ => { w with db := w.db.del counterKey }.setClient i .delLock
  | .delLock =>
    match outcome with
    | .failed _ => w.setClient i .resetDone
    | _ => { w with db := w.db.del lockKey }.setClient i .resetDone
  | .answered _ | .resetDone | .stopped => w

/-- One step; what cannot happen leaves everything as it is. -/
def World.step (w : World) : Act → World
  | .increment i =>
    match w.clients i with
    | none => w.setClient i (if config.lockoutSeconds.isSome then .askLock else .count)
    | some _ => w
  | .reset i =>
    match w.clients i with
    | none => w.setClient i .delCounter
    | some _ => w
  | .exec i now outcome =>
    match w.clients i with
    | some c => w.exec keyPrefix config key i now outcome c
    | none => w
  | .stop i =>
    match w.clients i with
    | some _ => w.setClient i .stopped
    | none => w
  | .elapse seconds => { w with clock := w.clock + seconds }

/-! ## What is kept -/

/-- The counter is there and never expires by itself. -/
def World.Persists (w : World) : Prop :=
  ∃ e, w.db.find w.clock (buildKey keyPrefix key) = some e ∧ e.expireAt = none

/-- Another client than `i` is to give the counter its time to live. -/
def World.OthersExpire (w : World) (i : ℕ) : Prop :=
  ∃ j c, j ≠ i ∧ w.clients j = some c ∧ c.expiring = true

/-- No increment of the key is in progress. -/
def World.Quiet (w : World) : Prop :=
  ∀ i c, w.clients i = some c → c.incrementing = false

/-- The condition on a step and the state it meets: the client that is to give a lasting counter its
time to live neither stops nor has the command fail, and no client creates the counter without learning
of it, unless another one is to give it a time to live. -/
def KeepsExpiry (w : World) : Act → Prop
  | .stop i => (∃ n, w.clients i = some (.expire n)) → w.Persists keyPrefix key → w.OthersExpire i
  | .exec i _ (.failed _) =>
    (∃ n, w.clients i = some (.expire n)) → w.Persists keyPrefix key → w.OthersExpire i
  | .exec i _ (.lost _) =>
    w.clients i = some .count → w.db.find w.clock (buildKey keyPrefix key) = none → w.OthersExpire i
  | _ => True

/-- A counter has an expiry within the window or a client that is to give it one, and a lock ends with
its lockout. -/
structure World.Expires (w : World) : Prop where
  counter : ∀ e, w.db.find w.clock (buildKey keyPrefix key) = some e →
    1 ≤ e.value ∧ (∀ t, e.expireAt = some t → t ≤ w.clock + config.windowSeconds) ∧
      (e.expireAt = none → ∃ i c, w.clients i = some c ∧ c.expiring = true)
  lock : ∀ e, w.db.find w.clock (buildLockKey keyPrefix key) = some e →
    ∃ lockout ∈ config.lockoutSeconds, ∃ t, e.expireAt = some t ∧ t ≤ w.clock + lockout
  clients : ∀ i n lockout, w.clients i = some (.lock n lockout) →
    config.lockoutSeconds = some lockout

end Step

section Steps

variable {keyPrefix : String} {config : RateLimitConfig} {key : String} {w : World} {i : ℕ}
  {c : Client} {t : ℕ} {e : RedisEntry} {n : ℕ}

theorem expires_init (now : ℕ) : (World.init now).Expires keyPrefix config key where
  counter e h := by cases h
  lock e h := by cases h
  clients j n lockout h := by cases h

theorem find_eq_some : db.find t k = some e ↔ db k = some e ∧ e.live t = true := by
  rw [Redis.find, Option.filter_eq_some_iff]

/-- What is there later was there before. -/
theorem find_earlier {t' : ℕ} (hle : t ≤ t') (h : db.find t' k = some e) :
    db.find t k = some e := by
  obtain ⟨hk, hlive⟩ := find_eq_some.mp h
  refine find_eq_some.mpr ⟨hk, ?_⟩
  obtain ⟨value, expireAt⟩ := e
  cases expireAt with
  | none => rfl
  | some u =>
    simp only [RedisEntry.live, Option.all_some, decide_eq_true_eq] at hlive ⊢
    omega

theorem find_update_self {e : Option RedisEntry} :
    Redis.find (Function.update db k e) t k = e.filter (·.live t) := by
  simp [Redis.find]

theorem find_update_of_ne {k' : String} {e : Option RedisEntry} (h : k ≠ k') :
    Redis.find (Function.update db k' e) t k = db.find t k := by
  simp [Redis.find, h]

theorem asI64_le (n : ℕ) : asI64 n ≤ n := by
  unfold asI64
  split <;> omega

theorem afterCount_lock {m lockout : ℕ} (h : afterCount config n = .lock m lockout) :
    config.lockoutSeconds = some lockout := by
  unfold afterCount at h
  split at h
  · rename_i l hl
    cases h
    split at hl
    · exact hl
    · cases hl
  · cases h

theorem afterIncr_lock {m lockout : ℕ} (h : afterIncr config n = .lock m lockout) :
    config.lockoutSeconds = some lockout := by
  unfold afterIncr at h
  split at h
  · cases h
  · exact afterCount_lock h

/-- A step of client `i` on the data: the counter it leaves is accounted for by that client or another
one. -/
theorem World.Expires.move (h : w.Expires keyPrefix config key)
    (hcounter : ∀ e, db.find w.clock (buildKey keyPrefix key) = some e →
      1 ≤ e.value ∧ (∀ t, e.expireAt = some t → t ≤ w.clock + config.windowSeconds) ∧
        (e.expireAt = none → c.expiring = true ∨ w.OthersExpire i))
    (hlock : ∀ e, db.find w.clock (buildLockKey keyPrefix key) = some e →
      ∃ lockout ∈ config.lockoutSeconds, ∃ t, e.expireAt = some t ∧ t ≤ w.clock + lockout)
    (hclient : ∀ n lockout, c = .lock n lockout → config.lockoutSeconds = some lockout) :
    ({ w with db := db }.setClient i c).Expires keyPrefix config key where
  counter e he := by
    obtain ⟨hvalue, hin, hnone⟩ := hcounter e he
    refine ⟨hvalue, hin, fun hlasts => ?_⟩
    rcases hnone hlasts with hc | ⟨j, d, hne, hj, hd⟩
    · exact ⟨i, c, by simp [setClient], hc⟩
    · exact ⟨j, d, by simp [setClient, hne, hj], hd⟩
  lock := hlock
  clients j n lockout hj := by
    by_cases hji : j = i
    · subst hji
      simp only [setClient, Function.update_self, Option.some.injEq] at hj
      exact hclient n lockout hj
    · simp only [setClient, ne_eq, hji, not_false_eq_true, Function.update_of_ne] at hj
      exact h.clients j n lockout hj

/-- A client that is not to give the counter its time to live leaves that to others. -/
theorem World.Expires.others (h : w.Expires keyPrefix config key)
    (hi : ∀ c, w.clients i = some c → c.expiring = true → w.Persists keyPrefix key →
      w.OthersExpire i)
    (he : w.db.find w.clock (buildKey keyPrefix key) = some e) :
    1 ≤ e.value ∧ (∀ t, e.expireAt = some t → t ≤ w.clock + config.windowSeconds) ∧
      (e.expireAt = none → w.OthersExpire i) := by
  obtain ⟨hvalue, hin, hnone⟩ := h.counter e he
  refine ⟨hvalue, hin, fun hlasts => ?_⟩
  obtain ⟨j, c, hj, hc⟩ := hnone hlasts
  by_cases hji : j = i
  · subst hji
    exact hi c hj hc ⟨e, he, hlasts⟩
  · exact ⟨j, c, hji, hj, hc⟩

/-- A client that is known, and not about to give a time to live. -/
theorem World.idle_of_client (hi : w.clients i = some c) (hc : c.expiring = false) :
    ∀ d, w.clients i = some d → d.expiring = false := by
  intro d hd
  rw [hi] at hd
  cases hd
  exact hc

theorem World.leaves_of_idle (hi : ∀ d, w.clients i = some d → d.expiring = false) :
    ∀ d, w.clients i = some d → d.expiring = true → w.Persists keyPrefix key →
      w.OthersExpire i := by
  intro d hd hexp
  rw [hi d hd] at hexp
  cases hexp

/-- A client moves on and the data stays. -/
theorem World.Expires.setClient (h : w.Expires keyPrefix config key)
    (hi : ∀ d, w.clients i = some d → d.expiring = true → w.Persists keyPrefix key →
      w.OthersExpire i)
    (hclient : ∀ n lockout, c = .lock n lockout → config.lockoutSeconds = some lockout) :
    (w.setClient i c).Expires keyPrefix config key := by
  refine h.move (fun e he => ?_) h.lock hclient
  obtain ⟨hvalue, hin, hnone⟩ := h.others hi he
  exact ⟨hvalue, hin, fun hlasts => .inr (hnone hlasts)⟩

/-- `INCR` of a counter that is accounted for: a new one is answered `1`. -/
theorem incr_counter {P : RedisEntry → Prop} {db' : Redis}
    (h : ∀ e, db.find t k = some e → 1 ≤ e.value ∧ P ⟨n, e.expireAt⟩)
    (hnew : n = 1 → db.find t k = none → P ⟨n, none⟩) (hincr : db.incr t k = .ok (n, db')) :
    (∀ e, db'.find t k = some e → 1 ≤ e.value ∧ P e) ∧
      (∀ k', k' ≠ k → db'.find t k' = db.find t k') := by
  simp only [Redis.incr] at hincr
  split at hincr
  · simp only [Except.ok.injEq, Prod.mk.injEq] at hincr
    obtain ⟨hn, rfl⟩ := hincr
    constructor
    · intro e he
      rw [find_update_self, Option.filter_eq_some_iff] at he
      cases hfind : db.find t k with
      | none =>
        rw [hfind] at hn he
        obtain rfl : 1 = n := hn
        cases he.1
        exact ⟨Nat.le_refl 1, hnew rfl hfind⟩
      | some e₀ =>
        obtain ⟨hvalue, hP⟩ := h e₀ hfind
        rw [hfind] at hn he
        obtain rfl : e₀.value + 1 = n := hn
        cases he.1
        exact ⟨Nat.le_add_left 1 _, hP⟩
    · intro k' hk'
      exact find_update_of_ne hk'
  · cases hincr

variable {now : ℕ} {outcome : Outcome}

section

variable (h : w.Expires keyPrefix config key)
include h

theorem World.Expires.exec_count (hi : w.clients i = some .count)
    (hC : KeepsExpiry keyPrefix key w (.exec i now outcome)) :
    (w.exec keyPrefix config key i now outcome .count).Expires keyPrefix config key := by
  have hidle : ∀ d, w.clients i = some d → d.expiring = true → w.Persists keyPrefix key →
      w.OthersExpire i := leaves_of_idle (idle_of_client hi rfl)
  have hkept := fun e he => h.others hidle (e := e) he
  simp only [World.exec]
  cases hincr : w.db.incr w.clock (buildKey keyPrefix key) with
  | error e => exact h.setClient hidle (by rintro n lockout ⟨⟩)
  | ok r =>
    obtain ⟨n, db⟩ := r
    -- The counter `INCR` leaves, for a client `c` that accounts for a new one.
    have hmove : ∀ c : Client, (n = 1 → w.db.find w.clock (buildKey keyPrefix key) = none →
          c.expiring = true ∨ w.OthersExpire i) →
        (∀ m lockout, c = .lock m lockout → config.lockoutSeconds = some lockout) →
        ({ w with db := db }.setClient i c).Expires keyPrefix config key := by
      intro c hnew hclient
      obtain ⟨hcounter, hother⟩ := incr_counter
        (P := fun e => (∀ t, e.expireAt = some t → t ≤ w.clock + config.windowSeconds) ∧
          (e.expireAt = none → c.expiring = true ∨ w.OthersExpire i))
        (fun e he => ⟨(hkept e he).1, (hkept e he).2.1, fun hn => .inr ((hkept e he).2.2 hn)⟩)
        (fun hone hnone => ⟨by rintro t ⟨⟩, fun _ => hnew hone hnone⟩) hincr
      refine h.move hcounter (fun e he => ?_) hclient
      rw [hother _ (buildKey_ne_buildLockKey keyPrefix _).symm] at he
      exact h.lock e he
    cases outcome with
    | ok =>
      refine hmove _ (fun hone _ => .inl ?_) fun m lockout hlock => afterIncr_lock hlock
      rw [afterIncr, if_pos hone]
      rfl
    | failed e => exact h.setClient hidle (by rintro n lockout ⟨⟩)
    | lost e => exact hmove _ (fun _ hnone => .inr (hC hi hnone)) (by rintro n lockout ⟨⟩)

theorem World.Expires.exec_expire {n : ℕ}
    (hi : w.clients i = some (.expire n))
    (hC : KeepsExpiry keyPrefix key w (.exec i now outcome)) :
    (w.exec keyPrefix config key i now outcome (.expire n)).Expires keyPrefix config key := by
  have hexpired : ({ w with
      db := w.db.expire w.clock (buildKey keyPrefix key)
        (asI64 config.windowSeconds) }.setClient i (afterCount config n)).Expires keyPrefix config
          key := by
    refine h.move ?_ ?_ fun m lockout hlock => afterCount_lock hlock
    · intro e he
      rw [Redis.expire, find_update_self, Option.filter_eq_some_iff] at he
      obtain ⟨e₀, hfind, rfl⟩ := Option.map_eq_some_iff.mp he.1
      refine ⟨(h.counter e₀ hfind).1, ?_, by rintro ⟨⟩⟩
      rintro t ⟨rfl⟩
      have := asI64_le config.windowSeconds
      omega
    · intro e he
      rw [Redis.expire, find_update_of_ne (buildKey_ne_buildLockKey keyPrefix _).symm] at he
      exact h.lock e he
  cases outcome with
  | ok => exact hexpired
  | lost e => exact hexpired
  | failed e =>
    refine h.setClient (fun d hd _ hlasts => ?_) fun m lockout hlock => afterCount_lock hlock
    exact hC ⟨n, hi⟩ hlasts

theorem World.Expires.exec_lock {n lockout : ℕ}
    (hi : w.clients i = some (.lock n lockout)) :
    (w.exec keyPrefix config key i now outcome (.lock n lockout)).Expires keyPrefix config key := by
  have hidle : ∀ d, w.clients i = some d → d.expiring = true → w.Persists keyPrefix key →
      w.OthersExpire i := leaves_of_idle (idle_of_client hi rfl)
  have hset : ({ w with db := w.db.setEx w.clock (buildLockKey keyPrefix key) 1 lockout }.setClient i
      (.answered (.ok ⟨n, some (addU64 now lockout)⟩))).Expires keyPrefix config key := by
    refine h.move ?_ ?_ (by rintro m lockout ⟨⟩)
    · intro e he
      rw [Redis.setEx, find_update_of_ne (buildKey_ne_buildLockKey keyPrefix _)] at he
      obtain ⟨hvalue, hin, hnone⟩ := h.others hidle he
      exact ⟨hvalue, hin, fun hlasts => .inr (hnone hlasts)⟩
    · intro e he
      rw [Redis.setEx, find_update_self, Option.filter_eq_some_iff] at he
      cases he.1
      exact ⟨lockout, h.clients i n lockout hi, _, rfl, Int.le_refl _⟩
  cases outcome with
  | ok => exact hset
  | lost e => exact hset
  | failed e => exact h.setClient hidle (by rintro m lockout ⟨⟩)

/-- A key that `DEL` drops needs no expiry. -/
theorem World.Expires.exec_del (hi : ∀ d, w.clients i = some d → d.expiring = false)
    (hc : ∀ n lockout, c = .lock n lockout → config.lockoutSeconds = some lockout) :
    ({ w with db := w.db.del k }.setClient i c).Expires keyPrefix config key := by
  have hkept : ∀ {k' e}, (w.db.del k).find w.clock k' = some e → w.db.find w.clock k' = some e := by
    intro k' e he
    by_cases hk : k' = k
    · subst hk
      rw [Redis.del, find_update_self] at he
      cases he
    · rwa [Redis.del, find_update_of_ne hk] at he
  refine h.move (fun e he => ?_) (fun e he => h.lock e (hkept he)) hc
  obtain ⟨hvalue, hin, hnone⟩ := h.others (leaves_of_idle hi) (hkept he)
  exact ⟨hvalue, hin, fun hlasts => .inr (hnone hlasts)⟩

/-- The condition is enough for a client's command. -/
theorem World.Expires.exec (hi : w.clients i = some c)
    (hC : KeepsExpiry keyPrefix key w (.exec i now outcome)) :
    (w.exec keyPrefix config key i now outcome c).Expires keyPrefix config key := by
  -- All but the client at `EXPIRE` leave the time to live to others.
  have hidle (hc : c.expiring = false) := idle_of_client hi hc
  have hothers (hc : c.expiring = false) : ∀ d, w.clients i = some d → d.expiring = true →
      w.Persists keyPrefix key → w.OthersExpire i := leaves_of_idle (hidle hc)
  cases c with
  | askLock =>
    simp only [World.exec]
    cases outcome with
    | ok =>
      refine h.setClient (hothers rfl) ?_
      intro n lockout hc
      split at hc <;> cases hc
    | failed e => exact h.setClient (hothers rfl) (by rintro n lockout ⟨⟩)
    | lost e => exact h.setClient (hothers rfl) (by rintro n lockout ⟨⟩)
  | readCount lockTtl =>
    simp only [World.exec]
    cases outcome with
    | ok => exact h.setClient (hothers rfl) (by rintro n lockout ⟨⟩)
    | failed e => exact h.setClient (hothers rfl) (by rintro n lockout ⟨⟩)
    | lost e => exact h.setClient (hothers rfl) (by rintro n lockout ⟨⟩)
  | count => exact h.exec_count hi hC
  | expire n => exact h.exec_expire hi hC
  | lock n lockout => exact h.exec_lock hi
  | delCounter | delLock =>
    simp only [World.exec]
    cases outcome with
    | ok => exact h.exec_del (hidle rfl) (by rintro n lockout ⟨⟩)
    | failed e => exact h.setClient (hothers rfl) (by rintro n lockout ⟨⟩)
    | lost e => exact h.exec_del (hidle rfl) (by rintro n lockout ⟨⟩)
  | answered | resetDone | stopped => exact h

/-- The condition is enough for one step. -/
theorem World.Expires.step (a : Act)
    (hC : KeepsExpiry keyPrefix key w a) :
    (w.step keyPrefix config key a).Expires keyPrefix config key := by
  have hnew : ∀ {i}, w.clients i = none → ∀ d, w.clients i = some d → d.expiring = false := by
    intro i hi d hd
    rw [hi] at hd
    cases hd
  cases a with
  | increment i =>
    simp only [World.step]
    cases hi : w.clients i with
    | none =>
      refine h.setClient (leaves_of_idle (hnew hi)) ?_
      intro n lockout hc
      split at hc <;> cases hc
    | some c => exact h
  | reset i =>
    simp only [World.step]
    cases hi : w.clients i with
    | none => exact h.setClient (leaves_of_idle (hnew hi)) (by rintro n lockout ⟨⟩)
    | some c => exact h
  | exec i now outcome =>
    simp only [World.step]
    cases hi : w.clients i with
    | none => exact h
    | some c => exact h.exec hi hC
  | stop i =>
    simp only [World.step]
    cases hi : w.clients i with
    | none => exact h
    | some c =>
      refine h.setClient (fun d hd hexp hlasts => ?_) (by rintro n lockout ⟨⟩)
      cases d with
      | expire n => exact hC ⟨n, hd⟩ hlasts
      | _ => cases hexp
  | elapse seconds =>
    refine ⟨fun e he => ?_, fun e he => ?_, h.clients⟩
    · obtain ⟨hvalue, hin, hnone⟩ := h.counter e (find_earlier (Nat.le_add_right _ seconds) he)
      refine ⟨hvalue, fun t ht => ?_, hnone⟩
      have := hin t ht
      simp only [World.step]
      omega
    · obtain ⟨lockout, hl, t, ht, hle⟩ :=
        h.lock e (find_earlier (Nat.le_add_right _ seconds) he)
      refine ⟨lockout, hl, t, ht, ?_⟩
      simp only [World.step]
      omega

end

end Steps

/-! ## Runs -/

/-- The counter, if it is there, expires within the window, and the lock with its lockout: some time
after the last request both are gone. -/
structure World.NoneStaysRefused (keyPrefix : String) (config : RateLimitConfig) (key : String)
    (w : World) : Prop where
  ttl : ∀ e, w.db.find w.clock (buildKey keyPrefix key) = some e →
    ∃ t, e.expireAt = some t ∧ t ≤ w.clock + config.windowSeconds
  counter_ends : ∀ t, w.clock + config.windowSeconds ≤ t →
    w.db.find t (buildKey keyPrefix key) = none
  lock_ends : ∀ t, (∀ lockout ∈ config.lockoutSeconds, w.clock + lockout ≤ t) → w.clock ≤ t →
    w.db.find t (buildLockKey keyPrefix key) = none

/-- An entry is gone from its expiry on. -/
theorem find_eq_none_of_expired {now t : ℕ} (bound : ℤ) (hle : now ≤ t)
    (h : ∀ e, db.find now k = some e → ∃ u, e.expireAt = some u ∧ u ≤ bound) (ht : bound ≤ t) :
    db.find t k = none := by
  cases hfind : db.find t k with
  | none => rfl
  | some e =>
    obtain ⟨u, hu, hub⟩ := h e (find_earlier hle hfind)
    have hlive := (find_eq_some.mp hfind).2
    simp only [RedisEntry.live, hu, Option.all_some, decide_eq_true_eq] at hlive
    omega

theorem World.Expires.noneStaysRefused {keyPrefix : String} {config : RateLimitConfig} {key : String}
    {w : World} (h : w.Expires keyPrefix config key) (hquiet : w.Quiet) :
    w.NoneStaysRefused keyPrefix config key := by
  have httl : ∀ e, w.db.find w.clock (buildKey keyPrefix key) = some e →
      ∃ t, e.expireAt = some t ∧ t ≤ w.clock + config.windowSeconds := by
    intro e he
    obtain ⟨-, hin, hnone⟩ := h.counter e he
    cases hexpire : e.expireAt with
    | some t => exact ⟨t, rfl, hin t hexpire⟩
    | none =>
      obtain ⟨i, c, hi, hc⟩ := hnone hexpire
      have hstill := hquiet i c hi
      cases c with
      | expire n => cases hstill
      | _ => cases hc
  refine ⟨httl, fun t ht => ?_, fun t hlockout hle => ?_⟩
  · exact find_eq_none_of_expired _ (by omega) httl (by omega)
  · cases hl : config.lockoutSeconds with
    | none =>
      refine find_eq_none_of_expired t hle (fun e he => ?_) (Int.le_refl _)
      obtain ⟨lockout, hsome, -⟩ := h.lock e he
      rw [hl] at hsome
      cases hsome
    | some lockout =>
      have hends := hlockout lockout hl
      refine find_eq_none_of_expired (w.clock + lockout) hle (fun e he => ?_) (by omega)
      obtain ⟨l, hsome, u, hu, hub⟩ := h.lock e he
      rw [hl] at hsome
      cases hsome
      exact ⟨u, hu, hub⟩

/-- In every run whose steps meet the condition, whenever no increment of the key is in progress its
counter expires within the window, and no request is refused for ever. -/
theorem counter_expires (keyPrefix : String) (config : RateLimitConfig) (key : String) (now : ℕ)
    (as : List Act)
    (h : Along (World.step keyPrefix config key) (KeepsExpiry keyPrefix key) (.init now) as)
    (hquiet : (run (World.step keyPrefix config key) (.init now) as).Quiet) :
    (run (World.step keyPrefix config key) (.init now) as).NoneStaysRefused keyPrefix config key :=
  (invariant_along (I := World.Expires keyPrefix config key) _ (fun _ a h hC => h.step a hC)
    (expires_init now) h).noneStaysRefused hquiet

/-- One request in ten seconds, then a lockout of twenty. -/
def oneThenTwenty : RateLimitConfig := ⟨1, 10, true, some 20⟩

/-- Two clients count the key, the `EXPIRE` of one between the commands of the other, and a third resets
it; the one that is locked out stops. -/
def interleaved : List Act :=
  [.increment 0, .increment 1, .exec 0 0 .ok, .exec 1 0 .ok, .exec 0 0 .ok, .exec 1 0 .ok,
    .exec 0 0 .ok, .reset 2, .elapse 1, .exec 2 1 .ok, .exec 1 1 .ok, .stop 1, .exec 2 1 (.lost "")]

theorem counter_expires_interleaved :
    (run (World.step "rate_limit" oneThenTwenty "k") (.init 0) interleaved).NoneStaysRefused
      "rate_limit" oneThenTwenty "k" := by
  refine counter_expires "rate_limit" oneThenTwenty "k" 0 interleaved ?_ ?_
  · refine ⟨trivial, trivial, trivial, trivial, trivial, trivial, trivial, trivial, trivial, trivial,
      trivial, ?_, ?_, trivial⟩
    · rintro ⟨n, hn⟩
      cases hn
    · intro hn
      cases hn
  · intro i c hc
    rcases i with _ | _ | _ | i
    · cases hc
      rfl
    · cases hc
      rfl
    · cases hc
      rfl
    · cases hc

/-- A client counts the first request of a window and stops before it has given the counter its time to
live. -/
def stoppedBetween : List Act := [.increment 0, .exec 0 0 .ok, .stop 0]

theorem counter_stays :
    ¬ ∀ (config : RateLimitConfig) (as : List Act),
      (run (World.step "rate_limit" config "k") (.init 0) as).Quiet →
      (run (World.step "rate_limit" config "k") (.init 0) as).NoneStaysRefused "rate_limit" config
        "k" := by
  intro h
  have hquiet : (run (World.step "rate_limit" oneInTen "k") (.init 0) stoppedBetween).Quiet := by
    intro i c hc
    rcases i with _ | i
    · cases hc
      rfl
    · cases hc
  obtain ⟨t, ht, -⟩ := (h oneInTen stoppedBetween hquiet).ttl ⟨1, none⟩ rfl
  cases ht

end Backbone.RateLimit
