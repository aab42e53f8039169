import Backbone.Lib.Run
import Backbone.Queue.Deduplication

/-!
# Exactly-once admission

`start_processing` asks whether a processing of the key is in progress, and stores a record of its own
under another lock: two calls that both ask first are both admitted. The question is about records in
progress only, so that a key that was processed with success is admitted again at once, and
`cleanup_expired` drops records by age, whatever their state.

A run is a list of lock sections of any calls, and of waits. A processing is in progress from the
section that stores its record to the one that writes its result.

Reference: `backbone-queue/src/deduplication.rs`, `start_processing`, `complete_processing` and
`cleanup_expired`.
-/

namespace Backbone.Queue.ExactlyOnce

open Machine

variable {π : Type} {gen : π → String} {cfg : DeduplicationConfig} {h : History} {s : World} {i : ℕ}
  {result : ProcessingResult} {id : ℕ} {c : Call} {key : String}
  {P : Call → Prop} {now : ℤ} {p : World × History}

/-- How far a call is. -/
inductive Call where
  /-- `start_processing` found no processing of the key in progress. -/
  | checked (key : String)
  /-- It made its record. -/
  | recorded (key : String) (startedAt : ℤ)
  /-- It returned `Ok`. -/
  | admitted
  /-- It returned an error. -/
  | refused
  /-- `complete_processing` holds a copy of the record. -/
  | read (id : ℕ) (result : ProcessingResult) (copy : Option ExactlyOnceRecord)
  /-- It wrote the copy back. -/
  | updated (id : ℕ) (result : ProcessingResult)
  | completed
  /-- `cleanup_expired` has its cutoff. -/
  | cleaning (cutoff : ℤ)
  | cleaned
deriving DecidableEq, Repr

structure World where
  now : ℤ
  storage : MemoryExactlyOnceStorage
  calls : ℕ → Option Call

/-- A deduplicator that was just made. -/
def World.new (now : ℤ) : World := ⟨now, .new, fun _ => none⟩

/-- `Duration::seconds`. -/
def seconds (n : ℕ) : ℤ := 1000000000 * n

inductive Act (π : Type) where
  /-- `start_processing`, the section that checks. -/
  | isProcessing (i : ℕ) (m : DedupMessage π)
  | makeRecord (i : ℕ)
  | storeRecord (i : ℕ)
  /-- `complete_processing`, its three sections. -/
  | getRecord (i : ℕ) (id : ℕ) (result : ProcessingResult)
  | updateRecord (i : ℕ)
  | markCompleted (i : ℕ)
  /-- `cleanup_expired` reads the clock. -/
  | cleanupExpired (i : ℕ)
  | cleanupOldRecords (i : ℕ)
  | wait (d : ℕ)

namespace World

variable (s : World) (m : MemoryExactlyOnceStorage)

def setCall (i : ℕ) (c : Call) : World := { s with calls := Function.update s.calls i (some c) }

def setStorage (m : MemoryExactlyOnceStorage) : World := { s with storage := m }

/-- The check of `start_processing`, with what it refuses before. -/
def check (gen : π → String) (cfg : DeduplicationConfig) (m : DedupMessage π) : Call :=
  if cfg.enableExactlyOnce then
    match getDeduplicationKey gen cfg.strategy m with
    | .error _ => .refused
    | .ok key => if s.storage.isProcessing key then .refused else .checked key
  else .refused

/-- One section of a call, or some time that passes. What cannot happen leaves the world as it is. -/
def step (gen : π → String) (cfg : DeduplicationConfig) (s : World) : Act π → World
  | .isProcessing i m =>
    match s.calls i with
    | none => s.setCall i (s.check gen cfg m)
    | some _ => s
  | .makeRecord i =>
    match s.calls i with
    | some (.checked key) => s.setCall i (.recorded key s.now)
    | _ => s
  | .storeRecord i =>
    match s.calls i with
    | some (.recorded key startedAt) =>
      (s.setStorage (s.storage.storeRecord i ⟨key, startedAt, .inProgress⟩)).setCall i .admitted
    | _ => s
  | .getRecord i id result =>
    match s.calls i with
    | none =>
      s.setCall i
        (if cfg.enableExactlyOnce then .read id result (s.storage.getRecord id) else .completed)
    | some _ => s
  | .updateRecord i =>
    match s.calls i with
    | some (.read id result (some copy)) =>
      (s.setStorage (s.storage.updateRecord id { copy with result := result })).setCall i
        (.updated id result)
    | _ => s
  | .markCompleted i =>
    match s.calls i with
    | some (.read id result none) | some (.updated id result) =>
      (s.setStorage (s.storage.markCompleted id result)).setCall i .completed
    | _ => s
  | .cleanupExpired i =>
    match s.calls i with
    | none =>
      s.setCall i
        (if cfg.enableExactlyOnce then
          .cleaning (s.now - seconds cfg.exactlyOnceWindowSeconds)
        else .cleaned)
    | some _ => s
  | .cleanupOldRecords i =>
    match s.calls i with
    | some (.cleaning cutoff) =>
      (s.setStorage (s.storage.cleanupOldRecords cutoff)).setCall i .cleaned
    | _ => s
  | .wait d => { s with now := s.now + d }

theorem calls_setCall (i j : ℕ) (c : Call) :
    (s.setCall i c).calls j = if j = i then some c else s.calls j := by
  by_cases h : j = i
  · subst h
    simp [setCall]
  · simp [setCall, h]

@[simp] theorem storage_setCall (i : ℕ) (c : Call) : (s.setCall i c).storage = s.storage := rfl

@[simp] theorem now_setCall (i : ℕ) (c : Call) : (s.setCall i c).now = s.now := rfl

@[simp] theorem calls_setStorage :
    (s.setStorage m).calls = s.calls := rfl

@[simp] theorem storage_setStorage :
    (s.setStorage m).storage = m := rfl

@[simp] theorem now_setStorage : (s.setStorage m).now = s.now := rfl

end World

/-! ## What the claim is about -/

/-- The key of each processing in progress, and when processings ended with success. -/
structure History where
  running : ℕ → Option String
  successes : List (String × ℤ)

/-- The processing `id` of the key is admitted. -/
def History.begun (h : History) (id : ℕ) (key : String) : History :=
  { h with running := Function.update h.running id (some key) }

/-- The result of the processing `id` is written. -/
def History.ended (h : History) (id : ℕ) (result : ProcessingResult) (now : ℤ) : History :=
  match h.running id, result with
  | none, _ | some _, .inProgress => h
  | some key, .success => ⟨Function.update h.running id none, (key, now) :: h.successes⟩
  | some _, .failed | some _, .permanentlyFailed =>
    { h with running := Function.update h.running id none }

def History.note (h : History) (s : World) (a : Act π) (_ : World) : History :=
  match a with
  | .storeRecord i =>
    match s.calls i with
    | some (.recorded key _) => h.begun i key
    | _ => h
  | .updateRecord i =>
    match s.calls i with
    | some (.read id result (some _)) => h.ended id result s.now
    | _ => h
  | .markCompleted i =>
    match s.calls i with
    | some (.read id result none) | some (.updated id result) => h.ended id result s.now
    | _ => h
  | _ => h

/-- At most one processing of each key is in progress. -/
def OneInProgress (h : History) : Prop :=
  ∀ i j key, h.running i = some key → h.running j = some key → i = j

/-- The call has passed its check and is still to store its record. -/
def Call.admits (key : String) : Call → Prop
  | .checked key' | .recorded key' _ => key' = key
  | _ => False

/-- The call is about to write the result of the processing. -/
def Call.completes (id : ℕ) : Call → Prop
  | .read id' _ _ => id' = id
  | _ => False

/-- The callers take care: starts of a key do not overlap and wait out the window behind a success, each
processing is completed once, by a result, and none is still in progress when a cleanup finds it older
than the window. -/
def Careful (gen : π → String) (cfg : DeduplicationConfig) (p : World × History) : Act π → Prop
  | .isProcessing _ m =>
    ∀ key, getDeduplicationKey gen cfg.strategy m = .ok key →
      p.1.storage.isProcessing key = false →
        (∀ j c, p.1.calls j = some c → ¬ c.admits key) ∧
          ∀ t, (key, t) ∈ p.2.successes → t + seconds cfg.exactlyOnceWindowSeconds < p.1.now
  | .getRecord _ id result =>
    result ≠ .inProgress ∧ (p.2.running id).isSome ∧
      ∀ j c, p.1.calls j = some c → ¬ c.completes id
  | .cleanupOldRecords i =>
    ∀ cutoff, p.1.calls i = some (.cleaning cutoff) → ∀ id r, (p.2.running id).isSome →
      p.1.storage.getRecord id = some r → cutoff < r.startedAt
  | _ => True

/-! ## The invariant -/

structure Sound (cfg : DeduplicationConfig) (s : World) (h : History) : Prop where
  running : ∀ id key, h.running id = some key → ∃ r, s.storage.getRecord id = some r ∧
    r.result = .inProgress ∧ r.deduplicationKey = key ∧ id ∈ s.storage.idsOf key
  recorded : ∀ id r, s.storage.getRecord id = some r → r.result = .inProgress →
    h.running id = some r.deduplicationKey
  filed : ∀ key, ∀ id ∈ s.storage.idsOf key, ∀ r, s.storage.getRecord id = some r →
    r.deduplicationKey = key
  /-- An id is in use only behind its admission. -/
  known : ∀ id, (∃ r, s.storage.getRecord id = some r) ∨ (∃ key, id ∈ s.storage.idsOf key) →
    s.calls id = some .admitted
  one : OneInProgress h
  admitting : ∀ i c key, s.calls i = some c → c.admits key →
    (∀ id, h.running id ≠ some key) ∧
      (∀ t, (key, t) ∈ h.successes → t + seconds cfg.exactlyOnceWindowSeconds < s.now) ∧
      ∀ j c', s.calls j = some c' → c'.admits key → j = i
  reading : ∀ i id result copy, s.calls i = some (.read id result copy) →
    result ≠ .inProgress ∧ (∃ r, copy = some r ∧ h.running id = some r.deduplicationKey) ∧
      ∀ j c, s.calls j = some c → c.completes id → j = i
  updated : ∀ i id result, s.calls i = some (.updated id result) →
    result ≠ .inProgress ∧ h.running id = none ∧ s.calls id = some .admitted

theorem sound_new (now : ℤ) : Sound cfg (World.new now) ⟨fun _ => none, []⟩ where
  running id key h := by cases h
  recorded id r h := by cases h
  filed key id h := by cases h
  known id h := by
    rcases h with ⟨r, h⟩ | ⟨key, h⟩ <;> cases h
  one i j key h := by cases h
  admitting i c key h := by cases h
  reading i id result copy h := by cases h
  updated i id result h := by cases h

/-- A call that was admitted stays so when another one goes on. -/
theorem World.admitted_setCall (hi : s.calls i ≠ some .admitted)
    (hid : s.calls id = some .admitted) : (s.setCall i c).calls id = some .admitted := by
  rw [World.calls_setCall, if_neg]
  · exact hid
  · rintro rfl
    exact hi hid

/-- Who is alone in its phase stays so when another call goes on to a different phase. -/
theorem World.alone_setCall {k : ℕ} (hc : ¬ P c)
    (halone : ∀ j c', s.calls j = some c' → P c' → j = k) :
    ∀ j c', (s.setCall i c).calls j = some c' → P c' → j = k := by
  intro j c' hj hc'
  rw [World.calls_setCall] at hj
  split at hj
  · obtain rfl := Option.some.inj hj
    exact absurd hc' hc
  · exact halone j c' hj hc'

/-- Who is alone in its phase stays so when a call goes on to be alone in the phase it comes to. -/
theorem World.alone_of_setCall {k : ℕ} {ck : Call}
    (hc : P c → ∀ j c', s.calls j = some c' → P c' → j = i) (hk : (s.setCall i c).calls k = some ck)
    (hck : P ck) (halone : s.calls k = some ck → ∀ j c', s.calls j = some c' → P c' → j = k) :
    ∀ j c', (s.setCall i c).calls j = some c' → P c' → j = k := by
  intro j c' hj hc'
  rw [World.calls_setCall] at hj hk
  by_cases hki : k = i
  · rw [if_pos hki] at hk
    obtain rfl := Option.some.inj hk
    by_cases hji : j = i
    · rw [hji, hki]
    · rw [if_neg hji] at hj
      rw [hki]
      exact hc hck j c' hj hc'
  · rw [if_neg hki] at hk
    by_cases hji : j = i
    · rw [if_pos hji] at hj
      obtain rfl := Option.some.inj hj
      exact absurd (hc hc' k ck hk hck) hki
    · rw [if_neg hji] at hj
      exact halone hk j c' hj hc'

theorem Sound.setCall (hs : Sound cfg s h) (hprev : s.calls i ≠ some .admitted)
    (hadmits : ∀ key, c.admits key → (∀ id, h.running id ≠ some key) ∧
      (∀ t, (key, t) ∈ h.successes → t + seconds cfg.exactlyOnceWindowSeconds < s.now) ∧
      ∀ j c', s.calls j = some c' → c'.admits key → j = i)
    (hread : ∀ id result copy, c = .read id result copy → result ≠ .inProgress ∧
      (∃ r, copy = some r ∧ h.running id = some r.deduplicationKey) ∧
      ∀ j c', s.calls j = some c' → c'.completes id → j = i)
    (hupdated : ∀ id result, c = .updated id result → result ≠ .inProgress ∧
      h.running id = none ∧ s.calls id = some .admitted) : Sound cfg (s.setCall i c) h where
  running := hs.running
  recorded := hs.recorded
  filed := hs.filed
  known id hid := World.admitted_setCall hprev (hs.known id hid)
  one := hs.one
  admitting j c' key hj hc' := by
    have halone := World.alone_of_setCall (fun hc => (hadmits key hc).2.2) hj hc' fun hold =>
      (hs.admitting j c' key hold hc').2.2
    rw [World.calls_setCall] at hj
    split at hj
    · obtain rfl := Option.some.inj hj
      obtain ⟨hrunning, hsuccesses, -⟩ := hadmits key hc'
      exact ⟨hrunning, hsuccesses, halone⟩
    · obtain ⟨hrunning, hsuccesses, -⟩ := hs.admitting j c' key hj hc'
      exact ⟨hrunning, hsuccesses, halone⟩
  reading j id result copy hj := by
    have hcompletes : c.completes id → ∀ j c', s.calls j = some c' → c'.completes id → j = i := by
      intro hc
      cases c with
      | read id' result' copy' =>
        obtain rfl : id' = id := hc
        exact (hread id' result' copy' rfl).2.2
      | checked | recorded | admitted | refused | updated | completed | cleaning | cleaned =>
        exact hc.elim
    have halone := World.alone_of_setCall hcompletes hj rfl fun hold =>
      (hs.reading j id result copy hold).2.2
    rw [World.calls_setCall] at hj
    split at hj
    · obtain ⟨hresult, hcopy, -⟩ := hread id result copy (Option.some.inj hj)
      exact ⟨hresult, hcopy, halone⟩
    · obtain ⟨hresult, hcopy, -⟩ := hs.reading j id result copy hj
      exact ⟨hresult, hcopy, halone⟩
  updated j id result hj := by
    rw [World.calls_setCall] at hj
    split at hj
    · obtain ⟨hresult, hrunning, hid⟩ := hupdated id result (Option.some.inj hj)
      exact ⟨hresult, hrunning, World.admitted_setCall hprev hid⟩
    · obtain ⟨hresult, hrunning, hid⟩ := hs.updated j id result hj
      exact ⟨hresult, hrunning, World.admitted_setCall hprev hid⟩

/-- The storage changes, and the processings in progress keep their records. -/
theorem Sound.setStorage (hs : Sound cfg s h) {m : MemoryExactlyOnceStorage}
    (hrunning : ∀ id key, h.running id = some key → ∃ r, m.getRecord id = some r ∧
      r.result = .inProgress ∧ r.deduplicationKey = key ∧ id ∈ m.idsOf key)
    (hrecord : ∀ id r, m.getRecord id = some r → ∃ r₀, s.storage.getRecord id = some r₀ ∧
      r₀.deduplicationKey = r.deduplicationKey ∧ (r.result = .inProgress → r₀.result = .inProgress))
    (hfiled : ∀ key, ∀ id ∈ m.idsOf key, ∀ r, m.getRecord id = some r → r.deduplicationKey = key)
    (hids : ∀ key, ∀ id ∈ m.idsOf key, id ∈ s.storage.idsOf key ∨ ∃ r, m.getRecord id = some r) :
    Sound cfg (s.setStorage m) h where
  running := hrunning
  recorded id r hr hresult := by
    obtain ⟨r₀, hr₀, hkey, hback⟩ := hrecord id r hr
    rw [← hkey]
    exact hs.recorded id r₀ hr₀ (hback hresult)
  filed := hfiled
  known id hid := by
    refine hs.known id ?_
    rcases hid with ⟨r, hr⟩ | ⟨key, hid⟩
    · obtain ⟨r₀, hr₀, -⟩ := hrecord id r hr
      exact .inl ⟨r₀, hr₀⟩
    · rcases hids key id hid with hid | ⟨r, hr⟩
      · exact .inr ⟨key, hid⟩
      · obtain ⟨r₀, hr₀, -⟩ := hrecord id r hr
        exact .inl ⟨r₀, hr₀⟩
  one := hs.one
  admitting := hs.admitting
  reading := hs.reading
  updated := hs.updated

theorem Sound.check (hs : Sound cfg s h) {m : DedupMessage π} (hi : s.calls i = none)
    (hcareful : Careful gen cfg (s, h) (.isProcessing i m)) :
    Sound cfg (s.setCall i (s.check gen cfg m)) h := by
  refine hs.setCall (by simp [hi]) ?_ ?_ ?_
  · intro key hadmits
    unfold World.check at hadmits
    split at hadmits
    · split at hadmits
      · cases hadmits
      · rename_i key' hkey
        split at hadmits
        · cases hadmits
        · rename_i hfree
          obtain rfl : key' = key := hadmits
          obtain ⟨hoverlap, hwindow⟩ := hcareful key' hkey (Bool.eq_false_iff.mpr hfree)
          refine ⟨fun id hid => hfree ?_, hwindow, fun j c' hj hc' => absurd hc' (hoverlap j c' hj)⟩
          obtain ⟨r, hr, hresult, -, hids⟩ := hs.running id key' hid
          exact s.storage.isProcessing_iff.mpr ⟨id, hids, r, hr, hresult⟩
    · cases hadmits
  · intro id result copy heq
    unfold World.check at heq
    repeat' split at heq
    all_goals cases heq
  · intro id result heq
    unfold World.check at heq
    repeat' split at heq
    all_goals cases heq

theorem running_begun (h : History) (id id' : ℕ) (key : String) :
    (h.begun id key).running id' = if id' = id then some key else h.running id' := by
  by_cases hid : id' = id
  · subst hid
    simp [History.begun]
  · simp [History.begun, hid]

/-- An admission of a key of which nothing is in progress. -/
theorem OneInProgress.begun (hone : OneInProgress h)
    (hfree : ∀ id, h.running id ≠ some key) (id : ℕ) : OneInProgress (h.begun id key) := by
  intro j j' key' hj hj'
  rw [running_begun] at hj hj'
  by_cases hji : j = id
  · by_cases hji' : j' = id
    · rw [hji, hji']
    · rw [if_neg hji'] at hj'
      rw [if_pos hji] at hj
      cases hj
      exact absurd hj' (hfree j')
  · rw [if_neg hji] at hj
    by_cases hji' : j' = id
    · rw [if_pos hji'] at hj'
      cases hj'
      exact absurd hj (hfree j)
    · rw [if_neg hji'] at hj'
      exact hone j j' key' hj hj'

/-- The record of an admission is stored under an id that nothing knows yet. -/
theorem Sound.store (hs : Sound cfg s h) {startedAt : ℤ}
    (hi : s.calls i = some (.recorded key startedAt)) :
    Sound cfg
      ((s.setStorage (s.storage.storeRecord i ⟨key, startedAt, .inProgress⟩)).setCall i .admitted)
      (h.begun i key) := by
  obtain ⟨hfree, hsuccesses, hunique⟩ := hs.admitting i _ key hi rfl
  have hunknown : ¬ ((∃ r, s.storage.getRecord i = some r) ∨ ∃ key, i ∈ s.storage.idsOf key) := by
    intro hknown
    rw [hs.known i hknown] at hi
    cases hi
  have hnone : s.storage.getRecord i = none :=
    Option.eq_none_iff_forall_not_mem.mpr fun r hr => hunknown (.inl ⟨r, hr⟩)
  have hnotRunning : h.running i = none := by
    refine Option.eq_none_iff_forall_not_mem.mpr fun key' hkey' => ?_
    obtain ⟨r, hr, -⟩ := hs.running i key' hkey'
    rw [hnone] at hr
    cases hr
  have hrunning {id : ℕ} (hid : id ≠ i) : (h.begun i key).running id = h.running id := by
    rw [running_begun, if_neg hid]
  have hself : (h.begun i key).running i = some key := by
    rw [running_begun, if_pos rfl]
  constructor
  case running =>
    intro id key' hid
    simp only [World.storage_setCall, World.storage_setStorage,
      MemoryExactlyOnceStorage.getRecord_storeRecord,
      MemoryExactlyOnceStorage.idsOf_storeRecord]
    by_cases hidi : id = i
    · subst hidi
      obtain rfl := Option.some.inj (hself.symm.trans hid)
      exact ⟨_, if_pos rfl, rfl, rfl, by simp⟩
    · rw [hrunning hidi] at hid
      obtain ⟨r, hr, hresult, hkey, hids⟩ := hs.running id key' hid
      exact ⟨r, by rw [if_neg hidi, hr], hresult, hkey, List.mem_append_left _ hids⟩
  case recorded =>
    intro id r hr hresult
    simp only [World.storage_setCall, World.storage_setStorage,
      MemoryExactlyOnceStorage.getRecord_storeRecord] at hr
    by_cases hidi : id = i
    · subst hidi
      rw [if_pos rfl] at hr
      cases hr
      exact hself
    · rw [if_neg hidi] at hr
      rw [hrunning hidi]
      exact hs.recorded id r hr hresult
  case filed =>
    intro key' id hid r hr
    simp only [World.storage_setCall, World.storage_setStorage,
      MemoryExactlyOnceStorage.getRecord_storeRecord,
      MemoryExactlyOnceStorage.idsOf_storeRecord] at hid hr
    rcases List.mem_append.mp hid with hold | hnew
    · have hidi : id ≠ i := fun heq => hunknown (.inr ⟨key', heq ▸ hold⟩)
      rw [if_neg hidi] at hr
      exact hs.filed key' id hold r hr
    · split at hnew
      · rename_i hkey
        rw [List.mem_singleton.mp hnew, if_pos rfl] at hr
        cases hr
        exact hkey.symm
      · cases hnew
  case known =>
    intro id hid
    rw [World.calls_setCall]
    split
    · rfl
    · rename_i hidi
      refine hs.known id ?_
      simp only [World.storage_setCall, World.storage_setStorage,
        MemoryExactlyOnceStorage.getRecord_storeRecord,
        MemoryExactlyOnceStorage.idsOf_storeRecord, if_neg hidi] at hid
      rcases hid with hid | ⟨key', hid⟩
      · exact .inl hid
      · rcases List.mem_append.mp hid with hid | hid
        · exact .inr ⟨key', hid⟩
        · split at hid
          · exact absurd (List.mem_singleton.mp hid) hidi
          · cases hid
  case one => exact hs.one.begun hfree i
  case admitting =>
    intro j c key' hj hc
    rw [World.calls_setCall] at hj
    split at hj
    · cases hj
      exact hc.elim
    · rename_i hji
      obtain ⟨hfree', hsuccesses', hunique'⟩ := hs.admitting j c key' hj hc
      refine ⟨fun id hid => ?_, hsuccesses', World.alone_setCall not_false hunique'⟩
      by_cases hidi : id = i
      · rw [hidi, hself] at hid
        cases hid
        exact hji (hunique j c hj hc)
      · exact hfree' id (by rwa [hrunning hidi] at hid)
  case reading =>
    intro j id result copy hj
    rw [World.calls_setCall] at hj
    split at hj
    · cases hj
    · obtain ⟨hresult, ⟨r, hr, hid⟩, hunique'⟩ := hs.reading j id result copy hj
      have hidi : id ≠ i := by
        rintro rfl
        rw [hnotRunning] at hid
        cases hid
      exact ⟨hresult, ⟨r, hr, by rw [hrunning hidi, hid]⟩, World.alone_setCall not_false hunique'⟩
  case updated =>
    intro j id result hj
    rw [World.calls_setCall] at hj
    split at hj
    · cases hj
    · obtain ⟨hresult, hid, hcall⟩ := hs.updated j id result hj
      have hidi : id ≠ i := by
        rintro rfl
        rw [hcall] at hi
        cases hi
      refine ⟨hresult, by rw [hrunning hidi, hid], ?_⟩
      rw [World.calls_setCall, if_neg hidi]
      exact hcall

theorem running_ended (hresult : result ≠ .inProgress) :
    (h.ended id result now).running = Function.update h.running id none := by
  unfold History.ended
  cases hid : h.running id with
  | none => exact (Function.update_eq_self_iff.mpr hid.symm).symm
  | some key =>
    cases result with
    | inProgress => exact absurd rfl hresult
    | success | failed | permanentlyFailed => rfl

theorem mem_successes_ended {t : ℤ}
    (ht : (key, t) ∈ (h.ended id result now).successes) :
    (key, t) ∈ h.successes ∨ h.running id = some key := by
  unfold History.ended at ht
  cases hid : h.running id with
  | none =>
    rw [hid] at ht
    exact .inl ht
  | some key' =>
    rw [hid] at ht
    cases result with
    | inProgress | failed | permanentlyFailed => exact .inl ht
    | success =>
      rcases List.mem_cons.mp ht with heq | ht
      · cases heq
        exact .inr rfl
      · exact .inl ht

theorem OneInProgress.ended (hone : OneInProgress h) (id : ℕ) (hresult : result ≠ .inProgress)
    (now : ℤ) : OneInProgress (h.ended id result now) := by
  intro j j' key hj hj'
  rw [running_ended hresult] at hj hj'
  by_cases hjid : j = id
  · rw [hjid, Function.update_self] at hj
    cases hj
  · by_cases hjid' : j' = id
    · rw [hjid', Function.update_self] at hj'
      cases hj'
    · rw [Function.update_of_ne hjid] at hj
      rw [Function.update_of_ne hjid'] at hj'
      exact hone j j' key hj hj'

/-- The copy is written back, and the processing has ended. -/
theorem Sound.update (hs : Sound cfg s h) {copy : ExactlyOnceRecord}
    (hi : s.calls i = some (.read id result (some copy))) :
    Sound cfg
      ((s.setStorage (s.storage.updateRecord id { copy with result := result })).setCall i
        (.updated id result)) (h.ended id result s.now) := by
  obtain ⟨hresult, ⟨r, hr, hid⟩, hunique⟩ := hs.reading i id result _ hi
  cases hr
  obtain ⟨r, hr, -, hkey, hids⟩ := hs.running id _ hid
  have hcall : s.calls id = some .admitted := hs.known id (.inl ⟨r, hr⟩)
  have hrunning : (h.ended id result s.now).running = Function.update h.running id none :=
    running_ended hresult
  have hother {id' : ℕ} (hne : id' ≠ id) :
      (h.ended id result s.now).running id' = h.running id' := by
    rw [hrunning, Function.update_of_ne hne]
  have hself : (h.ended id result s.now).running id = none := by
    rw [hrunning, Function.update_self]
  have hprev : (s.setStorage (s.storage.updateRecord id { copy with result := result })).calls i ≠
      some .admitted := by
    rw [World.calls_setStorage, hi]
    simp
  constructor
  case running =>
    intro id' key hid'
    have hne : id' ≠ id := by
      rintro rfl
      rw [hself] at hid'
      cases hid'
    rw [hother hne] at hid'
    obtain ⟨r', hr', hrest⟩ := hs.running id' key hid'
    refine ⟨r', ?_, hrest⟩
    simp only [World.storage_setCall, World.storage_setStorage,
      MemoryExactlyOnceStorage.getRecord_updateRecord, if_neg hne, hr']
  case recorded =>
    intro id' r' hr' hresult'
    simp only [World.storage_setCall, World.storage_setStorage,
      MemoryExactlyOnceStorage.getRecord_updateRecord] at hr'
    split at hr'
    · cases hr'
      exact absurd hresult' hresult
    · rename_i hne
      rw [hother hne]
      exact hs.recorded id' r' hr' hresult'
  case filed =>
    intro key id' hid' r' hr'
    simp only [World.storage_setCall, World.storage_setStorage,
      MemoryExactlyOnceStorage.getRecord_updateRecord] at hr'
    split at hr'
    · rename_i heq
      subst heq
      cases hr'
      rw [← hs.filed key id' hid' r hr, hkey]
    · exact hs.filed key id' hid' r' hr'
  case known =>
    intro id' hid'
    refine World.admitted_setCall hprev ?_
    by_cases hne : id' = id
    · rw [hne]
      exact hcall
    · refine hs.known id' ?_
      simp only [World.storage_setCall, World.storage_setStorage,
        MemoryExactlyOnceStorage.getRecord_updateRecord, if_neg hne] at hid'
      exact hid'
  case one => exact hs.one.ended id hresult s.now
  case admitting =>
    intro j c key hj hc
    rw [World.calls_setCall] at hj
    split at hj
    · cases hj
      exact hc.elim
    · obtain ⟨hfree, hsuccesses, hunique'⟩ := hs.admitting j c key hj hc
      refine ⟨fun id' hid' => ?_, fun t ht => ?_, World.alone_setCall not_false hunique'⟩
      · by_cases hne : id' = id
        · rw [hne, hself] at hid'
          cases hid'
        · exact hfree id' (by rwa [hother hne] at hid')
      · rcases mem_successes_ended ht with ht | hsame
        · exact hsuccesses t ht
        · exact absurd hsame (hfree id)
  case reading =>
    intro j id' result' copy' hj
    rw [World.calls_setCall] at hj
    split at hj
    · cases hj
    · rename_i hji
      obtain ⟨hresult', ⟨r', hr', hid'⟩, hunique'⟩ := hs.reading j id' result' copy' hj
      have hne : id' ≠ id := by
        rintro rfl
        exact hji (hunique j _ hj rfl)
      exact ⟨hresult', ⟨r', hr', by rw [hother hne, hid']⟩, World.alone_setCall not_false hunique'⟩
  case updated =>
    intro j id' result' hj
    rw [World.calls_setCall] at hj
    split at hj
    · cases hj
      exact ⟨hresult, hself, World.admitted_setCall hprev hcall⟩
    · obtain ⟨hresult', hid', hcall'⟩ := hs.updated j id' result' hj
      refine ⟨hresult', ?_, World.admitted_setCall hprev hcall'⟩
      by_cases hne : id' = id
      · rw [hne, hself]
      · rw [hother hne, hid']

/-- A result is written once more: no processing is in progress under the id. -/
theorem Sound.mark (hs : Sound cfg s h) (hi : s.calls i = some (.updated id result)) :
    Sound cfg ((s.setStorage (s.storage.markCompleted id result)).setCall i .completed) h := by
  obtain ⟨hresult, hid, -⟩ := hs.updated i id result hi
  have hstorage : Sound cfg (s.setStorage (s.storage.markCompleted id result)) h := by
    refine hs.setStorage ?_ ?_ ?_ fun key id' hid' => .inl (by simpa using hid')
    · intro id' key hrunning
      have hne : id' ≠ id := by
        rintro rfl
        rw [hid] at hrunning
        cases hrunning
      obtain ⟨r, hr, hrest⟩ := hs.running id' key hrunning
      refine ⟨r, ?_, by simpa using hrest⟩
      rw [MemoryExactlyOnceStorage.getRecord_markCompleted, if_neg hne, hr]
    · intro id' r hr
      rw [MemoryExactlyOnceStorage.getRecord_markCompleted] at hr
      split at hr
      · rename_i heq
        obtain ⟨r₀, hr₀, rfl⟩ := Option.map_eq_some_iff.mp hr
        exact ⟨r₀, heq ▸ hr₀, rfl, fun h => absurd h hresult⟩
      · exact ⟨r, hr, rfl, fun h => h⟩
    · intro key id' hid' r hr
      rw [MemoryExactlyOnceStorage.idsOf_markCompleted] at hid'
      rw [MemoryExactlyOnceStorage.getRecord_markCompleted] at hr
      split at hr
      · rename_i heq
        obtain ⟨r₀, hr₀, rfl⟩ := Option.map_eq_some_iff.mp hr
        exact hs.filed key id' hid' r₀ (heq ▸ hr₀)
      · exact hs.filed key id' hid' r hr
  refine hstorage.setCall ?_ (by simp [Call.admits]) (by simp) (by simp)
  rw [World.calls_setStorage, hi]
  simp

/-- A cleanup keeps the processings in progress that are young enough. -/
theorem Sound.cleanup (hs : Sound cfg s h) {cutoff : ℤ} (hi : s.calls i = some (.cleaning cutoff))
    (hyoung : ∀ id r, (h.running id).isSome → s.storage.getRecord id = some r → cutoff < r.startedAt) :
    Sound cfg ((s.setStorage (s.storage.cleanupOldRecords cutoff)).setCall i .cleaned) h := by
  have hstorage : Sound cfg (s.setStorage (s.storage.cleanupOldRecords cutoff)) h := by
    refine hs.setStorage ?_ ?_ ?_ ?_
    · intro id key hid
      obtain ⟨r, hr, hresult, hkey, -⟩ := hs.running id key hid
      have hr' := (s.storage.getRecord_cleanupOldRecords cutoff id r).mpr
        ⟨hr, hyoung id r (by simp [hid]) hr⟩
      exact ⟨r, hr', hresult, hkey,
        (s.storage.mem_idsOf_cleanupOldRecords cutoff key id).mpr ⟨r, hr', hkey⟩⟩
    · intro id r hr
      exact ⟨r, ((s.storage.getRecord_cleanupOldRecords cutoff id r).mp hr).1, rfl, fun h => h⟩
    · intro key id hid r hr
      obtain ⟨r', hr', hkey⟩ := (s.storage.mem_idsOf_cleanupOldRecords cutoff key id).mp hid
      rw [hr'] at hr
      cases hr
      exact hkey
    · intro key id hid
      obtain ⟨r, hr, -⟩ := (s.storage.mem_idsOf_cleanupOldRecords cutoff key id).mp hid
      exact .inr ⟨r, hr⟩
  refine hstorage.setCall ?_ (by simp [Call.admits]) (by simp) (by simp)
  rw [World.calls_setStorage, hi]
  simp

theorem Sound.step (hs : Sound cfg p.1 p.2) {a : Act π}
    (hcareful : Careful gen cfg p a) :
    Sound cfg (withHistory (World.step gen cfg) History.note p a).1
      (withHistory (World.step gen cfg) History.note p a).2 := by
  obtain ⟨s, h⟩ := p
  cases a with
  | isProcessing i m =>
    simp only [withHistory, World.step, History.note]
    split
    · rename_i hi
      exact hs.check hi hcareful
    · exact hs
  | makeRecord i =>
    simp only [withHistory, World.step, History.note]
    split
    · rename_i key hi
      refine hs.setCall (by simp [hi]) ?_ (by simp) (by simp)
      intro key' hkey'
      exact hs.admitting i _ key' hi hkey'
    · exact hs
  | storeRecord i =>
    simp only [withHistory, World.step, History.note]
    split
    · rename_i key startedAt hi
      exact hs.store hi
    · exact hs
  | getRecord i id result =>
    simp only [withHistory, World.step, History.note]
    split
    · rename_i hi
      obtain ⟨hresult, hrunning, hunique⟩ := hcareful
      obtain ⟨key, hkey⟩ := Option.isSome_iff_exists.mp hrunning
      obtain ⟨r, hr, -, hrkey, -⟩ := hs.running id key hkey
      refine hs.setCall (by simp [hi]) ?_ ?_ ?_
      · split <;> simp [Call.admits]
      · intro id' result' copy heq
        split at heq
        · cases heq
          exact ⟨hresult, ⟨r, hr, by rw [hkey, hrkey]⟩, fun j c hj hc => absurd hc (hunique j c hj)⟩
        · cases heq
      · split <;> simp
    · exact hs
  | updateRecord i =>
    simp only [withHistory, World.step, History.note]
    split
    · rename_i id result copy hi
      exact hs.update hi
    · exact hs
  | markCompleted i =>
    simp only [withHistory, World.step, History.note]
    split
    · rename_i id result hi
      obtain ⟨-, ⟨r, hr, -⟩, -⟩ := hs.reading i id result _ hi
      cases hr
    · rename_i id result hi
      obtain ⟨-, hid, -⟩ := hs.updated i id result hi
      have hended : h.ended id result s.now = h := by
        simp [History.ended, show h.running id = none from hid]
      rw [hended]
      exact hs.mark hi
    · exact hs
  | cleanupExpired i =>
    simp only [withHistory, World.step, History.note]
    split
    · rename_i hi
      refine hs.setCall (by simp [hi]) ?_ ?_ ?_ <;> split <;> simp [Call.admits]
    · exact hs
  | cleanupOldRecords i =>
    simp only [withHistory, World.step, History.note]
    split
    · rename_i cutoff hi
      exact hs.cleanup hi (hcareful cutoff hi)
    · exact hs
  | wait d =>
    refine ⟨hs.running, hs.recorded, hs.filed, hs.known, hs.one, ?_, hs.reading, hs.updated⟩
    intro i c key hi hc
    obtain ⟨hfree, hsuccesses, hunique⟩ := hs.admitting i c key hi hc
    refine ⟨hfree, fun t ht => ?_, hunique⟩
    have hbefore : t + seconds cfg.exactlyOnceWindowSeconds < s.now := hsuccesses t ht
    show t + seconds cfg.exactlyOnceWindowSeconds < s.now + d
    omega

/-- Where the sections lead. -/
def reached (gen : π → String) (cfg : DeduplicationConfig) (now : ℤ) (acts : List (Act π)) :
    World × History :=
  run (withHistory (World.step gen cfg) History.note) (World.new now, ⟨fun _ => none, []⟩) acts

def order : DedupMessage Unit := ⟨some "order-1", ()⟩

/-- `start_processing`, undisturbed. -/
def start (i : ℕ) : List (Act Unit) := [.isProcessing i order, .makeRecord i, .storeRecord i]

/-- `complete_processing`, undisturbed. -/
def complete (i id : ℕ) (result : ProcessingResult) : List (Act Unit) :=
  [.getRecord i id result, .updateRecord i, .markCompleted i]

/-- A failed processing is tried again, and a cleanup runs meanwhile. -/
def retried : List (Act Unit) :=
  start 0 ++ complete 1 0 .failed ++ [.wait 1, .cleanupExpired 2] ++ start 3 ++
    [.cleanupOldRecords 2]

end Backbone.Queue.ExactlyOnce
