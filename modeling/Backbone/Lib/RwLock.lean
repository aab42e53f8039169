import Mathlib.Data.Set.Basic
import Backbone.Lib.Run

/-!
# Calls over fair read-write locks

A fair read-write lock grants its requests in their order: a writer waits for every holder, and whoever
comes behind a waiting request waits too. A call runs through program points; at each point it asks for
a lock, drops a guard, accesses the shared data, or stops. The guards a call holds at a point are part
of the program, and `WellLocked` checks them against its instructions.

A set of calls is deadlocked when each of them waits for a lock that one of them holds. When the locks
can be ranked so that every waiting call holds only locks below the one it waits for, there is no such
set.
-/

namespace Backbone.RwLock

open Machine

inductive Mode where
  | read
  | write
deriving DecidableEq, Repr

/-- The calls that hold a guard, and those that wait, the first one in front. -/
structure Lock where
  holders : List (ℕ × Mode)
  queue : List (ℕ × Mode)
deriving DecidableEq, Repr

/-- A guard of the mode can be given beside the holders. -/
def admits : Mode → List (ℕ × Mode) → Bool
  | .write, holders => holders.isEmpty
  | .read, holders => holders.all fun e => e.2 == .read

/-- Requests are granted from the front, up to one that has to wait. -/
def promote : List (ℕ × Mode) → List (ℕ × Mode) → Lock
  | holders, [] => ⟨holders, []⟩
  | holders, e :: queue =>
    if admits e.2 holders then promote (holders ++ [e]) queue else ⟨holders, e :: queue⟩

namespace Lock

def free : Lock := ⟨[], []⟩

/-- The call asks for a guard. -/
def request (l : Lock) (i : ℕ) (m : Mode) : Lock :=
  if l.queue.isEmpty && admits m l.holders then { l with holders := l.holders ++ [(i, m)] }
  else { l with queue := l.queue ++ [(i, m)] }

/-- The call drops a guard. -/
def release (l : Lock) (i : ℕ) : Lock := promote (l.holders.eraseP fun e => e.1 == i) l.queue

/-- How often the call is on the lock, as a holder or in the queue. -/
def total (l : Lock) (i : ℕ) : ℕ :=
  l.holders.countP (fun e => e.1 == i) + l.queue.countP fun e => e.1 == i

end Lock

theorem promote_eq (holders queue : List (ℕ × Mode)) :
    ∃ n, promote holders queue = ⟨holders ++ queue.take n, queue.drop n⟩ := by
  induction queue generalizing holders with
  | nil => exact ⟨0, by simp [promote]⟩
  | cons e queue ih =>
    unfold promote
    split
    · obtain ⟨n, hn⟩ := ih (holders ++ [e])
      exact ⟨n + 1, by simp [hn]⟩
    · exact ⟨0, by simp⟩

namespace Lock

theorem total_request (l : Lock) (i j : ℕ) (m : Mode) :
    (l.request i m).total j = l.total j + if j = i then 1 else 0 := by
  have hone : [((i, m) : ℕ × Mode)].countP (fun e => e.1 == j) = if j = i then 1 else 0 := by
    by_cases h : j = i
    · simp [h]
    · simp [h, Ne.symm h]
  unfold request total
  split
  · dsimp only
    rw [List.countP_append, hone]
    omega
  · dsimp only
    rw [List.countP_append, hone]
    omega

theorem countP_eraseP (holders : List (ℕ × Mode)) (i j : ℕ) :
    (holders.eraseP fun e => e.1 == i).countP (fun e => e.1 == j) =
      holders.countP (fun e => e.1 == j) - if j = i then 1 else 0 := by
  induction holders with
  | nil => simp
  | cons e holders ih =>
    by_cases he : e.1 = i
    · by_cases hj : j = i
      · simp [he, hj]
      · simp [he, hj, Ne.symm hj]
    · rw [List.eraseP_cons_of_neg (by simpa using he), List.countP_cons, List.countP_cons, ih]
      by_cases hj : j = i
      · subst hj
        simp [he]
      · simp [hj]

/-- A release takes the call off the lock once; whom it grants the lock stays on it. -/
theorem total_release (l : Lock) (i j : ℕ) (h : j = i → l.queue.countP (fun e => e.1 == i) = 0) :
    (l.release i).total j = l.total j - if j = i then 1 else 0 := by
  obtain ⟨n, hn⟩ := promote_eq (l.holders.eraseP fun e => e.1 == i) l.queue
  have hqueue := congrArg (List.countP fun e => e.1 == j) (List.take_append_drop n l.queue)
  rw [List.countP_append] at hqueue
  rw [release, hn, total, total]
  dsimp only
  rw [List.countP_append, countP_eraseP]
  by_cases hj : j = i
  · have := h hj
    subst hj
    simp only [if_true]
    omega
  · simp only [if_neg hj]
    omega

theorem queue_request (l : Lock) (i : ℕ) (m : Mode) {e : ℕ × Mode}
    (he : e ∈ (l.request i m).queue) : e ∈ l.queue ∨ e = (i, m) := by
  unfold request at he
  split at he
  · exact .inl he
  · simpa using he

theorem queue_release (l : Lock) (i : ℕ) {e : ℕ × Mode} (he : e ∈ (l.release i).queue) :
    e ∈ l.queue := by
  obtain ⟨n, hn⟩ := promote_eq (l.holders.eraseP fun e => e.1 == i) l.queue
  rw [release, hn] at he
  exact List.mem_of_mem_drop he

end Lock

/-! ## Programs and worlds -/

variable {κ σ τ : Type}

/-- What a call does at a program point. -/
inductive Instr (κ σ τ : Type) where
  | acquire (k : κ) (m : Mode) (next : τ)
  | release (k : κ) (next : τ)
  | access (f : σ → σ × τ)
  | stop

/-- The point behind the instruction. -/
def Instr.next (s : σ) : Instr κ σ τ → Option τ
  | .acquire _ _ next | .release _ next => some next
  | .access f => some (f s).2
  | .stop => none

/-- The instruction asks for the lock and leads to one of the points. -/
def Instr.AsksFor (k : κ) (asks : τ → Prop) : Instr κ σ τ → Prop
  | .acquire k' _ next => k' = k ∧ asks next
  | _ => False

instance Instr.decidableAsksFor [DecidableEq κ] (k : κ) (asks : τ → Prop) [DecidablePred asks] :
    ∀ ins : Instr κ σ τ, Decidable (ins.AsksFor k asks)
  | .acquire _ _ _ => inferInstanceAs (Decidable (_ ∧ _))
  | .release _ _ | .access _ | .stop => isFalse not_false

/-- The instruction keeps the account of the guards held at the point `t`. -/
def Instr.WellLocked (holds : τ → List κ) (t : τ) : Instr κ σ τ → Prop
  | .acquire k _ next => holds next = k :: holds t
  | .release k next => holds t = k :: holds next
  | .access f => ∀ s, holds (f s).2 = holds t
  | .stop => holds t = []

/-- Program points with their instructions, and the guards held at each, the last one taken in front. -/
structure Program (κ σ τ : Type) where
  instr : τ → Instr κ σ τ
  holds : τ → List κ
  /-- A call may start here. -/
  entry : τ → Prop
  wellLocked : ∀ t, (instr t).WellLocked holds t

/-- The data, the locks, and how far each call is. A call that has asked for a lock is at the next point
already. -/
structure World (κ σ τ : Type) where
  data : σ
  locks : κ → Lock
  points : ℕ → Option τ

def World.new (s : σ) : World κ σ τ := ⟨s, fun _ => .free, fun _ => none⟩

inductive Act (τ : Type) where
  | spawn (i : ℕ) (t : τ)
  | run (i : ℕ)

namespace World

variable {i : ℕ} {w : World κ σ τ} {P : Program κ σ τ}

/-- The call waits for the lock. -/
def Waits (w : World κ σ τ) (i : ℕ) (k : κ) : Prop := ∃ m, (i, m) ∈ (w.locks k).queue

/-- The call holds a guard of the lock. -/
def Holds (w : World κ σ τ) (i : ℕ) (k : κ) : Prop := ∃ m, (i, m) ∈ (w.locks k).holders

/-- Each call of the set waits for a lock that a call of the set holds. -/
def Deadlocked (w : World κ σ τ) (d : Set ℕ) : Prop :=
  ∀ i ∈ d, ∃ k, w.Waits i k ∧ ∃ j ∈ d, w.Holds j k

/-- The call at the point waits for the lock it asked for last. -/
def blocked (P : Program κ σ τ) (w : World κ σ τ) (i : ℕ) (t : τ) : Bool :=
  match P.holds t with
  | [] => false
  | k :: _ => (w.locks k).queue.any fun e => e.1 == i

def setPoint (w : World κ σ τ) (i : ℕ) (t : τ) : World κ σ τ :=
  { w with points := Function.update w.points i (some t) }

@[simp] theorem locks_setPoint (w : World κ σ τ) (i : ℕ) (t : τ) :
    (w.setPoint i t).locks = w.locks := rfl

theorem points_setPoint (w : World κ σ τ) (i j : ℕ) (t : τ) :
    (w.setPoint i t).points j = if j = i then some t else w.points j := by
  by_cases h : j = i
  · subst h
    simp [setPoint]
  · simp [setPoint, h]

theorem blocked_iff {t : τ} :
    w.blocked P i t = true ↔ ∃ k rest, P.holds t = k :: rest ∧ w.Waits i k := by
  unfold blocked Waits
  cases h : P.holds t with
  | nil => simp
  | cons k rest => simp

theorem holders_pos {k : κ} (h : w.Holds i k) :
    0 < (w.locks k).holders.countP fun e => e.1 == i := by
  obtain ⟨m, hm⟩ := h
  exact List.countP_pos_iff.mpr ⟨_, hm, by simp⟩

theorem queue_pos {k : κ} (h : w.Waits i k) : 0 < (w.locks k).queue.countP fun e => e.1 == i := by
  obtain ⟨m, hm⟩ := h
  exact List.countP_pos_iff.mpr ⟨_, hm, by simp⟩

/-- The guards of the point the call is at, the one it may be waiting for included. -/
def held (P : Program κ σ τ) (w : World κ σ τ) (i : ℕ) : List κ :=
  match w.points i with
  | none => []
  | some t => P.holds t

theorem held_eq {t : τ} (hi : w.points i = some t) : w.held P i = P.holds t := by
  rw [held, hi]

variable [DecidableEq κ]

def setLock (w : World κ σ τ) (k : κ) (l : Lock) : World κ σ τ :=
  { w with locks := Function.update w.locks k l }

/-- What a call that does not wait does next. -/
def exec (w : World κ σ τ) (i : ℕ) : Instr κ σ τ → World κ σ τ
  | .acquire k m next => (w.setLock k ((w.locks k).request i m)).setPoint i next
  | .release k next => (w.setLock k ((w.locks k).release i)).setPoint i next
  | .access f => { w with data := (f w.data).1 }.setPoint i (f w.data).2
  | .stop => w

/-- A call starts, or goes on. What cannot happen leaves the world as it is. -/
def step (P : Program κ σ τ) [DecidablePred P.entry] (w : World κ σ τ) : Act τ → World κ σ τ
  | .spawn i t =>
    match w.points i with
    | none => if P.entry t then w.setPoint i t else w
    | some _ => w
  | .run i =>
    match w.points i with
    | none => w
    | some t => if w.blocked P i t then w else w.exec i (P.instr t)

@[simp] theorem points_setLock (w : World κ σ τ) (k : κ) (l : Lock) :
    (w.setLock k l).points = w.points := rfl

theorem locks_setLock (w : World κ σ τ) (k k' : κ) (l : Lock) :
    (w.setLock k l).locks k' = if k' = k then l else w.locks k' := by
  by_cases h : k' = k
  · subst h
    simp [setLock]
  · simp [setLock, h]

/-- Only the call that goes on leaves its point. -/
theorem points_exec (w : World κ σ τ) (i j : ℕ) (ins : Instr κ σ τ) :
    (w.exec i ins).points j = if j = i then (ins.next w.data).or (w.points i) else w.points j := by
  by_cases h : j = i
  · subst h
    cases ins <;> simp [World.exec, points_setPoint, Instr.next]
  · cases ins <;> simp [World.exec, points_setPoint, h]

/-! ## What a call holds -/

/-- The locks agree with the points of the calls. -/
structure Consistent (P : Program κ σ τ) (w : World κ σ τ) : Prop where
  total : ∀ i k, (w.locks k).total i ≤ (w.held P i).count k
  /-- A waiting call waits for the lock it asked for last. -/
  queued : ∀ k, ∀ e ∈ (w.locks k).queue, ∃ t rest, w.points e.1 = some t ∧ P.holds t = k :: rest

section Consistent

variable {P : Program κ σ τ} {w : World κ σ τ} {k : κ} {t : τ}

theorem consistent_new (s : σ) : Consistent P (World.new s : World κ σ τ) where
  total i k := Nat.zero_le _
  queued k e he := by cases he

theorem Consistent.waits (hc : Consistent P w) (h : w.Waits i k) :
    ∃ t rest, w.points i = some t ∧ P.holds t = k :: rest := by
  obtain ⟨m, hm⟩ := h
  exact hc.queued k _ hm

/-- A call that is not blocked waits for nothing. -/
theorem Consistent.not_waits (hc : Consistent P w) (hi : w.points i = some t)
    (hblocked : w.blocked P i t = false) (k : κ) : ¬ w.Waits i k := by
  intro hwaits
  obtain ⟨t', rest, ht', hholds⟩ := hc.waits hwaits
  rw [hi] at ht'
  cases ht'
  have := blocked_iff.mpr ⟨k, rest, hholds, hwaits⟩
  simp [hblocked] at this

/-- A call holds a lock only at points that say so. -/
theorem Consistent.holds (hc : Consistent P w) (h : w.Holds i k) :
    ∃ t, w.points i = some t ∧ k ∈ P.holds t := by
  have htotal := hc.total i k
  have hpos := holders_pos h
  have hmem : k ∈ w.held P i := List.count_pos_iff.mp (by rw [Lock.total] at htotal; omega)
  unfold held at hmem
  split at hmem
  · cases hmem
  · rename_i t ht
    exact ⟨t, ht, hmem⟩

/-- A waiting call holds what it took before it asked. -/
theorem Consistent.holds_waits (hc : Consistent P w) {k' : κ} (h : w.Holds i k)
    (hwaits : w.Waits i k') :
    ∃ t rest, w.points i = some t ∧ P.holds t = k' :: rest ∧ k ∈ rest := by
  obtain ⟨t, rest, ht, hholds⟩ := hc.waits hwaits
  refine ⟨t, rest, ht, hholds, List.count_pos_iff.mp ?_⟩
  have htotal := hc.total i k
  rw [held_eq ht, hholds, Lock.total] at htotal
  have hpos := holders_pos h
  by_cases hk : k = k'
  · subst hk
    have hqueue := queue_pos hwaits
    rw [List.count_cons_self] at htotal
    omega
  · rw [List.count_cons_of_ne (Ne.symm hk)] at htotal
    omega

/-! ## What keeps the account -/

theorem Consistent.spawn (hc : Consistent P w) (hi : w.points i = none) :
    Consistent P (w.setPoint i t) where
  total j k := by
    have htotal := hc.total j k
    by_cases hji : j = i
    · subst hji
      rw [held, hi] at htotal
      exact htotal.trans (Nat.zero_le _)
    · rw [held, points_setPoint, if_neg hji]
      exact htotal
  queued k e he := by
    obtain ⟨t', rest, ht', hholds⟩ := hc.queued k e he
    refine ⟨t', rest, ?_, hholds⟩
    rw [points_setPoint, if_neg]
    · exact ht'
    · rintro heq
      rw [heq, hi] at ht'
      cases ht'

/-- A call goes on. The locks count the guards of its new point, and nobody else comes on or off. -/
theorem Consistent.moved {w' : World κ σ τ} (hc : Consistent P w) (next : τ)
    (hpoints : ∀ j, w'.points j = if j = i then some next else w.points j)
    (hothers : ∀ j k, j ≠ i → (w'.locks k).total j = (w.locks k).total j)
    (hself : ∀ k, (w'.locks k).total i ≤ (P.holds next).count k)
    (hqueue : ∀ k, ∀ e ∈ (w'.locks k).queue,
      e ∈ (w.locks k).queue ∧ e.1 ≠ i ∨ e.1 = i ∧ ∃ rest, P.holds next = k :: rest) :
    Consistent P w' where
  total j k := by
    by_cases hji : j = i
    · rw [hji, held_eq ((hpoints i).trans (if_pos rfl))]
      exact hself k
    · rw [hothers j k hji, held, hpoints, if_neg hji]
      exact hc.total j k
  queued k e he := by
    rcases hqueue k e he with ⟨hold, hne⟩ | ⟨heq, rest, hholds⟩
    · rw [hpoints, if_neg hne]
      exact hc.queued k e hold
    · rw [hpoints, if_pos heq]
      exact ⟨next, rest, rfl, hholds⟩

section Exec

variable {i : ℕ} {t next : τ} {k : κ}

theorem points_move (w : World κ σ τ) (i j : ℕ) (l : Lock) :
    ((w.setLock k l).setPoint i next).points j = if j = i then some next else w.points j := by
  rw [points_setPoint, points_setLock]

theorem locks_move (w : World κ σ τ) (i : ℕ) (l : Lock) (k' : κ) :
    ((w.setLock k l).setPoint i next).locks k' = if k' = k then l else w.locks k' := by
  rw [locks_setPoint, locks_setLock]

variable (hc : Consistent P w) (hi : w.points i = some t)
  (hother : ∀ k, ∀ e ∈ (w.locks k).queue, e.1 ≠ i)
include hc hi hother

theorem Consistent.acquire {m : Mode} (hwell : P.holds next = k :: P.holds t) :
    Consistent P ((w.setLock k ((w.locks k).request i m)).setPoint i next) := by
  refine hc.moved next (fun j => points_move ..) (fun j k' hji => ?_) (fun k' => ?_)
    fun k' e he => ?_
  · rw [locks_move]
    split
    · rename_i hk
      rw [hk, Lock.total_request, if_neg hji, Nat.add_zero]
    · rfl
  · have htotal := hc.total i k'
    rw [held_eq hi] at htotal
    rw [locks_move, hwell]
    split
    · rename_i hk
      rw [← hk, Lock.total_request, if_pos rfl, List.count_cons_self]
      exact Nat.succ_le_succ htotal
    · exact htotal.trans List.count_le_count_cons
  · rw [locks_move] at he
    split at he
    · rename_i hk
      rcases Lock.queue_request _ _ _ he with he | he
      · exact .inl ⟨hk ▸ he, hother k e he⟩
      · rw [he]
        exact .inr ⟨rfl, _, hk ▸ hwell⟩
    · exact .inl ⟨he, hother k' e he⟩

theorem Consistent.release (hwell : P.holds t = k :: P.holds next) :
    Consistent P ((w.setLock k ((w.locks k).release i)).setPoint i next) := by
  have hnone : (w.locks k).queue.countP (fun e => e.1 == i) = 0 :=
    List.countP_eq_zero.mpr fun e he => by simpa using hother k e he
  refine hc.moved next (fun j => points_move ..) (fun j k' hji => ?_) (fun k' => ?_)
    fun k' e he => ?_
  · rw [locks_move]
    split
    · rename_i hk
      rw [hk, Lock.total_release _ _ _ fun _ => hnone, if_neg hji, Nat.sub_zero]
    · rfl
  · have htotal := hc.total i k'
    rw [held_eq hi, hwell] at htotal
    rw [locks_move]
    split
    · rename_i hk
      rw [hk, List.count_cons_self] at htotal
      rw [hk, Lock.total_release _ _ _ fun _ => hnone, if_pos rfl]
      omega
    · rename_i hk
      rwa [List.count_cons_of_ne (Ne.symm hk)] at htotal
  · rw [locks_move] at he
    split at he
    · rename_i hk
      have hold := Lock.queue_release _ _ he
      exact .inl ⟨hk ▸ hold, hother k e hold⟩
    · exact .inl ⟨he, hother k' e he⟩

theorem Consistent.access {f : σ → σ × τ} (hwell : P.holds (f w.data).2 = P.holds t) :
    Consistent P ({ w with data := (f w.data).1 }.setPoint i (f w.data).2) := by
  refine hc.moved (f w.data).2 (fun j => points_setPoint ..) (fun j k' _ => rfl)
    (fun k' => ?_) fun k' e he => .inl ⟨he, hother k' e he⟩
  have htotal := hc.total i k'
  rw [held_eq hi] at htotal
  rw [hwell]
  exact htotal

end Exec

theorem Consistent.exec (hc : Consistent P w) (hi : w.points i = some t)
    (hblocked : w.blocked P i t = false) : Consistent P (w.exec i (P.instr t)) := by
  have hwell := P.wellLocked t
  -- Who goes on waits in no queue.
  have hother : ∀ k, ∀ e ∈ (w.locks k).queue, e.1 ≠ i := by
    rintro k e he rfl
    exact hc.not_waits hi hblocked k ⟨e.2, he⟩
  cases hinstr : P.instr t with
  | acquire k m next =>
    rw [hinstr] at hwell
    exact hc.acquire hi hother hwell
  | release k next =>
    rw [hinstr] at hwell
    exact hc.release hi hother hwell
  | access f =>
    rw [hinstr] at hwell
    exact hc.access hi hother (hwell w.data)
  | stop => exact hc

theorem Consistent.step [DecidablePred P.entry] (hc : Consistent P w) (a : Act τ) :
    Consistent P (w.step P a) := by
  cases a with
  | spawn i t =>
    simp only [World.step]
    split
    · rename_i hi
      split
      · exact hc.spawn hi
      · exact hc
    · exact hc
  | run i =>
    simp only [World.step]
    split
    · exact hc
    · rename_i t hi
      split
      · exact hc
      · rename_i hblocked
        exact hc.exec hi (Bool.eq_false_iff.mpr hblocked)

end Consistent

/-! ## Who is ahead -/

section Ahead

variable {P : Program κ σ τ} {w : World κ σ τ} {k : κ} {asks bad : τ → Prop}

/-- The calls on the lock, holders or waiting, are not at bad points. -/
def ClearOf (bad : τ → Prop) (w : World κ σ τ) (on : List (ℕ × Mode)) : Prop :=
  ∀ e ∈ on, ∀ t ∈ w.points e.1, ¬ bad t

instance [DecidablePred bad] {on : List (ℕ × Mode)} : Decidable (ClearOf bad w on) :=
  inferInstanceAs (Decidable (∀ e ∈ on, ∀ t ∈ w.points e.1, ¬ bad t))

/-- No call at a bad point holds the lock, or is ahead in its queue, while a call waits that has asked
for it. -/
def AheadClear (k : κ) (asks bad : τ → Prop) (w : World κ σ τ) : Prop :=
  ∀ l₁ e l₂, (w.locks k).queue = l₁ ++ e :: l₂ → (∃ t, w.points e.1 = some t ∧ asks t) →
    ClearOf bad w ((w.locks k).holders ++ l₁)

/-- A call asks for the lock only when no call on it is at a bad point. -/
def AsksClear (P : Program κ σ τ) (k : κ) (asks bad : τ → Prop) (w : World κ σ τ) : Act τ → Prop
  | .spawn _ _ => True
  | .run i =>
    ∀ t ∈ w.points i, (P.instr t).AsksFor k asks →
      ClearOf bad w ((w.locks k).holders ++ (w.locks k).queue)

instance [DecidablePred asks] [DecidablePred bad] {i : ℕ} :
    Decidable (AsksClear P k asks bad w (.run i)) :=
  inferInstanceAs (Decidable (∀ t ∈ w.points i, _ → _))

/-- The calls on a part of a lock stay at points that are not bad when one of its holders goes on. -/
theorem ClearOf.exec (hc : Consistent P w) {t : τ} (hi : w.points i = some t)
    (hblocked : w.blocked P i t = false)
    (hbad : ∀ s next, ¬ bad t → k ∈ P.holds t → (P.instr t).next s = some next → ¬ bad next)
    {on : List (ℕ × Mode)} (hon : ∀ e ∈ on, e ∈ (w.locks k).holders ++ (w.locks k).queue)
    (hclear : ClearOf bad w on) : ClearOf bad (w.exec i (P.instr t)) on := by
  intro e he t' ht'
  by_cases hei : e.1 = i
  · -- The call itself holds the lock, since it waits for nothing.
    have hholds : w.Holds i k := by
      rcases List.mem_append.mp (hon e he) with hmem | hmem
      · exact ⟨e.2, hei ▸ hmem⟩
      · exact absurd ⟨e.2, hei ▸ hmem⟩ (hc.not_waits hi hblocked k)
    obtain ⟨t₀, ht₀, hk⟩ := hc.holds hholds
    rw [hi] at ht₀
    cases ht₀
    have hnot := hclear e he t (hei ▸ hi)
    rw [hei, points_exec, if_pos rfl] at ht'
    cases hnext : (P.instr t).next w.data with
    | none =>
      rw [hnext, Option.none_or, hi] at ht'
      cases ht'
      exact hnot
    | some next =>
      rw [hnext, Option.some_or] at ht'
      cases ht'
      exact hbad w.data _ hnot hk hnext
  · rw [points_exec, if_neg hei] at ht'
    exact hclear e he t' ht'

theorem AheadClear.exec (h : AheadClear k asks bad w) (hc : Consistent P w) {t : τ}
    (hi : w.points i = some t) (hblocked : w.blocked P i t = false)
    (hbad : ∀ s next, ¬ bad t → k ∈ P.holds t → (P.instr t).next s = some next → ¬ bad next)
    (hasks : AsksClear P k asks bad w (.run i)) : AheadClear k asks bad (w.exec i (P.instr t)) := by
  have hnot := hc.not_waits hi hblocked
  -- A call that was in the queue before is where it was.
  have hpoints {e : ℕ × Mode} (he : e ∈ (w.locks k).queue) :
      (w.exec i (P.instr t)).points e.1 = w.points e.1 := by
    have hne : e.1 ≠ i := by
      rintro rfl
      exact hnot k ⟨e.2, he⟩
    rw [points_exec, if_neg hne]
  -- The calls ahead in a queue that was there before.
  have hbefore {l₁ l₂ : List (ℕ × Mode)} {e : ℕ × Mode} {on : List (ℕ × Mode)}
      (hqueue : (w.locks k).queue = l₁ ++ e :: l₂)
      (ht : ∃ t', (w.exec i (P.instr t)).points e.1 = some t' ∧ asks t')
      (hon : ∀ e ∈ on, e ∈ (w.locks k).holders ++ l₁) :
      ClearOf bad (w.exec i (P.instr t)) on := by
    have hmem : e ∈ (w.locks k).queue := by simp [hqueue]
    rw [hpoints hmem] at ht
    have hclear := h l₁ e l₂ hqueue ht
    refine ClearOf.exec hc hi hblocked hbad (fun e' he' => ?_) fun e' he' => hclear e' (hon e' he')
    rw [hqueue]
    rcases List.mem_append.mp (hon e' he') with hmem | hmem
    · exact List.mem_append_left _ hmem
    · exact List.mem_append_right _ (List.mem_append_left _ hmem)
  intro l₁ e l₂ hqueue ht
  cases hinstr : P.instr t with
  | acquire k' m next =>
    have hlocks : (w.exec i (P.instr t)).locks k =
        if k = k' then (w.locks k').request i m else w.locks k := by
      simp [hinstr, World.exec, locks_setLock]
    rw [← hinstr]
    by_cases hk : k = k'
    · subst hk
      rw [if_pos rfl] at hlocks
      rw [hlocks] at hqueue ⊢
      unfold Lock.request at hqueue ⊢
      split at hqueue
      · -- Nobody was waiting, and nobody is.
        rename_i hfree
        have hempty : (w.locks k).queue = [] := by
          simpa using (Bool.and_eq_true_iff.mp hfree).1
        simp [hempty] at hqueue
      · rename_i hwait
        rw [if_neg hwait]
        rcases List.eq_nil_or_concat l₂ with rfl | ⟨l₂', e', rfl⟩
        · -- It is the call itself that waits.
          obtain ⟨rfl, hlast⟩ := List.append_inj' hqueue rfl
          cases hlast
          obtain ⟨t', ht', hasked⟩ := ht
          obtain rfl : next = t' := by simpa [hinstr, World.exec, points_setPoint] using ht'
          exact ClearOf.exec hc hi hblocked hbad (fun e he => he) (hasks t hi (by
            rw [hinstr]
            exact ⟨rfl, hasked⟩))
        · have hsplit : (w.locks k).queue ++ [(i, m)] = (l₁ ++ e :: l₂') ++ [e'] := by
            simpa using hqueue
          exact hbefore (List.append_inj' hsplit rfl).1 ht fun e he => he
    · rw [if_neg hk] at hlocks
      rw [hlocks] at hqueue ⊢
      exact hbefore hqueue ht fun e he => he
  | release k' next =>
    have hlocks : (w.exec i (P.instr t)).locks k =
        if k = k' then (w.locks k').release i else w.locks k := by
      simp [hinstr, World.exec, locks_setLock]
    rw [← hinstr]
    by_cases hk : k = k'
    · subst hk
      rw [if_pos rfl] at hlocks
      obtain ⟨n, hn⟩ := promote_eq ((w.locks k).holders.eraseP fun e => e.1 == i) (w.locks k).queue
      rw [hlocks, Lock.release, hn] at hqueue ⊢
      have hsplit : (w.locks k).queue = ((w.locks k).queue.take n ++ l₁) ++ e :: l₂ := by
        rw [List.append_assoc, ← hqueue, List.take_append_drop]
      refine hbefore hsplit ht fun e' he' => ?_
      rw [List.append_assoc] at he'
      rcases List.mem_append.mp he' with hmem | hmem
      · exact List.mem_append_left _ (List.mem_of_mem_eraseP hmem)
      · exact List.mem_append_right _ hmem
    · rw [if_neg hk] at hlocks
      rw [hlocks] at hqueue ⊢
      exact hbefore hqueue ht fun e he => he
  | access | stop =>
    rw [← hinstr]
    have hlocks : (w.exec i (P.instr t)).locks k = w.locks k := by
      simp [hinstr, World.exec]
    rw [hlocks] at hqueue ⊢
    exact hbefore hqueue ht fun e he => he

omit [DecidableEq κ] in
theorem aheadClear_new (s : σ) : AheadClear k asks bad (World.new s : World κ σ τ) := by
  intro l₁ e l₂ hqueue
  cases l₁ <;> cases hqueue

/-- The step rule: a holder of the lock never gets to a bad point, and the call that asks finds no call
at a bad point on the lock. -/
theorem AheadClear.step [DecidablePred P.entry] (h : AheadClear k asks bad w)
    (hc : Consistent P w)
    (hbad : ∀ t s next, ¬ bad t → k ∈ P.holds t → (P.instr t).next s = some next → ¬ bad next)
    {a : Act τ} (hasks : AsksClear P k asks bad w a) : AheadClear k asks bad (w.step P a) := by
  cases a with
  | spawn i t =>
    simp only [World.step]
    split
    · rename_i hi
      split
      · -- A call without a point is not on the lock.
        have hpoints {e : ℕ × Mode} (he : e ∈ (w.locks k).holders ++ (w.locks k).queue) :
            (w.setPoint i t).points e.1 = w.points e.1 := by
          have hne : e.1 ≠ i := by
            rintro rfl
            rcases List.mem_append.mp he with hmem | hmem
            · obtain ⟨t', ht', -⟩ := hc.holds ⟨e.2, hmem⟩
              simp [hi] at ht'
            · obtain ⟨t', rest, ht', -⟩ := hc.queued k e hmem
              simp [hi] at ht'
          simp [points_setPoint, hne]
        intro l₁ e l₂ hqueue ht e' he' t' ht'
        rw [locks_setPoint] at hqueue he'
        rw [hpoints (List.mem_append_right _ (by simp [hqueue]))] at ht
        have hmem : e' ∈ (w.locks k).holders ++ (w.locks k).queue := by
          rw [hqueue]
          rcases List.mem_append.mp he' with hmem | hmem
          · exact List.mem_append_left _ hmem
          · exact List.mem_append_right _ (List.mem_append_left _ hmem)
        rw [hpoints hmem] at ht'
        exact h l₁ e l₂ hqueue ht e' he' t' ht'
      · exact h
    · exact h
  | run i =>
    simp only [World.step]
    split
    · exact h
    · rename_i t hi
      split
      · exact h
      · rename_i hblocked
        exact h.exec hc hi (Bool.eq_false_iff.mpr hblocked) (hbad t) hasks

end Ahead

end World

/-! ## Ranks -/

/-- In a deadlocked set a call that waits for a lock of some rank depends on one that waits for a lock
of a higher rank. -/
theorem not_deadlocked_of_rank {w : World κ σ τ} (rank : κ → ℕ) (bound : ℕ)
    (hbound : ∀ k, rank k ≤ bound)
    (hrank : ∀ i k k', w.Holds i k → w.Waits i k' → rank k < rank k') {d : Set ℕ}
    (hd : d.Nonempty) : ¬ w.Deadlocked d := by
  intro hdeadlocked
  have hnone : ∀ n i k, i ∈ d → w.Waits i k → (∃ j ∈ d, w.Holds j k) →
      bound < rank k + n → False := by
    intro n
    induction n with
    | zero =>
      intro i k hi hwaits _ hlt
      exact absurd (hbound k) (Nat.not_le_of_lt hlt)
    | succ n ih =>
      rintro i k hi hwaits ⟨j, hj, hholds⟩ hlt
      obtain ⟨k', hwaits', hheld'⟩ := hdeadlocked j hj
      have hless := hrank j k k' hholds hwaits'
      exact ih j k' hj hwaits' hheld' (by omega)
  obtain ⟨i, hi⟩ := hd
  obtain ⟨k, hwaits, hheld⟩ := hdeadlocked i hi
  exact hnone (bound + 1) i k hi hwaits hheld (by omega)

end Backbone.RwLock
