import Mathlib.Data.List.Nodup
import Backbone.Lib.Changes
import Backbone.Lib.Run

/-!
# The configuration bus

`set` and `delete` change the store under its write lock and send the event after they have released
it; `set_many` sends the event of each key while it holds the lock. Between the two steps of one
call others can change the store and send. A subscriber who applies the events in their order ends
with the store's contents if no event is sent before an earlier one of its key.

The bus does not look into its keys and values, and nothing reads the time of an event.

Reference: `backbone-core/src/config/bus.rs`.
-/

namespace Backbone.Core.ConfigBus

open Change

variable {κ ν : Type} [DecidableEq κ]

/-- `ConfigChangeEvent`. -/
abbrev ConfigChangeEvent (κ ν : Type) := Change κ ν

inductive Call (κ ν : Type) where
  | set (key : κ) (value : ν)
  | setMany (values : List (κ × ν))
  | delete (key : κ)

/-- What a call does next. -/
inductive Point (κ ν : Type) where
  /-- It waits for the write lock. -/
  | starting (call : Call κ ν)
  /-- It holds the lock, with these values left. -/
  | inserting (values : List (κ × ν))
  /-- It has changed the store; `set_many` goes on with these values. -/
  | sending (rest : Option (List (κ × ν)))

structure World (κ ν : Type) where
  store : κ → Option ν
  /-- `set_many` holds the write lock. -/
  locked : Bool
  /-- The events that their calls have not sent yet, in the order of the changes. -/
  unsent : List (ℕ × ConfigChangeEvent κ ν)
  sent : List (ConfigChangeEvent κ ν)
  calls : ℕ → Option (Point κ ν)

namespace World

def new : World κ ν := ⟨fun _ => none, false, [], [], fun _ => none⟩

def goto (w : World κ ν) (i : ℕ) (p : Option (Point κ ν)) : World κ ν :=
  { w with calls := Function.update w.calls i p }

/-- The store is changed under a key, and the call has the event to send. -/
def change (w : World κ ν) (i : ℕ) (key : κ) (value : Option ν) : World κ ν :=
  { w with
    store := Function.update w.store key value
    unsent := w.unsent ++ [(i, ⟨key, w.store key, value⟩)] }

/-- The call sends the event it has. -/
def send (w : World κ ν) (i : ℕ) : World κ ν :=
  { w with
    sent := w.sent ++ ((w.unsent.find? fun p => p.1 = i).map Prod.snd).toList
    unsent := w.unsent.eraseP fun p => p.1 = i }

/-- The lock section of a call, once the lock is free. -/
def start (w : World κ ν) (i : ℕ) : Call κ ν → World κ ν
  | .set key value => (w.change i key (some value)).goto i (some (.sending none))
  | .setMany values => { w with locked := true }.goto i (some (.inserting values))
  | .delete key =>
    if (w.store key).isSome then (w.change i key none).goto i (some (.sending none))
    else w.goto i none

end World

/-- A call begins, or goes on. -/
inductive Act (κ ν : Type) where
  | call (i : ℕ) (call : Call κ ν)
  | go (i : ℕ)

namespace World

/-- The next step of a call that is at the point. -/
def goAt (w : World κ ν) (i : ℕ) : Point κ ν → World κ ν
  | .starting call => if w.locked then w else w.start i call
  | .inserting [] => { w with locked := false }.goto i none
  | .inserting ((key, value) :: rest) =>
    (w.change i key (some value)).goto i (some (.sending (some rest)))
  | .sending none => (w.send i).goto i none
  | .sending (some rest) => (w.send i).goto i (some (.inserting rest))

def step (w : World κ ν) : Act κ ν → World κ ν
  | .call i call => if (w.calls i).isNone then w.goto i (some (.starting call)) else w
  | .go i =>
    match w.calls i with
    | some p => w.goAt i p
    | none => w

end World

/-! ## What is asked of the events -/

/-- When all calls have returned, a subscriber who has applied the events holds the store's contents,
and each event of a key has the old value that the one before it left. -/
def Arrived (w : World κ ν) : Prop :=
  (∀ i, w.calls i = none) → replay w.sent = w.store ∧ Chained w.sent

/-- No unsent event of the same key is older than the one that the step sends. -/
def inOrder (w : World κ ν) : Act κ ν → Bool
  | .call _ _ => true
  | .go i =>
    match w.calls i, w.unsent.find? fun p => p.1 = i with
    | some (.sending _), some (_, event) =>
      (w.unsent.takeWhile fun p => p.1 ≠ i).all fun p => p.2.key ≠ event.key
    | _, _ => true

/-! ## The unsent events -/

/-- The changes made so far, sent or not. -/
def World.changes (w : World κ ν) : List (ConfigChangeEvent κ ν) := w.sent ++ w.unsent.map Prod.snd

structure Inv (w : World κ ν) : Prop where
  chained : Chained w.changes
  store : replay w.changes = w.store
  /-- A call has an event exactly while it is sending. -/
  sending : ∀ i, (∃ p ∈ w.unsent, p.1 = i) ↔ ∃ rest, w.calls i = some (.sending rest)
  nodup : (w.unsent.map Prod.fst).Nodup

variable {w : World κ ν} {i : ℕ}

theorem inv_new : Inv (World.new : World κ ν) where
  chained _ := List.isChain_nil
  store := rfl
  sending i := by simp [World.new]
  nodup := List.nodup_nil

section

variable (h : Inv w) {p : Option (Point κ ν)} {rest : Option (List (κ × ν))}
include h

theorem Inv.lock (locked : Bool) : Inv { w with locked := locked } :=
  ⟨h.chained, h.store, h.sending, h.nodup⟩

/-- A call that has no event goes on without one. -/
theorem Inv.goto (hbefore : ∀ rest, w.calls i ≠ some (.sending rest))
    (hafter : ∀ rest, p ≠ some (.sending rest)) : Inv (w.goto i p) where
  chained := h.chained
  store := h.store
  sending j := by
    have hold := h.sending j
    show (∃ p ∈ w.unsent, p.1 = j) ↔ ∃ rest, Function.update w.calls i p j = some (.sending rest)
    by_cases hj : j = i
    · subst hj
      rw [hold, Function.update_self]
      exact iff_of_false (fun ⟨rest, hrest⟩ => hbefore rest hrest)
        fun ⟨rest, hrest⟩ => hafter rest hrest
    · rw [hold, Function.update_of_ne hj]
  nodup := h.nodup

theorem Inv.change (hbefore : ∀ rest, w.calls i ≠ some (.sending rest)) (key : κ)
    (value : Option ν) (rest : Option (List (κ × ν))) :
    Inv ((w.change i key value).goto i (some (.sending rest))) := by
  have hchanges : ((w.change i key value).goto i (some (.sending rest))).changes =
      w.changes ++ [⟨key, w.store key, value⟩] := by
    simp [World.changes, World.goto, World.change]
  refine ⟨?_, ?_, fun j => ?_, ?_⟩
  · rw [hchanges]
    exact h.chained.concat (congrFun h.store key).symm
  · rw [hchanges, replay_concat, h.store]
    rfl
  · show (∃ p ∈ w.unsent ++ [_], p.1 = j) ↔
      ∃ rest', Function.update w.calls i (some (.sending rest)) j = some (.sending rest')
    by_cases hj : j = i
    · subst hj
      rw [Function.update_self]
      exact iff_of_true ⟨_, List.mem_append_right _ List.mem_cons_self, rfl⟩ ⟨rest, rfl⟩
    · rw [Function.update_of_ne hj, ← h.sending j]
      simp [Ne.symm hj]
  · show ((w.unsent ++ [_]).map Prod.fst).Nodup
    rw [List.map_append, List.nodup_append]
    refine ⟨h.nodup, List.nodup_singleton _, ?_⟩
    rintro a ha b hb rfl
    obtain rfl : a = i := by simpa using hb
    obtain ⟨p, hp, heq⟩ := List.mem_map.mp ha
    obtain ⟨rest', hrest⟩ := (h.sending a).mp ⟨p, hp, heq⟩
    exact hbefore rest' hrest

/-- The event of a call, and what is older and younger than it. -/
theorem Inv.split (hcall : w.calls i = some (.sending rest)) :
    ∃ before event after, w.unsent = before ++ (i, event) :: after ∧ (∀ p ∈ before, p.1 ≠ i) ∧
      (w.unsent.find? fun p => p.1 = i) = some (i, event) := by
  obtain ⟨p, hp, hpi⟩ := (h.sending i).mpr ⟨rest, hcall⟩
  cases hfind : w.unsent.find? fun p => p.1 = i with
  | none => exact absurd hpi (by simpa using List.find?_eq_none.mp hfind p hp)
  | some entry =>
    obtain ⟨hentry, before, after, hunsent, hothers⟩ := List.find?_eq_some_iff_append.mp hfind
    obtain ⟨i', event⟩ := entry
    obtain rfl : i' = i := by simpa using hentry
    exact ⟨before, event, after, hunsent, fun q hq => by simpa using hothers q hq, rfl⟩

theorem Inv.send (hcall : w.calls i = some (.sending rest)) (horder : inOrder w (.go i) = true)
    (hafter : ∀ rest, p ≠ some (.sending rest)) :
    Inv ((w.send i).goto i p) := by
  obtain ⟨before, event, after, hunsent, hothers, hfind⟩ := h.split hcall
  have holder : ∀ b ∈ before.map Prod.snd, b.key ≠ event.key := by
    have htake : (w.unsent.takeWhile fun p => p.1 ≠ i) = before := by
      rw [hunsent, List.takeWhile_append_of_pos (by simpa using hothers),
        List.takeWhile_cons_of_neg (by simp), List.append_nil]
    simp only [inOrder, hcall, hfind, htake, List.all_eq_true, decide_eq_true_eq] at horder
    intro b hb
    obtain ⟨q, hq, rfl⟩ := List.mem_map.mp hb
    exact horder q hq
  have hleft : (w.send i).unsent = before ++ after := by
    show w.unsent.eraseP _ = _
    rw [hunsent, List.eraseP_append_right _ (by simpa using hothers),
      List.eraseP_cons_of_pos (by simp)]
  have hnodup := h.nodup
  rw [hunsent, List.map_append, List.map_cons, List.nodup_middle, List.nodup_cons,
    ← List.map_append] at hnodup
  have hsent : (w.send i).sent = w.sent ++ [event] := by
    rw [World.send, hfind]
    rfl
  have hkeys : ∀ key, ofKey w.changes key = ofKey ((w.send i).goto i p).changes key := by
    intro key
    show ofKey (w.sent ++ w.unsent.map Prod.snd) key =
      ofKey ((w.send i).sent ++ (w.send i).unsent.map Prod.snd) key
    rw [hsent, hleft, hunsent, List.map_append, List.map_append, List.map_cons]
    exact ofKey_move w.sent holder key
  refine ⟨h.chained.congr hkeys, ?_, fun j => ?_, ?_⟩
  · rw [← replay_congr hkeys]
    exact h.store
  · have hold := h.sending j
    rw [hunsent] at hold
    show (∃ p ∈ (w.send i).unsent, p.1 = j) ↔
      ∃ rest, Function.update w.calls i p j = some (.sending rest)
    rw [hleft]
    by_cases hj : j = i
    · subst hj
      rw [Function.update_self]
      refine iff_of_false ?_ fun ⟨rest, hrest⟩ => hafter rest hrest
      rintro ⟨q, hq, rfl⟩
      exact hnodup.1 (List.mem_map.mpr ⟨q, hq, rfl⟩)
    · rw [Function.update_of_ne hj, ← hold]
      simp only [List.mem_append, List.mem_cons]
      constructor
      · rintro ⟨q, hq | hq, hid⟩
        · exact ⟨q, .inl hq, hid⟩
        · exact ⟨q, .inr (.inr hq), hid⟩
      · rintro ⟨q, hq | rfl | hq, hid⟩
        · exact ⟨q, .inl hq, hid⟩
        · exact absurd hid.symm hj
        · exact ⟨q, .inr hq, hid⟩
  · show ((w.send i).unsent.map Prod.fst).Nodup
    rw [hleft]
    exact hnodup.2

theorem Inv.goAt {p : Point κ ν} (hcall : w.calls i = some p)
    (horder : inOrder w (.go i) = true) : Inv (w.goAt i p) := by
  cases p with
  | starting call =>
    have hbefore : ∀ rest, w.calls i ≠ some (.sending rest) := by
      intro rest hrest
      rw [hcall] at hrest
      cases hrest
    rw [World.goAt]
    split
    · exact h
    · cases call with
      | set key value => exact h.change hbefore key _ _
      | setMany values => exact (h.lock true).goto hbefore (by rintro rest ⟨⟩)
      | delete key =>
        rw [World.start]
        split
        · exact h.change hbefore key _ _
        · exact h.goto hbefore (by rintro rest ⟨⟩)
  | inserting values =>
    have hbefore : ∀ rest, w.calls i ≠ some (.sending rest) := by
      intro rest hrest
      rw [hcall] at hrest
      cases hrest
    cases values with
    | nil => exact (h.lock false).goto hbefore (by rintro rest ⟨⟩)
    | cons kv rest => exact h.change hbefore kv.1 _ _
  | sending rest =>
    cases rest with
    | none => exact h.send hcall horder (by rintro rest ⟨⟩)
    | some rest => exact h.send hcall horder (by rintro rest ⟨⟩)

/-- A step that sends in order keeps the invariant. -/
theorem Inv.step {a : Act κ ν} (horder : inOrder w a = true) : Inv (w.step a) := by
  cases a with
  | call i call =>
    unfold World.step
    dsimp only
    split
    · rename_i hnone
      rw [Option.isNone_iff_eq_none] at hnone
      exact h.goto (fun rest hrest => by rw [hnone] at hrest; cases hrest) (by rintro rest ⟨⟩)
    · exact h
  | go i =>
    unfold World.step
    dsimp only
    split
    · rename_i p hcall
      exact h.goAt hcall horder
    · exact h

theorem Inv.arrived : Arrived w := by
  intro hreturned
  have hunsent : w.unsent = [] := by
    rw [List.eq_nil_iff_forall_not_mem]
    intro p hp
    obtain ⟨rest, hrest⟩ := (h.sending p.1).mp ⟨p, hp, rfl⟩
    rw [hreturned] at hrest
    cases hrest
  have hchanges : w.changes = w.sent := by simp [World.changes, hunsent]
  exact ⟨hchanges ▸ h.store, hchanges ▸ h.chained⟩

end

/-- In a run that sends the events of a key in the order of its changes, they arrive. -/
theorem arrives_of_inOrder (as : List (Act κ ν))
    (h : Machine.Along World.step (fun w a => inOrder w a = true) .new as) :
    Arrived (Machine.run World.step .new as) :=
  (Machine.invariant_along World.step (fun _ _ hinv horder => hinv.step horder) inv_new h).arrived

/-- Events of two keys overtake each other, and a `set_many` waits for nobody. -/
theorem arrives_of_inOrder_twoKeys :
    Arrived (Machine.run World.step (.new : World String ℤ)
      [.call 0 (.set "ttl" 60), .call 1 (.set "port" 25), .go 0, .go 1, .go 1, .go 0,
        .call 2 (.setMany [("port", 587), ("ttl", 90)]), .call 3 (.delete "ttl"),
        .go 2, .go 2, .go 3, .go 2, .go 2, .go 2, .go 2, .go 3, .go 3]) :=
  arrives_of_inOrder _ (by decide +kernel)

/-! ### Two writers of one key -/

/-- Two calls of `set` change one key, and the second one sends first. -/
def overtaken : List (Act String ℤ) :=
  [.call 0 (.set "ttl" 60), .call 1 (.set "ttl" 90), .go 0, .go 1, .go 1, .go 0]

/-- The store holds 90, and the subscriber ends with 60. -/
theorem not_arrives : ¬ ∀ {κ ν : Type} [DecidableEq κ] (as : List (Act κ ν)),
    Arrived (Machine.run World.step .new as) := by
  intro h
  have hreturned : ∀ i, (Machine.run World.step .new overtaken).calls i = none := by
    intro i
    by_cases h0 : i = 0
    · subst h0
      rfl
    · by_cases h1 : i = 1
      · subst h1
        rfl
      · simp [Machine.run, overtaken, World.step, World.goAt, World.start, World.goto, World.change,
          World.send, World.new, h0, h1]
  have hheld := congrFun (h overtaken hreturned).1 "ttl"
  exact absurd hheld (by decide +kernel)

end Backbone.Core.ConfigBus
