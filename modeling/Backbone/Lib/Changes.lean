import Mathlib.Data.List.Chain

/-!
# Changes of a keyed store

A change says what a key held and what it holds now. Whoever starts from an empty store and replays a
list of changes holds, under each key, what the last change of that key left; the list is chained if
each change of a key found what the one before it left.

Replay and chaining read the changes of one key at a time, so changes of other keys may be anywhere
between them.
-/

namespace Backbone

/-- `none` stands for no value. -/
structure Change (κ ν : Type*) where
  key : κ
  old : Option ν
  new : Option ν
deriving DecidableEq, Repr

namespace Change

variable {κ ν : Type*} [DecidableEq κ] {l l' before after : List (Change κ ν)} {c : Change κ ν}

/-- The changes of one key. -/
def ofKey (l : List (Change κ ν)) (key : κ) : List (Change κ ν) := l.filter fun c => c.key = key

/-- The store of whoever applies the changes in their order. -/
def replay (l : List (Change κ ν)) : κ → Option ν :=
  l.foldl (fun store c => Function.update store c.key c.new) fun _ => none

/-- Each change of a key found what the one before it left. -/
def Chained (l : List (Change κ ν)) : Prop := ∀ key, (ofKey l key).IsChain fun a b => b.old = a.new

theorem ofKey_append (l l' : List (Change κ ν)) (key : κ) :
    ofKey (l ++ l') key = ofKey l key ++ ofKey l' key :=
  List.filter_append _ _

theorem replay_concat (l : List (Change κ ν)) (c : Change κ ν) :
    replay (l ++ [c]) = Function.update (replay l) c.key c.new := by
  rw [replay, List.foldl_append]
  rfl

theorem replay_eq (l : List (Change κ ν)) (key : κ) :
    replay l key = (ofKey l key).getLast?.bind Change.new := by
  induction l using List.reverseRecOn with
  | nil => rfl
  | append_singleton l c ih =>
    rw [replay_concat, ofKey_append]
    by_cases h : c.key = key
    · subst h
      simp [ofKey]
    · have hnone : ofKey [c] key = [] := by simp [ofKey, h]
      rw [Function.update_of_ne (Ne.symm h), hnone, List.append_nil, ih]

theorem replay_congr (h : ∀ key, ofKey l key = ofKey l' key) : replay l = replay l' := by
  funext key
  rw [replay_eq, replay_eq, h]

theorem Chained.congr (hl : Chained l) (h : ∀ key, ofKey l key = ofKey l' key) : Chained l' :=
  fun key => h key ▸ hl key

/-- A change that finds what the list has left continues it. -/
theorem Chained.concat (h : Chained l) (hold : c.old = replay l c.key) : Chained (l ++ [c]) := by
  intro key
  rw [ofKey_append]
  by_cases hkey : c.key = key
  · subst hkey
    have hone : ofKey [c] c.key = [c] := by simp [ofKey]
    rw [hone]
    refine List.isChain_append.mpr ⟨h c.key, List.isChain_singleton _, ?_⟩
    intro a ha b hb
    obtain rfl : c = b := by simpa using hb
    rw [hold, replay_eq, Option.mem_def.mp ha]
    rfl
  · have hnone : ofKey [c] key = [] := by simp [ofKey, hkey]
    rw [hnone, List.append_nil]
    exact h key

/-- A change may be moved in front of changes of other keys. -/
theorem ofKey_move (l : List (Change κ ν)) (h : ∀ b ∈ before, b.key ≠ c.key) (key : κ) :
    ofKey (l ++ (before ++ c :: after)) key = ofKey ((l ++ [c]) ++ (before ++ after)) key := by
  by_cases hkey : c.key = key
  · subst hkey
    have hnone : ofKey before c.key = [] := by
      rw [ofKey, List.filter_eq_nil_iff]
      intro b hb
      simpa using h b hb
    simp only [ofKey] at hnone
    simp [ofKey, hnone]
  · simp [ofKey, hkey]

end Change

end Backbone
