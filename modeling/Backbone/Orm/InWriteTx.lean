import Backbone.Orm.WriteTx

/-!
# A piece of work as one unit

`in_write_tx_result` begins a unit on an idle connection, runs the work in it and finishes the unit with
the work's result. The work shows as the states its statements store, one after the other, and its
result. The unit keeps the last of them if the result is `Ok` and the commit goes through, and nothing of
them otherwise.

Reference: `backbone-orm/src/write_tx.rs`.
-/

namespace Backbone.Orm

open Pg

variable {σ ε α : Type}

/-- `in_write_tx_result` on a durable state, for work that stores states and has a result. The last
durable state is the stored one. -/
def inWriteTxResult (refusal : ε) (commitRefused : Bool) (s : σ) (work : List σ × Except ε α) :
    Except ε α × σ :=
  let opened := (Driver.begin ⟨.idle [s] fun _ => "", 0, false⟩).2
  let session := work.1.foldl (fun session stored => (session.exec stored false).2) opened.session
  let finished := finish { opened with session } 0 work.2.isOk commitRefused
  let result := if finished.1 then work.2 else work.2.bind fun _ => .error refusal
  (result, finished.2.session.durable.getLastD s)

/-- The session in the block, with what has run in it. -/
def blockOf (s : σ) (writes : List σ) : Session σ :=
  { Session.idle [s] fun _ => "" with levels := [⟨none, writes, fun _ => ""⟩] }

theorem foldl_exec_blockOf (s : σ) (done writes : List σ) :
    writes.foldl (fun session stored => (session.exec stored false).2) (blockOf s done) =
      blockOf s (done ++ writes) := by
  induction writes generalizing done with
  | nil => rw [List.append_nil]; rfl
  | cons stored writes ih =>
    rw [List.foldl_cons]
    have hexec : ((blockOf s done).exec stored false).2 = blockOf s (done ++ [stored]) := rfl
    rw [hexec, ih, List.append_assoc]
    rfl

/-- The unit keeps what the work stored if it answers `Ok` and the commit is not refused, and nothing of
it otherwise. -/
theorem inWriteTxResult_eq (refusal : ε) (commitRefused : Bool) (s : σ) (writes : List σ)
    (result : Except ε α) :
    (∀ err, result = .error err →
      inWriteTxResult refusal commitRefused s (writes, result) = (.error err, s)) ∧
    (∀ a, result = .ok a → inWriteTxResult refusal commitRefused s (writes, result) =
      if commitRefused then (.error refusal, s) else (.ok a, writes.getLastD s)) := by
  have hsession : writes.foldl (fun session stored => (session.exec stored false).2)
      (Driver.begin ⟨.idle [s] fun _ => "", 0, false⟩).2.session = blockOf s writes :=
    foldl_exec_blockOf s [] writes
  have hunit : inWriteTxResult refusal commitRefused s (writes, result) =
      (if (finish ⟨blockOf s writes, 1, false⟩ 0 result.isOk commitRefused).1 then result
        else result.bind fun _ => .error refusal,
      (finish ⟨blockOf s writes, 1, false⟩ 0 result.isOk commitRefused).2.session.durable.getLastD
        s) := by
    unfold inWriteTxResult
    simp only [hsession]
    rfl
  constructor
  · rintro err rfl
    rw [hunit]
    rfl
  · rintro a rfl
    rw [hunit]
    cases commitRefused with
    | true => rfl
    | false =>
      have hdurable : (finish ⟨blockOf s writes, 1, false⟩ 0 true false).2.session.durable =
          s :: writes := by
        change [s] ++ workOf [(⟨none, writes, fun _ => ""⟩ : Level σ)] = s :: writes
        simp [workOf]
      change (_, (finish ⟨blockOf s writes, 1, false⟩ 0 true
        false).2.session.durable.getLastD s) = _
      rw [hdurable, List.getLastD_cons]
      rfl

section

variable {refusal : ε} {commitRefused : Bool} {s : σ} {work : List σ × Except ε α}

/-- A unit that answers `Ok` had work that did, and its commit went through. -/
theorem inWriteTxResult_ok {a : α}
    (h : (inWriteTxResult refusal commitRefused s work).1 = .ok a) :
    work.2 = .ok a ∧ commitRefused = false := by
  obtain ⟨writes, result⟩ := work
  obtain ⟨herror, hok⟩ := inWriteTxResult_eq refusal commitRefused s writes result
  cases result with
  | error err =>
    rw [herror err rfl] at h
    cases h
  | ok b =>
    rw [hok b rfl] at h
    cases commitRefused with
    | true => cases h
    | false => exact ⟨h, rfl⟩

/-- A unit that answers `Err` leaves the state as it was. -/
theorem inWriteTxResult_error {err : ε}
    (h : (inWriteTxResult refusal commitRefused s work).1 = .error err) :
    (inWriteTxResult refusal commitRefused s work).2 = s := by
  obtain ⟨writes, result⟩ := work
  obtain ⟨herror, hok⟩ := inWriteTxResult_eq refusal commitRefused s writes result
  cases result with
  | error err => rw [herror err rfl]
  | ok a =>
    rw [hok a rfl] at h ⊢
    cases commitRefused with
    | true => rfl
    | false => cases h

theorem inWriteTxResult_of_ok {a : α} (hwork : work.2 = .ok a) (hcommit : commitRefused = false) :
    (inWriteTxResult refusal commitRefused s work).1 = .ok a := by
  obtain ⟨writes, result⟩ := work
  rw [(inWriteTxResult_eq refusal commitRefused s writes result).2 a hwork, hcommit]
  rfl

end

end Backbone.Orm
