import Backbone.Lib.Run
import Backbone.Workflow.Instance

/-!
# Idempotent requests

The middleware looks the key of a request up, runs the handler when nothing is stored under it, and
stores an answer of success. Nothing claims the key in between, so a retry that looks it up before the
first answer is stored runs the handler again; a body over `MAX_BODY` is lost on its way to the first
requester, and one that is no text is stored as the empty text. `idempotent_of_stillMissing` says that
nothing else goes wrong.

Reference: `backbone-auth/src/idempotency.rs`.
-/

namespace Backbone.Auth

open Machine
open Workflow (Uuid)

/-- `http::Method`. -/
inductive Method where
  | get | head | options | trace | connect | post | put | patch | delete
  | extension (name : String)
deriving DecidableEq, Repr

/-- What the middleware reads of a request: its method, the `Idempotency-Key` header when it is a text,
and the company the bearer token proves. -/
structure Request where
  method : Method
  idempotencyKey : Option String
  company : Option Uuid

/-- What the middleware reads of a response. -/
structure Response where
  status : ℕ
  body : ByteArray

/-- `StatusCode::is_success`. -/
def Response.isSuccess (r : Response) : Bool := 200 ≤ r.status && r.status < 300

/-- `MAX_BODY`. -/
def maxBody : ℕ := 64 * 1024

/-- The key of `public.idempotency_requests`. -/
structure Scope where
  company : Uuid
  key : String
deriving DecidableEq, Repr

/-- Under which key a request is deduplicated, if it is. -/
def scopeOf (req : Request) : Option Scope :=
  match req.method with
  | .post | .put | .patch | .delete => do
    let key ← req.idempotencyKey
    let company ← req.company
    pure ⟨company, key⟩
  | _ => none

/-- The status and the body of the rows of `public.idempotency_requests`. -/
abbrev Rows := Scope → Option (ℕ × String)

/-- `to_bytes(body, MAX_BODY).unwrap_or_default()`. -/
def captured (body : ByteArray) : ByteArray := if body.size ≤ maxBody then body else ByteArray.empty

/-- `str::from_utf8(body).unwrap_or("")`. -/
def bodyText (bytes : ByteArray) : String := (String.fromUTF8? bytes).getD ""

/-- `store`: an earlier row stays. A text with a NUL is refused by the database, and the error is
dropped. -/
def store (s : Scope) (status : ℕ) (bytes : ByteArray) (rows : Rows) : Rows :=
  if (rows s).isSome || (bodyText bytes).toList.contains '\u0000' then rows
  else Function.update rows s (some (status, bodyText bytes))

/-- The response of a replay. -/
def replay (row : ℕ × String) : Response where
  status := if 100 ≤ row.1 ∧ row.1 < 1000 then row.1 else 200
  body := row.2.toUTF8

/-- How far a request is. -/
inductive Phase where
  /-- It is to look its key up. -/
  | looking (s : Scope)
  /-- Nothing was stored, and the handler is to run. -/
  | handling (s : Scope)
  /-- The handler is to run for a request that is not deduplicated. -/
  | passing
  /-- The handler's answer is to be stored. -/
  | storing (s : Scope) (status : ℕ) (bytes : ByteArray)
  | answered (s : Option Scope) (response : Response)

/-- The table and the requests. -/
structure Requests where
  rows : Rows
  phases : ℕ → Option Phase

inductive RequestAct where
  | arrive (i : ℕ) (req : Request)
  | lookup (i : ℕ)
  /-- The handler of `i` runs and answers. -/
  | run (i : ℕ) (response : Response)
  | store (i : ℕ)

namespace Requests

def init : Requests := ⟨fun _ => none, fun _ => none⟩

def setPhase (w : Requests) (i : ℕ) (p : Phase) : Requests :=
  { w with phases := Function.update w.phases i (some p) }

/-- One step; what cannot happen leaves everything as it is. -/
def step (w : Requests) : RequestAct → Requests
  | .arrive i req =>
    match w.phases i with
    | none =>
      match scopeOf req with
      | some s => w.setPhase i (.looking s)
      | none => w.setPhase i .passing
    | some _ => w
  | .lookup i =>
    match w.phases i with
    | some (.looking s) =>
      match w.rows s with
      | some row => w.setPhase i (.answered (some s) (replay row))
      | none => w.setPhase i (.handling s)
    | _ => w
  | .run i response =>
    match w.phases i with
    | some (.handling s) =>
      if response.isSuccess then w.setPhase i (.storing s response.status (captured response.body))
      else w.setPhase i (.answered (some s) response)
    | some .passing => w.setPhase i (.answered none response)
    | _ => w
  | .store i =>
    match w.phases i with
    | some (.storing s status bytes) =>
      { w with rows := Auth.store s status bytes w.rows }.setPhase i
        (.answered (some s) ⟨status, bytes⟩)
    | _ => w

end Requests

/-- A run of the handler for a deduplicated request. -/
structure HandlerRun where
  request : ℕ
  scope : Scope
  response : Response

/-- The handler runs there were, kept beside the requests. -/
def noteRun (runs : List HandlerRun) (w : Requests) (a : RequestAct) (_ : Requests) :
    List HandlerRun :=
  match a with
  | .run i response =>
    match w.phases i with
    | some (.handling s) => runs ++ [⟨i, s, response⟩]
    | _ => runs
  | _ => runs

/-- The handler's answer of success for the key. -/
def HandlerRun.Succeeds (s : Scope) (r : HandlerRun) : Prop :=
  r.scope = s ∧ r.response.isSuccess = true

instance (s : Scope) (r : HandlerRun) : Decidable (r.Succeeds s) :=
  inferInstanceAs (Decidable (_ ∧ _))

/-- What a client may expect of the requests under one key. -/
structure Idempotent (s : Scope) (q : Requests × List HandlerRun) : Prop where
  once : (q.2.filter fun r => decide (r.Succeeds s)).length ≤ 1
  replayed : ∀ i response, q.1.phases i = some (.answered (some s) response) →
    response.isSuccess = true → (∀ r ∈ q.2, r.request ≠ i) →
      ∃ r ∈ q.2, r.Succeeds s ∧ response = r.response
  unchanged : ∀ r ∈ q.2, r.scope = s → ∀ response,
    q.1.phases r.request = some (.answered (some s) response) → response = r.response

/-- The body comes through unchanged, also from the table. -/
def Fits (body : ByteArray) : Prop :=
  body.size ≤ maxBody ∧ ∃ text, String.fromUTF8? body = some text ∧ '\u0000' ∉ text.toList

/-- When a handler answers with success, what the request found missing is missing still: nothing is
stored under the key and nobody is about to; and the body fits. -/
def StillMissing (s : Scope) (q : Requests × List HandlerRun) : RequestAct → Prop
  | .run i response => q.1.phases i = some (.handling s) → response.isSuccess = true →
      q.1.rows s = none ∧ (∀ j status bytes, q.1.phases j ≠ some (.storing s status bytes)) ∧
        Fits response.body
  | _ => True

/-! ## The invariant -/

section

variable {s : Scope} {q : Requests × List HandlerRun} {response : Response} {i : ℕ} {status : ℕ}
  {w : Requests} {bytes : ByteArray}

/-- Every run of the handler under the key, and what became of its answer. -/
structure Single (s : Scope) (q : Requests × List HandlerRun) : Prop where
  once : (q.2.filter fun r => decide (r.Succeeds s)).length ≤ 1
  ran : ∀ r ∈ q.2, r.scope = s →
    q.1.phases r.request = some (.storing s r.response.status r.response.body) ∨
      q.1.phases r.request = some (.answered (some s) r.response)
  storing : ∀ i status bytes, q.1.phases i = some (.storing s status bytes) →
    ∃ r ∈ q.2, r.Succeeds s ∧ r.response = ⟨status, bytes⟩ ∧ Fits bytes
  row : ∀ row, q.1.rows s = some row → ∃ r ∈ q.2, r.Succeeds s ∧ replay row = r.response
  kept : ∀ r ∈ q.2, r.Succeeds s → q.1.rows s ≠ none ∨
    ∃ i status bytes, q.1.phases i = some (.storing s status bytes)
  answered : ∀ i response, q.1.phases i = some (.answered (some s) response) →
    response.isSuccess = true → ∃ r ∈ q.2, r.Succeeds s ∧ response = r.response

theorem Single.idempotent (h : Single s q) : Idempotent s q where
  once := h.once
  replayed i response hi hsuccess _ := h.answered i response hi hsuccess
  unchanged r hr hs response hi := by
    rcases h.ran r hr hs with hstoring | hanswered
    · rw [hstoring] at hi
      cases hi
    · rw [hanswered] at hi
      cases hi
      rfl

theorem single_init : Single s (Requests.init, []) where
  once := Nat.zero_le 1
  ran r hr := by cases hr
  storing i status bytes hi := by cases hi
  row row hrow := by cases hrow
  kept r hr := by cases hr
  answered i response hi := by cases hi

theorem Requests.phases_setPhase (w : Requests) (i j : ℕ) (p : Phase) :
    (w.setPhase i p).phases j = if j = i then some p else w.phases j := by
  by_cases h : j = i
  · subst h
    simp [setPhase]
  · simp [setPhase, h]

/-- The phase tells of an answer under the key. -/
def Tells (s : Scope) (p : Option Phase) : Prop :=
  (∃ status bytes, p = some (.storing s status bytes)) ∨
    ∃ response, p = some (.answered (some s) response)

/-- A step that is not about the key. -/
theorem Single.frame {runs : List HandlerRun} (h : Single s q)
    (hruns : ∀ r, r.scope = s → (r ∈ runs ↔ r ∈ q.2))
    (honce : (runs.filter fun r => decide (r.Succeeds s)) = q.2.filter fun r => decide (r.Succeeds s))
    (hrows : w.rows s = q.1.rows s)
    (hphases : ∀ j, w.phases j = q.1.phases j ∨ ¬ Tells s (q.1.phases j) ∧ ¬ Tells s (w.phases j)) :
    Single s (w, runs) := by
  have hsucceeds : ∀ r, r.Succeeds s → (r ∈ runs ↔ r ∈ q.2) := fun r hr => hruns r hr.1
  have hold : ∀ {j}, Tells s (w.phases j) → w.phases j = q.1.phases j :=
    fun {j} htells => (hphases j).resolve_right fun h => h.2 htells
  have hnew : ∀ {j}, Tells s (q.1.phases j) → w.phases j = q.1.phases j :=
    fun {j} htells => (hphases j).resolve_right fun h => h.1 htells
  refine ⟨by rw [honce]; exact h.once, fun r hr hs => ?_, fun i status bytes hi => ?_,
    fun row hrow => ?_, fun r hr hs => ?_, fun i response hi hsuccess => ?_⟩
  · rcases h.ran r ((hruns r hs).mp hr) hs with hstoring | hanswered
    · exact .inl ((hnew (.inl ⟨_, _, hstoring⟩)).trans hstoring)
    · exact .inr ((hnew (.inr ⟨_, hanswered⟩)).trans hanswered)
  · obtain ⟨r, hr, hs, hresponse, hfits⟩ :=
      h.storing i status bytes ((hold (.inl ⟨_, _, hi⟩)).symm.trans hi)
    exact ⟨r, (hsucceeds r hs).mpr hr, hs, hresponse, hfits⟩
  · obtain ⟨r, hr, hs, hreplay⟩ := h.row row (hrows ▸ hrow)
    exact ⟨r, (hsucceeds r hs).mpr hr, hs, hreplay⟩
  · rcases h.kept r ((hsucceeds r hs).mp hr) hs with hrow | ⟨i, status, bytes, hi⟩
    · exact .inl (by rw [hrows]; exact hrow)
    · exact .inr ⟨i, status, bytes, (hnew (.inl ⟨_, _, hi⟩)).trans hi⟩
  · obtain ⟨r, hr, hs, hresponse⟩ :=
      h.answered i response ((hold (.inr ⟨_, hi⟩)).symm.trans hi) hsuccess
    exact ⟨r, (hsucceeds r hs).mpr hr, hs, hresponse⟩

/-- One request goes on in a step that is not about the key. -/
theorem Single.setPhase (h : Single s q) {p : Phase} (hrows : w.rows s = q.1.rows s)
    (hphases : w.phases = q.1.phases) (hbefore : ¬ Tells s (q.1.phases i))
    (hafter : ¬ Tells s (some p)) : Single s (w.setPhase i p, q.2) := by
  refine h.frame (fun _ _ => Iff.rfl) rfl hrows fun j => ?_
  rw [Requests.phases_setPhase, hphases]
  by_cases hj : j = i
  · rw [if_pos hj, hj]
    exact .inr ⟨hbefore, hafter⟩
  · exact .inl (if_neg hj)

/-- A request that has not answered has run no handler. -/
theorem Single.not_ran (h : Single s q) (hi : ¬ Tells s (q.1.phases i)) :
    ∀ r ∈ q.2, r.scope = s → r.request ≠ i := by
  rintro r hr hs rfl
  rcases h.ran r hr hs with hstoring | hanswered
  · exact hi (.inl ⟨_, _, hstoring⟩)
  · exact hi (.inr ⟨_, hanswered⟩)

/-- A request is answered with a handler's answer of success. -/
theorem Single.answer (h : Single s q) (hi : ¬ Tells s (q.1.phases i))
    (hanswer : response.isSuccess = true → ∃ r ∈ q.2, r.Succeeds s ∧ response = r.response) :
    Single s (q.1.setPhase i (.answered (some s) response), q.2) := by
  have hother : ∀ {j p}, q.1.phases j = p → Tells s p →
      (q.1.setPhase i (.answered (some s) response)).phases j = p := by
    intro j p hj htells
    rw [Requests.phases_setPhase, if_neg, hj]
    rintro rfl
    exact hi (hj ▸ htells)
  refine ⟨h.once, fun r hr hs => ?_, fun j status bytes hj => ?_, h.row, fun r hr hs => ?_,
    fun j response' hj hsuccess => ?_⟩
  · rcases h.ran r hr hs with hstoring | hanswered
    · exact .inl (hother hstoring (.inl ⟨_, _, rfl⟩))
    · exact .inr (hother hanswered (.inr ⟨_, rfl⟩))
  · rw [Requests.phases_setPhase] at hj
    split at hj
    · cases hj
    · exact h.storing j status bytes hj
  · rcases h.kept r hr hs with hrow | ⟨j, status, bytes, hj⟩
    · exact .inl hrow
    · exact .inr ⟨j, status, bytes, hother hj (.inl ⟨_, _, rfl⟩)⟩
  · rw [Requests.phases_setPhase] at hj
    split at hj
    · cases hj
      exact hanswer hsuccess
    · exact h.answered j response' hj hsuccess

theorem isSuccess_bounds {body : ByteArray}
    (h : Response.isSuccess ⟨status, body⟩ = true) : 200 ≤ status ∧ status < 300 := by
  simpa [Response.isSuccess] using h

/-- What fits is replayed as it was. -/
theorem replay_bodyText
    (hsuccess : Response.isSuccess ⟨status, bytes⟩ = true) (hfits : Fits bytes) :
    replay (status, bodyText bytes) = ⟨status, bytes⟩ := by
  obtain ⟨-, text, htext, -⟩ := hfits
  have hbytes : text.toUTF8 = bytes := by
    unfold String.fromUTF8? at htext
    split at htext
    · rw [← Option.some.inj htext]
      rfl
    · cases htext
  have hbounds := isSuccess_bounds hsuccess
  rw [replay, bodyText, htext, if_pos (by dsimp only; omega)]
  exact congrArg _ hbytes

/-- The answer of success is the only one. -/
theorem Single.run (h : Single s q) (hi : q.1.phases i = some (.handling s))
    (hsuccess : response.isSuccess = true) (hmissing : StillMissing s q (.run i response)) :
    Single s (q.1.setPhase i (.storing s response.status (captured response.body)),
      q.2 ++ [⟨i, s, response⟩]) := by
  obtain ⟨hrow, hidle, hfits⟩ := hmissing hi hsuccess
  have hcaptured : captured response.body = response.body := if_pos hfits.1
  -- No answer of success came before, or it would be stored or about to be.
  have hnone : ∀ r ∈ q.2, ¬ r.Succeeds s := by
    intro r hr hs
    rcases h.kept r hr hs with hstored | ⟨j, status, bytes, hj⟩
    · exact hstored hrow
    · exact hidle j status bytes hj
  have hnew : (⟨i, s, response⟩ : HandlerRun) ∈ q.2 ++ [⟨i, s, response⟩] :=
    List.mem_append_right _ (List.mem_singleton_self _)
  have hself : (q.1.setPhase i (.storing s response.status (captured response.body))).phases i =
      some (.storing s response.status response.body) := by
    rw [Requests.phases_setPhase, if_pos rfl, hcaptured]
  refine ⟨?_, fun r hr hs => ?_, fun j status bytes hj => ?_, fun row hrow' => ?_, fun r _ _ => ?_,
    fun j response' hj hsuccess' => ?_⟩
  · rw [List.filter_append, List.filter_eq_nil_iff.mpr fun r hr => by simpa using hnone r hr]
    exact List.length_filter_le _ _
  · rcases List.mem_append.mp hr with hr | hr
    · have hne := h.not_ran (i := i) (by
        rw [hi]
        rintro (⟨_, _, hp⟩ | ⟨_, hp⟩) <;> cases hp) r hr hs
      rw [Requests.phases_setPhase, if_neg hne]
      exact h.ran r hr hs
    · obtain rfl := List.mem_singleton.mp hr
      exact .inl hself
  · by_cases hj' : j = i
    · subst hj'
      rw [hself] at hj
      cases hj
      exact ⟨_, hnew, ⟨rfl, hsuccess⟩, rfl, hfits⟩
    · rw [Requests.phases_setPhase, if_neg hj'] at hj
      exact absurd hj (hidle j status bytes)
  · have hsome : q.1.rows s = some row := hrow'
    rw [hrow] at hsome
    cases hsome
  · exact .inr ⟨i, _, _, hself⟩
  · by_cases hj' : j = i
    · subst hj'
      rw [hself] at hj
      cases hj
    · rw [Requests.phases_setPhase, if_neg hj'] at hj
      obtain ⟨r, hr, hs, -⟩ := h.answered j response' hj hsuccess'
      exact absurd hs (hnone r hr)

/-- The answer of success is stored, and its requester answered. -/
theorem Single.store (h : Single s q)
    (hi : q.1.phases i = some (.storing s status bytes)) :
    Single s ({ q.1 with rows := Auth.store s status bytes q.1.rows }.setPhase i
      (.answered (some s) ⟨status, bytes⟩), q.2) := by
  obtain ⟨r₀, hr₀, hs₀, hresponse₀, hfits⟩ := h.storing i status bytes hi
  have hsuccess : Response.isSuccess ⟨status, bytes⟩ = true := hresponse₀ ▸ hs₀.2
  have hself : ({ q.1 with rows := Auth.store s status bytes q.1.rows }.setPhase i
      (.answered (some s) ⟨status, bytes⟩)).phases i = some (.answered (some s) ⟨status, bytes⟩) := by
    rw [Requests.phases_setPhase, if_pos rfl]
  have hother : ∀ j, j ≠ i → ({ q.1 with rows := Auth.store s status bytes q.1.rows }.setPhase i
      (.answered (some s) ⟨status, bytes⟩)).phases j = q.1.phases j := by
    intro j hj
    rw [Requests.phases_setPhase, if_neg hj]
  -- The row that was there, or the one of this answer.
  have hrows : Auth.store s status bytes q.1.rows s = q.1.rows s ∧ q.1.rows s ≠ none ∨
      Auth.store s status bytes q.1.rows s = some (status, bodyText bytes) := by
    obtain ⟨-, text, htext, hnul⟩ := hfits
    have htext' : bodyText bytes = text := by rw [bodyText, htext]; rfl
    cases hrow : q.1.rows s with
    | some row =>
      refine .inl ⟨?_, Option.some_ne_none _⟩
      rw [Auth.store, if_pos (by simp [hrow]), hrow]
    | none =>
      right
      rw [Auth.store, if_neg (by simp [hrow, htext', hnul]), Function.update_self]
  refine ⟨h.once, fun r hr hs => ?_, fun j status' bytes' hj => ?_, fun row hrow => ?_,
    fun r _ _ => .inl ?_, fun j response hj hsuccess' => ?_⟩
  · by_cases hri : r.request = i
    · rcases h.ran r hr hs with hstoring | hanswered
      · rw [hri, hi] at hstoring
        cases hstoring
        rw [hri]
        exact .inr hself
      · rw [hri, hi] at hanswered
        cases hanswered
    · rw [hother _ hri]
      exact h.ran r hr hs
  · by_cases hj' : j = i
    · rw [hj', hself] at hj
      cases hj
    · rw [hother j hj'] at hj
      exact h.storing j status' bytes' hj
  · have hrow' : Auth.store s status bytes q.1.rows s = some row := hrow
    rcases hrows with ⟨hsame, -⟩ | hnew
    · exact h.row row (hsame ▸ hrow')
    · rw [hnew] at hrow'
      cases hrow'
      exact ⟨r₀, hr₀, hs₀, (replay_bodyText hsuccess hfits).trans hresponse₀.symm⟩
  · show Auth.store s status bytes q.1.rows s ≠ none
    rcases hrows with ⟨hsame, hne⟩ | hnew
    · rwa [hsame]
    · rw [hnew]
      exact Option.some_ne_none _
  · by_cases hj' : j = i
    · rw [hj', hself] at hj
      cases hj
      exact ⟨r₀, hr₀, hs₀, hresponse₀.symm⟩
    · rw [hother j hj'] at hj
      exact h.answered j response hj hsuccess'

/-- A run that did not succeed is answered to its requester and not stored. -/
theorem Single.decline (h : Single s q) (hi : q.1.phases i = some (.handling s))
    (hfailed : ¬ response.isSuccess = true) :
    Single s (q.1.setPhase i (.answered (some s) response), q.2 ++ [⟨i, s, response⟩]) := by
  have htells : ¬ Tells s (q.1.phases i) := by simp [hi, Tells]
  have hanswer := h.answer htells fun hsuccess => absurd hsuccess hfailed
  have hfilter : ((q.2 ++ [(⟨i, s, response⟩ : HandlerRun)]).filter
      fun r => decide (r.Succeeds s)) =
      q.2.filter fun r => decide (r.Succeeds s) := by
    simp [List.filter_append, HandlerRun.Succeeds, hfailed]
  refine ⟨by rw [hfilter]; exact h.once, fun r hr hs => ?_, fun j status bytes hj => ?_,
    fun row hrow => ?_, fun r hr hs => ?_, fun j response' hj hsuccess => ?_⟩
  · rcases List.mem_append.mp hr with hr | hr
    · exact hanswer.ran r hr hs
    · obtain rfl := List.mem_singleton.mp hr
      right
      rw [Requests.phases_setPhase, if_pos rfl]
  · obtain ⟨r, hr, hs⟩ := hanswer.storing j status bytes hj
    exact ⟨r, List.mem_append_left _ hr, hs⟩
  · obtain ⟨r, hr, hs⟩ := hanswer.row row hrow
    exact ⟨r, List.mem_append_left _ hr, hs⟩
  · rcases List.mem_append.mp hr with hr | hr
    · exact hanswer.kept r hr hs
    · obtain rfl := List.mem_singleton.mp hr
      exact absurd hs.2 hfailed
  · obtain ⟨r, hr, hs⟩ := hanswer.answered j response' hj hsuccess
    exact ⟨r, List.mem_append_left _ hr, hs⟩

theorem Requests.rows_store (w : Requests) {s' : Scope} (hs : s' ≠ s) (status : ℕ)
    (bytes : ByteArray) : Auth.store s' status bytes w.rows s = w.rows s := by
  unfold Auth.store
  split
  · rfl
  · exact Function.update_of_ne hs.symm _ _

theorem Single.lookup (h : Single s q) (i : ℕ) : Single s (q.1.step (.lookup i), q.2) := by
  simp only [Requests.step]
  split
  · next s' hi =>
    have htells : ¬ Tells s (q.1.phases i) := by simp [hi, Tells]
    split
    · next row hrow =>
      by_cases hs : s' = s
      · subst hs
        exact h.answer htells fun _ => by
          obtain ⟨r, hr, hs, hreplay⟩ := h.row row hrow
          exact ⟨r, hr, hs, hreplay⟩
      · exact h.setPhase rfl rfl htells (by simp [Tells, hs])
    · exact h.setPhase rfl rfl htells (by simp [Tells])
  · exact h

theorem Single.ran_step (h : Single s q) (hmissing : StillMissing s q (.run i response)) :
    Single s (withHistory Requests.step noteRun q (.run i response)) := by
  rcases hi : q.1.phases i with _ | (s' | s' | _ | ⟨s', status, bytes⟩ | ⟨s', answer⟩)
  case some.handling =>
    by_cases hs : s' = s
    · subst hs
      by_cases hsuccess : response.isSuccess = true
      · simpa [withHistory, Requests.step, noteRun, hi, hsuccess] using h.run hi hsuccess hmissing
      · simpa [withHistory, Requests.step, noteRun, hi, hsuccess] using h.decline hi hsuccess
    · -- The handler ran under another key: its run is noted, and nothing is told of this one.
      simp only [withHistory, Requests.step, noteRun, hi]
      refine h.frame (fun r hr => ?_) ?_ ?_ fun j => ?_
      · rw [List.mem_append, List.mem_singleton, or_iff_left]
        rintro rfl
        exact hs hr
      · simp [List.filter_append, HandlerRun.Succeeds, hs]
      · split <;> rfl
      · by_cases hj : j = i
        · subst hj
          right
          split <;> simp [Requests.phases_setPhase, Tells, hi, hs]
        · left
          split <;> simp [Requests.phases_setPhase, hj]
  case some.passing =>
    simpa [withHistory, Requests.step, noteRun, hi] using
      h.setPhase (i := i) (p := .answered none response) rfl rfl (by simp [hi, Tells])
        (by simp [Tells])
  all_goals simpa [withHistory, Requests.step, noteRun, hi] using h

theorem Single.stored_step (h : Single s q) (i : ℕ) : Single s (q.1.step (.store i), q.2) := by
  simp only [Requests.step]
  split
  · next s' status bytes hi =>
    by_cases hs : s' = s
    · subst hs
      exact h.store hi
    · exact h.setPhase (q.1.rows_store hs status bytes) rfl (by simp [hi, Tells, hs])
        (by simp [Tells, hs])
  · exact h

/-- The invariant is kept by every step that meets the condition. -/
theorem Single.step (h : Single s q) {a : RequestAct} (ha : StillMissing s q a) :
    Single s (withHistory Requests.step noteRun q a) := by
  cases a with
  | arrive i req =>
    show Single s (q.1.step (.arrive i req), q.2)
    simp only [Requests.step]
    split
    · next hi =>
      have htells : ¬ Tells s (q.1.phases i) := by simp [hi, Tells]
      split
      · exact h.setPhase rfl rfl htells (by simp [Tells])
      · exact h.setPhase rfl rfl htells (by simp [Tells])
    · exact h
  | lookup i => exact h.lookup i
  | run i response => exact h.ran_step ha
  | store i => exact h.stored_step i

end

/-- As long as every answer of success comes while its key is still missing, and fits, at most one run
of the handler succeeds under the key, and everybody else is answered with what it answered. -/
theorem idempotent_of_stillMissing (s : Scope) (as : List RequestAct)
    (hmissing : Along (withHistory Requests.step noteRun) (StillMissing s) (Requests.init, []) as) :
    Idempotent s (run (withHistory Requests.step noteRun) (Requests.init, []) as) :=
  Single.idempotent (invariant_along _ (fun _ _ h ha => h.step ha) single_init hmissing)

/-- A creating request under the key. -/
def keyed : Request := ⟨.post, some "k", some 7⟩

/-- The retry that comes after the first answer was stored is answered from the table. -/
theorem idempotent_of_stillMissing_retried :
    let created : Response := ⟨201, "1".toUTF8⟩
    let q := run (withHistory Requests.step noteRun) (Requests.init, [])
      [.arrive 0 keyed, .lookup 0, .run 0 created, .store 0, .arrive 1 keyed, .lookup 1]
    q.2 = [⟨0, ⟨7, "k"⟩, created⟩] ∧ q.1.phases 1 = some (.answered (some ⟨7, "k"⟩) created) ∧
      Idempotent ⟨7, "k"⟩ q := by
  refine ⟨rfl, ?_, idempotent_of_stillMissing ⟨7, "k"⟩ _ ⟨trivial, trivial, ?_, trivial, trivial,
    trivial, trivial⟩⟩
  · rfl
  · intro _ _
    refine ⟨rfl, fun j status bytes hj => ?_, by decide, "1", rfl, by decide⟩
    by_cases hj0 : j = 0
    · subst hj0
      cases hj
    · have hnone : ((Requests.init.setPhase 0 (.looking ⟨7, "k"⟩)).setPhase 0
          (.handling ⟨7, "k"⟩)).phases j = none := by
        rw [Requests.phases_setPhase, if_neg hj0, Requests.phases_setPhase, if_neg hj0]
        rfl
      cases hnone.symm.trans hj

/-- Two requests that look the key up before either answer is stored both run the handler. -/
theorem not_idempotent : ¬ ∀ s as,
    Idempotent s (run (withHistory Requests.step noteRun) (Requests.init, []) as) := by
  intro h
  have hrun := (h ⟨7, "k"⟩ [.arrive 0 keyed, .arrive 1 keyed, .lookup 0, .lookup 1,
    .run 0 ⟨201, "1".toUTF8⟩, .run 1 ⟨201, "2".toUTF8⟩]).once
  revert hrun
  decide

end Backbone.Auth
