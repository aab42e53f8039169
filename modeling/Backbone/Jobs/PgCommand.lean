import Mathlib.Tactic.IntervalCases
import Backbone.Jobs.Job
import Backbone.Lib.Sql.Insert
import Backbone.Workflow.Expr

/-!
# Commands for pg_cron

`generate_cron_command` writes the job as JSON into an SQL text, between quotes that are doubled in the
JSON; the queue stands before it as it is. The JSON begins with the job's id, and a doubled quote never
stands alone, so the command of one job is never that of another, whatever its queue is called.

`serde_json`'s text of a payload and the rendering of a time are parameters. The fields of the JSON are
in the order of their names, which `serde_json` sorts; the metadata are given in theirs.

Reference: `backbone-jobs/src/pg_cron.rs`.
-/

namespace Backbone.Jobs

open Workflow (jsonChar jsonString)

variable {π : Type} {a : List Char}

/-- `serde_json`'s text of a payload, and chrono's `to_rfc3339`. -/
structure Texts (π : Type) where
  payload : π → String
  rfc3339 : ℤ → String

/-- `JobPriority as i32`. -/
def JobPriority.toDigit : JobPriority → Char
  | .low => '0'
  | .normal => '1'
  | .high => '2'
  | .critical => '3'

/-- The text of `queue_payload`. -/
def queuePayload (E : Texts π) (job : Job π) (now : ℤ) : String :=
  let field (e : String × String) := jsonString e.1 ++ ":" ++ jsonString e.2
  "\x7b\"job_id\":" ++ jsonString job.id ++
    (",\"job_name\":" ++ jsonString job.name ++
      ",\"metadata\":\x7b" ++ Text.join "," (job.metadata.map field) ++
      "\x7d,\"payload\":" ++ E.payload job.payload ++
      ",\"queue\":" ++ jsonString job.queue ++
      ",\"timestamp\":" ++ jsonString (E.rfc3339 now) ++ "\x7d")

/-- `replace` of each quote by two. -/
def doubleQuotes (cs : List Char) : List Char :=
  cs.flatMap fun c => if c = '\'' then ['\'', '\''] else [c]

/-- The command up to the name of the queue. -/
def commandHead : String :=
  "INSERT INTO job_queue (queue_name, payload, priority, created_at)\n            VALUES ('"

/-- The command behind the JSON. -/
def commandTail (priority : JobPriority) : String :=
  "', " ++ String.singleton priority.toDigit ++ ", NOW())"

/-- `generate_cron_command`. The text around the command is white space and trimmed off. -/
def generateCronCommand (E : Texts π) (job : Job π) (now : ℤ) : String :=
  commandHead ++ (job.queue ++ "', '" ++
    String.ofList (doubleQuotes (queuePayload E job now).toList)) ++ commandTail job.priority

/-! ## JSON strings -/

/-- The value of a digit of a `\u` escape. -/
def hexValue (c : Char) : ℕ := if c.isDigit then c.toNat - 48 else c.toNat - 87

/-- The first character of an escaped text, and what follows it. -/
def unescape : List Char → Option (Char × List Char)
  | '\\' :: '"' :: rest => some ('"', rest)
  | '\\' :: '\\' :: rest => some ('\\', rest)
  | '\\' :: 'n' :: rest => some ('\n', rest)
  | '\\' :: 'r' :: rest => some ('\r', rest)
  | '\\' :: 't' :: rest => some ('\t', rest)
  | '\\' :: 'b' :: rest => some ('\x08', rest)
  | '\\' :: 'f' :: rest => some ('\x0c', rest)
  | '\\' :: 'u' :: '0' :: '0' :: a :: b :: rest =>
    some (Char.ofNat (16 * hexValue a + hexValue b), rest)
  | '"' :: _ => none
  | c :: rest => some (c, rest)
  | [] => none

theorem unescape_control : ∀ n < 32, ∀ rest,
    unescape (jsonChar (Char.ofNat n) ++ rest) = some (Char.ofNat n, rest) := by
  intro n hn rest
  interval_cases n <;> rfl

theorem unescape_jsonChar (c : Char) (rest : List Char) :
    unescape (jsonChar c ++ rest) = some (c, rest) := by
  by_cases hcontrol : c.toNat < 32
  · have h := unescape_control c.toNat hcontrol rest
    rwa [Char.ofNat_toNat] at h
  · by_cases hquote : c = '"'
    · subst hquote
      rfl
    · by_cases hslash : c = '\\'
      · subst hslash
        rfl
      · have hplain : jsonChar c = [c] := by
          unfold jsonChar
          dsimp only
          split
          · exact absurd rfl hquote
          · exact absurd rfl hslash
          iterate 5 exact absurd (by decide) hcontrol
          · rw [if_neg hcontrol]
        rw [hplain]
        unfold unescape
        split <;> simp_all

variable {b : List Char}

/-- A string literal ends where its text does, whatever follows. -/
theorem eq_of_escaped {r r' : List Char}
    (h : a.flatMap jsonChar ++ '"' :: r = b.flatMap jsonChar ++ '"' :: r') : a = b := by
  induction a generalizing b with
  | nil =>
    cases b with
    | nil => rfl
    | cons d b =>
      have := congrArg unescape h
      rw [List.flatMap_cons, List.append_assoc, unescape_jsonChar] at this
      cases this
  | cons c a ih =>
    rw [List.flatMap_cons, List.append_assoc] at h
    cases b with
    | nil =>
      have := congrArg unescape h
      rw [unescape_jsonChar] at this
      cases this
    | cons d b =>
      rw [List.flatMap_cons, List.append_assoc] at h
      have hboth := congrArg unescape h
      rw [unescape_jsonChar, unescape_jsonChar] at hboth
      obtain ⟨rfl, hrest⟩ := Prod.mk.inj (Option.some.inj hboth)
      rw [ih hrest]

/-- The JSON of a job begins with its id. -/
theorem queuePayload_eq (E : Texts π) (job : Job π) (now : ℤ) :
    ∃ rest, (queuePayload E job now).toList =
      "\x7b\"job_id\":\"".toList ++ (job.id.toList.flatMap jsonChar ++ '"' :: rest) := by
  obtain ⟨rest, hrest⟩ : ∃ rest, queuePayload E job now =
      "\x7b\"job_id\":" ++ jsonString job.id ++ rest := ⟨_, rfl⟩
  refine ⟨rest.toList, ?_⟩
  rw [hrest]
  simp [jsonString]

variable {E : Texts π} {job job' : Job π} {now now' : ℤ} (cs : List Char)

theorem id_of_queuePayload
    (h : queuePayload E job now = queuePayload E job' now') : job.id = job'.id := by
  obtain ⟨rest, hrest⟩ := queuePayload_eq E job now
  obtain ⟨rest', hrest'⟩ := queuePayload_eq E job' now'
  rw [h, hrest'] at hrest
  exact (String.toList_inj.mp (eq_of_escaped (List.append_cancel_left hrest))).symm

/-! ## Doubled quotes -/

theorem doubleQuotes_eq_quoted : doubleQuotes cs = Sql.quoted cs := rfl

theorem doubleQuotes_cons_quote :
    doubleQuotes ('\'' :: cs) = '\'' :: '\'' :: doubleQuotes cs := Sql.quoted_cons_quote cs

theorem doubleQuotes_cons_of_ne {c : Char} (hc : c ≠ '\'') (cs : List Char) :
    doubleQuotes (c :: cs) = c :: doubleQuotes cs := Sql.quoted_cons_of_ne hc cs

theorem doubleQuotes_inj (h : doubleQuotes a = doubleQuotes b) : a = b :=
  Sql.quoted_injective h

/-- No quote stands alone behind a space. -/
theorem no_single_quote {Y Z : List Char} {c : Char} (hc : c ≠ '\'') :
    doubleQuotes a ≠ Y ++ ' ' :: '\'' :: c :: Z := by
  intro h
  induction a generalizing Y with
  | nil => cases Y <;> cases h
  | cons d a ih =>
    by_cases hd : d = '\''
    · subst hd
      rw [doubleQuotes_cons_quote] at h
      rcases Y with _ | ⟨y, _ | ⟨y', Y⟩⟩
      · cases h
      · cases h
      · exact ih (List.cons.inj (List.cons.inj h).2).2
    · rw [doubleQuotes_cons_of_ne hd] at h
      cases Y with
      | nil =>
        have hrest := (List.cons.inj h).2
        cases a with
        | nil => cases hrest
        | cons d' a =>
          by_cases hd' : d' = '\''
          · subst hd'
            rw [doubleQuotes_cons_quote] at hrest
            exact hc (List.cons.inj (List.cons.inj hrest).2).1.symm
          · rw [doubleQuotes_cons_of_ne hd'] at hrest
            exact hd' (List.cons.inj hrest).1
      | cons y Y => exact ih (List.cons.inj h).2

/-! ## Commands -/

variable {J J' : List Char}

/-- The quote, the comma, the space, the quote and the brace before a JSON in quotes stand nowhere else
in a command: not across the ones before it, and not in it. -/
theorem eq_of_quoted_append {X : List Char}
    (h : '\'' :: ',' :: ' ' :: '\'' :: doubleQuotes ('\x7b' :: J) =
      X ++ '\'' :: ',' :: ' ' :: '\'' :: doubleQuotes ('\x7b' :: J')) : J = J' := by
  rw [doubleQuotes_cons_of_ne (by decide), doubleQuotes_cons_of_ne (by decide)] at h
  rcases X with _ | ⟨_, _ | ⟨_, _ | ⟨_, _ | ⟨_, _ | ⟨_, X⟩⟩⟩⟩⟩
  · simp only [List.nil_append, List.cons_inj_right] at h
    exact doubleQuotes_inj h
  · simp at h
  · simp at h
  · simp at h
  · simp at h
  · simp only [List.cons_append, List.cons.injEq] at h
    obtain ⟨-, -, -, -, -, h⟩ := h
    exact absurd (h.trans (by simp)) (no_single_quote (c := '\x7b') (Y := X ++ ['\'', ','])
      (Z := doubleQuotes J') (by decide))

theorem eq_of_quoted {Q Q' : List Char}
    (h : Q ++ '\'' :: ',' :: ' ' :: '\'' :: doubleQuotes ('\x7b' :: J) =
      Q' ++ '\'' :: ',' :: ' ' :: '\'' :: doubleQuotes ('\x7b' :: J')) : J = J' := by
  rcases List.append_eq_append_iff.mp h with ⟨X, -, hX⟩ | ⟨X, -, hX⟩
  · exact eq_of_quoted_append hX
  · exact (eq_of_quoted_append hX).symm

/-- The commands of different jobs differ. -/
theorem id_of_command
    (h : generateCronCommand E job now = generateCronCommand E job' now') : job.id = job'.id := by
  have hbrace (job : Job π) (now : ℤ) : ∃ J, (queuePayload E job now).toList = '\x7b' :: J := by
    obtain ⟨rest, hrest⟩ := queuePayload_eq E job now
    exact ⟨_, hrest⟩
  obtain ⟨J, hJ⟩ := hbrace job now
  obtain ⟨J', hJ'⟩ := hbrace job' now'
  have hlist := congrArg String.toList h
  have htail : (commandTail job.priority).toList.length = (commandTail job'.priority).toList.length := by
    simp [commandTail]
  simp only [generateCronCommand, String.toList_append, String.toList_ofList, hJ, hJ'] at hlist
  have hquoted := List.append_cancel_left (List.append_inj' hlist htail).1
  rw [List.append_assoc, List.append_assoc] at hquoted
  have hsame := eq_of_quoted hquoted
  have hpayload : queuePayload E job now = queuePayload E job' now' :=
    String.toList_inj.mp (by rw [hJ, hJ', hsame])
  exact id_of_queuePayload hpayload

end Backbone.Jobs
