import Backbone.Jobs.PgCommand

/-!
# The command as an INSERT

pg_cron executes the command as SQL. It is to be one `INSERT` into the job queue whose literals are
the queue's name and the JSON of the job. The quotes of the JSON are doubled, those of the name are
not, so it is that exactly when the name holds no quote.

Reference: `backbone-jobs/src/pg_cron.rs`.
-/

namespace Backbone.Jobs

open Sql (Insert quoted literals tokensFrom)

variable {π : Type} (E : Texts π) (job : Job π) (now : ℤ)

/-- The command is one `INSERT` into the job queue, its literals the queue's name and the JSON. -/
def InsertsOwnData (E : Texts π) (job : Job π) (now : ℤ) : Prop :=
  ∃ i : Insert, Sql.tokens (generateCronCommand E job now).toList = some i.tokens ∧
    i.table = "job_queue".toList ∧
      i.texts = [job.queue.toList, (queuePayload E job now).toList]

/-- The row of a job. -/
def queueRow (queue payload : List Char) (priority : Char) : Insert where
  table := "job_queue".toList
  columns :=
    ["queue_name".toList, "payload".toList, "priority".toList, "created_at".toList]
  values := [.text queue, .text payload, .number [priority], .call "NOW".toList]
  length_eq := rfl

theorem tokens_queueRow (queue payload : List Char) (priority : Char) :
    (queueRow queue payload priority).tokens =
      [.word "INSERT".toList, .word "INTO".toList, .word "job_queue".toList, .opening .paren,
        .word "queue_name".toList, .comma, .word "payload".toList, .comma, .word "priority".toList,
        .comma, .word "created_at".toList, .closing .paren, .word "VALUES".toList, .opening .paren,
        .str queue, .comma, .str payload, .comma, .word [priority], .comma, .word "NOW".toList,
        .opening .paren, .closing .paren, .closing .paren] := rfl

/-- The command ends inside of the first literal where the queue's name begins. -/
theorem lex_commandHead :
    Sql.lex .idle commandHead.toList = (.str false [],
      [.word "INSERT".toList, .word "INTO".toList, .word "job_queue".toList, .opening .paren,
        .word "queue_name".toList, .comma, .word "payload".toList, .comma, .word "priority".toList,
        .comma, .word "created_at".toList, .closing .paren, .word "VALUES".toList,
        .opening .paren]) := by
  decide +kernel

/-- Behind the quote in front of the first literal the command goes on with its characters. -/
theorem toList_generateCronCommand :
    (generateCronCommand E job now).toList =
      commandHead.toList ++ (job.queue.toList ++ ("', '".toList ++
        (quoted (queuePayload E job now).toList ++ (commandTail job.priority).toList))) := by
  simp [generateCronCommand, doubleQuotes_eq_quoted]

theorem tokensFrom_commandTail (priority : JobPriority) (s : List Char) :
    tokensFrom (.str false s) (commandTail priority).toList =
      some [.str s, .comma, .word [priority.toDigit], .comma, .word "NOW".toList, .opening .paren,
        .closing .paren, .closing .paren] := by
  cases priority <;> rfl

/-- A name without quotes is read as it is. -/
theorem insertsOwnData_of_not_mem {job : Job π}
    (h : '\'' ∉ job.queue.toList) : InsertsOwnData E job now := by
  refine ⟨queueRow job.queue.toList (queuePayload E job now).toList job.priority.toDigit, ?_, rfl,
    rfl⟩
  have hqueue : Sql.lex (.str false []) job.queue.toList = (.str false job.queue.toList, []) := by
    have := Sql.lex_quoted job.queue.toList []
    rwa [Sql.quoted_eq_self h] at this
  have hbetween : Sql.lex (.str false job.queue.toList) "', '".toList =
      (.str false [], [.str job.queue.toList, .comma]) := rfl
  rw [toList_generateCronCommand, Sql.tokens_eq, Sql.tokensFrom_append, lex_commandHead,
    Sql.tokensFrom_append, hqueue, Sql.tokensFrom_append, hbetween, Sql.tokensFrom_append,
    Sql.lex_quoted, tokensFrom_commandTail, tokens_queueRow]
  simp only [Option.map_some, List.nil_append, List.cons_append]

/-- Quotes before a name and what follows it are not the quoted name and its closing quote. -/
theorem append_ne_quoted {X more : List Char} (hX : ∀ r, X ≠ '\'' :: '\'' :: r) (b : List Char) :
    ∀ k, b ++ X ≠ List.replicate (k + 1) '\'' ++ (quoted b ++ '\'' :: more) := by
  induction b with
  | nil =>
    intro k h
    cases k with
    | zero => exact hX _ h
    | succ k => exact hX _ (by rw [← List.nil_append X, h]; rfl)
  | cons c b ih =>
    intro k h
    have hc : c = '\'' := (List.cons.inj h).1
    subst hc
    -- The doubled quote of the name joins those in front of it.
    refine ih (k + 1) ((List.cons.inj h).2.trans ?_)
    rw [Sql.quoted_cons_quote, List.replicate_succ' (n := k + 1), List.replicate_succ']
    simp

/-- A name with a quote is not what its literal is read as. -/
theorem not_insertsOwnData (h : '\'' ∈ job.queue.toList) : ¬ InsertsOwnData E job now := by
  rintro ⟨i, htokens, -, htexts⟩
  rw [toList_generateCronCommand, Sql.tokens_eq, Sql.tokensFrom_append, lex_commandHead,
    Option.map_eq_some_iff] at htokens
  obtain ⟨ts, hts, heq⟩ := htokens
  have hliterals : literals ts = job.queue.toList :: [(queuePayload E job now).toList] := by
    rw [← htexts, ← Sql.literals_insert, ← heq, Sql.literals_append]
    rfl
  obtain ⟨t, more, hcommand, hqueue⟩ := (Sql.exists_of_literals_str _ _ _ _ _ hliterals).1 hts
  rw [List.nil_append] at hqueue
  subst hqueue
  obtain ⟨a, b, hab, ha⟩ := List.eq_append_cons_of_mem h
  rw [hab, Sql.quoted_append, Sql.quoted_eq_self ha, Sql.quoted_cons_quote, List.append_assoc,
    List.append_assoc, List.append_cancel_left_eq] at hcommand
  refine append_ne_quoted (X := "', '".toList ++ _) (fun r hr => ?_) b 0 (List.cons.inj hcommand).2
  exact absurd (List.cons.inj (List.cons.inj hr).2).1 (by decide)

/-- The command is the job's own `INSERT` exactly when the queue's name holds no quote. -/
theorem command_inserts_iff (E : Texts π) (job : Job π) (now : ℤ) :
    InsertsOwnData E job now ↔ '\'' ∉ job.queue.toList :=
  ⟨fun h hmem => not_insertsOwnData E job now hmem h, insertsOwnData_of_not_mem E now⟩


/-- `serde_json`'s text of the null payload, at the epoch. -/
def nullTexts : Texts Unit := ⟨fun _ => "null", fun _ => "1970-01-01T00:00:00+00:00"⟩

/-- A queue whose name ends the first literal, the row and the statement. -/
theorem not_inserts_injected :
    ¬ ∀ (job : Job Unit) (now : ℤ), InsertsOwnData nullTexts job now := fun h =>
  not_insertsOwnData nullTexts (.new "1" "report" "0 12 * * *"
    "q', '\x7b\x7d', 0, NOW()); DROP TABLE job_queue; --" ()) 0 (by decide) (h _ 0)

end Backbone.Jobs
