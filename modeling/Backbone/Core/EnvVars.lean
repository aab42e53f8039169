import Mathlib.Data.List.TakeWhile
import Backbone.Lib.Blocks

/-!
# Environment variables in configuration files

`substitute_env_vars` edits the text while it walks an index through it. Its result is that of one
pass over the text in which each placeholder is replaced by what its content stands for;
`parse_var_content` looks for `:-` before it looks for `:`, and so takes a default with `:-` in it
apart at the wrong place.

Texts are lists of characters, and an index counts characters: the source's byte indices stand next
to ASCII characters only. An environment answers as `std::env::var` does.

Reference: `backbone-core/src/config/loader.rs`.
-/

namespace Backbone.Core.Config

open Blocks

/-- `std::env::VarError`. -/
inductive VarError where
  | notPresent
  | notUnicode
deriving DecidableEq, Repr

/-- `std::env::var`. -/
abbrev Env := String → Except VarError String

/-- No variable is set. -/
def Env.none : Env := fun _ => .error .notPresent

/-! ## The code -/

def parseVarContent (content : List Char) : List Char × Option (List Char) :=
  -- ${VAR:-default}
  match find [':', '-'] content with
  | some pos => (content.take pos, some (content.drop (pos + 2)))
  | none =>
    -- ${VAR:default}
    match find [':'] content with
    | some pos => (content.take pos, some (content.drop (pos + 1)))
    | none => (content, none)

/-- The loop of `substitute_env_vars`. -/
def substituteFrom (env : Env) (result : List Char) (start : ℕ) : List Char :=
  match hopen : find ['$', '{'] (result.drop start) with
  | none => result
  | some varStart =>
    let absStart := start + varStart
    match hclose : find ['}'] (result.drop absStart) with
    | none => substituteFrom env result (absStart + 2)
    | some pos =>
      let varEnd := absStart + pos
      let varContent := (result.take varEnd).drop (absStart + 2)
      let (varName, defaultValue) := parseVarContent varContent
      let value? := match env (String.ofList varName) with
        | .ok val => some val.toList
        | .error _ => defaultValue
      match value? with
      | some value =>
        substituteFrom env (result.take absStart ++ value ++ result.drop (varEnd + 1))
          (absStart + value.length)
      | none => substituteFrom env result (varEnd + 1)
termination_by result.length - start
decreasing_by
  all_goals
    have hopened := length_of_find hopen
    rw [List.length_drop, List.length_cons, List.length_cons, List.length_nil] at hopened
  · omega
  · have hclosed := length_of_find hclose
    rw [List.length_drop, List.length_cons, List.length_nil] at hclosed
    simp only [List.length_append, List.length_take, List.length_drop]
    omega
  · have hclosed := length_of_find hclose
    rw [List.length_drop, List.length_cons, List.length_nil] at hclosed
    omega

/-- It never fails. -/
def substituteEnvVars {ConfigError : Type} (env : Env) (content : String) :
    Except ConfigError String :=
  .ok (String.ofList (substituteFrom env content.toList 0))

/-! ## One pass -/

/-- `${` and `}`. -/
def dollarBraces : Delims Char := ⟨'$', '{', '}'⟩

/-- What stands behind the name is the default, without a dash right behind the colon. -/
def defaultOf : List Char → Option (List Char)
  | [] => none
  | _ :: '-' :: default => some default
  | _ :: default => some default

/-- The name of a placeholder ends at its first colon. -/
def nameAndDefault (content : List Char) : List Char × Option (List Char) :=
  (content.takeWhile (· ≠ ':'), defaultOf (content.dropWhile (· ≠ ':')))

/-- What a placeholder is replaced by, read as a name and a default. -/
def value (env : Env) (read : List Char → List Char × Option (List Char)) (content : List Char) :
    List Char :=
  match env (String.ofList (read content).1) with
  | .ok val => val.toList
  | .error _ => (read content).2.getD ('$' :: '{' :: (content ++ ['}']))

/-- All placeholders are replaced at once. -/
def onePass (env : Env) (content : String) : String :=
  String.ofList (pass dollarBraces (value env nameAndDefault) content.toList)

/-! ## The loop is one pass -/

theorem drop_length_add (front a l : List Char) :
    (front ++ (a ++ l)).drop (front.length + a.length) = l := by
  rw [← List.append_assoc, ← List.length_append, List.drop_left]

theorem take_length_add (front a l : List Char) :
    (front ++ (a ++ l)).take (front.length + a.length) = front ++ a := by
  rw [← List.append_assoc, ← List.length_append, List.take_left]

section Loop

variable {env : Env} {front a r content after : List Char}

theorem substituteFrom_unclosed (hopen : find ['$', '{'] (a ++ '$' :: '{' :: r) = some a.length)
    (h : '}' ∉ r) :
    substituteFrom env (front ++ (a ++ '$' :: '{' :: r)) front.length =
      substituteFrom env ((front ++ a ++ ['$', '{']) ++ r) (front ++ a ++ ['$', '{']).length := by
  have hclose : find ['}'] ('$' :: '{' :: r) = none := find_one_of_notMem (by simp [h])
  rw [substituteFrom]
  split
  · rename_i hnone
    rw [List.drop_left, hopen] at hnone
    cases hnone
  · rename_i varStart hsome
    rw [List.drop_left, hopen] at hsome
    obtain rfl := Option.some.inj hsome
    dsimp only
    split
    · simp [Nat.add_assoc]
    · rename_i pos hpos
      rw [drop_length_add, hclose] at hpos
      cases hpos

/-- Whether a placeholder is replaced or kept, the loop goes on behind what stands in its place. -/
theorem substituteFrom_closed
    (hopen : find ['$', '{'] (a ++ '$' :: '{' :: (content ++ '}' :: after)) = some a.length)
    (h : '}' ∉ content) :
    substituteFrom env (front ++ (a ++ '$' :: '{' :: (content ++ '}' :: after))) front.length =
      substituteFrom env ((front ++ a ++ value env parseVarContent content) ++ after)
        (front ++ a ++ value env parseVarContent content).length := by
  have hclose : find ['}'] ('$' :: '{' :: (content ++ '}' :: after)) = some (content.length + 2) :=
    find_one (a := '$' :: '{' :: content) (by simp [h]) after
  rw [substituteFrom]
  split
  · rename_i hnone
    rw [List.drop_left, hopen] at hnone
    cases hnone
  · rename_i varStart hsome
    rw [List.drop_left, hopen] at hsome
    obtain rfl := Option.some.inj hsome
    dsimp only
    split
    · rename_i hnone
      rw [drop_length_add, hclose] at hnone
      cases hnone
    · rename_i pos hpos
      rw [drop_length_add, hclose] at hpos
      obtain rfl := Option.some.inj hpos
      have hcontent : ((front ++ (a ++ '$' :: '{' :: (content ++ '}' :: after))).take
          (front.length + a.length + (content.length + 2))).drop (front.length + a.length + 2) =
            content := by
        have hsplit : front ++ (a ++ '$' :: '{' :: (content ++ '}' :: after)) =
            (front ++ a ++ ['$', '{']) ++ (content ++ '}' :: after) := by simp
        rw [List.drop_take, hsplit, List.drop_left' (by simp [Nat.add_assoc])]
        exact List.take_left' (by omega)
      have hafter : (front ++ (a ++ '$' :: '{' :: (content ++ '}' :: after))).drop
          (front.length + a.length + (content.length + 2) + 1) = after := by
        have hsplit : front ++ (a ++ '$' :: '{' :: (content ++ '}' :: after)) =
            (front ++ a ++ '$' :: '{' :: (content ++ ['}'])) ++ after := by simp
        rw [hsplit]
        refine List.drop_left' ?_
        simp only [List.length_append, List.length_cons, List.length_nil]
        omega
      rw [hcontent, hafter, take_length_add]
      obtain ⟨name, default, hparse⟩ : ∃ name default, parseVarContent content = (name, default) :=
        ⟨_, _, rfl⟩
      rw [value, hparse]
      dsimp only
      cases env (String.ofList name) with
      | ok val => simp [Nat.add_assoc]
      | error e =>
        cases default with
        | some default => simp [Nat.add_assoc]
        | none => simp [Nat.add_assoc]

end Loop

/-- From an index on, the loop leaves what one pass over the rest leaves. -/
theorem substituteFrom_eq (env : Env) (front l : List Char) :
    substituteFrom env (front ++ l) front.length =
      front ++ pass dollarBraces (value env parseVarContent) l := by
  set f := value env parseVarContent with hf
  induction hn : l.length using Nat.strong_induction_on generalizing front l with
  | _ n ih =>
    cases hopen : find ['$', '{'] l with
    | none =>
      rw [substituteFrom, pass_of_find_none hopen]
      split
      · rfl
      · rename_i hsome
        rw [List.drop_left, hopen] at hsome
        cases hsome
    | some k =>
      obtain ⟨a, r, rfl, rfl, hpass⟩ : ∃ a r, l = a ++ '$' :: '{' :: r ∧ a.length = k ∧
          pass dollarBraces f l = a ++ pass dollarBraces f ('$' :: '{' :: r) :=
        pass_of_find (d := dollarBraces) hopen
      rw [hpass]
      by_cases hclose : '}' ∈ r
      · obtain ⟨content, after, rfl, hcontent⟩ := List.eq_append_cons_of_mem hclose
        have hblock : pass dollarBraces f ('$' :: '{' :: (content ++ '}' :: after)) =
            f content ++ pass dollarBraces f after := pass_block hcontent after
        have hlen : after.length < n := by
          simp only [← hn, List.length_append, List.length_cons]
          omega
        rw [substituteFrom_closed hopen hcontent, ih _ hlen _ _ rfl, hblock, ← hf]
        simp only [List.append_assoc]
      · have hunclosed : pass dollarBraces f ('$' :: '{' :: r) =
            '$' :: '{' :: pass dollarBraces f r := pass_unclosed hclose
        have hlen : r.length < n := by
          simp only [← hn, List.length_append, List.length_cons]
          omega
        rw [substituteFrom_unclosed hopen hclose, ih _ hlen _ _ rfl, hunclosed]
        simp only [List.append_assoc, List.cons_append, List.nil_append]

/-! ## Two ways to read a placeholder -/

/-- `:-` stands in the placeholder only behind its name. -/
def DashFirst (content : List Char) : Prop :=
  [':', '-'] <:+: content → [':', '-'] <+: content.dropWhile (· ≠ ':')

instance (content : List Char) : Decidable (DashFirst content) :=
  inferInstanceAs (Decidable (_ → _))

theorem dropWhile_colon {n : List Char} (h : ':' ∉ n) (l : List Char) :
    (n ++ ':' :: l).dropWhile (· ≠ ':') = ':' :: l ∧ (n ++ ':' :: l).takeWhile (· ≠ ':') = n := by
  have hn : ∀ x ∈ n, decide (x ≠ ':') = true := by
    intro x hx
    rw [decide_eq_true_iff]
    rintro rfl
    exact h hx
  rw [List.dropWhile_append_of_pos hn, List.takeWhile_append_of_pos hn,
    List.dropWhile_cons_of_neg (by decide), List.takeWhile_cons_of_neg (by decide), List.append_nil]
  exact ⟨rfl, rfl⟩

theorem defaultOf_of_not_dash {rest : List Char} (h : ∀ default, rest ≠ '-' :: default) :
    defaultOf (':' :: rest) = some rest := by
  unfold defaultOf
  split
  · rename_i hnil
    cases hnil
  · rename_i default heq
    exact absurd (List.cons.inj heq).2 (h default)
  · rename_i heq
    rw [(List.cons.inj heq).2]

/-- The two readings agree, or the name takes a part of the default. -/
theorem parse_cases (content : List Char) :
    DashFirst content ∧ parseVarContent content = nameAndDefault content ∨
      ¬ DashFirst content ∧ ∃ n a b, parseVarContent content = (n ++ ':' :: a, some b) ∧
        nameAndDefault content = (n, some (a ++ ':' :: '-' :: b)) := by
  by_cases hcolon : ':' ∈ content
  · obtain ⟨n, rest, rfl, hn⟩ := List.eq_append_cons_of_mem hcolon
    obtain ⟨hdrop, htake⟩ := dropWhile_colon hn rest
    have hfind : find [':', '-'] (n ++ ':' :: rest) = _ := find_append hn (':' :: rest)
    have hsecond : find [':'] (n ++ ':' :: rest) = some n.length := find_one hn rest
    rw [DashFirst, parseVarContent, nameAndDefault, hdrop, htake, hfind, hsecond, find]
    by_cases hdash : [':', '-'] <+: ':' :: rest
    · left
      refine ⟨fun _ => hdash, ?_⟩
      obtain ⟨default, hdefault⟩ := hdash
      obtain rfl : '-' :: default = rest := (List.cons.inj hdefault).2
      simp [defaultOf]
    · have hrest : ∀ default, rest ≠ '-' :: default := by
        rintro default rfl
        exact hdash ⟨default, rfl⟩
      rw [if_neg hdash, defaultOf_of_not_dash hrest]
      cases hlater : find [':', '-'] rest with
      | none =>
        left
        refine ⟨fun hinfix => ?_, by simp⟩
        refine absurd hinfix (not_infix_of_find ?_)
        rw [hfind, find, if_neg hdash, hlater]
        rfl
      | some k =>
        obtain ⟨a, b, rfl, rfl⟩ := eq_of_find hlater
        refine .inr ⟨fun hall => hdash (hall ⟨n ++ ':' :: a, b, by simp⟩), n, a, b, ?_, rfl⟩
        have hname : n ++ ':' :: (a ++ ([':', '-'] ++ b)) = (n ++ ':' :: a) ++ ([':', '-'] ++ b) := by
          simp
        have hlen : (n ++ ':' :: a).length = a.length + 1 + n.length := by
          simp only [List.length_append, List.length_cons]
          omega
        rw [Option.map_some, Option.map_some, hname, ← hlen]
        dsimp only
        rw [List.take_left, List.drop_append]
        simp
  · left
    refine ⟨fun hin => absurd (hin.subset List.mem_cons_self) hcolon, ?_⟩
    have hdrop : content.dropWhile (· ≠ ':') = [] := by
      rw [List.dropWhile_eq_nil_iff]
      intro x hx
      rw [decide_eq_true_iff]
      rintro rfl
      exact hcolon hx
    have htake : content.takeWhile (· ≠ ':') = content := by
      have hboth := List.takeWhile_append_dropWhile (p := (· ≠ ':')) (l := content)
      rwa [hdrop, List.append_nil] at hboth
    rw [parseVarContent, nameAndDefault, find_eq_none hcolon, find_one_of_notMem hcolon, hdrop, htake]
    rfl

theorem value_congr {content : List Char} (h : DashFirst content) (env : Env) :
    value env parseVarContent content = value env nameAndDefault content := by
  rcases parse_cases content with ⟨-, heq⟩ | ⟨hnot, -⟩
  · rw [value, value, heq]
  · exact absurd h hnot

theorem length_value_lt {content : List Char} (h : ¬ DashFirst content) :
    (value .none parseVarContent content).length < (value .none nameAndDefault content).length := by
  rcases parse_cases content with ⟨hyes, -⟩ | ⟨-, n, a, b, hparse, hread⟩
  · exact absurd hyes h
  · rw [value, value, hparse, hread]
    simp only [Env.none, Option.getD_some, List.length_append, List.length_cons]
    omega

/-- A configuration becomes what one pass makes of it, in every environment, exactly if each
placeholder that has `:-` in it has it at its first colon. In the empty environment every other one
becomes something else. -/
theorem substitutes_iff {ConfigError : Type} (content : String) :
    (∀ env, substituteEnvVars env content = (.ok (onePass env content) : Except ConfigError String)) ↔
      ∀ placeholder, .block placeholder ∈ pieces dollarBraces content.toList →
        DashFirst placeholder := by
  have hpass (env : Env) : (substituteEnvVars env content : Except ConfigError String) =
      .ok (String.ofList (pass dollarBraces (value env parseVarContent) content.toList)) :=
    congrArg (fun l => Except.ok (String.ofList l)) (substituteFrom_eq env [] content.toList)
  constructor
  · intro h placeholder hmem
    by_contra hnot
    have hnone := h .none
    rw [hpass, onePass, Except.ok.injEq, String.ofList_inj] at hnone
    refine pass_ne_of_shorter (fun other => ?_) hmem (length_value_lt hnot) hnone
    by_cases hother : DashFirst other
    · rw [value_congr hother]
    · exact (length_value_lt hother).le
  · intro h env
    rw [hpass, onePass, pass_congr fun placeholder hmem => value_congr (h placeholder hmem) env]

/-- An address as the default, with `:-` in it. -/
theorem not_substitutes :
    ¬ ∀ {ConfigError : Type} (content : String) (env : Env),
      substituteEnvVars env content = (.ok (onePass env content) : Except ConfigError String) := by
  intro h
  have heq := @h Unit "${RANGE:1:-9}" .none
  have hcode : substituteEnvVars .none "${RANGE:1:-9}" = (.ok "9" : Except Unit String) := by
    decide +kernel
  have hpass : onePass .none "${RANGE:1:-9}" = "1:-9" := by
    decide +kernel
  rw [hcode, hpass] at heq
  exact absurd heq (by decide)

end Backbone.Core.Config
