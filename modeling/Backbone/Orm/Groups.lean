import Backbone.Orm.ConditionChain
import Backbone.Orm.Cursor

/-!
# Groups of a clause

The clause is a conjunction of groups, each in parentheses whenever there is more than one. A group
whose brackets are its own (`GroupText`) reads in parentheses as it reads alone, so the clause selects
the rows every group holds of, and a keyset predicate behind the clause only narrows that.
-/

namespace Backbone.Orm

open Sql Text

variable {ρ : Type*} {s : String} {rest gs : List String} {M : Meaning ρ} (l : FilterLogical)

/-! ## Groups -/

/-- A group's text can be read in parentheses as it reads on its own. -/
structure GroupText (s : String) : Prop where
  lexes : Lexes s.toList (toks s)
  balanced : Balanced (toks s)
  noQuery : isSubquery (toks s) = false

theorem GroupText.of_lexes {ts : List (Tok ℕ)} (h : Lexes s.toList ts) (hb : Balanced ts)
    (hq : isSubquery ts = false) : GroupText s := by
  rw [← toks_of_lexes h] at hb hq
  exact ⟨toks_of_lexes h ▸ h, hb, hq⟩

theorem GroupText.read_eq (h : GroupText s) : read s = parse (toks s) :=
  read_of_lexes h.lexes

/-- The text in parentheses. -/
def parenText (s : String) : String := "(" ++ s ++ ")"

/-- The tokens of a text in parentheses. -/
def parenToks (s : String) : List (Tok ℕ) := .opening .paren :: (toks s ++ [.closing .paren])

theorem lexes_parenText (h : Lexes s.toList (toks s)) :
    Lexes (parenText s).toList (parenToks s) := by
  simpa [parenText, parenToks] using h.paren

theorem GroupText.operand (h : GroupText s) : Operand (parenToks s) (read s) := by
  rw [h.read_eq]
  exact operand_paren h.balanced h.noQuery

/-- Groups in parentheses with one word between them. -/
def groupsToks (l : FilterLogical) (s : String) (rest : List String) : List (Tok ℕ) :=
  chainToks (parenToks s) (rest.map fun t => (l.link, parenToks t))

theorem lexes_groups (h : Lexes s.toList (toks s))
    (hrest : ∀ t ∈ rest, Lexes t.toList (toks t)) :
    Lexes (join l.text ((s :: rest).map parenText)).toList (groupsToks l s rest) := by
  induction rest generalizing s with
  | nil => simpa [join, groupsToks, chainToks] using lexes_parenText h
  | cons t rest ih =>
    have htail := ih (hrest t List.mem_cons_self) fun x hx => hrest x (List.mem_cons_of_mem _ hx)
    have hall := Lexes.link (lexes_parenText h) htail l
    simpa [join, groupsToks, chainToks] using hall

theorem parse_groups (h : GroupText s) (hrest : ∀ t ∈ rest, GroupText t) :
    parse (groupsToks l s rest) = chainValue (read s) (rest.map fun t => (l.link, read t)) := by
  have hops : ∀ p ∈ rest.map (fun t => (l.link, parenToks t, read t)), Operand p.2.1 p.2.2 := by
    intro p hp
    obtain ⟨t, ht, rfl⟩ := List.mem_map.mp hp
    exact (hrest t ht).operand
  simpa [groupsToks, Function.comp_def] using parse_chain h.operand hops

/-- Groups in parentheses make a group. -/
theorem group_groups (h : GroupText s) (hrest : ∀ t ∈ rest, GroupText t) :
    GroupText (join l.text ((s :: rest).map parenText)) := by
  refine .of_lexes (lexes_groups l h.lexes fun t ht => (hrest t ht).lexes) (balanced_chain h.operand.balanced ?_) ?_
  · intro p hp
    obtain ⟨t, ht, rfl⟩ := List.mem_map.mp hp
    exact (hrest t ht).operand.balanced
  · simp [groupsToks, chainToks, parenToks, isSubquery]

theorem read_groups (h : GroupText s) (hrest : ∀ t ∈ rest, GroupText t) :
    read (join l.text ((s :: rest).map parenText)) =
      chainValue (read s) (rest.map fun t => (l.link, read t)) := by
  rw [read_of_lexes (lexes_groups l h.lexes fun t ht => (hrest t ht).lexes), parse_groups l h hrest]

/-! ## The clause -/

/-- What stands behind WHERE. -/
def bodyOf (gs : List String) : String :=
  match gs with
  | [g] => g
  | gs => join " AND " (gs.map parenText)

theorem whereOf_eq (h : gs ≠ []) : QueryFilter.whereOf gs = " WHERE " ++ bodyOf gs := by
  match gs with
  | [] => exact absurd rfl h
  | [g] => rfl
  | g :: g' :: gs => rfl

theorem group_bodyOf (hne : gs ≠ []) (h : ∀ g ∈ gs, GroupText g) : GroupText (bodyOf gs) := by
  match gs with
  | [] => exact absurd rfl hne
  | [g] => exact h g List.mem_cons_self
  | g :: g' :: gs =>
    exact group_groups .and (h g List.mem_cons_self) fun t ht => h t (List.mem_cons_of_mem _ ht)

variable {ps : List String} {r : ρ}

theorem holds_bodyOf (hne : gs ≠ []) (h : ∀ g ∈ gs, GroupText g) :
    holds M ps (read (bodyOf gs)) r ↔ ∀ g ∈ gs, holds M ps (read g) r := by
  match gs with
  | [] => exact absurd rfl hne
  | [g] => simp [bodyOf]
  | g :: g' :: gs =>
    have hread : read (bodyOf (g :: g' :: gs)) =
        chainValue (read g) ((g' :: gs).map fun t => (Link.and, read t)) :=
      read_groups .and (h g List.mem_cons_self) fun t ht => h t (List.mem_cons_of_mem _ ht)
    have hmap : (g' :: gs).map (fun t => (Link.and, read t)) =
        ((g' :: gs).map read).map fun w => (Link.and, w) := by
      simp
    rw [hread, hmap, holds_chainValue_and]
    simp

/-- A clause selects the rows all its groups hold of. -/
theorem selects_whereOf (h : ∀ g ∈ gs, GroupText g) :
    selects M ps (QueryFilter.whereOf gs) r ↔ ∀ g ∈ gs, holds M ps (read g) r := by
  by_cases hne : gs = []
  · simp [hne, QueryFilter.whereOf, selects_empty]
  · rw [whereOf_eq hne, selects_where (group_bodyOf hne h).lexes, holds_bodyOf hne h]

theorem andKeysetPredicate_empty (k : String) : andKeysetPredicate "" k = " WHERE " ++ k := rfl

theorem andKeysetPredicate_where (s k : String) :
    andKeysetPredicate (" WHERE " ++ s) k = QueryFilter.whereOf [s, k] := by
  have hstrip : stripPrefix (trimStart (" WHERE " ++ s)) "WHERE " = some s := by
    simp [stripPrefix, trimStart, startsWith, isWhitespace]
  apply String.toList_inj.mp
  simp [andKeysetPredicate, hstrip, QueryFilter.whereOf, join]

/-- The keyset predicate only narrows what the clause selects. -/
theorem selects_andKeysetPredicate {k : String}
    (h : ∀ g ∈ gs, GroupText g) (hk : GroupText k) :
    selects M ps (andKeysetPredicate (QueryFilter.whereOf gs) k) r ↔
      (∀ g ∈ gs, holds M ps (read g) r) ∧ holds M ps (read k) r := by
  by_cases hne : gs = []
  · rw [hne, QueryFilter.whereOf, andKeysetPredicate_empty, selects_where hk.lexes]
    simp
  · have hbody := group_bodyOf hne h
    rw [whereOf_eq hne, andKeysetPredicate_where, selects_whereOf (by simp [hbody, hk])]
    simp [holds_bodyOf hne h]

/-! ## Chains as groups -/

/-- A text made of conditions with one placeholder each is a chain. -/
theorem join_eq_chainText {l : FilterLogical} (c : FilterCondition) (rest : List FilterCondition)
    (h : ∀ d ∈ c :: rest, d.slots = 1) (hl : ∀ d ∈ rest, d.logical = l) (k i : ℕ) :
    join l.text (((c :: rest).zipIdx i).map fun x => x.1.sql (k + x.2)) =
      chainText (k + i) c rest := by
  induction rest generalizing c i with
  | nil => rfl
  | cons d rest ih =>
    have hc := h c List.mem_cons_self
    have htail := ih d (fun x hx => h x (List.mem_cons_of_mem _ hx))
      (fun x hx => hl x (List.mem_cons_of_mem _ hx)) (i + 1)
    rw [chainText, hc, hl d List.mem_cons_self, Nat.add_assoc, ← htail]
    simp [join]

variable {rest : List FilterCondition} {cs : List FilterCondition} {c : FilterCondition}

/-- A chain's text is a group. -/
theorem group_chainText (hc : c.WellNamed)
    (hrest : ∀ d ∈ rest, d.WellNamed) (k : ℕ) : GroupText (chainText k c rest) :=
  .of_lexes (lexes_chain hc hrest k) (balanced_chainTokens hc hrest k) (isSubquery_chainTokens hc k)

theorem read_chainText (hc : c.WellNamed)
    (hrest : ∀ d ∈ rest, d.WellNamed) (k : ℕ) :
    read (chainText k c rest) = chainReading k c rest := by
  rw [read_of_lexes (lexes_chain hc hrest k), parse_chainTokens hc hrest k]

/-- A chain's text as a group of the clause. -/
def chainGroup (k : ℕ) : List FilterCondition → List String
  | [] => []
  | c :: rest => [chainText k c rest]

/-- The row satisfies a chain of conditions, AND before OR; no condition asks for nothing. -/
def ConditionsHold (M : Meaning ρ) (r : ρ) : List FilterCondition → Prop
  | [] => True
  | c :: rest => ChainHolds (FilterCondition.Evaluates M) (FilterCondition.HoldsAlone M r) c
      (rest.map fun d => (d.logical.link, d))

theorem group_chainGroup (h : ∀ c ∈ cs, c.WellNamed) (k : ℕ) :
    ∀ g ∈ chainGroup k cs, GroupText g := by
  cases cs with
  | nil => simp [chainGroup]
  | cons c rest =>
    obtain ⟨hc, hrest⟩ := List.forall_mem_cons.mp h
    simpa [chainGroup] using group_chainText hc hrest k

/-- A chain in its place says what its conditions say. -/
theorem holds_chainGroup (h : ∀ c ∈ cs, c.WellNamed)
    (hfull : ∀ c ∈ cs, c.Full) (pre post : List String) :
    (∀ g ∈ chainGroup (1 + pre.length) cs, holds M (pre ++ chainParams cs ++ post) (read g) r) ↔
      ConditionsHold M r cs := by
  cases cs with
  | nil => simp [chainGroup, ConditionsHold]
  | cons c rest =>
    obtain ⟨hc, hrest⟩ := List.forall_mem_cons.mp h
    obtain ⟨hcf, hfull⟩ := List.forall_mem_cons.mp hfull
    rw [chainGroup, List.forall_mem_singleton, read_chainText hc hrest,
      holds_chain hc hrest hcf hfull pre post r, ConditionsHold]

end Backbone.Orm
