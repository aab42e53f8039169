import Backbone.Orm.QueryBuilder

/-!
# What a built query selects

A sequence of `where` calls on a builder without conditions. When no call was given more than one
value and no condition has an OR outside its brackets, the query says what the calls say
(`says_calls`): its placeholders are numbered in a row from 1, each parameter is the value its
placeholder was given for, and the rows of its clause are the rows that satisfy every condition
on its own. An IN list without values adds no condition. A call that was given more than one value
always leaves a placeholder without a parameter, `values_length_le`.
-/

namespace Backbone.Orm.QueryBuilder

open Sql Text

/-! ## What may be written -/

/-- A field: a text without placeholders that can be compared with something. -/
structure FieldText (f : String) : Prop where
  lexes : Lexes f.toList (toks f)
  holes : holes (toks f) = []
  reads : ∀ op us, isOperator op → Grows (op :: us) → (parse (toks f ++ op :: us)).isSome

/-- A raw condition with the placeholder numbered `n`, once or more often. -/
structure RawText (n : ℕ) (s : String) : Prop where
  lexes : Lexes s.toList (toks s)
  holes : ∀ m, m ∈ holes (toks s) ↔ m = n
  reads : (parse (toks s)).isSome

/-- The call is given a field it can compare, or a raw condition with its own placeholder. -/
def Call.Written (n : ℕ) : Call → Prop
  | .whereEq field _ | .whereNe field _ | .whereGt field _ | .whereLt field _ |
    .whereLike field _ | .whereIn field _ => FieldText field
  | .whereRaw condition _ => RawText n condition

/-- A builder without conditions, whose other texts have no placeholders. -/
structure Bare (b : QueryBuilder) : Prop where
  conditions : b.conditions = []
  nextParamId : b.nextParamId = 1
  head : Lexes b.headSql.toList (toks b.headSql)
  head_holes : holes (toks b.headSql) = []
  tail : Lexes b.tailSql.toList (toks b.tailSql)
  tail_holes : holes (toks b.tailSql) = []

variable {f : String}

/-- A name, with or without a table in front of it, is a field. -/
theorem fieldText_of_plain (hlex : Lexes f.toList (toks f)) (hne : toks f ≠ [])
    (hplain : ∀ t ∈ toks f, Plain t) (hholes : Sql.holes (toks f) = []) : FieldText f := by
  refine ⟨hlex, hholes, fun op us _ hgrows => ?_⟩
  have hname := run_plain (f := {}) rfl hne hplain []
  have hclosed := (caseClosed_of_plain hne hplain).grow {}
  have hrest := hgrows.runs (Frame.grow {} (toks f)) (by simpa [Frame.grow] using hne) hclosed
    rfl rfl []
  have hrun : State.run {} (toks f ++ op :: us) =
      some ⟨(Frame.grow {} (toks f)).grow (op :: us), []⟩ := by
    rw [State.run_append, hname, Option.bind_some, hrest]
  rw [parse, hrun, Frame.grow_grow]
  simp [Frame.value, Frame.conjoined, Frame.operand, Frame.grow]

/-- A new builder has no conditions; its table is any name. -/
theorem bare_new {table : String} (hlex : Lexes (new table).headSql.toList (toks (new table).headSql))
    (hholes : holes (toks (new table).headSql) = []) : Bare (new table) :=
  ⟨rfl, rfl, hlex, hholes, rfl, rfl⟩

/-! ## The text of one condition -/

/-- What the texts of the conditions have in common. -/
structure ConditionText (n len : ℕ) (s : String) : Prop where
  lexes : Lexes s.toList (toks s)
  holes : ∀ m, m ∈ holes (toks s) ↔ n ≤ m ∧ m < n + len
  reads : (parse (toks s)).isSome

theorem ConditionText.of_lexes {n len : ℕ} {s : String} {ts : List (Tok ℕ)}
    (h : Lexes s.toList ts) (hholes : ∀ m, m ∈ Sql.holes ts ↔ n ≤ m ∧ m < n + len)
    (hreads : (parse ts).isSome) : ConditionText n len s := by
  rw [← toks_of_lexes h] at hholes hreads
  exact ⟨toks_of_lexes h ▸ h, hholes, hreads⟩

/-- A field compared with a placeholder. -/
theorem conditionText_compare (h : FieldText f) (op : String) (t : Tok ℕ)
    (hlex : Lexes op.toList [t]) (hop : isOperator t) (hplain : Plain t) (n : ℕ) :
    ConditionText n 1 (compareText op f n) := by
  have htoks : Lexes (compareText op f n).toList (toks f ++ [t, .hole n]) := by
    have hall := h.lexes.space (hlex.space (lexes_hole n))
    simpa [compareText, holeText] using hall
  have hgrows : Grows [t, .hole n] := by
    refine grows_plain (by simp) fun u hu => ?_
    rcases List.mem_cons.mp hu with rfl | hu
    · exact hplain
    · rw [List.mem_singleton.mp hu]
      exact FilterCondition.plain_hole n
  have ht : Sql.holes [t] = [] := by
    cases t with
    | hole m => cases hop
    | _ => rfl
  refine .of_lexes htoks (fun m => ?_) (h.reads t _ hop hgrows)
  rw [holes_append, h.holes, holes_cons, ht]
  simp only [Sql.holes, List.filterMap_cons, List.filterMap_nil, List.nil_append,
    List.mem_singleton]
  omega

/-- The placeholders of an IN list. -/
def listToks (len n : ℕ) : List (Tok ℕ) :=
  commaToks ((List.range len).map fun i => [.hole (n + i)])

theorem holes_listToks (len n : ℕ) : Sql.holes (listToks len n) = (List.range len).map (n + ·) := by
  rw [listToks, FilterCondition.holes_commaToks, List.flatMap_map, List.map_eq_flatMap]
  rfl

/-- A field looked for in a list of placeholders. -/
theorem conditionText_in (h : FieldText f) (len n : ℕ) : ConditionText n len (inText f len n) := by
  have hlist : Lexes (join ", " ((List.range len).map fun i => "$" ++ toString (n + i))).toList
      (listToks len n) := by
    have hparts := lexes_commas ((List.range len).map fun i =>
      ("$" ++ toString (n + i), [.hole (n + i)])) (by
        intro p hp
        obtain ⟨i, -, rfl⟩ := List.mem_map.mp hp
        simpa [holeText] using lexes_hole (n + i))
    simpa [Function.comp_def, listToks] using hparts
  have hword : Lexes "IN".toList [kw "IN"] := rfl
  have htoks : Lexes (inText f len n).toList
      (toks f ++ kw "IN" :: .opening .paren :: (listToks len n ++ [.closing .paren])) := by
    have hall := h.lexes.space (hword.space hlist.paren)
    simpa [inText] using hall
  have hplain : ∀ t ∈ listToks len n, Plain t := by
    refine plain_commaToks fun ts hts t ht => ?_
    obtain ⟨i, -, rfl⟩ := List.mem_map.mp hts
    rw [List.mem_singleton.mp ht]
    exact FilterCondition.plain_hole (n + i)
  have hin : Grows [kw "IN"] := grows_plain (by simp) (by decide)
  have hgrows : Grows (kw "IN" :: .opening .paren :: (listToks len n ++ [.closing .paren])) :=
    hin.append (grows_bracket (balanced_of_plain hplain) .paren)
  refine .of_lexes htoks (fun m => ?_) (h.reads _ _ (by decide) hgrows)
  have hparens (ts : List (Tok ℕ)) :
      Sql.holes (kw "IN" :: .opening .paren :: (ts ++ [.closing .paren])) = Sql.holes ts := by
    simp [Sql.holes, kw]
  rw [holes_append, h.holes, hparens, holes_listToks]
  simp only [List.nil_append, List.mem_map, List.mem_range]
  constructor
  · rintro ⟨i, hi, rfl⟩
    omega
  · rintro ⟨hle, hlt⟩
    exact ⟨m - n, by omega, by omega⟩

/-- The condition of a call that may be written. -/
theorem Call.Written.text {n : ℕ} {c : Call} (h : c.Written n) :
    ConditionText n c.values.length (c.text n) := by
  cases c with
  | whereEq f v =>
    exact conditionText_compare h "=" (.sym ['=']) rfl (by decide) (by decide) n
  | whereNe f v =>
    exact conditionText_compare h "!=" (.sym ['!', '=']) rfl (by decide) (by decide) n
  | whereGt f v =>
    exact conditionText_compare h ">" (.sym ['>']) rfl (by decide) (by decide) n
  | whereLt f v =>
    exact conditionText_compare h "<" (.sym ['<']) rfl (by decide) (by decide) n
  | whereLike f v =>
    exact conditionText_compare h "LIKE" (kw "LIKE") rfl (by decide) (by decide) n
  | whereIn f vs => exact conditionText_in h vs.length n
  | whereRaw s v =>
    have hraw : RawText n s := h
    refine ⟨hraw.lexes, fun m => ?_, hraw.reads⟩
    have hholes : m ∈ Sql.holes (toks s) ↔ m = n := hraw.holes m
    rw [Call.text, hholes, Call.values, List.length_singleton]
    omega

/-! ## The text of the query -/

/-- The calls that add a condition, each with the number of its placeholder. -/
def adding (calls : List Call) : List (ℕ × Call) :=
  (numbered 1 calls).filter fun p => !p.2.values.isEmpty

theorem mem_adding {calls : List Call} {p : ℕ × Call} :
    p ∈ adding calls ↔ p ∈ numbered 1 calls ∧ p.2.values ≠ [] := by
  simp [adding]

/-- The tokens of conditions with AND between them. -/
def bodyToks : List String → List (Tok ℕ)
  | [] => []
  | s :: rest => chainToks (toks s) (rest.map fun t => (Link.and, toks t))

theorem lexes_body {s : String} {rest : List String} (hs : Lexes s.toList (toks s))
    (hrest : ∀ t ∈ rest, Lexes t.toList (toks t)) :
    Lexes (join " AND " (s :: rest)).toList (bodyToks (s :: rest)) := by
  induction rest generalizing s with
  | nil => simpa [join, bodyToks, chainToks] using hs
  | cons t rest ih =>
    obtain ⟨ht, hrest⟩ := List.forall_mem_cons.mp hrest
    have hand : Lexes "AND".toList [Link.and.tok] := rfl
    have hall := hs.space (hand.space (ih ht hrest))
    simpa [join, bodyToks, chainToks] using hall

theorem holes_bodyToks (texts : List String) :
    Sql.holes (bodyToks texts) = texts.flatMap fun s => Sql.holes (toks s) := by
  have hand : Sql.holes [Link.and.tok] = [] := rfl
  cases texts with
  | nil => rfl
  | cons s rest =>
    rw [bodyToks, chainToks, holes_append, List.flatMap_cons]
    congr 1
    induction rest with
    | nil => rfl
    | cons t rest ih =>
      rw [List.map_cons, List.flatMap_cons, holes_append, ih, holes_cons, hand, List.flatMap_cons]
      rfl

/-- A text that ends, or goes on behind a blank. -/
theorem Lexes.tail {s t : List Char} {ts us : List (Tok ℕ)} (hs : Lexes s ts) (ht : Lexes t us)
    (hblank : ∀ c cs, t = c :: cs → c = ' ') : Lexes (s ++ t) (ts ++ us) := by
  cases t with
  | nil =>
    obtain rfl : [] = us := Option.some.inj ht
    simpa using hs
  | cons c cs =>
    obtain rfl := hblank c cs rfl
    exact hs.space ht

section Query

variable {b : QueryBuilder} (hb : Bare b) {calls : List Call}
include hb

theorem conditions_run :
    (run b calls).conditions = (numbered 1 calls).flatMap fun p => p.2.added p.1 := by
  rw [run_eq, hb.conditions, hb.nextParamId, List.nil_append]

/-- The conditions of the calls, in order. -/
theorem whereSql_run :
    (run b calls).whereSql = if (adding calls).isEmpty then "" else
      " WHERE " ++ join " AND " ((adding calls).map fun p => p.2.text p.1) := by
  have htexts : (run b calls).conditions.map Prod.fst =
      (adding calls).map fun p => p.2.text p.1 := by
    rw [conditions_run hb, map_fst_added, adding]
  have hempty : (run b calls).conditions.isEmpty = (adding calls).isEmpty := by
    rw [← List.isEmpty_map (f := Prod.fst), htexts, List.isEmpty_map]
  rw [whereSql, hempty, htexts]

variable (hw : ∀ p ∈ numbered 1 calls, p.2.Written p.1)
include hw

omit hb in
theorem conditionText_of_mem {p : ℕ × Call} (hp : p ∈ adding calls) :
    ConditionText p.1 p.2.values.length (p.2.text p.1) :=
  (hw p (mem_adding.mp hp).1).text

omit hb in
/-- The conditions with AND between them lex to their tokens. -/
theorem lexes_adding (hne : adding calls ≠ []) :
    Lexes (join " AND " ((adding calls).map fun p => p.2.text p.1)).toList
      (bodyToks ((adding calls).map fun p => p.2.text p.1)) := by
  have hlexes : ∀ t ∈ (adding calls).map (fun p => p.2.text p.1), Lexes t.toList (toks t) := by
    intro t ht
    obtain ⟨q, hq, rfl⟩ := List.mem_map.mp ht
    exact (conditionText_of_mem hw hq).lexes
  obtain ⟨p, rest, hadd⟩ := List.exists_cons_of_ne_nil hne
  rw [hadd, List.map_cons] at hlexes ⊢
  obtain ⟨hp, hrest⟩ := List.forall_mem_cons.mp hlexes
  exact lexes_body hp hrest

/-- The tokens of the clause. -/
theorem lexes_whereSql : ∃ ts, Lexes (run b calls).whereSql.toList ts ∧
    ∀ m, m ∈ Sql.holes ts ↔ 1 ≤ m ∧ m < 1 + (given calls).length := by
  have hnumbers (m : ℕ) : (∃ p ∈ adding calls, p.1 ≤ m ∧ m < p.1 + p.2.values.length) ↔
      1 ≤ m ∧ m < 1 + (given calls).length := by
    rw [← exists_numbered]
    refine exists_congr fun p => ?_
    rw [mem_adding, and_assoc]
    refine and_congr_right fun _ => and_iff_right_of_imp fun hlt => ?_
    rintro hnil
    rw [hnil, List.length_nil] at hlt
    omega
  rw [whereSql_run hb]
  by_cases hadd : adding calls = []
  · refine ⟨[], by simp [hadd, lexes_nil], fun m => ?_⟩
    rw [← hnumbers, hadd]
    simp
  · have hwhere : Lexes "WHERE".toList [kw "WHERE"] := rfl
    have hall := lexes_nil.space (hwhere.space (lexes_adding hw hadd))
    refine ⟨_, by simpa [hadd] using hall, fun m => ?_⟩
    have hkw (ts : List (Tok ℕ)) : Sql.holes (kw "WHERE" :: ts) = Sql.holes ts := by
      simp [Sql.holes, kw]
    rw [← hnumbers, hkw, holes_bodyToks, List.flatMap_map, List.mem_flatMap]
    refine exists_congr fun q => and_congr_right fun hq => ?_
    exact (conditionText_of_mem hw hq).holes m

/-- The placeholders of the whole query are those of the conditions, whatever the calls are given. -/
theorem placeholders_buildSql :
    Lexes (run b calls).buildSql.toList (toks (run b calls).buildSql) ∧
      ∀ m, m ∈ Sql.holes (toks (run b calls).buildSql) ↔ 1 ≤ m ∧ m < 1 + (given calls).length := by
  obtain ⟨ts, hlex, hholes⟩ := lexes_whereSql hb hw
  have hhead : (run b calls).headSql = b.headSql := by rw [run_eq]; rfl
  have htail : (run b calls).tailSql = b.tailSql := by rw [run_eq]; rfl
  have hclause : ∀ c cs, (run b calls).whereSql.toList = c :: cs → c = ' ' := by
    rw [whereSql]
    split <;> simp
  have hblank : ∀ c cs, b.tailSql.toList = c :: cs → c = ' ' := by
    rw [tailSql]
    cases b.limit <;> cases b.offset <;> split <;> simp
  have hsql : Lexes (run b calls).buildSql.toList (toks b.headSql ++ ts ++ toks b.tailSql) := by
    have hall := Lexes.tail (Lexes.tail hb.head hlex hclause) hb.tail hblank
    rw [buildSql, hhead, htail]
    simpa using hall
  have htoks := toks_of_lexes hsql
  refine ⟨htoks ▸ hsql, fun m => ?_⟩
  rw [htoks, holes_append, holes_append, hb.head_holes, hb.tail_holes, List.nil_append,
    List.append_nil, hholes]

end Query

/-! ## What the query says -/

variable {ρ : Type}

/-- Does the row satisfy the condition of a call on its own, read with the values the placeholders
were given for? A list without values is satisfied by no row. -/
def Call.Satisfied (M : Meaning ρ) (vs : List String) (n : ℕ) (r : ρ) (c : Call) : Prop :=
  c.values ≠ [] ∧ holds M vs (read (c.text n)) r

/-- The query of a sequence of calls says what the calls say, as far as their conditions count. -/
structure Says (counts : Call → Prop) (b : QueryBuilder) (calls : List Call) : Prop where
  lexes : Lexes (run b calls).buildQuery.1.toList (toks (run b calls).buildQuery.1)
  /-- The placeholders are numbered from 1, and each has its parameter. -/
  placeholders : ∀ m, m ∈ Sql.holes (toks (run b calls).buildQuery.1) ↔
    1 ≤ m ∧ m ≤ (run b calls).buildQuery.2.length
  /-- Every call's condition has the placeholders of its own values. -/
  own : ∀ p ∈ numbered 1 calls, p.2.values ≠ [] → ∀ m,
    m ∈ Sql.holes (toks (p.2.text p.1)) ↔ p.1 ≤ m ∧ m < p.1 + p.2.values.length
  /-- The parameters are the values the placeholders were given for. -/
  bound : ∀ p ∈ numbered 1 calls, ∀ i < p.2.values.length,
    (run b calls).buildQuery.2[p.1 - 1 + i]? = p.2.values[i]?
  /-- A row satisfies the clause when it satisfies every condition, whatever the conditions mean and
  however a value is bound. -/
  rows : ∀ {ρ : Type} (M : Meaning ρ) (bind : QueryValue → String) (r : ρ),
    selects M ((run b calls).buildQuery.2.map bind) (run b calls).whereSql r ↔
      ∀ p ∈ numbered 1 calls, counts p.2 → p.2.Satisfied M ((given calls).map bind) p.1 r

/-- No condition has an OR outside its brackets, unless it stands alone. -/
def Tidy (calls : List Call) : Prop :=
  (∀ p ∈ adding calls, looseOr (toks (p.2.text p.1)) = false) ∨ (adding calls).length ≤ 1

instance (calls : List Call) : Decidable (Tidy calls) := inferInstanceAs (Decidable (_ ∨ _))

section Says

variable {b : QueryBuilder} {calls : List Call}

/-- Conditions with AND between them hold together. -/
theorem holds_body {M : Meaning ρ} {ps : List String} {r : ρ} (hne : adding calls ≠ [])
    (hw : ∀ p ∈ numbered 1 calls, p.2.Written p.1) (ht : Tidy calls) :
    holds M ps (read (join " AND " ((adding calls).map fun p => p.2.text p.1))) r ↔
      ∀ p ∈ adding calls, holds M ps (read (p.2.text p.1)) r := by
  have hbody := lexes_adding hw hne
  have hread {q : ℕ × Call} (hq : q ∈ adding calls) :
      read (q.2.text q.1) = parse (toks (q.2.text q.1)) :=
    read_of_lexes (conditionText_of_mem hw hq).lexes
  obtain ⟨p, rest, hadd⟩ := List.exists_cons_of_ne_nil hne
  rcases ht with htight | halone
  · have htight {q : ℕ × Call} (hq : q ∈ adding calls) : Tight (toks (q.2.text q.1)) :=
      ⟨(conditionText_of_mem hw hq).reads, htight q hq⟩
    rw [hadd] at hread htight hbody ⊢
    have hrest : ∀ us ∈ rest.map (fun p => toks (p.2.text p.1)), Tight us := by
      intro us hus
      obtain ⟨q, hq, rfl⟩ := List.mem_map.mp hus
      exact htight (List.mem_cons_of_mem p hq)
    have hchain : holds M ps (parse (chainToks (toks (p.2.text p.1))
        ((rest.map fun p => toks (p.2.text p.1)).map fun us => (Link.and, us)))) r ↔
        holds M ps (parse (toks (p.2.text p.1))) r ∧
          ∀ us ∈ rest.map (fun p => toks (p.2.text p.1)), holds M ps (parse us) r :=
      holds_and_chain (htight List.mem_cons_self) hrest
    rw [read_of_lexes hbody, List.map_cons, bodyToks, List.forall_mem_cons,
      hread List.mem_cons_self]
    simp only [List.map_map, Function.comp_def] at hchain ⊢
    rw [hchain, List.forall_mem_map]
    refine and_congr_right fun _ => forall₂_congr fun q hq => ?_
    rw [hread (List.mem_cons_of_mem p hq)]
  · obtain rfl : rest = [] := by
      rw [hadd, List.length_cons] at halone
      exact List.eq_nil_of_length_eq_zero (by omega)
    simp [hadd, join]

/-- The query says what the calls say: its placeholders are numbered in a row, each bound to the value
it was given for, and its rows are those that satisfy every condition. A list without values adds no
condition. -/
theorem says_calls (hb : Bare b) (hw : ∀ p ∈ numbered 1 calls, p.2.Written p.1)
    (hone : ∀ c ∈ calls, c.values.length ≤ 1) (ht : Tidy calls) :
    Says (fun c => c.values ≠ []) b calls := by
  obtain ⟨hlex, hholes⟩ := placeholders_buildSql hb hw
  have hparams : (run b calls).buildQuery.2 = given calls := by
    rw [buildQuery, conditions_run hb, map_snd_added hone]
  refine ⟨hlex, fun m => ?_, ?_, ?_, ?_⟩
  · rw [hparams]
    exact (hholes m).trans (by omega)
  · intro p hp hne
    exact (conditionText_of_mem hw (mem_adding.mpr ⟨hp, hne⟩)).holes
  · intro p hp i hi
    rw [hparams]
    exact getElem?_given hp hi
  · intro ρ M bind r
    rw [hparams, whereSql_run hb]
    by_cases hadd : adding calls = []
    · have hnone : ∀ p ∈ numbered 1 calls, p.2.values = [] := by
        intro p hp
        by_contra hne
        have : p ∈ adding calls := mem_adding.mpr ⟨hp, hne⟩
        rw [hadd] at this
        cases this
      simp only [hadd, List.isEmpty_nil, if_true, selects_empty, true_iff]
      exact fun p hp hne => absurd (hnone p hp) hne
    · rw [if_neg (by simp [hadd]), selects_where (lexes_adding hw hadd), holds_body hadd hw ht]
      constructor
      · intro h q hq hne
        exact ⟨hne, h q (mem_adding.mpr ⟨hq, hne⟩)⟩
      · intro h q hq
        obtain ⟨hq, hne⟩ := mem_adding.mp hq
        exact (h q hq hne).2

/-- A comparison, two lists and a raw condition on a fresh builder. -/
theorem says_session :
    Says (fun c => c.values ≠ []) (new "orders")
      [.whereEq "orders.status" (.text "active"), .whereIn "role" [], .whereIn "id" [.integer 5],
        .whereRaw "age > $3 AND (vip OR age < $3)" (.integer 18)] := by
  have hstatus : FieldText "orders.status" := fieldText_of_plain rfl (by decide) (by decide) rfl
  have hrole : FieldText "role" := fieldText_of_plain rfl (by decide) (by decide) rfl
  have hid : FieldText "id" := fieldText_of_plain rfl (by decide) (by decide) rfl
  have hraw : RawText 3 "age > $3 AND (vip OR age < $3)" := by
    have hholes : Sql.holes (toks "age > $3 AND (vip OR age < $3)") = [3, 3] := by decide
    exact ⟨rfl, fun m => by rw [hholes]; simp, by decide⟩
  refine says_calls (bare_new rfl rfl) ?_ (by decide) (.inl (by decide))
  simp only [numbered, List.forall_mem_cons]
  exact ⟨hstatus, hrole, hid, hraw, by simp⟩

/-- A list without values does not turn every row away. -/
theorem not_says_emptyList :
    (∀ p ∈ numbered 1 [Call.whereIn "role" []], p.2.Written p.1) ∧ Bare (new "users") ∧
      ¬ Says (fun _ => True) (new "users") [.whereIn "role" []] := by
  have hrole : FieldText "role" := fieldText_of_plain rfl (by decide) (by decide) rfl
  refine ⟨fun p hp => ?_, bare_new rfl rfl, fun h => ?_⟩
  · rw [List.mem_singleton.mp hp]
    exact hrole
  have hall := (h.rows (ρ := Unit) (fun _ => none) (fun _ => "") ()).mp rfl
  exact (hall (1, .whereIn "role" []) List.mem_cons_self trivial).1 rfl

end Says

end Backbone.Orm.QueryBuilder
