import Backbone.Lib.Sql.Eval
import Backbone.Orm.Parser

/-!
# The SQL of one condition

A condition's text is a column, an operator and placeholders with casts: one operand of the chain it
is written into, whatever value the client sent (`FilterCondition.operand`). Its tokens at another
number are its tokens at 1 with the placeholders renumbered.
-/

namespace Backbone.Orm

open Sql Text

/-! ## Columns and casts -/

/-- The tokens of a text; none for a text that does not lex. -/
def toks (s : String) : List (Tok ℕ) := (tokens s.toList).getD []

/-- A column the clause may name: an identifier, or an expression that opens with a parenthesis. -/
structure ColumnText (s : String) : Prop where
  lexes : Lexes s.toList (toks s)
  column : Column (toks s)
  holes : holes (toks s) = []

/-- A type a placeholder may be cast to: names and dots, none of them a keyword of a condition. -/
structure TypeName (t : String) : Prop where
  lexes : Lexes t.toList (toks t)
  plain : ∀ x ∈ toks t, Plain x
  holes : holes (toks t) = []
  head : ∃ c cs, t.toList = c :: cs ∧ isSymChar c = false

/-- The tokens of a cast. -/
def castToks : Option String → List (Tok ℕ)
  | some t => .sym [':', ':'] :: toks t
  | none => []

variable {s : String} {ts : List (Tok ℕ)}

theorem toks_of_lexes (h : Lexes s.toList ts) : toks s = ts := by
  rw [toks, h, Option.getD_some]

theorem ColumnText.of_lexes (h : Lexes s.toList ts)
    (hcol : Column ts) (hh : Sql.holes ts = []) : ColumnText s := by
  rw [← toks_of_lexes h] at hcol hh
  exact ⟨toks_of_lexes h ▸ h, hcol, hh⟩

/-- A name of letters, digits and underscores is a column. -/
theorem columnText_of_word (hne : s.toList ≠ []) (h : ∀ c ∈ s.toList, isWordChar c) :
    ColumnText s :=
  ColumnText.of_lexes (lexes_word hne h) (.name s.toList) rfl

theorem columnText_of_all (hne : s.toList ≠ []) (h : s.toList.all isWordChar = true) :
    ColumnText s :=
  columnText_of_word hne (List.all_eq_true.mp h)

section Casts

variable {ty : Option String} (hty : ∀ t ∈ ty, TypeName t)
include hty

theorem plain_castToks : ∀ x ∈ castToks ty, Plain x := by
  cases ty with
  | none => simp [castToks]
  | some t =>
    intro x hx
    rcases List.mem_cons.mp hx with rfl | hx
    · exact ⟨trivial, rfl⟩
    · exact (hty t rfl).plain x hx

theorem holes_castToks : holes (castToks ty) = [] := by
  cases ty with
  | none => rfl
  | some t => exact (hty t rfl).holes

/-- A placeholder with its cast. -/
theorem lexes_placeholder (n : ℕ) :
    Lexes (FilterCondition.placeholder n ++ FilterCondition.cast ty).toList
      (.hole n :: castToks ty) := by
  have hhole : (FilterCondition.placeholder n).toList = holeText n := by
    simp [FilterCondition.placeholder, holeText]
  cases ty with
  | none => simpa [FilterCondition.cast, castToks, hhole] using lexes_hole n
  | some t =>
    obtain ⟨c, cs, hcs, hc⟩ := (hty t rfl).head
    have hlex := (hty t rfl).lexes
    rw [hcs] at hlex
    have := lexes_cast n hc hlex
    simpa [FilterCondition.cast, castToks, hhole, hcs] using this

end Casts

/-! ## The tokens after the column -/

/-- The word a token of the clause is written with. -/
def kw (s : String) : Tok ℕ := .word s.toList

/-- The tokens of a comparison operator. -/
def opToks (op : FilterOperator) : List (Tok ℕ) := toks op.asSql

/-- Lists of tokens with commas between them. -/
def commaToks : List (List (Tok ℕ)) → List (Tok ℕ)
  | [] => []
  | [ts] => ts
  | ts :: rest => ts ++ .comma :: commaToks rest

namespace FilterCondition

/-- How many placeholders an IN list has. -/
def listSlots : FilterValue → ℕ
  | .multiple vs => vs.length
  | _ => 1

/-- How many placeholders the condition's text has. -/
def slots (c : FilterCondition) : ℕ :=
  match c.operator with
  | .isNull | .isNotNull => 0
  | .isIn | .notIn => listSlots c.value
  | .between | .notBetween => 2
  | _ => 1

theorem inPlaceholders_eq (v : FilterValue) (k : ℕ) :
    inPlaceholders v k = (List.range (listSlots v)).map fun i => placeholder (k + i) := by
  cases v <;> rfl

/-- The placeholders of an IN list, from the number `k` on. -/
def inToks (c : FilterCondition) (k : ℕ) : List (Tok ℕ) :=
  .opening .paren ::
    (commaToks ((List.range (listSlots c.value)).map fun i => .hole (k + i) :: castToks c.columnType) ++
      [.closing .paren])

/-- The ends of a BETWEEN. -/
def endsToks (c : FilterCondition) (k : ℕ) : List (Tok ℕ) :=
  (.hole k :: castToks c.columnType) ++ Link.and.tok :: (.hole (k + 1) :: castToks c.columnType)

/-- The tokens after the column, with placeholders from the number `k` on. -/
def tailToks (c : FilterCondition) (k : ℕ) : List (Tok ℕ) :=
  match c.operator with
  | .isNull => [kw "IS", kw "NULL"]
  | .isNotNull => [kw "IS", kw "NOT", kw "NULL"]
  | .isIn | .notIn => opToks c.operator ++ c.inToks k
  | .between | .notBetween => opToks c.operator ++ c.endsToks k
  | .contains | .startsWith | .endsWith => [kw "ILIKE", .hole k]
  | .notContains => [kw "NOT", kw "ILIKE", .hole k]
  | op => opToks op ++ .hole k :: castToks c.columnType

/-- The condition's text from the number `k` on. -/
def sql (c : FilterCondition) (k : ℕ) : String := (c.buildSqlWithoutPrefix k).1

theorem buildSqlWithoutPrefix_snd (c : FilterCondition) (k : ℕ) :
    (c.buildSqlWithoutPrefix k).2 = k + c.slots := by
  unfold buildSqlWithoutPrefix slots
  split <;> simp_all [inPlaceholders_eq]

/-- A condition the clause can hold: its column and its cast are names, its operator compares. -/
structure WellNamed (c : FilterCondition) : Prop where
  field : ColumnText c.field
  cast : ∀ t ∈ c.columnType, TypeName t
  operator : c.operator ≠ .or

end FilterCondition

/-! ## Lexing the condition -/

theorem lexes_commas (parts : List (String × List (Tok ℕ)))
    (h : ∀ p ∈ parts, Lexes p.1.toList p.2) :
    Lexes (join ", " (parts.map Prod.fst)).toList (commaToks (parts.map Prod.snd)) := by
  induction parts with
  | nil => exact lexes_nil
  | cons p rest ih =>
    have hp := h p List.mem_cons_self
    have hrest := ih fun q hq => h q (List.mem_cons_of_mem _ hq)
    cases rest with
    | nil => exact hp
    | cons q rest =>
      have hcomma := hp.brk (c := ',') rfl (lexes_nil.space hrest)
      simpa [join, commaToks] using hcomma

theorem plain_commaToks {parts : List (List (Tok ℕ))} (h : ∀ ts ∈ parts, ∀ x ∈ ts, Plain x) :
    ∀ x ∈ commaToks parts, Plain x := by
  induction parts with
  | nil => simp [commaToks]
  | cons ts rest ih =>
    have hts := h ts List.mem_cons_self
    have hrest := ih fun us hus => h us (List.mem_cons_of_mem _ hus)
    cases rest with
    | nil => exact hts
    | cons us rest =>
      intro x hx
      rcases List.mem_append.mp hx with hx | hx
      · exact hts x hx
      · rcases List.mem_cons.mp hx with rfl | hx
        · exact ⟨trivial, rfl⟩
        · exact hrest x hx

namespace FilterCondition

variable {c : FilterCondition}

/-- The text after the column, with placeholders from the number `k` on. -/
def tailText (c : FilterCondition) (k : ℕ) : String :=
  match c.operator with
  | .isNull => "IS NULL"
  | .isNotNull => "IS NOT NULL"
  | .isIn | .notIn =>
    c.operator.asSql ++ " (" ++ castPlaceholders (inPlaceholders c.value k) c.columnType ++ ")"
  | .between | .notBetween =>
    c.operator.asSql ++ " " ++ (placeholder k ++ FilterCondition.cast c.columnType) ++ " AND " ++
      (placeholder (k + 1) ++ FilterCondition.cast c.columnType)
  | .contains | .startsWith | .endsWith => "ILIKE " ++ placeholder k
  | .notContains => "NOT ILIKE " ++ placeholder k
  | op => op.asSql ++ " " ++ (placeholder k ++ FilterCondition.cast c.columnType)

theorem sql_eq (c : FilterCondition) (k : ℕ) : c.sql k = c.field ++ " " ++ c.tailText k := by
  apply String.toList_inj.mp
  unfold sql buildSqlWithoutPrefix tailText
  split <;> simp_all

theorem castPlaceholders_eq (ps : List String) (ty : Option String) :
    castPlaceholders ps ty = join ", " (ps.map (· ++ FilterCondition.cast ty)) := by
  cases ty <;> simp [castPlaceholders, FilterCondition.cast]

theorem plain_hole (n : ℕ) : Plain (.hole n) := ⟨trivial, rfl⟩

/-- The tokens of a comparison operator are what its text lexes to. -/
theorem lexes_asSql (op : FilterOperator) : Lexes op.asSql.toList (opToks op) := by
  cases op <;> rfl

theorem plain_opToks {op : FilterOperator} (h : op ≠ .or) (h' : op ≠ .between)
    (h'' : op ≠ .notBetween) : ∀ x ∈ opToks op, Plain x := by
  cases op <;> first | exact absurd rfl ‹_› | decide

/-- The text after the column lexes to the tokens after the column. -/
theorem lexes_tailText (h : c.WellNamed) (k : ℕ) : Lexes (c.tailText k).toList (c.tailToks k) := by
  have hslot (n : ℕ) := lexes_placeholder h.cast n
  have hhole (n : ℕ) : Lexes (placeholder n).toList [.hole n] := by
    have := @lexes_placeholder none (by simp) n
    simpa [FilterCondition.cast, castToks] using this
  have hlist : Lexes ('(' :: ((castPlaceholders (inPlaceholders c.value k) c.columnType).toList ++
      [')'])) (c.inToks k) := by
    have hparts := lexes_commas ((List.range (listSlots c.value)).map fun i =>
      (placeholder (k + i) ++ FilterCondition.cast c.columnType,
        .hole (k + i) :: castToks c.columnType)) (by
          intro p hp
          obtain ⟨i, -, rfl⟩ := List.mem_map.mp hp
          exact hslot (k + i))
    rw [castPlaceholders_eq, inPlaceholders_eq]
    simpa [Function.comp_def, inToks] using hparts.paren
  have hin (op : FilterOperator) := (lexes_asSql op).space hlist
  have hbetween (op : FilterOperator) := ((lexes_asSql op).space (hslot k)).space
    ((show Lexes "AND".toList [Link.and.tok] from rfl).space (hslot (k + 1)))
  have hlike : Lexes ("ILIKE " ++ placeholder k).toList [kw "ILIKE", .hole k] := by
    simpa using (show Lexes "ILIKE".toList [kw "ILIKE"] from rfl).space (hhole k)
  have hnotLike : Lexes ("NOT ILIKE " ++ placeholder k).toList
      [kw "NOT", kw "ILIKE", .hole k] := by
    simpa using (show Lexes "NOT ILIKE".toList [kw "NOT", kw "ILIKE"] from rfl).space (hhole k)
  have hcompare (op : FilterOperator) : Lexes (op.asSql ++ " " ++
      (placeholder k ++ FilterCondition.cast c.columnType)).toList
      (opToks op ++ .hole k :: castToks c.columnType) := by
    simpa using (lexes_asSql op).space (hslot k)
  cases hop : c.operator <;> simp only [tailText, tailToks, hop]
  case isNull => rfl
  case isNotNull => rfl
  case isIn => simpa using hin .isIn
  case notIn => simpa using hin .notIn
  case between => simpa [endsToks] using hbetween .between
  case notBetween => simpa [endsToks] using hbetween .notBetween
  case contains => exact hlike
  case startsWith => exact hlike
  case endsWith => exact hlike
  case notContains => exact hnotLike
  case or => exact absurd hop h.operator
  all_goals exact hcompare _

/-! ## Reading the condition -/

/-- Every operator opens with a token that needs a column before it. -/
theorem tailToks_head (h : c.operator ≠ .or) (k : ℕ) :
    ∃ t ts, c.tailToks k = t :: ts ∧ isOperator t := by
  cases hop : c.operator <;> simp only [tailToks, hop]
  case or => exact absurd hop h
  all_goals exact ⟨_, _, rfl, by decide⟩

/-- The text after the column only adds itself to the operand. -/
theorem grows_tailToks (h : c.WellNamed) (k : ℕ) : Grows (c.tailToks k) := by
  have hslot (n : ℕ) : ∀ x ∈ Tok.hole n :: castToks c.columnType, Plain x :=
    List.forall_mem_cons.mpr ⟨plain_hole n, plain_castToks h.cast⟩
  have hcompare {op : FilterOperator} (h1 : op ≠ .or) (h2 : op ≠ .between) (h3 : op ≠ .notBetween) :
      Grows (opToks op ++ .hole k :: castToks c.columnType) := by
    refine grows_plain (by simp) fun x hx => ?_
    rcases List.mem_append.mp hx with hx | hx
    · exact plain_opToks h1 h2 h3 x hx
    · exact hslot k x hx
  have hlist : Grows (c.inToks k) := by
    refine grows_bracket (balanced_of_plain (plain_commaToks ?_)) .paren
    intro ts hts
    obtain ⟨i, -, rfl⟩ := List.mem_map.mp hts
    exact hslot (k + i)
  have hbetween : Grows (kw "BETWEEN" :: c.endsToks k) :=
    grows_between (by simp) (by simp) (hslot k) (hslot (k + 1))
  have hlike (ws : List (Tok ℕ)) (hws : ∀ x ∈ ws, Plain x) : Grows (ws ++ [.hole k]) := by
    refine grows_plain (by simp) fun x hx => ?_
    rcases List.mem_append.mp hx with hx | hx
    · exact hws x hx
    · rw [List.mem_singleton.mp hx]
      exact plain_hole k
  cases hop : c.operator <;> simp only [tailToks, hop]
  case isNull => exact grows_plain (by simp) (by decide)
  case isNotNull => exact grows_plain (by simp) (by decide)
  case isIn => exact (grows_plain (by decide) (by decide)).append hlist
  case notIn => exact (grows_plain (by decide) (by decide)).append hlist
  case between => exact hbetween
  case notBetween =>
    have hnot : Grows [kw "NOT"] := grows_plain (by decide) (by decide)
    exact hnot.append hbetween
  case contains => exact hlike [kw "ILIKE"] (by decide)
  case startsWith => exact hlike [kw "ILIKE"] (by decide)
  case endsWith => exact hlike [kw "ILIKE"] (by decide)
  case notContains => exact hlike [kw "NOT", kw "ILIKE"] (by decide)
  case or => exact absurd hop h.operator
  all_goals exact hcompare (by decide) (by decide) (by decide)

/-- The condition's text lexes to its column and what follows it. -/
theorem lexes_sql (h : c.WellNamed) (k : ℕ) :
    Lexes (c.sql k).toList (toks c.field ++ c.tailToks k) := by
  rw [sql_eq]
  simpa using h.field.lexes.space (lexes_tailText h k)

/-- The reading of the condition's text. -/
def reading (c : FilterCondition) (k : ℕ) : Option Cond := columnValue (toks c.field) (c.tailToks k)

/-- A condition is one operand of the chain it is written into. -/
theorem operand (h : c.WellNamed) (k : ℕ) :
    Operand (toks c.field ++ c.tailToks k) (c.reading k) := by
  obtain ⟨t, ts, htail, hop⟩ := tailToks_head h.operator k
  have hgrows := grows_tailToks h k
  rw [reading, htail] at *
  exact operand_column h.field.column hop hgrows

/-- The reading of the condition on its own. -/
theorem read_sql (h : c.WellNamed) (k : ℕ) : read (c.sql k) = c.reading k := by
  have hchain := @parse_chain _ _ (operand h k) [] (by simp)
  rw [read_of_lexes (lexes_sql h k)]
  simpa [chainToks, chainValue, chainFrom, orElse, andElse] using hchain

/-! ## Numbering -/

theorem commaToks_shift (j : ℕ) (parts : List (List (Tok ℕ))) :
    (commaToks parts).map (Tok.shift j) = commaToks (parts.map (List.map (Tok.shift j))) := by
  induction parts with
  | nil => rfl
  | cons ts rest ih =>
    cases rest with
    | nil => rfl
    | cons us rest => simp_all [commaToks, Tok.shift]

/-- The tokens at another number are the same tokens renumbered. -/
theorem tailToks_shift (h : c.WellNamed) (k j : ℕ) :
    (c.tailToks k).map (Tok.shift j) = c.tailToks (k + j) := by
  have hcast : (castToks c.columnType).map (Tok.shift j) = castToks c.columnType :=
    shift_of_holes (holes_castToks h.cast) j
  have hops (op : FilterOperator) : (opToks op).map (Tok.shift j) = opToks op :=
    shift_of_holes (by cases op <;> rfl) j
  have hlist : (c.inToks k).map (Tok.shift j) = c.inToks (k + j) := by
    have hslot (i : ℕ) : k + i + j = k + j + i := by omega
    simp [inToks, commaToks_shift, Function.comp_def, hcast, Tok.shift, hslot]
  have hends : (c.endsToks k).map (Tok.shift j) = c.endsToks (k + j) := by
    have hslot : k + 1 + j = k + j + 1 := by omega
    simp [endsToks, hcast, Tok.shift, hslot, Link.tok]
  cases hop : c.operator <;> simp only [tailToks, hop, List.map_append, hops, hlist, hends]
  all_goals simp [Tok.shift, kw, hcast]

theorem holes_commaToks (parts : List (List (Tok ℕ))) :
    holes (commaToks parts) = parts.flatMap holes := by
  induction parts with
  | nil => rfl
  | cons ts rest ih =>
    cases rest with
    | nil => simp [commaToks]
    | cons us rest =>
      have hcomma : holes [.comma] = [] := rfl
      have hcons : commaToks (ts :: us :: rest) = ts ++ .comma :: commaToks (us :: rest) := rfl
      rw [hcons, holes_append, holes_cons, hcomma, ih]
      simp

/-- The placeholders of a condition are numbered in a row. -/
theorem holes_tailToks (h : c.WellNamed) (k : ℕ) :
    holes (c.tailToks k) = (List.range c.slots).map (k + ·) := by
  have hcast := holes_castToks h.cast
  have hslot (n : ℕ) : holes (.hole n :: castToks c.columnType) = [n] := by
    rw [holes_cons, hcast]
    rfl
  have hops (op : FilterOperator) : holes (opToks op) = [] := by cases op <;> rfl
  have hlist : holes (c.inToks k) = (List.range (listSlots c.value)).map (k + ·) := by
    have hparens (ts : List (Tok ℕ)) : holes (.opening .paren :: (ts ++ [.closing .paren])) =
        holes ts := by
      simp [holes]
    rw [inToks, hparens, holes_commaToks, List.flatMap_map]
    simp [hslot, List.map_eq_flatMap]
  have hends : holes (c.endsToks k) = [k, k + 1] := by
    have hand : holes [Link.and.tok] = [] := rfl
    rw [endsToks, holes_append, hslot, holes_cons Link.and.tok, hand, hslot]
    rfl
  cases hop : c.operator <;>
    simp only [tailToks, slots, hop, holes_append, hops, hlist, hends, hslot]
  all_goals rfl

end FilterCondition

end Backbone.Orm
