import Backbone.Lib.Sql.Lex

/-!
# Reading a SQL condition

The boolean structure of a condition under SQL's precedence, AND over OR, read in one pass over its
tokens. A frame holds what an open bracket has read so far: the disjuncts before the last OR, the
conjuncts before the last AND, and the operand being read. An operand is either a condition in
parentheses or an atom, whose tokens are kept as they are; BETWEEN takes the next AND, CASE takes
everything up to its END.

What stands between balanced brackets cannot reach the frames outside them, `run_balanced` and
`run_under`, so a condition in parentheses reads as an operand of whatever it is written into,
`operand_paren`, and a chain of operands reads as the chain of their readings, `run_chain`.
-/

namespace Backbone.Sql

variable {ts : List (Tok ℕ)} {t : Tok ℕ} {f : Frame} {outer : List (Bracket × Frame)}
  {st : List Bracket} {f' : Frame}

/-- A condition: atoms under AND and OR. -/
inductive Cond where
  | atom (ts : List (Tok ℕ))
  | and (a b : Cond)
  | or (a b : Cond)
deriving DecidableEq, Repr

/-! ## Keywords -/

/-- The words the structure of a condition hangs on. -/
inductive Keyword where
  | and
  | or
  | between
  | caseBegin
  | caseEnd
deriving DecidableEq, Repr

/-- The keyword a token is, in any case. -/
def keywordOf : Tok ℕ → Option Keyword
  | .word w =>
    let low := w.map Char.toLower
    if low = ['a', 'n', 'd'] then some .and
    else if low = ['o', 'r'] then some .or
    else if low = ['b', 'e', 't', 'w', 'e', 'e', 'n'] then some .between
    else if low = ['c', 'a', 's', 'e'] then some .caseBegin
    else if low = ['e', 'n', 'd'] then some .caseEnd
    else none
  | _ => none

/-- A token that needs an operand on its left: an operator, or one of the words that act as one. -/
def isOperator : Tok ℕ → Bool
  | .sym _ => true
  | .word w => w.map Char.toLower ∈
      [['i', 's'], ['i', 'n'], ['n', 'o', 't'], ['l', 'i', 'k', 'e'], ['i', 'l', 'i', 'k', 'e'],
        ['b', 'e', 't', 'w', 'e', 'e', 'n']]
  | _ => false

/-- Does a bracket hold a query rather than a condition? -/
def isSubquery : List (Tok ℕ) → Bool
  | .word w :: t :: _ =>
    decide (w.map Char.toLower ∈
      [['s', 'e', 'l', 'e', 'c', 't'], ['w', 'i', 't', 'h'], ['t', 'a', 'b', 'l', 'e']]) &&
      !isOperator t
  | _ => false

/-! ## Frames -/

/-- What has been read since a bracket opened. -/
structure Frame where
  disj : Option Cond := none
  conj : Option Cond := none
  /-- The tokens of the operand being read. -/
  seg : List (Tok ℕ) := []
  /-- The reading of the parentheses that are all of the operand so far. -/
  lone : Option (Option Cond) := none
  /-- The BETWEENs still waiting for their AND. -/
  betweens : ℕ := 0
  /-- The CASEs still waiting for their END. -/
  cases : ℕ := 0
  bad : Bool := false
  raw : List (Tok ℕ) := []
deriving DecidableEq, Repr

/-- `d OR e`, where `d` may be missing. -/
def orElse (d : Option Cond) (e : Cond) : Cond := d.elim e (Cond.or · e)

/-- `c AND e`, where `c` may be missing. -/
def andElse (c : Option Cond) (e : Cond) : Cond := c.elim e (Cond.and · e)

namespace Frame

/-- The operand read so far. -/
def operand (f : Frame) : Option Cond :=
  if f.seg.isEmpty then none else f.lone.getD (some (.atom f.seg))

/-- The conjunction read so far. -/
def conjoined (f : Frame) : Option Cond := f.operand.map (andElse f.conj)

/-- The whole condition, when it ends here. -/
def value (f : Frame) : Option Cond :=
  if f.bad || f.betweens != 0 || f.cases != 0 then none
  else f.conjoined.map (orElse f.disj)

/-- One more token of the operand. -/
def add (f : Frame) (t : Tok ℕ) : Frame := { f with seg := f.seg ++ [t], lone := none }

/-- After an AND between operands. -/
def afterAnd (f : Frame) : Frame :=
  { f with conj := f.conjoined, seg := [], lone := none, bad := f.bad || f.conjoined.isNone }

/-- After an OR. -/
def afterOr (f : Frame) : Frame :=
  { f with
    disj := f.conjoined.map (orElse f.disj), conj := none, seg := [], lone := none, betweens := 0,
    bad := f.bad || f.conjoined.isNone || f.betweens != 0 }

/-- A token in the structure of the condition. -/
def structural (f : Frame) (t : Tok ℕ) : Frame :=
  match keywordOf t with
  | some .and =>
    if f.cases ≠ 0 then f.add t
    else if f.betweens ≠ 0 then { f.add t with betweens := f.betweens - 1 }
    else f.afterAnd
  | some .or => if f.cases ≠ 0 then f.add t else f.afterOr
  | some .between =>
    -- At the start of an operand the word is a column's name.
    if f.cases ≠ 0 || f.seg.isEmpty then f.add t
    else { f.add t with betweens := f.betweens + 1 }
  | some .caseBegin => { f.add t with cases := f.cases + 1 }
  | some .caseEnd => { f.add t with cases := f.cases - 1 }
  | none => f.add t

/-- Was the last token a CASE? -/
def endsInCase (f : Frame) : Bool := f.seg.getLast?.any (keywordOf · == some .caseBegin)

/-- A token other than a bracket. An operator right after a CASE has nothing to act on. -/
def push (f : Frame) (t : Tok ℕ) : Frame :=
  { f.structural t with
    raw := f.raw ++ [t], bad := (f.structural t).bad || (isOperator t && f.endsInCase) }

/-- A closed bracket with the tokens `inner` and the reading `v`. -/
def group (f : Frame) (b : Bracket) (inner : List (Tok ℕ)) (v : Option Cond) : Frame :=
  let ts := .opening b :: (inner ++ [.closing b])
  { f with
    seg := f.seg ++ ts, raw := f.raw ++ ts
    lone := if b = .paren && f.seg.isEmpty && !isSubquery inner then some v else none }

end Frame

/-- The frame being read and the frames outside it, each with the bracket that will return to it. -/
structure State where
  cur : Frame := {}
  outer : List (Bracket × Frame) := []
deriving DecidableEq, Repr

namespace State

/-- One token. A bracket that does not match, or the end of the statement, is no condition. -/
def next (s : State) : Tok ℕ → Option State
  | .opening b => some ⟨{}, (b, s.cur) :: s.outer⟩
  | .closing b =>
    match s.outer with
    | (b', f) :: outer =>
      if b = b' then some ⟨f.group b s.cur.raw s.cur.value, outer⟩ else none
    | [] => none
  | .semi => none
  | t => some { s with cur := s.cur.push t }

/-- A run over tokens. -/
def run (s : State) : List (Tok ℕ) → Option State
  | [] => some s
  | t :: ts => (s.next t).bind fun s => s.run ts

theorem run_append (s : State) (ts us : List (Tok ℕ)) :
    s.run (ts ++ us) = (s.run ts).bind fun s => s.run us := by
  induction ts generalizing s with
  | nil => rfl
  | cons t ts ih => simp [run, ih, Option.bind_assoc]

theorem run_cons (s : State) (t : Tok ℕ) (ts : List (Tok ℕ)) :
    s.run (t :: ts) = (s.next t).bind fun s => s.run ts :=
  rfl

end State

/-- The condition a token list spells. -/
def parse (ts : List (Tok ℕ)) : Option Cond :=
  match State.run {} ts with
  | some ⟨f, []⟩ => f.value
  | _ => none

/-- The condition a text spells. -/
def read (s : String) : Option Cond := (tokens s.toList).bind parse

theorem read_of_lexes {s : String} (h : Lexes s.toList ts) : read s = parse ts := by
  rw [read, h, Option.bind_some]

/-! ## Brackets -/

/-- How a token changes the brackets that are open. -/
def nest (st : List Bracket) : Tok ℕ → Option (List Bracket)
  | .opening b => some (b :: st)
  | .closing b =>
    match st with
    | b' :: st => if b = b' then some st else none
    | [] => none
  | .semi => none
  | _ => some st

/-- The brackets open after tokens. -/
def nestAll (st : List Bracket) : List (Tok ℕ) → Option (List Bracket)
  | [] => some st
  | t :: ts => (nest st t).bind fun st => nestAll st ts

/-- Every bracket that opens closes, and none closes that did not open. -/
def Balanced (ts : List (Tok ℕ)) : Prop := nestAll [] ts = some []

instance (ts : List (Tok ℕ)) : Decidable (Balanced ts) := inferInstanceAs (Decidable (_ = _))

theorem nestAll_append (st : List Bracket) (ts us : List (Tok ℕ)) :
    nestAll st (ts ++ us) = (nestAll st ts).bind fun st => nestAll st us := by
  induction ts generalizing st with
  | nil => rfl
  | cons t ts ih => simp [nestAll, ih, Option.bind_assoc]

/-- Brackets that are open outside stay open. -/
theorem nestAll_under {st' : List Bracket} (h : nestAll st ts = some st') (out : List Bracket) :
    nestAll (st ++ out) ts = some (st' ++ out) := by
  induction ts generalizing st with
  | nil =>
    cases h
    rfl
  | cons t ts ih =>
    obtain ⟨mid, hmid, hrest⟩ := Option.bind_eq_some_iff.mp h
    have hnext : nest (st ++ out) t = some (mid ++ out) := by
      cases t with
      | closing b =>
        cases st with
        | nil => cases hmid
        | cons b' st =>
          simp only [nest, List.cons_append] at hmid ⊢
          split at hmid
          · cases hmid
            simp_all
          · cases hmid
      | semi => cases hmid
      | _ =>
        cases hmid
        rfl
    rw [nestAll, hnext]
    exact ih hrest

theorem Balanced.append {us : List (Tok ℕ)} (h : Balanced ts) (h' : Balanced us) :
    Balanced (ts ++ us) := by
  rw [Balanced, nestAll_append, h, Option.bind_some]
  exact h'

/-- A bracket around balanced tokens. -/
theorem Balanced.bracket (h : Balanced ts) (b : Bracket) :
    Balanced (.opening b :: (ts ++ [.closing b])) := by
  have hin : nestAll [b] ts = some [b] := nestAll_under h [b]
  simp [Balanced, nestAll, nest, nestAll_append, hin]

/-- A token that is no bracket and does not end the statement. -/
def Flat : Tok ℕ → Prop
  | .opening _ | .closing _ | .semi => False
  | _ => True

instance : DecidablePred Flat
  | .opening _ | .closing _ | .semi => isFalse id
  | .word _ | .sym _ | .str _ | .ident _ | .hole _ | .comma => isTrue trivial

theorem nest_of_flat (h : Flat t) (st : List Bracket) : nest st t = some st := by
  cases t <;> simp_all [Flat, nest]

theorem next_of_flat (h : Flat t) (s : State) : s.next t = some { s with cur := s.cur.push t } := by
  cases t <;> simp_all [Flat, State.next]

theorem Balanced.cons (ht : Flat t) (h : Balanced ts) : Balanced (t :: ts) := by
  rw [Balanced, nestAll, nest_of_flat ht, Option.bind_some]
  exact h

/-! ## What balanced tokens can do to a frame -/

theorem Frame.push_raw (f : Frame) (t : Tok ℕ) : (f.push t).raw = f.raw ++ [t] := rfl

/-- A condition that cannot be read any more stays so. -/
theorem Frame.push_bad (h : f.bad) (t : Tok ℕ) : (f.push t).bad := by
  have hs : (f.structural t).bad := by
    unfold Frame.structural
    split <;> (try split) <;> (try split) <;> simp [Frame.add, Frame.afterAnd, Frame.afterOr, h]
  simp [Frame.push, hs]

/-- The tokens read since the outermost bracket of `outer` opened. -/
def rawOf (f : Frame) : List (Bracket × Frame) → List (Tok ℕ)
  | [] => f.raw
  | (b, g) :: outer => rawOf g outer ++ .opening b :: f.raw

/-- The outermost frame. -/
def bottom (f : Frame) : List (Bracket × Frame) → Frame
  | [] => f
  | (_, g) :: outer => bottom g outer

theorem bottom_bad_of_cons
    (h : f.bad → f'.bad) (hb : (bottom f outer).bad) : (bottom f' outer).bad := by
  cases outer with
  | nil => exact h hb
  | cons p outer => exact hb

theorem rawOf_append (h : f'.raw = f.raw ++ ts) : rawOf f' outer = rawOf f outer ++ ts := by
  cases outer with
  | nil => exact h
  | cons p outer => simp [rawOf, h]

/-- A run that nests is a run under any frames outside it, and leaves those alone. -/
theorem run_nest (f : Frame) (outer : List (Bracket × Frame))
    (h : nestAll (outer.map Prod.fst) ts = some st) :
    ∃ f' outer', outer'.map Prod.fst = st ∧ rawOf f' outer' = rawOf f outer ++ ts ∧
      ((bottom f outer).bad → (bottom f' outer').bad) ∧
      ∀ out, State.run ⟨f, outer ++ out⟩ ts = some ⟨f', outer' ++ out⟩ := by
  induction ts generalizing f outer with
  | nil =>
    cases h
    exact ⟨f, outer, rfl, by simp, id, fun out => rfl⟩
  | cons t ts ih =>
    obtain ⟨mid, hmid, hrest⟩ := Option.bind_eq_some_iff.mp h
    -- One token, then the rest.
    have hone : ∃ g g', g'.map Prod.fst = mid ∧ rawOf g g' = rawOf f outer ++ [t] ∧
        ((bottom f outer).bad → (bottom g g').bad) ∧
        ∀ out, State.next ⟨f, outer ++ out⟩ t = some ⟨g, g' ++ out⟩ := by
      by_cases hflat : Flat t
      · rw [nest_of_flat hflat] at hmid
        cases hmid
        refine ⟨f.push t, outer, rfl, rawOf_append (f.push_raw t), ?_,
          fun out => next_of_flat hflat _⟩
        exact bottom_bad_of_cons fun hb => Frame.push_bad hb t
      · cases t with
        | opening b =>
          cases hmid
          exact ⟨{}, (b, f) :: outer, rfl, rfl, id, fun out => rfl⟩
        | closing b =>
          cases outer with
          | nil => cases hmid
          | cons p outer =>
            obtain ⟨b', g⟩ := p
            simp only [nest, List.map_cons] at hmid
            split at hmid
            · rename_i hb
              cases hmid
              subst hb
              have hraw : (g.group b f.raw f.value).raw =
                  g.raw ++ .opening b :: (f.raw ++ [.closing b]) := rfl
              refine ⟨g.group b f.raw f.value, outer, rfl, ?_, ?_, fun out => by
                simp [State.next]⟩
              · rw [rawOf, rawOf_append hraw]
                simp
              · change (bottom g outer).bad → _
                exact bottom_bad_of_cons fun hb => hb
            · cases hmid
        | semi => cases hmid
        | _ => exact absurd trivial hflat
    obtain ⟨g, g', hg, hraw, hbad, hnext⟩ := hone
    obtain ⟨f', outer', hst, hraw', hbad', hrun⟩ := ih g g' (hg ▸ hrest)
    refine ⟨f', outer', hst, by rw [hraw', hraw]; simp, fun hb => hbad' (hbad hb), fun out => ?_⟩
    rw [State.run_cons, hnext, Option.bind_some, hrun]

/-- Balanced tokens return to the frame they started in. -/
theorem run_balanced (h : Balanced ts) (f : Frame) :
    ∃ f', f'.raw = f.raw ++ ts ∧ (f.bad → f'.bad) ∧
      ∀ out, State.run ⟨f, out⟩ ts = some ⟨f', out⟩ := by
  obtain ⟨f', outer', hst, hraw, hbad, hrun⟩ := run_nest f [] h
  cases List.map_eq_nil_iff.mp hst
  exact ⟨f', hraw, hbad, hrun⟩

/-- A run keeps the brackets. -/
theorem nestAll_of_run {s s' : State} (h : s.run ts = some s') :
    nestAll (s.outer.map Prod.fst) ts = some (s'.outer.map Prod.fst) := by
  induction ts generalizing s with
  | nil =>
    cases h
    rfl
  | cons t ts ih =>
    obtain ⟨mid, hmid, hrest⟩ := Option.bind_eq_some_iff.mp h
    have hone : nest (s.outer.map Prod.fst) t = some (mid.outer.map Prod.fst) := by
      obtain ⟨f, outer⟩ := s
      cases t with
      | closing b =>
        cases outer with
        | nil => cases hmid
        | cons p outer =>
          simp only [State.next, nest, List.map_cons] at hmid ⊢
          split at hmid
          · cases hmid
            simp_all
          · cases hmid
      | semi => cases hmid
      | _ =>
        cases hmid
        rfl
    rw [nestAll, hone]
    exact ih hrest

/-- A text that reads as a condition has its brackets balanced. -/
theorem balanced_of_parse {e : Cond} (h : parse ts = some e) : Balanced ts := by
  unfold parse at h
  split at h
  · rename_i f hrun
    exact nestAll_of_run hrun
  · cases h

/-- The frame balanced tokens leave behind is the reading of those tokens. -/
theorem parse_eq_value (h : ∀ out, State.run ⟨{}, out⟩ ts = some ⟨f, out⟩) :
    parse ts = f.value := by
  rw [parse, h []]

end Backbone.Sql
