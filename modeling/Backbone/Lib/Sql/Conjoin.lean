import Backbone.Lib.Sql.Eval

/-!
# Conditions joined with AND

A condition written behind another one and an AND, without parentheses. AND binds tighter than OR, so
an OR that stands in no bracket of either condition takes its own side only; without one
(`looseOr`) the joined text holds of the rows of which both conditions hold, `holds_and_join`.

The second condition is read by two machines, one that starts afresh and one that has read the first
condition. They stay side by side (`State.Beside`): the same operand, the same brackets, and the
conjuncts of one with the first condition in front.
-/

namespace Backbone.Sql

variable {ts : List (Tok ℕ)}

/-- Does a condition have an OR outside every bracket? -/
def looseOr (ts : List (Tok ℕ)) : Bool :=
  match State.run {} ts with
  | some ⟨f, []⟩ => f.disj.isSome
  | _ => false

/-! ## Two machines side by side -/

/-- Two states that differ in their outermost frames only, and there by `R`. -/
inductive State.Beside (R : Frame → Frame → Prop) : State → State → Prop
  | bottom {f g : Frame} (h : R f g) : Beside R ⟨f, []⟩ ⟨g, []⟩
  | nested {f g : Frame} (h : R f g) (cur : Frame) (inner : List (Bracket × Frame)) (b : Bracket) :
      Beside R ⟨cur, inner ++ [(b, f)]⟩ ⟨cur, inner ++ [(b, g)]⟩

section Beside

variable {R : Frame → Frame → Prop} (hpush : ∀ {f g} t, R f g → R (f.push t) (g.push t))
  (hgroup : ∀ {f g} b ts v, R f g → R (f.group b ts v) (g.group b ts v)) {s s' u : State}
include hpush hgroup

theorem State.Beside.next (h : Beside R s s') {t : Tok ℕ}
    (hnext : s.next t = some u) : ∃ u', s'.next t = some u' ∧ Beside R u u' := by
  by_cases hflat : Flat t
  · rw [next_of_flat hflat] at hnext
    cases hnext
    refine ⟨_, next_of_flat hflat s', ?_⟩
    cases h with
    | bottom h => exact .bottom (hpush t h)
    | nested h cur inner b => exact .nested h (cur.push t) inner b
  · cases t with
    | opening b =>
      cases hnext
      cases h with
      | @bottom f g h => exact ⟨_, rfl, .nested h {} [] b⟩
      | nested h cur inner b' => exact ⟨_, rfl, .nested h {} ((b, cur) :: inner) b'⟩
    | closing b =>
      cases h with
      | bottom h => cases hnext
      | @nested f g h cur inner b' =>
        -- The bracket that closes may be the outermost one.
        rcases inner with _ | ⟨⟨b'', k⟩, inner⟩ <;>
          simp only [State.next, List.nil_append, List.cons_append] at hnext ⊢ <;>
          split at hnext <;> cases hnext
        · rename_i hb
          exact ⟨_, if_pos hb, .bottom (hgroup b _ _ h)⟩
        · rename_i hb
          exact ⟨_, if_pos hb, .nested h _ inner b'⟩
    | semi => cases hnext
    | _ => exact absurd trivial hflat

theorem State.Beside.run (h : Beside R s s') (hrun : s.run ts = some u) :
    ∃ u', s'.run ts = some u' ∧ Beside R u u' := by
  induction ts generalizing s s' with
  | nil =>
    cases hrun
    exact ⟨s', rfl, h⟩
  | cons t ts ih =>
    obtain ⟨mid, hmid, hrest⟩ := Option.bind_eq_some_iff.mp hrun
    obtain ⟨mid', hmid', hbeside⟩ := h.next hpush hgroup hmid
    obtain ⟨u', hu', h'⟩ := ih hbeside hrest
    exact ⟨u', by rw [State.run_cons, hmid', Option.bind_some, hu'], h'⟩

end Beside

/-! ## Behind a condition and an AND -/

variable {ρ : Type*} {M : Meaning ρ} {ps : List String} {r : ρ}

/-- `g` reads what `f` reads, behind conjuncts that hold of the row when `e` does. Once an OR was read
nothing is said about them. -/
structure Frame.Behind (M : Meaning ρ) (ps : List String) (r : ρ) (e : Cond) (f g : Frame) :
    Prop where
  seg : g.seg = f.seg
  lone : g.lone = f.lone
  betweens : g.betweens = f.betweens
  cases : g.cases = f.cases
  bad : g.bad = f.bad
  conjuncts : f.bad ∨ f.disj.isSome ∨ f.disj = none ∧ g.disj = none ∧ ∃ c, g.conj = some c ∧
    (holds M ps (some c) r ↔ holds M ps (some e) r ∧ ∀ x ∈ f.conj, holds M ps (some x) r)

namespace Frame.Behind

variable {e : Cond} {f g : Frame}

section

variable (h : Behind M ps r e f g) (t : Tok ℕ)
include h

theorem operand : g.operand = f.operand := by
  simp only [Frame.operand, h.seg, h.lone]

theorem conjoined (hgood : f.bad = false) (hdisj : f.disj = none) :
    ∃ c, g.conj = some c ∧ g.conjoined = f.operand.map (andElse (some c)) ∧
      (holds M ps (some c) r ↔ holds M ps (some e) r ∧ ∀ x ∈ f.conj, holds M ps (some x) r) := by
  rcases h.conjuncts with hbad | hsome | ⟨-, -, c, hc, hholds⟩
  · simp [hgood] at hbad
  · simp [hdisj] at hsome
  · exact ⟨c, hc, by rw [Frame.conjoined, h.operand, hc], hholds⟩

/-- An operand is there on both sides or on neither. -/
theorem conjoined_isNone : g.conjoined.isNone = f.conjoined.isNone := by
  simp [Frame.conjoined, h.operand]

theorem add : Behind M ps r e (f.add t) (g.add t) :=
  ⟨by simp [Frame.add, h.seg], rfl, h.betweens, h.cases, h.bad, h.conjuncts⟩

theorem afterAnd : Behind M ps r e f.afterAnd g.afterAnd := by
  refine ⟨rfl, rfl, h.betweens, h.cases, ?_, ?_⟩
  · simp [Frame.afterAnd, h.bad, h.conjoined_isNone]
  · rcases h.conjuncts with hbad | hsome | ⟨hf, hg, c, hc, hholds⟩
    · exact .inl (by simp [Frame.afterAnd, hbad])
    · exact .inr (.inl hsome)
    · cases hop : f.operand with
      | none => exact .inl (by simp [Frame.afterAnd, Frame.conjoined, hop])
      | some x =>
        refine .inr (.inr ⟨hf, hg, .and c x, ?_, ?_⟩)
        · simp [Frame.afterAnd, Frame.conjoined, h.operand, hop, hc, andElse]
        · simp [Frame.afterAnd, Frame.conjoined, hop, holds_and, hholds, holds_andElse, and_assoc]

theorem afterOr : Behind M ps r e f.afterOr g.afterOr := by
  refine ⟨rfl, rfl, rfl, h.cases, ?_, ?_⟩
  · simp [Frame.afterOr, h.bad, h.betweens, h.conjoined_isNone]
  · cases hop : f.conjoined with
    | none => exact .inl (by simp [Frame.afterOr, hop])
    | some x => exact .inr (.inl (by simp [Frame.afterOr, hop]))

theorem endsInCase : g.endsInCase = f.endsInCase := by
  simp [Frame.endsInCase, h.seg]

theorem push : Behind M ps r e (f.push t) (g.push t) := by
  have hs : Behind M ps r e (f.structural t) (g.structural t) := by
    have hadd := h.add t
    unfold Frame.structural
    simp only [h.cases, h.betweens, h.seg]
    split
    · split
      · exact hadd
      · split
        · exact ⟨hadd.seg, rfl, rfl, hadd.cases, hadd.bad, hadd.conjuncts⟩
        · exact h.afterAnd
    · split
      · exact hadd
      · exact h.afterOr
    · split
      · exact hadd
      · exact ⟨hadd.seg, rfl, rfl, hadd.cases, hadd.bad, hadd.conjuncts⟩
    · exact ⟨hadd.seg, rfl, hadd.betweens, rfl, hadd.bad, hadd.conjuncts⟩
    · exact ⟨hadd.seg, rfl, hadd.betweens, rfl, hadd.bad, hadd.conjuncts⟩
    · exact hadd
  refine ⟨hs.seg, hs.lone, hs.betweens, hs.cases, ?_, ?_⟩
  · simp [Frame.push, hs.bad, h.endsInCase]
  · exact hs.conjuncts.imp (fun hbad => by simp [Frame.push, hbad]) id

theorem group (b : Bracket) (ts : List (Tok ℕ)) (v : Option Cond) :
    Behind M ps r e (f.group b ts v) (g.group b ts v) := by
  refine ⟨?_, ?_, h.betweens, h.cases, h.bad, h.conjuncts⟩ <;> simp [Frame.group, h.seg]

/-- What both frames read, when the condition ends here. -/
theorem value {x : Cond} (hx : f.value = some x)
    (hdisj : f.disj = none) :
    g.disj = none ∧ ∃ y, g.value = some y ∧
      (holds M ps (some y) r ↔ holds M ps (some e) r ∧ holds M ps (some x) r) := by
  unfold Frame.value at hx
  split at hx
  · cases hx
  · rename_i hclosed
    simp only [Bool.or_eq_true, not_or, Bool.not_eq_true] at hclosed
    obtain ⟨⟨hgood, hb⟩, hcs⟩ := hclosed
    obtain ⟨c, hc, hconj, hholds⟩ := h.conjoined hgood hdisj
    have hnone : g.disj = none := by
      rcases h.conjuncts with hbad | hsome | ⟨-, hg, -⟩
      · simp [hgood] at hbad
      · simp [hdisj] at hsome
      · exact hg
    rw [hdisj, Frame.conjoined] at hx
    cases hop : f.operand with
    | none => simp [hop] at hx
    | some o =>
      rw [hop] at hx hconj
      cases hx
      refine ⟨hnone, .and c o, ?_, ?_⟩
      · simp [Frame.value, h.bad, h.betweens, h.cases, hgood, hb, hcs, hconj, hnone, orElse, andElse]
      · simp [holds_and, hholds, orElse, holds_andElse, and_assoc]

end

end Frame.Behind

/-- The frame a condition leaves when the AND behind it was read. -/
theorem behind_afterAnd {f : Frame} {e : Cond} (hv : f.value = some e) (hdisj : f.disj = none) :
    Frame.Behind M ps r e {} (f.push Link.and.tok) := by
  unfold Frame.value at hv
  split at hv
  · cases hv
  · rename_i hclosed
    simp only [Bool.or_eq_true, not_or, Bool.not_eq_true, bne_eq_false_iff_eq] at hclosed
    obtain ⟨⟨hgood, hb⟩, hcs⟩ := hclosed
    rw [hdisj] at hv
    obtain ⟨x, hx, hxe⟩ := Option.map_eq_some_iff.mp hv
    have hand : keywordOf Link.and.tok = some .and := by decide
    have hword : isOperator Link.and.tok = false := by decide
    have hpush : f.structural Link.and.tok = f.afterAnd := by
      simp [Frame.structural, hand, hb, hcs]
    refine ⟨?_, ?_, ?_, ?_, ?_, .inr (.inr ⟨rfl, ?_, e, ?_, by simp⟩)⟩
    · simp [Frame.push, hpush, Frame.afterAnd]
    · simp [Frame.push, hpush, Frame.afterAnd]
    · simp [Frame.push, hpush, Frame.afterAnd, hb]
    · simp [Frame.push, hpush, Frame.afterAnd, hcs]
    · simp [Frame.push, hpush, Frame.afterAnd, hgood, hx, hword]
    · simp [Frame.push, hpush, Frame.afterAnd, hdisj]
    · simpa [Frame.push, hpush, Frame.afterAnd, hx, orElse] using hxe

/-- The frame in which a condition was read to its end. -/
theorem run_of_parse {e : Cond} (h : parse ts = some e) :
    ∃ f, State.run {} ts = some ⟨f, []⟩ ∧ f.value = some e ∧ looseOr ts = f.disj.isSome := by
  unfold parse at h
  split at h
  · rename_i f hrun
    exact ⟨f, hrun, h, by simp [looseOr, hrun]⟩
  · cases h

/-- A condition that reads and has no OR outside its brackets. -/
def Tight (ts : List (Tok ℕ)) : Prop := (parse ts).isSome ∧ looseOr ts = false

instance (ts : List (Tok ℕ)) : Decidable (Tight ts) := inferInstanceAs (Decidable (_ ∧ _))

/-- Two conditions with an AND between them hold together. -/
theorem holds_and_join {us : List (Tok ℕ)} (hts : Tight ts) (hus : Tight us) :
    Tight (ts ++ Link.and.tok :: us) ∧ (holds M ps (parse (ts ++ Link.and.tok :: us)) r ↔
      holds M ps (parse ts) r ∧ holds M ps (parse us) r) := by
  obtain ⟨e₁, h₁⟩ := Option.isSome_iff_exists.mp hts.1
  obtain ⟨e₂, h₂⟩ := Option.isSome_iff_exists.mp hus.1
  obtain ⟨f₁, hrun₁, hv₁, hl₁⟩ := run_of_parse h₁
  obtain ⟨f₂, hrun₂, hv₂, hl₂⟩ := run_of_parse h₂
  have hd₁ : f₁.disj = none := by simpa [hts.2] using hl₁.symm
  have hd₂ : f₂.disj = none := by simpa [hus.2] using hl₂.symm
  have hbehind : Frame.Behind M ps r e₁ {} (f₁.push Link.and.tok) := behind_afterAnd hv₁ hd₁
  obtain ⟨u, hrun, hbeside⟩ :=
    (State.Beside.bottom hbehind).run (fun t h => h.push t) (fun b ts v h => h.group b ts v) hrun₂
  have hall : ∃ g, State.run {} (ts ++ Link.and.tok :: us) = some ⟨g, []⟩ ∧
      Frame.Behind M ps r e₁ f₂ g := by
    generalize hs : (⟨f₂, []⟩ : State) = s at hbeside
    cases hbeside with
    | @bottom f g h =>
      cases hs
      refine ⟨g, ?_, h⟩
      rw [State.run_append, hrun₁, Option.bind_some, State.run_cons,
        next_of_flat Link.and.flat_tok, Option.bind_some]
      exact hrun
    | nested h cur inner b => simp at hs
  obtain ⟨g, hg, hend⟩ := hall
  obtain ⟨hnone, y, hy, hholds⟩ := hend.value hv₂ hd₂
  have hparse : parse (ts ++ Link.and.tok :: us) = some y := by rw [parse, hg]; exact hy
  refine ⟨⟨by simp [hparse], by simp [looseOr, hg, hnone]⟩, ?_⟩
  rw [hparse, h₁, h₂]
  exact hholds

/-- Conditions joined with AND hold of a row when each of them does. -/
theorem holds_and_chain {rest : List (List (Tok ℕ))} (hts : Tight ts)
    (hrest : ∀ us ∈ rest, Tight us) :
    holds M ps (parse (chainToks ts (rest.map fun us => (Link.and, us)))) r ↔
      holds M ps (parse ts) r ∧ ∀ us ∈ rest, holds M ps (parse us) r := by
  induction rest generalizing ts with
  | nil => simp [chainToks]
  | cons us rest ih =>
    obtain ⟨hus, hrest⟩ := List.forall_mem_cons.mp hrest
    have hjoin : Tight (ts ++ Link.and.tok :: us) ∧
        (holds M ps (parse (ts ++ Link.and.tok :: us)) r ↔
          holds M ps (parse ts) r ∧ holds M ps (parse us) r) := holds_and_join hts hus
    have hassoc : chainToks ts ((us :: rest).map fun us => (Link.and, us)) =
        chainToks (ts ++ Link.and.tok :: us) (rest.map fun us => (Link.and, us)) := by
      simp [chainToks]
    rw [hassoc, ih hjoin.1 hrest, hjoin.2, List.forall_mem_cons, and_assoc]

end Backbone.Sql
