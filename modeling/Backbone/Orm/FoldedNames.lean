import Backbone.Orm.ClientText

/-!
# Folding a folded name

`sanitizeFieldName` refuses a name of the internal `__` namespace first and folds what is left to
snake case last, with an underscore in front of every capital past the first character. A name is
folded for good when what comes back is not reserved, and sanitizing it again gives it back. Two kinds
of names are not: those where the fold adds a second underscore in front, and those with a capital
that no small letter stands for.

Reference: `backbone-orm/src/filter/validation.rs` (`sanitize_field_name`), `parser.rs`
(`to_snake_case`).
-/

namespace Backbone.Orm

open Text

variable {name : String}

/-! ## Letters -/

/-- The lower case of a letter is its own lower case. -/
def LowerStable (U : CharTables) : Prop :=
  ∀ c : Char, U.toLowercase (U.lowerFirst c) = [U.lowerFirst c]

theorem lowerStable_asciiTables : LowerStable asciiTables := by
  intro c
  have hlower : c.toLower.toLower = c.toLower := by
    rcases toLower_eq_self_or c with heq | ⟨-, hlow⟩
    · rw [heq, heq]
    · rcases toLower_eq_self_or c.toLower with heq | ⟨hup, -⟩
      · exact heq
      · rw [isLower_iff] at hlow
        rw [isUpper_iff] at hup
        omega
  exact congrArg (fun d => [d]) hlower

section Fold

variable {U : CharTables} {cs : List Char}

theorem LowerStable.lowerFirst_eq (h : LowerStable U) (c : Char) :
    U.lowerFirst (U.lowerFirst c) = U.lowerFirst c := by
  rw [CharTables.lowerFirst, h c]
  rfl

theorem toLowercase_underscore (h : AsciiCase U) : U.toLowercase '_' = ['_'] :=
  (h '_' (by decide)).1

theorem lowerFirst_underscore (h : AsciiCase U) : U.lowerFirst '_' = '_' := by
  rw [CharTables.lowerFirst, toLowercase_underscore h]
  rfl

theorem isUppercase_underscore (h : AsciiCase U) : U.isUppercase '_' = false :=
  (h '_' (by decide)).2

/-! ## What the fold is made of -/

/-- Behind the first character the fold has the letters, lowered, and an underscore for every
capital. -/
theorem mem_snakeFrom {d : Char} :
    d ∈ snakeFrom U false cs ↔
      (∃ c ∈ cs, U.lowerFirst c = d) ∨ d = '_' ∧ ∃ c ∈ cs, U.isUppercase c = true := by
  induction cs with
  | nil => simp [snakeFrom]
  | cons c cs ih =>
    rw [snakeFrom, List.mem_append, List.mem_cons, ih]
    simp only [List.exists_mem_cons_iff]
    cases hup : U.isUppercase c
    · have hnone : d ∉ (if false && !false then ['_'] else []) := by simp
      simp only [hnone, false_or, Bool.false_eq_true]
      rw [or_assoc, eq_comm]
    · have hone : d ∈ (if true && !false then ['_'] else []) ↔ d = '_' := by simp
      rw [hone]
      simp only [true_or, and_true]
      constructor
      · rintro (hd | hd | hd | ⟨hd, -⟩)
        · exact .inr hd
        · exact .inl (.inl hd.symm)
        · exact .inl (.inr hd)
        · exact .inr hd
      · rintro ((hd | hd) | hd)
        · exact .inr (.inl hd.symm)
        · exact .inr (.inr (.inl hd))
        · exact .inl hd

/-- The fold is longer than the name by one underscore for every capital. -/
theorem length_snakeFrom (cs : List Char) :
    (snakeFrom U false cs).length = cs.length + cs.countP U.isUppercase := by
  induction cs with
  | nil => rfl
  | cons c cs ih =>
    rw [snakeFrom, List.length_append, List.length_cons, ih, List.countP_cons, List.length_cons]
    cases U.isUppercase c
    · simp only [Bool.false_and, Bool.false_eq_true, if_false, List.length_nil]
      omega
    · simp only [Bool.not_false, Bool.and_self, if_true, List.length_singleton]
      omega

/-- Letters that are lowered already fold to themselves if no capital is among them, and only
then. -/
theorem snakeFrom_eq_self_iff (hcs : ∀ c ∈ cs, U.lowerFirst c = c) :
    snakeFrom U false cs = cs ↔ ∀ c ∈ cs, U.isUppercase c = false := by
  constructor
  · intro heq c hc
    have hlength := length_snakeFrom (U := U) cs
    rw [heq] at hlength
    have hcount : cs.countP U.isUppercase = 0 := by omega
    exact Bool.eq_false_iff.mpr (List.countP_eq_zero.mp hcount c hc)
  · intro hsmall
    induction cs with
    | nil => rfl
    | cons c cs ih =>
      obtain ⟨hc, hcs⟩ := List.forall_mem_cons.mp hcs
      obtain ⟨hlow, hsmall⟩ := List.forall_mem_cons.mp hsmall
      rw [snakeFrom, hlow, hc, ih hcs hsmall]
      rfl

theorem toList_toSnakeCase {c : Char} (h : name.toList = c :: cs) :
    (toSnakeCase U name).toList = U.lowerFirst c :: snakeFrom U false cs := by
  rw [toSnakeCase, String.toList_ofList, h, snakeFrom]
  simp

/-- A folded name is lowered throughout. -/
theorem toLowercase_of_mem_toSnakeCase (hcase : AsciiCase U) (hlower : LowerStable U) {d : Char}
    (hd : d ∈ (toSnakeCase U name).toList) : U.toLowercase d = [d] := by
  cases hname : name.toList with
  | nil =>
    rw [toSnakeCase, hname] at hd
    cases hd
  | cons c cs =>
    rw [toList_toSnakeCase hname, List.mem_cons, mem_snakeFrom] at hd
    rcases hd with rfl | ⟨b, -, rfl⟩ | ⟨rfl, -⟩
    · exact hlower c
    · exact hlower b
    · exact toLowercase_underscore hcase

/-! ## Names that fold for good -/

variable (U)

/-- The name begins with one underscore and a capital. -/
def underscoredCapital (name : String) : Bool :=
  match name.toList with
  | '_' :: c :: _ => U.isUppercase c
  | _ => false

/-- Past the first character every letter of the name has a small letter. -/
def Lowers (name : String) : Prop :=
  ∀ c ∈ name.toList.tail, U.isUppercase (U.lowerFirst c) = false

instance (name : String) : Decidable (Lowers U name) := List.decidableBAll _ _

/-- A column that is open to clients and stands for itself. -/
structure StandsForItself (field : String) : Prop where
  unreserved : startsWith field "__" = false
  fixed : sanitizeFieldName U field = some field

variable {U}

theorem startsWith_reserved_iff {s : String} :
    startsWith s "__" = true ↔ ∃ cs, s.toList = '_' :: '_' :: cs := by
  rw [startsWith, List.isPrefixOf_iff_prefix]
  constructor
  · rintro ⟨cs, hcs⟩
    exact ⟨cs, hcs.symm⟩
  · rintro ⟨cs, hcs⟩
    exact ⟨cs, hcs.symm⟩

theorem underscoredCapital_iff :
    underscoredCapital U name = true ↔
      ∃ c cs, name.toList = '_' :: c :: cs ∧ U.isUppercase c = true := by
  unfold underscoredCapital
  constructor
  · intro h
    split at h
    · exact ⟨_, _, ‹_›, h⟩
    · cases h
  · rintro ⟨c, cs, hname, hc⟩
    rw [hname]
    exact hc

/-- The fold reserves an unreserved name where it adds a second underscore in front. -/
theorem startsWith_toSnakeCase_iff (hcase : AsciiCase U) (hname : startsWith name "__" = false) :
    startsWith (toSnakeCase U name) "__" = true ↔ underscoredCapital U name = true := by
  have hunder : ∀ {c : Char}, U.lowerFirst c = '_' → c = '_' :=
    fun h => U.eq_of_lowerFirst_eq (by decide) (by decide) h
  rw [startsWith_reserved_iff, underscoredCapital_iff]
  constructor
  · rintro ⟨ds, hds⟩
    cases hcs : name.toList with
    | nil =>
      rw [toSnakeCase, hcs] at hds
      cases hds
    | cons a cs =>
      rw [toList_toSnakeCase hcs] at hds
      obtain ⟨ha, hcs'⟩ := List.cons.inj hds
      obtain rfl := hunder ha
      cases cs with
      | nil => cases hcs'
      | cons c cs =>
        refine ⟨c, cs, rfl, ?_⟩
        -- a small letter behind the underscore would be an underscore itself
        by_contra hup
        rw [snakeFrom, Bool.eq_false_iff.mpr hup] at hcs'
        obtain rfl := hunder (List.cons.inj hcs').1
        rw [startsWith_reserved_iff.mpr ⟨cs, hcs⟩] at hname
        cases hname
  · rintro ⟨c, cs, hcs, hup⟩
    refine ⟨U.lowerFirst c :: snakeFrom U false cs, ?_⟩
    rw [toList_toSnakeCase hcs, lowerFirst_underscore hcase, snakeFrom, hup]
    rfl

/-- Folding again changes nothing when every letter has a small letter. -/
theorem toSnakeCase_toSnakeCase_iff (hcase : AsciiCase U) (hlower : LowerStable U) :
    toSnakeCase U (toSnakeCase U name) = toSnakeCase U name ↔ Lowers U name := by
  cases hname : name.toList with
  | nil =>
    have hempty : name = "" := String.toList_eq_nil_iff.mp hname
    subst hempty
    exact ⟨fun _ c hc => absurd hc (by simp), fun _ => rfl⟩
  | cons c cs =>
    have hlow : ∀ d ∈ snakeFrom U false cs, U.lowerFirst d = d := by
      intro d hd
      rcases mem_snakeFrom.mp hd with ⟨b, -, rfl⟩ | ⟨rfl, -⟩
      · exact hlower.lowerFirst_eq b
      · exact lowerFirst_underscore hcase
    have hcapitals : (∀ d ∈ snakeFrom U false cs, U.isUppercase d = false) ↔ Lowers U name := by
      rw [Lowers, hname]
      constructor
      · intro h b hb
        exact h _ (mem_snakeFrom.mpr (.inl ⟨b, hb, rfl⟩))
      · intro h d hd
        rcases mem_snakeFrom.mp hd with ⟨b, hb, rfl⟩ | ⟨rfl, -⟩
        · exact h b hb
        · exact isUppercase_underscore hcase
    rw [← hcapitals, ← snakeFrom_eq_self_iff hlow, ← String.toList_inj,
      toList_toSnakeCase (toList_toSnakeCase hname), toList_toSnakeCase hname, hlower.lowerFirst_eq]
    exact ⟨fun h => (List.cons.inj h).2, fun h => congrArg _ h⟩

end Fold

/-! ## Sanitizing again -/

section Sanitize

variable {U : CharTables} {field t : String}

theorem unreserved_of_sanitize (h : sanitizeFieldName U name = some field) :
    startsWith name "__" = false := by
  unfold sanitizeFieldName at h
  split_ifs at h with _ hreserved
  exact Bool.eq_false_iff.mpr hreserved

theorem containsText_of_not_mem {s : String} {c : Char} (ht : c ∈ t.toList) (hs : c ∉ s.toList) :
    containsText s t = false := by
  rw [containsText, List.any_eq_false]
  intro suffix hsuffix hprefix
  have hsub := (List.isPrefixOf_iff_prefix.mp hprefix).subset ht
  exact hs (((List.mem_tails _ _).mp hsuffix).subset hsub)

/-- Every dangerous text has a character that no identifier has. -/
theorem punctuated_of_dangerous (h : t ∈ dangerousPatterns) :
    ∃ c ∈ t.toList, c.toNat < 128 ∧ c.isAlphanum = false ∧ c ≠ '_' := by
  have hany : ∀ t ∈ dangerousPatterns, (t.toList.any fun c =>
      decide (c.toNat < 128 ∧ c.isAlphanum = false ∧ c ≠ '_')) = true := by
    decide +kernel
  obtain ⟨c, hc, hpunct⟩ := List.any_eq_true.mp (hany t h)
  exact ⟨c, hc, of_decide_eq_true hpunct⟩

/-- An identifier that is lowered already is accepted where it is not reserved. -/
theorem sanitize_of_identifier (hid : Identifier U field)
    (hlow : ∀ d ∈ field.toList, U.toLowercase d = [d]) (hopen : startsWith field "__" = false) :
    sanitizeFieldName U field = some (toSnakeCase U field) := by
  have hlower : U.lower field = field := by
    rw [CharTables.lower, List.flatMap_congr hlow, List.flatMap_singleton', String.ofList_toList]
  have hall : (field.toList.all fun c => U.isAlphanumeric c || c == '_') = true := by
    rw [List.all_eq_true]
    intro c hc
    simpa using hid.2 c hc
  have hsafe : dangerousPatterns.any (containsText (U.lower field)) = false := by
    rw [List.any_eq_false]
    intro t ht
    obtain ⟨c, hc, hascii, halnum, hne⟩ := punctuated_of_dangerous ht
    rw [Bool.not_eq_true, hlower]
    refine containsText_of_not_mem hc fun hmem => ?_
    rcases hid.2 c hmem with hletter | hunder
    · rw [U.alphanumeric_ascii c hascii, halnum] at hletter
      cases hletter
    · exact hne hunder
  rw [sanitizeFieldName, if_neg hid.1, hopen, hall, hsafe]
  rfl

/-- The folded name of an accepted one stands for itself exactly when the name does not begin with
one underscore and a capital, and each of its letters past the first has a small letter. -/
theorem standsForItself_iff (hcase : AsciiCase U) (hlower : LowerStable U) {name field : String}
    (h : sanitizeFieldName U name = some field) :
    StandsForItself U field ↔ underscoredCapital U name = false ∧ Lowers U name := by
  have hid := identifier_of_sanitize h
  have hreserved := startsWith_toSnakeCase_iff hcase (unreserved_of_sanitize h)
  have hfolded : toSnakeCase U (toSnakeCase U name) = toSnakeCase U name ↔ Lowers U name :=
    toSnakeCase_toSnakeCase_iff hcase hlower
  obtain rfl := eq_toSnakeCase_of_sanitize h
  constructor
  · intro hstands
    constructor
    · rw [Bool.eq_false_iff, ne_eq, ← hreserved, hstands.unreserved]
      exact Bool.false_ne_true
    · exact hfolded.mp (eq_toSnakeCase_of_sanitize hstands.fixed).symm
  · rintro ⟨hcapital, hlowers⟩
    have hopen : startsWith (toSnakeCase U name) "__" = false := by
      rw [Bool.eq_false_iff, ne_eq, hreserved, hcapital]
      exact Bool.false_ne_true
    refine ⟨hopen, ?_⟩
    rw [sanitize_of_identifier hid (fun d => toLowercase_of_mem_toSnakeCase hcase hlower) hopen,
      hfolded.mpr hlowers]

theorem standsForItself_employeeId : StandsForItself asciiTables "employee_id" := by
  have haccepted : sanitizeFieldName asciiTables "employeeId" = some "employee_id" := by
    decide +kernel
  refine (standsForItself_iff asciiCase_asciiTables lowerStable_asciiTables haccepted).mpr ?_
  constructor
  · decide +kernel
  · decide +kernel

/-- `_Abc` is accepted and folds to a reserved name. -/
theorem not_standsForItself : sanitizeFieldName asciiTables "_Abc" = some "__abc" ∧
    ¬ StandsForItself asciiTables "__abc" := by
  refine ⟨by decide +kernel, fun h => ?_⟩
  have hreserved : startsWith "__abc" "__" = true := by decide +kernel
  rw [h.unreserved] at hreserved
  cases hreserved

end Sanitize

end Backbone.Orm
