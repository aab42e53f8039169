import Backbone.Auth.Grants

/-!
# The spellings of a permission

What each spelling reads as, and when a spelling means what it says. Two halves around a colon read
`Backwards` when they are also an action-first spelling of something else: `admin:*`, `admin:payroll`,
`read:payroll`. A canonical spelling is written around a colon again, so a stored spelling whose parts
read backwards is rewritten to a permission for something else; and a transition name whose verb is a
generic action or `write` is rewritten to a permission for that action, which it never covered.

Reference: `backbone-auth/src/grants.rs`.
-/

namespace Backbone.Auth

open Text

variable {s t b a action resource : String} {held : Held} {first second raw : String}

/-! ## The characters of a half -/

theorem isName_iff :
    isName s = true ↔
      s.toList ≠ [] ∧ ∀ c ∈ s.toList, c.isLower = true ∨ c.isDigit = true ∨ c = '_' := by
  simp [isName, or_assoc]

/-- What a half is made of: nothing between a star and a small letter but digits and underscores. -/
theorem char_of_isHalf (h : isHalf s = true) {c : Char} (hc : c ∈ s.toList) :
    c = '*' ∨ 48 ≤ c.toNat ∧ c.toNat ≤ 57 ∨ c = '_' ∨ 97 ≤ c.toNat ∧ c.toNat ≤ 122 := by
  rw [isHalf, Bool.or_eq_true, beq_iff_eq] at h
  rcases h with rfl | hname
  · left
    simpa using hc
  · rcases (isName_iff.mp hname).2 c hc with hlower | hdigit | hbar
    · exact .inr (.inr (.inr (isLower_iff.mp hlower)))
    · exact .inr (.inl (isDigit_iff.mp hdigit))
    · exact .inr (.inr (.inl hbar))

theorem isHalf_of_isName (h : isName s = true) : isHalf s = true := by
  simp [isHalf, h]

section

variable (h : isHalf s = true)
include h

theorem notMem_of_isHalf {c : Char} (hstar : c ≠ '*') (hbar : c ≠ '_')
    (hn : c.toNat < 48 ∨ 57 < c.toNat ∧ c.toNat < 97 ∨ 122 < c.toNat) : c ∉ s.toList := by
  intro hc
  rcases char_of_isHalf h hc with hc | hc | hc | hc
  · exact hstar hc
  · omega
  · exact hbar hc
  · omega

theorem colon_notMem : ':' ∉ s.toList :=
  notMem_of_isHalf h (by decide) (by decide) (.inr (.inl (by decide)))

theorem dot_notMem : '.' ∉ s.toList :=
  notMem_of_isHalf h (by decide) (by decide) (.inl (by decide))

theorem isWhitespace_of_mem {c : Char} (hc : c ∈ s.toList) : isWhitespace c = false := by
  have hrange : c.toNat = 42 ∨ 48 ≤ c.toNat ∧ c.toNat ≤ 122 := by
    rcases char_of_isHalf h hc with rfl | hc | rfl | hc
    · exact .inl rfl
    · omega
    · exact .inr (by decide)
    · omega
  simp only [isWhitespace, Bool.or_eq_false_iff, Bool.and_eq_false_iff, decide_eq_false_iff_not,
    beq_eq_false_iff_ne]
  omega

end

/-! ## Reading -/

/-- What a trimmed string reads as. -/
inductive Spelled : String → Held → Prop
  | star : Spelled "*" ⟨"*", "*", false, none⟩
  | dotted {resource action : String} : isHalf resource = true → isHalf action = true →
      Spelled (resource ++ "." ++ action) ⟨resource, action, false, some .dotted⟩
  | transition {resource verb : String} : isHalf resource = true → isHalf verb = true →
      Spelled (resource ++ ":transition:" ++ verb) ⟨resource, verb, true, some .transition⟩
  | pair {first second : String} {held : Held} : readPair first second = some held →
      Spelled (spell first second) held

/-- What two segments read as, and when. -/
theorem readPair_cases (h : readPair first second = some held) :
    (first = "admin" ∧ second = "*" ∧ held = ⟨"*", "*", false, some .actionFirst⟩) ∨
    (first = "admin" ∧ isName second = true ∧ second ∉ genericActions ∧ second ≠ "write" ∧
      held = ⟨second, "*", false, some .actionFirst⟩) ∨
    (first ∈ ["read", "write", "delete"] ∧ isName second = true ∧
      held = ⟨second, first, false, some .actionFirst⟩) ∨
    (isHalf first = true ∧ isHalf second = true ∧ ¬ (first = "admin" ∧ second = "*") ∧
      ¬ (first = "admin" ∧ isName second = true ∧ second ∉ genericActions ∧ second ≠ "write") ∧
      ¬ (first ∈ ["read", "write", "delete"] ∧ isName second = true) ∧
      held = ⟨first, second, false, none⟩) := by
  unfold readPair at h
  split at h
  case isTrue hadmin => exact .inl ⟨hadmin.1, hadmin.2, (Option.some.inj h).symm⟩
  case isFalse hadmin =>
    split at h
    case isTrue hmodule =>
      obtain ⟨hfirst, hname, hgeneric, hwrite⟩ := hmodule
      exact .inr (.inl ⟨hfirst, hname, hgeneric, hwrite, (Option.some.inj h).symm⟩)
    case isFalse hmodule =>
      split at h
      case isTrue haction =>
        exact .inr (.inr (.inl ⟨haction.1, haction.2, (Option.some.inj h).symm⟩))
      case isFalse haction =>
        split at h
        case isTrue hhalf =>
          exact .inr (.inr (.inr ⟨hhalf.1, hhalf.2, hadmin, hmodule, haction,
            (Option.some.inj h).symm⟩))
        case isFalse => cases h

theorem isHalf_admin : isHalf "admin" = true := by decide

theorem isHalf_star : isHalf "*" = true := by decide

theorem isName_of_verb (h : s ∈ ["read", "write", "delete"]) : isName s = true := by
  simp only [List.mem_cons, List.not_mem_nil, or_false] at h
  rcases h with rfl | rfl | rfl <;> decide

/-- Two segments that read as something are halves. -/
theorem halves_of_readPair (h : readPair first second = some held) :
    isHalf first = true ∧ isHalf second = true := by
  rcases readPair_cases h with ⟨rfl, rfl, -⟩ | ⟨rfl, hname, -⟩ | ⟨hverb, hname, -⟩ | ⟨h₁, h₂, -⟩
  · exact ⟨isHalf_admin, isHalf_star⟩
  · exact ⟨isHalf_admin, isHalf_of_isName hname⟩
  · exact ⟨isHalf_of_isName (isName_of_verb hverb), isHalf_of_isName hname⟩
  · exact ⟨h₁, h₂⟩

/-- The parts of a held permission are halves. -/
theorem Spelled.halves (h : Spelled t held) :
    isHalf held.resource = true ∧ isHalf held.action = true := by
  cases h with
  | star => exact ⟨isHalf_star, isHalf_star⟩
  | dotted h₁ h₂ => exact ⟨h₁, h₂⟩
  | transition h₁ h₂ => exact ⟨h₁, h₂⟩
  | pair hpair =>
    rcases readPair_cases hpair with ⟨-, -, rfl⟩ | ⟨-, hname, -, -, rfl⟩ | ⟨hverb, hname, rfl⟩ |
      ⟨h₁, h₂, -, -, -, rfl⟩
    · exact ⟨isHalf_star, isHalf_star⟩
    · exact ⟨isHalf_of_isName hname, isHalf_star⟩
    · exact ⟨isHalf_of_isName hname, isHalf_of_isName (isName_of_verb hverb)⟩
    · exact ⟨h₁, h₂⟩

theorem toList_spell (a b : String) : (spell a b).toList = a.toList ++ ':' :: b.toList := by
  simp [spell]

theorem trim_around (ha : isHalf a = true) (hb : isHalf b = true) {sep : String}
    (hsep : (sep.toList.all fun c => !isWhitespace c) = true) :
    trim (a ++ sep ++ b) = a ++ sep ++ b := by
  apply trim_eq_self
  intro c hc
  rw [String.toList_append, String.toList_append, List.mem_append, List.mem_append] at hc
  rcases hc with (hc | hc) | hc
  · exact isWhitespace_of_mem ha hc
  · exact Bool.not_eq_true' _ ▸ List.all_eq_true.mp hsep c hc
  · exact isWhitespace_of_mem hb hc

theorem split_spell (ha : isHalf a = true) (hb : isHalf b = true) :
    split (spell a b) ':' = [a, b] := by
  have hjoin : spell a b = join (String.singleton ':') [a, b] := by
    apply String.toList_injective
    simp [join, spell]
  rw [hjoin]
  apply split_join (by simp)
  intro p hp
  simp only [List.mem_cons, List.not_mem_nil, or_false] at hp
  rcases hp with rfl | rfl
  · exact colon_notMem ha
  · exact colon_notMem hb

theorem transition_eq_join (resource verb : String) :
    resource ++ ":transition:" ++ verb = join (String.singleton ':') [resource, "transition", verb] := by
  apply String.toList_injective
  simp [join]

theorem split_transition (ha : isHalf a = true) (hb : isHalf b = true) :
    split (a ++ ":transition:" ++ b) ':' = [a, "transition", b] := by
  rw [transition_eq_join]
  apply split_join (by simp)
  intro p hp
  simp only [List.mem_cons, List.not_mem_nil, or_false] at hp
  rcases hp with rfl | rfl | rfl
  · exact colon_notMem ha
  · decide
  · exact colon_notMem hb

/-- A text with a colon is not a bare star. -/
theorem ne_star_of_contains (h : contains t ':' = true) : t ≠ "*" := by
  rintro rfl
  cases h

theorem readParts_some {parts : List String} (h : readParts parts = some held) :
    Spelled (join (String.singleton ':') parts) held := by
  match parts, h with
  | [resource, middle, verb], h =>
    rw [readParts] at h
    split at h
    case isTrue hmatch =>
      obtain ⟨rfl, hresource, hverb⟩ := hmatch
      rw [← transition_eq_join, ← Option.some.inj h]
      exact .transition hresource hverb
    case isFalse => cases h
  | [first, second], h => exact .pair h

theorem readDotted_some (h : readDotted t = some held) : Spelled t held := by
  unfold readDotted at h
  split at h
  case h_1 resource action hcut =>
    split at h
    case isTrue hhalves =>
      have ht : t = resource ++ "." ++ action := by
        apply String.toList_injective
        rw [toList_of_splitOnce hcut]
        simp
      rw [ht, ← Option.some.inj h]
      exact .dotted hhalves.1 hhalves.2
    case isFalse => cases h
  case h_2 => cases h

/-- A string reads as what it spells, trimmed. -/
theorem readHeld_eq_some : readHeld raw = some held ↔ Spelled (trim raw) held := by
  constructor
  · intro h
    unfold readHeld at h
    split at h
    case isTrue hstar =>
      rw [hstar, ← Option.some.inj h]
      exact .star
    case isFalse =>
      split at h
      case isTrue =>
        have hspelled := readParts_some h
        rwa [join_split] at hspelled
      case isFalse => exact readDotted_some h
  · intro h
    unfold readHeld
    generalize trim raw = t at h
    cases h with
    | star => rfl
    | dotted hr ha =>
      rename_i resource action
      have hcolon : contains (resource ++ "." ++ action) ':' = false := by
        simp [contains, colon_notMem hr, colon_notMem ha]
      have hcut : splitOnce (resource ++ "." ++ action) '.' = some (resource, action) :=
        splitOnce_append (dot_notMem hr) action
      have hne : resource ++ "." ++ action ≠ "*" := by
        intro heq
        rw [heq] at hcut
        cases hcut
      rw [if_neg hne, hcolon, if_neg (by simp), readDotted, hcut]
      exact if_pos ⟨hr, ha⟩
    | transition hr hv =>
      rename_i resource verb
      have hcolon : contains (resource ++ ":transition:" ++ verb) ':' = true := by
        simp [contains]
      rw [if_neg (ne_star_of_contains hcolon), if_pos hcolon, split_transition hr hv]
      exact if_pos ⟨rfl, hr, hv⟩
    | pair hpair =>
      rename_i first second
      obtain ⟨h₁, h₂⟩ := halves_of_readPair hpair
      have hcolon : contains (spell first second) ':' = true := by
        simp [contains, toList_spell]
      rw [if_neg (ne_star_of_contains hcolon), if_pos hcolon, split_spell h₁ h₂]
      exact hpair

/-- Two halves around a colon read as two segments. -/
theorem readHeld_spell (ha : isHalf a = true) (hb : isHalf b = true) :
    readHeld (spell a b) = readPair a b := by
  have htrim : trim (spell a b) = spell a b := trim_around ha hb (by decide)
  have hcolon : contains (spell a b) ':' = true := by
    simp [contains, toList_spell]
  unfold readHeld
  rw [htrim, if_neg (ne_star_of_contains hcolon), if_pos hcolon, split_spell ha hb]
  rfl

theorem spell_inj {c d : String} (ha : isHalf a = true) (hc : isHalf c = true)
    (h : spell a b = spell c d) : a = c ∧ b = d := by
  have hcut : splitOnce (spell a b) ':' = some (a, b) := splitOnce_append (colon_notMem ha) b
  have hcut' : splitOnce (spell c d) ':' = some (c, d) := splitOnce_append (colon_notMem hc) d
  rw [h, hcut'] at hcut
  have hpair := Option.some.inj hcut
  exact ⟨(congrArg Prod.fst hpair).symm, (congrArg Prod.snd hpair).symm⟩

/-! ## Covering -/

/-- What a held permission covers of a required resource and action. -/
def Held.Covers (held : Held) (resource action : String) : Prop :=
  (held.verbsOnly = true → action ∉ genericActions) ∧
    (held.action = "*" ∨ held.action = action ∨
      held.action = "write" ∧ action ∉ ["read", "delete", "purge"]) ∧
    (held.resource = "*" ∨ held.resource = resource ∨ held.resource = pluralOf resource)

theorem writeAlias_iff {held : String} :
    held = action ∨ writeAlias held action = true ↔
      held = action ∨ held = "write" ∧ action ∉ ["read", "delete", "purge"] := by
  by_cases hsame : held = action
  · simp [hsame]
  · simp only [hsame, false_or, writeAlias, Bool.and_eq_true, beq_iff_eq, bne_iff_ne, Bool.not_eq_true',
      List.contains_eq_mem, decide_eq_false_iff_not]
    constructor
    · rintro ⟨⟨hwrite, -⟩, hnot⟩
      exact ⟨hwrite, hnot⟩
    · rintro ⟨rfl, hnot⟩
      exact ⟨⟨rfl, fun h => hsame h.symm⟩, hnot⟩

theorem matchHeld_isSome_iff (hcolon : ':' ∉ resource.toList) :
    (matchHeld held (spell resource action)).isSome = true ↔ held.Covers resource action := by
  have hcut : splitOnce (spell resource action) ':' = some (resource, action) :=
    splitOnce_append hcolon action
  rw [Held.Covers, ← writeAlias_iff]
  unfold matchHeld
  rw [hcut]
  by_cases hverbs : held.verbsOnly = true ∧ action ∈ genericActions
  · simp [hverbs]
  · have hverbs' : held.verbsOnly = true → action ∉ genericActions :=
      fun h hmem => hverbs ⟨h, hmem⟩
    rw [and_iff_right hverbs']
    simp only [if_neg hverbs]
    by_cases haction : held.action = "*" ∨ held.action = action ∨ writeAlias held.action action = true
    · simp only [haction, not_true_eq_false, if_false, true_and]
      by_cases hresource : held.resource = "*" ∨ held.resource = resource
      · rcases hresource with h | h <;> simp [h]
      · rw [if_neg hresource]
        rw [not_or] at hresource
        by_cases hplural : held.resource = pluralOf resource
        · simp [hplural]
        · simp [hresource, hplural]
    · simp [haction]

/-- One held string covers a required permission when it reads as something that does. -/
theorem permissionMatches_iff (hcolon : ':' ∉ resource.toList) :
    permissionMatches raw (spell resource action) = true ↔
      ∃ held, readHeld raw = some held ∧ held.Covers resource action := by
  rw [permissionMatches, Option.any_eq_true]
  constructor
  · rintro ⟨held, hread, hmatch⟩
    exact ⟨held, hread, (matchHeld_isSome_iff hcolon).mp hmatch⟩
  · rintro ⟨held, hread, hcovers⟩
    exact ⟨held, hread, (matchHeld_isSome_iff hcolon).mpr hcovers⟩

theorem permissionMatches_of_read (h : readHeld raw = some held)
    (hcolon : ':' ∉ resource.toList) :
    permissionMatches raw (spell resource action) = true ↔ held.Covers resource action := by
  rw [permissionMatches_iff hcolon]
  constructor
  · rintro ⟨held', hread, hcovers⟩
    rw [h] at hread
    exact Option.some.inj hread ▸ hcovers
  · intro hcovers
    exact ⟨held, h, hcovers⟩

/-! ## What reads backwards -/

/-- Two halves whose spelling around a colon is an action-first spelling of something else. -/
def Backwards (resource action : String) : Prop :=
  (resource = "admin" ∧ action = "*") ∨
    (resource = "admin" ∧ isName action = true ∧ action ∉ genericActions ∧ action ≠ "write") ∨
    (resource ∈ ["read", "write", "delete"] ∧ isName action = true ∧ resource ≠ action)

instance (resource action : String) : Decidable (Backwards resource action) :=
  inferInstanceAs (Decidable (_ ∨ _ ∨ _))

/-- Halves that do not read backwards read as themselves. -/
theorem readPair_of_not_backwards (ha : isHalf a = true) (hb : isHalf b = true)
    (h : ¬ Backwards a b) : ∃ legacy, readPair a b = some ⟨a, b, false, legacy⟩ := by
  simp only [Backwards, not_or] at h
  obtain ⟨hstar, hmodule, hverb⟩ := h
  unfold readPair
  rw [if_neg hstar, if_neg hmodule]
  by_cases haction : a ∈ ["read", "write", "delete"] ∧ isName b = true
  · have hsame : a = b := by
      by_contra hne
      exact hverb ⟨haction.1, haction.2, hne⟩
    rw [if_pos haction, hsame]
    exact ⟨_, rfl⟩
  · rw [if_neg haction, if_pos ⟨ha, hb⟩]
    exact ⟨_, rfl⟩

/-- Halves that read backwards read as something else. -/
theorem readPair_of_backwards (h : Backwards a b) (hread : readPair a b = some held) :
    held.verbsOnly = false ∧ ¬ (held.resource = a ∧ held.action = b) := by
  rcases readPair_cases hread with ⟨rfl, rfl, rfl⟩ | ⟨rfl, hname, hgeneric, hwrite, rfl⟩ |
    ⟨hverb, hname, rfl⟩ | ⟨-, -, hstar, hmodule, hverb, rfl⟩
  · exact ⟨rfl, by decide⟩
  · refine ⟨rfl, ?_⟩
    rintro ⟨-, hstar⟩
    have hb : b = "*" := hstar.symm
    rw [hb] at hname
    exact absurd hname (by decide)
  · refine ⟨rfl, ?_⟩
    rintro ⟨hsame, -⟩
    rcases h with ⟨rfl, -⟩ | ⟨rfl, -⟩ | ⟨-, -, hne⟩
    · simp at hverb
    · simp at hverb
    · exact hne hsame.symm
  · rcases h with h | h | ⟨h₁, h₂, -⟩
    · exact absurd h hstar
    · exact absurd h hmodule
    · exact absurd ⟨h₁, h₂⟩ hverb

/-- A spelling around a colon is canonical for itself exactly when it does not read backwards. -/
theorem normalise_spell_iff (ha : isHalf a = true) (hb : isHalf b = true) :
    normalise (spell a b) = some (spell a b) ↔ ¬ Backwards a b := by
  rw [normalise, readHeld_spell ha hb]
  constructor
  · intro h hback
    obtain ⟨held, hread, hcanonical⟩ := Option.map_eq_some_iff.mp h
    obtain ⟨hverbs, hne⟩ := readPair_of_backwards hback hread
    rw [Held.canonical, hverbs, Bool.false_and, if_neg (by simp)] at hcanonical
    exact hne (spell_inj (Spelled.pair hread).halves.1 ha hcanonical)
  · intro h
    obtain ⟨legacy, hread⟩ := readPair_of_not_backwards ha hb h
    rw [hread]
    rfl

/-! ## Rewriting to the canonical spelling -/

/-- The stored spellings whose canonical form is a permission for something else: a dotted or a
transition spelling of halves that read backwards, a transition to a generic action or to `write`, and
the action-first spellings whose halves read backwards the other way round. -/
inductive Shifted : String → Prop
  | dotted {resource action : String} : Backwards resource action →
      Shifted (resource ++ "." ++ action)
  | transition {resource verb : String} : isHalf resource = true → isHalf verb = true →
      Backwards resource verb ∨ verb ∈ genericActions ∨ verb = "write" →
      Shifted (resource ++ ":transition:" ++ verb)
  | admin : Shifted (spell "admin" "admin")
  | crossed {first second : String} : first ∈ ["read", "write", "delete"] →
      second ∈ ["read", "write", "delete"] → first ≠ second → Shifted (spell first second)

theorem halves_of_backwards (h : Backwards a b) : isHalf a = true ∧ isHalf b = true := by
  rcases h with ⟨rfl, rfl⟩ | ⟨rfl, hname, -⟩ | ⟨hverb, hname, -⟩
  · exact ⟨isHalf_admin, isHalf_star⟩
  · exact ⟨isHalf_admin, isHalf_of_isName hname⟩
  · exact ⟨isHalf_of_isName (isName_of_verb hverb), isHalf_of_isName hname⟩

theorem Spelled.trim_eq (h : Spelled t held) : trim t = t := by
  cases h with
  | star => decide
  | dotted hr ha => exact trim_around hr ha (by decide)
  | transition hr hv => exact trim_around hr hv (by decide)
  | pair hpair =>
    obtain ⟨h₁, h₂⟩ := halves_of_readPair hpair
    exact trim_around h₁ h₂ (by decide)

theorem Spelled.unique {held' : Held} (h : Spelled t held) (h' : Spelled t held') :
    held = held' := by
  have hread : readHeld t = some held := readHeld_eq_some.mpr (h.trim_eq.symm ▸ h)
  have hread' : readHeld t = some held' := readHeld_eq_some.mpr (h.trim_eq.symm ▸ h')
  exact Option.some.inj (hread.symm.trans hread')

theorem readPair_verb (h : first ∈ ["read", "write", "delete"])
    (hname : isName second = true) :
    readPair first second = some ⟨second, first, false, some .actionFirst⟩ := by
  have hadmin : first ≠ "admin" := by
    rintro rfl
    simp at h
  unfold readPair
  rw [if_neg (fun h' => hadmin h'.1), if_neg (fun h' => hadmin h'.1), if_pos ⟨h, hname⟩]

/-- In the parts it reads as, a shifted spelling is one that reads backwards, or a transition to an
action. -/
theorem shifted_iff (h : Spelled t held) :
    Shifted t ↔ Backwards held.resource held.action ∨
      held.verbsOnly = true ∧ (held.action ∈ genericActions ∨ held.action = "write") := by
  constructor
  · intro hshifted
    cases hshifted with
    | dotted hback =>
      obtain ⟨hr, ha⟩ := halves_of_backwards hback
      rw [h.unique (.dotted hr ha)]
      exact .inl hback
    | transition hr hv hverb =>
      rw [h.unique (.transition hr hv)]
      exact hverb.imp_right fun h' => ⟨rfl, h'⟩
    | admin =>
      have hread : readPair "admin" "admin" = some ⟨"admin", "*", false, some .actionFirst⟩ := by
        decide
      rw [h.unique (.pair hread)]
      exact .inl (.inl ⟨rfl, rfl⟩)
    | crossed hfirst hsecond hne =>
      rw [h.unique (.pair (readPair_verb hfirst (isName_of_verb hsecond)))]
      exact .inl (.inr (.inr ⟨hsecond, isName_of_verb hfirst, hne.symm⟩))
  · intro hparts
    cases h with
    | star => simp [Backwards] at hparts
    | dotted hr ha => exact .dotted (hparts.resolve_right (by simp))
    | transition hr hv => exact .transition hr hv (hparts.imp_right And.right)
    | pair hpair =>
      rcases readPair_cases hpair with ⟨rfl, rfl, rfl⟩ | ⟨rfl, hname, -, -, rfl⟩ |
        ⟨hverb, hname, rfl⟩ | ⟨h₁, h₂, hstar, hmodule, hverb, rfl⟩
      · simp [Backwards] at hparts
      · -- `admin:m` reads `m:*`, which reads backwards for `admin` alone
        have hstar : isName "*" = false := by decide
        rcases hparts with (⟨rfl, -⟩ | ⟨-, hname', -⟩ | ⟨-, hname', -⟩) | ⟨h', -⟩
        · exact .admin
        · exact absurd hname' (by simp [hstar])
        · exact absurd hname' (by simp [hstar])
        · cases h'
      · -- `read:m` reads `m:read`, which reads backwards for another of the three
        rcases hparts with (⟨-, rfl⟩ | ⟨-, -, hgeneric, hwrite⟩ | ⟨hsecond, -, hne⟩) | ⟨h', -⟩
        · simp at hverb
        · simp only [List.mem_cons, List.not_mem_nil, or_false] at hverb
          rcases hverb with rfl | rfl | rfl
          · simp [genericActions] at hgeneric
          · exact absurd rfl hwrite
          · simp [genericActions] at hgeneric
        · exact .crossed hverb hsecond hne.symm
        · cases h'
      · rcases hparts with (h' | h' | ⟨h', h'', -⟩) | ⟨h', -⟩
        · exact absurd h' hstar
        · exact absurd h' hmodule
        · exact absurd ⟨h', h''⟩ hverb
        · cases h'

/-- A name that a resource half covers. -/
theorem exists_covered (h : isHalf resource = true) :
    ∃ name, isName name = true ∧ (resource = "*" ∨ resource = name) := by
  rw [isHalf, Bool.or_eq_true, beq_iff_eq] at h
  rcases h with hstar | hname
  · exact ⟨"a", by decide, .inl hstar⟩
  · exact ⟨resource, hname, .inr rfl⟩

/-- A verb grant covers a generic action by none of its actions. -/
theorem exists_uncovered (hhalf : isHalf held.resource = true) (hverbs : held.verbsOnly = true)
    (haction : held.action ∈ genericActions ∨ held.action = "write")
    (legacy : Option LegacySpelling) :
    ∃ resource action, isName resource = true ∧ isName action = true ∧
      Held.Covers ⟨held.resource, held.action, false, legacy⟩ resource action ∧
      ¬ held.Covers resource action := by
  obtain ⟨resource, hname, hcovers⟩ := exists_covered hhalf
  have hresource : held.resource = "*" ∨ held.resource = resource ∨
      held.resource = pluralOf resource := hcovers.imp_right .inl
  rcases haction with hgeneric | hwrite
  · refine ⟨resource, held.action, hname, ?_, ⟨by simp, .inr (.inl rfl), hresource⟩,
      fun h => h.1 hverbs hgeneric⟩
    simp only [genericActions, List.mem_cons, List.not_mem_nil, or_false] at hgeneric
    rcases hgeneric with h | h | h | h | h | h <;> rw [h] <;> decide
  · exact ⟨resource, "update", hname, by decide,
      ⟨by simp, .inr (.inr ⟨hwrite, by decide⟩), hresource⟩, fun h => h.1 hverbs (by decide)⟩

/-- Whether a grant is for verbs only makes no difference to one that names no generic action. -/
theorem covers_verbs_iff (h : held.verbsOnly = true →
      held.action ≠ "*" ∧ held.action ∉ genericActions ∧ held.action ≠ "write")
    (legacy : Option LegacySpelling) :
    Held.Covers ⟨held.resource, held.action, false, legacy⟩ resource action ↔
      held.Covers resource action := by
  constructor
  · rintro ⟨-, haction, hresource⟩
    refine ⟨fun hverbs => ?_, haction, hresource⟩
    obtain ⟨hstar, hgeneric, hwrite⟩ := h hverbs
    rcases haction with h' | h' | ⟨h', -⟩
    · exact absurd h' hstar
    · exact h' ▸ hgeneric
    · exact absurd h' hwrite
  · rintro ⟨-, haction, hresource⟩
    exact ⟨by simp, haction, hresource⟩

/-- Rewriting a stored permission to its canonical spelling keeps what it covers, and is done once,
exactly when the spelling is not a shifted one. -/
theorem rewriting_keeps_iff {h c : String} (hc : normalise h = some c)
    (heach : ∀ resource, c ≠ resource ++ ":<each verb>") :
    ((∀ resource action, isName resource = true → isName action = true →
        permissionMatches c (spell resource action) =
          permissionMatches h (spell resource action)) ∧
      normalise c = some c) ↔ ¬ Shifted (trim h) := by
  obtain ⟨held, hread, hcanonical⟩ := Option.map_eq_some_iff.mp hc
  have hspelled := readHeld_eq_some.mp hread
  obtain ⟨hr, ha⟩ := hspelled.halves
  have hplain : ¬ (held.verbsOnly = true ∧ held.action = "*") := by
    rintro ⟨hverbs, hstar⟩
    apply heach held.resource
    rw [← hcanonical, Held.canonical, hverbs, hstar]
    rfl
  have hspell : c = spell held.resource held.action := by
    rw [← hcanonical, Held.canonical, if_neg]
    simpa using hplain
  rw [shifted_iff hspelled, not_or, ← normalise_spell_iff hr ha, ← hspell, and_comm]
  apply and_congr_right
  intro honce
  rw [hspell, normalise_spell_iff hr ha] at honce
  obtain ⟨legacy, hpair⟩ := readPair_of_not_backwards hr ha honce
  have hreadc : readHeld c = some ⟨held.resource, held.action, false, legacy⟩ := by
    rw [hspell, readHeld_spell hr ha, hpair]
  constructor
  · rintro hsame ⟨hverbs, haction⟩
    obtain ⟨resource, action, hname, hname', hcovers, hnot⟩ :=
      exists_uncovered hr hverbs haction legacy
    have hcolon := colon_notMem (isHalf_of_isName hname)
    rw [← permissionMatches_of_read hreadc hcolon, hsame resource action hname hname',
      permissionMatches_of_read hread hcolon] at hcovers
    exact hnot hcovers
  · intro hverbs resource action hname _
    have hcolon := colon_notMem (isHalf_of_isName hname)
    rw [Bool.eq_iff_iff, permissionMatches_of_read hreadc hcolon,
      permissionMatches_of_read hread hcolon]
    apply covers_verbs_iff
    intro hv
    exact ⟨fun hs => hplain ⟨hv, hs⟩, fun hg => hverbs ⟨hv, .inl hg⟩, fun hw => hverbs ⟨hv, .inr hw⟩⟩

theorem rewriting_keeps_iff_ticket_read :
    ((∀ resource action, isName resource = true → isName action = true →
        permissionMatches "ticket:read" (spell resource action) =
          permissionMatches "ticket.read" (spell resource action)) ∧
      normalise "ticket:read" = some "ticket:read") ↔ ¬ Shifted (trim "ticket.read") := by
  refine rewriting_keeps_iff (by decide) ?_
  intro resource h
  have hlast := congrArg (fun s => s.toList.getLast?) h
  simp at hlast

/-- A dotted grant on an entity named `read` is rewritten to a grant on another entity. -/
theorem rewriting_moves_read_payroll :
    ¬ ∀ h c, normalise h = some c → (∀ resource, c ≠ resource ++ ":<each verb>") →
      (∀ resource action, isName resource = true → isName action = true →
        permissionMatches c (spell resource action) =
          permissionMatches h (spell resource action)) ∧
      normalise c = some c := by
  intro h
  have hread : normalise "read:payroll" = some "read:payroll" := by
    refine (h "read.payroll" "read:payroll" (by decide) ?_).2
    intro resource heq
    have hlast := congrArg (fun s => s.toList.getLast?) heq
    simp at hlast
  exact absurd hread (by decide)

/-! ## Everything a person holds -/

theorem scanHeld_iff (required : String) (held : List String) (hit : Option LegacyNote) :
    ((scanHeld required held hit).1 = true ∨ (scanHeld required held hit).2.isSome = true) ↔
      hit.isSome = true ∨ ∃ raw ∈ held, permissionMatches raw required = true := by
  induction held generalizing hit with
  | nil => simp [scanHeld]
  | cons raw rest ih =>
    rw [List.exists_mem_cons_iff, scanHeld, permissionMatches]
    cases hread : readHeld raw with
    | none => simpa using ih hit
    | some h =>
      simp only [Option.any_some]
      cases hmatch : matchHeld h required with
      | none => simpa using ih hit
      | some how =>
        cases how with
        | none => simp
        | some spelling =>
          simp only [ih, Option.isSome_some, true_or, or_true, iff_true]
          exact .inl (by cases hit <;> rfl)

/-- Without alternates, the check passes when one of the strings matches. -/
theorem checkHeld_iff (held : List String) (required : String) :
    (checkHeld held required []).1 = true ↔
      ∃ raw ∈ held, permissionMatches raw required = true := by
  have hscan := scanHeld_iff required held none
  rw [Option.isSome_none] at hscan
  simp only [Bool.false_eq_true, false_or] at hscan
  rw [← hscan, checkHeld]
  rcases scanHeld required held none with ⟨_ | _, _ | hit⟩ <;> simp

theorem permissionMatches_god (resource action : String) :
    permissionMatches godPermission (spell resource action) = true := by
  have hread : readHeld godPermission = some ⟨"*", "*", false, none⟩ := by decide
  have hcolon : contains (spell resource action) ':' = true := by simp [contains, toList_spell]
  obtain ⟨⟨r, a⟩, hcut⟩ := Option.isSome_iff_exists.mp (splitOnce_isSome hcolon)
  rw [permissionMatches, hread, Option.any_some, matchHeld, hcut]
  simp

/-- What is published of a person's grants passes the checks the grants pass. -/
theorem allows_eq_effective (g : Grants) (resource action : String) :
    g.allows (spell resource action) = (checkHeld g.effective (spell resource action) []).1 := by
  rw [Bool.eq_iff_iff, Grants.allows, Bool.or_eq_true, checkHeld_iff, checkHeld_iff,
    Grants.effective]
  by_cases hauthority : g.isAuthority = true
  · rw [if_pos hauthority]
    refine iff_of_true (.inl hauthority) ⟨godPermission, ?_, permissionMatches_god resource action⟩
    simp
  · rw [if_neg hauthority]
    simp [hauthority]

/-- A canonical spelling means itself, unless it is an action-first spelling of something else; and the
published list of a person's grants answers as the grants do. -/
theorem canonical_means_itself :
    (∀ r a, isHalf r = true → isHalf a = true → ¬ Backwards r a →
      permissionMatches (spell r a) (spell r a) = true ∧
      ∀ r₂ a₂, isName r₂ = true → isName a₂ = true →
        permissionMatches (spell r a) (spell r₂ a₂) = true →
        (r = "*" ∨ r = r₂ ∨ r = pluralOf r₂) ∧
          (a = "*" ∨ a = a₂ ∨ a = "write" ∧ a₂ ∉ ["read", "delete", "purge"])) ∧
    ∀ (g : Grants) (resource action : String), g.allows (spell resource action) =
      (checkHeld g.effective (spell resource action) []).1 := by
  refine ⟨?_, allows_eq_effective⟩
  intro r a hr ha hback
  obtain ⟨legacy, hpair⟩ := readPair_of_not_backwards hr ha hback
  have hread : readHeld (spell r a) = some ⟨r, a, false, legacy⟩ := by
    rw [readHeld_spell hr ha, hpair]
  constructor
  · rw [permissionMatches_of_read hread (colon_notMem hr)]
    exact ⟨by simp, .inr (.inl rfl), .inr (.inl rfl)⟩
  · intro r₂ a₂ hname _ hmatch
    rw [permissionMatches_of_read hread (colon_notMem (isHalf_of_isName hname))] at hmatch
    exact ⟨hmatch.2.2, hmatch.2.1⟩

theorem ticket_read_means_itself :
    permissionMatches (spell "ticket" "read") (spell "ticket" "read") = true :=
  (canonical_means_itself.1 "ticket" "read" (by decide) (by decide) (by decide)).1

/-- On an entity named `read`, a canonical spelling covers another entity instead. -/
theorem read_payroll_means_payroll_read :
    ¬ ∀ r a, isHalf r = true → isHalf a = true →
      permissionMatches (spell r a) (spell r a) = true := by
  intro h
  exact absurd (h "read" "payroll" (by decide) (by decide)) (by decide)

end Backbone.Auth
