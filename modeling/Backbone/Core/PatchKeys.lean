import Backbone.Core.CrudRoutes
import Backbone.Core.RefusedColumns

/-!
# The keys of a patch

A patch may spell a field as the entity does, in snake case, or as the response does, in camel case.
`camelToSnakeCase` folds the second spelling back onto the first, for the merge and for the write gate.
`snakeToCamel` drops every underscore, so the way back must find each boundary from the letters alone:
it does where a capital follows a lowercase letter or a digit, and where a capital between capitals
starts a word.

The keys of one body are a map's: distinct, and in no order of their own.

Reference: `backbone-core/src/http.rs`.
-/

namespace Backbone.Core

open Text
open Workflow (Value)

variable {c : Char} {cs : List Char} {toUppercase : Char → List Char}

/-! ## Letters -/

/-- What `char::to_uppercase` documents of lowercase ASCII letters and digits. -/
def AsciiUpper (toUppercase : Char → List Char) : Prop :=
  ∀ c : Char, c.isLower ∨ c.isDigit → toUppercase c = [c.toUpper]

/-- A character of a snake_case name other than the underscore. -/
def Plain (c : Char) : Prop := c.isLower ∨ c.isDigit

theorem Plain.ascii (h : Plain c) : c.toNat < 128 := by
  rcases h with h | h
  · have := (isLower_iff.mp h).2
    omega
  · have := (isDigit_iff.mp h).2
    omega

theorem Plain.facts (h : Plain c) : c.isUpper = false ∧ c ≠ '_' := by
  have hall := @ascii_forall (fun c => c.isLower ∨ c.isDigit → c.isUpper = false ∧ c ≠ '_')
    (by decide +kernel) c h.ascii
  exact hall h

theorem Plain.not_upper (h : Plain c) : c.isUpper = false := h.facts.1

theorem Plain.ne_underscore (h : Plain c) : c ≠ '_' := h.facts.2

theorem toUpper_of_lower (h : c.isLower) :
    c.toUpper.isUpper ∧ c.toUpper.toLower = c ∧ c.toUpper.isLower = false ∧
      c.toUpper.isDigit = false := by
  have hall := @ascii_forall (fun c => c.isLower → c.toUpper.isUpper ∧ c.toUpper.toLower = c ∧
    c.toUpper.isLower = false ∧ c.toUpper.isDigit = false) (by decide +kernel) c
    (Plain.ascii (.inl h))
  exact hall h

theorem toUpper_of_digit (h : c.isDigit) : c.toUpper = c ∧ c.isLower = false := by
  have hall := @ascii_forall (fun c => c.isDigit → c.toUpper = c ∧ c.isLower = false)
    (by decide +kernel) c (Plain.ascii (.inr h))
  exact hall h

/-! ## Names -/

/-- A segment of a snake_case name. -/
structure Segment where
  head : Char
  tail : List Char
  plain : ∀ c ∈ head :: tail, Plain c

def Segment.chars (s : Segment) : List Char := s.head :: s.tail

/-- The segments behind the first, each behind an underscore. -/
def underscored (segments : List Segment) : List Char := segments.flatMap fun s => '_' :: s.chars

/-- The segments behind the first, as `snakeToCamel` spells them. -/
def capitalized (segments : List Segment) : List Char :=
  segments.flatMap fun s => s.head.toUpper :: s.tail

/-- A snake_case name: segments of lowercase letters and digits joined by single underscores, the
first starting with a letter. -/
structure SnakeName where
  first : Segment
  later : List Segment
  starts : first.head.isLower

def SnakeName.chars (name : SnakeName) : List Char := name.first.chars ++ underscored name.later

def SnakeName.text (name : SnakeName) : String := String.ofList name.chars

/-- Each of the segments starts with a letter, and one behind a capital that stands alone goes on
with a lowercase letter. `alone` says whether what is before the segments is such a capital. -/
def splitsAfter (alone : Bool) : List Segment → Bool
  | [] => true
  | s :: segments =>
    s.head.isLower && (!alone || s.tail.head?.any Char.isLower) &&
      splitsAfter s.tail.isEmpty segments

/-- The boundaries of the name can be told from its camelCase spelling: no segment but the first
starts with a digit, and a segment behind a single letter (the first letter of the name apart) has a
lowercase second letter. -/
def SnakeName.Splits (name : SnakeName) : Prop := splitsAfter false name.later = true

instance (name : SnakeName) : Decidable name.Splits := inferInstanceAs (Decidable (_ = true))

/-! ## The fold of a text without underscores -/

/-- What the loop of `camelToSnakeCase` adds for the characters behind `prev`, none of which is an
underscore. -/
def folded (prev : Char) : List Char → List Char
  | [] => []
  | c :: cs =>
    if c.isUpper then
      (if prev.isLower || prev.isDigit || (prev.isUpper && (cs.headD '\x00').isLower) then ['_']
        else []) ++ c.toLower :: folded c cs
    else c :: folded c cs

theorem toLower_ne_underscore (h : c.isUpper) : c.toLower ≠ '_' := by
  have hall := @ascii_forall (fun c => c.isUpper → c.toLower ≠ '_') (by decide +kernel) c
    (by have := (isUpper_iff.mp h).2; omega)
  exact hall h

theorem camelFrom_eq (hcs : '_' ∉ cs) (result : List Char) (prev : Char) (hne : result ≠ [])
    (hlast : result.getLast? ≠ some '_') : camelFrom result prev cs = result ++ folded prev cs := by
  induction cs generalizing result prev with
  | nil => exact (List.append_nil result).symm
  | cons c cs ih =>
    rw [List.mem_cons, not_or] at hcs
    unfold camelFrom folded
    by_cases hup : c.isUpper
    · have hempty : result.isEmpty = false := List.isEmpty_eq_false_iff.mpr hne
      have hrest := fun separated : List Char => ih hcs.2 (separated ++ [c.toLower]) c
        (List.append_ne_nil_of_right_ne_nil _ (List.cons_ne_nil _ _))
        (by simpa using toLower_ne_underscore hup)
      simp only [if_pos hup, hempty, hrest, Bool.not_false, Bool.and_true, bne_iff_ne.mpr hlast]
      split <;> simp
    · rw [if_neg hup, if_neg hup, ih hcs.2 (result ++ [c]) c (by simp)
        (by simpa using fun h => hcs.1 h.symm)]
      simp

/-- Without capitals the fold changes nothing. -/
theorem camelFrom_of_noCapital (h : ∀ c ∈ cs, c.isUpper = false) (result : List Char) (prev : Char) :
    camelFrom result prev cs = result ++ cs := by
  induction cs generalizing result prev with
  | nil => exact (List.append_nil result).symm
  | cons c cs ih =>
    have hc : ¬ c.isUpper = true := by simp [h c List.mem_cons_self]
    unfold camelFrom
    rw [if_neg hc, ih fun d hd => h d (List.mem_cons_of_mem _ hd)]
    simp

theorem folded_plain (h : ∀ c ∈ cs, Plain c) (prev : Char) (rest : List Char) :
    folded prev (cs ++ rest) = cs ++ folded (cs.getLastD prev) rest := by
  induction cs generalizing prev with
  | nil => rfl
  | cons c cs ih =>
    have hc : ¬ c.isUpper = true := by simp [(h c List.mem_cons_self).not_upper]
    rw [List.cons_append, folded, if_neg hc, ih fun d hd => h d (List.mem_cons_of_mem _ hd),
      List.getLastD_cons, List.cons_append]

/-! ## There and back -/

section

variable (s : Segment) (segments : List Segment)
include s

theorem Segment.plain_head : Plain s.head := s.plain _ List.mem_cons_self

theorem Segment.plain_chars : ∀ c ∈ s.chars, Plain c := s.plain

theorem Segment.plain_tail : ∀ c ∈ s.tail, Plain c :=
  fun c hc => s.plain c (List.mem_cons_of_mem _ hc)

theorem capitalized_cons :
    capitalized (s :: segments) = s.head.toUpper :: (s.tail ++ capitalized segments) := by
  simp [capitalized]

theorem underscored_cons :
    underscored (s :: segments) = '_' :: s.head :: (s.tail ++ underscored segments) := by
  simp [underscored, Segment.chars]

/-- Behind a capital comes a lowercase letter only if it is the segment's own. -/
theorem headD_isLower :
    ((s.tail ++ capitalized segments).headD '\x00').isLower = s.tail.head?.any Char.isLower := by
  cases htail : s.tail with
  | cons c cs => rfl
  | nil =>
    cases segments with
    | nil => rfl
    | cons t segments =>
      rw [capitalized_cons]
      rcases t.plain_head with h | h
      · exact (toUpper_of_lower h).2.2.1
      · obtain ⟨hsame, hlow⟩ := toUpper_of_digit h
        change t.head.toUpper.isLower = false
        rw [hsame, hlow]

/-- The capital or the lowercase letter or digit the fold looks back at. -/
theorem getLastD_tail {capital : Char} (hcapital : capital.isUpper)
    (hlow : capital.isLower = false) (hdigit : capital.isDigit = false) :
    ((s.tail.getLastD capital).isLower || (s.tail.getLastD capital).isDigit) = !s.tail.isEmpty ∧
      (s.tail.getLastD capital).isUpper = s.tail.isEmpty := by
  cases htail : s.tail with
  | nil => simp [hcapital, hlow, hdigit]
  | cons c cs =>
    have hmem : (c :: cs).getLastD capital ∈ s.tail := by
      rw [htail, List.getLastD_cons]
      exact List.getLastD_mem_cons
    have hplain := s.plain_tail _ hmem
    refine ⟨?_, hplain.not_upper⟩
    rw [List.isEmpty_cons, Bool.not_false, Bool.or_eq_true]
    exact hplain

end

/-- The fold of the capitalized segments puts every underscore back exactly if they split. -/
theorem folded_capitalized (segments : List Segment) (prev : Char)
    (hprev : (prev.isLower || prev.isDigit) = !prev.isUpper) :
    folded prev (capitalized segments) = underscored segments ↔
      splitsAfter prev.isUpper segments = true := by
  induction segments generalizing prev with
  | nil => exact ⟨fun _ => rfl, fun _ => rfl⟩
  | cons s segments ih =>
    rw [capitalized_cons, underscored_cons, folded, splitsAfter]
    rcases s.plain_head with hlower | hdigit
    · obtain ⟨hup, hback, hlow, hdigit⟩ := toUpper_of_lower hlower
      obtain ⟨hlast, hcapital⟩ := getLastD_tail s hup hlow hdigit
      have hrest := ih (s.tail.getLastD s.head.toUpper) (by rw [hlast, hcapital])
      rw [hcapital] at hrest
      rw [if_pos hup, hback, headD_isLower, folded_plain s.plain_tail, hprev, hlower, Bool.true_and,
        Bool.and_eq_true, ← hrest]
      have hacronym : (!prev.isUpper || prev.isUpper && s.tail.head?.any Char.isLower) =
          (!prev.isUpper || s.tail.head?.any Char.isLower) := by
        cases prev.isUpper <;> rfl
      rw [hacronym]
      cases hboundary : !prev.isUpper || s.tail.head?.any Char.isLower with
      | true => simp
      | false => simp [s.plain_head.ne_underscore]
    · obtain ⟨hsame, hlow⟩ := toUpper_of_digit hdigit
      have hup := s.plain_head.not_upper
      rw [hsame, if_neg (by simp [hup]), hlow]
      simp [s.plain_head.ne_underscore]

theorem camelKeyFrom_plain (h : ∀ c ∈ cs, Plain c)
    (rest : List Char) :
    camelKeyFrom toUppercase false (cs ++ rest) = cs ++ camelKeyFrom toUppercase false rest := by
  induction cs with
  | nil => rfl
  | cons c cs ih =>
    rw [List.cons_append, camelKeyFrom, if_neg (h c List.mem_cons_self).ne_underscore,
      ih fun d hd => h d (List.mem_cons_of_mem _ hd)]
    rfl

theorem camelKeyFrom_underscored (hascii : AsciiUpper toUppercase) (segments : List Segment) :
    camelKeyFrom toUppercase false (underscored segments) = capitalized segments := by
  induction segments with
  | nil => rfl
  | cons s segments ih =>
    rw [underscored_cons, capitalized_cons, camelKeyFrom, if_pos rfl, camelKeyFrom,
      if_neg s.plain_head.ne_underscore, if_pos rfl, hascii _ s.plain_head,
      camelKeyFrom_plain s.plain_tail, ih]
    rfl

namespace SnakeName

variable {toUppercase : Char → List Char} (name : SnakeName)

theorem snakeToCamel_text (hascii : AsciiUpper toUppercase) :
    snakeToCamel toUppercase name.text =
      String.ofList (name.first.chars ++ capitalized name.later) := by
  unfold snakeToCamel text chars
  rw [String.toList_ofList, camelKeyFrom_plain name.first.plain_chars,
    camelKeyFrom_underscored hascii]

theorem noCapital (hc : c ∈ name.chars) : c.isUpper = false := by
  rcases List.mem_append.mp hc with hfirst | hlater
  · exact (name.first.plain c hfirst).not_upper
  · obtain ⟨s, -, hmem⟩ := List.mem_flatMap.mp hlater
    rcases List.mem_cons.mp hmem with rfl | hmem
    · rfl
    · exact (s.plain c hmem).not_upper

/-- A snake_case key passes through the fold unchanged. -/
theorem fold_text : camelToSnakeCase name.text = name.text := by
  unfold camelToSnakeCase text
  rw [String.toList_ofList, camelFrom_of_noCapital fun c => name.noCapital]
  rfl

theorem not_mem_capitalized (segments : List Segment) : '_' ∉ capitalized segments := by
  intro hmem
  obtain ⟨s, -, hs⟩ := List.mem_flatMap.mp hmem
  rcases List.mem_cons.mp hs with hhead | htail
  · rcases s.plain_head with h | h
    · have hup := (toUpper_of_lower h).1
      rw [← hhead] at hup
      cases hup
    · rw [(toUpper_of_digit h).1] at hhead
      exact s.plain_head.ne_underscore hhead.symm
  · exact (s.plain_tail _ htail).ne_underscore rfl

/-- The fold finds its way back from the response spelling exactly if the name splits. -/
theorem fold_camel (hascii : AsciiUpper toUppercase) :
    camelToSnakeCase (snakeToCamel toUppercase name.text) = name.text ↔ name.Splits := by
  have hlast : (name.first.tail.getLastD name.first.head) ∈ name.first.chars :=
    List.getLastD_mem_cons
  have hplain := name.first.plain _ hlast
  have hup := hplain.not_upper
  have hprev : ((name.first.tail.getLastD name.first.head).isLower ||
      (name.first.tail.getLastD name.first.head).isDigit) =
        !(name.first.tail.getLastD name.first.head).isUpper := by
    rw [hup, Bool.not_false, Bool.or_eq_true]
    exact hplain
  have hsplits := folded_capitalized name.later _ hprev
  rw [hup] at hsplits
  have hnone : '_' ∉ name.first.tail ++ capitalized name.later := by
    rw [List.mem_append, not_or]
    exact ⟨fun h => (name.first.plain_tail _ h).ne_underscore rfl, not_mem_capitalized _⟩
  have hcapital : ¬ name.first.head.isUpper = true := by simp [name.first.plain_head.not_upper]
  rw [snakeToCamel_text name hascii, camelToSnakeCase, String.toList_ofList, text,
    String.ofList_inj]
  unfold chars Segment.chars
  rw [List.cons_append, camelFrom, if_neg hcapital, List.nil_append,
    camelFrom_eq hnone [name.first.head] _ (List.cons_ne_nil _ _)
      (by simpa using name.first.plain_head.ne_underscore),
    folded_plain name.first.plain_tail, List.cons_append, List.cons_append, List.nil_append,
    List.cons_inj_right, List.append_cancel_left_eq]
  exact hsplits

end SnakeName

/-! ## Under the response spelling -/

/-! ## The orders of a body -/

/-- A key names a permission-gated field the caller does not hold. -/
def refusedKey (E : EntityMeta) (caller : Caller) (key : String) : Bool :=
  E.fieldPermissions.any fun field =>
    camelToSnakeCase field.1 == camelToSnakeCase (trim key) && !caller.held field.2

/-- The refused keys of a body. -/
def refusedKeys (E : EntityMeta) (caller : Caller) (fields : List (String × Value)) :
    List String :=
  (fields.map (·.1)).filter (refusedKey E caller)

/-- What comes of a patch body: it is refused, or its fields are merged, known by what is under each
key. -/
def patchOutcome (E : EntityMeta) (caller : Caller) (fields : List (String × Value)) :
    Except (List QueryViolation) (String → Option Value) :=
  let refused := gatedWriteRefusals E (fields.map (·.1)) caller
  if !refused.isEmpty then .error refused
  else .ok fun key => Value.get? (.obj (snakeKeys fields)) key

/-- The keys that fold to one field ask for one value. -/
def Agree (fields : List (String × Value)) : Prop :=
  ∀ a ∈ fields, ∀ b ∈ fields, camelToSnakeCase a.1 = camelToSnakeCase b.1 → a.2 = b.2

/-- The outcome of a body cannot depend on the order of its keys: one key is refused, or none is and
the keys that fold to one field ask for one value. -/
def Settled (E : EntityMeta) (caller : Caller) (fields : List (String × Value)) : Prop :=
  (refusedKeys E caller fields).length = 1 ∨ refusedKeys E caller fields = [] ∧ Agree fields

section Orders

variable {E : EntityMeta} {caller : Caller} {fields : List (String × Value)}
  {order : List (String × Value)} (keys : List String)

/-- The refusals of one key. -/
def keyRefusals (E : EntityMeta) (caller : Caller) (key : String) : List QueryViolation :=
  gatedWriteRefusals E [key] caller

theorem gatedWriteRefusals_eq :
    gatedWriteRefusals E keys caller = keys.flatMap (keyRefusals E caller) := by
  refine List.flatMap_congr fun key _ => ?_
  exact (List.flatMap_singleton _ _).symm

theorem keyRefusals_eq_nil (key : String) :
    keyRefusals E caller key = [] ↔ refusedKey E caller key = false := by
  unfold keyRefusals gatedWriteRefusals refusedKey
  rw [List.flatMap_singleton, List.map_eq_nil_iff, List.filter_eq_nil_iff, List.any_eq_false]

theorem path_of_keyRefusals {key : String} {v : QueryViolation}
    (h : v ∈ keyRefusals E caller key) : v.path = key := by
  unfold keyRefusals gatedWriteRefusals at h
  rw [List.flatMap_singleton] at h
  obtain ⟨field, -, rfl⟩ := List.mem_map.mp h
  rfl

/-- Keys that are not refused add no refusal. -/
theorem gatedWriteRefusals_filter :
    gatedWriteRefusals E keys caller =
      (keys.filter (refusedKey E caller)).flatMap (keyRefusals E caller) := by
  rw [gatedWriteRefusals_eq]
  induction keys with
  | nil => rfl
  | cons key keys ih =>
    rw [List.flatMap_cons, List.filter_cons, ih]
    cases hkey : refusedKey E caller key with
    | true => rfl
    | false => rw [(keyRefusals_eq_nil key).mpr hkey]; rfl

theorem isEmpty_refusals (fields : List (String × Value)) :
    (gatedWriteRefusals E (fields.map (·.1)) caller).isEmpty = true ↔
      refusedKeys E caller fields = [] := by
  rw [List.isEmpty_iff, gatedWriteRefusals_eq, List.flatMap_eq_nil_iff, refusedKeys,
    List.filter_eq_nil_iff]
  refine forall₂_congr fun key _ => ?_
  rw [keyRefusals_eq_nil, Bool.not_eq_true]

theorem refusedKeys_perm (h : order.Perm fields) :
    (refusedKeys E caller order).Perm (refusedKeys E caller fields) :=
  (h.map _).filter _

/-- The refusals of two orders are the same ones, in some order. -/
theorem refusals_perm (h : order.Perm fields) :
    (gatedWriteRefusals E (order.map (·.1)) caller).Perm
      (gatedWriteRefusals E (fields.map (·.1)) caller) :=
  (h.map _).flatMap_right _

/-- Under each key of the merged fields is what the last key that folds to it asked for. -/
theorem get?_snakeKeys (fields : List (String × Value)) (key : String) :
    Value.get? (.obj (snakeKeys fields)) key =
      (fields.reverse.find? fun f => camelToSnakeCase f.1 == key).map (·.2) := by
  unfold snakeKeys
  induction fields using List.reverseRecOn with
  | nil => rfl
  | append_singleton fields field ih =>
    rw [List.foldl_append, List.foldl_cons, List.foldl_nil, Value.get?_insertField, ih,
      List.reverse_append, List.reverse_singleton, List.singleton_append, List.find?_cons]
    by_cases hkey : camelToSnakeCase field.1 = key
    · rw [if_pos hkey, beq_iff_eq.mpr hkey]
      rfl
    · rw [if_neg hkey, beq_false_of_ne hkey]

theorem patchOutcome_of_refused (h : refusedKeys E caller fields ≠ []) :
    patchOutcome E caller fields = .error (gatedWriteRefusals E (fields.map (·.1)) caller) := by
  unfold patchOutcome
  rw [Ne, ← isEmpty_refusals, Bool.not_eq_true] at h
  simp only [h, Bool.not_false, if_true]

theorem patchOutcome_of_merged (h : refusedKeys E caller fields = []) :
    patchOutcome E caller fields = .ok fun key => Value.get? (.obj (snakeKeys fields)) key := by
  unfold patchOutcome
  rw [← isEmpty_refusals] at h
  simp only [h, Bool.not_true, Bool.false_eq_true, if_false]

theorem get?_snakeKeys_eq_some (h : Agree fields) (key : String) (v : Value) :
    Value.get? (.obj (snakeKeys fields)) key = some v ↔
      ∃ f ∈ fields, camelToSnakeCase f.1 = key ∧ f.2 = v := by
  rw [get?_snakeKeys, Option.map_eq_some_iff]
  constructor
  · rintro ⟨f, hfind, rfl⟩
    have hkey := List.find?_some hfind
    exact ⟨f, List.mem_reverse.mp (List.mem_of_find?_eq_some hfind), beq_iff_eq.mp hkey, rfl⟩
  · rintro ⟨f, hmem, rfl, rfl⟩
    have hsome : (fields.reverse.find? fun g =>
        camelToSnakeCase g.1 == camelToSnakeCase f.1).isSome := by
      rw [List.find?_isSome]
      exact ⟨f, List.mem_reverse.mpr hmem, beq_self_eq_true _⟩
    obtain ⟨g, hg⟩ := Option.isSome_iff_exists.mp hsome
    have hfound := List.find?_some hg
    have hfold : camelToSnakeCase g.1 = camelToSnakeCase f.1 := beq_iff_eq.mp hfound
    exact ⟨g, hg, h g (List.mem_reverse.mp (List.mem_of_find?_eq_some hg)) f hmem hfold⟩

theorem patchOutcome_of_settled (h : Settled E caller fields) (hperm : order.Perm fields) :
    patchOutcome E caller order = patchOutcome E caller fields := by
  have hkeys : (refusedKeys E caller order).Perm (refusedKeys E caller fields) :=
    refusedKeys_perm hperm
  rcases h with hone | ⟨hnone, hagree⟩
  · obtain ⟨key, hkey⟩ := List.length_eq_one_iff.mp hone
    have hsame : refusedKeys E caller order = [key] := by
      rw [hkey] at hkeys
      exact List.perm_singleton.mp hkeys
    rw [patchOutcome_of_refused (by rw [hsame]; exact List.cons_ne_nil _ _),
      patchOutcome_of_refused (by rw [hkey]; exact List.cons_ne_nil _ _),
      gatedWriteRefusals_filter, gatedWriteRefusals_filter]
    unfold refusedKeys at hsame hkey
    rw [hsame, hkey]
  · have hnone' : refusedKeys E caller order = [] := by
      rw [hnone] at hkeys
      exact List.perm_nil.mp hkeys
    have hagree' : Agree order := fun a ha b hb =>
      hagree a (hperm.mem_iff.mp ha) b (hperm.mem_iff.mp hb)
    rw [patchOutcome_of_merged hnone', patchOutcome_of_merged hnone]
    congr 1
    funext key
    refine Option.ext fun v => ?_
    rw [get?_snakeKeys_eq_some hagree', get?_snakeKeys_eq_some hagree]
    simp only [hperm.mem_iff]

/-- The key that comes last decides the field it folds to. -/
theorem get?_last (fields : List (String × Value)) (field : String × Value) :
    Value.get? (.obj (snakeKeys (fields ++ [field]))) (camelToSnakeCase field.1) =
      some field.2 := by
  rw [get?_snakeKeys, List.reverse_append, List.reverse_singleton, List.singleton_append,
    List.find?_cons, beq_self_eq_true]
  rfl

/-- The refusals of a refused key that comes first come first. -/
theorem refusals_first {field : String × Value} (h : refusedKey E caller field.1)
    (fields : List (String × Value)) :
    ∃ v, (gatedWriteRefusals E ((field :: fields).map (·.1)) caller).head? = some v ∧
      v.path = field.1 := by
  have hne : keyRefusals E caller field.1 ≠ [] := by
    rw [Ne, keyRefusals_eq_nil, h]
    exact Bool.noConfusion
  obtain ⟨v, rest, hcons⟩ := List.exists_cons_of_ne_nil hne
  refine ⟨v, ?_, path_of_keyRefusals (hcons ▸ List.mem_cons_self)⟩
  rw [List.map_cons, gatedWriteRefusals_eq, List.flatMap_cons, hcons]
  rfl

theorem settled_of_outcomes (hnodup : (fields.map (·.1)).Nodup) (h : ∀ order, order.Perm fields →
      patchOutcome E caller order = patchOutcome E caller fields) : Settled E caller fields := by
  rcases hkeys : refusedKeys E caller fields with _ | ⟨key, _ | ⟨other, keys⟩⟩
  · refine .inr ⟨hkeys, fun a ha b hb hfold => ?_⟩
    have hlast : ∀ field ∈ fields, patchOutcome E caller fields =
        .ok fun key => Value.get? (.obj (snakeKeys (fields.erase field ++ [field]))) key := by
      intro field hfield
      have hperm : (fields.erase field ++ [field]).Perm fields :=
        (List.perm_append_singleton _ _).trans (List.perm_cons_erase hfield).symm
      have hnone : (refusedKeys E caller (fields.erase field ++ [field])).Perm
          (refusedKeys E caller fields) := refusedKeys_perm hperm
      rw [hkeys] at hnone
      rw [← h _ hperm, patchOutcome_of_merged (List.perm_nil.mp hnone)]
    have hsame := Except.ok.inj ((hlast a ha).symm.trans (hlast b hb))
    have hvalue := congrFun hsame (camelToSnakeCase a.1)
    rw [get?_last, hfold, get?_last] at hvalue
    exact Option.some.inj hvalue
  · exact .inl (by rw [hkeys]; rfl)
  · have hfirst : ∀ k ∈ refusedKeys E caller fields, ∃ v,
        (gatedWriteRefusals E (fields.map (·.1)) caller).head? = some v ∧ v.path = k := by
      intro k hk
      obtain ⟨hmem, hrefused⟩ := List.mem_filter.mp hk
      obtain ⟨field, hfield, rfl⟩ := List.mem_map.mp hmem
      have hperm := (List.perm_cons_erase hfield).symm
      have hne : refusedKeys E caller fields ≠ [] := List.ne_nil_of_mem hk
      have hne' : refusedKeys E caller (field :: fields.erase field) ≠ [] :=
        List.ne_nil_of_mem ((refusedKeys_perm hperm).mem_iff.mpr hk)
      have hsame := h _ hperm
      rw [patchOutcome_of_refused hne, patchOutcome_of_refused hne'] at hsame
      rw [← Except.error.inj hsame]
      exact refusals_first hrefused _
    obtain ⟨v, hv, hpath⟩ := hfirst key (by rw [hkeys]; simp)
    obtain ⟨w, hw, hpath'⟩ := hfirst other (by rw [hkeys]; simp)
    have hvw : v = w := Option.some.inj (hv.symm.trans hw)
    have hdistinct : (refusedKeys E caller fields).Nodup := hnodup.filter _
    rw [hkeys] at hdistinct
    refine absurd ?_ (List.nodup_cons.mp hdistinct).1
    rw [← hpath, hvw, hpath']
    exact List.mem_cons_self

end Orders

/-! ## The theorem -/

/-- Each name keeps its spelling under the fold, and finds its way back from the response spelling
exactly if it splits. A body comes out the same in every order of its keys exactly if it is settled;
the refusals are the same ones in every order. -/
theorem patch_keys {toUppercase : Char → List Char} (hascii : AsciiUpper toUppercase) :
    (∀ name : SnakeName, camelToSnakeCase name.text = name.text ∧
      (camelToSnakeCase (snakeToCamel toUppercase name.text) = name.text ↔ name.Splits)) ∧
    ∀ (E : EntityMeta) (caller : Caller) (fields : List (String × Value)),
      (fields.map (·.1)).Nodup →
        ((∀ order, order.Perm fields →
            patchOutcome E caller order = patchOutcome E caller fields) ↔
          Settled E caller fields) ∧
        ∀ order : List (String × Value), order.Perm fields →
          (gatedWriteRefusals E (order.map (·.1)) caller).Perm
            (gatedWriteRefusals E (fields.map (·.1)) caller) := by
  refine ⟨fun name => ⟨name.fold_text, name.fold_camel hascii⟩,
    fun E caller fields hnodup => ⟨⟨settled_of_outcomes hnodup, fun h order hperm => ?_⟩,
      fun order hperm => refusals_perm hperm⟩⟩
  exact patchOutcome_of_settled h hperm

theorem plain_of_all (h : cs.all fun c => c.isLower || c.isDigit) : ∀ c ∈ cs, Plain c := by
  intro c hc
  have hall := List.all_eq_true.mp h c hc
  rw [Bool.or_eq_true] at hall
  exact hall

/-- A field under both its spellings, with a value under each. -/
def bothSpellings (camel snake : Bool) : List (String × Value) :=
  [("isVip", .bool camel), ("is_vip", .bool snake)]

def isVip : SnakeName where
  first := ⟨'i', ['s'], plain_of_all rfl⟩
  later := [⟨'v', ['i', 'p'], plain_of_all rfl⟩]
  starts := rfl

theorem patch_keys_isVip :
    AsciiUpper asciiUpper ∧ camelToSnakeCase (snakeToCamel asciiUpper isVip.text) = isVip.text ∧
      ∀ order, order.Perm (bothSpellings true true) →
        patchOutcome {} none order = patchOutcome {} none (bothSpellings true true) := by
  have hascii : AsciiUpper asciiUpper := fun c _ => rfl
  have hkeys := patch_keys hascii
  have hsettled : Settled {} none (bothSpellings true true) := by
    refine .inr ⟨rfl, fun a ha b hb _ => ?_⟩
    simp only [bothSpellings, List.mem_cons, List.not_mem_nil, or_false] at ha hb
    rcases ha with rfl | rfl <;> rcases hb with rfl | rfl <;> rfl
  exact ⟨hascii, (hkeys.1 isVip).2.mpr (by decide),
    (hkeys.2 {} none (bothSpellings true true) (by decide)).1.mpr hsettled⟩

/-- A name with a digit behind its underscore. -/
def address2 : SnakeName where
  first := ⟨'a', ['d', 'd', 'r', 'e', 's', 's'], plain_of_all rfl⟩
  later := [⟨'2', [], plain_of_all rfl⟩]
  starts := rfl

/-- `address_2` comes back as `address2`, and a field patched under both its spellings takes the value
the map's order leaves for last. -/
theorem spellings_lost :
    ¬ (∀ name : SnakeName, camelToSnakeCase name.text = name.text ∧
        camelToSnakeCase (snakeToCamel asciiUpper name.text) = name.text) ∧
      ¬ (∀ order, order.Perm (bothSpellings true false) →
        patchOutcome {} none order = patchOutcome {} none (bothSpellings true false)) := by
  constructor
  · intro h
    have hback := (h address2).2
    revert hback
    decide
  · intro h
    have hswap := h [("is_vip", .bool false), ("isVip", .bool true)] (List.Perm.swap _ _ _)
    have hmerged := congrFun (Except.ok.inj hswap) "is_vip"
    revert hmerged
    decide

end Backbone.Core
