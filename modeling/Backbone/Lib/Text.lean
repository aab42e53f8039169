import Mathlib.Algebra.Group.Nat.Defs
import Mathlib.Data.List.Infix
import Mathlib.Data.List.TakeWhile

/-!
# Rust's text functions

The functions of `str` and `char` that a request parser uses, over the characters of a text. The
Unicode tables behind `is_alphanumeric`, `is_uppercase` and `to_lowercase` are a parameter,
`CharTables`, with what their documentation promises.
-/

namespace Backbone.Text

variable {c : Char} {s : String} {a b : String} {n : ℕ} {t r : String} (U : CharTables)

/-! ## ASCII and white space -/

/-- `char::is_whitespace`: Unicode's `White_Space`. -/
def isWhitespace (c : Char) : Bool :=
  let n := c.toNat
  (9 ≤ n && n ≤ 13) || n == 0x20 || n == 0x85 || n == 0xa0 || n == 0x1680 ||
    (0x2000 ≤ n && n ≤ 0x200a) || n == 0x2028 || n == 0x2029 || n == 0x202f || n == 0x205f ||
    n == 0x3000

/-- `str::trim_start`. -/
def trimStart (s : String) : String := String.ofList (s.toList.dropWhile isWhitespace)

/-- `str::trim`. -/
def trim (s : String) : String :=
  String.ofList ((s.toList.dropWhile isWhitespace).reverse.dropWhile isWhitespace).reverse

/-- `str::to_ascii_lowercase`. -/
def toAsciiLowercase (s : String) : String := String.ofList (s.toList.map Char.toLower)

/-- `str::eq_ignore_ascii_case`. -/
def eqIgnoreAsciiCase (s t : String) : Bool := toAsciiLowercase s == toAsciiLowercase t

/-- `str::contains` with a character. -/
def contains (s : String) (c : Char) : Bool := s.toList.contains c

/-- `str::contains` with a text. -/
def containsText (s t : String) : Bool := s.toList.tails.any t.toList.isPrefixOf

/-- `str::starts_with`. -/
def startsWith (s t : String) : Bool := t.toList.isPrefixOf s.toList

/-- `str::ends_with` with a character. -/
def endsWith (s : String) (c : Char) : Bool := s.toList.getLast? == some c

/-- `str::strip_prefix`. -/
def stripPrefix (s t : String) : Option String :=
  if startsWith s t then some (String.ofList (s.toList.drop t.toList.length)) else none

/-- `str::strip_suffix`. -/
def stripSuffix (s t : String) : Option String :=
  if t.toList.isSuffixOf s.toList then
    some (String.ofList (s.toList.take (s.toList.length - t.toList.length)))
  else none

/-- `str::trim_start_matches` with a character. -/
def trimStartMatches (s : String) (c : Char) : String := String.ofList (s.toList.dropWhile (· == c))

/-- `str::trim_end_matches` with a character. -/
def trimEndMatches (s : String) (c : Char) : String :=
  String.ofList (s.toList.reverse.dropWhile (· == c)).reverse

/-- `str::trim_matches` with a character. -/
def trimMatches (s : String) (c : Char) : String := trimEndMatches (trimStartMatches s c) c

/-- `str::split` at a character. -/
def split (s : String) (c : Char) : List String := (s.toList.splitOn c).map String.ofList

/-- `str::split_whitespace`. -/
def splitWhitespace (s : String) : List String :=
  ((s.toList.splitOnP isWhitespace).filter fun cs => !cs.isEmpty).map String.ofList

/-- `str::split_once` at a character. -/
def splitOnce (s : String) (c : Char) : Option (String × String) :=
  match s.toList.dropWhile (· != c) with
  | _ :: rest => some (String.ofList (s.toList.takeWhile (· != c)), String.ofList rest)
  | [] => none

/-- `str::rsplit_once` at a character. -/
def rsplitOnce (s : String) (c : Char) : Option (String × String) :=
  match s.toList.reverse.dropWhile (· != c) with
  | _ :: rest =>
    some (String.ofList rest.reverse,
      String.ofList (s.toList.reverse.takeWhile (· != c)).reverse)
  | [] => none

/-- Cut at the first place where a text starts. -/
def cutAt (sep : List Char) : List Char → Option (List Char × List Char)
  | [] => if sep.isEmpty then some ([], []) else none
  | c :: cs =>
    if sep.isPrefixOf (c :: cs) then some ([], (c :: cs).drop sep.length)
    else (cutAt sep cs).map fun p => (c :: p.1, p.2)

/-- `str::split_once` at a text. -/
def splitOnceText (s sep : String) : Option (String × String) :=
  (cutAt sep.toList s.toList).map fun p => (String.ofList p.1, String.ofList p.2)

/-- `[String]::join`. -/
def join (sep : String) : List String → String
  | [] => ""
  | [s] => s
  | s :: rest => s ++ sep ++ join sep rest

/-- `str::parse::<u32>`: an optional plus sign and decimal digits, within 32 bits. -/
def parseU32 (s : String) : Option ℕ :=
  let digits := match s.toList with
    | '+' :: rest => rest
    | cs => cs
  if digits.isEmpty || !digits.all Char.isDigit then none
  else if Nat.ofDigitChars 10 digits 0 < 2 ^ 32 then some (Nat.ofDigitChars 10 digits 0) else none

/-- `str::parse::<usize>`: an optional plus sign and decimal digits, within 64 bits. -/
def parseUsize (s : String) : Option ℕ :=
  let digits := match s.toList with
    | '+' :: rest => rest
    | cs => cs
  if digits.isEmpty || !digits.all Char.isDigit then none
  else if Nat.ofDigitChars 10 digits 0 < 2 ^ 64 then some (Nat.ofDigitChars 10 digits 0) else none

/-! ## Unicode -/

/-- The Unicode tables of `char`. -/
structure CharTables where
  isAlphanumeric : Char → Bool
  isUppercase : Char → Bool
  /-- `char::to_lowercase`, which may give more than one character. -/
  toLowercase : Char → List Char
  alphanumeric_ascii : ∀ c : Char, c.toNat < 128 → isAlphanumeric c = c.isAlphanum
  /-- Only letters have another lower case, and it is made of letters. -/
  lowercase_head : ∀ c d : Char, (toLowercase c).head? = some d → d = c ∨ isAlphanumeric d = true

/-- `ch.to_lowercase().next().unwrap_or(ch)`. -/
def CharTables.lowerFirst (U : CharTables) (c : Char) : Char := (U.toLowercase c).head?.getD c

/-- `str::to_lowercase`. -/
def CharTables.lower (U : CharTables) (s : String) : String :=
  String.ofList (s.toList.flatMap U.toLowercase)

theorem CharTables.lowerFirst_eq_or (c : Char) :
    U.lowerFirst c = c ∨ U.isAlphanumeric (U.lowerFirst c) := by
  unfold CharTables.lowerFirst
  cases h : (U.toLowercase c).head? with
  | none => exact .inl rfl
  | some d => exact U.lowercase_head c d h

/-- Lowering one character of a text makes no new punctuation. -/
theorem CharTables.eq_of_lowerFirst_eq {p : Char} (hp : p.toNat < 128)
    (hq : p.isAlphanum = false) (h : U.lowerFirst c = p) : c = p := by
  rcases U.lowerFirst_eq_or c with hc | hc
  · exact hc.symm.trans h
  · rw [h, U.alphanumeric_ascii p hp, hq] at hc
    cases hc

theorem isUpper_iff : c.isUpper = true ↔ 65 ≤ c.toNat ∧ c.toNat ≤ 90 := by
  change decide (c.val ≥ 'A'.val ∧ c.val ≤ 'Z'.val) = true ↔ _
  rw [decide_eq_true_iff]
  exact Iff.rfl

theorem isLower_iff : c.isLower = true ↔ 97 ≤ c.toNat ∧ c.toNat ≤ 122 := by
  change (decide (c.val ≥ 'a'.val) && decide (c.val ≤ 'z'.val)) = true ↔ _
  rw [Bool.and_eq_true, decide_eq_true_iff, decide_eq_true_iff]
  exact Iff.rfl

theorem isDigit_iff : c.isDigit = true ↔ 48 ≤ c.toNat ∧ c.toNat ≤ 57 := by
  change (decide (c.val ≥ '0'.val) && decide (c.val ≤ '9'.val)) = true ↔ _
  rw [Bool.and_eq_true, decide_eq_true_iff, decide_eq_true_iff]
  exact Iff.rfl

theorem isAlphanum_iff :
    c.isAlphanum = true ↔ c.isUpper = true ∨ c.isLower = true ∨ c.isDigit = true := by
  change (c.isUpper || c.isLower || c.isDigit) = true ↔ _
  simp [or_assoc]

/-- What holds of every ASCII character. -/
theorem ascii_forall {P : Char → Prop} (h : ∀ n : Fin 128, P (Char.ofNat n)) {c : Char}
    (hc : c.toNat < 128) : P c := by
  have hchar := h ⟨c.toNat, hc⟩
  rwa [Char.ofNat_toNat] at hchar

/-- A character is its own lower case, or a capital with a small letter for it. -/
theorem toLower_eq_self_or (c : Char) :
    c.toLower = c ∨ c.isUpper = true ∧ c.toLower.isLower = true := by
  by_cases hup : c.isUpper = true
  · right
    refine ⟨hup, ?_⟩
    have hlow : ∀ n : Fin 128,
        (Char.ofNat n).isUpper = true → (Char.ofNat n).toLower.isLower = true := by decide
    have hascii : c.toNat < 128 := by
      have := isUpper_iff.mp hup
      omega
    exact ascii_forall (P := fun c => c.isUpper = true → c.toLower.isLower = true) hlow hascii hup
  · left
    exact dif_neg fun h => hup (isUpper_iff.mpr h)

/-- The tables cut down to ASCII. -/
def asciiTables : CharTables where
  isAlphanumeric := Char.isAlphanum
  isUppercase := Char.isUpper
  toLowercase c := [c.toLower]
  alphanumeric_ascii _ _ := rfl
  lowercase_head c d h := by
    cases h
    rcases toLower_eq_self_or c with hc | ⟨-, hlow⟩
    · exact .inl hc
    · exact .inr (isAlphanum_iff.mpr (.inr (.inl hlow)))

/-- On ASCII the tables are those of ASCII: what `char` documents of `to_lowercase` and
`is_uppercase`. -/
def AsciiCase (U : CharTables) : Prop :=
  ∀ c : Char, c.toNat < 128 → U.toLowercase c = [c.toLower] ∧ U.isUppercase c = c.isUpper

theorem asciiCase_asciiTables : AsciiCase asciiTables := fun _ _ => ⟨rfl, rfl⟩

theorem CharTables.lower_ascii {U : CharTables} (hU : AsciiCase U)
    (hs : ∀ c ∈ s.toList, c.toNat < 128) : U.lower s = asciiTables.lower s := by
  unfold CharTables.lower
  rw [List.flatMap_congr fun c hc => (hU c (hs c hc)).1]
  rfl

/-- White space is neither a letter nor a digit. -/
def WhitespaceApart (U : CharTables) : Prop := ∀ c, isWhitespace c → U.isAlphanumeric c = false

theorem whitespaceApart_asciiTables : WhitespaceApart asciiTables := by
  intro c hc
  by_contra h
  rw [Bool.not_eq_false] at h
  have h : c.isAlphanum = true := h
  have hval : c.toNat = c.val.toNat := rfl
  simp only [isWhitespace, hval, Bool.or_eq_true, Bool.and_eq_true, decide_eq_true_eq,
    beq_iff_eq] at hc
  rw [isAlphanum_iff, isUpper_iff, isLower_iff, isDigit_iff, hval] at h
  omega

/-- Only a letter is the lower case of another character. -/
theorem eq_of_toLower_eq {d : Char} (h : c.toLower = d) (hd : d.isLower = false) : c = d := by
  rcases toLower_eq_self_or c with hc | ⟨-, hc⟩
  · exact hc.symm.trans h
  · rw [h, hd] at hc
    cases hc

theorem isWhitespace_toLower (c : Char) : isWhitespace c.toLower = isWhitespace c := by
  rcases toLower_eq_self_or c with hc | ⟨hup, hlow⟩
  · rw [hc]
  · have hnot {d : Char} (hd : d.isAlphanum = true) : isWhitespace d = false := by
      by_contra hws
      rw [Bool.not_eq_false] at hws
      have := whitespaceApart_asciiTables d hws
      simp [asciiTables, hd] at this
    rw [hnot (isAlphanum_iff.mpr (.inl hup)), hnot (isAlphanum_iff.mpr (.inr (.inl hlow)))]

/-! ## Trimming -/

/-- It does not matter which of the two comes first. -/
theorem toAsciiLowercase_trim (s : String) :
    toAsciiLowercase (trim s) = trim (toAsciiLowercase s) := by
  have hws : isWhitespace ∘ Char.toLower = isWhitespace := funext isWhitespace_toLower
  simp only [toAsciiLowercase, trim, String.toList_ofList, List.dropWhile_map, ← List.map_reverse,
    hws]

/-- A text without white space is its own trim. -/
theorem trim_eq_self (h : ∀ c ∈ s.toList, isWhitespace c = false) : trim s = s := by
  have hdrop (l : List Char) (hl : ∀ c ∈ l, isWhitespace c = false) :
      l.dropWhile isWhitespace = l := by
    cases l with
    | nil => rfl
    | cons c l => rw [List.dropWhile_cons, hl c List.mem_cons_self]; simp
  rw [trim, hdrop _ h, hdrop _ (fun c hc => h c (List.mem_reverse.mp hc)), List.reverse_reverse,
    String.ofList_toList]

theorem mem_of_mem_trim (h : c ∈ (trim s).toList) : c ∈ s.toList := by
  rw [trim, String.toList_ofList, List.mem_reverse] at h
  have hdrop := (List.dropWhile_suffix isWhitespace).subset h
  exact (List.dropWhile_suffix isWhitespace).subset (List.mem_reverse.mp hdrop)

/-- A single character at the end is trimmed off. -/
theorem trimEndMatches_append (h : c ∉ s.toList) :
    trimEndMatches (String.ofList (s.toList ++ [c])) c = s := by
  have hdrop (l : List Char) (hl : c ∉ l) : l.dropWhile (· == c) = l := by
    cases l with
    | nil => rfl
    | cons d l =>
      have : d ≠ c := fun heq => hl (heq ▸ List.mem_cons_self)
      simp [this]
  rw [trimEndMatches, String.toList_ofList, List.reverse_append, List.reverse_singleton,
    List.singleton_append, List.dropWhile_cons, if_pos (by simp),
    hdrop _ (fun hmem => h (List.mem_reverse.mp hmem)), List.reverse_reverse, String.ofList_toList]

theorem trimStartMatches_eq_self (h : c ∉ s.toList) : trimStartMatches s c = s := by
  rw [trimStartMatches]
  cases hs : s.toList with
  | nil => rw [List.dropWhile_nil, ← hs, String.ofList_toList]
  | cons d l =>
    have : d ≠ c := fun heq => h (by rw [hs, heq]; exact List.mem_cons_self)
    rw [List.dropWhile_cons, if_neg (by simpa using this), ← hs, String.ofList_toList]

/-! ## Splitting -/

theorem length_splitOn_pos {α : Type*} [BEq α] (a : α) (l : List α) : 0 < (l.splitOn a).length :=
  List.length_pos_iff.mpr (List.splitOn_ne_nil a l)

/-- A text splits into more than one part when it holds the separator. -/
theorem one_lt_length_split : 1 < (split s c).length ↔ contains s c := by
  have key (l : List Char) : 1 < (l.splitOn c).length ↔ c ∈ l := by
    induction l with
    | nil => simp
    | cons d l ih =>
      by_cases hd : d = c
      · have := length_splitOn_pos c l
        simp [List.splitOn, List.splitOnP_cons_eq_if_modifyHead, hd]
        simpa [List.splitOn] using this
      · rw [List.splitOn, List.splitOnP_cons_eq_if_modifyHead, if_neg (by simpa using hd),
          List.length_modifyHead, ← List.splitOn, ih]
        simp [Ne.symm hd]
  simp [split, contains, key]

theorem split_of_not_contains (h : contains s c = false) : split s c = [s] := by
  have hlen : ¬ 1 < (split s c).length := by rw [one_lt_length_split, h]; simp
  have hne : split s c ≠ [] := by simp [split, List.splitOn_ne_nil]
  match hparts : split s c with
  | [] => exact absurd hparts hne
  | [part] =>
    have : [c].intercalate (s.toList.splitOn c) = s.toList := List.intercalate_splitOn c
    simp only [split, List.map_eq_singleton_iff] at hparts
    obtain ⟨l, hl, rfl⟩ := hparts
    rw [hl] at this
    simp at this
    rw [this, String.ofList_toList]
  | _ :: _ :: _ => simp [hparts] at hlen

theorem toList_join (c : Char) (parts : List String) :
    (join (String.singleton c) parts).toList = [c].intercalate (parts.map String.toList) := by
  induction parts with
  | nil => rfl
  | cons p parts ih =>
    cases parts with
    | nil => simp [join]
    | cons q parts =>
      have hcons : join (String.singleton c) (p :: q :: parts) =
          p ++ String.singleton c ++ join (String.singleton c) (q :: parts) := rfl
      rw [hcons, String.toList_append, String.toList_append, ih]
      simp [List.intercalate_cons_cons]

/-- A part of a text holds no separator. -/
theorem not_mem_of_mem_split {p : String} (hp : p ∈ split s c) : c ∉ p.toList := by
  have key (l : List Char) : ∀ part ∈ l.splitOn c, c ∉ part := by
    induction l with
    | nil => simp
    | cons d l ih =>
      rw [List.splitOn_cons_eq_if_modifyHead]
      split
      · simpa using ih
      · rename_i hd
        obtain ⟨part, parts, hparts⟩ := List.exists_cons_of_ne_nil (List.splitOn_ne_nil c l)
        rw [hparts] at ih ⊢
        have hdc : ¬ c = d := fun heq => hd (by simp [heq])
        simpa [hdc] using ih
  obtain ⟨part, hpart, rfl⟩ := List.mem_map.mp hp
  rw [String.toList_ofList]
  exact key _ part hpart

/-- Parts without the separator come back from their join. -/
theorem split_join {parts : List String} (hne : parts ≠ []) (h : ∀ p ∈ parts, c ∉ p.toList) :
    split (join (String.singleton c) parts) c = parts := by
  rw [split, toList_join, List.splitOn_intercalate c (by simpa using h) (by simpa using hne),
    List.map_map]
  simp [Function.comp_def]

/-- A text is its parts, joined again. -/
theorem join_split (s : String) (c : Char) : join (String.singleton c) (split s c) = s := by
  apply String.toList_injective
  rw [toList_join, split, List.map_map]
  have hid : String.toList ∘ String.ofList = id := by
    funext l
    simp
  rw [hid, List.map_id]
  exact List.intercalate_splitOn c

theorem splitOnce_eq_none (h : contains s c = false) : splitOnce s c = none := by
  unfold splitOnce
  have : s.toList.dropWhile (· != c) = [] := by
    rw [List.dropWhile_eq_nil_iff]
    intro d hd
    rw [bne_iff_ne]
    rintro rfl
    simp [contains, hd] at h
  rw [this]

theorem splitOnce_isSome (h : contains s c = true) : (splitOnce s c).isSome = true := by
  unfold splitOnce
  cases hrest : s.toList.dropWhile (· != c) with
  | nil =>
    rw [List.dropWhile_eq_nil_iff] at hrest
    have hne := hrest c (by simpa [contains] using h)
    simp at hne
  | cons d rest => rfl

/-- A text around a separator that its first part does not hold. -/
theorem splitOnce_append (h : c ∉ a.toList) (b : String) :
    splitOnce (a ++ String.singleton c ++ b) c = some (a, b) := by
  have hne : ∀ d ∈ a.toList, (d != c) = true := by
    intro d hd
    rw [bne_iff_ne]
    rintro rfl
    exact h hd
  have hlist : (a ++ String.singleton c ++ b).toList = a.toList ++ c :: b.toList := by simp
  unfold splitOnce
  rw [hlist, List.dropWhile_append_of_pos hne, List.takeWhile_append_of_pos hne]
  simp

/-- A text cut at a character is the two parts around it. -/
theorem toList_of_splitOnce (h : splitOnce s c = some (a, b)) :
    s.toList = a.toList ++ c :: b.toList := by
  unfold splitOnce at h
  split at h
  · rename_i d rest hdrop
    cases h
    have hd : d = c := by
      have := List.head?_dropWhile_not (· != c) s.toList
      rw [hdrop] at this
      simpa using this
    have := List.takeWhile_append_dropWhile (p := (· != c)) (l := s.toList)
    rw [hdrop, hd] at this
    simpa using this.symm
  · cases h

/-- A text around a separator that its last part does not hold. -/
theorem rsplitOnce_append (a : String) (h : c ∉ b.toList) :
    rsplitOnce (a ++ String.singleton c ++ b) c = some (a, b) := by
  have hne : ∀ d ∈ b.toList.reverse, (d != c) = true := by
    intro d hd
    rw [bne_iff_ne]
    rintro rfl
    exact h (List.mem_reverse.mp hd)
  have hlist : (a ++ String.singleton c ++ b).toList.reverse =
      b.toList.reverse ++ c :: a.toList.reverse := by simp
  unfold rsplitOnce
  rw [hlist, List.dropWhile_append_of_pos hne, List.takeWhile_append_of_pos hne]
  simp

/-- A text split at its last separator is the two parts around it. -/
theorem eq_of_rsplitOnce (h : rsplitOnce s c = some (a, b)) :
    s = a ++ String.singleton c ++ b ∧ c ∉ b.toList := by
  unfold rsplitOnce at h
  split at h
  · rename_i d rest hdrop
    cases h
    have hd : d = c := by
      have := List.head?_dropWhile_not (· != c) s.toList.reverse
      rw [hdrop] at this
      simpa using this
    have hlist := List.takeWhile_append_dropWhile (p := (· != c)) (l := s.toList.reverse)
    rw [hdrop, hd] at hlist
    constructor
    · apply String.toList_injective
      have := congrArg List.reverse hlist
      simpa using this.symm
    · intro hmem
      rw [String.toList_ofList, List.mem_reverse] at hmem
      simpa using List.mem_takeWhile_imp hmem
  · cases h

theorem stripPrefix_eq_some : stripPrefix s t = some r ↔ s = t ++ r := by
  simp only [stripPrefix, startsWith, Option.ite_none_right_eq_some, List.isPrefixOf_iff_prefix,
    Option.some.injEq]
  constructor
  · rintro ⟨⟨rest, hrest⟩, rfl⟩
    apply String.toList_injective
    rw [String.toList_append, String.toList_ofList, ← hrest, List.drop_left]
  · rintro rfl
    exact ⟨⟨r.toList, by simp⟩, by simp⟩

theorem stripSuffix_eq_some : stripSuffix s t = some r ↔ s = r ++ t := by
  simp only [stripSuffix, Option.ite_none_right_eq_some, List.isSuffixOf_iff_suffix,
    Option.some.injEq]
  constructor
  · rintro ⟨⟨rest, hrest⟩, rfl⟩
    apply String.toList_injective
    rw [String.toList_append, String.toList_ofList, ← hrest]
    simp
  · rintro rfl
    exact ⟨⟨r.toList, by simp⟩, by simp⟩

@[simp] theorem stripPrefix_append (t r : String) : stripPrefix (t ++ r) t = some r :=
  stripPrefix_eq_some.mpr rfl

@[simp] theorem stripSuffix_append (r t : String) : stripSuffix (r ++ t) t = some r :=
  stripSuffix_eq_some.mpr rfl

/-! ## Numbers -/

/-- A plus sign is dropped, and the rest is read as digits. -/
theorem parseU32_eq (s : String) :
    ∃ digits, (s.toList = digits ∨ s.toList = '+' :: digits) ∧
      parseU32 s = if digits.isEmpty || !digits.all Char.isDigit then none
        else if Nat.ofDigitChars 10 digits 0 < 2 ^ 32 then some (Nat.ofDigitChars 10 digits 0)
        else none := by
  unfold parseU32
  split
  · rename_i rest hs
    exact ⟨rest, .inr hs, rfl⟩
  · exact ⟨s.toList, .inl rfl, rfl⟩

theorem digits_of_parseU32 (h : parseU32 s = some n) :
    ∃ digits, (s.toList = digits ∨ s.toList = '+' :: digits) ∧
      (∀ c ∈ digits, c.isDigit = true) ∧ n < 2 ^ 32 := by
  obtain ⟨digits, hs, heq⟩ := parseU32_eq s
  rw [heq, Option.ite_none_left_eq_some, Option.ite_none_right_eq_some] at h
  obtain ⟨hall, hlt, hn⟩ := h
  simp only [Bool.or_eq_true, Bool.not_eq_true', not_or, Bool.not_eq_false,
    List.all_eq_true] at hall
  exact ⟨digits, hs, hall.2, Option.some.inj hn ▸ hlt⟩

theorem isDigit_of_mem_of_parseU32 (h : parseU32 s = some n) (hc : c ∈ s.toList) :
    c = '+' ∨ c.isDigit = true := by
  obtain ⟨digits, hs | hs, hall, -⟩ := digits_of_parseU32 h
  · rw [hs] at hc
    exact .inr (hall c hc)
  · rw [hs] at hc
    exact (List.mem_cons.mp hc).imp_right (hall c)

theorem parseU32_lt (h : parseU32 s = some n) : n < 2 ^ 32 := by
  obtain ⟨digits, -, -, hlt⟩ := digits_of_parseU32 h
  exact hlt

theorem isDigit_of_mem_toString (h : c ∈ (toString n).toList) : c.isDigit = true := by
  rw [Nat.toString_eq_repr, Nat.toList_repr] at h
  exact Nat.isDigit_of_mem_toDigits (by decide) (by decide) h

/-- A number is read back from its decimal text. -/
theorem parseU32_toString (h : n < 2 ^ 32) : parseU32 (toString n) = some n := by
  obtain ⟨digits, hs | hs, heq⟩ := parseU32_eq (toString n)
  · have hall : digits.all Char.isDigit = true :=
      List.all_eq_true.mpr fun c hc => isDigit_of_mem_toString (hs ▸ hc)
    rw [Nat.toString_eq_repr, Nat.toList_repr] at hs
    subst hs
    have hne : (Nat.toDigits 10 n).isEmpty = false :=
      List.isEmpty_eq_false_iff.mpr Nat.toDigits_ne_nil
    rw [heq, hall, hne, Nat.ofDigitChars_ten_toDigits, if_neg (by decide), if_pos h]
  · have hplus := isDigit_of_mem_toString (n := n) (c := '+') (hs ▸ List.mem_cons_self)
    exact absurd hplus (by decide)

end Backbone.Text
