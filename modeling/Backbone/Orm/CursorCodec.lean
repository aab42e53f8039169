import Backbone.Orm.Cursor
import Backbone.Lib.Except

/-!
# The cursor's opaque form

Reference: `backbone-orm/src/filter/cursor.rs`.

A cursor travels as base64url, without padding, of the JSON of its payload. The JSON writer and
reader are a parameter (`Json`); the base64url codec and the checks a decoded payload must pass are
the source's. A cursor decodes under the sort it was cut in, to the position it was cut at
(`decodeCursor_encodeCursor`).
-/

namespace Backbone.Orm

/-! ## Base64url -/

/-- The base64url alphabet. -/
def b64Alphabet : List Char :=
  "ABCDEFGHIJKLMNOPQRSTUVWXYZabcdefghijklmnopqrstuvwxyz0123456789-_".toList

/-- The character of six bits. -/
def b64Char (n : ℕ) : Char := b64Alphabet.getD n 'A'

/-- The four characters of three bytes. -/
def b64Chunk (a b c : UInt8) : List Char :=
  let n := (a.toNat <<< 16) ||| (b.toNat <<< 8) ||| c.toNat
  [b64Char (n >>> 18 &&& 63), b64Char (n >>> 12 &&& 63), b64Char (n >>> 6 &&& 63),
    b64Char (n &&& 63)]

/-- Base64url without padding: a short last chunk gives one character more than it has bytes. -/
def base64urlEncode : List UInt8 → List Char
  | [] => []
  | [a] => (b64Chunk a 0 0).take 2
  | [a, b] => (b64Chunk a b 0).take 3
  | a :: b :: c :: rest => b64Chunk a b c ++ base64urlEncode rest

/-- The decoder between two characters: the 32 bits it shifts through, how many of them are not yet
written, and what is written. -/
structure B64State where
  acc : ℕ := 0
  bits : ℕ := 0
  out : List UInt8 := []

/-- One character. -/
def B64State.next (s : B64State) (c : Char) : Except Char B64State :=
  match b64Alphabet.idxOf? c with
  | none => .error c
  | some v =>
    let acc := (s.acc <<< 6) % 2 ^ 32 ||| v
    let bits := s.bits + 6
    .ok <| if 8 ≤ bits then
      { acc := acc, bits := bits - 8, out := s.out ++ [UInt8.ofNat (acc >>> (bits - 8))] }
    else { s with acc := acc, bits := bits }

/-- The bytes, or the character that is not base64url. Bits that make no byte are dropped. -/
def base64urlDecode (text : List Char) : Except Char (List UInt8) :=
  (text.foldlM B64State.next {}).map B64State.out

theorem idxOf_b64Char {v : ℕ} (h : v < 64) : b64Alphabet.idxOf? (b64Char v) = some v := by
  have hall : ∀ i : Fin 64, b64Alphabet.idxOf? (b64Char i) = some (i : ℕ) := by decide +kernel
  exact hall ⟨v, h⟩

/-- A character of the alphabet shifts its six bits in. -/
theorem shift_eq (acc : ℕ) {v : ℕ} (h : v < 64) :
    (acc <<< 6) % 2 ^ 32 ||| v = acc % 2 ^ 26 * 64 + v := by
  rw [Nat.shiftLeft_eq, show 2 ^ 32 = 2 ^ 26 * 2 ^ 6 from rfl, Nat.mul_mod_mul_right,
    ← Nat.shiftLeft_eq, ← Nat.shiftLeft_add_eq_or_of_lt (by omega), Nat.shiftLeft_eq]

section Next

variable {v : ℕ} (h : v < 64) (acc bits : ℕ) (out : List UInt8)
include h

/-- The first character of a chunk makes no byte yet. -/
theorem B64State.next_first :
    B64State.next ⟨acc, 0, out⟩ (b64Char v) = .ok ⟨acc % 2 ^ 26 * 64 + v, 6, out⟩ := by
  simp only [B64State.next, idxOf_b64Char h, shift_eq acc h]
  rfl

/-- Every other character completes one. -/
theorem B64State.next_byte {a : UInt8}
    (ha : (acc % 2 ^ 26 * 64 + v) / 2 ^ bits % 256 = a.toNat) :
    B64State.next ⟨acc, bits + 2, out⟩ (b64Char v) =
      .ok ⟨acc % 2 ^ 26 * 64 + v, bits, out ++ [a]⟩ := by
  have hbyte : UInt8.ofNat ((acc % 2 ^ 26 * 64 + v) / 2 ^ bits) = a := by
    rw [← UInt8.toNat_inj, UInt8.toNat_ofNat']
    exact ha
  simp only [B64State.next, idxOf_b64Char h, shift_eq acc h, Nat.shiftRight_eq_div_pow]
  rw [if_pos (by omega), show bits + 2 + 6 - 8 = bits from by omega, hbyte]

end Next

/-- The characters of a chunk, by the bits of its bytes. -/
theorem b64Chunk_eq (a b c : UInt8) :
    b64Chunk a b c = [b64Char (a.toNat / 4), b64Char (a.toNat % 4 * 16 + b.toNat / 16),
      b64Char (b.toNat % 16 * 4 + c.toNat / 64), b64Char (c.toNat % 64)] := by
  have ha := a.toNat_lt
  have hb := b.toNat_lt
  have hc := c.toNat_lt
  have hn : (a.toNat <<< 16) ||| (b.toNat <<< 8) ||| c.toNat =
      a.toNat * 2 ^ 16 + b.toNat * 2 ^ 8 + c.toNat := by
    rw [← Nat.shiftLeft_add_eq_or_of_lt (by rw [Nat.shiftLeft_eq]; omega), Nat.shiftLeft_eq,
      Nat.shiftLeft_eq, show a.toNat * 2 ^ 16 + b.toNat * 2 ^ 8 =
        (a.toNat * 2 ^ 8 + b.toNat) * 2 ^ 8 from by omega, ← Nat.shiftLeft_eq,
      ← Nat.shiftLeft_add_eq_or_of_lt (by omega)]
  have hand (x : ℕ) : x &&& 63 = x % 64 := Nat.and_two_pow_sub_one_eq_mod x 6
  have h1 : (a.toNat * 2 ^ 16 + b.toNat * 2 ^ 8 + c.toNat) / 2 ^ 18 % 64 = a.toNat / 4 := by omega
  have h2 : (a.toNat * 2 ^ 16 + b.toNat * 2 ^ 8 + c.toNat) / 2 ^ 12 % 64 =
      a.toNat % 4 * 16 + b.toNat / 16 := by omega
  have h3 : (a.toNat * 2 ^ 16 + b.toNat * 2 ^ 8 + c.toNat) / 2 ^ 6 % 64 =
      b.toNat % 16 * 4 + c.toNat / 64 := by omega
  have h4 : (a.toNat * 2 ^ 16 + b.toNat * 2 ^ 8 + c.toNat) % 64 = c.toNat % 64 := by omega
  simp only [b64Chunk, hn, hand, Nat.shiftRight_eq_div_pow, h1, h2, h3, h4]

section Chunks

variable (a b c : UInt8) (acc : ℕ) (out : List UInt8)

/-- Two characters of a chunk write its first byte. -/
theorem decode_two : ∃ acc', acc' % 16 = b.toNat / 16 ∧
    ((b64Chunk a b c).take 2).foldlM B64State.next ⟨acc, 0, out⟩ = .ok ⟨acc', 4, out ++ [a]⟩ := by
  have ha := a.toNat_lt
  have hb := b.toNat_lt
  refine ⟨(acc % 2 ^ 26 * 64 + a.toNat / 4) % 2 ^ 26 * 64 + (a.toNat % 4 * 16 + b.toNat / 16),
    by omega, ?_⟩
  have htake : (b64Chunk a b c).take 2 =
      [b64Char (a.toNat / 4), b64Char (a.toNat % 4 * 16 + b.toNat / 16)] := by
    rw [b64Chunk_eq]
    rfl
  have hfirst := B64State.next_first (v := a.toNat / 4) (by omega) acc out
  have hbyte := B64State.next_byte (v := a.toNat % 4 * 16 + b.toNat / 16) (by omega)
    (acc % 2 ^ 26 * 64 + a.toNat / 4) 4 out (a := a) (by omega)
  rw [htake, foldlM_cons_ok hfirst, foldlM_cons_ok hbyte]
  rfl

/-- Three characters write two bytes. -/
theorem decode_three : ∃ acc', acc' % 4 = c.toNat / 64 ∧
    ((b64Chunk a b c).take 3).foldlM B64State.next ⟨acc, 0, out⟩ =
      .ok ⟨acc', 2, out ++ [a, b]⟩ := by
  have hb := b.toNat_lt
  have hc := c.toNat_lt
  obtain ⟨acc₂, hacc, htwo⟩ := decode_two a b c acc out
  refine ⟨acc₂ % 2 ^ 26 * 64 + (b.toNat % 16 * 4 + c.toNat / 64), by omega, ?_⟩
  have htake : (b64Chunk a b c).take 3 =
      (b64Chunk a b c).take 2 ++ [b64Char (b.toNat % 16 * 4 + c.toNat / 64)] := by
    rw [b64Chunk_eq]
    rfl
  have hbyte := B64State.next_byte (v := b.toNat % 16 * 4 + c.toNat / 64) (by omega) acc₂ 2
    (out ++ [a]) (a := b) (by omega)
  rw [htake, foldlM_append_ok htwo, foldlM_cons_ok hbyte, List.append_assoc]
  rfl

/-- A chunk decodes to its bytes, whatever the decoder shifted through before. -/
theorem decode_chunk : ∃ acc', (b64Chunk a b c).foldlM B64State.next ⟨acc, 0, out⟩ =
    .ok ⟨acc', 0, out ++ [a, b, c]⟩ := by
  have hc := c.toNat_lt
  obtain ⟨acc₃, hacc, hthree⟩ := decode_three a b c acc out
  refine ⟨acc₃ % 2 ^ 26 * 64 + c.toNat % 64, ?_⟩
  have htake : b64Chunk a b c = (b64Chunk a b c).take 3 ++ [b64Char (c.toNat % 64)] := by
    rw [b64Chunk_eq]
    rfl
  have hbyte := B64State.next_byte (v := c.toNat % 64) (by omega) acc₃ 0
    (out ++ [a, b]) (a := c) (by omega)
  rw [htake, foldlM_append_ok hthree, foldlM_cons_ok hbyte, List.append_assoc]
  rfl

end Chunks

/-- Base64url loses no byte. -/
theorem base64urlDecode_encode (bytes : List UInt8) :
    base64urlDecode (base64urlEncode bytes) = .ok bytes := by
  have key (acc : ℕ) (out : List UInt8) : ∃ acc' bits,
      (base64urlEncode bytes).foldlM B64State.next ⟨acc, 0, out⟩ =
        .ok ⟨acc', bits, out ++ bytes⟩ := by
    induction bytes using base64urlEncode.induct generalizing acc out with
    | case1 => exact ⟨acc, 0, by simp [base64urlEncode]; rfl⟩
    | case2 a =>
      obtain ⟨acc', -, h⟩ := decode_two a 0 0 acc out
      exact ⟨acc', 4, h⟩
    | case3 a b =>
      obtain ⟨acc', -, h⟩ := decode_three a b 0 acc out
      exact ⟨acc', 2, h⟩
    | case4 a b c rest ih =>
      obtain ⟨acc₁, hchunk⟩ := decode_chunk a b c acc out
      obtain ⟨acc', bits, hrest⟩ := ih acc₁ (out ++ [a, b, c])
      refine ⟨acc', bits, ?_⟩
      rw [base64urlEncode, foldlM_append_ok hchunk, hrest, List.append_assoc]
      rfl
  obtain ⟨acc', bits, h⟩ := key 0 []
  rw [base64urlDecode, h]
  rfl

/-! ## Encoding and decoding -/

/-- The payload version. -/
def cursorVersion : ℕ := 1

/-- Why a text is not base64url JSON. -/
inductive Malformed where
  | serialize (why : String)
  | decode (c : Char)
  | parse (why : String)
deriving DecidableEq, Repr

/-- Why a cursor could not be used. -/
inductive CursorError where
  | malformed (why : Malformed)
  | version (v : ℕ)
  | sortMismatch (expected : String)
  | inconsistent (why : String)
deriving DecidableEq, Repr

/-- The JSON of a payload, written and read. -/
structure Json where
  toVec : CursorPayload → Except String (List UInt8)
  fromSlice : List UInt8 → Except String CursorPayload

/-- The payload comes back from its JSON. -/
def Json.RoundTrips (J : Json) (p : CursorPayload) : Prop :=
  ∃ bytes, J.toVec p = .ok bytes ∧ J.fromSlice bytes = .ok p

/-- A boundary value: a string, or another JSON value by its spelling. -/
inductive BoundaryValue where
  | string (s : String)
  | other (spelling : String)
deriving DecidableEq, Repr

/-- A boundary row's value as cursor text. -/
def valueAsText : BoundaryValue → String
  | .string s => s
  | .other spelling => spelling

/-- The number a direction is written as. -/
def SortDirection.code (d : SortDirection) : ℕ := if d = .desc then 1 else 0

/-- The position of a row in a sort. -/
def positionOf (sorts : List SortSpec) (values : List BoundaryValue) (id : String) :
    CursorPayload where
  v := cursorVersion
  f := sorts.map SortSpec.field
  d := sorts.map fun s => s.direction.code
  k := values.map valueAsText
  id := id

/-- Encode a cursor for one boundary row. -/
def encodeCursor (J : Json) (sorts : List SortSpec) (values : List BoundaryValue) (id : String) :
    Except CursorError String :=
  if sorts.length ≠ values.length then
    .error (.inconsistent (toString sorts.length ++ " sort columns but " ++
      toString values.length ++ " boundary values"))
  else
    match J.toVec (positionOf sorts values id) with
    | .ok json => .ok (String.ofList (base64urlEncode json))
    | .error e => .error (.malformed (.serialize e))

/-- Decode a cursor, proving it matches the sort it will be applied to. -/
def decodeCursor (J : Json) (text : String) (sorts : List SortSpec) :
    Except CursorError CursorPayload :=
  match base64urlDecode text.toList with
  | .error c => .error (.malformed (.decode c))
  | .ok bytes =>
    match J.fromSlice bytes with
    | .error e => .error (.malformed (.parse e))
    | .ok payload =>
      let expected := sorts.map SortSpec.field
      if payload.v ≠ cursorVersion then .error (.version payload.v)
      else if payload.f.length ≠ payload.d.length ∨ payload.f.length ≠ payload.k.length then
        .error (.inconsistent "field, direction and value arrays disagree in length")
      else if payload.f ≠ expected then .error (.sortMismatch (Text.join ", " expected))
      else if payload.d ≠ sorts.map (fun s => s.direction.code) then
        .error (.sortMismatch (Text.join ", " expected))
      else .ok payload

variable {sorts : List SortSpec}

/-- A cursor decodes to the position it was cut at. -/
theorem decodeCursor_encodeCursor {J : Json} {values : List BoundaryValue}
    {id : String} (hlen : sorts.length = values.length)
    (h : J.RoundTrips (positionOf sorts values id)) :
    ∃ text, encodeCursor J sorts values id = .ok text ∧
      decodeCursor J text sorts = .ok (positionOf sorts values id) := by
  obtain ⟨bytes, hto, hfrom⟩ := h
  refine ⟨String.ofList (base64urlEncode bytes), by simp [encodeCursor, hlen, hto], ?_⟩
  simp [decodeCursor, base64urlDecode_encode, hfrom, positionOf, hlen]

theorem SortDirection.code_injective : Function.Injective SortDirection.code := by
  intro a b h
  cases a <;> cases b <;> first | rfl | cases h

/-- A cursor is refused under a sort with other columns or other directions. -/
theorem decodeCursor_of_mismatch {J : Json} {p : CursorPayload} {text : String}
    {other : List SortSpec} (h : decodeCursor J text sorts = .ok p)
    (hother : other.map SortSpec.field ≠ sorts.map SortSpec.field ∨
      other.map SortSpec.direction ≠ sorts.map SortSpec.direction) :
    decodeCursor J text other =
      .error (.sortMismatch (Text.join ", " (other.map SortSpec.field))) := by
  unfold decodeCursor at h ⊢
  cases hbytes : base64urlDecode text.toList with
  | error c =>
    rw [hbytes] at h
    cases h
  | ok bytes =>
    cases hpayload : J.fromSlice bytes with
    | error e =>
      simp only [hbytes, hpayload] at h
      cases h
    | ok payload =>
      simp only [hbytes, hpayload] at h ⊢
      split_ifs at h with hversion hlength hfields hcodes
      rw [not_not] at hfields hcodes
      rw [if_neg hversion, if_neg hlength]
      by_cases heq : payload.f = other.map SortSpec.field
      · rw [if_neg (by simpa using heq), if_pos]
        -- The columns agree, so the directions do not, and their numbers tell them apart.
        rw [hcodes]
        intro hsame
        have hdirs : (sorts.map SortSpec.direction).map SortDirection.code =
            (other.map SortSpec.direction).map SortDirection.code := by
          rw [List.map_map, List.map_map]
          exact hsame
        have := List.map_injective_iff.mpr SortDirection.code_injective hdirs
        rcases hother with hne | hne
        · exact hne (heq.symm.trans hfields)
        · exact hne this.symm
      · rw [if_pos heq]

/-- A cursor decodes to what it was cut from, under its own columns and directions only, and base64url
loses no byte. -/
theorem cursor_codec {J : Json} {sorts : List SortSpec} {values : List BoundaryValue} {id : String}
    (hlen : sorts.length = values.length) (h : J.RoundTrips (positionOf sorts values id)) :
    (∃ text, encodeCursor J sorts values id = .ok text ∧
      (∃ p, decodeCursor J text sorts = .ok p ∧ p.f = sorts.map SortSpec.field ∧
        p.d = sorts.map (·.direction.code) ∧ p.k = values.map valueAsText ∧ p.id = id) ∧
      ∀ other : List SortSpec, (other.map SortSpec.field ≠ sorts.map SortSpec.field ∨
          other.map SortSpec.direction ≠ sorts.map SortSpec.direction) →
        decodeCursor J text other =
          .error (.sortMismatch (Text.join ", " (other.map SortSpec.field)))) ∧
      ∀ bytes, base64urlDecode (base64urlEncode bytes) = .ok bytes := by
  obtain ⟨text, hencode, hdecode⟩ := decodeCursor_encodeCursor hlen h
  exact ⟨⟨text, hencode, ⟨_, hdecode, rfl, rfl, rfl, rfl⟩,
    fun _ hother => decodeCursor_of_mismatch hdecode hother⟩, base64urlDecode_encode⟩

/-- The JSON of a payload, as `serde_json` writes it when no text in it needs escapes. -/
def jsonText (p : CursorPayload) : String :=
  let quoted (s : String) := "\"" ++ s ++ "\""
  "\x7b\"v\":" ++ toString p.v ++ ",\"f\":[" ++ Text.join "," (p.f.map quoted) ++ "],\"d\":[" ++
    Text.join "," (p.d.map toString) ++ "],\"k\":[" ++ Text.join "," (p.k.map quoted) ++
    "],\"id\":" ++ quoted p.id ++ "\x7d"

/-- The JSON of the given payloads, written and read. -/
def json (known : List CursorPayload) : Json where
  toVec p := .ok ((jsonText p).toList.map fun c => UInt8.ofNat c.toNat)
  fromSlice bytes :=
    match known.find? fun p => (jsonText p).toList.map (fun c => UInt8.ofNat c.toNat) = bytes with
    | some p => .ok p
    | none => .error "expected value"

/-- The newest first, ties by total. -/
def newestFirst : List SortSpec := [⟨"created_at", .desc⟩, ⟨"total", .asc⟩]

/-- A boundary row's values in that order. -/
def boundary : List BoundaryValue := [.string "2026-09-19", .other "7"]

theorem cursor_codec_newestFirst :
    (∃ text, encodeCursor (json [positionOf newestFirst boundary "a1"]) newestFirst boundary "a1" =
        .ok text ∧
      (∃ p, decodeCursor (json [positionOf newestFirst boundary "a1"]) text newestFirst = .ok p ∧
        p.f = newestFirst.map SortSpec.field ∧ p.d = newestFirst.map (·.direction.code) ∧
        p.k = boundary.map valueAsText ∧ p.id = "a1") ∧
      ∀ other : List SortSpec, (other.map SortSpec.field ≠ newestFirst.map SortSpec.field ∨
          other.map SortSpec.direction ≠ newestFirst.map SortSpec.direction) →
        decodeCursor (json [positionOf newestFirst boundary "a1"]) text other =
          .error (.sortMismatch (Text.join ", " (other.map SortSpec.field)))) ∧
      ∀ bytes, base64urlDecode (base64urlEncode bytes) = .ok bytes :=
  cursor_codec rfl ⟨_, rfl, by decide +kernel⟩

end Backbone.Orm
