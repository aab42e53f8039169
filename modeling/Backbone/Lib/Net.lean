import Backbone.Lib.Text

/-!
# IP addresses

`std::net::IpAddr`: the two address widths, the text forms that `FromStr` accepts and `Display`
writes, and the leading bits by which an address lies in a block.
-/

namespace Backbone.Net

open Backbone.Text

/-- `std::net::IpAddr`, in network byte order. -/
inductive IpAddr where
  | v4 (bits : BitVec 32)
  | v6 (bits : BitVec 128)
deriving DecidableEq, Repr

/-- How many bits an address of this family has. -/
def IpAddr.width : IpAddr → ℕ
  | .v4 _ => 32
  | .v6 _ => 128

/-- `Ipv6Addr::to_ipv4_mapped`: the IPv4 address of `::ffff:a.b.c.d`. -/
def toIpv4Mapped (bits : BitVec 128) : Option (BitVec 32) :=
  if bits >>> 32 = 0xffff#128 then some (bits.setWidth 32) else none

/-! ## Reading -/

/-- A step of `std::net`'s parser: what it read and what is left. -/
abbrev Reader (α : Type) := List Char → Option (α × List Char)

/-- `char::to_digit`. -/
def toDigit (radix : ℕ) (c : Char) : Option ℕ :=
  let d := if c.isDigit then some (c.toNat - 48)
    else if 'a' ≤ c ∧ c ≤ 'z' then some (c.toNat - 87)
    else if 'A' ≤ c ∧ c ≤ 'Z' then some (c.toNat - 55)
    else none
  d.filter (· < radix)

/-- `Parser::read_number`: at most `maxDigits` digits whose value is below `bound`. -/
def readNumber (radix maxDigits bound : ℕ) (allowZeroPrefix : Bool) : Reader ℕ := fun cs =>
  let digits := (cs.takeWhile fun c => (toDigit radix c).isSome).filterMap (toDigit radix)
  let value := digits.foldl (fun acc d => acc * radix + d) 0
  if maxDigits < digits.length || digits.isEmpty then none
  else if !allowZeroPrefix && cs.head? == some '0' && 1 < digits.length then none
  else if value < bound then some (value, cs.drop digits.length) else none

/-- `Parser::read_given_char`. -/
def readGivenChar (c : Char) : Reader Unit
  | d :: cs => if d = c then some ((), cs) else none
  | [] => none

/-- `Parser::read_separator`: every item but the first stands after the separator. -/
def readSeparator {α : Type} (sep : Char) (index : ℕ) (inner : Reader α) : Reader α := fun cs =>
  if 0 < index then (readGivenChar sep cs).bind fun r => inner r.2 else inner cs

/-- The octets from `index` on, `left` of them. -/
def readOctets : ℕ → ℕ → Reader (List ℕ)
  | 0, _ => fun cs => some ([], cs)
  | left + 1, index => fun cs => do
    let (octet, rest) ← readSeparator '.' index (readNumber 10 3 256 false) cs
    let (octets, rest) ← readOctets left (index + 1) rest
    return (octet :: octets, rest)

/-- `Parser::read_ipv4_addr`. -/
def readIpv4Addr : Reader (List ℕ) := readOctets 4 0

/-- `read_groups`: up to `left` groups of an IPv6 address, the last two of which may be written as
an IPv4 address, and whether they were. -/
def readGroups : ℕ → ℕ → List Char → (List ℕ × Bool) × List Char
  | 0, _, cs => (([], false), cs)
  | left + 1, index, cs =>
    match if 0 < left then readSeparator ':' index readIpv4Addr cs else none with
    | some ([a, b, c, d], rest) => (([a * 256 + b, c * 256 + d], true), rest)
    | _ =>
      match readSeparator ':' index (readNumber 16 4 65536 true) cs with
      | some (group, rest) =>
        let ((groups, ipv4), rest) := readGroups left (index + 1) rest
        ((group :: groups, ipv4), rest)
      | none => (([], false), cs)

/-- `Parser::read_ipv6_addr`. -/
def readIpv6Addr : Reader (List ℕ) := fun cs =>
  let ((head, headIpv4), rest) := readGroups 8 0 cs
  if head.length = 8 then some (head, rest)
  -- An IPv4 part is not allowed before `::`.
  else if headIpv4 then none
  else do
    let (_, rest) ← readGivenChar ':' rest
    let (_, rest) ← readGivenChar ':' rest
    let ((tail, _), rest) := readGroups (8 - (head.length + 1)) 0 rest
    return (head ++ List.replicate (8 - head.length - tail.length) 0 ++ tail, rest)

/-- `Parser::read_ip_addr`. -/
def readIpAddr : Reader IpAddr := fun cs =>
  match readIpv4Addr cs with
  | some (octets, rest) =>
    some (.v4 (BitVec.ofNat 32 (octets.foldl (fun acc o => acc * 256 + o) 0)), rest)
  | none =>
    (readIpv6Addr cs).map fun (groups, rest) =>
      (.v6 (BitVec.ofNat 128 (groups.foldl (fun acc g => acc * 65536 + g) 0)), rest)

/-- `str::parse::<IpAddr>`: the whole text is one address. -/
def parseIpAddr (s : String) : Option IpAddr :=
  match readIpAddr s.toList with
  | some (ip, []) => some ip
  | _ => none

/-- `str::parse::<u8>`: an optional plus sign and decimal digits, within 8 bits. -/
def parseU8 (s : String) : Option ℕ := (parseU32 s).filter (· < 256)

/-! ## Writing -/

/-- `Display` for `Ipv4Addr`. -/
def displayIpv4 (bits : BitVec 32) : String :=
  join "." ([24, 16, 8, 0].map fun s => toString ((bits >>> s).toNat % 256))

/-- The eight segments of an IPv6 address. -/
def segments (bits : BitVec 128) : List ℕ :=
  [112, 96, 80, 64, 48, 32, 16, 0].map fun s => (bits >>> s).toNat % 65536

/-- A segment in lower-case hexadecimal, without leading zeros. -/
def displaySegment (n : ℕ) : String := String.ofList (Nat.toDigits 16 n)

/-- The longest run of zero segments, the first of several: where it starts and its length. -/
def longestZeros (segs : List ℕ) : ℕ × ℕ :=
  (List.range segs.length).foldl
    (fun best start =>
      let len := ((segs.drop start).takeWhile (· == 0)).length
      if best.2 < len then (start, len) else best) (0, 0)

/-- `Display` for `Ipv6Addr`. -/
def displayIpv6 (bits : BitVec 128) : String :=
  match toIpv4Mapped bits with
  | some v4 => "::ffff:" ++ displayIpv4 v4
  | none =>
    let segs := segments bits
    let (start, len) := longestZeros segs
    let write (part : List ℕ) := join ":" (part.map displaySegment)
    if 1 < len then write (segs.take start) ++ "::" ++ write (segs.drop (start + len))
    else write segs

/-- `Display` for `IpAddr`. -/
def IpAddr.display : IpAddr → String
  | .v4 bits => displayIpv4 bits
  | .v6 bits => displayIpv6 bits

example : ["127.0.0.1", "::1", "fd00::", "::ffff:172.18.0.5", "2001:db8::1:0:0"].all
    (fun s => (parseIpAddr s).map IpAddr.display == some s) := by decide +kernel

/-! ## Leading bits -/

/-- The first `n` bits of two addresses are the same. -/
def Agree {w : ℕ} (n : ℕ) (x y : BitVec w) : Prop := ∀ i < n, x.getMsbD i = y.getMsbD i

/-- The bits from `shift` up are what is left of a number shifted down and up again. -/
theorem shift_down_up_eq_iff {w : ℕ} (shift : ℕ) (x y : BitVec w) :
    (x >>> shift) <<< shift = (y >>> shift) <<< shift ↔
      ∀ i, shift ≤ i → i < w → x.getLsbD i = y.getLsbD i := by
  constructor
  · intro h i hi hw
    have := congrArg (·.getLsbD i) h
    simpa [BitVec.getLsbD_shiftLeft, BitVec.getLsbD_ushiftRight, hi, hw, Nat.not_lt.mpr hi] using this
  · intro h
    ext i hw
    by_cases hi : i < shift
    · simp [hi]
    · have := h i (by omega) hw
      simpa [BitVec.getElem_shiftLeft, BitVec.getLsbD_ushiftRight, hi,
        Nat.add_sub_cancel' (Nat.not_lt.mp hi), BitVec.getLsbD_eq_getElem hw] using this

/-- Leading bits, counted from the other end. -/
theorem agree_iff_getLsbD {w n : ℕ} (hn : n ≤ w) (x y : BitVec w) :
    Agree n x y ↔ ∀ i, w - n ≤ i → i < w → x.getLsbD i = y.getLsbD i := by
  constructor
  · intro h i hi hw
    have := h (w - 1 - i) (by omega)
    simpa [BitVec.getMsbD_eq_getLsbD, show w - 1 - i < w by omega, show w - 1 - (w - 1 - i) = i by omega]
      using this
  · intro h i hi
    have := h (w - 1 - i) (by omega) (by omega)
    simpa [BitVec.getMsbD_eq_getLsbD, show i < w by omega] using this

/-- An address that begins as an IPv4-mapped one does is IPv4-mapped. -/
theorem isSome_toIpv4Mapped_of_agree {n : ℕ} (hn : 96 ≤ n) {x y : BitVec 128} (h : Agree n x y)
    (hx : (toIpv4Mapped x).isSome) : (toIpv4Mapped y).isSome := by
  have hbits : x >>> 32 = y >>> 32 := by
    ext i hi
    by_cases hlow : i < 96
    · have := h (127 - (32 + i)) (by omega)
      simpa [BitVec.getMsbD_eq_getLsbD, show 127 - (32 + i) < 128 by omega,
        show 127 - (127 - (32 + i)) = 32 + i by omega] using this
    · simp [BitVec.getLsbD_of_ge _ _ (show 128 ≤ 32 + i by omega)]
  have hmapped : x >>> 32 = 0xffff#128 := by
    by_contra hne
    simp [toIpv4Mapped, hne] at hx
  simp [toIpv4Mapped, ← hbits, hmapped]

end Backbone.Net
