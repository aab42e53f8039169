import Mathlib.Data.List.AList
import Backbone.Lib.Except

/-!
# Compressed messages

`compress_message` puts the base64 text of the compressed JSON in the place of the payload and marks
the message by a flag, its original size and two attributes; `decompress_message` goes by these
marks. A payload that does not get shorter is an error, and what was compressed already is known
only by the first characters that gzip gives the text.

gzip, zlib, base64 and `serde_json` are parameters. The statistics, which no decision reads, are
left out.

Reference: `backbone-queue/src/compression.rs`.
-/

namespace Backbone.Queue.Compression

variable {π : Type}

inductive CompressionAlgorithm where
  | none | gzip | zlib
deriving DecidableEq, Repr

namespace CompressionAlgorithm

/-- Only ASCII letters have a letter of these names as their lower case. -/
def parse (s : String) : CompressionAlgorithm :=
  let s := s.toLower
  if s = "gzip" then .gzip else if s = "zlib" then .zlib else .none

def asStr : CompressionAlgorithm → String
  | .none => "none"
  | .gzip => "gzip"
  | .zlib => "zlib"

end CompressionAlgorithm

/-- `CompressionConfig`; nothing reads `max_attempts`. -/
structure CompressionConfig where
  algorithm : CompressionAlgorithm
  level : ℕ
  minSize : ℕ
  forceCompression : Bool

/-- A JSON value: a string, or any other. -/
inductive Payload (π : Type) where
  | string (s : String)
  | other (value : π)
deriving DecidableEq

-- The library's instance does not compute.
instance decidableEqAttributes : DecidableEq (AList fun _ : String => String) :=
  fun _ _ => decidable_of_iff _ AList.ext_iff.symm

/-- `QueueMessage`, what the compressor reads and writes of it. -/
structure QueueMessage (π : Type) where
  payload : Payload π
  attributes : AList fun _ : String => String
  compressed : Bool
  originalSize : Option ℕ
deriving DecidableEq

inductive QueueError where
  | serialization (message : String)
  | deserialization (message : String)
  | other (message : String)
deriving DecidableEq, Repr

abbrev Bytes := List UInt8

/-- `serde_json`, `flate2` and `base64`; an error is its text. -/
structure Codecs (π : Type) where
  toVec : Payload π → Bytes
  fromSlice : Bytes → Except String (Payload π)
  gzip : ℕ → Bytes → Except String Bytes
  gunzip : Bytes → Except String Bytes
  zlib : ℕ → Bytes → Except String Bytes
  unzlib : Bytes → Except String Bytes
  encode : Bytes → String
  decode : String → Except String Bytes

/-- `starts_with("H4sI")`, the magic header of gzip in base64. -/
def startsWithMagic (s : String) : Bool := "H4sI".toList.isPrefixOf s.toList

section Compressor

variable (c : Codecs π) (cfg : CompressionConfig)

def compressData (data : Bytes) : Except QueueError Bytes :=
  let failed (e : String) : QueueError := .other s!"Compression failed: {e}"
  match cfg.algorithm with
  | .gzip => (c.gzip cfg.level data).mapError failed
  | .zlib => (c.zlib cfg.level data).mapError failed
  | .none => .ok data

def decompressData (data : Bytes) (algorithm : CompressionAlgorithm) : Except QueueError Bytes :=
  let failed (e : String) : QueueError := .other s!"Decompression failed: {e}"
  match algorithm with
  | .gzip => (c.gunzip data).mapError failed
  | .zlib => (c.unzlib data).mapError failed
  | .none => .ok data

def shouldCompress (payload : Payload π) : Bool :=
  if cfg.algorithm = .none then false
  else
    let isGzip := match payload with
      | .string s => startsWithMagic s
      | .other _ => false
    if isGzip then false
    else decide (cfg.minSize ≤ (c.toVec payload).length) || cfg.forceCompression

/-- The message with its compressed payload. -/
def marked (m : QueueMessage π) (data : Bytes) : QueueMessage π where
  payload := .string (c.encode data)
  compressed := true
  originalSize := some (c.toVec m.payload).length
  attributes :=
    (m.attributes.insert "compression_algorithm" cfg.algorithm.asStr).insert
      "compression_compressed_size" (toString data.length)

/-- `compress_message`; an error leaves the message as it is. -/
def compressMessage (m : QueueMessage π) : Except QueueError (QueueMessage π) :=
  if shouldCompress c cfg m.payload then
    match compressData c cfg (c.toVec m.payload) with
    | .error e => .error e
    | .ok data =>
      if !cfg.forceCompression && decide ((c.toVec m.payload).length ≤ data.length) then
        .error (.serialization
          s!"Compression not beneficial: {(c.toVec m.payload).length} -> {data.length} bytes")
      else .ok (marked c cfg m data)
  else .ok m

/-- `get_compression_info`, which never fails. -/
def getCompressionInfo (m : QueueMessage π) : Option (CompressionAlgorithm × ℕ) :=
  if !m.compressed then none
  else
    match m.attributes.lookup "compression_algorithm" with
    | none => none
    | some s =>
      if CompressionAlgorithm.parse s = .none then none
      else some (CompressionAlgorithm.parse s, m.originalSize.getD 0)

/-- The message without its marks. -/
def unmarked (m : QueueMessage π) (payload : Payload π) : QueueMessage π where
  payload := payload
  compressed := false
  originalSize := none
  attributes :=
    (m.attributes.erase "compression_algorithm").erase "compression_compressed_size"

/-- `decompress_message`; an error leaves the message as it is. -/
def decompressMessage (m : QueueMessage π) : Except QueueError (QueueMessage π) :=
  match getCompressionInfo m with
  | none => .ok m
  | some (algorithm, originalSize) =>
    match m.payload with
    | .other _ => .error (.deserialization "Compressed payload must be a string")
    | .string encoded =>
      match c.decode encoded with
      | .error e => .error (.deserialization s!"Failed to decode compressed data: {e}")
      | .ok data =>
        match decompressData c data algorithm with
        | .error e => .error e
        | .ok decompressed =>
          if 0 < originalSize ∧ decompressed.length ≠ originalSize then
            .error (.deserialization
              s!"Decompressed size mismatch: expected {originalSize}, got {decompressed.length}")
          else
            match c.fromSlice decompressed with
            | .error e => .error (.deserialization e)
            | .ok payload => .ok (unmarked m payload)

/-! ## Transparency -/

/-- The message is compressed, comes back from it as it was, and is not compressed twice. -/
def Transparent (m : QueueMessage π) : Prop :=
  ∃ m', compressMessage c cfg m = .ok m' ∧ decompressMessage c m' = .ok m ∧
    compressMessage c cfg m' = .ok m'

/-- A payload that is to be compressed gets shorter, or compression is forced; its text is that of
gzip, or too short to be compressed again, or the payload itself; and the message bears no marks
yet. A message whose payload is not to be compressed is not marked as compressed. -/
def Restorable (m : QueueMessage π) : Prop :=
  (shouldCompress c cfg m.payload = true →
    (∀ data, compressData c cfg (c.toVec m.payload) = .ok data →
      (cfg.forceCompression = true ∨ data.length < (c.toVec m.payload).length) ∧
      (cfg.algorithm = .gzip ∨
        cfg.forceCompression = false ∧ (c.toVec (.string (c.encode data))).length < cfg.minSize ∨
        m.payload = .string (c.encode data))) ∧
    m.compressed = false ∧ m.originalSize = none ∧ "compression_algorithm" ∉ m.attributes ∧
      "compression_compressed_size" ∉ m.attributes) ∧
  (shouldCompress c cfg m.payload = false → getCompressionInfo m = none)

end Compressor

/-- What the codecs do with a payload: each comes back, the text of gzip starts with its magic
header, and the text of zlib does not. -/
structure Codecs.Sound (c : Codecs π) (level : ℕ) (payload : Payload π) : Prop where
  json : c.fromSlice (c.toVec payload) = .ok payload
  gzip : ∃ data, c.gzip level (c.toVec payload) = .ok data ∧ c.gunzip data = .ok (c.toVec payload) ∧
    c.decode (c.encode data) = .ok data ∧ startsWithMagic (c.encode data) = true
  zlib : ∃ data, c.zlib level (c.toVec payload) = .ok data ∧ c.unzlib data = .ok (c.toVec payload) ∧
    c.decode (c.encode data) = .ok data ∧ startsWithMagic (c.encode data) = false

section Lemmas

variable {c : Codecs π} {cfg : CompressionConfig} {m : QueueMessage π}

/-- What compressing a payload leaves. -/
theorem Codecs.Sound.compressData (h : c.Sound cfg.level m.payload)
    (halgorithm : cfg.algorithm ≠ .none) :
    ∃ data, compressData c cfg (c.toVec m.payload) = .ok data ∧
      decompressData c data cfg.algorithm = .ok (c.toVec m.payload) ∧
        c.decode (c.encode data) = .ok data ∧
          (startsWithMagic (c.encode data) = true ↔ cfg.algorithm = .gzip) := by
  cases hcfg : cfg.algorithm with
  | none => exact absurd hcfg halgorithm
  | gzip =>
    obtain ⟨data, hzip, hunzip, hdecode, hmagic⟩ := h.gzip
    refine ⟨data, ?_, ?_, hdecode, iff_of_true hmagic rfl⟩
    · simp [Compression.compressData, hcfg, hzip, Except.mapError]
    · simp [decompressData, hunzip, Except.mapError]
  | zlib =>
    obtain ⟨data, hzip, hunzip, hdecode, hmagic⟩ := h.zlib
    refine ⟨data, ?_, ?_, hdecode, iff_of_false (by simp [hmagic]) (by simp)⟩
    · simp [Compression.compressData, hcfg, hzip, Except.mapError]
    · simp [decompressData, hunzip, Except.mapError]

theorem parse_asStr (algorithm : CompressionAlgorithm) :
    CompressionAlgorithm.parse algorithm.asStr = algorithm := by
  cases algorithm <;> decide +kernel

theorem algorithm_ne_none (h : shouldCompress c cfg m.payload = true) : cfg.algorithm ≠ .none := by
  intro hnone
  unfold shouldCompress at h
  rw [if_pos hnone] at h
  cases h

/-- A text is to be compressed when it does not look like gzip and is long enough, or is forced. -/
theorem shouldCompress_string (halgorithm : cfg.algorithm ≠ .none) (s : String) :
    shouldCompress c cfg (.string s) = false ↔
      startsWithMagic s = true ∨
        cfg.forceCompression = false ∧ (c.toVec (.string s)).length < cfg.minSize := by
  unfold shouldCompress
  rw [if_neg halgorithm]
  cases hmagic : startsWithMagic s with
  | true => simp [hmagic]
  | false => simp [hmagic, and_comm]

theorem compressed_of_getCompressionInfo (h : getCompressionInfo m ≠ none) : m.compressed = true := by
  by_contra hfalse
  rw [getCompressionInfo, Bool.eq_false_iff.mpr hfalse] at h
  exact h rfl

/-- What is decompressed is not marked as compressed. -/
theorem compressed_of_decompressMessage {m' : QueueMessage π} (hinfo : getCompressionInfo m ≠ none)
    (h : decompressMessage c m = .ok m') : m'.compressed = false := by
  revert h
  fun_cases decompressMessage c m with
  | case1 hnone => exact absurd hnone hinfo
  | case7 =>
    -- The payload has been read back.
    intro h
    cases h
    rfl
  | _ =>
    intro h
    cases h

/-- A message that is not marked as compressed is decompressed to itself, and no other is. -/
theorem decompressMessage_eq_self_iff :
    decompressMessage c m = .ok m ↔ getCompressionInfo m = none := by
  constructor
  · intro h
    by_contra hinfo
    have hunmarked := compressed_of_decompressMessage hinfo h
    rw [compressed_of_getCompressionInfo hinfo] at hunmarked
    cases hunmarked
  · intro hinfo
    unfold decompressMessage
    rw [hinfo]

end Lemmas

section Round

variable {c : Codecs π} {cfg : CompressionConfig} {m : QueueMessage π} {data : Bytes} {a b : String}

theorem kerase_cons_self (k x : String) (l : List (Sigma fun _ : String => String)) :
    List.kerase k (⟨k, x⟩ :: l) = l :=
  List.kerase_cons_eq rfl

/-- Two keys that are put in and taken out again. -/
theorem erase_erase_insert_insert {attributes : AList fun _ : String => String}
    (hab : a ≠ b) (v w : String) :
    (((attributes.insert a v).insert b w).erase a).erase b = attributes ↔
      a ∉ attributes ∧ b ∉ attributes := by
  constructor
  · intro h
    rw [← h]
    simp [AList.mem_erase]
  · rintro ⟨ha, hb⟩
    have hb' : b ∉ attributes.insert a v := by
      rw [AList.mem_insert]
      exact fun hmem => hmem.elim (fun heq => hab heq.symm) hb
    refine AList.ext ?_
    show ((((attributes.insert a v).insert b w).entries.kerase a).kerase b) = attributes.entries
    rw [AList.entries_insert_of_notMem hb', AList.entries_insert_of_notMem ha,
      List.kerase_cons_ne hab, kerase_cons_self, kerase_cons_self]

/-- Two keys that are put in twice. -/
theorem insert_insert_insert_insert (attributes : AList fun _ : String => String)
    (hab : a ≠ b) (v w : String) :
    (((attributes.insert a v).insert b w).insert a v).insert b w =
      (attributes.insert a v).insert b w := by
  refine AList.ext ?_
  rw [AList.entries_insert, AList.entries_insert, AList.entries_insert, AList.entries_insert,
    List.kerase_cons_ne hab.symm, List.kerase_cons_ne hab, kerase_cons_self,
    List.kerase_cons_ne hab.symm, kerase_cons_self]

/-- Marks are taken off again, and what bore marks before does not come back. -/
theorem unmarked_marked_iff :
    unmarked (marked c cfg m data) m.payload = m ↔
      m.compressed = false ∧ m.originalSize = none ∧ "compression_algorithm" ∉ m.attributes ∧
        "compression_compressed_size" ∉ m.attributes := by
  obtain ⟨payload, attributes, compressed, originalSize⟩ := m
  simp only [unmarked, marked, QueueMessage.mk.injEq, true_and]
  rw [erase_erase_insert_insert (by decide), eq_comm (a := false), eq_comm (a := none)]
  tauto

/-- The marks say how to decompress the message. -/
theorem getCompressionInfo_marked (halgorithm : cfg.algorithm ≠ .none) :
    getCompressionInfo (marked c cfg m data) =
      some (cfg.algorithm, (c.toVec m.payload).length) := by
  have hlookup : (marked c cfg m data).attributes.lookup "compression_algorithm" =
      some cfg.algorithm.asStr := by
    rw [marked, AList.lookup_insert_ne (by decide), AList.lookup_insert]
  unfold getCompressionInfo
  rw [hlookup]
  simp only [parse_asStr, if_neg halgorithm]
  rfl

/-- A compressed payload comes back. -/
theorem decompressMessage_marked (halgorithm : cfg.algorithm ≠ .none)
    (hjson : c.fromSlice (c.toVec m.payload) = .ok m.payload)
    (hdata : decompressData c data cfg.algorithm = .ok (c.toVec m.payload))
    (hdecode : c.decode (c.encode data) = .ok data) :
    decompressMessage c (marked c cfg m data) = .ok (unmarked (marked c cfg m data) m.payload) := by
  unfold decompressMessage
  rw [getCompressionInfo_marked halgorithm]
  simp only [marked, hdecode, hdata, hjson]
  simp

/-- Compressing a payload that is to be compressed. -/
theorem compressMessage_eq_ok_iff (hshould : shouldCompress c cfg m.payload = true)
    (hdata : compressData c cfg (c.toVec m.payload) = .ok data) {m' : QueueMessage π} :
    compressMessage c cfg m = .ok m' ↔
      (cfg.forceCompression = true ∨ data.length < (c.toVec m.payload).length) ∧
        marked c cfg m data = m' := by
  unfold compressMessage
  rw [if_pos hshould]
  simp only [hdata]
  split
  · next hlonger =>
    rw [Bool.and_eq_true, Bool.not_eq_true', decide_eq_true_iff] at hlonger
    refine iff_of_false (fun h => by cases h) ?_
    rintro ⟨hforce | hshorter, -⟩
    · rw [hlonger.1] at hforce
      cases hforce
    · omega
  · next hshorter =>
    rw [Bool.and_eq_true, Bool.not_eq_true', decide_eq_true_iff, not_and, not_le,
      ← Bool.not_eq_true, ← or_iff_not_imp_left] at hshorter
    rw [Except.ok.injEq]
    exact ⟨fun h => ⟨hshorter, h⟩, And.right⟩

/-- A marked message is compressed once more unless its text is not to be compressed, or is the
payload it stands for. -/
theorem compressMessage_marked_iff
    (hdata : compressData c cfg (c.toVec m.payload) = .ok data)
    (hunzip : decompressData c data cfg.algorithm = .ok (c.toVec m.payload))
    (hshorter : cfg.forceCompression = true ∨ data.length < (c.toVec m.payload).length)
    (hjson : c.fromSlice (c.toVec m.payload) = .ok m.payload)
    (hdecode : c.decode (c.encode data) = .ok data)
    (htext : c.Sound cfg.level (.string (c.encode data))) :
    compressMessage c cfg (marked c cfg m data) = .ok (marked c cfg m data) ↔
      shouldCompress c cfg (.string (c.encode data)) = false ∨
        m.payload = .string (c.encode data) := by
  have hpayload : (marked c cfg m data).payload = .string (c.encode data) := rfl
  by_cases hagain : shouldCompress c cfg (.string (c.encode data)) = true
  · rw [or_iff_right (by rw [hagain]; exact Bool.noConfusion)]
    constructor
    · intro h
      -- The text compressed is the text again, so it stands for what it is.
      obtain ⟨data', hdata', hunzip', hdecode', -⟩ :=
        Codecs.Sound.compressData (m := marked c cfg m data) htext
          (algorithm_ne_none (m := marked c cfg m data) hagain)
      obtain ⟨-, hmarked⟩ := (compressMessage_eq_ok_iff hagain hdata').mp h
      have hencode : c.encode data' = c.encode data :=
        Payload.string.inj (congrArg QueueMessage.payload hmarked)
      have hsame : data' = data := by
        rw [hencode, hdecode] at hdecode'
        exact (Except.ok.inj hdecode').symm
      rw [hsame, hunzip] at hunzip'
      have hbytes := congrArg c.fromSlice (Except.ok.inj hunzip')
      rw [hjson, hpayload, htext.json] at hbytes
      exact Except.ok.inj hbytes
    · intro hself
      have hdata' : compressData c cfg (c.toVec (marked c cfg m data).payload) = .ok data := by
        rw [hpayload, ← hself, hdata]
      refine (compressMessage_eq_ok_iff hagain hdata').mpr ⟨?_, ?_⟩
      · rw [hpayload, ← hself]
        exact hshorter
      · unfold marked
        rw [insert_insert_insert_insert m.attributes (by decide), ← hself]
  · rw [Bool.not_eq_true] at hagain
    refine iff_of_true ?_ (Or.inl hagain)
    unfold compressMessage
    rw [hpayload, if_neg (by rw [hagain]; exact Bool.noConfusion)]

/-- A message whose payload is not to be compressed is left alone by both, unless it is marked. -/
theorem transparent_of_not_shouldCompress (hshould : shouldCompress c cfg m.payload = false) :
    Transparent c cfg m ↔ getCompressionInfo m = none := by
  have hcompress : compressMessage c cfg m = .ok m := by
    unfold compressMessage
    rw [if_neg (by rw [hshould]; exact Bool.noConfusion)]
  rw [← decompressMessage_eq_self_iff (c := c)]
  constructor
  · rintro ⟨m', hm', hdecompress, -⟩
    rw [hcompress] at hm'
    rwa [← Except.ok.inj hm'] at hdecompress
  · exact fun hdecompress => ⟨m, hcompress, hdecompress, hcompress⟩

end Round

section Main

variable (c : Codecs π) (cfg : CompressionConfig) (m : QueueMessage π)

/-- Compression is transparent exactly for a restorable message, if the codecs are sound for its
payload and for the text that takes its place. -/
theorem transparent_iff (hlevel : cfg.level ≤ 9) (hpayload : ∀ level ≤ 9, c.Sound level m.payload)
    (htext : ∀ level ≤ 9, ∀ data, compressData c cfg (c.toVec m.payload) = .ok data →
      c.Sound level (.string (c.encode data))) :
    Transparent c cfg m ↔ Restorable c cfg m := by
  cases hshould : shouldCompress c cfg m.payload with
  | false =>
    rw [transparent_of_not_shouldCompress hshould]
    constructor
    · intro hinfo
      refine ⟨fun htrue => ?_, fun _ => hinfo⟩
      rw [hshould] at htrue
      cases htrue
    · exact fun h => h.2 hshould
  | true =>
    have hsound := hpayload cfg.level hlevel
    have halgorithm := algorithm_ne_none hshould
    obtain ⟨data, hdata, hunzip, hdecode, hmagic⟩ := hsound.compressData halgorithm
    have hdecompress := decompressMessage_marked halgorithm hsound.json hunzip hdecode
    have htwice : (cfg.forceCompression = true ∨ data.length < (c.toVec m.payload).length) →
        (compressMessage c cfg (marked c cfg m data) = .ok (marked c cfg m data) ↔
          cfg.algorithm = .gzip ∨ cfg.forceCompression = false ∧
            (c.toVec (.string (c.encode data))).length < cfg.minSize ∨
              m.payload = .string (c.encode data)) := by
      intro hshorter
      rw [compressMessage_marked_iff hdata hunzip hshorter hsound.json hdecode
        (htext cfg.level hlevel data hdata), shouldCompress_string halgorithm, hmagic, or_assoc]
    constructor
    · rintro ⟨m', hm', hback, hagain⟩
      obtain ⟨hshorter, rfl⟩ := (compressMessage_eq_ok_iff hshould hdata).mp hm'
      rw [hdecompress, Except.ok.injEq] at hback
      refine ⟨fun _ => ⟨fun data' hdata' => ?_, unmarked_marked_iff.mp hback⟩, fun hfalse => ?_⟩
      · rw [hdata] at hdata'
        rw [← Except.ok.inj hdata']
        exact ⟨hshorter, (htwice hshorter).mp hagain⟩
      · rw [hshould] at hfalse
        cases hfalse
    · intro h
      obtain ⟨hall, hmarks⟩ := h.1 hshould
      obtain ⟨hshorter, htext'⟩ := hall data hdata
      refine ⟨marked c cfg m data, (compressMessage_eq_ok_iff hshould hdata).mpr ⟨hshorter, rfl⟩,
        ?_, (htwice hshorter).mpr htext'⟩
      rw [hdecompress, unmarked_marked_iff.mpr hmarks]

end Main

section Samples

/-- A payload, its JSON, what gzip and zlib make of this, and the base64 texts. -/
structure Sample where
  payload : Payload Unit
  json : Bytes
  gzip : Bytes
  gzipText : String
  zlib : Bytes
  zlibText : String

/-- `null`, and the texts that take its place. -/
def samples : List Sample :=
  [{ payload := .other ()
     json := [110, 117, 108, 108]
     gzip := [31, 139, 8, 0, 0, 0, 0, 0, 0, 255, 203, 43, 205, 201, 1, 0, 79, 252, 203, 37, 4, 0,
       0, 0]
     gzipText := "H4sIAAAAAAAA/8srzckBAE/8yyUEAAAA"
     zlib := [120, 156, 203, 43, 205, 201, 1, 0, 4, 95, 1, 188]
     zlibText := "eJzLK83JAQAEXwG8" },
   { payload := .string "H4sIAAAAAAAA/8srzckBAE/8yyUEAAAA"
     json := [34, 72, 52, 115, 73, 65, 65, 65, 65, 65, 65, 65, 65, 47, 56, 115, 114, 122, 99,
       107, 66, 65, 69, 47, 56, 121, 121, 85, 69, 65, 65, 65, 65, 34]
     gzip := [31, 139, 8, 0, 0, 0, 0, 0, 0, 255, 83, 242, 48, 41, 246, 116, 132, 2, 125, 139,
       226, 162, 170, 228, 108, 39, 71, 87, 125, 139, 202, 202, 80, 87, 144, 152, 18, 0, 245,
       226, 219, 144, 34, 0, 0, 0]
     gzipText := "H4sIAAAAAAAA/1PyMCn2dIQCfYvioqrkbCdHV32LyspQV5CYEgD14tuQIgAAAA=="
     zlib := [120, 156, 83, 242, 48, 41, 246, 116, 132, 2, 125, 139, 226, 162, 170, 228, 108, 39,
       71, 87, 125, 139, 202, 202, 80, 87, 144, 152, 18, 0, 170, 16, 9, 216]
     zlibText := "eJxT8jAp9nSEAn2L4qKq5GwnR1d9i8rKUFeQmBIAqhAJ2A==" },
   { payload := .string "eJzLK83JAQAEXwG8"
     json := [34, 101, 74, 122, 76, 75, 56, 51, 74, 65, 81, 65, 69, 88, 119, 71, 56, 34]
     gzip := [31, 139, 8, 0, 0, 0, 0, 0, 0, 255, 83, 74, 245, 170, 242, 241, 182, 48, 246, 114,
       12, 116, 116, 141, 40, 119, 183, 80, 2, 0, 49, 133, 76, 188, 18, 0, 0, 0]
     gzipText := "H4sIAAAAAAAA/1NK9ary8bYw9nIMdHSNKHe3UAIAMYVMvBIAAAA="
     zlib := [120, 156, 83, 74, 245, 170, 242, 241, 182, 48, 246, 114, 12, 116, 116, 141, 40,
       119, 183, 80, 2, 0, 49, 206, 5, 32]
     zlibText := "eJxTSvWq8vG2MPZyDHR0jSh3t1ACADHOBSA=" }]

/-- The answer of the first sample that has one. -/
def sampled {β : Type} (f : Sample → Option β) : Except String β :=
  match samples.findSome? f with
  | some answer => .ok answer
  | none => .error "not a sample"

/-- The codecs on the samples. -/
def sampleCodecs : Codecs Unit where
  toVec payload := ((samples.find? fun s => s.payload = payload).map Sample.json).getD []
  fromSlice bytes := sampled fun s => if s.json = bytes then some s.payload else none
  gzip _ bytes := sampled fun s => if s.json = bytes then some s.gzip else none
  gunzip bytes := sampled fun s => if s.gzip = bytes then some s.json else none
  zlib _ bytes := sampled fun s => if s.json = bytes then some s.zlib else none
  unzlib bytes := sampled fun s => if s.zlib = bytes then some s.json else none
  encode bytes := (samples.findSome? fun s =>
    if s.gzip = bytes then some s.gzipText
    else if s.zlib = bytes then some s.zlibText
    else none).getD ""
  decode text := sampled fun s =>
    if s.gzipText = text then some s.gzip
    else if s.zlibText = text then some s.zlib
    else none

theorem sampleCodecs_sound {payload : Payload Unit} (hpayload : payload ∈ samples.map Sample.payload)
    (level : ℕ) : sampleCodecs.Sound level payload := by
  simp only [samples, List.map_cons, List.map_nil, List.mem_cons, List.not_mem_nil,
    or_false] at hpayload
  obtain rfl | rfl | rfl := hpayload
  · exact ⟨by decide +kernel, ⟨_, rfl, by decide +kernel⟩, ⟨_, rfl, by decide +kernel⟩⟩
  · exact ⟨by decide +kernel, ⟨_, rfl, by decide +kernel⟩, ⟨_, rfl, by decide +kernel⟩⟩
  · exact ⟨by decide +kernel, ⟨_, rfl, by decide +kernel⟩, ⟨_, rfl, by decide +kernel⟩⟩

/-- A message as it is built. -/
def nullMessage (compressed : Bool) : QueueMessage Unit where
  payload := .other ()
  attributes := ∅
  compressed := compressed
  originalSize := none

/-- `null` comes back from forced gzip. -/
theorem transparent_null :
    Transparent sampleCodecs
        { algorithm := .gzip, level := 6, minSize := 1024, forceCompression := true }
        (nullMessage false) := by
  refine (transparent_iff _ _ _ ?_ ?_ ?_).mpr ?_
  · decide
  · exact fun level _ => sampleCodecs_sound (by decide +kernel) level
  · intro level _ data hdata
    refine sampleCodecs_sound ?_ level
    revert data
    decide +kernel
  · unfold Restorable
    decide +kernel

/-- `null` gets longer; once its text is that of zlib it is compressed again; and a message that is
built as compressed does not come back as that. -/
theorem not_transparent :
    (∀ payload ∈ samples.map Sample.payload, ∀ level ≤ 9, sampleCodecs.Sound level payload) ∧
    ¬Transparent sampleCodecs
        { algorithm := .gzip, level := 6, minSize := 0, forceCompression := false }
        (nullMessage false) ∧
      ¬Transparent sampleCodecs
          { algorithm := .zlib, level := 6, minSize := 1024, forceCompression := true }
          (nullMessage false) ∧
        ¬Transparent sampleCodecs
            { algorithm := .gzip, level := 6, minSize := 1024, forceCompression := true }
            (nullMessage true) := by
  refine ⟨fun payload hpayload level _ => sampleCodecs_sound hpayload level, ?_, ?_, ?_⟩
  · unfold Transparent
    decide +kernel
  · unfold Transparent
    decide +kernel
  · unfold Transparent
    decide +kernel

end Samples

end Backbone.Queue.Compression
