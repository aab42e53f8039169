import Backbone.Lib.Net
import Backbone.Lib.Except

/-!
# Trusted proxies

Which peers may tell the limiter who the client is. `X-Forwarded-For` and `X-Real-IP` are plain
request headers, which any client can send; they are read only when the connection's peer lies in
one of the configured blocks.

Reference: `backbone-rate-limit/src/proxy.rs` and `client_key` of `middleware.rs`.
-/

namespace Backbone.RateLimit

open Backbone.Net Backbone.Text

/-! ## Blocks -/

/-- A malformed trusted-proxy entry, with its text. -/
structure InvalidProxy where
  entry : String
deriving DecidableEq, Repr

/-- `invalid trusted proxy entry '{0}': expected an IP address or CIDR block`. -/
def InvalidProxy.message (e : InvalidProxy) : String :=
  "invalid trusted proxy entry '" ++ e.entry ++ "': expected an IP address or CIDR block"

/-- One address block: an address and the number of leading bits that must match. -/
structure Block where
  addr : IpAddr
  prefixLen : ℕ
  prefixLen_le : prefixLen ≤ addr.width
deriving DecidableEq

/-- `Block::parse`. -/
def Block.parse (raw : String) : Except InvalidProxy Block :=
  let (addr, len) := match splitOnce raw '/' with
    | some (addr, len) => (addr, some len)
    | none => (raw, none)
  match parseIpAddr (trim addr) with
  | none => .error ⟨raw⟩
  | some addr =>
    match (match len with | some p => parseU8 (trim p) | none => some addr.width) with
    | none => .error ⟨raw⟩
    | some len => if h : len ≤ addr.width then .ok ⟨addr, len, h⟩ else .error ⟨raw⟩

/-- Keep the top `prefixLen` bits of a `width`-bit address. -/
def masked (bits : BitVec 128) (prefixLen width : ℕ) : BitVec 128 :=
  if prefixLen = 0 then 0#128
  else
    let shift := width - prefixLen
    (bits >>> shift) <<< shift

/-- An IPv4 address carried in IPv6 (`::ffff:a.b.c.d`, a dual-stack socket) compares as IPv4. -/
def canonical : IpAddr → IpAddr
  | .v6 bits => ((toIpv4Mapped bits).map IpAddr.v4).getD (.v6 bits)
  | .v4 bits => .v4 bits

/-- `Block::contains`. -/
def Block.contains (b : Block) (ip : IpAddr) : Bool :=
  match b.addr, canonical ip with
  | .v4 net, .v4 ip =>
    masked (net.setWidth 128) b.prefixLen 32 == masked (ip.setWidth 128) b.prefixLen 32
  | .v6 net, .v6 ip => masked net b.prefixLen 128 == masked ip b.prefixLen 128
  | _, _ => false

/-- The peers whose forwarding headers the limiter believes. -/
structure TrustedProxies where
  blocks : List Block
deriving DecidableEq

/-- `TrustedProxies::parse`: a comma-separated list of addresses and blocks. -/
def TrustedProxies.parse (list : String) : Except InvalidProxy TrustedProxies :=
  (((split list ',').map trim).filter (· ≠ "")).mapM Block.parse |>.map (⟨·⟩)

/-- `TrustedProxies::contains`. -/
def TrustedProxies.contains (proxies : TrustedProxies) (ip : IpAddr) : Bool :=
  proxies.blocks.any fun block => block.contains ip

/-! ## Headers -/

/-- `HeaderMap`: header lines in the order they came, under lower-case names. -/
abbrev HeaderMap := List (String × List UInt8)

/-- `HeaderMap::get_all`. -/
def getAll (headers : HeaderMap) (name : String) : List (List UInt8) :=
  (headers.filter (·.1 = name)).map (·.2)

/-- A byte `HeaderValue::to_str` lets through: visible ASCII or a tab. -/
def isVisibleAscii (b : UInt8) : Bool := (32 ≤ b && b < 127) || b == 9

/-- `HeaderValue::to_str`. -/
def toStr (value : List UInt8) : Option String :=
  if value.all isVisibleAscii then some (String.ofList (value.map fun b => Char.ofNat b.toNat))
  else none

/-- The entries of the `X-Forwarded-For` lines that can be read, left to right. -/
def forwardedEntries (headers : HeaderMap) : List String :=
  (((getAll headers "x-forwarded-for").filterMap toStr).flatMap (split · ',')).map trim

/-- The loop of `client_ip` over the entries, given right to left. -/
def TrustedProxies.scan (proxies : TrustedProxies) (peer : IpAddr) : List String → IpAddr
  | [] => peer
  | entry :: rest =>
    match parseIpAddr entry with
    | some ip => if proxies.contains ip then proxies.scan peer rest else canonical ip
    -- An entry that cannot be read: stop here.
    | none => peer

/-- `TrustedProxies::client_ip`: the client address of a request that arrived from `peer`. -/
def TrustedProxies.clientIp (proxies : TrustedProxies) (peer : IpAddr) (headers : HeaderMap) :
    IpAddr :=
  let peer := canonical peer
  if !proxies.contains peer then peer
  else
    let forwarded := forwardedEntries headers
    if !forwarded.isEmpty then proxies.scan peer forwarded.reverse
    else
      ((((getAll headers "x-real-ip").head?.bind toStr).bind
        fun v => parseIpAddr (trim v)).map canonical).getD peer

/-- The shared bucket for requests that carry no peer address. -/
def unknownPeerKey : String := "peer:unknown"

/-- `RateLimitMiddleware::client_key`: `extracted` is what the key extractor yields. -/
def clientKey (proxies : TrustedProxies) (extracted : Option String) (peer : Option IpAddr)
    (headers : HeaderMap) : String :=
  match extracted with
  | some key => "key:" ++ key
  | none =>
    match peer with
    | some peer => "ip:" ++ (proxies.clientIp peer headers).display
    | none => unknownPeerKey

/-! ## What a block covers -/

/-- The addresses of a block: those of its family that begin as its address does. -/
def Block.Covers (b : Block) (ip : IpAddr) : Prop :=
  match b.addr, ip with
  | .v4 net, .v4 ip => Agree b.prefixLen net ip
  | .v6 net, .v6 ip => Agree b.prefixLen net ip
  | _, _ => False

theorem masked_eq_masked_iff {n w : ℕ} (hn : n ≤ w) (hw : w ≤ 128) (x y : BitVec w) :
    masked (x.setWidth 128) n w = masked (y.setWidth 128) n w ↔ Agree n x y := by
  by_cases h0 : n = 0
  · simp [masked, h0, Agree]
  · simp only [masked, h0, ↓reduceIte, shift_down_up_eq_iff, agree_iff_getLsbD hn,
      BitVec.getLsbD_setWidth]
    constructor
    · intro h i hi hiw
      simpa [show i < 128 by omega] using h i hi (by omega)
    · intro h i hi hi'
      by_cases hiw : i < w
      · simp [h i hi hiw]
      · simp [BitVec.getLsbD_of_ge _ _ (Nat.not_lt.mp hiw)]

theorem Block.contains_iff (b : Block) (ip : IpAddr) : b.contains ip ↔ b.Covers (canonical ip) := by
  obtain ⟨addr, n, hn⟩ := b
  unfold Block.contains Block.Covers
  cases addr <;> cases canonical ip <;> simp only [Bool.false_eq_true, beq_iff_eq]
  · exact masked_eq_masked_iff hn (show 32 ≤ 128 by decide) _ _
  · have h := masked_eq_masked_iff (w := 128) hn (Nat.le_refl 128)
    simpa only [BitVec.setWidth_eq] using h _ _

variable (proxies : TrustedProxies) (ip : IpAddr) {b : Block}

theorem TrustedProxies.contains_iff :
    proxies.contains ip ↔ ∃ b ∈ proxies.blocks, b.Covers (canonical ip) := by
  simp [TrustedProxies.contains, Block.contains_iff]

/-- What is read as IPv4 stays so. -/
@[simp]
theorem canonical_canonical : canonical (canonical ip) = canonical ip := by
  cases ip with
  | v4 bits => rfl
  | v6 bits =>
    cases h : toIpv4Mapped bits with
    | none => simp [canonical, h]
    | some v4 => simp [canonical, h]

@[simp]
theorem TrustedProxies.contains_canonical :
    proxies.contains (canonical ip) = proxies.contains ip := by
  rw [Bool.eq_iff_iff, contains_iff, contains_iff, canonical_canonical]

/-- A block inside `::ffff:0:0/96` read as the IPv4 block it is; any other block as it stands. -/
def Block.read : Block → Block
  | ⟨.v4 net, n, h⟩ => ⟨.v4 net, n, h⟩
  | ⟨.v6 net, n, h⟩ =>
    match toIpv4Mapped net with
    | some v4 =>
      if 96 ≤ n then ⟨.v4 v4, n - 96, Nat.sub_le_iff_le_add.mpr h⟩ else ⟨.v6 net, n, h⟩
    | none => ⟨.v6 net, n, h⟩

/-- Every IPv4 address of a block written in IPv4-mapped form is in a listed block written as
IPv4. -/
def TrustedProxies.MappedCovered (proxies : TrustedProxies) : Prop :=
  ∀ b ∈ proxies.blocks, b.read ≠ b → ∀ ip : BitVec 32, b.read.Covers (.v4 ip) →
    ∃ b' ∈ proxies.blocks, b'.Covers (.v4 ip)

/-- The blocks that are not read as they stand. -/
theorem Block.exists_of_read_ne (h : b.read ≠ b) :
    ∃ net v4, b.addr = .v6 net ∧ toIpv4Mapped net = some v4 ∧ 96 ≤ b.prefixLen ∧
      b.read.addr = .v4 v4 := by
  obtain ⟨addr, n, hn⟩ := b
  cases addr with
  | v4 net => exact absurd rfl h
  | v6 net =>
    cases hm : toIpv4Mapped net with
    | none => simp [Block.read, hm] at h
    | some v4 =>
      have hlen : 96 ≤ n := by
        by_contra hlt
        simp [Block.read, hm, hlt] at h
      exact ⟨net, v4, rfl, hm, hlen, by simp [Block.read, hm, hlen]⟩

/-- A block read as IPv4 covered nothing as it stood: no address read as IPv4 is IPv4-mapped. -/
theorem Block.not_covers_of_read_ne (h : b.read ≠ b) (ip : IpAddr) : ¬ b.Covers (canonical ip) := by
  obtain ⟨net, v4, haddr, hm, hlen, -⟩ := b.exists_of_read_ne h
  intro hc
  cases hip : canonical ip with
  | v4 bits => simp [Block.Covers, haddr, hip] at hc
  | v6 bits =>
    simp only [Block.Covers, haddr, hip] at hc
    obtain ⟨v4', hmapped⟩ := Option.isSome_iff_exists.mp
      (isSome_toIpv4Mapped_of_agree hlen hc (by simp [hm]))
    have hsame := canonical_canonical ip
    rw [hip] at hsame
    simp [canonical, hmapped] at hsame

/-- A block that is read as another one is read as an IPv4 block. -/
theorem Block.exists_of_read_covers (h : b.read ≠ b) {ip : IpAddr}
    (hc : b.read.Covers ip) : ∃ bits, ip = .v4 bits := by
  obtain ⟨net, v4, -, -, -, hread⟩ := b.exists_of_read_ne h
  cases ip with
  | v4 bits => exact ⟨bits, rfl⟩
  | v6 bits => simp [Block.Covers, hread] at hc

/-- `contains` reads IPv4-mapped addresses as IPv4 on both sides exactly when the blocks written
that way are also listed as IPv4. -/
theorem TrustedProxies.contains_read_iff :
    (∀ ip, proxies.contains ip ↔ ∃ b ∈ proxies.blocks, b.read.Covers (canonical ip)) ↔
      proxies.MappedCovered := by
  constructor
  · intro h b hb _ ip hc
    exact (proxies.contains_iff (.v4 ip)).mp ((h (.v4 ip)).mpr ⟨b, hb, hc⟩)
  · intro h ip
    rw [proxies.contains_iff]
    constructor
    · rintro ⟨b, hb, hc⟩
      have hread : b.read = b := by
        by_contra hne
        exact b.not_covers_of_read_ne hne ip hc
      exact ⟨b, hb, by rw [hread]; exact hc⟩
    · rintro ⟨b, hb, hc⟩
      by_cases hread : b.read = b
      · exact ⟨b, hb, by rw [hread] at hc; exact hc⟩
      · obtain ⟨bits, hip⟩ := b.exists_of_read_covers hread hc
        rw [hip] at hc ⊢
        exact h b hb hread bits hc

end Backbone.RateLimit
