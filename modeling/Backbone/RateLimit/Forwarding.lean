import Backbone.RateLimit.Proxy

/-!
# Requests that come through proxies

A client's request reaches the service through trusted proxies, each of which writes the address it
received the request from at the end of the last `X-Forwarded-For` line. What the client itself put
into the headers must not decide which address it is counted under.

Reference: `backbone-rate-limit/src/proxy.rs`, `TrustedProxies::client_ip`.
-/

namespace Backbone.RateLimit

open Backbone.Net Backbone.Text

variable {headers : HeaderMap} {peer : IpAddr} {text : List UInt8} {proxies : TrustedProxies}
  {s : String} {line : List UInt8} (name : String)

/-! ## What a proxy does to the headers -/

/-- The bytes of `,`. -/
def comma : UInt8 := 44

/-- The headers with `text` at the end of their last `X-Forwarded-For` line, if they have one. -/
def appendToLast (text : List UInt8) : HeaderMap → Option HeaderMap
  | [] => none
  | (name, value) :: rest =>
    match appendToLast text rest with
    | some rest => some ((name, value) :: rest)
    | none =>
      if name = "x-forwarded-for" then some ((name, value ++ comma :: text) :: rest) else none

/-- What a proxy sends on: its entry on the last line, or on a line of its own. -/
def addForwarded (text : List UInt8) (headers : HeaderMap) : HeaderMap :=
  (appendToLast text headers).getD (headers ++ [("x-forwarded-for", text)])

/-- `text` is one header entry that is read as `ip`. -/
def Spells (text : List UInt8) (ip : IpAddr) : Prop :=
  comma ∉ text ∧ ∃ s, toStr text = some s ∧ parseIpAddr (trim s) = some ip

/-- A request that a client at `client` sent with the headers `sent` comes from `peer` with
`headers`, after one or more trusted proxies. -/
inductive Forwarded (proxies : TrustedProxies) (client : IpAddr) (sent : HeaderMap) :
    IpAddr → HeaderMap → Prop
  | first {proxy : IpAddr} {text : List UInt8} (htrusted : proxies.contains proxy)
      (htext : Spells text client) : Forwarded proxies client sent proxy (addForwarded text sent)
  | next {peer proxy : IpAddr} {headers : HeaderMap} {text : List UInt8}
      (hprev : Forwarded proxies client sent peer headers) (htrusted : proxies.contains proxy)
      (htext : Spells text peer) : Forwarded proxies client sent proxy (addForwarded text headers)

/-- The last `X-Forwarded-For` line of a request. -/
def lastForwarded (headers : HeaderMap) : Option (List UInt8) :=
  (getAll headers "x-forwarded-for").getLast?

/-- No line, or one that `to_str` can read. -/
def Readable (line : Option (List UInt8)) : Prop := ∀ value ∈ line, (toStr value).isSome

instance (line : Option (List UInt8)) : Decidable (Readable line) := by
  unfold Readable; infer_instance

/-! ## The entries a proxy adds -/

theorem getAll_cons (h : String × List UInt8) (headers : HeaderMap) :
    getAll (h :: headers) name =
      if h.1 = name then h.2 :: getAll headers name else getAll headers name := by
  by_cases hn : h.1 = name <;> simp [getAll, hn]

theorem getAll_append (hs hs' : HeaderMap) :
    getAll (hs ++ hs') name = getAll hs name ++ getAll hs' name := by
  simp [getAll]

/-- `appendToLast` finds no line exactly when there is none, and else changes the last one. -/
theorem getAll_appendToLast (text : List UInt8) (headers : HeaderMap) :
    (appendToLast text headers = none ∧ getAll headers "x-forwarded-for" = []) ∨
      ∃ headers' init last, appendToLast text headers = some headers' ∧
        getAll headers "x-forwarded-for" = init ++ [last] ∧
        getAll headers' "x-forwarded-for" = init ++ [last ++ comma :: text] := by
  induction headers with
  | nil => exact .inl ⟨rfl, rfl⟩
  | cons h rest ih =>
    obtain ⟨name, value⟩ := h
    rcases ih with ⟨hnone, hnil⟩ | ⟨rest', init, last, hsome, hrest, hrest'⟩
    · by_cases hname : name = "x-forwarded-for"
      · refine .inr ⟨(name, value ++ comma :: text) :: rest, [], value, ?_, ?_, ?_⟩
        · simp [appendToLast, hnone, hname]
        · simp [getAll_cons, hname, hnil]
        · simp [getAll_cons, hname, hnil]
      · refine .inl ⟨by simp [appendToLast, hnone, hname], ?_⟩
        simp [getAll_cons, hname, hnil]
    · refine .inr ⟨(name, value) :: rest', if name = "x-forwarded-for" then value :: init else init,
        last, by simp [appendToLast, hsome], ?_, ?_⟩
      · by_cases hname : name = "x-forwarded-for" <;> simp [getAll_cons, hname, hrest]
      · by_cases hname : name = "x-forwarded-for" <;> simp [getAll_cons, hname, hrest']

/-- The `X-Forwarded-For` lines behind a proxy. -/
theorem getAll_addForwarded (text : List UInt8) (headers : HeaderMap) :
    (getAll headers "x-forwarded-for" = [] ∧
        getAll (addForwarded text headers) "x-forwarded-for" = [text]) ∨
      ∃ init last, getAll headers "x-forwarded-for" = init ++ [last] ∧
        getAll (addForwarded text headers) "x-forwarded-for" = init ++ [last ++ comma :: text] := by
  rcases getAll_appendToLast text headers with ⟨hnone, hnil⟩ | ⟨headers', init, last, hsome, h, h'⟩
  · refine .inl ⟨hnil, ?_⟩
    rw [addForwarded, hnone, Option.getD_none, getAll_append, hnil]
    rfl
  · exact .inr ⟨init, last, h, by simp [addForwarded, hsome, h']⟩

theorem toStr_append_comma (last text : List UInt8) :
    toStr (last ++ comma :: text) =
      (toStr last).bind fun s => (toStr text).map fun t => s ++ "," ++ t := by
  have hcomma : isVisibleAscii comma = true := by decide
  have hchar : Char.ofNat comma.toNat = ',' := by decide
  by_cases hlast : last.all isVisibleAscii
  · by_cases htext : text.all isVisibleAscii
    · simp only [toStr, List.all_append, List.all_cons, hlast, htext, hcomma, Bool.and_self,
        ↓reduceIte, Option.bind_some, Option.map_some, Option.some.injEq]
      apply String.toList_injective
      simp [hchar]
    · simp [toStr, hlast, htext, hcomma]
  · simp [toStr, hlast]

/-- The text of a line holds a comma only where the line has the byte. -/
theorem comma_not_mem_of_toStr (h : toStr text = some s) (hc : comma ∉ text) : ',' ∉ s.toList := by
  simp only [toStr, Option.ite_none_right_eq_some, Option.some.injEq] at h
  rw [← h.2, String.toList_ofList, List.mem_map]
  rintro ⟨b, hb, hchar⟩
  have hvalid : b.toNat.isValidChar := .inl (by have := b.toNat_lt; omega)
  have hnat : b.toNat = 44 := by
    have hof : Char.ofNat b.toNat = Char.ofNatAux b.toNat hvalid := dif_pos hvalid
    have haux : (Char.ofNatAux b.toNat hvalid).toNat = b.toNat := rfl
    rw [← haux, ← hof, hchar]
    rfl
  exact hc (by rwa [show b = comma from UInt8.toNat_inj.mp hnat] at hb)

/-- An entry added to a line is one more entry. -/
theorem split_append_comma {t : String} (ht : ',' ∉ t.toList) :
    split (s ++ "," ++ t) ',' = split s ',' ++ [t] := by
  have hlist : (s ++ "," ++ t).toList = s.toList ++ ',' :: t.toList := by simp
  rw [split, hlist, List.splitOn_append_cons_self, List.splitOn_eq_singleton ht]
  simp [split]

/-- Behind a proxy a readable last line is still readable, and it has the proxy's entry last. -/
theorem forwardedEntries_addForwarded (hread : Readable (lastForwarded headers))
    (htext : toStr text = some s) (hcomma : comma ∉ text) :
    Readable (lastForwarded (addForwarded text headers)) ∧
      forwardedEntries (addForwarded text headers) = forwardedEntries headers ++ [trim s] := by
  have hs := comma_not_mem_of_toStr htext hcomma
  rcases getAll_addForwarded text headers with ⟨hnil, hadd⟩ | ⟨init, last, hinit, hadd⟩
  · constructor
    · simp [Readable, lastForwarded, hadd, htext]
    · simp [forwardedEntries, hnil, hadd, htext, split, List.splitOn_eq_singleton hs]
  · obtain ⟨l, hl⟩ := Option.isSome_iff_exists.mp
      (hread last (by simp [lastForwarded, hinit]))
    have hline : toStr (last ++ comma :: text) = some (l ++ "," ++ s) := by
      simp [toStr_append_comma, hl, htext]
    constructor
    · simp [Readable, lastForwarded, hadd, hline]
    · simp [forwardedEntries, hinit, hadd, hline, hl, split_append_comma hs]

/-- A line that cannot be read is dropped together with what a proxy wrote on it. -/
theorem forwardedEntries_addForwarded_single (hline : toStr line = none) :
    forwardedEntries (addForwarded text [("x-forwarded-for", line)]) = [] := by
  have hdropped : toStr (line ++ comma :: text) = none := by simp [toStr_append_comma, hline]
  simp [addForwarded, appendToLast, forwardedEntries, getAll, hdropped]

/-! ## Who the client is -/

section

variable {proxies : TrustedProxies} {client : IpAddr} {sent : HeaderMap}

/-- Behind the proxies the rightmost entry that is no proxy's is the client's. -/
theorem Forwarded.scan_eq (hclient : ¬ proxies.contains client)
    (hsent : Readable (lastForwarded sent)) (h : Forwarded proxies client sent peer headers) :
    Readable (lastForwarded headers) ∧ forwardedEntries headers ≠ [] ∧
      ∀ dflt, proxies.scan dflt (forwardedEntries headers).reverse = canonical client := by
  induction h with
  | first htrusted htext =>
    obtain ⟨hcomma, s, hs, hparse⟩ := htext
    obtain ⟨hread, hentries⟩ := forwardedEntries_addForwarded hsent hs hcomma
    refine ⟨hread, by simp [hentries], fun dflt => ?_⟩
    simp [hentries, TrustedProxies.scan, hparse, hclient]
  | next hprev htrusted htext ih =>
    rename_i peer _ _ _
    obtain ⟨hread, -, hscan⟩ := ih
    obtain ⟨hcomma, s, hs, hparse⟩ := htext
    obtain ⟨hread', hentries⟩ := forwardedEntries_addForwarded hread hs hcomma
    -- The entry names the proxy before, which is trusted, so the scan goes on to its headers.
    have hpeer : proxies.contains peer := by cases hprev <;> assumption
    refine ⟨hread', by simp [hentries], fun dflt => ?_⟩
    simp [hentries, TrustedProxies.scan, hparse, hpeer, hscan dflt]

theorem Forwarded.contains_peer (h : Forwarded proxies client sent peer headers) :
    proxies.contains peer := by
  cases h <;> assumption

/-- A path through proxies begins with one that writes the client's address. -/
theorem Forwarded.exists_first (h : Forwarded proxies client sent peer headers) :
    ∃ proxy text, proxies.contains proxy ∧ Spells text client := by
  induction h with
  | first htrusted htext => exact ⟨_, _, htrusted, htext⟩
  | next _ _ _ ih => exact ih

theorem Forwarded.clientIp_eq (hclient : ¬ proxies.contains client)
    (hsent : Readable (lastForwarded sent)) (h : Forwarded proxies client sent peer headers) :
    proxies.clientIp peer headers = canonical client := by
  obtain ⟨-, hne, hscan⟩ := h.scan_eq hclient hsent
  simp [TrustedProxies.clientIp, h.contains_peer, hne, hscan]

end

/-- From an untrusted peer the headers are not read. -/
theorem TrustedProxies.clientIp_of_not_contains (h : ¬ proxies.contains peer) (headers : HeaderMap) :
    proxies.clientIp peer headers = canonical peer := by
  simp [TrustedProxies.clientIp, h]

/-- Two addresses of which one is trusted are not read as the same. -/
theorem TrustedProxies.canonical_ne {ip ip' : IpAddr} (h : proxies.contains ip)
    (h' : ¬ proxies.contains ip') : canonical ip ≠ canonical ip' := by
  intro heq
  rw [← contains_canonical, ← heq, contains_canonical] at h'
  exact h' h

/-- A last line that cannot be read takes the proxy's entry with it: alone, it makes the proxy the
client. -/
theorem clientIp_unreadable {proxy client : IpAddr}
    (hproxy : proxies.contains proxy) (hclient : ¬ proxies.contains client)
    (hline : toStr line = none) :
    proxies.clientIp proxy (addForwarded text [("x-forwarded-for", line)]) ≠ canonical client := by
  have hpeer : proxies.clientIp proxy (addForwarded text [("x-forwarded-for", line)]) =
      canonical proxy := by
    simp [TrustedProxies.clientIp, hproxy, forwardedEntries_addForwarded_single hline]
    simp [addForwarded, appendToLast, getAll]
  rw [hpeer]
  exact proxies.canonical_ne hproxy hclient

/-- Whatever a client sends through trusted proxies, it is counted under its own address exactly
when its last `X-Forwarded-For` line can be read; from an untrusted peer the headers decide
nothing; and `contains` reads IPv4-mapped addresses as IPv4 on both sides exactly when the blocks
written that way are also listed as IPv4. -/
theorem client_ip_forwarded_iff (proxies : TrustedProxies) :
    (∀ client, ¬ proxies.contains client →
      (∃ sent peer headers, Forwarded proxies client sent peer headers) →
      ∀ line, (∀ sent peer headers, lastForwarded sent = line →
          Forwarded proxies client sent peer headers →
          proxies.clientIp peer headers = canonical client) ↔ Readable line) ∧
      (∀ peer, ¬ proxies.contains peer →
        ∀ headers, proxies.clientIp peer headers = canonical peer) ∧
      ((∀ ip, proxies.contains ip ↔ ∃ b ∈ proxies.blocks, b.read.Covers (canonical ip)) ↔
        proxies.MappedCovered) := by
  refine ⟨?_, fun peer h headers => TrustedProxies.clientIp_of_not_contains h headers,
    proxies.contains_read_iff⟩
  rintro client hclient ⟨_, _, _, hpath⟩ line
  obtain ⟨proxy, text, hproxy, htext⟩ := hpath.exists_first
  constructor
  · intro h value hvalue
    cases hvalue
    by_contra hunreadable
    have hline : toStr value = none := by simpa using hunreadable
    refine clientIp_unreadable hproxy hclient hline
      (h [("x-forwarded-for", value)] proxy _ ?_ (.first hproxy htext))
    simp [lastForwarded, getAll]
  · intro hread sent peer headers hline h
    exact h.clientIp_eq hclient (by rwa [hline])

/-! ### A client behind one proxy -/

/-- The list `10.0.0.0/8`. -/
def tenProxies : TrustedProxies := ⟨[⟨.v4 0x0a000000#32, 8, by decide⟩]⟩

/-- The list `::ffff:10.0.0.0/104`. -/
def mappedProxies : TrustedProxies := ⟨[⟨.v6 0xffff0a000000#128, 104, by decide⟩]⟩

example : TrustedProxies.parse "10.0.0.0/8" = .ok tenProxies ∧
    TrustedProxies.parse "::ffff:10.0.0.0/104" = .ok mappedProxies := by decide +kernel

/-- The bytes of an ASCII text. -/
def ascii (s : String) : List UInt8 := s.toList.map fun c => UInt8.ofNat c.toNat

theorem spells_client : Spells (ascii "203.0.113.9") (.v4 0xcb007109#32) :=
  ⟨by decide +kernel, "203.0.113.9", by decide +kernel, by decide +kernel⟩

theorem tenProxies_forwarded (sent : HeaderMap) :
    Forwarded tenProxies (.v4 0xcb007109#32) sent (.v4 0x0a000001#32)
      (addForwarded (ascii "203.0.113.9") sent) :=
  .first (by decide +kernel) spells_client

/-- What a client at `203.0.113.9` may send: a line with the byte `0xff`, and another address. -/
def chosenHeaders : HeaderMap :=
  [("x-forwarded-for", [0xff]), ("x-real-ip", ascii "198.51.100.7")]

theorem agree_ten : Agree 8 0x0a000000#32 0x0a010203#32 := by
  unfold Agree
  decide

/-- The client is counted under the address it chose, and a block written in IPv4-mapped form
holds nothing. -/
theorem client_chooses_address :
    ¬ (∀ (proxies : TrustedProxies) (client : IpAddr) (sent : HeaderMap) (peer : IpAddr)
        (headers : HeaderMap), ¬ proxies.contains client →
        Forwarded proxies client sent peer headers →
        proxies.clientIp peer headers = canonical client) ∧
      tenProxies.clientIp (.v4 0x0a000001#32)
          (addForwarded (ascii "203.0.113.9") chosenHeaders) = .v4 0xc6336407#32 ∧
      ¬ (∀ (proxies : TrustedProxies) (ip : IpAddr),
        proxies.contains ip ↔ ∃ b ∈ proxies.blocks, b.read.Covers (canonical ip)) := by
  have hchosen : tenProxies.clientIp (.v4 0x0a000001#32)
      (addForwarded (ascii "203.0.113.9") chosenHeaders) = .v4 0xc6336407#32 := by decide +kernel
  refine ⟨fun h => ?_, hchosen, fun h => ?_⟩
  · have hown := h tenProxies _ chosenHeaders _ _ (by decide +kernel) (tenProxies_forwarded chosenHeaders)
    rw [hchosen] at hown
    revert hown
    decide
  · have hin : mappedProxies.contains (.v4 0x0a010203#32) := (h mappedProxies _).mpr
      ⟨_, List.mem_singleton.mpr rfl, agree_ten⟩
    revert hin
    decide +kernel

theorem client_ip_forwarded_tenProxies :
    (∀ headers, tenProxies.clientIp (.v4 0x08080808#32) headers = .v4 0x08080808#32) ∧
      ((∀ sent peer headers, lastForwarded sent = some (ascii "1.1.1.1, ??") →
          Forwarded tenProxies (.v4 0xcb007109#32) sent peer headers →
          tenProxies.clientIp peer headers = .v4 0xcb007109#32) ↔
        Readable (some (ascii "1.1.1.1, ??"))) :=
  ⟨(client_ip_forwarded_iff tenProxies).2.1 _ (by decide +kernel),
    (client_ip_forwarded_iff tenProxies).1 _ (by decide +kernel) ⟨_, _, _, tenProxies_forwarded []⟩ _⟩

end Backbone.RateLimit
