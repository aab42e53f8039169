import Mathlib.Data.String.Basic
import Backbone.Tenant.Provision

/-!
# The tenant of a request

`HostResolver` reads the tenant off the `Host` header: the subdomain of the product domain, or what
the map of custom domains answers, or in development an override. A subdomain and an override are
checked to be slugs, and on slugs the names of the databases differ; the map's answer is not
checked.

Reference: `backbone-tenant/src/resolve.rs`.
-/

namespace Backbone.Tenant

open Text

def maxSlugLen : ℕ := 48

inductive ResolveError where
  | apexHost (host : String)
  | unknownHost (host : String)
  | badSlug (slug : String) (reason : String)
  | overrideDisabled
deriving DecidableEq, Repr

/-- The characters of a slug. -/
def isSlugChar (c : Char) : Bool := c.isLower || c.isDigit || c == '-'

def validSlug (slug : String) : Except ResolveError Unit :=
  let reject (reason : String) : Except ResolveError Unit := .error (.badSlug slug reason)
  match slug.toList with
  | [] => reject "empty"
  | first :: rest =>
    if !(first :: rest).all isSlugChar then
      reject "only lowercase letters, digits and '-' are allowed"
    else if !first.isLower then reject "must start with a lowercase letter"
    else if maxSlugLen < slug.utf8ByteSize then reject "too long"
    else .ok ()

/-- `DomainMap::tenant_for`. -/
abbrev DomainMap := String → Option TenantId

/-- `StaticDomainMap`. -/
abbrev StaticDomainMap := AList fun _ : String => TenantId

namespace StaticDomainMap

/-- `StaticDomainMap::with`. -/
def register (m : StaticDomainMap) (domain tenant : String) : StaticDomainMap :=
  m.insert (toAsciiLowercase domain) tenant

def tenantFor (m : StaticDomainMap) : DomainMap := fun host => m.lookup host

end StaticDomainMap

structure HostResolver where
  baseDomain : String
  customDomains : Option DomainMap
  allowHeaderOverride : Bool

/-- `HostResolver::new`. -/
def HostResolver.new (baseDomain : String) : HostResolver :=
  ⟨toAsciiLowercase baseDomain, none, false⟩

/-- A colon with only digits behind it is the colon of a port. -/
def normalizeHost (host : String) : String :=
  let h := toAsciiLowercase (Text.trim host)
  match rsplitOnce h ':' with
  | some (head, tail) => if !tail.isEmpty && tail.toList.all Char.isDigit then head else h
  | none => h

namespace HostResolver

variable (r : HostResolver)

/-- The slug of a host under the product domain. -/
def subdomain (host : String) : Option String := stripSuffix host ("." ++ r.baseDomain)

/-- What the map of custom domains answers. -/
def custom (host : String) : Option TenantId := r.customDomains.bind fun tenantFor => tenantFor host

def resolve (hostHeader : String) (overrideHeader : Option String) :
    Except ResolveError TenantId :=
  let host := normalizeHost hostHeader
  match overrideHeader with
  | some slug =>
    if r.allowHeaderOverride then
      (validSlug (toAsciiLowercase (Text.trim slug))).map fun _ => toAsciiLowercase (Text.trim slug)
    else .error .overrideDisabled
  | none =>
    if host = r.baseDomain then .error (.apexHost host)
    else
      match r.subdomain host with
      | some slug => (validSlug slug).map fun _ => slug
      | none =>
        match r.custom host with
        | some tenant => .ok tenant
        | none => .error (.unknownHost host)

end HostResolver

/-! ## Slugs and the names of their databases -/

/-- A slug: small letters, digits and dashes behind a small letter, and not too long. -/
def IsSlug (slug : String) : Prop :=
  (∃ first rest, slug.toList = first :: rest ∧ first.isLower = true) ∧
    slug.toList.all isSlugChar = true ∧ slug.utf8ByteSize ≤ maxSlugLen

theorem validSlug_eq_ok_iff (slug : String) : validSlug slug = .ok () ↔ IsSlug slug := by
  unfold validSlug IsSlug
  cases slug.toList with
  | nil => simp
  | cons first rest =>
    dsimp only
    cases hchars : (first :: rest).all isSlugChar with
    | false =>
      rw [if_pos (by rfl)]
      simp
    | true =>
      rw [if_neg (by decide)]
      cases hfirst : first.isLower with
      | false =>
        rw [if_pos (by rfl)]
        refine iff_of_false (by simp) ?_
        rintro ⟨⟨_, _, heq, hlower⟩, -⟩
        cases heq
        rw [hfirst] at hlower
        cases hlower
      | true =>
        rw [if_neg (by decide)]
        by_cases hlen : maxSlugLen < slug.utf8ByteSize
        · rw [if_pos hlen]
          exact iff_of_false (by simp) fun h => absurd h.2.2 (not_le.mpr hlen)
        · rw [if_neg hlen]
          exact iff_of_true rfl ⟨⟨first, rest, rfl, hfirst⟩, rfl, not_lt.mp hlen⟩

theorem isIdChar_of_isSlugChar {c : Char} (h : isSlugChar c = true) : isIdChar c = true := by
  unfold isIdChar
  rw [show (c.isLower || c.isDigit || c == '-') = true from h]
  rfl

theorem utf8ByteSize_underscored (id : String) :
    (underscored id).utf8ByteSize = id.utf8ByteSize := by
  have hlen (l : List Char) :
      String.utf8Len (l.map fun c => if c = '-' then '_' else c) = String.utf8Len l := by
    induction l with
    | nil => rfl
    | cons c l ih =>
      simp only [List.map_cons, String.utf8Len_cons, ih]
      split
      · rename_i hc
        subst hc
        rfl
      · rfl
  rw [underscored, String.utf8ByteSize_ofList, hlen, ← String.utf8ByteSize_ofList,
    String.ofList_toList]

/-- A slug holds no underscore, so that its dashes can be read back. -/
theorem underscored_inj {a b : String} (ha : a.toList.all isSlugChar = true)
    (hb : b.toList.all isSlugChar = true) (h : underscored a = underscored b) : a = b := by
  have hback {id : String} (hid : id.toList.all isSlugChar = true) :
      (underscored id).toList.map (fun c => if c = '_' then '-' else c) = id.toList := by
    rw [underscored, String.toList_ofList, List.map_map]
    conv_rhs => rw [← List.map_id id.toList]
    refine List.map_congr_left fun c hc => ?_
    have hne : c ≠ '_' := by
      rintro rfl
      exact absurd (List.all_eq_true.mp hid '_' hc) (by decide)
    by_cases hdash : c = '-'
    · subst hdash
      rfl
    · simp [hdash, hne]
  apply String.toList_injective
  rw [← hback ha, ← hback hb, h]

/-- Under the default prefix there is a database for every slug. -/
theorem databaseName_of_isSlug {slug : String} (h : IsSlug slug) (adminDsn : String) :
    (TenantProvisioner.new adminDsn).databaseName slug = .ok ("tenant_" ++ underscored slug) := by
  obtain ⟨⟨first, rest, hlist, hlower⟩, hchars, hlen⟩ := h
  rw [databaseName_eq_ok_iff]
  refine ⟨⟨⟨first, rest, hlist, by simp [hlower]⟩, ?_⟩, ?_, rfl⟩
  · exact List.all_eq_true.mpr fun c hc =>
      isIdChar_of_isSlugChar (List.all_eq_true.mp hchars c hc)
  · have hsize : ("tenant_" ++ underscored slug).utf8ByteSize = 7 + slug.utf8ByteSize := by
      rw [String.utf8ByteSize_append, utf8ByteSize_underscored]
      rfl
    rw [show (TenantProvisioner.new adminDsn).namePrefix = "tenant_" from rfl, hsize]
    unfold maxSlugLen at hlen
    unfold maxIdentLen
    omega

/-! ## Values of the `Host` header -/

/-- The digits of a port. -/
def IsPort (port : String) : Prop := port ≠ "" ∧ port.toList.all Char.isDigit = true

/-- A host without a port: no numeric one of its own, and no white space at its end. -/
def Portless (host : String) : Prop :=
  (∀ h port, host = h ++ ":" ++ port → ¬ IsPort port) ∧
    ∀ c, host.toList.getLast? = some c → isWhitespace c = false

/-- The values differ in ASCII case or in a numeric port. -/
inductive SameHost : String → String → Prop where
  | case {a b : String} (h : toAsciiLowercase a = toAsciiLowercase b) : SameHost a b
  | port (host : String) {p q : String} (hp : IsPort p) (hq : IsPort q) :
    SameHost (host ++ ":" ++ p) (host ++ ":" ++ q)
  | noPort {host p : String} (hhost : Portless host) (hp : IsPort p) :
    SameHost host (host ++ ":" ++ p)
  | symm {a b : String} (h : SameHost a b) : SameHost b a
  | trans {a b c : String} (hab : SameHost a b) (hbc : SameHost b c) : SameHost a c

theorem map_toLower_of_digits {l : List Char} (h : ∀ c ∈ l, c.isDigit = true) :
    l.map Char.toLower = l := by
  conv_rhs => rw [← List.map_id l]
  refine List.map_congr_left fun c hc => ?_
  rcases toLower_eq_self_or c with heq | ⟨hup, -⟩
  · exact heq
  · have hdigit := isDigit_iff.mp (h c hc)
    have hupper := isUpper_iff.mp hup
    omega

variable {p : String}

theorem IsPort.not_mem_colon (hp : IsPort p) : ':' ∉ p.toList := fun hmem =>
  absurd (List.all_eq_true.mp hp.2 ':' hmem) (by decide)

theorem isWhitespace_of_isDigit {c : Char} (h : c.isDigit = true) : isWhitespace c = false := by
  by_contra hws
  rw [Bool.not_eq_false] at hws
  have := whitespaceApart_asciiTables c hws
  simp [asciiTables, isAlphanum_iff.mpr (.inr (.inr h))] at this

/-- No white space is trimmed off an end that is none. -/
theorem trim_of_getLast? {s : String}
    (h : ∀ c, s.toList.getLast? = some c → isWhitespace c = false) : Text.trim s = trimStart s := by
  unfold Text.trim trimStart
  congr 1
  obtain ⟨front, hfront⟩ := List.dropWhile_suffix (l := s.toList) isWhitespace
  generalize s.toList.dropWhile isWhitespace = l at hfront
  cases hlast : l.reverse with
  | nil => rw [List.reverse_eq_nil_iff.mp hlast]; rfl
  | cons c rest =>
    have hl : l = rest.reverse ++ [c] := by
      rw [← List.reverse_reverse l, hlast, List.reverse_cons]
    have hc : isWhitespace c = false := h c (by rw [← hfront, hl]; simp)
    rw [List.dropWhile_cons, if_neg (by simp [hc]), ← hlast, List.reverse_reverse]

theorem trimStart_hostPort (host p : String) :
    trimStart (host ++ ":" ++ p) = trimStart host ++ ":" ++ p := by
  apply String.toList_injective
  simp only [trimStart, String.toList_append, String.toList_ofList, List.append_assoc]
  rw [List.dropWhile_append]
  split
  · rename_i hempty
    rw [List.isEmpty_iff.mp hempty]
    rfl
  · rfl

/-- White space in front of a host with a port is all that is trimmed. -/
theorem trim_hostPort (host : String) (hp : IsPort p) :
    Text.trim (host ++ ":" ++ p) = trimStart host ++ ":" ++ p := by
  rw [← trimStart_hostPort]
  refine trim_of_getLast? fun c hc => ?_
  have hne : p.toList ≠ [] := by
    simpa using hp.1
  rw [String.toList_append, List.getLast?_append_of_ne_nil _ hne] at hc
  exact isWhitespace_of_isDigit (List.all_eq_true.mp hp.2 c (List.mem_of_getLast? hc))

theorem normalizeHost_port (host : String) (hp : IsPort p) :
    normalizeHost (host ++ ":" ++ p) = toAsciiLowercase (trimStart host) := by
  have hlower : toAsciiLowercase (trimStart host ++ ":" ++ p) =
      toAsciiLowercase (trimStart host) ++ ":" ++ p := by
    apply String.toList_injective
    simp only [toAsciiLowercase, String.toList_ofList, String.toList_append, List.map_append]
    rw [map_toLower_of_digits (List.all_eq_true.mp hp.2)]
    rfl
  have hsplit : rsplitOnce (toAsciiLowercase (trimStart host) ++ ":" ++ p) ':' =
      some (toAsciiLowercase (trimStart host), p) := by
    rw [show ":" = String.singleton ':' from rfl]
    exact rsplitOnce_append _ hp.not_mem_colon
  unfold normalizeHost
  rw [trim_hostPort host hp, hlower]
  dsimp only
  rw [hsplit]
  dsimp only
  rw [if_pos]
  rw [hp.2, Bool.and_true]
  simp [hp.1]

theorem normalizeHost_portless {host : String} (h : Portless host) :
    normalizeHost host = toAsciiLowercase (trimStart host) := by
  unfold normalizeHost
  rw [trim_of_getLast? h.2]
  dsimp only
  split
  · rename_i head tail hsplit
    split
    · rename_i hport
      -- The port would be one of the host itself.
      exfalso
      obtain ⟨heq, -⟩ := eq_of_rsplitOnce hsplit
      have hlist := congrArg String.toList heq
      simp only [toAsciiLowercase, String.toList_ofList, String.toList_append] at hlist
      rw [List.append_assoc, String.toList_singleton, List.singleton_append] at hlist
      obtain ⟨l₁, l₂, hl, -, hl₂⟩ := List.map_eq_append_iff.mp hlist
      obtain ⟨c, l₃, rfl, hc, hl₃⟩ := List.map_eq_cons_iff.mp hl₂
      have hcolon : c = ':' := eq_of_toLower_eq hc (by decide)
      have hdigits : tail.toList.all Char.isDigit = true := (Bool.and_eq_true_iff.mp hport).2
      have htail : l₃ = tail.toList := by
        rw [← hl₃]
        conv_lhs => rw [← List.map_id l₃]
        refine List.map_congr_left fun d hd => eq_of_toLower_eq rfl ?_
        have hdigit : d.toLower.isDigit = true :=
          List.all_eq_true.mp hdigits _ (hl₃ ▸ List.mem_map_of_mem hd)
        rw [Bool.eq_false_iff, Ne, isLower_iff]
        have := isDigit_iff.mp hdigit
        omega
      obtain ⟨front, hfront⟩ := List.dropWhile_suffix (l := host.toList) isWhitespace
      refine h.1 (String.ofList (front ++ l₁)) tail ?_ ⟨?_, hdigits⟩
      · apply String.toList_injective
        rw [trimStart, String.toList_ofList] at hl
        rw [← hfront, hl, hcolon, htail]
        simp
      · rintro rfl
        simp at hport
    · rfl
  · rfl

theorem normalizeHost_eq_of_sameHost {a b : String} (h : SameHost a b) :
    normalizeHost a = normalizeHost b := by
  induction h with
  | case h =>
    unfold normalizeHost
    rw [toAsciiLowercase_trim, toAsciiLowercase_trim, h]
  | port host hp hq => rw [normalizeHost_port host hp, normalizeHost_port host hq]
  | noPort hhost hp => rw [normalizeHost_portless hhost, normalizeHost_port _ hp]
  | symm _ ih => exact ih.symm
  | trans _ _ hab hbc => exact hab.trans hbc

/-! ## What a resolver answers -/

namespace HostResolver

variable (r : HostResolver) {hostHeader : String} {tenant : TenantId}

/-- The map of custom domains is asked for the host. -/
def Outside (host : String) : Prop := host ≠ r.baseDomain ∧ r.subdomain host = none

/-- An answer is a slug, or the map of custom domains gave it. -/
theorem resolve_eq_ok {overrideHeader : Option String}
    (h : r.resolve hostHeader overrideHeader = .ok tenant) :
    validSlug tenant = .ok () ∨ (r.Outside (normalizeHost hostHeader) ∧
      r.custom (normalizeHost hostHeader) = some tenant) := by
  have hmap {slug : String} (h : (validSlug slug).map (fun _ => slug) = .ok tenant) :
      validSlug tenant = .ok () := by
    cases hvalid : validSlug slug with
    | error e => simp [hvalid, Except.map] at h
    | ok u =>
      rw [hvalid] at h
      cases h
      exact hvalid
  unfold resolve at h
  cases overrideHeader with
  | some slug =>
    dsimp only at h
    split at h
    · exact .inl (hmap h)
    · cases h
  | none =>
    dsimp only at h
    split at h
    · cases h
    · rename_i hapex
      split at h
      · exact .inl (hmap h)
      · rename_i hsub
        split at h
        · rename_i t hcustom
          cases h
          exact .inr ⟨⟨hapex, hsub⟩, hcustom⟩
        · cases h

theorem resolve_of_custom (hout : r.Outside (normalizeHost hostHeader))
    (h : r.custom (normalizeHost hostHeader) = some tenant) :
    r.resolve hostHeader none = .ok tenant := by
  unfold resolve
  dsimp only
  rw [if_neg hout.1, hout.2, h]

/-- Every two answers are slugs that have databases, and different tenants have different ones; the
case and the port of the host do not matter. -/
def DistinctDatabases (adminDsn : String) : Prop :=
  (∀ host header a host' header' b, r.resolve host header = .ok a → r.resolve host' header' = .ok b →
    validSlug a = .ok () ∧ validSlug b = .ok () ∧
      ∃ n m, (TenantProvisioner.new adminDsn).databaseName a = .ok n ∧
        (TenantProvisioner.new adminDsn).databaseName b = .ok m ∧ (n = m → a = b)) ∧
  ∀ host host', SameHost host host' → ∀ header, r.resolve host header = r.resolve host' header

/-- Distinct tenants have distinct databases exactly when the map of custom domains answers slugs
only, where it is asked. -/
theorem distinctDatabases_iff (adminDsn : String) :
    r.DistinctDatabases adminDsn ↔
      ∀ hostHeader tenant, r.Outside (normalizeHost hostHeader) →
        r.custom (normalizeHost hostHeader) = some tenant → validSlug tenant = .ok () := by
  constructor
  · intro h hostHeader tenant hout hcustom
    have hanswer := r.resolve_of_custom hout hcustom
    exact (h.1 _ _ _ _ _ _ hanswer hanswer).1
  · intro hslugs
    have hvalid {host : String} {header : Option String} {a : TenantId}
        (h : r.resolve host header = .ok a) : validSlug a = .ok () := by
      rcases r.resolve_eq_ok h with h | ⟨hout, hcustom⟩
      · exact h
      · exact hslugs host a hout hcustom
    constructor
    · intro host header a host' header' b ha hb
      have hslug := (validSlug_eq_ok_iff a).mp (hvalid ha)
      have hslug' := (validSlug_eq_ok_iff b).mp (hvalid hb)
      refine ⟨hvalid ha, hvalid hb, _, _, databaseName_of_isSlug hslug adminDsn,
        databaseName_of_isSlug hslug' adminDsn, fun h => ?_⟩
      exact underscored_inj hslug.2.1 hslug'.2.1 (String.append_right_inj _ |>.mp h)
    · intro host host' h header
      unfold resolve
      rw [normalizeHost_eq_of_sameHost h]

/-- A custom domain whose tenant has the name of a subdomain with an underscore for its dash. -/
def shared : HostResolver :=
  { HostResolver.new "app.example.com" with
    customDomains := some
      (StaticDomainMap.register ∅ "erp.acme.example" "acme_corp" : StaticDomainMap).tenantFor }

/-- Two tenants share a database, and one of them is not a slug. -/
theorem not_distinctDatabases :
    ¬ shared.DistinctDatabases "postgresql://u:p@host:5432/postgres" := by
  intro h
  have hcustom : shared.resolve "erp.acme.example" none = .ok "acme_corp" := by decide +kernel
  have hslug : shared.resolve "acme-corp.app.example.com:8443" none = .ok "acme-corp" := by
    decide +kernel
  obtain ⟨-, -, n, m, hn, hm, hinj⟩ := h.1 _ _ _ _ _ _ hcustom hslug
  have hsame : n = m := by
    rw [databaseName_eq_ok_iff] at hn hm
    rw [← hn.2.2, ← hm.2.2]
    decide +kernel
  exact absurd (hinj hsame) (by decide +kernel)

end HostResolver

end Backbone.Tenant
