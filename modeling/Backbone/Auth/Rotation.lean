import Mathlib.Data.List.Nodup
import Backbone.Lib.Run
import Backbone.Auth.Jwt

/-!
# What a rotated key still validates

A token is meant to be accepted while the key that signed it is active or in its grace. The keys the
service still holds are those of its whole history that a pruning has not dropped; from the clock
on, dropping them makes no difference. What does make one is the `Validation`, which lists only the
algorithm of the active key.

Reference: `backbone-auth/src/jwt.rs`.
-/

namespace Backbone.Auth

open Machine

variable {J : JsonWebToken} {token : J.Token} {now : ℤ} {key : KeyMaterial}
  {s : JwtService} {algorithm : Algorithm} {gracePeriod now' : ℤ} {h : History}

/-! ## Tokens of a key -/

/-- The header of the tokens a key signs. -/
def KeyMaterial.header (k : KeyMaterial) : Header := ⟨k.algorithm, some k.kid⟩

/-- The signature of a key. -/
def KeyMaterial.sign (J : JsonWebToken) (k : KeyMaterial) (claims : Claims) : J.Signature :=
  match k with
  | .hmac key => J.hmac key.secret k.header claims
  | .rsa key => J.rsaSign key.privateKeyPem k.header claims

/-- A key verifies what it signs: an HMAC key always does, an RSA key when its public key belongs to
its private key. -/
def KeyMaterial.VerifiesOwn (J : JsonWebToken) (k : KeyMaterial) (claims : Claims) : Prop :=
  k.verifies J k.header claims (k.sign J claims)

@[simp] theorem KeyMaterial.verifies_setRetired (now : ℤ) (k : KeyMaterial) (header : Header)
    (claims : Claims) (sig : J.Signature) :
    (k.setRetired now).verifies J header claims sig = k.verifies J header claims sig := by
  obtain ⟨alg, kid⟩ := header
  cases k <;> cases alg <;> rfl

theorem KeyMaterial.verifiesOwn_hmac (k : JwtKey) (claims : Claims) :
    (KeyMaterial.hmac k).VerifiesOwn J claims := by
  simp [KeyMaterial.VerifiesOwn, KeyMaterial.verifies, KeyMaterial.header, KeyMaterial.algorithm,
    KeyMaterial.sign]

theorem JwtService.createToken_eq {claims : Claims}
    (h : s.createToken J claims = .ok token) :
    token = J.encode s.activeKey.header claims (s.activeKey.sign J claims) := by
  unfold JwtService.createToken at h
  cases hk : s.activeKey with
  | hmac k =>
    rw [hk] at h
    injection h with h
    exact h.symm
  | rsa k =>
    rw [hk] at h
    simp only at h
    split at h
    · injection h with h
      exact h.symm
    · cases h

/-! ## One key, one token -/

/-- A token passes a key: its algorithm is listed, its signature verifies, it has not expired. -/
structure Passes (J : JsonWebToken) (now : ℤ) (token : J.Token) (key : KeyMaterial)
    (algorithm : Algorithm) (header : Header) (claims : Claims) (sig : J.Signature) : Prop where
  header_eq : J.decodeHeader token = some header
  body_eq : J.decodeBody token = some (claims, sig)
  alg_eq : header.alg = algorithm
  verifies : key.verifies J header claims sig
  unexpired : Unexpired J now claims

theorem decode_isSome_iff :
    (decode J now token key algorithm).isSome ↔
      ∃ header claims sig, Passes J now token key algorithm header claims sig := by
  unfold decode
  constructor
  · intro h
    cases hh : J.decodeHeader token with
    | none => simp [hh] at h
    | some header =>
      cases hb : J.decodeBody token with
      | none => simp [hh, hb] at h
      | some body =>
        obtain ⟨claims, sig⟩ := body
        by_cases hc : header.alg = algorithm ∧ key.verifies J header claims sig ∧
            Unexpired J now claims
        · exact ⟨header, claims, sig, hh, hb, hc.1, hc.2.1, hc.2.2⟩
        · simp [hh, hb, hc] at h
  · rintro ⟨header, claims, sig, hp⟩
    simp [hp.header_eq, hp.body_eq, hp.alg_eq, hp.verifies, hp.unexpired]

theorem tryValidate_isSome_iff :
    (tryValidateWithKey J now token key algorithm).isSome ↔
      ∃ header claims sig, Passes J now token key algorithm header claims sig := by
  cases key with
  | hmac k => exact decode_isSome_iff
  | rsa k =>
    simp only [tryValidateWithKey]
    split
    · exact decode_isSome_iff
    · rename_i hpem
      constructor
      · intro h
        cases h
      · rintro ⟨header, claims, sig, hp⟩
        have hv := hp.verifies
        unfold KeyMaterial.verifies at hv
        split at hv <;> simp_all

/-- The tokens a service accepts: those that pass the active key or a retired key in its grace, and
name no other. -/
theorem JwtService.accepts_iff :
    s.Accepts J now token ↔
      ∃ key, (key = s.activeKey ∨ key ∈ pruneExpiredKeys s.gracePeriod now s.retiredKeys) ∧
        kidMatches (extractKid J token) key ∧
        ∃ header claims sig, Passes J now token key s.activeKey.algorithm header claims sig := by
  unfold JwtService.Accepts JwtService.validateToken
  simp only [← tryValidate_isSome_iff]
  split
  · rename_i claims hactive
    simp only [Except.ok.injEq, exists_eq', true_iff]
    split at hactive
    · rename_i hkid
      exact ⟨s.activeKey, .inl rfl, hkid, by simp [hactive]⟩
    · cases hactive
  · rename_i hactive
    have hnot : ¬ (kidMatches (extractKid J token) s.activeKey ∧
        (tryValidateWithKey J now token s.activeKey s.activeKey.algorithm).isSome) := by
      rintro ⟨hkid, hsome⟩
      simp [hkid] at hactive
      simp [hactive] at hsome
    split
    · rename_i claims hretired
      simp only [Except.ok.injEq, exists_eq', true_iff]
      obtain ⟨key, hmem, hkey⟩ := List.exists_of_findSome?_eq_some hretired
      rw [List.mem_filter] at hmem
      exact ⟨key, .inr hmem.1, hmem.2, by simp [hkey]⟩
    · rename_i hretired
      simp only [reduceCtorEq, exists_false, false_iff]
      rintro ⟨key, rfl | hmem, hkid, hsome⟩
      · exact hnot ⟨hkid, hsome⟩
      · have := List.findSome?_eq_none_iff.mp hretired key (List.mem_filter.mpr ⟨hmem, hkid⟩)
        simp [this] at hsome

/-! ## The keys of a history -/

theorem inGrace_mono (hle : now ≤ now') (h : inGrace gracePeriod now' key) :
    inGrace gracePeriod now key := by
  unfold inGrace at *
  cases hr : key.retiredAt with
  | none => rfl
  | some r =>
    simp [hr] at h ⊢
    omega

/-- An earlier pruning changes nothing for a later one. -/
theorem prune_prune (hle : now ≤ now') (keys : List KeyMaterial) :
    pruneExpiredKeys gracePeriod now' (pruneExpiredKeys gracePeriod now keys) =
      pruneExpiredKeys gracePeriod now' keys := by
  unfold pruneExpiredKeys
  rw [List.filter_filter]
  congr 1
  funext key
  rw [Bool.and_eq_left_iff_imp]
  exact inGrace_mono hle

/-- The key a call makes, if it makes one. -/
def Call.newKid : Call J → Option String
  | .rotateKey kid _ | .rotateRsaKey kid _ _ => some kid
  | .validateToken _ => none

/-- The calls of a run: time does not go back, and a new key has a `kid` of its own. -/
structure History.Proper (h : History) (c : ℤ × Call J) : Prop where
  clock_le : h.clock ≤ c.1
  fresh : ∀ kid ∈ c.2.newKid, kid ∉ (h.service.activeKey :: h.past).map KeyMaterial.kid

instance (h : History) (c : ℤ × Call J) : Decidable (h.Proper c) :=
  decidable_of_iff (h.clock ≤ c.1 ∧
    ∀ kid ∈ c.2.newKid, kid ∉ (h.service.activeKey :: h.past).map KeyMaterial.kid)
    ⟨fun h => ⟨h.1, h.2⟩, fun h => ⟨h.1, h.2⟩⟩

/-- What a call can do: make a new key active, or at most prune. -/
theorem History.step_cases (h : History) (c : ℤ × Call J) :
    (∃ newKey, newKey.kid ∈ c.2.newKid ∧
      h.step J c = h.rotated c.1 (h.service.rotateKeyMaterial c.1 newKey)) ∨
    (∃ retired, (retired = h.service.retiredKeys ∨
        retired = pruneExpiredKeys h.service.gracePeriod c.1 h.service.retiredKeys) ∧
      h.step J c = ⟨{ h.service with retiredKeys := retired }, h.past, c.1⟩) := by
  obtain ⟨now, c⟩ := c
  cases c with
  | rotateKey kid newSecret =>
    exact .inl ⟨.hmac ⟨kid, newSecret, now, none⟩, rfl, rfl⟩
  | rotateRsaKey kid privateKeyPem publicKeyPem =>
    simp only [History.step, JwtService.rotateRsaKey]
    by_cases hpriv : J.isPrivatePem privateKeyPem
    · by_cases hpub : J.isPublicPem publicKeyPem
      · exact .inl ⟨.rsa ⟨kid, privateKeyPem, publicKeyPem, now, none⟩, rfl, by simp [hpriv, hpub]⟩
      · exact .inr ⟨_, .inl rfl, by simp [hpriv, hpub]⟩
    · exact .inr ⟨_, .inl rfl, by simp [hpriv]⟩
  | validateToken token =>
    simp only [History.step, JwtService.validateToken]
    split
    · exact .inr ⟨_, .inl rfl, rfl⟩
    · split
      · exact .inr ⟨_, .inr rfl, rfl⟩
      · exact .inr ⟨_, .inr rfl, rfl⟩

/-- What holds in every history. -/
structure History.Sound (h : History) : Prop where
  kids_nodup : ((h.service.activeKey :: h.past).map KeyMaterial.kid).Nodup
  /-- From the clock on, the service holds every key of its past that is in its grace. -/
  retired_eq : ∀ t, h.clock ≤ t →
    pruneExpiredKeys h.service.gracePeriod t h.service.retiredKeys =
      pruneExpiredKeys h.service.gracePeriod t h.past

theorem History.sound_start (key : KeyMaterial) (gracePeriod now : ℤ) :
    (History.start key gracePeriod now).Sound :=
  ⟨by simp [History.start], fun _ _ => rfl⟩

theorem History.Sound.step (hs : h.Sound) {c : ℤ × Call J} (hc : h.Proper c) :
    (h.step J c).Sound := by
  rcases h.step_cases c with ⟨newKey, hkid, heq⟩ | ⟨retired, hretired, heq⟩
  · rw [heq]
    have hfresh := hc.fresh _ hkid
    have hnodup := hs.kids_nodup
    constructor
    · simp only [History.rotated, JwtService.rotateKeyMaterial, List.map_cons, List.map_append,
        KeyMaterial.kid_setRetired, List.map_nil] at hnodup hfresh ⊢
      rw [List.nodup_cons] at hnodup ⊢
      refine ⟨fun hmem => hfresh ?_, List.Nodup.append hnodup.2 (List.nodup_singleton _) ?_⟩
      · rw [List.mem_append, List.mem_singleton] at hmem
        rcases hmem with hmem | hmem
        · exact List.mem_cons_of_mem _ hmem
        · exact hmem ▸ List.mem_cons_self
      · exact List.disjoint_singleton.mpr hnodup.1
    · intro t ht
      simp only [History.rotated, JwtService.rotateKeyMaterial] at ht ⊢
      rw [prune_prune ht]
      have hpast := hs.retired_eq t (Int.le_trans hc.clock_le ht)
      simp only [pruneExpiredKeys, List.filter_append] at hpast ⊢
      rw [hpast]
  · rw [heq]
    refine ⟨hs.kids_nodup, fun t ht => ?_⟩
    have hpast := hs.retired_eq t (Int.le_trans hc.clock_le ht)
    rcases hretired with rfl | rfl
    · exact hpast
    · exact (prune_prune ht _).trans hpast

/-- The service has, or has had, a key. -/
def History.Has (h : History) (k : KeyMaterial) : Prop :=
  h.service.activeKey = k ∨ ∃ r, k.setRetired r ∈ h.past

theorem History.Has.step {k : KeyMaterial} (hk : h.Has k) (c : ℤ × Call J) :
    (h.step J c).Has k := by
  rcases h.step_cases c with ⟨newKey, -, heq⟩ | ⟨retired, -, heq⟩
  · rw [heq]
    rcases hk with hactive | ⟨r, hr⟩
    · exact .inr ⟨c.1, by simp [History.rotated, hactive]⟩
    · exact .inr ⟨r, by simp [History.rotated, hr]⟩
  · rw [heq]
    exact hk

/-- A key is the active one, or was retired less than the grace period before `now`. -/
def History.Live (h : History) (k : KeyMaterial) (now : ℤ) : Prop :=
  h.service.activeKey = k ∨ ∃ r, k.setRetired r ∈ h.past ∧ now - r < h.service.gracePeriod

/-! ## Acceptance over a history -/

section

variable {h : History} {k : KeyMaterial} {now : ℤ}

/-- In its grace, for a key that was retired at `r`. -/
theorem mem_prune_setRetired {gracePeriod r : ℤ} {keys : List KeyMaterial} :
    k.setRetired r ∈ pruneExpiredKeys gracePeriod now keys ↔
      k.setRetired r ∈ keys ∧ now - r < gracePeriod := by
  simp [pruneExpiredKeys, inGrace]

/-- The tokens of a key are tried with no other key. -/
theorem History.Sound.eq_of_kid (hs : h.Sound) (hk : h.Has k) {key : KeyMaterial}
    (hkey : key = h.service.activeKey ∨ key ∈ h.past) (hkid : key.kid = k.kid) :
    key = h.service.activeKey ∧ h.service.activeKey = k ∨
      key ∈ h.past ∧ ∃ r, key = k.setRetired r := by
  have hnodup := hs.kids_nodup
  rw [List.map_cons, List.nodup_cons] at hnodup
  rcases hkey with rfl | hpast
  · refine .inl ⟨rfl, ?_⟩
    rcases hk with hactive | ⟨r, hr⟩
    · exact hactive
    · exact absurd (List.mem_map.mpr ⟨_, hr, by simp [hkid]⟩) hnodup.1
  · refine .inr ⟨hpast, ?_⟩
    rcases hk with hactive | ⟨r, hr⟩
    · exact absurd (List.mem_map.mpr ⟨key, hpast, by rw [hkid, hactive]⟩) hnodup.1
    · exact ⟨r, List.inj_on_of_nodup_map hnodup.2 hpast hr (by simp [hkid])⟩

/-- The keys tried by a validation, in terms of the history. -/
theorem History.Sound.accepts_iff (hs : h.Sound) (hnow : h.clock ≤ now) :
    h.service.Accepts J now token ↔
      ∃ key, (key = h.service.activeKey ∨ key ∈ pruneExpiredKeys h.service.gracePeriod now h.past) ∧
        JwtService.kidMatches (extractKid J token) key ∧
        ∃ header claims sig,
          Passes J now token key h.service.activeKey.algorithm header claims sig := by
  rw [JwtService.accepts_iff, hs.retired_eq now hnow]

/-- A token of a key is accepted when the key is live, the token has not expired, and the key's
algorithm is still the active one. -/
theorem History.Sound.accepts_own_iff (hs : h.Sound) (hk : h.Has k) (hnow : h.clock ≤ now)
    (claims : Claims) :
    h.service.Accepts J now (J.encode k.header claims (k.sign J claims)) ↔
      h.Live k now ∧ Unexpired J now claims ∧ k.algorithm = h.service.activeKey.algorithm ∧
        k.VerifiesOwn J claims := by
  have hkid : extractKid J (J.encode k.header claims (k.sign J claims)) = some k.kid := by
    simp [extractKid, J.decodeHeader_encode, KeyMaterial.header]
  rw [hs.accepts_iff hnow, hkid]
  constructor
  · rintro ⟨key, hkey, hmatch, header, claims', sig, hp⟩
    have hheader := hp.header_eq
    have hbody := hp.body_eq
    rw [J.decodeHeader_encode] at hheader
    rw [J.decodeBody_encode] at hbody
    cases hheader
    cases hbody
    have hkeykid : key.kid = k.kid := by
      simp only [JwtService.kidMatches, Option.all_some, beq_iff_eq] at hmatch
      exact hmatch.symm
    have hmem : key = h.service.activeKey ∨ key ∈ h.past :=
      hkey.imp id fun hmem => (List.mem_filter.mp hmem).1
    rcases hs.eq_of_kid hk hmem hkeykid with ⟨rfl, hactive⟩ | ⟨hpast, r, rfl⟩
    · have hv := hp.verifies
      rw [hactive] at hv
      exact ⟨.inl hactive, hp.unexpired, hp.alg_eq, hv⟩
    · have hv := hp.verifies
      rw [KeyMaterial.verifies_setRetired] at hv
      refine ⟨.inr ⟨r, hpast, ?_⟩, hp.unexpired, hp.alg_eq, hv⟩
      rcases hkey with hactive | hgrace
      · -- The active key is no key of the past.
        have hnodup := hs.kids_nodup
        rw [List.map_cons, List.nodup_cons, ← hactive] at hnodup
        exact absurd (List.mem_map_of_mem hpast) hnodup.1
      · exact (mem_prune_setRetired.mp hgrace).2
  · rintro ⟨hlive, hunexpired, halg, hv⟩
    have hmatch (key : KeyMaterial) (hkey : key.kid = k.kid) :
        JwtService.kidMatches (some k.kid) key := by simp [JwtService.kidMatches, hkey]
    rcases hlive with hactive | ⟨r, hr, hgrace⟩
    · exact ⟨k, .inl hactive.symm, hmatch k rfl, _, _, _, J.decodeHeader_encode _ _ _,
        J.decodeBody_encode _ _ _, halg, hv, hunexpired⟩
    · exact ⟨k.setRetired r, .inr (mem_prune_setRetired.mpr ⟨hr, hgrace⟩), hmatch _ (by simp), _, _,
        _, J.decodeHeader_encode _ _ _, J.decodeBody_encode _ _ _, halg,
        by rw [KeyMaterial.verifies_setRetired]; exact hv, hunexpired⟩

end

/-- A token made under a key is accepted for as long as it has not expired and the key is active or
in its grace, exactly when, as long as that is so, the key's algorithm is the one of the active key
and the key verifies what it signs; and every token that is accepted was verified by one of those
keys. -/
theorem rotation_grace_iff (J : JsonWebToken) (key : KeyMaterial) (gracePeriod start : ℤ)
    (before after : List (ℤ × Call J)) (now : ℤ) (claims : Claims) (token : J.Token)
    (hproper : Along (History.step J) History.Proper (.start key gracePeriod start)
      (before ++ after))
    (hnow : (run (History.step J) (.start key gracePeriod start) (before ++ after)).clock ≤ now)
    (htoken : (run (History.step J) (.start key gracePeriod start) before).service.createToken J
      claims = .ok token) :
    let k := (run (History.step J) (.start key gracePeriod start) before).service.activeKey
    let h := run (History.step J) (.start key gracePeriod start) (before ++ after)
    ((h.service.Accepts J now token ↔ Unexpired J now claims ∧ h.Live k now) ↔
      (Unexpired J now claims → h.Live k now →
        k.algorithm = h.service.activeKey.algorithm ∧ k.VerifiesOwn J claims)) ∧
    ∀ token', h.service.Accepts J now token' → ∃ key' header claims' sig,
      (key' = h.service.activeKey ∨
        key' ∈ pruneExpiredKeys gracePeriod now h.past) ∧
      J.decodeHeader token' = some header ∧ J.decodeBody token' = some (claims', sig) ∧
      key'.verifies J header claims' sig := by
  intro k h
  have hs : h.Sound := invariant_along _ (fun _ _ hs hc => hs.step hc)
    (History.sound_start key gracePeriod start) hproper
  have hk : h.Has k := by
    simp only [h, run_append]
    exact invariant_run (I := (History.Has · k)) _ (fun _ c hk => hk.step c) after (.inl rfl)
  rw [JwtService.createToken_eq htoken, hs.accepts_own_iff hk hnow claims]
  refine ⟨by tauto, fun token' haccept => ?_⟩
  obtain ⟨key', hkey', -, header, claims', sig, hp⟩ := (hs.accepts_iff hnow).mp haccept
  have hgrace : h.service.gracePeriod = gracePeriod := by
    refine invariant_run (I := fun h' : History => h'.service.gracePeriod = gracePeriod) _ ?_ _ rfl
    intro h' c hg
    rcases h'.step_cases c with ⟨newKey, -, heq⟩ | ⟨retired, -, heq⟩
    · rw [heq]
      exact hg
    · rw [heq]
      exact hg
  rw [hgrace] at hkey'
  exact ⟨key', header, claims', sig, hkey', hp.header_eq, hp.body_eq, hp.verifies⟩

/-! ### A change of algorithm -/

/-- A signature as a term: who made it over what. -/
inductive Signed where
  | hmac (secret : String) (header : Header) (claims : Claims)
  | rsa (pair : String) (header : Header) (claims : Claims)
deriving DecidableEq

/-- Tokens and signatures as terms, the two keys of a pair under one name. -/
def termTokens : JsonWebToken where
  Token := Header × Claims × Signed
  Signature := Signed
  encode h c sig := (h, c, sig)
  decodeHeader token := some token.1
  decodeBody token := some token.2
  decodeHeader_encode _ _ _ := rfl
  decodeBody_encode _ _ _ := rfl
  hmac := .hmac
  rsaSign := .rsa
  rsaVerify pair h c sig := sig == .rsa pair h c
  isPrivatePem _ := true
  isPublicPem _ := true
  leeway := 60

/-- A service that signs with a secret, from second zero on, with a grace of a day. -/
def secretKey : KeyMaterial := .hmac ⟨"kid-1", "secret", 0, none⟩

def oneDay : ℤ := 86400 * 1000000000

/-- Claims that expire after an hour. -/
def hourClaims : Claims := ⟨"user-123", 3600, 0, "backbone"⟩

/-- The rotation to an RSA key pair in the next second. -/
def toRsa : List (ℤ × Call termTokens) := [(1000000000, .rotateRsaKey "kid-2" "pair" "pair")]

/-- Two seconds on, a token of the secret is refused, in the grace of its key. -/
theorem mixed_rotation_refuses :
    ¬ (∀ (J : JsonWebToken) (key : KeyMaterial) (gracePeriod start : ℤ)
        (before after : List (ℤ × Call J)) (now : ℤ) (claims : Claims) (token : J.Token),
        Along (History.step J) History.Proper (.start key gracePeriod start) (before ++ after) →
        (run (History.step J) (.start key gracePeriod start) (before ++ after)).clock ≤ now →
        (run (History.step J) (.start key gracePeriod start) before).service.createToken J claims =
          .ok token →
        ((run (History.step J) (.start key gracePeriod start)
            (before ++ after)).service.Accepts J now token ↔
          Unexpired J now claims ∧ (run (History.step J) (.start key gracePeriod start)
            (before ++ after)).Live
              (run (History.step J) (.start key gracePeriod start) before).service.activeKey now)) := by
  intro h
  have haccepts := (h termTokens secretKey oneDay 0 [] toRsa 2000000000 hourClaims _
    (by decide) (by decide) rfl).mpr
    ⟨by decide, .inr ⟨1000000000, List.mem_singleton.mpr rfl, by decide⟩⟩
  obtain ⟨claims, hclaims⟩ := haccepts
  cases hclaims

/-- A rotation from one secret to another keeps the token of the first. -/
theorem same_algorithm_rotation_accepts :
    (run (History.step termTokens) (.start secretKey oneDay 0)
      [(1000000000, .rotateKey "kid-2" "other")]).service.Accepts termTokens 2000000000
      (⟨.hs256, some "kid-1"⟩, hourClaims,
        .hmac "secret" ⟨.hs256, some "kid-1"⟩ hourClaims) :=
  ((rotation_grace_iff termTokens secretKey oneDay 0 []
    [(1000000000, .rotateKey "kid-2" "other")] 2000000000 hourClaims _ (by decide) (by decide)
    rfl).1.mpr (fun _ _ => ⟨rfl, KeyMaterial.verifiesOwn_hmac _ _⟩)).mpr
    ⟨by decide, .inr ⟨1000000000, List.mem_singleton.mpr rfl, by decide⟩⟩

end Backbone.Auth
