import Backbone.Auth.Jwt
import Backbone.Workflow.Expr

/-!
# Access tokens and refresh tokens

Both kinds are signed by the same keys under the same header; a token is a kind by what its payload
reads as. `Claims` reads four fields of a payload and ignores the others, `RefreshTokenClaims` reads
those four and `token_type`. So a refresh token reads as an access token, and an access token never as a
refresh token.

The service of `Backbone.Auth.Jwt` signs and reads claims; here it signs and reads the payload they are
serialized to. On the tokens it mints the two agree.

Reference: `backbone-auth/src/jwt.rs` and `backbone-auth/src/traits.rs`.
-/

namespace Backbone.Auth

open Workflow (Value)

/-! ## Payloads -/

/-- `RefreshTokenClaims`. -/
structure RefreshTokenClaims where
  sub : String
  exp : ℕ
  iat : ℕ
  iss : String
  tokenType : String
deriving DecidableEq, Repr

/-- The field of a payload, if it is an object that has it. -/
def payloadField (payload : Value) (name : String) : Option Value :=
  match payload with
  | .obj fields => fields.lookup name
  | _ => none

/-- A field that reads as a `String`. -/
def textField (payload : Value) (name : String) : Option String :=
  match payloadField payload name with
  | some (.str s) => some s
  | _ => none

/-- A field that reads as a `usize`. -/
def numberField (payload : Value) (name : String) : Option ℕ :=
  match payloadField payload name with
  | some (.num (.int n)) => n.toNat?
  | _ => none

/-- The payload of `Claims`. -/
def Claims.toPayload (c : Claims) : Value :=
  .obj [("sub", .str c.sub), ("exp", .num (.int c.exp)), ("iat", .num (.int c.iat)),
    ("iss", .str c.iss)]

/-- A payload read as `Claims`: every field of it, and no other. -/
def Claims.ofPayload (payload : Value) : Option Claims := do
  let sub ← textField payload "sub"
  let exp ← numberField payload "exp"
  let iat ← numberField payload "iat"
  let iss ← textField payload "iss"
  some ⟨sub, exp, iat, iss⟩

/-- The payload of `RefreshTokenClaims`. -/
def RefreshTokenClaims.toPayload (c : RefreshTokenClaims) : Value :=
  .obj [("sub", .str c.sub), ("exp", .num (.int c.exp)), ("iat", .num (.int c.iat)),
    ("iss", .str c.iss), ("token_type", .str c.tokenType)]

/-- A payload read as `RefreshTokenClaims`. -/
def RefreshTokenClaims.ofPayload (payload : Value) : Option RefreshTokenClaims := do
  let sub ← textField payload "sub"
  let exp ← numberField payload "exp"
  let iat ← numberField payload "iat"
  let iss ← textField payload "iss"
  let tokenType ← textField payload "token_type"
  some ⟨sub, exp, iat, iss, tokenType⟩

theorem Claims.ofPayload_toPayload (c : Claims) : Claims.ofPayload c.toPayload = some c := rfl

/-- The fields a refresh token adds are ignored. -/
theorem Claims.ofPayload_refresh (c : RefreshTokenClaims) :
    Claims.ofPayload c.toPayload = some ⟨c.sub, c.exp, c.iat, c.iss⟩ := rfl

/-- The field an access token lacks is required. -/
theorem RefreshTokenClaims.ofPayload_access (c : Claims) :
    RefreshTokenClaims.ofPayload c.toPayload = none := rfl

/-! ## The `jsonwebtoken` crate, over payloads -/

/-- `JsonWebToken`, with the payload of a token in the place of its claims. -/
structure PayloadTokens where
  Token : Type
  Signature : Type
  [decEq : DecidableEq Signature]
  encode : Header → Value → Signature → Token
  decodeHeader : Token → Option Header
  decodeBody : Token → Option (Value × Signature)
  decodeHeader_encode : ∀ h p sig, decodeHeader (encode h p sig) = some h
  decodeBody_encode : ∀ h p sig, decodeBody (encode h p sig) = some (p, sig)
  hmac : String → Header → Value → Signature
  rsaSign : String → Header → Value → Signature
  rsaVerify : String → Header → Value → Signature → Bool
  isPrivatePem : String → Bool
  isPublicPem : String → Bool
  leeway : ℕ

attribute [instance] PayloadTokens.decEq

namespace PayloadTokens

variable (P : PayloadTokens) {token : P.Token} {s : JwtService} {now : ℤ}
  {claims : Claims} {sig : P.Signature}

/-- The signature of a payload verifies under a key. -/
def verifies (key : KeyMaterial) (header : Header) (payload : Value) (sig : P.Signature) : Bool :=
  match key, header.alg with
  | .hmac k, .hs256 => sig == P.hmac k.secret header payload
  | .rsa k, .rs256 => P.isPublicPem k.publicKeyPem && P.rsaVerify k.publicKeyPem header payload sig
  | _, _ => false

/-- The `exp` of a payload is there and, with the leeway, has not passed. -/
def unexpired (now : ℤ) (payload : Value) : Bool :=
  (numberField payload "exp").any fun (exp : ℕ) => decide (now / 1000000000 ≤ exp + P.leeway)

/-- `jsonwebtoken::decode::<T>`. -/
def decodeAs {T : Type} (read : Value → Option T) (now : ℤ) (token : P.Token) (key : KeyMaterial)
    (algorithm : Algorithm) : Option T := do
  let header ← P.decodeHeader token
  let (payload, sig) ← P.decodeBody token
  if header.alg = algorithm ∧ P.verifies key header payload sig ∧ P.unexpired now payload then
    read payload
  else none

/-- `try_validate_with_key`. -/
def tryValidateWithKey {T : Type} (read : Value → Option T) (now : ℤ) (token : P.Token)
    (key : KeyMaterial) (algorithm : Algorithm) : Option T :=
  match key with
  | .hmac _ => P.decodeAs read now token key algorithm
  | .rsa k =>
    if P.isPublicPem k.publicKeyPem then P.decodeAs read now token key algorithm else none

/-- `extract_kid`. -/
def extractKid (token : P.Token) : Option String := (P.decodeHeader token).bind (·.kid)

/-- `make_encoding_parts`, and the token of a payload. -/
def sign (s : JwtService) (payload : Value) : Except String P.Token :=
  match s.activeKey with
  | .hmac k =>
    let header : Header := ⟨.hs256, some k.kid⟩
    .ok (P.encode header payload (P.hmac k.secret header payload))
  | .rsa k =>
    let header : Header := ⟨.rs256, some k.kid⟩
    if P.isPrivatePem k.privateKeyPem then
      .ok (P.encode header payload (P.rsaSign k.privateKeyPem header payload))
    else .error "Invalid RSA private key"

/-- `create_token`. -/
def createToken (s : JwtService) (claims : Claims) : Except String P.Token :=
  P.sign s claims.toPayload

/-- `create_refresh_token`. -/
def createRefreshToken (s : JwtService) (claims : RefreshTokenClaims) : Except String P.Token :=
  P.sign s claims.toPayload

/-- `validate_token_generic`, with the default validation. -/
def validateTokenGeneric {T : Type} (read : Value → Option T) (s : JwtService) (now : ℤ)
    (token : P.Token) : Except String T × JwtService :=
  let algorithm := s.activeKey.algorithm
  let tokenKid := P.extractKid token
  let byActive := if JwtService.kidMatches tokenKid s.activeKey then
      P.tryValidateWithKey read now token s.activeKey algorithm
    else none
  match byActive with
  | some claims => (.ok claims, s)
  | none =>
    let retired := pruneExpiredKeys s.gracePeriod now s.retiredKeys
    let byRetired := (retired.filter (JwtService.kidMatches tokenKid)).findSome? fun key =>
      P.tryValidateWithKey read now token key algorithm
    match byRetired with
    | some claims => (.ok claims, { s with retiredKeys := retired })
    | none => (.error "Failed to validate JWT token", { s with retiredKeys := retired })

/-- `validate_token`. -/
def validateToken (s : JwtService) (now : ℤ) (token : P.Token) : Except String Claims × JwtService :=
  P.validateTokenGeneric Claims.ofPayload s now token

/-- `validate_refresh_token`. -/
def validateRefreshToken (s : JwtService) (now : ℤ) (token : P.Token) :
    Except String RefreshTokenClaims × JwtService :=
  match P.validateTokenGeneric RefreshTokenClaims.ofPayload s now token with
  | (.ok claims, s) =>
    if claims.tokenType = "refresh" then (.ok claims, s)
    else (.error "Invalid token type: expected refresh token", s)
  | (.error e, s) => (.error e, s)

/-- Accepted as an access token. -/
def AcceptsAccess (s : JwtService) (now : ℤ) (token : P.Token) : Prop :=
  ∃ claims, (P.validateToken s now token).1 = .ok claims

/-- Accepted as a refresh token. -/
def AcceptsRefresh (s : JwtService) (now : ℤ) (token : P.Token) : Prop :=
  ∃ claims, (P.validateRefreshToken s now token).1 = .ok claims

/-! ## The service over claims -/

/-- The crate as a service of access tokens sees it: the bodies that are claims and nothing more. -/
def access : JsonWebToken where
  Token := P.Token
  Signature := P.Signature
  encode h c sig := P.encode h c.toPayload sig
  decodeHeader := P.decodeHeader
  decodeBody token := (P.decodeBody token).bind fun body =>
    (Claims.ofPayload body.1).bind fun c => if c.toPayload = body.1 then some (c, body.2) else none
  decodeHeader_encode h c sig := P.decodeHeader_encode h c.toPayload sig
  decodeBody_encode h c sig := by
    simp [P.decodeBody_encode, Claims.ofPayload_toPayload]
  hmac secret h c := P.hmac secret h c.toPayload
  rsaSign pem h c := P.rsaSign pem h c.toPayload
  rsaVerify pem h c sig := P.rsaVerify pem h c.toPayload sig
  isPrivatePem := P.isPrivatePem
  isPublicPem := P.isPublicPem
  leeway := P.leeway

theorem createToken_access (s : JwtService) (claims : Claims) :
    s.createToken P.access claims = P.createToken s claims := by
  unfold JwtService.createToken createToken sign
  cases s.activeKey <;> rfl

/-- A key checks a token whose payload is `payload`: whatever the payload is to be read as. -/
structure Checks (now : ℤ) (token : P.Token) (key : KeyMaterial) (algorithm : Algorithm)
    (payload : Value) : Prop where
  signed : ∃ header sig, P.decodeHeader token = some header ∧
    P.decodeBody token = some (payload, sig) ∧ header.alg = algorithm ∧
    P.verifies key header payload sig = true
  unexpired : P.unexpired now payload = true

/-- A service honours a token: it has not expired, and the active key or a retired one in its grace
checks it, one the token does not name another than. -/
def Honours (s : JwtService) (now : ℤ) (token : P.Token) (payload : Value) : Prop :=
  ∃ key, (key = s.activeKey ∨ key ∈ pruneExpiredKeys s.gracePeriod now s.retiredKeys) ∧
    JwtService.kidMatches (P.extractKid token) key = true ∧
    P.Checks now token key s.activeKey.algorithm payload

variable {P} {T : Type} {read : Value → Option T} {claims : T} {payload : Value}
  {key : KeyMaterial} {algorithm : Algorithm}

theorem decodeAs_eq_some :
    P.decodeAs read now token key algorithm = some claims ↔
      ∃ payload, P.Checks now token key algorithm payload ∧ read payload = some claims := by
  unfold decodeAs
  constructor
  · intro h
    cases hheader : P.decodeHeader token with
    | none => simp [hheader] at h
    | some header =>
      cases hbody : P.decodeBody token with
      | none => simp [hheader, hbody] at h
      | some body =>
        obtain ⟨payload, sig⟩ := body
        simp only [hheader, hbody, Option.bind_eq_bind, Option.bind_some] at h
        split at h
        case isTrue hchecks =>
          exact ⟨payload, ⟨⟨header, sig, hheader, hbody, hchecks.1, hchecks.2.1⟩, hchecks.2.2⟩, h⟩
        case isFalse => cases h
  · rintro ⟨payload, ⟨⟨header, sig, hheader, hbody, halg, hverifies⟩, hexp⟩, hread⟩
    simp [hheader, hbody, halg, hverifies, hexp, hread]

theorem tryValidate_eq_some :
    P.tryValidateWithKey read now token key algorithm = some claims ↔
      ∃ payload, P.Checks now token key algorithm payload ∧ read payload = some claims := by
  cases key with
  | hmac k => exact decodeAs_eq_some
  | rsa k =>
    rw [tryValidateWithKey]
    by_cases hpem : P.isPublicPem k.publicKeyPem = true
    · rw [if_pos hpem]
      exact decodeAs_eq_some
    · rw [if_neg hpem]
      constructor
      · intro h
        cases h
      · rintro ⟨payload, ⟨⟨header, sig, -, -, -, hverifies⟩, -⟩, -⟩
        unfold verifies at hverifies
        split at hverifies
        · rename_i heq _
          cases heq
        · rename_i heq _
          cases heq
          simp [hpem] at hverifies
        · cases hverifies

/-- A token is accepted as a kind when the service honours it and its payload reads as the kind. -/
theorem validateTokenGeneric_ok (claims : T)
    (h : (P.validateTokenGeneric read s now token).1 = .ok claims) :
    ∃ payload, P.Honours s now token payload ∧ read payload = some claims := by
  unfold validateTokenGeneric at h
  simp only at h
  split at h
  case h_1 claims' hactive =>
    cases h
    split at hactive
    case isTrue hkid =>
      obtain ⟨payload, hchecks, hread⟩ := tryValidate_eq_some.mp hactive
      exact ⟨payload, ⟨s.activeKey, .inl rfl, hkid, hchecks⟩, hread⟩
    case isFalse => cases hactive
  case h_2 =>
    split at h
    case h_1 claims' hretired =>
      cases h
      obtain ⟨key, hmem, hkey⟩ := List.exists_of_findSome?_eq_some hretired
      obtain ⟨hmem, hkid⟩ := List.mem_filter.mp hmem
      obtain ⟨payload, hchecks, hread⟩ := tryValidate_eq_some.mp hkey
      exact ⟨payload, ⟨key, .inr hmem, hkid, hchecks⟩, hread⟩
    case h_2 => cases h

theorem validateTokenGeneric_honoured
    (h : P.Honours s now token payload) (hread : read payload = some claims) :
    ∃ claims, (P.validateTokenGeneric read s now token).1 = .ok claims := by
  obtain ⟨key, hkey, hkid, hchecks⟩ := h
  have htry := tryValidate_eq_some.mpr ⟨payload, hchecks, hread⟩
  unfold validateTokenGeneric
  simp only
  split
  case h_1 claims' _ => exact ⟨claims', rfl⟩
  case h_2 hactive =>
    split
    case h_1 claims' _ => exact ⟨claims', rfl⟩
    case h_2 hretired =>
      rcases hkey with rfl | hmem
      · rw [if_pos hkid, htry] at hactive
        cases hactive
      · have hnone := List.findSome?_eq_none_iff.mp hretired key
          (List.mem_filter.mpr ⟨hmem, hkid⟩)
        rw [htry] at hnone
        cases hnone

/-- What a service signs: the payload, under its active key. -/
theorem body_of_sign (h : P.sign s payload = .ok token) :
    ∃ sig, P.decodeBody token = some (payload, sig) := by
  unfold sign at h
  split at h
  case h_1 =>
    cases h
    exact ⟨_, P.decodeBody_encode _ _ _⟩
  case h_2 =>
    simp only at h
    split at h
    · cases h
      exact ⟨_, P.decodeBody_encode _ _ _⟩
    · cases h

/-- A token that is honoured is honoured for the payload that was signed. -/
theorem payload_of_honours {s' : JwtService} {payload' : Value}
    (h : P.sign s payload = .ok token) (hs : P.Honours s' now token payload') :
    payload' = payload := by
  obtain ⟨sig, hbody⟩ := body_of_sign h
  obtain ⟨key, -, -, ⟨header, sig', -, hbody', -, -⟩, -⟩ := hs
  rw [hbody] at hbody'
  exact (congrArg Prod.fst (Option.some.inj hbody')).symm

/-- A refresh token is refused as an access token exactly when it is not honoured at all; an access
token is never accepted as a refresh token. -/
theorem token_kinds (P : PayloadTokens) :
    (∀ (s s' : JwtService) (now : ℤ) (claims : RefreshTokenClaims) (token : P.Token),
      P.createRefreshToken s claims = .ok token →
      (¬ P.AcceptsAccess s' now token ↔ ¬ P.Honours s' now token claims.toPayload)) ∧
    ∀ (s s' : JwtService) (now : ℤ) (claims : Claims) (token : P.Token),
      P.createToken s claims = .ok token → ¬ P.AcceptsRefresh s' now token := by
  refine ⟨?_, ?_⟩
  · intro s s' now claims token htoken
    rw [not_iff_not]
    constructor
    · rintro ⟨access, haccess⟩
      obtain ⟨payload, hhonours, -⟩ := validateTokenGeneric_ok access haccess
      rwa [payload_of_honours htoken hhonours] at hhonours
    · intro hhonours
      exact validateTokenGeneric_honoured hhonours (Claims.ofPayload_refresh claims)
  · rintro s s' now claims token htoken ⟨refresh, hrefresh⟩
    unfold validateRefreshToken at hrefresh
    split at hrefresh
    case h_1 read s'' hgeneric =>
      obtain ⟨payload, hhonours, hread⟩ := validateTokenGeneric_ok read (by rw [hgeneric])
      rw [payload_of_honours htoken hhonours, RefreshTokenClaims.ofPayload_access] at hread
      cases hread
    case h_2 => cases hrefresh

end PayloadTokens

/-- A signature over a payload as a term. -/
inductive PayloadSigned where
  | hmac (secret : String) (header : Header) (payload : Value)
  | rsa (pair : String) (header : Header) (payload : Value)
deriving DecidableEq

/-- Tokens and signatures as terms, the two keys of a pair under one name. -/
def termPayloads : PayloadTokens where
  Token := Header × Value × PayloadSigned
  Signature := PayloadSigned
  encode h p sig := (h, p, sig)
  decodeHeader token := some token.1
  decodeBody token := some token.2
  decodeHeader_encode _ _ _ := rfl
  decodeBody_encode _ _ _ := rfl
  hmac := .hmac
  rsaSign := .rsa
  rsaVerify pair h p sig := sig == .rsa pair h p
  isPrivatePem _ := true
  isPublicPem _ := true
  leeway := 60

/-- A service with one secret. -/
def secretService : JwtService := ⟨.hmac ⟨"kid-1", "secret", 0, none⟩, [], 0⟩

/-- Refresh claims that expire after an hour. -/
def hourRefresh : RefreshTokenClaims := ⟨"user-123", 3600, 0, "backbone", "refresh"⟩

/-- The refresh token of these claims. -/
def hourToken : termPayloads.Token :=
  (⟨.hs256, some "kid-1"⟩, hourRefresh.toPayload,
    .hmac "secret" ⟨.hs256, some "kid-1"⟩ hourRefresh.toPayload)

theorem expired_refresh_refused :
    ¬ termPayloads.AcceptsAccess secretService (10000 * 1000000000) hourToken := by
  refine ((PayloadTokens.token_kinds termPayloads).1 secretService secretService _ hourRefresh _
    rfl).mpr ?_
  rintro ⟨key, -, -, -, hexp⟩
  exact absurd hexp (by decide)

/-- A refresh token is accepted as an access token. -/
theorem refresh_accepted_as_access :
    ¬ ∀ (s s' : JwtService) (now : ℤ) (claims : RefreshTokenClaims) (token : termPayloads.Token),
      termPayloads.createRefreshToken s claims = .ok token →
      ¬ termPayloads.AcceptsAccess s' now token := by
  intro h
  exact h secretService secretService 0 hourRefresh hourToken rfl
    ⟨⟨"user-123", 3600, 0, "backbone"⟩, by rfl⟩

end Backbone.Auth
