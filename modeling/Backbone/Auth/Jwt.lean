import Mathlib.Data.Int.Notation
import Mathlib.Data.List.Basic

/-!
# JWT service with key rotation

A service signs with one active key and keeps the keys it has rotated out for a grace period. Both
rotation and validation prune the keys whose grace is over, and a validation builds its
`Validation` from the algorithm of the active key.

Times are nanoseconds. The `jsonwebtoken` crate is a parameter.

Reference: `backbone-auth/src/jwt.rs`.
-/

namespace Backbone.Auth

/-! ## The `jsonwebtoken` crate -/

/-- `jsonwebtoken::Algorithm`, of which the service uses two. -/
inductive Algorithm where
  | hs256
  | rs256
  | other (name : String)
deriving DecidableEq, Repr

/-- `jsonwebtoken::Header`. -/
structure Header where
  alg : Algorithm
  kid : Option String
deriving DecidableEq, Repr

/-- `Claims`. -/
structure Claims where
  sub : String
  exp : ℕ
  iat : ℕ
  iss : String
deriving DecidableEq, Repr

/-- What the service uses of the crate: the three parts of a token, the two signature schemes, and
the checks of a PEM text. -/
structure JsonWebToken where
  /-- The texts of tokens. -/
  Token : Type
  Signature : Type
  [decEq : DecidableEq Signature]
  encode : Header → Claims → Signature → Token
  /-- `decode_header`. -/
  decodeHeader : Token → Option Header
  /-- The claims and the signature of a token, when they can be read. -/
  decodeBody : Token → Option (Claims × Signature)
  decodeHeader_encode : ∀ h c sig, decodeHeader (encode h c sig) = some h
  decodeBody_encode : ∀ h c sig, decodeBody (encode h c sig) = some (c, sig)
  /-- The HMAC of a message under a secret. -/
  hmac : String → Header → Claims → Signature
  /-- The RSA signature of a message under a private key, and its check with a public key. -/
  rsaSign : String → Header → Claims → Signature
  rsaVerify : String → Header → Claims → Signature → Bool
  /-- `EncodingKey::from_rsa_pem` and `DecodingKey::from_rsa_pem` take the text. -/
  isPrivatePem : String → Bool
  isPublicPem : String → Bool
  /-- The seconds by which a token may have expired. -/
  leeway : ℕ

attribute [instance] JsonWebToken.decEq

/-! ## Keys -/

/-- `JwtKey`: an HMAC key. -/
structure JwtKey where
  kid : String
  secret : String
  createdAt : ℤ
  retiredAt : Option ℤ
deriving DecidableEq, Repr

/-- `RsaKeyPair`. -/
structure RsaKeyPair where
  kid : String
  privateKeyPem : String
  publicKeyPem : String
  createdAt : ℤ
  retiredAt : Option ℤ
deriving DecidableEq, Repr

/-- `KeyMaterial`. -/
inductive KeyMaterial where
  | hmac (k : JwtKey)
  | rsa (k : RsaKeyPair)
deriving DecidableEq, Repr

namespace KeyMaterial

def kid : KeyMaterial → String
  | hmac k => k.kid
  | rsa k => k.kid

def retiredAt : KeyMaterial → Option ℤ
  | hmac k => k.retiredAt
  | rsa k => k.retiredAt

/-- `set_retired`. -/
def setRetired (now : ℤ) : KeyMaterial → KeyMaterial
  | hmac k => hmac { k with retiredAt := some now }
  | rsa k => rsa { k with retiredAt := some now }

def algorithm : KeyMaterial → Algorithm
  | hmac _ => .hs256
  | rsa _ => .rs256

@[simp] theorem kid_setRetired (now : ℤ) (k : KeyMaterial) : (k.setRetired now).kid = k.kid := by
  cases k <;> rfl

@[simp] theorem retiredAt_setRetired (now : ℤ) (k : KeyMaterial) :
    (k.setRetired now).retiredAt = some now := by
  cases k <;> rfl

end KeyMaterial

/-! ## Signing and checking -/

variable (J : JsonWebToken)

/-- The signature of a token verifies under a key: the header's algorithm is the key's, and the
signature is the key's over the header and the claims. -/
def KeyMaterial.verifies (key : KeyMaterial) (header : Header) (claims : Claims)
    (sig : J.Signature) : Bool :=
  match key, header.alg with
  | .hmac k, .hs256 => sig == J.hmac k.secret header claims
  | .rsa k, .rs256 => J.isPublicPem k.publicKeyPem && J.rsaVerify k.publicKeyPem header claims sig
  | _, _ => false

/-- `exp`, with the leeway, has not passed. -/
def Unexpired (now : ℤ) (claims : Claims) : Prop := now / 1000000000 ≤ claims.exp + J.leeway

instance (now : ℤ) (claims : Claims) : Decidable (Unexpired J now claims) :=
  inferInstanceAs (Decidable (_ ≤ _))

/-- `jsonwebtoken::decode` with a `Validation` that lists one algorithm. -/
def decode (now : ℤ) (token : J.Token) (key : KeyMaterial) (algorithm : Algorithm) :
    Option Claims := do
  let header ← J.decodeHeader token
  let (claims, sig) ← J.decodeBody token
  if header.alg = algorithm ∧ key.verifies J header claims sig ∧ Unexpired J now claims then
    some claims
  else none

/-- `try_validate_with_key`. -/
def tryValidateWithKey (now : ℤ) (token : J.Token) (key : KeyMaterial) (algorithm : Algorithm) :
    Option Claims :=
  match key with
  | .hmac _ => decode J now token key algorithm
  | .rsa k => if J.isPublicPem k.publicKeyPem then decode J now token key algorithm else none

/-- `extract_kid`. -/
def extractKid (token : J.Token) : Option String := (J.decodeHeader token).bind (·.kid)

/-! ## The service -/

/-- `JwtService`. -/
structure JwtService where
  activeKey : KeyMaterial
  retiredKeys : List KeyMaterial
  gracePeriod : ℤ
deriving DecidableEq

/-- What `prune_expired_keys` keeps at `now`. -/
def inGrace (gracePeriod now : ℤ) (key : KeyMaterial) : Bool :=
  key.retiredAt.all (now - · < gracePeriod)

/-- `prune_expired_keys`. -/
def pruneExpiredKeys (gracePeriod now : ℤ) (retired : List KeyMaterial) : List KeyMaterial :=
  retired.filter (inGrace gracePeriod now)

namespace JwtService

/-- `rotate_key_material`. -/
def rotateKeyMaterial (s : JwtService) (now : ℤ) (newKey : KeyMaterial) : JwtService where
  activeKey := newKey
  retiredKeys :=
    pruneExpiredKeys s.gracePeriod now (s.retiredKeys ++ [s.activeKey.setRetired now])
  gracePeriod := s.gracePeriod

/-- `with_rotation`. -/
def withRotation (now : ℤ) (kid secret : String) (gracePeriod : ℤ) : JwtService :=
  ⟨.hmac ⟨kid, secret, now, none⟩, [], gracePeriod⟩

/-- `with_rs256_rotation`. -/
def withRs256Rotation (now : ℤ) (kid privateKeyPem publicKeyPem : String) (gracePeriod : ℤ) :
    Except String JwtService :=
  if !J.isPrivatePem privateKeyPem then .error "Invalid RSA private key PEM"
  else if !J.isPublicPem publicKeyPem then .error "Invalid RSA public key PEM"
  else .ok ⟨.rsa ⟨kid, privateKeyPem, publicKeyPem, now, none⟩, [], gracePeriod⟩

/-- `rotate_key`; `kid` is the fresh `Uuid::new_v4`. -/
def rotateKey (s : JwtService) (now : ℤ) (kid newSecret : String) : JwtService :=
  s.rotateKeyMaterial now (.hmac ⟨kid, newSecret, now, none⟩)

/-- `rotate_rsa_key`. -/
def rotateRsaKey (s : JwtService) (now : ℤ) (kid privateKeyPem publicKeyPem : String) :
    Except String JwtService :=
  if !J.isPrivatePem privateKeyPem then .error "Invalid RSA private key PEM for rotation"
  else if !J.isPublicPem publicKeyPem then .error "Invalid RSA public key PEM for rotation"
  else .ok (s.rotateKeyMaterial now (.rsa ⟨kid, privateKeyPem, publicKeyPem, now, none⟩))

/-- `create_token`: signed with the active key, whose `kid` is in the header. -/
def createToken (s : JwtService) (claims : Claims) : Except String J.Token :=
  match s.activeKey with
  | .hmac k =>
    let header : Header := ⟨.hs256, some k.kid⟩
    .ok (J.encode header claims (J.hmac k.secret header claims))
  | .rsa k =>
    let header : Header := ⟨.rs256, some k.kid⟩
    if J.isPrivatePem k.privateKeyPem then
      .ok (J.encode header claims (J.rsaSign k.privateKeyPem header claims))
    else .error "Invalid RSA private key"

/-- A token that names a key is tried with that key only. -/
def kidMatches (tokenKid : Option String) (key : KeyMaterial) : Bool :=
  tokenKid.all (· == key.kid)

/-- `validate_token`: the active key, then the retired keys in their grace. The second component is
the service after it, which a call that reaches the retired keys has pruned. -/
def validateToken (s : JwtService) (now : ℤ) (token : J.Token) :
    Except String Claims × JwtService :=
  let algorithm := s.activeKey.algorithm
  let tokenKid := extractKid J token
  let byActive := if kidMatches tokenKid s.activeKey then
      tryValidateWithKey J now token s.activeKey algorithm
    else none
  match byActive with
  | some claims => (.ok claims, s)
  | none =>
    let retired := pruneExpiredKeys s.gracePeriod now s.retiredKeys
    let byRetired := (retired.filter (kidMatches tokenKid)).findSome? fun key =>
      tryValidateWithKey J now token key algorithm
    match byRetired with
    | some claims => (.ok claims, { s with retiredKeys := retired })
    | none => (.error "Failed to validate JWT token", { s with retiredKeys := retired })

/-- A token is accepted at `now`. -/
def Accepts (s : JwtService) (now : ℤ) (token : J.Token) : Prop :=
  ∃ claims, (s.validateToken J now token).1 = .ok claims

end JwtService

/-! ## Calls -/

/-- A call on the service that may change it. -/
inductive Call where
  | rotateKey (kid newSecret : String)
  | rotateRsaKey (kid privateKeyPem publicKeyPem : String)
  | validateToken (token : J.Token)

/-- A service and, beside it, every key it has ever retired. -/
structure History where
  service : JwtService
  past : List KeyMaterial
  clock : ℤ
deriving DecidableEq

/-- A service as its constructors leave it. -/
def History.start (key : KeyMaterial) (gracePeriod now : ℤ) : History :=
  ⟨⟨key, [], gracePeriod⟩, [], now⟩

/-- The service after a rotation, with the key that it retired. -/
def History.rotated (h : History) (now : ℤ) (s : JwtService) : History :=
  ⟨s, h.past ++ [h.service.activeKey.setRetired now], now⟩

/-- A call at a time. A rotation to keys that do not parse changes nothing. -/
def History.step (h : History) (c : ℤ × Call J) : History :=
  match c.2 with
  | .rotateKey kid newSecret => h.rotated c.1 (h.service.rotateKey c.1 kid newSecret)
  | .rotateRsaKey kid privateKeyPem publicKeyPem =>
    match h.service.rotateRsaKey J c.1 kid privateKeyPem publicKeyPem with
    | .ok s => h.rotated c.1 s
    | .error _ => { h with clock := c.1 }
  | .validateToken token =>
    { h with service := (h.service.validateToken J c.1 token).2, clock := c.1 }

end Backbone.Auth
