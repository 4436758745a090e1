import AwgRest.Api.Auth
import AwgRest.Lib.Text
import Mathlib.Algebra.Order.Field.Rat

open Domain

-- Bearer tokens, and whom they stand for. Clock readings and durations are in nanoseconds.
namespace Auth

def Role.text : Role → String
  | platformAdmin    => "platform_admin"
  | tenantAdmin      => "tenant_admin"
  | supportReadOnly  => "support_readonly"
  | automationClient => "automation_client"
  | nodeAgent        => "node_agent"
  | other text       => text

def Role.ofText (s : String) : Role :=
  ([platformAdmin, tenantAdmin, supportReadOnly,
    automationClient, nodeAgent].find? (·.text = s)).getD (other s)

-- What a token says about its bearer. The service asks for the principal only.
structure Identity extends Principal where
  scopes  : List String := []
  issuer  : String := ""
  tokenID : String := ""
deriving DecidableEq

inductive Curve
  | p224
  | p256
  | p384
  | p521
deriving DecidableEq

inductive Key
  | secret  (bytes : List UInt8)
  | rsa     (key : Nat)
  | ecdsa   (curve : Curve) (key : Nat)
  | ed25519 (key : Nat)
  | other   (type : String)
deriving DecidableEq

def Key.curve : Key → Option Curve
  | ecdsa curve _ => some curve
  | _             => none

def algorithmMatchesKey (alg : String) (key : Key) : Bool :=
  if alg ∈ ["RS256", "RS384", "RS512", "PS256", "PS384", "PS512"] then (key matches .rsa _)
  else if alg = "ES256" then key.curve = some .p256
  else if alg = "ES384" then key.curve = some .p384
  else if alg = "ES512" then key.curve = some .p521
  else if alg = "EdDSA" then (key matches .ed25519 _)
  else false

-- A value in the header or in the claims of a token. An element of a list is either a string or not.
inductive Claim
  | string (s : String)
  | number (q : ℚ)
  | list   (elems : List (Option String))
  | other
deriving DecidableEq

abbrev Claims := String → Option Claim

-- The type assertion `claims[name].(string)`
def Claims.string (claims : Claims) (name : String) : Option String :=
  match claims name with
  | some (.string s) => some s
  | _                => none

def audienceContains (v : Option Claim) (want : String) : Bool :=
  match v with
  | some (.string s)   => s = want
  | some (.list elems) => some want ∈ elems
  | _                  => false

def stringSlice (v : Option Claim) : List String :=
  match v with
  | some (.string s)   => [s]
  | some (.list elems) => elems.reduceOption
  | _                  => []

-- A token as the JWT library hands it out: the name of its signing method, which is
-- `tok.Method.Alg()`, and its header.
structure Token where
  method : String
  header : Claims

-- What `ParseWithClaims` leaves behind if it returns no error: the token, whether it is marked as
-- valid, and the claims.
structure Parsed where
  token  : Option Token
  valid  : Bool
  claims : Claims

-- The options that the validators give to the parser, besides `WithExpirationRequired`, with what
-- the clock shows.
structure ParserOptions where
  validMethods : List String
  leeway       : Int
  now          : Int

-- The functions of the libraries: `ParseWithClaims` of a parser with the given options, whose error
-- is a text, `uuid.Parse`, and the format `%q`.
structure Jwt where
  parseWithClaims : ParserOptions → (Token → Except Err Key) → String → Except String Parsed
  parseUUID       : String → Option UUID
  quote           : String → String

namespace Jwt

variable (J : Jwt)

def unauthorized (text : String) : Err :=
  (Err.sentinel .unauthorized).wrap "" (": " ++ text)

def typOK (typ : String) : Bool :=
  typ.toList.map Text.toLower ∈ ["".toList, "jwt".toList, "at+jwt".toList]

def identity (claims : Claims) : Identity where
  subjectID := ((claims.string "sub").bind J.parseUUID).getD 0
  tenantID  := ((claims.string "tenant_id").bind J.parseUUID).getD 0
  roles     := (stringSlice (claims "roles")).map Role.ofText
  scopes    := (Text.fields ((claims.string "scope").getD "").toList).map String.ofList ++
    stringSlice (claims "scopes")
  issuer    := (claims.string "iss").getD ""
  tokenID   := (claims.string "jti").getD ""

def principalFromClaims (r : Except String Parsed) (issuer audience : String) : Except Err Identity :=
  match r with
  | .error text => throw (unauthorized text)
  | .ok r       =>
    match r.token.filter fun _ => r.valid with
    | none     => throw (.sentinel .unauthorized)
    | some tok =>
      match tok.header.string "typ" with
      | some typ =>
        if typOK typ then checked r.claims else throw (unauthorized ("unexpected typ " ++ J.quote typ))
      | none => checked r.claims
where
  checked (claims : Claims) : Except Err Identity :=
    if issuer ≠ "" ∧ (claims.string "iss").getD "" ≠ issuer then throw (unauthorized "bad issuer")
    else if audience ≠ "" ∧ !audienceContains (claims "aud") audience then
      throw (unauthorized "bad audience")
    else pure (J.identity claims)

end Jwt

structure HMACValidator where
  secret      : List UInt8
  issuer      : String
  audience    : String
  allowedAlgs : List String
  leeway      : Int

def HMACValidator.validate (v : HMACValidator) (J : Jwt) (now : Int) (raw : String) :
    Except Err Identity :=
  let allowed := if v.allowedAlgs = [] then ["HS256"] else v.allowedAlgs
  J.principalFromClaims (J.parseWithClaims ⟨allowed, v.leeway, now⟩ (fun _ => pure (.secret v.secret)) raw)
    v.issuer v.audience

-- The keys have distinct names.
structure StaticKeyValidator where
  keys        : List (String × Key)
  defaultKey  : Option Key
  issuer      : String
  audience    : String
  allowedAlgs : List String
  leeway      : Int

namespace StaticKeyValidator

variable (v : StaticKeyValidator)

def keyForToken (tok : Token) : Except Err Key :=
  match (tok.header.string "kid").filter (· ≠ "") with
  | some kid =>
    match v.keys.lookup kid with
    | none     => throw (Jwt.unauthorized "unknown kid")
    | some key => pure key
  | none =>
    match v.defaultKey, v.keys with
    | some key, _          => pure key
    | none,     [(_, key)] => pure key
    | none,     _          => throw (Jwt.unauthorized "missing kid")

def keyFunc (tok : Token) : Except Err Key := do
  let key ← v.keyForToken tok
  if !algorithmMatchesKey tok.method key then
    throw (Jwt.unauthorized "signing algorithm does not match public key type")
  else pure key

def validate (J : Jwt) (now : Int) (raw : String) : Except Err Identity :=
  let allowed := if v.allowedAlgs = [] then ["RS256", "ES256", "EdDSA"] else v.allowedAlgs
  J.principalFromClaims (J.parseWithClaims ⟨allowed, v.leeway, now⟩ v.keyFunc raw) v.issuer v.audience

end StaticKeyValidator

-- Keys from PEM files.

structure Block where
  type  : String
  bytes : List UInt8
deriving DecidableEq

-- The blocks that `pem.Decode` finds one after the other, the parsers of the `x509` package, whose
-- errors are texts, and the format `%q`.
structure X509 where
  blocks           : List UInt8 → List Block
  parsePKIX        : List UInt8 → Except String Key
  parsePKCS1       : List UInt8 → Except String Nat
  parseCertificate : List UInt8 → Except String Key
  quote            : String → String

def supportedPublicKey : Key → Except Err Key
  | .other type  => throw (.new ("auth: unsupported public key type " ++ type))
  | .secret _    => throw (.new "auth: unsupported public key type []uint8")
  | key          => pure key

namespace X509

variable (X : X509)

def parsePublicKeyBlock (block : Block) : Except Err Key :=
  if block.type = "PUBLIC KEY" then
    match X.parsePKIX block.bytes with
    | .error text => throw (.new ("auth: parse public key: " ++ text))
    | .ok key     => supportedPublicKey key
  else if block.type = "RSA PUBLIC KEY" then
    match X.parsePKCS1 block.bytes with
    | .error text => throw (.new ("auth: parse rsa public key: " ++ text))
    | .ok key     => pure (.rsa key)
  else if block.type = "CERTIFICATE" then
    match X.parseCertificate block.bytes with
    | .error text => throw (.new ("auth: parse certificate: " ++ text))
    | .ok key     => supportedPublicKey key
  else throw (.new ("auth: unsupported PEM block " ++ X.quote block.type))

def parsePublicKeysPEM (pemBytes : List UInt8) : Except Err (List Key) := do
  let keys ← (X.blocks pemBytes).mapM X.parsePublicKeyBlock
  if keys = [] then throw (.new "auth: no public keys found in PEM") else pure keys

def newStaticKeyValidatorFromPEM (pemBytes : List UInt8) (issuer audience : String)
    (allowedAlgs : List String) : Except Err StaticKeyValidator := do
  match ← X.parsePublicKeysPEM pemBytes with
  | [key] =>
    pure
      { keys        := []
        defaultKey  := some key
        issuer      := issuer
        audience    := audience
        allowedAlgs := allowedAlgs
        leeway      := 30 * 10 ^ 9 }
  | keys => throw (.new ("auth: expected exactly one public key PEM, got " ++ toString keys.length))

end X509

inductive Validator
  | hmac       (v : HMACValidator)
  | staticKeys (v : StaticKeyValidator)

def Validator.validate (J : Jwt) (now : Int) (raw : String) : Validator → Except Err Identity
  | hmac v       => v.validate J now raw
  | staticKeys v => v.validate J now raw

-- Tokens for tests and for the command line.

-- `NewWithClaims` and `SignedString`: a token with the given header and claims.
structure Signer where
  signedString : List (String × Claim) → List (String × Claim) → List UInt8 → Except Err String

def devHeader : List (String × Claim) :=
  [("typ", .string "at+jwt"), ("alg", .string "HS256")]

-- Whole seconds since 1970.
def unix (t : Int) : Int :=
  t / 10 ^ 9

def devClaims (issuer audience : String) (p : Identity) (ttl now : Int) (jti : UUID) :
    List (String × Claim) :=
  [("iss",   .string issuer),
   ("aud",   .string audience),
   ("sub",   .string p.subjectID.string),
   ("iat",   .number (unix now)),
   ("nbf",   .number (unix now)),
   ("exp",   .number (unix (now + ttl))),
   ("jti",   .string jti.string),
   ("roles", .list (p.roles.map fun r => some r.text)),
   ("scope", .string (" ".intercalate p.scopes))] ++
  if p.tenantID ≠ 0 then [("tenant_id", .string p.tenantID.string)] else []

-- The clock is read once, and the identifier of the token is new.
def issueDevToken (S : Signer) (secret : List UInt8) (issuer audience : String) (p : Identity)
    (ttl now : Int) (jti : UUID) : Except Err String :=
  if secret = [] then throw (.new "auth: empty signing secret")
  else S.signedString devHeader (devClaims issuer audience p ttl now jti) secret

end Auth
