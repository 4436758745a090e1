import AwgRest.Server.Config

open Domain

-- Which tokens are accepted.
namespace Auth

-- What the JWT library decides by itself: how a text is taken apart, whether its signature is by a
-- key, and whether claims are valid at a time, with a leeway.
structure Library where
  decode : String → Option (Token × Claims)
  signed : String → Key → String → Prop
  inTime : Claims → (leeway now : Int) → Prop

-- A text is a token with these claims, by a method that the parser takes, signed with the key, and
-- valid now.
structure Library.Verified (L : Library) (o : ParserOptions) (raw : String) (tok : Token)
    (claims : Claims) (key : Key) : Prop where
  decoded : L.decode raw = some (tok, claims)
  method  : tok.method ∈ o.validMethods
  signed  : L.signed tok.method key raw
  inTime  : L.inTime claims o.leeway o.now

-- The assumption on the library: `ParseWithClaims` returns the token and its claims if they are
-- verified with the key that the caller has for the token, and an error otherwise.
structure Jwt.Implements (J : Jwt) (L : Library) : Prop where
  sound    : ∀ {o keyFunc raw r}, J.parseWithClaims o keyFunc raw = .ok r → ∃ tok claims key,
    r = ⟨some tok, true, claims⟩ ∧ keyFunc tok = .ok key ∧ L.Verified o raw tok claims key
  complete : ∀ {o keyFunc raw tok claims key}, keyFunc tok = .ok key →
    L.Verified o raw tok claims key →
    J.parseWithClaims o keyFunc raw = .ok ⟨some tok, true, claims⟩

namespace Jwt

variable {J : Jwt} {tok : Token} {claims : Claims} {p : Identity} {issuer audience : String}

-- What is compared with the configuration, if it says anything.
structure Pinned (tok : Token) (claims : Claims) (issuer audience : String) : Prop where
  typ      : ∀ typ, tok.header.string "typ" = some typ → typOK typ
  issuer   : issuer ≠ "" → (claims.string "iss").getD "" = issuer
  audience : audience ≠ "" → audienceContains (claims "aud") audience

theorem checked_eq_ok_iff : principalFromClaims.checked J issuer audience claims = .ok p ↔
    (issuer ≠ "" → (claims.string "iss").getD "" = issuer) ∧
    (audience ≠ "" → audienceContains (claims "aud") audience) ∧ p = J.identity claims := by
  unfold principalFromClaims.checked
  split
  case isTrue h =>
    exact iff_of_false nofun fun hp => h.2 (hp.1 h.1)
  case isFalse h =>
    have hiss : issuer ≠ "" → (claims.string "iss").getD "" = issuer :=
      fun hne => not_not.mp (not_and.mp h hne)
    split
    case isTrue ha  => exact iff_of_false nofun fun hp => by simp [hp.2.1 ha.1] at ha
    case isFalse ha =>
      have haud : audience ≠ "" → audienceContains (claims "aud") audience = true :=
        fun hne => by simpa [hne] using ha
      constructor
      · intro h
        cases h
        exact ⟨hiss, haud, rfl⟩
      · rintro ⟨_, _, rfl⟩
        rfl

theorem principalFromClaims_valid_iff :
    J.principalFromClaims (.ok ⟨some tok, true, claims⟩) issuer audience = .ok p ↔
      Pinned tok claims issuer audience ∧ p = J.identity claims := by
  unfold principalFromClaims
  dsimp only [Option.filter_some]
  simp only [if_true]
  split
  case h_1 typ htyp =>
    split
    case isTrue hok =>
      rw [checked_eq_ok_iff]
      constructor
      · rintro ⟨hiss, haud, rfl⟩
        exact ⟨⟨fun t ht => Option.some.inj (htyp.symm.trans ht) ▸ hok, hiss, haud⟩, rfl⟩
      · rintro ⟨⟨_, hiss, haud⟩, rfl⟩
        exact ⟨hiss, haud, rfl⟩
    case isFalse hno =>
      refine iff_of_false nofun ?_
      rintro ⟨⟨hok, _, _⟩, _⟩
      exact hno (hok typ htyp)
  case h_2 htyp =>
    rw [checked_eq_ok_iff]
    constructor
    · rintro ⟨hiss, haud, rfl⟩
      exact ⟨⟨fun t ht => absurd ht (by simp [htyp]), hiss, haud⟩, rfl⟩
    · rintro ⟨⟨_, hiss, haud⟩, rfl⟩
      exact ⟨hiss, haud, rfl⟩

-- Which tokens a validator accepts, in terms of what the library decides.
theorem Implements.accepts_iff {L : Library} (hJ : J.Implements L) {o : ParserOptions}
    {keyFunc : Token → Except Err Key} {raw : String} :
    J.principalFromClaims (J.parseWithClaims o keyFunc raw) issuer audience = .ok p ↔
      ∃ tok claims key, keyFunc tok = .ok key ∧ L.Verified o raw tok claims key ∧
        Pinned tok claims issuer audience ∧ p = J.identity claims := by
  constructor
  · intro h
    cases hr : J.parseWithClaims o keyFunc raw <;> rw [hr] at h
    case error => cases h
    case ok r  =>
      obtain ⟨tok, claims, key, rfl, hkey, hver⟩ := hJ.sound hr
      exact ⟨tok, claims, key, hkey, hver, principalFromClaims_valid_iff.mp h⟩
  · rintro ⟨tok, claims, key, hkey, hver, hp⟩
    rw [hJ.complete hkey hver]
    exact principalFromClaims_valid_iff.mpr hp

end Jwt
end Auth

namespace Server.Config

open Auth

variable {cfg : Config} {X : X509} {J : Jwt} {L : Library} {v : Validator} {now : Int} {raw : String}
  {p : Identity} {tok : Token} {key : Key}

def allowed (cfg : Config) : List String :=
  if cfg.jwtAllowedAlgs ≠ [] then cfg.jwtAllowedAlgs
  else if cfg.jwtPublicKeyPEM ≠ [] then ["RS256", "ES256", "EdDSA"]
  else ["HS256"]

-- The options of the parser of a configuration.
def parserOptions (cfg : Config) (now : Int) : ParserOptions :=
  ⟨cfg.allowed, 30 * 10 ^ 9, now⟩

-- The key of a configuration for a token. The public key comes first, it has no name, so that a
-- token that asks for a key by its name is not accepted, and the method of the token has to be one
-- for such a key.
inductive Trusts (cfg : Config) (X : X509) (tok : Token) : Key → Prop
  | secret :
    cfg.jwtPublicKeyPEM = [] → cfg.jwtSecret ≠ [] → Trusts cfg X tok (.secret cfg.jwtSecret)
  | publicKey {key : Key} :
    cfg.jwtPublicKeyPEM ≠ [] → X.parsePublicKeysPEM cfg.jwtPublicKeyPEM = .ok [key] →
    algorithmMatchesKey tok.method key → (tok.header.string "kid").getD "" = "" → Trusts cfg X tok key

theorem newStaticKeyValidatorFromPEM_eq_ok {pem : List UInt8} {issuer audience : String}
    {allowedAlgs : List String} {u : StaticKeyValidator}
    (h : X.newStaticKeyValidatorFromPEM pem issuer audience allowedAlgs = .ok u) :
    ∃ key, X.parsePublicKeysPEM pem = .ok [key] ∧
      u = ⟨[], some key, issuer, audience, allowedAlgs, 30 * 10 ^ 9⟩ := by
  unfold X509.newStaticKeyValidatorFromPEM at h
  cases hk : X.parsePublicKeysPEM pem <;> rw [hk] at h
  case error => cases h
  case ok keys =>
    rcases keys with _ | ⟨key, _ | ⟨key', keys⟩⟩ <;> cases h
    exact ⟨key, rfl, rfl⟩

-- Whatever is configured, the validator is of the one kind or of the other.
theorem buildJWTValidator_cases (h : cfg.buildJWTValidator X = .ok v) :
    (cfg.jwtPublicKeyPEM = [] ∧ cfg.jwtSecret ≠ [] ∧
      v = .hmac ⟨cfg.jwtSecret, cfg.jwtIssuer, cfg.jwtAudience, cfg.jwtAllowedAlgs, 30 * 10 ^ 9⟩) ∨
    ∃ key, cfg.jwtPublicKeyPEM ≠ [] ∧ X.parsePublicKeysPEM cfg.jwtPublicKeyPEM = .ok [key] ∧
      v = .staticKeys ⟨[], some key, cfg.jwtIssuer, cfg.jwtAudience,
        cfg.jwtAllowedAlgs, 30 * 10 ^ 9⟩ := by
  unfold buildJWTValidator at h
  split at h
  case isTrue hp =>
    cases hu : X.newStaticKeyValidatorFromPEM cfg.jwtPublicKeyPEM cfg.jwtIssuer cfg.jwtAudience
      cfg.jwtAllowedAlgs <;> rw [hu] at h <;> cases h
    obtain ⟨key, hk, rfl⟩ := newStaticKeyValidatorFromPEM_eq_ok hu
    exact .inr ⟨key, hp, hk, rfl⟩
  case isFalse hp =>
    split at h
    case isTrue     => cases h
    case isFalse hs =>
      cases h
      exact .inl ⟨not_not.mp hp, hs, rfl⟩

section KeyFunc

variable {issuer audience : String} {allowedAlgs : List String} {leeway : Int} {k : Key}

theorem keyForToken_eq :
    (StaticKeyValidator.mk [] (some k) issuer audience allowedAlgs leeway).keyForToken tok =
      if (tok.header.string "kid").getD "" = "" then pure k
      else throw (Jwt.unauthorized "unknown kid") := by
  unfold StaticKeyValidator.keyForToken
  cases tok.header.string "kid"
  case none     => rfl
  case some kid =>
    by_cases he : kid = ""
    · simp [he, Option.filter_some]
    · simp [he, Option.filter_some]

theorem keyFunc_eq_ok_iff :
    (StaticKeyValidator.mk [] (some k) issuer audience allowedAlgs leeway).keyFunc tok = .ok key ↔
      key = k ∧ algorithmMatchesKey tok.method k ∧ (tok.header.string "kid").getD "" = "" := by
  rw [StaticKeyValidator.keyFunc, keyForToken_eq]
  split
  case isFalse hkid => exact iff_of_false nofun fun h => hkid h.2.2
  case isTrue hkid  =>
    cases hm : algorithmMatchesKey tok.method k
    case false => exact iff_of_false (by simp [hm, pure_bind]) fun h => Bool.false_ne_true h.2.1
    case true  =>
      simp only [pure_bind, hm, Bool.not_true, Bool.false_eq_true, if_false, hkid, and_true]
      exact ⟨fun h => (Except.ok.inj h).symm, fun h => congrArg Except.ok h.symm⟩

end KeyFunc

-- Methods for public keys only.
def asymmetric : List String :=
  ["RS256", "RS384", "RS512", "PS256", "PS384", "PS512", "ES256", "ES384", "ES512", "EdDSA"]

theorem mem_asymmetric {alg : String} (h : algorithmMatchesKey alg key) : alg ∈ asymmetric := by
  unfold algorithmMatchesKey at h
  unfold asymmetric
  split at h
  case isTrue hr => simp only [List.mem_cons, List.not_mem_nil, or_false] at hr ⊢; tauto
  case isFalse =>
  repeat'
    split at h
    case isTrue he => simp [he]
  cases h

-- A token is accepted exactly if it is signed with the key that the configuration has for it, by a
-- method that is allowed, and is valid now for the configured issuer and audience.
theorem validate_eq_ok_iff (hJ : J.Implements L) (hv : cfg.buildJWTValidator X = .ok v) :
    v.validate J now raw = .ok p ↔ ∃ tok claims key, Trusts cfg X tok key ∧
      L.Verified (cfg.parserOptions now) raw tok claims key ∧
      Jwt.Pinned tok claims cfg.jwtIssuer cfg.jwtAudience ∧ p = J.identity claims := by
  rcases buildJWTValidator_cases hv with ⟨hpem, hsec, rfl⟩ | ⟨k, hpem, hkeys, rfl⟩
  case inl =>
    have hallowed : (if cfg.jwtAllowedAlgs = [] then ["HS256"] else cfg.jwtAllowedAlgs) =
        cfg.allowed := by
      simp [allowed, hpem]
    simp only [Validator.validate, HMACValidator.validate, hallowed, hJ.accepts_iff]
    constructor
    · rintro ⟨tok, claims, key, hkey, hver, hpin⟩
      cases hkey
      exact ⟨tok, claims, _, .secret hpem hsec, hver, hpin⟩
    · rintro ⟨tok, claims, key, htrust, hver, hpin⟩
      rcases htrust with _ | ⟨hne, _⟩
      case secret    => exact ⟨tok, claims, _, rfl, hver, hpin⟩
      case publicKey => exact absurd hpem hne
  case inr =>
    have hallowed : (if cfg.jwtAllowedAlgs = [] then ["RS256", "ES256", "EdDSA"]
        else cfg.jwtAllowedAlgs) = cfg.allowed := by
      simp [allowed, hpem]
    simp only [Validator.validate, StaticKeyValidator.validate, hallowed, hJ.accepts_iff]
    constructor
    · rintro ⟨tok, claims, key, hkey, hver, hpin⟩
      obtain ⟨rfl, hmatch, hkid⟩ := keyFunc_eq_ok_iff.mp hkey
      exact ⟨tok, claims, _, .publicKey hpem hkeys hmatch hkid, hver, hpin⟩
    · rintro ⟨tok, claims, key, htrust, hver, hpin⟩
      rcases htrust with ⟨hnil, _⟩ | ⟨_, hk, hmatch, hkid⟩
      case secret    => exact absurd hnil hpem
      case publicKey =>
        obtain rfl : k = key := by simpa using hkeys.symm.trans hk
        exact ⟨tok, claims, _, keyFunc_eq_ok_iff.mpr ⟨rfl, hmatch, hkid⟩, hver, hpin⟩

theorem exists_validator_iff : (∃ v, cfg.buildJWTValidator X = .ok v) ↔
    (cfg.jwtPublicKeyPEM = [] ∧ cfg.jwtSecret ≠ []) ∨
    (cfg.jwtPublicKeyPEM ≠ [] ∧ ∃ key, X.parsePublicKeysPEM cfg.jwtPublicKeyPEM = .ok [key]) := by
  constructor
  · rintro ⟨v, hv⟩
    rcases buildJWTValidator_cases hv with ⟨hpem, hsec, _⟩ | ⟨key, hpem, hkey, _⟩
    · exact .inl ⟨hpem, hsec⟩
    · exact .inr ⟨hpem, key, hkey⟩
  · rintro (⟨hpem, hsec⟩ | ⟨hpem, key, hkey⟩)
    · exact ⟨_, by rw [buildJWTValidator, if_neg (not_not.mpr hpem), if_neg hsec]; rfl⟩
    · refine ⟨.staticKeys
        ⟨[], some key, cfg.jwtIssuer, cfg.jwtAudience, cfg.jwtAllowedAlgs, 30 * 10 ^ 9⟩, ?_⟩
      rw [buildJWTValidator, if_pos hpem, X509.newStaticKeyValidatorFromPEM, hkey]
      rfl

-- With a public key, a token with a method for secrets, or for none, is not accepted, whatever is
-- allowed.
theorem method_of_publicKey (hpem : cfg.jwtPublicKeyPEM ≠ []) (h : Trusts cfg X tok key) :
    tok.method ∈ asymmetric := by
  rcases h with ⟨hnil, _⟩ | ⟨_, _, hmatch, _⟩
  case secret    => exact absurd hnil hpem
  case publicKey => exact mem_asymmetric hmatch

-- The API does not start without a key, and the key decides which tokens there are.
theorem authentication (cfg : Config) (X : X509) (J : Jwt) {L : Library} (hJ : J.Implements L) :
    ((∃ v, cfg.buildJWTValidator X = .ok v) ↔
      (cfg.jwtPublicKeyPEM = [] ∧ cfg.jwtSecret ≠ []) ∨
      (cfg.jwtPublicKeyPEM ≠ [] ∧ ∃ key, X.parsePublicKeysPEM cfg.jwtPublicKeyPEM = .ok [key])) ∧
    ∀ v, cfg.buildJWTValidator X = .ok v → ∀ now raw p,
      (v.validate J now raw = .ok p ↔ ∃ tok claims key, Trusts cfg X tok key ∧
        L.Verified (cfg.parserOptions now) raw tok claims key ∧
        Jwt.Pinned tok claims cfg.jwtIssuer cfg.jwtAudience ∧ p = J.identity claims) ∧
      (cfg.jwtPublicKeyPEM ≠ [] → v.validate J now raw = .ok p →
        ∃ tok claims, L.decode raw = some (tok, claims) ∧ tok.method ∈ asymmetric) := by
  refine ⟨exists_validator_iff, fun v hv now raw p => ⟨validate_eq_ok_iff hJ hv, fun hpem h => ?_⟩⟩
  obtain ⟨tok, claims, key, htrust, hver, _⟩ := (validate_eq_ok_iff hJ hv).mp h
  exact ⟨tok, claims, hver.decoded, method_of_publicKey hpem htrust⟩

end Server.Config

-- A library that knows some tokens, each with the key that it was signed with.
namespace Auth.Sample

structure Issued where
  raw    : String
  method : String
  header : List (String × Claim) := []
  claims : List (String × Claim)
  key    : Key

def Issued.token (x : Issued) : Token :=
  ⟨x.method, (x.header.lookup ·)⟩

def inTime (claims : Claims) (leeway now : Int) : Bool :=
  (match claims "exp" with
    | some (.number t) => (now : ℚ) < t * 10 ^ 9 + leeway
    | _                => false) &&
  (match claims "nbf" with
    | some (.number t) => t * 10 ^ 9 - leeway ≤ (now : ℚ)
    | some _           => false
    | none             => true)

def library (known : List Issued) : Library where
  decode raw               := (known.find? (·.raw = raw)).map fun x => (x.token, (x.claims.lookup ·))
  signed method key raw    :=
    ∃ x, known.find? (·.raw = raw) = some x ∧ x.method = method ∧ x.key = key
  inTime claims leeway now := inTime claims leeway now

def jwt (known : List Issued) (parseUUID : String → Option UUID) : Jwt where
  parseWithClaims o keyFunc raw :=
    match known.find? (·.raw = raw) with
    | none   => .error "token is malformed"
    | some x =>
      if x.method ∉ o.validMethods then .error "signing method is invalid"
      else match keyFunc x.token with
        | .error e => .error e.text
        | .ok key  =>
          if key ≠ x.key then .error "signature is invalid"
          else if !inTime (x.claims.lookup ·) o.leeway o.now then .error "claims are invalid"
          else .ok ⟨some x.token, true, (x.claims.lookup ·)⟩
  parseUUID := parseUUID
  quote s   := s

theorem jwt_implements (known : List Issued) (parseUUID : String → Option UUID) :
    (jwt known parseUUID).Implements (library known) where
  sound {o keyFunc raw r} h := by
    dsimp only [jwt] at h
    split at h
    case h_1 => cases h
    case h_2 x hx =>
    split at h
    case isTrue => cases h
    case isFalse hm =>
    split at h
    case h_1 => cases h
    case h_2 key hkey =>
    split at h
    case isTrue => cases h
    case isFalse hk =>
    split at h
    case isTrue => cases h
    case isFalse ht =>
    cases h
    obtain rfl := not_not.mp hk
    have ht : inTime (x.claims.lookup ·) o.leeway o.now = true := by simpa using ht
    exact ⟨x.token, _, x.key, rfl, hkey, by simp [library, hx], not_not.mp hm, ⟨x, hx, rfl, rfl⟩, ht⟩
  complete {o keyFunc raw tok claims key} hkey h := by
    obtain ⟨hd, hm, ⟨x, hx, -, rfl⟩, ht⟩ := h
    obtain ⟨x', hx', hd⟩ := Option.map_eq_some_iff.mp hd
    obtain rfl : x = x' := Option.some.inj (hx.symm.trans hx')
    cases hd
    have hm : x.method ∈ o.validMethods := hm
    have ht : inTime (x.claims.lookup ·) o.leeway o.now = true := ht
    simp [jwt, hx, hm, hkey, ht]

end Auth.Sample

namespace Server.Config

open Auth

namespace Sample

def claims : List (String × Claim) :=
  [("exp", .number 100), ("roles", .list [some "tenant_admin", none])]

-- A token for each kind of key, and one that is signed with the text of the public key as a secret.
def known : List Auth.Sample.Issued :=
  [⟨"hmac", "HS256", [], claims, .secret [1]⟩, ⟨"rsa", "RS256", [], claims, .rsa 7⟩,
    ⟨"forged", "HS256", [], claims, .secret [0]⟩]

def jwt : Jwt :=
  Auth.Sample.jwt known fun _ => none

def config (pem : List UInt8) : Config where
  databaseURL     := ""
  jwtSecret       := [1]
  jwtPublicKeyPEM := pem
  jwtIssuer       := ""
  jwtAudience     := ""
  jwtAllowedAlgs  := ["HS256", "RS256", "none"]
  idempotencyTTL  := 0
  rateCapacity    := 0
  rateRefillPerS  := 0
  clientDNS       := []

def x509 : X509 where
  blocks _           := [⟨"RSA PUBLIC KEY", []⟩]
  parsePKIX _        := .error ""
  parsePKCS1 _       := .ok 7
  parseCertificate _ := .error ""
  quote s            := s

end Sample

-- Both configurations allow the same algorithms, and each accepts the token for its key only.
theorem authentication_sample :
    (∃ v, (Sample.config []).buildJWTValidator Sample.x509 = .ok v ∧
      v.validate Sample.jwt 0 "hmac" = .ok { roles := [.tenantAdmin] } ∧
      ∀ p, v.validate Sample.jwt 0 "rsa" ≠ .ok p) ∧
    ∃ v, (Sample.config [0]).buildJWTValidator Sample.x509 = .ok v ∧
      v.validate Sample.jwt 0 "rsa" = .ok { roles := [.tenantAdmin] } ∧
      (∀ p, v.validate Sample.jwt 0 "hmac" ≠ .ok p) ∧
      ∀ p, v.validate Sample.jwt 0 "forged" ≠ .ok p := by
  have hJ := Auth.Sample.jwt_implements Sample.known fun _ => none
  have hs := (authentication (Sample.config []) Sample.x509 Sample.jwt hJ).2 _ rfl 0
  have hp := (authentication (Sample.config [0]) Sample.x509 Sample.jwt hJ).2 _ rfl 0
  have ht : Auth.Sample.inTime (Sample.claims.lookup ·) (30 * 10 ^ 9) 0 = true := by decide +kernel
  refine ⟨⟨_, rfl, (hs "hmac" _).1.mpr ?_, fun p h => ?_⟩, _, rfl, (hp "rsa" _).1.mpr ?_,
    fun p h => ?_, fun p h => ?_⟩
  · exact ⟨_, _, _, .secret rfl (by decide), ⟨rfl, by decide, ⟨_, rfl, rfl, rfl⟩, ht⟩,
      ⟨nofun, by decide, by decide⟩, by decide⟩
  · obtain ⟨tok, claims, key, htrust, ⟨-, -, ⟨x, hx, -, rfl⟩, -⟩, -⟩ := (hs "rsa" p).1.mp h
    cases hx
    rcases htrust with _ | ⟨hne, _⟩
    exact hne rfl
  · exact ⟨_, _, _, .publicKey (by decide) rfl rfl rfl, ⟨rfl, by decide, ⟨_, rfl, rfl, rfl⟩, ht⟩,
      ⟨nofun, by decide, by decide⟩, by decide⟩
  all_goals
    obtain ⟨tok, claims, hd, hm⟩ := (hp _ p).2 (by decide) h
    cases hd
    exact absurd hm (by decide)

end Server.Config
