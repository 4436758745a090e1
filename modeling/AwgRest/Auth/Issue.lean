import AwgRest.Auth.Acceptance
import Mathlib.Data.List.Nodup

open Domain

namespace Text

variable {s t w : List Char}

-- What `strings.Fields` gives back.
def IsWord (w : List Char) : Prop :=
  w ≠ [] ∧ ∀ c ∈ w, isSpace c = false

theorem fields_append_blank : fields (s ++ ' ' :: t) = fields s ++ fields t := by
  rw [fields, List.splitOnP_append_cons s t (by decide), List.filter_append]
  rfl

theorem fields_intercalate (ls : List (List Char)) :
    fields ([' '].intercalate ls) = ls.flatMap fields := by
  induction ls
  case nil => rfl
  case cons l ls ih =>
    cases ls
    case nil         => simp
    case cons l' ls' =>
      rw [List.intercalate_cons_cons, List.append_assoc, List.singleton_append,
        fields_append_blank, ih]
      rfl

theorem fields_word (h : IsWord w) : fields w = [w] := by
  rw [fields, List.splitOnP_eq_singleton h.2]
  simp [h.1]

theorem of_mem_splitOnP {α : Type} {p : α → Bool} {xs l : List α} (h : l ∈ xs.splitOnP p) :
    ∀ c ∈ l, p c = false := by
  induction xs generalizing l
  case nil          => simp_all
  case cons x xs ih =>
    rw [List.splitOnP_cons_eq_if_modifyHead] at h
    split at h
    case isTrue  =>
      rcases List.mem_cons.mp h with rfl | h
      · exact nofun
      · exact ih h
    case isFalse hx =>
      cases hs : xs.splitOnP p
      case nil         => exact absurd hs (List.splitOnP_ne_nil p xs)
      case cons l' ls' =>
        rw [hs] at ih h
        rcases List.mem_cons.mp h with rfl | h
        · intro c hc
          rcases List.mem_cons.mp hc with rfl | hc
          · exact Bool.eq_false_of_not_eq_true hx
          · exact ih (List.mem_cons_self ..) c hc
        · exact ih (List.mem_cons_of_mem _ h)

theorem isWord_of_mem_fields (h : w ∈ fields s) : IsWord w := by
  obtain ⟨hm, hn⟩ := List.mem_filter.mp h
  exact ⟨by simpa using hn, of_mem_splitOnP hm⟩

-- Words survive being joined, and nothing else does.
theorem flatMap_fields_eq_self_iff {ls : List (List Char)} :
    ls.flatMap fields = ls ↔ ∀ l ∈ ls, IsWord l := by
  constructor
  · intro h l hl
    rw [← h] at hl
    obtain ⟨s, _, hs⟩ := List.mem_flatMap.mp hl
    exact isWord_of_mem_fields hs
  · intro h
    induction ls
    case nil          => rfl
    case cons l ls ih =>
      rw [List.flatMap_cons, fields_word (h l (List.mem_cons_self ..)),
        ih fun l hl => h l (List.mem_cons_of_mem _ hl)]
      rfl

end Text

namespace Auth

variable {S : Signer} {J : Jwt} {L : Library} {issuer audience : String} {p : Identity}
  {ttl now : Int} {jti : UUID}

-- The assumption on the tokens that the library makes: it finds their header and their claims
-- again, and they are signed with the secret.
structure Library.Signs (L : Library) (S : Signer) (header claims : List (String × Claim))
    (secret : List UInt8) : Prop where
  decoded : ∀ {raw}, S.signedString header claims secret = .ok raw →
    L.decode raw = some (⟨"HS256", (header.lookup ·)⟩, (claims.lookup ·))
  signed  : ∀ {raw}, S.signedString header claims secret = .ok raw →
    L.signed "HS256" (.secret secret) raw

-- The assumption on times: `nbf` and `exp` are compared with the clock, in whole seconds. A zero
-- counts as missing.
structure Library.Timed (L : Library) : Prop where
  inTime : ∀ {claims : Claims} {nbf exp leeway now : Int}, claims "nbf" = some (.number nbf) →
    claims "exp" = some (.number exp) → nbf ≠ 0 → exp ≠ 0 →
    (L.inTime claims leeway now ↔ nbf * 10 ^ 9 - leeway ≤ now ∧ now < exp * 10 ^ 9 + leeway)

def words (scopes : List String) : List String :=
  (scopes.flatMap fun s => Text.fields s.toList).map String.ofList

theorem words_eq_self_iff {scopes : List String} :
    words scopes = scopes ↔ ∀ s ∈ scopes, Text.IsWord s.toList := by
  have hflat : (scopes.flatMap fun s => Text.fields s.toList) =
      (scopes.map String.toList).flatMap Text.fields := by
    rw [List.flatMap_map]
  have hinj : words scopes = scopes ↔
      (scopes.map String.toList).flatMap Text.fields = scopes.map String.toList := by
    rw [words, hflat]
    constructor
    · intro h
      conv_rhs => rw [← h]
      simp
    · intro h
      rw [h]
      simp
  rw [hinj, Text.flatMap_fields_eq_self_iff]
  simp

-- What is read back from the claims of a token.
section Claims

variable {claims : Claims} (h : claims = (List.lookup · (devClaims issuer audience p ttl now jti)))

include h

theorem devClaims_inTime (hL : L.Timed) {leeway t : Int} (hnow : 10 ^ 9 ≤ now)
    (hexp : 10 ^ 9 ≤ now + ttl) :
    L.inTime claims leeway t ↔ unix now * 10 ^ 9 - leeway ≤ t ∧
      t < unix (now + ttl) * 10 ^ 9 + leeway := by
  have h₁ : unix now ≠ 0 := by unfold unix; omega
  have h₂ : unix (now + ttl) ≠ 0 := by unfold unix; omega
  exact hL.inTime (by rw [h]; rfl) (by rw [h]; rfl) h₁ h₂

theorem devClaims_identity (hu : ∀ id ∈ [p.subjectID, p.tenantID], J.parseUUID id.string = some id)
    (hr : ∀ r ∈ p.roles, Role.ofText r.text = r) :
    J.identity claims = { p with scopes := words p.scopes, issuer := issuer, tokenID := jti.string } := by
  have hsub : claims.string "sub" = some p.subjectID.string := by subst h; rfl
  have hroles : claims "roles" = some (.list (p.roles.map fun r => some r.text)) := h ▸ rfl
  have hscope : claims.string "scope" = some (" ".intercalate p.scopes) := by subst h; rfl
  have hiss : claims.string "iss" = some issuer := by subst h; rfl
  have hjti : claims.string "jti" = some jti.string := by subst h; rfl
  have htenant : ((claims.string "tenant_id").bind J.parseUUID).getD 0 = p.tenantID := by
    by_cases ht : p.tenantID = 0
    · have hnone : claims "tenant_id" = none := by
        subst h
        rw [devClaims, if_neg (not_not.mpr ht)]
        rfl
      rw [Claims.string, hnone, ht]
      rfl
    · have hsome : claims "tenant_id" = some (.string p.tenantID.string) := by
        subst h
        rw [devClaims, if_pos ht]
        rfl
      rw [Claims.string, hsome]
      exact congrArg (·.getD 0) (hu p.tenantID (by simp))
  have hscopes : claims "scopes" = none := by
    subst h
    unfold devClaims
    split <;> rfl
  have hjoin : Text.fields (" ".intercalate p.scopes).toList =
      p.scopes.flatMap fun s => Text.fields s.toList := by
    rw [String.toList_intercalate, show " ".toList = [' '] from rfl, Text.fields_intercalate,
      List.flatMap_map]
  have hback : (p.roles.map fun r => some r.text).reduceOption.map Role.ofText = p.roles := by
    have htexts : (p.roles.map fun r => some r.text).reduceOption = p.roles.map Role.text := by
      show (p.roles.map fun r => some r.text).filterMap id = p.roles.map Role.text
      simp [List.filterMap_map]
    rw [htexts, List.map_map]
    exact (List.map_congr_left hr).trans (List.map_id _)
  simp only [Jwt.identity, hsub, htenant, hroles, hscope, hiss, hjti, hscopes, stringSlice,
    Option.bind_some, hu p.subjectID (by simp), Option.getD_some, hjoin, hback, List.append_nil,
    words]

end Claims
end Auth

namespace Server.Config

open Auth

variable {cfg : Config} {X : X509} {v : Validator} {S : Signer} {J : Jwt} {L : Library} {p : Identity}
  {ttl now : Int} {jti : UUID} {raw : String} {tok : Token} {claims : Claims}

theorem trusts_hs256_iff {key : Key} (hs : cfg.jwtSecret ≠ []) (hm : tok.method = "HS256") :
    Trusts cfg X tok key ↔ cfg.jwtPublicKeyPEM = [] ∧ key = .secret cfg.jwtSecret := by
  constructor
  · intro h
    have hpem : cfg.jwtPublicKeyPEM = [] := by
      by_contra hne
      exact absurd (hm ▸ method_of_publicKey hne h) (by decide)
    rcases h with _ | ⟨hne, _⟩
    case secret    => exact ⟨hpem, rfl⟩
    case publicKey => exact absurd hpem hne
  · rintro ⟨hpem, rfl⟩
    exact .secret hpem hs

theorem pinned_dev {issuer audience : String} (h : tok.header = (List.lookup · devHeader))
    (hc : claims = (List.lookup · (devClaims issuer audience p ttl now jti))) :
    Jwt.Pinned tok claims issuer audience where
  typ typ ht := by
    have hat : tok.header.string "typ" = some "at+jwt" := by rw [Claims.string, h]; rfl
    rw [← Option.some.inj (hat.symm.trans ht)]
    decide
  issuer _ := by rw [Claims.string, hc]; rfl
  audience _ := by rw [hc]; exact decide_eq_true rfl

-- A token that is issued for a configuration is accepted by the API with that configuration for as
-- long as it says, unless the API has a public key or does not allow the algorithm. Its bearer is
-- then who it was issued for, with scopes that contain blanks taken apart.
theorem issued_accepted_iff (cfg : Config) (X : X509) (S : Signer) (J : Jwt) {L : Library}
    (p : Identity) (ttl now : Int) (jti : UUID) (hv : cfg.buildJWTValidator X = .ok v)
    (hJ : J.Implements L) (hT : L.Timed)
    (hS : L.Signs S devHeader (devClaims cfg.jwtIssuer cfg.jwtAudience p ttl now jti) cfg.jwtSecret)
    (hraw : issueDevToken S cfg.jwtSecret cfg.jwtIssuer cfg.jwtAudience p ttl now jti = .ok raw)
    (hu : ∀ id ∈ [p.subjectID, p.tenantID], J.parseUUID id.string = some id)
    (hr : ∀ r ∈ p.roles, Role.ofText r.text = r) (hnow : 10 ^ 9 ≤ now) (hexp : 10 ^ 9 ≤ now + ttl) :
    (∀ t p', v.validate J t raw = .ok p' ↔ cfg.jwtPublicKeyPEM = [] ∧ "HS256" ∈ cfg.allowed ∧
      unix now * 10 ^ 9 - 30 * 10 ^ 9 ≤ t ∧ t < unix (now + ttl) * 10 ^ 9 + 30 * 10 ^ 9 ∧
      p' = { p with scopes := words p.scopes, issuer := cfg.jwtIssuer, tokenID := jti.string }) ∧
    (words p.scopes = p.scopes ↔ ∀ s ∈ p.scopes, Text.IsWord s.toList) := by
  refine ⟨fun t p' => ?_, words_eq_self_iff⟩
  have hs : cfg.jwtSecret ≠ [] := by
    rintro hs
    rw [issueDevToken, if_pos hs] at hraw
    cases hraw
  rw [issueDevToken, if_neg hs] at hraw
  have hd := hS.decoded hraw
  generalize hc : (List.lookup · (devClaims cfg.jwtIssuer cfg.jwtAudience p ttl now jti)) =
    claims at hd
  have hid := devClaims_identity (J := J) hc.symm hu hr
  have htime : L.inTime claims (30 * 10 ^ 9) t ↔ _ := devClaims_inTime hc.symm hT hnow hexp
  rw [validate_eq_ok_iff hJ hv]
  constructor
  · rintro ⟨tok, claims', key, htrust, hver, _, rfl⟩
    cases hd.symm.trans hver.decoded
    obtain ⟨hle, hlt⟩ := htime.mp hver.inTime
    exact ⟨((trusts_hs256_iff hs rfl).mp htrust).1, hver.method, hle, hlt, hid⟩
  · rintro ⟨hpem, hal, hle, hlt, rfl⟩
    exact ⟨_, _, _, (trusts_hs256_iff hs rfl).mpr ⟨hpem, rfl⟩,
      ⟨hd, hal, hS.signed hraw, htime.mpr ⟨hle, hlt⟩⟩, pinned_dev rfl hc.symm, hid.symm⟩

namespace Sample

def admin : Identity where
  subjectID := 10
  roles     := [.platformAdmin]
  scopes    := ["a", "b"]

-- The same claims, signed with two secrets.
def signed : List Auth.Sample.Issued :=
  [⟨"ours", "HS256", devHeader, devClaims "" "" admin (60 * 10 ^ 9) (5 * 10 ^ 9) 11, .secret [1]⟩,
    ⟨"theirs", "HS256", devHeader, devClaims "" "" admin (60 * 10 ^ 9) (5 * 10 ^ 9) 11, .secret [2]⟩]

def parseUUID (s : String) : Option UUID :=
  [admin.subjectID, admin.tenantID].find? (·.string = s)

def reader : Jwt :=
  Auth.Sample.jwt signed parseUUID

theorem reader_parseUUID :
    ∀ id ∈ [admin.subjectID, admin.tenantID], reader.parseUUID id.string = some id := by
  have hne : admin.subjectID.string ≠ admin.tenantID.string := by decide +kernel
  have find {a b : UUID} (h : a.string ≠ b.string) :
      ∀ id ∈ [a, b], [a, b].find? (·.string = id.string) = some id := by
    intro id hid
    rcases List.mem_pair.mp hid with rfl | rfl
    · simp
    · simp [h]
  simp only [reader, Auth.Sample.jwt, parseUUID]
  exact find hne

end Sample
end Server.Config

namespace Auth.Sample

def signer (known : List Issued) : Signer where
  signedString header claims secret :=
    match known.find? fun x => x.method = "HS256" ∧ x.header = header ∧ x.claims = claims ∧
      x.key = .secret secret with
    | some x => .ok x.raw
    | none   => .error (.new "unknown")

-- If no two tokens have the same text, what is signed can be read.
theorem library_signs {known : List Issued} (hn : (known.map Issued.raw).Nodup)
    (header claims : List (String × Claim)) (secret : List UInt8) :
    (library known).Signs (signer known) header claims secret := by
  have find {raw : String} (h : (signer known).signedString header claims secret = .ok raw) :
      ∃ x, known.find? (·.raw = raw) = some x ∧ x.method = "HS256" ∧ x.header = header ∧
        x.claims = claims ∧ x.key = .secret secret := by
    dsimp only [signer] at h
    split at h
    case h_2 => cases h
    case h_1 x hx =>
      cases h
      have hp := List.find?_some hx
      have hm := List.mem_of_find?_eq_some hx
      refine ⟨x, ?_, by simpa using hp⟩
      cases hf : known.find? (·.raw = x.raw)
      case none   => exact absurd (decide_eq_true rfl) (List.find?_eq_none.mp hf x hm)
      case some y =>
        have hy : y.raw = x.raw := by simpa using List.find?_some hf
        exact congrArg some (List.inj_on_of_nodup_map hn (List.mem_of_find?_eq_some hf) hm hy)
  constructor
  case decoded =>
    intro raw h
    obtain ⟨x, hx, hm, rfl, rfl, -⟩ := find h
    simp [library, hx, Issued.token, hm]
  case signed =>
    intro raw h
    obtain ⟨x, hx, hm, -, -, hk⟩ := find h
    exact ⟨x, hx, hm, hk⟩

theorem library_timed (known : List Issued) : (library known).Timed where
  inTime {claims nbf exp leeway now} hn he _ _ := by
    show inTime claims leeway now = true ↔ _
    simp only [inTime, hn, he, Bool.and_eq_true, decide_eq_true_eq]
    norm_cast
    exact and_comm

end Auth.Sample

namespace Server.Config

open Auth

theorem issued_accepted_iff_sample :
    ∃ v v' raw, (Sample.config []).buildJWTValidator Sample.x509 = .ok v ∧
      { Sample.config [] with jwtSecret := [2] }.buildJWTValidator Sample.x509 = .ok v' ∧
      issueDevToken (Auth.Sample.signer Sample.signed) [1] "" "" Sample.admin
        (60 * 10 ^ 9) (5 * 10 ^ 9) 11 = .ok raw ∧
      v.validate Sample.reader (94 * 10 ^ 9) raw =
        .ok { Sample.admin with tokenID := (11 : UUID).string } ∧
      (∀ p', v.validate Sample.reader (95 * 10 ^ 9) raw ≠ .ok p') ∧
      v'.validate Sample.reader (94 * 10 ^ 9) raw =
        .error (Jwt.unauthorized "signature is invalid") := by
  have hraw : issueDevToken (Auth.Sample.signer Sample.signed) [1] "" "" Sample.admin (60 * 10 ^ 9)
      (5 * 10 ^ 9) 11 = .ok "ours" := by decide +kernel
  have h := (issued_accepted_iff (Sample.config []) Sample.x509
    (Auth.Sample.signer Sample.signed) Sample.reader Sample.admin (60 * 10 ^ 9) (5 * 10 ^ 9) 11
    rfl (Auth.Sample.jwt_implements ..) (Auth.Sample.library_timed _)
    (Auth.Sample.library_signs (by decide) ..) hraw Sample.reader_parseUUID
    (by decide) (by decide) (by decide)).1
  refine ⟨_, _, "ours", rfl, rfl, hraw,
    (h _ _).mpr ⟨rfl, by decide, by decide, by decide, by decide⟩, fun p' hp => ?_, rfl⟩
  exact absurd ((h _ _).mp hp).2.2.2.1 (by decide)

end Server.Config
