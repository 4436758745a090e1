import AwgRest.Domain
import AwgRest.Lib.Text
import AwgRest.Lib.Base64

namespace Domain

inductive ProtocolVersion
  | v1
  | v2
  | v31
  | other (text : String)
deriving DecidableEq

structure IntRange where
  min : Int
  max : Int
deriving DecidableEq

namespace IntRange

def string (r : IntRange) : String :=
  if r.min = r.max then toString r.min else toString r.min ++ "-" ++ toString r.max

def isRange (r : IntRange) : Bool :=
  r.min ≠ r.max

-- `rangesOverlap`
def overlaps (a b : IntRange) : Bool :=
  a.min ≤ b.max ∧ b.min ≤ a.max

end IntRange

structure Uint16Range where
  min : BitVec 16 := 0
  max : BitVec 16 := 0
deriving DecidableEq

namespace Uint16Range

def string (r : Uint16Range) : String :=
  if r.min = r.max then toString r.min.toNat else toString r.min.toNat ++ "-" ++ toString r.max.toNat

def isZero (r : Uint16Range) : Bool :=
  r.min = 0 ∧ r.max = 0

def valid (r : Uint16Range) : Bool :=
  r.min ≤ r.max

end Uint16Range

inductive ListenPortPolicy
  | unset
  | fixed
  | managed
  | other (text : String)
deriving DecidableEq

structure ProtocolProfile where
  id                     : UUID
  name                   : String
  protocolVersion        : ProtocolVersion
  jc                     : Int
  jmin                   : Int
  jmax                   : Int
  s1                     : Int
  s2                     : Int
  s3                     : Int := 0
  s4                     : Int := 0
  h1                     : IntRange
  h2                     : IntRange
  h3                     : IntRange
  h4                     : IntRange
  i1                     : String := ""
  i2                     : String := ""
  i3                     : String := ""
  i4                     : String := ""
  i5                     : String := ""
  headerProtectionKey    : String := ""
  contentPaddingAddition : Uint16Range := {}
  rekeyAfterTime         : Uint16Range := {}
  rekeyTimeout           : Uint16Range := {}
  rejectAfterTime        : Uint16Range := {}
  keepaliveTimeout       : Uint16Range := {}
  maxHandshakeAttempts   : Uint16Range := {}
  persistentKeepalive    : Uint16Range := {}
  randomTrailers         : Bool := false
  disableCookies         : Bool := false
  listenPortPolicy       : ListenPortPolicy := .unset
deriving DecidableEq

def awgStringMax : Nat := 5 * 1024 - 1
def jcMax        : Int := 10
def junkSizeMin  : Int := 1
def junkSizeMax  : Int := 1280
def s1Max        : Int := 1132
def s2Max        : Int := 1188
def s3Max        : Int := 64
def s4Max        : Int := 32

-- `strconv.Atoi`
def atoi (s : List Char) : Option Int :=
  match s with
  | '-' :: ds => (digits ds).map (-·)
  | '+' :: ds => digits ds
  | ds        => digits ds
  |>.filter (fun n => -2 ^ 63 ≤ n ∧ n < 2 ^ 63)
where
  digits (ds : List Char) : Option Int :=
    if ds ≠ [] ∧ ds.all Char.isDigit then
      some (ds.foldl (fun n c => n * 10 + (c.toNat - '0'.toNat : Nat)) 0)
    else none

def isHexDigit (c : Char) : Bool :=
  c.isDigit ∨ ('a' ≤ c ∧ c ≤ 'f') ∨ ('A' ≤ c ∧ c ≤ 'F')

-- The fields of one tag of a special-junk value, and the length that it is known to add.
def junkTag (fields : List (List Char)) : Except String Int :=
  match fields with
  | [] => throw "special-junk tag must not be empty"
  | tag :: args =>
    let name := String.ofList tag
    match name, args with
    | "b", [arg] =>
      let raw := if ['0', 'x'].isPrefixOf arg then arg.drop 2 else arg
      if raw = [] ∨ (String.ofList raw).utf8ByteSize % 2 ≠ 0 then
        throw "<b> requires a non-empty even-length hex argument"
      else if raw.all isHexDigit then pure (raw.length / 2)
      else throw "<b> contains invalid hex"
    | "b", _ => throw "<b> requires exactly one hex argument"
    | "t", [] => pure 4
    | "t", _ => throw "<t> does not accept arguments"
    | "d", [] | "ds", [] => pure 0
    | "d", _ | "ds", _ => throw ("<" ++ name ++ "> does not accept arguments")
    | "r", [arg] | "rc", [arg] | "rd", [arg] | "dz", [arg] =>
      match atoi arg with
      | some n =>
        if n < 0 then throw ("<" ++ name ++ "> size must be a non-negative integer")
        else if n > junkSizeMax then
          throw ("<" ++ name ++ "> size must be <= " ++ toString junkSizeMax)
        else pure n
      | none => throw ("<" ++ name ++ "> size must be a non-negative integer")
    | "r", _ | "rc", _ | "rd", _ | "dz", _ =>
      throw ("<" ++ name ++ "> requires exactly one size argument")
    | _, _ => throw ("unknown special-junk tag <" ++ name ++ ">")

-- Goes through a special-junk value character by character. `inside` holds what was read of the tag
-- that is open, in reverse.
def junkScan (totalFixed : Int) (tagCount : Nat) : Option (List Char) → List Char → Except String Unit
  | some _, [] => throw "special-junk tag is missing closing '>'"
  | none,   [] =>
    if tagCount = 0 then throw "special-junk value must contain at least one supported tag"
    else pure ()
  | none, c :: cs =>
    if c = '<' then junkScan totalFixed tagCount (some []) cs
    else junkScan totalFixed tagCount none cs
  | some tag, c :: cs =>
    if c = '>' then
      match junkTag (Text.fields tag.reverse) with
      | .error e => throw e
      | .ok n =>
        if totalFixed + n > junkSizeMax then
          throw ("special-junk fixed output must be <= " ++ toString junkSizeMax ++ " bytes")
        else junkScan (totalFixed + n) (tagCount + 1) none cs
    else junkScan totalFixed tagCount (some (c :: tag)) cs

def validateSpecialJunk (spec : String) : Except String Unit :=
  junkScan 0 0 none spec.toList

def validBase64Key (s : String) : Bool :=
  let s := String.ofList (Text.trimSpace s.toList)
  s ≠ "" ∧ (Base64.decodeString s).any (·.length = 32)

namespace ProtocolProfile

def isV31 (p : ProtocolProfile) : Bool :=
  p.protocolVersion = .v31

def supportsV2Fields (p : ProtocolProfile) : Bool :=
  p.protocolVersion = .v2 ∨ p.protocolVersion = .v31

def hasV31OnlyValues (p : ProtocolProfile) : Bool :=
  p.headerProtectionKey ≠ "" ∨ !p.contentPaddingAddition.isZero ∨ !p.rekeyAfterTime.isZero ∨
  !p.rekeyTimeout.isZero ∨ !p.rejectAfterTime.isZero ∨ !p.keepaliveTimeout.isZero ∨
  !p.maxHandshakeAttempts.isZero ∨ !p.persistentKeepalive.isZero ∨ p.randomTrailers ∨
  p.disableCookies

-- One check of `Validate`: the error that it appends where the condition holds.
def failIf (bad : Bool) (field code message : String) : List ValidationError :=
  if bad then [⟨field, code, message⟩] else []

def checkInt (field : String) (v lo hi : Int) : List ValidationError :=
  failIf (v < lo ∨ v > hi) field "out_of_range"
    ("must be in [" ++ toString lo ++ ", " ++ toString hi ++ "], got " ++ toString v)

def checkJunk (field value : String) : List ValidationError :=
  if value.utf8ByteSize > awgStringMax then
    [⟨field, "too_long",
      "must be at most " ++ toString awgStringMax ++ " bytes, got " ++ toString value.utf8ByteSize⟩]
  else if value ≠ "" then
    match validateSpecialJunk value with
    | .ok _    => []
    | .error e => [⟨field, "invalid_obfuscation", e⟩]
  else []

def checkHeader (version : ProtocolVersion) (field : String) (r : IntRange) : List ValidationError :=
  failIf (r.min < 0 ∨ r.max < 0 ∨ r.max > 0xFFFFFFFF) field "out_of_range"
    "H values must fit in uint32" ++
  failIf (r.min > r.max) field "invalid" "min > max" ++
  failIf (version = .v1 ∧ r.min ≠ r.max) field "unsupported"
    "H ranges require v2 or v3.1; v1 requires single values"

def checkPadding (field : String) (v : Int) : List ValidationError :=
  failIf (v < 12) field "header_protection_padding"
    "must be at least 12 when HeaderProtectionKey is enabled"

def checkRange (field : String) (r : Uint16Range) : List ValidationError :=
  failIf (!r.valid) field "invalid" "range min must be <= max"

def validateJunk (p : ProtocolProfile) : List ValidationError :=
  checkInt "jc" p.jc 0 jcMax ++
  (if p.jmin = 0 ∧ p.jmax = 0 then
    failIf (p.jc > 0) "jmin" "required" "jmin/jmax are required when jc > 0"
  else
    checkInt "jmin" p.jmin junkSizeMin junkSizeMax ++ checkInt "jmax" p.jmax junkSizeMin junkSizeMax) ++
  failIf (p.jmin > p.jmax) "jmin" "invalid" "jmin must be <= jmax"

def validateV2Fields (p : ProtocolProfile) : List ValidationError :=
  if p.supportsV2Fields then
    checkInt "s3" p.s3 0 s3Max ++ checkInt "s4" p.s4 0 s4Max ++
    checkJunk "i1" p.i1 ++ checkJunk "i2" p.i2 ++ checkJunk "i3" p.i3 ++ checkJunk "i4" p.i4 ++
    checkJunk "i5" p.i5
  else
    failIf (p.s3 ≠ 0 ∨ p.s4 ≠ 0) "s3" "unsupported" "S3/S4 require v2 or v3.1" ++
    failIf (p.i1 ≠ "" ∨ p.i2 ≠ "" ∨ p.i3 ≠ "" ∨ p.i4 ≠ "" ∨ p.i5 ≠ "") "i1" "unsupported"
      "I1-I5 require v2 or v3.1"

def validateHeaders (p : ProtocolProfile) : List ValidationError :=
  checkHeader p.protocolVersion "h1" p.h1 ++ checkHeader p.protocolVersion "h2" p.h2 ++
  checkHeader p.protocolVersion "h3" p.h3 ++ checkHeader p.protocolVersion "h4" p.h4 ++
  failIf
    (p.h1.overlaps p.h2 ∨ p.h1.overlaps p.h3 ∨ p.h1.overlaps p.h4 ∨ p.h2.overlaps p.h3 ∨
      p.h2.overlaps p.h4 ∨ p.h3.overlaps p.h4)
    "h1" "overlap" "H1, H2, H3, H4 must be pairwise disjoint"

def validateV31Fields (p : ProtocolProfile) : List ValidationError :=
  if p.isV31 then
    failIf (!validBase64Key p.headerProtectionKey) "header_protection_key" "invalid"
      "must be a base64-encoded 32-byte key for v3.1" ++
    checkPadding "s1" p.s1 ++ checkPadding "s2" p.s2 ++ checkPadding "s3" p.s3 ++
    checkPadding "s4" p.s4 ++
    checkRange "content_padding_addition" p.contentPaddingAddition ++
    checkRange "rekey_after_time" p.rekeyAfterTime ++
    checkRange "rekey_timeout" p.rekeyTimeout ++
    checkRange "reject_after_time" p.rejectAfterTime ++
    checkRange "keepalive_timeout" p.keepaliveTimeout ++
    checkRange "max_handshake_attempts" p.maxHandshakeAttempts ++
    checkRange "persistent_keepalive" p.persistentKeepalive ++
    failIf (p.randomTrailers ∧ (p.h1.isRange ∨ p.h2.isRange ∨ p.h3.isRange)) "random_trailers"
      "unsafe_header_range"
      "RandomTrailers with ranged H1-H3 is disabled until upstream packet classification is verified safe"
  else
    failIf p.hasV31OnlyValues "header_protection_key" "unsupported"
      "V3.1 parameters require protocol_version 'v3.1'"

def validatePolicy (p : ProtocolProfile) : List ValidationError :=
  match p.listenPortPolicy with
  | .unset | .fixed | .managed => []
  | .other _ => [⟨"listen_port_policy", "unsupported", "must be 'fixed' or 'managed'"⟩]

-- The errors of `Validate`, which accepts a profile if there are none. An unknown version is reported
-- without looking at the other fields.
def validate (p : ProtocolProfile) : List ValidationError :=
  let name := failIf (Text.trimSpace p.name.toList = []) "name" "required" "name is required"
  match p.protocolVersion with
  | .other _ => name ++ [⟨"protocol_version", "unsupported", "must be 'v1', 'v2', or 'v3.1'"⟩]
  | _ =>
    name ++ p.validateJunk ++ checkInt "s1" p.s1 0 s1Max ++ checkInt "s2" p.s2 0 s2Max ++
    p.validateV2Fields ++ p.validateHeaders ++ p.validateV31Fields ++ p.validatePolicy

section Accepted

variable {p : ProtocolProfile} {field : String} {r : IntRange}

@[simp]
theorem failIf_eq_nil {bad : Bool} {code message : String} :
    failIf bad field code message = [] ↔ bad = false := by
  cases bad <;> simp [failIf]

@[simp]
theorem checkInt_eq_nil {v lo hi : Int} : checkInt field v lo hi = [] ↔ lo ≤ v ∧ v ≤ hi := by
  simp [checkInt]

theorem checkHeader_eq_nil {version : ProtocolVersion} :
    checkHeader version field r = [] ↔
      0 ≤ r.min ∧ r.min ≤ r.max ∧ r.max ≤ 0xFFFFFFFF ∧ (version = .v1 → r.min = r.max) := by
  simp only [checkHeader, List.append_eq_nil_iff, failIf_eq_nil, decide_eq_false_iff_not]
  by_cases hv : version = .v1 <;> simp [hv] <;> omega

-- The checks that an accepted profile has passed.
structure Accepted (p : ProtocolProfile) : Prop where
  version : p.protocolVersion = .v1 ∨ p.protocolVersion = .v2 ∨ p.protocolVersion = .v31
  junk    : p.validateJunk = []
  s1      : 0 ≤ p.s1 ∧ p.s1 ≤ s1Max
  s2      : 0 ≤ p.s2 ∧ p.s2 ≤ s2Max
  v2      : p.validateV2Fields = []
  headers : p.validateHeaders = []
  v31     : p.validateV31Fields = []
  policy  : p.validatePolicy = []

theorem accepted_of_validate (h : p.validate = []) : p.Accepted := by
  have hv : p.protocolVersion = .v1 ∨ p.protocolVersion = .v2 ∨ p.protocolVersion = .v31 := by
    cases hp : p.protocolVersion <;> simp [validate, hp] at h ⊢
  unfold validate at h
  split at h
  case _ hp => simp [hp] at hv
  case _ =>
    simp only [List.append_eq_nil_iff, checkInt_eq_nil] at h
    obtain ⟨⟨⟨⟨⟨⟨⟨_, hj⟩, h1⟩, h2⟩, hv2⟩, hh⟩, hv31⟩, hp⟩ := h
    exact ⟨hv, hj, h1, h2, hv2, hh, hv31, hp⟩

end Accepted

end ProtocolProfile
end Domain
