import AwgRest.Profile

open Domain

-- The columns of `protocol_profiles`, and how a profile is written to them and read back.
namespace Store

-- The two columns of an optional range.
structure RangeColumns where
  lo : Option (BitVec 32)
  hi : Option (BitVec 32)
deriving DecidableEq

-- A row but for its identifier, which the database generates.
structure ProfileColumns where
  name                   : String
  protocolVersion        : String
  jc                     : Int
  jmin                   : Int
  jmax                   : Int
  s1                     : Int
  s2                     : Int
  s3                     : Int
  s4                     : Int
  h1Min                  : Int
  h1Max                  : Int
  h2Min                  : Int
  h2Max                  : Int
  h3Min                  : Int
  h3Max                  : Int
  h4Min                  : Int
  h4Max                  : Int
  i1                     : Option String
  i2                     : Option String
  i3                     : Option String
  i4                     : Option String
  i5                     : Option String
  listenPortPolicy       : String
  headerProtectionKey    : Option String
  contentPaddingAddition : RangeColumns
  rekeyAfterTime         : RangeColumns
  rekeyTimeout           : RangeColumns
  rejectAfterTime        : RangeColumns
  keepaliveTimeout       : RangeColumns
  maxHandshakeAttempts   : RangeColumns
  persistentKeepalive    : RangeColumns
  randomTrailers         : Option Bool
  disableCookies         : Option Bool
deriving DecidableEq

def versionText : ProtocolVersion → String
  | .v1         => "v1"
  | .v2         => "v2"
  | .v31        => "v3.1"
  | .other text => text

def versionOf (text : String) : ProtocolVersion :=
  if text = "v1" then .v1 else if text = "v2" then .v2 else if text = "v3.1" then .v31 else .other text

def policyText : ListenPortPolicy → String
  | .unset      => ""
  | .fixed      => "fixed"
  | .managed    => "managed"
  | .other text => text

def policyOf (text : String) : ListenPortPolicy :=
  if text = "" then .unset else if text = "fixed" then .fixed else if text = "managed" then .managed
  else .other text

def rangeDB (enabled : Bool) (r : Uint16Range) : RangeColumns :=
  if !enabled || r.isZero then ⟨none, none⟩
  else ⟨some (r.min.setWidth 32), some (r.max.setWidth 32)⟩

def rangeFromDB (c : RangeColumns) : Uint16Range :=
  match c.lo, c.hi with
  | some lo, some hi => ⟨lo.setWidth 16, hi.setWidth 16⟩
  | _,       _       => {}

def nullable (s : String) : Option String :=
  if s = "" then none else some s

def nullableWhen (enabled : Bool) (s : String) : Option String :=
  if enabled then nullable s else none

def boolWhen (enabled v : Bool) : Option Bool :=
  if enabled then some v else none

-- The arguments of the statement of `insertProfile`.
def columns (p : ProtocolProfile) : ProfileColumns where
  name                   := p.name
  protocolVersion        := versionText p.protocolVersion
  jc                     := p.jc
  jmin                   := p.jmin
  jmax                   := p.jmax
  s1                     := p.s1
  s2                     := p.s2
  s3                     := p.s3
  s4                     := p.s4
  h1Min                  := p.h1.min
  h1Max                  := p.h1.max
  h2Min                  := p.h2.min
  h2Max                  := p.h2.max
  h3Min                  := p.h3.min
  h3Max                  := p.h3.max
  h4Min                  := p.h4.min
  h4Max                  := p.h4.max
  i1                     := nullable p.i1
  i2                     := nullable p.i2
  i3                     := nullable p.i3
  i4                     := nullable p.i4
  i5                     := nullable p.i5
  listenPortPolicy       := policyText p.listenPortPolicy
  headerProtectionKey    := nullableWhen p.isV31 p.headerProtectionKey
  contentPaddingAddition := rangeDB p.isV31 p.contentPaddingAddition
  rekeyAfterTime         := rangeDB p.isV31 p.rekeyAfterTime
  rekeyTimeout           := rangeDB p.isV31 p.rekeyTimeout
  rejectAfterTime        := rangeDB p.isV31 p.rejectAfterTime
  keepaliveTimeout       := rangeDB p.isV31 p.keepaliveTimeout
  maxHandshakeAttempts   := rangeDB p.isV31 p.maxHandshakeAttempts
  persistentKeepalive    := rangeDB p.isV31 p.persistentKeepalive
  randomTrailers         := boolWhen p.isV31 p.randomTrailers
  disableCookies         := boolWhen p.isV31 p.disableCookies

def scanProfile (id : UUID) (c : ProfileColumns) : ProtocolProfile where
  id                     := id
  name                   := c.name
  protocolVersion        := versionOf c.protocolVersion
  jc                     := c.jc
  jmin                   := c.jmin
  jmax                   := c.jmax
  s1                     := c.s1
  s2                     := c.s2
  s3                     := c.s3
  s4                     := c.s4
  h1                     := ⟨c.h1Min, c.h1Max⟩
  h2                     := ⟨c.h2Min, c.h2Max⟩
  h3                     := ⟨c.h3Min, c.h3Max⟩
  h4                     := ⟨c.h4Min, c.h4Max⟩
  i1                     := c.i1.getD ""
  i2                     := c.i2.getD ""
  i3                     := c.i3.getD ""
  i4                     := c.i4.getD ""
  i5                     := c.i5.getD ""
  headerProtectionKey    := c.headerProtectionKey.getD ""
  contentPaddingAddition := rangeFromDB c.contentPaddingAddition
  rekeyAfterTime         := rangeFromDB c.rekeyAfterTime
  rekeyTimeout           := rangeFromDB c.rekeyTimeout
  rejectAfterTime        := rangeFromDB c.rejectAfterTime
  keepaliveTimeout       := rangeFromDB c.keepaliveTimeout
  maxHandshakeAttempts   := rangeFromDB c.maxHandshakeAttempts
  persistentKeepalive    := rangeFromDB c.persistentKeepalive
  randomTrailers         := c.randomTrailers.getD false
  disableCookies         := c.disableCookies.getD false
  listenPortPolicy       := policyOf c.listenPortPolicy

namespace ProfileColumns

def ranges (c : ProfileColumns) : List RangeColumns :=
  [c.contentPaddingAddition, c.rekeyAfterTime, c.rekeyTimeout, c.rejectAfterTime, c.keepaliveTimeout,
    c.maxHandshakeAttempts, c.persistentKeepalive]

def ints (c : ProfileColumns) : List Int :=
  [c.jc, c.jmin, c.jmax, c.s1, c.s2, c.s3, c.s4]

def bigints (c : ProfileColumns) : List Int :=
  [c.h1Min, c.h1Max, c.h2Min, c.h2Max, c.h3Min, c.h3Max, c.h4Min, c.h4Max]

-- The types `INT` and `BIGINT`. The columns of the ranges are given as values of type `INT`.
structure Fits (c : ProfileColumns) : Prop where
  int    : ∀ v ∈ c.ints, -2 ^ 31 ≤ v ∧ v < 2 ^ 31
  bigint : ∀ v ∈ c.bigints, -2 ^ 63 ≤ v ∧ v < 2 ^ 63

-- The constraints of the third migration.

def U16Check (v : Option (BitVec 32)) : Prop :=
  ∀ x ∈ v, 0 ≤ x.toInt ∧ x.toInt ≤ 65535

def OrderCheck (c : RangeColumns) : Prop :=
  ∀ lo ∈ c.lo, ∀ hi ∈ c.hi, lo.toInt ≤ hi.toInt

def VersionCheck (c : ProfileColumns) : Prop :=
  c.protocolVersion ∈ ["v1", "v2", "v3.1"]

def PairCompletenessCheck (c : ProfileColumns) : Prop :=
  ∀ r ∈ c.ranges, r.lo.isNone = r.hi.isNone

def LegacyNullCheck (c : ProfileColumns) : Prop :=
  c.protocolVersion = "v3.1" ∨
  c.headerProtectionKey = none ∧ (∀ r ∈ c.ranges, r.lo = none ∧ r.hi = none) ∧
  c.randomTrailers = none ∧ c.disableCookies = none

def RequiredCheck (c : ProfileColumns) : Prop :=
  c.protocolVersion ≠ "v3.1" ∨
  (∃ key ∈ c.headerProtectionKey, 0 < key.length) ∧ c.randomTrailers ≠ none ∧ c.disableCookies ≠ none

structure Checked (c : ProfileColumns) : Prop where
  u16      : ∀ r ∈ c.ranges, U16Check r.lo ∧ U16Check r.hi
  order    : ∀ r ∈ c.ranges, OrderCheck r
  version  : c.VersionCheck
  complete : c.PairCompletenessCheck
  legacy   : c.LegacyNullCheck
  required : c.RequiredCheck

end ProfileColumns

section RoundTrip

variable {p : ProtocolProfile} {r : Uint16Range} {b : Bool}

@[simp]
theorem getD_nullable (s : String) : (nullable s).getD "" = s := by
  unfold nullable
  split <;> simp_all

theorem rangeFromDB_rangeDB (h : b = false → r.isZero = true) : rangeFromDB (rangeDB b r) = r := by
  have hz (hr : r.isZero = true) : ({} : Uint16Range) = r := by
    obtain ⟨h₁, h₂⟩ := of_decide_eq_true hr
    cases r
    simp_all
  unfold rangeDB
  split
  case isTrue hc =>
    refine hz ?_
    cases b <;> simp_all
  case isFalse => simp [rangeFromDB, BitVec.setWidth_setWidth_of_le]

theorem toInt_setWidth (v : BitVec 16) : (v.setWidth 32).toInt = v.toNat := by
  have := v.isLt
  rw [BitVec.toInt_eq_toNat_cond, BitVec.toNat_setWidth, Nat.mod_eq_of_lt (by omega)]
  exact if_pos (by omega)

theorem u16Check_setWidth (v : BitVec 16) : ProfileColumns.U16Check (some (v.setWidth 32)) := by
  rintro _ ⟨⟩
  rw [toInt_setWidth]
  have := v.isLt
  omega

theorem u16Check_rangeDB :
    ProfileColumns.U16Check (rangeDB b r).lo ∧ ProfileColumns.U16Check (rangeDB b r).hi := by
  unfold rangeDB
  split
  · exact ⟨fun _ h => absurd h (Option.not_mem_none _), fun _ h => absurd h (Option.not_mem_none _)⟩
  · exact ⟨u16Check_setWidth _, u16Check_setWidth _⟩

theorem orderCheck_rangeDB (h : r.valid = true) : ProfileColumns.OrderCheck (rangeDB b r) := by
  unfold rangeDB
  split
  · exact fun _ h => absurd h (Option.not_mem_none _)
  · rintro _ ⟨⟩ _ ⟨⟩
    rw [toInt_setWidth, toInt_setWidth]
    exact_mod_cast BitVec.le_def.mp (of_decide_eq_true h)

theorem isNone_rangeDB : (rangeDB b r).lo.isNone = (rangeDB b r).hi.isNone := by
  unfold rangeDB
  split <;> rfl

end RoundTrip

section Accepted

variable {p : ProtocolProfile}

def ranges (p : ProtocolProfile) : List Uint16Range :=
  [p.contentPaddingAddition, p.rekeyAfterTime, p.rekeyTimeout, p.rejectAfterTime, p.keepaliveTimeout,
    p.maxHandshakeAttempts, p.persistentKeepalive]

theorem ranges_columns : (columns p).ranges = (ranges p).map (rangeDB p.isV31) :=
  rfl

theorem versionText_eq_v31 (h : p.Accepted) :
    versionText p.protocolVersion = "v3.1" ↔ p.isV31 = true := by
  rcases h.version with hv | hv | hv <;> simp [hv, versionText, ProtocolProfile.isV31]

-- Profiles of older versions have none of the values of v3.1.
theorem legacy_of_accepted (h : p.Accepted) (hv : p.isV31 = false) :
    p.headerProtectionKey = "" ∧ (∀ r ∈ ranges p, r.isZero = true) ∧ p.randomTrailers = false ∧
      p.disableCookies = false := by
  have hl := h.v31
  simp only [ProtocolProfile.validateV31Fields, hv, Bool.false_eq_true, if_false,
    ProtocolProfile.failIf_eq_nil, ProtocolProfile.hasV31OnlyValues, decide_eq_false_iff_not,
    not_or, Bool.not_eq_true', Bool.not_eq_false, Bool.not_eq_true, ne_eq, not_not] at hl
  obtain ⟨hk, h₁, h₂, h₃, h₄, h₅, h₆, h₇, ht, hd⟩ := hl
  simp only [ranges, List.forall_mem_cons, List.not_mem_nil, false_imp_iff, implies_true, and_true]
  exact ⟨hk, ⟨h₁, h₂, h₃, h₄, h₅, h₆, h₇⟩, ht, hd⟩

theorem ordered_of_accepted (h : p.Accepted) : ∀ r ∈ ranges p, r.valid = true := by
  cases hv : p.isV31
  case false =>
    intro r hr
    obtain ⟨h₁, h₂⟩ := of_decide_eq_true ((legacy_of_accepted h hv).2.1 r hr)
    simp [Uint16Range.valid, h₁, h₂]
  case true =>
    have hl := h.v31
    simp only [ProtocolProfile.validateV31Fields, hv, if_true, List.append_eq_nil_iff,
      ProtocolProfile.checkRange, ProtocolProfile.failIf_eq_nil, Bool.not_eq_false'] at hl
    obtain ⟨⟨⟨⟨⟨⟨⟨⟨_, h₁⟩, h₂⟩, h₃⟩, h₄⟩, h₅⟩, h₆⟩, h₇⟩, _⟩ := hl
    simp only [ranges, List.forall_mem_cons, List.not_mem_nil, false_imp_iff, implies_true, and_true]
    exact ⟨h₁, h₂, h₃, h₄, h₅, h₆, h₇⟩

theorem key_of_accepted (h : p.Accepted) (hv : p.isV31 = true) : p.headerProtectionKey ≠ "" := by
  have hl := h.v31
  simp only [ProtocolProfile.validateV31Fields, hv, if_true, List.append_eq_nil_iff,
    ProtocolProfile.failIf_eq_nil, Bool.not_eq_false'] at hl
  intro hk
  simp [hk, validBase64Key, Text.trimSpace, Text.trimBy] at hl

theorem fits_columns (h : p.Accepted) : (columns p).Fits := by
  have hj := h.junk
  have h2 := h.v2
  have hh := h.headers
  simp only [ProtocolProfile.validateJunk, List.append_eq_nil_iff, ProtocolProfile.checkInt_eq_nil,
    jcMax] at hj
  simp only [ProtocolProfile.validateHeaders, List.append_eq_nil_iff,
    ProtocolProfile.checkHeader_eq_nil] at hh
  have hs : (0 ≤ p.s3 ∧ p.s3 ≤ 64) ∧ 0 ≤ p.s4 ∧ p.s4 ≤ 64 := by
    unfold ProtocolProfile.validateV2Fields at h2
    split at h2 <;>
      simp only [List.append_eq_nil_iff, ProtocolProfile.checkInt_eq_nil, s3Max, s4Max,
        ProtocolProfile.failIf_eq_nil, decide_eq_false_iff_not, not_or,
          not_not, ne_eq] at h2 <;> omega
  have hm : (0 ≤ p.jmin ∧ p.jmin ≤ 1280) ∧ 0 ≤ p.jmax ∧ p.jmax ≤ 1280 := by
    have hm := hj.1.2
    split at hm
    · omega
    · simp only [List.append_eq_nil_iff, ProtocolProfile.checkInt_eq_nil,
        junkSizeMin, junkSizeMax] at hm
      omega
  have h₁ := h.s1
  have h₂ := h.s2
  simp only [s1Max, s2Max] at h₁ h₂
  constructor
  case int =>
    simp only [ProfileColumns.ints, columns, List.forall_mem_cons, List.not_mem_nil, false_imp_iff,
      implies_true, and_true]
    omega
  case bigint =>
    simp only [ProfileColumns.bigints, columns, List.forall_mem_cons, List.not_mem_nil, false_imp_iff,
      implies_true, and_true]
    omega

theorem checked_columns (h : p.Accepted) : (columns p).Checked where
  u16 := by
    rw [ranges_columns]
    exact List.forall_mem_map.mpr fun r _ => u16Check_rangeDB
  order := by
    rw [ranges_columns]
    exact List.forall_mem_map.mpr fun r hr => orderCheck_rangeDB (ordered_of_accepted h r hr)
  version := by
    rcases h.version with hv | hv | hv <;> simp [ProfileColumns.VersionCheck, columns,
      versionText, hv]
  complete := by
    rw [ProfileColumns.PairCompletenessCheck, ranges_columns]
    exact List.forall_mem_map.mpr fun r _ => isNone_rangeDB
  legacy := by
    refine or_iff_not_imp_left.mpr fun hv => ?_
    have hv : p.isV31 = false := by simpa using (versionText_eq_v31 h).not.mp hv
    rw [ranges_columns]
    refine ⟨?_, List.forall_mem_map.mpr fun r hr => ?_, ?_, ?_⟩ <;>
      simp [columns, nullableWhen, boolWhen, rangeDB, hv]
  required := by
    refine or_iff_not_imp_left.mpr fun hv => ?_
    have hv : p.isV31 = true := (versionText_eq_v31 h).mp (not_not.mp hv)
    have hk := key_of_accepted h hv
    have hl : 0 < p.headerProtectionKey.length := by
      rw [← String.length_toList]
      exact List.length_pos_iff.mpr fun hn => hk (String.toList_eq_nil_iff.mp hn)
    exact ⟨⟨_, by simp [columns, nullableWhen, nullable, hv, hk], hl⟩, by simp [columns, boolWhen, hv],
      by simp [columns, boolWhen, hv]⟩

theorem scanProfile_columns (h : p.Accepted) (id : UUID) :
    scanProfile id (columns p) = { p with id } := by
  have hr : ∀ r ∈ ranges p, rangeFromDB (rangeDB p.isV31 r) = r := fun r hr =>
    rangeFromDB_rangeDB fun hv => (legacy_of_accepted h hv).2.1 r hr
  have hb (v : Bool) (hv : p.isV31 = false → v = false) : (boolWhen p.isV31 v).getD false = v := by
    cases hp : p.isV31 <;> simp_all [boolWhen]
  have hk : (nullableWhen p.isV31 p.headerProtectionKey).getD "" = p.headerProtectionKey := by
    cases hp : p.isV31
    case true  => simp [nullableWhen]
    case false => simp [nullableWhen, (legacy_of_accepted h hp).1]
  have hver : versionOf (versionText p.protocolVersion) = p.protocolVersion := by
    rcases h.version with hv | hv | hv <;> rw [hv] <;> rfl
  have hpol : policyOf (policyText p.listenPortPolicy) = p.listenPortPolicy := by
    have hp := h.policy
    unfold ProtocolProfile.validatePolicy at hp
    cases hl : p.listenPortPolicy
    case other text => simp [hl] at hp
    all_goals rfl
  simp only [ranges, List.forall_mem_cons, List.not_mem_nil, false_imp_iff,
    implies_true, and_true] at hr
  obtain ⟨h₁, h₂, h₃, h₄, h₅, h₆, h₇⟩ := hr
  simp only [scanProfile, columns, getD_nullable, hver, hpol, hk, h₁, h₂, h₃, h₄, h₅, h₆, h₇,
    hb p.randomTrailers fun hv => (legacy_of_accepted h hv).2.2.1,
    hb p.disableCookies fun hv => (legacy_of_accepted h hv).2.2.2]

-- Every profile that `Validate` accepts is accepted by the table, and read back as it was written.
theorem profile_persists (h : p.validate = []) (id : UUID) :
    (columns p).Fits ∧ (columns p).Checked ∧ scanProfile id (columns p) = { p with id } :=
  have ha := ProtocolProfile.accepted_of_validate h
  ⟨fits_columns ha, checked_columns ha, scanProfile_columns ha id⟩

theorem profile_persists_v31 :
    ∃ p : ProtocolProfile, p.isV31 = true ∧ p.i1 = "<t>" ∧ p.rekeyTimeout = ⟨3, 7⟩ ∧
      (columns p).Fits ∧ (columns p).Checked ∧ scanProfile 7 (columns p) = { p with id := 7 } := by
  let p : ProtocolProfile :=
    { id                  := 0
      name                := "canary"
      protocolVersion     := .v31
      jc                  := 5
      jmin                := 10
      jmax                := 50
      s1                  := 12
      s2                  := 12
      s3                  := 12
      s4                  := 12
      h1                  := ⟨1, 1⟩
      h2                  := ⟨2, 2⟩
      h3                  := ⟨3, 3⟩
      h4                  := ⟨4, 2 ^ 32 - 1⟩
      i1                  := "<t>"
      headerProtectionKey := "AAAAAAAAAAAAAAAAAAAAAAAAAAAAAAAAAAAAAAAAAAA="
      rekeyTimeout        := ⟨3, 7⟩
      randomTrailers      := true
      listenPortPolicy    := .fixed }
  exact ⟨p, rfl, rfl, rfl, profile_persists (p := p) (by decide +kernel) 7⟩

end Accepted

end Store
