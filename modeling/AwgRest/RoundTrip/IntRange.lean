import AwgRest.Dump
import AwgRest.Profile

open Text Strconv

-- Ranges of header values as text.
namespace Domain

-- The white space that a person may have put around a range and around the sign in it.
structure Blanks where
  before  : List Char := []
  left    : List Char := []
  right   : List Char := []
  after   : List Char := []
  isSpace : ∀ c ∈ before ++ left ++ right ++ after, isSpace c = true := by
    exact List.all_eq_true.mp (by decide)

namespace IntRange

variable (quote : List Char → String)

-- `ParseIntRange`. A sign at the beginning belongs to the number.
def parseIntRange (text : List Char) : Except Err IntRange := do
  let s := trimSpace text
  if s = [] then throw (.new "empty range")
  match s.idxOf? '-' with
  | some (i + 1) =>
    let lower := s.take (i + 1)
    let upper := s.drop (i + 2)
    let lo ← (parseInt (trimSpace lower)).mapError
      (Awg.numError quote ("invalid lower bound " ++ quote lower ++ ": ") "ParseInt" (trimSpace lower))
    let hi ← (parseInt (trimSpace upper)).mapError
      (Awg.numError quote ("invalid upper bound " ++ quote upper ++ ": ") "ParseInt" (trimSpace upper))
    if lo > hi then
      throw (.new ("range lower bound " ++ toString lo ++ " > upper bound " ++ toString hi))
    pure { min := lo, max := hi }
  | _ =>
    let v ← (parseInt s).mapError (Awg.numError quote ("invalid integer " ++ quote s ++ ": ") "ParseInt" s)
    pure { min := v, max := v }

-- The text of a range with white space in it.
def spaced (r : IntRange) (b : Blanks) : List Char :=
  if r.min = r.max then b.before ++ (toString r.min).toList ++ b.after
  else b.before ++ (toString r.min).toList ++ b.left ++ '-' ::
    (b.right ++ (toString r.max).toList ++ b.after)

variable {quote} {r : IntRange} {b : Blanks} {s t u : List Char}

theorem spaced_empty : r.spaced {} = r.string.toList := by
  unfold spaced string
  split <;> simp

-- The bounds have been compared, or are the same number.
theorem parseIntRange_le (h : parseIntRange quote s = .ok r) : r.min ≤ r.max := by
  simp only [parseIntRange, bind, Except.bind] at h
  split at h
  case isTrue  => cases h
  case isFalse =>
    split at h
    case h_1 =>
      split at h
      case h_1 => cases h
      case h_2 lo _ =>
        split at h
        case h_1 => cases h
        case h_2 hi _ =>
          by_cases hle : lo > hi
          case pos =>
            rw [if_pos hle] at h
            cases h
          case neg =>
            rw [if_neg hle] at h
            cases h
            exact Int.not_lt.mp hle
    case h_2 =>
      split at h
      case h_1 => cases h
      case h_2 =>
        cases h
        exact Int.le_refl _

theorem parseIntRange_single {n : Int} (hs : trimSpace s ≠ []) (hd : '-' ∉ trimSpace s)
    (h : parseInt (trimSpace s) = .ok n) : parseIntRange quote s = .ok ⟨n, n⟩ := by
  have hi : (trimSpace s).idxOf? '-' = none := List.idxOf?_eq_none_iff.mpr hd
  simp only [parseIntRange, if_neg hs, hi, h]
  rfl

theorem idxOf?_append_cons (h : '-' ∉ t) : (t ++ '-' :: u).idxOf? '-' = some t.length := by
  have hn : t.findIdx? (· == '-') = none :=
    List.findIdx?_eq_none_iff.mpr fun c hc => beq_eq_false_iff_ne.mpr fun he => h (he ▸ hc)
  rw [List.idxOf?, List.findIdx?_append, hn, List.findIdx?_cons]
  simp

theorem parseIntRange_pair {lo hi : Int} (hs : trimSpace s = t ++ '-' :: u) (ht : t ≠ [])
    (hd : '-' ∉ t) (hlo : parseInt (trimSpace t) = .ok lo) (hhi : parseInt (trimSpace u) = .ok hi)
    (hle : lo ≤ hi) :
    parseIntRange quote s = .ok ⟨lo, hi⟩ := by
  obtain ⟨i, hlen⟩ : ∃ i, t.length = i + 1 :=
    Nat.exists_eq_succ_of_ne_zero fun hz => ht (List.length_eq_zero_iff.mp hz)
  have hidx : (trimSpace s).idxOf? '-' = some (i + 1) := by rw [hs, idxOf?_append_cons hd, hlen]
  have hlower : (trimSpace s).take (i + 1) = t := by rw [hs, ← hlen, List.take_left]
  have hupper : (trimSpace s).drop (i + 2) = u := by
    rw [hs, ← List.singleton_append, ← List.append_assoc]
    exact List.drop_left' (by simp [hlen])
  have hne : trimSpace s ≠ [] := by simp [hs]
  simp only [parseIntRange, if_neg hne, hidx, hlower, hupper, hlo, hhi, gt_iff_lt]
  exact if_neg (Int.not_lt.mpr hle)

theorem trimSpace_pair {a b : List Char} (ha : ∀ c ∈ a, isSpace c = true) (ht : Solid t) :
    trimSpace (a ++ t ++ b ++ '-' :: u) = (t ++ b) ++ '-' :: u.rdropWhile isSpace := by
  have hhead : ∀ d ∈ (t ++ b).head?, isSpace d = false := by
    intro d hd
    rw [List.head?_append_of_ne_nil _ ht.1] at hd
    exact isSpace_of_isGraph (ht.2 d (List.mem_of_mem_head? hd))
  calc trimSpace (a ++ t ++ b ++ '-' :: u)
    _ = trimSpace (a ++ (t ++ b ++ '-' :: u) ++ []) := by
      simp only [List.append_assoc, List.append_nil]
    _ = trimSpace (t ++ b ++ '-' :: u) := trimSpace_blanks ha (by simp)
    _ = _ := trimBy_append_cons hhead (by decide)

-- A bound of a range is a row of digits.
theorem toString_bound {k : Int} (h₀ : 0 ≤ k) (hmax : k ≤ 2 ^ 63 - 1) :
    Solid (toString k).toList ∧ '-' ∉ (toString k).toList ∧ parseInt (toString k).toList = .ok k := by
  refine ⟨solid_toString_int k, ?_, parseInt_toString (by omega) (by omega)⟩
  rw [Int.toString_eq_repr, Int.repr_eq_if, if_pos h₀, Nat.repr_eq_ofList_toDigits,
    String.toList_ofList]
  exact not_mem_toDigits (by decide) (by decide) (by decide)

theorem parseIntRange_spaced (h₀ : 0 ≤ r.min) (hle : r.min ≤ r.max) (hmax : r.max ≤ 2 ^ 63 - 1)
    (b : Blanks) : parseIntRange quote (r.spaced b) = .ok r := by
  obtain ⟨hlo, hsign, hmin⟩ := toString_bound h₀ (Int.le_trans hle hmax)
  obtain ⟨hhi, -, hmax⟩ := toString_bound (Int.le_trans h₀ hle) hmax
  have hbefore : ∀ c ∈ b.before, isSpace c = true := fun c hc => b.isSpace c (by simp [hc])
  have hleft : ∀ c ∈ b.left, isSpace c = true := fun c hc => b.isSpace c (by simp [hc])
  have hright : ∀ c ∈ b.right, isSpace c = true := fun c hc => b.isSpace c (by simp [hc])
  have hafter : ∀ c ∈ b.after, isSpace c = true := fun c hc => b.isSpace c (by simp [hc])
  unfold spaced
  split
  case isTrue he =>
    obtain ⟨min, max⟩ := r
    obtain rfl : min = max := he
    have htrim := trimSpace_blanks (t := (toString min).toList) hbefore hafter
    rw [hlo.trimSpace_eq] at htrim
    refine parseIntRange_single ?_ ?_ ?_ <;> rw [htrim]
    · exact hlo.1
    · exact hsign
    · exact hmin
  case isFalse he =>
    have hlower : trimSpace ((toString r.min).toList ++ b.left) = (toString r.min).toList :=
      (trimSpace_blanks (s := []) (by simp) hleft).trans hlo.trimSpace_eq
    have hupper : trimSpace ((b.right ++ (toString r.max).toList ++ b.after).rdropWhile isSpace) =
        (toString r.max).toList := by
      rw [trimSpace, trimBy_rdropWhile]
      exact (trimSpace_blanks hright hafter).trans hhi.trimSpace_eq
    refine parseIntRange_pair (trimSpace_pair hbefore hlo)
      (List.append_ne_nil_of_left_ne_nil hlo.1 _) ?_ ?_ ?_ hle
    · rw [List.mem_append, not_or]
      exact ⟨hsign, fun hc => absurd (hleft _ hc) (by decide)⟩
    · rw [hlower, hmin]
    · rw [hupper, hmax]

theorem string_injective {a : IntRange} (ha : 0 ≤ a.min ∧ a.min ≤ a.max ∧ a.max ≤ 2 ^ 63 - 1)
    (hr : 0 ≤ r.min ∧ r.min ≤ r.max ∧ r.max ≤ 2 ^ 63 - 1) (h : a.string = r.string) : a = r := by
  have hp : parseIntRange (fun _ => "") r.string.toList = .ok a := by
    rw [← h, ← spaced_empty]
    exact parseIntRange_spaced ha.1 ha.2.1 ha.2.2 {}
  rw [← spaced_empty, parseIntRange_spaced hr.1 hr.2.1 hr.2.2 {}] at hp
  exact (Except.ok.inj hp).symm

end IntRange

namespace ProtocolProfile

def headers (p : ProtocolProfile) : List IntRange :=
  [p.h1, p.h2, p.h3, p.h4]

theorem header_of_validate {p : ProtocolProfile} {r : IntRange} (h : p.validate = [])
    (hr : r ∈ p.headers) :
    0 ≤ r.min ∧ r.min ≤ r.max ∧ r.max ≤ 0xFFFFFFFF := by
  have hh := (accepted_of_validate h).headers
  simp only [validateHeaders, List.append_eq_nil_iff, checkHeader_eq_nil] at hh
  simp only [headers, List.mem_cons, List.not_mem_nil, or_false] at hr
  obtain ⟨⟨⟨⟨h₁, h₂⟩, h₃⟩, h₄⟩, -⟩ := hh
  rcases hr with rfl | rfl | rfl | rfl
  · exact ⟨h₁.1, h₁.2.1, h₁.2.2.1⟩
  · exact ⟨h₂.1, h₂.2.1, h₂.2.2.1⟩
  · exact ⟨h₃.1, h₃.2.1, h₃.2.2.1⟩
  · exact ⟨h₄.1, h₄.2.1, h₄.2.2.1⟩

end ProtocolProfile

-- Ranges can be read back, so that accepted ones differ in their texts; and what is read is a range.
theorem intRange_roundTrip (quote : List Char → String) :
    (∀ r : IntRange, 0 ≤ r.min → r.min ≤ r.max → r.max ≤ 2 ^ 63 - 1 →
      IntRange.parseIntRange quote r.string.toList = .ok r ∧
      ∀ b : Blanks, IntRange.parseIntRange quote (r.spaced b) = .ok r) ∧
    (∀ p q : ProtocolProfile, p.validate = [] → q.validate = [] → ∀ a ∈ p.headers, ∀ b ∈ q.headers,
      a.string = b.string → a = b) ∧
    ∀ (s : List Char) (r : IntRange), IntRange.parseIntRange quote s = .ok r → r.min ≤ r.max := by
  refine ⟨fun r h₀ hle hmax => ⟨?_, IntRange.parseIntRange_spaced h₀ hle hmax⟩, ?_, ?_⟩
  · rw [← IntRange.spaced_empty]
    exact IntRange.parseIntRange_spaced h₀ hle hmax {}
  · intro p q hp hq a ha b hb
    obtain ⟨ha₀, hale, hamax⟩ := ProtocolProfile.header_of_validate hp ha
    obtain ⟨hb₀, hble, hbmax⟩ := ProtocolProfile.header_of_validate hq hb
    exact IntRange.string_injective ⟨ha₀, hale, by omega⟩ ⟨hb₀, hble, by omega⟩
  · exact fun s r => IntRange.parseIntRange_le

-- The widest range, with a blank before it and on both sides of the sign; and the headers of a
-- profile, of which no two have one text.
theorem intRange_roundTrip_widest :
    let p : ProtocolProfile :=
      { id := 0, name := "default", protocolVersion := .v2, jc := 4, jmin := 40, jmax := 70,
        s1 := 0, s2 := 0, s3 := 0, s4 := 0, h1 := ⟨1, 9⟩, h2 := ⟨10, 10⟩, h3 := ⟨11, 99⟩,
        h4 := ⟨100, 100⟩, listenPortPolicy := .fixed }
    IntRange.parseIntRange String.ofList " 0 -\t9223372036854775807".toList =
      .ok ⟨0, 9223372036854775807⟩ ∧
    p.h1.string ≠ p.h3.string ∧ (0 : Int) ≤ 9223372036854775807 := by
  intro p
  have h := intRange_roundTrip String.ofList
  have hp : p.validate = [] := by decide +kernel
  have hwidest := (h.1 ⟨0, 9223372036854775807⟩ (by decide) (by decide) (by decide)).2
    { before := [' '], left := [' '], right := ['\t'] }
  refine ⟨hwidest, fun he => ?_, h.2.2 _ _ hwidest⟩
  have heq := h.2.1 p p hp hp p.h1 (by simp [ProtocolProfile.headers]) p.h3
    (by simp [ProtocolProfile.headers]) he
  exact absurd heq (by decide)

end Domain
