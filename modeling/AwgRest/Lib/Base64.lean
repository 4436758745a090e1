import Mathlib.Tactic.Common

-- The standard encoding of `encoding/base64`, with padding.
namespace Base64

def value (c : Char) : Option Nat :=
  if 'A' ≤ c ∧ c ≤ 'Z' then some (c.toNat - 'A'.toNat)
  else if 'a' ≤ c ∧ c ≤ 'z' then some (c.toNat - 'a'.toNat + 26)
  else if '0' ≤ c ∧ c ≤ '9' then some (c.toNat - '0'.toNat + 52)
  else if c = '+' then some 62
  else if c = '/' then some 63
  else none

-- Decoding is not strict: the bits that padding leaves over are ignored.
def decodeQuanta : List Char → Option (List (BitVec 8))
  | [] => some []
  | a :: b :: c :: d :: rest =>
    match value a, value b with
    | some x, some y =>
      let first := BitVec.ofNat 8 (x * 4 + y / 16)
      if c = '=' then
        if d = '=' ∧ rest = [] then some [first] else none
      else match value c with
        | none => none
        | some z =>
          let second := BitVec.ofNat 8 (y * 16 + z / 4)
          if d = '=' then
            if rest = [] then some [first, second] else none
          else match value d with
            | none   => none
            | some w => (decodeQuanta rest).map ([first, second, BitVec.ofNat 8 (z * 64 + w)] ++ ·)
    | _, _ => none
  | _ => none

-- Line breaks are skipped wherever they stand.
def decodeString (s : String) : Option (List (BitVec 8)) :=
  decodeQuanta (s.toList.filter (fun c => c ≠ '\n' ∧ c ≠ '\r'))

-- The symbol with a value below 64.
def symbol (n : Nat) : Char :=
  if n < 26 then Char.ofNat (n + 'A'.toNat)
  else if n < 52 then Char.ofNat (n - 26 + 'a'.toNat)
  else if n < 62 then Char.ofNat (n - 52 + '0'.toNat)
  else if n = 62 then '+'
  else '/'

def encode : List (BitVec 8) → List Char
  | []     => []
  | [a]    => [symbol (a.toNat / 4), symbol (a.toNat % 4 * 16), '=', '=']
  | [a, b] =>
    [symbol (a.toNat / 4), symbol (a.toNat % 4 * 16 + b.toNat / 16), symbol (b.toNat % 16 * 4), '=']
  | a :: b :: c :: rest =>
    [symbol (a.toNat / 4), symbol (a.toNat % 4 * 16 + b.toNat / 16),
      symbol (b.toNat % 16 * 4 + c.toNat / 64), symbol (c.toNat % 64)] ++ encode rest

def encodeToString (bs : List (BitVec 8)) : String :=
  String.ofList (encode bs)

-- The bits of the last symbol that padding leaves over.
def leftover : List Char → Nat
  | [_, b, '=', '=']        => (value b).getD 0 % 16
  | [_, _, c, '=']          => (value c).getD 0 % 4
  | _ :: _ :: _ :: _ :: rest => leftover rest
  | _                       => 0

def isChar (c : Char) : Bool :=
  (value c).isSome || c = '='

section

variable {s : List Char} {out : List (BitVec 8)}

-- What is decoded consists of whole quanta of characters of the alphabet, each worth at most three
-- bytes.
theorem decodeQuanta_some (h : decodeQuanta s = some out) :
    s.length % 4 = 0 ∧ 4 * out.length ≤ 3 * s.length ∧ ∀ c ∈ s, isChar c = true := by
  fun_induction decodeQuanta s generalizing out
  case case1 => simp_all
  case case2 =>
    cases h
    simp_all [isChar]
  case case5 =>
    cases h
    simp_all [isChar]
  case case8 ih =>
    obtain ⟨rest, hr, rfl⟩ := Option.map_eq_some_iff.mp h
    obtain ⟨hm, hl, hc⟩ := ih hr
    refine ⟨by simp; omega, by simp; omega, ?_⟩
    simp_all [isChar]
  all_goals cases h

theorem le_iff_toNat {c d : Char} : c ≤ d ↔ c.toNat ≤ d.toNat :=
  UInt32.le_iff_toNat_le

theorem value_symbol {n : Nat} (h : n < 64) : value (symbol n) = some n :=
  (by decide : ∀ n < 64, value (symbol n) = some n) n h

theorem symbol_of_value {c : Char} {n : Nat} (h : value c = some n) : n < 64 ∧ symbol n = c := by
  have hA : 'A'.toNat = 65 ∧ 'Z'.toNat = 90 := ⟨rfl, rfl⟩
  have ha : 'a'.toNat = 97 ∧ 'z'.toNat = 122 := ⟨rfl, rfl⟩
  have h0 : '0'.toNat = 48 ∧ '9'.toNat = 57 := ⟨rfl, rfl⟩
  unfold value at h
  simp only [le_iff_toNat] at h
  split at h
  case isTrue hc =>
    obtain rfl := Option.some.inj h
    refine ⟨by omega, ?_⟩
    rw [symbol, if_pos (by omega), Nat.sub_add_cancel hc.1, Char.ofNat_toNat]
  case isFalse =>
    split at h
    case isTrue hc =>
      obtain rfl := Option.some.inj h
      refine ⟨by omega, ?_⟩
      rw [symbol, if_neg (by omega), if_pos (by omega), Nat.add_sub_cancel, Nat.sub_add_cancel hc.1,
        Char.ofNat_toNat]
    case isFalse =>
      split at h
      case isTrue hc =>
        obtain rfl := Option.some.inj h
        refine ⟨by omega, ?_⟩
        rw [symbol, if_neg (by omega), if_neg (by omega), if_pos (by omega), Nat.add_sub_cancel,
          Nat.sub_add_cancel hc.1, Char.ofNat_toNat]
      case isFalse =>
        split at h
        case isTrue hc =>
          obtain rfl := Option.some.inj h
          exact ⟨by decide, hc.symm⟩
        case isFalse =>
          split at h
          case isTrue hc =>
            obtain rfl := Option.some.inj h
            exact ⟨by decide, hc.symm⟩
          case isFalse => cases h

theorem symbol_inj {m n : Nat} (hm : m < 64) (hn : n < 64) : symbol m = symbol n ↔ m = n := by
  refine ⟨fun h => ?_, fun h => by rw [h]⟩
  have := value_symbol hm
  rw [h, value_symbol hn] at this
  exact (Option.some.inj this).symm

-- What the bytes of a quantum say about the values of its symbols.

theorem bytes_first {x y : Nat} (hx : x < 64) (hy : y < 64) :
    (BitVec.ofNat 8 (x * 4 + y / 16)).toNat / 4 = x ∧
    (BitVec.ofNat 8 (x * 4 + y / 16)).toNat % 4 = y / 16 := by
  rw [BitVec.toNat_ofNat]
  omega

theorem bytes_second {y z : Nat} (hz : z < 64) :
    (BitVec.ofNat 8 (y * 16 + z / 4)).toNat / 16 = y % 16 ∧
      (BitVec.ofNat 8 (y * 16 + z / 4)).toNat % 16 = z / 4 := by
  rw [BitVec.toNat_ofNat]
  omega

theorem bytes_third {z w : Nat} (hw : w < 64) :
    (BitVec.ofNat 8 (z * 64 + w)).toNat / 64 = z % 4 ∧
    (BitVec.ofNat 8 (z * 64 + w)).toNat % 64 = w := by
  rw [BitVec.toNat_ofNat]
  omega

-- Encoding gives the text back that was decoded, if the bits that are left over are zero.
theorem encode_decodeQuanta (h : decodeQuanta s = some out) : encode out = s ↔ leftover s = 0 := by
  fun_induction decodeQuanta s generalizing out
  case case1 =>
    cases h
    exact iff_of_true rfl rfl
  case case2 a b d rest x y hb ha first hend =>
    cases h
    obtain ⟨rfl, rfl⟩ := hend
    obtain ⟨hx, rfl⟩ := symbol_of_value ha
    obtain ⟨hy, rfl⟩ := symbol_of_value hb
    have hleft : leftover [symbol x, symbol y, '=', '='] = y % 16 := by simp [leftover, hb]
    have hlast := symbol_inj (show y / 16 * 16 < 64 by omega) hy
    simp only [encode, first, bytes_first hx hy, hleft, List.cons.injEq, true_and, and_true, hlast]
    omega
  case case5 a b c x y hb ha first hne z hc second =>
    cases h
    obtain ⟨hx, rfl⟩ := symbol_of_value ha
    obtain ⟨hy, rfl⟩ := symbol_of_value hb
    obtain ⟨hz, rfl⟩ := symbol_of_value hc
    have hleft : leftover [symbol x, symbol y, symbol z, '='] = z % 4 := by simp [leftover, hc]
    have hlast := symbol_inj (show z / 4 * 4 < 64 by omega) hz
    have hmid : y / 16 * 16 + y % 16 = y := by omega
    simp only [encode, first, second, bytes_first hx hy, bytes_second hz, hleft, hmid,
      List.cons.injEq, true_and,
      and_true, hlast]
    omega
  case case8 a b c d rest x y hb ha first hne z hc second hne' w hd ih =>
    obtain ⟨rest', hr, rfl⟩ := Option.map_eq_some_iff.mp h
    obtain ⟨hx, rfl⟩ := symbol_of_value ha
    obtain ⟨hy, rfl⟩ := symbol_of_value hb
    obtain ⟨hz, rfl⟩ := symbol_of_value hc
    obtain ⟨hw, rfl⟩ := symbol_of_value hd
    have hleft : leftover (symbol x :: symbol y :: symbol z :: symbol w :: rest) = leftover rest := by
      simp [leftover, hne']
    have hmid : y / 16 * 16 + y % 16 = y ∧ z / 4 * 4 + z % 4 = z := by omega
    rw [hleft, ← ih hr]
    simp only [List.cons_append, List.nil_append, encode, first, second, bytes_first hx hy,
      bytes_second hz,
      bytes_third hw, hmid, List.cons.injEq, true_and]
  all_goals cases h

end
end Base64
