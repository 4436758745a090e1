import AwgRest.Domain
import AwgRest.Lib.Base64

open Domain

namespace Crypto

def keyLen : Nat := 32
def base64KeyLen : Nat := 44

structure KeyPair where
  privateKey : String
  publicKey  : String
deriving DecidableEq

def decodeKey (s : String) : Except Err (List (BitVec 8)) :=
  if s.utf8ByteSize ≠ base64KeyLen then
    throw (.new ("invalid key length: got " ++ toString s.utf8ByteSize ++ ", want " ++
      toString base64KeyLen))
  else match Base64.decodeString s with
    | none     => throw (.new "base64 decode: illegal base64 data")
    | some raw => if raw.length ≠ keyLen then throw (.new "invalid key bytes") else pure raw

def validateKey (s : String) : Except Err Unit :=
  (decodeKey s).map (fun _ => ())

theorem validateKey_eq_ok_iff {s : String} :
    validateKey s = .ok () ↔
      s.utf8ByteSize = base64KeyLen ∧ (Base64.decodeString s).any (·.length = keyLen) = true := by
  unfold validateKey decodeKey
  split
  case isTrue h => simp_all [Except.map, throw, throwThe, MonadExceptOf.throw]
  case isFalse h =>
    cases hd : Base64.decodeString s
    case none => simp [Except.map, throw, throwThe, MonadExceptOf.throw]
    case some raw =>
      by_cases hr : raw.length = keyLen <;>
        simp_all [Except.map, throw, throwThe, MonadExceptOf.throw, pure, Except.pure]

theorem length_le_utf8ByteSize (l : List Char) : l.length ≤ (String.ofList l).utf8ByteSize := by
  induction l
  case nil => simp
  case cons c l ih =>
    rw [String.ofList_cons, String.utf8ByteSize_append, List.length_cons]
    have := Char.utf8Size_pos c
    simp only [String.utf8ByteSize_singleton]
    omega

-- The length of a key leaves no room for the line breaks that the decoder would skip.
theorem isChar_of_validateKey {s : String} (h : validateKey s = .ok ()) :
    s ≠ "" ∧ ∀ c ∈ s.toList, Base64.isChar c = true := by
  obtain ⟨hs, hd⟩ := validateKey_eq_ok_iff.mp h
  obtain ⟨raw, hd, hr⟩ : ∃ raw, Base64.decodeString s = some raw ∧ raw.length = keyLen := by
    simpa [Option.any_eq_true] using hd
  obtain ⟨hm, hl, hc⟩ := Base64.decodeQuanta_some hd
  have hb := length_le_utf8ByteSize s.toList
  have hf := List.length_filter_le (fun c => decide (c ≠ '\n' ∧ c ≠ '\r')) s.toList
  simp only [String.ofList_toList, base64KeyLen, keyLen] at hb hs hr
  have hall : ∀ c ∈ s.toList, decide (c ≠ '\n' ∧ c ≠ '\r') = true :=
    List.length_filter_eq_length_iff.mp (by omega)
  rw [List.filter_eq_self.mpr hall] at hc
  refine ⟨?_, hc⟩
  rintro rfl
  simp at hs

end Crypto
