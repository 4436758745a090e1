import AwgRest.Crypto

open Domain

-- Which of the accepted keys are the canonical texts of their bytes.
namespace Crypto

variable {s t : String} {k : List (BitVec 8)}

theorem decodeString_of_decodeKey (h : decodeKey s = .ok k) : Base64.decodeString s = some k := by
  unfold decodeKey at h
  split at h
  case isTrue  => cases h
  case isFalse =>
    split at h
    case h_1 => cases h
    case h_2 raw hraw =>
      split at h
      case isTrue  => cases h
      case isFalse =>
        cases h
        exact hraw

-- The bits that are left over in the last symbol of the text.
def leftover (s : String) : Nat :=
  Base64.leftover s.toList

theorem encode_decodeKey_iff (h : decodeKey s = .ok k) :
    Base64.encodeToString k = s ↔ leftover s = 0 := by
  have hchar : ∀ c ∈ s.toList, Base64.isChar c = true := by
    refine (isChar_of_validateKey ?_).2
    rw [validateKey, h]
    rfl
  have hd := decodeString_of_decodeKey h
  have hall : ∀ c ∈ s.toList, decide (c ≠ '\n' ∧ c ≠ '\r') = true := by
    intro c hc
    refine decide_eq_true ⟨?_, ?_⟩
    all_goals
      rintro rfl
      exact absurd (hchar _ hc) (by decide)
  rw [Base64.decodeString, List.filter_eq_self.mpr hall] at hd
  rw [leftover, ← Base64.encode_decodeQuanta hd, Base64.encodeToString, ← String.toList_inj,
    String.toList_ofList]

-- The unique index on the keys of a node.
def UniqueKeys (peers : List Peer) : Prop :=
  peers.Pairwise fun p q => p.nodeID = q.nodeID → p.publicKey ≠ q.publicKey

theorem accepted_keys_canonical_iff (s : String) :
    (∀ k, decodeKey s = .ok k → (Base64.encodeToString k = s ↔ leftover s = 0)) ∧
    (∀ t k, decodeKey s = .ok k → decodeKey t = .ok k → leftover s = 0 → leftover t = 0 → s = t) ∧
    ∀ peers : List Peer, UniqueKeys peers →
      (∀ p ∈ peers, validateKey p.publicKey = .ok () ∧ leftover p.publicKey = 0) →
        peers.Pairwise fun p q => p.nodeID = q.nodeID →
          decodeKey p.publicKey ≠ decodeKey q.publicKey := by
  have hinj : ∀ s t k, decodeKey s = .ok k → decodeKey t = .ok k → leftover s = 0 → leftover t = 0 →
      s = t := by
    intro s t k hs ht hl hm
    rw [← (encode_decodeKey_iff hs).mpr hl, (encode_decodeKey_iff ht).mpr hm]
  refine ⟨fun k h => encode_decodeKey_iff h, hinj s, fun peers hu hk => ?_⟩
  refine hu.imp_of_mem fun {p q} hp hq hne hn he => hne hn ?_
  obtain ⟨hp, hl⟩ := hk p hp
  obtain ⟨-, hm⟩ := hk q hq
  cases hd : decodeKey p.publicKey
  case error e => rw [validateKey, hd] at hp; cases hp
  case ok k    => exact hinj _ _ k hd (he ▸ hd) hl hm

namespace Sample

def zeroKey : String :=
  "AAAAAAAAAAAAAAAAAAAAAAAAAAAAAAAAAAAAAAAAAAA="

def zeroKey' : String :=
  "AAAAAAAAAAAAAAAAAAAAAAAAAAAAAAAAAAAAAAAAAAB="

end Sample

theorem accepted_keys_canonical_sample :
    leftover Sample.zeroKey = 0 ∧ Base64.encodeToString (List.replicate 32 0) = Sample.zeroKey := by
  have h : decodeKey Sample.zeroKey = .ok (List.replicate 32 0) := by decide +kernel
  have hl : leftover Sample.zeroKey = 0 := by decide +kernel
  exact ⟨hl, ((accepted_keys_canonical_iff _).1 _ h).mpr hl⟩

-- Two texts of one key, of which both are accepted.
theorem accepted_key_not_canonical :
    decodeKey Sample.zeroKey = .ok (List.replicate 32 0) ∧
      decodeKey Sample.zeroKey' = .ok (List.replicate 32 0) ∧ Sample.zeroKey ≠ Sample.zeroKey' ∧
      Base64.encodeToString (List.replicate 32 0) ≠ Sample.zeroKey' := by
  decide +kernel

end Crypto
