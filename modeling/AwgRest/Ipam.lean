import AwgRest.Lib.Cyclic
import AwgRest.Domain
import Mathlib.Tactic.IntervalCases

open Netip Go

-- Deterministic allocation over an address pool from a per-pool cursor.
namespace Ipam

structure Allocation where
  address    : Addr
  nextCursor : Option Addr
deriving DecidableEq

-- The pool is given as a valid prefix, so that of the errors of `Allocate` only `ErrPoolExhausted`
-- remains. `unfinished` stands for a search that is still going on.
inductive Outcome
  | allocated (a : Allocation)
  | exhausted
  | unfinished
deriving DecidableEq

def firstHost (p : Prefix) : Option Addr :=
  if p.addr.is4 then
    if 31 ≤ p.bits then some p.addr else p.addr.next
  else some p.addr

-- Sets the last `bits` bits of a list of bytes that is given the last byte first.
def fillHost : List (BitVec 8) → Nat → List (BitVec 8)
  | [],      _    => []
  | b :: bs, bits =>
    if bits = 0 then b :: bs else
      let shift := if bits < 8 then bits else 8
      (b ||| (BitVec.ofNat 8 (1 <<< shift) - 1)) :: fillHost bs (bits - shift)

def lastHost (p : Prefix) : Option Addr :=
  let last := Addr.from16Rev (fillHost p.addr.as16Rev p.hostBits)
  if p.addr.is4 then
    if p.bits < 31 then last.unmap.prev else some last.unmap
  else some last

def isUsable (p : Prefix) (a : Option Addr) : Bool :=
  p.contains a && (Addr.compare a (firstHost p)).isGE && (Addr.compare a (lastHost p)).isLE

def addrCount (p : Prefix) : Int :=
  if 31 ≤ p.hostBits then maxInt
  else if p.addr.is4 ∧ p.bits < 31 then 2 ^ p.hostBits - 2
  else 2 ^ p.hostBits

-- The address after `a`, or the first one again where that leaves the hosts of the pool.
def advance (pool : Prefix) (a : Option Addr) : Option Addr :=
  let next := a.bind Addr.next
  if !pool.contains next || (Addr.compare next (lastHost pool)).isGT then firstHost pool else next

def allocateLoop (pool : Prefix) (reserved : Addr → Bool) : Nat → Int → Option Addr → Outcome
  | 0,        _,     _ => .unfinished
  | fuel + 1, steps, a =>
    if steps ≤ addrCount pool then
      match a.filter (fun a => isUsable pool (some a) && !reserved a) with
      | some a => .allocated ⟨a, advance pool (some a)⟩
      | none   => allocateLoop pool reserved fuel (toInt (steps + 1)) (advance pool a)
    else .exhausted

def allocateWithin (fuel : Nat) (pool : Prefix) (cursor : Option Addr) (reserved : Addr → Bool) :
    Outcome :=
  let pool := pool.masked
  let cursor := if pool.contains cursor then cursor else firstHost pool
  allocateLoop pool reserved fuel 0 cursor

-- With this much fuel the loop of `Allocate` has either returned or it never does (see
-- `allocate_eq_unfinished_iff`).
def allocate (pool : Prefix) (cursor : Option Addr) (reserved : Addr → Bool) : Outcome :=
  allocateWithin (2 ^ pool.hostBits + 3) pool cursor reserved

-- The addresses that `Allocate` may hand out: those of the pool, in IPv4 pools shorter than /31
-- without the network and the broadcast address.

def Short (p : Prefix) : Prop :=
  p.addr.family = .v4 ∧ p.bits < 31

instance {p : Prefix} : Decidable (Short p) :=
  inferInstanceAs (Decidable (_ ∧ _))

def lo (p : Prefix) : Nat :=
  p.masked.addr.val + if Short p then 1 else 0

def hi (p : Prefix) : Nat :=
  p.masked.addr.val + 2 ^ p.hostBits - if Short p then 2 else 1

structure IsHost (p : Prefix) (a : Addr) : Prop where
  family : a.family = p.addr.family
  bounds : lo p ≤ a.val ∧ a.val ≤ hi p

section Bytes

theorem bytesVal_bytes (n v : Nat) : Addr.bytesVal (Addr.as16Rev.bytes n v) = v % 256 ^ n := by
  induction n generalizing v
  case zero => simp [Addr.as16Rev.bytes, Addr.bytesVal, Nat.mod_one]
  case succ n ih =>
    rw [Addr.as16Rev.bytes, Addr.bytesVal, ih, BitVec.toNat_ofNat,
      Nat.pow_succ' (m := 256), Nat.mod_mul]

theorem length_bytes (n v : Nat) : (Addr.as16Rev.bytes n v).length = n := by
  induction n generalizing v <;> simp_all [Addr.as16Rev.bytes]

-- Setting bits that are all clear adds their value.
theorem toNat_or_low {k : Nat} (hk : k ≤ 8) {b : BitVec 8} (hb : 2 ^ k ∣ b.toNat) :
    (b ||| (BitVec.ofNat 8 (1 <<< k) - 1)).toNat = b.toNat + (2 ^ k - 1) := by
  have hm : (BitVec.ofNat 8 (1 <<< k) - 1).toNat = 2 ^ k - 1 := by
    interval_cases k <;> rfl
  obtain ⟨q, hq⟩ := hb
  have hlt : 2 ^ k - 1 < 2 ^ k := Nat.sub_lt (Nat.two_pow_pos k) Nat.one_pos
  rw [BitVec.toNat_or, hm, hq, Nat.two_pow_add_eq_or_of_lt hlt]

@[simp]
theorem fillHost_zero (bs : List (BitVec 8)) : fillHost bs 0 = bs := by
  cases bs <;> simp [fillHost]

theorem bytesVal_fillHost {bs : List (BitVec 8)} {k : Nat}
    (hd : 2 ^ k ∣ Addr.bytesVal bs) (hk : k ≤ 8 * bs.length) :
    Addr.bytesVal (fillHost bs k) = Addr.bytesVal bs + (2 ^ k - 1) := by
  induction bs generalizing k
  case nil =>
    obtain rfl : k = 0 := by simpa using hk
    simp
  case cons b bs ih =>
    by_cases h0 : k = 0
    case pos => simp [h0]
    case neg =>
      simp only [fillHost, h0, if_false, Addr.bytesVal] at hd ⊢
      by_cases h8 : k < 8
      case pos =>
        have hb : 2 ^ k ∣ b.toNat := by
          refine (Nat.dvd_add_left (Nat.dvd_mul_right_of_dvd ?_ _)).mp hd
          exact Nat.pow_dvd_pow 2 (Nat.le_of_lt h8)
        rw [if_pos h8, toNat_or_low (Nat.le_of_lt h8) hb, Nat.sub_self, fillHost_zero]
        omega
      case neg =>
        -- A whole byte is filled: it was zero, and the rest is the same problem for `k - 8` bits.
        obtain ⟨j, rfl⟩ := Nat.exists_eq_add_of_le (Nat.le_of_not_lt h8)
        have hp : 2 ^ (8 + j) = 256 * 2 ^ j := Nat.pow_add ..
        rw [hp] at hd
        have hb : b.toNat = 0 := by
          have := Nat.dvd_trans (Nat.dvd_mul_right ..) hd
          have := b.isLt
          omega
        have hr : 2 ^ j ∣ Addr.bytesVal bs := by
          rw [hb, Nat.zero_add] at hd
          exact Nat.dvd_of_mul_dvd_mul_left (by decide) hd
        have hj : j ≤ 8 * bs.length := by
          simp only [List.length_cons] at hk
          omega
        rw [if_neg h8, toNat_or_low (Nat.le_refl 8) (by simp [hb]), Nat.add_sub_cancel_left,
          ih hr hj, hb, hp]
        have := Nat.two_pow_pos j
        omega

end Bytes

section Hosts

variable {p : Prefix} {a : Addr}

theorem Short.four_le (h : Short p) : 4 ≤ 2 ^ p.hostBits := by
  have : 2 ≤ p.hostBits := by
    have := h.2
    simp only [Prefix.hostBits, h.1, Family.bitLen]
    omega
  exact Nat.pow_le_pow_right (n := 2) (by decide) this

theorem lo_le_hi (p : Prefix) : lo p ≤ hi p := by
  have := Prefix.two_pow_hostBits_pos (p := p)
  unfold lo hi
  split
  case isTrue h =>
    have := h.four_le
    omega
  case isFalse => omega

theorem hi_lt (p : Prefix) : hi p < 2 ^ p.addr.family.bitLen := by
  have := Prefix.two_pow_hostBits_pos (p := p)
  have := p.masked_add_le
  unfold hi
  split <;> omega

theorem firstHost_eq (p : Prefix) :
    ∃ f, firstHost p.masked = some f ∧ f.family = p.addr.family ∧ f.val = lo p := by
  by_cases hs : Short p
  case pos =>
    have hlt := (lo_le_hi p).trans_lt (hi_lt p)
    rw [lo, if_pos hs] at hlt
    refine ⟨⟨p.addr.family, p.masked.addr.val + 1, hlt⟩, ?_, rfl, by simp [lo, hs]⟩
    simp only [firstHost, Addr.is4, Prefix.masked_family, hs.1, decide_true, if_true,
      Prefix.masked_bits, Nat.not_le.mpr hs.2, if_false, Addr.next]
    simp only [hs.1] at hlt
    simp [hlt]
  case neg =>
    refine ⟨p.masked.addr, ?_, rfl, by simp [lo, hs]⟩
    unfold firstHost
    split
    case isFalse => rfl
    case isTrue h4 =>
      have hb : ¬ p.bits < 31 := fun hb => hs ⟨of_decide_eq_true h4, hb⟩
      simp [Nat.le_of_not_lt hb]

-- The value of the last address of a prefix, as `lastHost` computes it from the bytes.
theorem bytesVal_last (p : Prefix) (c : Nat) (hc : 2 ^ p.hostBits ∣ c) (hb : p.hostBits ≤ 128)
    (hlt : c + p.masked.addr.val < 2 ^ 128) :
    Addr.bytesVal (fillHost (Addr.as16Rev.bytes 16 (c + p.masked.addr.val)) p.hostBits) =
      c + p.masked.addr.val + (2 ^ p.hostBits - 1) := by
  have hv : Addr.bytesVal (Addr.as16Rev.bytes 16 (c + p.masked.addr.val)) =
      c + p.masked.addr.val := by
    rw [bytesVal_bytes]
    exact Nat.mod_eq_of_lt hlt
  rw [bytesVal_fillHost _ (by simpa [length_bytes] using hb), hv]
  rw [hv]
  exact Nat.dvd_add hc Prefix.dvd_masked

-- The last address of an IPv6 prefix.
theorem lastHost_v6 (hf : p.addr.family = .v6) :
    ∃ l, lastHost p.masked = some l ∧ l.family = .v6 ∧
      l.val = p.masked.addr.val + (2 ^ p.hostBits - 1) := by
  have hpos := Prefix.two_pow_hostBits_pos (p := p)
  have hle := p.masked_add_le
  have hb : p.hostBits ≤ 128 := by simp [Prefix.hostBits, hf, Family.bitLen]
  simp only [hf, Family.bitLen] at hle
  have hv := bytesVal_last p 0 (Nat.dvd_zero _) hb (by omega)
  simp only [Nat.zero_add] at hv
  refine ⟨Addr.from16Rev (fillHost p.masked.addr.as16Rev p.masked.hostBits), ?_, rfl, ?_⟩
  · simp [lastHost, Addr.is4, hf]
  · simp only [Addr.from16Rev, Addr.as16Rev, Prefix.masked_family, hf, Prefix.masked_hostBits, hv]
    exact Nat.mod_eq_of_lt (by omega)

-- The last address of an IPv4 prefix, before the broadcast address is skipped. It is computed in the
-- IPv4-mapped form.
theorem unmap_last (hf : p.addr.family = .v4) :
    let l := (Addr.from16Rev (fillHost p.masked.addr.as16Rev p.masked.hostBits)).unmap
    l.family = .v4 ∧ l.val = p.masked.addr.val + (2 ^ p.hostBits - 1) := by
  have hpos := Prefix.two_pow_hostBits_pos (p := p)
  have hle := p.masked_add_le
  have hb : p.hostBits ≤ 32 := by simp [Prefix.hostBits, hf, Family.bitLen]
  simp only [hf, Family.bitLen] at hle
  have hd : 2 ^ p.hostBits ∣ 0xffff * 2 ^ 32 :=
    Nat.dvd_mul_left_of_dvd (Nat.pow_dvd_pow 2 hb) _
  have hv := bytesVal_last p (0xffff * 2 ^ 32) hd (by omega) (by omega)
  have hm : (Addr.from16Rev (fillHost p.masked.addr.as16Rev p.masked.hostBits)).val =
      0xffff * 2 ^ 32 + (p.masked.addr.val + (2 ^ p.hostBits - 1)) := by
    simp only [Addr.from16Rev, Addr.as16Rev, Prefix.masked_family, hf, Prefix.masked_hostBits, hv]
    rw [Nat.mod_eq_of_lt] <;> omega
  have h4 : (Addr.from16Rev (fillHost p.masked.addr.as16Rev p.masked.hostBits)).is4In6 = true := by
    have h6 : (Addr.from16Rev (fillHost p.masked.addr.as16Rev p.masked.hostBits)).is6 = true := rfl
    simp only [Addr.is4In6, h6, hm, Bool.true_and, decide_eq_true_eq]
    omega
  simp only [Addr.unmap, h4, if_true, true_and, hm]
  omega

theorem lastHost_eq (p : Prefix) :
    ∃ l, lastHost p.masked = some l ∧ l.family = p.addr.family ∧ l.val = hi p := by
  have hpos := Prefix.two_pow_hostBits_pos (p := p)
  cases hf : p.addr.family
  case v6 =>
    obtain ⟨l, hl, hlf, hlv⟩ := lastHost_v6 hf
    refine ⟨l, hl, hlf, ?_⟩
    simp only [hlv, hi, Short, hf, reduceCtorEq, false_and, if_false]
    omega
  case v4 =>
    obtain ⟨hlf, hlv⟩ := unmap_last hf
    by_cases hb : p.bits < 31
    case pos =>
      have hs : Short p := ⟨hf, hb⟩
      have := hs.four_le
      refine ⟨⟨_, _ - 1, Nat.lt_of_le_of_lt (Nat.sub_le ..) (Addr.lt _)⟩, ?_, hlf, ?_⟩
      · simp only [lastHost, Addr.is4, Prefix.masked_family, hf, decide_true, if_true,
          Prefix.masked_bits, hb, Addr.prev]
        rw [if_neg (by omega)]
      · simp only [hlv, hi, hs, if_true]
        omega
    case neg =>
      refine ⟨_, ?_, hlf, ?_⟩
      · simp [lastHost, Addr.is4, hf, hb]
      · simp only [hlv, hi, Short, hb, and_false, if_false]
        omega

theorem isGE_compare {b : Addr} (h : a.family = b.family) :
    (Addr.compare (some a) (some b)).isGE = true ↔ b.val ≤ a.val := by
  simp [Addr.compare, h, Nat.isGE_compare]

theorem isLE_compare {b : Addr} (h : a.family = b.family) :
    (Addr.compare (some a) (some b)).isLE = true ↔ a.val ≤ b.val := by
  simp [Addr.compare, h, Nat.isLE_compare]

theorem IsHost.contains (h : IsHost p a) : p.masked.contains (some a) = true := by
  rw [Prefix.masked_contains_iff]
  have := Prefix.two_pow_hostBits_pos (p := p)
  have := h.bounds
  unfold lo hi at this
  exact ⟨h.family, by split at this <;> omega⟩

theorem isUsable_iff : isUsable p.masked (some a) = true ↔ IsHost p a := by
  obtain ⟨f, hf, hff, hfv⟩ := firstHost_eq p
  obtain ⟨l, hl, hlf, hlv⟩ := lastHost_eq p
  simp only [isUsable, hf, hl, Bool.and_eq_true]
  constructor
  case mp =>
    rintro ⟨⟨hc, hge⟩, hle⟩
    have ha := (Prefix.masked_contains_iff.mp hc).1
    rw [isGE_compare (ha.trans hff.symm), hfv] at hge
    rw [isLE_compare (ha.trans hlf.symm), hlv] at hle
    exact ⟨ha, hge, hle⟩
  case mpr =>
    intro h
    refine ⟨⟨h.contains, ?_⟩, ?_⟩
    · rw [isGE_compare (h.family.trans hff.symm), hfv]
      exact h.bounds.1
    · rw [isLE_compare (h.family.trans hlf.symm), hlv]
      exact h.bounds.2

-- The hosts in the words of the address plan.
theorem isHost_iff :
    IsHost p a ↔
      p.masked.contains (some a) = true ∧
      (Short p → a.val ≠ p.masked.addr.val ∧ a.val ≠ p.masked.addr.val + 2 ^ p.hostBits - 1) := by
  have := Prefix.two_pow_hostBits_pos (p := p)
  rw [Prefix.masked_contains_iff]
  constructor
  case mp =>
    intro h
    have hb := h.bounds
    unfold lo hi at hb
    refine ⟨⟨h.family, by split at hb <;> omega⟩, fun hs => ?_⟩
    simp only [hs, if_true] at hb
    have := hs.four_le
    omega
  case mpr =>
    rintro ⟨⟨hf, hb⟩, hs⟩
    refine ⟨hf, ?_⟩
    unfold lo hi
    by_cases h : Short p
    case pos =>
      have := hs h
      have := h.four_le
      simp only [h, if_true]
      omega
    case neg =>
      simp only [h, if_false]
      omega

theorem firstHost_isHost {f : Addr} (h : firstHost p.masked = some f) : IsHost p f := by
  obtain ⟨f', hf, hff, hfv⟩ := firstHost_eq p
  obtain rfl : f' = f := by simpa [hf] using h
  exact ⟨hff, by rw [hfv]; exact ⟨Nat.le_refl _, lo_le_hi p⟩⟩

theorem advance_of_lt (hc : p.masked.contains (some a) = true) (h : a.val < hi p) :
    ∃ b, advance p.masked (some a) = some b ∧ b.family = p.addr.family ∧ b.val = a.val + 1 := by
  obtain ⟨l, hl, hlf, hlv⟩ := lastHost_eq p
  obtain ⟨ha, hv⟩ := Prefix.masked_contains_iff.mp hc
  have hn : a.val + 1 < 2 ^ a.family.bitLen := by
    rw [ha]
    exact Nat.lt_of_le_of_lt h (hi_lt p)
  have hc' : p.masked.contains (some ⟨a.family, a.val + 1, hn⟩) = true := by
    rw [Prefix.masked_contains_iff]
    refine ⟨ha, ?_⟩
    unfold hi at h
    split at h <;> simp only <;> omega
  have hle : (Addr.compare (some ⟨a.family, a.val + 1, hn⟩) (some l)).isLE = true :=
    (isLE_compare (a := ⟨a.family, a.val + 1, hn⟩) (ha.trans hlf.symm)).mpr (by rw [hlv]; exact h)
  refine ⟨⟨a.family, a.val + 1, hn⟩, ?_, ha, rfl⟩
  rw [Ordering.isLE_iff_ne_gt] at hle
  simp [advance, Addr.next, hn, hc', hl, hle]

-- Beyond the last host the pool does not contain the next address, or it compares greater.
theorem advance_of_ge (ha : a.family = p.addr.family) (h : hi p ≤ a.val) :
    advance p.masked (some a) = firstHost p.masked := by
  obtain ⟨l, hl, hlf, hlv⟩ := lastHost_eq p
  simp only [advance, Option.bind_some]
  split
  case isTrue => rfl
  case isFalse hn =>
    exfalso
    unfold Addr.next at hn
    split at hn
    case isFalse => simp [Prefix.contains] at hn
    case isTrue hlt =>
      have hle := (isLE_compare (a := ⟨a.family, a.val + 1, hlt⟩) (ha.trans hlf.symm)).not.mpr
        (by simp only [hlv]; omega)
      simp_all [Ordering.isLE_iff_ne_gt]

-- Inside the hosts the address after the last one is the first one again.
theorem advance_host (h : IsHost p a) :
    ∃ b, advance p.masked (some a) = some b ∧ IsHost p b ∧
      b.val = Cyclic.succ (lo p) (hi p) a.val := by
  have hb := h.bounds
  by_cases hlt : a.val < hi p
  case pos =>
    obtain ⟨b, hadv, hbf, hbv⟩ := advance_of_lt h.contains hlt
    exact ⟨b, hadv, ⟨hbf, by omega⟩, by simp [Cyclic.succ, hlt, hbv]⟩
  case neg =>
    obtain ⟨f, hf, _, hfv⟩ := firstHost_eq p
    refine ⟨f, ?_, firstHost_isHost hf, by simp [Cyclic.succ, hlt, hfv]⟩
    rw [advance_of_ge h.family (Nat.le_of_not_lt hlt), hf]

-- An address of the pool that is not a host is the network or the broadcast address, and the first
-- host comes after both.
theorem advance_not_host (hc : p.masked.contains (some a) = true) (h : ¬ IsHost p a) :
    advance p.masked (some a) = firstHost p.masked := by
  obtain ⟨f, hf, hff, hfv⟩ := firstHost_eq p
  obtain ⟨ha, hv⟩ := Prefix.masked_contains_iff.mp hc
  by_cases hlt : a.val < hi p
  case neg => exact advance_of_ge ha (Nat.le_of_not_lt hlt)
  case pos =>
    obtain ⟨b, hadv, hbf, hbv⟩ := advance_of_lt hc hlt
    have hlo : a.val < lo p := by
      by_contra hlo
      exact h ⟨ha, by omega⟩
    have : lo p = a.val + 1 := by
      by_cases hs : Short p <;> simp only [lo, hs, if_true, if_false] at hlo ⊢ <;> omega
    rw [hadv, hf, Option.some.injEq, Addr.ext_iff]
    exact ⟨hbf.trans hff.symm, by omega⟩

end Hosts

section Search

variable {p : Prefix} {a : Addr} {reserved : Addr → Bool} {fuel : Nat} {steps : Int}

def hostSucc (p : Prefix) (a : Addr) : Addr :=
  (advance p.masked (some a)).getD a

theorem advance_eq_hostSucc (h : IsHost p a) :
    advance p.masked (some a) = some (hostSucc p a) := by
  obtain ⟨b, hb, _⟩ := advance_host h
  simp [hostSucc, hb]

-- `Allocate` walks the hosts of a pool in a circle.
def hosts (p : Prefix) : Cyclic.Cycle (hostSucc p) where
  mem      := IsHost p
  pos      := Addr.val
  lo       := lo p
  hi       := hi p
  bounds   := IsHost.bounds
  inj      := fun ha hb h => Addr.ext (ha.family.trans hb.family.symm) h
  step_mem := fun h => by
    obtain ⟨b, hb, hh, _⟩ := advance_host h
    simpa [hostSucc, hb] using hh
  step_pos := fun h => by
    obtain ⟨b, hb, _, hv⟩ := advance_host h
    simpa [hostSucc, hb] using hv

-- Where the walk meets the first host.
def start (p : Prefix) (cursor : Option Addr) : Addr :=
  match if isUsable p.masked cursor then cursor else firstHost p.masked with
  | some a => a
  | none   => p.addr

def firstFree (p : Prefix) (cursor : Option Addr) (reserved : Addr → Bool) : Option Addr :=
  Cyclic.search (hostSucc p) (fun a => !reserved a) (hosts p).size (start p cursor)

theorem start_isHost (p : Prefix) (cursor : Option Addr) : IsHost p (start p cursor) := by
  obtain ⟨f, hf, _⟩ := firstHost_eq p
  unfold start
  cases cursor
  case none => simpa [isUsable, Prefix.contains, hf] using firstHost_isHost hf
  case some c =>
    by_cases hu : isUsable p.masked (some c) = true
    case pos => simpa [hu] using isUsable_iff.mp hu
    case neg => simpa [hu, hf] using firstHost_isHost hf

theorem firstFree_eq_none_iff {cursor : Option Addr} :
    firstFree p cursor reserved = none ↔ ∀ a, IsHost p a → reserved a = true := by
  rw [firstFree, (hosts p).search_eq_none_iff (start_isHost p cursor) (Nat.le_refl _)]
  simp [hosts]

theorem firstFree_eq_some_iff {cursor : Option Addr} :
    firstFree p cursor reserved = some a ↔
      IsHost p a ∧ reserved a = false ∧
      ∀ b, IsHost p b → (hosts p).dist (start p cursor) b < (hosts p).dist (start p cursor) a →
        reserved b = true := by
  rw [firstFree, (hosts p).search_eq_some_iff (start_isHost p cursor) (Nat.le_refl _)]
  simp only [Bool.not_eq_true', Bool.not_eq_false']
  rfl

theorem allocateLoop_host (h : IsHost p a) (hs : steps ≤ addrCount p.masked) :
    allocateLoop p.masked reserved (fuel + 1) steps (some a) =
      if reserved a then allocateLoop p.masked reserved fuel (toInt (steps + 1)) (hostSucc p a)
      else .allocated ⟨a, hostSucc p a⟩ := by
  rw [allocateLoop, if_pos hs, ← advance_eq_hostSucc h]
  cases hr : reserved a <;> simp [Option.filter, isUsable_iff.mpr h, hr]

-- Below 31 host bits the loop ends after `addrCount` further steps.
theorem allocateLoop_bounded {n : Nat} (hb : p.hostBits < 31) (h : IsHost p a) (h0 : 0 ≤ steps)
    (hn : steps + n = addrCount p.masked + 1) (hf : n < fuel) :
    allocateLoop p.masked reserved fuel steps (some a) =
      match Cyclic.search (hostSucc p) (fun a => !reserved a) n a with
      | some b => .allocated ⟨b, hostSucc p b⟩
      | none   => .exhausted := by
  induction n generalizing fuel steps a <;> obtain ⟨fuel, rfl⟩ := Nat.exists_eq_add_of_lt hf
  case zero =>
    have : ¬ steps ≤ addrCount p.masked := by omega
    simp [allocateLoop, this, Cyclic.search]
  case succ n ih =>
    have hlt : addrCount p.masked < 2 ^ 31 := by
      have hp : 2 ^ p.hostBits ≤ 2 ^ 30 := Nat.pow_le_pow_right (by decide) (by omega)
      have hp' : (2 : Int) ^ p.hostBits ≤ 2 ^ 30 := by exact_mod_cast hp
      simp only [addrCount, Prefix.masked_hostBits, Nat.not_le.mpr hb, if_false]
      split <;> omega
    have ht : toInt (steps + 1) = steps + 1 := by
      rw [toInt, Int.bmod_eq_of_le] <;> omega
    rw [allocateLoop_host h (by omega), Cyclic.search]
    cases hr : reserved a
    case false => rfl
    case true =>
      simp only [if_true, ht]
      exact ih ((hosts p).step_mem h) (by omega) (by omega) (by omega)

-- From 31 host bits on its bound is the largest `int`, which `steps` never exceeds.
theorem allocateLoop_unbounded (hb : 31 ≤ p.hostBits) (h : IsHost p a) (hs : steps ≤ maxInt) :
    allocateLoop p.masked reserved fuel steps (some a) =
      match Cyclic.search (hostSucc p) (fun a => !reserved a) fuel a with
      | some b => .allocated ⟨b, hostSucc p b⟩
      | none   => .unfinished := by
  induction fuel generalizing steps a
  case zero => rfl
  case succ fuel ih =>
    rw [allocateLoop_host h (by simpa [addrCount, hb] using hs), Cyclic.search]
    cases hr : reserved a
    case false => rfl
    case true =>
      refine ih ((hosts p).step_mem h) ?_
      have := Int.bmod_lt (x := steps + 1) (m := 2 ^ 64) (by decide)
      simp only [toInt, maxInt]
      omega

theorem addrCount_nonneg (p : Prefix) : 0 ≤ addrCount p := by
  unfold addrCount
  split
  case isTrue => decide
  case isFalse =>
    split
    case isTrue h =>
      have h4 := Short.four_le ⟨of_decide_eq_true h.1, h.2⟩
      have : (4 : Int) ≤ 2 ^ p.hostBits := by exact_mod_cast h4
      omega
    case isFalse => positivity

-- The walk starts at a host, or at the network or broadcast address one step before the first host.
theorem allocateWithin_eq_loop (fuel : Nat) (p : Prefix) (cursor : Option Addr)
    (reserved : Addr → Bool) :
    ∃ k ≤ 1, allocateWithin (fuel + 1) p cursor reserved =
      allocateLoop p.masked reserved (fuel + 1 - k) k (some (start p cursor)) := by
  obtain ⟨f, hf, _⟩ := firstHost_eq p
  have hfh := firstHost_isHost hf
  by_cases hc : p.masked.contains cursor = true
  case neg =>
    have hs : start p cursor = f := by simp [start, isUsable, hc, hf]
    exact ⟨0, by decide, by simp [allocateWithin, hc, hf, hs]⟩
  case pos =>
    cases cursor
    case none => cases hc
    case some c =>
      by_cases hh : IsHost p c
      case pos =>
        have hs : start p (some c) = c := by simp [start, isUsable_iff.mpr hh]
        exact ⟨0, by decide, by simp [allocateWithin, hc, hs]⟩
      case neg =>
        have hu : isUsable p.masked (some c) = false := by simpa using isUsable_iff.not.mpr hh
        have hs : start p (some c) = f := by simp [start, hu, hf]
        refine ⟨1, by decide, ?_⟩
        simp [allocateWithin, hc, allocateLoop, addrCount_nonneg, Option.filter, hu, hs,
          advance_not_host hc hh, hf, toInt, Int.bmod]

theorem size_hosts (p : Prefix) : (hosts p).size ≤ 2 ^ p.hostBits := by
  have := Prefix.two_pow_hostBits_pos (p := p)
  simp only [Cyclic.Cycle.size, hosts, lo, hi]
  split <;> omega

theorem size_hosts_bounded (hb : p.hostBits < 31) : ((hosts p).size : Int) = addrCount p.masked := by
  have hpos := Prefix.two_pow_hostBits_pos (p := p)
  have hc : ((2 ^ p.hostBits : Nat) : Int) = 2 ^ p.hostBits := by push_cast; rfl
  by_cases hs : Short p
  case pos =>
    have := hs.four_le
    have h4 : p.masked.addr.is4 = true ∧ p.masked.bits < 31 := ⟨decide_eq_true hs.1, hs.2⟩
    simp only [Cyclic.Cycle.size, hosts, lo, hi, hs, if_true, addrCount, Prefix.masked_hostBits,
      Nat.not_le.mpr hb, if_false, h4, and_self, ← hc]
    omega
  case neg =>
    have h4 : ¬ (p.masked.addr.is4 = true ∧ p.masked.bits < 31) :=
      fun h => hs ⟨of_decide_eq_true h.1, h.2⟩
    simp only [Cyclic.Cycle.size, hosts, lo, hi, hs, addrCount, Prefix.masked_hostBits,
      Nat.not_le.mpr hb, if_false, h4, ← hc]
    omega

-- What `Allocate` returns: the first free host from the cursor on, if there is one.
theorem allocateWithin_eq (p : Prefix) (cursor : Option Addr) (reserved : Addr → Bool)
    (hf : 2 ^ p.hostBits + 3 ≤ fuel) :
    allocateWithin fuel p cursor reserved =
      match firstFree p cursor reserved with
      | some a => .allocated ⟨a, hostSucc p a⟩
      | none   => if p.hostBits < 31 then .exhausted else .unfinished := by
  obtain ⟨fuel, rfl⟩ := Nat.exists_eq_add_one_of_ne_zero (Nat.ne_of_gt (Nat.lt_of_lt_of_le (by simp) hf))
  obtain ⟨k, hk, hl⟩ := allocateWithin_eq_loop fuel p cursor reserved
  have hs := start_isHost p cursor
  have hsz := size_hosts p
  rw [hl, firstFree]
  by_cases hb : p.hostBits < 31
  case pos =>
    have hc := size_hosts_bounded hb
    rw [allocateLoop_bounded (n := (hosts p).size + 1 - k) hb hs (by omega) (by omega) (by omega),
      (hosts p).search_eq_search_size hs (by omega)]
    simp [hb]
  case neg =>
    rw [allocateLoop_unbounded (Nat.le_of_not_lt hb) hs (by simp only [maxInt]; omega),
      (hosts p).search_eq_search_size hs (by omega)]
    simp [hb]

theorem allocate_eq (p : Prefix) (cursor : Option Addr) (reserved : Addr → Bool) :
    allocate p cursor reserved =
      match firstFree p cursor reserved with
      | some a => .allocated ⟨a, hostSucc p a⟩
      | none   => if p.hostBits < 31 then .exhausted else .unfinished :=
  allocateWithin_eq p cursor reserved (Nat.le_refl _)

-- A search that is unfinished with the fuel of `allocate` is one that never ends.
theorem allocate_eq_unfinished_iff {cursor : Option Addr} :
    allocate p cursor reserved = .unfinished ↔
      ∀ fuel, allocateWithin fuel p cursor reserved = .unfinished := by
  refine ⟨fun h fuel => ?_, fun h => h _⟩
  cases fuel
  case zero => rfl
  case succ fuel =>
    obtain ⟨k, hk, hl⟩ := allocateWithin_eq_loop fuel p cursor reserved
    rw [allocate_eq] at h
    cases hf : firstFree p cursor reserved <;> simp only [hf, reduceCtorEq] at h
    case none =>
      by_cases hb : p.hostBits < 31 <;> simp only [hb, if_true, if_false, reduceCtorEq] at h
      have hs := start_isHost p cursor
      have hn : Cyclic.search (hostSucc p) (fun a => !reserved a) (fuel + 1 - k) (start p cursor) =
          none := by
        rw [Cyclic.search_eq_none_iff]
        intro i _
        simpa using firstFree_eq_none_iff.mp hf _ ((hosts p).iterate_mem hs i)
      rw [hl, allocateLoop_unbounded (Nat.le_of_not_lt hb) hs (by simp only [maxInt]; omega), hn]

end Search
end Ipam
