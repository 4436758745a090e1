import Mathlib.Algebra.Order.Ring.Nat
import Mathlib.Tactic.Ring
import Mathlib.Tactic.Common

-- The part of the standard library's `net/netip` that the control plane uses. Zones do not occur: the
-- database has no type for them.
namespace Netip

inductive Family
  | v4
  | v6
deriving DecidableEq

def Family.bitLen : Family → Nat
  | v4 => 32
  | v6 => 128

-- A valid address. The zero `netip.Addr`, which is not a valid one, is `none` of `Option Addr`.
@[ext]
structure Addr where
  family : Family
  val    : Nat
  lt     : val < 2 ^ family.bitLen
deriving DecidableEq

namespace Addr

def next (a : Addr) : Option Addr :=
  if h : a.val + 1 < 2 ^ a.family.bitLen then some ⟨a.family, a.val + 1, h⟩ else none

def prev (a : Addr) : Option Addr :=
  if a.val = 0 then none else some ⟨a.family, a.val - 1, Nat.lt_of_le_of_lt (Nat.sub_le ..) a.lt⟩

def is4 (a : Addr) : Bool :=
  a.family = .v4

def is6 (a : Addr) : Bool :=
  a.family = .v6

-- Families are compared before values, and the zero address comes before every other one.
def compare : Option Addr → Option Addr → Ordering
  | none,   none   => .eq
  | none,   some _ => .lt
  | some _, none   => .gt
  | some a, some b => (Ord.compare a.family.bitLen b.family.bitLen).then (Ord.compare a.val b.val)

-- The bytes of the 16-byte form, the last one first. An IPv4 address takes its IPv4-mapped form.
def as16Rev (a : Addr) : List (BitVec 8) :=
  bytes 16 (match a.family with | .v4 => 0xffff * 2 ^ 32 + a.val | .v6 => a.val)
where
  bytes : Nat → Nat → List (BitVec 8)
    | 0,     _ => []
    | n + 1, v => BitVec.ofNat 8 v :: bytes n (v / 256)

def bytesVal : List (BitVec 8) → Nat
  | []      => 0
  | b :: bs => b.toNat + 256 * bytesVal bs

-- `AddrFrom16`, for bytes given the last one first. At most 16 of them count.
def from16Rev (bs : List (BitVec 8)) : Addr where
  family := .v6
  val    := bytesVal bs % 2 ^ 128
  lt     := Nat.mod_lt _ (by decide)

def is4In6 (a : Addr) : Bool :=
  a.is6 && a.val / 2 ^ 32 = 0xffff

def unmap (a : Addr) : Addr :=
  if a.is4In6 then ⟨.v4, a.val % 2 ^ 32, Nat.mod_lt _ (by decide)⟩ else a

def string4 (v : Nat) : String :=
  toString (v / 2 ^ 24) ++ "." ++ toString (v / 2 ^ 16 % 256) ++ "." ++
  toString (v / 2 ^ 8 % 256) ++ "." ++ toString (v % 256)

-- The 16-bit groups of an IPv6 address, the first one first.
def groups (v : Nat) : List Nat :=
  [7, 6, 5, 4, 3, 2, 1, 0].map (fun i => v / 2 ^ (16 * i) % 2 ^ 16)

-- Start and length of the first longest run of at least two zero groups.
def zeroRun (gs : List Nat) : Nat × Nat :=
  (List.range gs.length).foldl
    (fun best i =>
      let l := ((gs.drop i).takeWhile (· == 0)).length
      if 2 ≤ l ∧ best.2 < l then (i, l) else best)
    (0, 0)

def hexGroups (gs : List Nat) : String :=
  ":".intercalate (gs.map (fun g => String.ofList (Nat.toDigits 16 g)))

def string6 (v : Nat) : String :=
  let gs := groups v
  match zeroRun gs with
  | (_, 0)     => hexGroups gs
  | (start, l) => hexGroups (gs.take start) ++ "::" ++ hexGroups (gs.drop (start + l))

def string (a : Addr) : String :=
  match a.family with
  | .v4 => string4 a.val
  | .v6 => if a.is4In6 then "::ffff:" ++ string4 (a.val % 2 ^ 32) else string6 a.val

end Addr

-- A valid prefix.
structure Prefix where
  addr : Addr
  bits : Nat
  le   : bits ≤ addr.family.bitLen
deriving DecidableEq

namespace Prefix

def hostBits (p : Prefix) : Nat :=
  p.addr.family.bitLen - p.bits

def masked (p : Prefix) : Prefix where
  addr.family := p.addr.family
  addr.val    := p.addr.val / 2 ^ p.hostBits * 2 ^ p.hostBits
  addr.lt     := Nat.lt_of_le_of_lt (Nat.div_mul_le_self ..) p.addr.lt
  bits        := p.bits
  le          := p.le

def contains (p : Prefix) : Option Addr → Bool
  | none   => false
  | some a => a.family = p.addr.family ∧ a.val / 2 ^ p.hostBits = p.addr.val / 2 ^ p.hostBits

def string (p : Prefix) : String :=
  p.addr.string ++ "/" ++ toString p.bits

-- The prefix of a single address.
def host (a : Addr) : Prefix :=
  ⟨a, a.family.bitLen, Nat.le_refl _⟩

section

variable {p : Prefix} {a : Addr}

@[simp]
theorem masked_family : p.masked.addr.family = p.addr.family :=
  rfl

@[simp]
theorem masked_bits : p.masked.bits = p.bits :=
  rfl

@[simp]
theorem masked_hostBits : p.masked.hostBits = p.hostBits :=
  rfl

theorem dvd_masked : 2 ^ p.hostBits ∣ p.masked.addr.val :=
  Nat.dvd_mul_left ..

theorem two_pow_hostBits_pos : 0 < 2 ^ p.hostBits :=
  Nat.two_pow_pos _

-- The addresses of a prefix are an interval of its family.
theorem masked_contains_iff :
    p.masked.contains (some a) = true ↔
      a.family = p.addr.family ∧
      p.masked.addr.val ≤ a.val ∧ a.val < p.masked.addr.val + 2 ^ p.hostBits := by
  rw [contains, decide_eq_true_iff, masked_family, masked_hostBits]
  refine and_congr_right fun _ => ?_
  obtain ⟨q, hq⟩ := dvd_masked (p := p)
  rw [hq, Nat.mul_div_cancel_left _ two_pow_hostBits_pos,
    Nat.div_eq_iff two_pow_hostBits_pos, Nat.mul_comm q]
  have := two_pow_hostBits_pos (p := p)
  omega

-- The addresses of a prefix lie in the range of its family.
theorem masked_add_le : p.masked.addr.val + 2 ^ p.hostBits ≤ 2 ^ p.addr.family.bitLen := by
  obtain ⟨q, hq⟩ := dvd_masked (p := p)
  have hlt := p.masked.addr.lt
  have hs : 2 ^ p.addr.family.bitLen = 2 ^ p.hostBits * 2 ^ p.bits := by
    rw [← Nat.pow_add, hostBits, Nat.sub_add_cancel p.le]
  rw [masked_family, hs, hq] at hlt
  rw [hs, hq, ← Nat.mul_succ]
  exact Nat.mul_le_mul_left _ (Nat.lt_of_mul_lt_mul_left hlt)

end

end Prefix
end Netip
