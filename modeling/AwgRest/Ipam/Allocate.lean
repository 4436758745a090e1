import AwgRest.Ipam
import Mathlib.Order.Interval.Finset.Nat

open Netip

-- `Allocate` as a search for the first free address in a circle.
namespace Ipam

variable {p : Prefix} {cursor : Option Addr} {reserved : Addr → Bool} {fuel : Nat}

-- The search begins at the cursor if it can be handed out, and at the first host otherwise.
structure IsStart (p : Prefix) (cursor : Option Addr) (s : Addr) : Prop where
  host  : IsHost p s
  start : cursor = some s ∨ (∀ c ∈ cursor, ¬ IsHost p c) ∧ s.val = lo p

-- The first free address in the circle, with the address after it.
structure IsFirstFree (p : Prefix) (cursor : Option Addr) (reserved : Addr → Bool) (x : Allocation) :
    Prop where
  host  : IsHost p x.address
  free  : reserved x.address = false
  first : ∀ s, IsStart p cursor s → ∀ b, IsHost p b →
    Cyclic.dist (lo p) (hi p) s.val b.val < Cyclic.dist (lo p) (hi p) s.val x.address.val →
      reserved b = true
  next  : ∃ b, x.nextCursor = some b ∧ IsHost p b ∧ b.val = Cyclic.succ (lo p) (hi p) x.address.val

theorem start_of_isHost {c : Addr} (h : IsHost p c) : start p (some c) = c := by
  simp [start, isUsable_iff.mpr h]

theorem val_start (h : ∀ c ∈ cursor, ¬ IsHost p c) : (start p cursor).val = lo p := by
  obtain ⟨f, hf, -, hv⟩ := firstHost_eq p
  have hu : isUsable p.masked cursor = false := by
    cases cursor
    case none   => rfl
    case some c => simpa using isUsable_iff.not.mpr (h c rfl)
  simpa [start, hu, hf] using hv

theorem isStart_iff {s : Addr} : IsStart p cursor s ↔ s = start p cursor := by
  constructor
  case mp =>
    rintro ⟨hs, rfl | ⟨hc, hv⟩⟩
    · exact (start_of_isHost hs).symm
    · exact (hosts p).inj hs (start_isHost p cursor) (hv.trans (val_start hc).symm)
  case mpr =>
    rintro rfl
    refine ⟨start_isHost p cursor, ?_⟩
    by_cases hc : ∀ c ∈ cursor, ¬ IsHost p c
    case pos => exact .inr ⟨hc, val_start hc⟩
    case neg =>
      push Not at hc
      obtain ⟨c, rfl, hh⟩ := hc
      exact .inl (by rw [start_of_isHost hh])

-- The next cursor of the result is determined, since hosts with the same value are the same.
theorem isFirstFree_iff {x : Allocation} :
    IsFirstFree p cursor reserved x ↔
      firstFree p cursor reserved = some x.address ∧ x.nextCursor = some (hostSucc p x.address) := by
  rw [firstFree_eq_some_iff]
  constructor
  case mp =>
    intro h
    refine ⟨⟨h.host, h.free, h.first _ (isStart_iff.mpr rfl)⟩, ?_⟩
    obtain ⟨b, hb, hh, hv⟩ := h.next
    rw [hb, (hosts p).inj hh ((hosts p).step_mem h.host) (hv.trans ((hosts p).step_pos h.host).symm)]
  case mpr =>
    rintro ⟨⟨hh, hfree, hfirst⟩, hn⟩
    refine ⟨hh, hfree, fun s hs => ?_, _, hn, (hosts p).step_mem hh, (hosts p).step_pos hh⟩
    rw [isStart_iff.mp hs]
    exact hfirst

-- A pool of 31 or more host bits has more hosts than can be reserved one by one.
theorem exists_free (hb : 31 ≤ p.hostBits) {s : Finset Addr} (hs : ∀ a, reserved a = true → a ∈ s)
    (hc : s.card < 2 ^ 31 - 2) : ∃ a, IsHost p a ∧ reserved a = false := by
  by_contra hnone
  push Not at hnone
  -- The values of the hosts are among the values of what is reserved.
  have hsub : Finset.Icc (lo p) (hi p) ⊆ s.image Addr.val := by
    intro v hv
    rw [Finset.mem_Icc] at hv
    have hlt : v < 2 ^ p.addr.family.bitLen := Nat.lt_of_le_of_lt hv.2 (hi_lt p)
    have hr := hnone ⟨p.addr.family, v, hlt⟩ ⟨rfl, hv⟩
    exact Finset.mem_image.mpr ⟨_, hs _ (by simpa using hr), rfl⟩
  have hcard := (Finset.card_le_card hsub).trans Finset.card_image_le
  have hpow : 2 ^ 31 ≤ 2 ^ p.hostBits := Nat.pow_le_pow_right (by decide) hb
  rw [Nat.card_Icc] at hcard
  unfold lo hi at hcard
  split at hcard <;> omega

theorem allocate_cyclic_search (p : Prefix) (cursor : Option Addr) (reserved : Addr → Bool)
    (h : p.hostBits ≤ 30 ∨
      ∃ s : Finset Addr, (∀ a, reserved a = true → a ∈ s) ∧ s.card < 2 ^ 31 - 2)
    {fuel : Nat} (hf : 2 ^ p.hostBits + 3 ≤ fuel) :
    (∀ x, allocateWithin fuel p cursor reserved = .allocated x ↔ IsFirstFree p cursor reserved x) ∧
    (allocateWithin fuel p cursor reserved = .exhausted ↔ ∀ a, IsHost p a → reserved a = true) ∧
    allocateWithin fuel p cursor reserved ≠ .unfinished := by
  simp only [isFirstFree_iff, ← @firstFree_eq_none_iff p reserved cursor]
  rw [allocateWithin_eq p cursor reserved hf]
  cases hx : firstFree p cursor reserved
  case some a =>
    refine ⟨fun x => ?_, by simp, by simp⟩
    simp only [Outcome.allocated.injEq, Option.some.injEq]
    constructor
    case mp =>
      rintro rfl
      exact ⟨rfl, rfl⟩
    case mpr =>
      rintro ⟨ha, hn⟩
      rw [← ha] at hn
      exact (congrArg₂ Allocation.mk ha hn.symm).trans rfl
  case none =>
    have hb : p.hostBits < 31 := by
      by_contra hge
      rcases h with h | ⟨s, hs, hc⟩
      · omega
      · obtain ⟨a, ha, hfree⟩ := exists_free (Nat.le_of_not_lt hge) hs hc
        simp [firstFree_eq_none_iff.mp hx a ha] at hfree
    simp [hb]

-- The network 10.0.0.0/30, whose broadcast address is the cursor and whose first host is reserved.
theorem allocate_cyclic_search_sample :
    let p : Prefix := ⟨⟨.v4, 0x0a000000, by decide⟩, 30, by decide⟩
    allocateWithin 7 p (some ⟨.v4, 0x0a000003, by decide⟩) (fun a => a.val = 0x0a000001) ≠
      .unfinished ∧
      IsFirstFree p (some ⟨.v4, 0x0a000003, by decide⟩) (fun a => a.val = 0x0a000001)
        ⟨⟨.v4, 0x0a000002, by decide⟩, some ⟨.v4, 0x0a000001, by decide⟩⟩ := by
  intro p
  obtain ⟨hx, -, hn⟩ := allocate_cyclic_search p (some ⟨.v4, 0x0a000003, by decide⟩)
    (fun a => a.val = 0x0a000001) (.inl (by decide)) (Nat.le_refl 7)
  exact ⟨hn, (hx _).mp (by decide)⟩

end Ipam
