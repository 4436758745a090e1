import Mathlib.Logic.Function.Iterate
import Mathlib.Tactic.Common

namespace Cyclic

variable {α : Type} {f : α → α} {p : α → Bool} {n k : Nat} {s a : α}

-- The first of `s`, `f s`, `f (f s)`, ... that satisfies `p`, among the first `n` of them.
def search (f : α → α) (p : α → Bool) : Nat → α → Option α
  | 0, _     => none
  | n + 1, s => if p s then some s else search f p n (f s)

theorem search_eq_none_iff : search f p n s = none ↔ ∀ k < n, p (f^[k] s) = false := by
  induction n generalizing s <;> simp only [search]
  case zero => simp
  case succ n ih =>
    by_cases hp : p s
    case pos =>
      simp only [hp, if_true, reduceCtorEq, false_iff, not_forall]
      exact ⟨0, n.succ_pos, by simp [hp]⟩
    case neg =>
      simp only [hp, Bool.false_eq_true, if_false, ih]
      constructor
      case mp =>
        intro h k hk
        cases k
        case zero   => simpa using hp
        case succ k => exact h k (Nat.lt_of_succ_lt_succ hk)
      case mpr => exact fun h k hk => h (k + 1) (Nat.succ_lt_succ hk)

theorem search_eq_some_iff :
    search f p n s = some a ↔
      ∃ k < n, f^[k] s = a ∧ p a = true ∧ ∀ j < k, p (f^[j] s) = false := by
  induction n generalizing s <;> simp only [search]
  case zero => simp
  case succ n ih =>
    by_cases hp : p s
    case pos =>
      simp only [hp, if_true, Option.some.injEq]
      constructor
      case mp =>
        rintro rfl
        exact ⟨0, n.succ_pos, rfl, hp, by simp⟩
      case mpr =>
        rintro ⟨k, _, rfl, _, hj⟩
        cases k
        case zero => rfl
        case succ => simpa [hp] using hj 0 (Nat.succ_pos _)
    case neg =>
      simp only [hp, Bool.false_eq_true, if_false, ih]
      constructor
      case mp =>
        rintro ⟨k, hk, he, ha, hj⟩
        refine ⟨k + 1, Nat.succ_lt_succ hk, he, ha, fun j hj' => ?_⟩
        cases j
        case zero   => simpa using hp
        case succ j => exact hj j (Nat.lt_of_succ_lt_succ hj')
      case mpr =>
        rintro ⟨k, hk, rfl, ha, hj⟩
        cases k
        case zero => exact absurd ha hp
        case succ k =>
          exact ⟨k, Nat.lt_of_succ_lt_succ hk, rfl, ha,
            fun j hj' => hj (j + 1) (Nat.succ_lt_succ hj')⟩

-- The successor in the cyclic order of the interval from `lo` to `hi`.
def succ (lo hi a : Nat) : Nat :=
  if a < hi then a + 1 else lo

-- How many successors lead from `s` to `a`.
def dist (lo hi s a : Nat) : Nat :=
  if s ≤ a then a - s else (hi - s) + 1 + (a - lo)

section Interval

variable {lo hi s a : Nat}

theorem dist_lt (hs : lo ≤ s ∧ s ≤ hi) (ha : lo ≤ a ∧ a ≤ hi) : dist lo hi s a < hi - lo + 1 := by
  unfold dist
  split <;> omega

theorem iterate_succ (hs : lo ≤ s ∧ s ≤ hi) (hk : k < hi - lo + 1) :
    (succ lo hi)^[k] s = if s + k ≤ hi then s + k else lo + (s + k - hi - 1) := by
  induction k
  case zero => simp [hs.2]
  case succ k ih =>
    rw [Function.iterate_succ_apply', ih (by omega)]
    unfold succ
    split <;> split <;> split <;> omega

theorem iterate_dist (hs : lo ≤ s ∧ s ≤ hi) (ha : lo ≤ a ∧ a ≤ hi) :
    (succ lo hi)^[dist lo hi s a] s = a := by
  rw [iterate_succ hs (dist_lt hs ha)]
  unfold dist
  split <;> split <;> omega

theorem dist_iterate (hs : lo ≤ s ∧ s ≤ hi) (hk : k < hi - lo + 1) :
    dist lo hi s ((succ lo hi)^[k] s) = k := by
  rw [iterate_succ hs hk]
  unfold dist
  split <;> split <;> omega

end Interval

-- A map that goes around a finite set once and again: its elements have positions in an interval, and
-- the map goes to the cyclically next position.
structure Cycle (f : α → α) where
  mem      : α → Prop
  pos      : α → Nat
  lo       : Nat
  hi       : Nat
  bounds   : ∀ {a}, mem a → lo ≤ pos a ∧ pos a ≤ hi
  inj      : ∀ {a b}, mem a → mem b → pos a = pos b → a = b
  step_mem : ∀ {a}, mem a → mem (f a)
  step_pos : ∀ {a}, mem a → pos (f a) = succ lo hi (pos a)

namespace Cycle

variable (c : Cycle f) {b : α}

def size : Nat :=
  c.hi - c.lo + 1

-- How many steps lead from `s` to `a`.
def dist (s a : α) : Nat :=
  Cyclic.dist c.lo c.hi (c.pos s) (c.pos a)

theorem iterate_mem (hs : c.mem s) (k : Nat) : c.mem (f^[k] s) := by
  induction k
  case zero => exact hs
  case succ k ih =>
    rw [Function.iterate_succ_apply']
    exact c.step_mem ih

theorem pos_iterate (hs : c.mem s) (k : Nat) : c.pos (f^[k] s) = (succ c.lo c.hi)^[k] (c.pos s) := by
  induction k
  case zero => rfl
  case succ k ih =>
    rw [Function.iterate_succ_apply', Function.iterate_succ_apply', ← ih]
    exact c.step_pos (c.iterate_mem hs k)

theorem dist_lt (hs : c.mem s) (ha : c.mem a) : c.dist s a < c.size :=
  Cyclic.dist_lt (c.bounds hs) (c.bounds ha)

theorem iterate_dist (hs : c.mem s) (ha : c.mem a) : f^[c.dist s a] s = a := by
  refine c.inj (c.iterate_mem hs _) ha ?_
  rw [c.pos_iterate hs]
  exact Cyclic.iterate_dist (c.bounds hs) (c.bounds ha)

theorem dist_iterate (hs : c.mem s) (hk : k < c.size) : c.dist s (f^[k] s) = k := by
  rw [dist, c.pos_iterate hs]
  exact Cyclic.dist_iterate (c.bounds hs) hk

-- Once around is enough.
theorem search_eq_none_iff (hs : c.mem s) (hn : c.size ≤ n) :
    search f p n s = none ↔ ∀ a, c.mem a → p a = false := by
  rw [Cyclic.search_eq_none_iff]
  constructor
  case mp =>
    intro h a ha
    have := h (c.dist s a) (Nat.lt_of_lt_of_le (c.dist_lt hs ha) hn)
    rwa [c.iterate_dist hs ha] at this
  case mpr => exact fun h k _ => h _ (c.iterate_mem hs k)

theorem search_eq_some_iff (hs : c.mem s) (hn : c.size ≤ n) :
    search f p n s = some a ↔
      c.mem a ∧ p a = true ∧ ∀ b, c.mem b → c.dist s b < c.dist s a → p b = false := by
  rw [Cyclic.search_eq_some_iff]
  constructor
  case mp =>
    rintro ⟨k, _, rfl, hp, hj⟩
    -- The least number of steps that leads to an element with `p` is below the size of the cycle, as
    -- the elements repeat from there on.
    have hk : k < c.size := by
      by_contra hc
      have hm := c.iterate_mem hs k
      have hd := c.dist_lt hs hm
      have := hj _ (Nat.lt_of_lt_of_le hd (Nat.le_of_not_lt hc))
      rw [c.iterate_dist hs hm] at this
      simp [hp] at this
    refine ⟨c.iterate_mem hs k, hp, fun b hb hlt => ?_⟩
    rw [c.dist_iterate hs hk] at hlt
    have := hj _ hlt
    rwa [c.iterate_dist hs hb] at this
  case mpr =>
    rintro ⟨ha, hp, hb⟩
    have hd := c.dist_lt hs ha
    refine ⟨c.dist s a, Nat.lt_of_lt_of_le hd hn, c.iterate_dist hs ha, hp, fun j hj => ?_⟩
    refine hb _ (c.iterate_mem hs j) ?_
    rwa [c.dist_iterate hs (Nat.lt_trans hj hd)]

theorem search_eq_search_size (hs : c.mem s) (hn : c.size ≤ n) :
    search f p n s = search f p c.size s := by
  ext a
  rw [c.search_eq_some_iff hs hn, c.search_eq_some_iff hs (Nat.le_refl _)]

end Cycle
end Cyclic
