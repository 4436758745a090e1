import AwgRest.RateLimit.Bound

namespace RateLimit

variable {t : TokenBucket} {capacity : Int} {rate : ℚ} {key : String} {calls calls' : List Call}
  {a b : Int}

theorem answers_append :
    t.answers key (calls ++ calls') = t.answers key calls ++ (t.run calls).answers key calls' := by
  induction calls generalizing t
  case nil             => rfl
  case cons c calls ih =>
    rw [List.cons_append, TokenBucket.answers, TokenBucket.answers, run_cons, ih]
    split <;> rfl

theorem allowed_append :
    t.allowed key (calls ++ calls') = t.allowed key calls + (t.run calls).allowed key calls' := by
  rw [TokenBucket.allowed, answers_append, List.countP_append]
  rfl

theorem allowed_of_ne (h : ∀ c ∈ calls, c.key ≠ key) : t.allowed key calls = 0 := by
  induction calls generalizing t
  case nil             => rfl
  case cons c calls ih =>
    rw [allowed_cons_of_ne (h c (by simp))]
    exact ih fun c hc => h c (by simp [hc])

theorem mem_readings {r : Int} : r ∈ readings key calls ↔ ∃ c ∈ calls, c.key = key ∧ c.now = r := by
  simp [readings, and_assoc]

theorem latest_le {c : Call} (hc : c ∈ calls) (hk : c.key = key)
    (h : ∀ c ∈ calls, c.key = key → c.now ≤ b) :
    latest key calls ≤ b := by
  cases hm : (readings key calls).max?
  case none   =>
    have hnil := List.max?_eq_none_iff.mp hm
    exact absurd (mem_readings.mpr ⟨c, hc, hk, rfl⟩) (by simp [hnil])
  case some m =>
    obtain ⟨c, hc, hk, rfl⟩ := mem_readings.mp (List.max?_eq_some_iff.mp hm).1
    rw [latest, hm]
    exact h c hc hk

theorem le_latest {c : Call} (hc : c ∈ calls) (hk : c.key = key) : c.now ≤ latest key calls := by
  have hr : c.now ∈ readings key calls := mem_readings.mpr ⟨c, hc, hk, rfl⟩
  cases hm : (readings key calls).max?
  case none   =>
    have hnil := List.max?_eq_none_iff.mp hm
    exact absurd hr (by simp [hnil])
  case some m =>
    rw [latest, hm]
    exact (List.max?_eq_some_iff.mp hm).2 _ hr

theorem seconds_nonneg {d : Int} (h : 0 ≤ d) : 0 ≤ seconds d := by
  simpa [seconds] using seconds_mono h

-- What is allowed for a key between two points of time.
theorem allowed_between (hC : 1 ≤ capacity) (hr : 0 < rate) (before : List Call) (hab : a ≤ b)
    (hb : ∀ c ∈ before ++ calls, c.key = key → c.now ≤ b)
    (ha : ∀ c ∈ calls, c.key = key → a ≤ c.now) :
    (((newTokenBucket capacity rate).run before).allowed key calls : ℚ) ≤
      capacity + rate * seconds (b - a) := by
  -- The calls before the first one for the key do not count.
  cases hf : calls.find? (·.key = key)
  case none =>
    have hzero : ((newTokenBucket capacity rate).run before).allowed key calls = 0 :=
      allowed_of_ne fun c hc => by simpa using List.find?_eq_none.mp hf c hc
    have hcap : (1 : ℚ) ≤ capacity := by exact_mod_cast hC
    have hsec := mul_nonneg hr.le (seconds_nonneg (Int.sub_nonneg.mpr hab))
    rw [hzero, Nat.cast_zero]
    linarith
  case some c =>
    obtain ⟨hc, first, rest, rfl, hfirst⟩ := List.find?_eq_some_iff_append.mp hf
    obtain rfl : c.key = key := by simpa using hc
    replace hfirst : ∀ d ∈ first, d.key ≠ c.key := fun d hd => by simpa using hfirst d hd
    have hbound := window_bound hC hr (before ++ first) rest c
    rw [run_append] at hbound
    rw [allowed_append, allowed_of_ne hfirst, Nat.zero_add]
    refine hbound.trans ?_
    have hlast : latest c.key (before ++ first ++ c :: rest) ≤ b :=
      latest_le (c := c) (by simp) rfl fun d hd => hb d (by simpa using hd)
    have hstart : a ≤ latest c.key (before ++ first ++ [c]) :=
      (ha c (by simp) rfl).trans (le_latest (by simp) rfl)
    have hsec := seconds_mono (Int.sub_le_sub hlast hstart)
    have := mul_le_mul_of_nonneg_left hsec hr.le
    linarith

end RateLimit
