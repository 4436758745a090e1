import AwgRest.Lib.Strconv
import AwgRest.RateLimit.Bound

-- Whether the time that a refused request is told to wait is long enough.
namespace RateLimit

section Text

theorem itoaLoop_eq (n : Nat) (b : List Char) (h : n ≠ 0) :
    itoaLoop n b = Nat.toDigits 10 n ++ b := by
  induction n using Nat.strongRecOn generalizing b
  case ind n ih =>
    rw [itoaLoop, dif_neg h]
    by_cases hn : n < 10
    case pos =>
      have hz : n / 10 = 0 := Nat.div_eq_of_lt hn
      rw [hz, itoaLoop, dif_pos rfl, Nat.toDigits_of_lt_base hn, Nat.mod_eq_of_lt hn,
        List.singleton_append]
    case neg =>
      have hdigits : Nat.toDigits 10 n = Nat.toDigits 10 (n / 10) ++ [Nat.digitChar (n % 10)] :=
        Nat.toDigits_of_base_le (by decide) (not_lt.mp hn)
      rw [ih (n / 10) (by omega) _ (by omega), hdigits, List.append_assoc, List.singleton_append]

theorem itoa_eq {n : Nat} (h : n ≠ 0) : itoa n = toString n := by
  have hi : (n : Int) ≠ 0 := by exact_mod_cast h
  rw [itoa, if_neg hi]
  simp only [Int.natAbs_natCast, itoaLoop_eq n [] h, List.append_nil]
  rw [if_neg (by omega), Nat.toString_eq_repr, Nat.repr_eq_ofList_toDigits]

theorem toInt64_eq {q : ℚ} (hq : 0 ≤ q) (h : ⌊q⌋ < 2 ^ 63) : toInt64 q = ⌊q⌋ := by
  have hf : 0 ≤ ⌊q⌋ := Int.floor_nonneg.mpr hq
  simp only [toInt64, if_pos hq]
  exact if_pos ⟨by omega, h⟩

theorem toInt64_pos {q : ℚ} (hq : 0 ≤ q) (h : 0 < toInt64 q) : toInt64 q = ⌊q⌋ ∧ ⌊q⌋ < 2 ^ 63 := by
  simp only [toInt64, if_pos hq] at h ⊢
  split at h
  case isTrue hr  => exact ⟨if_pos hr, hr.2⟩
  case isFalse    => exact absurd h (by decide)

theorem floor_seconds (d : Int) : ⌊seconds d⌋ = d / second := by
  rw [seconds, Int.floor_div_cast_of_nonneg (by decide), Int.floor_intCast]

-- The seconds of a header: rounded down, but at least one.
theorem retryAfterSeconds_eq {d : Int} (hd : 0 < d) (h : d < 2 ^ 63) :
    retryAfterSeconds d = toString (max 1 ⌊seconds d⌋).toNat := by
  have hpos : 0 < seconds d := seconds_pos_iff.mpr hd
  have hf : 0 ≤ ⌊seconds d⌋ := Int.floor_nonneg.mpr hpos.le
  have hle : ⌊seconds d⌋ ≤ d := by
    rw [floor_seconds, second]
    omega
  have hsecs : toInt64 (seconds d) = ⌊seconds d⌋ := toInt64_eq hpos.le (by omega)
  have hmax : (if ⌊seconds d⌋ < 1 then 1 else ⌊seconds d⌋) = ((max 1 ⌊seconds d⌋).toNat : Int) := by
    split <;> omega
  simp only [retryAfterSeconds, hsecs, hmax]
  exact itoa_eq (by omega)

end Text

section Wait

variable {t : TokenBucket} {key : String} {now : Int} {b : Bucket}

-- The seconds that the clock has been set back by since the last refill.
def setBack (b : Bucket) (now : Int) : ℚ :=
  seconds (max 0 (b.last - now))

-- The seconds until a bucket holds a token, from a reading of the clock on.
def remaining (t : TokenBucket) (b : Bucket) (now : Int) : ℚ :=
  (1 - b.tokens) / t.refillRate - max 0 (seconds (sub now b.last))

theorem refill_tokens_of_lt (hC : 1 ≤ t.capacity) (h : (t.refill b now).tokens < 1) :
    (t.refill b now).tokens = b.tokens + max 0 (seconds (sub now b.last)) * t.refillRate := by
  have hcap : (1 : ℚ) ≤ t.capacity := by exact_mod_cast hC
  unfold TokenBucket.refill at h ⊢
  dsimp only at h ⊢
  split at h
  case isTrue he =>
    rw [if_pos he, max_eq_right he.le]
    simp only [min64] at h ⊢
    split at h
    case isTrue hlt  => linarith
    case isFalse hge => exact if_neg hge
  case isFalse he => simp [he, not_lt.mp he]

theorem remaining_eq (hC : 1 ≤ t.capacity) (hr : 0 < t.refillRate) (h : (t.refill b now).tokens < 1) :
    (1 - (t.refill b now).tokens) / t.refillRate = remaining t b now := by
  rw [refill_tokens_of_lt hC h, remaining]
  field_simp
  ring

-- A bucket without a whole token has one after a time that is long enough.
theorem refill_le_iff (hC : 1 ≤ t.capacity) (hr : 0 < t.refillRate) (hb : b.tokens < 1) :
    1 ≤ (t.refill b now).tokens ↔ (1 - b.tokens) / t.refillRate ≤ seconds (sub now b.last) := by
  have hcap : (1 : ℚ) ≤ t.capacity := by exact_mod_cast hC
  rw [div_le_iff₀ hr]
  unfold TokenBucket.refill
  dsimp only
  split
  case isTrue he =>
    simp only [min64]
    split
    case isTrue hlt => exact ⟨fun _ => by linarith, fun _ => hcap⟩
    case isFalse    => exact ⟨fun h => by linarith, fun h => by linarith⟩
  case isFalse he =>
    have hneg : seconds (sub now b.last) * t.refillRate ≤ 0 :=
      mul_nonpos_of_nonpos_of_nonneg (not_lt.mp he) hr.le
    exact ⟨fun h => absurd h (not_le.mpr hb), fun h => by linarith⟩

-- A refusal with a header: the bucket has been refilled, and its missing part decides the seconds.
structure Refused (t : TokenBucket) (key : String) (now : Int) (s : Nat)
    (t' : TokenBucket) : Prop where
  short   : (t.refill (t.bucket key now) now).tokens < 1
  state   : t' = t.put key (t.refill (t.bucket key now) now)
  seconds : (s : Int) = max 1 ⌊(1 - (t.refill (t.bucket key now) now).tokens) / t.refillRate⌋
  bounded : (s : Int) * second < 2 ^ 63

theorem refused {s : Nat} {t' : TokenBucket} (hr : 0 < t.refillRate)
    (h : middleware (some t) key now = (.rateLimited (some (toString s)), some t')) :
    Refused t key now s t' := by
  simp only [middleware, TokenBucket.allow] at h
  by_cases hb : 1 ≤ (t.refill (t.bucket key now) now).tokens
  case pos => simp [hb] at h
  case neg =>
    simp only [if_neg hb, Prod.mk.injEq, Outcome.rateLimited.injEq, Option.some.injEq] at h
    obtain ⟨htext, hstate⟩ := h
    have hmissing : 0 ≤ (1 - (t.refill (t.bucket key now) now).tokens) / t.refillRate :=
      div_nonneg (by linarith) hr.le
    generalize hx : (1 - (t.refill (t.bucket key now) now).tokens) / t.refillRate =
      x at htext hmissing
    split at htext
    case isFalse => cases htext
    case isTrue hpos =>
      have hnanos : 0 ≤ x * second := mul_nonneg hmissing (by simp [second])
      obtain ⟨hd, hlt⟩ := toInt64_pos hnanos hpos
      rw [hd] at hpos htext
      have hfloor : ⌊RateLimit.seconds ⌊x * second⌋⌋ = ⌊x⌋ := by
        rw [floor_seconds, Int.mul_cast_floor_div_cancel_of_pos (by decide)]
      have hmul : ⌊x⌋ * second ≤ ⌊x * second⌋ := by
        rw [← hfloor, floor_seconds]
        exact Int.ediv_mul_le _ (by decide)
      rw [retryAfterSeconds_eq hpos hlt, hfloor, Option.some.injEq, Nat.toString_eq_repr,
        Nat.toString_eq_repr,
        Nat.repr_eq_ofList_toDigits, Nat.repr_eq_ofList_toDigits] at htext
      have hs := Strconv.toDigits_inj (String.ofList_injective htext)
      refine ⟨not_le.mp hb, hstate.symm, ?_, ?_⟩
      · rw [hx]
        omega
      · simp only [second] at hmul hlt ⊢
        omega

theorem buckets_run_of_ne {others : List Call} (h : ∀ c ∈ others, c.key ≠ key) :
    (t.run others).buckets key = t.buckets key := by
  induction others generalizing t
  case nil => rfl
  case cons c others ih =>
    rw [run_cons, ih fun c hc => h c (List.mem_cons_of_mem _ hc),
      buckets_step_of_ne (h c (by simp)).symm]

-- Where the seconds of the header reach.
theorem le_seconds_iff {x back : ℚ} (hb : 0 ≤ back) :
    x + back ≤ (max 1 ⌊x⌋ : Int) ↔ x + back ≤ 1 ∨ back = 0 ∧ ∃ n : Int, x = n := by
  rw [Int.cast_max, le_max_iff, Int.cast_one]
  refine or_congr_right' fun _ => ⟨fun h => ?_, ?_⟩
  · have hfloor := Int.floor_le x
    exact ⟨by linarith, ⌊x⌋, by linarith⟩
  · rintro ⟨rfl, n, rfl⟩
    simp

theorem setBack_nonneg (b : Bucket) (now : Int) : 0 ≤ setBack b now :=
  div_nonneg (by exact_mod_cast le_max_left 0 (b.last - now)) (by simp [second])

theorem setBack_eq_zero_iff : setBack b now = 0 ↔ b.last ≤ now := by
  rw [setBack, seconds, div_eq_zero_iff]
  simp [second]

theorem allow_eq_true_iff :
    (t.allow key now).1.1 = true ↔ 1 ≤ (t.refill (t.bucket key now) now).tokens := by
  unfold TokenBucket.allow
  dsimp only
  split
  case isTrue h  => simp [h]
  case isFalse h => simp [h]

-- A difference that is too small for a duration is negative anyway.
theorem le_seconds_sub_iff {x : ℚ} {u v : Int} (hx : 0 < x) (h : u - v < 2 ^ 63) :
    x ≤ seconds (sub u v) ↔ x ≤ seconds (u - v) := by
  by_cases hlow : -2 ^ 63 ≤ u - v
  case pos =>
    have hsub : sub u v = u - v := by
      unfold sub
      omega
    rw [hsub]
  case neg =>
    have hsub : ¬ 0 < seconds (sub u v) := mt (sub_pos_iff.mp ∘ seconds_pos_iff.mp) (by omega)
    have hdiff : ¬ 0 < seconds (u - v) := mt seconds_pos_iff.mp (by omega)
    exact ⟨fun hle => absurd (hx.trans_le hle) hsub, fun hle => absurd (hx.trans_le hle) hdiff⟩

theorem seconds_since (s : Nat) :
    seconds (now + s * second - max b.last now) = s - setBack b now := by
  have hback : now + s * second - max b.last now = s * second + -max 0 (b.last - now) := by omega
  have hwhole : seconds (s * second) = s := by
    simp [seconds, second]
  have hneg : seconds (-max 0 (b.last - now)) = -setBack b now := by
    rw [setBack, seconds, seconds, Int.cast_neg, neg_div]
  rw [hback, seconds_add, hwhole, hneg, sub_eq_add_neg]

end Wait

theorem retryAfter_sufficient_iff (t : TokenBucket) (key : String) (now : Int) (s : Nat)
    (t' : TokenBucket) (others : List Call) (hC : 1 ≤ t.capacity) (hr : 0 < t.refillRate)
    (h : middleware (some t) key now = (.rateLimited (some (toString s)), some t'))
    (ho : ∀ c ∈ others, c.key ≠ key) :
    ((t'.run others).allow key (now + s * second)).1.1 = true ↔
      remaining t (t.bucket key now) now + setBack (t.bucket key now) now ≤ 1 ∨
      (t.bucket key now).last ≤ now ∧ ∃ n : Int, remaining t (t.bucket key now) now = n := by
  have hf := refused hr h
  have hx := remaining_eq hC hr hf.short
  have hpos : 0 < remaining t (t.bucket key now) now := hx ▸ div_pos (sub_pos.mpr hf.short) hr
  have hfound : (t'.run others).buckets key = some (t.refill (t.bucket key now) now) := by
    rw [buckets_run_of_ne ho, hf.state]
    exact Function.update_self ..
  have hcap : (t'.run others).capacity = t.capacity := by rw [capacity_run, hf.state, TokenBucket.put]
  have hrate : (t'.run others).refillRate = t.refillRate := by
    rw [refillRate_run, hf.state, TokenBucket.put]
  have hrange : now + s * second - max (t.bucket key now).last now < 2 ^ 63 := by
    have := hf.bounded
    omega
  have hs : (s : ℚ) = (max 1 ⌊remaining t (t.bucket key now) now⌋ : Int) := by
    rw [← hx, ← hf.seconds, Int.cast_natCast]
  rw [allow_eq_true_iff, bucket_of_some hfound, refill_le_iff (hcap ▸ hC) (hrate ▸ hr) hf.short,
    hrate, hx,
    refill_last, le_seconds_sub_iff hpos hrange, seconds_since, le_sub_iff_add_le, hs,
    le_seconds_iff (setBack_nonneg _ _), setBack_eq_zero_iff]

-- A bucket of one token, which the first request has taken.
def emptied (rate : ℚ) : TokenBucket :=
  (newTokenBucket 1 rate).step ⟨"k", 0⟩

theorem middleware_state (t : TokenBucket) (key : String) (now : Int) :
    (middleware (some t) key now).2 = some (t.step ⟨key, now⟩) := by
  simp only [middleware, TokenBucket.step]
  rcases t.allow key now with ⟨⟨_ | _, d⟩, t'⟩
  all_goals rfl

-- With a quarter of a token in a second the header is exact.
theorem retryAfter_sufficient_sample :
    (((emptied (1 / 4)).step ⟨"k", 0⟩).allow "k" (4 * second)).1.1 = true := by
  have hrefused : middleware (some (emptied (1 / 4))) "k" 0 =
      (.rateLimited (some (toString 4)), some ((emptied (1 / 4)).step ⟨"k", 0⟩)) :=
    Prod.ext (by decide +kernel) (middleware_state _ _ _)
  have hiff := retryAfter_sufficient_iff (emptied (1 / 4)) "k" 0 4 ((emptied (1 / 4)).step ⟨"k", 0⟩) []
    (by decide +kernel) (by decide +kernel) hrefused nofun
  have hwhole : remaining (emptied (1 / 4)) ((emptied (1 / 4)).bucket "k" 0) 0 = (4 : Int) := by
    decide +kernel
  exact hiff.mpr (.inr ⟨by decide +kernel, 4, hwhole⟩)

-- With two fifths it takes two and a half seconds, and the header says two.
theorem retryAfter_too_short :
    (middleware (some (emptied (2 / 5))) "k" 0).1 = .rateLimited (some "2") ∧
    (((emptied (2 / 5)).step ⟨"k", 0⟩).allow "k" (2 * second)).1.1 = false := by
  decide +kernel

end RateLimit
