import AwgRest.RateLimit
import Mathlib.Data.List.Induction

-- How many calls the buckets allow.
namespace RateLimit

-- A number of tokens that a bucket can hold.
structure Bucket.Within (capacity : Int) (b : Bucket) : Prop where
  nonneg : 0 ≤ b.tokens
  le     : b.tokens ≤ capacity

-- The tokens that an answer costs.
def spent : Bool → ℚ
  | true  => 1
  | false => 0

section Allow

variable {t : TokenBucket} {key : String} {now : Int} {b : Bucket} {c : Call}

theorem seconds_mono {d e : Int} (h : d ≤ e) : seconds d ≤ seconds e := by
  have hde : (d : ℚ) ≤ e := by exact_mod_cast h
  unfold seconds second
  gcongr

theorem sub_le {u v : Int} (h : v ≤ u) : sub u v ≤ u - v := by
  unfold sub
  omega

-- A refill adds at most what the rate gives for the time since the last one.
theorem refill_tokens (hr : 0 < t.refillRate) :
    (t.refill b now).tokens ≤ b.tokens + seconds ((t.refill b now).last - b.last) * t.refillRate := by
  unfold TokenBucket.refill
  dsimp only
  split
  case isTrue h =>
    have hlast : b.last < now := sub_pos_iff.mp (seconds_pos_iff.mp h)
    have hsecs : seconds (sub now b.last) ≤ seconds (now - b.last) := seconds_mono (sub_le hlast.le)
    have hmin : min64 t.capacity (b.tokens + seconds (sub now b.last) * t.refillRate) ≤
        b.tokens + seconds (sub now b.last) * t.refillRate := by
      unfold min64
      split
      case isTrue hlt => exact hlt.le
      case isFalse    => exact le_refl _
    have hmul := mul_le_mul_of_nonneg_right hsecs hr.le
    show min64 _ _ ≤ b.tokens + seconds (now - b.last) * t.refillRate
    linarith
  case isFalse => simp [seconds]

theorem refill_within (hr : 0 < t.refillRate) (hb : b.Within t.capacity) :
    (t.refill b now).Within t.capacity := by
  unfold TokenBucket.refill
  dsimp only
  split
  case isFalse   => exact hb
  case isTrue he =>
    have hadd : 0 < seconds (sub now b.last) * t.refillRate := mul_pos he hr
    have hn := hb.nonneg
    have hc := hb.le
    constructor
    all_goals
      simp only [min64]
      split
      all_goals linarith

-- What a call leaves in the bucket of its key.
theorem allow_bucket :
    (t.allow key now).2.buckets key =
      some { t.refill (t.bucket key now) now with
        tokens := (t.refill (t.bucket key now) now).tokens - spent (t.allow key now).1.1 } := by
  unfold TokenBucket.allow
  dsimp only
  split
  · exact Function.update_self ..
  · simp [TokenBucket.put, spent]

theorem spent_le_refill (hb : (t.refill (t.bucket key now) now).Within t.capacity) :
    spent (t.allow key now).1.1 ≤ (t.refill (t.bucket key now) now).tokens := by
  unfold TokenBucket.allow
  dsimp only
  split
  case isTrue h  => exact h
  case isFalse   => exact hb.nonneg

-- The step lemma. The bucket of the key was there.
structure Stepped (t : TokenBucket) (c : Call) (b b' : Bucket) : Prop where
  found  : (t.step c).buckets c.key = some b'
  within : b'.Within t.capacity
  last   : b'.last = max b.last c.now
  paid   : b'.tokens + spent (t.allow c.key c.now).1.1 ≤
    b.tokens + seconds (b'.last - b.last) * t.refillRate
  capped : b'.tokens + spent (t.allow c.key c.now).1.1 ≤ t.capacity

theorem stepped (hr : 0 < t.refillRate) (hb : t.bucket c.key c.now = b) (hw : b.Within t.capacity) :
    ∃ b', Stepped t c b b' := by
  have hwithin : (t.refill (t.bucket c.key c.now) c.now).Within t.capacity := hb ▸ refill_within hr hw
  have hspent := spent_le_refill hwithin
  have hnonneg : 0 ≤ spent (t.allow c.key c.now).1.1 := by
    cases (t.allow c.key c.now).1.1
    all_goals simp [spent]
  refine ⟨_, allow_bucket, ⟨?_, ?_⟩, ?_, ?_, ?_⟩
  · exact sub_nonneg.mpr hspent
  · exact (sub_le_self _ hnonneg).trans hwithin.le
  · rw [hb]
    exact refill_last
  · rw [hb]
    simpa using refill_tokens hr
  · simpa using hwithin.le

end Allow

section Run

variable {t : TokenBucket} {key : String} {b : Bucket} {c : Call} {calls : List Call}

theorem run_cons : t.run (c :: calls) = (t.step c).run calls :=
  rfl

theorem run_append (calls' : List Call) : t.run (calls ++ calls') = (t.run calls).run calls' :=
  List.foldl_append

@[simp]
theorem capacity_run : (t.run calls).capacity = t.capacity := by
  induction calls generalizing t
  case nil => rfl
  case cons c calls ih => rw [run_cons, ih, capacity_step]

@[simp]
theorem refillRate_run : (t.run calls).refillRate = t.refillRate := by
  induction calls generalizing t
  case nil => rfl
  case cons c calls ih => rw [run_cons, ih, refillRate_step]

theorem allowed_cons_self (h : c.key = key) :
    (t.allowed key (c :: calls) : ℚ) = spent (t.allow c.key c.now).1.1 + (t.step c).allowed key calls := by
  unfold TokenBucket.allowed
  rw [TokenBucket.answers, if_pos h, List.countP_cons]
  cases (t.allow c.key c.now).1.1
  case false => simp [spent]
  case true  => simp [spent, add_comm]

theorem allowed_cons_of_ne (h : c.key ≠ key) :
    t.allowed key (c :: calls) = (t.step c).allowed key calls := by
  unfold TokenBucket.allowed
  rw [TokenBucket.answers, if_neg h]

theorem bucket_of_some {now : Int} (h : t.buckets key = some b) : t.bucket key now = b := by
  rw [TokenBucket.bucket, h, Option.getD_some]

theorem seconds_add (d e : Int) : seconds (d + e) = seconds d + seconds e := by
  unfold seconds
  push_cast
  exact add_div _ _ _

-- The run lemma: what was allowed is paid for by the tokens that were there and those that were
-- added.
theorem run_paid (hr : 0 < t.refillRate) (hb : t.buckets key = some b) (hw : b.Within t.capacity) :
    ∃ b', (t.run calls).buckets key = some b' ∧ b'.Within t.capacity ∧
      t.allowed key calls + b'.tokens ≤ b.tokens + seconds (b'.last - b.last) * t.refillRate := by
  induction calls generalizing t b
  case nil => exact ⟨b, hb, hw, by simp [TokenBucket.allowed, TokenBucket.answers, seconds]⟩
  case cons c calls ih =>
    by_cases hk : c.key = key
    case pos =>
      subst hk
      obtain ⟨b₁, hs⟩ := stepped hr (bucket_of_some hb) hw
      obtain ⟨b₂, hfound, hwithin, hpaid⟩ := ih (t := t.step c) (by simpa using hr) hs.found
        (by simpa using hs.within)
      refine ⟨b₂, hfound, by simpa using hwithin, ?_⟩
      have hlast : seconds (b₂.last - b.last) =
          seconds (b₂.last - b₁.last) + seconds (b₁.last - b.last) := by
        rw [← seconds_add, sub_add_sub_cancel]
      have hstep := hs.paid
      rw [refillRate_step] at hpaid
      rw [allowed_cons_self rfl, hlast, add_mul]
      linarith
    case neg =>
      have hbucket : (t.step c).buckets key = some b := (buckets_step_of_ne (Ne.symm hk)).trans hb
      obtain ⟨b₂, hfound, hwithin, hpaid⟩ := ih (t := t.step c) (by simpa using hr) hbucket
        (by simpa using hw)
      rw [refillRate_step] at hpaid
      exact ⟨b₂, hfound, by simpa using hwithin, by rwa [allowed_cons_of_ne hk]⟩

end Run

-- The clock readings in the calls for a key, and the largest of them.

def readings (key : String) (calls : List Call) : List Int :=
  (calls.filter (·.key = key)).map Call.now

def latest (key : String) (calls : List Call) : Int :=
  (readings key calls).max?.getD 0

section Whole

variable {capacity : Int} {rate : ℚ} {key : String} {b : Bucket} {calls : List Call}

-- The state of a bucket after calls, from the start.
structure Filled (capacity : Int) (key : String) (calls : List Call) (b : Bucket) : Prop where
  within   : b.Within capacity
  recorded : b.last ∈ readings key calls
  newest   : ∀ r ∈ readings key calls, r ≤ b.last

theorem Filled.last_eq (h : Filled capacity key calls b) : latest key calls = b.last := by
  have hmax : (readings key calls).max? = some b.last :=
    List.max?_eq_some_iff.mpr ⟨h.recorded, h.newest⟩
  rw [latest, hmax, Option.getD_some]

theorem bucket_within {t : TokenBucket} {now : Int} (hC : 1 ≤ t.capacity)
    (h : ∀ b, t.buckets key = some b → b.Within t.capacity) :
    (t.bucket key now).Within t.capacity := by
  cases hb : t.buckets key
  case some b => exact bucket_of_some hb ▸ h b hb
  case none   =>
    have hpos : (1 : ℚ) ≤ t.capacity := by exact_mod_cast hC
    rw [TokenBucket.bucket, hb]
    exact ⟨zero_le_one.trans hpos, le_refl _⟩

theorem readings_append_self {c : Call} (h : c.key = key) :
    readings key (calls ++ [c]) = readings key calls ++ [c.now] := by
  simp [readings, h]

theorem readings_append_of_ne {c : Call} (h : c.key ≠ key) :
    readings key (calls ++ [c]) = readings key calls := by
  simp [readings, h]

theorem filled (hC : 1 ≤ capacity) (hr : 0 < rate) :
    (∀ b, ((newTokenBucket capacity rate).run calls).buckets key = some b → Filled capacity key calls b) ∧
    (((newTokenBucket capacity rate).run calls).buckets key = none → readings key calls = []) := by
  induction calls using List.reverseRecOn
  case nil => exact ⟨nofun, fun _ => rfl⟩
  case append_singleton calls c ih =>
    rw [run_append]
    show (∀ b, (((newTokenBucket capacity rate).run calls).step c).buckets key = some b → _) ∧
      ((((newTokenBucket capacity rate).run calls).step c).buckets key = none → _)
    have hcap : ((newTokenBucket capacity rate).run calls).capacity = capacity := capacity_run
    have hrate : 0 < ((newTokenBucket capacity rate).run calls).refillRate := by
      rw [refillRate_run]
      exact hr
    generalize (newTokenBucket capacity rate).run calls = t at ih hcap hrate ⊢
    by_cases hk : c.key = key
    case neg =>
      rw [buckets_step_of_ne (Ne.symm hk)]
      refine ⟨fun b hb => ?_, fun hn => (readings_append_of_ne hk).trans (ih.2 hn)⟩
      have hf := ih.1 b hb
      refine ⟨hf.within, ?_, ?_⟩
      all_goals rw [readings_append_of_ne hk]
      · exact hf.recorded
      · exact hf.newest
    case pos =>
      subst hk
      -- The bucket was there, or it is created full with the reading of the call.
      obtain ⟨b₀, hb₀, hrec, hnew⟩ : ∃ b₀, t.bucket c.key c.now = b₀ ∧
          (b₀.last ∈ readings c.key calls ∨ b₀.last = c.now) ∧
            ∀ r ∈ readings c.key calls, r ≤ b₀.last := by
        cases hb : t.buckets c.key
        case some b => exact ⟨b, bucket_of_some hb, .inl (ih.1 b hb).recorded, (ih.1 b hb).newest⟩
        case none   =>
          refine ⟨⟨t.capacity, c.now⟩, by rw [TokenBucket.bucket, hb, Option.getD_none], .inr rfl, ?_⟩
          rw [ih.2 hb]
          exact nofun
      have hw : b₀.Within t.capacity :=
        hb₀ ▸ bucket_within (hcap ▸ hC) fun b hb => hcap ▸ (ih.1 b hb).within
      obtain ⟨b₁, hs⟩ := stepped hrate hb₀ hw
      rw [hs.found]
      refine ⟨?_, nofun⟩
      rintro _ ⟨⟩
      refine ⟨hcap ▸ hs.within, ?_, ?_⟩
      all_goals rw [readings_append_self rfl, hs.last]
      · rcases max_choice b₀.last c.now with hm | hm
        · rw [hm]
          exact hrec.elim (List.mem_append_left _) fun h => by simp [h]
        · simp [hm]
      · intro r hr'
        rcases List.mem_append.mp hr' with hr' | hr'
        · exact (hnew r hr').trans (le_max_left _ _)
        · exact List.mem_singleton.mp hr' ▸ le_max_right _ _

theorem answers_eq_of_buckets {t t' : TokenBucket} (hc : t.capacity = t'.capacity)
    (hr : t.refillRate = t'.refillRate) (hb : t.buckets key = t'.buckets key) (now : Int) :
    (t.allow key now).1 = (t'.allow key now).1 ∧
      (t.allow key now).2.buckets key = (t'.allow key now).2.buckets key := by
  have hbucket : t.bucket key now = t'.bucket key now := by
    rw [TokenBucket.bucket, TokenBucket.bucket, hb, hc]
  have hrefill (b : Bucket) : t.refill b now = t'.refill b now := by
    rw [TokenBucket.refill, TokenBucket.refill, hc, hr]
  have hans : (t.allow key now).1 = (t'.allow key now).1 := by
    unfold TokenBucket.allow
    simp only [hbucket, hrefill, hr]
    split <;> rfl
  rw [allow_bucket, allow_bucket, hbucket, hrefill, hans]
  exact ⟨rfl, rfl⟩

-- Calls for other keys change neither the bucket of a key nor what is answered for it.
theorem answers_filter {t t' : TokenBucket} (hc : t.capacity = t'.capacity)
    (hr : t.refillRate = t'.refillRate) (hb : t.buckets key = t'.buckets key) :
    t.answers key calls = t'.answers key (calls.filter (·.key = key)) := by
  induction calls generalizing t t'
  case nil => rfl
  case cons c calls ih =>
    by_cases hk : c.key = key
    case neg =>
      rw [TokenBucket.answers, if_neg hk, List.filter_cons_of_neg (by simpa using hk)]
      exact ih (capacity_step.trans hc) (refillRate_step.trans hr)
        ((buckets_step_of_ne (Ne.symm hk)).trans hb)
    case pos =>
      subst hk
      obtain ⟨hans, hafter⟩ := answers_eq_of_buckets hc hr hb c.now
      rw [List.filter_cons_of_pos (by simp), TokenBucket.answers, TokenBucket.answers, if_pos rfl,
        if_pos rfl, hans]
      congr 1
      refine ih ?_ ?_ hafter
      · rw [capacity_step, capacity_step, hc]
      · rw [refillRate_step, refillRate_step, hr]

-- The calls of a window, of which the first is for the key.
theorem window_bound (hC : 1 ≤ capacity) (hr : 0 < rate) (before rest : List Call) (c : Call) :
    (((newTokenBucket capacity rate).run before).allowed c.key (c :: rest) : ℚ) ≤
      capacity + rate * seconds (latest c.key (before ++ c :: rest) - latest c.key (before ++ [c])) := by
  have hlast {calls : List Call} {b : Bucket}
    (hb : ((newTokenBucket capacity rate).run calls).buckets c.key = some b) :
      latest c.key calls = b.last := ((filled hC hr).1 b hb).last_eq
  have hcap : 1 ≤ ((newTokenBucket capacity rate).run before).capacity := by
    rw [capacity_run]
    exact hC
  have hrate : 0 < ((newTokenBucket capacity rate).run before).refillRate := by
    rw [refillRate_run]
    exact hr
  have hstart : (((newTokenBucket capacity rate).run before).bucket c.key c.now).Within
      ((newTokenBucket capacity rate).run before).capacity := by
    refine bucket_within hcap fun b hb => ?_
    rw [capacity_run]
    exact ((filled hC hr).1 b hb).within
  obtain ⟨b₁, hs⟩ := stepped hrate rfl hstart
  have hrate₁ : 0 < (((newTokenBucket capacity rate).run before).step c).refillRate := by
    rw [refillRate_step]
    exact hrate
  have hwithin₁ : b₁.Within (((newTokenBucket capacity rate).run before).step c).capacity := by
    rw [capacity_step]
    exact hs.within
  obtain ⟨b₂, hfound, hwithin, hpaid⟩ := @run_paid _ c.key b₁ rest hrate₁ hs.found hwithin₁
  have hfirst : ((newTokenBucket capacity rate).run (before ++ [c])).buckets c.key = some b₁ := by
    rw [run_append]
    exact hs.found
  have hcapped := hs.capped
  have hnonneg := hwithin.nonneg
  rw [capacity_run] at hcapped
  rw [refillRate_step, refillRate_run] at hpaid
  rw [← run_cons, ← run_append] at hfound
  rw [allowed_cons_self rfl, hlast hfound, hlast hfirst, mul_comm rate]
  simp only [newTokenBucket] at hcapped hpaid ⊢
  linarith

end Whole

theorem tokenBucket_bound (capacity : Int) (rate : ℚ) (hC : 1 ≤ capacity) (hr : 0 < rate)
    (calls : List Call) :
    (∀ key b, ((newTokenBucket capacity rate).run calls).buckets key = some b → 0 ≤ b.tokens ∧
      b.tokens ≤ capacity) ∧
    (∀ i j cᵢ cⱼ, i ≤ j → calls[i]? = some cᵢ → calls[j]? = some cⱼ → cᵢ.key = cⱼ.key →
      (((newTokenBucket capacity rate).run (calls.take i)).allowed cᵢ.key
          ((calls.take (j + 1)).drop i) : ℚ) ≤
        capacity + rate *
          seconds (latest cᵢ.key (calls.take (j + 1)) - latest cᵢ.key (calls.take (i + 1)))) ∧
    ∀ key, (newTokenBucket capacity rate).answers key calls =
      (newTokenBucket capacity rate).answers key (calls.filter (·.key = key)) := by
  refine ⟨fun key b hb => ?_, fun i j cᵢ cⱼ hij hi hj hk => ?_, fun key => answers_filter rfl rfl rfl⟩
  · have hw := ((filled hC hr).1 b hb).within
    exact ⟨hw.nonneg, hw.le⟩
  · have hlen : i < (calls.take (j + 1)).length := by
      have := (List.getElem?_eq_some_iff.mp hj).1
      rw [List.length_take]
      omega
    have hwindow : (calls.take (j + 1)).drop i = cᵢ :: (calls.take (j + 1)).drop (i + 1) := by
      rw [List.drop_eq_getElem_cons hlen, List.getElem_take]
      simp [(List.getElem?_eq_some_iff.mp hi).2]
    have htake : calls.take i ++ cᵢ :: (calls.take (j + 1)).drop (i + 1) = calls.take (j + 1) := by
      have hfront : (calls.take (j + 1)).take i = calls.take i := by
        rw [List.take_take, Nat.min_eq_left (by omega)]
      rw [← hwindow, ← hfront, List.take_append_drop]
    have hfirst : calls.take i ++ [cᵢ] = calls.take (i + 1) := by
      rw [List.take_add_one, hi, Option.toList_some]
    have hbound := window_bound hC hr (calls.take i) ((calls.take (j + 1)).drop (i + 1)) cᵢ
    rwa [htake, hfirst, ← hwindow] at hbound

-- The clock is set back by a second, and there is another key.
def sampleCalls : List Call :=
  [⟨"k", 0⟩, ⟨"other", 0⟩, ⟨"k", 2 * second⟩, ⟨"k", second⟩]

-- All three calls for the key are allowed, which is as many as there may be.
theorem tokenBucket_bound_sample :
    (newTokenBucket 2 (1 / 2)).allowed "k" sampleCalls = 3 ∧
    latest "k" sampleCalls - latest "k" [⟨"k", 0⟩] = 2 * second ∧
    ((newTokenBucket 2 (1 / 2)).allowed "k" sampleCalls : ℚ) ≤
      (2 : Int) + 1 / 2 * seconds (latest "k" sampleCalls - latest "k" [⟨"k", 0⟩]) :=
  ⟨by decide +kernel, by decide,
    (tokenBucket_bound 2 (1 / 2) (by decide) (by norm_num) sampleCalls).2.1 0 3 ⟨"k", 0⟩ ⟨"k", second⟩
      (by decide) rfl rfl rfl⟩

end RateLimit
