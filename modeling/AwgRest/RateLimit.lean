import Mathlib.Algebra.Order.Field.Rat
import Mathlib.Data.Rat.Floor
import Mathlib.Tactic.Linarith

-- The limiter of requests, with tokens and rates as rational numbers, which are `float64` in the
-- source: nothing is said about rounding. Clock readings and durations are in nanoseconds.
namespace RateLimit

def second : Int := 10 ^ 9

-- `Time.Sub` gives the largest or the smallest duration if the difference is none.
def sub (t u : Int) : Int :=
  max (-2 ^ 63) (min (2 ^ 63 - 1) (t - u))

-- `Duration.Seconds`
def seconds (d : Int) : ℚ :=
  d / second

-- A number that does not fit is converted to the smallest one.
def toInt64 (q : ℚ) : Int :=
  let d := if 0 ≤ q then ⌊q⌋ else ⌈q⌉
  if -2 ^ 63 ≤ d ∧ d < 2 ^ 63 then d else -2 ^ 63

structure Bucket where
  tokens : ℚ
  last   : Int
deriving DecidableEq

structure TokenBucket where
  capacity   : Int
  refillRate : ℚ
  buckets    : String → Option Bucket

def newTokenBucket (capacity : Int) (refillPerSec : ℚ) : TokenBucket where
  capacity   := capacity
  refillRate := refillPerSec
  buckets    := fun _ => none

def min64 (a b : ℚ) : ℚ :=
  if a < b then a else b

namespace TokenBucket

variable (t : TokenBucket)

def refill (b : Bucket) (now : Int) : Bucket :=
  let elapsed := seconds (sub now b.last)
  if 0 < elapsed then { tokens := min64 t.capacity (b.tokens + elapsed * t.refillRate), last := now } else b

-- A bucket that is not there is created full.
def bucket (key : String) (now : Int) : Bucket :=
  (t.buckets key).getD { tokens := t.capacity, last := now }

def put (key : String) (b : Bucket) : TokenBucket :=
  { t with buckets := Function.update t.buckets key (some b) }

def allow (key : String) (now : Int) : (Bool × Int) × TokenBucket :=
  let b := t.refill (t.bucket key now) now
  if 1 ≤ b.tokens then ((true, 0), t.put key { b with tokens := b.tokens - 1 })
  else
    let missing := 1 - b.tokens
    ((false, toInt64 (missing / t.refillRate * second)), t.put key b)

end TokenBucket

def itoaLoop (i : Nat) (b : List Char) : List Char :=
  if h : i = 0 then b else itoaLoop (i / 10) (Nat.digitChar (i % 10) :: b)
termination_by i
decreasing_by omega

def itoa (i : Int) : String :=
  if i = 0 then "0"
  else
    let b := itoaLoop i.natAbs []
    String.ofList (if i < 0 then '-' :: b else b)

def retryAfterSeconds (d : Int) : String :=
  let secs := toInt64 (seconds d)
  itoa (if secs < 1 then 1 else secs)

-- What the middleware does with a request.
inductive Outcome
  | next
  | rateLimited (retryAfter : Option String)
deriving DecidableEq

def middleware (limiter : Option TokenBucket) (key : String) (now : Int) :
    Outcome × Option TokenBucket :=
  match limiter with
  | none   => (.next, none)
  | some t =>
    match t.allow key now with
    | ((true, _), t)  => (.next, some t)
    | ((false, d), t) => (.rateLimited (if 0 < d then some (retryAfterSeconds d) else none), some t)

-- A call of `Allow`, and the clock reading in it.
structure Call where
  key : String
  now : Int
deriving DecidableEq

namespace TokenBucket

def step (t : TokenBucket) (c : Call) : TokenBucket :=
  (t.allow c.key c.now).2

def run (t : TokenBucket) (calls : List Call) : TokenBucket :=
  calls.foldl step t

-- The answers to the calls for a key.
def answers (key : String) (t : TokenBucket) : List Call → List (Bool × Int)
  | []         => []
  | c :: calls =>
    if c.key = key then (t.allow c.key c.now).1 :: (t.step c).answers key calls
    else (t.step c).answers key calls

def allowed (key : String) (t : TokenBucket) (calls : List Call) : Nat :=
  (t.answers key calls).countP Prod.fst

end TokenBucket

section Step

variable {t : TokenBucket} {key other : String} {now : Int} {b : Bucket} {c : Call}
  {calls : List Call}

@[simp]
theorem capacity_step : (t.step c).capacity = t.capacity := by
  unfold TokenBucket.step TokenBucket.allow
  dsimp only
  split <;> rfl

@[simp]
theorem refillRate_step : (t.step c).refillRate = t.refillRate := by
  unfold TokenBucket.step TokenBucket.allow
  dsimp only
  split <;> rfl

theorem buckets_step_of_ne (h : key ≠ c.key) : (t.step c).buckets key = t.buckets key := by
  unfold TokenBucket.step TokenBucket.allow
  dsimp only
  split <;> exact Function.update_of_ne h _ _

theorem seconds_pos_iff {d : Int} : 0 < seconds d ↔ 0 < d := by
  unfold seconds second
  constructor
  · intro h
    by_contra hn
    have hd : (d : ℚ) ≤ 0 := by exact_mod_cast not_lt.mp hn
    exact absurd h (not_lt.mpr (div_nonpos_of_nonpos_of_nonneg hd (by norm_num)))
  · intro h
    have hd : (0 : ℚ) < d := by exact_mod_cast h
    exact div_pos hd (by norm_num)

theorem sub_pos_iff {u v : Int} : 0 < sub u v ↔ v < u := by
  unfold sub
  omega

-- What a refill leaves, where the clock may have been set back.
theorem refill_last : (t.refill b now).last = max b.last now := by
  unfold TokenBucket.refill
  dsimp only
  split
  case isTrue h  => exact (max_eq_right (sub_pos_iff.mp (seconds_pos_iff.mp h)).le).symm
  case isFalse h => exact (max_eq_left (not_lt.mp (mt (seconds_pos_iff.mpr ∘ sub_pos_iff.mpr) h))).symm

end Step

end RateLimit
