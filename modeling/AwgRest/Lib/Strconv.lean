import AwgRest.Lib.Text
import Mathlib.Algebra.Order.Ring.Nat

-- The readers of numbers of `strconv`.
namespace Strconv

inductive NumError
  | malformed
  | outOfRange
deriving DecidableEq

def NumError.text : NumError → String
  | malformed  => "invalid syntax"
  | outOfRange => "value out of range"

def digit (c : Char) : Option Nat :=
  if c.isDigit then some (c.toNat - '0'.toNat)
  else if 'a' ≤ c.toLower ∧ c.toLower ≤ 'z' then some (c.toLower.toNat - 'a'.toNat + 10)
  else none

-- The loop of `ParseUint`. Underscores are skipped where the base comes from the text.
def digits (base bits : Nat) (underscores : Bool) : Nat → List Char → Except NumError Nat
  | n, []     => .ok n
  | n, c :: s =>
    if c = '_' ∧ underscores then digits base bits underscores n s
    else match digit c with
      | none   => .error .malformed
      | some d =>
        if base ≤ d then .error .malformed
        else if 2 ^ bits ≤ n * base + d then .error .outOfRange
        else digits base bits underscores (n * base + d) s

-- The base that a text begins with, and the text after it.
def splitBase : List Char → Nat × List Char
  | '0' :: c :: d :: s =>
    if c.toLower = 'b' then (2, d :: s)
    else if c.toLower = 'o' then (8, d :: s)
    else if c.toLower = 'x' then (16, d :: s)
    else (8, c :: d :: s)
  | '0' :: s => (8, s)
  | s        => (10, s)

inductive Saw
  | start
  | digit
  | underscore
  | other
deriving DecidableEq

-- Underscores stand only between digits. The sign has been taken off before.
def underscoreOK (s : List Char) : Bool :=
  match s with
  | '0' :: c :: t =>
    if c.toLower = 'b' ∨ c.toLower = 'o' ∨ c.toLower = 'x' then go (c.toLower = 'x') .digit t
    else go false .start s
  | _ => go false .start s
where
  go (hex : Bool) : Saw → List Char → Bool
    | saw, []     => saw ≠ .underscore
    | saw, c :: s =>
      if c.isDigit ∨ hex ∧ 'a' ≤ c.toLower ∧ c.toLower ≤ 'f' then go hex .digit s
      else if c = '_' then saw = .digit && go hex .underscore s
      else saw ≠ .underscore && go hex .other s

-- `ParseUint` with the base 10.
def parseUint (bits : Nat) (s : List Char) : Except NumError Nat :=
  if s = [] then .error .malformed else digits 10 bits false 0 s

-- `ParseUint` with the base 0.
def parseUint0 (bits : Nat) (s : List Char) : Except NumError Nat :=
  if s = [] then .error .malformed
  else
    let (base, t) := splitBase s
    match digits base bits true 0 t with
    | .error e => .error e
    | .ok n    => if '_' ∈ t ∧ !underscoreOK s then .error .malformed else .ok n

-- `ParseInt` of 64 bits over one of them.
def signed (parse : List Char → Except NumError Nat) (s : List Char) : Except NumError Int :=
  match s with
  | '-' :: t => (parse t).bind fun n => if 2 ^ 63 < n then .error .outOfRange else .ok (-n)
  | '+' :: t => (parse t).bind fun n => if 2 ^ 63 ≤ n then .error .outOfRange else .ok n
  | t        => (parse t).bind fun n => if 2 ^ 63 ≤ n then .error .outOfRange else .ok n

def parseInt (s : List Char) : Except NumError Int :=
  signed (parseUint 64) s

def parseInt0 (s : List Char) : Except NumError Int :=
  signed (parseUint0 64) s

section Read

variable {base bits n m : Nat} {u : Bool} {s t : List Char} {c : Char}

theorem digits_append :
    digits base bits u n (s ++ t) =
      (digits base bits u n s).bind fun m => digits base bits u m t := by
  induction s generalizing n
  case nil         => rfl
  case cons c s ih =>
    simp only [List.cons_append, digits]
    split
    case isTrue  => exact ih
    case isFalse =>
      cases digit c
      case none   => rfl
      case some d =>
        simp only
        split
        case isTrue  => rfl
        case isFalse =>
          split
          case isTrue  => rfl
          case isFalse => exact ih

theorem digit_digitChar (h : n < 16) : digit n.digitChar = some n ∧ n.digitChar ≠ '_' :=
  (by decide : ∀ n < 16, digit (Nat.digitChar n) = some n ∧ Nat.digitChar n ≠ '_') n h

theorem digits_digitChar (hb : base ≤ 16) (hm : m < base) (h : n * base + m < 2 ^ bits) :
    digits base bits u n [m.digitChar] = .ok (n * base + m) := by
  obtain ⟨hd, hu⟩ := digit_digitChar (Nat.lt_of_lt_of_le hm hb)
  rw [digits, if_neg fun h => hu h.1, hd]
  simp only
  rw [if_neg (Nat.not_le.mpr hm), if_neg (Nat.not_le.mpr h)]
  rfl

theorem digits_toDigits (h₁ : 1 < base) (hb : base ≤ 16) (h : n < 2 ^ bits) :
    digits base bits u 0 (Nat.toDigits base n) = .ok n := by
  induction n using Nat.strong_induction_on
  case _ n ih =>
    by_cases hn : n < base
    case pos =>
      rw [Nat.toDigits_of_lt_base hn, digits_digitChar hb hn (by simpa using h),
        Nat.zero_mul, Nat.zero_add]
    case neg =>
      have hle := Nat.le_of_not_lt hn
      have hlt : n / base < n := Nat.div_lt_self (by omega) h₁
      have hdiv : n / base * base + n % base = n := Nat.div_add_mod' n base
      rw [Nat.toDigits_of_base_le h₁ hle, digits_append, ih _ hlt (by omega)]
      refine (digits_digitChar hb (Nat.mod_lt _ (by omega)) (by rw [hdiv]; exact h)).trans ?_
      rw [hdiv]

theorem signed_of_digit {parse : List Char → Except NumError Nat} (hd : ∀ c ∈ s, c.isDigit = true)
    (h : parse s = .ok n) (hn : n < 2 ^ 63) : signed parse s = .ok n := by
  unfold signed
  split
  case h_1 t => exact absurd (hd '-' (by simp)) (by decide)
  case h_2 t => exact absurd (hd '+' (by simp)) (by decide)
  case h_3   =>
    rw [h]
    exact if_neg (Nat.not_le.mpr hn)

theorem isDigit_toDigits : ∀ c ∈ Nat.toDigits 10 n, c.isDigit = true :=
  fun _ hc => Nat.isDigit_of_mem_toDigits (by decide) (by decide) hc

theorem parseUint_toDigits (h : n < 2 ^ bits) : parseUint bits (Nat.toDigits 10 n) = .ok n := by
  rw [parseUint, if_neg Nat.toDigits_ne_nil, digits_toDigits (by decide) (by decide) h]

theorem toDigits_inj {m : Nat} (h : Nat.toDigits 10 m = Nat.toDigits 10 n) : m = n := by
  have hm : m < 2 ^ (m + n) := Nat.lt_of_le_of_lt (Nat.le_add_right m n) Nat.lt_two_pow_self
  have hn : n < 2 ^ (m + n) := Nat.lt_of_le_of_lt (Nat.le_add_left n m) Nat.lt_two_pow_self
  have hparse := parseUint_toDigits hm
  rw [h, parseUint_toDigits hn] at hparse
  exact (Except.ok.inj hparse).symm

theorem parseInt_toDigits (h : n < 2 ^ 63) : parseInt (Nat.toDigits 10 n) = .ok n :=
  signed_of_digit isDigit_toDigits (parseUint_toDigits (Nat.lt_trans h (by decide))) h

theorem parseInt_toString {k : Int} (h₀ : -2 ^ 63 ≤ k) (h₁ : k < 2 ^ 63) :
    parseInt (toString k).toList = .ok k := by
  rw [Int.toString_eq_repr, Int.repr_eq_if]
  split
  case isTrue h =>
    obtain ⟨n, rfl⟩ := Int.eq_ofNat_of_zero_le h
    rw [Int.toNat_natCast, Nat.repr_eq_ofList_toDigits, String.toList_ofList]
    exact parseInt_toDigits (by omega)
  case isFalse h =>
    obtain ⟨n, hn⟩ := Int.eq_ofNat_of_zero_le (show 0 ≤ -k by omega)
    rw [hn, Int.toNat_natCast, Nat.repr_eq_ofList_toDigits, String.toList_append,
      String.toList_ofList,
      String.toList_ofList]
    have hp := @parseUint_toDigits 64 n (by omega)
    change ((parseUint 64 (Nat.toDigits 10 n)).bind fun n =>
      if 2 ^ 63 < n then .error .outOfRange else .ok (-n : Int)) = _
    rw [hp]
    refine (if_neg (by omega)).trans ?_
    rw [← hn, Int.neg_neg]

-- There is no zero in front of another digit.
theorem head_toDigits (h : n ≠ 0) : (Nat.toDigits 10 n).head? ≠ some '0' := by
  induction n using Nat.strong_induction_on
  case _ n ih =>
    by_cases hn : n < 10
    case pos =>
      rw [Nat.toDigits_of_lt_base hn]
      exact (by decide : ∀ n < 10, n ≠ 0 → [Nat.digitChar n].head? ≠ some '0') n hn h
    case neg =>
      have hle := Nat.le_of_not_lt hn
      rw [Nat.toDigits_of_base_le (by decide) hle, List.head?_append_of_ne_nil _ Nat.toDigits_ne_nil]
      exact ih _ (Nat.div_lt_self (by omega) (by decide)) (by omega)

theorem splitBase_toDigits (h : n ≠ 0) : splitBase (Nat.toDigits 10 n) = (10, Nat.toDigits 10 n) := by
  have hh := head_toDigits h
  unfold splitBase
  split
  case h_1 heq => simp [heq] at hh
  case h_2 heq => simp [heq] at hh
  case h_3     => rfl

theorem mem_toDigits (h₁ : 1 < base) (hb : base ≤ 16) (hc : c ∈ Nat.toDigits base n) :
    ∃ m < 16, c = Nat.digitChar m := by
  induction n using Nat.strong_induction_on
  case _ n ih =>
    by_cases hn : n < base
    case pos =>
      rw [Nat.toDigits_of_lt_base hn, List.mem_singleton] at hc
      exact ⟨n, Nat.lt_of_lt_of_le hn hb, hc⟩
    case neg =>
      rw [Nat.toDigits_of_base_le h₁ (Nat.le_of_not_lt hn), List.mem_append, List.mem_singleton] at hc
      rcases hc with hc | hc
      · exact ih _ (Nat.div_lt_self (by omega) h₁) hc
      · exact ⟨_, Nat.lt_of_lt_of_le (Nat.mod_lt _ (by omega)) hb, hc⟩

theorem not_mem_toDigits (h₁ : 1 < base) (hb : base ≤ 16) (hc : ∀ m < 16, c ≠ Nat.digitChar m) :
    c ∉ Nat.toDigits base n := by
  intro hm
  obtain ⟨m, hlt, he⟩ := mem_toDigits h₁ hb hm
  exact hc m hlt he

theorem parseInt0_toDigits (h : n < 2 ^ 63) : parseInt0 (Nat.toDigits 10 n) = .ok n := by
  by_cases hn : n = 0
  case pos =>
    subst hn
    rfl
  case neg =>
    refine signed_of_digit isDigit_toDigits ?_ h
    rw [parseUint0, if_neg Nat.toDigits_ne_nil, splitBase_toDigits hn]
    simp only [digits_toDigits (show 1 < 10 by decide) (by decide)
      (Nat.lt_trans h (by decide : 2 ^ 63 < 2 ^ 64))]
    rw [if_neg fun hc => not_mem_toDigits (by decide) (by decide) (by decide) hc.1]

theorem parseInt0_hex (h : n < 2 ^ 63) : parseInt0 ('0' :: 'x' :: Nat.toDigits 16 n) = .ok n := by
  have hs : splitBase ('0' :: 'x' :: Nat.toDigits 16 n) = (16, Nat.toDigits 16 n) := by
    cases hd : Nat.toDigits 16 n
    case nil  => exact absurd hd Nat.toDigits_ne_nil
    case cons => rfl
  have hp : parseUint0 64 ('0' :: 'x' :: Nat.toDigits 16 n) = .ok n := by
    rw [parseUint0, if_neg (List.cons_ne_nil _ _), hs]
    simp only [digits_toDigits (show 1 < 16 by decide) (by decide)
      (Nat.lt_trans h (by decide : 2 ^ 63 < 2 ^ 64))]
    rw [if_neg fun hc => not_mem_toDigits (by decide) (by decide) (by decide) hc.1]
  change ((parseUint0 64 ('0' :: 'x' :: Nat.toDigits 16 n)).bind fun n =>
    if 2 ^ 63 ≤ n then .error .outOfRange else .ok (n : Int)) = _
  rw [hp]
  exact if_neg (Nat.not_le.mpr h)

end Read
end Strconv
