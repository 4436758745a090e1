import Mathlib.Tactic.Common

-- The documents of `encoding/json`, without their text. A time has a text of its own kind, which is
-- read back as the same time.
inductive Json (τ : Type)
  | null
  | num  (n : Int)
  | str  (s : String)
  | time (t : τ)
  | arr  (l : List (Json τ))
  | obj  (fields : List (String × Json τ))

namespace Json

variable {τ : Type}

-- A field with the option `omitempty`.
def omitEmpty (name : String) (empty : Bool) (v : Json τ) : List (String × Json τ) :=
  if empty then [] else [(name, v)]

-- A field that is not there has no effect, and neither has the value `null`.
def field (name : String) : Json τ → Json τ
  | obj fields => (fields.lookup name).getD null
  | _          => null

-- The kind of a value that does not fit a variable.
def kind : Json τ → String
  | null           => "null"
  | num _          => "number"
  | str _ | time _ => "string"
  | arr _          => "array"
  | obj _          => "object"

def mismatch {α : Type} (v : Json τ) (type : String) : Except String α :=
  .error ("json: cannot unmarshal " ++ v.kind ++ " into Go value of type " ++ type)

def asString : Json τ → Except String String
  | null  => .ok ""
  | str s => .ok s
  | v     => v.mismatch "string"

def asInt : Json τ → Except String Int
  | null  => .ok 0
  | num n => .ok n
  | v     => v.mismatch "int"

def asTime (zero : τ) : Json τ → Except String τ
  | null   => .ok zero
  | time t => .ok t
  | v      => v.mismatch "time.Time"

def asList {α : Type} (elem : Json τ → Except String α) : Json τ → Except String (List α)
  | null  => .ok []
  | arr l => l.mapM elem
  | v     => v.mismatch "slice"

section

variable {name other : String} {v : Json τ} {b : Bool}

theorem asString_str (s : String) : asString (.str s : Json τ) = .ok s :=
  rfl

theorem asInt_num (n : Int) : asInt (.num n : Json τ) = .ok n :=
  rfl

theorem asTime_time (zero t : τ) : asTime zero (.time t) = .ok t :=
  rfl

-- An empty value is left out, and read as empty again.

theorem asString_omitEmpty {s : String} :
    asString (((omitEmpty name (s = "") (.str s) : List (String × Json τ)).lookup name).getD null) =
      .ok s := by
  unfold omitEmpty
  by_cases h : s = "" <;> simp [h, asString]

theorem asInt_omitEmpty {n : Int} :
    asInt (((omitEmpty name (n = 0) (.num n) : List (String × Json τ)).lookup name).getD null) =
      .ok n := by
  unfold omitEmpty
  by_cases h : n = 0 <;> simp [h, asInt]

theorem lookup_omitEmpty_of_ne (h : name ≠ other) : (omitEmpty other b v).lookup name = none := by
  unfold omitEmpty
  have hb : (name == other) = false := by simpa using h
  cases b <;> simp [List.lookup_cons, hb]

theorem asList_arr {α β : Type} {elem : Json τ → Except String β} {write : α → Json τ} {f : α → β}
    {l : List α} (h : ∀ a ∈ l, elem (write a) = .ok (f a)) :
    asList elem (arr (l.map write)) = .ok (l.map f) := by
  induction l
  case nil => rfl
  case cons a l ih =>
    have hl := ih fun a ha => h a (List.mem_cons_of_mem _ ha)
    simp only [asList] at hl ⊢
    rw [List.map_cons, List.mapM_cons, h a (by simp), hl]
    rfl

end

end Json
