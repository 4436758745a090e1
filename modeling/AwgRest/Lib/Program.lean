import Mathlib.Control.Basic
import Mathlib.Tactic.Common

-- A program performs effects `e : E` one at a time and continues with the answer `r : R e` that its
-- environment gives. Nothing is said here about what the environment is: the same program can be run
-- alone, or be interleaved with others.
inductive Prog {E : Type} (R : E → Type) (α : Type)
  | ret (a : α)
  | op (e : E) (k : R e → Prog R α)

namespace Prog

variable {E : Type} {R : E → Type} {α β : Type}

def bind : Prog R α → (α → Prog R β) → Prog R β
  | ret a,  f => f a
  | op e k, f => op e (fun r => (k r).bind f)

instance : Monad (Prog R) where
  pure := ret
  bind := bind

@[simp]
theorem pure_def (a : α) : (pure a : Prog R α) = ret a :=
  rfl

@[simp]
theorem ret_bind (a : α) (f : α → Prog R β) : (ret a >>= f) = f a :=
  rfl

@[simp]
theorem op_bind (e : E) (k : R e → Prog R α) (f : α → Prog R β) :
    (op e k >>= f) = op e (fun r => k r >>= f) :=
  rfl

-- Performs each effect by a program of its own.
def through (f : (e : E) → Prog R (R e)) : Prog R α → Prog R α
  | ret a  => ret a
  | op e k => f e >>= fun r => (k r).through f

-- Running a program with a handler that answers every effect from a state. `none` means that the
-- handler never answers: the program waits forever.
def solo {W : Type} (h : W → (e : E) → Option (R e × W)) : W → Prog R α → Option (α × W)
  | w, ret a => some (a, w)
  | w, op e k =>
    match h w e with
    | none        => none
    | some (r, w) => solo h w (k r)

section Solo

variable {W : Type} {h : W → (e : E) → Option (R e × W)} {w : W}

@[simp]
theorem solo_ret (a : α) : (ret a : Prog R α).solo h w = some (a, w) :=
  rfl

theorem solo_bind (p : Prog R α) (f : α → Prog R β) :
    (p >>= f).solo h w = (p.solo h w).bind (fun (a, w') => (f a).solo h w') := by
  induction p generalizing w
  case ret a => rfl
  case op e k ih =>
    simp only [op_bind, solo]
    cases h w e
    case none => rfl
    case some x => exact ih x.1

-- A program whose effects are performed by other programs is run by a handler that runs these.
theorem solo_through (f : (e : E) → Prog R (R e)) (p : Prog R α) :
    (p.through f).solo h w = p.solo (fun w e => (f e).solo h w) w := by
  induction p generalizing w
  case ret a     => rfl
  case op e k ih =>
    simp only [through, solo, solo_bind]
    cases (f e).solo h w
    case none   => rfl
    case some x => exact ih x.1

-- Two handlers that give the same answers in related states.
theorem solo_rel {V : Type} {g : V → (e : E) → Option (R e × V)} {S : V → W → Prop}
    (hs : ∀ {v w e}, S v w → Option.Rel (fun x y => x.1 = y.1 ∧ S x.2 y.2) (g v e) (h w e))
    (p : Prog R α) {v : V} (hv : S v w) :
    Option.Rel (fun x y => x.1 = y.1 ∧ S x.2 y.2) (p.solo g v) (p.solo h w) := by
  induction p generalizing v w
  case ret a     => exact .some ⟨rfl, hv⟩
  case op e k ih =>
    have he := hs (e := e) hv
    simp only [solo]
    cases hg : g v e <;> cases hh : h w e <;> rw [hg, hh] at he <;> cases he
    case none         => exact .none
    case some x y hxy =>
      obtain ⟨r, v⟩ := x
      obtain ⟨r, w⟩ := y
      obtain ⟨rfl, hv⟩ := hxy
      exact ih r hv

end Solo
end Prog

-- A protocol describes the effects a program may perform by a local state `φ` that is computed from
-- the answers the program has received. `Answers e r` is what may be assumed of the answer `r` to `e`
-- whatever the state of the environment is.
structure Protocol {E : Type} (R : E → Type) (Φ : Type) where
  Allows  : Φ → E → Prop
  Answers : (e : E) → R e → Prop
  next    : Φ → (e : E) → R e → Φ

namespace Prog

variable {E : Type} {R : E → Type} {Φ α β : Type}

-- `p.Follows P Q φ`: whatever answers `p` receives, each of its effects is allowed in the local state
-- in which it is performed, and when `p` returns the local state and the result satisfy `Q`.
def Follows (P : Protocol R Φ) (Q : Φ → α → Prop) : Φ → Prog R α → Prop
  | φ, ret a  => Q φ a
  | φ, op e k => P.Allows φ e ∧ ∀ r, P.Answers e r → (k r).Follows P Q (P.next φ e r)

namespace Follows

variable {P : Protocol R Φ} {Q Q' : Φ → α → Prop} {φ : Φ}

@[simp]
theorem ret_iff {a : α} : (ret a : Prog R α).Follows P Q φ ↔ Q φ a :=
  Iff.rfl

theorem op_iff {e : E} {k : R e → Prog R α} :
    (op e k).Follows P Q φ ↔
      P.Allows φ e ∧ ∀ r, P.Answers e r → (k r).Follows P Q (P.next φ e r) :=
  Iff.rfl

theorem bind_iff {p : Prog R α} {f : α → Prog R β} {Q : Φ → β → Prop} :
    (p >>= f).Follows P Q φ ↔ p.Follows P (fun φ a => (f a).Follows P Q φ) φ := by
  induction p generalizing φ
  case ret a => rfl
  case op e k ih =>
    simp only [op_bind, op_iff]
    exact and_congr_right fun _ => forall₂_congr fun r _ => ih r

theorem mono {p : Prog R α} (hp : p.Follows P Q φ) (hq : ∀ φ a, Q φ a → Q' φ a) :
    p.Follows P Q' φ := by
  induction p generalizing φ
  case ret a => exact hq _ _ hp
  case op e k ih => exact ⟨hp.1, fun r hr => ih r (hp.2 r hr)⟩

end Follows
end Prog

-- Programs that may fail: an effect's answer is either a value or an error, and an error ends the
-- program unless it is caught by `attempt`.
abbrev Fallible {E : Type} (ε : Type) (A : E → Type) (α : Type) :=
  ExceptT ε (Prog fun e => Except ε (A e)) α

namespace Fallible

variable {E : Type} {ε : Type} {A : E → Type} {α β : Type}

def call (e : E) : Fallible ε A (A e) :=
  ExceptT.mk (.op e .ret)

def attempt (x : Fallible ε A α) : Fallible ε A (Except ε α) :=
  ExceptT.mk (x.run >>= fun r => .ret (.ok r))

def mapErr (f : ε → ε) (x : Fallible ε A α) : Fallible ε A α :=
  ExceptT.mk (x.run >>= fun r => .ret (r.mapError f))

-- The postcondition `Q` of a program whose result is handed to a continuation with precondition `K`.
def Then {Φ : Type} (K : Φ → α → Prop) (Q : Φ → Except ε β → Prop) : Φ → Except ε α → Prop
  | φ, .ok a    => K φ a
  | φ, .error x => Q φ (.error x)

section Follows

variable {Φ : Type} {P : Protocol (fun e => Except ε (A e)) Φ} {φ : Φ} {Q : Φ → Except ε α → Prop}

-- The rules of pre- and postconditions for fallible programs. They are equivalences, so that `simp`
-- executes a program symbolically.

theorem follows_pure {a : α} : (pure a : Fallible ε A α).run.Follows P Q φ ↔ Q φ (.ok a) :=
  Iff.rfl

theorem follows_throw {x : ε} : (throw x : Fallible ε A α).run.Follows P Q φ ↔ Q φ (.error x) :=
  Iff.rfl

theorem follows_bind {x : Fallible ε A α} {f : α → Fallible ε A β} {Q : Φ → Except ε β → Prop} :
    (x >>= f).run.Follows P Q φ ↔
      x.run.Follows P (Then (fun φ a => (f a).run.Follows P Q φ) Q) φ := by
  rw [ExceptT.run_bind, Prog.Follows.bind_iff]
  refine ⟨(·.mono ?_), (·.mono ?_)⟩
  all_goals
    intro φ r h
    cases r <;> exact h

theorem follows_bind_of {x : Fallible ε A α} {f : α → Fallible ε A β} {Q : Φ → Except ε β → Prop}
    (h : x.run.Follows P (Then (fun φ a => (f a).run.Follows P Q φ) Q) φ) :
    (x >>= f).run.Follows P Q φ :=
  follows_bind.mpr h

theorem follows_attempt {x : Fallible ε A α} {Q : Φ → Except ε (Except ε α) → Prop} :
    x.attempt.run.Follows P Q φ ↔ x.run.Follows P (fun φ r => Q φ (.ok r)) φ :=
  Prog.Follows.bind_iff

theorem follows_mapErr {f : ε → ε} {x : Fallible ε A α} :
    (x.mapErr f).run.Follows P Q φ ↔ x.run.Follows P (fun φ r => Q φ (r.mapError f)) φ :=
  Prog.Follows.bind_iff

theorem follows_call {e : E} {Q : Φ → Except ε (A e) → Prop} :
    (call e : Fallible ε A (A e)).run.Follows P Q φ ↔
      P.Allows φ e ∧
      (∀ a, P.Answers e (.ok a) → Q (P.next φ e (.ok a)) (.ok a)) ∧
      (∀ x, P.Answers e (.error x) → Q (P.next φ e (.error x)) (.error x)) := by
  refine and_congr_right fun _ => ⟨fun h => ⟨fun a => h (.ok a), fun x => h (.error x)⟩, ?_⟩
  rintro ⟨hok, herr⟩ (x | a)
  case error => exact herr x
  case ok    => exact hok a

theorem follows_call_bind {e : E} {f : A e → Fallible ε A β} {Q : Φ → Except ε β → Prop} :
    (call e >>= f).run.Follows P Q φ ↔
      P.Allows φ e ∧
      (∀ a, P.Answers e (.ok a) → (f a).run.Follows P Q (P.next φ e (.ok a))) ∧
      (∀ x, P.Answers e (.error x) → Q (P.next φ e (.error x)) (.error x)) := by
  rw [follows_bind, follows_call]
  rfl

end Follows

section Solo

variable {W : Type} {h : W → (e : E) → Option (Except ε (A e) × W)} {w : W}

-- The same rules for a program that runs alone, as equations.

@[simp]
theorem solo_pure (a : α) : (pure a : Fallible ε A α).run.solo h w = some (.ok a, w) :=
  rfl

@[simp]
theorem solo_throw (x : ε) : (throw x : Fallible ε A α).run.solo h w = some (.error x, w) :=
  rfl

@[simp]
theorem solo_call (e : E) : (call e : Fallible ε A (A e)).run.solo h w = h w e := by
  simp only [call, ExceptT.run_mk, Prog.solo]
  cases h w e <;> rfl

theorem solo_bind (x : Fallible ε A α) (f : α → Fallible ε A β) :
    (x >>= f).run.solo h w = (x.run.solo h w).bind fun
      | (.ok a, w')    => (f a).run.solo h w'
      | (.error e, w') => some (.error e, w') := by
  rw [ExceptT.run_bind, Prog.solo_bind]
  refine Option.bind_congr fun (r, w') _ => ?_
  cases r <;> rfl

theorem solo_bind_ok {x : Fallible ε A α} {f : α → Fallible ε A β} {a : α} {w' : W}
    (hx : x.run.solo h w = some (.ok a, w')) : (x >>= f).run.solo h w = (f a).run.solo h w' := by
  rw [solo_bind, hx]
  rfl

theorem solo_bind_error {x : Fallible ε A α} {f : α → Fallible ε A β} {e : ε} {w' : W}
    (hx : x.run.solo h w = some (.error e, w')) : (x >>= f).run.solo h w = some (.error e, w') := by
  rw [solo_bind, hx]
  rfl

theorem solo_bind_none {x : Fallible ε A α} {f : α → Fallible ε A β} (hx : x.run.solo h w = none) :
    (x >>= f).run.solo h w = none := by
  rw [solo_bind, hx]
  rfl

theorem solo_mapErr_ok {f : ε → ε} {x : Fallible ε A α} {a : α} {w' : W}
    (hx : x.run.solo h w = some (.ok a, w')) : (x.mapErr f).run.solo h w = some (.ok a, w') := by
  simp only [mapErr, ExceptT.run_mk, Prog.solo_bind, hx]
  rfl

theorem solo_mapErr_error {f : ε → ε} {x : Fallible ε A α} {e : ε} {w' : W}
    (hx : x.run.solo h w = some (.error e, w')) :
    (x.mapErr f).run.solo h w = some (.error (f e), w') := by
  simp only [mapErr, ExceptT.run_mk, Prog.solo_bind, hx]
  rfl

theorem solo_attempt (x : Fallible ε A α) :
    x.attempt.run.solo h w = (x.run.solo h w).map fun (r, w') => (.ok r, w') := by
  simp only [attempt, ExceptT.run_mk, Prog.solo_bind]
  cases x.run.solo h w <;> rfl

theorem solo_attempt_call {e : E} {a : Except ε (A e)} {w' : W} (he : h w e = some (a, w')) :
    (attempt (call e)).run.solo h w = some (.ok a, w') := by
  rw [solo_attempt, solo_call, he]
  rfl

theorem solo_mapErr_cases {f : ε → ε} {x : Fallible ε A α} {r : Except ε α} {w' : W}
    (hr : (x.mapErr f).run.solo h w = some (r, w')) :
    ∃ r₀, x.run.solo h w = some (r₀, w') ∧ r = r₀.mapError f := by
  cases hx : x.run.solo h w
  case none =>
    simp only [mapErr, ExceptT.run_mk, Prog.solo_bind, hx] at hr
    cases hr
  case some y =>
    obtain ⟨r₀, w₁⟩ := y
    simp only [mapErr, ExceptT.run_mk, Prog.solo_bind, hx] at hr
    cases hr
    exact ⟨r₀, rfl, rfl⟩

end Solo
end Fallible
