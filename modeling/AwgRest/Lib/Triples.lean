import AwgRest.Lib.Program

-- Pre- and postconditions for programs that may fail.
namespace Fallible

variable {E ε α β Φ : Type} {A : E → Type} {P : Protocol (fun e => Except ε (A e)) Φ} {I : Φ → Prop}
  {J J' : α → Φ → Prop} {X X' : Φ → Prop}

-- The local state in which a program ends: `J a` holds of it if the program returns `a`, and `X` if
-- it fails.
def Leaves (J : α → Φ → Prop) (X : Φ → Prop) (φ : Φ) : Except ε α → Prop
  | .ok a    => J a φ
  | .error _ => X φ

-- The program can be run wherever `I` holds.
def Triple (P : Protocol (fun e => Except ε (A e)) Φ) (I : Φ → Prop) (p : Fallible ε A α)
    (J : α → Φ → Prop) (X : Φ → Prop) : Prop :=
  ∀ φ, I φ → p.run.Follows P (Leaves J X) φ

theorem triple_pure {a : α} (h : ∀ φ, I φ → J a φ) : Triple P I (pure a) J X :=
  h

theorem triple_throw {x : ε} (h : ∀ φ, I φ → X φ) : Triple P I (throw x) J X :=
  h

theorem triple_call {e : E} {J : A e → Φ → Prop} (ha : ∀ φ, I φ → P.Allows φ e)
    (hr : ∀ φ r, I φ → P.Answers e r → Leaves J X (P.next φ e r) r) : Triple P I (call e) J X :=
  fun φ h => ⟨ha φ h, fun r => hr φ r h⟩

theorem triple_bind {p : Fallible ε A α} {f : α → Fallible ε A β} {K : β → Φ → Prop}
    (hp : Triple P I p J X) (hf : ∀ a, Triple P (J a) (f a) K X) : Triple P I (p >>= f) K X := by
  intro φ h
  refine follows_bind_of <| (hp φ h).mono fun ψ r hψ => ?_
  cases r
  case error => exact hψ
  case ok a  => exact hf a ψ hψ

theorem triple_attempt {p : Fallible ε A α} (hp : Triple P I p J X) :
    Triple P I p.attempt (fun r φ => Leaves J X φ r) X' :=
  fun φ h => follows_attempt.mpr (hp φ h)

theorem triple_mapErr {f : ε → ε} {p : Fallible ε A α} (hp : Triple P I p J X) :
    Triple P I (p.mapErr f) J X :=
  fun φ h => follows_mapErr.mpr <| (hp φ h).mono fun _ r hψ => by cases r <;> exact hψ

theorem Triple.mono {p : Fallible ε A α} {I' : Φ → Prop} (hp : Triple P I p J X)
    (hi : ∀ φ, I' φ → I φ) (hj : ∀ a φ, J a φ → J' a φ) (hx : ∀ φ, X φ → X' φ) :
    Triple P I' p J' X' :=
  fun φ h => (hp φ (hi φ h)).mono fun ψ r hψ => by
    cases r
    case ok a  => exact hj a ψ hψ
    case error => exact hx ψ hψ

end Fallible
