import AwgRest.Lib.Discipline

namespace System.Discipline.Trace

variable {E : Type} {R : E → Type} {W C K T β Φ : Type} {S : System R W C K T β} {D : Discipline S Φ}
  {G : Guard R W K T β} {w₀ w : W} {τ : List (Event R K T β)}

-- The rule for invariants of the events, of the world and of the local states.
theorem invariant {I : List (Event R K T β) → W → (Nat → Option Φ) → Prop} (h : D.Trace G w₀ τ w)
    (init : I [] w₀ fun _ => none)
    (spawn : ∀ {τ w L pid k}, I τ w L → L pid = none → G τ w (.spawn pid k) →
      I (τ ++ [.spawn pid k]) w (Function.update L pid (some (D.init k))))
    (act : ∀ {τ w L pid φ e r w' x}, I τ w L → L pid = some φ → D.Allows φ e →
      S.exec x pid w e = some (r, w') → G τ w (.act pid e r) →
      I (τ ++ [.act pid e r]) w' (Function.update L pid (some (D.next φ e r))))
    (done : ∀ {τ w L pid φ b}, I τ w L → L pid = some φ → D.Post φ b →
      I (τ ++ [.done pid b]) w (Function.update L pid none))
    (crash : ∀ {τ w L pid φ}, I τ w L → L pid = some φ →
      I (τ ++ [.crash pid]) (S.abort pid w) (Function.update L pid none))
    (tick : ∀ {τ w L t}, I τ w L → I (τ ++ [.tick t]) (S.tick t w) L) : I τ w (D.locals τ) := by
  induction h
  case nil => exact init
  case spawn hl hg ih =>
    rw [locals_concat]
    exact spawn ih hl hg
  case act τ w pid φ e r w' x _ hl ha hx hg ih =>
    rw [locals_concat, observed, hl]
    exact act ih hl ha hx hg
  case done hl hp _ ih =>
    rw [locals_concat]
    exact done ih hl hp
  case crash hl _ ih =>
    rw [locals_concat]
    exact crash ih hl
  case tick ih =>
    rw [locals_concat]
    exact tick ih

end System.Discipline.Trace
