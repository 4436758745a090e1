import AwgRest.Lib.Program
import Mathlib.Logic.Function.Basic

-- Any number of processes that run programs over one shared world. A step performs one effect of one
-- process, so a run is an interleaving of the processes at the granularity of their effects.
--
-- The environment's freedom is made explicit: `exec x pid w e` is the answer to the effect `e` of
-- the process `pid` under the choice `x`, and `none` if the effect has to wait in `w`. `abort pid`
-- is what happens to the world when the process dies, and `tick t` is a step of the world by
-- itself.
structure System {E : Type} (R : E → Type) (W C K T β : Type) where
  exec  : C → Nat → W → (e : E) → Option (R e × W)
  prog  : K → Prog R β
  abort : Nat → W → W
  tick  : T → W → W

inductive Event {E : Type} (R : E → Type) (K T β : Type)
  | spawn (pid : Nat) (k : K)
  | act   (pid : Nat) (e : E) (r : R e)
  | done  (pid : Nat) (b : β)
  | crash (pid : Nat)
  | tick  (t : T)

-- The process that takes part in an event.
def Event.pid {E : Type} {R : E → Type} {K T β : Type} : Event R K T β → Option Nat
  | spawn pid _ => some pid
  | act pid _ _ => some pid
  | done pid _  => some pid
  | crash pid   => some pid
  | tick _      => none

inductive Slot {E : Type} (R : E → Type) (β : Type)
  | unused
  | running (p : Prog R β)
  | ended

structure Config {E : Type} (R : E → Type) (W β : Type) where
  world : W
  procs : Nat → Slot R β

namespace System

variable {E : Type} {R : E → Type} {W C K T β : Type}

inductive Step (S : System R W C K T β) : Config R W β → Event R K T β → Config R W β → Prop
  | spawn {c pid} (k : K) :
    c.procs pid = .unused →
    Step S c (.spawn pid k) ⟨c.world, Function.update c.procs pid (.running (S.prog k))⟩
  | act {c pid e k r w} (x : C) :
    c.procs pid = .running (.op e k) → S.exec x pid c.world e = some (r, w) →
    Step S c (.act pid e r) ⟨w, Function.update c.procs pid (.running (k r))⟩
  | done {c pid b} :
    c.procs pid = .running (.ret b) →
    Step S c (.done pid b) ⟨c.world, Function.update c.procs pid .ended⟩
  | crash {c pid p} :
    c.procs pid = .running p →
    Step S c (.crash pid) ⟨S.abort pid c.world, Function.update c.procs pid .ended⟩
  | tick {c} (t : T) : Step S c (.tick t) ⟨S.tick t c.world, c.procs⟩

-- What a run may assume of each of its steps: the events so far, the world before the step, and the
-- step's event.
abbrev Guard (R : E → Type) (W K T β : Type) :=
  List (Event R K T β) → W → Event R K T β → Prop

inductive Run (S : System R W C K T β) (G : Guard R W K T β) (c₀ : Config R W β) :
    List (Event R K T β) → Config R W β → Prop
  | nil : Run S G c₀ [] c₀
  | step {τ c ev c'} :
    Run S G c₀ τ c → Step S c ev c' → G τ c.world ev → Run S G c₀ (τ ++ [ev]) c'

theorem Run.weaken {S : System R W C K T β} {G G' : Guard R W K T β} {c₀ c : Config R W β} {τ}
    (h : Run S G c₀ τ c) (hg : ∀ τ w ev, G τ w ev → G' τ w ev) : Run S G' c₀ τ c := by
  induction h
  case nil            => exact .nil
  case step hs g ih   => exact .step ih hs (hg _ _ _ g)

theorem Run.trans {S : System R W C K T β} {G : Guard R W K T β} {c₀ c₁ c₂ : Config R W β} {τ₁ τ₂}
    (h₁ : Run S G c₀ τ₁ c₁) (h₂ : Run S (fun τ => G (τ₁ ++ τ)) c₁ τ₂ c₂) :
    Run S G c₀ (τ₁ ++ τ₂) c₂ := by
  induction h₂
  case nil          => simpa using h₁
  case step hs g ih => exact List.append_assoc .. ▸ .step ih hs g

-- Runs can be computed: a list of moves says which process is next and what the environment chooses.
inductive Move (C K T : Type)
  | spawn (pid : Nat) (k : K)
  | act   (pid : Nat) (x : C)
  | done  (pid : Nat)
  | crash (pid : Nat)
  | tick  (t : T)

def play (S : System R W C K T β) (c : Config R W β) :
    Move C K T → Option (Event R K T β × Config R W β)
  | .spawn pid k =>
    match c.procs pid with
    | .unused => some (.spawn pid k, ⟨c.world, Function.update c.procs pid (.running (S.prog k))⟩)
    | _       => none
  | .act pid x =>
    match c.procs pid with
    | .running (.op e k) =>
      match S.exec x pid c.world e with
      | some (r, w) => some (.act pid e r, ⟨w, Function.update c.procs pid (.running (k r))⟩)
      | none        => none
    | _ => none
  | .done pid =>
    match c.procs pid with
    | .running (.ret b) => some (.done pid b, ⟨c.world, Function.update c.procs pid .ended⟩)
    | _                 => none
  | .crash pid =>
    match c.procs pid with
    | .running _ => some (.crash pid, ⟨S.abort pid c.world, Function.update c.procs pid .ended⟩)
    | _          => none
  | .tick t => some (.tick t, ⟨S.tick t c.world, c.procs⟩)

def playAll (S : System R W C K T β) :
    Config R W β → List (Move C K T) → Option (List (Event R K T β) × Config R W β)
  | c, []      => some ([], c)
  | c, m :: ms =>
    match S.play c m with
    | none          => none
    | some (ev, c') => (S.playAll c' ms).map (fun (τ, c'') => (ev :: τ, c''))

-- The same, for as long as a condition on the steps is met.
def playUnder (S : System R W C K T β) (g : List (Event R K T β) → W → Event R K T β → Bool) :
    List (Event R K T β) → Config R W β → List (Move C K T) →
      Option (List (Event R K T β) × Config R W β)
  | τ, c, []      => some (τ, c)
  | τ, c, m :: ms =>
    match S.play c m with
    | none          => none
    | some (ev, c') => if g τ c.world ev then playUnder S g (τ ++ [ev]) c' ms else none

theorem play_step {S : System R W C K T β} {c c' : Config R W β} {m ev}
    (h : S.play c m = some (ev, c')) : S.Step c ev c' := by
  cases m <;> simp only [play] at h
  case spawn pid k =>
    cases hp : c.procs pid <;> simp only [hp, reduceCtorEq] at h
    cases h
    exact .spawn k hp
  case act pid x =>
    cases hp : c.procs pid <;> simp only [hp, reduceCtorEq] at h
    case running p =>
      cases p <;> simp only [reduceCtorEq] at h
      case op e k =>
        cases hx : S.exec x pid c.world e <;> simp only [hx, reduceCtorEq] at h
        cases h
        exact .act x hp hx
  case done pid =>
    cases hp : c.procs pid <;> simp only [hp, reduceCtorEq] at h
    case running p =>
      cases p <;> simp only [reduceCtorEq] at h
      cases h
      exact .done hp
  case crash pid =>
    cases hp : c.procs pid <;> simp only [hp, reduceCtorEq] at h
    cases h
    exact .crash hp
  case tick t =>
    cases h
    exact .tick t

theorem playAll_run {S : System R W C K T β} {c c' : Config R W β} {ms τ}
    (h : S.playAll c ms = some (τ, c')) : S.Run (fun _ _ _ => True) c τ c' := by
  induction ms generalizing c τ <;> simp only [playAll] at h
  case nil => cases h; exact .nil
  case cons m ms ih =>
    split at h <;> try contradiction
    case _ ev c₁ hp =>
      simp only [Option.map_eq_some_iff, Prod.mk.injEq, Prod.exists] at h
      have ⟨τ', _, hr, hτ, hc⟩ := h
      subst hτ hc
      have h₁ : S.Run (fun _ _ _ => True) c [ev] c₁ := .step .nil (play_step hp) trivial
      exact h₁.trans (ih hr)

theorem playUnder_run {S : System R W C K T β} {G : Guard R W K T β}
    {g : List (Event R K T β) → W → Event R K T β → Bool} (hg : ∀ τ w ev, g τ w ev = true → G τ w ev)
    {c₀ c c' : Config R W β} {ms τ τ'} (hr : S.Run G c₀ τ c)
    (h : S.playUnder g τ c ms = some (τ', c')) : S.Run G c₀ τ' c' := by
  induction ms generalizing c τ <;> simp only [playUnder] at h
  case nil => cases h; exact hr
  case cons m ms ih =>
    split at h <;> try contradiction
    case _ ev c₁ hp =>
      split at h <;> try contradiction
      case _ hgv => exact ih (.step hr (play_step hp) (hg _ _ _ hgv)) h

end System
