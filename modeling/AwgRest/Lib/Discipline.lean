import AwgRest.Lib.Interleaving
import Mathlib.Data.List.Induction

namespace System

variable {E : Type} {R : E → Type} {W C K T β Φ : Type}

-- What is known of the processes that are running, where `init k` is known of a process of the kind
-- `k` when it begins, and `next` is what an effect and its answer add.
def observed (init : K → Φ) (next : Φ → (e : E) → R e → Φ) (L : Nat → Option Φ) :
    Event R K T β → Nat → Option Φ
  | .spawn pid k => Function.update L pid (init k)
  | .act pid e r => Function.update L pid ((L pid).map (next · e r))
  | .done pid _  => Function.update L pid none
  | .crash pid   => Function.update L pid none
  | .tick _      => L

def observe (init : K → Φ) (next : Φ → (e : E) → R e → Φ) (τ : List (Event R K T β)) :
    Nat → Option Φ :=
  τ.foldl (observed init next) (fun _ => none)

theorem observe_concat {init : K → Φ} {next : Φ → (e : E) → R e → Φ} (τ : List (Event R K T β)) (ev) :
    observe init next (τ ++ [ev]) = observed init next (observe init next τ) ev := by
  simp [observe]

-- Less may be known: a function of what is known that can be kept up to date by itself.
theorem observe_map {Ψ : Type} {init : K → Φ} {next : Φ → (e : E) → R e → Φ} {init' : K → Ψ}
    {next' : Ψ → (e : E) → R e → Ψ} (f : Φ → Ψ) (hi : ∀ k, f (init k) = init' k)
    (hn : ∀ φ e r, f (next φ e r) = next' (f φ) e r) (τ : List (Event R K T β)) (pid : Nat) :
    observe init' next' τ pid = (observe init next τ pid).map f := by
  have update {L : Nat → Option Ψ} {M : Nat → Option Φ} {x : Option Φ} (q : Nat)
      (h : ∀ pid, L pid = (M pid).map f) (pid : Nat) :
      Function.update L q (x.map f) pid = (Function.update M q x pid).map f := by
    by_cases hq : pid = q
    · simp [hq]
    · simpa [hq] using h pid
  induction τ using List.reverseRecOn generalizing pid
  case nil => rfl
  case append_singleton τ ev ih =>
    rw [observe_concat, observe_concat]
    cases ev
    case spawn q k =>
      have := update (x := some (init k)) q ih pid
      simpa [observed, hi] using this
    case act q e r =>
      have := update (x := (observe init next τ q).map (next · e r)) q ih pid
      simpa [observed, ih q, Function.comp_def, hn] using this
    case done q b  => exact update (x := none) q ih pid
    case crash q   => exact update (x := none) q ih pid
    case tick t    => exact ih pid

-- What is known of every process that has begun, also of those that have ended.
def remembered (init : K → Φ) (next : Φ → (e : E) → R e → Φ) (L : Nat → Option Φ) :
    Event R K T β → Nat → Option Φ
  | .spawn pid k => Function.update L pid (init k)
  | .act pid e r => Function.update L pid ((L pid).map (next · e r))
  | _            => L

def remember (init : K → Φ) (next : Φ → (e : E) → R e → Φ) (τ : List (Event R K T β)) :
    Nat → Option Φ :=
  τ.foldl (remembered init next) (fun _ => none)

section Remember

variable {init : K → Φ} {next : Φ → (e : E) → R e → Φ} {τ : List (Event R K T β)} {pid : Nat} {φ : Φ}

theorem remember_concat (τ : List (Event R K T β)) (ev) :
    remember init next (τ ++ [ev]) = remembered init next (remember init next τ) ev := by
  simp [remember]

theorem remember_of_observe (h : observe init next τ pid = some φ) :
    remember init next τ pid = some φ := by
  induction τ using List.reverseRecOn generalizing φ
  case nil => cases h
  case append_singleton τ ev ih =>
    rw [observe_concat] at h
    rw [remember_concat]
    cases ev
    case spawn q k =>
      by_cases hq : pid = q
      case pos => simpa [observed, remembered, hq] using h
      case neg => simpa [remembered, hq] using ih (by simpa [observed, hq] using h)
    case act q e r =>
      by_cases hq : pid = q
      case pos =>
        subst hq
        obtain ⟨φ', hφ, rfl⟩ := Option.map_eq_some_iff.mp (by simpa [observed] using h)
        simp [remembered, ih hφ]
      case neg => simpa [remembered, hq] using ih (by simpa [observed, hq] using h)
    case tick t => exact ih h
    case done q b =>
      by_cases hq : pid = q
      case pos => simp [observed, hq] at h
      case neg => exact ih (by simpa [observed, hq] using h)
    case crash q =>
      by_cases hq : pid = q
      case pos => simp [observed, hq] at h
      case neg => exact ih (by simpa [observed, hq] using h)

-- How something comes to be known.
theorem remember_concat_cases {ev : Event R K T β} (h : remember init next (τ ++ [ev]) pid = some φ) :
    remember init next τ pid = some φ ∨ (∃ k, ev = .spawn pid k ∧ init k = φ) ∨
      ∃ e r φ', ev = .act pid e r ∧ remember init next τ pid = some φ' ∧ next φ' e r = φ := by
  rw [remember_concat] at h
  cases ev
  case spawn q k =>
    by_cases hq : pid = q
    case pos => exact .inr (.inl ⟨k, by rw [hq], by simpa [remembered, hq] using h⟩)
    case neg => exact .inl (by simpa [remembered, hq] using h)
  case act q e r =>
    by_cases hq : pid = q
    case pos =>
      subst hq
      obtain ⟨φ', hφ, hn⟩ := Option.map_eq_some_iff.mp (by simpa [remembered] using h)
      exact .inr (.inr ⟨e, r, φ', rfl, hφ, hn⟩)
    case neg => exact .inl (by simpa [remembered, hq] using h)
  all_goals exact .inl h

-- What is known of a process and did not hold when it began is due to one of its effects.
theorem act_of_remember {J : Φ → Prop} {Q : (e : E) → R e → Prop} (hi : ∀ k, ¬ J (init k))
    (hn : ∀ {φ e r}, J (next φ e r) → J φ ∨ Q e r) (h : remember init next τ pid = some φ)
    (hj : J φ) :
    ∃ e r, Q e r ∧ .act pid e r ∈ τ := by
  induction τ using List.reverseRecOn generalizing φ
  case nil => cases h
  case append_singleton τ ev ih =>
    have old {ψ : Φ} (h : remember init next τ pid = some ψ) (hj : J ψ) :
        ∃ e r, Q e r ∧ .act pid e r ∈ τ ++ [ev] := by
      obtain ⟨e, r, hq, hm⟩ := ih h hj
      exact ⟨e, r, hq, List.mem_append_left _ hm⟩
    rcases remember_concat_cases h with h | ⟨k, -, rfl⟩ | ⟨e, r, ψ, rfl, hψ, rfl⟩
    · exact old h hj
    · exact absurd hj (hi k)
    · rcases hn hj with hj | hq
      · exact old hψ hj
      · exact ⟨e, r, hq, by simp⟩

theorem spawn_of_remember (h : remember init next τ pid = some φ) : ∃ k, .spawn pid k ∈ τ := by
  induction τ using List.reverseRecOn generalizing φ
  case nil => cases h
  case append_singleton τ ev ih =>
    have old {ψ : Φ} (h : remember init next τ pid = some ψ) : ∃ k, .spawn pid k ∈ τ ++ [ev] :=
      (ih h).imp fun _ hm => List.mem_append_left _ hm
    rcases remember_concat_cases h with h | ⟨k, rfl, -⟩ | ⟨e, r, ψ, -, hψ, -⟩
    · exact old h
    · exact ⟨k, by simp⟩
    · exact old hψ

end Remember

-- A discipline abstracts the programs of a system by a protocol: every program follows the protocol
-- from the local state `init k`, and what the world answers is what the protocol assumes.
structure Discipline (S : System R W C K T β) (Φ : Type) extends Protocol R Φ where
  init    : K → Φ
  Post    : Φ → β → Prop
  follows : ∀ k, (S.prog k).Follows toProtocol Post (init k)
  answers : ∀ {x pid w e r w'}, S.exec x pid w e = some (r, w') → Answers e r

namespace Discipline

variable {S : System R W C K T β} (D : Discipline S Φ)

-- The local state of each process that is still running after the events `τ`.
def locals (τ : List (Event R K T β)) : Nat → Option Φ :=
  observe D.init D.next τ

@[simp]
theorem locals_nil : D.locals ([] : List (Event R K T β)) = fun _ => none :=
  rfl

@[simp]
theorem locals_concat (τ : List (Event R K T β)) (ev) :
    D.locals (τ ++ [ev]) = observed D.init D.next (D.locals τ) ev :=
  observe_concat τ ev

-- Runs in which the programs have been forgotten: a process may perform any effect that the protocol
-- allows in its local state.
inductive Trace (G : Guard R W K T β) (w₀ : W) : List (Event R K T β) → W → Prop
  | nil : Trace G w₀ [] w₀
  | spawn {τ w pid} {k : K} :
    Trace G w₀ τ w → (∀ k', .spawn pid k' ∉ τ) → D.locals τ pid = none →
    G τ w (.spawn pid k) → Trace G w₀ (τ ++ [.spawn pid k]) w
  | act {τ w pid φ e r w'} (x : C) :
    Trace G w₀ τ w → D.locals τ pid = some φ → D.Allows φ e → S.exec x pid w e = some (r, w') →
    G τ w (.act pid e r) → Trace G w₀ (τ ++ [.act pid e r]) w'
  | done {τ w pid φ b} :
    Trace G w₀ τ w → D.locals τ pid = some φ → D.Post φ b →
    G τ w (.done pid b) → Trace G w₀ (τ ++ [.done pid b]) w
  | crash {τ w pid φ} :
    Trace G w₀ τ w → D.locals τ pid = some φ →
    G τ w (.crash pid) → Trace G w₀ (τ ++ [.crash pid]) (S.abort pid w)
  | tick {τ w} (t : T) :
    Trace G w₀ τ w → G τ w (.tick t) → Trace G w₀ (τ ++ [.tick t]) (S.tick t w)

-- How a configuration is related to the events that led to it.
def Agrees (τ : List (Event R K T β)) (pid : Nat) : Slot R β → Prop
  | .unused    => D.locals τ pid = none ∧ ∀ k, .spawn pid k ∉ τ
  | .running p => ∃ φ, D.locals τ pid = some φ ∧ p.Follows D.toProtocol D.Post φ
  | .ended     => D.locals τ pid = none

variable {D} {G : Guard R W K T β} {c₀ c c' : Config R W β} {τ : List (Event R K T β)} {ev}

theorem Agrees.init (pid : Nat) : D.Agrees ([] : List (Event R K T β)) pid .unused := by
  simp [Agrees]

-- A step of one process does not concern the others.
theorem Agrees.frame {q : Nat} {s : Slot R β} (h : D.Agrees τ q s)
    (hl : D.locals (τ ++ [ev]) q = D.locals τ q) (hs : ∀ k, ev ≠ .spawn q k) :
    D.Agrees (τ ++ [ev]) q s := by
  cases s
  case unused =>
    refine ⟨hl.trans h.1, fun k hk => ?_⟩
    rcases List.mem_append.mp hk with hk | hk
    · exact h.2 k hk
    · exact hs k (List.mem_singleton.mp hk).symm
  case running p =>
    have ⟨φ, hφ, hp⟩ := h
    exact ⟨φ, hl.trans hφ, hp⟩
  case ended => exact hl.trans h

theorem agrees_step (h : ∀ pid, D.Agrees τ pid (c.procs pid)) (hs : S.Step c ev c') (pid : Nat) :
    D.Agrees (τ ++ [ev]) pid (c'.procs pid) := by
  cases hs
  case spawn q k hu =>
    by_cases hq : pid = q
    case pos =>
      subst hq
      simpa [Agrees, observed] using D.follows k
    case neg =>
      simp only [Function.update_of_ne hq]
      exact (h pid).frame (by simp [observed, hq]) (by simp [Ne.symm hq])
  case act q e k r w x hr hx =>
    by_cases hq : pid = q
    case pos =>
      subst hq
      have ⟨φ, hφ, hp⟩ : D.Agrees τ pid (.running (.op e k)) := hr ▸ h pid
      simpa [Agrees, observed, hφ] using hp.2 r (D.answers hx)
    case neg =>
      simp only [Function.update_of_ne hq]
      exact (h pid).frame (by simp [observed, hq]) (by simp)
  case tick t => exact (h pid).frame (by simp [observed]) (by simp)
  all_goals
    case _ q _ _ =>
      by_cases hq : pid = q
      case pos =>
        subst hq
        simp [Agrees, observed]
      case neg =>
        simp only [Function.update_of_ne hq]
        exact (h pid).frame (by simp [observed, hq]) (by simp)

theorem agrees_run (h : S.Run G c₀ τ c) (h₀ : ∀ pid, c₀.procs pid = .unused) (pid : Nat) :
    D.Agrees τ pid (c.procs pid) := by
  induction h generalizing pid
  case nil            => exact h₀ pid ▸ .init pid
  case step hs _ ih   => exact agrees_step ih hs pid

-- The refinement of the abstract system by the programs: every run is a trace of the protocol.
theorem trace_of_run (D : Discipline S Φ) (h : S.Run G c₀ τ c)
    (h₀ : ∀ pid, c₀.procs pid = .unused) : D.Trace G c₀.world τ c.world := by
  induction h
  case nil => exact .nil
  case step τ c ev c' hr hs hg ih =>
    have ha := agrees_run (D := D) hr h₀
    cases hs
    case spawn pid k hu =>
      have ⟨hl, hf⟩ : D.Agrees τ pid .unused := hu ▸ ha pid
      exact .spawn ih hf hl hg
    case act pid e k r w x hp hx =>
      have ⟨φ, hφ, hf⟩ : D.Agrees τ pid (.running (.op e k)) := hp ▸ ha pid
      exact .act x ih hφ hf.1 hx hg
    case done pid b hp =>
      have ⟨φ, hφ, hf⟩ : D.Agrees τ pid (.running (.ret b)) := hp ▸ ha pid
      exact .done ih hφ hf hg
    case crash pid p hp =>
      have ⟨φ, hφ, _⟩ : D.Agrees τ pid (.running p) := hp ▸ ha pid
      exact .crash ih hφ hg
    case tick t => exact .tick t ih hg

-- An effect of a run, as the protocol sees it.
theorem act_of_step (D : Discipline S Φ) (h : S.Run G c₀ τ c) (h₀ : ∀ pid, c₀.procs pid = .unused)
    {pid : Nat} {e : E} {r : R e} (hs : S.Step c (.act pid e r) c') :
    ∃ φ x, D.locals τ pid = some φ ∧ D.Allows φ e ∧ S.exec x pid c.world e = some (r, c'.world) := by
  cases hs
  case act w x k hp hx =>
    have ⟨φ, hφ, hf⟩ : D.Agrees τ pid (.running (.op e k)) := hp ▸ agrees_run (D := D) h h₀ pid
    exact ⟨φ, x, hφ, hf.1, hx⟩

-- What a discipline allows can be assumed of the steps of a run.
def Allowed (D : Discipline S Φ) : Guard R W K T β := fun τ _ ev =>
  ∀ {pid e r}, ev = .act pid e r → ∃ φ, D.locals τ pid = some φ ∧ D.Allows φ e

theorem run_allowed (D : Discipline S Φ) (h : S.Run G c₀ τ c) (h₀ : ∀ pid, c₀.procs pid = .unused) :
    S.Run (fun τ w ev => G τ w ev ∧ D.Allowed τ w ev) c₀ τ c := by
  induction h
  case nil => exact .nil
  case step hr hs hg ih =>
    refine .step ih hs ⟨hg, ?_⟩
    rintro pid e r rfl
    obtain ⟨φ, _, hφ, ha, _⟩ := act_of_step D hr h₀ hs
    exact ⟨φ, hφ, ha⟩

-- What the protocol knows of every process that has begun.
def memory (D : Discipline S Φ) (τ : List (Event R K T β)) : Nat → Option Φ :=
  remember D.init D.next τ

@[simp]
theorem memory_concat (τ : List (Event R K T β)) (ev) :
    D.memory (τ ++ [ev]) = remembered D.init D.next (D.memory τ) ev :=
  remember_concat τ ev

-- The events after which `I` holds of a process.
inductive Sets (D : Discipline S Φ) (I : Φ → Prop) (pid : Nat) : Event R K T β → Prop
  | spawn {k} : I (D.init k) → Sets D I pid (.spawn pid k)
  | act {e r} : (∀ {φ}, D.Allows φ e → I (D.next φ e r)) → Sets D I pid (.act pid e r)

namespace Trace

variable {w₀ w : W} {pid : Nat} {φ : Φ} {b : β}

theorem memory_of_locals (hl : D.locals τ pid = some φ) : D.memory τ pid = some φ :=
  remember_of_observe hl

theorem memory_of_fresh (hn : ∀ k, .spawn pid k ∉ τ) : D.memory τ pid = none := by
  by_contra hm
  obtain ⟨φ, hφ⟩ := Option.ne_none_iff_exists'.mp hm
  obtain ⟨k, hk⟩ := spawn_of_remember hφ
  exact hn k hk

-- The invariant rule for what is known of all processes that have begun.
theorem memory_inv {I : (Nat → Option Φ) → W → Prop} (h : D.Trace G w₀ τ w)
    (hg : ∀ {τ w pid}, ¬ G τ w (.crash pid)) (h₀ : I (fun _ => none) w₀)
    (spawn : ∀ {M w pid k}, I M w → M pid = none → I (Function.update M pid (some (D.init k))) w)
    (act : ∀ {M w pid φ e x r w'}, I M w → M pid = some φ → D.Allows φ e →
      S.exec x pid w e = some (r, w') → I (Function.update M pid (some (D.next φ e r))) w')
    (tick : ∀ {M w t}, I M w → I M (S.tick t w)) : I (D.memory τ) w := by
  induction h
  case nil => exact h₀
  case spawn hn _ _ ih =>
    rw [memory_concat]
    exact spawn ih (memory_of_fresh hn)
  case act τ w pid φ e r w' x _ hl ha hx _ ih =>
    have hm := memory_of_locals hl
    have := act ih hm ha hx
    rw [memory_concat, remembered]
    rwa [← Option.map_some (f := (D.next · e r)), ← hm] at this
  case done ih =>
    rw [memory_concat]
    exact ih
  case crash hc _ => exact absurd hc hg
  case tick t _ _ ih =>
    rw [memory_concat]
    exact tick ih

-- Nothing is heard of a process once it has returned.
theorem of_done (h : D.Trace G w₀ τ w) (hd : .done pid b ∈ τ) :
    D.locals τ pid = none ∧ ∃ φ, D.memory τ pid = some φ ∧ D.Post φ b := by
  induction h
  case nil => cases hd
  case spawn τ w q k _ hn _ _ ih =>
    obtain ⟨hl, φ, hφ, hp⟩ := ih (by simpa using hd)
    have hq : pid ≠ q := by
      rintro rfl
      obtain ⟨k', hk⟩ := spawn_of_remember hφ
      exact hn k' hk
    refine ⟨by simp [observed, hq, hl], φ, ?_, hp⟩
    simpa [remembered, hq] using hφ
  case act τ w q φ' e r w' x _ hq' _ _ _ ih =>
    obtain ⟨hl, φ, hφ, hp⟩ := ih (by simpa using hd)
    have hq : pid ≠ q := by
      rintro rfl
      simp [hl] at hq'
    refine ⟨by simp [observed, hq, hl], φ, ?_, hp⟩
    simpa [remembered, hq] using hφ
  case done τ w q φ b' _ hq hp _ ih =>
    rw [memory_concat]
    rcases List.mem_append.mp hd with hd | hd
    · obtain ⟨hl, hφ⟩ := ih hd
      exact ⟨by by_cases h : pid = q <;> simp [observed, h, hl], hφ⟩
    · cases List.mem_singleton.mp hd
      exact ⟨by simp [observed], φ, memory_of_locals hq, hp⟩
  case crash τ w q φ _ hq _ ih =>
    obtain ⟨hl, hφ⟩ := ih (by simpa using hd)
    rw [memory_concat]
    exact ⟨by by_cases h : pid = q <;> simp [observed, h, hl], hφ⟩
  case tick τ w t _ _ ih =>
    obtain ⟨hl, hφ⟩ := ih (by simpa using hd)
    rw [memory_concat]
    exact ⟨by simpa [observed] using hl, hφ⟩

-- What holds of a process after one event, and is kept by its effects, holds of it from then on.
theorem of_sets {I : Φ → Prop} (h : D.Trace G w₀ τ w) (hev : ev ∈ τ) (hs : D.Sets I pid ev)
    (hn : ∀ {φ e r}, D.Allows φ e → I φ → I (D.next φ e r)) :
    ∃ φ, D.memory τ pid = some φ ∧ I φ := by
  induction h
  case nil => cases hev
  case spawn τ w q k _ hf _ _ ih =>
    rcases List.mem_append.mp hev with hev | hev
    · obtain ⟨φ, hφ, hi⟩ := ih hev
      have hq : pid ≠ q := by
        rintro rfl
        rw [memory_of_fresh hf] at hφ
        cases hφ
      exact ⟨φ, by simpa [remembered, hq] using hφ, hi⟩
    · cases List.mem_singleton.mp hev
      cases hs
      case spawn hi => exact ⟨_, by simp [remembered], hi⟩
  case act τ w q ψ e r w' x _ hl ha _ _ ih =>
    have hm := memory_of_locals hl
    rcases List.mem_append.mp hev with hev | hev
    · obtain ⟨φ, hφ, hi⟩ := ih hev
      by_cases hq : pid = q
      case pos =>
        subst hq
        cases hφ.symm.trans hm
        exact ⟨D.next ψ e r, by simp [remembered, hm], hn ha hi⟩
      case neg => exact ⟨φ, by simpa [remembered, hq] using hφ, hi⟩
    · cases List.mem_singleton.mp hev
      cases hs
      case act hi => exact ⟨_, by simp [remembered, hm], hi ha⟩
  all_goals
    case _ ih =>
      rw [memory_concat]
      rcases List.mem_append.mp hev with hev | hev
      · exact ih hev
      · cases List.mem_singleton.mp hev
        cases hs

end Trace
end Discipline
end System
