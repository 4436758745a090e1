import AwgRest.Discipline.Commands

open Domain Store

-- How the local states of the processes are tied to the world, and what a step does to the database
-- in terms of them.
namespace ControlPlane

abbrev Guard := System.Guard (fun e : Eff => Except Err e.Answer) World Kind Nat (Except Err Result)

abbrev Trace (C : ControlPlane) (G : Guard) (w₀ : World) := C.discipline.Trace G w₀

abbrev locals (C : ControlPlane) (τ : List Ev) : Nat → Option Local :=
  C.discipline.locals τ

variable {C : ControlPlane} {G : Guard} {w₀ w w' : World} {τ : List Ev} {L : Nat → Option Local}
  {pid q : Nat} {φ ψ : Local} {t : TxLocal} {e : Eff} {r : Except Err e.Answer}

-- No transaction is open.
structure Quiet (w : World) : Prop where
  txs   : ∀ pid, w.txs pid = none
  locks : w.locks = []

namespace Local

-- The effects that neither read nor write the database, or that failed.
inductive Aside : (e : Eff) → Except Err e.Answer → Prop
  | failed {e x} : Aside e (.error x)
  | begin : Aside .begin (.ok ())
  | rollback : Aside .rollback (.ok ())
  | sync {iface conf} : Aside (.syncConf iface conf) (.ok ())
  | up {iface path} : Aside (.interfaceUp iface path) (.ok ())
  | silent {e a} : e.Silent → Aside e (.ok a)

theorem writes_next_stmt {s : Stmt} {a : s.Answer} (h : φ.tx = some t) :
    (φ.next (.stmt s) (.ok a)).writes = φ.writes ++ s.writes a := by
  cases s <;> simp [next, wrote, locked, writes, h, Stmt.writes]

theorem tx_next : (φ.next e r).tx.map TxLocal.writes = track (φ.tx.map TxLocal.writes) e r := by
  cases e
  case query q => cases r <;> cases q <;> rfl
  case auto s  => cases r <;> cases s <;> rfl
  case stmt s  =>
    cases r
    case error x => cases s <;> rfl
    case ok a    => cases s <;> cases h : φ.tx <;> simp [next, wrote, locked, track, Stmt.writes, h]
  all_goals cases r <;> rfl

@[simp]
theorem tx_next_query {q : Query} {r} : (φ.next (.query q) r).tx = φ.tx := by
  cases r <;> cases q <;> rfl

@[simp]
theorem tx_next_auto {s : Auto} {r} : (φ.next (.auto s) r).tx = φ.tx := by
  cases r <;> cases s <;> rfl

theorem tx_next_aside (h : Aside e r) :
    (φ.next e r).tx = φ.tx ∨ (φ.next e r).tx = none ∨ (φ.next e r).tx = some {} := by
  cases h
  case failed x =>
    cases e <;> first
      | exact .inl rfl
      | exact .inr (.inl rfl)
      | case query q => exact .inl tx_next_query
      | case auto s => exact .inl tx_next_auto
      | case stmt s => cases s <;> exact .inl rfl
  case begin     => exact .inr (.inr rfl)
  case rollback  => exact .inr (.inl rfl)
  case silent hs => cases e <;> first | exact .inl rfl | cases hs
  all_goals exact .inl rfl

theorem writes_next_aside (h : Aside e r) :
    (φ.next e r).writes = φ.writes ∨ (φ.next e r).writes = [] := by
  rcases tx_next_aside (φ := φ) h with ht | ht | ht
  · exact .inl (by simp [writes, ht])
  · exact .inr (by simp [writes, ht])
  · exact .inr (by simp [writes, ht])

end Local

-- Each process knows the writes of its transaction.
structure Linked (L : Nat → Option Local) (w : World) : Prop where
  txs     : ∀ pid, (w.txs pid).map Tx.writes = ((L pid).bind Local.tx).map TxLocal.writes
  orderly : w.Orderly

namespace Linked

theorem of_quiet (h : Quiet w) : Linked (fun _ => none) w where
  txs pid := by simp [h.txs pid]
  orderly :=
    { exclusive := by simp [h.locks]
      held      := by
        intro pid x l hx
        simp [Transactions.pending, h.txs pid] at hx }

theorem pending (h : Linked L w) (hl : L pid = some φ) : w.pending pid = φ.writes := by
  have := h.txs pid
  cases hw : w.txs pid <;> cases ht : φ.tx <;> simp_all [Transactions.pending, Local.writes]

theorem view (h : Linked L w) (hl : L pid = some φ) : w.view pid = φ.view w.db := by
  rw [Transactions.view, h.pending hl, Local.view]

-- A step that leaves the transactions of the other processes alone.
theorem update {o : Option Local} {s' : Transactions DB Write Lock} (h : Linked L w)
    (ho : s'.Orderly) (hs : ∀ q, q ≠ pid → s'.txs q = w.txs q)
    (hp : (s'.txs pid).map Tx.writes = (o.bind Local.tx).map TxLocal.writes) :
    Linked (Function.update L pid o) { w with toTransactions := s' } where
  orderly := ho
  txs q := by
    by_cases hq : q = pid
    case pos => subst hq; simpa using hp
    case neg => simpa [hq, hs q hq] using h.txs q

protected theorem abort (h : Linked L w) {o : Option Local} (ho : o.bind Local.tx = none) :
    Linked (Function.update L pid o) (w.abort pid) :=
  have hs : ∀ q, q ≠ pid → (w.toTransactions.abort pid).txs q = w.txs q :=
    fun q hq => by simp [Transactions.abort, hq]
  h.update h.orderly.abort hs (by simp [Transactions.abort, ho])

protected theorem act (h : Linked L w) (hl : L pid = some φ) (hx : World.Acts pid w e r w') :
    Linked (Function.update L pid (some (φ.next e r))) w' := by
  have ht := Tracks.act ⟨h.txs, h.orderly⟩ hx
  refine ⟨fun q => ?_, ht.orderly⟩
  rw [ht.txs q]
  by_cases hq : q = pid
  case pos =>
    subst hq
    simp [hl, Local.tx_next]
  case neg => simp [hq]

end Linked

-- The pending writes of two processes have no lock in common.
def Exclusive (L : Nat → Option Local) : Prop :=
  ∀ {pid q φ ψ x y l}, L pid = some φ → L q = some ψ → x ∈ φ.writes → y ∈ ψ.writes →
    l ∈ Write.locks x → l ∈ Write.locks y → pid = q

theorem Linked.exclusive (h : Linked L w) : Exclusive L :=
  fun hφ hψ hx hy => h.orderly.disjoint (h.pending hφ ▸ hx) (h.pending hψ ▸ hy)

-- What an effect of a process with the local state `φ` does to the database.
inductive Change (C : ControlPlane) (φ : Local) (w : World) :
    (e : Eff) → Except Err e.Answer → DB → Prop
  | query (qu : Query) (now : Time) :
    AllowsQuery φ qu →
    Change C φ w (.query qu) (.ok (qu.eval (φ.view w.db) now)) w.db
  | stmt {t : TxLocal} {s : Stmt} {a : s.Answer} {now : Time} {id : UUID} :
    φ.tx = some t → AllowsStmt φ t s → s.eval (φ.view w.db) now id = some (.ok a) →
    Change C φ w (.stmt s) (.ok a) w.db
  | commit {t : TxLocal} :
    φ.tx = some t → Effect C φ φ.writes → Change C φ w .commit (.ok ()) (φ.view w.db)
  | auto (s : Auto) (x : Auto.Pick) :
    φ.tx = none → φ.kind.IsWorker → AllowsAuto φ s →
    Change C φ w (.auto s) (.ok (s.eval w.db w.now x).1) (s.eval w.db w.now x).2
  | aside {e : Eff} {r : Except Err e.Answer} : Local.Aside e r → Change C φ w e r w.db

theorem change_of_acts (h : Linked L w) (hl : L pid = some φ) (ha : Allows C φ e)
    (hx : World.Acts pid w e r w') : Change C φ w e r w'.db := by
  cases hx
  case failed      => exact .aside .failed
  case query q     => exact h.view hl ▸ .query q _ ha
  case begin       => exact .aside .begin
  case stmt he _   =>
    have ⟨t, ht, hs⟩ := ha
    exact .stmt ht hs (h.view hl ▸ he)
  case commit      =>
    have ⟨t, ht, hc⟩ := ha
    have hc : Effect C φ φ.writes := Local.writes_of_some ht ▸ hc
    change Change C φ w .commit (.ok ()) (w.view pid)
    exact h.view hl ▸ .commit ht hc
  case lost        => exact .aside .failed
  case rollback    => exact .aside .rollback
  case auto s x => exact .auto s x ha.1 ha.2.1 ha.2.2
  case sync        => exact .aside .sync
  case up          => exact .aside .up
  case create      => exact .aside .up
  case silent hs   => exact .aside (.silent hs)

section Locals

variable {k : Kind} {b : Except Err Result} {d : Nat}

@[simp]
theorem locals_spawn :
    C.locals (τ ++ [.spawn pid k]) = Function.update (C.locals τ) pid (some { kind := k }) := by
  simp [locals, System.observed, discipline]

theorem locals_act (h : C.locals τ pid = some φ) :
    C.locals (τ ++ [.act pid e r]) = Function.update (C.locals τ) pid (some (φ.next e r)) := by
  simp only [locals, System.Discipline.locals_concat, System.observed] at *
  rw [h]
  rfl

@[simp]
theorem locals_done : C.locals (τ ++ [.done pid b]) = Function.update (C.locals τ) pid none := by
  simp [locals, System.observed]

@[simp]
theorem locals_crash : C.locals (τ ++ [.crash pid]) = Function.update (C.locals τ) pid none := by
  simp [locals, System.observed]

@[simp]
theorem locals_tick : C.locals (τ ++ [.tick d]) = C.locals τ := by
  simp [locals, System.observed]

end Locals

theorem linked_of_trace (h : C.Trace G w₀ τ w) (hq : Quiet w₀) : Linked (C.locals τ) w := by
  induction h
  case nil => exact .of_quiet hq
  case spawn τ w pid k h hf hl _ ih =>
    rw [locals_spawn]
    exact ih.update ih.orderly (fun _ _ => rfl) (by simpa [hl] using ih.txs pid)
  case act τ w pid φ e r w' x h hl _ hx _ ih =>
    rw [locals_act hl]
    exact ih.act hl (World.acts_of_exec hx)
  case done τ w pid φ b h hl hp _ ih =>
    have htx : (w.txs pid).map Tx.writes = none := by simpa [hl, hp.1] using ih.txs pid
    rw [locals_done]
    exact ih.update ih.orderly (fun _ _ => rfl) (by simpa using htx)
  case crash τ w pid φ h hl _ ih =>
    rw [locals_crash]
    exact ih.abort rfl
  case tick τ w d h _ ih =>
    rw [locals_tick]
    exact ⟨ih.txs, ⟨ih.orderly.exclusive, ih.orderly.held⟩⟩

-- An event that is not an effect changes neither the database nor the runtime.
structure Idles (ev : Ev) (w w' : World) : Prop where
  event   : ∀ pid e r, ev ≠ .act pid e r
  db      : w'.db = w.db
  runtime : w'.runtime = w.runtime
  now     : w.now ≤ w'.now

-- An effect of a process in a run.
structure ActStep (C : ControlPlane) (G : Guard) (w₀ : World) (τ : List Ev) (w : World) (pid : Nat)
    (φ : Local) (e : Eff) (r : Except Err e.Answer) (w' : World) : Prop where
  trace   : C.Trace G w₀ τ w
  running : C.locals τ pid = some φ
  linked  : Linked (C.locals τ) w
  allowed : Allows C φ e
  acts    : World.Acts pid w e r w'
  guard   : G τ w (.act pid e r)

theorem ActStep.change (h : ActStep C G w₀ τ w pid φ e r w') : Change C φ w e r w'.db :=
  change_of_acts h.linked h.running h.allowed h.acts

-- Two effects of different processes commute as far as their locks go.
theorem ActStep.disjoint (h : ActStep C G w₀ τ w pid φ e r w') (hq : q ≠ pid)
    (hψ : C.locals τ q = some ψ) {x y : Write} {l : Lock} (hx : x ∈ φ.writes) (hy : y ∈ ψ.writes)
    (hl : l ∈ Write.locks x) : l ∉ Write.locks y :=
  fun hl' => hq (h.linked.exclusive h.running hψ hx hy hl hl').symm

-- An event of a run that is not an effect: a process begins or ends, or time passes.
structure IdleStep (C : ControlPlane) (G : Guard) (w₀ : World) (τ : List Ev) (w : World) (ev : Ev)
    (w' : World) : Prop extends Idles ev w w' where
  trace   : C.Trace G w₀ τ w
  guard   : G τ w ev
  running : ∀ q ψ, C.locals (τ ++ [ev]) q = some ψ →
    C.locals τ q = some ψ ∨ ∃ k, ev = .spawn q k ∧ ψ = { kind := k } ∧ w' = w
  ended   : ∀ q ψ, C.locals τ q = some ψ →
    C.locals (τ ++ [ev]) q = some ψ ∨ (∃ b, ev = .done q b ∧ Post ψ b) ∨ ev = .crash q

theorem trace_induction {I : List Ev → World → Prop} (hq : Quiet w₀) (h : C.Trace G w₀ τ w)
    (init : I [] w₀)
    (idle : ∀ {τ w ev w'}, IdleStep C G w₀ τ w ev w' → I τ w → I (τ ++ [ev]) w')
    (act : ∀ {τ w pid φ e r w'}, ActStep C G w₀ τ w pid φ e r w' → I τ w →
      I (τ ++ [.act pid e r]) w') : I τ w := by
  -- What is left of the processes when `pid` has ended.
  have stop {τ : List Ev} {ev : Ev} {pid : Nat} {φ : Local} (hl : C.locals τ pid = some φ)
      (hu : C.locals (τ ++ [ev]) = Function.update (C.locals τ) pid none) :
      (∀ q ψ, C.locals (τ ++ [ev]) q = some ψ → C.locals τ q = some ψ) ∧
      ∀ q ψ, C.locals τ q = some ψ → C.locals (τ ++ [ev]) q = some ψ ∨ q = pid ∧ ψ = φ := by
    rw [hu]
    refine ⟨fun q ψ hψ => ?_, fun q ψ hψ => ?_⟩ <;> by_cases hp : q = pid
    · simp [hp] at hψ
    · simpa [hp] using hψ
    · subst hp
      exact .inr ⟨rfl, Option.some.inj (hψ.symm.trans hl)⟩
    · exact .inl (by simpa [hp] using hψ)
  induction h
  case nil => exact init
  case spawn τ w pid k h hf hl hg ih =>
    refine idle ⟨⟨by simp, rfl, rfl, le_refl _⟩, h, hg, fun q ψ hψ => ?_, fun q ψ hψ => .inl ?_⟩ ih
    · rw [locals_spawn] at hψ
      by_cases hp : q = pid
      · subst hp
        rw [Function.update_self] at hψ
        exact .inr ⟨k, rfl, (Option.some.inj hψ).symm, rfl⟩
      · exact .inl (by simpa [hp] using hψ)
    · have hp : q ≠ pid := by
        rintro rfl
        cases hψ.symm.trans hl
      rwa [locals_spawn, Function.update_of_ne hp]
  case act τ w pid φ e r w' x h hl ha hx hg ih =>
    exact act ⟨h, hl, linked_of_trace h hq, ha, World.acts_of_exec hx, hg⟩ ih
  case done τ w pid φ b h hl hp hg ih =>
    obtain ⟨hr, he⟩ := stop hl (locals_done (b := b))
    refine idle ⟨⟨by simp, rfl, rfl, le_refl _⟩, h, hg, fun q ψ hψ => .inl (hr q ψ hψ),
      fun q ψ hψ => (he q ψ hψ).imp_right ?_⟩ ih
    rintro ⟨rfl, rfl⟩
    exact .inl ⟨b, rfl, hp⟩
  case crash τ w pid φ h hl hg ih =>
    obtain ⟨hr, he⟩ := stop hl locals_crash
    have hi : Idles (.crash pid) w (w.abort pid) := ⟨by simp, rfl, rfl, le_refl _⟩
    refine idle ⟨hi, h, hg, fun q ψ hψ => .inl (hr q ψ hψ), fun q ψ hψ => (he q ψ hψ).imp_right ?_⟩ ih
    rintro ⟨rfl, rfl⟩
    exact .inr rfl
  case tick τ w d h hg ih =>
    have hi : Idles (.tick d) w (w.tick d) := ⟨by simp, rfl, rfl, by simp [World.tick]⟩
    exact idle ⟨hi, h, hg, fun q ψ hψ => .inl (locals_tick (C := C) ▸ hψ),
      fun q ψ hψ => .inl ((locals_tick (C := C)).symm ▸ hψ)⟩ ih

-- The rule for invariants of a shared part `Q` and a part `P` for each process. What is asked for are
-- the processes that have just begun, and what an effect does to the shared part, to its own process
-- and to the others.
theorem trace_invariant {Q : List Ev → World → Prop} {P : List Ev → World → Nat → Local → Prop}
    (hq : Quiet w₀) (h : C.Trace G w₀ τ w) (init : Q [] w₀)
    (idle : ∀ {τ w ev w'}, Idles ev w w' →
      (Q τ w → Q (τ ++ [ev]) w') ∧ ∀ q ψ, P τ w q ψ → P (τ ++ [ev]) w' q ψ)
    (new : ∀ {τ w pid k}, Q τ w → P (τ ++ [.spawn pid k]) w pid { kind := k })
    (act : ∀ {τ w pid φ e r w'}, ActStep C G w₀ τ w pid φ e r w' →
      Q τ w → (∀ q ψ, C.locals τ q = some ψ → P τ w q ψ) →
      Q (τ ++ [.act pid e r]) w' ∧ P (τ ++ [.act pid e r]) w' pid (φ.next e r) ∧
      ∀ q ψ, q ≠ pid → C.locals τ q = some ψ → P (τ ++ [.act pid e r]) w' q ψ) :
    Q τ w ∧ ∀ q ψ, C.locals τ q = some ψ → P τ w q ψ := by
  refine trace_induction (I := fun τ w => Q τ w ∧ ∀ q ψ, C.locals τ q = some ψ → P τ w q ψ) hq h
    ⟨init, fun q ψ hψ => by simp [locals] at hψ⟩ (fun {τ w ev w'} hs ih => ?_)
    (fun {τ w pid φ e r w'} hs ih => ?_)
  · refine ⟨(idle hs.toIdles).1 ih.1, fun q ψ hψ => ?_⟩
    rcases hs.running q ψ hψ with hψ | ⟨k, rfl, rfl, rfl⟩
    · exact (idle hs.toIdles).2 q ψ (ih.2 q ψ hψ)
    · exact new ih.1
  · obtain ⟨h₁, h₂, h₃⟩ := act hs ih.1 ih.2
    refine ⟨h₁, fun q ψ hψ => ?_⟩
    rw [locals_act hs.running] at hψ
    by_cases hp : q = pid
    case pos =>
      subst hp
      obtain rfl : φ.next e r = ψ := by simpa using hψ
      exact h₂
    case neg => exact h₃ q ψ hp (by simpa [hp] using hψ)

-- Runs of the programs.

def unguarded : Guard := fun _ _ _ => True

abbrev Runs (C : ControlPlane) (G : Guard) (w₀ : World) (τ : List Ev) (c : Conf) : Prop :=
  C.system.Run G (boot w₀) τ c

-- A run that goes on after the events `τ`.
abbrev Continues (C : ControlPlane) (G : Guard) (τ : List Ev) (c : Conf) (τ' : List Ev) (c' : Conf) :
    Prop :=
  C.system.Run (fun τ' => G (τ ++ τ')) c τ' c'

theorem Runs.trace {c : Conf} (h : C.Runs G w₀ τ c) : C.Trace G w₀ τ c.world :=
  System.Discipline.trace_of_run C.discipline h fun _ => rfl

theorem Runs.act {c c' : Conf} (h : C.Runs G w₀ τ c) (hq : Quiet w₀)
    (hs : C.system.Step c (.act pid e r) c') (hg : G τ c.world (.act pid e r)) :
    ∃ φ, ActStep C G w₀ τ c.world pid φ e r c'.world := by
  have ⟨φ, x, hφ, ha, hx⟩ := System.Discipline.act_of_step C.discipline h (fun _ => rfl) hs
  exact ⟨φ, h.trace, hφ, linked_of_trace h.trace hq, ha, World.acts_of_exec hx, hg⟩

-- The rule for what holds between an earlier and a later state of a run.
theorem run_monotone {R : World → World → Prop} {τ' : List Ev} {c c' : Conf} (hq : Quiet w₀)
    (refl : ∀ w, R w w) (trans : ∀ {w₁ w₂ w₃}, R w₁ w₂ → R w₂ w₃ → R w₁ w₃)
    (idle : ∀ {ev w w'}, Idles ev w w' → R w w')
    (act : ∀ {τ w pid φ e r w'}, ActStep C G w₀ τ w pid φ e r w' → R w w')
    (h₁ : C.Runs G w₀ τ c) (h₂ : C.Continues G τ c τ' c') : R c.world c'.world := by
  induction h₂
  case nil => exact refl _
  case step τ' c₁ ev c₂ h hs hg ih =>
    refine trans ih ?_
    have hr : C.Runs G w₀ (τ ++ τ') c₁ := System.Run.trans h₁ h
    cases ev
    case act pid e r =>
      have ⟨φ, ha⟩ := hr.act hq hs hg
      exact act ha
    case spawn pid k => cases hs; exact refl _
    case done pid b  => cases hs; exact refl _
    case crash pid   =>
      cases hs
      have hi : Idles (.crash pid) c₁.world (c₁.world.abort pid) := ⟨by simp, rfl, rfl, le_refl _⟩
      exact idle hi
    case tick d      =>
      cases hs
      have hi : Idles (.tick d) c₁.world (c₁.world.tick d) :=
        ⟨by simp, rfl, rfl, by simp [World.tick]⟩
      exact idle hi

end ControlPlane
