import AwgRest.Lib.Traces

namespace Prog

variable {E F : Type} {R : E → Type} {A : F → Type} {α β : Type}

-- The same program, where other effects can be performed as well.
def lift (A : F → Type) : Prog R α → Prog (Sum.elim R A) α
  | ret a  => ret a
  | op e k => op (.inl e) fun r => (k r).lift A

theorem lift_bind (p : Prog R α) (f : α → Prog R β) :
    (p >>= f).lift A = p.lift A >>= fun a => (f a).lift A := by
  induction p
  case ret a     => rfl
  case op e k ih => exact congrArg (fun k => op (Sum.inl e : E ⊕ F) k) (funext ih)

theorem bind_assoc {γ : Type} (p : Prog R α) (f : α → Prog R β) (g : β → Prog R γ) :
    (p >>= f >>= g) = p >>= fun a => f a >>= g := by
  induction p
  case ret a     => rfl
  case op e k ih => exact congrArg (op e) (funext ih)

-- A program and what is made of its result, with the lifted program taken apart.

theorem lift_eq_ret {p : Prog R α} {f : α → β} {b : β}
    (h : (p.lift A >>= fun a => ret (f a)) = ret b) :
    ∃ a, p = ret a ∧ f a = b := by
  cases p
  case ret a  => exact ⟨a, rfl, ret.inj h⟩
  case op e k => cases h

theorem lift_eq_op {p : Prog R α} {f : α → β} {e : E ⊕ F} {k : Sum.elim R A e → Prog (Sum.elim R A) β}
    (h : (p.lift A >>= fun a => ret (f a)) = op e k) :
    ∃ e' k', p = op e' k' ∧ op e k = op (.inl e') fun r => (k' r).lift A >>= fun a => ret (f a) := by
  cases p
  case ret a    => cases h
  case op e' k' => exact ⟨e', k', rfl, h.symm⟩

end Prog

namespace System

variable {E F : Type} {R : E → Type} {A : F → Type} {W V C D K K' T β β' : Type}

-- What stands in front of a system: effects of its own, which see the world of the system but do not
-- change it, and programs that can perform these and the effects of the system.
structure Front (R : E → Type) (A : F → Type) (W V D K' β' : Type) where
  exec : D → W → V → (f : F) → Option (A f × V)
  prog : K' → Prog (Sum.elim R A) β'

def Front.over (P : Front R A W V D K' β') (S : System R W C K T β) :
    System (Sum.elim R A) (W × V) (C × D) K' T β' where
  exec x pid w
    | .inl e => (S.exec x.1 pid w.1 e).map fun (r, w') => (r, w', w.2)
    | .inr f => (P.exec x.2 w.1 w.2 f).map fun (r, v) => (r, w.1, v)
  prog        := P.prog
  abort pid w := (S.abort pid w.1, w.2)
  tick t w    := (S.tick t w.1, w.2)

-- Effects that only look at the world.
def Inert (S : System R W C K T β) (e : E) : Prop :=
  ∀ ⦃x pid w r w'⦄, S.exec x pid w e = some (r, w') → w' = w

-- What a program in front of the system may do: which programs of the system it lets run and what
-- it makes of their results, and what it answers by itself. This can depend on the answers to its
-- effects before.
structure Contract (R : E → Type) (K β β' : Type) where
  enters  : List (Sigma R) → K → (β → β') → Prop
  answers : List (Sigma R) → β' → Prop

-- A program that answers by itself, or that at some point lets a program of the system run and makes
-- the answer of its result. Until then it leaves the world of the system alone.
inductive Serves (S : System R W C K T β) (Q : Contract (Sum.elim R A) K β β') :
    List (Sigma (Sum.elim R A)) → Prog (Sum.elim R A) β' → Prop
  | ret {h b} : Q.answers h b → Serves S Q h (.ret b)
  | front {h f k} : (∀ r, Serves S Q (h ++ [⟨.inr f, r⟩]) (k r)) → Serves S Q h (.op (.inr f) k)
  | look {h e k} : S.Inert e → (∀ r, Serves S Q (h ++ [⟨.inl e, r⟩]) (k r)) →
    Serves S Q h (.op (.inl e) k)
  | enter {h p k f} : Q.enters h k f → p = ((S.prog k).lift A >>= fun b => .ret (f b)) →
    Serves S Q h p

-- Programs of the system that only look at its world.
def looking (S : System R W C K T β) (A : F → Type) : Protocol R (List (Sigma (Sum.elim R A))) where
  Allows _ e  := S.Inert e
  Answers _ _ := True
  next h e r  := h ++ [⟨.inl e, r⟩]

-- What has been heard before is not forgotten.
theorem follows_looking {S : System R W C K T β} {α : Type} {p : Prog R α}
    {Q : List (Sigma (Sum.elim R A)) → α → Prop} {h : List (Sigma (Sum.elim R A))}
    (hp : p.Follows (S.looking A) Q h) :
    p.Follows (S.looking A) (fun h' a => h <+: h' ∧ Q h' a) h := by
  induction p generalizing h
  case ret a     => exact ⟨List.prefix_rfl, hp⟩
  case op e k ih =>
    refine ⟨hp.1, fun r hr => (ih r (hp.2 r hr)).mono fun h' a hq => ?_⟩
    exact ⟨(List.prefix_append ..).trans hq.1, hq.2⟩

theorem Serves.lift_bind {S : System R W C K T β} {Q : Contract (Sum.elim R A) K β β'} {α : Type}
    {p : Prog R α} {g : α → Prog (Sum.elim R A) β'} {h : List (Sigma (Sum.elim R A))}
    (hp : p.Follows (S.looking A) (fun h a => Serves S Q h (g a)) h) :
    Serves S Q h (p.lift A >>= g) := by
  induction p generalizing h
  case ret a     => exact hp
  case op e k ih => exact .look hp.1 fun r => ih r (hp.2 r trivial)

-- `Idle pid w` says that the process has left nothing in the world that would be lost with it.
structure Idleness (S : System R W C K T β) (Idle : Nat → W → Prop) : Prop where
  self  : ∀ {pid w}, Idle pid w → S.abort pid w = w
  exec  : ∀ {x pid q w e r w'}, q ≠ pid → S.exec x q w e = some (r, w') → Idle pid w → Idle pid w'
  abort : ∀ {pid q w}, q ≠ pid → Idle pid w → Idle pid (S.abort q w)
  tick  : ∀ {pid t w}, Idle pid w → Idle pid (S.tick t w)

namespace Front

variable {P : Front R A W V D K' β'} {S : System R W C K T β}
  {Q : K' → Contract (Sum.elim R A) K β β'}
  {Idle : Nat → W → Prop} {pid : Nat}

-- How a process in front of the system is mirrored by a process of the system: not at all before it
-- lets a program run, and by that program from then on.
inductive Mirror (A : F → Type) (S : System R W C K T β) (Q : K' → Contract (Sum.elim R A) K β β')
    (τ : List (Event (Sum.elim R A) K' T β')) (τ' : List (Event R K T β)) (pid : Nat) :
    Slot (Sum.elim R A) β' → Slot R β → Prop
  | unused : history pid τ = [] → Mirror A S Q τ τ' pid .unused .unused
  | serving {p k'} :
    .spawn pid k' ∈ τ → Serves S (Q k') (history pid τ) p → Mirror A S Q τ τ' pid (.running p) .unused
  | inside {p q k' h k f} :
    .spawn pid k' ∈ τ → h <+: history pid τ → .spawn pid k ∈ τ' → (Q k').enters h k f →
      p = (q.lift A >>= fun b => .ret (f b)) →
    Mirror A S Q τ τ' pid (.running p) (.running q)
  | served : Mirror A S Q τ τ' pid .ended .unused
  | left : Mirror A S Q τ τ' pid .ended .ended

-- What has happened to a process in front of the system that has answered.
inductive Answered (Q : K' → Contract (Sum.elim R A) K β β') (τ : List (Event (Sum.elim R A) K' T β'))
    (τ' : List (Event R K T β)) (pid : Nat) (b' : β') : Prop
  | itself {k' h} :
    .spawn pid k' ∈ τ → h <+: history pid τ → (∀ k, .spawn pid k ∉ τ') → (Q k').answers h b' →
    Answered Q τ τ' pid b'
  | inside {k' h k f b} :
    .spawn pid k' ∈ τ → h <+: history pid τ → .spawn pid k ∈ τ' → (Q k').enters h k f →
      .done pid b ∈ τ' → f b = b' →
    Answered Q τ τ' pid b'

structure Mirrors (S : System R W C K T β) (Q : K' → Contract (Sum.elim R A) K β β')
    (Idle : Nat → W → Prop) (τ : List (Event (Sum.elim R A) K' T β'))
    (c : Config (Sum.elim R A) (W × V) β') (τ' : List (Event R K T β))
    (c' : Config R W β) : Prop where
  world  : c'.world = c.world.1
  slots  : ∀ pid, Mirror A S Q τ τ' pid (c.procs pid) (c'.procs pid)
  idle   : ∀ {pid}, c'.procs pid = .unused → Idle pid c'.world ∧ ∀ k, .spawn pid k ∉ τ'
  spawn  : ∀ {pid k}, .spawn pid k ∈ τ' → ∃ k' h f, .spawn pid k' ∈ τ ∧ h <+: history pid τ ∧
    (Q k').enters h k f
  done   : ∀ {pid b}, .done pid b ∈ τ → c.procs pid = .ended ∧ Answered Q τ τ' pid b
  acts   : ∀ {pid e r}, .act pid e r ∈ τ' → .act pid (.inl e) r ∈ τ
  moves  : ∀ {pid e r}, .act pid (.inl e) r ∈ τ → ¬ S.Inert e → .act pid e r ∈ τ'

variable {τ τ₁ : List (Event (Sum.elim R A) K' T β')} {c c₁ : Config (Sum.elim R A) (W × V) β'}
  {τ' τ₂ : List (Event R K T β)} {c' c₂ : Config R W β} {s : Slot (Sum.elim R A) β'} {s' : Slot R β}

theorem Mirror.mono (h : Mirror A S Q τ τ' pid s s') (hτ₁ : ∀ ev ∈ τ₁, ev.pid ≠ some pid) :
    Mirror A S Q (τ ++ τ₁) (τ' ++ τ₂) pid s s' := by
  cases h
  case unused hn     => exact .unused ((history_append_of_ne hτ₁).trans hn)
  case serving hk hp => exact .serving (List.mem_append_left _ hk) ((history_append_of_ne hτ₁).symm ▸ hp)
  case inside hk hn hk' hq hp =>
    exact .inside (List.mem_append_left _ hk) (history_grow hn) (List.mem_append_left _ hk') hq hp
  case served        => exact .served
  case left          => exact .left

theorem Answered.mono {b : β'} (h : Answered Q τ τ' pid b) (hn : ∀ k, .spawn pid k ∉ τ₂) :
    Answered Q (τ ++ τ₁) (τ' ++ τ₂) pid b := by
  cases h
  case itself hs hh hk hb =>
    exact .itself (List.mem_append_left _ hs) (history_grow hh)
      (fun k hm => (List.mem_append.mp hm).elim (hk k) (hn k)) hb
  case inside hk hh hk' hq hd hb =>
    exact .inside (List.mem_append_left _ hk) (history_grow hh) (List.mem_append_left _ hk') hq
      (List.mem_append_left _ hd) hb

-- Events of one process, in front of the system and inside, do not concern the others.
theorem Mirrors.update (h : Mirrors S Q Idle τ c τ' c') (hne : c.procs pid ≠ .ended)
    (hτ₁ : ∀ ev ∈ τ₁, ev.pid = some pid) (hτ₂ : ∀ ev ∈ τ₂, ev.pid = some pid)
    (hc : c₁.procs = Function.update c.procs pid s) (hc' : c₂.procs = Function.update c'.procs pid s')
    (hw : c₂.world = c₁.world.1) (hslot : Mirror A S Q (τ ++ τ₁) (τ' ++ τ₂) pid s s')
    (hothers : ∀ {q}, q ≠ pid → Idle q c'.world → Idle q c₂.world)
    (hself : s' = .unused → Idle pid c₂.world ∧ ∀ k, .spawn pid k ∉ τ' ++ τ₂)
    (hspawn : ∀ {k}, .spawn pid k ∈ τ₂ →
      ∃ k' h f, .spawn pid k' ∈ τ ++ τ₁ ∧ h <+: history pid (τ ++ τ₁) ∧ (Q k').enters h k f)
    (hdone : ∀ {b}, .done pid b ∈ τ₁ → s = .ended ∧ Answered Q (τ ++ τ₁) (τ' ++ τ₂) pid b)
    (hacts : ∀ {e r}, .act pid e r ∈ τ₂ → .act pid (.inl e) r ∈ τ₁)
    (hmoves : ∀ {e r}, .act pid (.inl e) r ∈ τ₁ → ¬ S.Inert e → .act pid e r ∈ τ₂) :
    Mirrors S Q Idle (τ ++ τ₁) c₁ (τ' ++ τ₂) c₂ where
  world := hw
  slots q := by
    rw [hc, hc']
    by_cases hq : q = pid
    case pos => subst hq; simpa using hslot
    case neg =>
      have hne : ∀ ev ∈ τ₁, ev.pid ≠ some q :=
        fun ev hev he => hq (Option.some.inj (he.symm.trans (hτ₁ ev hev)))
      simpa [hq] using (h.slots q).mono hne
  idle {q} hu := by
    rw [hc'] at hu
    by_cases hq : q = pid
    case pos =>
      subst hq
      exact hself (by simpa using hu)
    case neg =>
      obtain ⟨hi, hn⟩ := h.idle (by simpa [hq] using hu)
      refine ⟨hothers hq hi, fun k hk => (List.mem_append.mp hk).elim (hn k) fun hk => hq ?_⟩
      exact Option.some.inj (hτ₂ _ hk)
  spawn {q k} hk := by
    rcases List.mem_append.mp hk with hk | hk
    · obtain ⟨k', l, f, hk', hl, hq⟩ := h.spawn hk
      exact ⟨k', l, f, List.mem_append_left _ hk', history_grow hl, hq⟩
    · obtain rfl : q = pid := Option.some.inj (hτ₂ _ hk)
      exact hspawn hk
  done {q b} hd := by
    rcases List.mem_append.mp hd with hd | hd
    · obtain ⟨he, ha⟩ := h.done hd
      have hq : q ≠ pid := by
        rintro rfl
        exact hne he
      rw [hc]
      exact ⟨by simpa [hq] using he, ha.mono fun k hk => hq (Option.some.inj (hτ₂ _ hk))⟩
    · obtain rfl : q = pid := Option.some.inj (hτ₁ _ hd)
      obtain ⟨rfl, ha⟩ := hdone hd
      exact ⟨by simp [hc], ha⟩
  acts {q e r} ha := by
    rcases List.mem_append.mp ha with ha | ha
    · exact List.mem_append_left _ (h.acts ha)
    · obtain rfl : q = pid := Option.some.inj (hτ₂ _ ha)
      exact List.mem_append_right _ (hacts ha)
  moves {q e r} ha hn := by
    rcases List.mem_append.mp ha with ha | ha
    · exact List.mem_append_left _ (h.moves ha hn)
    · obtain rfl : q = pid := Option.some.inj (hτ₁ _ ha)
      exact List.mem_append_right _ (hmoves ha hn)

section Step

variable {ev : Event (Sum.elim R A) K' T β'} {p : Prog (Sum.elim R A) β'} {q : Prog R β}
  {k' : K'} {k : K}
  {f : β → β'}

-- A process that is about to let a program run can be taken to have begun it.
theorem Mirrors.enter (h : Mirrors S Q Idle τ c τ' c') (hp : c.procs pid = .running p)
    (hu : c'.procs pid = .unused) (hk : .spawn pid k' ∈ τ) (hq : (Q k').enters (history pid τ) k f)
    (he : p = ((S.prog k).lift A >>= fun b => .ret (f b))) :
    ∃ c₂, S.Step c' (.spawn pid k) c₂ ∧ c₂.world = c'.world ∧ c₂.procs pid = .running (S.prog k) ∧
      Mirrors S Q Idle τ c (τ' ++ [.spawn pid k]) c₂ := by
  refine ⟨_, .spawn k hu, rfl, by simp, ?_⟩
  rw [← List.append_nil τ]
  refine h.update (s := .running p) (by simp [hp]) nofun (by simp [Event.pid]) ?_ rfl h.world
    (.inside (List.mem_append_left _ hk) (history_grow List.prefix_rfl) (by simp) hq he)
      (fun _ hi => hi) nofun
    (fun hm => ?_) nofun (by simp) nofun
  · rw [← hp, Function.update_eq_self]
  · cases List.mem_singleton.mp hm
    exact ⟨k', _, f, List.mem_append_left _ hk, history_grow List.prefix_rfl, hq⟩

-- The steps of a process whose program runs inside.
theorem Mirrors.inside (hI : Idleness S Idle) (h : Mirrors S Q Idle τ c τ' c')
    (hs : (P.over S).Step c ev c₁) (hpid : ev.pid = some pid) (hq : c'.procs pid = .running q) :
    ∃ ev' c₂, S.Step c' ev' c₂ ∧ ev'.pid = some pid ∧
      Mirrors S Q Idle (τ ++ [ev]) c₁ (τ' ++ [ev']) c₂ := by
  have hm := h.slots pid
  rw [hq] at hm
  cases hs
  case tick t  => cases hpid
  case spawn k hu =>
    cases hpid
    rw [hu] at hm
    cases hm
  case act e g r w x hp hx =>
    cases hpid
    rw [hp] at hm
    cases hm with | inside hk hn hk' hQ he => ?_
    obtain ⟨e', g', rfl, hop⟩ := Prog.lift_eq_op he.symm
    cases hop
    obtain ⟨⟨r, w'⟩, hx', heq⟩ := Option.map_eq_some_iff.mp hx
    cases heq
    rw [← h.world] at hx'
    refine ⟨.act pid e' r, _, .act x.1 hq hx', rfl, ?_⟩
    refine h.update (by simp [hp]) (by simp [Event.pid]) (by simp [Event.pid]) rfl rfl rfl
      (.inside (List.mem_append_left _ hk) (history_grow hn) (List.mem_append_left _ hk') hQ rfl)
      (fun hne => hI.exec hne.symm hx') nofun (by simp) (by simp) (fun ha => ?_) (fun ha _ => ?_)
    all_goals
      cases List.mem_singleton.mp ha
      exact List.mem_singleton_self _
  case done b hp =>
    cases hpid
    rw [hp] at hm
    cases hm with | inside hk hn hk' hQ he => ?_
    obtain ⟨b', rfl, rfl⟩ := Prog.lift_eq_ret he.symm
    refine ⟨.done pid b', _, .done hq, rfl, ?_⟩
    refine h.update (by simp [hp]) (by simp [Event.pid]) (by simp [Event.pid]) rfl rfl h.world .left
      (fun _ hi => hi) nofun (by simp) (fun hm => ?_) (by simp) (by simp)
    cases List.mem_singleton.mp hm
    exact ⟨rfl, .inside (List.mem_append_left _ hk) (history_grow hn) (List.mem_append_left _ hk')
      hQ (by simp) rfl⟩
  case crash p hp =>
    cases hpid
    refine ⟨.crash pid, _, .crash hq, rfl, ?_⟩
    exact h.update (by simp [hp]) (by simp [Event.pid]) (by simp [Event.pid]) rfl rfl
      (congrArg (S.abort pid) h.world) .left (fun hne => hI.abort hne.symm) nofun (by simp)
        (by simp) (by simp)
      (by simp)

-- A step of a process that concerns nobody but itself.
theorem Mirrors.aside (h : Mirrors S Q Idle τ c τ' c') (hpid : ev.pid = some pid)
    (hne : c.procs pid ≠ .ended) (hu : c'.procs pid = .unused) (hw : c₁.world.1 = c.world.1)
    (hc : c₁.procs = Function.update c.procs pid s)
    (hslot : Mirror A S Q (τ ++ [ev]) τ' pid s .unused)
    (hd : ∀ {b}, ev = .done pid b → s = .ended ∧ ∃ k', .spawn pid k' ∈ τ ∧ (Q k').answers (history pid τ) b)
    (ha : ∀ {e r}, ev = .act pid (.inl e) r → S.Inert e) :
    Mirrors S Q Idle (τ ++ [ev]) c₁ τ' c' := by
  rw [← List.append_nil τ'] at hslot ⊢
  have hfresh : ∀ k, .spawn pid k ∉ τ' ++ [] := by simpa using (h.idle hu).2
  refine h.update hne (by simpa using hpid) nofun hc ?_ (h.world.trans hw.symm) hslot (fun _ hi => hi)
    (fun _ => ⟨(h.idle hu).1, hfresh⟩) nofun (fun hm => ?_) nofun fun hm hn => ?_
  · rw [← hu, Function.update_eq_self]
  · obtain ⟨hs, k', hk, hb⟩ := hd (List.mem_singleton.mp hm).symm
    exact ⟨hs, .itself (List.mem_append_left _ hk) (history_grow List.prefix_rfl) hfresh hb⟩
  · exact absurd (ha (List.mem_singleton.mp hm).symm) hn

theorem Mirrors.tick (hI : Idleness S Idle) (h : Mirrors S Q Idle τ c τ' c') (t : T) :
    Mirrors S Q Idle (τ ++ [.tick t]) ⟨(P.over S).tick t c.world, c.procs⟩ (τ' ++ [.tick t])
      ⟨S.tick t c'.world, c'.procs⟩ where
  world    := congrArg (S.tick t) h.world
  slots q  := (h.slots q).mono (by simp [Event.pid])
  idle hu  := ⟨hI.tick (h.idle hu).1, by simpa using (h.idle hu).2⟩
  spawn hk := by
    obtain ⟨k', l, f, hk', hl, hq⟩ := h.spawn (by simpa using hk)
    exact ⟨k', l, f, List.mem_append_left _ hk', history_grow hl, hq⟩
  done hd := by
    obtain ⟨he, ha⟩ := h.done (by simpa using hd)
    exact ⟨he, ha.mono (by simp)⟩
  acts ha     := List.mem_append_left _ (h.acts (by simpa using ha))
  moves ha hn := List.mem_append_left _ (h.moves (by simpa using ha) hn)

-- How a step in front of the system is mirrored: nothing happens inside, or the same process takes a
-- step inside, after it has begun there if it had not.
inductive Mirrored (S : System R W C K T β) (Q : K' → Contract (Sum.elim R A) K β β')
    (Idle : Nat → W → Prop) (τ : List (Event (Sum.elim R A) K' T β'))
    (c : Config (Sum.elim R A) (W × V) β') (ev : Event (Sum.elim R A) K' T β')
    (c₁ : Config (Sum.elim R A) (W × V) β') (τ' : List (Event R K T β)) (c' : Config R W β) : Prop
  | aside :
    c₁.world.1 = c.world.1 → Mirrors S Q Idle (τ ++ [ev]) c₁ τ' c' → Mirrored S Q Idle τ c ev c₁ τ' c'
  | inside {τ₂ c₂ ev' c₃} :
    S.Run (fun _ _ _ => True) c' τ₂ c₂ → c₂.world = c'.world → S.Step c₂ ev' c₃ → ev'.pid = ev.pid →
    (∀ {pid}, ev.pid = some pid →
      ∃ k' h k f, .spawn pid k' ∈ τ ∧ h <+: history pid τ ∧ .spawn pid k ∈ τ' ++ τ₂ ∧
        (Q k').enters h k f) →
    Mirrors S Q Idle (τ ++ [ev]) c₁ (τ' ++ (τ₂ ++ [ev'])) c₃ → Mirrored S Q Idle τ c ev c₁ τ' c'

-- A step of a process whose program already runs inside.
theorem Mirrors.goes_on (hI : Idleness S Idle) (h : Mirrors S Q Idle τ c τ' c')
    (hs : (P.over S).Step c ev c₁) (hpid : ev.pid = some pid) (hp : c.procs pid = .running p)
    (hq : c'.procs pid = .running q) : Mirrored S Q Idle τ c ev c₁ τ' c' := by
  obtain ⟨ev', c₂, hs', hpid', hm⟩ := h.inside hI hs hpid hq
  refine .inside .nil rfl hs' (hpid'.trans hpid.symm) (fun {pid'} hp' => ?_) (by simpa using hm)
  obtain rfl : pid' = pid := Option.some.inj (hp'.symm.trans hpid)
  have hslot := h.slots pid'
  rw [hp, hq] at hslot
  cases hslot with | inside hk hn hk' hQ => exact ⟨_, _, _, _, hk, hn, by simpa using hk', hQ⟩

-- A step of a process that begins inside with it.
theorem Mirrors.begins (hI : Idleness S Idle) (h : Mirrors S Q Idle τ c τ' c')
    (hs : (P.over S).Step c ev c₁) (hpid : ev.pid = some pid) (hp : c.procs pid = .running p)
    (hu : c'.procs pid = .unused) (hk : .spawn pid k' ∈ τ) (hQ : (Q k').enters (history pid τ) k f)
    (he : p = ((S.prog k).lift A >>= fun b => .ret (f b))) : Mirrored S Q Idle τ c ev c₁ τ' c' := by
  obtain ⟨c₂, hsp, hw, hq, hm⟩ := h.enter hp hu hk hQ he
  obtain ⟨ev', c₃, hs', hpid', hm'⟩ := hm.inside hI hs hpid hq
  refine .inside (.step .nil hsp trivial) hw hs' (hpid'.trans hpid.symm) (fun {pid'} hp' => ?_)
    (by simpa using hm')
  obtain rfl : pid' = pid := Option.some.inj (hp'.symm.trans hpid)
  exact ⟨k', _, k, f, hk, List.prefix_rfl, by simp, hQ⟩

theorem Mirrors.step (hI : Idleness S Idle) (hP : ∀ k', Serves S (Q k') [] (P.prog k'))
    (h : Mirrors S Q Idle τ c τ' c') (hs : (P.over S).Step c ev c₁) :
    Mirrored S Q Idle τ c ev c₁ τ' c' := by
  have hstep := hs
  cases hs
  case tick t =>
    exact .inside .nil rfl (.tick t) rfl nofun (by simpa using h.tick (P := P) hI t)
  case spawn pid k hu =>
    have hm := h.slots pid
    rw [hu] at hm
    cases hi : c'.procs pid <;> rw [hi] at hm <;> cases hm
    case unused.unused hn =>
      have hn : history pid (τ ++ [.spawn pid k]) = [] :=
        history_append.trans (List.append_eq_nil_iff.mpr ⟨hn, rfl⟩)
      have hk : .spawn pid k ∈ τ ++ [.spawn pid k] :=
        List.mem_append_right _ (List.mem_singleton_self _)
      exact .aside rfl (h.aside rfl (by simp [hu]) hi rfl rfl (.serving hk (hn ▸ hP k)) nofun nofun)
  case act pid e g r w x hp hx =>
    have hm := h.slots pid
    rw [hp] at hm
    cases hi : c'.procs pid <;> rw [hi] at hm <;> cases hm
    case running.inside => exact h.goes_on hI hstep rfl hp hi
    case unused.serving k' hk hsv =>
      cases hsv
      case front hg =>
        obtain ⟨⟨r, v⟩, -, heq⟩ := Option.map_eq_some_iff.mp hx
        cases heq
        refine .aside rfl (h.aside rfl (by simp [hp]) hi rfl rfl
          (.serving (List.mem_append_left _ hk) ?_) nofun
          nofun)
        rw [history_concat]
        exact hg _
      case look hin hg =>
        obtain ⟨⟨r, w'⟩, hx', heq⟩ := Option.map_eq_some_iff.mp hx
        cases heq
        have hw : w' = c.world.1 := hin hx'
        refine .aside hw (h.aside rfl (by simp [hp]) hi hw rfl
          (.serving (List.mem_append_left _ hk) ?_) nofun
          (fun h => by cases h; exact hin))
        rw [history_concat]
        exact hg _
      case enter hQ he => exact h.begins hI hstep rfl hp hi hk hQ he
  case done pid b hp =>
    have hm := h.slots pid
    rw [hp] at hm
    cases hi : c'.procs pid <;> rw [hi] at hm <;> cases hm
    case running.inside => exact h.goes_on hI hstep rfl hp hi
    case unused.serving k' hk hsv =>
      cases hsv
      case ret hb      =>
        refine .aside rfl (h.aside rfl (by simp [hp]) hi rfl rfl .served (fun he => ?_) nofun)
        cases he
        exact ⟨rfl, k', hk, hb⟩
      case enter hQ he => exact h.begins hI hstep rfl hp hi hk hQ he
  case crash pid p hp =>
    have hm := h.slots pid
    rw [hp] at hm
    cases hi : c'.procs pid <;> rw [hi] at hm <;> cases hm
    case running.inside => exact h.goes_on hI hstep rfl hp hi
    case unused.serving =>
      have hw : S.abort pid c.world.1 = c.world.1 := by
        rw [← h.world]
        exact hI.self (h.idle hi).1
      exact .aside hw (h.aside rfl (by simp [hp]) hi hw rfl .served nofun nofun)

end Step

section Run

variable {G : Guard (Sum.elim R A) (W × V) K' T β'} {w : W × V}
  {ev : Event (Sum.elim R A) K' T β'}

theorem mirrors_nil (hw : ∀ pid, Idle pid w.1) :
    Mirrors S Q Idle ([] : List (Event (Sum.elim R A) K' T β')) ⟨w, fun _ => .unused⟩
      [] ⟨w.1, fun _ => .unused⟩ where
  world   := rfl
  slots _ := .unused rfl
  idle _  := ⟨hw _, nofun⟩
  spawn   := nofun
  done    := nofun
  acts    := nofun
  moves   := nofun

theorem mirrors_of_run (hI : Idleness S Idle) (hP : ∀ k', Serves S (Q k') [] (P.prog k'))
    (hw : ∀ pid, Idle pid w.1) (h : (P.over S).Run G ⟨w, fun _ => .unused⟩ τ c) :
    ∃ τ' c', S.Run (fun _ _ _ => True) ⟨w.1, fun _ => .unused⟩ τ' c' ∧
      Mirrors S Q Idle τ c τ' c' := by
  induction h
  case nil => exact ⟨[], _, .nil, mirrors_nil hw⟩
  case step hs _ ih =>
    obtain ⟨τ', c', hrun, hm⟩ := ih
    cases hm.step hI hP hs
    case aside _ hm               => exact ⟨τ', c', hrun, hm⟩
    case inside hr _ hs' _ _ hm => exact ⟨_, _, hrun.trans (.step hr hs' trivial), hm⟩

-- What a step does to the world of the system is done by a step of the system, and by a process that
-- the process in front of it has begun.
theorem step_of_run (hI : Idleness S Idle) (hP : ∀ k', Serves S (Q k') [] (P.prog k'))
    (hw : ∀ pid, Idle pid w.1) (h : (P.over S).Run G ⟨w, fun _ => .unused⟩ τ c)
    (hs : (P.over S).Step c ev c₁) :
    c₁.world.1 = c.world.1 ∨
    ∃ τ' c' ev' c₁', S.Run (fun _ _ _ => True) ⟨w.1, fun _ => .unused⟩ τ' c' ∧ S.Step c' ev' c₁' ∧
      c'.world = c.world.1 ∧ c₁'.world = c₁.world.1 ∧ ev'.pid = ev.pid ∧
      (∀ {pid e r}, ev' = .act pid e r → .act pid (.inl e) r ∈ τ ++ [ev]) ∧
      ∀ {pid}, ev.pid = some pid →
        ∃ k' h k f, .spawn pid k' ∈ τ ∧ h <+: history pid τ ∧ .spawn pid k ∈ τ' ∧
          (Q k').enters h k f := by
  obtain ⟨τ', c', hrun, hm⟩ := mirrors_of_run hI hP hw h
  cases hm.step hI hP hs
  case aside he _                  => exact .inl he
  case inside hr he hs' hpid hk hm' =>
    exact .inr ⟨_, _, _, _, hrun.trans hr, hs', he.trans hm.world, hm'.world, hpid,
      fun h => hm'.acts (by simp [h]), hk⟩

end Run

end Front
end System
