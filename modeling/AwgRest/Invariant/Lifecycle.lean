import AwgRest.Invariant.History

open Domain Store Domain.Peer

namespace ControlPlane

variable {C : ControlPlane} {G : Guard} {w₀ w w' : World} {τ : List Ev} {pid q : Nat} {φ ψ : Local}
  {e : Eff} {r : Except Err e.Answer} {ev : Ev} {p : Peer}

-- The life of a peer: its revisions, its state, and that what counts as applied has been put in
-- place.
structure Lifecycle (τ : List Ev) (p : Peer) : Prop where
  desired : 1 ≤ p.desiredRevision
  nonneg  : 0 ≤ p.appliedRevision
  applied : p.appliedRevision ≤ p.desiredRevision
  state   : p.state = .pending ∨ p.state = .active ∨ p.state = .revoked
  revoked : p.state = .revoked ↔ p.revokedAt.isSome
  pending : p.state = .pending → p.appliedRevision = 0
  active  : p.state = .active → 1 ≤ p.appliedRevision
  synced  : ∀ r, 1 ≤ r → r ≤ p.appliedRevision →
    ∃ s ∈ (history τ).syncs, ∃ q ∈ s.rows, q.id = p.id ∧ r ≤ q.desiredRevision

namespace Lifecycle

theorem concat (h : Lifecycle τ p) : Lifecycle (τ ++ [ev]) p :=
  { h with
    synced := fun r h₁ hr =>
      have ⟨s, hs, hq⟩ := h.synced r h₁ hr
      ⟨s, mem_syncs_concat hs, hq⟩ }

theorem newPeer (ps : InsertParams) (addr : Netip.Addr) (id : UUID) (now : Time) :
    Lifecycle τ (Stmt.newPeer ps addr id now) where
  desired := by simp [Stmt.newPeer]
  nonneg  := by simp [Stmt.newPeer]
  applied := by simp [Stmt.newPeer]
  state   := .inl rfl
  revoked := by simp [Stmt.newPeer]
  pending := fun _ => rfl
  active  := by simp [Stmt.newPeer]
  synced  := fun r h₁ hr => by
    simp only [Stmt.newPeer] at hr
    omega

theorem markRevoked (h : Lifecycle τ p) (at_ now : Time) : Lifecycle τ (Stmt.revoked p at_ now) where
  desired := by have := h.desired; simp only [Stmt.revoked]; omega
  nonneg  := h.nonneg
  applied := by have := h.applied; simp only [Stmt.revoked]; omega
  state   := .inr (.inr rfl)
  revoked := by simp [Stmt.revoked]
  pending := by simp [Stmt.revoked]
  active  := by simp [Stmt.revoked]
  synced  := h.synced

-- A revision counts as applied if it was listed by a process that put its listing in place.
theorem markApplied (h : Lifecycle τ p) {q : Peer} {s : Sync} (now : Time)
    (hs : s ∈ (history τ).syncs) (hq : q ∈ s.rows) (hi : q.id = p.id) (h₁ : 1 ≤ q.desiredRevision)
    (hle : q.desiredRevision ≤ p.desiredRevision) :
    Lifecycle τ (Stmt.applied p q.desiredRevision now) where
  desired := h.desired
  nonneg  := le_max_of_le_left h.nonneg
  applied := max_le h.applied hle
  state   := by
    rcases h.state with h | h | h <;> simp [Stmt.applied, h]
  revoked := applied_revoked_iff.trans h.revoked
  pending := fun hp => by
    rcases h.state with h | h | h <;> simp [Stmt.applied, h] at hp
  active  := fun _ => le_max_of_le_right h₁
  synced  := fun r h₁ hr => by
    rcases le_max_iff.mp hr with hr | hr
    · exact h.synced r h₁ hr
    · exact ⟨s, hs, q, hq, hi, hr⟩

end Lifecycle

-- What a process has written obeys the lifecycle, and what it has listed has.
structure LifeLocal (τ : List Ev) (φ : Local) : Prop where
  writes : ∀ {p}, .peer p ∈ φ.writes → Lifecycle τ p
  listed : ∀ {n rows p}, φ.listing = some (n, rows) → p ∈ rows → 1 ≤ p.desiredRevision

theorem LifeLocal.concat (h : LifeLocal τ φ) : LifeLocal (τ ++ [ev]) φ :=
  ⟨fun hp => (h.writes hp).concat, h.listed⟩

theorem lifecycle_view {db : DB} (h : LifeLocal τ φ) (hdb : ∀ p ∈ db.peers, Lifecycle τ p)
    (hp : p ∈ (φ.view db).peers) : Lifecycle τ p :=
  (mem_view_peers hp).elim (hdb p) h.writes

-- A statement writes only rows that obey the lifecycle.
theorem lifecycle_writes {t : TxLocal} {s : Stmt} {now : Time} (hs : ActStep C G w₀ τ w pid φ e r w')
    (hq : Quiet w₀) (h₀ : w₀.db.peers.Pairwise Apart) (h : LifeLocal τ φ)
    (hdb : ∀ p ∈ w.db.peers, Lifecycle τ p) (ha : AllowsStmt φ t s)
    (hp : WritesPeer (φ.view w.db) now s p) : Lifecycle τ p := by
  cases hp
  case insert       => exact .newPeer ..
  case revoke hv    => exact (lifecycle_view h hdb hv).markRevoked ..
  case apply q _ hv =>
    obtain ⟨hw, hy, n, rows, hφ, p₀, hp₀, hi, rfl⟩ := ha
    have ⟨hap, hl⟩ := peers_of_trace hs.trace hq h₀
    have hls := listed_of_trace hs.trace hq h₀ pid φ hs.running
    -- The listing is in place, and the row is a later version of the one that was listed.
    obtain ⟨_, s, hφ', hm⟩ := hls.synced hy
    obtain rfl : rows = s.rows := by
      rw [hφ] at hφ'
      exact congrArg Prod.snd (Option.some.inj hφ')
    obtain ⟨-, p₁, hp₁, g₁⟩ := hls.rows hφ hp₀
    obtain ⟨p₂, hp₂, g₂, -⟩ := exists_grows_of_view (hl pid φ hs.running) hw hv
    obtain rfl : p₁ = p₂ := eq_of_id hap hp₁ hp₂ (g₁.id.symm.trans (hi.trans g₂.id.symm))
    exact (lifecycle_view h hdb hv).markApplied now hm hp₀ hi (h.listed hφ hp₀)
      (g₁.desired.trans g₂.desired)

theorem lifecycle_own (hs : ActStep C G w₀ τ w pid φ e r w') (hq : Quiet w₀)
    (h₀ : w₀.db.peers.Pairwise Apart) (h : LifeLocal τ φ) (hdb : ∀ p ∈ w.db.peers, Lifecycle τ p) :
    LifeLocal τ (φ.next e r) where
  writes := by
    intro p hp
    have hc := hs.change
    generalize w'.db = db' at hc
    cases hc
    case query => exact h.writes (by simpa [Local.writes] using hp)
    case auto  => exact h.writes (by simpa [Local.writes] using hp)
    case aside ha =>
      rcases Local.writes_next_aside (φ := φ) ha with hw | hw
      · exact h.writes (hw ▸ hp)
      · simp [hw] at hp
    case commit => simp [Local.writes, Local.next] at hp
    case stmt t s a now id ht ha he =>
      rw [Local.writes_next_stmt ht, List.mem_append] at hp
      exact hp.elim h.writes fun hp =>
        lifecycle_writes hs hq h₀ h hdb ha (writesPeer_of_eval he hp)
  listed := by
    intro n rows p hφ hp
    cases relists pid φ e r
    case list n' rows' =>
      have hc := hs.change
      generalize w'.db = db' at hc
      cases hc
      case query ha =>
        cases hφ
        rw [Local.view_of_none ha.1] at hp
        exact (hdb p (mem_peersByNode.mp hp).1).desired
      case aside hr => cases hr; case silent hs => cases hs
    case sync           => exact h.listed hφ hp
    case drop hd _ _    => simp [hd] at hφ
    case keep hk _ _ _  => exact h.listed (hk ▸ hφ) hp

theorem lifecycle_of_trace (h : C.Trace G w₀ τ w) (hq : Quiet w₀) (h₀ : w₀.db.peers = []) :
    ∀ p ∈ w.db.peers, Lifecycle τ p := by
  have hap : w₀.db.peers.Pairwise Apart := by simp [h₀]
  refine (trace_invariant (Q := fun τ w => ∀ p ∈ w.db.peers, Lifecycle τ p)
    (P := fun τ _ _ ψ => LifeLocal τ ψ) hq h (by simp [h₀]) ?idle ?new ?act).1
  case idle =>
    exact fun hi => ⟨fun h p hp => (h p (hi.db ▸ hp)).concat, fun q ψ h => h.concat⟩
  case new => exact fun _ => ⟨by simp [Local.writes], nofun⟩
  case act =>
    intro τ w pid φ e r w' hs hdb hl
    refine ⟨fun p hp => ?_, (lifecycle_own hs hq hap (hl pid φ hs.running) hdb).concat,
      fun q ψ _ hψ => (hl q ψ hψ).concat⟩
    rcases hs.change.peers with he | he
    · exact (hdb p (he ▸ hp)).concat
    · exact (lifecycle_view (hl pid φ hs.running) hdb (he ▸ hp)).concat

-- What has happened to a row between two states of a run.
theorem grows_of_run {c c' : Conf} {τ' : List Ev} (hq : Quiet w₀) (h₀ : w₀.db.peers.Pairwise Apart)
    (h₁ : C.Runs G w₀ τ c) (h₂ : C.Continues G τ c τ' c') (hp : p ∈ c.world.db.peers) :
    ∃ p' ∈ c'.world.db.peers, Grows p p' := by
  refine run_monotone (R := fun w w' => ∀ p ∈ w.db.peers, ∃ p' ∈ w'.db.peers, Grows p p') hq
    (fun w p hp => ⟨p, hp, .refl p⟩) (fun h₁ h₂ p hp => ?trans)
    (fun hi p hp => ⟨p, hi.db ▸ hp, .refl p⟩) (fun hs p hp => ?act) h₁ h₂ p hp
  case trans =>
    obtain ⟨p₁, hp₁, g₁⟩ := h₁ p hp
    obtain ⟨p₂, hp₂, g₂⟩ := h₂ p₁ hp₁
    exact ⟨p₂, hp₂, g₁.trans g₂⟩
  case act =>
    have ⟨ha, hl⟩ := peers_of_trace hs.trace hq h₀
    exact grows_step hs ha (hl _ _ hs.running) hp

-- The rows obey the lifecycle in every state that is reached, and in every later state each of them
-- is still there, with the same identity, revisions that are no smaller, and revoked if it was.
theorem peer_lifecycle {c : Conf} (hq : Quiet w₀) (h₀ : w₀.db.peers = [])
    (h : C.Runs unguarded w₀ τ c) :
    (∀ p ∈ c.world.db.peers, Lifecycle τ p) ∧
    ∀ {τ' c'}, C.Continues unguarded τ c τ' c' → ∀ p ∈ c.world.db.peers,
      (∃ p' ∈ c'.world.db.peers, p'.id = p.id) ∧
      ∀ p' ∈ c'.world.db.peers, p'.id = p.id → Grows p p' := by
  have hap : w₀.db.peers.Pairwise Apart := by simp [h₀]
  refine ⟨lifecycle_of_trace h.trace hq h₀, fun {τ' c'} h' p hp => ?_⟩
  obtain ⟨p', hp', g⟩ := grows_of_run hq hap h h' hp
  have h'' : C.Runs unguarded w₀ (τ ++ τ') c' := System.Run.trans h h'
  refine ⟨⟨p', hp', g.id.symm⟩, fun q hq' hi => ?_⟩
  obtain rfl := eq_of_id (peers_of_trace h''.trace hq hap).1 hq' hp' (hi.trans g.id)
  exact g

theorem peer_lifecycle_applied :
    ∃ τ c, Sample.plane.Runs unguarded Sample.world τ c ∧
      c.world.db.peers.map Peer.state = [.active] ∧ ∀ p ∈ c.world.db.peers, Lifecycle τ p := by
  have h : ((Sample.plane.system.playAll (boot Sample.world)
      (Sample.create 0 "k" "x" ⟨"a", "b"⟩ 10 11 12 ++ Sample.claim 1 ++ Sample.list 1 ++
        Sample.sync 1 ++ Sample.persist 1 1 ++ Sample.complete 1)).map
      fun r => r.2.world.db.peers.map Peer.state) = some [.active] := by decide +kernel
  obtain ⟨⟨τ, c⟩, hp, hs⟩ := Option.map_eq_some_iff.mp h
  have hr : Sample.plane.Runs unguarded Sample.world τ c := System.playAll_run hp
  exact ⟨τ, c, hr, hs, (peer_lifecycle ⟨fun _ => rfl, rfl⟩ rfl hr).1⟩

end ControlPlane
