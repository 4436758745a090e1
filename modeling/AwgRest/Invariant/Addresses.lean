import AwgRest.Invariant.Peers

open Domain Netip Store Domain.Peer Ipam

namespace Repo.Peers

variable {cidr : Prefix} {a : Addr}

-- The gateway is the first usable address of an IPv4 pool shorter than /31.
theorem gatewayAddress_of_short (h : Short cidr) :
    ∃ g, gatewayAddress cidr = some g ∧ g.family = .v4 ∧ g.val = cidr.masked.addr.val + 1 := by
  have := h.four_le
  have hle := cidr.masked_add_le
  rw [h.1] at hle
  have hlt : cidr.masked.addr.val + 1 < 2 ^ cidr.masked.addr.family.bitLen := by
    rw [Prefix.masked_family, h.1]
    omega
  have hn : cidr.masked.addr.next = some ⟨_, cidr.masked.addr.val + 1, hlt⟩ := dif_pos hlt
  refine ⟨⟨_, cidr.masked.addr.val + 1, hlt⟩, ?_, h.1, rfl⟩
  have hc : cidr.masked.contains (some ⟨_, cidr.masked.addr.val + 1, hlt⟩) = true := by
    rw [Prefix.masked_contains_iff]
    exact ⟨rfl, Nat.le_succ _, by simp only; omega⟩
  have h₄ : ¬ ((!cidr.masked.addr.is4) = true ∨ 31 ≤ cidr.masked.bits) := by
    simp [Addr.is4, h.1, h.2]
  rw [gatewayAddress, if_neg h₄, hn, Option.filter_some, if_pos hc]

-- An address that a peer may have in a pool. The last three conditions are about IPv4 pools shorter
-- than /31, where the first and the last address are the network and the broadcast address.
structure Assignable (cidr : Prefix) (a : Addr) : Prop where
  contains  : cidr.masked.contains (some a) = true
  network   : Short cidr → a.val ≠ cidr.masked.addr.val
  broadcast : Short cidr → a.val ≠ cidr.masked.addr.val + 2 ^ cidr.hostBits - 1
  gateway   : Short cidr → a.val ≠ cidr.masked.addr.val + 1

theorem assignable_of_host (h : IsHost cidr a) (hg : gatewayAddress cidr ≠ some a) :
    Assignable cidr a := by
  have ⟨hc, hs⟩ := isHost_iff.mp h
  refine ⟨hc, fun s => (hs s).1, fun s => (hs s).2, fun s hv => hg ?_⟩
  obtain ⟨g, hg, hf, hgv⟩ := gatewayAddress_of_short s
  rw [hg]
  exact congrArg some (Addr.ext (hf.trans (h.family.trans s.1).symm) (hgv.trans hv.symm))

end Repo.Peers

namespace ControlPlane

open Repo.Peers

variable {C : ControlPlane} {G : Guard} {w₀ w w' : World} {τ : List Ev} {pid q : Nat} {φ ψ : Local}
  {e : Eff} {r : Except Err e.Answer} {db db' : DB} {p : Peer}

-- A pool is registered for the tenant and the node of the peer, and the peer's address is one of it.
def Placed (db : DB) (p : Peer) : Prop :=
  ∃ pool ∈ db.pools, pool.tenantID = p.tenantID ∧ pool.nodeID = p.nodeID ∧
    Assignable pool.cidr p.allowedIP

-- Pools are only ever added.
def PoolsGrow (db db' : DB) : Prop :=
  db.pools.map poolOf ⊆ db'.pools.map poolOf

theorem poolsGrow_view (h : PoolsGrow db db') : PoolsGrow (φ.view db) (φ.view db') := by
  intro x hx
  rw [Local.view, replay_pools, List.mem_append] at *
  exact hx.imp_left fun hx => h hx

theorem poolsGrow_replay (ws : List Write) : PoolsGrow db (Transactions.replay db ws) := by
  intro x hx
  rw [replay_pools]
  exact List.mem_append_left _ hx

theorem Change.poolsGrow (h : Change C φ w e r db') : PoolsGrow w.db db' := by
  cases h
  case commit         => exact poolsGrow_replay _
  case auto s _ _ _ _ =>
    rw [Auto.eval_frame]
    exact fun _ => id
  all_goals exact fun _ => id

theorem Placed.mono (h : Placed db p) (hg : PoolsGrow db db') : Placed db' p := by
  obtain ⟨pool, hm, ht, hn, ha⟩ := h
  obtain ⟨pool', hm', he⟩ := List.mem_map.mp (hg (List.mem_map_of_mem hm))
  simp only [poolOf, Prod.mk.injEq] at he
  obtain ⟨-, h₁, h₂, h₃⟩ := he
  exact ⟨pool', hm', h₁.trans ht, h₂.trans hn, h₃ ▸ ha⟩

theorem Placed.congr {p' : Peer} (h : Placed db p) (hi : p.identity = p'.identity) :
    Placed db p' := by
  obtain ⟨pool, hm, ht, hn, ha⟩ := h
  have ha' : p.allowedIP = p'.allowedIP := congrArg Identity.allowedIP hi
  exact ⟨pool, hm, ht.trans (congrArg Identity.tenantID hi), hn.trans (congrArg Identity.nodeID hi),
    ha' ▸ ha⟩

-- The pool that a transaction has locked is registered, and the peers that it has written are placed.
structure PoolLocal (db : DB) (φ : Local) : Prop where
  pool   : ∀ {t pool}, φ.tx = some t → t.pool = some pool → poolOf pool ∈ (φ.view db).pools.map poolOf
  writes : ∀ {p}, .peer p ∈ φ.writes → Placed (φ.view db) p

theorem PoolLocal.mono (h : PoolLocal db φ) (hg : PoolsGrow db db') : PoolLocal db' φ :=
  ⟨fun ht hp => poolsGrow_view hg (h.pool ht hp), fun hp => (h.writes hp).mono (poolsGrow_view hg)⟩

theorem PoolLocal.of_tx (h : PoolLocal db φ) (ht : ψ.tx = φ.tx) : PoolLocal db ψ := by
  have hw : ψ.writes = φ.writes := by simp [Local.writes, ht]
  have hv : ψ.view db = φ.view db := by simp [Local.view, hw]
  exact ⟨fun h₁ h₂ => hv ▸ h.pool (ht ▸ h₁) h₂, fun hp => hv ▸ h.writes (hw ▸ hp)⟩

theorem PoolLocal.of_none (h : φ.tx = none) : PoolLocal db φ :=
  ⟨by simp [h], by simp [Local.writes, h]⟩

theorem placed_view (h : PoolLocal db φ) (hdb : ∀ p ∈ db.peers, Placed db p)
    (hp : p ∈ (φ.view db).peers) : Placed (φ.view db) p :=
  (mem_view_peers hp).elim (fun hp => (hdb p hp).mono (poolsGrow_replay _)) h.writes

section Statements

variable {s : Stmt} {a : s.Answer} {now : Time} {id : UUID} {t : TxLocal}

theorem placed_writes (h : PoolLocal db φ) (hdb : ∀ p ∈ db.peers, Placed db p) (ht : φ.tx = some t)
    (hs : AllowsStmt φ t s) (hp : WritesPeer (φ.view db) now s p) : Placed (φ.view db) p := by
  cases hp
  case insert ps addr id _ =>
    obtain ⟨-, -, -, pl, hpl, hn, htn, hh, hg⟩ := hs
    obtain ⟨pool, hm, he⟩ := List.mem_map.mp (h.pool ht hpl)
    simp only [poolOf, Prod.mk.injEq] at he
    obtain ⟨-, h₁, h₂, h₃⟩ := he
    exact ⟨pool, hm, h₁.trans htn, h₂.trans hn, h₃ ▸ assignable_of_host hh hg⟩
  case revoke hv => exact (placed_view h hdb hv).congr (grows_revoked ..).same
  case apply hv  => exact (placed_view h hdb hv).congr (grows_applied ..).same

-- The pool is the one that the statement has locked, or the one from before.
theorem pool_next_stmt {t' : TxLocal} {pool : AddressPool} (ht : φ.tx = some t)
    (he : s.eval (φ.view db) now id = some (.ok a)) (ht' : (φ.next (.stmt s) (.ok a)).tx = some t')
    (hp : t'.pool = some pool) : t.pool = some pool ∨ pool ∈ (φ.view db).pools := by
  cases s
  case lockPool =>
    simp only [Local.next, Local.locked, ht, Option.map_some, Option.some.injEq] at ht'
    subst ht'
    cases hp
    exact .inr (lockPool_ok he).1
  all_goals
    simp only [Local.next, Local.wrote, ht, Option.map_some, Option.some.injEq] at ht'
    subst ht'
    exact .inl hp

theorem PoolLocal.stmt (h : PoolLocal db φ) (hdb : ∀ p ∈ db.peers, Placed db p) (ht : φ.tx = some t)
    (hs : AllowsStmt φ t s) (he : s.eval (φ.view db) now id = some (.ok a)) :
    PoolLocal db (φ.next (.stmt s) (.ok a)) := by
  have hw := Local.writes_next_stmt (s := s) (a := a) ht
  have hg : PoolsGrow (φ.view db) ((φ.next (.stmt s) (.ok a)).view db) := by
    rw [Local.view, Local.view, hw, Transactions.replay_append]
    exact poolsGrow_replay _
  constructor
  case pool =>
    intro t' pool ht' hp
    rcases pool_next_stmt ht he ht' hp with hp | hp
    · exact hg (h.pool ht hp)
    · exact hg (List.mem_map_of_mem hp)
  case writes =>
    intro p hp
    rw [hw, List.mem_append] at hp
    refine Placed.mono ?_ hg
    exact hp.elim h.writes fun hp => placed_writes h hdb ht hs (writesPeer_of_eval he hp)

end Statements

theorem placed_own (hs : ActStep C G w₀ τ w pid φ e r w') (h : PoolLocal w.db φ)
    (hdb : ∀ p ∈ w.db.peers, Placed w.db p) : PoolLocal w.db (φ.next e r) := by
  have hc := hs.change
  generalize w'.db = db' at hc
  cases hc
  case query                   => exact h.of_tx Local.tx_next_query
  case auto                    => exact h.of_tx Local.tx_next_auto
  case stmt t s a _ _ ht ha he => exact h.stmt hdb ht ha he
  case commit                  => exact .of_none rfl
  case aside ha =>
    rcases Local.tx_next_aside (φ := φ) ha with ht | ht | ht
    · exact h.of_tx ht
    · exact .of_none ht
    · refine ⟨fun ht' hp => ?_, by simp [Local.writes, ht]⟩
      obtain rfl := Option.some.inj (ht.symm.trans ht')
      cases hp

theorem placed_of_trace (h : C.Trace G w₀ τ w) (hq : Quiet w₀) (h₀ : w₀.db.peers = []) :
    ∀ p ∈ w.db.peers, Placed w.db p := by
  refine (trace_invariant (Q := fun _ w => ∀ p ∈ w.db.peers, Placed w.db p)
    (P := fun _ w _ ψ => PoolLocal w.db ψ) hq h (by simp [h₀]) ?idle ?new ?act).1
  case idle => exact fun hi => ⟨fun h => hi.db ▸ h, fun q ψ h => hi.db ▸ h⟩
  case new  => exact fun _ => .of_none rfl
  case act  =>
    intro τ w pid φ e r w' hs hdb hl
    have hg := hs.change.poolsGrow
    have hφ := hl pid φ hs.running
    refine ⟨fun p hp => ?_, (placed_own hs hφ hdb).mono hg, fun q ψ _ hψ => (hl q ψ hψ).mono hg⟩
    rcases hs.change.peers with he | he
    · exact (hdb p (he ▸ hp)).mono hg
    · rw [he] at hp ⊢
      exact placed_view hφ hdb hp

-- No two peers of a node have the same address, and each has one of a pool that is registered for it.
theorem addresses_owned {c : Conf} (hq : Quiet w₀) (h₀ : w₀.db.peers = [])
    (h : C.Runs unguarded w₀ τ c) :
    c.world.db.peers.Pairwise (fun p q => ¬ (p.nodeID = q.nodeID ∧ p.allowedIP = q.allowedIP)) ∧
    ∀ p ∈ c.world.db.peers, ∃ pool ∈ c.world.db.pools,
      pool.tenantID = p.tenantID ∧ pool.nodeID = p.nodeID ∧ Assignable pool.cidr p.allowedIP :=
  ⟨(peers_of_trace h.trace hq (by simp [h₀])).1.imp fun ha => ha.addr, placed_of_trace h.trace hq h₀⟩

theorem addresses_owned_sample :
    ∃ τ c, Sample.plane.Runs unguarded Sample.world τ c ∧
      c.world.db.peers.map (fun p => (p.state, p.allowedIP.val % 256)) =
        [(.revoked, 2), (.pending, 3)] ∧
      c.world.db.peers.Pairwise (fun p q => ¬ (p.nodeID = q.nodeID ∧ p.allowedIP = q.allowedIP)) ∧
      ∀ p ∈ c.world.db.peers, Placed c.world.db p := by
  have h : ((Sample.plane.system.playAll (boot Sample.world)
      (Sample.insert 0 (Sample.params "x" "a") 10 ++ Sample.withdraw 1 10 ++
        Sample.insert 2 (Sample.params "y" "b") 11)).map
      fun r => r.2.world.db.peers.map (fun p => (p.state, p.allowedIP.val % 256))) =
      some [(.revoked, 2), (.pending, 3)] := by decide +kernel
  obtain ⟨⟨τ, c⟩, hp, hs⟩ := Option.map_eq_some_iff.mp h
  have hr : Sample.plane.Runs unguarded Sample.world τ c := System.playAll_run hp
  exact ⟨τ, c, hr, hs, addresses_owned ⟨fun _ => rfl, rfl⟩ rfl hr⟩

end ControlPlane
