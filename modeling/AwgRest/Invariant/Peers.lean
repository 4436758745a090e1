import AwgRest.Invariant.Link
import Mathlib.Data.List.Pairwise

open Domain Netip Store

namespace Domain.Peer

-- The columns of a peer that no statement changes.
structure Identity where
  id              : UUID
  tenantID        : UUID
  nodeID          : UUID
  profileID       : UUID
  externalID      : String
  displayName     : String
  publicKey       : String
  presharedKeyRef : Option String
  allowedIP       : Addr

def identity (p : Peer) : Identity :=
  ⟨p.id, p.tenantID, p.nodeID, p.profileID, p.externalID, p.displayName, p.publicKey,
    p.presharedKeyRef, p.allowedIP⟩

-- Two rows that the indices of the table `peers` allow side by side.
structure Apart (p q : Peer) : Prop where
  id       : p.id ≠ q.id
  external : ¬ (p.tenantID = q.tenantID ∧ p.externalID = q.externalID)
  addr     : ¬ (p.nodeID = q.nodeID ∧ p.allowedIP = q.allowedIP)
  key      : ¬ (p.nodeID = q.nodeID ∧ p.publicKey = q.publicKey)

-- How a row may change.
structure Grows (q p : Peer) : Prop where
  same    : q.identity = p.identity
  desired : q.desiredRevision ≤ p.desiredRevision
  applied : q.appliedRevision ≤ p.appliedRevision
  revoked : q.state = .revoked → p.state = .revoked

section

variable {p q r : Peer} {rows : List Peer}

theorem Apart.symm (h : Apart p q) : Apart q p where
  id       := h.id.symm
  external := fun ⟨h₁, h₂⟩ => h.external ⟨h₁.symm, h₂.symm⟩
  addr     := fun ⟨h₁, h₂⟩ => h.addr ⟨h₁.symm, h₂.symm⟩
  key      := fun ⟨h₁, h₂⟩ => h.key ⟨h₁.symm, h₂.symm⟩

instance : Std.Symm Apart where
  symm _ _ := Apart.symm

-- Whether two rows are apart depends on their identities only.
theorem Apart.congr {p' q' : Peer} (h : Apart p q) (hp : p.identity = p'.identity)
    (hq : q.identity = q'.identity) : Apart p' q' := by
  simp only [identity, Identity.mk.injEq] at hp hq
  obtain ⟨hp₁, hp₂, hp₃, -, hp₄, -, hp₅, -, hp₆⟩ := hp
  obtain ⟨hq₁, hq₂, hq₃, -, hq₄, -, hq₅, -, hq₆⟩ := hq
  exact ⟨hp₁ ▸ hq₁ ▸ h.id, hp₂ ▸ hp₄ ▸ hq₂ ▸ hq₄ ▸ h.external,
    hp₃ ▸ hp₆ ▸ hq₃ ▸ hq₆ ▸ h.addr, hp₃ ▸ hp₅ ▸ hq₃ ▸ hq₅ ▸ h.key⟩

theorem pairwise_apart_congr {rows' : List Peer} (h : rows.Pairwise Apart)
    (hm : rows'.map identity = rows.map identity) : rows'.Pairwise Apart := by
  induction rows generalizing rows'
  case nil => simp_all
  case cons p rows ih =>
    cases rows'
    case nil => simp
    case cons p' rows' =>
      simp only [List.map_cons, List.cons.injEq] at hm
      refine List.pairwise_cons.mpr ⟨fun q' hq' => ?_, ih (List.pairwise_cons.mp h).2 hm.2⟩
      have := hm.2 ▸ List.mem_map_of_mem (f := identity) hq'
      obtain ⟨q, hq, hqq⟩ := List.mem_map.mp this
      exact ((List.pairwise_cons.mp h).1 q hq).congr hm.1.symm hqq

-- A row is determined by its id.
theorem eq_of_id (h : rows.Pairwise Apart) (hp : p ∈ rows) (hq : q ∈ rows) (hi : p.id = q.id) :
    p = q := by
  by_contra hne
  exact (h.forall hp hq hne).id hi

theorem eq_of_publicKey (h : rows.Pairwise Apart) (hp : p ∈ rows) (hq : q ∈ rows)
    (hn : p.nodeID = q.nodeID) (hk : p.publicKey = q.publicKey) : p = q := by
  by_contra hne
  exact (h.forall hp hq hne).key ⟨hn, hk⟩

theorem Grows.refl (p : Peer) : Grows p p :=
  ⟨rfl, le_refl _, le_refl _, fun h => h⟩

theorem Grows.trans (h₁ : Grows p q) (h₂ : Grows q r) : Grows p r :=
  ⟨h₁.same.trans h₂.same, h₁.desired.trans h₂.desired, h₁.applied.trans h₂.applied,
    h₂.revoked ∘ h₁.revoked⟩

theorem Grows.id (h : Grows q p) : q.id = p.id :=
  congrArg Identity.id h.same

theorem Grows.nodeID (h : Grows q p) : q.nodeID = p.nodeID :=
  congrArg Identity.nodeID h.same

theorem Grows.publicKey (h : Grows q p) : q.publicKey = p.publicKey :=
  congrArg Identity.publicKey h.same

theorem grows_revoked (q : Peer) (at_ now : Time) : Grows q (Stmt.revoked q at_ now) :=
  ⟨rfl, by simp [Stmt.revoked], by simp [Stmt.revoked], fun _ => rfl⟩

theorem grows_applied (q : Peer) (revision : Int) (now : Time) :
    Grows q (Stmt.applied q revision now) :=
  ⟨rfl, by simp [Stmt.applied], by simp [Stmt.applied], fun h => by simp [Stmt.applied, h]⟩

theorem applied_revoked_iff {revision : Int} {now : Time} :
    (Stmt.applied q revision now).state = .revoked ↔ q.state = .revoked := by
  cases h : q.state <;> simp [Stmt.applied, h]

end
end Domain.Peer

namespace ControlPlane

open Domain.Peer

variable {C : ControlPlane} {G : Guard} {w₀ w w' : World} {τ : List Ev} {pid q : Nat} {φ ψ : Local}
  {e : Eff} {r : Except Err e.Answer} {db db' : DB} {k : Kind} {p : Peer}

-- A row that a transaction has written but not committed: a new one, or a new version of one. Workers
-- do not revoke peers.
inductive PendingPeer (db : DB) (k : Kind) (p : Peer) : Prop
  | insert : k.Inserts → (∀ q ∈ db.peers, Apart q p) → PendingPeer db k p
  | update {q : Peer} :
    ¬ k.Inserts → q ∈ db.peers → Grows q p → (k.IsWorker → p.state = .revoked → q.state = .revoked) →
    PendingPeer db k p

-- What a process knows of the peers that it has written.
structure PeerLocal (db : DB) (φ : Local) : Prop where
  pending : ∀ {p}, .peer p ∈ φ.writes → PendingPeer db φ.kind p
  single  : ¬ φ.kind.IsWorker → (peersOf φ.writes).length ≤ 1

theorem PendingPeer.frame (h : PendingPeer db k p) (hn : ∀ q ∈ db'.peers, q ∈ db.peers ∨ Apart q p)
    (hk : ∀ q ∈ db.peers, q.id = p.id → q ∈ db'.peers) : PendingPeer db' k p := by
  cases h
  case insert hw ha       => exact .insert hw fun q hq => (hn q hq).elim (ha q) id
  case update q hw hq g u => exact .update hw (hk q hq g.id) g u

theorem PeerLocal.of_writes (h : PeerLocal db φ) (hk : ψ.kind = φ.kind)
    (hw : ψ.writes = φ.writes ∨ ψ.writes = []) (hp : db'.peers = db.peers) : PeerLocal db' ψ := by
  rcases hw with hw | hw
  case inl =>
    refine ⟨fun {p} hm => ?_, fun hn => hw ▸ h.single (hk ▸ hn)⟩
    rw [hk]
    exact (h.pending (hw ▸ hm)).frame (fun q hq => .inl (hp ▸ hq)) (fun q hq _ => hp ▸ hq)
  case inr => exact ⟨by simp [hw], by simp [hw, peersOf]⟩

-- The locks that the rows of two transactions have keep them apart.
theorem ActStep.apart (h : ActStep C G w₀ τ w pid φ e r w') (hq : q ≠ pid)
    (hψ : C.locals τ q = some ψ) {p p' : Peer} (hp : .peer p ∈ φ.writes) (hp' : .peer p' ∈ ψ.writes) :
    Apart p p' where
  id hi := h.disjoint hq hψ hp hp' (l := .peer p.id) (by simp [Write.locks])
    (by simp [Write.locks, hi])
  external := fun ⟨h₁, h₂⟩ => h.disjoint hq hψ hp hp' (l := .peerExternal p.tenantID p.externalID)
    (by simp [Write.locks]) (by simp [Write.locks, h₁, h₂])
  addr := fun ⟨h₁, h₂⟩ => h.disjoint hq hψ hp hp' (l := .peerAddr p.nodeID p.allowedIP)
    (by simp [Write.locks]) (by simp [Write.locks, h₁, h₂])
  key := fun ⟨h₁, h₂⟩ => h.disjoint hq hψ hp hp' (l := .peerKey p.nodeID p.publicKey)
    (by simp [Write.locks]) (by simp [Write.locks, h₁, h₂])

section View

theorem mem_view_peers (h : p ∈ (φ.view db).peers) : p ∈ db.peers ∨ .peer p ∈ φ.writes := by
  rw [Local.view, replay_peers] at h
  simpa using mem_foldl_upsert h

theorem view_peers_of_none (h : peersOf φ.writes = []) : (φ.view db).peers = db.peers := by
  rw [Local.view, replay_peers, h]
  rfl

-- Every row that is there stays there, perhaps as a new version.
theorem exists_view_peer (ha : db.peers.Pairwise Apart) (h : PeerLocal db φ) {p : Peer}
    (hp : p ∈ db.peers) : ∃ p' ∈ (φ.view db).peers, Grows p p' := by
  rw [Local.view, replay_peers]
  have hex : ∃ p' ∈ (peersOf φ.writes).foldl (upsert Peer.id) db.peers,
      p'.id = p.id ∧ (p' = p ∨ p' ∈ peersOf φ.writes) := exists_mem_foldl_upsert hp
  obtain ⟨p', hp', hi, h'⟩ := hex
  refine ⟨p', hp', ?_⟩
  rcases h' with rfl | h'
  · exact .refl _
  · cases h.pending (mem_peersOf.mp h')
    case insert hn         => exact absurd hi.symm (hn p hp).id
    case update q _ hq g _ =>
      obtain rfl := eq_of_id ha hq hp (g.id.trans hi)
      exact g

-- A transaction either inserts one row or replaces rows.
theorem view_peers (ha : db.peers.Pairwise Apart) (h : PeerLocal db φ) :
    (∃ p, peersOf φ.writes = [p] ∧ φ.kind.Inserts ∧ (∀ q ∈ db.peers, Apart q p) ∧
      (φ.view db).peers = db.peers ++ [p]) ∨
    ((∀ p ∈ peersOf φ.writes, ¬ φ.kind.Inserts ∧ ∃ q ∈ db.peers, Grows q p ∧
        (φ.kind.IsWorker → p.state = .revoked → q.state = .revoked)) ∧
      (φ.view db).peers.map identity = db.peers.map identity) := by
  by_cases hi : ∃ p ∈ peersOf φ.writes, φ.kind.Inserts ∧ ∀ q ∈ db.peers, Apart q p
  case pos =>
    obtain ⟨p, hp, hw, hn⟩ := hi
    have hs : peersOf φ.writes = [p] := by
      have hlen := h.single (φ.kind.not_isWorker hw)
      generalize peersOf φ.writes = ps at hp hlen
      rcases ps with _ | ⟨x, _ | ⟨y, ps⟩⟩
      · simp at hp
      · simpa [eq_comm] using hp
      · simp at hlen
    refine .inl ⟨p, hs, hw, hn, ?_⟩
    rw [Local.view, replay_peers, hs]
    exact upsert_of_new fun q hq => (hn q hq).id
  case neg =>
    have hu : ∀ p ∈ peersOf φ.writes, ¬ φ.kind.Inserts ∧ ∃ q ∈ db.peers, Grows q p ∧
        (φ.kind.IsWorker → p.state = .revoked → q.state = .revoked) := by
      intro p hp
      cases h.pending (mem_peersOf.mp hp)
      case insert hw hn       => exact absurd ⟨p, hp, hw, hn⟩ hi
      case update q hw hq g u => exact ⟨hw, q, hq, g, u⟩
    refine .inr ⟨hu, ?_⟩
    rw [Local.view, replay_peers]
    refine map_foldl_upsert (congrArg Identity.id) (fun hq hr hk => ?_) fun p hp => ?_
    · rw [eq_of_id ha hq hr hk]
    · obtain ⟨_, q, hq, g, _⟩ := hu p hp
      exact ⟨q, hq, g.same⟩

end View

section Statements

variable {s : Stmt} {a : s.Answer} {now : Time} {id : UUID} {t : TxLocal}

-- The statements that write peers.
inductive WritesPeer (db : DB) (now : Time) : Stmt → Peer → Prop
  | insert {ps addr id} :
    (∀ q ∈ db.peers, Apart q (Stmt.newPeer ps addr id now)) →
    WritesPeer db now (.insertPeer ps addr) (Stmt.newPeer ps addr id now)
  | revoke {q at_} :
    q ∈ db.peers → WritesPeer db now (.markRevoked q.id at_) (Stmt.revoked q at_ now)
  | apply {q revision} :
    q ∈ db.peers → WritesPeer db now (.markApplied q.id revision) (Stmt.applied q revision now)

theorem writesPeer_of_eval (h : s.eval db now id = some (.ok a)) (hp : .peer p ∈ s.writes a) :
    WritesPeer db now s p := by
  cases s <;> simp only [Stmt.writes, List.mem_singleton, List.mem_map, Option.mem_toList,
    List.not_mem_nil, reduceCtorEq, Write.peer.injEq, exists_eq_right] at hp
  case insertPeer ps addr =>
    obtain ⟨hu, ht, ha⟩ := insert_ok h
    rw [hp, ha]
    refine .insert fun q hq => ?_
    simp only [List.any_eq_false, decide_eq_true_eq, not_or, not_and] at hu ht
    obtain ⟨h₁, h₂⟩ := ht q hq
    exact ⟨hu q hq, fun h => h₁ h.1 h.2, fun h => (h₂ h.1).1 h.2, fun h => (h₂ h.1).2 h.2⟩
  case markRevoked i at_ =>
    subst hp
    obtain ⟨q, hq, rfl, rfl⟩ := markRevoked_ok h
    exact .revoke hq
  case markApplied i revision =>
    subst hp
    simp only [Stmt.eval, Option.some.injEq, Except.ok.injEq, Option.map_eq_some_iff] at h
    obtain ⟨q, hq, rfl⟩ := h
    obtain rfl : q.id = i := by simpa using List.find?_some hq
    exact .apply (List.mem_of_find?_eq_some hq)

-- A row that a worker sees is a version of one that is committed.
theorem exists_grows_of_view (h : PeerLocal db φ) (hw : φ.kind.IsWorker)
    (hp : p ∈ (φ.view db).peers) :
    ∃ q ∈ db.peers, Grows q p ∧ (p.state = .revoked → q.state = .revoked) := by
  rcases mem_view_peers hp with hp | hp
  · exact ⟨p, hp, .refl p, fun h => h⟩
  · cases h.pending hp
    case insert hi _       => exact absurd hw (φ.kind.not_isWorker hi)
    case update q _ hq g u => exact ⟨q, hq, g, u hw⟩

theorem pendingPeer_of_writes (h : PeerLocal db φ) (ht : φ.tx = some t) (hs : AllowsStmt φ t s)
    (hp : WritesPeer (φ.view db) now s p) : PendingPeer db φ.kind p := by
  have hview (hn : peersOf t.writes = []) : (φ.view db).peers = db.peers :=
    view_peers_of_none (Local.writes_of_some ht ▸ hn)
  cases hp
  case insert ha =>
    have ⟨_, hw, hn, _⟩ := hs
    exact .insert hw (hview hn ▸ ha)
  case revoke q at_ hq =>
    have ⟨hw, hi, hn⟩ := hs
    exact .update hi (hview hn ▸ hq) (grows_revoked ..) fun h => absurd h hw
  case apply q revision hq =>
    have ⟨hw, _⟩ := hs
    have ⟨q₀, hq₀, g, u⟩ := exists_grows_of_view h hw hq
    exact .update (φ.kind.not_inserts hw) hq₀ (g.trans (grows_applied ..)) fun _ hr =>
      u (applied_revoked_iff.mp hr)

-- Only one statement of a transaction that is not a worker's writes a peer.
theorem PeerLocal.stmt (h : PeerLocal db φ) (ht : φ.tx = some t) (hs : AllowsStmt φ t s)
    (he : s.eval (φ.view db) now id = some (.ok a)) : PeerLocal db (φ.next (.stmt s) (.ok a)) := by
  have hwr := Local.writes_next_stmt (s := s) (a := a) ht
  constructor
  case pending =>
    intro p hp
    rw [hwr, List.mem_append] at hp
    rw [Local.kind_next]
    exact hp.elim h.pending fun hp => pendingPeer_of_writes h ht hs (writesPeer_of_eval he hp)
  case single =>
    intro hw
    rw [Local.kind_next] at hw
    have hlen := h.single hw
    rw [hwr, peersOf_append, List.length_append]
    rw [Local.writes_of_some ht] at *
    cases s
    case insertPeer  =>
      rw [hs.2.2.1]
      exact Nat.le_refl 1
    case markRevoked =>
      rw [hs.2.2]
      cases a
      case none   => exact Nat.zero_le 1
      case some _ => exact Nat.le_refl 1
    case markApplied => exact absurd hs.1 hw
    all_goals exact hlen

end Statements

-- Outside of commits the peers stay as they are.
theorem Change.peers (h : Change C φ w e r db') : db'.peers = w.db.peers ∨ db' = φ.view w.db := by
  cases h
  case commit         => exact .inr rfl
  case auto s _ _ _ _ => exact .inl (by rw [Auto.eval_frame])
  all_goals exact .inl rfl

-- The indices of the table hold, and every transaction keeps to them.
theorem peers_step (h : ActStep C G w₀ τ w pid φ e r w') (ha : w.db.peers.Pairwise Apart)
    (hl : ∀ q ψ, C.locals τ q = some ψ → PeerLocal w.db ψ) :
    w'.db.peers.Pairwise Apart ∧ PeerLocal w'.db (φ.next e r) ∧
    ∀ q ψ, q ≠ pid → C.locals τ q = some ψ → PeerLocal w'.db ψ := by
  have hφ := hl pid φ h.running
  have same (hp : w'.db.peers = w.db.peers)
      (hw : (φ.next e r).writes = φ.writes ∨ (φ.next e r).writes = []) :
      w'.db.peers.Pairwise Apart ∧ PeerLocal w'.db (φ.next e r) ∧
      ∀ q ψ, q ≠ pid → C.locals τ q = some ψ → PeerLocal w'.db ψ :=
    ⟨hp ▸ ha, hφ.of_writes Local.kind_next hw hp,
      fun q ψ _ hψ => (hl q ψ hψ).of_writes rfl (.inl rfl) hp⟩
  have hc := h.change
  generalize hdb : w'.db = db' at *
  cases hc
  case query => exact same rfl (.inl (by simp [Local.writes]))
  case stmt t s a now id ht hs he =>
    exact ⟨ha, hφ.stmt ht hs he, fun q ψ _ hψ => hl q ψ hψ⟩
  case auto s x ht _ _ =>
    exact same (by rw [Auto.eval_frame]) (.inl (by simp [Local.writes]))
  case aside hr => exact same rfl (Local.writes_next_aside hr)
  case commit t ht hc =>
    refine ⟨?_, ⟨by simp [Local.writes, Local.next], by simp [Local.writes, Local.next, peersOf]⟩, ?_⟩
    · rcases view_peers ha hφ with ⟨p, _, _, hn, hv⟩ | ⟨_, hm⟩
      · rw [hv, List.pairwise_append]
        exact ⟨ha, List.pairwise_singleton .., fun q hq x hx => List.mem_singleton.mp hx ▸ hn q hq⟩
      · exact pairwise_apart_congr ha hm
    · intro q ψ hq hψ
      refine ⟨fun {p} hp => ((hl q ψ hψ).pending hp).frame (fun x hx => ?_) (fun x hx hi => ?_),
        (hl q ψ hψ).single⟩
      · exact (mem_view_peers hx).imp_right fun hx => h.apart hq hψ hx hp
      · rw [Local.view, replay_peers]
        refine mem_foldl_upsert_of_ne hx fun y hy => ?_
        rw [hi]
        exact (h.apart hq hψ (mem_peersOf.mp hy) hp).id.symm

theorem peers_of_trace (h : C.Trace G w₀ τ w) (hq : Quiet w₀) (h₀ : w₀.db.peers.Pairwise Apart) :
    w.db.peers.Pairwise Apart ∧ ∀ q ψ, C.locals τ q = some ψ → PeerLocal w.db ψ := by
  refine trace_invariant (Q := fun _ w => w.db.peers.Pairwise Apart)
    (P := fun _ w _ ψ => PeerLocal w.db ψ) hq h h₀ ?idle ?new ?act
  case idle => exact fun hi => ⟨fun h => hi.db ▸ h, fun q ψ h => hi.db ▸ h⟩
  case new  => exact fun _ => ⟨by simp [Local.writes], by simp [Local.writes, peersOf]⟩
  case act  => exact fun hs ha hl => peers_step hs ha hl

-- No peer is lost or goes back.
theorem grows_step (h : ActStep C G w₀ τ w pid φ e r w') (ha : w.db.peers.Pairwise Apart)
    (hl : PeerLocal w.db φ) (hp : p ∈ w.db.peers) : ∃ p' ∈ w'.db.peers, Grows p p' := by
  rcases h.change.peers with he | he
  · exact ⟨p, he ▸ hp, .refl p⟩
  · exact he ▸ exists_view_peer ha hl hp

end ControlPlane
