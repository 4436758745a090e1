import AwgRest.Discipline.Ordering
import AwgRest.Invariant.Runtime
import AwgRest.Lib.Waiting
import Mathlib.Data.Fintype.Card
import Mathlib.Data.String.Basic
import Mathlib.Data.Prod.Lex

open Domain Store

namespace Store

def Lock.level : Lock → Nat
  | advisory                                                      => 0
  | profile _ | profileName _                                     => 1
  | node _ | nodeHostname _                                       => 2
  | pool _ | poolCidr ..                                          => 3
  | peer _ | peerExternal .. | peerAddr .. | peerKey .. | runtime _ => 4
  | operation _                                                   => 5
  | job _                                                         => 6
  | record ..                                                     => 8

theorem Write.level_of_locks {x : Write} {l : Lock} (h : l ∈ Write.locks x) : l.level = x.level := by
  cases x <;> simp only [Write.locks, List.mem_cons, List.not_mem_nil, or_false] at h
  case peer                  => rcases h with rfl | rfl | rfl | rfl <;> rfl
  case profile | node | pool => rcases h with rfl | rfl <;> rfl
  all_goals subst h; rfl

theorem Stmt.level_of_needed {s : Stmt} {a : s.Answer} {l : Lock}
    (h : l ∈ Transactions.needed DB (s.extraLocks a) (s.writes a)) : l.level = s.level := by
  rcases List.mem_append.mp h with h | h
  · cases s <;> simp only [Stmt.extraLocks, List.mem_map, List.mem_singleton, List.not_mem_nil] at h
    case lockPool     => obtain ⟨p, _, rfl⟩ := h; rfl
    case advisoryLock => subst h; rfl
  · obtain ⟨x, hx, hl⟩ := List.mem_flatMap.mp h
    exact (Write.level_of_locks hl).trans (Stmt.level_of_writes hx)

end Store

namespace ControlPlane

open Domain.Peer

variable {C : ControlPlane} {G : Guard} {w₀ w w' : World} {τ : List Ev} {L : Nat → Option Local}
  {pid q : Nat}
  {φ ψ : Local} {e : Eff} {r : Except Err e.Answer} {l : Lock}

-- The locks of a transaction are those of its writes, that of the pool that it has locked, and
-- perhaps that of the provisioning of nodes.
inductive TxLocal.Has (t : TxLocal) : Lock → Prop
  | advisory : Has t .advisory
  | write {x l} : x ∈ t.writes → l ∈ Write.locks x → Has t l
  | pool {pool} : t.pool = some pool → Has t (.pool pool.id)

structure Holds (L : Nat → Option Local) (locks : List (Lock × Nat)) : Prop where
  has  : ∀ {l q}, (l, q) ∈ locks → ∃ ψ t, L q = some ψ ∧ ψ.tx = some t ∧ t.Has l
  pool : ∀ {q ψ t pool}, L q = some ψ → ψ.tx = some t → t.pool = some pool →
    (.pool pool.id, q) ∈ locks

namespace Holds

variable {locks : List (Lock × Nat)} {o : Option Local} {t t' : TxLocal} {ls : List Lock}

-- A process that is in no transaction has no locks.
theorem fresh (h : Holds L locks) (hn : (L pid).bind Local.tx = none)
    (ho : ∀ t ∈ o.bind Local.tx, t.pool = none) : Holds (Function.update L pid o) locks where
  has {l q} hl := by
    obtain ⟨ψ, t, hψ, ht, hh⟩ := h.has hl
    have hq : q ≠ pid := by
      rintro rfl
      simp [hψ, ht] at hn
    exact ⟨ψ, t, by rwa [Function.update_of_ne hq], ht, hh⟩
  pool {q ψ t pool} hψ ht hp := by
    by_cases hq : q = pid
    case pos =>
      subst hq
      rw [Function.update_self] at hψ
      rw [ho t (by simp [hψ, ht])] at hp
      cases hp
    case neg => exact h.pool (by rwa [Function.update_of_ne hq] at hψ) ht hp

-- A transaction that takes the locks `ls`.
theorem grow (h : Holds L locks) (hφ : L pid = some φ) (ht : φ.tx = some t) (hψ : ψ.tx = some t')
    (hold : ∀ l, t.Has l → t'.Has l) (hnew : ∀ l ∈ ls, t'.Has l)
    (hpool : ∀ pool, t'.pool = some pool → t.pool = some pool ∨ .pool pool.id ∈ ls) :
    Holds (Function.update L pid (some ψ)) (locks ++ ls.map (·, pid)) where
  has {l q} hl := by
    rcases List.mem_append.mp hl with hl | hl
    · obtain ⟨ψ', t₁, hψ', ht₁, hh⟩ := h.has hl
      by_cases hq : q = pid
      case pos =>
        subst hq
        cases hφ.symm.trans hψ'
        cases ht.symm.trans ht₁
        exact ⟨ψ, t', by simp, hψ, hold l hh⟩
      case neg => exact ⟨ψ', t₁, by rwa [Function.update_of_ne hq], ht₁, hh⟩
    · obtain ⟨l', hl', hq⟩ := List.mem_map.mp hl
      cases hq
      exact ⟨ψ, t', by simp, hψ, hnew l hl'⟩
  pool {q ψ' t₁ pool} hψ' ht₁ hp := by
    by_cases hq : q = pid
    case pos =>
      subst hq
      rw [Function.update_self] at hψ'
      cases hψ'
      cases hψ.symm.trans ht₁
      rcases hpool pool hp with hp | hp
      · exact List.mem_append_left _ (h.pool hφ ht hp)
      · exact List.mem_append_right _ (List.mem_map_of_mem hp)
    case neg => exact List.mem_append_left _ (h.pool (by rwa [Function.update_of_ne hq] at hψ') ht₁ hp)

theorem keep (h : Holds L locks) (hφ : L pid = some φ) (ht : ψ.tx = φ.tx) :
    Holds (Function.update L pid (some ψ)) locks := by
  cases hx : φ.tx
  case none   => exact h.fresh (by simp [hφ, hx]) (by simp [ht, hx])
  case some t =>
    have hg : Holds (Function.update L pid (some ψ)) (locks ++ ([] : List Lock).map (·, pid)) :=
      h.grow hφ hx (ht.trans hx) (fun _ => id) (by simp) fun _ => .inl
    simpa using hg

theorem ends (h : Holds L locks) (ho : o.bind Local.tx = none) :
    Holds (Function.update L pid o) (locks.filter (·.2 ≠ pid)) where
  has {l q} hl := by
    obtain ⟨hl, hq⟩ := List.mem_filter.mp hl
    obtain ⟨ψ, t, hψ, ht, hh⟩ := h.has hl
    exact ⟨ψ, t, by rwa [Function.update_of_ne (by simpa using hq)], ht, hh⟩
  pool {q ψ t pool} hψ ht hp := by
    by_cases hq : q = pid
    case pos =>
      subst hq
      rw [Function.update_self] at hψ
      simp [hψ, ht] at ho
    case neg =>
      refine List.mem_filter.mpr ⟨h.pool (by rwa [Function.update_of_ne hq] at hψ) ht hp, ?_⟩
      simpa using hq

theorem stmt {s : Stmt} {a : s.Answer} (h : Holds L locks) (hφ : L pid = some φ) (ht : φ.tx = some t)
    (hs : InOrder φ s) : Holds (Function.update L pid (some (φ.next (.stmt s) (.ok a))))
      (locks ++ (Transactions.needed DB (s.extraLocks a) (s.writes a)).map (·, pid)) := by
  by_cases hlock : ∃ n i, s = .lockPool n i
  case pos =>
    obtain ⟨n, i, rfl⟩ := hlock
    obtain ⟨t', ht', hw, hp⟩ := hs
    cases ht.symm.trans ht'
    have hnone : t.pool = none := by
      by_contra hne
      exact absurd (hp hne) (Nat.lt_irrefl 3)
    have hlocked : (φ.next (.stmt (.lockPool n i)) (.ok a)).tx = some { t with pool := a } := by
      simp [Local.next, Local.locked, ht]
    refine h.grow hφ ht hlocked ?_ ?_ ?_
    · intro l hl
      cases hl
      case advisory     => exact .advisory
      case write hx hl  => exact .write hx hl
      case pool pool hp => rw [hnone] at hp; cases hp
    · intro l hl
      obtain ⟨p, hp, rfl⟩ : ∃ p, a = some p ∧ Lock.pool p.id = l := by
        simpa [Transactions.needed, Stmt.extraLocks, Stmt.writes] using hl
      exact .pool hp
    · rintro pool hp
      obtain rfl : a = some pool := hp
      exact .inr (by simp [Transactions.needed, Stmt.extraLocks])
  case neg =>
    have hnext : (φ.next (.stmt s) (.ok a)).tx =
        some { t with writes := t.writes ++ s.writes a } := by
      cases s
      case lockPool => exact absurd ⟨_, _, rfl⟩ hlock
      all_goals simp [Local.next, Local.wrote, ht]
    refine h.grow hφ ht hnext ?_ ?_ fun _ => .inl
    · intro l hl
      cases hl
      case advisory     => exact .advisory
      case write hx hl  => exact .write (List.mem_append_left _ hx) hl
      case pool pool hp => exact .pool hp
    · intro l hl
      rcases List.mem_append.mp hl with hl | hl
      · cases s <;> simp only [Stmt.extraLocks, List.mem_singleton, List.not_mem_nil] at hl
        case lockPool     => exact absurd ⟨_, _, rfl⟩ hlock
        case advisoryLock => exact hl ▸ .advisory
      · obtain ⟨x, hx, hl⟩ := List.mem_flatMap.mp hl
        exact .write (List.mem_append_right _ hx) hl

end Holds

theorem Local.tx_next_failed (he : ¬ e.Unfailing) {x : Err} : (φ.next e (.error x)).tx = φ.tx := by
  cases e
  case query q               => cases q <;> rfl
  case stmt s                => cases s <;> rfl
  case auto s                => cases s <;> rfl
  case commit | rollback     => exact absurd trivial he
  all_goals rfl

theorem holds_act (h : Holds L w.locks) (hlink : Linked L w) (hφ : L pid = some φ)
    (ha : AllowsOrder φ e) (hx : World.Acts pid w e r w') :
    Holds (Function.update L pid (some (φ.next e r))) w'.locks := by
  cases hx
  case failed hu  => exact h.keep hφ (Local.tx_next_failed hu)
  case query      => exact h.keep hφ Local.tx_next_query
  case auto       => exact h.keep hφ Local.tx_next_auto
  case sync       => exact h.keep hφ rfl
  case up         => exact h.keep hφ rfl
  case create     => exact h.keep hφ rfl
  case silent hs  => exact h.keep hφ (Local.tx_silent hs)
  case commit     => exact h.ends rfl
  case lost       => exact h.ends rfl
  case rollback   => exact h.ends rfl
  case begin hn   =>
    have hnone : φ.tx = none := by simpa [hn, hφ] using hlink.txs pid
    refine h.fresh (by simp [hφ, hnone]) fun t ht => ?_
    cases ht
    rfl
  case stmt s tx id a htx he hf =>
    have hsome : ∃ t, φ.tx = some t := by
      have := hlink.txs pid
      rw [htx, hφ] at this
      obtain ⟨t, ht, _⟩ := Option.map_eq_some_iff.mp this.symm
      exact ⟨t, ht⟩
    obtain ⟨t, ht⟩ := hsome
    exact h.stmt hφ ht ha

theorem holds_of_trace (h : C.Trace C.lockOrder.Allowed w₀ τ w) (hq : Quiet w₀) :
    Holds (C.locals τ) w.locks := by
  induction h
  case nil => exact ⟨by simp [hq.locks], nofun⟩
  case spawn τ w pid k h hf hl _ ih =>
    rw [locals_spawn]
    exact ih.fresh (by simp [hl]) (by simp)
  case act τ w pid φ e r w' x h hl _ hx hg ih =>
    rw [locals_act hl]
    obtain ⟨φ', hφ', ha⟩ := hg rfl
    cases hl.symm.trans hφ'
    exact holds_act ih (linked_of_trace h hq) hl ha (World.acts_of_exec hx)
  case done τ w pid φ b h hl hp _ ih =>
    rw [locals_done]
    exact ih.fresh (by simp [hl, hp.1]) (by simp)
  case crash τ w pid φ h hl _ ih =>
    rw [locals_crash]
    exact ih.ends rfl
  case tick τ w d h _ ih =>
    rw [locals_tick]
    exact ih

-- The peers of a listing come in the order of their public keys.
def Local.Sorted (φ : Local) : Prop :=
  ∀ n rows, φ.listing = some (n, rows) → rows.Pairwise (·.publicKey < ·.publicKey)

theorem sorted_peersByNode {db : DB} {n : UUID} {now : Time} (ha : db.peers.Pairwise Apart) :
    ((Query.peersByNode n).eval db now).Pairwise (·.publicKey < ·.publicKey) := by
  have hperm : ((Query.peersByNode n).eval db now).Perm (db.peers.filter (·.nodeID = n)) :=
    List.perm_insertionSort _ _
  have hle : ((Query.peersByNode n).eval db now).Pairwise (·.publicKey ≤ ·.publicKey) :=
    haveI : Std.Total fun p q : Peer => p.publicKey ≤ q.publicKey :=
      ⟨fun p q => le_total p.publicKey q.publicKey⟩
    haveI : IsTrans Peer fun p q => p.publicKey ≤ q.publicKey := ⟨fun _ _ _ => le_trans⟩
    List.pairwise_insertionSort _ _
  have hapart : ((Query.peersByNode n).eval db now).Pairwise Apart :=
    (hperm.pairwise_iff fun h => Apart.symm h).mpr (ha.filter _)
  refine (hle.and hapart).imp_of_mem fun hp hq h => lt_of_le_of_ne h.1 fun hk => h.2.key ⟨?_, hk⟩
  exact (mem_peersByNode.mp hp).2.trans (mem_peersByNode.mp hq).2.symm

theorem sorted_of_trace (h : C.Trace G w₀ τ w) (hq : Quiet w₀) (h₀ : w₀.db.peers.Pairwise Apart) :
    ∀ q ψ, C.locals τ q = some ψ → ψ.Sorted := by
  refine (trace_invariant (Q := fun _ _ => True) (P := fun _ _ _ ψ => ψ.Sorted) hq h trivial
    ?idle ?new ?act).2
  case idle => exact fun _ => ⟨id, fun _ _ => id⟩
  case new  => exact fun _ _ _ => nofun
  case act  =>
    intro τ w pid φ e r w' hs _ hl
    refine ⟨trivial, ?_, fun q ψ _ hψ => hl q ψ hψ⟩
    have hφ := hl pid φ hs.running
    cases relists pid φ e r
    case list n rows =>
      have hc := hs.change
      generalize w'.db = db' at hc
      cases hc
      case query now hq' =>
        rw [Local.view_of_none hq'.1]
        intro n' rows' hr
        cases hr
        exact sorted_peersByNode (peers_of_trace hs.trace hq h₀).1
      case aside hr => cases hr; case silent hs => cases hs
    case sync            => exact hφ
    case drop hd _ _     => exact fun n rows hr => by simp [hd] at hr
    case keep hk _ _ _   => exact fun n rows hr => hφ n rows (hk ▸ hr)

-- The statement that the process executes next needs a lock that another process has.
def Waits (c : Conf) (pid q : Nat) : Prop :=
  ∃ s k tx id a l, c.procs pid = .running (.op (.stmt s) k) ∧ c.world.txs pid = some tx ∧
    s.eval (c.world.view pid) tx.start id = some (.ok a) ∧
    l ∈ Transactions.needed DB (s.extraLocks a) (s.writes a) ∧ (l, q) ∈ c.world.locks ∧ q ≠ pid

-- The process returns, or its next effect is answered even if nothing fails.
def GoesOn (c : Conf) (pid : Nat) : Prop :=
  (∃ b, c.procs pid = .running (.ret b)) ∨
  ∃ e k x r w, c.procs pid = .running (.op e k) ∧ x.fault = none ∧
    World.exec x pid c.world e = some (r, w)

-- The process is in the endless loop of the allocator.
def Loops (c : Conf) (pid : Nat) : Prop :=
  ∃ k, c.procs pid = .running (.op .diverge k)

-- There is an identifier left for each table.
structure Roomy (db : DB) : Prop where
  peers      : db.peers.length < 2 ^ 128
  operations : db.operations.length < 2 ^ 128
  outbox     : db.outbox.length < 2 ^ 128
  profiles   : db.profiles.length < 2 ^ 128
  nodes      : db.nodes.length < 2 ^ 128
  pools      : db.pools.length < 2 ^ 128

theorem exists_unused {α : Type} (rows : List α) (key : α → UUID) (h : rows.length < 2 ^ 128) :
    ∃ id, rows.any (key · = id) = false := by
  by_contra hall
  have hmem (i : Fin (2 ^ 128)) : i ∈ (rows.map fun r => (key r).toFin).toFinset := by
    have hused : rows.any (key · = BitVec.ofFin i) = true := by
      by_contra hne
      exact hall ⟨_, by simpa using hne⟩
    obtain ⟨r, hr, hk⟩ := List.any_eq_true.mp hused
    exact List.mem_toFinset.mpr (List.mem_map.mpr ⟨r, hr, by simp [of_decide_eq_true hk]⟩)
  have hcard : Fintype.card (Fin (2 ^ 128)) ≤ rows.length :=
    calc Fintype.card (Fin (2 ^ 128)) ≤ (rows.map fun r => (key r).toFin).toFinset.card :=
          Finset.card_le_card fun i _ => hmem i
      _ ≤ (rows.map fun r => (key r).toFin).length := List.toFinset_card_le _
      _ = rows.length := List.length_map _
  rw [Fintype.card_fin] at hcard
  exact absurd h (not_lt.mpr hcard)

-- A statement always has an answer for some identifier.
theorem exists_eval {db : DB} (h : Roomy db) (s : Stmt) (now : Time) :
    ∃ id r, s.eval db now id = some r := by
  have hinsert {α : Type} {used taken : Bool} {a : α} (hu : used = false) :
      ∃ r, Stmt.insert used taken a = some r := by
    subst hu
    cases taken
    · exact ⟨_, rfl⟩
    · exact ⟨_, rfl⟩
  cases s
  case insertPeer      => exact (exists_unused _ Peer.id h.peers).imp fun _ hu => hinsert hu
  case insertOperation => exact (exists_unused _ Operation.id h.operations).imp fun _ hu => hinsert hu
  case insertJob       => exact (exists_unused _ Job.id h.outbox).imp fun _ hu => hinsert hu
  case insertProfile   => exact (exists_unused _ ProtocolProfile.id h.profiles).imp fun _ hu => hinsert hu
  case insertNode      => exact (exists_unused _ Node.id h.nodes).imp fun _ hu => hinsert hu
  case insertPool      => exact (exists_unused _ AddressPool.id h.pools).imp fun _ hu => hinsert hu
  case storeRecord     => exact ⟨0, hinsert rfl⟩
  case updateCursor c _ => cases c <;> exact ⟨0, _, rfl⟩
  all_goals exact ⟨0, _, rfl⟩

-- The public key of a peer that is committed.
def keyOf (db : DB) (id : UUID) : String :=
  ((db.peers.find? (·.id = id)).map Peer.publicKey).getD ""

theorem keyOf_eq {db : DB} {p : Peer} (ha : db.peers.Pairwise Apart) (hp : p ∈ db.peers) :
    keyOf db p.id = p.publicKey := by
  have hsome : (db.peers.find? (·.id = p.id)).isSome := List.find?_isSome.mpr ⟨p, hp, by simp⟩
  obtain ⟨q, hq⟩ := Option.isSome_iff_exists.mp hsome
  have hi : q.id = p.id := by simpa using List.find?_some hq
  rw [keyOf, hq, eq_of_id ha (List.mem_of_find?_eq_some hq) hp hi]
  rfl

-- The order in which locks are taken: by table, and within the tables of the peers by public key.
def place (db : DB) : Stmt → String ×ₗ Nat
  | .upsertRuntime i _ _ => toLex (keyOf db i, 0)
  | .markApplied i _     => toLex (keyOf db i, 1)
  | .markRevoked i _     => toLex (keyOf db i, 1)
  | _                    => toLex ("", 0)

-- What is known of the processes and of the world after a run.
structure Known (L : Nat → Option Local) (w : World) : Prop where
  linked : Linked L w
  holds  : Holds L w.locks
  apart  : w.db.peers.Pairwise Apart
  peers  : ∀ {q ψ}, L q = some ψ → PeerLocal w.db ψ
  listed : ∀ {q ψ n rows p}, L q = some ψ → ψ.listing = some (n, rows) → p ∈ rows →
    ∃ p' ∈ w.db.peers, Grows p p'
  sorted : ∀ {q ψ}, L q = some ψ → ψ.Sorted
  worker : ∀ {q ψ}, L q = some ψ → ψ.listing ≠ none → ψ.kind.IsWorker

-- A process whose next statement `s` waits for the lock `l` of the process `q`.
structure Blocked (L : Nat → Option Local) (w : World) (pid : Nat) (s : Stmt) (l : Lock)
    (q : Nat) : Prop where
  stmt : ∃ φ t now id a, L pid = some φ ∧ φ.tx = some t ∧ AllowsStmt φ t s ∧ InOrder φ s ∧
    s.eval (φ.view w.db) now id = some (.ok a) ∧
      l ∈ Transactions.needed DB (s.extraLocks a) (s.writes a)
  lock : (l, q) ∈ w.locks
  ne   : q ≠ pid

section Places

variable {s s' : Stmt} {l' : Lock} {q' : Nat} {x : Write} {t : TxLocal}

theorem not_apart_of_locks {p p' : Peer} (h : l ∈ Write.locks (.peer p))
    (h' : l ∈ Write.locks (.peer p')) :
    ¬ Apart p p' := by
  intro ha
  simp only [Write.locks, List.mem_cons, List.not_mem_nil, or_false] at h h'
  rcases h with rfl | rfl | rfl | rfl <;>
    simp only [reduceCtorEq, Lock.peer.injEq, Lock.peerExternal.injEq, Lock.peerAddr.injEq,
      Lock.peerKey.injEq,
      or_false, false_or] at h'
  · exact ha.id h'
  · exact ha.external h'
  · exact ha.addr h'
  · exact ha.key h'

theorem Blocked.level (h : Blocked L w pid s l q) : l.level = s.level := by
  obtain ⟨φ, t, now, id, a, -, -, -, -, -, hl⟩ := h.stmt
  exact Stmt.level_of_needed hl

-- Who waits for the runtime of a peer wants to write it.
theorem Blocked.runtime {i : UUID} (h : Blocked L w pid s (.runtime i) q) :
    place w.db s = toLex (keyOf w.db i, 0) := by
  obtain ⟨φ, t, now, id, a, -, -, -, -, he, hl⟩ := h.stmt
  cases s
  case upsertRuntime j b stats =>
    cases he
    obtain rfl : i = j := by
      simpa [Transactions.needed, Stmt.extraLocks, Stmt.writes, Journal.locks, Write.locks,
      Stmt.newRuntime] using hl
    rfl
  all_goals
    simp [Transactions.needed, Stmt.extraLocks, Stmt.writes, Journal.locks, Write.locks] at hl

-- A lock of a peer is needed for writing a peer only.
theorem peer_of_needed {p : Peer} {a : s.Answer} (hl : l ∈ Write.locks (.peer p))
    (h : l ∈ Transactions.needed DB (s.extraLocks a) (s.writes a)) :
    ∃ p', .peer p' ∈ s.writes a ∧ l ∈ Write.locks (.peer p') := by
  rcases List.mem_append.mp h with h | h
  · exfalso
    have hlevel : l.level = 4 := Write.level_of_locks hl
    cases s <;> simp only [Stmt.extraLocks, List.mem_map, List.mem_singleton, List.not_mem_nil] at h
    case lockPool     => obtain ⟨pool, -, rfl⟩ := h; cases hlevel
    case advisoryLock => subst h; cases hlevel
  · obtain ⟨x, hx, hx'⟩ := List.mem_flatMap.mp h
    have hlevel : x.level = 4 := (Write.level_of_locks hx').symm.trans (Write.level_of_locks hl)
    cases x
    case peer p'   => exact ⟨p', hx, hx'⟩
    case runtime r =>
      obtain rfl : l = .runtime r.peerID := List.mem_singleton.mp hx'
      simp [Write.locks] at hl
    all_goals cases hlevel

-- Who waits for a worker that has written a peer wants to write that peer: the worker does not
-- insert peers, and no peer is inserted in the place of another one.
theorem Blocked.peer {p : Peer} (h : Blocked L w pid s l q) (hk : Known L w) (hψ : L q = some ψ)
    (hw : ψ.kind.IsWorker) (hp : .peer p ∈ ψ.writes) (hl : l ∈ Write.locks (.peer p)) :
    place w.db s = toLex (keyOf w.db p.id, 1) := by
  obtain ⟨φ, t, now, id, a, hφ, ht, hs, -, he, hn⟩ := h.stmt
  obtain ⟨p', hp', hl'⟩ := peer_of_needed hl hn
  have hwrites := writesPeer_of_eval he hp'
  cases (hk.peers hψ).pending hp
  case insert hi _       => exact absurd hw (ψ.kind.not_isWorker hi)
  case update p₀ _ hp₀ g _ =>
  cases pendingPeer_of_writes (hk.peers hφ) ht hs hwrites
  case insert _ ha =>
    exact absurd ((ha p₀ hp₀).congr g.same rfl) (not_apart_of_locks hl hl')
  case update p₁ hi hp₁ g' _ =>
    have heq : p₀ = p₁ := by
      by_contra hne
      exact not_apart_of_locks hl hl' ((hk.apart.forall hp₀ hp₁ hne).congr g.same g'.same)
    have hid : p'.id = p.id := (g'.id.symm.trans (heq ▸ g.id))
    cases hwrites
    case insert         => exact absurd hs.2.1 hi
    case revoke p₂ at_ _ => exact congrArg (fun i => toLex (keyOf w.db i, 1)) hid
    case apply p₂ _ _   => exact congrArg (fun i => toLex (keyOf w.db i, 1)) hid

theorem Blocked.has (h : Blocked L w pid s l q) (hk : Known L w) (hψ : L q = some ψ)
    (ht : ψ.tx = some t) :
    t.Has l := by
  obtain ⟨ψ', t', hψ', ht', hl⟩ := hk.holds.has h.lock
  cases hψ.symm.trans hψ'
  cases ht.symm.trans ht'
  exact hl

-- A process does not wait for a lock that it has.
theorem Blocked.not_own (h : Blocked L w pid s l q) (hk : Known L w) : (l, pid) ∉ w.locks :=
  fun hl => h.ne (hk.linked.orderly.exclusive h.lock hl)

-- Who waits for a process that has written to the earlier tables only.
theorem Blocked.lt_of_below (h : Blocked L w pid s l q) (hq : Blocked L w q s' l' q') (hk : Known L w)
    (hψ : L q = some ψ) (hb : ψ.Below s'.level) : s.level < s'.level := by
  obtain ⟨t, ht, hw, hp⟩ := hb
  have hhas := h.has hk hψ ht
  rw [← h.level]
  cases hhas
  case write x hx hl => exact Write.level_of_locks hl ▸ hw x hx
  case pool pool hpl => exact hp (by simp [hpl])
  case advisory      =>
    refine Nat.pos_of_ne_zero fun hz => ?_
    have hl' : l' = .advisory := by
      obtain ⟨φ, t, now, id, a, -, -, -, -, -, hl'⟩ := hq.stmt
      cases s'
      case advisoryLock => simpa [Transactions.needed, Stmt.extraLocks, Stmt.writes] using hl'
      all_goals cases hz
    exact hq.not_own hk (hl' ▸ h.lock)

-- Who waits for a worker that has come to the peer `p` of its listing waits for a peer before it,
-- or for a row of `p` that the worker has written already.
theorem Blocked.lt_of_walks {before rest : List Peer} {p : Peer} {other : Write → Prop} {k : Nat}
    (h : Blocked L w pid s l q) (hk : Known L w) (hψ : L q = some ψ)
    (hb : ψ.Walks before (p :: rest) other)
    (ho : ∀ x, other x → 0 < k ∧ ∃ r, x = .runtime r ∧ r.peerID = p.id) :
    s.level < 4 ∨ s.level = 4 ∧ place w.db s < toLex (keyOf w.db p.id, k) := by
  obtain ⟨n, t, hlist, ht, hpool, hwrites⟩ := hb
  have hhas := h.has hk hψ ht
  rw [← h.level]
  cases hhas
  case advisory      => exact .inl (by decide)
  case pool pool hpl => rw [hpool] at hpl; cases hpl
  case write x hx hl =>
    rcases hwrites x hx with ⟨z, hz, hxz⟩ | hother
    · -- The listing is in the order of the public keys, which do not change.
      have hlt : keyOf w.db z.id < keyOf w.db p.id := by
        obtain ⟨z', hz', gz⟩ := hk.listed hψ hlist (List.mem_append_left _ hz)
        obtain ⟨p', hp', gp⟩ := hk.listed hψ hlist (List.mem_append_right _ List.mem_cons_self)
        rw [gz.id, gp.id, keyOf_eq hk.apart hz', keyOf_eq hk.apart hp', ← gz.publicKey,
          ← gp.publicKey]
        exact (List.pairwise_append.mp (hk.sorted hψ _ _ hlist)).2.2 z hz p List.mem_cons_self
      have hbefore (j : Nat) : toLex (keyOf w.db z.id, j) < toLex (keyOf w.db p.id, k) :=
        Prod.Lex.toLex_lt_toLex.mpr (.inl hlt)
      refine .inr ⟨Write.level_of_locks hl |>.trans ?_, ?_⟩
      · cases x <;> first | rfl | cases hxz
      · cases x <;> simp only [Write.about, Option.some.injEq, reduceCtorEq] at hxz
        case runtime r =>
          obtain rfl : l = .runtime r.peerID := List.mem_singleton.mp hl
          rw [h.runtime, hxz]
          exact hbefore 0
        case peer y =>
          have hw := hk.worker hψ (by simp [hlist])
          rw [h.peer hk hψ hw (Local.writes_of_some ht ▸ hx) hl, hxz]
          exact hbefore 1
    · obtain ⟨hpos, r, rfl, hr⟩ := ho x hother
      obtain rfl : l = .runtime r.peerID := List.mem_singleton.mp hl
      refine .inr ⟨rfl, ?_⟩
      rw [h.runtime, hr]
      exact Prod.Lex.toLex_lt_toLex.mpr (.inr ⟨rfl, hpos⟩)

def rank (db : DB) (s : Stmt) : Nat ×ₗ String ×ₗ Nat :=
  toLex (s.level, place db s)

-- Locks are taken in the order of their ranks.
theorem Blocked.rank_lt (h : Blocked L w pid s l q) (hq : Blocked L w q s' l' q') (hk : Known L w) :
    rank w.db s < rank w.db s' := by
  obtain ⟨ψ, t, now, id, a, hψ, ht, hs, ho, -, hl'⟩ := hq.stmt
  have of_level (hlt : s.level < s'.level) : rank w.db s < rank w.db s' :=
    Prod.Lex.toLex_lt_toLex.mpr (.inl hlt)
  have of_walks (hlt : s.level < s'.level ∨ s.level = s'.level ∧ place w.db s < place w.db s') :
      rank w.db s < rank w.db s' := Prod.Lex.toLex_lt_toLex.mpr hlt
  cases s'
  case updateCursor c i =>
    -- The pool is locked by the process itself.
    obtain ⟨t', pool, ht', hpl, rfl⟩ := ho
    obtain rfl : l' = .pool pool.id := by
      simpa [Transactions.needed, Stmt.extraLocks, Stmt.writes, Journal.locks, Write.locks] using hl'
    exact absurd (hk.holds.pool hψ ht' hpl) (hq.not_own hk)
  case upsertRuntime i b stats =>
    obtain ⟨before, p, rest, rfl, hb⟩ := ho
    exact of_walks (h.lt_of_walks hk hψ hb fun _ => False.elim)
  case markApplied i revision =>
    obtain ⟨before, p, rest, rfl, hb⟩ := ho
    exact of_walks (h.lt_of_walks hk hψ hb fun x hx => ⟨Nat.one_pos, hx⟩)
  all_goals exact of_level (h.lt_of_below hq hk hψ ho)

end Places

theorem known_of_run {c : Conf} (h : C.Runs unguarded w₀ τ c) (hq : Quiet w₀)
    (h₀ : w₀.db.peers.Pairwise Apart) :
    Known (C.locals τ) c.world := by
  have hr : C.Runs C.lockOrder.Allowed w₀ τ c :=
    (System.Discipline.run_allowed C.lockOrder h fun _ => rfl).weaken fun _ _ _ hg => hg.2
  have ht := hr.trace
  exact
    { linked := linked_of_trace ht hq
      holds  := holds_of_trace ht hq
      apart  := (peers_of_trace ht hq h₀).1
      peers  := (peers_of_trace ht hq h₀).2 _ _
      listed := fun hψ hl hp => ((listed_of_trace ht hq h₀ _ _ hψ).rows hl hp).2
      sorted := sorted_of_trace ht hq h₀ _ _
      worker := fun hψ => (surveyed_of_trace ht hq h₀ _ _ hψ).worker }

-- What the programs may do next, in the words of both protocols.
theorem allowed_of_run {c : Conf} {k : Except Err e.Answer → Prog _ (Except Err Result)}
    (h : C.Runs unguarded w₀ τ c) (hp : c.procs pid = .running (.op e k)) :
    ∃ φ, C.locals τ pid = some φ ∧ Allows C φ e ∧ AllowsOrder φ e := by
  obtain ⟨φ, hφ, hf⟩ : C.discipline.Agrees τ pid (.running (.op e k)) :=
    hp ▸ System.Discipline.agrees_run h (fun _ => rfl) pid
  obtain ⟨φ', hφ', hf'⟩ : C.lockOrder.Agrees τ pid (.running (.op e k)) :=
    hp ▸ System.Discipline.agrees_run h (fun _ => rfl) pid
  cases hφ.symm.trans hφ'
  exact ⟨φ, hφ, hf.1, hf'.1⟩

theorem blocked_of_waits {c : Conf} (h : C.Runs unguarded w₀ τ c) (hk : Known (C.locals τ) c.world)
    (hw : Waits c pid q) :
    ∃ s k l, c.procs pid = .running (.op (.stmt s) k) ∧ Blocked (C.locals τ) c.world pid s l q := by
  obtain ⟨s, k, tx, id, a, l, hp, htx, he, hl, hlock, hne⟩ := hw
  obtain ⟨φ, hφ, ⟨t, ht, hs⟩, ho⟩ := allowed_of_run h hp
  rw [hk.linked.view hφ] at he
  exact ⟨s, k, l, hp, ⟨φ, t, _, id, a, hφ, ht, hs, ho, he, hl⟩, hlock, hne⟩

theorem Linked.exists_tx {t : TxLocal} (h : Linked L w) (hφ : L pid = some φ) (ht : φ.tx = some t) :
    ∃ tx, w.txs pid = some tx := by
  have htxs := h.txs pid
  simp only [hφ, Option.bind_some, ht, Option.map_some] at htxs
  obtain ⟨tx, htx, _⟩ := Option.map_eq_some_iff.mp htxs
  exact ⟨tx, htx⟩

-- A process that runs can go on unless it waits for a lock.
theorem goesOn_or_waits {c : Conf} {p : Prog (fun e : Eff => Except Err e.Answer) (Except Err Result)}
    (h : C.Runs unguarded w₀ τ c) (hk : Known (C.locals τ) c.world) (hroom : Roomy (c.world.view pid))
    (hp : c.procs pid = .running p) : GoesOn c pid ∨ Loops c pid ∨ ∃ q, Waits c pid q := by
  rcases p with b | ⟨e, k⟩
  case ret => exact .inl (.inl ⟨b, hp⟩)
  have of_exec (x : Choice) (hf : x.fault = none) (hx : (World.exec x pid c.world e).isSome) :
      GoesOn c pid ∨ Loops c pid ∨ ∃ q, Waits c pid q := by
    obtain ⟨⟨r, w⟩, hx⟩ := Option.isSome_iff_exists.mp hx
    exact .inl (.inr ⟨e, k, x, r, w, hp, hf, hx⟩)
  obtain ⟨φ, hφ, ha, -⟩ := allowed_of_run h hp
  cases e
  case diverge => exact .inr (.inl ⟨k, hp⟩)
  case stmt s  =>
    obtain ⟨t, ht, -⟩ := ha
    obtain ⟨tx, htx⟩ := hk.linked.exists_tx hφ ht
    obtain ⟨id, r, he⟩ := exists_eval hroom s tx.start
    rcases r with x | a
    · exact of_exec { id := id } rfl (by simp [World.exec, htx, he])
    · by_cases hf : ∀ l ∈ Transactions.needed DB (s.extraLocks a) (s.writes a), c.world.Free pid l
      case pos => exact of_exec { id := id } rfl (by simpa [World.exec, htx, he] using hf)
      case neg =>
        simp only [Transactions.Free, not_forall] at hf
        obtain ⟨l, hl, ⟨l', q⟩, hlock, rfl, hne⟩ := hf
        exact .inr (.inr ⟨q, s, k, tx, id, a, l', hp, htx, he, hl, hlock, hne⟩)
  case begin   =>
    have htx : c.world.txs pid = none := by
      simpa [hφ, show φ.tx = none from ha] using hk.linked.txs pid
    exact of_exec {} rfl (by simp [World.exec, htx])
  case commit  =>
    obtain ⟨t, ht, -⟩ := ha
    obtain ⟨tx, htx⟩ := hk.linked.exists_tx hφ ht
    exact of_exec {} rfl (by simp [World.exec, htx])
  case syncConf iface conf =>
    cases hr : c.world.runtime iface <;> exact of_exec {} rfl (by simp [World.exec, hr])
  case showConf iface =>
    cases hr : c.world.runtime iface <;> exact of_exec {} rfl (by simp [World.exec, hr])
  case showDump iface =>
    cases hr : c.world.runtime iface <;> exact of_exec {} rfl (by simp [World.exec, hr])
  case interfaceUp iface path =>
    cases hr : c.world.runtime iface <;> exact of_exec {} rfl (by simp [World.exec, hr])
  all_goals exact of_exec {} rfl rfl

-- The rank of the statement that a process is to execute.
def rankOf (c : Conf) (pid : Nat) : Nat ×ₗ String ×ₗ Nat :=
  match c.procs pid with
  | .running (.op (.stmt s) _) => rank c.world.db s
  | _                          => toLex (0, toLex ("", 0))

-- Whatever happens, there is no deadlock: every process that runs can go on, or it waits, perhaps
-- for processes that wait themselves, for one that can go on, unless that one is in the endless
-- loop of the allocator.
theorem no_deadlock {c : Conf} {p : Prog (fun e : Eff => Except Err e.Answer) (Except Err Result)}
    (h : C.Runs unguarded w₀ τ c) (hq : Quiet w₀) (h₀ : w₀.db.peers.Pairwise Apart)
    (hroom : ∀ pid p, c.procs pid = .running p → Roomy (c.world.view pid))
    (hp : c.procs pid = .running p) :
    ∃ q, Relation.ReflTransGen (Waits c) pid q ∧ (GoesOn c q ∨ Loops c q) := by
  have hk := known_of_run h hq h₀
  have hfin : {b | ∃ a, Waits c a b}.Finite := by
    refine (List.finite_toSet (c.world.locks.map Prod.snd)).subset fun b ⟨a, hw⟩ => ?_
    obtain ⟨s, k, tx, id, x, l, -, -, -, -, hl, -⟩ := hw
    exact List.mem_map.mpr ⟨_, hl, rfl⟩
  have hrank {a b d : Nat} (hab : Waits c a b) (hbd : Waits c b d) : rankOf c a < rankOf c b := by
    obtain ⟨s, k, l, hs, hbl⟩ := blocked_of_waits h hk hab
    obtain ⟨s', k', l', hs', hbl'⟩ := blocked_of_waits h hk hbd
    simp only [rankOf, hs, hs']
    exact hbl.rank_lt hbl' hk
  obtain ⟨q, hreach, hq'⟩ := Waiting.exists_not_waiting hfin hrank pid
  -- The process at the end of the chain runs, since it is the first one, or has a lock.
  have hrun : ∃ p, c.procs q = .running p := by
    rcases Relation.ReflTransGen.cases_tail hreach with rfl | ⟨a, -, hw⟩
    · exact ⟨p, hp⟩
    · obtain ⟨s, k, tx, id, x, l, -, -, -, -, hl, -⟩ := hw
      obtain ⟨ψ, t, hψ, -⟩ := hk.holds.has hl
      have ha : C.discipline.Agrees τ q (c.procs q) := System.Discipline.agrees_run h (fun _ => rfl) q
      cases hs : c.procs q
      case running p => exact ⟨p, rfl⟩
      case unused    => rw [hs] at ha; cases hψ.symm.trans ha.1
      case ended     => rw [hs] at ha; cases hψ.symm.trans ha
  obtain ⟨p', hp'⟩ := hrun
  rcases goesOn_or_waits h hk (hroom q p' hp') hp' with hg | hd | ⟨r, hr⟩
  · exact ⟨q, hreach, .inl hg⟩
  · exact ⟨q, hreach, .inr hd⟩
  · exact absurd hr (hq' r)

-- Of two processes that need a lock of the same pool one waits for the other.
theorem no_deadlock_sample :
    ∃ τ c, Sample.plane.Runs unguarded Sample.world τ c ∧ Waits c 1 0 ∧
      ∃ q, Relation.ReflTransGen (Waits c) 1 q ∧ (GoesOn c q ∨ Loops c q) := by
  let moves := .spawn 0 (.allocate (Sample.params "x" "a") true) :: Sample.steps 0 2 ++
    .spawn 1 (.allocate (Sample.params "y" "b") true) :: Sample.steps 1 1
  obtain ⟨τ, c, hplay, hc⟩ : ∃ τ c, Sample.plane.system.playAll (boot Sample.world) moves = some (τ, c) ∧
      c = ((Sample.plane.system.playAll (boot Sample.world) moves).get (by decide)).2 :=
        ⟨_, _, rfl, rfl⟩
  have hrun : Sample.plane.Runs unguarded Sample.world τ c := System.playAll_run hplay
  have hw : Waits c 1 0 := by
    subst hc
    exact ⟨.lockPool 2 4, _, _, 0, _, .pool 3, rfl, rfl, rfl, by decide, by decide, by decide⟩
  have hroom (pid p) (hp : c.procs pid = .running p) : Roomy (c.world.view pid) := by
    subst hc
    rcases pid with _ | _ | pid
    · exact ⟨by decide, by decide, by decide, by decide, by decide, by decide⟩
    · exact ⟨by decide, by decide, by decide, by decide, by decide, by decide⟩
    · cases (hp : Slot.unused = .running p)
  obtain ⟨s, k, -, -, -, -, hp, -⟩ := id hw
  exact ⟨τ, c, hrun, hw, no_deadlock hrun ⟨fun _ => rfl, rfl⟩ .nil hroom hp⟩

end ControlPlane
