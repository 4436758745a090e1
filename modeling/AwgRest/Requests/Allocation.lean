import AwgRest.Invariant.Addresses
import AwgRest.Requests.Answer

open Domain Netip Store Fallible Ipam Session

-- What `AllocateAndInsert` returns if no other transaction is open.
namespace Repo.Peers

variable {o : Oracle} {n : Nat} {w : World} {ws : List Write} {ps : InsertParams} {pool : AddressPool}
  {db : DB} {a b : Addr}

-- The addresses of the peers of a node that are not revoked.
def used (db : DB) (nodeID : UUID) : List Addr :=
  (db.peers.filter fun p => p.nodeID = nodeID ∧ p.state ≠ .revoked).map Peer.allowedIP

-- The only pool of the tenant and the node of a request.
def OnlyPool (db : DB) (ps : InsertParams) (pool : AddressPool) : Prop :=
  db.pools.filter (fun p => p.nodeID = ps.nodeID ∧ p.tenantID = ps.tenantID) = [pool]

-- The unique indexes of the table have a value of the new row already.
def taken (db : DB) (ps : InsertParams) (a : Addr) : Bool :=
  db.peers.any fun p =>
    (p.tenantID = ps.tenantID ∧ p.externalID = ps.externalID) ∨
    (p.nodeID = ps.nodeID ∧ (p.allowedIP = a ∨ p.publicKey = ps.publicKey))

-- The pool that a request locks: the first one of those of its tenant and its node.
def lockedPool (db : DB) (ps : InsertParams) : Option AddressPool :=
  ((db.pools.filter (fun p => p.nodeID = ps.nodeID ∧ p.tenantID = ps.tenantID)).insertionSort
    (fun p q => p.id ≤ q.id)).head?

theorem OnlyPool.locked (hp : OnlyPool db ps pool) : lockedPool db ps = some pool := by
  have hp' : db.pools.filter (fun p => p.nodeID = ps.nodeID ∧ p.tenantID = ps.tenantID) = [pool] := hp
  rw [lockedPool, hp']
  rfl

theorem eval_lockPool {now : Time} {id : UUID} :
    Stmt.eval db now id (.lockPool ps.nodeID ps.tenantID) = some (.ok (lockedPool db ps)) :=
  rfl

theorem eval_insertPeer {now : Time} {id : UUID} (hid : ∀ p ∈ db.peers, p.id ≠ id) :
    Stmt.eval db now id (.insertPeer ps a) =
      some (if taken db ps a then .error (.sentinel .uniqueViolation)
        else .ok (Stmt.newPeer ps a id now)) := by
  have hu : (db.peers.any fun p => p.id = id) = false := by simpa using hid
  have ht : Stmt.eval db now id (.insertPeer ps a) =
      Stmt.insert (db.peers.any fun p => p.id = id) (taken db ps a) (Stmt.newPeer ps a id now) := rfl
  rw [ht, hu]
  cases taken db ps a <;> rfl

-- The cursor is not a column of the peers.
theorem peers_view_cursor {id : UUID} {c : Option Addr} :
    (view ⟨w, some (ws ++ [.cursor id c])⟩).peers = (view ⟨w, some ws⟩).peers := by
  simp [view, Transactions.replay, Journal.apply, Write.apply]

theorem solo_allocateAndInsert (hp : lockedPool (view ⟨w, some ws⟩) ps = some pool)
    (hid : ∀ p ∈ (view ⟨w, some ws⟩).peers, p.id ≠ (o (n + 3)).id) :
    (allocateAndInsert ps).run.solo (step o) (n, ⟨w, some ws⟩) =
      match firstFree pool.cidr pool.cursor
        (reserved pool.cidr (used (view ⟨w, some ws⟩) ps.nodeID)) with
      | none =>
        if pool.cidr.hostBits < 31 then
          some (.error (.sentinel .ipPoolExhausted), n + 2, ⟨w, some ws⟩)
        else none
      | some a =>
        let moved := ws ++ [.cursor pool.id (hostSucc pool.cidr a)]
        if taken (view ⟨w, some ws⟩) ps a then
          some (.error (.sentinel .peerExists), n + 4, ⟨w, some moved⟩)
        else
          let peer := Stmt.newPeer ps a (o (n + 3)).id w.now
          some (.ok peer, n + 4, ⟨w, some (moved ++ [.peer peer])⟩) := by
  refine (solo_bind_ok <| solo_mapErr_ok <| solo_stmt_ok eval_lockPool).trans ?_
  rw [hp]
  refine (solo_bind_ok <| solo_mapErr_ok <| solo_query _).trans ?_
  simp only [Stmt.writes, List.append_nil, allocate_eq]
  generalize hu : Query.eval (view ⟨w, some ws⟩) w.now (.usedAddrs ps.nodeID) = held
  have hu : used (view ⟨w, some ws⟩) ps.nodeID = held := hu
  rw [hu]
  cases hf : firstFree pool.cidr pool.cursor (reserved pool.cidr held)
  case none =>
    simp only
    by_cases hb : pool.cidr.hostBits < 31
    · simp only [hb, if_true, solo_throw]
    · simp only [hb, if_false, solo_bind, solo_call]
      rfl
  case some a =>
    have hid' : ∀ p ∈ (view ⟨w, some (ws ++ [.cursor pool.id (hostSucc pool.cidr a)])⟩).peers,
        p.id ≠ (o (n + 3)).id := by
      rw [peers_view_cursor]
      exact hid
    have ht : taken (view ⟨w, some (ws ++ [.cursor pool.id (hostSucc pool.cidr a)])⟩) ps a =
        taken (view ⟨w, some ws⟩) ps a := by rw [taken, peers_view_cursor, taken]
    have hi : Stmt.eval _ w.now _ (.insertPeer ps a) = _ := eval_insertPeer hid'
    refine (solo_bind_ok <| solo_mapErr_ok <| solo_stmt_ok
      (s := .updateCursor (hostSucc pool.cidr a) pool.id) (a := ()) rfl).trans ?_
    rw [ht] at hi
    cases hn : taken (view ⟨w, some ws⟩) ps a <;> rw [hn] at hi
    case true  => exact (solo_mapErr_error (solo_stmt_error hi)).trans (by simp [hn, Err.sentinel])
    case false => exact (solo_mapErr_ok (solo_stmt_ok hi)).trans (by simp [hn, Stmt.writes])

-- An address of the pool that could be handed out: one that is not the gateway's and that no peer of
-- the node holds, unless it is revoked.
structure Free (db : DB) (pool : AddressPool) (a : Addr) : Prop where
  host    : IsHost pool.cidr a
  gateway : gatewayAddress pool.cidr ≠ some a
  unheld  : ∀ p ∈ db.peers, p.nodeID = pool.nodeID → p.state ≠ .revoked → p.allowedIP ≠ a

-- How far an address is from where the search begins.
def distance (pool : AddressPool) (a : Addr) : Nat :=
  (hosts pool.cidr).dist (start pool.cidr pool.cursor) a

theorem distance_inj (ha : IsHost pool.cidr a) (hb : IsHost pool.cidr b)
    (h : distance pool a = distance pool b) : a = b := by
  have hs := start_isHost pool.cidr pool.cursor
  rw [← (hosts pool.cidr).iterate_dist hs ha, ← (hosts pool.cidr).iterate_dist hs hb]
  exact congrArg (fun k => (hostSucc pool.cidr)^[k] _) h

-- Where only revoked peers of the node hold an address, the search meets another one first.
def Passes (db : DB) (pool : AddressPool) : Prop :=
  ∀ p ∈ db.peers, p.nodeID = pool.nodeID → p.state = .revoked → Free db pool p.allowedIP →
    ∃ b, Free db pool b ∧ distance pool b < distance pool p.allowedIP

-- Neither the identifier of the peer nor its key is in use.
def NewRequest (db : DB) (ps : InsertParams) : Prop :=
  ∀ p ∈ db.peers, ¬ (p.tenantID = ps.tenantID ∧ p.externalID = ps.externalID) ∧
    ¬ (p.nodeID = ps.nodeID ∧ p.publicKey = ps.publicKey)

theorem taken_iff (hnew : NewRequest db ps) :
    taken db ps a = true ↔ ∃ p ∈ db.peers, p.nodeID = ps.nodeID ∧ p.allowedIP = a := by
  simp only [taken, List.any_eq_true, decide_eq_true_eq]
  refine exists_congr fun p => and_congr_right fun hp => ?_
  have ⟨he, hk⟩ := hnew p hp
  constructor
  · rintro (h | ⟨hn, ha | h⟩)
    · exact absurd h he
    · exact ⟨hn, ha⟩
    · exact absurd ⟨hn, h⟩ hk
  · rintro ⟨hn, ha⟩
    exact .inr ⟨hn, .inl ha⟩

theorem free_iff : Free db pool a ↔
    IsHost pool.cidr a ∧ reserved pool.cidr (used db pool.nodeID) a = false := by
  have hr : reserved pool.cidr (used db pool.nodeID) a = false ↔
      a ∉ used db pool.nodeID ∧ gatewayAddress pool.cidr ≠ some a := by
    simp [reserved]
  rw [hr]
  simp only [used, List.mem_map, List.mem_filter, decide_eq_true_eq]
  constructor
  · rintro ⟨hh, hg, hu⟩
    refine ⟨hh, ?_, hg⟩
    rintro ⟨p, ⟨hp, hn, hs⟩, ha⟩
    exact hu p hp hn hs ha
  · rintro ⟨hh, hu, hg⟩
    exact ⟨hh, hg, fun p hp hn hs ha => hu ⟨p, ⟨hp, hn, hs⟩, ha⟩⟩

instance : Decidable (Free db pool a) :=
  have : Decidable (IsHost pool.cidr a) :=
    decidable_of_iff (a.family = pool.cidr.addr.family ∧ lo pool.cidr ≤ a.val ∧ a.val ≤ hi pool.cidr)
      ⟨fun h => ⟨h.1, h.2⟩, fun h => ⟨h.family, h.bounds⟩⟩
  decidable_of_iff _ free_iff.symm

instance : Decidable (NewRequest db ps) :=
  inferInstanceAs (Decidable (∀ p ∈ db.peers, ¬ (_ ∧ _) ∧ ¬ (_ ∧ _)))

-- The search, in terms of free addresses.

theorem firstFree_eq_none :
    firstFree pool.cidr pool.cursor (reserved pool.cidr (used db pool.nodeID)) = none ↔
      ∀ a, ¬ Free db pool a := by
  rw [firstFree_eq_none_iff]
  refine forall_congr' fun a => ?_
  rw [free_iff]
  cases reserved pool.cidr (used db pool.nodeID) a <;> simp

theorem firstFree_eq_some
    (h : firstFree pool.cidr pool.cursor (reserved pool.cidr (used db pool.nodeID)) = some a) :
    Free db pool a ∧ ∀ b, Free db pool b → b ≠ a → distance pool a < distance pool b := by
  obtain ⟨hh, hr, hmin⟩ := firstFree_eq_some_iff.mp h
  refine ⟨free_iff.mpr ⟨hh, hr⟩, fun b hb hne => ?_⟩
  refine Nat.lt_of_le_of_ne (Nat.le_of_not_lt fun hlt => ?_) fun he => ?_
  · have := hmin b hb.host hlt
    simp [(free_iff.mp hb).2] at this
  · exact hne (distance_inj hb.host hh he.symm)

-- The first address that the search meets is not one that a revoked peer holds.
theorem passes_iff
    (h : firstFree pool.cidr pool.cursor (reserved pool.cidr (used db pool.nodeID)) = some a) :
    Passes db pool ↔ ∀ p ∈ db.peers, p.nodeID = pool.nodeID → p.allowedIP ≠ a := by
  obtain ⟨hfree, hmin⟩ := firstFree_eq_some h
  constructor
  · rintro hp p hm hn rfl
    by_cases hs : p.state = .revoked
    · obtain ⟨b, hb, hlt⟩ := hp p hm hn hs hfree
      by_cases hba : b = p.allowedIP
      · exact absurd (hba ▸ hlt) (Nat.lt_irrefl _)
      · exact absurd (hmin b hb hba) (Nat.lt_asymm hlt)
    · exact hfree.unheld p hm hn hs rfl
  · intro hp p hm hn _ hf
    exact ⟨a, hfree, hmin _ hf (hp p hm hn)⟩

end Repo.Peers

namespace ControlPlane

open Repo.Peers

section Alone

variable {o : Oracle} {pid : Nat} {w : World} {ps : InsertParams} {pool : AddressPool} {a : Addr}

theorem answer_allocate (hq : Quiet w) (ho : o.Benign) (hp : OnlyPool w.db ps pool)
    (hid : ∀ n, ∀ p ∈ w.db.peers, p.id ≠ (o n).id) :
    answer o pid w (allocate ps true) =
      match firstFree pool.cidr pool.cursor (reserved pool.cidr (used w.db ps.nodeID)) with
      | none =>
        if pool.cidr.hostBits < 31 then some (.error (.sentinel .ipPoolExhausted), w.db) else none
      | some a =>
        if taken w.db ps a then some (.error (.sentinel .peerExists), w.db)
        else
          let peer := Stmt.newPeer ps a (o 4).id w.now
          some (.ok (.peer peer), Transactions.replay w.db
            [.cursor pool.id (hostSucc pool.cidr a), .peer peer]) := by
  have hv : view ⟨w, some []⟩ = w.db := rfl
  have hs := @solo_allocateAndInsert o 1 w [] ps pool (OnlyPool.locked hp) (hid 4)
  rw [answer_eq hq ho, allocate, solo_bind, solo_inTx, solo_bind, hs, hv]
  cases firstFree pool.cidr pool.cursor (reserved pool.cidr (used w.db ps.nodeID))
  case none =>
    simp only
    split <;> rfl
  case some a =>
    simp only
    split <;> rfl

-- What is stated of the answer to a request that is new: it only fails if there is no address.
structure FailsAsStated (db : DB) (pool : AddressPool)
    (r : Option (Except Err Result × DB)) : Prop where
  succeeds  : (∃ a, Free db pool a) →
    ∃ peer db', r = some (.ok (.peer peer), db') ∧ Free db pool peer.allowedIP ∧ peer ∈ db'.peers
  exhausted : (¬ ∃ a, Free db pool a) → r = some (.error (.sentinel .ipPoolExhausted), db)
  distinct  : ∀ db', r ≠ some (.error (.sentinel .peerExists), db')

theorem OnlyPool.nodeID (hp : OnlyPool w.db ps pool) : pool.nodeID = ps.nodeID := by
  have hm : pool ∈ w.db.pools.filter fun p => p.nodeID = ps.nodeID ∧ p.tenantID = ps.tenantID := by
    rw [show w.db.pools.filter _ = [pool] from hp]
    exact List.mem_singleton_self pool
  have := (List.mem_filter.mp hm).2
  exact (decide_eq_true_eq.mp this).1

theorem allocation_fails_as_stated_iff (hq : Quiet w) (ho : o.Benign) (hp : OnlyPool w.db ps pool)
    (hid : ∀ n, ∀ p ∈ w.db.peers, p.id ≠ (o n).id) (hnew : NewRequest w.db ps) :
    FailsAsStated w.db pool (answer o pid w (allocate ps true)) ↔
      Passes w.db pool ∧ ((∃ a, Free w.db pool a) ∨ pool.cidr.hostBits ≤ 30) := by
  rw [answer_allocate hq ho hp hid, ← OnlyPool.nodeID hp]
  cases hf : firstFree pool.cidr pool.cursor (reserved pool.cidr (used w.db pool.nodeID))
  case none =>
    have hno : ¬ ∃ a, Free w.db pool a := not_exists.mpr (firstFree_eq_none.mp hf)
    have hpass : Passes w.db pool := fun p _ _ _ hfree => absurd ⟨_, hfree⟩ hno
    by_cases hb : pool.cidr.hostBits < 31
    case pos =>
      simp only [hb, if_true]
      refine iff_of_true ⟨fun h => absurd h hno, fun _ => rfl, fun db' h => ?_⟩
        ⟨hpass, .inr (Nat.le_of_lt_succ hb)⟩
      simp [Err.sentinel] at h
    case neg =>
      simp only [hb, if_false]
      refine iff_of_false (fun h => ?_) fun h => ?_
      · cases h.exhausted hno
      · exact h.2.elim hno fun h => hb (Nat.lt_succ_of_le h)
  case some a =>
    have hfree := (firstFree_eq_some hf).1
    rw [passes_iff hf]
    simp only
    split
    case isTrue ht =>
      obtain ⟨p, hm, hn, ha⟩ := (taken_iff hnew).mp ht
      refine iff_of_false (fun h => h.distinct _ rfl) fun h => ?_
      exact h.1 p hm (hn.trans (OnlyPool.nodeID hp).symm) ha
    case isFalse ht =>
      refine iff_of_true ⟨fun _ => ?_, fun h => absurd ⟨a, hfree⟩ h, fun db' h => ?_⟩
        ⟨fun p hm hn ha => ?_, .inl ⟨a, hfree⟩⟩
      · exact ⟨_, _, rfl, hfree, mem_upsert_self⟩
      · cases h
      · exact ht ((taken_iff hnew).mpr ⟨p, hm, hn.trans (OnlyPool.nodeID hp), ha⟩)

end Alone

namespace Sample

def address (n : Nat) (h : 10 * 2 ^ 24 + n < 2 ^ 32 := by decide) : Addr :=
  ⟨.v4, 10 * 2 ^ 24 + n, h⟩

-- A pool with one address besides that of the gateway.
def smallPool : AddressPool :=
  { pool with cidr := ⟨pool.cidr.addr, 30, by decide⟩ }

def small : World :=
  { world with db := { world.db with pools := [smallPool] } }

-- The first of the addresses is held by a revoked peer, and the cursor is behind it.
def revoked : Peer :=
  { Stmt.newPeer (params "x" "a") (address 2) 10 0 with state := .revoked }

def latePool : AddressPool :=
  { pool with cursor := address 3 }

def late : World :=
  { world with db := { world.db with pools := [latePool], peers := [revoked] } }

end Sample

theorem allocation_fails_as_stated_late :
    Passes Sample.late.db Sample.latePool ∧
    FailsAsStated Sample.late.db Sample.latePool
      (answer (fun _ => { id := 11 }) 0 Sample.late (allocate (Sample.params "y" "b") true)) := by
  have hfree : Free Sample.late.db Sample.latePool (Sample.address 3) := by
    decide +kernel
  have hp : Passes Sample.late.db Sample.latePool := by
    intro p hp _ _ _
    obtain rfl := List.mem_singleton.mp hp
    exact ⟨_, hfree, by decide +kernel⟩
  have hid : ∀ p ∈ Sample.late.db.peers, p.id ≠ (11 : UUID) := by decide
  refine ⟨hp, (allocation_fails_as_stated_iff ⟨fun _ => rfl, rfl⟩ (fun _ => rfl) ?_ (fun _ => hid) ?_).mpr
    ⟨hp, .inl ⟨_, hfree⟩⟩⟩
  · rfl
  · decide

-- The only address is free again after the revocation, but the row of the revoked peer still has it.
theorem revoked_peer_blocks_address :
    ∃ τ c, Sample.plane.Runs unguarded Sample.small τ c ∧
      returned τ 2 = some (.error (.sentinel .peerExists)) ∧
      NewRequest c.world.db (Sample.params "y" "b") ∧
      ∃ pool ∈ c.world.db.pools, Free c.world.db pool (Sample.address 2) := by
  have h : ((Sample.plane.system.playAll (boot Sample.small)
      (Sample.insert 0 (Sample.params "x" "a") 10 ++ Sample.withdraw 1 10 ++
        Sample.insert 2 (Sample.params "y" "b") 11)).map fun r => decide (
      returned r.1 2 = some (.error (.sentinel .peerExists)) ∧
      NewRequest r.2.world.db (Sample.params "y" "b") ∧
      ∃ pool ∈ r.2.world.db.pools, Free r.2.world.db pool (Sample.address 2))) = some true := by
    decide +kernel
  obtain ⟨⟨τ, c⟩, hp, hs⟩ := Option.map_eq_some_iff.mp h
  exact ⟨τ, c, System.playAll_run hp, of_decide_eq_true hs⟩

end ControlPlane
