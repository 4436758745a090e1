import AwgRest.Requests.Outcome

open Domain Netip Store Repo Auth

-- Idempotency keys whose record has expired.

namespace Store.DB

-- The database in which nothing was ever recorded for a key.
def forget (db : DB) (tenantID : UUID) (key : String) : DB :=
  { db with records := db.records.filter fun r => ¬ (r.tenantID = tenantID ∧ r.key = key) }

-- There is a record for the key, and it has expired.
structure Expired (db : DB) (now : Time) (tenantID : UUID) (key : String) : Prop where
  stored : ∃ r ∈ db.records, r.tenantID = tenantID ∧ r.key = key
  past   : ∀ r ∈ db.records, r.tenantID = tenantID → r.key = key → r.expiresAt ≤ now

variable {db : DB} {now : Time} {t : UUID} {k : String}

theorem Expired.lookup (h : db.Expired now t k) : Query.eval db now (.lookup t k) = none := by
  refine List.find?_eq_none.mpr fun r hr => ?_
  simp only [decide_eq_true_eq, not_and, Int.not_lt]
  exact h.past r hr

theorem forget_lookup : Query.eval (db.forget t k) now (.lookup t k) = none := by
  refine List.find?_eq_none.mpr fun r hr => ?_
  have hn := (List.mem_filter.mp hr).2
  simp only [decide_eq_true_eq] at hn ⊢
  exact fun hx => hn ⟨hx.1, hx.2.1⟩

theorem Expired.any (h : db.Expired now t k) :
    db.records.any (fun r => r.tenantID = t ∧ r.key = k) = true := by
  obtain ⟨r, hr, ht, hk⟩ := h.stored
  exact List.any_eq_true.mpr ⟨r, hr, by simp [ht, hk]⟩

theorem forget_any : (db.forget t k).records.any (fun r => r.tenantID = t ∧ r.key = k) = false := by
  refine List.any_eq_false.mpr fun r hr => ?_
  have hn := (List.mem_filter.mp hr).2
  simpa [imp_iff_not_or] using hn

end Store.DB

namespace Api.Service

variable (s : Service) (db : DB) (caller : Option Principal) (slug key : String)

-- A request for a peer that passes the checks before its transaction, and for which there is an
-- address, such that no row of the table `peers` has a value of it that has to be unique.
def Acceptable (req : CreatePeerRequest) (d : Drawn) : Prop :=
  ∃ t n pr pool a, s.admission db caller slug key req = .ok (t, n, pr) ∧
    Peers.lockedPool db (draftParams req t n pr d) = some pool ∧
    Ipam.firstFree pool.cidr pool.cursor (Peers.reserved pool.cidr (Peers.used db n.id)) = some a ∧
    Peers.taken db (draftParams req t n pr d) a = false

-- A revocation of a peer of the caller's tenant.
def Revocable (peerID : String) : Prop :=
  ∃ t pid q, s.admitRevoke caller slug key peerID db = .ok (t, pid) ∧
    db.peers.find? (·.id = pid) = some q ∧ q.tenantID = t.id

variable {s db caller slug key} {now : Time} {t : Tenant}

-- Nothing before the insert of the record depends on the records.

theorem createTx_expired {req : CreatePeerRequest} {n : Node} {pr : ProtocolProfile} {d : Drawn}
    (h : db.Expired now t.id key) :
    s.createTx slug key req db now t n pr d =
      (Peers.allocation db (draftParams req t n pr d)).map fun
        | .error e => (.error e, [])
        | .ok _    => (.error (.sentinel .uniqueViolation), []) := by
  rw [createTx, h.lookup]
  simp only [h.any, if_true]
  rcases Peers.allocation db (draftParams req t n pr d) with _ | _ | _ <;> rfl

theorem createTx_forget {req : CreatePeerRequest} {n : Node} {pr : ProtocolProfile} {d : Drawn} :
    s.createTx slug key req (db.forget t.id key) now t n pr d =
      (Peers.allocation db (draftParams req t n pr d)).map fun
        | .error e      => (.error e, [])
        | .ok (pool, a) => (.ok (s.draftResponse slug req now t n pr d a, statusAccepted),
          s.draftWrites slug key req now t n pr d a pool) := by
  rw [createTx, DB.forget_lookup]
  have ha : Peers.allocation (db.forget t.id key) (draftParams req t n pr d) =
      Peers.allocation db (draftParams req t n pr d) := rfl
  simp only [DB.forget_any, Bool.false_eq_true, if_false, ha]
  rcases Peers.allocation db (draftParams req t n pr d) with _ | _ | _ <;> rfl

theorem allocation_ok_iff {ps : InsertParams} {pool : AddressPool} {a : Addr} :
    Peers.allocation db ps = some (.ok (pool, a)) ↔ Peers.lockedPool db ps = some pool ∧
      Ipam.firstFree pool.cidr pool.cursor (Peers.reserved pool.cidr (Peers.used db ps.nodeID)) = some a ∧
      Peers.taken db ps a = false := by
  unfold Peers.allocation
  constructor
  case mp =>
    intro h
    split at h
    case h_1 => cases h
    split at h
    case h_1 => split at h <;> cases h
    case h_2 hp _ a' hf =>
    split at h <;> cases h
    case isFalse ht => exact ⟨hp, hf, Bool.eq_false_iff.mpr ht⟩
  case mpr =>
    rintro ⟨hp, hf, ht⟩
    simp only [hp, hf, ht, Bool.false_eq_true, if_false]

-- A request with an expired key is refused as it would be with a new one, or it is refused only
-- because of the record.
theorem create_expired {req : CreatePeerRequest} {d : Drawn}
    (ht : db.tenants.find? (·.slug = slug) = some t) (hx : db.Expired now t.id key) :
    (¬ s.Acceptable db caller slug key req d ∧
      s.create caller slug key req db now d =
        s.create caller slug key req (db.forget t.id key) now d) ∨
    (s.Acceptable db caller slug key req d ∧ ∃ a ws,
      s.create caller slug key req db now d = some (.error (.sentinel .uniqueViolation), []) ∧
      s.create caller slug key req (db.forget t.id key) now d = some (.ok a, ws)) := by
  have hadm : s.admission (db.forget t.id key) caller slug key req =
      s.admission db caller slug key req := rfl
  unfold create
  rw [hadm]
  cases ha : s.admission db caller slug key req
  case error e =>
    refine .inl ⟨?_, rfl⟩
    rintro ⟨t', n, pr, pool, a, h, _⟩
    cases ha.symm.trans h
  case ok x =>
    obtain ⟨t', n, pr⟩ := x
    obtain rfl := Option.some.inj ((admit_ok_iff.mp ha).tenant.symm.trans ht)
    simp only [createTx_expired hx, createTx_forget]
    rcases hal : Peers.allocation db (draftParams req t' n pr d) with _ | e | ⟨pool, a⟩
    case some.ok =>
      obtain ⟨hp, hf, htk⟩ := allocation_ok_iff.mp hal
      exact .inr ⟨⟨t', n, pr, pool, a, ha, hp, hf, htk⟩, _, _, rfl, rfl⟩
    all_goals
      refine .inl ⟨?_, rfl⟩
      rintro ⟨t'', n', pr', pool, a, h, hp⟩
      cases ha.symm.trans h
      cases hal.symm.trans (allocation_ok_iff.mpr hp)

theorem revoke_expired {peerID reason : String} {d : RevokeDrawn}
    (ht : db.tenants.find? (·.slug = slug) = some t) (hx : db.Expired now t.id key) :
    (¬ s.Revocable db caller slug key peerID ∧
      s.revoke caller slug key peerID reason db now d =
        s.revoke caller slug key peerID reason (db.forget t.id key) now d) ∨
    (s.Revocable db caller slug key peerID ∧ ∃ a ws,
      s.revoke caller slug key peerID reason db now d =
        some (.error (.sentinel .uniqueViolation), []) ∧
      s.revoke caller slug key peerID reason (db.forget t.id key) now d = some (.ok a, ws)) := by
  have hadm : s.admitRevoke caller slug key peerID (db.forget t.id key) =
      s.admitRevoke caller slug key peerID db := rfl
  have hpeers : (db.forget t.id key).peers = db.peers := rfl
  unfold revoke
  rw [hadm]
  cases ha : s.admitRevoke caller slug key peerID db
  case error e =>
    refine .inl ⟨?_, rfl⟩
    rintro ⟨t', pid, q, h, _⟩
    cases ha.symm.trans h
  case ok x =>
    obtain ⟨t', pid⟩ := x
    obtain rfl := Option.some.inj ((admitRevoke_ok ha).1.symm.trans ht)
    simp only [revokeTx, hx.lookup, DB.forget_lookup, hpeers, hx.any, DB.forget_any]
    cases hq : db.peers.find? (·.id = pid)
    case none =>
      refine .inl ⟨?_, rfl⟩
      rintro ⟨t'', pid', q, h, h', _⟩
      cases ha.symm.trans h
      cases hq.symm.trans h'
    case some q =>
      by_cases hqt : q.tenantID = t'.id
      · exact .inr ⟨⟨t', pid, q, ha, hq, hqt⟩, _, _, by simp [hqt], by simp [hqt]; exact ⟨rfl, rfl⟩⟩
      · refine .inl ⟨?_, by simp [hqt]⟩
        rintro ⟨t'', pid', q', h, h', h''⟩
        cases ha.symm.trans h
        cases hq.symm.trans h'
        exact hqt h''

end Api.Service

namespace ControlPlane

-- Two answers that are the same, and that leave the same rows behind.
def SameOutcome {α : Type} (db db' : DB) (x y : Option (Except Err α × DB)) : Prop :=
  x = none ∧ y = none ∨
  ∃ r ws, x = some (r, Transactions.replay db ws) ∧ y = some (r, Transactions.replay db' ws)

section Expiry

variable {α : Type} {db db' : DB} {x y : Option (Except Err α × List Write)} {P : Prop}

theorem sameOutcome_iff
    (h : (¬ P ∧ x = y) ∨ (P ∧ ∃ a ws, x = some (.error (.sentinel .uniqueViolation), []) ∧
      y = some (.ok a, ws))) :
    SameOutcome db db' (x.map fun (r, ws) => (r, Transactions.replay db ws))
      (y.map fun (r, ws) => (r, Transactions.replay db' ws)) ↔ ¬ P := by
  rcases h with ⟨hp, rfl⟩ | ⟨hp, a, ws, rfl, rfl⟩
  case inl =>
    refine iff_of_true ?_ hp
    cases x
    case none   => exact .inl ⟨rfl, rfl⟩
    case some x => exact .inr ⟨x.1, x.2, rfl, rfl⟩
  case inr =>
    refine iff_of_false ?_ (not_not_intro hp)
    rintro (⟨h, _⟩ | ⟨r, ws', h₁, h₂⟩)
    · cases h
    · obtain ⟨rfl, _⟩ := Prod.mk.inj (Option.some.inj h₁)
      cases (Prod.mk.inj (Option.some.inj h₂)).1

end Expiry

variable {o : Oracle} {pid : Nat} {w : World} {s : Api.Service} {caller : Option Principal}
  {slug key : String} {t : Tenant}

-- A key whose record has expired is as good as a new one for requests that are refused anyway.
theorem expired_key_as_new_iff (hq : Quiet w) (ho : o.Benign)
    (ht : w.db.tenants.find? (·.slug = slug) = some t) (hx : w.db.Expired w.now t.id key) :
    (∀ {req}, (Api.Service.drawn req o 5).Fresh w.db →
      (SameOutcome w.db (w.db.forget t.id key) (answer o pid w (s.createPeer caller slug key req))
        (answer o pid { w with db := w.db.forget t.id key } (s.createPeer caller slug key req)) ↔
      ¬ s.Acceptable w.db caller slug key req (Api.Service.drawn req o 5))) ∧
    ∀ {peerID reason}, (Api.Service.revokeDrawn o 3).Fresh w.db →
      (SameOutcome w.db (w.db.forget t.id key)
        (answer o pid w (s.revokePeer caller slug peerID key reason))
        (answer o pid { w with db := w.db.forget t.id key } (s.revokePeer caller slug peerID key reason)) ↔
      ¬ s.Revocable w.db caller slug key peerID) := by
  have hq' : Quiet { w with db := w.db.forget t.id key } := ⟨hq.txs, hq.locks⟩
  refine ⟨fun {req} hf => ?_, fun {peerID reason} hf => ?_⟩
  · have hf' : (Api.Service.drawn req o 5).Fresh (w.db.forget t.id key) :=
      ⟨hf.peer, hf.operation, hf.job⟩
    rw [answer_createPeer s caller slug key req hq ho hf,
      answer_createPeer s caller slug key req hq' ho hf']
    exact sameOutcome_iff (Api.Service.create_expired ht hx)
  · have hf' : (Api.Service.revokeDrawn o 3).Fresh (w.db.forget t.id key) := ⟨hf.operation, hf.job⟩
    rw [answer_revokePeer s caller slug key peerID reason hq ho hf,
      answer_revokePeer s caller slug key peerID reason hq' ho hf']
    exact sameOutcome_iff (Api.Service.revoke_expired ht hx)

namespace Sample

-- What the first request with a key has left behind.
def oldRecord : Record where
  tenantID       := 4
  key            := "k"
  requestHash    := "x"
  operationID    := none
  responseStatus := 202
  responseBody   := .revoked ""
  expiresAt      := 0

def stale : World :=
  { world with db := { world.db with records := [oldRecord] } }

end Sample

theorem expired_key_as_new_refused :
    SameOutcome Sample.stale.db (Sample.stale.db.forget 4 "k")
      (answer (fun _ => { id := 11 }) 0 Sample.stale
        (Sample.plane.service.createPeer Sample.admin "t" "k" { externalID := "x", nodeID := some "?" }))
      (answer (fun _ => { id := 11 }) 0 { Sample.stale with db := Sample.stale.db.forget 4 "k" }
        (Sample.plane.service.createPeer Sample.admin "t" "k"
          { externalID := "x", nodeID := some "?" })) := by
  have hx : Sample.stale.db.Expired Sample.stale.now 4 "k" :=
    ⟨⟨Sample.oldRecord, List.mem_singleton_self _, rfl, rfl⟩,
      fun r hr _ _ => by rw [List.mem_singleton.mp hr]; decide⟩
  have hf {req : Api.CreatePeerRequest} :
      (Api.Service.drawn req (fun _ => { id := 11 }) 5).Fresh Sample.stale.db :=
    ⟨by simp [Sample.stale, Sample.world], by simp [Sample.stale, Sample.world],
      by simp [Sample.stale, Sample.world]⟩
  refine ((expired_key_as_new_iff (t := ⟨4, "t"⟩) ⟨fun _ => rfl, rfl⟩ (fun _ => rfl) rfl hx).1 hf).mpr ?_
  rintro ⟨t, n, pr, pool, a, h, _⟩
  cases (Api.Service.admit_ok_iff.mp h).node

-- A request that comes back after its record has expired fails for good.
theorem expired_key_blocks_request :
    ∃ τ c, Sample.plane.Runs unguarded Sample.world τ c ∧ c.world.db.Expired c.world.now 4 "k" ∧
      ¬ SameOutcome c.world.db (c.world.db.forget 4 "k")
        (answer (fun _ => { id := 20, keyPair := ⟨"c", "d"⟩ }) 1 c.world
          (Sample.plane.service.createPeer Sample.admin "t" "k" { externalID := "y" }))
        (answer (fun _ => { id := 20, keyPair := ⟨"c", "d"⟩ }) 1
          { c.world with db := c.world.db.forget 4 "k" }
          (Sample.plane.service.createPeer Sample.admin "t" "k" { externalID := "y" })) := by
  have h : ((Sample.plane.system.playAll (boot Sample.world)
      (Sample.create 0 "k" "x" ⟨"a", "b"⟩ 10 11 12 ++ [.tick (24 * 3600 * 1000000)])).map fun r =>
        decide (
      (∃ x ∈ r.2.world.db.records, x.tenantID = 4 ∧ x.key = "k") ∧
      (∀ x ∈ r.2.world.db.records, x.tenantID = 4 → x.key = "k" → x.expiresAt ≤ r.2.world.now) ∧
      (answer (fun _ => { id := 20, keyPair := ⟨"c", "d"⟩ }) 1 r.2.world
        (Sample.plane.service.createPeer Sample.admin "t" "k" { externalID := "y" })).map (·.1.isOk) =
        some false ∧
      (answer (fun _ => { id := 20, keyPair := ⟨"c", "d"⟩ }) 1
        { r.2.world with db := r.2.world.db.forget 4 "k" }
        (Sample.plane.service.createPeer Sample.admin "t" "k" { externalID := "y" })).map (·.1.isOk) =
        some true)) = some true := by
    decide +kernel
  obtain ⟨⟨τ, c⟩, hp, hs⟩ := Option.map_eq_some_iff.mp h
  obtain ⟨h₁, h₂, hold, hnew⟩ := of_decide_eq_true hs
  refine ⟨τ, c, System.playAll_run hp, ⟨h₁, h₂⟩, ?_⟩
  rintro (⟨hn, _⟩ | ⟨r, ws, hr, hr'⟩)
  · rw [hn] at hold
    cases hold
  · rw [hr] at hold
    rw [hr'] at hnew
    cases hold.symm.trans hnew

end ControlPlane
