import AwgRest.Requests.Allocation

open Domain Netip Store Fallible Repo Session Auth

-- `CreatePeer` and `RevokePeer` as functions of the database, where no other process runs.

namespace Store

variable {S α β γ : Type} {h : Handler S} {v : S} {db : DB} {now : Time} {d : Nat} {k : β → Act α}

-- The program makes checks with the result `x`, and goes on with `k` if they succeed. It has
-- performed `d` effects by then, and it changes nothing.
def Checks (h : Handler S) (v : S) (d : Nat) (p : Act α) (k : β → Act α) : Except Err β → Prop
  | .error e => Reads h v p (.error e)
  | .ok b    => ∀ n, p.run.solo h (n, v) = (k b).run.solo h (n + d, v)

theorem checks_throw (e : Err) : Checks h v d (throw e) k (.error e) :=
  reads_throw e

theorem checks_query {q : Query} {f : q.Answer → Act α} {x : Except Err β} (hl : Looks h v db now)
    (hf : Checks h v d (f (q.eval db now)) k x) : Checks h v (d + 1) (query q >>= f) k x := by
  cases x
  case error e => exact reads_query hl hf
  case ok b    =>
    intro n
    rw [solo_bind_ok (hl.solo n q), hf (n + 1), Nat.add_assoc, Nat.add_comm 1]

theorem checks_bind {e : Nat} {p : Act γ} {f : γ → Act α} {x : Except Err γ} {g : γ → Except Err β}
    (hp : Checks h v e p pure x) (hf : ∀ c, Checks h v d (f c) k (g c)) :
    Checks h v (d + e) (p >>= f) k (x >>= g) := by
  cases x
  case error _ =>
    intro n
    obtain ⟨m, hm⟩ := hp n
    exact ⟨m, solo_bind_error hm⟩
  case ok c =>
    have hc := hf c
    rw [ok_bind]
    cases hg : g c <;> rw [hg] at hc
    case error _ =>
      intro n
      obtain ⟨m, hm⟩ := hc (n + e)
      exact ⟨m, (solo_bind_ok (hp n)).trans hm⟩
    case ok b =>
      intro n
      rw [solo_bind_ok (hp n), hc (n + e), Nat.add_assoc, Nat.add_comm e]

theorem checks_row (a : Option β) : Checks h v 0 (row a) pure (rowOf a) := by
  cases a
  case none   => exact checks_throw _
  case some a => exact fun _ => rfl

theorem checks_check (x : Except Err β) : Checks h v 0 (check x) pure x := by
  cases x
  case error e => exact checks_throw e
  case ok a    => exact fun _ => rfl

end Store

namespace Repo.Peers

variable {o : Oracle} {n : Nat} {w : World} {ws : List Write} {ps : InsertParams}

-- The address that a new peer gets, and the pool that it is from.
def allocation (db : DB) (ps : InsertParams) : Option (Except Err (AddressPool × Addr)) :=
  match lockedPool db ps with
  | none      => some (.error (.new ("no address pool configured for node " ++ ps.nodeID.string)))
  | some pool =>
    match Ipam.firstFree pool.cidr pool.cursor (reserved pool.cidr (used db ps.nodeID)) with
    | none   => if pool.cidr.hostBits < 31 then some (.error (.sentinel .ipPoolExhausted)) else none
    | some a => if taken db ps a then some (.error (.sentinel .peerExists)) else some (.ok (pool, a))

-- What is left of the writes of a transaction that fails does not matter.
theorem solo_allocation (hid : ∀ p ∈ (view ⟨w, some ws⟩).peers, p.id ≠ (o (n + 3)).id) :
    match allocation (view ⟨w, some ws⟩) ps with
    | none              => (allocateAndInsert ps).run.solo (step o) (n, ⟨w, some ws⟩) = none
    | some (.error e)   => ∃ m ws', (allocateAndInsert ps).run.solo (step o) (n, ⟨w, some ws⟩) =
        some (.error e, m, ⟨w, some ws'⟩)
    | some (.ok (pool, a)) =>
      let peer := Stmt.newPeer ps a (o (n + 3)).id w.now
      (allocateAndInsert ps).run.solo (step o) (n, ⟨w, some ws⟩) = some (.ok peer, n + 4,
        ⟨w, some (ws ++ [.cursor pool.id (Ipam.hostSucc pool.cidr a)] ++ [.peer peer])⟩) := by
  unfold allocation
  cases hp : lockedPool (view ⟨w, some ws⟩) ps
  case none =>
    refine ⟨n + 1, ws, ?_⟩
    refine (solo_bind_ok <| solo_mapErr_ok <| solo_stmt_ok eval_lockPool).trans ?_
    simp only [hp, Stmt.writes, List.append_nil, solo_throw]
  case some pool =>
    have hs := solo_allocateAndInsert hp hid
    simp only at hs ⊢
    rw [hs]
    cases Ipam.firstFree pool.cidr pool.cursor
      (reserved pool.cidr (used (view ⟨w, some ws⟩) ps.nodeID))
    case none   =>
      by_cases hb : pool.cidr.hostBits < 31
      · simp only [hb, if_true]
        exact ⟨_, _, rfl⟩
      · simp only [hb, if_false]
    case some a =>
      by_cases ht : taken (view ⟨w, some ws⟩) ps a
      · simp only [ht, if_true]
        exact ⟨_, _, rfl⟩
      · simp only [ht, Bool.false_eq_true, if_false]

end Repo.Peers

namespace Api.Service

variable {S : Type} {h : Handler S} {v : S} {now : Time} (s : Service) (db : DB)
  (caller : Option Principal) (slug key : String) (req : CreatePeerRequest)

def findNode : Except Err Node :=
  match req.nodeID with
  | some id =>
    match s.parseUUID id with
    | none    => throw (invalid "node_id" "invalid" "must be a UUID")
    | some id => rowOf (Query.eval db 0 (.nodeByID id))
  | none => rowOf (Query.eval db 0 .pickFirst)

-- The checks before the transaction.
def admission : Except Err (Tenant × Node × ProtocolProfile) :=
  if Text.trimSpace req.externalID.toList = [] then
    throw (invalid "external_id" "required" "external_id is required")
  else if key = "" then
    throw (invalid "idempotency-key" "required" "Idempotency-Key header is required")
  else do
    let tenant ← rowOf (Query.eval db 0 (.tenantBySlug slug))
    authorizeTenant caller tenant.id writers
    let node ← s.findNode db req
    match node.profileID with
    | none => throw (invalid "node_id" "profile_unassigned" "node has no protocol profile assigned")
    | some profileID => do
      let profile ← rowOf (Query.eval db 0 (.profileByID profileID))
      s.validateRequestedProfile profile req
      checkSuppliedKey req
      pure (tenant, node, profile)

structure Admissible (t : Tenant) (n : Node) (pr : ProtocolProfile) : Prop where
  external   : Text.trimSpace req.externalID.toList ≠ []
  keyed      : key ≠ ""
  tenant     : db.tenants.find? (·.slug = slug) = some t
  authorised : authorizeTenant caller t.id writers = .ok ()
  node       : s.findNode db req = .ok n
  profile    : ∃ id, n.profileID = some id ∧ db.profiles.find? (·.id = id) = some pr
  asserted   : s.validateRequestedProfile pr req = .ok ()
  supplied   : checkSuppliedKey req = .ok ()

variable {s db caller slug key req}

theorem admit_ok_iff {t : Tenant} {n : Node} {pr : ProtocolProfile} :
    s.admission db caller slug key req = .ok (t, n, pr) ↔
      s.Admissible db caller slug key req t n pr := by
  constructor
  case mp =>
    intro h
    unfold admission at h
    split at h
    case isTrue => cases h
    case isFalse hx =>
    split at h
    case isTrue => cases h
    case isFalse hk =>
    obtain ⟨t', ht, h⟩ := bind_eq_ok.mp h
    obtain ⟨_, ha, h⟩ := bind_eq_ok.mp h
    obtain ⟨n', hn, h⟩ := bind_eq_ok.mp h
    cases hp : n'.profileID <;> rw [hp] at h
    case none    => cases h
    case some id =>
      obtain ⟨pr', hpr, h⟩ := bind_eq_ok.mp h
      obtain ⟨_, hv, h⟩ := bind_eq_ok.mp h
      obtain ⟨_, hs, h⟩ := bind_eq_ok.mp h
      cases h
      exact ⟨hx, hk, rowOf_eq_ok.mp ht, ha, hn, ⟨id, hp, rowOf_eq_ok.mp hpr⟩, hv, hs⟩
  case mpr =>
    rintro ⟨hx, hk, ht, ha, hn, ⟨id, hp, hpr⟩, hv, hs⟩
    unfold admission
    rw [if_neg hx, if_neg hk]
    refine bind_eq_ok.mpr ⟨t, rowOf_eq_ok.mpr ht, bind_eq_ok.mpr ⟨(), ha, bind_eq_ok.mpr ⟨n, hn, ?_⟩⟩⟩
    rw [hp]
    exact bind_eq_ok.mpr ⟨pr, rowOf_eq_ok.mpr hpr,
      bind_eq_ok.mpr ⟨(), hv, bind_eq_ok.mpr ⟨(), hs, rfl⟩⟩⟩

variable (s caller slug key req)

theorem checks_resolveNode (hl : Looks h v db now) :
    Checks h v 1 (s.resolveNode req) pure (s.findNode db req) := by
  unfold resolveNode findNode
  cases req.nodeID
  case none    => exact checks_query hl (checks_row _)
  case some id =>
    simp only
    cases s.parseUUID id
    case none    => exact checks_throw _
    case some id => exact checks_query hl (checks_row _)

theorem checks_createPeer (hl : Looks h v db now) :
    Checks h v 3 (s.createPeer caller slug key req)
      (fun (t, n, pr) => do
        reply (← inTx ({}, 0) (s.createPeerTx t n pr key (s.createHash req slug) req)))
      (s.admission db caller slug key req) := by
  unfold createPeer admission
  split
  case isTrue => exact checks_throw _
  split
  case isTrue => exact checks_throw _
  refine checks_query hl <| checks_bind (checks_row _) fun t => ?_
  refine checks_bind (checks_check _) fun _ => ?_
  refine checks_bind (s.checks_resolveNode req hl) fun node => ?_
  cases node.profileID
  case none    => exact checks_throw _
  case some id =>
    refine checks_query hl <| checks_bind (checks_row _) fun pr => ?_
    refine checks_bind (checks_check _) fun _ => checks_bind (checks_check _) fun _ => ?_
    exact fun _ => rfl

-- What a request for a peer takes from its environment.
structure Drawn where
  publicKey    : String
  privateKey   : String
  presharedKey : String
  peerID       : UUID
  operationID  : UUID
  jobID        : UUID
  time         : Time

-- The keys, and the number of the effect after them.
def drawnKeys (o : Oracle) (n : Nat) : (String × String × String) × Nat :=
  match suppliedKey req with
  | some key => ((key, "", (o n).key), n + 1)
  | none     => (((o n).keyPair.publicKey, (o n).keyPair.privateKey, (o (n + 1)).key), n + 2)

def drawn (o : Oracle) (n : Nat) : Drawn :=
  let ((pub, priv, psk), m) := drawnKeys req o n
  ⟨pub, priv, psk, (o (m + 3)).id, (o (m + 4)).id, (o (m + 5)).id, (o (m + 7)).time⟩

-- The identifiers are not in use.
structure Drawn.Fresh (db : DB) (d : Drawn) : Prop where
  peer      : ∀ p ∈ db.peers, p.id ≠ d.peerID
  operation : ∀ o ∈ db.operations, o.id ≠ d.operationID
  job       : ∀ j ∈ db.outbox, j.id ≠ d.jobID

section Draft

variable (now : Time) (t : Tenant) (n : Node) (pr : ProtocolProfile) (d : Drawn) (a : Addr)

def draftParams : InsertParams where
  tenantID        := t.id
  nodeID          := n.id
  profileID       := pr.id
  externalID      := req.externalID
  displayName     := req.displayName
  publicKey       := d.publicKey
  presharedKeyRef := some d.presharedKey
  expiresAt       := req.expiresAt

def draftPeer : Peer :=
  Stmt.newPeer (draftParams req t n pr d) a d.peerID now

def draftOperation : Operation :=
  Stmt.newOperation t.id n.id (some d.peerID) .createPeer (s.createHash req slug) d.operationID now

def draftResponse : CreatePeerResponse :=
  s.response (s.draftOperation slug req now t n d) (draftPeer req now t n pr d a) n pr d.privateKey
    d.presharedKey

def draftRecord : Record where
  tenantID       := t.id
  key            := key
  requestHash    := s.createHash req slug
  operationID    := some d.operationID
  responseStatus := statusAccepted
  responseBody   := .created (s.draftResponse slug req now t n pr d a).safe
  expiresAt      := d.time + s.ttl

def draftWrites (pool : AddressPool) : List Write :=
  [.cursor pool.id (Ipam.hostSucc pool.cidr a), .peer (draftPeer req now t n pr d a),
    .operation (s.draftOperation slug req now t n d),
    .job (Stmt.newJob d.peerID n.id (some d.operationID) .createPeer .empty d.jobID now),
    .audit ⟨t.id, "peer.create", "peer", d.peerID.string, draftPeer req now t n pr d a, key, now⟩,
    .record (s.draftRecord slug key req now t n pr d a)]

end Draft

-- What the transaction of a request returns, and its writes. The table of the records has no second
-- row for a key, whether the first one has expired or not.
def createTx (db : DB) (now : Time) (t : Tenant) (n : Node) (pr : ProtocolProfile) (d : Drawn) :
    Option (Except Err (CreatePeerResponse × Int) × List Write) :=
  match Query.eval db now (.lookup t.id key) with
  | some rec =>
    if rec.requestHash ≠ s.createHash req slug then some (.error (.sentinel .idempotencyConflict), [])
    else some (.ok (rec.responseBody.response, rec.responseStatus), [])
  | none =>
    match Peers.allocation db (draftParams req t n pr d) with
    | none                 => none
    | some (.error e)      => some (.error e, [])
    | some (.ok (pool, a)) =>
      if db.records.any (fun r => r.tenantID = t.id ∧ r.key = key) then
        some (.error (.sentinel .uniqueViolation), [])
      else
        some (.ok (s.draftResponse slug req now t n pr d a, statusAccepted),
          s.draftWrites slug key req now t n pr d a pool)

def create (db : DB) (now : Time) (d : Drawn) :
    Option (Except Err (CreatePeerResponse × Int) × List Write) :=
  match s.admission db caller slug key req with
  | .error e       => some (.error e, [])
  | .ok (t, n, pr) => s.createTx slug key req db now t n pr d

section Solo

variable {o : Oracle} {w : World} {ws : List Write} {n : Nat} {req}

theorem solo_generateKeys {σ : Session} (ho : o.Benign) :
    (generateKeys req).run.solo (step o) (n, σ) =
      some (.ok (drawnKeys req o n).1, (drawnKeys req o n).2, σ) := by
  unfold generateKeys drawnKeys
  cases suppliedKey req
  case some key => exact (solo_bind_ok (solo_randomKey ho)).trans rfl
  case none     =>
    exact (solo_bind_ok (solo_keyPair ho)).trans ((solo_bind_ok (solo_randomKey ho)).trans rfl)

-- How the function of a transaction ends that began in `w`.
def Ends {α : Type} (w : World) (y : Option (Except Err (Option Err × α) × Nat × Session)) :
    Option (Except Err α × List Write) → Prop
  | none                => y = none
  | some (.error e, ws) => .alreadyHandled ∉ e.is ∧ ws = [] ∧
    ∃ m ws', y = some (.error e, m, ⟨w, some ws'⟩)
  | some (.ok a, ws)    =>
    (∃ m, y = some (.ok (none, a), m, ⟨w, some ws⟩)) ∨
    ws = [] ∧ ∃ m, y = some (.ok (some errAlreadyHandled, a), m, ⟨w, some []⟩)

theorem Ends.of_eq {α : Type} {y y' : Option (Except Err (Option Err × α) × Nat × Session)}
    {x : Option (Except Err α × List Write)} (hy : y = y') (h : Ends w y' x) : Ends w y x :=
  hy ▸ h

-- What a request returns and what it leaves behind.
theorem solo_reply {α : Type} {init : α} {fn : Act (Option Err × α)}
    {x : Option (Except Err α × List Write)}
    (hf : Ends w (fn.run.solo (step o) (n + 1, ⟨w, some []⟩)) x) :
    ((do reply (← inTx init fn) : Act α).run.solo (step o) (n, ⟨w, none⟩)).map
        (fun (r, _, σ) => (r, σ.world.db)) =
      x.map fun (r, ws) => (r, Transactions.replay w.db ws) := by
  rw [solo_bind, solo_inTx]
  rcases x with _ | ⟨e | a, ws⟩
  case none     => rw [show fn.run.solo _ _ = none from hf]; rfl
  case some.error =>
    obtain ⟨he, rfl, m, ws', hm⟩ := hf
    simp only [hm, Option.bind_some, reply, he, if_false, Option.map_some]
    rfl
  case some.ok  =>
    obtain ⟨m, hm⟩ | ⟨rfl, m, hm⟩ := hf <;> simp only [hm, Option.bind_some, reply] <;> rfl

theorem allocation_error {db : DB} {ps : InsertParams} {e : Err}
    (h : Peers.allocation db ps = some (.error e)) : .alreadyHandled ∉ e.is := by
  unfold Peers.allocation at h
  split at h
  case h_1 => cases h; simp [Err.new]
  split at h
  case h_1 =>
    split at h <;> cases h
    simp [Err.sentinel]
  case h_2 =>
    split at h <;> cases h
    simp [Err.sentinel]

-- The rows that both kinds of requests write at their end.
section Rows

variable (tid nid pid : UUID) (kind : OperationKind) (hash action target : String) (payload : Payload)
  (peer : Peer) (body : Operation → Body)

def endRows (now : Time) (opID jobID : UUID) : Operation × List Write :=
  let op := Stmt.newOperation tid nid (some pid) kind hash opID now
  (op, [.operation op, .job (Stmt.newJob pid nid (some op.id) kind payload jobID now),
    .audit ⟨tid, action, "peer", target, peer, key, now⟩])

def endRecord (op : Operation) (time : Time) : Record where
  tenantID       := tid
  key            := key
  requestHash    := hash
  operationID    := some op.id
  responseStatus := statusAccepted
  responseBody   := body op
  expiresAt      := time + s.ttl

theorem solo_endRows {α : Type} (res : Operation → α) (ho : ∀ x ∈ w.db.operations, x.id ≠ (o n).id)
    (hj : ∀ x ∈ w.db.outbox, x.id ≠ (o (n + 1)).id)
    (hws : operationsOf ws = [] ∧ jobsOf ws = [] ∧ recordsOf ws = []) :
    (do let op ← stmt (.insertOperation tid nid (some pid) kind hash)
        let _ ← stmt (.insertJob pid nid (some op.id) kind payload)
        let _ ← stmt (.appendAudit tid action target peer key)
        s.store tid key hash op.id statusAccepted (body op)
        pure (none, res op) : Act (Option Err × α)).run.solo (step o) (n, ⟨w, some ws⟩) =
      let (op, rows) := endRows key tid nid pid kind hash action target payload peer w.now (o n).id
        (o (n + 1)).id
      if w.db.records.any (fun r => r.tenantID = tid ∧ r.key = key) then
        some (.error (.sentinel .uniqueViolation), n + 5, ⟨w, some (ws ++ rows)⟩)
      else some (.ok (none, res op), n + 5,
        ⟨w, some (ws ++ rows ++ [.record (s.endRecord key tid hash body op (o (n + 3)).time)])⟩) := by
  have hview (ws' : List Write) : view ⟨w, some ws'⟩ = Transactions.replay w.db ws' := rfl
  have hop : Stmt.eval (view ⟨w, some ws⟩) w.now (o n).id (.insertOperation tid nid (some pid) kind hash) =
      some (.ok (Stmt.newOperation tid nid (some pid) kind hash (o n).id w.now)) := by
    simpa [Stmt.eval, Stmt.insert, hview, replay_operations, hws.1] using ho
  refine (solo_bind_ok (solo_stmt_ok hop)).trans ?_
  have hjob (op : Operation) : Stmt.eval (view ⟨w, some (ws ++ [.operation op])⟩) w.now (o (n + 1)).id
      (.insertJob pid nid (some op.id) kind payload) =
      some (.ok (Stmt.newJob pid nid (some op.id) kind payload (o (n + 1)).id w.now)) := by
    have hjs : jobsOf (ws ++ [.operation op]) = [] := by
      rw [jobsOf, List.filterMap_append, ← jobsOf, hws.2.1]
      rfl
    simpa [Stmt.eval, Stmt.insert, hview, replay_outbox, hjs] using hj
  refine (solo_bind_ok (solo_stmt_ok (hjob _))).trans ?_
  refine (solo_bind_ok (solo_stmt_ok rfl)).trans ?_
  have hrec (r : Record) {ws' : List Write} (hw : recordsOf ws' = []) :
      Stmt.eval (view ⟨w, some (ws ++ ws')⟩) w.now (o (n + 4)).id (.storeRecord r) =
      some (if w.db.records.any (fun q => q.tenantID = r.tenantID ∧ q.key = r.key) then
        .error (.sentinel .uniqueViolation) else .ok ()) := by
    have hrs : recordsOf (ws ++ ws') = [] := by
      rw [recordsOf, List.filterMap_append, ← recordsOf, hws.2.2, ← recordsOf, hw]
      rfl
    simp only [Stmt.eval, Stmt.insert, hview, replay_records, hrs, List.append_nil, if_false,
      Bool.false_eq_true]
    split <;> rfl
  generalize hop' : Stmt.newOperation tid nid (some pid) kind hash (o n).id w.now = op
  generalize hj' : Stmt.newJob pid nid (some op.id) kind payload (o (n + 1)).id w.now = job
  have hnone : recordsOf [.operation op, .job job,
      .audit ⟨tid, action, "peer", target, peer, key, w.now⟩] = [] := rfl
  have hrec := hrec (s.endRecord key tid hash body op (o (n + 3)).time) hnone
  change _ = some (if w.db.records.any (fun r => r.tenantID = tid ∧ r.key = key) then _ else _) at hrec
  simp only [endRows, hop', hj']
  simp only [Stmt.writes, List.append_assoc, List.cons_append, List.nil_append]
  cases hr : w.db.records.any (fun r => r.tenantID = tid ∧ r.key = key)
  case true =>
    rw [hr] at hrec
    exact solo_bind_error ((solo_bind_ok solo_timeNow).trans (solo_stmt_error hrec))
  case false =>
    rw [hr] at hrec
    refine (solo_bind_ok ((solo_bind_ok solo_timeNow).trans (solo_stmt_ok hrec))).trans ?_
    simp [Stmt.writes, endRecord]

end Rows

theorem ends_createPeerTx {t : Tenant} {nd : Node} {pr : ProtocolProfile} (ho : o.Benign)
    (hf : (drawn req o (n + 1)).Fresh w.db) :
    Ends w ((s.createPeerTx t nd pr key (s.createHash req slug) req).run.solo (step o) (n, ⟨w, some []⟩))
      (s.createTx slug key req w.db w.now t nd pr (drawn req o (n + 1))) := by
  have hv : view ⟨w, some []⟩ = w.db := rfl
  have hlook : (query (.lookup t.id key)).run.solo (step o) (n, ⟨w, some []⟩) =
      some (.ok (Query.eval w.db w.now (.lookup t.id key)), n + 1, ⟨w, some []⟩) := solo_query _
  refine .of_eq (solo_bind_ok hlook) ?_
  unfold createTx
  cases Query.eval w.db w.now (.lookup t.id key)
  case some rec =>
    simp only
    split
    case isTrue  => exact ⟨by simp [Err.sentinel], rfl, n + 1, [], rfl⟩
    case isFalse => exact .inr ⟨rfl, n + 1, rfl⟩
  case none =>
    refine .of_eq (solo_bind_ok (solo_generateKeys ho)) ?_
    have hal := @Peers.solo_allocation o (drawnKeys req o (n + 1)).2 w []
      (draftParams req t nd pr (drawn req o (n + 1))) hf.peer
    rw [hv] at hal
    simp only
    rcases ha : Peers.allocation w.db (draftParams req t nd pr (drawn req o (n + 1))) with
      _ | e | ⟨pool, a⟩ <;> rw [ha] at hal
    case none       => exact solo_bind_none hal
    case some.error =>
      obtain ⟨m, ws', hm⟩ := hal
      exact ⟨allocation_error ha, rfl, m, ws', solo_bind_error hm⟩
    case some.ok =>
      refine .of_eq (solo_bind_ok hal) ?_
      let rows : List Write := [.cursor pool.id (Ipam.hostSucc pool.cidr a)] ++
        [.peer (draftPeer req w.now t nd pr (drawn req o (n + 1)) a)]
      have hrows : operationsOf rows = [] ∧ jobsOf rows = [] ∧ recordsOf rows = [] := ⟨rfl, rfl, rfl⟩
      have hend := s.solo_endRows (o := o) (w := w) key t.id nd.id (drawn req o (n + 1)).peerID .createPeer
        (s.createHash req slug) "peer.create" (drawn req o (n + 1)).peerID.string .empty
        (draftPeer req w.now t nd pr (drawn req o (n + 1)) a)
        (fun op => .created (s.response op (draftPeer req w.now t nd pr (drawn req o (n + 1)) a) nd pr
          (drawn req o (n + 1)).privateKey (drawn req o (n + 1)).presharedKey).safe)
        (fun op => (s.response op (draftPeer req w.now t nd pr (drawn req o (n + 1)) a) nd pr
          (drawn req o (n + 1)).privateKey (drawn req o (n + 1)).presharedKey, statusAccepted))
        hf.operation hf.job hrows
      refine .of_eq hend ?_
      simp only
      cases w.db.records.any (fun r => r.tenantID = t.id ∧ r.key = key)
      case true  => exact ⟨by simp [Err.sentinel], rfl, _, _, rfl⟩
      case false => exact .inl ⟨_, rfl⟩

end Solo

-- The same for `RevokePeer`.
section Revoke

variable (peerID reason : String)

def admitRevoke (db : DB) : Except Err (Tenant × UUID) :=
  if key = "" then
    throw (invalid "idempotency-key" "required" "Idempotency-Key header is required")
  else do
    let tenant ← rowOf (Query.eval db 0 (.tenantBySlug slug))
    authorizeTenant caller tenant.id writers
    match s.parseUUID peerID with
    | none     => throw (invalid "peer_id" "invalid" "must be a UUID")
    | some pid => pure (tenant, pid)

variable {s caller slug key peerID} in
theorem admitRevoke_ok {t : Tenant} {pid : UUID}
    (h : s.admitRevoke caller slug key peerID db = .ok (t, pid)) :
    db.tenants.find? (·.slug = slug) = some t ∧ s.parseUUID peerID = some pid := by
  unfold admitRevoke at h
  split at h
  case isTrue => cases h
  obtain ⟨t', ht, h⟩ := bind_eq_ok.mp h
  obtain ⟨_, _, h⟩ := bind_eq_ok.mp h
  cases hp : s.parseUUID peerID <;> rw [hp] at h <;> cases h
  exact ⟨rowOf_eq_ok.mp ht, rfl⟩

theorem checks_revokePeer (hl : Looks h v db now) :
    Checks h v 1 (s.revokePeer caller slug peerID key reason)
      (fun (t, pid) => do reply (← inTx 0 (s.revokePeerTx t pid key reason)))
      (s.admitRevoke caller slug key peerID db) := by
  unfold revokePeer admitRevoke
  split
  case isTrue => exact checks_throw _
  refine checks_query hl <| checks_bind (checks_row _) fun t => ?_
  refine checks_bind (checks_check _) fun _ => ?_
  cases s.parseUUID peerID
  case none   => exact checks_throw _
  case some _ => exact fun _ => rfl

-- What a revocation takes from its environment. It reads the clock twice.
structure RevokeDrawn where
  time        : Time
  operationID : UUID
  jobID       : UUID
  storeTime   : Time

def revokeDrawn (o : Oracle) (n : Nat) : RevokeDrawn :=
  ⟨(o n).time, (o (n + 2)).id, (o (n + 3)).id, (o (n + 5)).time⟩

structure RevokeDrawn.Fresh (db : DB) (d : RevokeDrawn) : Prop where
  operation : ∀ o ∈ db.operations, o.id ≠ d.operationID
  job       : ∀ j ∈ db.outbox, j.id ≠ d.jobID

def revokeTx (db : DB) (now : Time) (t : Tenant) (pid : UUID) (d : RevokeDrawn) :
    Option (Except Err UUID × List Write) :=
  let hash := s.revokeHash t.id.string pid.string reason
  match Query.eval db now (.lookup t.id key) with
  | some rec =>
    if rec.requestHash ≠ hash then some (.error (.sentinel .idempotencyConflict), [])
    else some (.ok (rec.operationID.getD 0), [])
  | none =>
    match db.peers.find? (·.id = pid) with
    | none   => some (.error errNotFound, [])
    | some q =>
      if q.tenantID ≠ t.id then some (.error errNotFound, [])
      else if db.records.any (fun r => r.tenantID = t.id ∧ r.key = key) then
        some (.error (.sentinel .uniqueViolation), [])
      else
        let peer := Stmt.revoked q d.time now
        let (op, rows) := endRows key t.id q.nodeID q.id .revokePeer hash "peer.revoke" q.id.string
          (.reason reason) peer now d.operationID d.jobID
        some (.ok d.operationID, .peer peer :: rows ++
          [.record (s.endRecord key t.id hash (fun op => .revoked op.id.string) op d.storeTime)])

def revoke (db : DB) (now : Time) (d : RevokeDrawn) : Option (Except Err UUID × List Write) :=
  match s.admitRevoke caller slug key peerID db with
  | .error e     => some (.error e, [])
  | .ok (t, pid) => s.revokeTx key reason db now t pid d

variable {o : Oracle} {w : World} {n : Nat}

theorem ends_revokePeerTx {t : Tenant} {pid : UUID} (hf : (revokeDrawn o (n + 1)).Fresh w.db) :
    Ends w ((s.revokePeerTx t pid key reason).run.solo (step o) (n, ⟨w, some []⟩))
      (s.revokeTx key reason w.db w.now t pid (revokeDrawn o (n + 1))) := by
  have hlook : (query (.lookup t.id key)).run.solo (step o) (n, ⟨w, some []⟩) =
      some (.ok (Query.eval w.db w.now (.lookup t.id key)), n + 1, ⟨w, some []⟩) := solo_query _
  refine .of_eq (solo_bind_ok hlook) ?_
  unfold revokeTx
  cases Query.eval w.db w.now (.lookup t.id key)
  case some rec =>
    simp only
    split
    case isTrue  => exact ⟨by simp [Err.sentinel], rfl, n + 1, [], rfl⟩
    case isFalse => exact .inr ⟨rfl, n + 1, rfl⟩
  case none =>
    refine .of_eq (solo_bind_ok solo_timeNow) ?_
    have hm : Stmt.eval (view ⟨w, some []⟩) w.now (o (n + 2)).id (.markRevoked pid (o (n + 1)).time) =
        some (.ok ((w.db.peers.find? (·.id = pid)).map (Stmt.revoked · (o (n + 1)).time w.now))) := rfl
    refine .of_eq (solo_bind_ok (solo_stmt_ok hm)) ?_
    simp only
    cases w.db.peers.find? (·.id = pid)
    case none   => exact ⟨by simp [errNotFound, Err.sentinel], rfl, _, _, rfl⟩
    case some q =>
      refine .of_eq (solo_bind_ok (a := Stmt.revoked q (o (n + 1)).time w.now) rfl) ?_
      have ht : (Stmt.revoked q (o (n + 1)).time w.now).tenantID = q.tenantID := rfl
      simp only [ht]
      by_cases hq : q.tenantID ≠ t.id
      case pos =>
        simp only [if_pos hq]
        exact ⟨by simp [errNotFound, Err.sentinel], rfl, _, _, rfl⟩
      case neg =>
        simp only [if_neg hq]
        let rows : List Write := [.peer (Stmt.revoked q (o (n + 1)).time w.now)]
        have hrows : operationsOf rows = [] ∧ jobsOf rows = [] ∧ recordsOf rows = [] :=
          ⟨rfl, rfl, rfl⟩
        have hend := s.solo_endRows (o := o) (w := w) (n := n + 3)
          key t.id q.nodeID q.id .revokePeer (s.revokeHash t.id.string pid.string reason) "peer.revoke"
          q.id.string (.reason reason) (Stmt.revoked q (o (n + 1)).time w.now)
          (fun op => .revoked op.id.string) Operation.id hf.operation hf.job hrows
        refine .of_eq hend ?_
        simp only
        cases w.db.records.any (fun r => r.tenantID = t.id ∧ r.key = key)
        case true  => exact ⟨by simp [Err.sentinel], rfl, _, _, rfl⟩
        case false => exact .inl ⟨_, rfl⟩

end Revoke

end Api.Service

namespace ControlPlane

variable {o : Oracle} {pid : Nat} {w : World} (s : Api.Service) (caller : Option Principal)
  (slug key : String)

-- The requests, where no other process runs.

theorem answer_of_checks {α β : Type} {d : Nat} {p : Act α} {k : β → Act α} {x : Except Err β}
    {f : β → Option (Except Err α × List Write)} (hq : Quiet w) (ho : o.Benign)
    (hc : Checks (step o) ⟨w, none⟩ d p k x)
    (hk : ∀ b, x = .ok b →
      ((k b).run.solo (step o) (d, ⟨w, none⟩)).map (fun (r, _, σ) => (r, σ.world.db)) =
        (f b).map fun (r, ws) => (r, Transactions.replay w.db ws)) :
    answer o pid w p = (match x with
      | .error e => some (Except.error e, ([] : List Write))
      | .ok b    => f b).map fun (r, ws) => (r, Transactions.replay w.db ws) := by
  rw [answer_eq hq ho]
  cases x
  case error e =>
    obtain ⟨m, hm⟩ := hc 0
    rw [hm]
    rfl
  case ok b =>
    rw [hc 0, Nat.zero_add]
    exact hk b rfl

theorem answer_createPeer (req : Api.CreatePeerRequest) (hq : Quiet w) (ho : o.Benign)
    (hf : (Api.Service.drawn req o 5).Fresh w.db) :
    answer o pid w (s.createPeer caller slug key req) =
      (s.create caller slug key req w.db w.now (Api.Service.drawn req o 5)).map
        fun (r, ws) => (r, Transactions.replay w.db ws) := by
  have hv : view ⟨w, none⟩ = w.db := rfl
  rw [answer_of_checks hq ho (s.checks_createPeer caller slug key req (.session o ⟨w, none⟩))
    fun _ _ => Api.Service.solo_reply (s.ends_createPeerTx slug key ho hf), hv, Api.Service.create]
  cases s.admission w.db caller slug key req <;> rfl

theorem answer_revokePeer (peerID reason : String) (hq : Quiet w) (ho : o.Benign)
    (hf : (Api.Service.revokeDrawn o 3).Fresh w.db) :
    answer o pid w (s.revokePeer caller slug peerID key reason) =
      (s.revoke caller slug key peerID reason w.db w.now (Api.Service.revokeDrawn o 3)).map
        fun (r, ws) => (r, Transactions.replay w.db ws) := by
  have hv : view ⟨w, none⟩ = w.db := rfl
  rw [answer_of_checks hq ho (s.checks_revokePeer caller slug key peerID reason (.session o ⟨w, none⟩))
    fun _ _ => Api.Service.solo_reply (s.ends_revokePeerTx key reason hf), hv, Api.Service.revoke]
  cases s.admitRevoke caller slug key peerID w.db <;> rfl

-- Requests that are refused by the checks or answered from a record, whatever other processes do.
section Replay

variable {req : Api.CreatePeerRequest} {s caller slug key} {t : Tenant} {n : Node}
  {pr : ProtocolProfile} {rec : Record} {e : Err}

theorem answer_refused (ho : o.Benign) (ht : w.txs pid = none)
    (ha : s.admission w.db caller slug key req = .error e) :
    answer o pid w (s.createPeer caller slug key req) = some (.error e, w.db) := by
  have hc := s.checks_createPeer caller slug key req (looks_committed ho ht)
  rw [ha] at hc
  exact answer_of_reads hc

-- What a transaction returns that is rolled back.
def rolledBack {σ : Type} (init : σ) : Except Err (Option Err × σ) → Option Err × σ
  | .error e => (some e, init)
  | .ok a    => a

theorem solo_inTx_read {σ : Type} {init : σ} {k : Nat} {fn : Act (Option Err × σ)}
    {r : Except Err (Option Err × σ)} (ho : o.Benign) (ht : w.txs pid = none)
    (hr : ∀ a, r ≠ .ok (none, a))
    (hf : ∀ {v : World}, Looks (World.alone o pid) v w.db w.now → Reads (World.alone o pid) v fn r) :
    ∃ m v, (inTx init fn).run.solo (World.alone o pid) (k, w) = some (.ok (rolledBack init r), m, v) ∧
      v.db = w.db := by
  have hb : (call Eff.begin : Act Unit).run.solo (World.alone o pid) (k, w) =
      some (.ok (), k + 1, { w with toTransactions := w.toTransactions.begin pid w.now }) := by
    rw [solo_call]
    simp only [World.alone, World.exec, ho k, ht]
    rfl
  have hl : Looks (World.alone o pid) { w with toTransactions := w.toTransactions.begin pid w.now }
      w.db w.now := by
    have h := @Looks.world o pid { w with toTransactions := w.toTransactions.begin pid w.now } ho
    simpa [Transactions.view, Transactions.pending, Transactions.begin, Transactions.replay] using h
  obtain ⟨m, hm⟩ := hf hl (k + 1)
  simp only [inTx, solo_bind, solo_attempt, hb, Option.map_some, Option.bind_some, hm]
  rcases r with e | ⟨_ | e, a⟩
  case ok.none => exact absurd rfl (hr a)
  all_goals exact ⟨_, _, rfl, rfl⟩

theorem answer_replayed (ho : o.Benign) (ht : w.txs pid = none)
    (ha : s.admission w.db caller slug key req = .ok (t, n, pr))
    (hr : Query.eval w.db w.now (.lookup t.id key) = some rec) :
    answer o pid w (s.createPeer caller slug key req) =
      some (if rec.requestHash ≠ s.createHash req slug then .error (.sentinel .idempotencyConflict)
        else .ok (rec.responseBody.response, rec.responseStatus), w.db) := by
  have hc := s.checks_createPeer caller slug key req (looks_committed ho ht)
  rw [ha] at hc
  have hf {v : World} (hl : Looks (World.alone o pid) v w.db w.now) :
      Reads (World.alone o pid) v (s.createPeerTx t n pr key (s.createHash req slug) req)
        (if rec.requestHash ≠ s.createHash req slug then .error (.sentinel .idempotencyConflict)
          else .ok (some Api.Service.errAlreadyHandled, rec.responseBody.response,
            rec.responseStatus)) := by
    refine reads_query hl ?_
    rw [hr]
    by_cases hh : rec.requestHash ≠ s.createHash req slug
    · simp only [if_pos hh]
      exact reads_throw _
    · simp only [if_neg hh]
      exact reads_pure _
  obtain ⟨m, v, hv, hdb⟩ := @solo_inTx_read _ _ _ _ (({}, 0) : Api.CreatePeerResponse × Int) 3 _ _
    ho ht (by intro a; split <;> simp) hf
  rw [answer, World.outcome, hc 0, solo_bind_ok hv, ← hdb]
  split <;> rfl

end Replay
end ControlPlane
