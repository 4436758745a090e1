import AwgRest.Lib.Discipline
import AwgRest.Store.Acts
import AwgRest.Store.Replay
import AwgRest.System

open Domain Netip Store Fallible Repo

-- An abstract view of the processes of the control plane: what each of them has learned and written
-- so far, and which effects it performs then. The proofs about runs only use this view, so a change
-- of a program that keeps to it does not concern them.
namespace ControlPlane

structure TxLocal where
  writes : List Write := []
  pool   : Option AddressPool := none

structure Local where
  kind      : Kind
  tenant    : Option Tenant := none
  node      : Option Node := none
  profile   : Option ProtocolProfile := none
  lookup    : Option (Option Record) := none
  -- The last listing of peers, and whether a configuration that was computed from it is in place.
  listing   : Option (UUID × List Peer) := none
  synced    : Bool := false
  -- The job that is being processed, and the job that was concluded last, for as long as its
  -- operation has to be marked.
  job       : Option Job := none
  due       : Option (Job × OperationStatus) := none
  tx        : Option TxLocal := none
  -- What was committed last.
  effect    : Option (List Write) := none

namespace Local

def wrote (φ : Local) (s : Stmt) (a : s.Answer) : Local :=
  { φ with tx := φ.tx.map fun t => { t with writes := t.writes ++ s.writes a } }

def locked (φ : Local) (pool : Option AddressPool) : Local :=
  { φ with tx := φ.tx.map fun t => { t with pool := pool } }

-- The outcome of the job is written, and its operation has to follow, if there is one.
def concludes (φ : Local) (s : OperationStatus) : Local :=
  { φ with
    job := none
    due := (φ.job.filter (·.operationID.isSome)).map (·, s) }

def next (φ : Local) : (e : Eff) → Except Err e.Answer → Local
  | .query (.tenantBySlug _), .ok t    => { φ with tenant := t }
  | .query (.nodeByID _),     .ok n    => { φ with node := n, listing := none, synced := false }
  | .query .pickFirst,        .ok n    => { φ with node := n, listing := none, synced := false }
  | .query (.profileByID _),  .ok p    => { φ with profile := p }
  | .query (.lookup _ _),     .ok r    => { φ with lookup := some r }
  | .query (.peersByNode n),  .ok rows => { φ with listing := some (n, rows), synced := false }
  | .begin,                   .ok _    => { φ with tx := some {} }
  | .stmt (.lockPool _ _),    .ok pool => φ.locked pool
  | .stmt s,                  .ok a    => φ.wrote s a
  | .commit,                  .ok _    => { φ with tx := none, effect := φ.tx.map TxLocal.writes }
  | .commit,                  .error _ => { φ with tx := none }
  | .rollback,                _        => { φ with tx := none }
  | .auto (.claimNext _),     .ok j    => { φ with job := j, listing := none, synced := false }
  | .auto (.complete _),      .ok _    => φ.concludes .applied
  | .auto (.complete _),      .error _ => { φ with job := none }
  | .auto (.fail _ _ r),      _        => φ.concludes (if r then .retrying else .failed)
  | .auto (.opMarkApplied ..), _       => { φ with due := none }
  | .auto (.opMarkFailed ..), _        => { φ with due := none }
  | .syncConf ..,             .ok _    => { φ with synced := true }
  | _,                        _        => φ

-- The writes of the transaction that is open, if there is one.
def writes (φ : Local) : List Write :=
  match φ.tx with
  | none   => []
  | some t => t.writes

-- The database as the process sees it.
def view (φ : Local) (db : DB) : DB :=
  Transactions.replay db φ.writes

@[simp]
theorem kind_next {φ : Local} {e : Eff} {r : Except Err e.Answer} : (φ.next e r).kind = φ.kind := by
  cases e <;> cases r <;> first
    | rfl
    | case query q _ => cases q <;> rfl
    | case stmt s _ => cases s <;> rfl
    | case auto s _ => cases s <;> rfl

theorem writes_of_none {φ : Local} (h : φ.tx = none) : φ.writes = [] := by
  simp [writes, h]

theorem writes_of_some {φ : Local} {t : TxLocal} (h : φ.tx = some t) : φ.writes = t.writes := by
  simp [writes, h]

theorem view_of_none {φ : Local} {db : DB} (h : φ.tx = none) : φ.view db = db := by
  simp [view, writes_of_none h]

theorem tx_eta {φ : Local} {tx : Option TxLocal} (h : φ.tx = tx) : { φ with tx := tx } = φ := by
  subst h
  rfl

end Local

-- The answer to a statement is one that the statement gives on some database, or an error from
-- outside of the programs.
def Answers : (e : Eff) → Except Err e.Answer → Prop
  | .query q, .ok a => ∃ db now, a = q.eval db now
  | .stmt s,  .ok a => ∃ db now id, s.eval db now id = some (.ok a)
  | .auto s,  .ok a => ∃ db now x, a = (s.eval db now x).1
  | _,        .ok _ => True
  | .timeNow, .error _ => False
  | _,        .error x => External x

-- The checks that `CreatePeer` makes before its transaction.
structure Admitted (s : Api.Service) (key : String) (req : Api.CreatePeerRequest) (node : Node)
    (profile : ProtocolProfile) : Prop where
  external : Text.trimSpace req.externalID.toList ≠ []
  keyed    : key ≠ ""
  resolved : ∀ {id}, req.nodeID = some id → s.parseUUID id = some node.id
  owned    : node.profileID = some profile.id
  asserted : s.validateRequestedProfile profile req = .ok ()
  supplied : Api.Service.checkSuppliedKey req = .ok ()

-- The rows that every request writes besides that of the peer: an operation on the peer, a job that
-- refers to the operation, an audit event, and the record of its key.
structure Requested (tenantID : UUID) (key hash : String) (kind : OperationKind) (p : Peer)
    (o : Operation) (j : Job) (a : AuditEvent) (r : Record) : Prop where
  op     : ∃ id now, o =
    { id           := id
      tenantID     := tenantID
      peerID       := some p.id
      nodeID       := p.nodeID
      kind         := kind
      status       := .pending
      requestHash  := hash
      errorCode    := ""
      errorMessage := ""
      startedAt    := now
      finishedAt   := none }
  job    : ∃ payload id now, j =
    { id            := id
      aggregateType := "peer"
      aggregateID   := p.id
      nodeID        := p.nodeID
      operationID   := some o.id
      kind          := kind
      payload       := payload
      status        := .pending
      attempts      := 0
      leasedUntil   := none
      lastError     := none
      createdAt     := now
      updatedAt     := now }
  audit  : ∃ now, a = ⟨tenantID, kind.text, "peer", p.id.string, p, key, now⟩
  tenant : r.tenantID = tenantID
  key    : r.key = key
  hash   : r.requestHash = hash
  opID   : r.operationID = some o.id
  status : r.responseStatus = Api.Service.statusAccepted

variable (C : ControlPlane)

-- What a process may commit.
inductive Effect (φ : Local) : List Write → Prop
  | create {caller slug key req t n pr p o j a r pool cursor priv psk} :
    φ.kind = .createPeer caller slug key req → φ.lookup = some none → φ.effect = none →
    φ.tenant = some t → t.slug = slug → φ.node = some n → φ.profile = some pr →
    Admitted C.service key req n pr →
    p.tenantID = t.id → p.nodeID = n.id → p.profileID = pr.id → p.externalID = req.externalID →
    Requested t.id key (C.service.createHash req slug) .createPeer p o j a r →
    r.responseBody = .created (C.service.response o p n pr priv psk).safe →
    Effect φ [.cursor pool cursor, .peer p, .operation o, .job j, .audit a, .record r]
  | revoke {caller slug peerID key reason t p o j a r} :
    φ.kind = .revokePeer caller slug peerID key reason → φ.lookup = some none → φ.effect = none →
    φ.tenant = some t → t.slug = slug → p.tenantID = t.id → p.state = .revoked →
    Requested t.id key (C.service.revokeHash t.id.string p.id.string reason) .revokePeer p o j a r →
    Effect φ [.peer p, .operation o, .job j, .audit a, .record r]
  | work {ws} :
    φ.kind.IsWorker → (∀ x ∈ ws, (∃ r, x = .runtime r) ∨ ∃ p, x = .peer p) → Effect φ ws
  | provision {opts p n pool} :
    φ.kind = .provision opts → p.protocolVersion = .v31 → n.profileID = some p.id →
    pool.nodeID = n.id → Effect φ [.profile p, .node n, .pool pool]
  | allocate {ps pool cursor p} :
    φ.kind = .allocate ps true → Effect φ [.cursor pool cursor, .peer p]
  | markRevoked {id at_ p} : φ.kind = .markRevoked id at_ → Effect φ [.peer p]

-- Most queries are made outside of transactions, only workers list peers, and a request looks its key
-- up only once.
def AllowsQuery (φ : Local) : Query → Prop
  | .tenantBySlug _ | .nodeByID _ | .pickFirst | .nodeIDs | .profileByID _ => φ.tx = none
  | .peersByNode _ => φ.tx = none ∧ φ.kind.IsWorker
  | .lookup _ _ => φ.lookup = none
  | _ => True

-- The statements of a transaction. One that inserts or revokes a peer writes no other peer.
def AllowsStmt (φ : Local) (t : TxLocal) : Stmt → Prop
  | .insertPeer ps addr =>
    (∀ c s k r, φ.kind = .createPeer c s k r → φ.tenant.map Tenant.id = some ps.tenantID) ∧
    φ.kind.Inserts ∧ peersOf t.writes = [] ∧
    ∃ pl, t.pool = some pl ∧ pl.nodeID = ps.nodeID ∧ pl.tenantID = ps.tenantID ∧
      Ipam.IsHost pl.cidr addr ∧ Peers.gatewayAddress pl.cidr ≠ some addr
  | .markRevoked _ _ => ¬ φ.kind.IsWorker ∧ ¬ φ.kind.Inserts ∧ peersOf t.writes = []
  | .markApplied id revision =>
    φ.kind.IsWorker ∧ φ.synced ∧
    ∃ n rows, φ.listing = some (n, rows) ∧ ∃ p ∈ rows, p.id = id ∧ p.desiredRevision = revision
  | _ => True

def AllowsAuto (φ : Local) : Auto → Prop
  | .claimNext _ => φ.due = none
  | .complete id =>
    ∃ j rows, φ.job = some j ∧ j.id = id ∧ φ.listing = some (j.nodeID, rows) ∧ (φ.synced ∨ rows = [])
  | .fail id _ _ => ∃ j, φ.job = some j ∧ j.id = id
  | .opMarkApplied id _ => ∃ j, φ.due = some (j, .applied) ∧ j.operationID = some id
  | .opMarkFailed id _ _ r _ =>
    ∃ j, φ.due = some (j, if r then .retrying else .failed) ∧ j.operationID = some id

def Allows (φ : Local) : Eff → Prop
  | .query q  => AllowsQuery φ q
  | .begin    => φ.tx = none
  | .stmt s   => ∃ t, φ.tx = some t ∧ AllowsStmt φ t s
  | .commit   => ∃ t, φ.tx = some t ∧ Effect C φ t.writes
  | .rollback => φ.tx ≠ none
  | .auto s   => φ.tx = none ∧ φ.kind.IsWorker ∧ AllowsAuto φ s
  | .syncConf iface conf =>
    φ.tx = none ∧ φ.kind.IsWorker ∧
    ∃ n rows, φ.node = some n ∧ φ.listing = some (n.id, rows) ∧ iface = n.interfaceName ∧
      conf.peers = Worker.entries rows
  | .interfaceUp .. => φ.kind.IsWorker
  | _ => True

-- The answer of a request that committed something is that of its record, and other requests either
-- fail or are answered from a record.
inductive Answered (φ : Local) : Except Err Result → Prop
  | failed {e} : φ.effect = none → Answered φ (.error e)
  | created {ws r resp status} :
    φ.effect = some ws → .record r ∈ ws → r.responseBody = .created resp.safe →
    r.responseStatus = status → Answered φ (.ok (.created resp status))
  | revoked {ws r id} :
    φ.effect = some ws → .record r ∈ ws → r.operationID = some id → Answered φ (.ok (.revoked id))
  | createReplayed {r} :
    φ.effect = none → φ.lookup = some (some r) →
    Answered φ (.ok (.created r.responseBody.response r.responseStatus))
  | revokeReplayed {r} :
    φ.effect = none → φ.lookup = some (some r) → Answered φ (.ok (.revoked (r.operationID.getD 0)))

def Post (φ : Local) (b : Except Err Result) : Prop :=
  φ.tx = none ∧ (φ.kind.IsRequest → Answered φ b) ∧ (φ.kind.IsWorker → φ.due = none)

def protocol : Protocol (fun e : Eff => Except Err e.Answer) Local where
  Allows  := Allows C
  Answers := Answers
  next    := Local.next

end ControlPlane
