import AwgRest.Api.Types
import AwgRest.Lib.Transactions
import AwgRest.Profile

open Domain Netip

namespace Store

inductive JobStatus
  | pending
  | leased
  | applied
  | failedTerminal
  | failedRetryable
deriving DecidableEq

inductive Payload
  | empty
  | reason (text : String)
deriving DecidableEq

-- A row of the outbox.
structure Job where
  id            : UUID
  aggregateType : String
  aggregateID   : UUID
  nodeID        : UUID
  operationID   : Option UUID
  kind          : OperationKind
  payload       : Payload
  status        : JobStatus
  attempts      : Nat
  leasedUntil   : Option Time
  lastError     : Option String
  createdAt     : Time
  updatedAt     : Time
deriving DecidableEq

-- A row of `idempotency_keys`.
structure Record where
  tenantID       : UUID
  key            : String
  requestHash    : String
  operationID    : Option UUID
  responseStatus : Int
  responseBody   : Api.Body
  expiresAt      : Time
deriving DecidableEq

structure AuditEvent where
  tenantID       : UUID
  action         : String
  targetType     : String
  targetID       : String
  after          : Peer
  idempotencyKey : String
  createdAt      : Time
deriving DecidableEq

-- A row of `peer_runtime`.
structure RuntimeRow where
  peerID            : UUID
  lastHandshakeAt   : Option Time
  rxBytes           : Int
  txBytes           : Int
  runtimePresent    : Bool
  lastRuntimeSyncAt : Time
  endpoint          : String
deriving DecidableEq

structure DB where
  tenants    : List Tenant := []
  nodes      : List Node := []
  profiles   : List ProtocolProfile := []
  pools      : List AddressPool := []
  peers      : List Peer := []
  runtimes   : List RuntimeRow := []
  operations : List Operation := []
  outbox     : List Job := []
  audit      : List AuditEvent := []
  records    : List Record := []

-- The new version of a row. Rows of the other tables are only ever inserted by a transaction.
inductive Write
  | peer      (p : Peer)
  | cursor    (poolID : UUID) (cursor : Option Addr)
  | runtime   (r : RuntimeRow)
  | operation (o : Operation)
  | job       (j : Job)
  | audit     (a : AuditEvent)
  | record    (r : Record)
  | profile   (p : ProtocolProfile)
  | node      (n : Node)
  | pool      (p : AddressPool)
deriving DecidableEq

-- What a transaction can lock: a row, or a value of a unique index.
inductive Lock
  | peer         (id : UUID)
  | peerExternal (tenantID : UUID) (externalID : String)
  | peerAddr     (nodeID : UUID) (addr : Addr)
  | peerKey      (nodeID : UUID) (publicKey : String)
  | pool         (id : UUID)
  | poolCidr     (nodeID : UUID) (cidr : Prefix)
  | runtime      (peerID : UUID)
  | operation    (id : UUID)
  | job          (id : UUID)
  | record       (tenantID : UUID) (key : String)
  | profile      (id : UUID)
  | profileName  (name : String)
  | node         (id : UUID)
  | nodeHostname (hostname : String)
  | advisory
deriving DecidableEq

section Upsert

variable {α : Type} [DecidableEq α] {β : Type}

-- Replaces the rows with the key of `r`, or appends `r` if there are none.
def upsert (key : β → α) (rows : List β) (r : β) : List β :=
  if rows.any (key · = key r) then rows.map (fun q => if key q = key r then r else q) else rows ++ [r]

end Upsert

def Write.apply (db : DB) : Write → DB
  | peer p      => { db with peers := upsert Peer.id db.peers p }
  | cursor id c =>
    { db with pools := db.pools.map (fun q => if q.id = id then { q with cursor := c } else q) }
  | runtime r   => { db with runtimes := upsert RuntimeRow.peerID db.runtimes r }
  | operation o => { db with operations := db.operations ++ [o] }
  | job j       => { db with outbox := db.outbox ++ [j] }
  | audit a     => { db with audit := db.audit ++ [a] }
  | record r    => { db with records := db.records ++ [r] }
  | profile p   => { db with profiles := db.profiles ++ [p] }
  | node n      => { db with nodes := db.nodes ++ [n] }
  | pool p      => { db with pools := db.pools ++ [p] }

def Write.locks : Write → List Lock
  | peer p      =>
    [.peer p.id, .peerExternal p.tenantID p.externalID, .peerAddr p.nodeID p.allowedIP,
      .peerKey p.nodeID p.publicKey]
  | cursor id _ => [.pool id]
  | runtime r   => [.runtime r.peerID]
  | operation o => [.operation o.id]
  | job j       => [.job j.id]
  | audit _     => []
  | record r    => [.record r.tenantID r.key]
  | profile p   => [.profile p.id, .profileName p.name]
  | node n      => [.node n.id, .nodeHostname n.hostname]
  | pool p      => [.pool p.id, .poolCidr p.nodeID p.cidr]

instance : Journal DB Write Lock where
  apply := Write.apply
  locks := Write.locks

end Store
