import AwgRest.Store.Rows
import AwgRest.Executor
import Mathlib.Data.List.Sort

open Domain Netip

-- The SQL statements of the repositories.
namespace Store

-- Statements that only read.
inductive Query
  | tenantBySlug   (slug : String)
  | nodeByID       (id : UUID)
  | pickFirst
  | nodeIDs
  | profileByID    (id : UUID)
  | peersByNode    (nodeID : UUID)
  | peerByID       (id : UUID)
  | operationByID  (id : UUID)
  | usedAddrs      (nodeID : UUID)
  | lookup         (tenantID : UUID) (key : String)
  | profileExists  (name : String)
  | hostnameExists (hostname : String)
  | ifaceExists    (name : String)
  | portExists     (port : Int)
  | poolOverlaps   (cidr : Prefix)
deriving DecidableEq

namespace Query

abbrev Answer : Query → Type
  | tenantBySlug _ => Option Tenant
  | nodeByID _     => Option Node
  | pickFirst      => Option Node
  | nodeIDs        => List UUID
  | profileByID _  => Option ProtocolProfile
  | peersByNode _  => List Peer
  | peerByID _     => Option Peer
  | operationByID _ => Option Operation
  | usedAddrs _    => List Addr
  | lookup _ _     => Option Record
  | profileExists _ | hostnameExists _ | ifaceExists _ | portExists _ | poolOverlaps _ => Bool

-- The order of default nodes: those with a v3.1 profile come last, and then the hostname decides.
def defaultLe (db : DB) (m n : Node) : Prop :=
  rank m < rank n ∨ (rank m = rank n ∧ m.hostname ≤ n.hostname)
where
  rank (n : Node) : Nat :=
    if db.profiles.any (fun p => some p.id = n.profileID ∧ p.protocolVersion = .v31) then 1 else 0

instance {db : DB} : DecidableRel (defaultLe db) :=
  fun _ _ => inferInstanceAs (Decidable (_ ∨ (_ ∧ _)))

-- `a && b` of the type `inet`: one of the networks contains the other.
def overlap (a b : Prefix) : Bool :=
  a.masked.contains (some b.masked.addr) && a.bits ≤ b.bits ||
  b.masked.contains (some a.masked.addr) && b.bits ≤ a.bits

def eval (db : DB) (now : Time) : (q : Query) → q.Answer
  | tenantBySlug slug => db.tenants.find? (·.slug = slug)
  | nodeByID id       => db.nodes.find? (·.id = id)
  | pickFirst         => (db.nodes.insertionSort (defaultLe db)).head?
  | nodeIDs           => (db.nodes.insertionSort (fun m n => m.hostname ≤ n.hostname)).map Node.id
  | profileByID id    => db.profiles.find? (·.id = id)
  | peersByNode id    =>
    (db.peers.filter (·.nodeID = id)).insertionSort (fun p q => p.publicKey ≤ q.publicKey)
  | peerByID id       => db.peers.find? (·.id = id)
  | operationByID id  =>
    -- The fingerprint of the request is not read.
    (db.operations.find? (·.id = id)).map fun o => { o with requestHash := "" }
  | usedAddrs id      => (db.peers.filter (fun p => p.nodeID = id ∧ p.state ≠ .revoked)).map Peer.allowedIP
  | lookup t k        => db.records.find? (fun r => r.tenantID = t ∧ r.key = k ∧ now < r.expiresAt)
  | profileExists s   => db.profiles.any (·.name = s)
  | hostnameExists s  => db.nodes.any (·.hostname = s)
  | ifaceExists s     => db.nodes.any (·.interfaceName = s)
  | portExists n      => db.nodes.any (·.basePort = n)
  | poolOverlaps c    => db.pools.any (fun p => overlap p.cidr c)

end Query

structure InsertParams where
  tenantID        : UUID
  nodeID          : UUID
  profileID       : UUID
  externalID      : String
  displayName     : String
  publicKey       : String
  presharedKeyRef : Option String
  expiresAt       : Option Time
deriving DecidableEq

-- Statements that are only used in a transaction, and that lock or write rows.
inductive Stmt
  | lockPool        (nodeID tenantID : UUID)
  | updateCursor    (cursor : Option Addr) (poolID : UUID)
  | insertPeer      (params : InsertParams) (addr : Addr)
  | markRevoked     (id : UUID) (at_ : Time)
  | markApplied     (id : UUID) (revision : Int)
  | upsertRuntime   (peerID : UUID) (present : Bool) (stats : Awg.Stats)
  | insertOperation (tenantID nodeID : UUID) (peerID : Option UUID) (kind : OperationKind) (hash : String)
  | insertJob       (aggregateID nodeID : UUID) (operationID : Option UUID) (kind : OperationKind)
                    (payload : Payload)
  | appendAudit     (tenantID : UUID) (action targetID : String) (after : Peer) (key : String)
  | storeRecord     (r : Record)
  | advisoryLock
  | insertProfile   (p : ProtocolProfile)
  | insertNode      (n : Node)
  | insertPool      (tenantID nodeID : UUID) (cidr : Prefix)
deriving DecidableEq

namespace Stmt

-- Where the program does not look at the row that a statement wrote, the answer has it nevertheless.
abbrev Answer : Stmt → Type
  | lockPool ..        => Option AddressPool
  | updateCursor ..    => Unit
  | insertPeer ..      => Peer
  | markRevoked ..     => Option Peer
  | markApplied ..     => Option Peer
  | upsertRuntime ..   => RuntimeRow
  | insertOperation .. => Operation
  | insertJob ..       => Job
  | appendAudit ..     => AuditEvent
  | storeRecord ..     => Unit
  | advisoryLock       => Unit
  | insertProfile ..   => ProtocolProfile
  | insertNode ..      => Node
  | insertPool ..      => AddressPool

def writes : (s : Stmt) → s.Answer → List Write
  | lockPool ..,        _ => []
  | updateCursor c id,  _ => [.cursor id c]
  | insertPeer ..,      p => [.peer p]
  | markRevoked ..,     p => p.toList.map .peer
  | markApplied ..,     p => p.toList.map .peer
  | upsertRuntime ..,   r => [.runtime r]
  | insertOperation .., o => [.operation o]
  | insertJob ..,       j => [.job j]
  | appendAudit ..,     a => [.audit a]
  | storeRecord r,      _ => [.record r]
  | advisoryLock,       _ => []
  | insertProfile ..,   p => [.profile p]
  | insertNode ..,      n => [.node n]
  | insertPool ..,      p => [.pool p]

theorem length_writes_le {s : Stmt} (a : s.Answer) : (s.writes a).length ≤ 1 := by
  cases s <;> first
    | exact Nat.le_refl 1
    | exact Nat.zero_le 1
    | cases a <;> simp [writes]

-- The locks beyond those of the rows that are written.
def extraLocks : (s : Stmt) → s.Answer → List Lock
  | lockPool .., p => p.toList.map (fun p => .pool p.id)
  | advisoryLock, _ => [.advisory]
  | _, _ => []

def newPeer (params : InsertParams) (addr : Addr) (id : UUID) (now : Time) : Peer where
  id              := id
  tenantID        := params.tenantID
  nodeID          := params.nodeID
  profileID       := params.profileID
  externalID      := params.externalID
  displayName     := params.displayName
  publicKey       := params.publicKey
  presharedKeyRef := params.presharedKeyRef
  allowedIP       := addr
  state           := .pending
  desiredRevision := 1
  appliedRevision := 0
  expiresAt       := params.expiresAt
  revokedAt       := none
  createdAt       := now
  updatedAt       := now

def revoked (p : Peer) (at_ now : Time) : Peer :=
  { p with
    state           := .revoked
    revokedAt       := some at_
    desiredRevision := p.desiredRevision + 1
    updatedAt       := now }

def applied (p : Peer) (revision : Int) (now : Time) : Peer :=
  { p with
    appliedRevision := max p.appliedRevision revision
    state           := if p.state = .pending then .active else p.state
    updatedAt       := now }

def newRuntime (old : Option RuntimeRow) (peerID : UUID) (present : Bool) (stats : Awg.Stats)
    (now : Time) : RuntimeRow where
  peerID            := peerID
  lastHandshakeAt   := stats.lastHandshake <|> old.bind RuntimeRow.lastHandshakeAt
  rxBytes           := stats.rxBytes
  txBytes           := stats.txBytes
  runtimePresent    := present
  lastRuntimeSyncAt := now
  endpoint          := stats.endpoint

def newOperation (tenantID nodeID : UUID) (peerID : Option UUID) (kind : OperationKind)
    (hash : String) (id : UUID) (now : Time) : Operation where
  id           := id
  tenantID     := tenantID
  peerID       := peerID
  nodeID       := nodeID
  kind         := kind
  status       := .pending
  requestHash  := hash
  errorCode    := ""
  errorMessage := ""
  startedAt    := now
  finishedAt   := none

def newJob (aggregateID nodeID : UUID) (operationID : Option UUID) (kind : OperationKind)
    (payload : Payload) (id : UUID) (now : Time) : Job where
  id            := id
  aggregateType := "peer"
  aggregateID   := aggregateID
  nodeID        := nodeID
  operationID   := operationID
  kind          := kind
  payload       := payload
  status        := .pending
  attempts      := 0
  leasedUntil   := none
  lastError     := none
  createdAt     := now
  updatedAt     := now

-- An insert fails if a unique index has the value already. The database generates an identifier that
-- is not in use, so an identifier that is in use cannot be chosen.
def insert {α : Type} (used taken : Bool) (row : α) : Option (Except Err α) :=
  if used then none else if taken then some (.error (.sentinel .uniqueViolation)) else some (.ok row)

-- The result of a statement on what the transaction sees, where `id` is what `gen_random_uuid()`
-- yields and `now` is the start of the transaction.
def eval (db : DB) (now : Time) (id : UUID) : (s : Stmt) → Option (Except Err s.Answer)
  | lockPool n t =>
    some (.ok ((db.pools.filter (fun p => p.nodeID = n ∧ p.tenantID = t)).insertionSort
      (fun p q => p.id ≤ q.id)).head?)
  | updateCursor none _ =>
    some (.error (.new "invalid input syntax for type inet: \"invalid IP\""))
  | updateCursor (some _) _ => some (.ok ())
  | insertPeer params addr =>
    insert (db.peers.any (·.id = id))
      (db.peers.any fun p =>
        (p.tenantID = params.tenantID ∧ p.externalID = params.externalID) ∨
        (p.nodeID = params.nodeID ∧ (p.allowedIP = addr ∨ p.publicKey = params.publicKey)))
      (newPeer params addr id now)
  | markRevoked i t => some (.ok ((db.peers.find? (·.id = i)).map (revoked · t now)))
  | markApplied i r => some (.ok ((db.peers.find? (·.id = i)).map (applied · r now)))
  | upsertRuntime i b s => some (.ok (newRuntime (db.runtimes.find? (·.peerID = i)) i b s now))
  | insertOperation t n p k h =>
    insert (db.operations.any (·.id = id)) false (newOperation t n p k h id now)
  | insertJob a n o k p => insert (db.outbox.any (·.id = id)) false (newJob a n o k p id now)
  | appendAudit t action i p k => some (.ok ⟨t, action, "peer", i, p, k, now⟩)
  | storeRecord r =>
    insert false (db.records.any (fun q => q.tenantID = r.tenantID ∧ q.key = r.key)) ()
  | advisoryLock => some (.ok ())
  | insertProfile p =>
    insert (db.profiles.any (·.id = id)) (db.profiles.any (·.name = p.name)) { p with id := id }
  | insertNode n =>
    insert (db.nodes.any (·.id = id)) (db.nodes.any (·.hostname = n.hostname))
      { n with id := id, status := "unknown" }
  | insertPool t n c =>
    insert (db.pools.any (·.id = id)) (db.pools.any (fun p => p.nodeID = n ∧ p.cidr = c))
      ⟨id, t, n, c, none⟩

end Stmt

-- Statements outside of a transaction, which take effect at once.
inductive Auto
  | claimNext     (leaseFor : Int)
  | complete      (id : UUID)
  | fail          (id : UUID) (msg : String) (retryable : Bool)
  | opMarkApplied (id : UUID) (at_ : Time)
  | opMarkFailed  (id : UUID) (code msg : String) (retryable : Bool) (at_ : Time)
deriving DecidableEq

namespace Auto

abbrev Answer : Auto → Type
  | claimNext _ => Option Job
  | _           => Unit

def Claimable (now : Time) (j : Job) : Prop :=
  j.status = .pending ∨ j.status = .failedRetryable ∨
  (j.status = .leased ∧ j.leasedUntil.any (· < now) = true)

instance {now : Time} {j : Job} : Decidable (Claimable now j) :=
  inferInstanceAs (Decidable (_ ∨ _ ∨ (_ ∧ _)))

def claimed (j : Job) (leaseFor : Int) (now : Time) : Job :=
  { j with
    status      := .leased
    leasedUntil := some (now + leaseFor)
    attempts    := j.attempts + 1
    updatedAt   := now }

-- What the statement leaves to the database: which rows others hold locked at the moment, so that
-- they are skipped, and the order of the rows that were created at the same time.
structure Pick where
  skip : List UUID := []
  rank : UUID → Nat := fun _ => 0

-- The order of the rows: `ORDER BY created_at`, and the database decides between equal times.
def Pick.le (x : Pick) (i j : Job) : Prop :=
  i.createdAt < j.createdAt ∨ i.createdAt = j.createdAt ∧ x.rank i.id ≤ x.rank j.id

instance {x : Pick} : DecidableRel x.le :=
  fun i j => inferInstanceAs (Decidable (i.createdAt < j.createdAt ∨ _ ∧ _))

-- The job that is claimed.
def next (outbox : List Job) (now : Time) (x : Pick) : Option Job :=
  ((outbox.filter (fun j => Claimable now j ∧ j.id ∉ x.skip)).insertionSort x.le).head?

theorem next_mem {jobs : List Job} {now : Time} {x : Pick} {j : Job}
    (h : next jobs now x = some j) : j ∈ jobs ∧ Claimable now j := by
  have hm := List.mem_of_mem_head? h
  rw [List.mem_insertionSort, List.mem_filter, decide_eq_true_iff] at hm
  exact ⟨hm.1, hm.2.1⟩

def updateJob (db : DB) (id : UUID) (f : Job → Job) : DB :=
  { db with outbox := db.outbox.map (fun j => if j.id = id then f j else j) }

def updateOperation (db : DB) (id : UUID) (f : Operation → Operation) : DB :=
  { db with operations := db.operations.map (fun o => if o.id = id then f o else o) }

def eval (db : DB) (now : Time) (x : Pick) : (s : Auto) → s.Answer × DB
  | claimNext lease =>
    match next db.outbox now x with
    | none   => (none, db)
    | some j => (some (claimed j lease now), updateJob db j.id (claimed · lease now))
  | complete id =>
    ((), updateJob db id fun j => { j with status := .applied, updatedAt := now, lastError := none })
  | fail id msg retryable =>
    ((), updateJob db id fun j =>
      { j with
        status    := if retryable then .failedRetryable else .failedTerminal
        lastError := some msg
        updatedAt := now })
  | opMarkApplied id t =>
    ((), updateOperation db id fun o => { o with status := .applied, finishedAt := some t })
  | opMarkFailed id code msg retryable t =>
    ((), updateOperation db id fun o =>
      { o with
        status       := if retryable then .retrying else .failed
        errorCode    := code
        errorMessage := msg
        finishedAt   := some t })

section Update

variable {db : DB} {id : UUID} {γ : Type}

theorem mem_updateJob (id : UUID) (f : Job → Job) {j : Job} (h : j ∈ db.outbox) :
    (if j.id = id then f j else j) ∈ (updateJob db id f).outbox :=
  List.mem_map.mpr ⟨j, h, rfl⟩

theorem map_updateJob {f : Job → Job} {g : Job → γ} (h : ∀ j, g (f j) = g j) :
    (updateJob db id f).outbox.map g = db.outbox.map g := by
  rw [updateJob, List.map_map]
  refine List.map_congr_left fun j _ => ?_
  by_cases hj : j.id = id <;> simp [hj, h]

theorem map_updateOperation {f : Operation → Operation} {g : Operation → γ} (h : ∀ o, g (f o) = g o) :
    (updateOperation db id f).operations.map g = db.operations.map g := by
  rw [updateOperation, List.map_map]
  refine List.map_congr_left fun o _ => ?_
  by_cases ho : o.id = id <;> simp [ho, h]

end Update

-- Only the outbox and the operations change.
theorem eval_frame (db : DB) (now : Time) (x : Pick) (s : Auto) :
    (s.eval db now x).2 =
      { db with
        outbox     := (s.eval db now x).2.outbox
        operations := (s.eval db now x).2.operations } := by
  cases s
  case claimNext lease =>
    simp only [eval]
    split <;> rfl
  all_goals rfl

end Auto
end Store
