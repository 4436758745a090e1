import AwgRest.Netip

open Netip

namespace Go

def maxInt : Int :=
  2 ^ 63 - 1

-- What a value becomes in a variable of type `int`.
def toInt (n : Int) : Int :=
  n.bmod (2 ^ 64)

end Go

-- Identifiers and times.

abbrev UUID := BitVec 128

instance : @LawfulBEq UUID instBEqOfDecidableEq :=
  inferInstance

def UUID.string (id : UUID) : String :=
  hex 8 (id.toNat / 2 ^ 96) ++ "-" ++ hex 4 (id.toNat / 2 ^ 80) ++ "-" ++ hex 4 (id.toNat / 2 ^ 64) ++
  "-" ++ hex 4 (id.toNat / 2 ^ 48) ++ "-" ++ hex 12 id.toNat
where
  hex (n v : Nat) : String :=
    String.ofList ((List.range n).reverse.map fun i => Nat.digitChar (v / 16 ^ i % 16))

abbrev Time := Int

namespace Domain

-- The sentinel errors that the modelled code returns or asks for with `errors.Is`. Those of the
-- executor, of the `context` package and the violation of a unique index are among them.
inductive Sentinel
  | notFound
  | idempotencyConflict
  | unauthorized
  | forbidden
  | ipPoolExhausted
  | peerExists
  | invalidKey
  | alreadyHandled
  | notImplemented
  | canceled
  | deadlineExceeded
  | uniqueViolation
deriving DecidableEq

def Sentinel.text : Sentinel → String
  | notFound            => "not_found"
  | idempotencyConflict => "idempotency_conflict"
  | unauthorized        => "unauthorized"
  | forbidden           => "forbidden"
  | ipPoolExhausted     => "ip_pool_exhausted"
  | peerExists          => "peer_exists"
  | invalidKey          => "invalid_key"
  | alreadyHandled      => "already_handled"
  | notImplemented      => "awg: executor not implemented on this platform"
  | canceled            => "context canceled"
  | deadlineExceeded    => "context deadline exceeded"
  | uniqueViolation     => "duplicate key value violates unique constraint"

structure ValidationError where
  field   : String
  code    : String
  message : String
deriving DecidableEq

def ValidationError.text (e : ValidationError) : String :=
  e.field ++ ": " ++ e.message

-- An error with the sentinels that it wraps, its text, and its field errors if it is one of
-- validation.
structure Err where
  is     : List Sentinel
  text   : String
  fields : List ValidationError := []
deriving DecidableEq

namespace Err

def sentinel (s : Sentinel) : Err :=
  { is := [s], text := s.text }

-- `errors.New` and `fmt.Errorf` without a wrapped error
def new (text : String) : Err :=
  { is := [], text := text }

-- `fmt.Errorf` with a wrapped error between two texts
def wrap (e : Err) (before : String) (after : String := "") : Err :=
  { e with text := before ++ e.text ++ after }

def validation (errs : List ValidationError) : Err where
  is     := []
  text   := if errs = [] then "validation_failed" else "; ".intercalate (errs.map ValidationError.text)
  fields := errs

-- `errors.Join`
def join (errs : List Err) : Err where
  is     := errs.flatMap Err.is
  text   := "\n".intercalate (errs.map Err.text)
  fields := errs.flatMap Err.fields

end Err

inductive PeerState
  | pending
  | active
  | revoked
  | expired
  | rotating
deriving DecidableEq

def PeerState.text : PeerState → String
  | pending  => "pending"
  | active   => "active"
  | revoked  => "revoked"
  | expired  => "expired"
  | rotating => "rotating"

structure Peer where
  id              : UUID
  tenantID        : UUID
  nodeID          : UUID
  profileID       : UUID
  externalID      : String
  displayName     : String
  publicKey       : String
  presharedKeyRef : Option String
  -- A single host: the column holds a /32 or /128 prefix, and `host()` of it is what is read back.
  allowedIP       : Addr
  state           : PeerState
  desiredRevision : Int
  appliedRevision : Int
  expiresAt       : Option Time
  revokedAt       : Option Time
  createdAt       : Time
  updatedAt       : Time
deriving DecidableEq

structure Tenant where
  id   : UUID
  slug : String
deriving DecidableEq

structure Node where
  id              : UUID
  profileID       : Option UUID
  region          : String
  hostname        : String
  status          : String
  publicEndpoint  : String
  basePort        : Int
  interfaceName   : String
  serverPublicKey : String
deriving DecidableEq

structure AddressPool where
  id       : UUID
  tenantID : UUID
  nodeID   : UUID
  cidr     : Prefix
  cursor   : Option Addr
deriving DecidableEq

inductive OperationKind
  | createPeer
  | revokePeer
  | deletePeer
  | rotatePeer
  | reconcileNode
deriving DecidableEq

def OperationKind.text : OperationKind → String
  | createPeer    => "peer.create"
  | revokePeer    => "peer.revoke"
  | deletePeer    => "peer.delete"
  | rotatePeer    => "peer.rotate"
  | reconcileNode => "node.reconcile"

inductive OperationStatus
  | pending
  | running
  | applied
  | failed
  | retrying
deriving DecidableEq

def OperationStatus.text : OperationStatus → String
  | pending  => "pending"
  | running  => "running"
  | applied  => "applied"
  | failed   => "failed_terminal"
  | retrying => "failed_retryable"

structure Operation where
  id           : UUID
  tenantID     : UUID
  peerID       : Option UUID
  nodeID       : UUID
  kind         : OperationKind
  status       : OperationStatus
  requestHash  : String
  errorCode    : String
  errorMessage : String
  startedAt    : Time
  finishedAt   : Option Time
deriving DecidableEq

end Domain
