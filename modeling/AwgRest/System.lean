import AwgRest.Api.Service
import AwgRest.Bootstrap
import AwgRest.Lib.Interleaving
import AwgRest.Worker.Apply

open Domain Store Fallible Repo

-- The control plane: requests, workers and commands over one database and one executor.
structure ControlPlane where
  service   : Api.Service
  worker    : Worker
  bootstrap : Bootstrap

namespace ControlPlane

-- What a process can be. The last two are the methods of the peer repository by themselves, each in a
-- transaction of its own, which for `allocate` is either committed or rolled back.
inductive Kind
  | createPeer   (caller : Option Auth.Principal) (tenantSlug key : String) (req : Api.CreatePeerRequest)
  | revokePeer   (caller : Option Auth.Principal) (tenantSlug peerID key reason : String)
  | runOnce
  | run          (rounds : Nat)
  | reconcile    (nodeID : UUID)
  | reconcileAll
  | provision    (opts : Bootstrap.V31NodeOptions)
  | allocate     (params : InsertParams) (commit : Bool)
  | markRevoked  (id : UUID) (at_ : Time)
deriving DecidableEq

inductive Result
  | created     (resp : Api.CreatePeerResponse) (status : Int)
  | revoked     (opID : UUID)
  | ran         (job : Bool)
  | done
  | provisioned (result : Bootstrap.V31NodeResult)
  | peer        (p : Peer)
deriving DecidableEq

def Kind.IsWorker : Kind → Bool
  | runOnce | run _ | reconcile _ | reconcileAll => true
  | _ => false

-- Whether a process may insert a peer.
def Kind.Inserts : Kind → Bool
  | createPeer .. | allocate .. => true
  | _ => false

def Kind.IsRequest : Kind → Bool
  | createPeer .. | revokePeer .. => true
  | _ => false

theorem Kind.not_isWorker (k : Kind) (h : k.Inserts) : ¬ k.IsWorker := by
  cases k <;> first | exact Bool.false_ne_true | cases h

theorem Kind.not_inserts (k : Kind) (h : k.IsWorker) : ¬ k.Inserts :=
  fun hi => k.not_isWorker hi h

theorem Kind.not_isRequest (k : Kind) (h : k.IsWorker) : ¬ k.IsRequest := by
  cases k <;> first | exact Bool.false_ne_true | cases h

-- A transaction of `AllocateAndInsert` and nothing else.
def allocate (params : InsertParams) (commit : Bool) : Act Result := do
  match ← inTx none (do
      let peer ← Peers.allocateAndInsert params
      pure (if commit then none else some errNotFound, some peer)) with
  | (none, some peer) => pure (.peer peer)
  | (none, none)      => pure .done
  | (some e, _)       => throw e

def markRevoked (id : UUID) (at_ : Time) : Act Result := do
  match ← inTx none (do
      let peer ← row (← stmt (.markRevoked id at_))
      pure (none, some peer)) with
  | (none, some peer) => pure (.peer peer)
  | (none, none)      => pure .done
  | (some e, _)       => throw e

variable (C : ControlPlane)

def prog : Kind → Act Result
  | .createPeer caller slug key req => do
    let (resp, status) ← C.service.createPeer caller slug key req
    pure (.created resp status)
  | .revokePeer caller slug peerID key reason => do
    pure (.revoked (← C.service.revokePeer caller slug peerID key reason))
  | .runOnce             => do pure (.ran (← C.worker.runOnce))
  | .run n               => do C.worker.run n; pure .done
  | .reconcile nodeID    => do C.worker.reconcile nodeID; pure .done
  | .reconcileAll        => do C.worker.reconcileAll; pure .done
  | .provision opts      => do pure (.provisioned (← C.bootstrap.provisionV31Node opts))
  | .allocate ps commit  => ControlPlane.allocate ps commit
  | .markRevoked id at_  => ControlPlane.markRevoked id at_

def system :
    System (fun e : Eff => Except Err e.Answer) World Choice Kind Nat (Except Err Result) where
  exec  := World.exec
  prog  := fun k => (C.prog k).run
  abort := World.abort
  tick  := World.tick

abbrev Ev := Event (fun e : Eff => Except Err e.Answer) Kind Nat (Except Err Result)
abbrev Conf := Config (fun e : Eff => Except Err e.Answer) World (Except Err Result)

-- Nothing runs yet.
def boot (w : World) : Conf where
  world := w
  procs := fun _ => .unused

-- A small installation, with one tenant, one node and one pool, and parts of schedules for it.
namespace Sample

def plane : ControlPlane where
  service :=
    { parseUUID      := fun s => if s = "00000000-0000-0000-0000-00000000000a" then some 10 else none
      createHash     := fun req _ => req.externalID
      revokeHash     := fun _ peerID _ => peerID
      idempotencyTTL := 0
      clientDNS      := [] }
  worker :=
    { bootstrapConfigDir := ""
      leaseFor           := 0
      join               := fun _ file => file
      quote              := fun s => s }
  bootstrap :=
    { parsePrefix    := fun _ => .error (.new "no prefix")
      join           := fun _ file => file
      splitsHostPort := fun _ => true
      joinHostPort   := fun host _ => host
      quote          := fun s => s }

def profile : ProtocolProfile where
  id              := 1
  name            := "plain"
  protocolVersion := .v1
  jc              := 1
  jmin            := 1
  jmax            := 2
  s1              := 0
  s2              := 0
  h1              := ⟨1, 1⟩
  h2              := ⟨2, 2⟩
  h3              := ⟨3, 3⟩
  h4              := ⟨4, 4⟩

def node : Node where
  id              := 2
  profileID       := some 1
  region          := "eu"
  hostname        := "b"
  status          := "unknown"
  publicEndpoint  := ""
  basePort        := 1
  interfaceName   := "awg0"
  serverPublicKey := ""

def pool : AddressPool where
  id       := 3
  tenantID := 4
  nodeID   := 2
  cidr     := ⟨⟨.v4, 10 * 2 ^ 24, by decide⟩, 29, by decide⟩
  cursor   := none

def world : World where
  db      := { tenants := [⟨4, "t"⟩], nodes := [node], profiles := [profile], pools := [pool] }
  txs     := fun _ => none
  locks   := []
  runtime := fun iface => if iface = "awg0" then some [] else none
  files   := {}
  now     := 0

def admin : Option Auth.Principal :=
  some { roles := [.platformAdmin] }

abbrev Schedule := List (System.Move Choice Kind Nat)

def acts (pid : Nat) (cs : List Choice) : Schedule :=
  cs.map (.act pid ·)

-- Effects that go well and for which nothing has to be chosen.
def steps (pid n : Nat) : Schedule :=
  acts pid (List.replicate n {})

-- A request for a peer with the given identifiers of its rows, from its start to its end.
def create (pid : Nat) (key externalID : String) (keys : Crypto.KeyPair) (peer op job : UUID) :
    Schedule :=
  .spawn pid (.createPeer admin "t" key { externalID }) :: steps pid 5 ++
  acts pid [{ keyPair := keys }, { key := "psk" }] ++ steps pid 3 ++
  acts pid [{ id := peer }, { id := op }, { id := job }] ++ steps pid 4 ++ [.done pid]

-- The revocation of the peer 10.
def revoke (pid : Nat) (key : String) (op job : UUID) : Schedule :=
  .spawn pid (.revokePeer admin "t" "00000000-0000-0000-0000-00000000000a" key "") :: steps pid 5 ++
  acts pid [{ id := op }, { id := job }] ++ steps pid 4 ++ [.done pid]

-- The methods of the peer repository by themselves.

def params (externalID publicKey : String) : InsertParams where
  tenantID        := 4
  nodeID          := 2
  profileID       := 1
  externalID      := externalID
  displayName     := ""
  publicKey       := publicKey
  presharedKeyRef := none
  expiresAt       := none

def insert (pid : Nat) (ps : InsertParams) (peer : UUID) : Schedule :=
  .spawn pid (.allocate ps true) :: steps pid 4 ++ acts pid [{ id := peer }] ++ steps pid 1 ++
  [.done pid]

def withdraw (pid : Nat) (peer : UUID) : Schedule :=
  .spawn pid (.markRevoked peer 0) :: steps pid 3 ++ [.done pid]

-- The parts of `RunOnce`: it claims a job, lists the peers, puts them in place, persists them and
-- completes the job.
def claim (pid : Nat) : Schedule :=
  .spawn pid .runOnce :: steps pid 1

def list (pid : Nat) : Schedule :=
  steps pid 2

def sync (pid : Nat) : Schedule :=
  steps pid 1 ++ acts pid [{ fault := some .canceled }] ++ steps pid 1

def persist (pid n : Nat) : Schedule :=
  steps pid (2 * n + 3)

def complete (pid : Nat) : Schedule :=
  steps pid 3 ++ [.done pid]

end Sample
end ControlPlane
