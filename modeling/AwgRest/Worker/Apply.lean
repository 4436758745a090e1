import AwgRest.Repo
import AwgRest.Worker.Config

open Domain Netip Store Fallible Repo

-- The settings of a worker, with `path.Join` and the verb `%q`.
structure Worker where
  bootstrapConfigDir : String
  leaseFor           : Int
  join               : String → String → String
  quote              : String → String

namespace Worker

variable (w : Worker)

-- In microseconds.
def lease : Int :=
  if w.leaseFor = 0 then 30 * 1000000 else w.leaseFor

def bootstrapConfigPath (iface : String) : String :=
  w.join (if w.bootstrapConfigDir = "" then "/etc/amnezia/bootstrap" else w.bootstrapConfigDir)
    (iface ++ ".conf")

def preserveRuntimePrivateKey (iface : String) (conf : Awg.Conf) : Act Awg.Conf := do
  if Awg.interfaceValue conf.text "PrivateKey" ≠ [] then pure conf
  else
    match ← attempt (call (Eff.showConf iface)) with
    | .error _    => pure conf
    | .ok current => pure { conf with text := Awg.preserveInterfacePrivateKey conf.text current }

-- Only the text of the executor's error tells whether the interface has to be brought up first.
def syncConf (iface : String) (conf : Awg.Conf) : Act Unit := do
  match ← attempt (call (Eff.syncConf iface conf)) with
  | .ok _ => pure ()
  | .error e =>
    if !isMissingInterfaceError e then throw e
    else do
      mapErr (·.wrap "bring interface up after syncconf failed: " (" (syncconf: " ++ e.text ++ ")"))
        (call (Eff.interfaceUp iface (w.bootstrapConfigPath iface)))
      let conf ← preserveRuntimePrivateKey iface conf
      call (Eff.syncConf iface conf)

-- The runtime peer with a public key; the last one, if there are several.
def byPub (runtime : List Awg.PeerRuntime) (publicKey : String) : Option Awg.PeerRuntime :=
  runtime.reverse.find? (·.publicKey = publicKey)

def persistPeers (runtime : List Awg.PeerRuntime) : List Peer → Act (Option Err × Unit)
  | []      => pure (none, ())
  | p :: ps => do
    let rt := byPub runtime p.publicKey
    let _ ← stmt (.upsertRuntime p.id rt.isSome ((rt.map Awg.PeerRuntime.toStats).getD {}))
    let _ ← stmt (.markApplied p.id p.desiredRevision)
    persistPeers runtime ps

def persistRuntime (desired : List Peer) (runtime : List Awg.PeerRuntime) : Act Unit := do
  match ← inTx () (persistPeers runtime desired) with
  | (some e, _) => throw e
  | (none, _)   => pure ()

-- The configuration of a node: only the port and the peers are rendered, since the rest of the
-- interface section is not in the database.
def desiredConf (node : Node) (profile : ProtocolProfile) (peers : List Peer) : Awg.Conf where
  text  := Render.server { listenPort := node.basePort } profile (entries peers)
  peers := entries peers

def applyNode (nodeID : UUID) : Act Unit := do
  let node ← row (← query (.nodeByID nodeID))
  let peers ← query (.peersByNode nodeID)
  match node.profileID with
  | none =>
    if peers = [] then pure ()
    else throw (.new ("node " ++ node.id.string ++ " has peers but no protocol profile assigned"))
  | some profileID => do
    let profile ← row (← query (.profileByID profileID))
    let conf ← preserveRuntimePrivateKey node.interfaceName (desiredConf node profile peers)
    w.syncConf node.interfaceName conf
    let dump ← call (Eff.showDump node.interfaceName)
    if node.serverPublicKey ≠ "" ∧ dump.1.publicKey ≠ node.serverPublicKey then
      throw (.new ("runtime public key mismatch for " ++ node.interfaceName ++ ": got " ++
        w.quote dump.1.publicKey ++ " want " ++ w.quote node.serverPublicKey))
    else persistRuntime peers dump.2

-- `MarkApplied` and `MarkFailed` of the operations take the time from the worker's clock.
def markOperation (id : Option UUID) (s : UUID → Time → Auto) : Act Unit := do
  match id with
  | none    => pure ()
  | some id => do
    let now ← (call Eff.timeNow : Act Time)
    let _ ← attempt (auto (s id now))

def processJob (job : Job) : Act Unit := do
  match ← attempt (w.applyNode job.nodeID) with
  | .error e => do
    let retryable := classifyRetryable e
    let _ ← attempt (auto (.fail job.id e.text retryable))
    markOperation job.operationID fun id => .opMarkFailed id "apply_failed" e.text retryable
  | .ok _ =>
    match ← attempt (auto (.complete job.id)) with
    | .error _ => pure ()
    | .ok _    => markOperation job.operationID .opMarkApplied

def runOnce : Act Bool := do
  match ← (auto (.claimNext w.lease) : Act (Option Job)) with
  | none     => pure false
  | some job => do w.processJob job; pure true

-- The first `n` rounds of the main loop, after which the context is found to be cancelled.
def run : Nat → Act Unit
  | 0     => throw (.sentinel .canceled)
  | n + 1 => do
    match ← attempt (auto (.claimNext w.lease) : Act (Option Job)) with
    | .ok (some job) => w.processJob job
    | _              => pure ()
    run n

def reconcile (nodeID : UUID) : Act Unit :=
  w.applyNode nodeID

def reconcileEach : List UUID → Act (List Err)
  | []        => pure []
  | id :: ids => do
    match ← attempt (w.reconcile id) with
    | .ok _    => reconcileEach ids
    | .error e => do
      let errs ← reconcileEach ids
      pure (e.wrap ("node " ++ id.string ++ ": ") :: errs)

def reconcileAll : Act Unit := do
  let ids ← query .nodeIDs
  let joined ← w.reconcileEach ids
  if joined = [] then pure () else throw (.join joined)

end Worker
