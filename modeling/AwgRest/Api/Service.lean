import AwgRest.Api.Auth
import AwgRest.Repo

open Domain Netip Store Fallible Repo Auth

namespace Api

-- The configuration of the service, and the functions of other packages that it calls: `uuid.Parse`
-- and the fingerprints of the two kinds of requests.
structure Service where
  parseUUID      : String → Option UUID
  createHash     : CreatePeerRequest → String → String
  revokeHash     : String → String → String → String
  idempotencyTTL : Int
  clientDNS      : List String

namespace Service

variable (s : Service)

-- In microseconds.
def ttl : Int :=
  if s.idempotencyTTL > 0 then s.idempotencyTTL else 24 * 3600 * 1000000

def invalid (field code message : String) : Err :=
  .validation [⟨field, code, message⟩]

def writers : List Role :=
  [.platformAdmin, .tenantAdmin, .automationClient]

def validateRequestedProfile (profile : ProtocolProfile) (req : CreatePeerRequest) :
    Except Err Unit :=
  match req.profileID with
  | some id =>
    match s.parseUUID (String.ofList (Text.trimSpace id.toList)) with
    | none => throw (invalid "profile_id" "invalid" "must be a UUID")
    | some id =>
      if id ≠ profile.id then
        throw (invalid "profile_id" "node_profile_mismatch"
          "profile_id must match the selected node profile")
      else checkName
  | none => checkName
where
  checkName : Except Err Unit :=
    match req.profileName with
    | none => pure ()
    | some name =>
      if Text.trimSpace name.toList ≠ profile.name.toList then
        throw (invalid "profile_name" "node_profile_mismatch"
          "profile_name must match the selected node profile")
      else pure ()

-- The public key of the request, where an empty one is the same as none.
def suppliedKey (req : CreatePeerRequest) : Option String :=
  req.publicKey.filter (· ≠ "")

-- The node that a request is for.
def resolveNode (req : CreatePeerRequest) : Act Node :=
  match req.nodeID with
  | some id =>
    match s.parseUUID id with
    | none    => throw (invalid "node_id" "invalid" "must be a UUID")
    | some id => do row (← query (.nodeByID id))
  | none => do row (← query .pickFirst)

def errAlreadyHandled : Err :=
  .sentinel .alreadyHandled

-- What a request returns after its transaction.
def reply {σ : Type} : Option Err × σ → Act σ
  | (some e, resp) => if .alreadyHandled ∈ e.is then pure resp else throw e
  | (none, resp)   => pure resp

-- The keys of a new peer: public, private and preshared.
def generateKeys (req : CreatePeerRequest) : Act (String × String × String) := do
  let (pub, priv) ← match suppliedKey req with
    | some key => pure (key, "")
    | none     => do let kp ← (call Eff.keyPair : Act Crypto.KeyPair); pure (kp.publicKey, kp.privateKey)
  let psk ← (call Eff.randomKey : Act String)
  pure (pub, priv, psk)

def response (op : Operation) (peer : Peer) (node : Node) (profile : ProtocolProfile)
    (priv psk : String) : CreatePeerResponse where
  operationID  := op.id.string
  peerID       := peer.id.string
  status       := op.status.text
  allowedIP    := (Prefix.host peer.allowedIP).string
  publicKey    := peer.publicKey
  privateKey   := priv
  clientConfig := Render.amneziaClient
    { clientPrivateKey := priv
      clientAddress    := [(Prefix.host peer.allowedIP).string]
      dns              := s.clientDNS
      serverPublicKey  := node.serverPublicKey
      serverEndpoint   := node.publicEndpoint
      presharedKey     := psk
      keepalive        := 25 } profile
  presharedKey := psk
  nodeID       := node.id.string
  profileID    := profile.id.string

def statusAccepted : Int := 202

-- The record of a request is stored with the time of the service, not with that of the database.
def store (tenantID : UUID) (key hash : String) (opID : UUID) (status : Int)
    (body : Body) : Act Unit := do
  let now ← (call Eff.timeNow : Act Time)
  stmt (.storeRecord
    { tenantID       := tenantID
      key            := key
      requestHash    := hash
      operationID    := some opID
      responseStatus := status
      responseBody   := body
      expiresAt      := now + s.ttl })

-- What happens in the transaction of `CreatePeer`. It returns the response and its status.
def createPeerTx (tenant : Tenant) (node : Node) (profile : ProtocolProfile) (key hash : String)
    (req : CreatePeerRequest) : Act (Option Err × CreatePeerResponse × Int) := do
  match ← query (.lookup tenant.id key) with
  | some rec =>
    if rec.requestHash ≠ hash then throw (.sentinel .idempotencyConflict)
    else pure (some errAlreadyHandled, rec.responseBody.response, rec.responseStatus)
  | none => do
    let (pub, priv, psk) ← generateKeys req
    let peer ← Peers.allocateAndInsert
      { tenantID        := tenant.id
        nodeID          := node.id
        profileID       := profile.id
        externalID      := req.externalID
        displayName     := req.displayName
        publicKey       := pub
        presharedKeyRef := some psk
        expiresAt       := req.expiresAt }
    let op ← stmt (.insertOperation tenant.id node.id (some peer.id) .createPeer hash)
    let _ ← stmt (.insertJob peer.id node.id (some op.id) .createPeer .empty)
    let _ ← stmt (.appendAudit tenant.id "peer.create" peer.id.string peer key)
    let resp := s.response op peer node profile priv psk
    s.store tenant.id key hash op.id statusAccepted (.created resp.safe)
    pure (none, resp, statusAccepted)

def checkSuppliedKey (req : CreatePeerRequest) : Except Err Unit :=
  match suppliedKey req with
  | some key => (Crypto.validateKey key).mapError fun _ => .sentinel .invalidKey
  | none     => pure ()

def createPeer (caller : Option Principal) (tenantSlug key : String) (req : CreatePeerRequest) :
    Act (CreatePeerResponse × Int) :=
  if Text.trimSpace req.externalID.toList = [] then
    throw (invalid "external_id" "required" "external_id is required")
  else if key = "" then
    throw (invalid "idempotency-key" "required" "Idempotency-Key header is required")
  else do
    let tenant ← row (← query (.tenantBySlug tenantSlug))
    check (authorizeTenant caller tenant.id writers)
    let node ← s.resolveNode req
    match node.profileID with
    | none => throw (invalid "node_id" "profile_unassigned" "node has no protocol profile assigned")
    | some profileID => do
      let profile ← row (← query (.profileByID profileID))
      check (s.validateRequestedProfile profile req)
      check (checkSuppliedKey req)
      let hash := s.createHash req tenantSlug
      reply (← inTx ({}, 0) (s.createPeerTx tenant node profile key hash req))

def revokePeerTx (tenant : Tenant) (pid : UUID) (key reason : String) : Act (Option Err × UUID) := do
  let hash := s.revokeHash tenant.id.string pid.string reason
  match ← query (.lookup tenant.id key) with
  | some rec =>
    if rec.requestHash ≠ hash then throw (.sentinel .idempotencyConflict)
    else pure (some errAlreadyHandled, rec.operationID.getD 0)
  | none => do
    let now ← (call Eff.timeNow : Act Time)
    let peer ← row (← stmt (.markRevoked pid now))
    if peer.tenantID ≠ tenant.id then throw errNotFound
    else do
      let op ← stmt (.insertOperation tenant.id peer.nodeID (some peer.id) .revokePeer hash)
      let _ ← stmt (.insertJob peer.id peer.nodeID (some op.id) .revokePeer (.reason reason))
      let _ ← stmt (.appendAudit tenant.id "peer.revoke" peer.id.string peer key)
      s.store tenant.id key hash op.id statusAccepted (.revoked op.id.string)
      pure (none, op.id)

def revokePeer (caller : Option Principal) (tenantSlug peerID key reason : String) : Act UUID :=
  if key = "" then
    throw (invalid "idempotency-key" "required" "Idempotency-Key header is required")
  else do
    let tenant ← row (← query (.tenantBySlug tenantSlug))
    check (authorizeTenant caller tenant.id writers)
    match s.parseUUID peerID with
    | none => throw (invalid "peer_id" "invalid" "must be a UUID")
    | some pid => do reply (← inTx 0 (s.revokePeerTx tenant pid key reason))

def readers : List Role :=
  [.platformAdmin, .tenantAdmin, .supportReadOnly, .automationClient]

def getOperation (caller : Option Principal) (id : String) : Act Operation :=
  match s.parseUUID id with
  | none    => throw (invalid "id" "invalid" "must be a UUID")
  | some id => do
    let op ← row (← query (.operationByID id))
    check (authorizeTenant caller op.tenantID readers)
    pure op

def getPeer (caller : Option Principal) (tenantSlug id : String) : Act Peer := do
  let tenant ← row (← query (.tenantBySlug tenantSlug))
  check (authorizeTenant caller tenant.id readers)
  match s.parseUUID id with
  | none    => throw (invalid "id" "invalid" "must be a UUID")
  | some id => do
    let p ← row (← query (.peerByID id))
    if p.tenantID ≠ tenant.id then throw errNotFound else pure p

-- The configuration of a peer without its secrets.
def skeleton (peer : Peer) (node : Node) (profile : ProtocolProfile) : List Char :=
  Render.amneziaClient
    { clientAddress   := [(Prefix.host peer.allowedIP).string]
      dns             := s.clientDNS
      serverPublicKey := node.serverPublicKey
      serverEndpoint  := node.publicEndpoint
      keepalive       := 25 } { profile with headerProtectionKey := "" }

def peerConfiguration (caller : Option Principal) (tenantSlug peerID : String) : Act (List Char) := do
  let peer ← s.getPeer caller tenantSlug peerID
  let node ← row (← query (.nodeByID peer.nodeID))
  match node.profileID with
  | none => throw (invalid "node_id" "profile_unassigned" "node has no protocol profile assigned")
  | some profileID => do
    let profile ← row (← query (.profileByID profileID))
    pure (s.skeleton peer node profile)

-- The response of the handler.
def getPeerDocument (caller : Option Principal) (tenantSlug id : String) : Act PeerDocument := do
  pure (← s.getPeer caller tenantSlug id).document

end Service
end Api
