import AwgRest.Domain

namespace Api

structure CreatePeerRequest where
  externalID  : String
  displayName : String := ""
  nodeID      : Option String := none
  profileID   : Option String := none
  profileName : Option String := none
  publicKey   : Option String := none
  expiresAt   : Option Time := none
deriving DecidableEq

structure CreatePeerResponse where
  operationID  : String := ""
  peerID       : String := ""
  status       : String := ""
  allowedIP    : String := ""
  publicKey    : String := ""
  privateKey   : String := ""
  clientConfig : List Char := []
  presharedKey : String := ""
  nodeID       : String := ""
  profileID    : String := ""
deriving DecidableEq

-- The response without the material that is handed out only once.
def CreatePeerResponse.safe (r : CreatePeerResponse) : CreatePeerResponse :=
  { r with privateKey := "", clientConfig := [], presharedKey := "" }

-- The documents that are stored with an idempotency key.
inductive Body
  | created (r : CreatePeerResponse)
  | revoked (operationID : String)
deriving DecidableEq

-- `json.Unmarshal` into a response
def Body.response : Body → CreatePeerResponse
  | created r => r
  | revoked o => { operationID := o }

-- What a peer looks like in a response. The preshared key is not part of the document.
structure PeerDocument where
  id              : UUID
  tenantID        : UUID
  nodeID          : UUID
  profileID       : UUID
  externalID      : String
  displayName     : String
  publicKey       : String
  allowedIP       : String
  state           : Domain.PeerState
  desiredRevision : Int
  appliedRevision : Int
  createdAt       : Time
  updatedAt       : Time
  expiresAt       : Option Time
  revokedAt       : Option Time
deriving DecidableEq

end Api

open Netip in
def Domain.Peer.document (p : Domain.Peer) : Api.PeerDocument where
  id              := p.id
  tenantID        := p.tenantID
  nodeID          := p.nodeID
  profileID       := p.profileID
  externalID      := p.externalID
  displayName     := p.displayName
  publicKey       := p.publicKey
  allowedIP       := (Prefix.host p.allowedIP).string
  state           := p.state
  desiredRevision := p.desiredRevision
  appliedRevision := p.appliedRevision
  createdAt       := p.createdAt
  updatedAt       := p.updatedAt
  expiresAt       := p.expiresAt
  revokedAt       := p.revokedAt
