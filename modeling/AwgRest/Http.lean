import AwgRest.Api.Problem
import AwgRest.Auth.Token
import AwgRest.Lib.Front
import AwgRest.RateLimit
import AwgRest.System

open Domain Store Auth Api

-- The HTTP interface of the API.
namespace Http

-- The routes of the router, with the parameters of their paths.
inductive Route
  | healthLive
  | healthReady
  | getOperation         (id : String)
  | createPeer           (tenant : String)
  | getPeer              (tenant peerID : String)
  | getPeerConfiguration (tenant peerID : String)
  | revokePeer           (tenant peerID : String)
deriving DecidableEq

-- A request for a route. Headers and query parameters that are missing are empty.
structure Request where
  route            : Route
  requestID        : String := ""
  authorization    : String := ""
  idempotencyKey   : String := ""
  clientPrivateKey : String := ""
  body             : String := ""
deriving DecidableEq

abbrev Header := List (String × String)

def Header.set (h : Header) (name value : String) : Header :=
  h.filter (·.1 ≠ name) ++ [(name, value)]

inductive Body
  | problem   (p : Problem)
  | created   (r : CreatePeerResponse)
  | revoked   (operationID status : String)
  | peer      (p : PeerDocument)
  | operation (o : Operation)
  | config    (text : List Char)
  | status    (text : String)
deriving DecidableEq

structure Response where
  status : Int
  header : Header
  body   : Body
deriving DecidableEq

def writeJSON (h : Header) (status : Int) (body : Body) : Response where
  status := status
  header := h.set "Content-Type" "application/json"
  body   := body

def writeError (h : Header) (e : Failure) : Response :=
  let p := Problem.fromError e
  { status := p.status
    header := h.set "Content-Type" "application/problem+json"
    body   := .problem p }

-- What the interface needs besides the effects of the service: identifiers, clock readings, the
-- limiter, and the connection to the database.
inductive Need
  | newID
  | clock
  | allow (key : String)
  | ping
deriving DecidableEq

-- A call of the limiter reads the clock.
abbrev Need.Answer : Need → Type
  | newID   => UUID
  | clock   => Int
  | allow _ => Int × RateLimit.Outcome
  | ping    => Option Err

abbrev Reply (e : Eff) := Except Err e.Answer
abbrev Serve (α : Type) := Prog (Sum.elim Reply Need.Answer) α

def need (f : Need) : Serve f.Answer :=
  .op (.inr f) .ret

-- A call of the service.
def service {α : Type} (x : Act α) : Serve (Except Err α) :=
  x.run.lift Need.Answer

-- The parts of the server, and the JSON decoder.
structure Server where
  plane        : ControlPlane
  jwt          : Jwt
  validator    : Validator
  decodeCreate : String → Except String CreatePeerRequest
  decodeReason : String → String

namespace Server

variable (H : Server)

-- The middleware. Each hands a request to the next one or answers it.

def requestID (req : Request) (next : Header → Serve Response) : Serve Response :=
  if req.requestID = "" then do
    let id ← need .newID
    next [("X-Request-Id", id.string)]
  else next [("X-Request-Id", req.requestID)]

def bearer (req : Request) : Option String :=
  if "Bearer ".toList.isPrefixOf req.authorization.toList then
    some (String.ofList (req.authorization.toList.drop 7))
  else none

def authenticator (req : Request) (h : Header) (next : Identity → Serve Response) : Serve Response :=
  match bearer req with
  | none     => pure (writeError h (.of (.sentinel .unauthorized)))
  | some tok => do
    let now ← need .clock
    match H.validator.validate H.jwt now tok with
    | .error e => pure (writeError h (.of (.join [.sentinel .unauthorized, e])))
    | .ok p    => next p

def requireRoles (roles : List Role) (p : Identity) (h : Header) (next : Serve Response) :
    Serve Response :=
  if !p.hasAnyRole roles then pure (writeError h (.of (.sentinel .forbidden))) else next

def limitKey (p : Identity) (tenant : String) : String :=
  p.subjectID.string ++ "|" ++ tenant

def rateLimit (p : Identity) (tenant : String) (h : Header) (next : Serve Response) :
    Serve Response := do
  let (_, outcome) ← need (.allow (limitKey p tenant))
  match outcome with
  | .next                   => next
  | .rateLimited none       => pure (writeError h errRateLimited)
  | .rateLimited (some secs) => pure (writeError (h.set "Retry-After" secs) errRateLimited)

-- The handlers. What they write depends on what the service returns.

def writeCreated (h : Header) : Except Err (CreatePeerResponse × Int) → Response
  | .error e           => writeError h (.of e)
  | .ok (resp, status) => writeJSON h status (.created resp)

def writeRevoked (h : Header) : Except Err UUID → Response
  | .error e  => writeError h (.of e)
  | .ok opID  => writeJSON h 202 (.revoked opID.string "pending")

def writePeer (h : Header) : Except Err Peer → Response
  | .error e => writeError h (.of e)
  | .ok peer => writeJSON h 200 (.peer peer.document)

def writeConfiguration (h : Header) : Except Err (List Char) → Response
  | .error e => writeError h (.of e)
  | .ok cfg  =>
    { status := 200
      header := (h.set "Content-Type" "text/plain; charset=utf-8").set "Cache-Control" "no-store"
      body   := .config cfg }

def writeOperation (h : Header) : Except Err Operation → Response
  | .error e => writeError h (.of e)
  | .ok op   => writeJSON h 200 (.operation op)

def createPeer (req : Request) (tenant : String) (p : Identity) (h : Header) : Serve Response :=
  match H.decodeCreate req.body with
  | .error text => pure (writeError h (.of (.validation [⟨"body", "invalid_json", text⟩])))
  | .ok r       => do
    let resp ← service (H.plane.service.createPeer (some p.toPrincipal) tenant req.idempotencyKey r)
    pure (writeCreated h resp)

def getPeer (tenant id : String) (p : Identity) (h : Header) : Serve Response := do
  let peer ← service (H.plane.service.getPeer (some p.toPrincipal) tenant id)
  pure (writePeer h peer)

def revokePeer (req : Request) (tenant id : String) (p : Identity) (h : Header) : Serve Response := do
  let opID ← service (H.plane.service.revokePeer (some p.toPrincipal) tenant id req.idempotencyKey
    (H.decodeReason req.body))
  pure (writeRevoked h opID)

def getPeerConfiguration (req : Request) (tenant id : String) (p : Identity) (h : Header) :
    Serve Response :=
  if req.clientPrivateKey ≠ "" then
    pure (writeError h (.of (.validation [⟨"client_private_key", "unsupported",
      "client private keys must not be sent in query parameters"⟩])))
  else do
    let cfg ← service (H.plane.service.peerConfiguration (some p.toPrincipal) tenant id)
    pure (writeConfiguration h cfg)

def getOperation (id : String) (p : Identity) (h : Header) : Serve Response := do
  let op ← service (H.plane.service.getOperation (some p.toPrincipal) id)
  pure (writeOperation h op)

def healthReady (h : Header) : Serve Response := do
  match ← need .ping with
  | some e => pure (writeError h (.of e))
  | none   => pure (writeJSON h 200 (.status "ready"))

-- The roles for reading and for writing.

def readers : List Role :=
  [.platformAdmin, .tenantAdmin, .supportReadOnly, .automationClient]

def writers : List Role :=
  [.tenantAdmin, .platformAdmin, .automationClient]

def reading (req : Request) (h : Header) (handler : Identity → Header → Serve Response) :
    Serve Response :=
  H.authenticator req h fun p => requireRoles readers p h (handler p h)

def writing (req : Request) (tenant : String) (h : Header)
    (handler : Identity → Header → Serve Response) :
    Serve Response :=
  H.authenticator req h fun p => rateLimit p tenant h (requireRoles writers p h (handler p h))

def router (req : Request) : Serve Response :=
  requestID req fun h =>
    match req.route with
    | .healthLive                     => pure (writeJSON h 200 (.status "ok"))
    | .healthReady                    => healthReady h
    | .getOperation id                => H.reading req h (H.getOperation id)
    | .getPeer tenant id              => H.reading req h (H.getPeer tenant id)
    | .getPeerConfiguration tenant id => H.reading req h (H.getPeerConfiguration req tenant id)
    | .createPeer tenant              => H.writing req tenant h (H.createPeer req tenant)
    | .revokePeer tenant id           => H.writing req tenant h (H.revokePeer req tenant id)

end Server

-- The server in front of the control plane. Workers and commands run beside it.

inductive Kind
  | request    (req : Request)
  | background (k : ControlPlane.Kind)
deriving DecidableEq

inductive Result
  | response   (r : Response)
  | background (r : Except Err ControlPlane.Result)

-- What the environment chooses for a need.
structure Draw where
  id    : UUID := 0
  time  : Int := 0
  fault : Option Fault := none

def perform (d : Draw) (limiter : Option RateLimit.TokenBucket) :
    (f : Need) → f.Answer × Option RateLimit.TokenBucket
  | .newID     => (d.id, limiter)
  | .clock     => (d.time, limiter)
  | .allow key =>
    let (outcome, limiter) := RateLimit.middleware limiter key d.time
    ((d.time, outcome), limiter)
  | .ping      => (d.fault.map Fault.err, limiter)

namespace Server

variable (H : Server)

def prog : Kind → Serve Result
  | .request req  => do pure (.response (← H.router req))
  | .background k => do pure (.background (← service (H.plane.prog k)))

def front : System.Front Reply Need.Answer World (Option RateLimit.TokenBucket) Draw Kind Result where
  exec d _ limiter f := some (perform d limiter f)
  prog               := H.prog

abbrev system := H.front.over H.plane.system

end Server

abbrev Ev := Event (Sum.elim Reply Need.Answer) Kind Nat Result
abbrev Conf := Config (Sum.elim Reply Need.Answer) (World × Option RateLimit.TokenBucket) Result

def boot (w : World) (limiter : Option RateLimit.TokenBucket) : Conf where
  world := (w, limiter)
  procs := fun _ => .unused

end Http
