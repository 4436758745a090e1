import AwgRest.FakeExecutor
import AwgRest.Lib.Json
import AwgRest.Lib.Url
import AwgRest.NodeAgent

open Domain Awg

-- The calls for single peers and for the dump, from the client of an agent to its executor.
namespace NodeAgent

abbrev Document := Json (Option Time)

-- The forms of the wire protocol. Keys that are secret are no part of them.

def encodeSpec (p : PeerSpec) : Document :=
  .obj <|
    ("public_key", .str p.publicKey) ::
    Json.omitEmpty "preshared_key" (p.presharedKey = "") (.str p.presharedKey) ++
    ("allowed_ips", .arr (p.allowedIPs.map .str)) ::
    Json.omitEmpty "endpoint" (p.endpoint = "") (.str p.endpoint) ++
    Json.omitEmpty "keepalive_secs" (p.keepaliveSecs = 0) (.num p.keepaliveSecs)

def decodeSpec : Document → Except String PeerSpec
  | .obj fields => do
    pure {
      publicKey     := ← (Json.obj fields).field "public_key" |>.asString
      presharedKey  := ← (Json.obj fields).field "preshared_key" |>.asString
      allowedIPs    := ← (Json.obj fields).field "allowed_ips" |>.asList Json.asString
      endpoint      := ← (Json.obj fields).field "endpoint" |>.asString
      keepaliveSecs := ← (Json.obj fields).field "keepalive_secs" |>.asInt }
  | .null       => .ok {}
  | v           => v.mismatch "nodeagent.PeerSpec"

def encodeRuntime (p : PeerRuntime) : Document :=
  .obj <|
    ("public_key", .str p.publicKey) ::
    Json.omitEmpty "endpoint" (p.endpoint = "") (.str p.endpoint) ++
    ("allowed_ips", .arr (p.allowedIPs.map .str)) ::
    ("last_handshake", .time p.lastHandshake) ::
    ("rx_bytes", .num p.rxBytes) ::
    ("tx_bytes", .num p.txBytes) ::
    Json.omitEmpty "keepalive_secs" (p.keepaliveSecs = 0) (.num p.keepaliveSecs) ++
    Json.omitEmpty "keepalive_range" (p.keepaliveRange = "") (.str p.keepaliveRange)

def decodeRuntime : Document → Except String PeerRuntime
  | .obj fields => do
    pure {
      publicKey      := ← (Json.obj fields).field "public_key" |>.asString
      endpoint       := ← (Json.obj fields).field "endpoint" |>.asString
      allowedIPs     := ← (Json.obj fields).field "allowed_ips" |>.asList Json.asString
      lastHandshake  := ← (Json.obj fields).field "last_handshake" |>.asTime none
      rxBytes        := ← (Json.obj fields).field "rx_bytes" |>.asInt
      txBytes        := ← (Json.obj fields).field "tx_bytes" |>.asInt
      keepaliveSecs  := ← (Json.obj fields).field "keepalive_secs" |>.asInt
      keepaliveRange := ← (Json.obj fields).field "keepalive_range" |>.asString }
  | .null       => .ok {}
  | v           => v.mismatch "nodeagent.PeerRuntime"

def encodeInterface (i : InterfaceRuntime) : Document :=
  .obj [("public_key", .str i.publicKey), ("listen_port", .num i.listenPort),
    ("fw_mark", .num i.fwMark)]

def decodeInterface : Document → Except String InterfaceRuntime
  | .obj fields => do
    pure {
      publicKey  := ← (Json.obj fields).field "public_key" |>.asString
      listenPort := ← (Json.obj fields).field "listen_port" |>.asInt
      fwMark     := ← (Json.obj fields).field "fw_mark" |>.asInt }
  | .null       => .ok {}
  | v           => v.mismatch "nodeagent.InterfaceRuntime"

-- A time is written if its year has four digits, and the zero time has year 1.
def marshals (t : Option Time) : Bool :=
  t.all fun t => -62167219200000000 ≤ t ∧ t < 253402300800000000

-- Without peers there is no list of them.
def encodeDump (i : InterfaceRuntime) (peers : List PeerRuntime) : Option Document :=
  if peers.all (marshals ·.lastHandshake) then
    some <| .obj [("interface", encodeInterface i),
      ("peers", if peers = [] then .null else .arr (peers.map encodeRuntime))]
  else none

def decodeDump : Document → Except String (InterfaceRuntime × List PeerRuntime)
  | .obj fields => do
    let i ← decodeInterface ((Json.obj fields).field "interface")
    let peers ← ((Json.obj fields).field "peers").asList decodeRuntime
    pure (i, peers)
  | .null       => .ok ({}, [])
  | v           => v.mismatch "nodeagent.DumpResponse"

-- A document that cannot be encoded leaves an empty body.
inductive Reply
  | problem (status : Int) (code detail : String)
  | noContent
  | json (body : Option Document)

section Server

variable {σ α : Type} (e : Executor σ)

def Reply.of (code : String) (ok : α → Reply) : Except Err α → Reply
  | .error err => .problem 500 code err.text
  | .ok a      => ok a

def withIface (iface : String) (handler : StateM σ Reply) : StateM σ Reply :=
  if validInterfaceName iface then handler
  else pure (.problem 400 "invalid_iface"
    "interface name must be 1-15 ASCII letters, digits, dot, dash, or underscore")

def setPeerHandler (iface : String) (body : Document) : StateM σ Reply :=
  withIface iface <|
    match decodeSpec body with
    | .error text => pure (.problem 400 "bad_json" text)
    | .ok spec    => Reply.of "set_peer_failed" (fun _ => .noContent) <$> e.setPeer iface spec

def removePeerHandler (iface pub : String) : StateM σ Reply :=
  withIface iface <|
    Reply.of "remove_peer_failed" (fun _ => .noContent) <$> e.removePeer iface pub

def dumpHandler (iface : String) : StateM σ Reply :=
  withIface iface <|
    Reply.of "show_dump_failed" (fun (i, peers) => .json (encodeDump i peers)) <$> e.showDump iface

inductive Method
  | get
  | post
  | delete
deriving DecidableEq

def Method.text : Method → String
  | get    => "GET"
  | post   => "POST"
  | delete => "DELETE"

structure Request where
  method : Method
  target : List Char
  body   : Document := .null

-- The path that is matched, and whose segments are the parameters as they stand.
def routePath (u : Url.URL) : List Char :=
  if u.rawPath ≠ [] then u.rawPath else u.path

-- The routes of these handlers.
def route (body : Document) : Method → List String → StateM σ Reply
  | .post,   ["", "v1", "iface", iface, "peers"]      => setPeerHandler e iface body
  | .delete, ["", "v1", "iface", iface, "peers", pub] => removePeerHandler e iface pub
  | .get,    ["", "v1", "iface", iface, "dump"]       => dumpHandler e iface
  | _,       _                                        => pure (.problem 404 "" "")

def serve (req : Request) : StateM σ Reply :=
  match Url.setPath req.target with
  | none   => pure (.problem 400 "" "")
  | some u => route e req.body req.method (((routePath u).splitOn '/').map String.ofList)

end Server

namespace RemoteExecutor

variable {σ : Type} (r : RemoteExecutor) (e : Executor σ)

def ifacePath (iface : String) (rest : List Char) : List Char :=
  "/v1/iface/".toList ++ Url.pathEscape iface.toList ++ rest

-- There is no request for a path that cannot be read; those that are built here can.
def send (method : Method) (path : List Char) (body : Document := .null) :
    StateM σ (Except Err Reply) :=
  match Url.setPath path with
  | none   => pure (.error (.new "invalid URL escape"))
  | some u => check u <$> serve e { method, target := u.escapedPath, body }
where
  check (u : Url.URL) : Reply → Except Err Reply
    | .problem status _ detail => .error (r.problem method.text (String.ofList u.path) status detail)
    | reply                    => .ok reply

def setPeer (iface : String) (p : PeerSpec) : StateM σ (Except Err Unit) :=
  (·.map fun _ => ()) <$> r.send e .post (ifacePath iface "/peers".toList) (encodeSpec p)

def removePeer (iface publicKey : String) : StateM σ (Except Err Unit) :=
  (·.map fun _ => ()) <$>
    r.send e .delete (ifacePath iface ("/peers/".toList ++ Url.pathEscape publicKey.toList))

def readDump : Reply → Except Err (InterfaceRuntime × List PeerRuntime)
  | .json (some body) => (decodeDump body).mapError .new
  | _                 => .error (.new "EOF")

def showDump (iface : String) : StateM σ (Except Err (InterfaceRuntime × List PeerRuntime)) :=
  (·.bind readDump) <$> r.send e .get (ifacePath iface "/dump".toList)

-- The executor that calls an agent with another one.
def executor : Executor σ where
  setPeer    := r.setPeer e
  removePeer := r.removePeer e
  showDump   := r.showDump e

end RemoteExecutor
end NodeAgent
