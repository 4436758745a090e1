import AwgRest.Bootstrap
import AwgRest.Lib.Discipline
import AwgRest.Worker.Apply

open Domain Store Fallible Text

-- The agent on a node, which applies the configurations that it is sent.
namespace NodeAgent

inductive Response
  | problem (status : Int) (code detail : String)
  | noContent
  | text (body : List Char)
deriving DecidableEq

-- Whether the part of a line before the first `=` names a secret.
def isSecretKey (key : List Char) : Bool :=
  String.ofList ((trimSpace key).map toLower) ∈ ["privatekey", "presharedkey", "headerprotectionkey"]

def isSecretConfigLine (line : List Char) : Bool :=
  (cut '=' line).any fun (key, _) => isSecretKey key

def redactLine (line : List Char) : List Char :=
  match cut '=' line with
  | none          => line
  | some (key, _) =>
    if isSecretConfigLine line then
      key.rdropWhile (fun c => c = ' ' ∨ c = '\t') ++ " = (redacted)".toList
    else line

def redactConfigSecrets (conf : List Char) : List Char :=
  ['\n'].intercalate ((conf.splitOn '\n').map redactLine)

-- The body is what could be read of the request, or the text of the error.
def syncConfHandler (iface : String) (body : Except String Awg.Conf) : Act Response := do
  if !Awg.validInterfaceName iface then
    pure (.problem 400 "invalid_iface"
      "interface name must be 1-15 ASCII letters, digits, dot, dash, or underscore")
  else
    match body with
    | .error text => pure (.problem 400 "bad_request" text)
    | .ok body    => do
      let config ← match ← attempt (call (Eff.showConf iface)) with
        | .error _    => pure body
        | .ok current => pure { body with text := Awg.preserveInterfacePrivateKey body.text current }
      match ← attempt (call (Eff.syncConf iface config)) with
      | .error e => pure (.problem 500 "syncconf_failed" e.text)
      | .ok _    => pure .noContent

def showconfHandler (iface : String) : Act Response := do
  if !Awg.validInterfaceName iface then
    pure (.problem 400 "invalid_iface"
      "interface name must be 1-15 ASCII letters, digits, dot, dash, or underscore")
  else
    match ← attempt (call (Eff.showConf iface)) with
    | .error e => pure (.problem 500 "show_conf_failed" e.text)
    | .ok conf => pure (.text (redactConfigSecrets conf))

-- The client of an agent. Only the path of its base URL is used, in the texts of errors.
structure RemoteExecutor where
  basePath : String

namespace RemoteExecutor

variable (r : RemoteExecutor)

-- The error for a response with a status of 400 or more.
def problem (method path : String) (status : Int) (detail : String) : Err :=
  .new ("nodeagent " ++ method ++ " " ++ r.basePath ++ path ++ ": " ++ toString status ++ " " ++
    String.ofList (trimSpace detail.toList))

def syncConf (iface : String) (conf : Awg.Conf) : Act Unit := do
  match ← syncConfHandler iface (.ok conf) with
  | .problem status _ detail =>
    throw (r.problem "POST" ("/v1/iface/" ++ iface ++ "/syncconf") status detail)
  | _ => pure ()

def showConf (iface : String) : Act (List Char) := do
  match ← showconfHandler iface with
  | .problem status _ detail =>
    throw (r.problem "GET" ("/v1/iface/" ++ iface ++ "/showconf") status detail)
  | .noContent => pure []
  | .text body => pure body

-- The calls of a worker whose executor is the remote one.
def perform : (e : Eff) → Act e.Answer
  | .syncConf iface conf => r.syncConf iface conf
  | .showConf iface      => r.showConf iface
  | e                    => call e

end RemoteExecutor
end NodeAgent

-- A world in which the executor remembers the configuration that was applied last to each interface.
structure Host extends World where
  confs : String → List Char

namespace Host

-- What `ShowConf` returns is what was applied last. An interface that is brought up gets what its
-- bootstrap file says, which can be anything.
def exec (x : Choice) (pid : Nat) (h : Host) (e : Eff) : Option (Except Err e.Answer × Host) :=
  (World.exec { x with text := shown e } pid h.toWorld e).map fun (r, w) => (r, ⟨w, confs e r⟩)
where
  shown : Eff → List Char
    | .showConf iface => h.confs iface
    | _               => x.text
  confs : (e : Eff) → Except Err e.Answer → String → List Char
    | .syncConf iface conf, .ok _ => Function.update h.confs iface conf.text
    | .interfaceUp iface _, .ok _ =>
      if (h.runtime iface).isNone then Function.update h.confs iface x.text else h.confs
    | _,                    _     => h.confs

def abort (pid : Nat) (h : Host) : Host :=
  { h with toWorld := h.toWorld.abort pid }

def tick (d : Nat) (h : Host) : Host :=
  { h with toWorld := h.toWorld.tick d }

-- The calls that apply configurations.
inductive Call
  | applyNode (nodeID : UUID)
  | syncConf  (iface : String) (body : Except String Awg.Conf)

def system (w : Worker) :
    System (fun e : Eff => Except Err e.Answer) Host Choice Call Nat (Except Err NodeAgent.Response) where
  exec  := exec
  prog
    | .applyNode nodeID    => (do w.applyNode nodeID; pure .noContent : Act NodeAgent.Response).run
    | .syncConf iface body => (NodeAgent.syncConfHandler iface body).run
  abort := abort
  tick  := tick

end Host
