import AwgRest.Bootstrap
import AwgRest.Dump
import AwgRest.Lib.FileSystem
import AwgRest.Lib.Interleaving
import AwgRest.RoundTrip.Sanitize
import AwgRest.Worker.Config

open Domain Fallible

-- The executor of the node agent, which writes files and runs the tools of AmneziaWG. Any number of
-- its methods may be running at once.
namespace Cli

structure Path where
  dir  : String
  name : List Char
deriving DecidableEq

abbrev Files := FileSystem Path (List Char)

-- The commands that are run, with what stands in their arguments.
inductive Command
  | strip    (path : Path)
  | up       (path : Path)
  | down     (iface : String)
  | syncconf (iface : String) (path : Path)
  | showconf (iface : String)
  | dump     (iface : String)
  | set      (iface publicKey : String) (psk : Option Path) (allowedIPs endpoint keepalive : Option String)
  | unset    (iface publicKey : String)
  | linkShow (iface : String)
deriving DecidableEq

-- What has been done to an interface.
inductive Change
  | up    (text : List Char)
  | sync  (text : List Char)
  | set   (publicKey : String) (psk : Option (List Char)) (allowedIPs endpoint keepalive : Option String)
  | unset (publicKey : String)
deriving DecidableEq

structure Host where
  files : Files
  -- The interfaces that exist, and what has been done to them since.
  links : String → Option (List Change)

-- The tools, as far as the executor reads what they print: the name of the interface that a file
-- configures, a file without the settings of `awg-quick`, and an interface as it is shown.
structure Tools where
  linkName : Path → String
  strip    : List Char → List Char
  show_    : List Change → List Char
  dump     : List Change → List Char

namespace Tools

variable (T : Tools)

def change (h : Host) (iface : String) (x : Change) :
    Option (List Char × (String → Option (List Change))) :=
  (h.links iface).map fun xs => ([], Function.update h.links iface (some (xs ++ [x])))

-- The output of a command and the interfaces after it, or nothing if it fails.
def perform (h : Host) : Command → Option (List Char × (String → Option (List Change)))
  | .strip p          => (h.files.read p).map fun text => (T.strip text, h.links)
  | .up p             =>
    match h.files.read p, h.links (T.linkName p) with
    | some text, none => some ([], Function.update h.links (T.linkName p) (some [.up text]))
    | _,         _    => none
  | .down iface       => (h.links iface).map fun _ => ([], Function.update h.links iface none)
  | .syncconf iface p => (h.files.read p).bind fun text => change h iface (.sync text)
  | .showconf iface   => (h.links iface).map fun xs => (T.show_ xs, h.links)
  | .dump iface       => (h.links iface).map fun xs => (T.dump xs, h.links)
  | .set iface pub none a e k     => change h iface (.set pub none a e k)
  | .set iface pub (some p) a e k =>
    (h.files.read p).bind fun psk => change h iface (.set pub (some psk) a e k)
  | .unset iface pub  => change h iface (.unset pub)
  | .linkShow iface   => (h.links iface).map fun _ => ([], h.links)

end Tools

-- The calls into the operating system. Files that are open are given by their numbers.
inductive Eff
  | mkdirAll   (dir : String)
  | createTemp (dir : String) (before after : List Char)
  | write      (file : Nat) (text : List Char)
  | chmod      (file : Nat)
  | close      (file : Nat)
  | rename     (old new : Path)
  | remove     (path : Path)
  | readFile   (path : Path)
  | exec       (cmd : Command) (stdout stderr : Nat)

abbrev Eff.Answer : Eff → Type
  | createTemp .. => Path × Nat
  | readFile _    => List Char
  | _             => Unit

abbrev Act (α : Type) := Fallible Err Eff.Answer α

-- What the environment chooses: whether a call fails, the random part of a name, what is left in a
-- file by a write that fails, what a command prints where the model does not say it, and whether a
-- command that fails, since it is killed for example, has changed the interface already.
structure Choice where
  fault  : Option Err := none
  random : List Char := []
  text   : List Char := []
  stderr : List Char := []
  took   : Bool := false

namespace Host

variable (T : Tools) (x : Choice) (h : Host)

def noSuchFile (op : String) (p : Path) : Err :=
  .new (op ++ " " ++ p.dir ++ "/" ++ String.ofList p.name ++ ": no such file or directory")

-- What a command leaves in the files that take its output.
def output (out err : Nat) (text : List Char) : Files :=
  (h.files.write out text).write err x.stderr

def exec : (e : Eff) → Option (Except Err e.Answer × Host)
  | .mkdirAll _ | .chmod _ | .close _ =>
    match x.fault with
    | some e => some (.error e, h)
    | none   => some (.ok (), h)
  | .createTemp dir before after =>
    match x.fault with
    | some e => some (.error e, h)
    | none   =>
      -- Names are tried until one is found that is not in use.
      if x.random ≠ [] ∧ x.random.all Char.isDigit ∧
        h.files.names ⟨dir, before ++ x.random ++ after⟩ = none then
        some (.ok (⟨dir, before ++ x.random ++ after⟩, h.files.created),
          { h with files := h.files.create ⟨dir, before ++ x.random ++ after⟩ [] })
      else none
  | .write f text =>
    match x.fault with
    | some e => some (.error e, { h with files := h.files.write f x.text })
    | none   => some (.ok (), { h with files := h.files.write f text })
  | .rename old new =>
    match x.fault, hn : h.files.names old with
    | some e, _      => some (.error e, h)
    | none,   none   => some (.error (noSuchFile "rename" old), h)
    | none,   some n => some (.ok (), { h with files := h.files.rename old new n hn })
  | .remove p =>
    match x.fault, h.files.names p with
    | some e, _      => some (.error e, h)
    | none,   none   => some (.error (noSuchFile "remove" p), h)
    | none,   some _ => some (.ok (), { h with files := h.files.remove p })
  | .readFile p =>
    match x.fault, h.files.read p with
    | some e, _         => some (.error e, h)
    | none,   none      => some (.error (noSuchFile "open" p), h)
    | none,   some text => some (.ok text, h)
  | .exec cmd out err =>
    match x.fault, T.perform h cmd with
    | none,   some (text, links) => some (.ok (), { files := h.output x out err text, links := links })
    | none,   none   => some (.error (.new "exit status 1"), { h with files := h.output x out err x.text })
    | some e, r      =>
      some (.error e,
        { files := h.output x out err x.text
          links := if x.took then (r.map Prod.snd).getD h.links else h.links })

end Host

structure CLIExecutor where
  awgBinary          : String := "awg"
  awgQuickBinary     : String := "awg-quick"
  renderedDir        : String := "/etc/amnezia/rendered"
  bootstrapConfigDir : String := "/etc/amnezia/bootstrap"
  -- `os.TempDir`, `filepath.Join` and the verb `%q`.
  tempDir            : String := "/tmp"
  join               : String → String → String
  quote              : String → String

-- The body of a function that removes a file when it returns.
def deferRemove {α : Type} (p : Path) (body : Act α) : Act α := do
  let r ← attempt body
  let _ ← attempt (call (Eff.remove p))
  match r with
  | .ok a    => pure a
  | .error e => throw e

namespace CLIExecutor

variable (c : CLIExecutor)

def text (p : Path) : String :=
  c.join p.dir (String.ofList p.name)

def argv : Command → String × List String
  | .strip p             => (c.awgQuickBinary, ["strip", c.text p])
  | .up p                => (c.awgQuickBinary, ["up", c.text p])
  | .down iface          => (c.awgQuickBinary, ["down", iface])
  | .syncconf iface p    => (c.awgBinary, ["syncconf", iface, c.text p])
  | .showconf iface      => (c.awgBinary, ["showconf", iface])
  | .dump iface          => (c.awgBinary, ["show", iface, "dump"])
  | .set iface pub psk a e k =>
    (c.awgBinary, ["set", iface, "peer", pub] ++ (psk.elim [] fun p => ["preshared-key", c.text p]) ++
      (a.elim [] fun a => ["allowed-ips", a]) ++ (e.elim [] fun e => ["endpoint", e]) ++
      (k.elim [] fun k => ["persistent-keepalive", k]))
  | .unset iface pub     => (c.awgBinary, ["set", iface, "peer", pub, "remove"])
  | .linkShow iface      => ("ip", ["link", "show", iface])

def failed (cmd : Command) (e : Err) (stderr : List Char) : Err :=
  let (name, args) := c.argv cmd
  e.wrap ("awg: " ++ name ++ " [" ++ " ".intercalate args ++ "] failed: ")
    (" (stderr=" ++ c.quote (String.ofList stderr) ++ ")")

-- Only the standard output is of use to the callers.
def run (cmd : Command) : Act (List Char) := do
  let out ← (call (Eff.createTemp c.tempDir "awg-stdout-".toList []) : Act (Path × Nat))
  deferRemove out.1 do
    match ← attempt (call (Eff.createTemp c.tempDir "awg-stderr-".toList []) : Act (Path × Nat)) with
    | .error e => do
      let _ ← attempt (call (Eff.close out.2))
      throw e
    | .ok err => deferRemove err.1 do
      let runErr ← attempt (call (Eff.exec cmd out.2 err.2))
      let _ ← attempt (call (Eff.close out.2))
      let _ ← attempt (call (Eff.close err.2))
      let stdout ← (call (Eff.readFile out.1) : Act (List Char))
      let stderr ← (call (Eff.readFile err.1) : Act (List Char))
      match runErr with
      | .error e => throw (c.failed cmd e stderr)
      | .ok _    => pure stdout

def validateInterfaceName (iface : String) : Act Unit :=
  if !Awg.validInterfaceName iface then throw (.new ("awg: invalid interface name " ++ c.quote iface))
  else pure ()

def confFile (dir iface : String) : Path where
  dir  := dir
  name := iface.toList ++ ".conf".toList

def rendered (iface : String) : Path :=
  confFile c.renderedDir iface

def bootstrap (iface : String) : Path :=
  confFile (if c.bootstrapConfigDir ≠ "" then c.bootstrapConfigDir else "/etc/amnezia/bootstrap") iface

def writeAtomic (path : Path) (data : List Char) : Act Unit := do
  let tmp ← (call (Eff.createTemp path.dir ".tmp-".toList []) : Act (Path × Nat))
  match ← attempt (call (Eff.write tmp.2 data)) with
  | .error e => do
    let _ ← attempt (call (Eff.close tmp.2))
    let _ ← attempt (call (Eff.remove tmp.1))
    throw e
  | .ok _ =>
    match ← attempt (call (Eff.chmod tmp.2)) with
    | .error e => do
      let _ ← attempt (call (Eff.close tmp.2))
      let _ ← attempt (call (Eff.remove tmp.1))
      throw e
    | .ok _ =>
      match ← attempt (call (Eff.close tmp.2)) with
      | .error e => do
        let _ ← attempt (call (Eff.remove tmp.1))
        throw e
      | .ok _ => call (Eff.rename tmp.1 path)

def fromBootstrap (iface : String) (config : List Char) : Act (List Char) := do
  match ← attempt (call (Eff.readFile (c.bootstrap iface)) : Act (List Char)) with
  | .ok b    => pure (Awg.preserveInterfacePrivateKey config b)
  | .error _ => pure config

def preservePrivateKey (iface : String) (config : List Char) : Act (List Char) := do
  if Awg.interfaceValue config "PrivateKey" ≠ [] then pure config
  else
    match ← attempt (c.run (.showconf iface)) with
    | .ok current =>
      if Awg.interfaceValue (Awg.preserveInterfacePrivateKey config current) "PrivateKey" ≠ [] then
        pure (Awg.preserveInterfacePrivateKey config current)
      else c.fromBootstrap iface (Awg.preserveInterfacePrivateKey config current)
    | .error _ => c.fromBootstrap iface config

-- Writes a file that has just been created and closes it.
def fill (file : Nat) (text : List Char) : Act Unit := do
  match ← attempt (call (Eff.write file text)) with
  | .error e => do
    let _ ← attempt (call (Eff.close file))
    throw e
  | .ok _ => call (Eff.close file)

def syncConf (iface : String) (config : List Char) : Act Unit := do
  c.validateInterfaceName iface
  let config ← c.preservePrivateKey iface config
  mapErr (·.wrap "rendered dir: ") (call (Eff.mkdirAll c.renderedDir))
  writeAtomic (c.rendered iface) config
  let stripped ← c.run (.strip (c.rendered iface))
  let tmp ← (call (Eff.createTemp c.renderedDir (iface.toList ++ "-stripped-".toList)
    ".conf".toList) : Act (Path × Nat))
  deferRemove tmp.1 do
    fill tmp.2 (Awg.sanitizeSyncConf stripped)
    let _ ← c.run (.syncconf iface tmp.1)

def joinCSV (xs : List String) : String :=
  ",".intercalate xs

def setArgs (iface : String) (p : Awg.PeerSpec) (psk : Option Path) : Command :=
  .set iface p.publicKey psk (if p.allowedIPs = [] then none else some (joinCSV p.allowedIPs))
    (if p.endpoint = "" then none else some p.endpoint)
    (if 0 < p.keepaliveSecs then some (toString p.keepaliveSecs) else none)

def setPeer (iface : String) (p : Awg.PeerSpec) : Act Unit := do
  c.validateInterfaceName iface
  if p.presharedKey ≠ "" then
    let f ← (call (Eff.createTemp c.tempDir "awg-psk-".toList []) : Act (Path × Nat))
    deferRemove f.1 do
      fill f.2 p.presharedKey.toList
      let _ ← c.run (setArgs iface p (some f.1))
  else
    let _ ← c.run (setArgs iface p none)

def removePeer (iface publicKey : String) : Act Unit := do
  c.validateInterfaceName iface
  let _ ← c.run (.unset iface publicKey)

def showDump (iface : String) : Act (Awg.InterfaceRuntime × List Awg.PeerRuntime) := do
  c.validateInterfaceName iface
  let out ← c.run (.dump iface)
  match Awg.parseShowDump (c.quote ∘ String.ofList) out with
  | .ok r    => pure r
  | .error e => throw e

def showConf (iface : String) : Act (List Char) := do
  c.validateInterfaceName iface
  c.run (.showconf iface)

-- No path stands for the empty one.
def upPath (iface : String) (configPath : Option Path) : Path :=
  configPath.getD (c.bootstrap iface)

def interfaceUp (iface : String) (configPath : Option Path) : Act Unit := do
  c.validateInterfaceName iface
  match ← attempt (c.run (.linkShow iface)) with
  | .ok _    => pure ()
  | .error _ => do let _ ← c.run (.up (c.upPath iface configPath))

def interfaceDown (iface : String) : Act Unit := do
  c.validateInterfaceName iface
  match ← attempt (c.run (.linkShow iface)) with
  | .error _ => pure ()
  | .ok _    => do let _ ← c.run (.down iface)

end CLIExecutor

-- The calls of the executor's methods.
inductive Kind
  | syncConf      (iface : String) (config : List Char)
  | setPeer       (iface : String) (p : Awg.PeerSpec)
  | removePeer    (iface publicKey : String)
  | showDump      (iface : String)
  | showConf      (iface : String)
  | interfaceUp   (iface : String) (configPath : Option Path)
  | interfaceDown (iface : String)

inductive Result
  | done
  | dump (r : Awg.InterfaceRuntime × List Awg.PeerRuntime)
  | text (conf : List Char)

namespace CLIExecutor

variable (c : CLIExecutor)

def prog : Kind → Act Result
  | .syncConf iface config  => do c.syncConf iface config; pure .done
  | .setPeer iface p        => do c.setPeer iface p; pure .done
  | .removePeer iface pub   => do c.removePeer iface pub; pure .done
  | .showDump iface         => do pure (.dump (← c.showDump iface))
  | .showConf iface         => do pure (.text (← c.showConf iface))
  | .interfaceUp iface path => do c.interfaceUp iface path; pure .done
  | .interfaceDown iface    => do c.interfaceDown iface; pure .done

-- A call that dies leaves its files behind.
def system (T : Tools) :
    System (fun e : Eff => Except Err e.Answer) Host Choice Kind Unit (Except Err Result) where
  exec  := fun x _ h e => h.exec T x e
  prog  := fun k => (c.prog k).run
  abort := fun _ h => h
  tick  := fun _ h => h

end CLIExecutor

abbrev Ev := Event (fun e : Eff => Except Err e.Answer) Kind Unit (Except Err Result)
abbrev Conf := Config (fun e : Eff => Except Err e.Answer) Host (Except Err Result)

def boot (h : Host) : Conf where
  world := h
  procs := fun _ => .unused

namespace Sample

def tools : Tools where
  linkName := fun p => String.ofList (p.name.dropLast.dropLast.dropLast.dropLast.dropLast)
  strip    := id
  show_    := fun _ => []
  dump     := fun _ => []

def cli : CLIExecutor where
  join  := fun dir name => dir ++ "/" ++ name
  quote := id

def files : Files where
  names    := fun _ => none
  data     := fun _ => []
  created  := 0
  numbered := nofun
  single   := nofun

-- An interface to which nothing has been done.
def host : Host where
  files := files
  links := fun i => if i = "awg0" then some [] else none

def config (key : String) : List Char :=
  "[Interface]\nPrivateKey = ".toList ++ key.toList

-- The next effects of a call, none of which fails. The call's temporary files have the number `d`.
def steps (pid : Nat) (d : Char) (n : Nat) : List (System.Move Choice Kind Unit) :=
  List.replicate n (.act pid { random := [d] })

end Sample

end Cli
