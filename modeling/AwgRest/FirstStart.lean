import AwgRest.Bootstrap

open Domain Netip Store Fallible

-- The seeding of an empty database when the service is started for the first time.
namespace Bootstrap

structure Defaults where
  enabled          : Bool
  tenantSlug       : String
  profileName      : String
  nodeRegion       : String
  nodeHostname     : String
  nodeEndpoint     : String
  nodeBasePort     : Int
  nodeIface        : String
  poolCIDR         : String
  bootstrapConfDir : String
  enableNAT        : Bool
  egressIface      : String
deriving DecidableEq

namespace Seed

-- There is no transaction around the statements: each of them is committed at once.
inductive Eff
  | anyTenant
  | upsertTenant (slug : String)
  | insert       (s : Stmt)
  | keyPair
  | mkdirAll     (dir : String)
  | writeFile    (path : String) (text : List Char)

abbrev Eff.Answer : Eff → Type
  | anyTenant      => Option UUID
  | upsertTenant _ => Tenant
  | insert s       => s.Answer
  | keyPair        => Crypto.KeyPair
  | mkdirAll _     => Unit
  | writeFile ..   => Unit

-- What the environment chooses for an effect. A write that fails may leave some text in the file.
structure Choice where
  fault   : Option Fault := none
  id      : UUID := 0
  keyPair : Crypto.KeyPair := ⟨"", ""⟩
  left    : Option (List Char) := none

abbrev Choices := Nat → Choice

structure State where
  db    : DB
  files : String → Option (List Char)

namespace State

def put (s : State) (path : String) (text : List Char) : State :=
  { s with files := Function.update s.files path (some text) }

-- Identifiers are generated that are not in use.
def upsertTenant (s : State) (slug : String) (id : UUID) : Option (Tenant × State) :=
  match s.db.tenants.find? (·.slug = slug) with
  | some t => some (t, s)
  | none   =>
    if s.db.tenants.any (·.id = id) then none
    else some (⟨id, slug⟩, { s with db := { s.db with tenants := s.db.tenants ++ [⟨id, slug⟩] } })

def insert (s : State) (st : Stmt) (id : UUID) : Option (Except Err st.Answer × State) :=
  match st.eval s.db 0 id with
  | none            => none
  | some (.error e) => some (.error e, s)
  | some (.ok a)    => some (.ok a, { s with db := Transactions.replay s.db (st.writes a) })

def exec (c : Choice) (s : State) (e : Eff) : Option (Except Err e.Answer × State) :=
  match e, c.fault with
  | .writeFile path _, some f => some (.error f.err, (c.left.map (s.put path)).getD s)
  | _,                 some f => some (.error f.err, s)
  | .anyTenant,         none  => some (.ok (s.db.tenants.head?.map Tenant.id), s)
  | .upsertTenant slug, none  => (s.upsertTenant slug c.id).map fun (t, s) => (.ok t, s)
  | .insert st,         none  => s.insert st c.id
  | .keyPair,           none  => some (.ok c.keyPair, s)
  | .mkdirAll _,        none  => some (.ok (), s)
  | .writeFile path t,  none  => some (.ok (), s.put path t)

end State

abbrev Act (α : Type) := Fallible Err Eff.Answer α

def insertProfile (p : ProtocolProfile) : Act ProtocolProfile :=
  match p.validate with
  | []   => call (Eff.insert (.insertProfile p))
  | errs => throw (.validation errs)

end Seed

def defaultProfile (name : String) : ProtocolProfile where
  id               := 0
  name             := name
  protocolVersion  := .v2
  jc               := 5
  jmin             := 10
  jmax             := 50
  s1               := 130
  s2               := 89
  s3               := 31
  s4               := 18
  h1               := ⟨1820352565, 1967349318⟩
  h2               := ⟨2027388662, 2115196205⟩
  h3               := ⟨2144626841, 2145335687⟩
  h4               := ⟨2146302274, 2147385353⟩
  i1               := defaultSpecialJunk1
  listenPortPolicy := .fixed

variable (b : Bootstrap)

open Seed

def confPath (d : Defaults) : String :=
  d.bootstrapConfDir ++ "/" ++ d.nodeIface ++ ".conf"

def bootstrapConf (d : Defaults) (pool : Prefix) (address serverPrivKey : String)
    (profile : ProtocolProfile) : List Char :=
  let (postUp, postDown) := natHooks pool d.nodeIface d.egressIface d.enableNAT
  Render.server
    { privateKey := serverPrivKey
      address    := [address]
      listenPort := d.nodeBasePort
      postUp     := postUp
      postDown   := postDown } profile []

def writeBootstrapConf (d : Defaults) (pool : Prefix) (serverPrivKey : String)
    (profile : ProtocolProfile) : Seed.Act Unit := do
  if !Awg.validInterfaceName d.nodeIface then
    throw (.new ("invalid BOOTSTRAP_NODE_IFACE " ++ b.quote d.nodeIface))
  else if d.enableNAT ∧ !Awg.validInterfaceName d.egressIface then
    throw (.new ("invalid BOOTSTRAP_EGRESS_IFACE " ++ b.quote d.egressIface))
  else match serverAddressFromPool pool with
    | .error e    => throw e
    | .ok address => do
      (call (Seed.Eff.mkdirAll d.bootstrapConfDir) : Seed.Act Unit)
      (call (Seed.Eff.writeFile (confPath d)
        (bootstrapConf d pool address serverPrivKey profile)) : Seed.Act Unit)

-- What follows the insertion of the tenant.
def seedNode (d : Defaults) (pool : Prefix) (t : Tenant) : Seed.Act Unit := do
  let profile ← mapErr (·.wrap "bootstrap profile: ") (Seed.insertProfile (defaultProfile d.profileName))
  let kp ← mapErr (·.wrap "bootstrap keygen: ") (call Seed.Eff.keyPair : Seed.Act Crypto.KeyPair)
  let node ← mapErr (·.wrap "bootstrap node: ") (call (Seed.Eff.insert (.insertNode
    { id              := 0
      profileID       := some profile.id
      region          := d.nodeRegion
      hostname        := d.nodeHostname
      status          := ""
      publicEndpoint  := b.endpointWithPort d.nodeEndpoint d.nodeBasePort
      basePort        := d.nodeBasePort
      interfaceName   := d.nodeIface
      serverPublicKey := kp.publicKey })) : Seed.Act Node)
  let _ ← mapErr (·.wrap "bootstrap pool: ")
    (call (Seed.Eff.insert (.insertPool t.id node.id pool)) : Seed.Act AddressPool)
  mapErr (·.wrap "bootstrap conf: ") (b.writeBootstrapConf d pool kp.privateKey profile)

def runIfEmpty (d : Defaults) : Seed.Act Unit := do
  if !d.enabled then pure ()
  else if d.bootstrapConfDir = "" then
    throw (.new "BOOTSTRAP_CONF_DIR is required when BOOTSTRAP_ENABLED=true")
  else match b.parseCIDR d.poolCIDR with
    | .error e => throw e
    | .ok pool => do
      match ← mapErr (·.wrap "bootstrap inspect tenants: ")
        (call Seed.Eff.anyTenant : Seed.Act (Option UUID)) with
      | some _ => pure ()
      | none   => do
        let t ← mapErr (·.wrap "bootstrap tenant: ")
          (call (Seed.Eff.upsertTenant d.tenantSlug) : Seed.Act Tenant)
        b.seedNode d pool t

-- A run, where the oracle chooses for one effect after the other.
def seedStep (o : Choices) : Nat × State → (e : Seed.Eff) → Option (Except Err e.Answer × Nat × State)
  | (n, s), e => (s.exec (o n) e).map fun (r, s') => (r, n + 1, s')

def startUp (d : Defaults) (o : Choices) (s : State) : Option (Except Err Unit × State) :=
  ((b.runIfEmpty d).run.solo (seedStep o) (0, s)).map fun (r, _, s') => (r, s')

end Bootstrap
