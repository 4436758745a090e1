import AwgRest.Render
import AwgRest.Repo

open Domain Netip Store Fallible Repo

-- The functions of the standard library that provisioning calls: `netip.ParsePrefix`,
-- `filepath.Join`, `net.SplitHostPort` (whether it succeeds), `net.JoinHostPort` and the verb `%q`.
structure Bootstrap where
  parsePrefix    : String → Except Err Prefix
  join           : String → String → String
  splitsHostPort : String → Bool
  joinHostPort   : String → String → String
  quote          : String → String

namespace Awg

def validInterfaceName (name : String) : Bool :=
  name ≠ "" && name.utf8ByteSize ≤ 15 && name ≠ "." && name ≠ ".." &&
  name.toList.all fun c =>
    ('a' ≤ c && c ≤ 'z') || ('A' ≤ c && c ≤ 'Z') || ('0' ≤ c && c ≤ '9') ||
    c = '_' || c = '-' || c = '.'

end Awg

namespace Bootstrap

variable (b : Bootstrap)

def defaultSpecialJunk1 : String :=
  "<r 2><b 0x858000010001000000000669636c6f756403636f6d0000010001c00c000100010000105a00044d583737>"

structure V31NodeOptions where
  tenantSlug       : String
  profileName      : String
  nodeRegion       : String
  nodeHostname     : String
  nodeEndpoint     : String
  nodeBasePort     : Int
  nodeIface        : String
  poolCIDR         : String
  bootstrapConfDir : String
  enableNAT        : Bool := false
  egressIface      : String := ""
deriving DecidableEq

structure V31NodeResult where
  tenantID        : UUID := 0
  profileID       : UUID := 0
  nodeID          : UUID := 0
  poolID          : UUID := 0
  profileName     : String := ""
  nodeHostname    : String := ""
  interfaceName   : String := ""
  publicEndpoint  : String := ""
  poolCIDR        : String := ""
  configPath      : String := ""
  serverPublicKey : String := ""
deriving DecidableEq

def trimSpace (s : String) : String :=
  String.ofList (Text.trimSpace s.toList)

def normalizeV31NodeOptions (o : V31NodeOptions) : V31NodeOptions :=
  { o with
    tenantSlug       := trimSpace o.tenantSlug
    profileName      := trimSpace o.profileName
    nodeRegion       := trimSpace o.nodeRegion
    nodeHostname     := trimSpace o.nodeHostname
    nodeEndpoint     := trimSpace o.nodeEndpoint
    nodeIface        := trimSpace o.nodeIface
    poolCIDR         := trimSpace o.poolCIDR
    bootstrapConfDir := trimSpace o.bootstrapConfDir
    egressIface      := trimSpace o.egressIface }

def requiredOptions (o : V31NodeOptions) : List (String × String) :=
  [("tenant", o.tenantSlug), ("profile-name", o.profileName), ("node-region", o.nodeRegion),
    ("node-hostname", o.nodeHostname), ("node-endpoint", o.nodeEndpoint), ("node-iface", o.nodeIface),
    ("pool-cidr", o.poolCIDR), ("bootstrap-conf-dir", o.bootstrapConfDir)]

def validateV31NodeOptions (o : V31NodeOptions) : Except Err Unit :=
  match (requiredOptions o).find? (fun item => trimSpace item.2 = "") with
  | some item => throw (.new (item.1 ++ " is required"))
  | none =>
    if o.nodeBasePort < 1 ∨ 65535 < o.nodeBasePort then
      throw (.new "node-port must be in [1, 65535]")
    else if !Awg.validInterfaceName o.nodeIface then
      throw (.new ("invalid node-iface " ++ b.quote o.nodeIface))
    else if o.enableNAT ∧ !Awg.validInterfaceName o.egressIface then
      throw (.new ("invalid egress-iface " ++ b.quote o.egressIface))
    else pure ()

def parseCIDR (s : String) : Except Err Prefix :=
  match b.parsePrefix s with
  | .ok p    => pure p.masked
  | .error e => throw (e.wrap ("invalid BOOTSTRAP_POOL_CIDR " ++ b.quote s ++ ": "))

def endpointWithPort (hostport : String) (port : Int) : String :=
  let hostport := trimSpace hostport
  let hostport := if hostport = "" then "127.0.0.1" else hostport
  if b.splitsHostPort hostport then hostport else b.joinHostPort hostport (toString port)

def serverAddressFromPool (pool : Prefix) : Except Err String :=
  let pool := pool.masked
  if !pool.addr.is4 then
    throw (.new ("bootstrap currently supports IPv4 pools only, got " ++ pool.string))
  else
    match pool.addr.next.filter (fun a => pool.contains (some a)) with
    | none => throw (.new ("BOOTSTRAP_POOL_CIDR " ++ pool.string ++ " is too small for a server address"))
    | some a => pure (a.string ++ "/" ++ toString pool.bits)

def natHooks (pool : Prefix) (iface egress : String) (enabled : Bool) : String × String :=
  if !enabled then ("", "")
  else ("; ".intercalate
      [orElse ("FORWARD -i " ++ iface ++ " -o " ++ egress ++ " -j ACCEPT") "",
        orElse ("FORWARD -i " ++ egress ++ " -o " ++ iface ++
          " -m state --state RELATED,ESTABLISHED -j ACCEPT") "",
        orElse ("POSTROUTING -s " ++ pool.string ++ " -o " ++ egress ++ " -j MASQUERADE") "-t nat "],
    "; ".intercalate
      ["iptables -D FORWARD -i " ++ iface ++ " -o " ++ egress ++ " -j ACCEPT 2>/dev/null || true",
        "iptables -D FORWARD -i " ++ egress ++ " -o " ++ iface ++
          " -m state --state RELATED,ESTABLISHED -j ACCEPT 2>/dev/null || true",
        "iptables -t nat -D POSTROUTING -s " ++ pool.string ++ " -o " ++ egress ++
          " -j MASQUERADE 2>/dev/null || true"])
where
  -- Adds a rule unless it is there.
  orElse (rule table : String) : String :=
    "iptables " ++ table ++ "-C " ++ rule ++ " || iptables " ++ table ++ "-A " ++ rule

def defaultV31Profile (name headerProtectionKey : String) : ProtocolProfile where
  id                   := 0
  name                 := name
  protocolVersion      := .v31
  jc                   := 5
  jmin                 := 10
  jmax                 := 50
  s1                   := 12
  s2                   := 12
  s3                   := 12
  s4                   := 12
  h1                   := ⟨1, 1⟩
  h2                   := ⟨2, 2⟩
  h3                   := ⟨3, 3⟩
  h4                   := ⟨4, 4⟩
  i1                   := defaultSpecialJunk1
  headerProtectionKey  := headerProtectionKey
  rekeyAfterTime       := ⟨100, 120⟩
  rekeyTimeout         := ⟨3, 7⟩
  rejectAfterTime      := ⟨150, 180⟩
  keepaliveTimeout     := ⟨5, 15⟩
  maxHandshakeAttempts := ⟨15, 20⟩
  persistentKeepalive  := ⟨25, 35⟩
  randomTrailers       := true
  disableCookies       := true
  listenPortPolicy     := .fixed

-- Fails if a value that has to be new is in use.
def ensureFree (q : Query) (inUse : q.Answer → Bool) (what : String) : Act Unit := do
  if inUse (← query q) then throw (.new what) else pure ()

def ensureV31ProvisioningAvailable (o : V31NodeOptions) (pool : Prefix) : Act Unit := do
  ensureFree (.profileExists o.profileName) id ("profile name " ++ o.profileName ++ " is already in use")
  ensureFree (.hostnameExists o.nodeHostname) id
    ("node hostname " ++ o.nodeHostname ++ " is already in use")
  ensureFree (.ifaceExists o.nodeIface) id ("interface name " ++ o.nodeIface ++ " is already in use")
  ensureFree (.portExists o.nodeBasePort) id
    ("UDP port " ++ toString o.nodeBasePort ++ " is already in use")
  ensureFree (.poolOverlaps pool) id
    ("pool CIDR " ++ pool.string ++ " overlaps an existing address pool")

def insertProfile (p : ProtocolProfile) : Act ProtocolProfile := do
  match p.validate with
  | []   => stmt (.insertProfile p)
  | errs => throw (.validation errs)

-- A file operation, and what its error is wrapped with.
def tryFile (what : String) (op : FileOp) : Act Unit := do
  match ← (call (Eff.file op) : Act (Option Err)) with
  | none   => pure ()
  | some e => throw (e.wrap what)

-- The deferred function of `writeBootstrapConfigExclusive`, which closes the file once more, and
-- removes it if it has not been written as a whole.
def finishFile (path : String) (f : Nat) (written : Except Err Unit) : Act Unit := do
  let _ ← (call (Eff.file (.close f)) : Act (Option Err))
  match written with
  | .ok _    => pure ()
  | .error e => do
    let _ ← (call (Eff.file (.remove path)) : Act (Option Err))
    throw e

def writeBootstrapConfigExclusive (path : String) (config : List Char) : Act Unit := do
  tryFile "create bootstrap config dir: " (.mkdirAll path)
  match ← (call (Eff.openNew path) : Act Opened) with
  | .present  => throw (.new ("bootstrap config " ++ path ++ " already exists; refusing to overwrite"))
  | .failed e => throw (e.wrap "create bootstrap config: ")
  | .new f    => do
    let written ← attempt (do
      tryFile "write bootstrap config: " (.writeString path f config)
      tryFile "sync bootstrap config: " (.sync f)
      tryFile "close bootstrap config: " (.close f))
    finishFile path f written

-- What happens in the transaction. It tells its caller whether the configuration file was created.
def provisionTx (o : V31NodeOptions) (tenant : Tenant) (pool : Prefix) (profile : ProtocolProfile)
    (publicKey configPath : String) (config : List Char) :
    Act (Option Err × Bool × V31NodeResult) := do
  mapErr (·.wrap "acquire v3.1 provisioning lock: ") (stmt .advisoryLock)
  ensureV31ProvisioningAvailable o pool
  let profile ← mapErr (·.wrap "insert v3.1 profile: ") (insertProfile profile)
  let node ← mapErr (·.wrap "insert v3.1 node: ") (stmt (.insertNode
    { id              := 0
      profileID       := some profile.id
      region          := o.nodeRegion
      hostname        := o.nodeHostname
      status          := ""
      publicEndpoint  := b.endpointWithPort o.nodeEndpoint o.nodeBasePort
      basePort        := o.nodeBasePort
      interfaceName   := o.nodeIface
      serverPublicKey := publicKey }))
  let inserted ← mapErr (·.wrap "insert v3.1 pool: ") (stmt (.insertPool tenant.id node.id pool))
  writeBootstrapConfigExclusive configPath config
  pure (none, true,
    { tenantID        := tenant.id
      profileID       := profile.id
      nodeID          := node.id
      poolID          := inserted.id
      profileName     := profile.name
      nodeHostname    := node.hostname
      interfaceName   := node.interfaceName
      publicEndpoint  := node.publicEndpoint
      poolCIDR        := pool.string
      configPath      := configPath
      serverPublicKey := node.serverPublicKey })

def v31Config (o : V31NodeOptions) (pool : Prefix) (address privateKey : String)
    (profile : ProtocolProfile) : List Char :=
  let (postUp, postDown) := natHooks pool o.nodeIface o.egressIface o.enableNAT
  Render.server
    { privateKey := privateKey
      address    := [address]
      listenPort := o.nodeBasePort
      postUp     := postUp
      postDown   := postDown } profile []

def configPath (o : V31NodeOptions) : String :=
  b.join o.bootstrapConfDir (o.nodeIface ++ ".conf")

@[irreducible]
def provisionV31Node (o : V31NodeOptions) : Act V31NodeResult := do
  let o := normalizeV31NodeOptions o
  check (b.validateV31NodeOptions o)
  let pool ← check (b.parseCIDR o.poolCIDR)
  let tenant ← mapErr (·.wrap ("tenant " ++ b.quote o.tenantSlug ++ ": "))
    (do row (← query (.tenantBySlug (trimSpace o.tenantSlug))))
  let headerProtectionKey ← mapErr (·.wrap "generate header-protection key: ")
    (call Eff.randomKey : Act String)
  let kp ← mapErr (·.wrap "generate server keypair: ") (call Eff.keyPair : Act Crypto.KeyPair)
  let profile := defaultV31Profile (trimSpace o.profileName) headerProtectionKey
  match profile.validate with
  | [] => do
    let address ← check (serverAddressFromPool pool)
    let config := v31Config o pool address kp.privateKey profile
    match ← inTx (false, {}) (b.provisionTx o tenant pool profile kp.publicKey (b.configPath o) config) with
    | (none, _, result)    => pure result
    | (some e, created, _) => do
      if created then
        let _ ← (call (Eff.file (.remove (b.configPath o))) : Act (Option Err))
      throw e
  | errs => throw ((Err.validation errs).wrap "generated v3.1 profile invalid: ")

end Bootstrap
