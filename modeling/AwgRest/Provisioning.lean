import AwgRest.Bootstrap
import AwgRest.Lib.Interleaving

open Domain Netip Store

-- Any number of `ProvisionV31Node` commands at once, and what they are to achieve together.
namespace Bootstrap

-- The rows of a node that has been provisioned.
structure Entry where
  profile : ProtocolProfile
  node    : Node
  pool    : AddressPool

namespace Entry

def writes (e : Entry) : List Write :=
  [.profile e.profile, .node e.node, .pool e.pool]

-- No address is in both pools.
def Disjoint (p q : Prefix) : Prop :=
  ∀ a : Addr, ¬ (p.contains (some a) = true ∧ q.contains (some a) = true)

-- What no two nodes have in common.
structure Apart (e e' : Entry) : Prop where
  name     : e.profile.name ≠ e'.profile.name
  hostname : e.node.hostname ≠ e'.node.hostname
  iface    : e.node.interfaceName ≠ e'.node.interfaceName
  port     : e.node.basePort ≠ e'.node.basePort
  pool     : Disjoint e.pool.cidr e'.pool.cidr

-- The same for all that a database has.
structure New (db : DB) (e : Entry) : Prop where
  name     : ∀ p ∈ db.profiles, p.name ≠ e.profile.name
  hostname : ∀ n ∈ db.nodes, n.hostname ≠ e.node.hostname
  iface    : ∀ n ∈ db.nodes, n.interfaceName ≠ e.node.interfaceName
  port     : ∀ n ∈ db.nodes, n.basePort ≠ e.node.basePort
  pool     : ∀ p ∈ db.pools, Disjoint p.cidr e.pool.cidr

end Entry

-- A database to which nodes have been added, and nothing else.
def provisioned (db : DB) (es : List Entry) : DB :=
  { db with
    profiles := db.profiles ++ es.map Entry.profile
    nodes    := db.nodes ++ es.map Entry.node
    pools    := db.pools ++ es.map Entry.pool }

-- What a command is given from outside: its keys, its tenant and the identifiers of its rows.
structure Draw where
  key     : String
  keyPair : Crypto.KeyPair
  tenant  : UUID
  profile : UUID
  node    : UUID
  pool    : UUID

variable (b : Bootstrap)

def v31Rows (o : V31NodeOptions) (pool : Prefix) (d : Draw) (profile : ProtocolProfile) : Entry where
  profile := { profile with id := d.profile }
  node    :=
    { id              := d.node
      profileID       := some d.profile
      region          := o.nodeRegion
      hostname        := o.nodeHostname
      status          := "unknown"
      publicEndpoint  := b.endpointWithPort o.nodeEndpoint o.nodeBasePort
      basePort        := o.nodeBasePort
      interfaceName   := o.nodeIface
      serverPublicKey := d.keyPair.publicKey }
  pool    := ⟨d.pool, d.tenant, d.node, pool, none⟩

-- The rows and the text of the file that a command with the options `o` makes of what it is given.
inductive Makes (o : V31NodeOptions) (d : Draw) : Entry → List Char → Prop
  | mk {pool address} :
    b.parseCIDR o.poolCIDR = .ok pool → serverAddressFromPool pool = .ok address →
    Makes o d (b.v31Rows o pool d (defaultV31Profile (trimSpace o.profileName) d.key))
      (v31Config o pool address d.keyPair.privateKey (defaultV31Profile (trimSpace o.profileName) d.key))

def commands : System (fun e : Eff => Except Err e.Answer) World Choice V31NodeOptions Nat
    (Except Err V31NodeResult) where
  exec  := World.exec
  prog  := fun o => (b.provisionV31Node o).run
  abort := World.abort
  tick  := World.tick

abbrev Ev := Event (fun e : Eff => Except Err e.Answer) V31NodeOptions Nat (Except Err V31NodeResult)
abbrev Conf := Config (fun e : Eff => Except Err e.Answer) World (Except Err V31NodeResult)

-- No process dies.
def undying : System.Guard (fun e : Eff => Except Err e.Answer) World V31NodeOptions Nat
    (Except Err V31NodeResult) :=
  fun _ _ ev => ∀ pid, ev ≠ .crash pid

def boot (w : World) : Conf where
  world := w
  procs := fun _ => .unused

abbrev Runs (w₀ : World) (τ : List Ev) (c : Conf) : Prop :=
  b.commands.Run undying (boot w₀) τ c

-- The keys that a command has been given.
structure Drew (τ : List Ev) (pid : Nat) (d : Draw) : Prop where
  key     : .act pid .randomKey (.ok d.key) ∈ τ
  keyPair : .act pid .keyPair (.ok d.keyPair) ∈ τ

-- The file that a command has created is there, with the text that the command is to write.
inductive InPlace (τ : List Ev) (w : World) (pid : Nat) (o : V31NodeOptions) : Prop
  | mk {f d e text} :
    .act pid (.openNew (b.configPath o)) (.ok (.new f)) ∈ τ → Drew τ pid d → b.Makes o d e text →
    w.files.lookup (b.configPath o) = some ⟨f, text⟩ → InPlace τ w pid o

-- Some removal of a file by the command has failed.
def Stuck (τ : List Ev) (pid : Nat) : Prop :=
  ∃ path e, .act pid (.file (.remove path)) (.ok (some e)) ∈ τ

-- The rows that have been committed, in this order, and by which commands.
structure Ledger (w₀ : World) (τ : List Ev) (w : World) (es : List (Nat × Entry)) : Prop where
  db      : w.db = provisioned w₀.db (es.map Prod.snd)
  new     : ∀ x ∈ es, x.2.New w₀.db
  apart   : es.Pairwise fun x y => x.2.Apart y.2
  once    : (es.map Prod.fst).Nodup
  commits : ∀ pid, pid ∈ es.map Prod.fst ↔ .act pid .commit (.ok ()) ∈ τ
  rows    : ∀ x ∈ es, ∃ o d text, .spawn x.1 o ∈ τ ∧ Drew τ x.1 d ∧
              b.Makes (normalizeV31NodeOptions o) d x.2 text

end Bootstrap
