import AwgRest.FirstStart
import AwgRest.RoundTrip.Interface

open Domain Netip Store Fallible Text

-- Whether a start that failed can be made good by a second one.
namespace Bootstrap

open Seed

section Specification

variable (pub : String → String) (b : Bootstrap) (d : Defaults) (o : Choices)

-- The private key that a configuration file has.
def keyOf (text : List Char) : String :=
  String.ofList (Awg.interfaceValue text "PrivateKey")

-- Some configuration file has the private key of a node, where `pub` gives the public key of a
-- private one.
def Keyed (s : State) (publicKey : String) : Prop :=
  ∃ path text, s.files path = some text ∧ pub (keyOf text) = publicKey

-- What a start is for: the rows that belong together, and the file.
def Seeded (s : State) : Prop :=
  ∃ t ∈ s.db.tenants, ∃ p ∈ s.db.profiles, ∃ n ∈ s.db.nodes, ∃ pl ∈ s.db.pools,
    n.profileID = some p.id ∧ pl.tenantID = t.id ∧ pl.nodeID = n.id ∧ Keyed pub s n.serverPublicKey

structure Correct : Prop where
  enabled : d.enabled = true
  confDir : d.bootstrapConfDir ≠ ""
  pool    : ∃ pool address, b.parseCIDR d.poolCIDR = .ok pool ∧
    serverAddressFromPool pool = .ok address
  profile : Text.trimSpace d.profileName.toList ≠ []
  iface   : Awg.validInterfaceName d.nodeIface = true
  egress  : d.enableNAT = true → Awg.validInterfaceName d.egressIface = true

-- Nothing fails, and keys are generated as they should be.
structure Benign : Prop where
  fault : ∀ n, (o n).fault = none
  keys  : ∀ n, Solid (o n).keyPair.privateKey.toList ∧
    (o n).keyPair.publicKey = pub (o n).keyPair.privateKey

-- The second start ends as it should, and before it there is no node of which the private key is
-- lost.
def Repaired (d' : Defaults) (o' : Choices) (s : State) : Prop :=
  (∃ s', b.startUp d' o' s = some (.ok (), s') ∧ Seeded pub s') ∧
  ∀ n ∈ s.db.nodes, Keyed pub s n.serverPublicKey

-- The first start fails before there is a tenant.
def FailsEarly : Prop :=
  d.bootstrapConfDir = "" ∨ (∃ e, b.parseCIDR d.poolCIDR = .error e) ∨
  (o 0).fault ≠ none ∨ (o 1).fault ≠ none

-- It comes to its last effect, and a write that fails there leaves the key in the file nevertheless.
structure LeavesKey : Prop extends Correct b d where
  faults : ∀ n < 7, (o n).fault = none
  left   : ∃ text ∈ (o 7).left, pub (keyOf text) = (o 3).keyPair.publicKey

end Specification

section Parts

variable {b : Bootstrap} {d : Defaults} {o : Choices} {n m : Nat} {s s' : State}

-- The only thing that can be wrong with the profile is its name.
theorem validate_defaultProfile (name : String) :
    (defaultProfile name).validate =
      ProtocolProfile.failIf (Text.trimSpace name.toList = []) "name" "required" "name is required" := by
  have hjunk : (defaultProfile name).validateJunk = [] :=
    (by decide +kernel : (defaultProfile "").validateJunk = [])
  have hv2 : (defaultProfile name).validateV2Fields = [] :=
    (by decide +kernel : (defaultProfile "").validateV2Fields = [])
  have hheaders : (defaultProfile name).validateHeaders = [] :=
    (by decide +kernel : (defaultProfile "").validateHeaders = [])
  have hv31 : (defaultProfile name).validateV31Fields = [] :=
    (by decide +kernel : (defaultProfile "").validateV31Fields = [])
  change _ ++ (defaultProfile name).validateJunk ++ _ ++ _ ++ (defaultProfile name).validateV2Fields ++
    (defaultProfile name).validateHeaders ++ (defaultProfile name).validateV31Fields ++ _ = _
  rw [hjunk, hv2, hheaders, hv31]
  have hs1 : ProtocolProfile.checkInt "s1" (defaultProfile name).s1 0 s1Max = [] :=
    ProtocolProfile.checkInt_eq_nil.mpr (by decide : (0 : Int) ≤ 130 ∧ (130 : Int) ≤ s1Max)
  have hs2 : ProtocolProfile.checkInt "s2" (defaultProfile name).s2 0 s2Max = [] :=
    ProtocolProfile.checkInt_eq_nil.mpr (by decide : (0 : Int) ≤ 89 ∧ (89 : Int) ≤ s2Max)
  rw [hs1, hs2]
  simp only [List.append_nil]
  exact List.append_nil _

theorem profile_valid_iff :
    (defaultProfile d.profileName).validate = [] ↔ Text.trimSpace d.profileName.toList ≠ [] := by
  rw [validate_defaultProfile]
  simp

theorem call_cases {e : Seed.Eff} {r : Except Err e.Answer}
    (h : (call e : Seed.Act e.Answer).run.solo (seedStep o) (n, s) = some (r, m, s')) :
    s.exec (o n) e = some (r, s') ∧ m = n + 1 := by
  rw [solo_call, seedStep] at h
  obtain ⟨⟨r', s''⟩, he, hr⟩ := Option.map_eq_some_iff.mp h
  cases hr
  exact ⟨he, rfl⟩

theorem call_ok {e : Seed.Eff} {a : e.Answer} (h : s.exec (o n) e = some (.ok a, s')) :
    (call e : Seed.Act e.Answer).run.solo (seedStep o) (n, s) = some (.ok a, n + 1, s') := by
  rw [solo_call, seedStep, h]
  rfl

theorem serverAddress_one_line {pool : Prefix} {address : String}
    (h : serverAddressFromPool pool = .ok address) : '\n' ∉ address.toList := by
  unfold serverAddressFromPool at h
  simp only at h
  split at h
  case isTrue  => cases h
  case isFalse =>
    split at h
    case h_1   => cases h
    case h_2 a _ =>
      cases h
      have htext : AddrText (a.string ++ "/" ++ toString pool.masked.bits) :=
        ((AddrText.string a).append (by simp [AddrText, isAddrChar])).append (AddrText.nat _)
      intro hc
      exact absurd (isGraph_of_isAddrChar (htext _ hc)).1 (by decide)

-- The key stands behind the addresses and the port, and is read back.
theorem server_privateKey {i : Render.Interface} {p : ProtocolProfile} {peers : List Render.PeerEntry}
    (ha : ∀ a ∈ i.address, '\n' ∉ a.toList) (hk : Solid i.privateKey.toList) :
    Awg.interfaceValue (Render.server i p peers) "PrivateKey" = i.privateKey.toList := by
  have hhead : Fake.lines ["# Generated by awg-rest. Do not edit by hand.".toList,
    "[Interface]".toList] =
      ["# Generated by awg-rest. Do not edit by hand.".toList, "[Interface]".toList] := by decide
  have hne : i.privateKey ≠ "" := fun he => hk.1 (by rw [he]; rfl)
  obtain ⟨after, hi⟩ : ∃ after, Render.writeInterface i =
      (i.address.map (Render.item "Address") ++
        Render.itemIf (i.listenPort > 0) "ListenPort" (toString i.listenPort)) ++
      ([Render.item "PrivateKey" i.privateKey] ++ after) := by
    have hitem : Render.itemIf (i.privateKey ≠ "") "PrivateKey" i.privateKey =
        [Render.item "PrivateKey" i.privateKey] := by simp [Render.itemIf, hne]
    rw [Render.writeInterface, hitem]
    exact ⟨_, by simp only [List.append_assoc]; rfl⟩
  have hbefore : Awg.Passes "PrivateKey" (i.address.map (Render.item "Address") ++
      Render.itemIf (i.listenPort > 0) "ListenPort" (toString i.listenPort)) :=
    .append (.map (by decide) fun v hv => tame_of_not_mem (ha v hv))
      (.itemIf (by decide) (Render.tame_of_solid (solid_toString_int _)))
  rw [Render.server, Render.interfaceValue_unlines, Fake.lines_append, Fake.lines_append,
    Fake.lines_append,
    hhead, hi, Fake.lines_append (_ ++ _), Fake.lines_append [_]]
  simp only [List.append_assoc, List.cons_append, List.nil_append]
  rw [Awg.go_comment (by decide) (by decide), Awg.go_header, Awg.go_passes hbefore,
    Awg.go_lines_self (by decide) (by decide), firstLine_of_not_mem (hk.not_mem (by decide)),
      hk.trimSpace_eq]

theorem keyOf_bootstrapConf {pool : Prefix} {address key : String} {profile : ProtocolProfile}
    (ha : '\n' ∉ address.toList) (hk : Solid key.toList) :
    keyOf (bootstrapConf d pool address key profile) = key := by
  rw [keyOf, bootstrapConf, server_privateKey (by simpa using ha) hk, String.ofList_toList]

-- The inserts into tables that are empty.

theorem exec_insertProfile {c : Seed.Choice} {p : ProtocolProfile} (hc : c.fault = none)
    (hp : s.db.profiles = []) :
    s.exec c (.insert (.insertProfile p)) =
      some (.ok { p with id := c.id },
        { s with db := { s.db with profiles := [{ p with id := c.id }] } }) := by
  simp [State.exec, hc, State.insert, Stmt.eval, Stmt.insert, hp, Stmt.writes, Transactions.replay,
    Journal.apply, Write.apply]

theorem exec_insertNode {c : Seed.Choice} {r : Node} (hc : c.fault = none) (hn : s.db.nodes = []) :
    s.exec c (.insert (.insertNode r)) =
      some (.ok { r with id := c.id, status := "unknown" },
        { s with db := { s.db with nodes := [{ r with id := c.id, status := "unknown" }] } }) := by
  simp [State.exec, hc, State.insert, Stmt.eval, Stmt.insert, hn, Stmt.writes, Transactions.replay,
    Journal.apply, Write.apply]

theorem exec_insertPool {c : Seed.Choice} {t i : UUID} {cidr : Prefix} (hc : c.fault = none)
    (hp : s.db.pools = []) :
    s.exec c (.insert (.insertPool t i cidr)) =
      some (.ok ⟨c.id, t, i, cidr, none⟩,
        { s with db := { s.db with pools := [⟨c.id, t, i, cidr, none⟩] } }) := by
  simp [State.exec, hc, State.insert, Stmt.eval, Stmt.insert, hp, Stmt.writes, Transactions.replay,
    Journal.apply, Write.apply]

theorem exec_keyPair {c : Seed.Choice} (hc : c.fault = none) :
    s.exec c .keyPair = some (.ok c.keyPair, s) := by
  simp [State.exec, hc]

theorem exec_upsertTenant {c : Seed.Choice} {slug : String} (hc : c.fault = none)
    (ht : s.db.tenants = []) :
    s.exec c (.upsertTenant slug) =
      some (.ok ⟨c.id, slug⟩, { s with db := { s.db with tenants := [⟨c.id, slug⟩] } }) := by
  simp [State.exec, hc, State.upsertTenant, ht]

end Parts

-- What is done once the settings have been read.
def inspect (b : Bootstrap) (d : Defaults) (pool : Prefix) : Seed.Act Unit := do
  match ← mapErr (·.wrap "bootstrap inspect tenants: ")
    (call Seed.Eff.anyTenant : Seed.Act (Option UUID)) with
  | some _ => pure ()
  | none   => do
    let t ← mapErr (·.wrap "bootstrap tenant: ")
      (call (Seed.Eff.upsertTenant d.tenantSlug) : Seed.Act Tenant)
    b.seedNode d pool t

-- The rows that it inserts.

def profileRow (d : Defaults) (o : Choices) : ProtocolProfile :=
  { defaultProfile d.profileName with id := (o 2).id }

def nodeRow (b : Bootstrap) (d : Defaults) (o : Choices) : Node where
  id              := (o 4).id
  profileID       := some (o 2).id
  region          := d.nodeRegion
  hostname        := d.nodeHostname
  status          := "unknown"
  publicEndpoint  := b.endpointWithPort d.nodeEndpoint d.nodeBasePort
  basePort        := d.nodeBasePort
  interfaceName   := d.nodeIface
  serverPublicKey := (o 3).keyPair.publicKey

def poolRow (o : Choices) (t : Tenant) (pool : Prefix) : AddressPool where
  id       := (o 5).id
  tenantID := t.id
  nodeID   := (o 4).id
  cidr     := pool
  cursor   := none

section Runs

variable {pub : String → String} {b : Bootstrap} {d : Defaults} {o : Choices} {s s' : State}
  {pool : Prefix}

theorem runIfEmpty_eq (he : d.enabled = true) (hc : d.bootstrapConfDir ≠ "")
    (hp : b.parseCIDR d.poolCIDR = .ok pool) : b.runIfEmpty d = b.inspect d pool := by
  simp only [runIfEmpty, he, Bool.not_true, Bool.false_eq_true, if_false, hc, hp]
  rfl

-- Where there is a tenant, nothing is done.
theorem startUp_skipped (hd : Correct b d) (ho : (o 0).fault = none) (ht : s.db.tenants ≠ []) :
    b.startUp d o s = some (.ok (), s) := by
  obtain ⟨pool, address, hp, -⟩ := hd.pool
  obtain ⟨t, ts, hts⟩ := List.exists_cons_of_ne_nil ht
  have hx : s.exec (o 0) .anyTenant = some (.ok (some t.id), s) := by simp [State.exec, ho, hts]
  rw [startUp, runIfEmpty_eq hd.enabled hd.confDir hp, inspect,
    solo_bind_ok (solo_mapErr_ok (call_ok hx))]
  rfl

theorem writeBootstrapConf_ok {key address : String} {p : ProtocolProfile} {n : Nat}
    (hd : Correct b d) (ho : ∀ n, (o n).fault = none)
    (ha : serverAddressFromPool pool = .ok address) :
    (b.writeBootstrapConf d pool key p).run.solo (seedStep o) (n, s) =
      some (.ok (), n + 2, s.put (confPath d) (bootstrapConf d pool address key p)) := by
  have hegress : ¬ (d.enableNAT = true ∧ (!Awg.validInterfaceName d.egressIface) = true) := by
    rintro ⟨hn, hv⟩
    simp [hd.egress hn] at hv
  have hx : s.exec (o n) (.mkdirAll d.bootstrapConfDir) = some (.ok (), s) := by simp [State.exec, ho]
  have hy : s.exec (o (n + 1)) (.writeFile (confPath d) (bootstrapConf d pool address key p)) =
      some (.ok (), s.put (confPath d) (bootstrapConf d pool address key p)) := by
        simp [State.exec, ho]
  simp only [writeBootstrapConf, hd.iface, Bool.not_true, Bool.false_eq_true, if_false,
    if_neg hegress, ha]
  rw [solo_bind_ok (call_ok hx), call_ok hy]

def rows (b : Bootstrap) (d : Defaults) (o : Choices) (t : Tenant) (pool : Prefix) : DB where
  tenants  := [t]
  profiles := [profileRow d o]
  nodes    := [nodeRow b d o]
  pools    := [poolRow o t pool]

theorem seeded_of_rows {t : Tenant} (hs : s.db = b.rows d o t pool)
    (hk : Keyed pub s (o 3).keyPair.publicKey) : Seeded pub s :=
  ⟨t, by simp [hs, rows], profileRow d o, by simp [hs, rows], nodeRow b d o, by simp [hs, rows],
    poolRow o t pool, by simp [hs, rows], rfl, rfl, rfl, hk⟩

theorem seedNode_rows {t : Tenant} (hv : (defaultProfile d.profileName).validate = [])
    (ho : ∀ n, 2 ≤ n → n < 6 → (o n).fault = none) (hs : s.db = { tenants := [t] }) :
    (b.seedNode d pool t).run.solo (seedStep o) (2, s) =
      (mapErr (·.wrap "bootstrap conf: ") (b.writeBootstrapConf d pool (o 3).keyPair.privateKey
        (profileRow d o))).run.solo (seedStep o) (6, { s with db := b.rows d o t pool }) := by
  obtain ⟨db, files⟩ := s
  obtain rfl : db = { tenants := [t] } := hs
  have h₂ := exec_insertProfile (s := ⟨{ tenants := [t] }, files⟩) (p := defaultProfile d.profileName)
    (ho 2 (by decide) (by decide)) rfl
  rw [seedNode, Seed.insertProfile, hv]
  simp only
  rw [solo_bind_ok (solo_mapErr_ok (call_ok h₂)),
    solo_bind_ok (solo_mapErr_ok (call_ok (exec_keyPair (ho 3 (by decide) (by decide))))),
    solo_bind_ok (solo_mapErr_ok (call_ok (exec_insertNode (ho 4 (by decide) (by decide)) rfl))),
    solo_bind_ok (solo_mapErr_ok (call_ok (exec_insertPool (ho 5 (by decide) (by decide)) rfl)))]
  rfl

-- All rows are there before the settings of the interface are looked at.
theorem startUp_rows (he : d.enabled = true) (hc : d.bootstrapConfDir ≠ "")
    (hp : b.parseCIDR d.poolCIDR = .ok pool) (hv : (defaultProfile d.profileName).validate = [])
    (ho : ∀ n < 6, (o n).fault = none) (h₀ : s.db = {}) :
    b.startUp d o s =
      ((mapErr (·.wrap "bootstrap conf: ") (b.writeBootstrapConf d pool (o 3).keyPair.privateKey
        (profileRow d o))).run.solo (seedStep o)
          (6, ⟨b.rows d o ⟨(o 1).id, d.tenantSlug⟩ pool, s.files⟩)).map fun (r, _, s') =>
            (r, s') := by
  have hx : s.exec (o 0) .anyTenant = some (.ok none, s) := by simp [State.exec, ho, h₀]
  rw [startUp, runIfEmpty_eq he hc hp, inspect, solo_bind_ok (solo_mapErr_ok (call_ok hx))]
  simp only
  rw [solo_bind_ok (solo_mapErr_ok (call_ok (exec_upsertTenant (ho 1 (by decide)) (by rw [h₀])))),
    seedNode_rows hv (fun n _ hn => ho n hn) (by rw [h₀])]

theorem startUp_seeds (hd : Correct b d) (ho : Benign pub o) (h₀ : s.db = {}) :
    ∃ s', b.startUp d o s = some (.ok (), s') ∧ Seeded pub s' := by
  obtain ⟨pool, address, hp, ha⟩ := hd.pool
  obtain ⟨hkey, hpub⟩ := ho.keys 3
  rw [startUp_rows hd.enabled hd.confDir hp (profile_valid_iff.mpr hd.profile) (fun n _ => ho.fault n) h₀,
    solo_mapErr_ok (writeBootstrapConf_ok hd ho.fault ha)]
  refine ⟨_, rfl, seeded_of_rows rfl ⟨confPath d, _, Function.update_self .., ?_⟩⟩
  rw [keyOf_bootstrapConf (serverAddress_one_line ha) hkey]
  exact hpub.symm

-- How a start on an empty database can fail: before there is a tenant; after that, without a file; or
-- while the file is written.
inductive Stopped (b : Bootstrap) (d : Defaults) (o : Choices) (s : State) : State → Prop
  | early : FailsEarly b d o → Stopped b d o s s
  | unwritten {s₁} :
    ¬ FailsEarly b d o → ¬ (Correct b d ∧ ∀ n < 7, (o n).fault = none) → s₁.db.tenants ≠ [] →
    (∀ n ∈ s₁.db.nodes, n.serverPublicKey = (o 3).keyPair.publicKey) → s₁.files = s.files →
    Stopped b d o s s₁
  | broken {t cidr} :
    Correct b d → (∀ n < 7, (o n).fault = none) →
    Stopped b d o s (((o 7).left.map (State.put ⟨b.rows d o t cidr, s.files⟩ (confPath d))).getD
      ⟨b.rows d o t cidr, s.files⟩)

theorem exec_fault {c : Seed.Choice} {e : Seed.Eff} {f : Fault} (hc : c.fault = some f)
    (hw : ∀ path text, e ≠ .writeFile path text) : s.exec c e = some (.error f.err, s) := by
  cases e <;> simp only [State.exec, hc]
  case writeFile path text => exact absurd rfl (hw path text)

-- An effect other than the last one either fails without a trace, or the program goes on.
theorem fails_or_goes_on {e : Seed.Eff} {β : Type} {f : e.Answer → Seed.Act β} {g : Err → Err}
    {x : Err} {a : e.Answer} {n m : Nat} {s₁ : State} (hw : ∀ path text, e ≠ .writeFile path text)
    (hok : (o n).fault = none → s.exec (o n) e = some (.ok a, s₁))
    (h : (mapErr g (call e) >>= f).run.solo (seedStep o) (n, s) = some (.error x, m, s')) :
    ((o n).fault ≠ none ∧ s' = s) ∨
    ((o n).fault = none ∧ (f a).run.solo (seedStep o) (n + 1, s₁) = some (.error x, m, s')) := by
  cases hf : (o n).fault
  case none =>
    rw [solo_bind_ok (solo_mapErr_ok (call_ok (hok hf)))] at h
    exact .inr ⟨rfl, h⟩
  case some y =>
    have hc : (call e : Seed.Act e.Answer).run.solo (seedStep o) (n, s) =
        some (.error y.err, n + 1, s) := by
      rw [solo_call, seedStep, exec_fault hf hw]
      rfl
    rw [solo_bind_error (solo_mapErr_error hc)] at h
    cases h
    exact .inl ⟨nofun, rfl⟩

-- The settings that are looked at when the file is written.
structure Writable (d : Defaults) (pool : Prefix) : Prop where
  iface   : Awg.validInterfaceName d.nodeIface = true
  egress  : d.enableNAT = true → Awg.validInterfaceName d.egressIface = true
  address : ∃ address, serverAddressFromPool pool = .ok address

theorem conf_error {key : String} {p : ProtocolProfile} {x : Err} {n m : Nat}
    (h : (b.writeBootstrapConf d pool key p).run.solo (seedStep o) (n, s) = some (.error x, m, s')) :
    (¬ (Writable d pool ∧ (o n).fault = none) ∧ s' = s) ∨
    (Writable d pool ∧ (o n).fault = none ∧ s' = ((o (n + 1)).left.map (s.put (confPath d))).getD s) := by
  unfold writeBootstrapConf at h
  by_cases hi : Awg.validInterfaceName d.nodeIface = true
  case neg =>
    rw [if_pos (by simpa using hi)] at h
    cases h
    exact .inl ⟨fun hw => hi hw.1.iface, rfl⟩
  case pos =>
    rw [if_neg (by simpa using hi)] at h
    by_cases he : d.enableNAT = true ∧ (!Awg.validInterfaceName d.egressIface) = true
    case pos =>
      rw [if_pos he] at h
      cases h
      refine .inl ⟨fun hw => ?_, rfl⟩
      simp [hw.1.egress he.1] at he
    case neg =>
      rw [if_neg he] at h
      cases ha : serverAddressFromPool pool
      case error y =>
        rw [ha] at h
        cases h
        refine .inl ⟨fun hw => ?_, rfl⟩
        obtain ⟨address, hok⟩ := hw.1.address
        rw [ha] at hok
        cases hok
      case ok address =>
        have hw : Writable d pool :=
          ⟨hi, fun hn => by simpa [hn] using he, address, ha⟩
        rw [ha] at h
        simp only at h
        cases hf : (o n).fault
        case some y =>
          have hc : (call (Seed.Eff.mkdirAll d.bootstrapConfDir) : Seed.Act Unit).run.solo
            (seedStep o) (n, s) =
              some (.error y.err, n + 1, s) := by
            rw [solo_call, seedStep, exec_fault hf fun _ _ h => by cases h]
            rfl
          rw [solo_bind_error hc] at h
          cases h
          exact .inl ⟨fun hw => (nomatch hw.2), rfl⟩
        case none =>
          have hx : s.exec (o n) (.mkdirAll d.bootstrapConfDir) = some (.ok (), s) := by
            simp [State.exec, hf]
          rw [solo_bind_ok (call_ok hx)] at h
          obtain ⟨hr, -⟩ := call_cases h
          cases hg : (o (n + 1)).fault
          case none => simp [State.exec, hg] at hr
          case some y =>
            simp only [State.exec, hg] at hr
            cases hr
            exact .inr ⟨hw, rfl, rfl⟩

theorem seedNode_error {t : Tenant} {x : Err} {m : Nat} (hs : s.db = { tenants := [t] })
    (h : (b.seedNode d pool t).run.solo (seedStep o) (2, s) = some (.error x, m, s')) :
    (¬ ((defaultProfile d.profileName).validate = [] ∧ Writable d pool ∧
        ∀ n, 2 ≤ n → n < 7 → (o n).fault = none) ∧
      s'.db.tenants = [t] ∧ (∀ n ∈ s'.db.nodes, n.serverPublicKey = (o 3).keyPair.publicKey) ∧
      s'.files = s.files) ∨
    ((defaultProfile d.profileName).validate = [] ∧ Writable d pool ∧
      (∀ n, 2 ≤ n → n < 7 → (o n).fault = none) ∧
      s' = ((o 7).left.map (State.put ⟨b.rows d o t pool, s.files⟩ (confPath d))).getD
        ⟨b.rows d o t pool, s.files⟩) := by
  obtain ⟨db, files⟩ := s
  obtain rfl : db = { tenants := [t] } := hs
  have hnone (db : DB) (hn : db.nodes = []) :
      ∀ n ∈ db.nodes, n.serverPublicKey = (o 3).keyPair.publicKey := by simp [hn]
  by_cases hv : (defaultProfile d.profileName).validate = []
  case neg =>
    have hi : (Seed.insertProfile (defaultProfile d.profileName)).run.solo (seedStep o)
        (2, ⟨{ tenants := [t] }, files⟩) =
        some (.error (.validation (defaultProfile d.profileName).validate), 2,
          ⟨{ tenants := [t] }, files⟩) := by
      unfold Seed.insertProfile
      split
      case h_1 hnil => exact absurd hnil hv
      case h_2      => rfl
    rw [seedNode, solo_bind_error (solo_mapErr_error hi)] at h
    cases h
    exact .inl ⟨fun hc => hv hc.1, rfl, hnone _ rfl, rfl⟩
  case pos =>
    rw [seedNode, Seed.insertProfile, hv] at h
    simp only at h
    rcases fails_or_goes_on (fun _ _ h => by cases h)
      (fun hf => exec_insertProfile hf rfl) h with ⟨hf, rfl⟩ | ⟨h₂, h⟩
    · exact .inl ⟨fun hc => hf (hc.2.2 2 (by decide) (by decide)), rfl, hnone _ rfl, rfl⟩
    rcases fails_or_goes_on (fun _ _ h => by cases h) exec_keyPair h with ⟨hf, rfl⟩ | ⟨h₃, h⟩
    · exact .inl ⟨fun hc => hf (hc.2.2 3 (by decide) (by decide)), rfl, hnone _ rfl, rfl⟩
    rcases fails_or_goes_on (fun _ _ h => by cases h)
      (fun hf => exec_insertNode hf rfl) h with ⟨hf, rfl⟩ | ⟨h₄, h⟩
    · exact .inl ⟨fun hc => hf (hc.2.2 4 (by decide) (by decide)), rfl, hnone _ rfl, rfl⟩
    rcases fails_or_goes_on (fun _ _ h => by cases h)
      (fun hf => exec_insertPool hf rfl) h with ⟨hf, rfl⟩ | ⟨h₅, h⟩
    · refine .inl ⟨fun hc => hf (hc.2.2 5 (by decide) (by decide)), rfl, fun n hn => ?_, rfl⟩
      rw [List.mem_singleton.mp hn]
    obtain ⟨r, hr, hx⟩ := solo_mapErr_cases h
    cases r
    case ok      => cases hx
    case error y =>
      rcases conf_error hr with ⟨hc, rfl⟩ | ⟨hw, h₆, rfl⟩
      · refine .inl ⟨fun hall => hc ⟨hall.2.1, hall.2.2 6 (by decide) (by decide)⟩, rfl,
          fun n hn => ?_, rfl⟩
        rw [List.mem_singleton.mp hn]
      · refine .inr ⟨hv, hw, fun n h₀ h₁ => ?_, rfl⟩
        interval_cases n <;> assumption

theorem stopped_of_error {x : Err} (hd : d.enabled = true) (h₀ : s.db = {})
    (h : b.startUp d o s = some (.error x, s')) : Stopped b d o s s' := by
  obtain ⟨⟨r, m, s''⟩, hr, heq⟩ := Option.map_eq_some_iff.mp h
  cases heq
  by_cases hc : d.bootstrapConfDir = ""
  case pos =>
    simp only [runIfEmpty, hd, Bool.not_true, Bool.false_eq_true, if_false, hc, if_true] at hr
    cases hr
    exact .early (.inl hc)
  case neg =>
    cases hp : b.parseCIDR d.poolCIDR
    case error e =>
      simp only [runIfEmpty, hd, Bool.not_true, Bool.false_eq_true, if_false, hc, hp] at hr
      cases hr
      exact .early (.inr (.inl ⟨_, hp⟩))
    case ok pool =>
      rw [runIfEmpty_eq hd hc hp, inspect] at hr
      have hany (hf : (o 0).fault = none) : s.exec (o 0) .anyTenant = some (.ok none, s) := by
        simp [State.exec, hf, h₀]
      rcases fails_or_goes_on (fun _ _ h => by cases h) hany hr with ⟨hf, rfl⟩ | ⟨hf₀, hr⟩
      · exact .early (.inr (.inr (.inl hf)))
      rcases fails_or_goes_on (fun _ _ h => by cases h)
        (fun hf => exec_upsertTenant hf (by rw [h₀])) hr with ⟨hf, rfl⟩ | ⟨hf₁, hr⟩
      · exact .early (.inr (.inr (.inr hf)))
      have hearly : ¬ FailsEarly b d o := by
        rintro (hd | ⟨e, he⟩ | hf | hf)
        · exact hc hd
        · rw [hp] at he
          cases he
        · exact hf hf₀
        · exact hf hf₁
      rcases seedNode_error (by rw [h₀]) hr with ⟨hn, ht, hk, hfiles⟩ | ⟨hv, hw, hf, rfl⟩
      · refine .unwritten hearly (fun ⟨hcor, hall⟩ => hn ?_) (by simp [ht]) hk hfiles
        obtain ⟨pool', address, hp', ha⟩ := hcor.pool
        rw [hp] at hp'
        cases hp'
        exact ⟨profile_valid_iff.mpr hcor.profile, ⟨hcor.iface, hcor.egress, address, ha⟩,
          fun n _ hlt => hall n hlt⟩
      · obtain ⟨address, ha⟩ := hw.address
        refine .broken ⟨hd, hc, ⟨pool, address, hp, ha⟩, profile_valid_iff.mp hv,
          hw.iface, hw.egress⟩ ?_
        intro n hn
        by_cases h₂ : 2 ≤ n
        · exact hf n h₂ hn
        · rcases (by omega : n = 0 ∨ n = 1) with rfl | rfl
          · exact hf₀
          · exact hf₁

theorem not_failsEarly (hd : Correct b d) (ho : ∀ n < 7, (o n).fault = none) :
    ¬ FailsEarly b d o := by
  obtain ⟨pool, _, hp, -⟩ := hd.pool
  rintro (hc | ⟨e, he⟩ | hf | hf)
  · exact hd.confDir hc
  · rw [hp] at he
    cases he
  · exact hf (ho 0 (by decide))
  · exact hf (ho 1 (by decide))

-- With a tenant, all depends on what is there already.
theorem repaired_iff {d' : Defaults} {o' : Choices} (hd : Correct b d') (ho : Benign pub o')
    (ht : s.db.tenants ≠ []) :
    Repaired pub b d' o' s ↔ Seeded pub s ∧ ∀ n ∈ s.db.nodes, Keyed pub s n.serverPublicKey := by
  have hskip := startUp_skipped hd (ho.fault 0) ht
  constructor
  · rintro ⟨⟨s', hs, hseed⟩, hk⟩
    rw [hskip] at hs
    cases hs
    exact ⟨hseed, hk⟩
  · rintro ⟨hseed, hk⟩
    exact ⟨⟨s, hskip, hseed⟩, hk⟩

theorem seeded_rows_iff {t : Tenant} (hs : s.db = b.rows d o t pool) :
    (Seeded pub s ∧ ∀ n ∈ s.db.nodes, Keyed pub s n.serverPublicKey) ↔
      Keyed pub s (o 3).keyPair.publicKey := by
  have hnodes : ∀ n ∈ s.db.nodes, n = nodeRow b d o := by simp [hs, rows]
  constructor
  · rintro ⟨⟨_, -, _, -, n, hn, _, -, -, -, -, hk⟩, -⟩
    rw [hnodes n hn] at hk
    exact hk
  · intro hk
    exact ⟨seeded_of_rows hs hk, fun n hn => hnodes n hn ▸ hk⟩

theorem keyed_put_iff {path key : String} {text : List Char} (hn : ¬ Keyed pub s key) :
    Keyed pub (s.put path text) key ↔ pub (keyOf text) = key := by
  constructor
  · rintro ⟨q, u, hq, hk⟩
    by_cases he : q = path
    case pos =>
      have hu : some text = some u := by simpa [State.put, he] using hq
      cases hu
      exact hk
    case neg =>
      have hu : s.files q = some u := by simpa [State.put, he] using hq
      exact absurd ⟨q, u, hu, hk⟩ hn
  · exact fun hk => ⟨path, text, Function.update_self .., hk⟩

end Runs

-- A second start makes good what the first one left undone if and only if there was no tenant yet, or
-- the key had already reached the file.
theorem rerun_repairs_iff (pub : String → String) (b : Bootstrap) (d d' : Defaults) (o o' : Choices)
    (s s₁ : State) (e : Err) (hd : d.enabled = true) (h₀ : s.db = {})
    (hnew : ¬ Keyed pub s (o 3).keyPair.publicKey) (h : b.startUp d o s = some (.error e, s₁))
    (hd' : Correct b d') (ho' : Benign pub o') :
    Repaired pub b d' o' s₁ ↔ FailsEarly b d o ∨ LeavesKey pub b d o := by
  cases stopped_of_error hd h₀ h
  case early hearly =>
    refine iff_of_true ⟨startUp_seeds hd' ho' h₀, ?_⟩ (.inl hearly)
    simp [h₀]
  case unwritten hearly hwrite ht hk hfiles =>
    rw [repaired_iff hd' ho' ht]
    refine iff_of_false ?_ ?_
    · rintro ⟨⟨_, -, _, -, n, hn, _, -, -, -, -, path, text, hp, hpub⟩, -⟩
      exact hnew ⟨path, text, hfiles ▸ hp, hpub.trans (hk n hn)⟩
    · rintro (hf | hl)
      · exact hearly hf
      · exact hwrite ⟨hl.toCorrect, hl.faults⟩
  case broken t pool hcor hfaults =>
    have hright : (FailsEarly b d o ∨ LeavesKey pub b d o) ↔
        ∃ text ∈ (o 7).left, pub (keyOf text) = (o 3).keyPair.publicKey :=
      (or_iff_right (not_failsEarly hcor hfaults)).trans ⟨(·.left), fun hl => ⟨hcor, hfaults, hl⟩⟩
    rw [hright]
    cases hleft : (o 7).left
    case none =>
      rw [Option.map_none, Option.getD_none, repaired_iff hd' ho' (by simp [rows]),
        seeded_rows_iff rfl]
      exact iff_of_false hnew (by simp)
    case some text =>
      have hold : ¬ Keyed pub ⟨b.rows d o t pool, s.files⟩ (o 3).keyPair.publicKey := hnew
      rw [Option.map_some, Option.getD_some, repaired_iff hd' ho' (by simp [rows, State.put]),
        seeded_rows_iff (s := State.put _ _ _) rfl, keyed_put_iff hold]
      simp

namespace Sample

theorem address_lt : 10 * 2 ^ 24 < 2 ^ Family.v4.bitLen := by decide

theorem bits_le : 24 ≤ Family.v4.bitLen := by decide

def parts : Bootstrap where
  parsePrefix    := fun _ => .ok ⟨⟨.v4, 10 * 2 ^ 24, address_lt⟩, 24, bits_le⟩
  join           := fun dir file => dir ++ "/" ++ file
  splitsHostPort := fun _ => false
  joinHostPort   := fun host port => host ++ ":" ++ port
  quote          := fun s => s

def settings : Defaults where
  enabled          := true
  tenantSlug       := "default"
  profileName      := "default-v2"
  nodeRegion       := "default"
  nodeHostname     := "awg-node-1"
  nodeEndpoint     := "127.0.0.1"
  nodeBasePort     := 38823
  nodeIface        := "awg0"
  poolCIDR         := "10.0.0.0/24"
  bootstrapConfDir := "/conf"
  enableNAT        := true
  egressIface      := "eth0"

-- The name of the interface has a blank in it.
def misnamed : Defaults :=
  { settings with nodeIface := "awg 0" }

def publicKey (key : String) : String :=
  "public " ++ key

def choices : Choices :=
  fun n => { id := n, keyPair := ⟨"secret", publicKey "secret"⟩ }

-- The insert of the tenant fails.
def tenantFails : Choices :=
  fun n => if n = 1 then { fault := some .canceled } else {}

def empty : State where
  db    := {}
  files := fun _ => none

theorem correct_settings : Correct parts settings where
  enabled := rfl
  confDir := by decide
  pool    := ⟨_, "10.0.0.1/24", rfl, by decide +kernel⟩
  profile := by decide
  iface   := by decide +kernel
  egress  := fun _ => by decide +kernel

theorem benign_choices : Benign publicKey choices where
  fault _ := rfl
  keys _  := ⟨(by decide : Solid "secret".toList), rfl⟩

end Sample

theorem rerun_repairs_early :
    ∃ e s₁, Sample.parts.startUp Sample.settings Sample.tenantFails Sample.empty = some (.error e, s₁) ∧
      Repaired Sample.publicKey Sample.parts Sample.settings Sample.choices s₁ := by
  have h : Sample.parts.startUp Sample.settings Sample.tenantFails Sample.empty =
      some (.error (Fault.canceled.err.wrap "bootstrap tenant: "), Sample.empty) := rfl
  have hnew : ¬ Keyed Sample.publicKey Sample.empty (Sample.tenantFails 3).keyPair.publicKey := by
    rintro ⟨path, text, hp, -⟩
    cases hp
  have hearly : FailsEarly Sample.parts Sample.settings Sample.tenantFails := .inr (.inr (.inr nofun))
  exact ⟨_, _, h, (rerun_repairs_iff Sample.publicKey Sample.parts Sample.settings Sample.settings
    Sample.tenantFails Sample.choices Sample.empty Sample.empty _ rfl rfl hnew h Sample.correct_settings
    Sample.benign_choices).mpr (.inl hearly)⟩

-- The name of the interface is only looked at when all rows are there.
theorem misnamed_not_repaired :
    ∃ s₁, Sample.parts.startUp Sample.misnamed Sample.choices Sample.empty =
        some (.error (.new "bootstrap conf: invalid BOOTSTRAP_NODE_IFACE awg 0"), s₁) ∧
      s₁.db.nodes.map Node.serverPublicKey = ["public secret"] ∧ (∀ path, s₁.files path = none) ∧
      Sample.parts.startUp Sample.settings Sample.choices s₁ = some (.ok (), s₁) ∧
      ¬ Repaired Sample.publicKey Sample.parts Sample.settings Sample.choices s₁ := by
  obtain ⟨pool, hp⟩ : ∃ pool, Sample.parts.parseCIDR Sample.misnamed.poolCIDR = .ok pool := ⟨_, rfl⟩
  have hi : Awg.validInterfaceName Sample.misnamed.nodeIface = false := by decide +kernel
  refine ⟨⟨Sample.parts.rows Sample.misnamed Sample.choices ⟨1, "default"⟩ pool, fun _ => none⟩, ?_, rfl,
    fun _ => rfl, startUp_skipped Sample.correct_settings rfl (by simp [rows]), ?_⟩
  · rw [startUp_rows rfl (by decide) hp (profile_valid_iff.mpr (by decide)) (fun _ _ => rfl) rfl,
      writeBootstrapConf]
    simp only [hi, Bool.not_false, if_true]
    rfl
  · rw [repaired_iff Sample.correct_settings Sample.benign_choices (by simp [rows]),
      seeded_rows_iff rfl]
    rintro ⟨path, text, hp, -⟩
    cases hp

end Bootstrap
