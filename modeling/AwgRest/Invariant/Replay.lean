import AwgRest.Invariant.Idempotency
import AwgRest.Invariant.Jobs
import AwgRest.Requests.Isolation
import AwgRest.Requests.Outcome

open Domain Store Domain.Peer Auth

-- Requests that come again.
namespace ControlPlane

variable {C : ControlPlane} {G : Guard} {w₀ w w' : World} {τ : List Ev} {pid q : Nat} {φ ψ : Local}
  {e : Eff} {r : Except Err e.Answer} {db db' : DB}

-- Tenants never change, and no row of these tables is lost. Peers and operations remain what they
-- are.
structure RowsKept (db db' : DB) : Prop where
  tenants    : db'.tenants = db.tenants
  nodes      : db.nodes ⊆ db'.nodes
  profiles   : db.profiles ⊆ db'.profiles
  records    : db.records ⊆ db'.records
  peers      : ∀ p ∈ db.peers, ∃ p' ∈ db'.peers, p'.identity = p.identity
  operations : ∀ o ∈ db.operations, ∃ o' ∈ db'.operations, operationIdentity o' = operationIdentity o

theorem ActStep.rowsKept (h : ActStep C G w₀ τ w pid φ e r w') (hq : Quiet w₀)
    (hp : w₀.db.peers.Pairwise Apart) : RowsKept w.db w'.db := by
  obtain ⟨ha, hl⟩ := peers_of_trace h.trace hq hp
  have hpeers (p) (hm : p ∈ w.db.peers) : ∃ p' ∈ w'.db.peers, p'.identity = p.identity := by
    obtain ⟨p', hm', g⟩ := grows_step h ha (hl pid φ h.running) hm
    exact ⟨p', hm', g.same.symm⟩
  have hc := h.change
  generalize w'.db = db' at hc hpeers ⊢
  have same (o) (hm : o ∈ w.db.operations) :
      ∃ o' ∈ w.db.operations, operationIdentity o' = operationIdentity o :=
    ⟨o, hm, rfl⟩
  cases hc
  case commit =>
    refine ⟨replay_tenants, ?_, ?_, ?_, hpeers, fun o hm => ⟨o, ?_, rfl⟩⟩
    · simp [Local.view, replay_nodes]
    · simp [Local.view, replay_profiles]
    · simp [Local.view, replay_records]
    · simp [Local.view, replay_operations, hm]
  case auto s x _ _ _ =>
    have hops (o) (hm : o ∈ w.db.operations) :=
      exists_of_map_eq (@Auto.identities s w.db w.now x).2.symm hm
    rw [Auto.eval_frame] at hpeers ⊢
    exact ⟨rfl, fun _ => id, fun _ => id, fun _ => id, hpeers, hops⟩
  all_goals exact ⟨rfl, fun _ => id, fun _ => id, fun _ => id, hpeers, same⟩

-- The node and the profile that a process has found are in the tables.
structure SeenLocal (db : DB) (φ : Local) : Prop where
  node    : ∀ {n}, φ.node = some n → n ∈ db.nodes
  profile : ∀ {p}, φ.profile = some p → p ∈ db.profiles

theorem SeenLocal.mono (h : SeenLocal db φ) (hk : RowsKept db db') : SeenLocal db' φ :=
  ⟨fun hn => hk.nodes (h.node hn), fun hp => hk.profiles (h.profile hp)⟩

theorem SeenLocal.of_eq (h : SeenLocal db φ) (hn : ψ.node = φ.node) (hp : ψ.profile = φ.profile) :
    SeenLocal db ψ :=
  ⟨fun h' => h.node (hn ▸ h'), fun h' => h.profile (hp ▸ h')⟩

theorem SeenLocal.next (h : SeenLocal w.db φ) (hc : Change C φ w e r db') :
    SeenLocal w.db (φ.next e r) := by
  cases hc
  case query qu now hq =>
    have hv (hq : φ.tx = none) : φ.view w.db = w.db := Local.view_of_none hq
    cases qu
    case nodeByID id =>
      refine ⟨fun {n} hn => ?_, h.profile⟩
      have hn : (φ.view w.db).nodes.find? (·.id = id) = some n := hn
      rw [hv hq] at hn
      exact List.mem_of_find?_eq_some hn
    case pickFirst =>
      refine ⟨fun {n} hn => ?_, h.profile⟩
      have hn : ((φ.view w.db).nodes.insertionSort (Query.defaultLe (φ.view w.db))).head? =
          some n := hn
      rw [hv hq] at hn
      exact (List.mem_insertionSort _).mp (List.mem_of_mem_head? (Option.mem_def.mpr hn))
    case profileByID id =>
      refine ⟨h.node, fun {p} hp => ?_⟩
      have hp : (φ.view w.db).profiles.find? (·.id = id) = some p := hp
      rw [hv hq] at hp
      exact List.mem_of_find?_eq_some hp
    all_goals exact h.of_eq rfl rfl
  case stmt s _ _ _ _ _ _ => cases s <;> exact h.of_eq rfl rfl
  case commit => exact h.of_eq rfl rfl
  case auto s _ _ _ _ => cases s <;> exact h.of_eq rfl rfl
  case aside ha =>
    cases ha
    case failed =>
      cases e <;> first
        | exact h.of_eq rfl rfl
        | case query q => cases q <;> exact h.of_eq rfl rfl
        | case stmt s => cases s <;> exact h.of_eq rfl rfl
        | case auto s => cases s <;> exact h.of_eq rfl rfl
    case silent hs => cases e <;> first | exact h.of_eq rfl rfl | cases hs
    all_goals exact h.of_eq rfl rfl

variable {caller : Option Principal} {slug key : String} {req : Api.CreatePeerRequest} {rec : Record}
  {a : Account}

-- A record has the response that a request for the peer has got with the operation, without the
-- material that is handed out only once.
structure Recounts (p : Peer) (o : Operation) (rec : Record)
    (resp : Api.CreatePeerResponse) : Prop where
  body         : rec.responseBody = .created resp
  status       : rec.responseStatus = 202
  tenantID     : rec.tenantID = p.tenantID
  recorded     : rec.operationID = some o.id
  target       : o.peerID = some p.id
  operationID  : resp.operationID = o.id.string
  peerID       : resp.peerID = p.id.string
  allowedIP    : resp.allowedIP = (Netip.Prefix.host p.allowedIP).string
  publicKey    : resp.publicKey = p.publicKey
  nodeID       : resp.nodeID = p.nodeID.string
  profileID    : resp.profileID = p.profileID.string
  privateKey   : resp.privateKey = ""
  clientConfig : resp.clientConfig = []
  presharedKey : resp.presharedKey = ""

theorem Recounts.congr {p p' : Peer} {o o' : Operation} {resp : Api.CreatePeerResponse}
    (h : Recounts p o rec resp) (hp : p'.identity = p.identity)
    (ho : operationIdentity o' = operationIdentity o) : Recounts p' o' rec resp := by
  simp only [identity, Peer.Identity.mk.injEq] at hp
  simp only [operationIdentity, OperationIdentity.mk.injEq] at ho
  obtain ⟨hid, htn, hnode, hprof, -, -, hkey, -, haddr⟩ := hp
  obtain ⟨hoid, htarget, -, -⟩ := ho
  constructor
  case tenantID    => exact h.tenantID.trans htn.symm
  case recorded    => exact h.recorded.trans (congrArg some hoid.symm)
  case target      => rw [htarget, hid, h.target]
  case operationID => rw [hoid, h.operationID]
  case peerID      => rw [hid, h.peerID]
  case allowedIP   => rw [haddr, h.allowedIP]
  case publicKey   => rw [hkey, h.publicKey]
  case nodeID      => rw [hnode, h.nodeID]
  case profileID   => rw [hprof, h.profileID]
  case body         => exact h.body
  case status       => exact h.status
  case privateKey   => exact h.privateKey
  case clientConfig => exact h.clientConfig
  case presharedKey => exact h.presharedKey

-- What is left of a request for a peer that was committed.
structure Booked (C : ControlPlane) (db : DB) (slug key : String) (req : Api.CreatePeerRequest)
    (rec : Record) : Prop where
  tenant   : ∃ t, db.tenants.find? (·.slug = slug) = some t ∧ rec.tenantID = t.id
  admitted : ∃ n ∈ db.nodes, ∃ pr ∈ db.profiles, Admitted C.service key req n pr
  stored   : rec ∈ db.records
  key      : rec.key = key
  hash     : rec.requestHash = C.service.createHash req slug
  rows     : ∃ p ∈ db.peers, ∃ o ∈ db.operations, ∃ resp, p.externalID = req.externalID ∧
    Recounts p o rec resp

theorem Booked.mono (h : Booked C db slug key req rec) (hk : RowsKept db db') :
    Booked C db' slug key req rec where
  tenant   := hk.tenants ▸ h.tenant
  admitted := by
    obtain ⟨n, hn, pr, hp, ha⟩ := h.admitted
    exact ⟨n, hk.nodes hn, pr, hk.profiles hp, ha⟩
  stored   := hk.records h.stored
  key      := h.key
  hash     := h.hash
  rows     := by
    obtain ⟨p, hp, o, ho, resp, hx, hr⟩ := h.rows
    obtain ⟨p', hp', hpi⟩ := hk.peers p hp
    obtain ⟨o', ho', hoi⟩ := hk.operations o ho
    exact ⟨p', hp', o', ho', resp, (congrArg Identity.externalID hpi).trans hx, hr.congr hpi hoi⟩

-- The same of a process that is still running.
structure BookedLocal (C : ControlPlane) (db : DB) (φ : Local) : Prop where
  seen   : SeenLocal db φ
  booked : ∀ {caller slug key req ws}, φ.kind = .createPeer caller slug key req → φ.effect = some ws →
    ∃ rec, recordsOf ws = [rec] ∧ Booked C db slug key req rec

theorem BookedLocal.mono (h : BookedLocal C db φ) (hk : RowsKept db db') : BookedLocal C db' φ where
  seen         := h.seen.mono hk
  booked hφ he := by
    obtain ⟨rec, hr, hb⟩ := h.booked hφ he
    exact ⟨rec, hr, hb.mono hk⟩

theorem booked_commit {ws : List Write} (hs : SeenLocal db φ) (ht : TenantLocal db φ)
    (he : Effect C φ ws) (hk : φ.kind = .createPeer caller slug key req) :
    ∃ rec, recordsOf ws = [rec] ∧ Booked C (Transactions.replay db ws) slug key req rec := by
  have hr : φ.kind.IsRequest := hk ▸ rfl
  cases he
  case create caller' slug' key' req' t n pr p o j a r pool cursor priv psk hk' _ _ htn hsl hn hp
      ha hpt hpn hpp hpe hq hb =>
    cases hk.symm.trans hk'
    refine ⟨r, rfl, ⟨t, ?_, hq.tenant⟩, ⟨n, ?_, pr, ?_, ha⟩, ?_, hq.key, hq.hash, p, ?_, o, ?_,
      (C.service.response o p n pr priv psk).safe, hpe, ?_⟩
    · rw [replay_tenants, ← hsl]
      exact ht htn
    · rw [replay_nodes]
      exact List.mem_append_left _ (hs.node hn)
    · rw [replay_profiles]
      exact List.mem_append_left _ (hs.profile hp)
    · rw [replay_records]
      exact List.mem_append_right _ (by simp)
    · rw [replay_peers]
      exact mem_upsert_self
    · rw [replay_operations]
      exact List.mem_append_right _ (List.mem_singleton_self _)
    · constructor
      case body      => exact hb
      case status    => exact hq.status
      case tenantID  => exact hq.tenant.trans hpt.symm
      case recorded  => exact hq.opID
      case target    =>
        obtain ⟨_, _, rfl⟩ := hq.op
        rfl
      case nodeID    => exact congrArg UUID.string hpn.symm
      case profileID => exact congrArg UUID.string hpp.symm
      all_goals rfl
  case revoke hk' _ _ _ _ _ _ _ => cases hk.symm.trans hk'
  case work h _           => exact absurd hr (φ.kind.not_isRequest h)
  case provision hk' _ _ _ => cases hk.symm.trans hk'
  case allocate hk'       => cases hk.symm.trans hk'
  case markRevoked hk'    => cases hk.symm.trans hk'

theorem running_booked (h : C.Trace G w₀ τ w) (hq : Quiet w₀) (hp : w₀.db.peers.Pairwise Apart) :
    ∀ q ψ, C.locals τ q = some ψ → BookedLocal C w.db ψ := by
  refine (trace_invariant (Q := fun _ _ => True) (P := fun _ w _ ψ => BookedLocal C w.db ψ) hq h trivial
    ?idle ?new ?act).2
  case idle => exact fun hi => ⟨fun h => h, fun q ψ h => hi.db ▸ h⟩
  case new  => exact fun _ => ⟨⟨nofun, nofun⟩, nofun⟩
  case act  =>
    intro τ w pid φ e r w' hs _ hl
    have hk := hs.rowsKept hq hp
    have hφ := hl pid φ hs.running
    refine ⟨trivial, ⟨(hφ.seen.next hs.change).mono hk, fun {caller slug key req ws} hkd he => ?_⟩,
      fun q ψ _ hψ => (hl q ψ hψ).mono hk⟩
    rw [Local.kind_next] at hkd
    cases Account.marks φ e r
    case commit =>
      have hc := hs.change
      have ht : TenantLocal w.db φ := tenants_of_trace hs.trace hq pid φ hs.running
      generalize w'.db = db' at hc ⊢
      cases hc
      case commit t htx hc =>
        have hw : ws = φ.writes := by
          simp only [Local.next, htx, Option.map_some, Option.some.injEq] at he
          rw [← he, Local.writes_of_some htx]
        rw [hw]
        exact booked_commit hφ.seen ht hc hkd
      case aside ha => cases ha; case silent hs => cases hs
    case lookup =>
      obtain ⟨rec, hr, hb⟩ := hφ.booked hkd he
      exact ⟨rec, hr, hb.mono hk⟩
    case keep h₁ _ _ =>
      obtain ⟨rec, hr, hb⟩ := hφ.booked hkd (h₁ ▸ he)
      exact ⟨rec, hr, hb.mono hk⟩

-- The record of a request is there, and if the request returned then it has the response.
structure BookedFor (C : ControlPlane) (db : DB) (slug key : String) (req : Api.CreatePeerRequest)
    (a : Account) (rec : Record) : Prop extends Booked C db slug key req rec where
  answered : ∀ {first status}, a.answer = some (.ok (.created first status)) →
    rec.responseBody = .created first.safe ∧ rec.responseStatus = status

theorem BookedFor.mono (h : BookedFor C db slug key req a rec) (hk : RowsKept db db') :
    BookedFor C db' slug key req a rec :=
  ⟨h.toBooked.mono hk, h.answered⟩

theorem BookedLocal.bookedFor (h : BookedLocal C db φ) (ho : a.Open φ)
    (hk : a.kind = .createPeer caller slug key req) (hc : a.commits ≠ 0) :
    ∃ ws rec, φ.effect = some ws ∧ recordsOf ws = [rec] ∧ Booked C db slug key req rec := by
  have hkd : φ.kind = .createPeer caller slug key req := ho.kind ▸ hk
  rw [ho.commits (hkd ▸ rfl)] at hc
  cases he : φ.effect
  case none    => simp [he] at hc
  case some ws =>
    obtain ⟨rec, hr, hb⟩ := h.booked hkd he
    exact ⟨ws, rec, rfl, hr, hb⟩

theorem bookedFor_of_trace (h : C.Trace G w₀ τ w) (hq : Quiet w₀)
    (hps : w₀.db.peers.Pairwise Apart) :
    ∀ {pid a caller slug key req}, accounts τ pid = some a →
      a.kind = .createPeer caller slug key req →
      a.commits ≠ 0 → ∃ rec, BookedFor C w.db slug key req a rec := by
  induction h
  case nil => exact fun ha => by cases ha
  case spawn τ w pid k h _ _ _ ih =>
    intro q a caller slug key req ha hk hc
    rw [accounts_concat] at ha
    by_cases hp : q = pid
    · subst hp
      obtain rfl : { kind := k } = a := by simpa [Account.record] using ha
      exact absurd rfl hc
    · exact ih (by simpa [Account.record, hp] using ha) hk hc
  case act τ w pid φ e r w' x h hl ha hx hg ih =>
    intro q a caller slug key req haq hk hc
    have htr : C.Trace G w₀ (τ ++ [.act pid e r]) w' := .act x h hl ha hx hg
    have hact : ActStep C G w₀ τ w pid φ e r w' :=
      ⟨h, hl, linked_of_trace h hq, ha, World.acts_of_exec hx, hg⟩
    have hkept := hact.rowsKept hq hps
    by_cases hp : q = pid
    · subst hp
      have hl' : C.locals (τ ++ [.act q e r]) q = some (φ.next e r) := by
        rw [locals_act hl, Function.update_self]
      obtain ⟨a', ha', ho⟩ := (accounts_of_trace htr).1 q _ hl'
      obtain rfl := Option.some.inj (ha'.symm.trans haq)
      obtain ⟨_, rec, _, _, hb⟩ := (running_booked htr hq hps q _ hl').bookedFor ho hk hc
      exact ⟨rec, hb, fun hans => by simp [ho.answer] at hans⟩
    · rw [accounts_concat] at haq
      obtain ⟨rec, hr⟩ := ih (by simpa [Account.record, hp] using haq) hk hc
      exact ⟨rec, hr.mono hkept⟩
  case done τ w pid φ b h hl hp _ ih =>
    intro q a caller slug key req ha hk hc
    rw [accounts_concat] at ha
    by_cases hqp : q = pid
    · subst hqp
      obtain ⟨a', ha', ho⟩ := (accounts_of_trace h).1 q φ hl
      obtain rfl : { a' with answer := some b } = a := by simpa [Account.record, ha'] using ha
      obtain ⟨ws, rec, he, hr, hb⟩ := (running_booked h hq hps q φ hl).bookedFor ho hk hc
      refine ⟨rec, hb, fun {first status} hans => ?_⟩
      obtain rfl : b = .ok (.created first status) := Option.some.inj hans
      have hreq : φ.kind.IsRequest := by
        rw [← ho.kind, show a'.kind = _ from hk]
        rfl
      cases hp.2.1 hreq
      case created ws' r he' hm hbody hst =>
        obtain rfl := Option.some.inj (he'.symm.trans he)
        obtain rfl : r = rec := by simpa [hr] using mem_recordsOf.mpr hm
        exact ⟨hbody, hst⟩
      case createReplayed he' _ _ => cases he'.symm.trans he
    · exact ih (by simpa [Account.record, hqp] using ha) hk hc
  case crash ih =>
    intro q a caller slug key req ha
    rw [accounts_concat] at ha
    exact ih ha
  case tick ih =>
    intro q a caller slug key req ha
    rw [accounts_concat] at ha
    exact ih ha

-- The default node has a profile, and it is one that the request asks for.
def Fits (s : Api.Service) (db : DB) (req : Api.CreatePeerRequest) : Prop :=
  ∃ n id pr, Query.eval db 0 .pickFirst = some n ∧ n.profileID = some id ∧
    db.profiles.find? (·.id = id) = some pr ∧ s.validateRequestedProfile pr req = .ok ()

-- Whether the checks of a request succeed once more.
theorem admit_again_iff {t : Tenant} (hb : Booked C db slug key req rec)
    (hn : (Table.nodes.keys db).Nodup) (hp : (Table.profiles.keys db).Nodup)
    (ht : db.tenants.find? (·.slug = slug) = some t)
    (ha : authorizeTenant caller t.id Api.Service.writers = .ok ()) :
    (∃ n pr, C.service.admission db caller slug key req = .ok (t, n, pr)) ↔
      req.nodeID ≠ none ∨ Fits C.service db req := by
  obtain ⟨n, hnm, pr, hpm, hadm⟩ := hb.admitted
  have hfn : db.nodes.find? (·.id = n.id) = some n := (Api.find?_id_iff hn).mpr ⟨hnm, rfl⟩
  have hfp : db.profiles.find? (·.id = pr.id) = some pr := (Api.find?_id_iff hp).mpr ⟨hpm, rfl⟩
  cases hid : req.nodeID
  case some id =>
    refine iff_of_true ⟨n, pr, Api.Service.admit_ok_iff.mpr ?_⟩ (.inl (Option.some_ne_none _))
    refine ⟨hadm.external, hadm.keyed, ht, ha, ?_, ⟨pr.id, hadm.owned, hfp⟩, hadm.asserted,
      hadm.supplied⟩
    simp only [Api.Service.findNode, hid, hadm.resolved hid]
    exact rowOf_eq_ok.mpr hfn
  case none =>
    have hfind {n' : Node} : C.service.findNode db req = .ok n' ↔
        Query.eval db 0 .pickFirst = some n' := by
      simp only [Api.Service.findNode, hid]
      exact rowOf_eq_ok
    constructor
    · rintro ⟨n', pr', h⟩
      obtain ⟨-, -, -, -, hnode, ⟨i, hi, hpi⟩, hv, -⟩ := Api.Service.admit_ok_iff.mp h
      exact .inr ⟨n', i, pr', hfind.mp hnode, hi, hpi, hv⟩
    · rintro (h | ⟨n', i, pr', hnode, hi, hpi, hv⟩)
      · exact absurd rfl h
      · exact ⟨n', pr', Api.Service.admit_ok_iff.mpr ⟨hadm.external, hadm.keyed, ht, ha, hfind.mpr hnode,
          ⟨i, hi, hpi⟩, hv, hadm.supplied⟩⟩

-- The record of a key is found until it expires.
theorem lookup_recorded {t : Tenant} {now : Time} (hb : Booked C db slug key req rec)
    (hk : (Table.records.keys db).Nodup) (ht : db.tenants.find? (·.slug = slug) = some t)
    (hx : now < rec.expiresAt) : Query.eval db now (.lookup t.id key) = some rec := by
  obtain ⟨t', ht', htr⟩ := hb.tenant
  obtain rfl := Option.some.inj (ht.symm.trans ht')
  cases hf : Query.eval db now (.lookup t.id key)
  case none    =>
    have := List.find?_eq_none.mp hf rec hb.stored
    simp [htr, hb.key, hx] at this
  case some rec' =>
    have hm : rec' ∈ db.records := List.mem_of_find?_eq_some hf
    have hp := List.find?_some hf
    simp only [decide_eq_true_eq] at hp
    have hkey : (rec'.tenantID, rec'.key) = (rec.tenantID, rec.key) := by
      rw [hp.1, hp.2.1, htr, hb.key]
    rw [Table.eq_of_key (T := Table.records) hk hm hb.stored hkey]

-- A request that comes again gets the recorded response and changes nothing, unless it left the
-- choice of the node to the service and the node that is the default now has not the profile that
-- it asks for.
theorem replay_returns_recorded_iff {c : Conf} {o : Oracle} {caller₀ : Option Principal}
    (hq : Quiet w₀) (hps : w₀.db.peers.Pairwise Apart) (hr : (Table.records.keys w₀.db).Nodup)
    (hn : (Table.nodes.keys w₀.db).Nodup) (hp : (Table.profiles.keys w₀.db).Nodup)
    (h : C.Runs unguarded w₀ τ c) (ha : accounts τ pid = some a)
    (hk : a.kind = .createPeer caller₀ slug key req) (hc : a.commits ≠ 0)
    (ho : o.Benign) (hx : c.world.txs q = none)
    (hauth : ∀ {t}, c.world.db.tenants.find? (·.slug = slug) = some t →
      authorizeTenant caller t.id Api.Service.writers = .ok ()) :
    ∃ t, c.world.db.tenants.find? (·.slug = slug) = some t ∧
    ∃ rec ∈ c.world.db.records, rec.tenantID = t.id ∧ rec.key = key ∧
      ∃ p ∈ c.world.db.peers, p.externalID = req.externalID ∧
      ∃ op ∈ c.world.db.operations, ∃ resp, Recounts p op rec resp ∧
      (∀ {first status}, a.answer = some (.ok (.created first status)) →
        resp = { first with privateKey := "", clientConfig := [], presharedKey := "" } ∧
        rec.responseStatus = status) ∧
      (c.world.now < rec.expiresAt →
        (answer o q c.world (C.service.createPeer caller slug key req) =
            some (.ok (resp, rec.responseStatus), c.world.db) ↔
          req.nodeID ≠ none ∨ Fits C.service c.world.db req)) := by
  obtain ⟨rec, hrec⟩ := bookedFor_of_trace h.trace hq hps ha hk hc
  obtain ⟨t, ht, htr⟩ := hrec.tenant
  obtain ⟨p, hpm, op, hom, resp, hpe, hresp⟩ := hrec.rows
  have hnodup {α κ : Type} (T : Table α κ) (h₀ : (T.keys w₀.db).Nodup) : (T.keys c.world.db).Nodup :=
    (Table.nodup_of_trace h.trace hq h₀).1
  refine ⟨t, ht, rec, hrec.stored, htr, hrec.key, p, hpm, hpe, op, hom, resp, hresp,
    fun {first status} hans => ?_, fun hlt => ?_⟩
  · obtain ⟨hb, hs⟩ := hrec.answered hans
    exact ⟨Api.Body.created.inj (hresp.body.symm.trans hb), hs⟩
  · rw [← admit_again_iff hrec.toBooked (hnodup _ hn) (hnodup _ hp) ht (hauth ht)]
    cases hadm : C.service.admission c.world.db caller slug key req
    case error e =>
      rw [answer_refused ho hx hadm]
      exact iff_of_false (by simp) (by simp)
    case ok x =>
      obtain ⟨t', n, pr⟩ := x
      obtain rfl := Option.some.inj ((Api.Service.admit_ok_iff.mp hadm).tenant.symm.trans ht)
      rw [answer_replayed ho hx hadm (lookup_recorded hrec.toBooked (hnodup _ hr) ht hlt),
        if_neg (not_not_intro hrec.hash), hresp.body]
      exact iff_of_true rfl ⟨n, pr, rfl⟩

-- The second request gets what the first one has got, without the keys.
theorem replay_returns_recorded_sample :
    ∃ τ c rec resp, Sample.plane.Runs unguarded Sample.world τ c ∧ c.world.db.records = [rec] ∧
      rec.tenantID = 4 ∧
      answer (fun _ => {}) 1 c.world
        (Sample.plane.service.createPeer Sample.admin "t" "k" { externalID := "x" }) =
        some (.ok (resp, 202), c.world.db) ∧
      resp.operationID = (11 : UUID).string ∧ resp.peerID = (10 : UUID).string ∧
      resp.allowedIP = "10.0.0.2/32" ∧ resp.publicKey = "b" ∧ resp.nodeID = (2 : UUID).string ∧
      resp.profileID = (1 : UUID).string ∧
      resp.privateKey = "" ∧ resp.clientConfig = [] ∧ resp.presharedKey = "" := by
  have h : ((Sample.plane.system.playAll (boot Sample.world)
      (Sample.create 0 "k" "x" ⟨"a", "b"⟩ 10 11 12)).map fun r => decide (
        (accounts r.1 0).map (fun a => (a.kind, decide (a.commits = 0))) =
          some (.createPeer Sample.admin "t" "k" { externalID := "x" }, false) ∧
        Query.eval r.2.world.db 0 .pickFirst = some Sample.node ∧
        r.2.world.db.profiles.find? (·.id = 1) = some Sample.profile ∧
        r.2.world.db.tenants = Sample.world.db.tenants ∧
        (r.2.world.txs 1).isNone = true ∧
        r.2.world.db.peers.map (fun p => (p.id, (Netip.Prefix.host p.allowedIP).string, p.publicKey,
          p.nodeID, p.profileID)) = [(10, "10.0.0.2/32", "b", 2, 1)] ∧
        r.2.world.db.operations.map Operation.id = [11] ∧ r.2.world.db.records.length = 1 ∧
        ∀ rec ∈ r.2.world.db.records, r.2.world.now < rec.expiresAt)) = some true := by decide +kernel
  obtain ⟨⟨τ, c⟩, hp, hs⟩ := Option.map_eq_some_iff.mp h
  obtain ⟨ha, hnode, hprof, htn, htx, hpeers, hops, hlen, hexp⟩ := of_decide_eq_true hs
  obtain ⟨a, ha, hak⟩ := Option.map_eq_some_iff.mp ha
  simp only [Prod.mk.injEq, decide_eq_false_iff_not] at hak
  have hrun : Sample.plane.Runs unguarded Sample.world τ c := System.playAll_run hp
  have hfit : Fits Sample.plane.service c.world.db { externalID := "x" } :=
    ⟨Sample.node, 1, Sample.profile, hnode, rfl, hprof, rfl⟩
  have hq : Quiet Sample.world := ⟨fun _ => rfl, rfl⟩
  have hrec : (Table.records.keys Sample.world.db).Nodup := List.nodup_nil
  have hn : (Table.nodes.keys Sample.world.db).Nodup := List.nodup_singleton _
  have hpr : (Table.profiles.keys Sample.world.db).Nodup := List.nodup_singleton _
  have hauth {t : Tenant} : c.world.db.tenants.find? (·.slug = "t") = some t →
      authorizeTenant Sample.admin t.id Api.Service.writers = .ok () := fun _ => rfl
  obtain ⟨t, ht, rec, hm, htr, _, p, hpm, _, op, hom, resp, hresp, _, hiff⟩ :=
    replay_returns_recorded_iff (o := fun _ => {}) hq .nil hrec hn hpr hrun ha hak.1 hak.2 (fun _ => rfl)
      (Option.isNone_iff_eq_none.mp htx) hauth
  have hp' := List.mem_singleton.mp (hpeers ▸ List.mem_map_of_mem hpm)
  have ho' := List.mem_singleton.mp (hops ▸ List.mem_map_of_mem hom)
  simp only [Prod.mk.injEq] at hp'
  obtain ⟨hid, haddr, hkey, hnid, hpid⟩ := hp'
  have hone : c.world.db.records = [rec] := by
    obtain ⟨rec', hr'⟩ := List.length_eq_one_iff.mp hlen
    rw [hr'] at hm ⊢
    rw [List.mem_singleton.mp hm]
  have ht4 : t.id = 4 := by
    rw [htn] at ht
    cases ht
    rfl
  exact ⟨τ, c, rec, resp, hrun, hone, htr.trans ht4,
    hresp.status ▸ (hiff (hexp rec hm)).mpr (.inr hfit),
    ho' ▸ hresp.operationID, hid ▸ hresp.peerID, haddr ▸ hresp.allowedIP, hkey ▸ hresp.publicKey,
    hnid ▸ hresp.nodeID, hpid ▸ hresp.profileID, hresp.privateKey, hresp.clientConfig,
      hresp.presharedKey⟩

namespace Sample

-- The small installation with a v3.1 profile, and a plane that can provision nodes.
def provisioner : ControlPlane :=
  { plane with
    bootstrap := { plane.bootstrap with
      parsePrefix := fun _ => .ok ⟨⟨.v4, 10 * 2 ^ 24 + 2 ^ 16, by decide⟩, 29, by decide⟩ } }

def modern : World :=
  { world with db := { world.db with profiles := [{ profile with protocolVersion := .v31 }] } }

def another : Bootstrap.V31NodeOptions where
  tenantSlug       := "t"
  profileName      := "other"
  nodeRegion       := "eu"
  nodeHostname     := "a"
  nodeEndpoint     := "e"
  nodeBasePort     := 2
  nodeIface        := "awg1"
  poolCIDR         := "10.1.0.0/29"
  bootstrapConfDir := "d"

def provision (pid : Nat) : Schedule :=
  .spawn pid (.provision another) :: steps pid 1 ++
  acts pid [{ key := "AAAAAAAAAAAAAAAAAAAAAAAAAAAAAAAAAAAAAAAAAAA=" }, { keyPair := ⟨"p", "q"⟩ }] ++
  steps pid 7 ++ acts pid [{ id := 20 }, { id := 21 }, { id := 22 }] ++ steps pid 7 ++ [.done pid]

end Sample

-- The new node has become the default one, and its profile has another name.
theorem replay_fails_after_provisioning :
    ∃ τ c, Sample.provisioner.Runs unguarded Sample.modern τ c ∧
      (accounts τ 0).map Account.commits = some 1 ∧
      (∀ rec ∈ c.world.db.records, c.world.now < rec.expiresAt) ∧
      ∀ r, answer (fun _ => {}) 2 c.world (Sample.provisioner.service.createPeer Sample.admin "t" "k"
        { externalID := "x", profileName := some "plain" }) ≠ some (.ok r, c.world.db) := by
  have h : ((Sample.provisioner.system.playAll (boot Sample.modern)
      (.spawn 0 (.createPeer Sample.admin "t" "k" { externalID := "x", profileName := some "plain" }) ::
        Sample.steps 0 5 ++ Sample.acts 0 [{ keyPair := ⟨"a", "b"⟩ }] ++ Sample.steps 0 4 ++
        Sample.acts 0 [{ id := 10 }, { id := 11 }, { id := 12 }] ++ Sample.steps 0 4 ++ [.done 0] ++
        Sample.provision 1)).map fun r => decide (
      (accounts r.1 0).map Account.commits = some 1 ∧
      (∀ rec ∈ r.2.world.db.records, r.2.world.now < rec.expiresAt) ∧
      (answer (fun _ => {}) 2 r.2.world (Sample.provisioner.service.createPeer Sample.admin "t" "k"
        { externalID := "x", profileName := some "plain" })).map (·.1.isOk) = some false)) =
      some true := by decide +kernel
  obtain ⟨⟨τ, c⟩, hp, hs⟩ := Option.map_eq_some_iff.mp h
  obtain ⟨hc, hx, hans⟩ := of_decide_eq_true hs
  refine ⟨τ, c, System.playAll_run hp, hc, hx, fun r hr => ?_⟩
  rw [hr] at hans
  cases hans

end ControlPlane
