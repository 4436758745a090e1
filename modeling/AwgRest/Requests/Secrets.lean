import AwgRest.Requests.Outcome

open Domain Netip Store Repo Auth

-- What requests reveal of the secrets in the database.

namespace Domain

def Peer.bare (p : Peer) : Peer :=
  { p with presharedKeyRef := none }

def ProtocolProfile.bare (p : ProtocolProfile) : ProtocolProfile :=
  { p with headerProtectionKey := "" }

end Domain

namespace Store

-- Two databases that agree on everything but the preshared keys and the keys of header protection.
structure SameButSecrets (db db' : DB) : Prop where
  tenants    : db.tenants = db'.tenants
  nodes      : db.nodes = db'.nodes
  profiles   : db.profiles.map ProtocolProfile.bare = db'.profiles.map ProtocolProfile.bare
  pools      : db.pools = db'.pools
  peers      : db.peers.map Peer.bare = db'.peers.map Peer.bare
  runtimes   : db.runtimes = db'.runtimes
  operations : db.operations = db'.operations
  outbox     : db.outbox = db'.outbox
  audit      : db.audit = db'.audit
  records    : db.records = db'.records

namespace SameButSecrets

variable {db db' : DB}

-- Searching for a row of which the secret does not matter.
theorem find {α : Type} {f : α → α} {p : α → Bool} {rows rows' : List α}
    (h : rows.map f = rows'.map f) (hp : ∀ a, p (f a) = p a) :
    (rows.find? p).map f = (rows'.find? p).map f := by
  have hc : p ∘ f = p := funext hp
  have hf (l : List α) : (l.map f).find? p = (l.find? p).map f := by rw [List.find?_map, hc]
  rw [← hf rows, ← hf rows', h]

theorem any {α : Type} {f : α → α} {p : α → Bool} {rows rows' : List α}
    (h : rows.map f = rows'.map f) (hp : ∀ a, p (f a) = p a) : rows.any p = rows'.any p := by
  have hc : p ∘ f = p := funext hp
  have ha (l : List α) : (l.map f).any p = l.any p := by rw [List.any_map, hc]
  rw [← ha rows, ← ha rows', h]

theorem filter_map {α β : Type} {f : α → α} {p : α → Bool} {g : α → β} {rows rows' : List α}
    (h : rows.map f = rows'.map f) (hp : ∀ a, p (f a) = p a) (hg : ∀ a, g (f a) = g a) :
    (rows.filter p).map g = (rows'.filter p).map g := by
  have hc : p ∘ f = p := funext hp
  have hd : g ∘ f = g := funext hg
  have hm (l : List α) : ((l.map f).filter p).map g = (l.filter p).map g := by
    rw [List.filter_map, hc, List.map_map, hd]
  rw [← hm rows, ← hm rows', h]

-- Either both have no such row, or they have two that differ in their secrets only.
theorem find_cases {α : Type} {f : α → α} {p : α → Bool} {rows rows' : List α}
    (h : rows.map f = rows'.map f) (hp : ∀ a, p (f a) = p a) :
    (rows.find? p = none ∧ rows'.find? p = none) ∨
    ∃ a a', rows.find? p = some a ∧ rows'.find? p = some a' ∧ f a = f a' := by
  have hf := find h hp
  cases ha : rows.find? p <;> cases ha' : rows'.find? p <;> rw [ha, ha'] at hf
  case none.none      => exact .inl ⟨rfl, rfl⟩
  case none.some      => cases hf
  case some.none      => cases hf
  case some.some a a' => exact .inr ⟨a, a', rfl, rfl, Option.some.inj hf⟩

theorem findPeer (h : SameButSecrets db db') (i : UUID) :
    (db.peers.find? (·.id = i) = none ∧ db'.peers.find? (·.id = i) = none) ∨
    ∃ p p', db.peers.find? (·.id = i) = some p ∧ db'.peers.find? (·.id = i) = some p' ∧
      p.bare = p'.bare :=
  find_cases h.peers fun _ => rfl

theorem findProfile (h : SameButSecrets db db') (i : UUID) :
    (db.profiles.find? (·.id = i) = none ∧ db'.profiles.find? (·.id = i) = none) ∨
    ∃ p p', db.profiles.find? (·.id = i) = some p ∧ db'.profiles.find? (·.id = i) = some p' ∧
      p.bare = p'.bare :=
  find_cases h.profiles fun _ => rfl

-- The default node does not depend on secrets.
theorem pickFirst (h : SameButSecrets db db') :
    Query.eval db 0 .pickFirst = Query.eval db' 0 .pickFirst := by
  have hr (n : Node) : Query.defaultLe.rank db n = Query.defaultLe.rank db' n := by
    unfold Query.defaultLe.rank
    rw [any h.profiles]
    exact fun _ => rfl
  have hle : Query.defaultLe db = Query.defaultLe db' := by
    funext m n
    simp only [Query.defaultLe, hr]
  simp only [Query.eval, h.nodes]
  congr!

end SameButSecrets
end Store

namespace Api.Service

variable (s : Service) {db db' : DB} (caller : Option Principal) (slug : String)

-- Two peers that a request reads, which differ in their secrets only.
theorem readPeer_secrets (h : SameButSecrets db db') (id : String) :
    (∃ e, s.readPeer db caller slug id = .error e ∧ s.readPeer db' caller slug id = .error e) ∨
    ∃ p p', s.readPeer db caller slug id = .ok p ∧ s.readPeer db' caller slug id = .ok p' ∧
      p.bare = p'.bare := by
  simp only [readPeer, Query.eval, h.tenants]
  cases db'.tenants.find? (·.slug = slug)
  case none        => exact .inl ⟨_, rfl, rfl⟩
  case some tenant =>
    simp only [rowOf, ok_bind]
    cases authorizeTenant caller tenant.id readers
    case error e => exact .inl ⟨e, rfl, rfl⟩
    cases s.parseUUID id
    case none   => exact .inl ⟨_, rfl, rfl⟩
    case some i =>
      rcases h.findPeer i with ⟨hp, hp'⟩ | ⟨p, p', hp, hp', hb⟩
      · simp only [hp, hp']
        exact .inl ⟨_, rfl, rfl⟩
      · have ht : p.tenantID = p'.tenantID := (congrArg Peer.tenantID hb :)
        simp only [hp, hp', ok_bind, ht]
        by_cases hne : p'.tenantID ≠ tenant.id
        · simp only [if_pos hne]
          exact .inl ⟨_, rfl, rfl⟩
        · simp only [if_neg hne]
          exact .inr ⟨p, p', rfl, rfl, hb⟩

theorem readDocument_secrets (h : SameButSecrets db db') (id : String) :
    (do pure (← s.readPeer db caller slug id).document : Except Err PeerDocument) =
      (do pure (← s.readPeer db' caller slug id).document) := by
  rcases s.readPeer_secrets caller slug h id with ⟨e, he, he'⟩ | ⟨p, p', hp, hp', hb⟩
  · rw [he, he']
  · rw [hp, hp']
    -- The document of a peer is that of its bare row.
    exact (congrArg (fun p : Peer => Except.ok p.document) hb :)

theorem readConfiguration_secrets (h : SameButSecrets db db') (id : String) :
    s.readConfiguration db caller slug id = s.readConfiguration db' caller slug id := by
  unfold readConfiguration
  rcases s.readPeer_secrets caller slug h id with ⟨e, he, he'⟩ | ⟨p, p', hp, hp', hb⟩
  · rw [he, he']
    rfl
  · have hn : p.nodeID = p'.nodeID := (congrArg Peer.nodeID hb :)
    have ha : p.allowedIP = p'.allowedIP := (congrArg Peer.allowedIP hb :)
    simp only [hp, hp', ok_bind, hn, Query.eval, h.nodes]
    cases db'.nodes.find? (·.id = p'.nodeID)
    case none      => rfl
    case some node =>
      simp only [rowOf, ok_bind]
      cases node.profileID
      case none   => rfl
      case some i =>
        rcases h.findProfile i with ⟨hr, hr'⟩ | ⟨r, r', hr, hr', hbr⟩
        · simp only [hr, hr', error_bind]
        · simp only [hr, hr', ok_bind]
          exact congrArg Except.ok (by
            change Render.amneziaClient _ r.bare = Render.amneziaClient _ r'.bare
            rw [hbr, ha])

variable (key : String) (req : CreatePeerRequest)

theorem findNode_secrets (h : SameButSecrets db db') : s.findNode db req = s.findNode db' req := by
  unfold findNode
  cases req.nodeID
  case none    => exact congrArg rowOf h.pickFirst
  case some id =>
    simp only [Query.eval, h.nodes]

theorem admit_secrets (h : SameButSecrets db db') :
    (∃ e, s.admission db caller slug key req = .error e ∧ s.admission db' caller slug key req = .error e) ∨
    ∃ t n pr pr', s.admission db caller slug key req = .ok (t, n, pr) ∧
      s.admission db' caller slug key req = .ok (t, n, pr') ∧ pr.bare = pr'.bare := by
  unfold admission
  split
  case isTrue => exact .inl ⟨_, rfl, rfl⟩
  split
  case isTrue => exact .inl ⟨_, rfl, rfl⟩
  simp only [Query.eval, h.tenants, s.findNode_secrets req h]
  cases db'.tenants.find? (·.slug = slug)
  case none   => exact .inl ⟨_, rfl, rfl⟩
  case some t =>
    simp only [rowOf, ok_bind]
    cases authorizeTenant caller t.id writers
    case error e => exact .inl ⟨e, rfl, rfl⟩
    cases s.findNode db' req
    case error e => exact .inl ⟨e, rfl, rfl⟩
    case ok n    =>
      simp only [ok_bind]
      cases n.profileID
      case none   => exact .inl ⟨_, rfl, rfl⟩
      case some i =>
        rcases h.findProfile i with ⟨hr, hr'⟩ | ⟨pr, pr', hr, hr', hb⟩
        · simp only [hr, hr', error_bind]
          exact .inl ⟨_, rfl, rfl⟩
        · -- The assertions of a request are about the identifier and the name of a profile.
          have hv : s.validateRequestedProfile pr req = s.validateRequestedProfile pr' req :=
            (congrArg (s.validateRequestedProfile · req) hb :)
          simp only [hr, hr', ok_bind, hv]
          cases s.validateRequestedProfile pr' req
          case error e => exact .inl ⟨e, rfl, rfl⟩
          cases checkSuppliedKey req
          case error e => exact .inl ⟨e, rfl, rfl⟩
          case ok _    => exact .inr ⟨t, n, pr, pr', rfl, rfl, hb⟩

-- What two requests draw that differ in the secrets only.
structure Drawn.SameButSecrets (d d' : Drawn) : Prop where
  publicKey   : d.publicKey = d'.publicKey
  peerID      : d.peerID = d'.peerID
  operationID : d.operationID = d'.operationID
  jobID       : d.jobID = d'.jobID
  time        : d.time = d'.time

theorem allocation_secrets (h : SameButSecrets db db') {t : Tenant} {n : Node}
    {pr pr' : ProtocolProfile} {d d' : Drawn} (hd : d.SameButSecrets d') :
    Peers.allocation db (draftParams req t n pr d) =
      Peers.allocation db' (draftParams req t n pr' d') := by
  have hu : Peers.used db n.id = Peers.used db' n.id :=
    SameButSecrets.filter_map h.peers (fun _ => rfl) fun _ => rfl
  have ht (a : Addr) : Peers.taken db (draftParams req t n pr d) a =
      Peers.taken db' (draftParams req t n pr' d') a := by
    have hk : (draftParams req t n pr d).publicKey = (draftParams req t n pr' d').publicKey :=
      hd.publicKey
    unfold Peers.taken
    rw [hk]
    exact SameButSecrets.any h.peers fun _ => rfl
  have hl : Peers.lockedPool db (draftParams req t n pr d) =
      Peers.lockedPool db' (draftParams req t n pr' d') := by
    unfold Peers.lockedPool
    rw [h.pools]
    rfl
  unfold Peers.allocation
  rw [hl]
  have hn : (draftParams req t n pr d).nodeID = n.id := rfl
  have hn' : (draftParams req t n pr' d').nodeID = n.id := rfl
  simp only [hn, hn', hu, ht]

theorem drawn_secrets {o o' : Oracle} (ho : ∀ n, (o n).id = (o' n).id ∧ (o n).time = (o' n).time ∧
    (o n).keyPair.publicKey = (o' n).keyPair.publicKey) (n : Nat) :
    (drawn req o n).SameButSecrets (drawn req o' n) := by
  unfold drawn drawnKeys
  cases suppliedKey req
  case none =>
    exact ⟨(ho _).2.2, (ho _).1, (ho _).1, (ho _).1, (ho _).2.1⟩
  case some key =>
    exact ⟨rfl, (ho _).1, (ho _).1, (ho _).1, (ho _).2.1⟩

theorem draftRecord_secrets {now : Time} {t : Tenant} {n : Node} {pr pr' : ProtocolProfile}
    {d d' : Drawn} {a : Addr} (hb : pr.bare = pr'.bare) (hd : d.SameButSecrets d') :
    s.draftRecord slug key req now t n pr d a = s.draftRecord slug key req now t n pr' d' a := by
  have hi : pr.id = pr'.id := (congrArg ProtocolProfile.id hb :)
  simp only [draftRecord, draftResponse, draftPeer, draftOperation, draftParams, response,
    CreatePeerResponse.safe, Stmt.newPeer, Stmt.newOperation, hd.publicKey, hd.peerID, hd.operationID,
    hd.time, hi]

-- The record that a request stores depends on no secret.
theorem create_records {now : Time} {d d' : Drawn} (h : SameButSecrets db db')
    (hd : d.SameButSecrets d') :
    (s.create caller slug key req db now d).map (fun x => recordsOf x.2) =
      (s.create caller slug key req db' now d').map fun x => recordsOf x.2 := by
  unfold create
  rcases s.admit_secrets caller slug key req h with ⟨e, he, he'⟩ | ⟨t, n, pr, pr', ha, ha', hb⟩
  · rw [he, he']
  · rw [ha, ha']
    have hal : Peers.allocation db (draftParams req t n pr d) =
        Peers.allocation db' (draftParams req t n pr' d') := allocation_secrets req h hd
    have hl : Query.eval db now (.lookup t.id key) = Query.eval db' now (.lookup t.id key) := by
      simp only [Query.eval, h.records]
    simp only [createTx, hl, hal, h.records]
    cases Query.eval db' now (.lookup t.id key)
    case some rec => rfl
    case none     =>
      simp only
      rcases Peers.allocation db' (draftParams req t n pr' d') with _ | e | ⟨pool, a⟩
      case none       => rfl
      case some.error => rfl
      case some.ok    =>
        simp only
        split
        case isTrue  => rfl
        case isFalse =>
          have hr : s.draftRecord slug key req now t n pr d a =
              s.draftRecord slug key req now t n pr' d' a :=
            s.draftRecord_secrets slug key req hb hd
          exact congrArg (fun r => some [r]) hr

end Api.Service

namespace ControlPlane

variable (s : Api.Service) (caller : Option Principal) (slug : String)

-- The records after an answer that comes with writes.
theorem map_records {α : Type} {db : DB} {f : α × List Write → α × DB}
    (hf : ∀ x, (f x).2 = Transactions.replay db x.2) (x : Option (α × List Write)) :
    x.map ((·.2.records) ∘ f) = (x.map fun x => recordsOf x.2).map (db.records ++ ·) := by
  cases x
  case none   => rfl
  case some x => exact congrArg some (by rw [Function.comp_apply, hf, replay_records])

-- Nothing that is read, and nothing that is recorded for later, depends on a secret.
theorem secrets_issued_once {w w' : World} {o o' : Oracle} {q q' : Nat} (hq : Quiet w)
    (hq' : Quiet w') (ho : o.Benign) (ho' : o'.Benign) (hn : w.now = w'.now)
    (h : SameButSecrets w.db w'.db) :
    (∀ id, ∃ r, answer o q w (s.getPeerDocument caller slug id) = some (r, w.db) ∧
      answer o' q' w' (s.getPeerDocument caller slug id) = some (r, w'.db)) ∧
    (∀ id, ∃ r, answer o q w (s.peerConfiguration caller slug id) = some (r, w.db) ∧
      answer o' q' w' (s.peerConfiguration caller slug id) = some (r, w'.db)) ∧
    (∀ {key req t rec}, w.db.tenants.find? (·.slug = slug) = some t →
      Query.eval w.db w.now (.lookup t.id key) = some rec →
      ∃ r, answer o q w (s.createPeer caller slug key req) = some (r, w.db) ∧
        answer o' q' w' (s.createPeer caller slug key req) = some (r, w'.db)) ∧
    ∀ {key req}, (∀ n, (o n).id = (o' n).id ∧ (o n).time = (o' n).time ∧
        (o n).keyPair.publicKey = (o' n).keyPair.publicKey) →
      (Api.Service.drawn req o 5).Fresh w.db → (Api.Service.drawn req o' 5).Fresh w'.db →
      (answer o q w (s.createPeer caller slug key req)).map (·.2.records) =
        (answer o' q' w' (s.createPeer caller slug key req)).map (·.2.records) := by
  have hl := @looks_committed o q w ho (hq.txs q)
  have hl' := @looks_committed o' q' w' ho' (hq'.txs q')
  refine ⟨fun id => ⟨_, answer_of_reads (s.reads_getPeerDocument caller slug id hl), ?_⟩,
    fun id => ⟨_, answer_of_reads (s.reads_peerConfiguration caller slug id hl), ?_⟩,
    fun {key req t rec} ht hr => ?_, fun {key req} hoo hf hf' => ?_⟩
  · rw [s.readDocument_secrets caller slug h]
    exact answer_of_reads (s.reads_getPeerDocument caller slug id hl')
  · rw [s.readConfiguration_secrets caller slug h]
    exact answer_of_reads (s.reads_peerConfiguration caller slug id hl')
  · rcases s.admit_secrets caller slug key req h with ⟨e, he, he'⟩ | ⟨t', n, pr, pr', ha, ha', _⟩
    · exact ⟨_, answer_refused ho (hq.txs q) he, answer_refused ho' (hq'.txs q') he'⟩
    · obtain rfl := Option.some.inj ((Api.Service.admit_ok_iff.mp ha).tenant.symm.trans ht)
      have hr' : Query.eval w'.db w'.now (.lookup t'.id key) = some rec := by
        simpa only [Query.eval, ← h.records, ← hn] using hr
      exact ⟨_, answer_replayed ho (hq.txs q) ha hr, answer_replayed ho' (hq'.txs q') ha' hr'⟩
  · have hc := @Api.Service.create_records s _ _ caller slug key req w.now _ _ h
      (Api.Service.drawn_secrets req hoo 5)
    rw [answer_createPeer s caller slug key req hq ho hf,
      answer_createPeer s caller slug key req hq' ho' hf',
      Option.map_map, Option.map_map, ← hn]
    rw [map_records fun _ => rfl, map_records fun _ => rfl, hc, h.records]

namespace Sample

-- The small installation with a peer, for given secrets.
def sealed (hpk psk : String) : World :=
  { world with
    db := { world.db with
      profiles := [{ profile with headerProtectionKey := hpk }]
      peers    := [Stmt.newPeer { params "y" "b" with presharedKeyRef := some psk } (address 5) 10 0] } }

def draws (priv psk : String) : Oracle :=
  fun _ => { id := 11, keyPair := ⟨priv, "c"⟩, key := psk }

end Sample

theorem secrets_issued_once_sample :
    (∃ r, answer (Sample.draws "p" "q") 0 (Sample.sealed "h" "i") (Sample.plane.service.getPeerDocument
        Sample.admin "t" "00000000-0000-0000-0000-00000000000a") =
          some (r, (Sample.sealed "h" "i").db) ∧
      answer (Sample.draws "r" "s") 0 (Sample.sealed "j" "k") (Sample.plane.service.getPeerDocument
        Sample.admin "t" "00000000-0000-0000-0000-00000000000a") =
          some (r, (Sample.sealed "j" "k").db)) ∧
    (answer (Sample.draws "p" "q") 0 (Sample.sealed "h" "i")
      (Sample.plane.service.createPeer Sample.admin "t" "k" { externalID := "x" })).map (·.2.records) =
    (answer (Sample.draws "r" "s") 0 (Sample.sealed "j" "k")
      (Sample.plane.service.createPeer Sample.admin "t" "k" { externalID := "x" })).map (·.2.records) := by
  have hs : SameButSecrets (Sample.sealed "h" "i").db (Sample.sealed "j" "k").db :=
    ⟨rfl, rfl, rfl, rfl, rfl, rfl, rfl, rfl, rfl, rfl⟩
  have hf (priv psk hpk psk' : String) (req : Api.CreatePeerRequest) :
      (Api.Service.drawn req (Sample.draws priv psk) 5).Fresh (Sample.sealed hpk psk').db :=
    ⟨by simp [Sample.sealed, Stmt.newPeer, Sample.draws, Api.Service.drawn],
      by simp [Sample.sealed, Sample.world], by simp [Sample.sealed, Sample.world]⟩
  obtain ⟨h₁, _, _, h₂⟩ := @secrets_issued_once Sample.plane.service Sample.admin "t"
    (Sample.sealed "h" "i") (Sample.sealed "j" "k") (Sample.draws "p" "q") (Sample.draws "r" "s") 0 0
    ⟨fun _ => rfl, rfl⟩ ⟨fun _ => rfl, rfl⟩ (fun _ => rfl) (fun _ => rfl) rfl hs
  exact ⟨h₁ _, h₂ (fun _ => ⟨rfl, rfl, rfl⟩) (hf _ _ _ _ _) (hf _ _ _ _ _)⟩

end ControlPlane
