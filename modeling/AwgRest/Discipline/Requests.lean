import AwgRest.Discipline.Rules

open Domain Netip Store Fallible Repo

namespace ControlPlane

variable {C : ControlPlane} {φ : Local} {α σ : Type}

theorem allocated_host {pool : Prefix} {cursor : Option Addr} {used : List Addr} {a : Ipam.Allocation}
    (h : Ipam.allocate pool cursor (Peers.reserved pool used) = .allocated a) :
    Ipam.IsHost pool a.address ∧ Peers.gatewayAddress pool ≠ some a.address := by
  rw [Ipam.allocate_eq] at h
  split at h
  case _ b hb =>
    cases h
    have ⟨hh, hr, _⟩ := Ipam.firstFree_eq_some_iff.mp hb
    simp only [Peers.reserved, decide_eq_false_iff_not, not_or] at hr
    exact ⟨hh, hr.2⟩
  case _ => split at h <;> cases h

-- The rows of a statement that inserts are what the statement says they are.
section Inserted

variable {db : DB} {now : Time} {id : UUID}

theorem insert_ok {used taken : Bool} {r a : α} (h : Stmt.insert used taken r = some (.ok a)) :
    used = false ∧ taken = false ∧ a = r := by
  cases used <;> cases taken <;> simp_all [Stmt.insert]

theorem lockPool_ok {n t : UUID} {pool : AddressPool}
    (h : (Stmt.lockPool n t).eval db now id = some (.ok (some pool))) :
    pool ∈ db.pools ∧ pool.nodeID = n ∧ pool.tenantID = t := by
  simp only [Stmt.eval, Option.some.injEq, Except.ok.injEq] at h
  have hm := List.mem_of_mem_head? h
  simpa [List.mem_insertionSort] using hm

end Inserted

theorem follows_allocateAndInsert {ps : InsertParams} {t : TxLocal}
    {Q : Local → Except Err Peer → Prop} (ht : φ.tx = some t)
    (hk : ∀ c s k r, φ.kind = .createPeer c s k r → φ.tenant.map Tenant.id = some ps.tenantID)
    (hw : φ.kind.Inserts) (hp : peersOf t.writes = [])
    (hok : ∀ {pool cursor p}, (∃ addr id now, p = Stmt.newPeer ps addr id now) →
      Q { φ with
          tx := some
            { writes := t.writes ++ [.cursor pool.id cursor, .peer p]
              pool   := some pool } } (.ok p))
    (herr : ∀ {t x}, External x → Q { φ with tx := some t } (.error x)) :
    (Peers.allocateAndInsert ps).run.Follows C.protocol Q φ := by
  have hφ : φ = { φ with tx := some t } := (Local.tx_eta ht).symm
  refine follows_bind_of <| follows_mapErr.mpr <|
    follows_stmt ht trivial (fun {db now id pool} h => ?_) (fun hx => hφ ▸ herr hx)
  simp only [Local.next, Local.locked, ht, Option.map_some]
  cases pool
  case none => exact herr (World.external_new _)
  case some pool =>
    obtain ⟨_, hn, htn⟩ := lockPool_ok h
    refine follows_bind_of <| follows_mapErr.mpr <| follows_query trivial (fun db now => ?_)
      (fun hx => herr hx)
    simp only [Local.next, Except.mapError, Then]
    split
    case _ => exact herr (by decide)
    case _ => exact follows_bind_of <| follows_call.mpr ⟨trivial, fun a => Empty.elim a, fun _ => herr⟩
    case _ a ha =>
      obtain ⟨hh, hg⟩ := allocated_host ha
      refine follows_bind_of <| follows_mapErr.mpr <|
        follows_write rfl trivial (by simp) (fun _ => ?_) (fun hx => herr hx)
      refine follows_mapErr.mpr <| follows_write rfl ⟨hk, hw, ?_, ?_⟩ (by simp) (fun {db now id p} h => ?_)
        (fun hx => herr ?_)
      · rw [peersOf_append, hp]
        rfl
      · exact ⟨pool, rfl, hn, htn, hh, hg⟩
      · obtain ⟨_, _, hp⟩ := insert_ok h
        simpa [Stmt.writes, Except.mapError] using hok ⟨a.address, id, now, hp⟩
      · simp only [apply_ite External]
        split
        · decide
        · exact hx

-- How the transaction of a request ends, where `result` makes its answer of the shared variables.
def TxEnd (result : σ → Result) (φ : Local) : Except Err (Option Err × σ) → Prop
  | .error _        => φ.tx = none ∧ φ.effect = none
  | .ok (some e, s) =>
    φ.tx = none ∧ φ.effect = none ∧ (.alreadyHandled ∈ e.is → Answered φ (.ok (result s)))
  | .ok (none, s)   => φ.tx = none ∧ Answered φ (.ok (result s))

theorem atEnd_error {init : σ} {result : σ → Result} {e : Err} (he : External e) (ht : φ.tx ≠ none)
    (hf : φ.effect = none) : AtEnd C init (TxEnd result) φ (.error e) :=
  ⟨ht, rfl, hf, fun h => absurd h he⟩

-- The keys come from outside or from the request.
theorem follows_generateKeys {req : Api.CreatePeerRequest}
    {Q : Local → Except Err (String × String × String) → Prop} (hok : ∀ keys, Q φ (.ok keys))
    (herr : ∀ {x}, External x → Q φ (.error x)) :
    (Api.Service.generateKeys req).run.Follows C.protocol Q φ := by
  have hpsk (pub priv : String) :
      ((call Eff.randomKey : Act String) >>= fun psk => pure (pub, priv, psk)).run.Follows
        C.protocol Q φ :=
    follows_bind_of <| follows_silent trivial (fun _ => hok _) herr
  unfold Api.Service.generateKeys
  cases Api.Service.suppliedKey req
  case some key => exact hpsk key ""
  case none =>
    refine follows_bind_of <| follows_silent (e := .keyPair) trivial (fun kp => ?_) herr
    exact hpsk kp.publicKey kp.privateKey

theorem follows_store {tenantID opID : UUID} {key hash : String} {status : Int} {body : Api.Body}
    {t : TxLocal} {Q : Local → Except Err Unit → Prop} (ht : φ.tx = some t)
    (hok : ∀ now, Q
      { φ with tx := some { t with writes := t.writes ++
        [.record ⟨tenantID, key, hash, some opID, status, body, now + C.service.ttl⟩] } } (.ok ()))
    (herr : ∀ {x}, External x → Q φ (.error x)) :
    (C.service.store tenantID key hash opID status body).run.Follows C.protocol Q φ := by
  refine follows_bind_of <| follows_silent trivial (fun now => ?_) herr
  exact follows_write ht trivial (by simp) (fun _ => hok now) herr

theorem Requested.of_rows {tenantID oid jid : UUID} {key hash : String} {kind : OperationKind}
    {p : Peer} {payload : Payload} {o : Operation} {j : Job} {a : AuditEvent} {body : Api.Body}
    {db : DB} {now now' now'' expiresAt : Time} {id : UUID}
    (ho : o = Stmt.newOperation tenantID p.nodeID (some p.id) kind hash oid now)
    (hj : j = Stmt.newJob p.id p.nodeID (some o.id) kind payload jid now')
    (ha : (Stmt.appendAudit tenantID kind.text p.id.string p key).eval db now'' id = some (.ok a)) :
    Requested tenantID key hash kind p o j a
      ⟨tenantID, key, hash, some o.id, Api.Service.statusAccepted, body, expiresAt⟩ where
  op     := ⟨_, _, ho⟩
  job    := ⟨_, _, _, hj⟩
  audit  := ⟨_, (Except.ok.inj (Option.some.inj ha)).symm⟩
  tenant := rfl
  key    := rfl
  hash   := rfl
  opID   := rfl
  status := rfl

theorem follows_createPeerTx {caller : Option Auth.Principal} {slug key : String}
    {req : Api.CreatePeerRequest} {t : Tenant} {n : Node} {pr : ProtocolProfile} (hsl : t.slug = slug)
    (hadm : Admitted C.service key req n pr) :
    (C.service.createPeerTx t n pr key (C.service.createHash req slug) req).run.Follows C.protocol
      (AtEnd C ({}, 0) (TxEnd fun s => .created s.1 s.2))
      { kind    := .createPeer caller slug key req
        tenant  := some t
        node    := some n
        profile := some pr
        tx      := some {} } := by
  have herr {φ : Local} {x : Err} (ht : φ.tx ≠ none) (hf : φ.effect = none) (hx : External x) :
      AtEnd C ({}, 0) (TxEnd fun s : Api.CreatePeerResponse × Int => .created s.1 s.2) φ (.error x) :=
    atEnd_error hx ht hf
  refine follows_bind_of <| follows_query rfl (fun db now => ?_)
    (herr (Option.some_ne_none _) rfl)
  simp only [Local.next, Then]
  generalize Query.eval db now (.lookup t.id key) = rec
  cases rec
  case some rec =>
    simp only
    split
    case _ => exact herr (Option.some_ne_none _) rfl (by decide)
    case _ => exact ⟨Option.some_ne_none _, rfl, rfl, fun _ => .createReplayed rfl rfl⟩
  case none =>
    refine follows_bind_of <| follows_generateKeys (fun keys => ?_) (herr (Option.some_ne_none _) rfl)
    obtain ⟨pub, priv, psk⟩ := keys
    refine follows_bind_of <| follows_allocateAndInsert rfl (fun _ _ _ _ _ => rfl) rfl
      rfl (fun {pool cursor p} hp => ?_) (herr (Option.some_ne_none _) rfl)
    obtain ⟨addr, id, now, hp⟩ := hp
    refine follows_bind_of <| follows_write rfl trivial (by simp) (fun {_ _ _ o} ho => ?_)
      (herr (Option.some_ne_none _) rfl)
    obtain ⟨_, _, ho⟩ := insert_ok ho
    refine follows_bind_of <| follows_write rfl trivial (by simp) (fun {_ _ _ j} hj => ?_)
      (herr (Option.some_ne_none _) rfl)
    obtain ⟨_, _, hj⟩ := insert_ok hj
    refine follows_bind_of <| follows_write rfl trivial (by simp) (fun {_ _ _ a} ha => ?_)
      (herr (Option.some_ne_none _) rfl)
    refine follows_bind_of <| follows_store rfl (fun now => ?_) (herr (Option.some_ne_none _) rfl)
    refine ⟨_, rfl, ?_, ?_, ?_⟩
    · have hn : p.nodeID = n.id := by simp [hp, Stmt.newPeer]
      refine .create rfl rfl rfl rfl hsl rfl rfl hadm (by simp [hp, Stmt.newPeer]) hn
        (by simp [hp, Stmt.newPeer]) (by simp [hp, Stmt.newPeer]) ?_ rfl
      exact .of_rows (hn ▸ ho) (hn ▸ hj) ha
    · exact ⟨rfl, .created rfl (List.mem_append_right _ (List.mem_singleton_self _)) rfl rfl⟩
    · exact fun e he => ⟨rfl, rfl, fun h => absurd h he⟩

-- A request that has not committed anything may fail.
def Returns (result : σ → Result) (φ : Local) (r : Except Err σ) : Prop :=
  φ.tx = none ∧ Answered φ (r.map result)

theorem returns_error {result : σ → Result} {x : Err} (ht : φ.tx = none) (hf : φ.effect = none) :
    Returns result φ (.error x) :=
  ⟨ht, .failed hf⟩

-- A request that answers with what its transaction says.
theorem follows_request {init : σ} {fn : Act (Option Err × σ)} {result : σ → Result}
    (ht : φ.tx = none) (hf : φ.effect = none)
    (hfn : fn.run.Follows C.protocol (AtEnd C init (TxEnd result)) { φ with tx := some {} }) :
    (inTx init fn >>= Api.Service.reply).run.Follows C.protocol (Returns result) φ := by
  have hreply {φ : Local} {e : Err} {s : σ} (ht : φ.tx = none) (hf : φ.effect = none)
      (h : .alreadyHandled ∈ e.is → Answered φ (.ok (result s))) :
      (Api.Service.reply (some e, s)).run.Follows C.protocol (Returns result) φ := by
    simp only [Api.Service.reply]
    split
    case _ he => exact ⟨ht, h he⟩
    case _    => exact returns_error ht hf
  refine follows_bind_of <| follows_inTx ht (fun he => ?_) <| hfn.mono fun φ r h => h.mono ?_
  · exact hreply ht hf fun h => absurd h he
  · rintro φ (e | ⟨_ | e, s⟩) h
    case error   => exact ⟨h.1, .failed h.2⟩
    case ok.none => exact h
    case ok.some => exact hreply h.1 h.2.1 h.2.2

theorem nodeByID_some {db : DB} {now : Time} {id : UUID} {n : Node}
    (h : (Query.nodeByID id).eval db now = some n) : n ∈ db.nodes ∧ n.id = id :=
  ⟨List.mem_of_find?_eq_some h, by simpa using List.find?_some h⟩

theorem profileByID_some {db : DB} {now : Time} {id : UUID} {p : ProtocolProfile}
    (h : (Query.profileByID id).eval db now = some p) : p ∈ db.profiles ∧ p.id = id :=
  ⟨List.mem_of_find?_eq_some h, by simpa using List.find?_some h⟩

theorem tenantBySlug_some {db : DB} {now : Time} {slug : String} {t : Tenant}
    (h : (Query.tenantBySlug slug).eval db now = some t) : t ∈ db.tenants ∧ t.slug = slug :=
  ⟨List.mem_of_find?_eq_some h, by simpa using List.find?_some h⟩

theorem follows_resolveNode {req : Api.CreatePeerRequest} {Q : Local → Except Err Node → Prop}
    (ht : φ.tx = none) (hl : φ.listing = none) (hs : φ.synced = false)
    (hok : ∀ n : Node, (∀ {id}, req.nodeID = some id → C.service.parseUUID id = some n.id) →
      Q { φ with node := some n } (.ok n))
    (herr : ∀ n x, Q { φ with node := n } (.error x)) :
    (C.service.resolveNode req).run.Follows C.protocol Q φ := by
  unfold Api.Service.resolveNode
  cases hn : req.nodeID
  case none =>
    refine follows_bind_of <| follows_query ht (fun db now => ?_) (fun _ => herr φ.node _)
    simp only [Local.next, ← hl, ← hs]
    refine follows_row (fun {n} h => ?_) (herr _ _)
    rw [h]
    exact hok n (by simp [hn])
  case some id =>
    simp only
    cases hid : C.service.parseUUID id
    case none    => exact follows_throw.mpr (herr φ.node _)
    case some id =>
      refine follows_bind_of <| follows_query ht (fun db now => ?_) (fun _ => herr φ.node _)
      simp only [Local.next, ← hl, ← hs]
      refine follows_row (fun {n} h => ?_) (herr _ _)
      obtain ⟨_, hi⟩ := nodeByID_some h
      rw [h]
      exact hok n (by simp [hn, hid, hi])

theorem follows_createPeer {caller : Option Auth.Principal} {slug key : String}
    {req : Api.CreatePeerRequest} :
    (C.service.createPeer caller slug key req).run.Follows C.protocol
      (Returns fun s => .created s.1 s.2) { kind := .createPeer caller slug key req } := by
  have herr {φ : Local} {x : Err} (ht : φ.tx = none) (hf : φ.effect = none) :
      Returns (fun s : Api.CreatePeerResponse × Int => .created s.1 s.2) φ (.error x) :=
    returns_error ht hf
  unfold Api.Service.createPeer
  split
  case _ => exact follows_throw.mpr (herr rfl rfl)
  case _ hext =>
  split
  case _ => exact follows_throw.mpr (herr rfl rfl)
  case _ hkey =>
  refine follows_bind_of <| follows_query rfl (fun db now => ?_) (fun _ => herr rfl rfl)
  refine follows_bind_of <| follows_row (fun {t} ht => ?_) (herr rfl rfl)
  simp only [Local.next, ht]
  refine follows_bind_of <| follows_check (fun _ => ?_) (fun _ => herr rfl rfl)
  refine follows_bind_of <| follows_resolveNode rfl rfl rfl (fun n hn => ?_) (fun _ _ => herr rfl rfl)
  simp only [Then]
  cases hp : n.profileID
  case none         => exact follows_throw.mpr (herr rfl rfl)
  case some profile =>
  refine follows_bind_of <| follows_query rfl (fun db now => ?_) (fun _ => herr rfl rfl)
  refine follows_bind_of <| follows_row (fun {pr} hpr => ?_) (herr rfl rfl)
  obtain ⟨_, hid⟩ := profileByID_some hpr
  simp only [Local.next, hpr]
  refine follows_bind_of <| follows_check (fun hv => ?_) (fun _ => herr rfl rfl)
  refine follows_bind_of <| follows_check (fun hs => ?_) (fun _ => herr rfl rfl)
  exact follows_request rfl rfl
    (follows_createPeerTx (tenantBySlug_some ht).2 ⟨hext, hkey, hn, hid ▸ hp, hv, hs⟩)

theorem markRevoked_ok {db : DB} {now at_ : Time} {id pid : UUID} {p : Peer}
    (h : (Stmt.markRevoked pid at_).eval db now id = some (.ok (some p))) :
    ∃ q ∈ db.peers, q.id = pid ∧ p = Stmt.revoked q at_ now := by
  simp only [Stmt.eval, Option.some.injEq, Except.ok.injEq, Option.map_eq_some_iff] at h
  have ⟨q, hq, hp⟩ := h
  exact ⟨q, List.mem_of_find?_eq_some hq, by simpa using List.find?_some hq, hp.symm⟩

theorem follows_revokePeerTx {caller : Option Auth.Principal} {slug peerID key reason : String}
    {t : Tenant} {pid : UUID} (hsl : t.slug = slug) :
    (C.service.revokePeerTx t pid key reason).run.Follows C.protocol (AtEnd C 0 (TxEnd .revoked))
      { kind := .revokePeer caller slug peerID key reason, tenant := some t, tx := some {} } := by
  have herr {φ : Local} {x : Err} (ht : φ.tx ≠ none) (hf : φ.effect = none) (hx : External x) :
      AtEnd C 0 (TxEnd .revoked) φ (.error x) :=
    atEnd_error hx ht hf
  refine follows_bind_of <| follows_query rfl (fun db now => ?_) (herr (Option.some_ne_none _) rfl)
  simp only [Local.next, Then]
  generalize Query.eval db now (.lookup t.id key) = rec
  cases rec
  case some rec =>
    simp only
    split
    case _ => exact herr (Option.some_ne_none _) rfl (by decide)
    case _ => exact ⟨Option.some_ne_none _, rfl, rfl, fun _ => .revokeReplayed rfl rfl⟩
  case none =>
    refine follows_bind_of <| follows_silent (e := .timeNow) trivial (fun now => ?_)
      (herr (Option.some_ne_none _) rfl)
    refine follows_bind_of <| follows_write rfl
      ⟨Bool.false_ne_true, Bool.false_ne_true, rfl⟩ (by simp) (fun {_ _ _ p} hp => ?_)
      (herr (Option.some_ne_none _) rfl)
    refine follows_bind_of <| follows_row (fun {p} h => ?_) (herr (Option.some_ne_none _) rfl (by decide))
    subst h
    obtain ⟨q, _, hq, hp⟩ := markRevoked_ok hp
    have hpid : p.id = pid := hp ▸ hq
    simp only [Then]
    split
    case _ => exact herr (Option.some_ne_none _) rfl (by decide)
    case _ htn =>
    refine follows_bind_of <| follows_write rfl trivial (by simp) (fun {_ _ _ o} ho => ?_)
      (herr (Option.some_ne_none _) rfl)
    obtain ⟨_, _, ho⟩ := insert_ok ho
    refine follows_bind_of <| follows_write rfl trivial (by simp) (fun {_ _ _ j} hj => ?_)
      (herr (Option.some_ne_none _) rfl)
    obtain ⟨_, _, hj⟩ := insert_ok hj
    refine follows_bind_of <| follows_write rfl trivial (by simp) (fun {_ _ _ a} ha => ?_)
      (herr (Option.some_ne_none _) rfl)
    refine follows_bind_of <| follows_store rfl (fun now => ?_) (herr (Option.some_ne_none _) rfl)
    refine ⟨_, rfl, ?_, ?_, ?_⟩
    · exact .revoke rfl rfl rfl rfl hsl (not_not.mp htn) (by rw [hp]; rfl) (hpid.symm ▸ .of_rows ho hj ha)
    · exact ⟨rfl, .revoked rfl (List.mem_append_right _ (List.mem_singleton_self _)) rfl⟩
    · exact fun e he => ⟨rfl, rfl, fun h => absurd h he⟩

theorem follows_revokePeer {caller : Option Auth.Principal} {slug peerID key reason : String} :
    (C.service.revokePeer caller slug peerID key reason).run.Follows C.protocol (Returns .revoked)
      { kind := .revokePeer caller slug peerID key reason } := by
  have herr {φ : Local} {x : Err} (ht : φ.tx = none) (hf : φ.effect = none) :
      Returns .revoked φ (.error x) :=
    returns_error ht hf
  unfold Api.Service.revokePeer
  split
  case _ => exact follows_throw.mpr (herr rfl rfl)
  case _ hkey =>
  refine follows_bind_of <| follows_query rfl (fun db now => ?_) (fun _ => herr rfl rfl)
  refine follows_bind_of <| follows_row (fun {t} ht => ?_) (herr rfl rfl)
  simp only [Local.next, ht]
  refine follows_bind_of <| follows_check (fun _ => ?_) (fun _ => herr rfl rfl)
  simp only [Then]
  cases C.service.parseUUID peerID
  case none => exact follows_throw.mpr (herr rfl rfl)
  case some => exact follows_request rfl rfl (follows_revokePeerTx (tenantBySlug_some ht).2)

end ControlPlane
