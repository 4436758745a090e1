import AwgRest.Discipline.Commands
import AwgRest.Lib.Triples

open Domain Store Fallible Repo

namespace Store

-- The tables, in the order in which transactions write to them.
def Write.level : Write → Nat
  | profile _   => 1
  | node _      => 2
  | pool _      => 3
  | cursor ..   => 3
  | runtime _   => 4
  | peer _      => 4
  | operation _ => 5
  | job _       => 6
  | audit _     => 7
  | record _    => 8

def Stmt.level : Stmt → Nat
  | advisoryLock       => 0
  | insertProfile _    => 1
  | insertNode _       => 2
  | insertPool ..      => 3
  | lockPool ..        => 3
  | updateCursor ..    => 3
  | upsertRuntime ..   => 4
  | insertPeer ..      => 4
  | markRevoked ..     => 4
  | markApplied ..     => 4
  | insertOperation .. => 5
  | insertJob ..       => 6
  | appendAudit ..     => 7
  | storeRecord _      => 8

theorem Stmt.level_of_writes {s : Stmt} {a : s.Answer} {x : Write} (h : x ∈ s.writes a) :
    x.level = s.level := by
  cases s
  case lockPool     => cases h
  case advisoryLock => cases h
  case markRevoked  => obtain ⟨p, _, rfl⟩ := List.mem_map.mp h; rfl
  case markApplied  => obtain ⟨p, _, rfl⟩ := List.mem_map.mp h; rfl
  all_goals
    cases List.mem_singleton.mp h
    rfl

-- The peer that a row belongs to.
def Write.about : Write → Option UUID
  | runtime r => some r.peerID
  | peer p    => some p.id
  | _         => none

end Store

-- A third view of the processes: in which order their transactions take locks.
namespace ControlPlane

-- The transaction has written to earlier tables only.
def Local.Below (φ : Local) (n : Nat) : Prop :=
  ∃ t, φ.tx = some t ∧ (∀ x ∈ t.writes, x.level < n) ∧ (t.pool ≠ none → 3 < n)

-- The transaction of a worker has come to the peers `rest` of its listing: it has written rows of the
-- peers before them, and perhaps others.
def Local.Walks (φ : Local) (before rest : List Peer) (other : Write → Prop) : Prop :=
  ∃ n t, φ.listing = some (n, before ++ rest) ∧ φ.tx = some t ∧ t.pool = none ∧
    ∀ x ∈ t.writes, (∃ z ∈ before, x.about = some z.id) ∨ other x

-- What has been written when a statement is executed. A worker writes the runtime of a peer first,
-- and then the peer, in the order of its listing.
def InOrder (φ : Local) : Stmt → Prop
  | .updateCursor _ id    => ∃ t pool, φ.tx = some t ∧ t.pool = some pool ∧ pool.id = id
  | .upsertRuntime id _ _ => ∃ before p rest, p.id = id ∧ φ.Walks before (p :: rest) fun _ => False
  | .markApplied id _     =>
    ∃ before p rest, p.id = id ∧ φ.Walks before (p :: rest) fun x => ∃ r, x = .runtime r ∧
      r.peerID = id
  | s                     => φ.Below s.level

def AllowsOrder (φ : Local) : Eff → Prop
  | .stmt s => InOrder φ s
  | _       => True

def ordering : Protocol (fun e : Eff => Except Err e.Answer) Local where
  Allows  := AllowsOrder
  Answers := Answers
  next    := Local.next

variable {C : ControlPlane} {φ : Local} {α β σ : Type} {e : Eff} {n m : Nat} {I J : Local → Prop}

-- Outside of its transactions a process may do anything.
abbrev Unlocked (p : Act α) : Prop :=
  Triple ordering (fun _ => True) p (fun _ _ => True) (fun _ => True)

-- The program takes a transaction from one level to the next, unless it fails.
abbrev Climbs (n m : Nat) (p : Act α) : Prop :=
  Triple ordering (Local.Below · n) p (fun _ φ => φ.Below m) (fun _ => True)

theorem ordered_row {a : Option α} {K : α → Local → Prop} {X : Local → Prop}
    (hsome : ∀ b, a = some b → ∀ φ, I φ → K b φ) (hnone : ∀ φ, I φ → X φ) :
    Triple ordering I (row a) K X := by
  cases a
  case none   => exact hnone
  case some b => exact hsome b rfl

theorem ordered_check {x : Except Err α} {X : Local → Prop} (h : ∀ φ, I φ → X φ) :
    Triple ordering I (check x) (fun _ => I) X := by
  cases x
  case ok    => exact fun _ => id
  case error => exact h

-- Every effect but a statement of a transaction is allowed.
theorem ordered_call {K : e.Answer → Local → Prop} {X : Local → Prop} (he : ∀ s, e ≠ .stmt s)
    (hr : ∀ φ r, I φ → Leaves K X (φ.next e r) r) : Triple ordering I (call e) K X := by
  refine triple_call (fun φ _ => ?_) fun φ r h _ => hr φ r h
  cases e
  case stmt s => exact absurd rfl (he s)
  all_goals exact trivial

theorem ordered_keep (he : ∀ s, e ≠ .stmt s) (hi : ∀ φ r, I φ → I (φ.next e r)) {X : Local → Prop}
    (hx : ∀ φ, I φ → X φ) : Triple ordering I (call e) (fun _ => I) X :=
  ordered_call he fun φ r h => by
    cases r
    case ok    => exact hi φ _ h
    case error => exact hx _ (hi φ _ h)

theorem unlocked_call (he : ∀ s, e ≠ .stmt s) : Unlocked (call e : Act e.Answer) :=
  ordered_keep he (fun _ _ => id) fun _ => id

theorem unlocked_pure (a : α) : Unlocked (pure a : Act α) :=
  triple_pure fun _ => id

theorem unlocked_throw (x : Err) : Unlocked (throw x : Act α) :=
  triple_throw fun _ => id

theorem unlocked_row (a : Option α) : Unlocked (row a) :=
  ordered_row (fun _ _ _ => id) fun _ => id

theorem unlocked_check (x : Except Err α) : Unlocked (check x) :=
  ordered_check fun _ => id

theorem unlocked_query (q : Query) : Unlocked (query q) :=
  unlocked_call (e := .query q) (by simp)

theorem unlocked_attempt {p : Act α} (h : Unlocked p) : Unlocked p.attempt :=
  (triple_attempt h).mono (fun _ => id) (fun _ _ _ => trivial) fun _ => id

theorem ordered_inTx {init : σ} {fn : Act (Option Err × σ)} (hi : ∀ φ, I φ → J { φ with tx := some {} })
    (hf : Triple ordering J fn (fun _ _ => True) (fun _ => True)) :
    Triple ordering I (inTx init fn) (fun _ _ => True) (fun _ => True) := by
  refine fun φ h => follows_transaction trivial (fun _ _ => trivial) fun _ => (hf _ (hi φ h)).mono ?_
  rintro φ (e | ⟨_ | e, s⟩) -
  case ok.none => exact ⟨trivial, fun _ => trivial, fun _ _ => trivial⟩
  all_goals exact ⟨trivial, fun _ _ => trivial⟩

section Climbs

namespace Local

theorem tx_query {q : Query} {r : Except Err q.Answer} : (φ.next (.query q) r).tx = φ.tx := by
  cases r <;> cases q <;> rfl

theorem tx_silent (he : e.Silent) {r : Except Err e.Answer} : (φ.next e r).tx = φ.tx := by
  cases e <;> first | rfl | cases he

theorem Below.mono (h : φ.Below n) (hn : n ≤ m) : φ.Below m := by
  obtain ⟨t, ht, hw, hp⟩ := h
  exact ⟨t, ht, fun x hx => (hw x hx).trans_le hn, fun h => (hp h).trans_le hn⟩

theorem Below.of_tx {ψ : Local} (h : φ.Below n) (ht : ψ.tx = φ.tx) : ψ.Below n :=
  h.imp fun _ ⟨hφ, hw⟩ => ⟨ht.trans hφ, hw⟩

theorem below_begin : ({ φ with tx := some {} } : Local).Below 0 :=
  ⟨{}, rfl, by simp, by simp⟩

theorem Below.wrote {t : TxLocal} {ws : List Write} (h : φ.Below n) (hφ : φ.tx = some t)
    (hw : ∀ x ∈ ws, x.level = n) {ψ : Local} (hψ : ψ.tx = some { t with writes := t.writes ++ ws }) :
    ψ.Below (n + 1) := by
  obtain ⟨t', ht, hlow, hp⟩ := h
  cases hφ.symm.trans ht
  refine ⟨_, hψ, fun x hx => ?_, fun h => Nat.lt_succ_of_lt (hp h)⟩
  rcases List.mem_append.mp hx with hx | hx
  · exact Nat.lt_succ_of_lt (hlow x hx)
  · exact hw x hx ▸ Nat.lt_succ_self _

end Local

theorem climbs_pure (a : α) : Climbs n n (pure a) :=
  triple_pure fun _ => id

theorem climbs_throw (x : Err) : Climbs n m (throw x : Act α) :=
  triple_throw fun _ _ => trivial

theorem Climbs.from {k : Nat} {p : Act α} (h : Climbs k m p) (hn : n ≤ k) : Climbs n m p :=
  h.mono (fun _ hφ => hφ.mono hn) (fun _ _ => id) fun _ => id

theorem Climbs.to {k : Nat} {p : Act α} (h : Climbs n k p) (hk : k ≤ m) : Climbs n m p :=
  h.mono (fun _ => id) (fun _ _ hφ => hφ.mono hk) fun _ => id

theorem climbs_query (q : Query) : Climbs n n (query q) :=
  ordered_keep (e := .query q) (by simp) (fun _ _ h => h.of_tx Local.tx_query) fun _ _ => trivial

theorem climbs_silent (he : e.Silent) : Climbs n n (call e : Act e.Answer) :=
  ordered_keep (fun s hs => by subst hs; cases he) (fun _ _ h => h.of_tx (Local.tx_silent he))
    fun _ _ => trivial

theorem climbs_row (a : Option α) : Climbs n n (row a) :=
  ordered_row (fun _ _ _ => id) fun _ _ => trivial

-- The statements for which `InOrder` says nothing special.
theorem climbs_stmt (s : Stmt) (hs : ∀ φ, φ.Below s.level → InOrder φ s) :
    Climbs s.level (s.level + 1) (stmt s) := by
  refine triple_call hs fun φ r h _ => ?_
  obtain ⟨t, ht, hw, hp⟩ := id h
  rcases r with x | a
  case error => exact trivial
  case ok    =>
    have hwrote {ψ : Local} (hψ : ψ.tx = some { t with writes := t.writes ++ s.writes a }) :
        ψ.Below (s.level + 1) :=
      h.wrote ht (fun _ => Stmt.level_of_writes) hψ
    cases s
    case lockPool =>
      refine ⟨{ t with pool := a }, ?_, fun x hx => Nat.lt_succ_of_lt (hw x hx),
        fun _ => Nat.lt_succ_self _⟩
      simp [ordering, Local.next, Local.locked, ht]
    all_goals exact hwrote (by simp [ordering, Local.next, Local.wrote, ht])

end Climbs

-- The transactions of the requests and of the commands.
section Transactions

-- The transaction has the lock of the pool, and may write to it.
def Holding (pool : Option AddressPool) (φ : Local) : Prop :=
  φ.Below 4 ∧ ∃ t, φ.tx = some t ∧ t.pool = pool

theorem climbs_allocateAndInsert (ps : InsertParams) : Climbs 3 5 (Peers.allocateAndInsert ps) := by
  have hlock : Triple ordering (Local.Below · 3) (stmt (.lockPool ps.nodeID ps.tenantID)) Holding
      (fun _ => True) := by
    refine triple_call (fun _ h => h) fun φ r h _ => ?_
    obtain ⟨t, ht, hw, -⟩ := h
    rcases r with x | pool
    case error => exact trivial
    case ok    =>
      have ht' : (φ.locked pool).tx = some { t with pool := pool } := by simp [Local.locked, ht]
      exact ⟨⟨_, ht', fun x hx => Nat.lt_succ_of_lt (hw x hx), fun _ => by decide⟩, _, ht', rfl⟩
  have hquery (pool : Option AddressPool) : Triple ordering (Holding pool) (query (.usedAddrs ps.nodeID))
      (fun _ => Holding pool) (fun _ => True) :=
    ordered_keep (e := .query (.usedAddrs ps.nodeID)) (by simp) (fun _ r h => by cases r <;> exact h)
      fun _ _ => trivial
  have hcursor (pool : AddressPool) (c : Option Netip.Addr) : Triple ordering (Holding (some pool))
      (stmt (.updateCursor c pool.id)) (fun _ φ => φ.Below 4) (fun _ => True) := by
    have hallows (φ : Local) (h : Holding (some pool) φ) : AllowsOrder φ
        (.stmt (.updateCursor c pool.id)) := by
      obtain ⟨-, t, ht, hp⟩ := h
      exact ⟨t, pool, ht, hp, rfl⟩
    refine triple_call hallows fun φ r h _ => ?_
    obtain ⟨hbelow, t, ht, -⟩ := h
    obtain ⟨_, ht', hw, hp⟩ := hbelow
    cases ht.symm.trans ht'
    rcases r with x | a
    case error => exact trivial
    case ok    =>
      refine ⟨{ t with writes := t.writes ++ [.cursor pool.id c] }, ?_, fun x hx => ?_, hp⟩
      · simp [ordering, Local.next, Local.wrote, ht, Stmt.writes]
      · rcases List.mem_append.mp hx with hx | hx
        · exact hw x hx
        · cases List.mem_singleton.mp hx
          exact Nat.lt_succ_self 3
  refine triple_bind (triple_mapErr hlock) fun pool => ?_
  cases pool
  case none      => exact triple_throw fun _ _ => trivial
  case some pool =>
  refine triple_bind (triple_mapErr (hquery (some pool))) fun used => ?_
  split
  case h_1 => exact triple_throw fun _ _ => trivial
  case h_2 =>
    refine triple_bind
      (ordered_keep (e := .diverge) (by simp) (fun _ _ h => h) fun _ _ => trivial) fun never => ?_
    exact Empty.elim never
  case h_3 =>
    refine triple_bind (triple_mapErr (hcursor pool _)) fun _ => ?_
    exact triple_mapErr (climbs_stmt (.insertPeer ps _) fun _ => id)

theorem climbs_generateKeys (req : Api.CreatePeerRequest) :
    Climbs n n (Api.Service.generateKeys req) := by
  have hpsk (pub priv : String) : Climbs n n
      ((call Eff.randomKey : Act String) >>= fun psk => pure (pub, priv, psk)) :=
    triple_bind (climbs_silent (e := .randomKey) trivial) fun _ => climbs_pure _
  unfold Api.Service.generateKeys
  cases Api.Service.suppliedKey req
  case some key => exact hpsk key ""
  case none     =>
    exact triple_bind (climbs_silent (e := .keyPair) trivial) fun kp =>
      hpsk kp.publicKey kp.privateKey

theorem climbs_store {s : Api.Service} {t : UUID} {key hash : String} {id : UUID} {status : Int}
    {body : Api.Body} :
    Climbs 8 9 (s.store t key hash id status body) :=
  triple_bind (climbs_silent (e := .timeNow) trivial) fun _ =>
    climbs_stmt (.storeRecord _) fun _ h => h

theorem climbs_createPeerTx {t : Tenant} {nd : Node} {pr : ProtocolProfile} {key hash : String}
    {req : Api.CreatePeerRequest} : Climbs 0 9 (C.service.createPeerTx t nd pr key hash req) := by
  refine triple_bind (climbs_query _) fun rec => ?_
  split
  case h_1 =>
    split
    · exact climbs_throw _
    · exact (climbs_pure _).to (Nat.zero_le _)
  case h_2 =>
    refine triple_bind (climbs_generateKeys req) fun _ => ?_
    refine triple_bind ((climbs_allocateAndInsert _).from (Nat.zero_le _)) fun _ => ?_
    refine triple_bind (climbs_stmt (.insertOperation ..) fun _ => id) fun _ => ?_
    refine triple_bind (climbs_stmt (.insertJob ..) fun _ => id) fun _ => ?_
    refine triple_bind (climbs_stmt (.appendAudit ..) fun _ => id) fun _ => ?_
    exact triple_bind climbs_store fun _ => climbs_pure _

theorem climbs_revokePeerTx {t : Tenant} {pid : UUID} {key reason : String} :
    Climbs 0 9 (C.service.revokePeerTx t pid key reason) := by
  refine triple_bind (climbs_query _) fun rec => ?_
  split
  case h_1 =>
    split
    · exact climbs_throw _
    · exact (climbs_pure _).to (Nat.zero_le _)
  case h_2 =>
    refine triple_bind (climbs_silent (e := .timeNow) trivial) fun _ => ?_
    refine triple_bind ((climbs_stmt (.markRevoked ..) fun _ => id).from (Nat.zero_le _)) fun _ => ?_
    refine triple_bind (climbs_row _) fun peer => ?_
    split
    · exact climbs_throw _
    · refine triple_bind (climbs_stmt (.insertOperation ..) fun _ => id) fun _ => ?_
      refine triple_bind (climbs_stmt (.insertJob ..) fun _ => id) fun _ => ?_
      refine triple_bind (climbs_stmt (.appendAudit ..) fun _ => id) fun _ => ?_
      exact triple_bind climbs_store fun _ => climbs_pure _

theorem climbs_ensureFree {q : Query} {inUse : q.Answer → Bool} {what : String} :
    Climbs n n (Bootstrap.ensureFree q inUse what) := by
  refine triple_bind (climbs_query q) fun a => ?_
  split
  · exact climbs_throw _
  · exact climbs_pure ()

theorem climbs_ensureV31ProvisioningAvailable {o : Bootstrap.V31NodeOptions} {pool : Netip.Prefix} :
    Climbs n n (Bootstrap.ensureV31ProvisioningAvailable o pool) := by
  refine triple_bind climbs_ensureFree fun _ => triple_bind climbs_ensureFree fun _ => ?_
  refine triple_bind climbs_ensureFree fun _ => triple_bind climbs_ensureFree fun _ => ?_
  exact climbs_ensureFree

theorem climbs_insertProfile {p : ProtocolProfile} : Climbs 1 2 (Bootstrap.insertProfile p) := by
  unfold Bootstrap.insertProfile
  split
  · exact climbs_stmt (.insertProfile p) fun _ => id
  · exact climbs_throw _

-- Files are of no concern to the transaction.

theorem ordered_file {e : Eff} (he : e.Silent) {X : Local → Prop} (hx : ∀ φ, φ.Below n → X φ) :
    Triple ordering (Local.Below · n) (call e) (fun _ φ => φ.Below n) X :=
  ordered_keep (fun s hs => by subst hs; cases he) (fun _ _ h => h.of_tx (Local.tx_silent he)) hx

theorem ordered_tryFile {what : String} {op : FileOp} {X : Local → Prop} (hx : ∀ φ, φ.Below n → X φ) :
    Triple ordering (Local.Below · n) (Bootstrap.tryFile what op) (fun _ φ => φ.Below n) X := by
  refine triple_bind (ordered_file (e := .file op) trivial hx) fun a => ?_
  cases a
  case none   => exact triple_pure fun _ => id
  case some e => exact triple_throw hx

theorem climbs_writeBootstrapConfigExclusive {path : String} {config : List Char} :
    Climbs n n (Bootstrap.writeBootstrapConfigExclusive path config) := by
  refine triple_bind (ordered_tryFile fun _ _ => trivial) fun _ => ?_
  refine triple_bind (climbs_silent (e := .openNew path) trivial) fun a => ?_
  cases a
  case present  => exact climbs_throw _
  case failed e => exact climbs_throw _
  case new f    =>
    have hwrite : Triple ordering (Local.Below · n) (do
        Bootstrap.tryFile "write bootstrap config: " (.writeString path f config)
        Bootstrap.tryFile "sync bootstrap config: " (.sync f)
        Bootstrap.tryFile "close bootstrap config: " (.close f)) (fun _ φ =>
          φ.Below n) (Local.Below · n) :=
      triple_bind (ordered_tryFile fun _ => id) fun _ =>
        triple_bind (ordered_tryFile fun _ => id) fun _ => ordered_tryFile fun _ => id
    refine triple_bind (triple_attempt hwrite) fun written => ?_
    cases written
    case ok      => exact triple_bind (climbs_silent (e := .file _) trivial) fun _ => climbs_pure ()
    case error e =>
      refine triple_bind (climbs_silent (e := .file _) trivial) fun _ => ?_
      exact triple_bind (climbs_silent (e := .file _) trivial) fun _ => climbs_throw e

theorem climbs_provisionTx {o : Bootstrap.V31NodeOptions} {tn : Tenant} {pool : Netip.Prefix}
    {profile : ProtocolProfile} {key path : String} {config : List Char} :
    Climbs 0 4 (C.bootstrap.provisionTx o tn pool profile key path config) := by
  refine triple_bind (triple_mapErr (climbs_stmt .advisoryLock fun _ => id)) fun _ => ?_
  refine triple_bind climbs_ensureV31ProvisioningAvailable fun _ => ?_
  refine triple_bind (triple_mapErr climbs_insertProfile) fun _ => ?_
  refine triple_bind (triple_mapErr (climbs_stmt (.insertNode _) fun _ => id)) fun _ => ?_
  refine triple_bind (triple_mapErr (climbs_stmt (.insertPool ..) fun _ => id)) fun _ => ?_
  exact triple_bind climbs_writeBootstrapConfigExclusive fun _ => climbs_pure _

theorem unlocked_inTx {init : σ} {fn : Act (Option Err × σ)} (hf : Climbs 0 n fn) :
    Unlocked (inTx init fn) :=
  ordered_inTx (fun _ _ => Local.below_begin) (hf.mono (fun _ => id) (fun _ _ _ => trivial) fun _ => id)

end Transactions

section Worker

variable {before rest : List Peer} {p : Peer} {other : Write → Prop}

-- A statement that writes rows of the next peer only.
theorem ordered_walk {s : Stmt} (other' : Write → Prop) (hs : ∀ n t, s ≠ .lockPool n t)
    (ha : ∀ φ, φ.Walks before rest other → InOrder φ s) (hold : ∀ x, other x → other' x)
    (hnew : ∀ db now id a, s.eval db now id = some (.ok a) → ∀ x ∈ s.writes a, other' x) :
    Triple ordering (Local.Walks · before rest other) (stmt s) (fun _ φ => φ.Walks before rest other')
      (fun _ => True) := by
  refine triple_call ha fun φ r h hr => ?_
  obtain ⟨n, t, hl, ht, hp, hw⟩ := h
  rcases r with x | a
  case error => exact trivial
  case ok    =>
    obtain ⟨db, now, id, hr⟩ := hr
    have hnext : φ.next (.stmt s) (.ok a) = φ.wrote s a := by
      cases s
      case lockPool => exact absurd rfl (hs _ _)
      all_goals rfl
    show (φ.next (.stmt s) (.ok a)).Walks before rest other'
    rw [hnext]
    refine ⟨n, { t with writes := t.writes ++ s.writes a }, hl, by simp [Local.wrote, ht], hp,
      fun x hx => ?_⟩
    rcases List.mem_append.mp hx with hx | hx
    · exact (hw x hx).imp_right (hold x)
    · exact .inr (hnew db now id a hr x hx)

-- One peer further.
theorem Local.Walks.step (h : φ.Walks before (p :: rest) fun x => x.about = some p.id) :
    φ.Walks (before ++ [p]) rest fun _ => False := by
  obtain ⟨n, t, hl, ht, hp, hw⟩ := h
  refine ⟨n, t, by simpa using hl, ht, hp, fun x hx => .inl ?_⟩
  rcases hw x hx with ⟨z, hz, hx⟩ | hx
  · exact ⟨z, List.mem_append_left _ hz, hx⟩
  · exact ⟨p, by simp, hx⟩

theorem ordered_persistPeers (runtime : List Awg.PeerRuntime) (before ps : List Peer) :
    Triple ordering (Local.Walks · before ps fun _ => False) (Worker.persistPeers runtime ps)
      (fun _ _ => True) (fun _ => True) := by
  induction ps generalizing before
  case nil => exact triple_pure fun _ _ => trivial
  case cons p ps ih =>
    refine triple_bind (ordered_walk (fun x => ∃ r, x = .runtime r ∧ r.peerID = p.id) (by simp)
      (fun φ h => ⟨before, p, ps, rfl, h⟩) (fun _ => False.elim) fun db now id r hr x hx =>
        ?_) fun _ => ?_
    · cases hr
      exact ⟨_, List.mem_singleton.mp hx, rfl⟩
    refine triple_bind (ordered_walk (fun x => x.about = some p.id) (by simp)
      (fun φ h => ⟨before, p, ps, rfl, h⟩) (fun x ⟨r, hx, hr⟩ => ?_) fun db now id q hq x hx =>
        ?_) fun _ => ?_
    · simp [hx, hr, Write.about]
    · cases hq
      obtain ⟨q, hq, rfl⟩ := List.mem_map.mp hx
      obtain ⟨q', hq', rfl⟩ := Option.map_eq_some_iff.mp (Option.mem_toList.mp hq)
      have := List.find?_some hq'
      simpa [Write.about, Stmt.applied] using this
    exact (ih (before ++ [p])).mono (fun _ h => h.step) (fun _ _ => id) fun _ => id

-- The worker has listed the peers `rows`.
def Listing (rows : List Peer) (φ : Local) : Prop :=
  ∃ n, φ.listing = some (n, rows)

theorem ordered_listing {rows : List Peer} (he : ∀ s, e ≠ .stmt s)
    (hl : ∀ (φ : Local) r, (φ.next e r).listing = φ.listing) :
    Triple ordering (Listing rows) (call e) (fun _ => Listing rows) (Listing rows) :=
  ordered_keep he (fun φ r ⟨n, h⟩ => ⟨n, (hl φ r).trans h⟩) fun _ => id

theorem ordered_persistRuntime {rows : List Peer} {runtime : List Awg.PeerRuntime} :
    Triple ordering (Listing rows) (Worker.persistRuntime rows runtime) (fun _ _ => True)
      (fun _ => True) := by
  refine triple_bind (ordered_inTx (fun φ ⟨n, h⟩ => ⟨n, {}, h, rfl, rfl, by simp⟩)
    (ordered_persistPeers runtime [] rows)) fun r => ?_
  obtain ⟨_ | e, _⟩ := r
  · exact unlocked_pure ()
  · exact unlocked_throw e

theorem ordered_preserve {rows : List Peer} {iface : String} {conf : Awg.Conf} :
    Triple ordering (Listing rows) (Worker.preserveRuntimePrivateKey iface conf) (fun _ => Listing rows)
      (Listing rows) := by
  unfold Worker.preserveRuntimePrivateKey
  split
  · exact triple_pure fun _ => id
  · refine triple_bind (triple_attempt
      (ordered_listing (e := .showConf iface) (by simp) fun _ _ => rfl)) fun r => ?_
    cases r <;> exact triple_pure fun _ => id

theorem ordered_syncConf {rows : List Peer} {iface : String} {conf : Awg.Conf} :
    Triple ordering (Listing rows) (C.worker.syncConf iface conf) (fun _ => Listing rows)
      (Listing rows) := by
  have hsync (conf : Awg.Conf) : Triple ordering (Listing rows) (call (.syncConf iface conf))
      (fun _ => Listing rows) (Listing rows) :=
    ordered_listing (by simp) fun _ r => by cases r <;> rfl
  refine triple_bind (triple_attempt (hsync conf)) fun r => ?_
  cases r
  case ok      => exact triple_pure fun _ => id
  case error e =>
    simp only
    split
    · exact triple_throw fun _ => id
    · refine triple_bind (triple_mapErr
        (ordered_listing (e := .interfaceUp ..) (by simp) fun _ _ => rfl)) fun _ => ?_
      exact triple_bind ordered_preserve fun conf => hsync conf

theorem unlocked_applyNode (nodeID : UUID) : Unlocked (C.worker.applyNode nodeID) := by
  refine triple_bind (unlocked_query _) fun node => triple_bind (unlocked_row node) fun node => ?_
  refine triple_bind
    (ordered_call (e := .query (.peersByNode nodeID)) (K := Listing) (by simp) fun φ r _ => ?_)
    fun rows => ?_
  · cases r
    case ok    => exact ⟨nodeID, rfl⟩
    case error => exact trivial
  split
  case h_1 =>
    split
    · exact triple_pure fun _ _ => trivial
    · exact triple_throw fun _ _ => trivial
  case h_2 =>
    have forget {α : Type} {q : Act α}
        (h : Triple ordering (Listing rows) q (fun _ => Listing rows) (Listing rows)) :
        Triple ordering (Listing rows) q (fun _ => Listing rows) (fun _ => True) :=
      h.mono (fun _ => id) (fun _ _ => id) fun _ _ => trivial
    refine triple_bind (forget (ordered_listing (e := .query (.profileByID _)) (by simp)
      fun _ r => by cases r <;> rfl)) fun pr => ?_
    refine triple_bind (ordered_row (fun _ _ _ => id) fun _ _ => trivial) fun pr => ?_
    refine triple_bind (forget ordered_preserve) fun conf =>
      triple_bind (forget ordered_syncConf) fun _ => ?_
    refine triple_bind (forget (ordered_listing (e := .showDump _) (by simp) fun _ _ => rfl)) fun dump => ?_
    split
    · exact triple_throw fun _ _ => trivial
    · exact ordered_persistRuntime

theorem unlocked_markOperation (id : Option UUID) (s : UUID → Time → Auto) :
    Unlocked (Worker.markOperation id s) := by
  cases id
  case none    => exact unlocked_pure ()
  case some id =>
    refine triple_bind (unlocked_call (e := .timeNow) (by simp)) fun now => ?_
    exact triple_bind (unlocked_attempt (unlocked_call (e := .auto _) (by simp))) fun _ =>
      unlocked_pure ()

theorem unlocked_processJob (job : Job) : Unlocked (C.worker.processJob job) := by
  refine triple_bind (unlocked_attempt (unlocked_applyNode job.nodeID)) fun r => ?_
  cases r
  case error e =>
    exact triple_bind (unlocked_attempt (unlocked_call (e := .auto _) (by simp))) fun _ =>
      unlocked_markOperation _ _
  case ok      =>
    refine triple_bind (unlocked_attempt (unlocked_call (e := .auto _) (by simp))) fun r => ?_
    cases r
    case error => exact unlocked_pure ()
    case ok    => exact unlocked_markOperation _ _

theorem unlocked_claimNext (lease : Int) : Unlocked (auto (.claimNext lease)) :=
  unlocked_call (e := .auto (.claimNext lease)) (by simp)

theorem unlocked_runOnce : Unlocked C.worker.runOnce := by
  refine triple_bind (unlocked_claimNext _) fun job => ?_
  cases job
  case none     => exact unlocked_pure false
  case some job => exact triple_bind (unlocked_processJob job) fun _ => unlocked_pure true

theorem unlocked_run (n : Nat) : Unlocked (C.worker.run n) := by
  induction n
  case zero => exact unlocked_throw _
  case succ n ih =>
    refine triple_bind (unlocked_attempt (unlocked_claimNext _)) fun r => ?_
    split
    · exact triple_bind (unlocked_processJob _) fun _ => ih
    · exact ih

theorem unlocked_reconcileEach (ids : List UUID) : Unlocked (C.worker.reconcileEach ids) := by
  induction ids
  case nil => exact unlocked_pure []
  case cons id ids ih =>
    refine triple_bind (unlocked_attempt (unlocked_applyNode id)) fun r => ?_
    cases r
    case ok    => exact ih
    case error => exact triple_bind ih fun _ => unlocked_pure _

theorem unlocked_reconcileAll : Unlocked C.worker.reconcileAll := by
  refine triple_bind (unlocked_query .nodeIDs) fun ids =>
    triple_bind (unlocked_reconcileEach ids) fun errs => ?_
  split
  · exact unlocked_pure ()
  · exact unlocked_throw _

end Worker

section Programs

theorem unlocked_reply (r : Option Err × σ) : Unlocked (Api.Service.reply r) := by
  obtain ⟨_ | e, s⟩ := r
  · exact unlocked_pure s
  · simp only [Api.Service.reply]
    split
    · exact unlocked_pure s
    · exact unlocked_throw e

theorem unlocked_resolveNode (req : Api.CreatePeerRequest) :
    Unlocked (C.service.resolveNode req) := by
  unfold Api.Service.resolveNode
  cases req.nodeID
  case none    => exact triple_bind (unlocked_query _) fun _ => unlocked_row _
  case some id =>
    simp only
    cases C.service.parseUUID id
    case none    => exact unlocked_throw _
    case some id => exact triple_bind (unlocked_query _) fun _ => unlocked_row _

theorem unlocked_createPeer {caller : Option Auth.Principal} {slug key : String}
    {req : Api.CreatePeerRequest} :
    Unlocked (C.service.createPeer caller slug key req) := by
  unfold Api.Service.createPeer
  split
  · exact unlocked_throw _
  split
  · exact unlocked_throw _
  refine triple_bind (unlocked_query _) fun _ => triple_bind (unlocked_row _) fun t => ?_
  refine triple_bind (unlocked_check _) fun _ => triple_bind (unlocked_resolveNode req) fun nd => ?_
  split
  case h_1 => exact unlocked_throw _
  case h_2 =>
    refine triple_bind (unlocked_query _) fun _ => triple_bind (unlocked_row _) fun pr => ?_
    refine triple_bind (unlocked_check _) fun _ => triple_bind (unlocked_check _) fun _ => ?_
    exact triple_bind (unlocked_inTx climbs_createPeerTx) fun r => unlocked_reply r

theorem unlocked_revokePeer {caller : Option Auth.Principal} {slug peerID key reason : String} :
    Unlocked (C.service.revokePeer caller slug peerID key reason) := by
  unfold Api.Service.revokePeer
  split
  · exact unlocked_throw _
  refine triple_bind (unlocked_query _) fun _ => triple_bind (unlocked_row _) fun t => ?_
  refine triple_bind (unlocked_check _) fun _ => ?_
  split
  case h_1 => exact unlocked_throw _
  case h_2 => exact triple_bind (unlocked_inTx climbs_revokePeerTx) fun r => unlocked_reply r

theorem unlocked_provisionV31Node {o : Bootstrap.V31NodeOptions} :
    Unlocked (C.bootstrap.provisionV31Node o) := by
  unfold Bootstrap.provisionV31Node
  generalize Bootstrap.normalizeV31NodeOptions o = o'
  refine triple_bind (unlocked_check _) fun _ => triple_bind (unlocked_check _) fun pool => ?_
  refine triple_bind (triple_mapErr (triple_bind (unlocked_query _) fun _ => unlocked_row _)) fun t => ?_
  refine triple_bind (triple_mapErr (unlocked_call (e := .randomKey) (by simp))) fun hpk => ?_
  refine triple_bind (triple_mapErr (unlocked_call (e := .keyPair) (by simp))) fun kp => ?_
  simp only
  split
  case h_1 =>
    refine triple_bind (unlocked_check _) fun address =>
      triple_bind (unlocked_inTx climbs_provisionTx) fun r => ?_
    obtain ⟨_ | e, created, res⟩ := r
    · exact unlocked_pure res
    cases created
    case false => exact unlocked_throw e
    case true  => exact triple_bind (unlocked_call (e := .file _) (by simp)) fun _ => unlocked_throw e
  case h_2 => exact unlocked_throw _

-- The end of the commands of the peer repository.
theorem unlocked_concluded (r : Option Err × Option Peer) : Unlocked (match r with
    | (none, some peer) => pure (.peer peer)
    | (none, none)      => pure .done
    | (some e, _)       => throw e : Act Result) := by
  obtain ⟨_ | e, _ | peer⟩ := r
  · exact unlocked_pure _
  · exact unlocked_pure _
  all_goals exact unlocked_throw e

theorem unlocked_allocate (ps : InsertParams) (commit : Bool) : Unlocked (allocate ps commit) :=
  triple_bind (unlocked_inTx
    (triple_bind ((climbs_allocateAndInsert ps).from (Nat.zero_le _)) fun _ => climbs_pure _))
    unlocked_concluded

theorem unlocked_markRevoked (id : UUID) (at_ : Time) : Unlocked (markRevoked id at_) :=
  triple_bind (unlocked_inTx
    (triple_bind ((climbs_stmt (.markRevoked id at_) fun _ h => h).from (Nat.zero_le _))
    fun _ => triple_bind (climbs_row _) fun _ => climbs_pure _)) unlocked_concluded

theorem unlocked_prog (k : Kind) : Unlocked (C.prog k) := by
  cases k
  case createPeer   => exact triple_bind unlocked_createPeer fun _ => unlocked_pure _
  case revokePeer   => exact triple_bind unlocked_revokePeer fun _ => unlocked_pure _
  case runOnce      => exact triple_bind unlocked_runOnce fun _ => unlocked_pure _
  case run n        => exact triple_bind (unlocked_run n) fun _ => unlocked_pure _
  case reconcile n  => exact triple_bind (unlocked_applyNode n) fun _ => unlocked_pure _
  case reconcileAll => exact triple_bind unlocked_reconcileAll fun _ => unlocked_pure _
  case provision    => exact triple_bind unlocked_provisionV31Node fun _ => unlocked_pure _
  case allocate     => exact unlocked_allocate _ _
  case markRevoked  => exact unlocked_markRevoked _ _

theorem answers_of_exec {x : Choice} {pid : Nat} {w : World} {e : Eff} {r : Except Err e.Answer}
    {w' : World} (h : C.system.exec x pid w e = some (r, w')) : Answers e r :=
  answers_of_acts (World.acts_of_exec h)

-- Every program keeps to this protocol too.
def lockOrder (C : ControlPlane) : C.system.Discipline Local where
  toProtocol := ordering
  init       := fun k => { kind := k }
  Post       := fun _ _ => True
  answers    := @answers_of_exec C
  follows    := fun k => (unlocked_prog k _ trivial).mono fun _ _ _ => trivial

end Programs
end ControlPlane
