import AwgRest.Discipline.Tenancy
import AwgRest.Invariant.Addresses
import AwgRest.Invariant.Idempotency
import AwgRest.Requests.Isolation

open Domain Netip Store Domain.Peer Auth

theorem List.filter_map_of_fixed {α : Type} {f : α → α} {P : α → Bool} {rows : List α}
    (h : ∀ x ∈ rows, f x = x ∨ P x = false ∧ P (f x) = false) :
    (rows.map f).filter P = rows.filter P := by
  induction rows
  case nil => rfl
  case cons x rows ih =>
    have ih := ih fun y hy => h y (List.mem_cons_of_mem _ hy)
    rcases h x (List.mem_cons_self ..) with hx | ⟨hx, hfx⟩
    · simp only [List.map_cons, List.filter_cons, hx, ih]
    · simp [hx, hfx, ih]

namespace ControlPlane

variable {C : ControlPlane} {G : Guard} {w₀ w w' : World} {τ : List Ev} {pid q : Nat} {φ ψ : Local}
  {e : Eff} {r : Except Err e.Answer} {db db' : DB} {p : Peer} {t : Tenant} {T : UUID}

-- The pool that a request has locked is registered, and it has moved the cursor of no other tenant's.
structure CursorLocal (db : DB) (φ : Local) : Prop where
  pool   : ∀ {x pool}, φ.tx = some x → x.pool = some pool → poolOf pool ∈ (φ.view db).pools.map poolOf
  cursor : φ.kind.IsRequest → ∀ {id c}, .cursor id c ∈ φ.writes → ∃ t a, φ.tenant = some t ∧
    a ∈ (φ.view db).pools.map poolOf ∧ a.1 = id ∧ a.2.1 = t.id

namespace CursorLocal

theorem of_none (h : φ.tx = none) : CursorLocal db φ :=
  ⟨by simp [h], by simp [Local.writes, h]⟩

theorem mono (h : CursorLocal db φ) (hg : PoolsGrow db db') : CursorLocal db' φ where
  pool ht hp := poolsGrow_view hg (h.pool ht hp)
  cursor hk _ _ hm := by
    obtain ⟨t, a, ht, ha, hi⟩ := h.cursor hk hm
    exact ⟨t, a, ht, poolsGrow_view hg ha, hi⟩

theorem of_tx (h : CursorLocal db φ) (hx : ψ.tx = φ.tx) (hk : ψ.kind = φ.kind)
    (ht : φ.writes = [] ∨ ψ.tenant = φ.tenant) : CursorLocal db ψ := by
  have hw : ψ.writes = φ.writes := by simp [Local.writes, hx]
  have hv : ψ.view db = φ.view db := by simp [Local.view, hw]
  refine ⟨fun h₁ h₂ => hv ▸ h.pool (hx ▸ h₁) h₂, fun hr id c hm => ?_⟩
  rw [hw] at hm
  rcases ht with ht | ht
  · simp [ht] at hm
  · rw [hv, ht]
    exact h.cursor (hk ▸ hr) hm

theorem stmt {s : Stmt} {a : s.Answer} {now : Time} {id : UUID} {x : TxLocal}
    (h : CursorLocal db φ) (hx : φ.tx = some x) (hs : AllowsTenant φ (.stmt s))
    (he : s.eval (φ.view db) now id = some (.ok a)) : CursorLocal db (φ.next (.stmt s) (.ok a)) := by
  have hw := Local.writes_next_stmt (s := s) (a := a) hx
  have hg : PoolsGrow (φ.view db) ((φ.next (.stmt s) (.ok a)).view db) := by
    rw [Local.view, Local.view, hw, Transactions.replay_append]
    exact poolsGrow_replay _
  have hn : (φ.next (.stmt s) (.ok a)).tenant = φ.tenant := by cases s <;> rfl
  constructor
  case pool =>
    intro x' pool hx' hp
    rcases pool_next_stmt hx he hx' hp with hp | hp
    · exact hg (h.pool hx hp)
    · exact hg (List.mem_map_of_mem hp)
  case cursor =>
    intro hr i c hm
    rw [Local.kind_next] at hr
    rw [hw, List.mem_append] at hm
    rw [hn]
    rcases hm with hm | hm
    · obtain ⟨t, a, ht, ha, hi⟩ := h.cursor hr hm
      exact ⟨t, a, ht, hg ha, hi⟩
    · cases s <;> simp only [Stmt.writes, List.mem_singleton, List.mem_map, Option.mem_toList,
        List.not_mem_nil, reduceCtorEq, and_false, exists_false, Write.cursor.injEq] at hm
      case updateCursor =>
        obtain ⟨rfl, rfl⟩ := hm
        obtain ⟨x', pool, t, hx', hp, hi, ht, hpt⟩ := hs hr
        exact ⟨t, _, ht, hg (h.pool hx' hp), hi, hpt⟩

protected theorem next (h : CursorLocal w.db φ) (hc : Change C φ w e r db') (hv : AllowsTenant φ e) :
    CursorLocal w.db (φ.next e r) := by
  cases hc
  case query q _ hq =>
    refine h.of_tx Local.tx_next_query Local.kind_next ?_
    cases q <;> first | exact .inr rfl | exact .inl (Local.writes_of_none hq)
  case stmt hx _ he => exact h.stmt hx hv he
  case commit       => exact .of_none rfl
  case auto s _ hx _ _ =>
    exact h.of_tx Local.tx_next_auto Local.kind_next (.inl (Local.writes_of_none hx))
  case aside ha =>
    rcases Local.tx_next_aside (φ := φ) ha with hx | hx | hx
    · refine h.of_tx hx Local.kind_next (.inr ?_)
      cases ha
      case failed =>
        cases e <;> first
          | rfl
          | case query q => cases q <;> rfl
          | case stmt s => cases s <;> rfl
          | case auto s => cases s <;> rfl
      case silent hs => cases e <;> first | rfl | cases hs
      all_goals rfl
    · exact .of_none hx
    · refine ⟨fun hx' hp => ?_, by simp [Local.writes, hx]⟩
      obtain rfl := Option.some.inj (hx.symm.trans hx')
      cases hp

end CursorLocal

-- The steps of a run keep to the second protocol as well.
def Vets (C : ControlPlane) : Guard :=
  fun τ w ev => unguarded τ w ev ∧ C.tenancy.Allowed τ w ev

theorem ActStep.vetted (h : ActStep C C.Vets w₀ τ w pid φ e r w') : AllowsTenant φ e := by
  obtain ⟨ψ, hψ, ha⟩ := h.guard.2 rfl
  have hl : C.locals τ pid = some ψ := hψ
  obtain rfl := Option.some.inj (h.running.symm.trans hl)
  exact ha

theorem cursors_of_trace (h : C.Trace C.Vets w₀ τ w) (hq : Quiet w₀) :
    ∀ q ψ, C.locals τ q = some ψ → CursorLocal w.db ψ := by
  refine (trace_invariant (Q := fun _ _ => True) (P := fun _ w _ ψ => CursorLocal w.db ψ) hq h trivial
    ?idle ?new ?act).2
  case idle => exact fun hi => ⟨fun h => h, fun q ψ h => hi.db ▸ h⟩
  case new  => exact fun _ => .of_none rfl
  case act  =>
    intro τ w pid φ e r w' hs _ hl
    have hg := hs.change.poolsGrow
    exact ⟨trivial, ((hl pid φ hs.running).next hs.change hs.vetted).mono hg,
      fun q ψ _ hψ => (hl q ψ hψ).mono hg⟩

-- The rows of other tenants are as they were, and so are the rows that belong to no tenant. A job
-- belongs to the tenant of its operation.
structure OnlyTenant (T : UUID) (db db' : DB) : Prop where
  tenants    : db'.tenants = db.tenants
  nodes      : db'.nodes = db.nodes
  profiles   : db'.profiles = db.profiles
  runtimes   : db'.runtimes = db.runtimes
  peers      : db'.peers.filter (·.tenantID ≠ T) = db.peers.filter (·.tenantID ≠ T)
  pools      : db'.pools.filter (·.tenantID ≠ T) = db.pools.filter (·.tenantID ≠ T)
  operations : ∃ os, db'.operations = db.operations ++ os ∧ ∀ o ∈ os, o.tenantID = T
  outbox     : ∃ js, db'.outbox = db.outbox ++ js ∧
    ∀ j ∈ js, ∃ o ∈ db'.operations, j.operationID = some o.id ∧ o.tenantID = T
  audit      : ∃ es, db'.audit = db.audit ++ es ∧ ∀ e ∈ es, e.tenantID = T
  records    : ∃ rs, db'.records = db.records ++ rs ∧ ∀ r ∈ rs, r.tenantID = T

theorem OnlyTenant.refl (T : UUID) (db : DB) : OnlyTenant T db db where
  tenants    := rfl
  nodes      := rfl
  profiles   := rfl
  runtimes   := rfl
  peers      := rfl
  pools      := rfl
  operations := ⟨[], by simp⟩
  outbox     := ⟨[], by simp⟩
  audit      := ⟨[], by simp⟩
  records    := ⟨[], by simp⟩

-- A transaction that writes peers of one tenant only.
theorem view_peers_foreign (ha : db.peers.Pairwise Apart) (h : PeerLocal db φ)
    (hw : ¬ φ.kind.IsWorker) (ht : ∀ p ∈ peersOf φ.writes, p.tenantID = T) :
    (φ.view db).peers.filter (·.tenantID ≠ T) = db.peers.filter (·.tenantID ≠ T) := by
  have hlen := h.single hw
  rcases hs : peersOf φ.writes with _ | ⟨p, _ | ⟨y, ps⟩⟩
  · rw [view_peers_of_none hs]
  · have hp : p.tenantID = T := ht p (by simp [hs])
    rcases view_peers ha h with ⟨p', hp', _, _, hv⟩ | ⟨hu, _⟩
    · obtain rfl : p = p' := by simpa [hs] using hp'
      simp [hv, hp]
    · obtain ⟨_, q, hq, g, _⟩ := hu p (by simp [hs])
      have hqp : q.tenantID = T := (congrArg Identity.tenantID g.same).trans hp
      rw [Local.view, replay_peers, hs, List.foldl_cons, List.foldl_nil, upsert_of_mem ⟨q, hq, g.id⟩]
      refine List.filter_map_of_fixed fun x hx => ?_
      by_cases hi : x.id = p.id
      · obtain rfl := eq_of_id ha hx hq (hi.trans g.id.symm)
        exact .inr (by simp [hi, hp, hqp])
      · exact .inl (by simp [hi])
  · simp [hs] at hlen

-- Moving the cursor of a pool of the tenant.
theorem cursor_pools_foreign {id : UUID} {c : Option Addr} (hu : (Table.pools.keys db).Nodup)
    (h : ∃ a ∈ (Write.apply db (.cursor id c)).pools.map poolOf, a.1 = id ∧ a.2.1 = T) :
    (Write.apply db (.cursor id c)).pools.filter (·.tenantID ≠ T) =
      db.pools.filter (·.tenantID ≠ T) := by
  obtain ⟨a, ha, rfl, rfl⟩ := h
  have ha : a ∈ db.pools.map poolOf := by
    have hm := @replay_pools db [.cursor a.1 c]
    simp only [Write.pool?, List.filterMap_cons, Option.map_none, List.filterMap_nil,
      List.append_nil] at hm
    exact hm ▸ ha
  refine List.filter_map_of_fixed fun x hx => ?_
  by_cases hi : x.id = a.1
  · have hxa := Table.eq_of_key (T := Table.pools) hu (List.mem_map_of_mem hx) ha hi
    have ht : x.tenantID = a.2.1 := congrArg (·.2.1) hxa
    exact .inr (by simp [hi, ht])
  · exact .inl (by simp [hi])

theorem onlyTenant_commit (ha : db.peers.Pairwise Apart) (hu : (Table.pools.keys db).Nodup)
    (hp : PeerLocal db φ) (hc : CursorLocal db φ) (he : Effect C φ φ.writes) (hr : φ.kind.IsRequest)
    (ht : φ.tenant = some t) : OnlyTenant t.id db (φ.view db) := by
  have hw : ¬ φ.kind.IsWorker := fun h => φ.kind.not_isRequest h hr
  generalize hws : φ.writes = ws at he
  have hv : φ.view db = Transactions.replay db ws := hws ▸ rfl
  have hpeers (h : ∀ p ∈ peersOf ws, p.tenantID = t.id) := view_peers_foreign ha hp hw (hws ▸ h)
  have hcur {id c} (hm : .cursor id c ∈ ws) :
      ∃ a ∈ (φ.view db).pools.map poolOf, a.1 = id ∧ a.2.1 = t.id := by
    obtain ⟨t', x, ht', hx, hi⟩ := hc.cursor hr (hws ▸ hm)
    obtain rfl := Option.some.inj (ht.symm.trans ht')
    exact ⟨x, hx, hi⟩
  -- The rows of a request, besides those of its peer and its pool.
  have hrows {kind : OperationKind} {key hash p o j a r} {db' : DB}
      (hq : Requested t.id key hash kind p o j a r)
      (hpeers : db'.peers.filter (·.tenantID ≠ t.id) = db.peers.filter (·.tenantID ≠ t.id))
      (hpools : db'.pools.filter (·.tenantID ≠ t.id) = db.pools.filter (·.tenantID ≠ t.id))
      (hdb : db' =
        { db with
          pools      := db'.pools
          peers      := db'.peers
          operations := db.operations ++ [o]
          outbox     := db.outbox ++ [j]
          audit      := db.audit ++ [a]
          records    := db.records ++ [r] }) : OnlyTenant t.id db db' := by
    obtain ⟨_, _, rfl⟩ := hq.op
    obtain ⟨_, _, _, rfl⟩ := hq.job
    obtain ⟨_, rfl⟩ := hq.audit
    constructor
    case peers      => exact hpeers
    case pools      => exact hpools
    case operations => exact ⟨_, congrArg DB.operations hdb, by simp⟩
    case outbox     => exact ⟨_, congrArg DB.outbox hdb, by rw [hdb]; simp⟩
    case audit      => exact ⟨_, congrArg DB.audit hdb, by simp⟩
    case records    => exact ⟨_, congrArg DB.records hdb, by simp [hq.tenant]⟩
    all_goals rw [hdb]
  cases he
  case create t' n pr p o j a r pool cursor priv psk hk _ _ ht' _ _ _ _ hpt _ _ _ hq _ =>
    obtain rfl := Option.some.inj (ht.symm.trans ht')
    have hcur := hcur (List.mem_cons_self ..)
    rw [hv] at hcur hpeers ⊢
    exact hrows hq (hpeers (by simpa using hpt)) (cursor_pools_foreign hu hcur) rfl
  case revoke t' p o j a r hk _ _ ht' _ hpt _ hq =>
    obtain rfl := Option.some.inj (ht.symm.trans ht')
    rw [hv] at hpeers ⊢
    exact hrows hq (hpeers (by simpa using hpt)) rfl rfl
  case work h _           => exact absurd h hw
  case provision hk _ _ _ => rw [hk] at hr; cases hr
  case allocate hk        => rw [hk] at hr; cases hr
  case markRevoked hk     => rw [hk] at hr; cases hr

theorem Kind.isRequest_of_caller {k : Kind} {caller : Option Principal} (h : k.caller = some caller) :
    k.IsRequest := by
  cases k <;> first | rfl | cases h

theorem onlyTenant_step {p : Principal} (hs : ActStep C C.Vets w₀ τ w pid φ e r w') (hq : Quiet w₀)
    (ha : w₀.db.peers.Pairwise Apart) (hu : (Table.pools.keys w₀.db).Nodup)
    (hk : φ.kind.caller = some (some p)) (hp : ¬ p.hasRole .platformAdmin) :
    OnlyTenant p.tenantID w.db w'.db := by
  have hr := Kind.isRequest_of_caller hk
  have hv := hs.vetted
  have hc := hs.change
  generalize w'.db = db' at hc
  cases hc
  case auto hw _ => exact absurd hr (φ.kind.not_isRequest hw)
  case commit he =>
    obtain ⟨t, ht, hauth⟩ := hv _ hk
    have htp : t.id = p.tenantID := by
      by_contra hne
      rw [Api.Service.authorizeTenant_foreign hp hne] at hauth
      cases hauth
    obtain ⟨ha, hl⟩ := peers_of_trace hs.trace hq ha
    exact htp ▸ onlyTenant_commit ha (Table.nodup_of_trace hs.trace hq hu).1 (hl pid φ hs.running)
      (cursors_of_trace hs.trace hq pid φ hs.running) he hr ht
  all_goals exact .refl ..

theorem onlyTenant_of_run {c c' : Conf} {a : Account} {p : Principal} {ev : Ev} (hq : Quiet w₀)
    (hd : w₀.db.peers.Pairwise Apart) (hu : (Table.pools.keys w₀.db).Nodup)
    (h : C.Runs unguarded w₀ τ c) (ha : accounts τ pid = some a) (hk : a.kind.caller = some (some p))
    (hp : ¬ p.hasRole .platformAdmin) (hs : C.system.Step c ev c') (hpid : ev.pid = some pid) :
    OnlyTenant p.tenantID c.world.db c'.world.db := by
  cases ev
  case spawn => cases hs; exact .refl ..
  case done  => cases hs; exact .refl ..
  case crash => cases hs; exact .refl ..
  case tick  => cases hpid
  case act q e r =>
    obtain rfl : q = pid := Option.some.inj hpid
    have hv : C.Runs C.Vets w₀ τ c := C.tenancy.run_allowed h fun _ => rfl
    obtain ⟨φ, x, hφ, hl, _⟩ := C.tenancy.act_of_step h (fun _ => rfl) hs
    obtain ⟨ψ, hact⟩ := hv.act hq hs ⟨trivial, fun he => by cases he; exact ⟨φ, hφ, hl⟩⟩
    obtain ⟨a', ha', ho⟩ := (accounts_of_trace h.trace).1 q ψ hact.running
    obtain rfl := Option.some.inj (ha'.symm.trans ha)
    exact onlyTenant_step hact hq hd hu (ho.kind ▸ hk) hp

-- Callers of one tenant neither change rows of other tenants nor learn anything from them, except
-- which identifiers are in use and by whom.
theorem tenants_isolated (C : ControlPlane) {p : Principal} (hp : ¬ p.hasRole .platformAdmin) :
    (∀ {w₀ τ c pid a ev c'}, Quiet w₀ → w₀.db.peers.Pairwise Apart → (Table.pools.keys w₀.db).Nodup →
      C.Runs unguarded w₀ τ c → accounts τ pid = some a → a.kind.caller = some (some p) →
      C.system.Step c ev c' → ev.pid = some pid →
      OnlyTenant p.tenantID c.world.db c'.world.db) ∧
    ∀ {w w' : World} {o o' : Oracle} {q q' : Nat} (slug id : String), Quiet w → Quiet w' → o.Benign →
      o'.Benign → Api.Alike p.tenantID w.db w'.db →
      (∃ r, answer o q w (C.service.getPeer (some p) slug id) = some (r, w.db) ∧
        answer o' q' w' (C.service.getPeer (some p) slug id) = some (r, w'.db)) ∧
      (∃ r, answer o q w (C.service.peerConfiguration (some p) slug id) = some (r, w.db) ∧
        answer o' q' w' (C.service.peerConfiguration (some p) slug id) = some (r, w'.db)) ∧
      ∃ r, answer o q w (C.service.getOperation (some p) id) = some (r, w.db) ∧
        answer o' q' w' (C.service.getOperation (some p) id) = some (r, w'.db) := by
  refine ⟨fun hq hd hu h ha hk hs hpid => onlyTenant_of_run hq hd hu h ha hk hp hs hpid, ?_⟩
  intro w w' o o' q q' slug id hq hq' ho ho' h
  have hl := @looks_committed o q w ho (hq.txs q)
  have hl' := @looks_committed o' q' w' ho' (hq'.txs q')
  refine ⟨⟨C.service.readPeer w.db (some p) slug id, ?_, ?_⟩,
    ⟨C.service.readConfiguration w.db (some p) slug id, ?_, ?_⟩,
    C.service.readOperation w.db (some p) id, ?_, ?_⟩
  · exact answer_of_reads (C.service.reads_getPeer _ _ _ hl)
  · rw [C.service.readPeer_alike hp h]
    exact answer_of_reads (C.service.reads_getPeer _ _ _ hl')
  · exact answer_of_reads (C.service.reads_peerConfiguration _ _ _ hl)
  · rw [C.service.readConfiguration_alike hp h]
    exact answer_of_reads (C.service.reads_peerConfiguration _ _ _ hl')
  · exact answer_of_reads (C.service.reads_getOperation _ _ hl)
  · rw [C.service.readOperation_alike hp h]
    exact answer_of_reads (C.service.reads_getOperation _ _ hl')

namespace Sample

def tenantAdmin : Principal where
  tenantID := 4
  roles    := [.tenantAdmin]

-- The small installation with a peer of another tenant.
def shared (displayName : String) : World :=
  { world with
    db := { world.db with
      peers := [Stmt.newPeer { params "y" "b" with tenantID := 5, displayName := displayName }
        ⟨.v4, 10 * 2 ^ 24 + 5, by decide⟩ 10 0] } }

theorem shared_alike (x y : String) : Api.Alike 4 (shared x).db (shared y).db where
  tenants    := rfl
  nodes      := rfl
  profiles   := rfl
  peers      := by
    have hn {z : String} {a : Peer} (ht : a.tenantID = 4) : a ∉ (shared z).db.peers := by
      intro ha
      rw [List.mem_singleton.mp ha] at ht
      simp [Stmt.newPeer, params] at ht
    exact ⟨List.nodup_singleton _, List.nodup_singleton _, fun a ha => iff_of_false (hn ha) (hn ha),
      by simp [shared, Stmt.newPeer, params]⟩
  operations := ⟨List.nodup_nil, List.nodup_nil, by simp [shared, world], by simp [shared, world]⟩

end Sample

theorem tenants_isolated_sample :
    (∃ τ c ev c', Sample.plane.Runs unguarded (Sample.shared "v") τ c ∧ Sample.plane.system.Step c ev c' ∧
      c.world.db.peers.length = 1 ∧ c'.world.db.peers.length = 2 ∧
      OnlyTenant 4 c.world.db c'.world.db) ∧
    ∃ r, answer (fun _ => {}) 0 (Sample.shared "v")
        (Sample.plane.service.getPeer (some Sample.tenantAdmin) "t"
          "00000000-0000-0000-0000-00000000000a") =
        some (r, (Sample.shared "v").db) ∧
      answer (fun _ => {}) 0 (Sample.shared "w")
        (Sample.plane.service.getPeer (some Sample.tenantAdmin) "t"
          "00000000-0000-0000-0000-00000000000a") =
        some (r, (Sample.shared "w").db) := by
  have hp : ¬ Sample.tenantAdmin.hasRole .platformAdmin := by decide
  have hq (x) : Quiet (Sample.shared x) := ⟨fun _ => rfl, rfl⟩
  obtain ⟨hw, hr⟩ := tenants_isolated Sample.plane hp
  refine ⟨?_, (hr _ _ (hq "v") (hq "w") (fun _ => rfl) (fun _ => rfl) (Sample.shared_alike _ _)).1⟩
  have h : ((Sample.plane.system.playAll (boot (Sample.shared "v"))
      (.spawn 0 (.createPeer (some Sample.tenantAdmin) "t" "k" { externalID := "x" }) ::
        Sample.steps 0 5 ++ Sample.acts 0 [{ keyPair := ⟨"a", ""⟩ }] ++ Sample.steps 0 4 ++
        Sample.acts 0 [{ id := 13 }, { id := 11 }, { id := 12 }] ++ Sample.steps 0 3)).bind fun r =>
      (Sample.plane.system.play r.2 (.act 0 {})).map fun s =>
        decide ((accounts r.1 0).map (·.kind.caller) = some (some (some Sample.tenantAdmin)) ∧
          s.1.pid = some 0 ∧ r.2.world.db.peers.length = 1 ∧ s.2.world.db.peers.length = 2)) =
      some true := by decide +kernel
  obtain ⟨⟨τ, c⟩, hplay, hs⟩ := Option.bind_eq_some_iff.mp h
  obtain ⟨⟨ev, c'⟩, hstep, hs⟩ := Option.map_eq_some_iff.mp hs
  obtain ⟨hk, hpid, h₁, h₂⟩ := of_decide_eq_true hs
  obtain ⟨a, ha, hk⟩ := Option.map_eq_some_iff.mp hk
  have hrun : Sample.plane.Runs unguarded (Sample.shared "v") τ c := System.playAll_run hplay
  exact ⟨τ, c, ev, c', hrun, System.play_step hstep, h₁, h₂,
    hw (hq "v") (List.pairwise_singleton ..) (List.nodup_singleton _) hrun ha hk
      (System.play_step hstep) hpid⟩

end ControlPlane
