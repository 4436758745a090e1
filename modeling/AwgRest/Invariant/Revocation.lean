import AwgRest.Invariant.Runtime

open Domain Store Domain.Peer

-- When the runtime has no peer that is revoked.
namespace ControlPlane

variable {C : ControlPlane} {G : Guard} {w₀ w w' : World} {τ : List Ev} {pid q : Nat} {φ ψ : Local}
  {e : Eff} {r : Except Err e.Answer} {ev : Ev} {db db' : DB}

-- The process and the interface of a configuration that was put in place.
def synced : Ev → Option (Nat × String)
  | .act pid (.syncConf iface _) (.ok _) => some (pid, iface)
  | _                                    => none

-- No listing is put in place that is older than one before it as far as revoked peers go: a peer that
-- an earlier one on the same interface has shown as revoked is revoked in it.
def fresh : Guard := fun τ _ ev =>
  ∀ x ∈ synced ev, ∀ s ∈ (history τ).syncs, s.iface = x.2 → ∀ p ∈ s.rows, p.state = .revoked →
    ∀ q ∈ (history τ).listing x.1, q.id = p.id → q.state = .revoked

instance : Decidable (fresh τ w ev) :=
  inferInstanceAs (Decidable (∀ x ∈ synced ev, ∀ s ∈ (history τ).syncs, s.iface = x.2 →
    ∀ p ∈ s.rows, p.state = .revoked → ∀ q ∈ (history τ).listing x.1, q.id = p.id →
      q.state = .revoked))

-- No peer that was put in place as revoked is in the runtime.
def Banished (τ : List Ev) (w : World) : Prop :=
  ∀ s ∈ (history τ).syncs, ∀ p ∈ s.rows, p.state = .revoked →
    ∀ x ∈ w.peersAt s.iface, x.publicKey ≠ p.publicKey

theorem mem_entries {rows : List Peer} {x : Awg.PeerSpec} :
    x ∈ (Worker.entries rows).map Awg.specOf ↔
      ∃ p ∈ rows, p.state ≠ .revoked ∧ x = Awg.specOf (Worker.entry p) := by
  simp only [Worker.entries, List.map_map, List.mem_map, List.mem_filter, decide_eq_true_eq,
    Function.comp_apply]
  constructor
  · rintro ⟨p, ⟨hp, hs⟩, hx⟩
    exact ⟨p, hp, hs, hx.symm⟩
  · rintro ⟨p, hp, hs, hx⟩
    exact ⟨p, ⟨hp, hs⟩, hx.symm⟩

-- Two rows of listings of one node with the same key are of the same peer.
theorem Recorded.id_eq {s s' : Sync} {n : Node} (ha : db.peers.Pairwise Apart)
    (hr : Recorded db s n) (hr' : Recorded db s' n) {p p' : Peer} (hp : p ∈ s.rows)
    (hp' : p' ∈ s'.rows) (hk : p.publicKey = p'.publicKey) : p.id = p'.id := by
  obtain ⟨hn, q, hq, g⟩ := hr.rows p hp
  obtain ⟨hn', q', hq', g'⟩ := hr'.rows p' hp'
  have hkey : q.publicKey = q'.publicKey := by rw [← g.publicKey, ← g'.publicKey, hk]
  have hnode : q.nodeID = q'.nodeID := by rw [← g.nodeID, ← g'.nodeID, hn, hn']
  rw [g.id, g'.id, eq_of_publicKey ha hq hq' hnode hkey]

theorem banished_of_trace (hG : ∀ {τ w ev}, G τ w ev → ordinary τ w ev ∧ fresh τ w ev)
    (h : C.Trace G w₀ τ w) (hq : Quiet w₀) (h₀ : w₀.db.peers.Pairwise Apart)
    (hif : (w₀.db.nodes.map Node.interfaceName).Nodup) : Banished τ w := by
  refine trace_induction (I := fun τ w => Banished τ w) hq h
    (fun s hs => absurd hs List.not_mem_nil) (fun {τ w ev w'} hs ih => ?_)
    (fun {τ w pid φ e r w'} hs ih => ?_)
  · have hh := syncs_concat_of_idle (τ := τ) hs.event
    have hw (iface) : w'.peersAt iface = w.peersAt iface := by simp [World.peersAt, hs.runtime]
    simpa only [Banished, hh, hw] using ih
  · have ha := (peers_of_trace hs.trace hq h₀).1
    have hl := listed_of_trace hs.trace hq h₀ _ _ hs.running
    have hsv := surveyed_of_trace hs.trace hq h₀ _ _ hs.running
    have hrec := recorded_of_trace hs.trace hq h₀
    have hnodes := nodes_of_trace (fun hg => (hG hg).1) hs.trace hq
    rcases hs.runtime hl with ⟨hw, hh, _⟩ | ⟨n, rows, conf, _, hn, hφ, hev, hw, hh⟩
    · simpa only [Banished, hh, hw] using ih
    · have hfresh := (hG (hev ▸ hs.guard)).2 (pid, n.interfaceName) rfl
      have hnew : Recorded w.db ⟨n.interfaceName, rows⟩ n :=
        ⟨hsv.node hn, rfl, fun p hp => hl.rows hφ hp, hsv.distinct hφ⟩
      intro s hm p hp hrev x hx hkey
      rw [hh, List.mem_append, List.mem_singleton] at hm
      rw [hw] at hx
      split at hx
      case isFalse hne =>
        rcases hm with hm | rfl
        · exact ih s hm p hp hrev x hx hkey
        · exact hne rfl
      case isTrue he =>
        obtain ⟨p', hp', hlive, rfl⟩ := mem_entries.mp hx
        rcases hm with hm | rfl
        · obtain ⟨n', hr⟩ := hrec s hm
          obtain rfl : n' = n := by
            refine List.inj_on_of_nodup_map hif (hnodes ▸ hr.node) (hnodes ▸ hnew.node) ?_
            rw [← hr.iface, he]
          have hid : p'.id = p.id := hnew.id_eq ha hr hp' hp hkey
          exact hlive (hfresh s hm he p hp hrev p' (hl.listing hφ ▸ hp') hid)
        · have hid : p'.id = p.id := hnew.id_eq ha hnew hp' hp hkey
          exact hlive (hnew.distinct p' hp' p hp hid ▸ hrev)

-- A peer was put in place as revoked.
def Shown (τ : List Ev) (id : UUID) : Prop :=
  ∃ s ∈ (history τ).syncs, ∃ p ∈ s.rows, p.id = id ∧ p.state = .revoked

theorem Shown.concat {id : UUID} (h : Shown τ id) : Shown (τ ++ [ev]) id :=
  have ⟨s, hs, hp⟩ := h
  ⟨s, mem_syncs_concat hs, hp⟩

-- The job of a revocation is completed after its peer was put in place as revoked.
structure Evidence (τ : List Ev) (φ : Local) : Prop where
  job : ∀ {j rows}, φ.job = some j → j.kind = .revokePeer → φ.listing = some (j.nodeID, rows) →
    ∃ p ∈ rows, p.id = j.aggregateID ∧ p.state = .revoked
  due : ∀ {j}, φ.due = some (j, .applied) → j.kind = .revokePeer → Shown τ j.aggregateID

theorem Evidence.concat (h : Evidence τ φ) : Evidence (τ ++ [ev]) φ :=
  ⟨h.job, fun hd hk => (h.due hd hk).concat⟩

-- A process that gets a job has no listing.
theorem job_next (h : QueueStep φ w e r db) {j : Job} (hj : (φ.next e r).job = some j) :
    φ.job = some j ∨ (φ.next e r).listing = none := by
  cases h
  case rest hn _       => exact .inl (hn ▸ hj)
  case commit          => exact .inl hj
  case uncommitted     => exact .inl hj
  case unclaimable     => exact .inl hj
  case claim           => exact .inr rfl
  case unclaimed       => exact .inr rfl
  case conclude hn     => simp [hn, Local.concludes] at hj
  case mark hn         => exact .inl (by simpa [hn] using hj)
  case incomplete      => cases hj
  case unfailed        => cases hj
  case unmarked hn     => exact .inl (by simpa [hn] using hj)

theorem applied_of_concludes {s : Auto} {id : UUID} {js : JobStatus} {st : OperationStatus}
    (h : s.concludes = some (id, js, st)) (hst : st = .applied) : js = .applied := by
  subst hst
  cases s
  case complete   => cases h; rfl
  case fail _ _ r => cases r <;> cases h
  all_goals cases h

theorem evidence_own (h : ActStep C G w₀ τ w pid φ e r w') (hp : Paired w.db) (hj : JobLocal w.db φ)
    (hl : Listed τ w.db pid φ) (hev : Evidence τ φ) :
    Evidence (τ ++ [.act pid e r]) (φ.next e r) := by
  constructor
  case job =>
    intro j rows hjob hk hφ
    have hjob : φ.job = some j := (job_next h.queue hjob).resolve_right (by simp [hφ])
    cases relists pid φ e r
    case sync            => exact hev.job hjob hk hφ
    case drop hd _ _     => simp [hd] at hφ
    case keep hkeep _ _ _ => exact hev.job hjob hk (hkeep ▸ hφ)
    case list n rows' =>
      cases hφ
      obtain ⟨row, hm, hid⟩ := hj j (.inl hjob)
      simp only [Job.identity, Job.Identity.mk.injEq] at hid
      obtain ⟨_, hag, hnode, _, hkind⟩ := hid
      obtain ⟨p, hpm, hpid, hpn, hrev⟩ := hp.peer row hm
      have hc := h.change
      generalize w'.db = db' at hc
      cases hc
      case query now hq =>
        rw [Local.view_of_none hq.1]
        exact ⟨p, mem_peersByNode.mpr ⟨hpm, hpn.trans hnode⟩, hpid.trans hag, hrev (hkind.trans hk)⟩
      case aside hr => cases hr; case silent hs => cases hs
  case due =>
    intro j hd hk
    have hqs := h.queue
    generalize w'.db = db' at hqs
    cases hqs
    case rest hn      => exact (hev.due (hn ▸ hd) hk).concat
    case commit       => exact (hev.due hd hk).concat
    case uncommitted  => exact (hev.due hd hk).concat
    case unclaimable  => exact (hev.due hd hk).concat
    case claim        => exact (hev.due hd hk).concat
    case unclaimed    => exact (hev.due hd hk).concat
    case incomplete   => exact (hev.due hd hk).concat
    case mark hn      => simp [hn] at hd
    case unmarked hn  => simp [hn] at hd
    case unfailed id msg retry x i hi =>
      have := (Local.of_due_concludes hd).2
      cases retry <;> cases this
    case conclude s a i js st f hs hi happ hf hn =>
      obtain ⟨hi', hst⟩ := Local.of_due_concludes (hn ▸ hd)
      obtain rfl := Option.some.inj (hi.symm.trans hi')
      obtain ⟨rows, hφ, hsync⟩ := happ (applied_of_concludes hs hst.symm)
      obtain ⟨p, hpr, hpid, hrev⟩ := hev.job hi hk hφ
      rcases hsync with hsync | rfl
      · obtain ⟨n, s', hφ', hm⟩ := hl.synced hsync
        obtain ⟨rfl, rfl⟩ := Prod.mk.inj (Option.some.inj (hφ.symm.trans hφ'))
        exact Shown.concat ⟨s', hm, p, hpr, hpid, hrev⟩
      · cases hpr

theorem evidence_of_trace (h : C.Trace G w₀ τ w) (hq : Quiet w₀) (h₀ : Sound w₀.db) :
    ∀ q ψ, C.locals τ q = some ψ → Evidence τ ψ := by
  refine (trace_invariant (Q := fun _ _ => True) (P := fun τ _ _ ψ => Evidence τ ψ) hq h trivial
    ?idle ?new ?act).2
  case idle => exact fun _ => ⟨id, fun q ψ hev => hev.concat⟩
  case new  => exact fun _ => ⟨fun h => (by cases h), fun h => (by cases h)⟩
  case act  =>
    intro τ w pid φ e r w' hs _ hl
    have hp := (sound_of_trace hs.trace hq h₀).paired
    exact ⟨trivial, evidence_own hs hp (jobs_of_trace hs.trace hq _ _ hs.running)
      (listed_of_trace hs.trace hq h₀.peers _ _ hs.running) (hl pid φ hs.running),
      fun q ψ _ hψ => (hl q ψ hψ).concat⟩

-- The peer of a revocation that was applied was put in place as revoked.
def Acknowledged (τ : List Ev) (db : DB) : Prop :=
  ∀ o ∈ db.operations, o.kind = .revokePeer → o.status = .applied → ∃ id ∈ o.peerID, Shown τ id

theorem acknowledged_step (h : ActStep C G w₀ τ w pid φ e r w') (hs : Sound w.db)
    (hj : JobLocal w.db φ) (hev : Evidence τ φ) (ha : Acknowledged τ w.db) :
    Acknowledged (τ ++ [.act pid e r]) w'.db := by
  have old {o : Operation} (ho : o ∈ w.db.operations) (hk : o.kind = .revokePeer)
      (hst : o.status = .applied) : ∃ id ∈ o.peerID, Shown (τ ++ [.act pid e r]) id :=
    have ⟨i, hi, hsh⟩ := ha o ho hk hst
    ⟨i, hi, hsh.concat⟩
  have hqs := h.queue
  generalize w'.db = db' at hqs ⊢
  intro o ho hk hst
  cases hqs
  case commit =>
    obtain ⟨t, htx, he⟩ := h.allowed
    rw [Local.view, replay_operations, Local.writes_of_some htx, List.mem_append] at ho
    rcases ho with ho | ho
    · exact old ho hk hst
    · rcases he.requested with ⟨hno, _⟩ | ⟨_, _, _, _, _, o₀, _, _, _, hr, ho₀, _⟩
      · simp [hno] at ho
      · rw [ho₀, List.mem_singleton] at ho
        obtain ⟨_, _, rfl⟩ := hr.op
        subst ho
        cases hst
  case mark i id st f _ hd hio hf _ =>
    obtain ⟨o₁, ho₁, rfl⟩ := List.mem_map.mp ho
    by_cases he : o₁.id = id
    case neg =>
      rw [if_neg he] at hk hst ⊢
      exact old ho₁ hk hst
    case pos =>
      rw [if_pos he] at hk hst ⊢
      -- The operation is that of the job, which was completed.
      obtain ⟨row, hrow, hri⟩ := hj i (.inr (by simp [hd]))
      simp only [Job.identity, Job.Identity.mk.injEq] at hri
      obtain ⟨_, hag, _, hop, hkind⟩ := hri
      obtain ⟨o₂, ho₂, hid₂⟩ := hs.paired.operation row hrow id (hop.trans hio)
      have ho : o₁ = o₂ := Table.eq_of_key (T := Table.operations) hs.operations ho₁ ho₂
        (he.trans (congrArg OperationIdentity.id hid₂).symm)
      rw [← ho, ← (hf o₁).2] at hid₂
      simp only [operationIdentity, OperationIdentity.mk.injEq] at hid₂
      obtain ⟨_, hpeer, _, hk'⟩ := hid₂
      obtain rfl : st = .applied := (hf o₁).1.symm.trans hst
      refine ⟨i.aggregateID, hag ▸ hpeer, (hev.due hd ?_).concat⟩
      rw [← hkind, ← hk', hk]
  all_goals exact old ho hk hst

theorem acknowledged_of_trace (h : C.Trace G w₀ τ w) (hq : Quiet w₀) (h₀ : Sound w₀.db)
    (ha : Acknowledged [] w₀.db) : Acknowledged τ w.db := by
  refine trace_induction (I := fun τ w => Acknowledged τ w.db) hq h ha
    (fun {τ w ev w'} hs ih o ho hk hst => ?_) (fun {τ w pid φ e r w'} hs ih => ?_)
  · obtain ⟨id, hid, hsh⟩ := ih o (hs.db ▸ ho) hk hst
    exact ⟨id, hid, hsh.concat⟩
  · exact acknowledged_step hs (sound_of_trace hs.trace hq h₀) (jobs_of_trace hs.trace hq _ _ hs.running)
      (evidence_of_trace hs.trace hq h₀ _ _ hs.running) ih

theorem mem_syncs_append {τ' : List Ev} {s : Sync} (h : s ∈ (history τ).syncs) :
    s ∈ (history (τ ++ τ')).syncs := by
  induction τ' using List.reverseRecOn
  case nil => simpa using h
  case append_singleton τ' ev ih => exact List.append_assoc .. ▸ mem_syncs_concat ih

-- As long as no configuration is put in place after one that shows a peer of it as revoked, a peer
-- whose revocation was applied is not in the runtime, and never will be.
theorem revocation_final {c c' : Conf} {τ' : List Ev} (hq : Quiet w₀) (h₀ : Sound w₀.db)
    (hid : (w₀.db.nodes.map Node.id).Nodup) (hif : (w₀.db.nodes.map Node.interfaceName).Nodup)
    (ha : Acknowledged [] w₀.db)
    (h : C.Runs (fun τ w ev => ordinary τ w ev ∧ fresh τ w ev) w₀ τ c)
    (h' : C.Continues (fun τ w ev => ordinary τ w ev ∧ fresh τ w ev) τ c τ' c')
    {p : Peer} {o : Operation} {n : Node} (hp : p ∈ c.world.db.peers)
    (ho : o ∈ c.world.db.operations) (hk : o.kind = .revokePeer) (hop : o.peerID = some p.id)
    (hst : o.status = .applied) (hn : n ∈ c.world.db.nodes) (hnp : n.id = p.nodeID) :
    ∀ x ∈ c'.world.peersAt n.interfaceName, x.publicKey ≠ p.publicKey := by
  obtain ⟨id, hpid, s, hm, p₁, hp₁, hid₁, hrev⟩ := acknowledged_of_trace h.trace hq h₀ ha o ho hk hst
  obtain ⟨n₁, hr⟩ := recorded_of_trace h.trace hq h₀.peers s hm
  obtain ⟨hn₁, p₂, hp₂, g⟩ := hr.rows p₁ hp₁
  have hnodes := nodes_of_trace (fun hg => hg.1) h.trace hq
  -- The row that was put in place is one of the peer itself.
  have hpeer : p₂ = p := by
    refine eq_of_id (peers_of_trace h.trace hq h₀.peers).1 hp₂ hp ?_
    rw [← g.id, hid₁]
    exact Option.some.inj (hpid.symm.trans hop)
  subst hpeer
  have hnode : n₁ = n := by
    refine List.inj_on_of_nodup_map hid (hnodes ▸ hr.node) (hnodes ▸ hn) ?_
    rw [hnp, ← g.nodeID, hn₁]
  have h'' : C.Runs (fun τ w ev => ordinary τ w ev ∧ fresh τ w ev) w₀ (τ ++ τ') c' :=
    System.Run.trans h h'
  have := banished_of_trace (fun hg => hg) h''.trace hq h₀.peers hif s (mem_syncs_append hm) p₁ hp₁ hrev
  rwa [hr.iface, hnode, g.publicKey] at this

theorem revocation_final_sample :
    ∃ τ c, Sample.plane.Runs (fun τ w ev => ordinary τ w ev ∧ fresh τ w ev) Sample.world τ c ∧
      c.world.db.operations.map (fun o => (o.kind, o.peerID, o.status)) =
        [(.createPeer, some 10, .applied), (.revokePeer, some 10, .applied)] ∧
      ∀ {τ' c'}, Sample.plane.Continues (fun τ w ev => ordinary τ w ev ∧ fresh τ w ev) τ c τ' c' →
        ∀ p ∈ c.world.db.peers, ∀ o ∈ c.world.db.operations, o.kind = .revokePeer →
          o.peerID = some p.id → o.status = .applied → ∀ n ∈ c.world.db.nodes, n.id = p.nodeID →
          ∀ x ∈ c'.world.peersAt n.interfaceName, x.publicKey ≠ p.publicKey := by
  have h : ((Sample.plane.system.playUnder
      (fun τ w ev => decide (ordinary τ w ev ∧ fresh τ w ev)) [] (boot Sample.world)
      (Sample.create 0 "k" "x" ⟨"a", "b"⟩ 10 11 12 ++ Sample.claim 1 ++ Sample.list 1 ++ Sample.sync 1 ++
        Sample.persist 1 1 ++ Sample.complete 1 ++ Sample.revoke 2 "l" 21 22 ++ Sample.claim 3 ++
        Sample.list 3 ++ Sample.sync 3 ++ Sample.persist 3 1 ++ Sample.complete 3)).map fun r =>
      r.2.world.db.operations.map (fun o => (o.kind, o.peerID, o.status))) =
      some [(.createPeer, some 10, .applied), (.revokePeer, some 10, .applied)] := by decide +kernel
  obtain ⟨⟨τ, c⟩, hp, hs⟩ := Option.map_eq_some_iff.mp h
  have hr : Sample.plane.Runs (fun τ w ev => ordinary τ w ev ∧ fresh τ w ev) Sample.world τ c :=
    System.playUnder_run (fun _ _ _ h => of_decide_eq_true h) .nil hp
  have hid : (Sample.world.db.nodes.map Node.id).Nodup := List.nodup_singleton _
  have hif : (Sample.world.db.nodes.map Node.interfaceName).Nodup := List.nodup_singleton _
  have ha : Acknowledged [] Sample.world.db := fun _ ho => absurd ho List.not_mem_nil
  exact ⟨τ, c, hr, hs, fun h' p hp o ho hk hop hst n hn hnp =>
    revocation_final ⟨fun _ => rfl, rfl⟩ Sample.sound hid hif ha hr h' hp ho hk hop hst hn hnp⟩

-- A worker that has listed the peers before the revocation puts its listing in place after another
-- one has applied the revocation.
theorem stale_listing_restores_peer :
    ∃ τ c τ' c', Sample.plane.Runs ordinary Sample.world τ c ∧
      Sample.plane.Continues ordinary τ c τ' c' ∧
      c.world.db.peers.map (fun p => (p.publicKey, p.state)) = [("b", .revoked)] ∧
      c.world.db.operations.map (fun o => (o.kind, o.peerID, o.status)) =
        [(.createPeer, some 10, .pending), (.revokePeer, some 10, .applied)] ∧
      (c.world.peersAt "awg0").map Awg.PeerSpec.publicKey = [] ∧
      (c'.world.peersAt "awg0").map Awg.PeerSpec.publicKey = ["b"] := by
  have h : ((Sample.plane.system.playUnder (fun τ w ev => decide (ordinary τ w ev)) []
      (boot Sample.world) (Sample.create 0 "k" "x" ⟨"a", "b"⟩ 10 11 12 ++ Sample.claim 1 ++
        Sample.list 1 ++ Sample.revoke 2 "l" 21 22 ++ Sample.claim 3 ++ Sample.list 3 ++ Sample.sync 3 ++
        Sample.persist 3 1 ++ Sample.complete 3)).bind fun r =>
      (Sample.plane.system.playUnder (fun τ w ev => decide (ordinary (r.1 ++ τ) w ev)) [] r.2
        (Sample.sync 1)).map fun r' => decide (
      r.2.world.db.peers.map (fun p => (p.publicKey, p.state)) = [("b", .revoked)] ∧
      r.2.world.db.operations.map (fun o => (o.kind, o.peerID, o.status)) =
        [(.createPeer, some 10, .pending), (.revokePeer, some 10, .applied)] ∧
      (r.2.world.peersAt "awg0").map Awg.PeerSpec.publicKey = [] ∧
      (r'.2.world.peersAt "awg0").map Awg.PeerSpec.publicKey = ["b"])) = some true := by
    decide +kernel
  obtain ⟨⟨τ, c⟩, hp, h'⟩ := Option.bind_eq_some_iff.mp h
  obtain ⟨⟨τ', c'⟩, hp', hs⟩ := Option.map_eq_some_iff.mp h'
  exact ⟨τ, c, τ', c', System.playUnder_run (fun _ _ _ h => of_decide_eq_true h) .nil hp,
    System.playUnder_run (fun _ _ _ h => of_decide_eq_true h) .nil hp', of_decide_eq_true hs⟩

end ControlPlane
