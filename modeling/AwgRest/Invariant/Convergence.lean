import AwgRest.Invariant.Revocation
import AwgRest.Invariant.Settlement

open Domain Store Domain.Peer

-- With one worker, an unfinished job is left for every change that the runtime does not show yet.
namespace ControlPlane

variable {C : ControlPlane} {G : Guard} {w₀ w w' : World} {τ : List Ev} {pid q : Nat} {φ ψ : Local}
  {e : Eff} {r : Except Err e.Answer} {ev : Ev} {db db' : DB} {n : Node} {rows : List Peer}
  {skip : Option UUID} {p : Peer}

-- The listing that is in place on an interface.
def inPlace (ss : List Sync) (iface : String) : List Peer :=
  (((ss.filter (·.iface = iface)).getLast?).map Sync.rows).getD []

theorem inPlace_concat {ss : List Sync} {s : Sync} {iface : String} :
    inPlace (ss ++ [s]) iface = if s.iface = iface then s.rows else inPlace ss iface := by
  by_cases h : s.iface = iface <;> simp [inPlace, h]

theorem inPlace_cases (ss : List Sync) (iface : String) :
    inPlace ss iface = [] ∨ ∃ s ∈ ss, s.iface = iface ∧ inPlace ss iface = s.rows := by
  cases h : (ss.filter (·.iface = iface)).getLast?
  case none   => exact .inl (by rw [inPlace, h]; rfl)
  case some s =>
    have hm := List.mem_filter.mp (List.mem_of_getLast? h)
    exact .inr ⟨s, hm.1, of_decide_eq_true hm.2, by rw [inPlace, h]; rfl⟩

def Shows (rows : List Peer) (p : Peer) : Prop :=
  ∃ p' ∈ rows, p'.id = p.id ∧ (p'.state = .revoked ↔ p.state = .revoked)

-- There is an unfinished job for the peer, other than the one that is left out.
def Awaits (db : DB) (skip : Option UUID) (p : Peer) : Prop :=
  ∃ j ∈ db.outbox, j.nodeID = p.nodeID ∧ j.aggregateID = p.id ∧ j.status ≠ .applied ∧ skip ≠ some j.id

-- Every peer of the node is as the listing shows it, or a job will see to it.
def Covers (db : DB) (n : Node) (rows : List Peer) (skip : Option UUID) : Prop :=
  ∀ p ∈ db.peers, p.nodeID = n.id → Shows rows p ∨ Awaits db skip p

theorem Covers.weaken (h : Covers db n rows skip) : Covers db n rows none := by
  intro p hp hn
  refine (h p hp hn).imp_right ?_
  rintro ⟨j, hj, hjn, hja, hs, _⟩
  exact ⟨j, hj, hjn, hja, hs, (Option.some_ne_none _).symm⟩

-- A new version of a row is as much revoked as the old one, or there is a new job for it.
def Announced (db db' : DB) (p' : Peer) : Prop :=
  (∃ p ∈ db.peers, p.id = p'.id ∧ p.nodeID = p'.nodeID ∧ (p.state = .revoked ↔ p'.state = .revoked)) ∨
  ∃ j ∈ db'.outbox, j.nodeID = p'.nodeID ∧ j.aggregateID = p'.id ∧ j.status ≠ .applied ∧
    ∀ i ∈ db.outbox, i.id ≠ j.id

theorem Covers.step (h : Covers db n rows skip)
    (hskip : ∀ i, skip = some i → ∃ j ∈ db.outbox, j.id = i)
    (hp : ∀ p ∈ db'.peers, Announced db db' p)
    (hj : ∀ j ∈ db.outbox, j.nodeID = n.id → j.status ≠ .applied → skip ≠ some j.id →
      ∃ j' ∈ db'.outbox, j'.identity = j.identity ∧ j'.status ≠ .applied) :
    Covers db' n rows skip := by
  intro p' hp' hn
  rcases hp p' hp' with ⟨p, hm, hid, hnode, hrev⟩ | ⟨j, hm, hjn, hja, hs, hnew⟩
  · rcases h p hm (hnode.trans hn) with ⟨p₀, hm₀, hid₀, hrev₀⟩ | ⟨j, hmj, hjn, hja, hs, hsk⟩
    · exact .inl ⟨p₀, hm₀, hid₀.trans hid, hrev₀.trans hrev⟩
    · obtain ⟨j', hm', hid', hs'⟩ := hj j hmj (hjn.trans (hnode.trans hn)) hs hsk
      simp only [Job.identity, Job.Identity.mk.injEq] at hid'
      obtain ⟨h₁, h₂, h₃, _⟩ := hid'
      exact .inr ⟨j', hm', h₃.trans (hjn.trans hnode), h₂.trans (hja.trans hid), hs', h₁.symm ▸ hsk⟩
  · refine .inr ⟨j, hm, hjn, hja, hs, fun he => ?_⟩
    obtain ⟨i, hi, hid⟩ := hskip j.id he
    exact hnew i hi hid

-- What a commit does to the peers is announced.
theorem announced_step (h : ActStep C G w₀ τ w pid φ e r w') (hk : φ.kind.IsRequest ∨ φ.kind.IsWorker)
    (hl : PeerLocal w.db φ) (hn : (Table.outbox.keys w.db ++ Table.outbox.added φ).Nodup) :
    ∀ p ∈ w'.db.peers, Announced w.db w'.db p := by
  have hc := h.change
  generalize w'.db = db' at hc ⊢
  intro p hp
  have same (hp : p ∈ w.db.peers) : Announced w.db db' p := .inl ⟨p, hp, rfl, rfl, Iff.rfl⟩
  cases hc
  case auto s _ _ _ _ => exact same (by rwa [Auto.eval_frame] at hp)
  case commit t htx he =>
    rcases mem_view_peers hp with hp | hp
    · exact same hp
    · rcases he.requested with ⟨_, _, hr⟩ | ⟨_, _, _, _, p₀, o, j, _, _, hr, _, hj, hps, _⟩
      · have hw : φ.kind.IsWorker := hk.resolve_left hr
        cases hl.pending hp
        case insert hi _       => exact absurd hw (φ.kind.not_isWorker hi)
        case update q _ hq g u => exact .inl ⟨q, hq, g.id, g.nodeID, g.revoked, u hw⟩
      · obtain rfl : p = p₀ := List.mem_singleton.mp (hps ▸ mem_peersOf.mpr hp)
        have hadd : Table.outbox.added φ = [j.id] := by
          have : Table.outbox.added φ = (jobsOf φ.writes).map Job.id := rfl
          rw [this, hj]
          rfl
        refine .inr ⟨j, ?_, ?_⟩
        · rw [Local.view, replay_outbox, hj]
          exact List.mem_append_right _ (List.mem_singleton_self j)
        · obtain ⟨_, _, _, rfl⟩ := hr.job
          refine ⟨rfl, rfl, by simp, fun i hi he => ?_⟩
          exact (List.nodup_append.mp hn).2.2 i.id (List.mem_map_of_mem hi) _ (by simp [hadd]) he
  all_goals exact same hp

theorem complete_of_concludes {s : Auto} {id : UUID} {st : OperationStatus}
    (h : s.concludes = some (id, .applied, st)) : s = .complete id := by
  cases s
  case complete   => cases h; rfl
  case fail _ _ r => cases r <;> cases h
  all_goals cases h

-- Only `Complete` finishes a job.
theorem unfinished_step (h : QueueStep φ w e r db') {j : Job} (hm : j ∈ w.db.outbox)
    (hs : j.status ≠ .applied)
    (hne : ∀ i, φ.job = some i → i.id ≠ j.id ∨ ∀ id, e ≠ .auto (.complete id)) :
    ∃ j' ∈ db'.outbox, j'.identity = j.identity ∧ j'.status ≠ .applied := by
  have keep {id : UUID} {f : Job → Job} (hf : (f j).identity = j.identity)
      (hst : j.id = id → (f j).status ≠ .applied) :
      ∃ j' ∈ (Auto.updateJob w.db id f).outbox, j'.identity = j.identity ∧ j'.status ≠ .applied := by
    refine ⟨_, Auto.mem_updateJob id f hm, ?_⟩
    split
    case isTrue he => exact ⟨hf, hst he⟩
    case isFalse   => exact ⟨rfl, hs⟩
  cases h
  case commit =>
    rw [Local.view, replay_outbox]
    exact ⟨j, List.mem_append_left _ hm, rfl, hs⟩
  case claim => exact keep rfl fun _ => by simp [Auto.claimed]
  case conclude s a i js st f hc hi _ hf _ =>
    refine keep (hf j).2 fun he => ?_
    rw [(hf j).1]
    rintro rfl
    rcases hne i hi with hne | hne
    · exact hne he.symm
    · exact hne _ (congrArg Eff.auto (complete_of_concludes hc))
  all_goals exact ⟨j, hm, rfl, hs⟩

-- The runtime has the peers of the listing in place, and that listing covers the node.
structure Converging (τ : List Ev) (w : World) (n : Node) : Prop where
  runtime : w.peersAt n.interfaceName =
    (Worker.entries (inPlace (history τ).syncs n.interfaceName)).map Awg.specOf
  covers  : Covers w.db n (inPlace (history τ).syncs n.interfaceName) none

-- The same for the listing of a worker, apart from the job that it is processing.
structure ConvergingLocal (τ : List Ev) (db : DB) (n : Node) (φ : Local) : Prop where
  covers : ∀ {rows}, φ.listing = some (n.id, rows) → Covers db n rows (φ.job.map Job.id)
  synced : ∀ {rows}, φ.listing = some (n.id, rows) → φ.synced →
    inPlace (history τ).syncs n.interfaceName = rows

theorem ConvergingLocal.of_none (h : φ.listing = none) : ConvergingLocal τ db n φ :=
  ⟨fun hφ => by simp [h] at hφ, fun hφ => by simp [h] at hφ⟩

-- What is known of the database and of the process in a step.
structure StepFacts (C : ControlPlane) (τ : List Ev) (w : World) (pid : Nat) (φ : Local) : Prop where
  kind     : φ.kind.IsRequest ∨ φ.kind.IsWorker
  sound    : Sound w.db
  peers    : PeerLocal w.db φ
  outbox   : (Table.outbox.keys w.db ++ Table.outbox.added φ).Nodup
  jobs     : JobLocal w.db φ
  listed   : Listed τ w.db pid φ
  surveyed : Surveyed τ w.db φ

theorem stepFacts (hG : ∀ {τ w ev}, G τ w ev → ordinary τ w ev) (h : C.Trace G w₀ τ w) (hq : Quiet w₀)
    (h₀ : Sound w₀.db) (hφ : C.locals τ pid = some φ) : StepFacts C τ w pid φ where
  kind     := ordinary_of_trace hG h hq pid φ hφ
  sound    := sound_of_trace h hq h₀
  peers    := (peers_of_trace h hq h₀.peers).2 pid φ hφ
  outbox   := (Table.nodup_of_trace h hq h₀.outbox).2 pid φ hφ
  jobs     := jobs_of_trace h hq pid φ hφ
  listed   := listed_of_trace h hq h₀.peers pid φ hφ
  surveyed := surveyed_of_trace h hq h₀.peers pid φ hφ

-- A job that is left out is there.
theorem JobLocal.exists_row (h : JobLocal db φ) {i : UUID} (hi : φ.job.map Job.id = some i) :
    ∃ j ∈ db.outbox, j.id = i := by
  obtain ⟨j, hj, rfl⟩ := Option.map_eq_some_iff.mp hi
  obtain ⟨row, hm, hid⟩ := h j (.inl hj)
  exact ⟨row, hm, congrArg Job.Identity.id hid⟩

-- The worker's own job may be finished, since it is left out.
theorem covers_own (h : ActStep C G w₀ τ w pid φ e r w') (hf : StepFacts C τ w pid φ)
    (hc : Covers w.db n rows (φ.job.map Job.id)) : Covers w'.db n rows (φ.job.map Job.id) := by
  refine hc.step (fun i hi => hf.jobs.exists_row hi) (announced_step h hf.kind hf.peers hf.outbox)
    (fun j hm _ hs hsk => unfinished_step h.queue hm hs fun i hi => .inl fun he => hsk ?_)
  rw [hi, ← he]
  rfl

theorem convergingLocal_own (h : ActStep C G w₀ τ w pid φ e r w') (hf : StepFacts C τ w pid φ)
    (hif : ∀ m ∈ w.db.nodes, m.id = n.id → m = n) (hl : ConvergingLocal τ w.db n φ) :
    ConvergingLocal (τ ++ [.act pid e r]) w'.db n (φ.next e r) := by
  cases relists pid φ e r
  case drop hd _ _ => exact .of_none hd
  case list m rows =>
    refine ⟨fun hφ => ?_, fun _ hs => by cases hs⟩
    have hc := h.change
    generalize w'.db = db' at hc ⊢
    cases hφ
    cases hc
    case query now hq =>
      rw [Local.view_of_none hq.1]
      exact fun p hp hn => .inl ⟨p, mem_peersByNode.mpr ⟨hp, hn⟩, rfl, Iff.rfl⟩
    case aside hr => cases hr; case silent hs => cases hs
  case sync iface conf =>
    refine ⟨fun hφ => covers_own (φ := φ) h hf (hl.covers hφ), fun {rows} hφ _ => ?_⟩
    rcases h.runtime hf.listed with ⟨_, hh, hs⟩ | ⟨m, rows', conf', _, hm, hφ', _, _, hh⟩
    · rw [hh]
      exact hl.synced hφ (hs rfl)
    · have hφ : φ.listing = some (n.id, rows) := hφ
      obtain ⟨hid, rfl⟩ := Prod.mk.inj (Option.some.inj (hφ'.symm.trans hφ))
      obtain rfl := hif m (hf.surveyed.node hm) hid
      rw [hh, inPlace_concat, if_pos rfl]
  case keep hk hs _ hr =>
    refine ⟨fun hφ => ?_, fun hφ hsy => ?_⟩
    · have hcov := covers_own h hf (hl.covers (hk ▸ hφ))
      have hjob : (φ.next e r).job = φ.job ∨ (φ.next e r).job = none := by
        cases hj : (φ.next e r).job
        case none   => exact .inr rfl
        case some j => exact .inl ((job_next h.queue hj).resolve_right (by simp [hφ])).symm
      rcases hjob with hjob | hjob
      · rw [hjob]
        exact hcov
      · rw [hjob]
        exact hcov.weaken
    · rw [history_concat, hr]
      exact hl.synced (hk ▸ hφ) (hs ▸ hsy)

-- A step that completes no job of the node leaves an unfinished job unfinished.
theorem covers_of_incomplete (h : ActStep C G w₀ τ w pid φ e r w') (hf : StepFacts C τ w pid φ)
    (hne : ∀ i, φ.job = some i → i.nodeID ≠ n.id ∨ ∀ id, e ≠ .auto (.complete id))
    (hc : Covers w.db n rows none) : Covers w'.db n rows none := by
  refine hc.step (fun i hi => by cases hi) (announced_step h hf.kind hf.peers hf.outbox)
    (fun j hm hn hs _ => unfinished_step h.queue hm hs fun i hi => (hne i hi).imp_left fun hni he => ?_)
  have := congrArg Job.Identity.nodeID (row_of_job hf.sound hf.jobs (.inl hi) hm he.symm)
  exact hni (this.symm.trans hn)

-- The job of the node that is completed is the one whose listing is in place.
theorem covers_of_complete {jobID : UUID} {a : Except Err Unit}
    (h : ActStep C G w₀ τ w pid φ (.auto (.complete jobID)) a w') (hf : StepFacts C τ w pid φ)
    (hl : ConvergingLocal τ w.db n φ) (hc : Converging τ w n) :
    Covers w'.db n (inPlace (history τ).syncs n.interfaceName) none := by
  have hother (hne : ∀ i, φ.job = some i → i.nodeID ≠ n.id) :=
    covers_of_incomplete h hf (fun i hi => .inl (hne i hi)) hc.covers
  obtain ⟨_, _, i, rows, hi, rfl, hφ, hs⟩ := h.allowed
  by_cases hn : i.nodeID = n.id
  case neg => exact hother fun i' hi' => Option.some.inj (hi.symm.trans hi') ▸ hn
  case pos =>
    rw [hn] at hφ
    have hcov := (covers_own h hf (hl.covers hφ)).weaken
    rcases hs with hs | rfl
    · rwa [hl.synced hφ hs]
    · intro p hp hpn
      refine (hcov p hp hpn).imp_left ?_
      rintro ⟨p', hp', _⟩
      cases hp'

theorem converging_step (h : ActStep C G w₀ τ w pid φ e r w') (hf : StepFacts C τ w pid φ)
    (hif : ∀ m ∈ w.db.nodes, m.interfaceName = n.interfaceName → m = n)
    (hl : ConvergingLocal τ w.db n φ) (hc : Converging τ w n) :
    Converging (τ ++ [.act pid e r]) w' n := by
  rcases h.runtime hf.listed with ⟨hw, hh, _⟩ | ⟨m, rows, conf, _, hm, hφ, hev, hw, hh⟩
  · refine ⟨by rw [hw, hh, hc.runtime], ?_⟩
    rw [hh]
    by_cases hcomp : ∃ id, e = .auto (.complete id)
    case pos =>
      obtain ⟨id, rfl⟩ := hcomp
      exact covers_of_complete h hf hl hc
    case neg => exact covers_of_incomplete h hf (fun _ _ => .inr fun id he => hcomp ⟨id, he⟩) hc.covers
  · by_cases hi : m.interfaceName = n.interfaceName
    case pos =>
      obtain rfl := hif m (hf.surveyed.node hm) hi
      refine ⟨by rw [hw, hh, inPlace_concat, if_pos rfl, if_pos rfl], ?_⟩
      rw [hh, inPlace_concat, if_pos rfl]
      exact (covers_own h hf (hl.covers hφ)).weaken
    case neg =>
      refine ⟨by rw [hw, hh, inPlace_concat, if_neg (Ne.symm hi), if_neg hi, hc.runtime], ?_⟩
      rw [hh, inPlace_concat, if_neg hi]
      refine covers_of_incomplete h hf (fun _ _ => .inr fun id he => ?_) hc.covers
      subst he
      cases hev

-- What other processes do does not concern a worker, as long as they are not workers.
theorem convergingLocal_other (h : ActStep C G w₀ τ w pid φ e r w') (hf : StepFacts C τ w pid φ)
    (hw : ¬ φ.kind.IsWorker) (hj : JobLocal w.db ψ) (hl : ConvergingLocal τ w.db n ψ) :
    ConvergingLocal (τ ++ [.act pid e r]) w'.db n ψ := by
  have hauto (id) : e ≠ .auto (.complete id) := by
    rintro rfl
    exact hw h.allowed.2.1
  refine ⟨fun hφ => ?_, fun hφ hs => ?_⟩
  · exact (hl.covers hφ).step (fun i hi => hj.exists_row hi)
      (announced_step h hf.kind hf.peers hf.outbox)
      (fun j hm _ hst _ => unfinished_step h.queue hm hst fun _ _ => .inr hauto)
  · rcases h.runtime hf.listed with ⟨_, hh, _⟩ | ⟨_, _, _, hk, _⟩
    · rw [hh]
      exact hl.synced hφ hs
    · exact absurd hk hw

theorem converging_of_trace (hG : ∀ {τ w ev}, G τ w ev → ordinary τ w ev ∧ oneWorker τ w ev)
    (h : C.Trace G w₀ τ w) (hq : Quiet w₀) (h₀ : Sound w₀.db)
    (hid : (w₀.db.nodes.map Node.id).Nodup) (hif : (w₀.db.nodes.map Node.interfaceName).Nodup)
    (hn : n ∈ w₀.db.nodes) (hp : ∀ p ∈ w₀.db.peers, p.nodeID ≠ n.id)
    (hr : w₀.peersAt n.interfaceName = []) :
    Converging τ w n ∧ ∀ q ψ, C.locals τ q = some ψ → ConvergingLocal τ w.db n ψ := by
  have hord {τ w ev} (hg : G τ w ev) := (hG hg).1
  refine trace_invariant (Q := fun τ w => Converging τ w n)
    (P := fun τ w _ ψ => ConvergingLocal τ w.db n ψ) hq h ⟨hr, fun p hpm hpn => absurd hpn (hp p hpm)⟩
    ?idle ?new ?act
  case idle =>
    intro τ w ev w' hi
    have hh := syncs_concat_of_idle (τ := τ) hi.event
    refine ⟨fun hc => ⟨?_, ?_⟩, fun q ψ hl => ⟨hi.db ▸ hl.covers, hh ▸ hl.synced⟩⟩
    · rw [hh, ← hc.runtime, World.peersAt, hi.runtime]
      rfl
    · rw [hi.db, hh]
      exact hc.covers
  case new => exact fun _ => .of_none rfl
  case act =>
    intro τ w pid φ e r w' hs hc hl
    have hf := stepFacts hord hs.trace hq h₀ hs.running
    have hnodes := nodes_of_trace hord hs.trace hq
    have hl' := hl pid φ hs.running
    refine ⟨converging_step hs hf (fun m hm he => ?_) hl' hc,
      convergingLocal_own hs hf (fun m hm he => ?_) hl', fun q ψ hne hψ => ?_⟩
    · exact List.inj_on_of_nodup_map hif (hnodes ▸ hm) hn he
    · exact List.inj_on_of_nodup_map hid (hnodes ▸ hm) hn he
    · have hfq := stepFacts hord hs.trace hq h₀ hψ
      by_cases hlist : ψ.listing = none
      case pos => exact .of_none hlist
      case neg =>
        refine convergingLocal_other hs hf (fun hk => hne ?_) hfq.jobs (hl q ψ hψ)
        exact sole_worker (fun hg => (hG hg).2) hs.trace hq hs.running hk hψ (hfq.surveyed.worker hlist)

theorem entry_congr {q : Peer} (h : p.identity = q.identity) : Worker.entry p = Worker.entry q := by
  simp only [identity, Identity.mk.injEq] at h
  obtain ⟨_, _, _, _, _, hname, hkey, hpsk, haddr⟩ := h
  simp only [Worker.entry, Worker.peerPresharedKey, hname, hkey, hpsk, haddr]

-- Once the jobs of a node are applied, its interface has exactly the peers that are not revoked,
-- each with the preshared key and the address in its row, without an endpoint or a keepalive.
theorem runtime_converges {c : Conf} (hq : Quiet w₀) (h₀ : Sound w₀.db)
    (hid : (w₀.db.nodes.map Node.id).Nodup) (hif : (w₀.db.nodes.map Node.interfaceName).Nodup)
    (hn : n ∈ w₀.db.nodes) (hp : ∀ p ∈ w₀.db.peers, p.nodeID ≠ n.id)
    (hr : w₀.peersAt n.interfaceName = [])
    (h : C.Runs (fun τ w ev => ordinary τ w ev ∧ oneWorker τ w ev) w₀ τ c)
    (hj : ∀ j ∈ c.world.db.outbox, j.nodeID = n.id → j.status = .applied) :
    ∀ x, x ∈ c.world.peersAt n.interfaceName ↔
      ∃ p ∈ c.world.db.peers, p.nodeID = n.id ∧ p.state ≠ .revoked ∧
        x = ⟨p.publicKey, p.presharedKeyRef.getD "",
          [(Netip.Prefix.host p.allowedIP).string], "", 0⟩ := by
  obtain ⟨hrun, hcov⟩ := (converging_of_trace (fun hg => hg) h.trace hq h₀ hid hif hn hp hr).1
  have ha := (peers_of_trace h.trace hq h₀.peers).1
  have hnodes := nodes_of_trace (fun hg => hg.1) h.trace hq
  -- The listing in place is one of the node's peers.
  have hrows : (∀ p' ∈ inPlace (history τ).syncs n.interfaceName,
        p'.nodeID = n.id ∧ ∃ p ∈ c.world.db.peers, Grows p' p) ∧
      Distinct (inPlace (history τ).syncs n.interfaceName) := by
    rcases inPlace_cases (history τ).syncs n.interfaceName with he | ⟨s, hs, hi, he⟩
    · rw [he]
      exact ⟨fun _ hp => absurd hp List.not_mem_nil, fun _ hp => absurd hp List.not_mem_nil⟩
    · obtain ⟨m, hrec⟩ := recorded_of_trace h.trace hq h₀.peers s hs
      obtain rfl := List.inj_on_of_nodup_map hif (hnodes ▸ hrec.node) hn (hrec.iface.symm.trans hi)
      rw [he]
      exact ⟨hrec.rows, hrec.distinct⟩
  -- There is nothing left that a job would have to see to.
  have hshown (p) (hp : p ∈ c.world.db.peers) (hpn : p.nodeID = n.id) :
      Shows (inPlace (history τ).syncs n.interfaceName) p := by
    refine (hcov p hp hpn).resolve_right ?_
    rintro ⟨j, hm, hjn, _, hs, _⟩
    exact hs (hj j hm (hjn.trans hpn))
  intro x
  rw [hrun, mem_entries]
  constructor
  · rintro ⟨p', hp', hlive, rfl⟩
    obtain ⟨hpn, p, hp, g⟩ := hrows.1 p' hp'
    have hpn' : p.nodeID = n.id := g.nodeID.symm.trans hpn
    obtain ⟨p'', hp'', hid'', hrev⟩ := hshown p hp hpn'
    obtain rfl := hrows.2 p'' hp'' p' hp' (hid''.trans g.id.symm)
    exact ⟨p, hp, hpn', fun hr => hlive (hrev.mpr hr), congrArg Awg.specOf (entry_congr g.same)⟩
  · rintro ⟨p, hp, hpn, hlive, rfl⟩
    obtain ⟨p', hp', hid', hrev⟩ := hshown p hp hpn
    obtain ⟨_, p₂, hp₂, g⟩ := hrows.1 p' hp'
    obtain rfl := eq_of_id ha hp₂ hp (g.id.symm.trans hid')
    exact ⟨p', hp', fun hr => hlive (hrev.mp hr), congrArg Awg.specOf (entry_congr g.same).symm⟩

theorem runtime_converges_sample :
    ∃ τ c, Sample.plane.Runs (fun τ w ev => ordinary τ w ev ∧ oneWorker τ w ev) Sample.world τ c ∧
      c.world.db.peers.map (fun p => (p.publicKey, p.state)) = [("b", .revoked), ("d", .active)] ∧
      c.world.peersAt "awg0" = [⟨"d", "psk", ["10.0.0.3/32"], "", 0⟩] ∧
      ∀ x, x ∈ c.world.peersAt "awg0" ↔ ∃ p ∈ c.world.db.peers, p.nodeID = 2 ∧ p.state ≠ .revoked ∧
        x = ⟨p.publicKey, p.presharedKeyRef.getD "",
          [(Netip.Prefix.host p.allowedIP).string], "", 0⟩ := by
  have h : ((Sample.plane.system.playUnder
      (fun τ w ev => decide (ordinary τ w ev ∧ oneWorker τ w ev)) [] (boot Sample.world)
      (Sample.create 0 "k" "x" ⟨"a", "b"⟩ 10 11 12 ++ Sample.claim 1 ++ Sample.list 1 ++
        Sample.create 2 "l" "y" ⟨"c", "d"⟩ 13 14 15 ++ Sample.revoke 3 "m" 21 22 ++ Sample.sync 1 ++
        Sample.persist 1 1 ++ Sample.complete 1 ++ Sample.claim 4 ++ Sample.list 4 ++ Sample.sync 4 ++
        [.crash 4, .tick 30000001] ++ Sample.claim 5 ++ Sample.list 5 ++ Sample.sync 5 ++
        Sample.persist 5 2 ++ Sample.complete 5 ++ Sample.claim 6 ++ Sample.list 6 ++ Sample.sync 6 ++
        Sample.persist 6 2 ++ Sample.complete 6)).map fun r => decide (
      r.2.world.db.peers.map (fun p => (p.publicKey, p.state)) = [("b", .revoked), ("d", .active)] ∧
      r.2.world.peersAt "awg0" = [⟨"d", "psk", ["10.0.0.3/32"], "", 0⟩] ∧
      ∀ j ∈ r.2.world.db.outbox, j.nodeID = 2 → j.status = .applied)) = some true := by decide +kernel
  obtain ⟨⟨τ, c⟩, hp, hs⟩ := Option.map_eq_some_iff.mp h
  obtain ⟨hps, hrt, hj⟩ := of_decide_eq_true hs
  have hr : Sample.plane.Runs (fun τ w ev => ordinary τ w ev ∧ oneWorker τ w ev) Sample.world τ c :=
    System.playUnder_run (fun _ _ _ h => of_decide_eq_true h) .nil hp
  have hid : (Sample.world.db.nodes.map Node.id).Nodup := List.nodup_singleton _
  have hif : (Sample.world.db.nodes.map Node.interfaceName).Nodup := List.nodup_singleton _
  have hn : Sample.node ∈ Sample.world.db.nodes := List.mem_singleton_self _
  have hno : ∀ p ∈ Sample.world.db.peers, p.nodeID ≠ Sample.node.id :=
    fun p hp => absurd hp List.not_mem_nil
  exact ⟨τ, c, hr, hps, hrt,
    runtime_converges (n := Sample.node) ⟨fun _ => rfl, rfl⟩ Sample.sound hid hif hn hno rfl hr hj⟩

end ControlPlane
