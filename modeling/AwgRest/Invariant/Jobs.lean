import AwgRest.Invariant.Peers
import AwgRest.Invariant.Tables

open Domain Store

namespace Store

-- The columns of jobs and operations that no statement changes.

structure Job.Identity where
  id          : UUID
  aggregateID : UUID
  nodeID      : UUID
  operationID : Option UUID
  kind        : OperationKind

def Job.identity (j : Job) : Job.Identity :=
  ⟨j.id, j.aggregateID, j.nodeID, j.operationID, j.kind⟩

structure OperationIdentity where
  id     : UUID
  peerID : Option UUID
  nodeID : UUID
  kind   : OperationKind

def operationIdentity (o : Operation) : OperationIdentity :=
  ⟨o.id, o.peerID, o.nodeID, o.kind⟩

namespace Auto

-- The job that a statement concludes, its new status, and the status that its operation is due.
def concludes : Auto → Option (UUID × JobStatus × OperationStatus)
  | complete id  => some (id, .applied, .applied)
  | fail id _ r  =>
    some (id, if r then .failedRetryable else .failedTerminal, if r then .retrying else .failed)
  | _            => none

-- The operation that a statement marks, and its new status.
def marks : Auto → Option (UUID × OperationStatus)
  | opMarkApplied id _      => some (id, .applied)
  | opMarkFailed id _ _ r _ => some (id, if r then .retrying else .failed)
  | _                       => none

theorem identities {s : Auto} {db : DB} {now : Time} {x : Pick} :
    (s.eval db now x).2.outbox.map Job.identity = db.outbox.map Job.identity ∧
    (s.eval db now x).2.operations.map operationIdentity = db.operations.map operationIdentity := by
  cases s
  case claimNext =>
    rw [eval]
    split
    · exact ⟨rfl, rfl⟩
    · exact ⟨map_updateJob fun _ => rfl, rfl⟩
  case complete      => exact ⟨map_updateJob fun _ => rfl, rfl⟩
  case fail          => exact ⟨map_updateJob fun _ => rfl, rfl⟩
  case opMarkApplied => exact ⟨rfl, map_updateOperation fun _ => rfl⟩
  case opMarkFailed  => exact ⟨rfl, map_updateOperation fun _ => rfl⟩

end Auto
end Store

namespace ControlPlane

open Domain.Peer

variable {C : ControlPlane} {G : Guard} {w₀ w w' : World} {τ : List Ev} {pid q : Nat} {φ ψ : Local}
  {e : Eff} {r : Except Err e.Answer} {db db' : DB}

-- Everything that an effect does to the queue: to the jobs and operations in the database, and to the
-- job that its process works on.
inductive QueueStep (φ : Local) (w : World) : (e : Eff) → Except Err e.Answer → DB → Prop
  | rest {e : Eff} {r : Except Err e.Answer} :
    e ≠ .commit → (∀ s, e ≠ .auto s) → (φ.next e r).job = φ.job → (φ.next e r).due = φ.due →
    QueueStep φ w e r w.db
  | commit {a} : QueueStep φ w .commit (.ok a) (φ.view w.db)
  | uncommitted {x} : QueueStep φ w .commit (.error x) w.db
  | claim {lease x} {j : Job} :
    φ.due = none → Auto.next w.db.outbox w.now x = some j →
    QueueStep φ w (.auto (.claimNext lease)) (.ok (some (Auto.claimed j lease w.now)))
      (Auto.updateJob w.db j.id (Auto.claimed · lease w.now))
  | unclaimed {lease} : φ.due = none → QueueStep φ w (.auto (.claimNext lease)) (.ok none) w.db
  | conclude {s : Auto} {a : s.Answer} {j : Job} {js : JobStatus} {st : OperationStatus}
      (f : Job → Job) :
    s.concludes = some (j.id, js, st) → φ.job = some j →
    (js = .applied → ∃ rows, φ.listing = some (j.nodeID, rows) ∧ (φ.synced ∨ rows = [])) →
    (∀ i, (f i).status = js ∧ (f i).identity = i.identity) →
    φ.next (.auto s) (.ok a) = φ.concludes st →
    QueueStep φ w (.auto s) (.ok a) (Auto.updateJob w.db j.id f)
  | mark {s : Auto} {a : s.Answer} {j : Job} {id : UUID} {st : OperationStatus}
      (f : Operation → Operation) :
    s.marks = some (id, st) → φ.due = some (j, st) → j.operationID = some id →
    (∀ o, (f o).status = st ∧ operationIdentity (f o) = operationIdentity o) →
    φ.next (.auto s) (.ok a) = { φ with due := none } →
    QueueStep φ w (.auto s) (.ok a) (Auto.updateOperation w.db id f)
  | unclaimable {lease x} : QueueStep φ w (.auto (.claimNext lease)) (.error x) w.db
  | incomplete {id x} : QueueStep φ w (.auto (.complete id)) (.error x) w.db
  | unfailed {id msg retry x} {j : Job} :
    φ.job = some j → QueueStep φ w (.auto (.fail id msg retry)) (.error x) w.db
  | unmarked {s : Auto} {x} :
    s.marks.isSome → φ.next (.auto s) (.error x) = { φ with due := none } →
    QueueStep φ w (.auto s) (.error x) w.db

theorem queueStep_auto {s : Auto} {x : Auto.Pick} (h : AllowsAuto φ s) :
    QueueStep φ w (.auto s) (.ok (s.eval w.db w.now x).1) (s.eval w.db w.now x).2 := by
  cases s
  case claimNext lease =>
    rw [Auto.eval]
    split
    case _      => exact .unclaimed h
    case _ j hj => exact .claim h hj
  case complete id =>
    obtain ⟨j, rows, hj, rfl, hr⟩ := h
    exact .conclude _ rfl hj (fun _ => ⟨rows, hr⟩) (fun _ => ⟨rfl, rfl⟩) rfl
  case fail id msg retry =>
    obtain ⟨j, hj, rfl⟩ := h
    refine .conclude _ rfl hj (fun he => ?_) (fun _ => ⟨rfl, rfl⟩) rfl
    cases retry <;> cases he
  case opMarkApplied id t =>
    obtain ⟨j, hd, ho⟩ := h
    exact .mark _ rfl hd ho (fun _ => ⟨rfl, rfl⟩) rfl
  case opMarkFailed id code msg retry t =>
    obtain ⟨j, hd, ho⟩ := h
    exact .mark _ rfl hd ho (fun _ => ⟨rfl, rfl⟩) rfl

theorem queueStep_failed {s : Auto} {x : Err} (h : AllowsAuto φ s) :
    QueueStep φ w (.auto s) (.error x) w.db := by
  cases s
  case claimNext => exact .unclaimable
  case complete  => exact .incomplete
  case fail      =>
    obtain ⟨j, hj, _⟩ := h
    exact .unfailed hj
  case opMarkApplied => exact .unmarked rfl rfl
  case opMarkFailed  => exact .unmarked rfl rfl

theorem ActStep.queue (h : ActStep C G w₀ τ w pid φ e r w') : QueueStep φ w e r w'.db := by
  have ha := h.allowed
  have hc := h.change
  generalize w'.db = db' at hc
  cases hc
  case query q _ _        => cases q <;> exact .rest (by simp) (by simp) rfl rfl
  case stmt s _ _ _ _ _ _ => cases s <;> exact .rest (by simp) (by simp) rfl rfl
  case commit             => exact .commit
  case auto s x _ _ hs => exact queueStep_auto hs
  case aside hr =>
    cases hr
    case failed x =>
      cases e
      case query q => cases q <;> exact .rest (by simp) (by simp) rfl rfl
      case stmt s  => cases s <;> exact .rest (by simp) (by simp) rfl rfl
      case commit  => exact .uncommitted
      case auto s  => exact queueStep_failed ha.2.2
      all_goals exact .rest (by simp) (by simp) rfl rfl
    case silent a hs => cases e <;> first | exact hs.elim | exact .rest (by simp) (by simp) rfl rfl
    all_goals exact .rest (by simp) (by simp) rfl rfl

-- The rows of a request among those that a process commits.
theorem Effect.requested {ws : List Write} (h : Effect C φ ws) :
    (operationsOf ws = [] ∧ jobsOf ws = [] ∧ ¬ φ.kind.IsRequest) ∨
    ∃ tenantID key hash kind p o j a r, Requested tenantID key hash kind p o j a r ∧
      operationsOf ws = [o] ∧ jobsOf ws = [j] ∧ peersOf ws = [p] ∧
      (kind = .revokePeer → p.state = .revoked) := by
  cases h
  case create hr _ => exact .inr ⟨_, _, _, _, _, _, _, _, _, hr, rfl, rfl, rfl, nofun⟩
  case revoke hs hr => exact .inr ⟨_, _, _, _, _, _, _, _, _, hr, rfl, rfl, rfl, fun _ => hs⟩
  case work hk hw =>
    refine .inl ⟨List.filterMap_eq_nil_iff.mpr ?_, List.filterMap_eq_nil_iff.mpr ?_,
      φ.kind.not_isRequest hk⟩
    all_goals
      intro x hx
      rcases hw x hx with ⟨_, rfl⟩ | ⟨_, rfl⟩ <;> rfl
  case provision hk _ _ _ => exact .inl ⟨rfl, rfl, by rw [hk]; exact Bool.false_ne_true⟩
  case allocate hk        => exact .inl ⟨rfl, rfl, by rw [hk]; exact Bool.false_ne_true⟩
  case markRevoked hk     => exact .inl ⟨rfl, rfl, by rw [hk]; exact Bool.false_ne_true⟩

-- Jobs, operations and peers belong together.
structure Paired (db : DB) : Prop where
  operation : ∀ j ∈ db.outbox, ∀ i ∈ j.operationID, ∃ o ∈ db.operations,
    operationIdentity o = ⟨i, some j.aggregateID, j.nodeID, j.kind⟩
  job       : ∀ o ∈ db.operations, ∃ j ∈ db.outbox, j.operationID = some o.id
  single    : ∀ i ∈ db.outbox, ∀ j ∈ db.outbox, ∀ o, i.operationID = some o →
    j.operationID = some o → i.id = j.id
  peer      : ∀ j ∈ db.outbox, ∃ p ∈ db.peers, p.id = j.aggregateID ∧ p.nodeID = j.nodeID ∧
    (j.kind = .revokePeer → p.state = .revoked)

theorem exists_of_map_eq {α β : Type} {f : α → β} {l l' : List α} (h : l'.map f = l.map f) {x : α}
    (hx : x ∈ l') : ∃ y ∈ l, f y = f x :=
  List.mem_map.mp (h ▸ List.mem_map_of_mem hx)

theorem Paired.congr (h : Paired db) (hj : db'.outbox.map Job.identity = db.outbox.map Job.identity)
    (ho : db'.operations.map operationIdentity = db.operations.map operationIdentity)
    (hp : db'.peers = db.peers) : Paired db' where
  operation j hm i hi := by
    obtain ⟨j', hm', he⟩ := exists_of_map_eq hj hm
    simp only [Job.identity, Job.Identity.mk.injEq] at he
    obtain ⟨_, ha, hn, hop, hk⟩ := he
    obtain ⟨o, hmo, heo⟩ := h.operation j' hm' i (hop ▸ hi)
    obtain ⟨o', hmo', heo'⟩ := exists_of_map_eq ho.symm hmo
    exact ⟨o', hmo', by rw [heo', heo, ha, hn, hk]⟩
  job o hm := by
    obtain ⟨o', hm', he⟩ := exists_of_map_eq ho hm
    obtain ⟨j, hmj, hj'⟩ := h.job o' hm'
    obtain ⟨j', hmj', he'⟩ := exists_of_map_eq hj.symm hmj
    have hop : j'.operationID = j.operationID := congrArg Job.Identity.operationID he'
    have hid : o'.id = o.id := congrArg OperationIdentity.id he
    exact ⟨j', hmj', by rw [hop, hj', hid]⟩
  single i hi j hj' o hio hjo := by
    obtain ⟨i', hi', he⟩ := exists_of_map_eq hj hi
    obtain ⟨j', hj', he'⟩ := exists_of_map_eq hj hj'
    simp only [Job.identity, Job.Identity.mk.injEq] at he he'
    rw [← he.1, ← he'.1]
    exact h.single i' hi' j' hj' o (he.2.2.2.1.trans hio) (he'.2.2.2.1.trans hjo)
  peer j hm := by
    obtain ⟨j', hm', he⟩ := exists_of_map_eq hj hm
    simp only [Job.identity, Job.Identity.mk.injEq] at he
    obtain ⟨p, hmp, hid, hn, hk⟩ := h.peer j' hm'
    exact ⟨p, hp ▸ hmp, hid.trans he.2.1, hn.trans he.2.2.1, fun hr => hk (he.2.2.2.2.trans hr)⟩

-- The rows of a request are added together.
theorem Paired.request {tenantID : UUID} {key hash : String} {kind : OperationKind} {p : Peer}
    {o : Operation} {j : Job} {a : AuditEvent} {r : Record} (h : Paired db)
    (hr : Requested tenantID key hash kind p o j a r) (hs : kind = .revokePeer → p.state = .revoked)
    (hj : db'.outbox = db.outbox ++ [j]) (ho : db'.operations = db.operations ++ [o])
    (hnew : ∀ o' ∈ db.operations, o'.id ≠ o.id) (hp : p ∈ db'.peers)
    (hg : ∀ p ∈ db.peers, ∃ p' ∈ db'.peers, Grows p p') : Paired db' := by
  obtain ⟨oid, now, rfl⟩ := hr.op
  obtain ⟨payload, jid, now', rfl⟩ := hr.job
  -- No job refers to the new operation yet.
  have hfresh (i) (hi : i ∈ db.outbox) : i.operationID ≠ some oid := by
    intro he
    obtain ⟨o', ho', hid⟩ := h.operation i hi oid he
    exact hnew o' ho' (congrArg OperationIdentity.id hid)
  constructor
  case operation =>
    intro i hi x hx
    rw [hj, List.mem_append, List.mem_singleton] at hi
    rw [ho]
    rcases hi with hi | rfl
    · obtain ⟨o', ho', he⟩ := h.operation i hi x hx
      exact ⟨o', List.mem_append_left _ ho', he⟩
    · refine ⟨_, List.mem_append_right _ (List.mem_singleton_self _), ?_⟩
      cases hx
      rfl
  case job =>
    intro o' hm
    rw [ho, List.mem_append, List.mem_singleton] at hm
    rw [hj]
    rcases hm with hm | rfl
    · obtain ⟨j', hj', he⟩ := h.job o' hm
      exact ⟨j', List.mem_append_left _ hj', he⟩
    · exact ⟨_, List.mem_append_right _ (List.mem_singleton_self _), rfl⟩
  case single =>
    intro i hi i' hi' x hx hx'
    rw [hj, List.mem_append, List.mem_singleton] at hi hi'
    rcases hi with hi | rfl <;> rcases hi' with hi' | rfl
    · exact h.single i hi i' hi' x hx hx'
    · cases hx'
      exact absurd hx (hfresh i hi)
    · cases hx
      exact absurd hx' (hfresh i' hi')
    · rfl
  case peer =>
    intro i hi
    rw [hj, List.mem_append, List.mem_singleton] at hi
    rcases hi with hi | rfl
    · obtain ⟨q, hq, hid, hn, hk⟩ := h.peer i hi
      obtain ⟨q', hq', g⟩ := hg q hq
      exact ⟨q', hq', g.id.symm.trans hid, g.nodeID.symm.trans hn, fun hk' => g.revoked (hk hk')⟩
    · exact ⟨p, hp, rfl, rfl, hs⟩

theorem paired_step (h : ActStep C G w₀ τ w pid φ e r w') (ha : w.db.peers.Pairwise Apart)
    (hl : PeerLocal w.db φ) (hn : (Table.operations.keys w.db ++ Table.operations.added φ).Nodup)
    (hp : Paired w.db) : Paired w'.db := by
  have hg (p) (hm : p ∈ w.db.peers) := grows_step h ha hl hm
  have hc := h.change
  generalize w'.db = db' at hc hg ⊢
  cases hc
  case auto s x _ _ _ =>
    exact hp.congr Auto.identities.1 Auto.identities.2 (by rw [Auto.eval_frame])
  case commit t ht he =>
    rcases he.requested with ⟨ho, hj, _⟩ | ⟨_, _, _, _, p, o, j, _, _, hr, ho, hj, hps, hs⟩
    · have hout : (φ.view w.db).outbox = w.db.outbox := by
        rw [Local.view, replay_outbox, hj, List.append_nil]
      have hops : (φ.view w.db).operations = w.db.operations := by
        rw [Local.view, replay_operations, ho, List.append_nil]
      refine ⟨?_, ?_, ?_, fun i hi => ?_⟩
      · rw [hout, hops]
        exact hp.operation
      · rw [hout, hops]
        exact hp.job
      · rw [hout]
        exact hp.single
      · rw [hout] at hi
        obtain ⟨q, hq, hid, hn, hk⟩ := hp.peer i hi
        obtain ⟨q', hq', g⟩ := hg q hq
        exact ⟨q', hq', g.id.symm.trans hid, g.nodeID.symm.trans hn, fun hk' => g.revoked (hk hk')⟩
    · refine hp.request hr hs ?_ ?_ (fun o' ho' hid => ?_) ?_ hg
      · rw [Local.view, replay_outbox, hj]
      · rw [Local.view, replay_operations, ho]
      · refine (List.nodup_append.mp hn).2.2 o'.id (List.mem_map_of_mem ho') o.id ?_ hid
        have : Table.operations.added φ = (operationsOf φ.writes).map Operation.id := rfl
        simp [this, ho]
      · rw [Local.view, replay_peers, hps]
        exact mem_upsert_self
  all_goals exact hp

theorem paired_of_trace (h : C.Trace G w₀ τ w) (hq : Quiet w₀) (h₀ : w₀.db.peers.Pairwise Apart)
    (hn : (Table.operations.keys w₀.db).Nodup) (hp : Paired w₀.db) : Paired w.db := by
  refine trace_induction (I := fun _ w => Paired w.db) hq h hp (fun hs hp => hs.db ▸ hp)
    (fun {τ w pid φ e r w'} hs hp => ?_)
  obtain ⟨ha, hl⟩ := peers_of_trace hs.trace hq h₀
  exact paired_step hs ha (hl _ _ hs.running)
    ((Table.nodup_of_trace hs.trace hq hn).2 _ _ hs.running) hp

-- The jobs that a process works on are rows of the outbox.
def JobLocal (db : DB) (φ : Local) : Prop :=
  ∀ j, φ.job = some j ∨ φ.due.map Prod.fst = some j → ∃ row ∈ db.outbox, row.identity = j.identity

-- No job is lost.
theorem jobs_step (h : ActStep C G w₀ τ w pid φ e r w') {j : Job} (hj : j ∈ w.db.outbox) :
    ∃ j' ∈ w'.db.outbox, j'.identity = j.identity := by
  have hc := h.change
  generalize w'.db = db' at hc ⊢
  cases hc
  case auto s x _ _ _ => exact exists_of_map_eq Auto.identities.1.symm hj
  case commit =>
    rw [Local.view, replay_outbox]
    exact ⟨j, List.mem_append_left _ hj, rfl⟩
  all_goals exact ⟨j, hj, rfl⟩

theorem Local.of_due_concludes {st st' : OperationStatus} {j : Job}
    (h : (φ.concludes st).due = some (j, st')) : φ.job = some j ∧ st' = st := by
  simp only [concludes, Option.map_eq_some_iff, Option.filter_eq_some_iff, Prod.mk.injEq] at h
  obtain ⟨i, ⟨hi, _⟩, rfl, rfl⟩ := h
  exact ⟨hi, rfl⟩

theorem Local.job_of_due_concludes {st : OperationStatus} {j : Job}
    (h : (φ.concludes st).due.map Prod.fst = some j) : φ.job = some j := by
  obtain ⟨⟨i, st'⟩, hd, rfl⟩ := Option.map_eq_some_iff.mp h
  exact (of_due_concludes hd).1

theorem jobLocal_own (h : ActStep C G w₀ τ w pid φ e r w') (hl : JobLocal w.db φ) :
    JobLocal w'.db (φ.next e r) := by
  -- A job that the process has worked on before.
  have old {j : Job} (hj : φ.job = some j ∨ φ.due.map Prod.fst = some j) :
      ∃ row ∈ w'.db.outbox, row.identity = j.identity := by
    obtain ⟨row, hm, he⟩ := hl j hj
    obtain ⟨row', hm', he'⟩ := jobs_step h hm
    exact ⟨row', hm', he'.trans he⟩
  have hqs := h.queue
  intro j hj
  generalize hdb : w'.db = db' at hqs
  cases hqs
  case rest hj' hd => exact hdb ▸ old (by rwa [hj', hd] at hj)
  case commit      => exact hdb ▸ old hj
  case uncommitted => exact hdb ▸ old hj
  case unclaimable => exact hdb ▸ old hj
  case unclaimed hd =>
    rcases hj with hj | hj
    · cases hj
    · exact hdb ▸ old (.inr hj)
  case claim j₀ hd hnext =>
    rcases hj with hj | hj
    · obtain rfl := Option.some.inj hj
      refine ⟨_, Auto.mem_updateJob _ _ (Auto.next_mem hnext).1, ?_⟩
      rw [if_pos rfl]
    · exact hdb ▸ old (.inr hj)
  case conclude j₀ js st f hs hj₀ _ _ hn =>
    rw [hn] at hj
    rcases hj with hj | hj
    · cases hj
    · exact hdb ▸ old (.inl (Local.job_of_due_concludes hj))
  case mark hn =>
    rw [hn] at hj
    rcases hj with hj | hj
    · exact hdb ▸ old (.inl hj)
    · cases hj
  case incomplete =>
    rcases hj with hj | hj
    · cases hj
    · exact hdb ▸ old (.inr hj)
  case unfailed =>
    rcases hj with hj | hj
    · cases hj
    · exact hdb ▸ old (.inl (Local.job_of_due_concludes hj))
  case unmarked hn =>
    rw [hn] at hj
    rcases hj with hj | hj
    · exact hdb ▸ old (.inl hj)
    · cases hj

theorem jobs_of_trace (h : C.Trace G w₀ τ w) (hq : Quiet w₀) :
    ∀ q ψ, C.locals τ q = some ψ → JobLocal w.db ψ := by
  refine (trace_invariant (Q := fun _ _ => True) (P := fun _ w _ ψ => JobLocal w.db ψ) hq h trivial
    ?idle ?new ?act).2
  case idle => exact fun hi => ⟨id, fun q ψ hl => hi.db ▸ hl⟩
  case new  => exact fun _ j hj => by simp at hj
  case act  =>
    intro τ w pid φ e r w' hs _ hl
    refine ⟨trivial, jobLocal_own hs (hl pid φ hs.running), fun q ψ _ hψ j hj => ?_⟩
    obtain ⟨row, hm, he⟩ := hl q ψ hψ j hj
    obtain ⟨row', hm', he'⟩ := jobs_step hs hm
    exact ⟨row', hm', he'.trans he⟩

-- Only workers have jobs, and a worker claims the next one after it has marked the last one's
-- operation.
structure JobTurn (φ : Local) : Prop where
  job  : φ.job ≠ none → φ.kind.IsWorker ∧ φ.due = none
  due  : φ.due ≠ none → φ.kind.IsWorker

theorem jobTurn_own (h : ActStep C G w₀ τ w pid φ e r w') (hl : JobTurn φ) :
    JobTurn (φ.next e r) := by
  have auto {s : Auto} {r} (h : ActStep C G w₀ τ w pid φ (.auto s) r w')
      (hd : (φ.next (.auto s) r).job = none ∨ (φ.next (.auto s) r).due = none) :
      JobTurn (φ.next (.auto s) r) :=
    have hk : (φ.next (.auto s) r).kind.IsWorker := Local.kind_next.symm ▸ h.allowed.2.1
    ⟨fun hj => ⟨hk, hd.resolve_left hj⟩, fun _ => hk⟩
  have hqs := h.queue
  generalize w'.db = db' at hqs
  cases hqs
  case rest hj hd =>
    refine ⟨fun hn => ?_, fun hn => ?_⟩
    · rw [hj] at hn
      rw [Local.kind_next, hd]
      exact hl.job hn
    · rw [hd] at hn
      rw [Local.kind_next]
      exact hl.due hn
  case commit            => exact ⟨hl.job, hl.due⟩
  case uncommitted       => exact ⟨hl.job, hl.due⟩
  case claim hd _        => exact auto h (.inr hd)
  case unclaimed hd      => exact auto h (.inr hd)
  case conclude hn       => exact auto h (.inl (by rw [hn]; rfl))
  case mark hn           => exact auto h (.inr (by rw [hn]))
  case unclaimable       => exact ⟨hl.job, hl.due⟩
  case incomplete        => exact auto h (.inl rfl)
  case unfailed          => exact auto h (.inl rfl)
  case unmarked hn       => exact auto h (.inr (by rw [hn]))

theorem jobTurn_of_trace (h : C.Trace G w₀ τ w) (hq : Quiet w₀) :
    ∀ q ψ, C.locals τ q = some ψ → JobTurn ψ := by
  refine (trace_invariant (Q := fun _ _ => True) (P := fun _ _ _ ψ => JobTurn ψ) hq h trivial
    ?idle ?new ?act).2
  case idle => exact fun _ => ⟨id, fun _ _ => id⟩
  case new  => exact fun _ => ⟨fun h => absurd rfl h, fun h => absurd rfl h⟩
  case act  =>
    intro τ w pid φ e r w' hs _ hl
    exact ⟨trivial, jobTurn_own hs (hl pid φ hs.running), fun q ψ _ hψ => hl q ψ hψ⟩

-- What is asked of the database at the start of a run.
structure Sound (db : DB) : Prop where
  peers      : db.peers.Pairwise Apart
  operations : (Table.operations.keys db).Nodup
  outbox     : (Table.outbox.keys db).Nodup
  paired     : Paired db

theorem sound_of_trace (h : C.Trace G w₀ τ w) (hq : Quiet w₀) (h₀ : Sound w₀.db) : Sound w.db where
  peers      := (peers_of_trace h hq h₀.peers).1
  operations := (Table.nodup_of_trace h hq h₀.operations).1
  outbox     := (Table.nodup_of_trace h hq h₀.outbox).1
  paired     := paired_of_trace h hq h₀.peers h₀.operations h₀.paired

theorem Sample.sound : Sound Sample.world.db where
  peers      := .nil
  operations := List.nodup_nil
  outbox     := List.nodup_nil
  paired     :=
    { operation := fun _ h => absurd h List.not_mem_nil
      job       := fun _ h => absurd h List.not_mem_nil
      single    := fun _ h => absurd h List.not_mem_nil
      peer      := fun _ h => absurd h List.not_mem_nil }

end ControlPlane
