import AwgRest.Invariant.OneWorker

open Domain Store

-- Jobs and their operations are written by separate statements. How far they agree.
namespace ControlPlane

variable {C : ControlPlane} {G : Guard} {w₀ w w' : World} {τ : List Ev} {pid q : Nat} {φ ψ : Local}
  {e : Eff} {r : Except Err e.Answer} {ev : Ev} {db db' : DB}

-- The job that a process is processing, and the job whose outcome it has written, for as long as the
-- operation has to be marked.
structure Work where
  job : Option Job := none
  due : Option Job := none

namespace Work

def concludes (k : Work) : Work where
  due := k.job.filter (·.operationID.isSome)

def next (k : Work) : (e : Eff) → Except Err e.Answer → Work
  | .auto (.claimNext _),      .ok j    => { k with job := j }
  | .auto (.complete _),       .ok _    => k.concludes
  | .auto (.complete _),       .error _ => { k with job := none }
  | .auto (.fail ..),          _        => k.concludes
  | .auto (.opMarkApplied ..), _        => { k with due := none }
  | .auto (.opMarkFailed ..),  _        => { k with due := none }
  | _,                         _        => k

def Processes (k : Work) (id : UUID) : Prop :=
  (∃ j ∈ k.job, j.id = id) ∨ ∃ j ∈ k.due, j.id = id

end Work

def works (τ : List Ev) : Nat → Option Work :=
  System.observe (fun _ => {}) Work.next τ

def Local.work (φ : Local) : Work :=
  ⟨φ.job, φ.due.map Prod.fst⟩

theorem Local.work_concludes {st : OperationStatus} : (φ.concludes st).work = φ.work.concludes := by
  simp only [work, concludes, Work.concludes, Option.map_map]
  congr
  exact Option.map_id'

theorem Local.work_next : (φ.next e r).work = φ.work.next e r := by
  cases e
  case query q => cases q <;> cases r <;> rfl
  case stmt s  => cases s <;> cases r <;> rfl
  case auto s  =>
    cases s
    case complete => cases r <;> first | rfl | exact work_concludes
    case fail     => cases r <;> exact work_concludes
    all_goals cases r <;> rfl
  all_goals cases r <;> rfl

theorem works_eq (C : ControlPlane) (τ : List Ev) (pid : Nat) :
    works τ pid = (C.locals τ pid).map Local.work := by
  have hn (φ : Local) (e : Eff) (r : Except Err e.Answer) :
      (C.discipline.next φ e r).work = φ.work.next e r := Local.work_next
  have hi (k : Kind) : (C.discipline.init k).work = {} := rfl
  exact System.observe_map Local.work hi hn τ pid

def crashed : Ev → Option Nat
  | .crash pid => some pid
  | _          => none

-- The statement that marks an operation has failed.
def lostMark : Ev → Bool
  | .act _ (.auto s) (.error _) => s.marks.isSome
  | _                           => false

-- Between the statement that concludes a job and the one that marks its operation the worker is not
-- stopped, and the latter does not fail.
def settles : Guard := fun τ _ ev =>
  (∀ pid ∈ crashed ev, ∀ k ∈ works τ pid, k.due = none) ∧ lostMark ev = false

instance : Decidable (settles τ w ev) :=
  inferInstanceAs (Decidable (_ ∧ _))

-- The status that the operation of a job has to have.
def wanted : JobStatus → Option OperationStatus
  | .applied         => some .applied
  | .failedTerminal  => some .failed
  | .failedRetryable => some .retrying
  | _                => none

theorem wanted_concludes {s : Auto} {id : UUID} {js : JobStatus} {st : OperationStatus}
    (h : s.concludes = some (id, js, st)) : wanted js = some st := by
  cases s
  case complete    => cases h; rfl
  case fail _ _ r  => cases r <;> cases h <;> rfl
  all_goals cases h

-- An operation has the status that is wanted, or a worker is about to mark it.
def Agreed (L : Nat → Option Local) (db : DB) : Prop :=
  ∀ j ∈ db.outbox, ∀ o ∈ db.operations, j.operationID = some o.id → ∀ st ∈ wanted j.status,
    o.status = st ∨ ∃ q ψ i, L q = some ψ ∧ ψ.due = some (i, st) ∧ i.id = j.id

-- What the one worker knows of the rows of its jobs.
structure Attended (db : DB) (φ : Local) : Prop where
  job : ∀ {i}, φ.job = some i → ∀ j ∈ db.outbox, j.id = i.id → j.status = .leased
  due : ∀ {i st}, φ.due = some (i, st) → ∀ j ∈ db.outbox, j.id = i.id →
    ∀ st' ∈ wanted j.status, st' = st

theorem Attended.of_rows (h : Attended db φ)
    (hr : ∀ j ∈ db'.outbox, ∀ i, φ.job = some i ∨ φ.due.map Prod.fst = some i → j.id = i.id →
      j ∈ db.outbox) : Attended db' φ where
  job hi j hj he := h.job hi j (hr j hj _ (.inl hi) he) he
  due hi j hj he := h.due hi j (hr j hj _ (.inr (by rw [hi]; rfl)) he) he

-- A request adds a job of its own.
theorem mem_outbox_of_view (hn : (Table.outbox.keys db ++ Table.outbox.added φ).Nodup) {i j : Job}
    (hi : i ∈ db.outbox) (hj : j ∈ (φ.view db).outbox) (he : j.id = i.id) : j ∈ db.outbox := by
  rw [Local.view, replay_outbox, List.mem_append] at hj
  refine hj.resolve_right fun hj => ?_
  exact (List.nodup_append.mp hn).2.2 i.id (List.mem_map_of_mem hi) j.id (List.mem_map_of_mem hj)
    he.symm

-- A row that a statement has written.
theorem of_mem_updateJob {id : UUID} {f : Job → Job} {j : Job}
    (h : j ∈ (Auto.updateJob db id f).outbox) (hf : ∀ i, (f i).id = i.id) :
    (j.id = id ∧ ∃ i ∈ db.outbox, i.id = id ∧ j = f i) ∨ j.id ≠ id ∧ j ∈ db.outbox := by
  obtain ⟨i, hi, rfl⟩ := List.mem_map.mp h
  by_cases he : i.id = id
  · rw [if_pos he]
    exact .inl ⟨(hf i).trans he, i, hi, he, rfl⟩
  · rw [if_neg he]
    exact .inr ⟨he, hi⟩

theorem Attended.of_job (hd : φ.due = none)
    (hj : ∀ {i}, φ.job = some i → ∀ j ∈ db.outbox, j.id = i.id → j.status = .leased) :
    Attended db φ :=
  ⟨hj, fun hi => by simp [hd] at hi⟩

theorem Attended.of_due (hj : φ.job = none)
    (hd : ∀ {i st}, φ.due = some (i, st) → ∀ j ∈ db.outbox, j.id = i.id →
      ∀ st' ∈ wanted j.status, st' = st) : Attended db φ :=
  ⟨fun hi => by simp [hj] at hi, hd⟩

theorem attended_own (h : ActStep C G w₀ τ w pid φ e r w')
    (hn : (Table.outbox.keys w.db ++ Table.outbox.added φ).Nodup) (hj : JobLocal w.db φ)
    (ha : Attended w.db φ) : Attended w'.db (φ.next e r) := by
  have hqs := h.queue
  generalize w'.db = db' at hqs ⊢
  cases hqs
  case rest hj' hd => exact ⟨hj'.symm ▸ ha.job, hd.symm ▸ ha.due⟩
  case commit =>
    have : Attended (φ.view w.db) φ := by
      refine ha.of_rows fun j hm i hi he => ?_
      obtain ⟨row, hrow, hid⟩ := hj i hi
      exact mem_outbox_of_view hn hrow hm (he.trans (congrArg Job.Identity.id hid).symm)
    exact ⟨this.job, this.due⟩
  case uncommitted => exact ⟨ha.job, ha.due⟩
  case claim i hd hnext =>
    refine .of_job hd fun hi j hm he => ?_
    obtain rfl := Option.some.inj hi
    rcases of_mem_updateJob hm (fun _ => rfl) with ⟨_, i', _, _, rfl⟩ | ⟨hne, _⟩
    · rfl
    · exact absurd he hne
  case unclaimed hd => exact .of_job hd fun hi => by cases hi
  case conclude i js st f hs hi _ hf hnx =>
    rw [hnx]
    refine .of_due rfl fun {i' st'} hd j hm he => ?_
    obtain ⟨hi', rfl⟩ := Local.of_due_concludes hd
    obtain rfl := Option.some.inj (hi.symm.trans hi')
    have hid (i) : (f i).id = i.id := congrArg Job.Identity.id (hf i).2
    rcases of_mem_updateJob hm hid with ⟨_, i', _, _, rfl⟩ | ⟨hne, _⟩
    · rw [(hf i').1, wanted_concludes hs]
      exact fun st' h => (Option.some.inj h).symm
    · exact absurd he hne
  case mark hnx =>
    rw [hnx]
    exact .of_job rfl ha.job
  case unclaimable => exact ⟨ha.job, ha.due⟩
  case incomplete  => exact .of_due rfl ha.due
  case unfailed id msg retry x i hi =>
    refine .of_due rfl fun {i' st'} hd j hm he => ?_
    obtain ⟨hi', _⟩ := Local.of_due_concludes hd
    rw [ha.job hi' j hm he]
    simp [wanted]
  case unmarked hnx =>
    rw [hnx]
    exact .of_job rfl ha.job

theorem attended_of_trace (hG : ∀ {τ w ev}, G τ w ev → oneWorker τ w ev) (h : C.Trace G w₀ τ w)
    (hq : Quiet w₀) (h₀ : (Table.outbox.keys w₀.db).Nodup) :
    ∀ q ψ, C.locals τ q = some ψ → Attended w.db ψ := by
  refine (trace_invariant (Q := fun _ _ => True) (P := fun _ w _ ψ => Attended w.db ψ) hq h trivial
    ?idle ?new ?act).2
  case idle => exact fun hi => ⟨id, fun q ψ ha => hi.db ▸ ha⟩
  case new  => exact fun _ => .of_job rfl fun hi => by cases hi
  case act  =>
    intro τ w pid φ e r w' hs _ hl
    obtain ⟨_, hn⟩ := Table.nodup_of_trace hs.trace hq h₀
    have hj := jobs_of_trace hs.trace hq
    have ht := jobTurn_of_trace hs.trace hq
    refine ⟨trivial, attended_own hs (hn _ _ hs.running) (hj _ _ hs.running) (hl pid φ hs.running),
      fun q ψ hne hψ => ?_⟩
    by_cases hk : ψ.kind.IsWorker
    case neg =>
      refine ⟨fun hi => absurd ((ht q ψ hψ).job ?_).1 hk, fun hi => absurd ((ht q ψ hψ).due ?_) hk⟩
      · simp [hi]
      · simp [hi]
    case pos =>
      -- There is no other worker, so only requests can have changed the outbox.
      have hw : ¬ φ.kind.IsWorker := fun hk' => hne (sole_worker hG hs.trace hq hs.running hk' hψ hk)
      refine (hl q ψ hψ).of_rows fun j hm i hi he => ?_
      obtain ⟨row, hrow, hid⟩ := hj q ψ hψ i hi
      have he : j.id = row.id := he.trans (congrArg Job.Identity.id hid).symm
      have hc := hs.change
      generalize w'.db = db' at hc hm
      cases hc
      case auto hw' _ => exact absurd hw' hw
      case commit     => exact mem_outbox_of_view (hn _ _ hs.running) hrow hm he
      all_goals exact hm

-- The row of a job that a process works on.
theorem row_of_job (hs : Sound db) (hl : JobLocal db φ) {i j : Job}
    (hi : φ.job = some i ∨ φ.due.map Prod.fst = some i) (hj : j ∈ db.outbox) (he : j.id = i.id) :
    j.identity = i.identity := by
  obtain ⟨row, hm, hid⟩ := hl i hi
  have hr : row.id = i.id := congrArg Job.Identity.id hid
  rw [← hid, Table.eq_of_key (T := Table.outbox) hs.outbox hj hm (he.trans hr.symm)]

theorem agreed_step (h : ActStep C G w₀ τ w pid φ e r w') (hs : Sound w.db)
    (hn : (Table.operations.keys w.db ++ Table.operations.added φ).Nodup) (ht : JobTurn φ)
    (hj : JobLocal w.db φ) (ha : Attended w.db φ) (hg : lostMark (.act pid e r) = false)
    (sole : φ.kind.IsWorker → ∀ q ψ, C.locals τ q = some ψ → ψ.due ≠ none → q = pid)
    (hA : Agreed (C.locals τ) w.db) : Agreed (C.locals (τ ++ [.act pid e r])) w'.db := by
  rw [locals_act h.running]
  -- A worker that was about to mark the operation still is.
  have keep {j : Job} {st : OperationStatus} (hd : (φ.next e r).due = φ.due ∨ φ.due = none) :
      (∃ q ψ i, C.locals τ q = some ψ ∧ ψ.due = some (i, st) ∧ i.id = j.id) →
      ∃ q ψ i, Function.update (C.locals τ) pid (some (φ.next e r)) q = some ψ ∧
        ψ.due = some (i, st) ∧ i.id = j.id := by
    rintro ⟨q, ψ, i, hψ, hi, he⟩
    by_cases hp : q = pid
    · subst hp
      obtain rfl := Option.some.inj (h.running.symm.trans hψ)
      rcases hd with hd | hd
      · exact ⟨q, _, i, Function.update_self .., hd.trans hi, he⟩
      · simp [hd] at hi
    · exact ⟨q, ψ, i, by rwa [Function.update_of_ne hp], hi, he⟩
  have hqs := h.queue
  generalize hdb : w'.db = db' at hqs ⊢
  intro j hm o ho hop st hst
  cases hqs
  case rest hd      => exact (hA j hm o ho hop st hst).imp_right (keep (.inl hd))
  case uncommitted  => exact (hA j hm o ho hop st hst).imp_right (keep (.inl rfl))
  case unclaimed hd => exact (hA j hm o ho hop st hst).imp_right (keep (.inr hd))
  case unclaimable  => exact (hA j hm o ho hop st hst).imp_right (keep (.inl rfl))
  case incomplete   => exact (hA j hm o ho hop st hst).imp_right (keep (.inl rfl))
  case unfailed hi  =>
    have hd := (ht.job (by simp [hi])).2
    exact (hA j hm o ho hop st hst).imp_right (keep (.inr hd))
  case unmarked s x hmk _ =>
    have : s.marks.isSome = false := hg
    simp [this] at hmk
  case commit =>
    have old (hm : j ∈ w.db.outbox) (ho : o ∈ w.db.operations) :=
      (hA j hm o ho hop st hst).imp_right (keep (.inl rfl))
    obtain ⟨t, htx, he⟩ := h.allowed
    rw [Local.view, replay_outbox, Local.writes_of_some htx, List.mem_append] at hm
    rw [Local.view, replay_operations, Local.writes_of_some htx, List.mem_append] at ho
    rcases he.requested with ⟨hno, hnj, _⟩ | ⟨_, _, _, _, p, o₀, j₀, _, _, hr, ho₀, hj₀, _⟩
    · rw [hnj, List.mem_nil_iff, or_false] at hm
      rw [hno, List.mem_nil_iff, or_false] at ho
      exact old hm ho
    · rw [hj₀, List.mem_singleton] at hm
      rw [ho₀, List.mem_singleton] at ho
      rcases hm with hm | rfl
      · rcases ho with ho | rfl
        · exact old hm ho
        · -- No job refers to the new operation yet.
          obtain ⟨o', ho', hid⟩ := hs.paired.operation j hm _ hop
          refine absurd (congrArg OperationIdentity.id hid) ((List.nodup_append.mp hn).2.2 o'.id
            (List.mem_map_of_mem ho') o.id ?_)
          have hadd : Table.operations.added φ = (operationsOf φ.writes).map Operation.id := rfl
          simp [hadd, Local.writes_of_some htx, ho₀]
      · obtain ⟨_, _, _, rfl⟩ := hr.job
        cases hst
  case claim i hd hnext =>
    rcases of_mem_updateJob hm (fun _ => rfl) with ⟨_, i', _, _, rfl⟩ | ⟨_, hm⟩
    · cases hst
    · exact (hA j hm o ho hop st hst).imp_right (keep (.inr hd))
  case conclude i js st' f hs' hi _ hf hnx =>
    have hd := (ht.job (by simp [hi])).2
    have hid (i) : (f i).id = i.id := congrArg Job.Identity.id (hf i).2
    rcases of_mem_updateJob hm hid with ⟨_, i', hm', he', rfl⟩ | ⟨_, hm⟩
    · rw [(hf i').1, wanted_concludes hs'] at hst
      obtain rfl := Option.some.inj hst
      have hio : i.operationID = some o.id := by
        rw [← hop]
        exact congrArg Job.Identity.operationID
          ((row_of_job hs hj (.inl hi) hm' he').symm.trans (hf i').2.symm)
      refine .inr ⟨pid, _, i, Function.update_self .., ?_, ((hid i').trans he').symm⟩
      rw [hnx, Local.concludes, hi]
      simp [Option.filter, hio]
    · exact (hA j hm o ho hop st hst).imp_right (keep (.inr hd))
  case mark i id st' f _ hd hio hf hnx =>
    have hw : φ.kind.IsWorker := ht.due (by simp [hd])
    obtain ⟨o₁, ho₁, rfl⟩ := List.mem_map.mp ho
    have hid (o) : (f o).id = o.id := congrArg OperationIdentity.id (hf o).2
    obtain ⟨row, hrow, hri⟩ := hj i (.inr (by simp [hd]))
    have hrid : row.id = i.id := congrArg Job.Identity.id hri
    have hro : row.operationID = some id := (congrArg Job.Identity.operationID hri).trans hio
    by_cases he : o₁.id = id
    · rw [if_pos he] at hop ⊢
      -- The job is the one that the worker has concluded.
      have hji : j.id = row.id := hs.paired.single j hm row hrow id (by rw [hop, hid, he]) hro
      exact .inl ((hf o₁).1.trans (ha.due hd j hm (hji.trans hrid) st hst).symm)
    · rw [if_neg he] at hop ⊢
      refine (hA j hm o₁ ho₁ hop st hst).imp_right ?_
      rintro ⟨q, ψ, i', hψ, hi', hei⟩
      obtain rfl := sole hw q ψ hψ (by simp [hi'])
      obtain rfl := Option.some.inj (h.running.symm.trans hψ)
      obtain rfl : i = i' := congrArg Prod.fst (Option.some.inj (hd.symm.trans hi'))
      have := congrArg Job.Identity.operationID (row_of_job hs hj (.inr (by simp [hd])) hm hei.symm)
      exact absurd (Option.some.inj (hop.symm.trans (this.trans hio))) he

theorem agreed_of_trace (hG : ∀ {τ w ev}, G τ w ev → oneWorker τ w ev ∧ settles τ w ev)
    (h : C.Trace G w₀ τ w) (hq : Quiet w₀) (h₀ : Sound w₀.db) (hA : Agreed (fun _ => none) w₀.db) :
    Agreed (C.locals τ) w.db := by
  have hone {τ w ev} (hg : G τ w ev) := (hG hg).1
  refine trace_induction (I := fun τ w => Agreed (C.locals τ) w.db) hq h hA
    (fun {τ w ev w'} hs hA => ?_) (fun {τ w pid φ e r w'} hs hA => ?_)
  · rw [hs.db]
    intro j hm o ho hop st hst
    refine (hA j hm o ho hop st hst).imp_right ?_
    rintro ⟨q, ψ, i, hψ, hi, he⟩
    -- A worker that ends has nothing left to mark.
    rcases hs.ended q ψ hψ with hψ' | ⟨b, rfl, hp⟩ | rfl
    · exact ⟨q, ψ, i, hψ', hi, he⟩
    · have hk := (jobTurn_of_trace hs.trace hq q ψ hψ).due (by simp [hi])
      simp [hp.2.2 hk] at hi
    · have hw : works τ q = some ψ.work := by rw [works_eq C, hψ]; rfl
      have hd := (hG hs.guard).2.1 q rfl _ hw
      simp [Local.work, hi] at hd
  · have hj := jobs_of_trace hs.trace hq
    have ht := jobTurn_of_trace hs.trace hq
    refine agreed_step hs (sound_of_trace hs.trace hq h₀)
      ((Table.nodup_of_trace hs.trace hq h₀.operations).2 _ _ hs.running) (ht _ _ hs.running)
      (hj _ _ hs.running) (attended_of_trace hone hs.trace hq h₀.outbox _ _ hs.running)
      (hG hs.guard).2.2 (fun hk q ψ hψ hd => ?_) hA
    exact sole_worker hone hs.trace hq hs.running hk hψ ((ht q ψ hψ).due hd)

-- If the worker is not interrupted between the two statements, then every job that is not being
-- processed has an operation that agrees with it, and every pending operation has a job that can
-- still finish it.
theorem settlement_agrees {c : Conf} (hq : Quiet w₀) (h₀ : Sound w₀.db)
    (hA : Agreed (fun _ => none) w₀.db)
    (h : C.Runs (fun τ w ev => oneWorker τ w ev ∧ settles τ w ev) w₀ τ c) :
    (∀ j ∈ c.world.db.outbox, (∀ pid, ∀ k ∈ works τ pid, ¬ k.Processes j.id) →
      ∀ o ∈ c.world.db.operations, j.operationID = some o.id →
        ∀ st ∈ wanted j.status, o.status = st) ∧
    ∀ o ∈ c.world.db.operations, o.status = .pending → ∃ j ∈ c.world.db.outbox,
      j.operationID = some o.id ∧ (¬ Final j.status ∨ ∃ pid, ∃ k ∈ works τ pid, k.Processes j.id) := by
  have hA := agreed_of_trace (fun hg => hg) h.trace hq h₀ hA
  -- A worker that is about to mark the operation is still processing the job.
  have busy {q : Nat} {ψ : Local} {i j : Job} {st : OperationStatus} (hψ : C.locals τ q = some ψ)
      (hi : ψ.due = some (i, st)) (he : i.id = j.id) : ∃ pid, ∃ k ∈ works τ pid, k.Processes j.id := by
    refine ⟨q, ψ.work, ?_, .inr ⟨i, ?_, he⟩⟩
    · rw [works_eq C, hψ]
      rfl
    · simp [Local.work, hi]
  constructor
  · intro j hm hfree o ho hop st hst
    refine (hA j hm o ho hop st hst).resolve_right ?_
    rintro ⟨q, ψ, i, hψ, hi, he⟩
    obtain ⟨pid, k, hk, hp⟩ := busy hψ hi he
    exact hfree pid k hk hp
  · intro o ho hs
    obtain ⟨j, hm, hop⟩ := (sound_of_trace h.trace hq h₀).paired.job o ho
    refine ⟨j, hm, hop, ?_⟩
    by_cases hf : Final j.status
    case neg => exact .inl hf
    case pos =>
      obtain ⟨st, hst, hne⟩ : ∃ st, wanted j.status = some st ∧ st ≠ .pending := by
        rcases hf with hf | hf <;> rw [hf] <;> exact ⟨_, rfl, by decide⟩
      rcases hA j hm o ho hop st hst with he | ⟨q, ψ, i, hψ, hi, he⟩
      · exact absurd (he.symm.trans hs) hne
      · exact .inr (busy hψ hi he)

theorem settlement_agrees_sample :
    ∃ τ c, Sample.plane.Runs (fun τ w ev => oneWorker τ w ev ∧ settles τ w ev) Sample.world τ c ∧
      c.world.db.outbox.map (fun j => (j.status, j.operationID)) =
        [(.applied, some 11), (.failedRetryable, some 14)] ∧
      c.world.db.operations.map (fun o => (o.id, o.status)) = [(11, .applied), (14, .retrying)] ∧
      ∀ j ∈ c.world.db.outbox, (∀ pid, ∀ k ∈ works τ pid, ¬ k.Processes j.id) →
        ∀ o ∈ c.world.db.operations, j.operationID = some o.id →
          ∀ st ∈ wanted j.status, o.status = st := by
  have h : ((Sample.plane.system.playUnder
      (fun τ w ev => decide (oneWorker τ w ev ∧ settles τ w ev)) [] (boot Sample.world)
      (Sample.create 0 "k" "x" ⟨"a", "b"⟩ 10 11 12 ++ Sample.create 1 "l" "y" ⟨"c", "d"⟩ 13 14 15 ++
        Sample.claim 2 ++ [.crash 2, .tick 30000001] ++
        Sample.claim 3 ++ Sample.list 3 ++ Sample.sync 3 ++ Sample.persist 3 2 ++ Sample.complete 3 ++
        Sample.claim 4 ++ Sample.acts 4 [{ fault := some .deadlineExceeded }] ++ Sample.steps 4 3 ++
        [.done 4])).map fun r =>
      (r.2.world.db.outbox.map fun j => (j.status, j.operationID),
        r.2.world.db.operations.map fun o => (o.id, o.status))) =
      some ([(.applied, some 11), (.failedRetryable, some 14)],
        [(11, .applied), (14, .retrying)]) := by
    decide +kernel
  obtain ⟨⟨τ, c⟩, hp, hs⟩ := Option.map_eq_some_iff.mp h
  obtain ⟨hj, ho⟩ := Prod.mk.inj hs
  have hr : Sample.plane.Runs (fun τ w ev => oneWorker τ w ev ∧ settles τ w ev) Sample.world τ c :=
    System.playUnder_run (fun _ _ _ h => of_decide_eq_true h) .nil hp
  have hn : Agreed (fun _ => none) Sample.world.db := fun _ hj => absurd hj List.not_mem_nil
  exact ⟨τ, c, hr, hj, ho, (settlement_agrees ⟨fun _ => rfl, rfl⟩ Sample.sound hn hr).1⟩

-- A worker that is stopped after it has completed a job leaves an operation that stays pending.
theorem stopped_worker_strands_operation :
    ∃ τ c, Sample.plane.Runs oneWorker Sample.world τ c ∧ workers τ = [] ∧
      c.world.db.outbox.map (fun j => (j.status, j.operationID)) = [(.applied, some 11)] ∧
      c.world.db.operations.map (fun o => (o.id, o.status)) = [(11, .pending)] := by
  have h : ((Sample.plane.system.playUnder (fun τ w ev => decide (oneWorker τ w ev)) []
      (boot Sample.world) (Sample.create 0 "k" "x" ⟨"a", "b"⟩ 10 11 12 ++ Sample.claim 1 ++
        Sample.list 1 ++ Sample.sync 1 ++ Sample.persist 1 1 ++ Sample.steps 1 1 ++ [.crash 1])).map
      fun r => (workers r.1, r.2.world.db.outbox.map fun j => (j.status, j.operationID),
        r.2.world.db.operations.map fun o => (o.id, o.status))) =
      some ([], [(.applied, some 11)], [(11, .pending)]) := by decide +kernel
  obtain ⟨⟨τ, c⟩, hp, hs⟩ := Option.map_eq_some_iff.mp h
  simp only [Prod.mk.injEq] at hs
  exact ⟨τ, c, System.playUnder_run (fun _ _ _ h => of_decide_eq_true h) .nil hp, hs⟩

end ControlPlane
