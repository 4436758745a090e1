import AwgRest.Invariant.OneWorker
import AwgRest.Lib.Sorting
import Mathlib.Data.Prod.Lex
import Mathlib.Tactic.CongrExclamation
import Mathlib.Tactic.Tauto

open Domain Store

namespace Store.Auto

variable {jobs : List Job} {now : Time} {row : Job} {x : Pick}

def Pick.key (x : Pick) (j : Job) : Time ×ₗ Nat :=
  toLex (j.createdAt, x.rank j.id)

theorem Pick.le_iff {i j : Job} : x.le i j ↔ x.key i ≤ x.key j := by
  rw [key, key, Prod.Lex.toLex_le_toLex]
  rfl

-- The order in which jobs are served: by the time of their creation, and as the database likes if
-- that is the same. Jobs that it does not distinguish are in the order of the table.
def Before (x : Pick) (jobs : List Job) (i j : Job) : Prop :=
  i.createdAt < j.createdAt ∨ i.createdAt = j.createdAt ∧
    (x.rank i.id < x.rank j.id ∨ x.rank i.id = x.rank j.id ∧ [i, j].Sublist jobs)

theorem before_iff {i j : Job} :
    Before x jobs i j ↔ x.key i < x.key j ∨ x.key i = x.key j ∧ [i, j].Sublist jobs := by
  have hlt : x.key i < x.key j ↔
      i.createdAt < j.createdAt ∨ i.createdAt = j.createdAt ∧ x.rank i.id < x.rank j.id :=
    Prod.Lex.toLex_lt_toLex
  have heq : x.key i = x.key j ↔ i.createdAt = j.createdAt ∧ x.rank i.id = x.rank j.id := by
    rw [Pick.key, Pick.key, toLex.injective.eq_iff, Prod.mk.injEq]
  rw [Before, hlt, heq]
  tauto

-- If no row is locked, a job is claimed unless another one is before it.
theorem next_ne_iff (hs : x.skip = []) (hn : (jobs.map Job.id).Nodup) (hm : row ∈ jobs)
    (hc : Claimable now row) :
    (∃ j, next jobs now x = some j ∧ j.id ≠ row.id) ↔
      ∃ i ∈ jobs, Claimable now i ∧ i.id ≠ row.id ∧ Before x jobs i row := by
  have hid {i j : Job} (hi : i ∈ jobs) (hj : j ∈ jobs) : i.id ≠ j.id ↔ i ≠ j :=
    not_congr ⟨List.inj_on_of_nodup_map hn hi hj, congrArg Job.id⟩
  have hmem {i : Job} : i ∈ jobs.filter (fun j => Claimable now j ∧ j.id ∉ x.skip) ↔
      i ∈ jobs ∧ Claimable now i := by simp [hs]
  have hsub {i : Job} (hi : Claimable now i) :
      [i, row].Sublist (jobs.filter (fun j => Claimable now j ∧ j.id ∉ x.skip)) ↔
        [i, row].Sublist jobs := by
    refine ⟨fun hs => hs.trans List.filter_sublist, fun hsub => ?_⟩
    simpa [hi, hc, hs] using hsub.filter (fun j => Claimable now j ∧ j.id ∉ x.skip)
  have hnext : next jobs now x = ((jobs.filter (fun j => Claimable now j ∧ j.id ∉ x.skip)).insertionSort
      (x.key · ≤ x.key ·)).head? := by
    have hle : x.le = fun i j => x.key i ≤ x.key j := by
      funext i j
      exact propext Pick.le_iff
    unfold next
    congr!
  have hhead := List.head?_insertionSort_ne_iff (k := x.key)
    ((List.Nodup.of_map _ hn).filter _) (hmem.mpr ⟨hm, hc⟩)
  rw [hnext]
  constructor
  · rintro ⟨j, hj, hne⟩
    obtain ⟨i, hi, hne, hb⟩ := hhead.mp ⟨j, hj, fun h => hne (congrArg Job.id h)⟩
    obtain ⟨him, hic⟩ := hmem.mp hi
    exact ⟨i, him, hic, (hid him hm).mpr hne,
      before_iff.mpr (hb.imp_right fun h => ⟨h.1, (hsub hic).mp h.2⟩)⟩
  · rintro ⟨i, him, hic, hne, hb⟩
    obtain ⟨j, hj, hne⟩ := hhead.mpr ⟨i, hmem.mpr ⟨him, hic⟩, (hid him hm).mp hne,
      (before_iff.mp hb).imp_right fun h => ⟨h.1, (hsub hic).mpr h.2⟩⟩
    exact ⟨j, hj, (hid (next_mem (hnext.trans hj)).1 hm).mpr hne⟩

-- A job is left out whatever the database likes if and only if there is an older one.
theorem forall_next_ne_iff (hn : (jobs.map Job.id).Nodup) (hm : row ∈ jobs) (hc : Claimable now row) :
    (∀ x : Pick, x.skip = [] → ∃ j, next jobs now x = some j ∧ j.id ≠ row.id) ↔
      ∃ i ∈ jobs, Claimable now i ∧ i.createdAt < row.createdAt := by
  constructor
  · intro h
    obtain ⟨i, him, hic, hne, hb⟩ :=
      (next_ne_iff (x := ⟨[], fun id => if id = row.id then 0 else 1⟩) rfl hn hm hc).mp (h _ rfl)
    rcases hb with hlt | ⟨_, hr | ⟨hr, _⟩⟩
    · exact ⟨i, him, hic, hlt⟩
    · simp at hr
    · simp [hne] at hr
  · rintro ⟨i, him, hic, hlt⟩ x hs
    refine (next_ne_iff hs hn hm hc).mpr ⟨i, him, hic, fun he => ?_, .inl hlt⟩
    rw [List.inj_on_of_nodup_map hn him hm he] at hlt
    exact lt_irrefl _ hlt

end Store.Auto

namespace ControlPlane

variable {C : ControlPlane} {G : Guard} {w₀ w w' : World} {τ : List Ev} {pid q : Nat} {φ ψ : Local}
  {e : Eff} {r : Except Err e.Answer} {ev : Ev}

-- The claims, and the job that has failed and may be retried, until the next claim.
structure Backoff where
  claims : Claims
  failed : Option Job

namespace Backoff

def failedNext (b : Backoff) : Ev → Option Job
  | .act pid (.auto (.fail _ _ true)) (.ok _) => b.claims.held pid
  | .act _ (.auto (.claimNext _)) (.ok _)     => none
  | _                                         => b.failed

def record (b : Backoff) (ev : Ev) : Backoff where
  claims := b.claims.record ev
  failed := b.failedNext ev

end Backoff

def backoff (τ : List Ev) : Backoff :=
  τ.foldl Backoff.record ⟨⟨fun _ => none, fun _ => none⟩, none⟩

theorem backoff_concat : backoff (τ ++ [ev]) = (backoff τ).record ev := by
  simp [backoff]

theorem claims_backoff (τ : List Ev) : (backoff τ).claims = claims τ := by
  induction τ using List.reverseRecOn
  case nil => rfl
  case append_singleton τ ev ih => rw [backoff_concat, claims_concat, Backoff.record, ih]

-- The job can be claimed again, and nobody is processing one.
def Retryable (L : Nat → Option Local) (w : World) (j : Job) : Prop :=
  (∃ row ∈ w.db.outbox, row.id = j.id ∧ row.status = .failedRetryable) ∧
  ∀ q ψ, L q = some ψ → ψ.job = none

theorem retryable_step (h : ActStep C G w₀ τ w pid φ e r w')
    (hheld : (claims τ).held pid = φ.job) (hl : JobLocal w.db φ)
    (sole : φ.kind.IsWorker → ∀ q ψ, C.locals τ q = some ψ → q ≠ pid → ψ.job = none)
    (ih : ∀ j, (backoff τ).failed = some j → Retryable (C.locals τ) w j) {j : Job}
    (hj : (backoff (τ ++ [.act pid e r])).failed = some j) :
    Retryable (C.locals (τ ++ [.act pid e r])) w' j := by
  rw [locals_act h.running]
  rw [backoff_concat] at hj
  replace hj : (backoff τ).failedNext (.act pid e r) = some j := hj
  -- Nothing has happened to the rows, and the process has not got a job.
  have keep (hf : (backoff τ).failedNext (.act pid e r) = (backoff τ).failed)
      (hdb : ∀ row ∈ w.db.outbox, row ∈ w'.db.outbox)
      (hn : (φ.next e r).job = φ.job ∨ (φ.next e r).job = none) :
      Retryable (Function.update (C.locals τ) pid (some (φ.next e r))) w' j := by
    obtain ⟨⟨row, hm, hrow⟩, hjob⟩ := ih j (hf ▸ hj)
    refine ⟨⟨row, hdb row hm, hrow⟩, fun q ψ hψ => ?_⟩
    by_cases hp : q = pid
    · subst hp
      obtain rfl : φ.next e r = ψ := by simpa using hψ
      exact hn.elim (·.trans (hjob q φ h.running)) id
    · exact hjob q ψ (by simpa [hp] using hψ)
  have hqs := h.queue
  generalize hdb : w'.db = db' at hqs keep
  cases hqs
  case rest hc ha hn _ =>
    refine keep ?_ (fun _ => id) (.inl hn)
    cases e <;> first | rfl | exact absurd rfl (ha _)
  case commit =>
    refine keep rfl (fun row hm => ?_) (.inl rfl)
    rw [Local.view, replay_outbox]
    exact List.mem_append_left _ hm
  case uncommitted => exact keep rfl (fun _ => id) (.inl rfl)
  case unclaimable => exact keep rfl (fun _ => id) (.inl rfl)
  case claim       => cases hj
  case unclaimed   => cases hj
  case incomplete  => exact keep rfl (fun _ => id) (.inr rfl)
  case unfailed retry _ _ _ =>
    exact keep (by cases retry <;> rfl) (fun _ => id) (.inr rfl)
  case mark s a i id st f hm _ _ _ hn =>
    exact keep (by cases s <;> first | rfl | cases hm) (fun _ h => h) (.inl (by rw [hn]))
  case unmarked s x hm hn =>
    exact keep (by cases s <;> first | rfl | cases hm) (fun _ => id) (.inl (by rw [hn]))
  case conclude s a i js st f hs hi _ hf hn =>
    have idle (hf : (backoff τ).failedNext (.act pid (.auto s) (.ok a)) = (backoff τ).failed) :
        Retryable (Function.update (C.locals τ) pid (some (φ.next (.auto s) (.ok a)))) w' j := by
      have := (ih j (hf ▸ hj)).2 pid φ h.running
      simp [hi] at this
    cases s
    case complete => exact idle rfl
    case fail id msg retry =>
      cases retry
      case false => exact idle rfl
      case true  =>
        have hj : (backoff τ).claims.held pid = some j := hj
        rw [claims_backoff, hheld, hi] at hj
        obtain rfl := Option.some.inj hj
        obtain ⟨row, hm, hid⟩ := hl i (.inl hi)
        have hid : row.id = i.id := congrArg Job.Identity.id hid
        refine ⟨⟨f row, ?_, ?_, ?_⟩, fun q ψ hψ => ?_⟩
        · rw [hdb]
          have := Auto.mem_updateJob i.id f hm
          rwa [if_pos hid] at this
        · exact (congrArg Job.Identity.id (hf row).2).trans hid
        · cases hs
          exact (hf row).1
        · by_cases hp : q = pid
          · subst hp
            obtain rfl : φ.next _ _ = ψ := by simpa using hψ
            rw [hn]
            rfl
          · exact sole h.allowed.2.1 q ψ (by simpa [hp] using hψ) hp
    all_goals cases hs

theorem retryable_of_trace (hG : ∀ {τ w ev}, G τ w ev → oneWorker τ w ev) (h : C.Trace G w₀ τ w)
    (hq : Quiet w₀) : ∀ j, (backoff τ).failed = some j → Retryable (C.locals τ) w j := by
  refine trace_induction
    (I := fun τ w => ∀ j, (backoff τ).failed = some j → Retryable (C.locals τ) w j) hq h
    (fun j hj => by cases hj) (fun {τ w ev w'} hs ih j hj => ?_) (fun {τ w pid φ e r w'} hs ih j hj => ?_)
  · have hf : (backoff (τ ++ [ev])).failed = (backoff τ).failed := by
      rw [backoff_concat]
      cases ev
      case act pid e r => exact absurd rfl (hs.event pid e r)
      all_goals rfl
    obtain ⟨hrow, hjob⟩ := ih j (hf ▸ hj)
    refine ⟨hs.db ▸ hrow, fun q ψ hψ => ?_⟩
    rcases hs.running q ψ hψ with hψ | ⟨k, _, rfl, _⟩
    · exact hjob q ψ hψ
    · rfl
  · have hheld : (claims τ).held pid = φ.job := by
      rw [held_of_trace hs.trace, hs.running]
      rfl
    refine retryable_step hs hheld (jobs_of_trace hs.trace hq _ _ hs.running) (fun hk q ψ hψ hne => ?_)
      ih hj
    by_contra hn
    exact hne (sole_worker hG hs.trace hq hs.running hk hψ
      (jobTurn_of_trace hs.trace hq q ψ hψ |>.job hn).1)

-- The job has failed, nothing has been claimed since, and its lease has not expired.
def BacksOff (τ : List Ev) (w : World) (j : Job) : Prop :=
  (backoff τ).failed = some j ∧ ∃ t ∈ j.leasedUntil, w.now < t

-- The answer of a claim that succeeds.
theorem claim_of_exec {c : World} {x : Choice} {lease : Int} {a : Option Job} :
    (∃ w', World.exec x pid c (.auto (.claimNext lease)) = some (.ok a, w')) ↔
      x.fault = none ∧ a = (Auto.next c.db.outbox c.now x.pick).map (Auto.claimed · lease c.now) := by
  have ha : (Auto.eval c.db c.now x.pick (.claimNext lease)).1 =
      (Auto.next c.db.outbox c.now x.pick).map (Auto.claimed · lease c.now) := by
    rw [Auto.eval]
    split <;> simp [*]
  simp only [World.exec]
  cases x.fault
  case some f => simp
  case none   => simp [ha, eq_comm]

-- The next claim of a single worker, which finds no row locked, leaves out the job that has just
-- failed if and only if it finds a job that comes before it. It does so however the database orders
-- jobs of the same time if and only if it finds a job that is older.
theorem retry_yields_iff {c : Conf} (hq : Quiet w₀) (h₀ : (Table.outbox.keys w₀.db).Nodup)
    (h : C.Runs oneWorker w₀ τ c) {j : Job} (hb : BacksOff τ c.world j) (lease : Int) :
    (∀ {x a w'}, x.pick.skip = [] →
      World.exec x pid c.world (.auto (.claimNext lease)) = some (.ok a, w') →
      ((∃ j', a = some j' ∧ j'.id ≠ j.id) ↔
        ∃ row ∈ c.world.db.outbox, row.id = j.id ∧ ∃ i ∈ c.world.db.outbox,
          Auto.Claimable c.world.now i ∧ i.id ≠ j.id ∧ Auto.Before x.pick c.world.db.outbox i row)) ∧
    ((∀ {x a w'}, x.pick.skip = [] →
      World.exec x pid c.world (.auto (.claimNext lease)) = some (.ok a, w') →
      ∃ j', a = some j' ∧ j'.id ≠ j.id) ↔
        ∃ row ∈ c.world.db.outbox, row.id = j.id ∧ ∃ i ∈ c.world.db.outbox,
          Auto.Claimable c.world.now i ∧ i.createdAt < row.createdAt) := by
  obtain ⟨⟨row, hm, hid, hst⟩, _⟩ := retryable_of_trace (fun hg => hg) h.trace hq j hb.1
  have hn : (c.world.db.outbox.map Job.id).Nodup := (Table.nodup_of_trace h.trace hq h₀).1
  have hc : Auto.Claimable c.world.now row := .inr (.inl hst)
  have honly {P : Job → Prop} : (∃ row ∈ c.world.db.outbox, row.id = j.id ∧ P row) ↔ P row := by
    constructor
    · rintro ⟨row', hm', hid', hP⟩
      exact List.inj_on_of_nodup_map hn hm' hm (hid'.trans hid.symm) ▸ hP
    · exact fun hP => ⟨row, hm, hid, hP⟩
  have hclaim {x : Choice} {a : Option Job}
      (ha : a = (Auto.next c.world.db.outbox c.world.now x.pick).map (Auto.claimed · lease c.world.now)) :
      (∃ j', a = some j' ∧ j'.id ≠ j.id) ↔
        ∃ j', Auto.next c.world.db.outbox c.world.now x.pick = some j' ∧ j'.id ≠ row.id := by
    rw [ha, hid]
    simp [Auto.claimed]
  constructor
  · intro x a w' hs hx
    rw [hclaim (claim_of_exec.mp ⟨w', hx⟩).2, Auto.next_ne_iff hs hn hm hc, honly, hid]
  · rw [honly, ← Auto.forall_next_ne_iff hn hm hc]
    constructor
    · intro hall x hs
      obtain ⟨w', hx⟩ := (claim_of_exec (x := { pick := x })).mpr ⟨rfl, rfl⟩
      exact (hclaim rfl).mp (hall hs hx)
    · intro hall x a w' hs hx
      exact (hclaim (claim_of_exec.mp ⟨w', hx⟩).2).mpr (hall x.pick hs)

-- A job fails while an older one, which a stopped worker has left, becomes claimable again. The
-- next claim returns that one.
theorem retry_yields_sample :
    ∃ τ c j, Sample.plane.Runs oneWorker Sample.world τ c ∧ BacksOff τ c.world j ∧ j.id = 15 ∧
      ((Auto.claimNext 30000000).eval c.world.db c.world.now {}).1.map Job.id = some 12 ∧
      (∃ row ∈ c.world.db.outbox, row.id = j.id ∧ ∃ i ∈ c.world.db.outbox,
        Auto.Claimable c.world.now i ∧ i.createdAt < row.createdAt) ∧
      ∀ {x a w'}, x.pick.skip = [] →
        World.exec x 4 c.world (.auto (.claimNext 30000000)) = some (.ok a, w') →
        ∃ j', a = some j' ∧ j'.id ≠ j.id := by
  have h : ((Sample.plane.system.playUnder (fun τ w ev => decide (oneWorker τ w ev)) []
      (boot Sample.world) (Sample.create 0 "k" "x" ⟨"a", "b"⟩ 10 11 12 ++ [.tick 1] ++
        Sample.create 1 "l" "y" ⟨"c", "d"⟩ 13 14 15 ++ Sample.claim 2 ++ [.crash 2, .tick 10] ++
        Sample.claim 3 ++ Sample.acts 3 [{ fault := some .deadlineExceeded }] ++ Sample.steps 3 3 ++
        [.done 3, .tick 29999995])).bind fun r => (backoff r.1).failed.map fun j =>
      (j.id, decide ((∃ t ∈ j.leasedUntil, r.2.world.now < t) ∧
        ((Auto.claimNext 30000000).eval r.2.world.db r.2.world.now {}).1.map Job.id = some 12 ∧
        ∃ row ∈ r.2.world.db.outbox, row.id = j.id ∧ ∃ i ∈ r.2.world.db.outbox,
          Auto.Claimable r.2.world.now i ∧ i.createdAt < row.createdAt))) = some (15, true) := by
    decide +kernel
  obtain ⟨⟨τ, c⟩, hp, hf⟩ := Option.bind_eq_some_iff.mp h
  obtain ⟨j, hj, hb⟩ := Option.map_eq_some_iff.mp hf
  obtain ⟨hid, ht⟩ := Prod.mk.inj hb
  obtain ⟨ht, hnext, hold⟩ := of_decide_eq_true ht
  have hr : Sample.plane.Runs oneWorker Sample.world τ c :=
    System.playUnder_run (fun _ _ _ h => of_decide_eq_true h) .nil hp
  have hback : BacksOff τ c.world j := ⟨hj, ht⟩
  exact ⟨τ, c, j, hr, hback, hid, hnext, hold,
    (retry_yields_iff ⟨fun _ => rfl, rfl⟩ Sample.sound.outbox hr hback 30000000).2.mpr hold⟩

-- A job that fails is claimed again at once, and a younger one that could be claimed is not.
theorem failed_job_claimed_again :
    ∃ τ c τ' c' j, Sample.plane.Runs oneWorker Sample.world τ c ∧ BacksOff τ c.world j ∧
      (∃ k ∈ c.world.db.outbox, k.id ≠ j.id ∧ Auto.Claimable c.world.now k) ∧
      Sample.plane.Continues oneWorker τ c τ' c' ∧ τ'.length = 1 ∧
      ((claims τ').held 2).map Job.id = some j.id := by
  have h : ((Sample.plane.system.playUnder (fun τ w ev => decide (oneWorker τ w ev)) []
      (boot Sample.world) (Sample.create 0 "k" "x" ⟨"a", "b"⟩ 10 11 12 ++ [.tick 1] ++
        Sample.create 1 "l" "y" ⟨"c", "d"⟩ 13 14 15 ++ Sample.claim 3 ++
        Sample.acts 3 [{ fault := some .deadlineExceeded }] ++ Sample.steps 3 3 ++
        [.done 3, .spawn 2 .runOnce])).bind fun r =>
      (Sample.plane.system.playUnder (fun τ w ev => decide (oneWorker (r.1 ++ τ) w ev)) [] r.2
        (Sample.steps 2 1)).bind fun r' =>
      (backoff r.1).failed.map fun j =>
        (decide ((∃ t ∈ j.leasedUntil, r.2.world.now < t) ∧
          ∃ k ∈ r.2.world.db.outbox, k.id ≠ j.id ∧ Auto.Claimable r.2.world.now k),
        r'.1.length, decide (((claims r'.1).held 2).map Job.id = some j.id))) =
          some (true, 1, true) := by
    decide +kernel
  obtain ⟨⟨τ, c⟩, hp, h⟩ := Option.bind_eq_some_iff.mp h
  obtain ⟨⟨τ', c'⟩, hp', h⟩ := Option.bind_eq_some_iff.mp h
  obtain ⟨j, hj, h⟩ := Option.map_eq_some_iff.mp h
  obtain ⟨hb, h⟩ := Prod.mk.inj h
  obtain ⟨hlen, hheld⟩ := Prod.mk.inj h
  obtain ⟨ht, hk⟩ := of_decide_eq_true hb
  exact ⟨τ, c, τ', c', j, System.playUnder_run (fun _ _ _ h => of_decide_eq_true h) .nil hp,
    ⟨hj, ht⟩, hk, System.playUnder_run (fun _ _ _ h => of_decide_eq_true h) .nil hp', hlen,
    of_decide_eq_true hheld⟩

end ControlPlane
