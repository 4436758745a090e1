import AwgRest.Invariant.Tables

open Domain Store

namespace ControlPlane

variable {C : ControlPlane} {G : Guard} {w₀ w w' : World} {τ : List Ev} {pid q : Nat} {φ ψ : Local}
  {e : Eff} {r : Except Err e.Answer} {ev : Ev} {id : UUID}

-- The job that each process is processing, as the process has claimed it, and the process that has
-- claimed a row last.
structure Claims where
  held   : Nat → Option Job
  latest : UUID → Option Nat

namespace Claims

def record (k : Claims) : Ev → Claims
  | .act pid (.auto (.claimNext _)) (.ok (some j)) =>
    { held   := Function.update k.held pid (some j)
      latest := Function.update k.latest j.id (some pid) }
  | .act pid (.auto (.claimNext _)) (.ok none) => { k with held := Function.update k.held pid none }
  | .act pid (.auto (.complete _)) _           => { k with held := Function.update k.held pid none }
  | .act pid (.auto (.fail ..)) _              => { k with held := Function.update k.held pid none }
  | .done pid _                                => { k with held := Function.update k.held pid none }
  | .crash pid                                 => { k with held := Function.update k.held pid none }
  | _                                          => k

end Claims

def claims (τ : List Ev) : Claims :=
  τ.foldl Claims.record ⟨fun _ => none, fun _ => none⟩

theorem claims_concat : claims (τ ++ [ev]) = (claims τ).record ev := by
  simp [claims]

-- The process and the row of a `Complete` or `Fail` that has been executed.
def concluded : Ev → Option (Nat × UUID)
  | .act pid (.auto (.complete id)) (.ok _) => some (pid, id)
  | .act pid (.auto (.fail id _ _)) (.ok _) => some (pid, id)
  | _                                       => none

theorem act_of_concluded (h : concluded ev = some (pid, id)) : ∃ e r, ev = .act pid e r := by
  unfold concluded at h
  split at h
  case _ => cases h; exact ⟨_, _, rfl⟩
  case _ => cases h; exact ⟨_, _, rfl⟩
  case _ => cases h

def Unexpired (now : Time) (j : Job) : Prop :=
  ∃ t ∈ j.leasedUntil, now ≤ t

theorem Unexpired.mono {now now' : Time} {j : Job} (h : Unexpired now' j) (hle : now ≤ now') :
    Unexpired now j :=
  have ⟨t, ht, hn⟩ := h
  ⟨t, ht, hle.trans hn⟩

-- Every `Complete` and `Fail` is executed before the lease of the worker's own claim has expired.
def inLease : Guard := fun τ w ev =>
  ∀ x ∈ concluded ev, ∃ j ∈ (claims τ).held x.1, Unexpired w.now j

instance {now : Time} {j : Job} : Decidable (Unexpired now j) :=
  inferInstanceAs (Decidable (∃ t ∈ j.leasedUntil, now ≤ t))

instance {ev : Ev} : Decidable (inLease τ w ev) :=
  inferInstanceAs (Decidable (∀ x ∈ concluded ev, ∃ j ∈ (claims τ).held x.1, Unexpired w.now j))

-- What an effect does to the outbox, to the claims and to the job of its process.
inductive OutboxStep (pid : Nat) (φ : Local) (w : World) :
    (e : Eff) → Except Err e.Answer → List Job → Prop
  | same {e : Eff} {r : Except Err e.Answer} (new : List Job) :
    (φ.next e r).job = φ.job ∨ (φ.next e r).job = none →
    (∀ k : Claims, (k.record (.act pid e r)).latest = k.latest) →
    concluded (.act pid e r) = none → OutboxStep pid φ w e r (w.db.outbox ++ new)
  | claim {j : Job} {lease : Int} :
    j ∈ w.db.outbox → Auto.Claimable w.now j →
    OutboxStep pid φ w (.auto (.claimNext lease)) (.ok (some (Auto.claimed j lease w.now)))
      (Auto.updateJob w.db j.id (Auto.claimed · lease w.now)).outbox
  | conclude {j : Job} {s : Auto} {a : s.Answer} (f : Job → Job) :
    φ.job = some j → (φ.next (.auto s) (.ok a)).job = none →
    concluded (.act pid (.auto s) (.ok a)) = some (pid, j.id) →
    (∀ k : Claims, (k.record (.act pid (.auto s) (.ok a))).latest = k.latest) →
    OutboxStep pid φ w (.auto s) (.ok a) (Auto.updateJob w.db j.id f).outbox

theorem Change.outbox {db' : DB} (h : Change C φ w e r db') : OutboxStep pid φ w e r db'.outbox := by
  have same {e : Eff} {r : Except Err e.Answer}
      (hj : (φ.next e r).job = φ.job ∨ (φ.next e r).job = none)
      (hk : ∀ k : Claims, (k.record (.act pid e r)).latest = k.latest)
      (hc : concluded (.act pid e r) = none) : OutboxStep pid φ w e r w.db.outbox := by
    simpa using OutboxStep.same (w := w) [] hj hk hc
  cases h
  case query q _ _ => cases q <;> exact same (.inl rfl) (fun _ => rfl) rfl
  case stmt s _ _ _ _ _ _ => cases s <;> exact same (.inl rfl) (fun _ => rfl) rfl
  case commit =>
    rw [Local.view, replay_outbox]
    exact .same _ (.inl rfl) (fun _ => rfl) rfl
  case auto s x _ _ ha =>
    cases s
    case claimNext lease =>
      rw [Auto.eval]
      split
      case _ => exact same (.inr rfl) (fun _ => rfl) rfl
      case _ j hj =>
        have ⟨hm, hc⟩ := Auto.next_mem hj
        exact .claim hm hc
    case complete =>
      obtain ⟨j, rows, hj, rfl, _⟩ := ha
      exact .conclude _ hj rfl rfl fun _ => rfl
    case fail =>
      obtain ⟨j, hj, rfl⟩ := ha
      exact .conclude _ hj rfl rfl fun _ => rfl
    case opMarkApplied => exact same (.inl rfl) (fun _ => rfl) rfl
    case opMarkFailed  => exact same (.inl rfl) (fun _ => rfl) rfl
  case aside ha =>
    cases ha
    case failed x =>
      cases e
      case query q => cases q <;> exact same (.inl rfl) (fun _ => rfl) rfl
      case stmt s  => cases s <;> exact same (.inl rfl) (fun _ => rfl) rfl
      case auto s  =>
        cases s <;> first
          | exact same (.inl rfl) (fun _ => rfl) rfl
          | exact same (.inr rfl) (fun _ => rfl) rfl
      all_goals exact same (.inl rfl) (fun _ => rfl) rfl
    case silent a hs =>
      cases e <;> first
        | exact same (.inl rfl) (fun _ => rfl) rfl
        | cases hs
    all_goals exact same (.inl rfl) (fun _ => rfl) rfl

namespace Claims

variable {k : Claims}

-- The claims keep up with the job that a program is working on.
theorem held_record_self (h : k.held pid = φ.job) :
    (k.record (.act pid e r)).held pid = (φ.next e r).job := by
  cases e
  case query q => cases q <;> cases r <;> exact h
  case stmt s  => cases s <;> cases r <;> exact h
  case auto s  =>
    cases s
    case claimNext => rcases r with _ | _ | j <;> first | exact h | exact Function.update_self ..
    case complete  => cases r <;> exact Function.update_self ..
    case fail      => cases r <;> exact Function.update_self ..
    all_goals cases r <;> exact h
  all_goals cases r <;> exact h

theorem held_record_of_ne (h : q ≠ pid) : (k.record (.act pid e r)).held q = k.held q := by
  cases e
  case auto s =>
    cases s
    case claimNext => rcases r with _ | _ | j <;> first | rfl | exact Function.update_of_ne h ..
    case complete  => exact Function.update_of_ne h ..
    case fail      => exact Function.update_of_ne h ..
    all_goals rfl
  all_goals rfl

end Claims

-- The job that a process holds is the one that its program is working on.
theorem held_of_trace (h : C.Trace G w₀ τ w) :
    ∀ q, (claims τ).held q = (C.locals τ q).bind Local.job := by
  have ended {τ : List Ev} {ev : Ev} {pid : Nat}
      (hl : C.locals (τ ++ [ev]) = Function.update (C.locals τ) pid none)
      (hk : (claims (τ ++ [ev])).held = Function.update (claims τ).held pid none)
      (ih : ∀ q, (claims τ).held q = (C.locals τ q).bind Local.job) (q : Nat) :
      (claims (τ ++ [ev])).held q = (C.locals (τ ++ [ev]) q).bind Local.job := by
    rw [hl, hk]
    by_cases hq : q = pid
    · simp [hq]
    · simpa [hq] using ih q
  induction h
  case nil => exact fun _ => rfl
  case spawn τ w pid k h hf hl _ ih =>
    intro q
    rw [claims_concat, locals_spawn]
    by_cases hq : q = pid
    · subst hq
      have hn : (claims τ).held q = none := (ih q).trans (congrArg (·.bind Local.job) hl)
      rw [Function.update_self]
      exact hn
    · rw [Function.update_of_ne hq]
      exact ih q
  case act τ w pid φ e r w' x h hl ha hx hg ih =>
    intro q
    rw [claims_concat, locals_act hl]
    by_cases hq : q = pid
    · subst hq
      have hj : (claims τ).held q = φ.job := (ih q).trans (congrArg (·.bind Local.job) hl)
      rw [Function.update_self, Option.bind_some, Claims.held_record_self hj]
    · rw [Function.update_of_ne hq, Claims.held_record_of_ne hq]
      exact ih q
  case done τ w pid φ b h hl _ _ ih => exact ended locals_done (by rw [claims_concat]; rfl) ih
  case crash τ w pid φ h hl _ ih    => exact ended locals_crash (by rw [claims_concat]; rfl) ih
  case tick τ w d h _ ih =>
    rw [claims_concat, locals_tick]
    exact ih

-- A process whose lease has not expired holds the latest claim of its row.
def LeaseLocal (τ : List Ev) (w : World) (pid : Nat) (φ : Local) : Prop :=
  ∀ j, φ.job = some j → Unexpired w.now j →
    (claims τ).latest j.id = some pid ∧
    ∃ row ∈ w.db.outbox, row.id = j.id ∧ row.status = .leased ∧ row.leasedUntil = j.leasedUntil

-- What is leased to somebody cannot be claimed.
theorem not_claimable {now : Time} {j row : Job} (hs : row.status = .leased)
    (hl : row.leasedUntil = j.leasedUntil) (hu : Unexpired now j) : ¬ Auto.Claimable now row := by
  obtain ⟨t, ht, hn⟩ := hu
  rw [Auto.Claimable, hs, hl, ht]
  simpa using hn

theorem lease_idle (hi : Idles ev w w') (h : LeaseLocal τ w q ψ) : LeaseLocal (τ ++ [ev]) w' q ψ := by
  intro j hj hu
  obtain ⟨hlat, row, hm, hrow⟩ := h j hj (hu.mono hi.now)
  refine ⟨?_, row, hi.db ▸ hm, hrow⟩
  rw [claims_concat, ← hlat]
  cases ev
  case act pid e r => exact absurd rfl (hi.event pid e r)
  all_goals rfl

-- The process that concludes its job has the latest claim of it.
theorem latest_of_concluded (h : ActStep C inLease w₀ τ w pid φ e r w') {j : Job}
    (hj : φ.job = some j) (hl : LeaseLocal τ w pid φ)
    (hc : concluded (.act pid e r) = some (pid, id)) :
    Unexpired w.now j ∧ (claims τ).latest j.id = some pid := by
  obtain ⟨j', hh, hu⟩ := h.guard (pid, id) hc
  rw [Option.mem_def, held_of_trace h.trace, h.running, Option.bind_some, hj] at hh
  obtain rfl := Option.some.inj hh
  exact ⟨hu, (hl _ hj hu).1⟩

theorem lease_step (h : ActStep C inLease w₀ τ w pid φ e r w') (hn : (Table.outbox.keys w.db).Nodup)
    (hl : ∀ q ψ, C.locals τ q = some ψ → LeaseLocal τ w q ψ) :
    LeaseLocal (τ ++ [.act pid e r]) w' pid (φ.next e r) ∧
    ∀ q ψ, q ≠ pid → C.locals τ q = some ψ → LeaseLocal (τ ++ [.act pid e r]) w' q ψ := by
  have hnow := h.acts.now
  have hφ := hl pid φ h.running
  have hob : OutboxStep pid φ w e r w'.db.outbox := h.change.outbox
  simp only [LeaseLocal, claims_concat, hnow]
  generalize w'.db.outbox = jobs at hob ⊢
  cases hob
  case same new hj hk _ =>
    simp only [hk]
    constructor
    · intro j hj' hu
      have hj' : φ.job = some j := by rcases hj with hj | hj <;> simp_all
      obtain ⟨hlat, row, hm, hrow⟩ := hφ j hj' hu
      exact ⟨hlat, row, List.mem_append_left _ hm, hrow⟩
    · intro q ψ _ hψ j hj' hu
      obtain ⟨hlat, row, hm, hrow⟩ := hl q ψ hψ j hj' hu
      exact ⟨hlat, row, List.mem_append_left _ hm, hrow⟩
  case claim j₀ lease hm₀ hc₀ =>
    constructor
    · intro j hj _
      obtain rfl := Option.some.inj hj
      refine ⟨Function.update_self .., _, Auto.mem_updateJob _ _ hm₀, ?_⟩
      rw [if_pos rfl]
      exact ⟨rfl, rfl, rfl⟩
    · intro q ψ hq hψ j hj hu
      obtain ⟨hlat, row, hm, hid, hs, hlu⟩ := hl q ψ hψ j hj hu
      have hne : row.id ≠ j₀.id := by
        intro he
        obtain rfl := Table.eq_of_key (T := Table.outbox) hn hm hm₀ he
        exact not_claimable hs hlu hu hc₀
      refine ⟨?_, row, ?_, hid, hs, hlu⟩
      · exact (Function.update_of_ne (hid ▸ hne) ..).trans hlat
      · have := Auto.mem_updateJob j₀.id (Auto.claimed · lease w.now) hm
        rwa [if_neg hne] at this
  case conclude j₀ s a f hj₀ hj' hc hk =>
    simp only [hk]
    obtain ⟨_, hlat₀⟩ := latest_of_concluded h hj₀ hφ hc
    constructor
    · intro j hj _
      simp [hj'] at hj
    · intro q ψ hq hψ j hj hu
      obtain ⟨hlat, row, hm, hid, hrow⟩ := hl q ψ hψ j hj hu
      have hne : row.id ≠ j₀.id := by
        intro he
        rw [← hid, he, hlat₀] at hlat
        exact hq (Option.some.inj hlat).symm
      refine ⟨hlat, row, ?_, hid, hrow⟩
      have := Auto.mem_updateJob j₀.id f hm
      rwa [if_neg hne] at this

theorem leases_of_trace (h : C.Trace inLease w₀ τ w) (hq : Quiet w₀)
    (h₀ : (Table.outbox.keys w₀.db).Nodup) : ∀ q ψ, C.locals τ q = some ψ → LeaseLocal τ w q ψ := by
  refine (trace_invariant (Q := fun _ _ => True) (P := fun τ w q ψ => LeaseLocal τ w q ψ) hq h trivial
    ?idle ?new ?act).2
  case idle => exact fun hi => ⟨id, fun q ψ h => lease_idle hi h⟩
  case new  => exact fun _ j hj => absurd hj (Option.some_ne_none j).symm
  case act  =>
    intro τ w pid φ e r w' hs _ hl
    exact ⟨trivial, lease_step hs (Table.nodup_of_trace hs.trace hq h₀).1 hl⟩

def Final (s : JobStatus) : Prop :=
  s = .applied ∨ s = .failedTerminal

theorem Final.not_claimable {now : Time} {j : Job} (h : Final j.status) : ¬ Auto.Claimable now j := by
  rcases h with h | h <;> simp [Auto.Claimable, h]

-- A job that is done with is neither claimed nor concluded again.
theorem final_step (h : ActStep C inLease w₀ τ w pid φ e r w') (hn : (Table.outbox.keys w.db).Nodup)
    (hl : LeaseLocal τ w pid φ) {j : Job} (hm : j ∈ w.db.outbox) (hf : Final j.status) :
    j ∈ w'.db.outbox := by
  have hob : OutboxStep pid φ w e r w'.db.outbox := h.change.outbox
  generalize w'.db.outbox = jobs at hob ⊢
  have keep {id : UUID} {f : Job → Job} (hne : j.id ≠ id) : j ∈ (Auto.updateJob w.db id f).outbox := by
    have := Auto.mem_updateJob id f hm
    rwa [if_neg hne] at this
  cases hob
  case same new _ _ _ => exact List.mem_append_left _ hm
  case claim j₀ lease hm₀ hc₀ =>
    have hne : j.id ≠ j₀.id := by
      intro he
      obtain rfl := Table.eq_of_key (T := Table.outbox) hn hm hm₀ he
      exact hf.not_claimable hc₀
    exact keep hne
  case conclude j₀ s a f hj₀ _ hc _ =>
    obtain ⟨hu, _⟩ := latest_of_concluded h hj₀ hl hc
    obtain ⟨_, row, hrow, hid, hs, _⟩ := hl j₀ hj₀ hu
    refine keep fun he => ?_
    obtain rfl := Table.eq_of_key (T := Table.outbox) hn hm hrow (he.trans hid.symm)
    rcases hf with hf | hf <;> simp [hs] at hf

theorem final_of_run {c c' : Conf} {τ' : List Ev} (hq : Quiet w₀)
    (h₀ : (Table.outbox.keys w₀.db).Nodup) (h₁ : C.Runs inLease w₀ τ c)
    (h₂ : C.Continues inLease τ c τ' c') {j : Job} (hm : j ∈ c.world.db.outbox)
    (hf : Final j.status) :
    j ∈ c'.world.db.outbox := by
  refine run_monotone (R := fun w w' => ∀ j ∈ w.db.outbox, Final j.status → j ∈ w'.db.outbox) hq
    (fun _ _ hm _ => hm) (fun h₁ h₂ j hm hf => h₂ j (h₁ j hm hf) hf) (fun hi j hm _ => hi.db ▸ hm)
    (fun hs j hm hf => ?_) h₁ h₂ j hm hf
  exact final_step hs (Table.nodup_of_trace hs.trace hq h₀).1
    (leases_of_trace hs.trace hq h₀ _ _ hs.running) hm hf

-- As long as no worker concludes a job after its lease has expired, jobs are concluded by their
-- latest claimants only, those that are done with stay as they are, and no two workers have
-- unexpired leases of one job.
theorem leases_fence {c : Conf} (hq : Quiet w₀) (h₀ : (Table.outbox.keys w₀.db).Nodup)
    (h : C.Runs inLease w₀ τ c) :
    (∀ {pid id ev c'}, C.system.Step c ev c' → inLease τ c.world ev →
      concluded ev = some (pid, id) → (claims τ).latest id = some pid) ∧
    (∀ {τ' c'}, C.Continues inLease τ c τ' c' → ∀ j ∈ c.world.db.outbox, Final j.status →
      (∃ j' ∈ c'.world.db.outbox, j'.id = j.id) ∧
      ∀ j' ∈ c'.world.db.outbox, j'.id = j.id → j'.status = j.status) ∧
    ∀ {p q i j}, (claims τ).held p = some i → (claims τ).held q = some j → i.id = j.id →
      Unexpired c.world.now i → Unexpired c.world.now j → p = q := by
  have hl := leases_of_trace h.trace hq h₀
  refine ⟨fun {pid id ev c'} hs hg hc => ?_, fun {τ' c'} h' j hm hf => ?_,
    fun {p q i j} hi hj he hui huj => ?_⟩
  · obtain ⟨e, r, rfl⟩ := act_of_concluded hc
    obtain ⟨φ, hact⟩ := h.act hq hs hg
    have hob : OutboxStep pid φ c.world e r c'.world.db.outbox := hact.change.outbox
    generalize c'.world.db.outbox = jobs at hob
    cases hob
    case same hn                     => simp [hn] at hc
    case claim                       => simp [concluded] at hc
    case conclude j _ _ _ hj _ hc' _ =>
      obtain rfl : j.id = id := congrArg Prod.snd (Option.some.inj (hc'.symm.trans hc))
      exact (latest_of_concluded hact hj (hl _ _ hact.running) hc).2
  · have hm' := final_of_run hq h₀ h h' hm hf
    have h'' : C.Runs inLease w₀ (τ ++ τ') c' := System.Run.trans h h'
    refine ⟨⟨j, hm', rfl⟩, fun j' hj' hid => ?_⟩
    rw [Table.eq_of_key (T := Table.outbox) (Table.nodup_of_trace h''.trace hq h₀).1 hj' hm' hid]
  · rw [held_of_trace h.trace, Option.bind_eq_some_iff] at hi hj
    obtain ⟨φ, hφ, hi⟩ := hi
    obtain ⟨ψ, hψ, hj⟩ := hj
    have h₁ := (hl p φ hφ i hi hui).1
    have h₂ := (hl q ψ hψ j hj huj).1
    rw [he, h₂] at h₁
    exact (Option.some.inj h₁).symm

theorem leases_fence_sample :
    ∃ τ c, Sample.plane.Runs inLease Sample.world τ c ∧
      c.world.db.outbox.map (fun j => (j.id, j.status)) = [(12, .applied)] ∧
      ∀ {τ' c'}, Sample.plane.Continues inLease τ c τ' c' → ∀ j ∈ c.world.db.outbox, Final j.status →
        (∃ j' ∈ c'.world.db.outbox, j'.id = j.id) ∧
        ∀ j' ∈ c'.world.db.outbox, j'.id = j.id → j'.status = j.status := by
  have h : ((Sample.plane.system.playUnder (fun τ w ev => decide (inLease τ w ev)) [] (boot Sample.world)
      (Sample.create 0 "k" "x" ⟨"a", "b"⟩ 10 11 12 ++ Sample.claim 1 ++ [.tick 29000000] ++
        Sample.list 1 ++ Sample.sync 1 ++ Sample.persist 1 1 ++ Sample.complete 1)).map
      fun r => r.2.world.db.outbox.map (fun j => (j.id, j.status))) = some [(12, .applied)] := by
    decide +kernel
  obtain ⟨⟨τ, c⟩, hp, hs⟩ := Option.map_eq_some_iff.mp h
  have hr : Sample.plane.Runs inLease Sample.world τ c :=
    System.playUnder_run (fun _ _ _ h => of_decide_eq_true h) .nil hp
  have hn : (Table.outbox.keys Sample.world.db).Nodup := List.nodup_nil
  exact ⟨τ, c, hr, hs, (leases_fence ⟨fun _ => rfl, rfl⟩ hn hr).2.1⟩

-- A worker that fails after its lease has expired puts a job back that another worker has applied.
theorem late_fail_reopens :
    ∃ τ c τ' c', Sample.plane.Runs unguarded Sample.world τ c ∧
      Sample.plane.Continues unguarded τ c τ' c' ∧ τ'.map concluded = [some (1, 12)] ∧
      (claims τ).latest 12 = some 2 ∧
      c.world.db.outbox.map Job.status = [.applied] ∧
      c'.world.db.outbox.map Job.status = [.failedRetryable] := by
  have h : ((Sample.plane.system.playAll (boot Sample.world)
      (Sample.create 0 "k" "x" ⟨"a", "b"⟩ 10 11 12 ++ Sample.claim 1 ++ [.tick 30000001] ++
        Sample.claim 2 ++ Sample.list 2 ++ Sample.sync 2 ++ Sample.persist 2 1 ++ Sample.complete 2 ++
        Sample.acts 1 [{ fault := some .deadlineExceeded }])).bind fun r =>
      (Sample.plane.system.playAll r.2 (Sample.steps 1 1)).map fun r' =>
        (r'.1.map concluded, (claims r.1).latest 12, r.2.world.db.outbox.map Job.status,
          r'.2.world.db.outbox.map Job.status)) =
      some ([some (1, 12)], some 2, [.applied], [.failedRetryable]) := by decide +kernel
  obtain ⟨⟨τ, c⟩, hp, h'⟩ := Option.bind_eq_some_iff.mp h
  obtain ⟨⟨τ', c'⟩, hp', hs⟩ := Option.map_eq_some_iff.mp h'
  simp only [Prod.mk.injEq] at hs
  exact ⟨τ, c, τ', c', System.playAll_run hp, System.playAll_run hp', hs⟩

end ControlPlane
