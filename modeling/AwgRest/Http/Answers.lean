import AwgRest.Http.Confinement

open Domain Store Auth Api

theorem ControlPlane.not_inert_commit (C : ControlPlane) : ¬ C.system.Inert .commit := by
  intro h
  have hx := @h {} 0 { Sample.world with txs := fun _ => some ⟨0, []⟩ } (.ok ()) _ rfl
  have ht := congrFun (congrArg (fun w : World => w.txs) hx) 0
  cases ht

namespace Http

def Response.IsProblem (r : Response) : Prop :=
  ∃ p, r.body = .problem p

instance {r : Response} : Decidable r.IsProblem :=
  match h : r.body with
  | .problem p   => .isTrue ⟨p, h⟩
  | .created _   => .isFalse fun ⟨_, hp⟩ => nomatch h.symm.trans hp
  | .revoked ..  => .isFalse fun ⟨_, hp⟩ => nomatch h.symm.trans hp
  | .peer _      => .isFalse fun ⟨_, hp⟩ => nomatch h.symm.trans hp
  | .operation _ => .isFalse fun ⟨_, hp⟩ => nomatch h.symm.trans hp
  | .config _    => .isFalse fun ⟨_, hp⟩ => nomatch h.symm.trans hp
  | .status _    => .isFalse fun ⟨_, hp⟩ => nomatch h.symm.trans hp

namespace Server

variable {H : Server} {w : World} {limiter : Option RateLimit.TokenBucket} {τ τ₁ : List Ev}
  {c c₁ c₂ : Conf}
  {ev : Ev} {pid : Nat} {req : Request} {resp : Response} {l : Heard}

theorem writeError_isProblem (h : Header) (e : Failure) : (writeError h e).IsProblem :=
  ⟨_, rfl⟩

theorem Answers.of_writes (h : H.Answers req l resp) (hw : writes req.route ≠ none) :
    resp.IsProblem := by
  cases h
  case problem              => exact writeError_isProblem _ _
  case health hr            => rcases hr with hr | hr <;> exact absurd (by rw [hr]; rfl) hw
  case peer hr _ _          => exact absurd (by rw [hr]; rfl) hw
  case configuration hr _ _ => exact absurd (by rw [hr]; rfl) hw
  case operation hr _ _     => exact absurd (by rw [hr]; rfl) hw

theorem Enters.isProblem_iff {k : ControlPlane.Kind} {f : Except Err ControlPlane.Result → Result}
    {b : Except Err ControlPlane.Result} (h : H.Enters (.request req) l k f)
    (hb : f b = .response resp) :
    resp.IsProblem ↔ ∃ e, b = .error e := by
  rcases h with _ | _ | _
  all_goals
    cases hb
    cases b
    case error e => exact iff_of_true (writeError_isProblem _ _) ⟨e, rfl⟩
    case ok      => exact iff_of_false (fun ⟨_, hp⟩ => nomatch hp) nofun

-- In the control plane the request has the tenant of its path and the key of its header.
theorem Enters.names {k : ControlPlane.Kind} {f : Except Err ControlPlane.Result → Result}
    {tenant : String} (h : H.Enters (.request req) l k f) (hw : writes req.route = some tenant) :
    k.names = some (tenant, req.idempotencyKey) := by
  rcases h with _ | ⟨hr, _, _⟩ | ⟨hr, _⟩
  all_goals
    rw [hr] at hw
    cases hw
    rfl

-- How a request has come to its answer.
theorem Runs.answered (h : H.Runs w limiter τ c) (hq : ControlPlane.Quiet w)
    (hreq : .spawn pid (.request req) ∈ τ) (hd : .done pid (.response resp) ∈ τ) :
    ∃ l, l <+: System.history pid τ ∧
      (H.Answers req l resp ∧ .act pid (.inl .commit) (.ok ()) ∉ τ ∨
      ∃ τ' c' k f b, H.plane.Runs ControlPlane.unguarded w τ' c' ∧ H.Mirrors τ c τ' c' ∧
        .spawn pid k ∈ τ' ∧
        H.Enters (.request req) l k f ∧ .done pid b ∈ τ' ∧ f b = .response resp) := by
  obtain ⟨τ', c', hrun, hm⟩ := h.mirrors hq
  cases (hm.done hd).2
  case itself k' l hk hl hn ha =>
    cases h.spawn_unique hreq hk
    obtain ⟨_, _, heq, heq', ha⟩ := ha
    cases heq
    cases heq'
    refine ⟨l, hl, .inl ⟨ha, fun hc => ?_⟩⟩
    obtain ⟨k, hk⟩ := hrun.spawn_of_mem (fun _ => rfl) (hm.moves hc H.plane.not_inert_commit) rfl
    exact hn k hk
  case inside k' l k f b hk hl hk' he hb hf =>
    cases h.spawn_unique hreq hk
    exact ⟨l, hl, .inr ⟨τ', c', k, f, b, hrun, hm, hk', he, hb, hf⟩⟩

-- The account of the request in the control plane.
theorem Runs.settled (h : H.Runs w limiter τ c) (hq : ControlPlane.Quiet w)
    (hreq : .spawn pid (.request req) ∈ τ) (hd : .done pid (.response resp) ∈ τ) :
    (resp.IsProblem → .act pid (.inl .commit) (.ok ()) ∉ τ) ∧
    (¬ resp.IsProblem → ∀ {tenant}, writes req.route = some tenant → .act pid (.inl .commit) (.ok ()) ∈ τ ∨
      ∃ t r, w.db.tenants.find? (·.slug = tenant) = some t ∧
        .act pid (.inl (.query (.lookup t.id req.idempotencyKey))) (.ok (some r)) ∈ τ) := by
  obtain ⟨l, _, ⟨ha, hn⟩ | ⟨τ', c', k, f, b, hrun, hm, hk, he, hb, hf⟩⟩ := h.answered hq hreq hd
  case inl => exact ⟨fun _ => hn, fun hp tenant hw => absurd (ha.of_writes (by simp [hw])) hp⟩
  case inr =>
    obtain ⟨tenant, p, hroute, _, hcall⟩ := he.request
    have hreq := ControlPlane.Kind.isRequest_of_caller hcall
    obtain ⟨a, ha, rfl, ht⟩ := ControlPlane.account_of_spawn hrun hk
    have hs := (ControlPlane.accounts_of_trace hrun.trace).2 pid a ha hreq
    refine ⟨fun hp hc => ?_, fun hp tenant' hw => ?_⟩
    · obtain ⟨e, rfl⟩ := (he.isProblem_iff hf).mp hp
      exact ht.commits.mpr (hm.moves hc H.plane.not_inert_commit) (hs.failed (ht.answer hb))
    · cases b
      case error e => exact absurd ((he.isProblem_iff hf).mpr ⟨e, rfl⟩) hp
      case ok b    =>
        refine (hs.answered (ht.answer hb)).imp (fun hc => ?_) fun hf => ?_
        · exact hm.acts (ht.commits.mp (by rw [hc]; exact Nat.one_ne_zero))
        · obtain ⟨id, key, r, hl⟩ := ht.found.mp hf
          obtain ⟨slug, t, hn, hfind, rfl⟩ := ControlPlane.lookup_of_request hrun hq hk hreq hl
          obtain ⟨rfl, rfl⟩ : slug = tenant' ∧ key = req.idempotencyKey := by
            rw [he.names hw] at hn
            simpa [eq_comm] using hn
          exact ⟨t, r, hfind, hm.acts hl⟩

-- A step of a request that does not commit changes no row.
theorem Runs.db_of_not_commits (h : H.Runs w limiter τ c) (hq : ControlPlane.Quiet w)
    (hs : H.system.Step c ev c₁) (hpid : ev.pid = some pid) (hreq : .spawn pid (.request req) ∈ τ)
    (hc : .act pid (.inl .commit) (.ok ()) ∉ τ ++ [ev]) : c₁.world.1.db = c.world.1.db := by
  rcases h.step_cases hq hs hpid hreq with
    hw | ⟨τ', c', ev', c₁', k, f, hrun, hs', hw, hw', hp, ha, hk, l, hl, he⟩
  · rw [hw]
  · obtain ⟨_, p, _, _, hcall⟩ := he.request
    obtain ⟨a, hacc, rfl, _⟩ := ControlPlane.account_of_spawn hrun hk
    rw [← hw, ← hw']
    refine ControlPlane.db_of_not_commits hq hrun hacc
      (ControlPlane.Kind.isRequest_of_caller hcall) hs' hp ?_
    exact fun hcm => hc (ha (ControlPlane.eq_of_commits hcm))

-- A problem tells that the request has changed nothing. Any other answer to a request that writes
-- tells that its change has been made, by itself or by an earlier one of the tenant with its key.
theorem answers_truthful (H : Server) {w : World} {limiter : Option RateLimit.TokenBucket}
    {τ : List Ev} {c : Conf} {pid : Nat} {req : Request} {resp : Response}
    (hq : ControlPlane.Quiet w) (h : H.Runs w limiter τ c) (hreq : .spawn pid (.request req) ∈ τ)
    (hd : .done pid (.response resp) ∈ τ) :
    (resp.IsProblem → ∀ {τ₁ c₁ ev c₂}, τ₁ ++ [ev] <+: τ → H.Runs w limiter τ₁ c₁ → H.system.Step c₁ ev c₂ →
      ev.pid = some pid → c₂.world.1.db = c₁.world.1.db) ∧
    (¬ resp.IsProblem → ∀ {tenant}, writes req.route = some tenant → .act pid (.inl .commit) (.ok ()) ∈ τ ∨
      ∃ t r, w.db.tenants.find? (·.slug = tenant) = some t ∧
        .act pid (.inl (.query (.lookup t.id req.idempotencyKey))) (.ok (some r)) ∈ τ) := by
  obtain ⟨hn, ha⟩ := h.settled hq hreq hd
  refine ⟨fun hp {τ₁ c₁ ev c₂} hτ h₁ hs hpid => ?_, ha⟩
  have hev : ev ∈ τ₁ ++ [ev] := List.mem_append_right _ (List.mem_singleton_self ev)
  obtain ⟨k, hk⟩ := (h₁.step hs trivial).spawn_of_mem (fun _ => rfl) hev hpid
  cases h.spawn_unique hreq (hτ.subset hk)
  rcases List.mem_append.mp hk with hk | hk
  · exact h₁.db_of_not_commits hq hs hpid hk fun hc => hn hp (hτ.subset hc)
  · cases List.mem_singleton.mp hk
    cases hs
    rfl

end Server

namespace Sample

def answer (pid : Nat) (τ : List Ev) : Option Response :=
  τ.findSome? fun
    | .done q (.response r) => if q = pid then some r else none
    | _                     => none

theorem mem_of_answer {pid : Nat} {τ : List Ev} {r : Response} (h : answer pid τ = some r) :
    .done pid (.response r) ∈ τ := by
  obtain ⟨ev, hev, hr⟩ := List.exists_of_findSome?_eq_some h
  split at hr
  case h_1 q r' =>
    split at hr
    case isTrue hq => cases hq; cases hr; exact hev
    case isFalse   => cases hr
  case h_2 => cases hr

end Sample

-- A request that is accepted, and one with another token.
theorem Server.answers_truthful_sample : ∃ τ c resp resp',
    Sample.server.Runs ControlPlane.Sample.world Sample.limiter τ c ∧
    .done 0 (.response resp) ∈ τ ∧ .done 1 (.response resp') ∈ τ ∧ ¬ resp.IsProblem ∧
    resp'.IsProblem ∧
    (.act 0 (.inl .commit) (.ok ()) ∈ τ ∨
      ∃ t r, ControlPlane.Sample.world.db.tenants.find? (·.slug = "t") = some t ∧
        .act 0 (.inl (.query (.lookup t.id "k"))) (.ok (some r)) ∈ τ) ∧
    ∀ {τ₁ c₁ ev c₂}, τ₁ ++ [ev] <+: τ → Sample.server.Runs ControlPlane.Sample.world Sample.limiter τ₁ c₁ →
      Sample.server.system.Step c₁ ev c₂ → ev.pid = some 1 → c₂.world.1.db = c₁.world.1.db := by
  have h : ((Sample.server.system.playAll (boot ControlPlane.Sample.world Sample.limiter)
      (Sample.create 0 "Bearer t" "k" ++ [.spawn 1 (.request (Sample.createRequest "Bearer u" "l")),
        .act 1 ({}, {}), .act 1 ({}, {}), .done 1])).bind fun r =>
      (Sample.answer 0 r.1).bind fun a => (Sample.answer 1 r.1).map fun b =>
        decide (¬ a.IsProblem ∧ b.IsProblem ∧
          r.1.any (Sample.Begins 0 (Sample.createRequest "Bearer t" "k")) ∧
          r.1.any (Sample.Begins 1 (Sample.createRequest "Bearer u" "l")))) = some true := by
    decide +kernel
  obtain ⟨⟨τ, c⟩, hplay, hs⟩ := Option.bind_eq_some_iff.mp h
  obtain ⟨resp, ha, hs⟩ := Option.bind_eq_some_iff.mp hs
  obtain ⟨resp', hb, hs⟩ := Option.map_eq_some_iff.mp hs
  obtain ⟨hp, hp', h₀, h₁⟩ := of_decide_eq_true hs
  have hrun : Sample.server.Runs ControlPlane.Sample.world Sample.limiter τ c :=
    System.playAll_run hplay
  have hd := Sample.mem_of_answer ha
  have hd' := Sample.mem_of_answer hb
  have hq : ControlPlane.Quiet ControlPlane.Sample.world := ⟨fun _ => rfl, rfl⟩
  exact ⟨τ, c, resp, resp', hrun, hd, hd', hp, hp',
    (Server.answers_truthful Sample.server hq hrun (Sample.mem_of_begins h₀) hd).2 hp rfl,
    (Server.answers_truthful Sample.server hq hrun (Sample.mem_of_begins h₁) hd').1 hp'⟩

end Http
