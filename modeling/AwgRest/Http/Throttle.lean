import AwgRest.Http.Answers
import AwgRest.RateLimit.Window

open Domain Store Auth Api

namespace Http

-- The calls of the limiter in a run, and those for a key that it has let pass.

def call? : Ev → Option RateLimit.Call
  | .act _ (.inr (.allow key)) (now, _) => some ⟨key, now⟩
  | _                                   => none

def calls (τ : List Ev) : List RateLimit.Call :=
  τ.filterMap call?

def Granted (key : String) : Ev → Bool
  | .act _ (.inr (.allow k)) (_, .next) => k = key
  | _                                   => false

theorem calls_append (τ τ' : List Ev) : calls (τ ++ τ') = calls τ ++ calls τ' :=
  List.filterMap_append

namespace Server

variable {H : Server} {w : World} {t : RateLimit.TokenBucket} {τ τ₁ τ₂ : List Ev} {c c₁ : Conf}
  {ev : Ev} {pid : Nat}
  {key : String}

theorem perform_limiter (d : Draw) (f : Need) : (perform d (some t) f).2 =
    some (t.run (calls [.act pid (.inr f) (perform d (some t) f).1])) ∧
    ∀ key, [Event.act pid (.inr f) (perform d (some t) f).1].countP (Granted key) =
      t.allowed key (calls [.act pid (.inr f) (perform d (some t) f).1]) := by
  cases f
  case newID => exact ⟨rfl, fun _ => rfl⟩
  case clock => exact ⟨rfl, fun _ => rfl⟩
  case ping  => exact ⟨rfl, fun _ => rfl⟩
  case allow key =>
    rcases ha : t.allow key d.time with ⟨⟨ok, wait⟩, t'⟩
    have hstep : t.step ⟨key, d.time⟩ = t' := congrArg Prod.snd ha
    cases ok
    all_goals
      refine ⟨?_, fun k => ?_⟩
      · simp [perform, RateLimit.middleware, ha, calls, call?, RateLimit.TokenBucket.run, hstep]
      · by_cases hk : key = k
        case pos =>
          subst hk
          simp [perform, RateLimit.middleware, ha, calls, call?, Granted,
            RateLimit.TokenBucket.allowed,
            RateLimit.TokenBucket.answers]
        case neg =>
          simp [perform, RateLimit.middleware, ha, calls, call?, Granted,
            RateLimit.TokenBucket.allowed,
            RateLimit.TokenBucket.answers, hk]

theorem limiter_step (hs : H.system.Step c ev c₁) (ht : c.world.2 = some t) :
    c₁.world.2 = some (t.run (calls [ev])) ∧
    ∀ key, [ev].countP (Granted key) = t.allowed key (calls [ev]) := by
  cases hs
  case act pid e k r w' x hp hx =>
    cases e
    case inl e =>
      obtain ⟨_, _, heq⟩ := Option.map_eq_some_iff.mp hx
      cases heq
      exact ⟨ht, fun _ => rfl⟩
    case inr f =>
      have hx : some ((perform x.2 c.world.2 f).1, c.world.1, (perform x.2 c.world.2 f).2) =
          some (r, w') := hx
      cases hx
      rw [ht]
      exact perform_limiter x.2 f
  all_goals exact ⟨ht, fun _ => rfl⟩

theorem limiter_of_run (h : H.Runs w (some t) τ c) :
    c.world.2 = some (t.run (calls τ)) ∧ ∀ key, τ.countP (Granted key) = t.allowed key (calls τ) := by
  induction h
  case nil          => exact ⟨rfl, fun _ => rfl⟩
  case step hs _ ih =>
    obtain ⟨ht, hn⟩ := ih
    obtain ⟨ht', hn'⟩ := limiter_step hs ht
    rw [calls_append]
    refine ⟨ht'.trans (congrArg some (RateLimit.run_append _).symm), fun key => ?_⟩
    rw [List.countP_append, hn, hn', RateLimit.allowed_append]

-- What the limiter lets pass in a part of a run.
theorem granted_of_run (h : H.Runs w (some t) (τ₁ ++ τ₂) c) :
    τ₂.countP (Granted key) = (t.run (calls τ₁)).allowed key (calls τ₂) := by
  obtain ⟨c₁, h₁, _⟩ := h.append_inv
  have hall := (limiter_of_run h).2 key
  have hfirst := (limiter_of_run h₁).2 key
  rw [calls_append, List.countP_append, RateLimit.allowed_append] at hall
  omega

-- A request that commits has passed the middleware.
theorem Runs.passed {limiter : Option RateLimit.TokenBucket} {req : Request}
    (h : H.Runs w limiter τ c) (hq : ControlPlane.Quiet w) (hreq : .spawn pid (.request req) ∈ τ)
    (hc : .act pid (.inl .commit) (.ok ()) ∈ τ) :
    ∃ tenant p, writes req.route = some tenant ∧ H.Passed req tenant p (System.history pid τ) := by
  obtain ⟨τ', c', hrun, hm⟩ := h.mirrors hq
  obtain ⟨k, hk⟩ := hrun.spawn_of_mem (fun _ => rfl) (hm.moves hc H.plane.not_inert_commit) rfl
  obtain ⟨k', l, f, hk', hl, he⟩ := hm.spawn hk
  cases h.spawn_unique hreq hk'
  obtain ⟨tenant, p, hw, hp, _⟩ := Enters.request he
  exact ⟨tenant, p, hw, hp.mono hl⟩

-- A request that writes for a tenant, with a token that is accepted for no one but the subject.
def From (H : Server) (subject : UUID) (tenant : String) (req : Request) : Prop :=
  writes req.route = some tenant ∧
  ∀ {raw now p}, bearer req = some raw → H.validator.validate H.jwt now raw = .ok p →
    p.subjectID = subject

theorem granted_of_commit {subject : UUID} {tenant : String} {req : Request}
    (hq : ControlPlane.Quiet w) (h : H.Runs w (some t) (τ₁ ++ τ₂) c)
    (hreq : .spawn pid (.request req) ∈ τ₂) (hf : H.From subject tenant req)
    (hc : .act pid (.inl .commit) (.ok ()) ∈ τ₁ ++ τ₂) :
    pid ∈ (τ₂.filter (Granted (subject.string ++ "|" ++ tenant))).filterMap Event.pid := by
  obtain ⟨tenant', p, hw, hp⟩ := h.passed hq (List.mem_append_right _ hreq) hc
  obtain rfl : tenant = tenant' := Option.some.inj (hf.1.symm.trans hw)
  obtain ⟨raw, now, hraw, _, hv⟩ := hp.token
  obtain rfl := hf.2 hraw hv
  obtain ⟨time, hm⟩ := hp.limiter
  rcases List.mem_append.mp (System.mem_history.mp hm) with hm | hm
  · exact absurd rfl (h.not_mem_of_spawn hreq _ hm)
  · exact List.mem_filterMap.mpr ⟨_, List.mem_filter.mpr ⟨hm, by simp [Granted, limitKey]⟩, rfl⟩

-- Whatever else runs, the requests of a subject for a tenant that come in during a time and change
-- something are at most as many as the bucket holds at once and gets in that time, if tokens are
-- counted without rounding.
theorem throttled (H : Server) {w : World} {capacity : Int} {rate : ℚ} {τ₁ τ₂ : List Ev} {c : Conf}
    {a b : Int} {subject : UUID} {tenant : String} {pids : List Nat} (hC : 1 ≤ capacity)
    (hr : 0 < rate) (hq : ControlPlane.Quiet w)
    (h : H.Runs w (some (RateLimit.newTokenBucket capacity rate)) (τ₁ ++ τ₂) c) (hab : a ≤ b)
    (hb : ∀ call ∈ calls (τ₁ ++ τ₂), call.now ≤ b) (ha : ∀ call ∈ calls τ₂, a ≤ call.now)
    (hn : pids.Nodup)
    (hp : ∀ pid ∈ pids, ∃ req, .spawn pid (.request req) ∈ τ₂ ∧ H.From subject tenant req ∧
      .act pid (.inl .commit) (.ok ()) ∈ τ₁ ++ τ₂) :
    (pids.length : ℚ) ≤ capacity + rate * RateLimit.seconds (b - a) := by
  have hsub : pids ⊆ (τ₂.filter (Granted (subject.string ++ "|" ++ tenant))).filterMap Event.pid := by
    intro pid hpid
    obtain ⟨req, hreq, hf, hc⟩ := hp pid hpid
    exact granted_of_commit hq h hreq hf hc
  have hlen : pids.length ≤ τ₂.countP (Granted (subject.string ++ "|" ++ tenant)) :=
    calc pids.length
      _ ≤ ((τ₂.filter (Granted (subject.string ++ "|" ++ tenant))).filterMap Event.pid).length :=
        (List.subperm_of_subset hn hsub).length_le
      _ ≤ (τ₂.filter (Granted (subject.string ++ "|" ++ tenant))).length :=
        List.length_filterMap_le ..
      _ = τ₂.countP (Granted (subject.string ++ "|" ++ tenant)) := List.countP_eq_length_filter.symm
  rw [granted_of_run h] at hlen
  rw [calls_append] at hb
  calc (pids.length : ℚ)
    _ ≤ _ := Nat.cast_le.mpr hlen
    _ ≤ _ := RateLimit.allowed_between hC hr _ hab (fun call hc _ => hb call hc) fun call hc _ =>
      ha call hc

end Server

namespace Sample

def Commits (pid : Nat) : Ev → Bool
  | .act q (.inl .commit) (.ok _) => q = pid
  | _                             => false

theorem mem_of_commits {pid : Nat} {τ : List Ev} (h : τ.any (Commits pid)) :
    .act pid (.inl .commit) (.ok ()) ∈ τ := by
  obtain ⟨ev, hev, hc⟩ := List.any_eq_true.mp h
  unfold Commits at hc
  split at hc
  case h_1 => cases of_decide_eq_true hc; exact hev
  case h_2 => cases hc

-- No token that the server knows names a subject.
theorem subject_of_accepted {raw : String} {now : Int} {p : Identity}
    (h : server.validator.validate server.jwt now raw = .ok p) : p.subjectID = 0 := by
  obtain ⟨_, _, _, _, hver, _, rfl⟩ := (Auth.Sample.jwt_implements ..).accepts_iff.mp h
  obtain ⟨x, hx, hd⟩ := Option.map_eq_some_iff.mp hver.decoded
  cases hd
  have hc : x.claims = claims := by
    rcases List.mem_pair.mp (List.mem_of_find?_eq_some hx) with rfl | rfl <;> rfl
  rw [hc]
  rfl

end Sample

-- The bucket of the small installation is empty after its request, which comes in at the time 0.
theorem Server.throttled_sample :
    ∃ τ c, Sample.server.Runs ControlPlane.Sample.world Sample.limiter τ c ∧
    .act 0 (.inl .commit) (.ok ()) ∈ τ ∧ calls τ = [⟨Server.limitKey {} "t", 0⟩] ∧
    (([0] : List Nat).length : ℚ) ≤ (1 : Int) + 1 * RateLimit.seconds (0 - 0) := by
  have h : ((Sample.server.system.playAll (boot ControlPlane.Sample.world Sample.limiter)
      (Sample.create 0 "Bearer t" "k")).map fun r =>
        decide (r.1.any (Sample.Begins 0 (Sample.createRequest "Bearer t" "k")) ∧
          r.1.any (Sample.Commits 0) ∧
          calls r.1 = [⟨Server.limitKey {} "t", 0⟩])) = some true := by
    decide +kernel
  obtain ⟨⟨τ, c⟩, hplay, hs⟩ := Option.map_eq_some_iff.mp h
  obtain ⟨hb, hc, hcalls⟩ := of_decide_eq_true hs
  have hrun : Sample.server.Runs ControlPlane.Sample.world Sample.limiter ([] ++ τ) c :=
    System.playAll_run hplay
  have hp : ∀ pid ∈ [0], ∃ req, .spawn pid (.request req) ∈ τ ∧ Sample.server.From 0 "t" req ∧
      .act pid (.inl .commit) (.ok ()) ∈ [] ++ τ := by
    intro pid hpid
    cases List.mem_singleton.mp hpid
    exact ⟨_, Sample.mem_of_begins hb, ⟨rfl, fun _ => Sample.subject_of_accepted⟩,
      Sample.mem_of_commits hc⟩
  exact ⟨τ, c, hrun, Sample.mem_of_commits hc, hcalls,
    Server.throttled Sample.server (by decide) one_pos
    ⟨fun _ => rfl, rfl⟩ hrun le_rfl (by simp [hcalls]) (by simp [hcalls]) (List.nodup_singleton 0) hp⟩

end Http
