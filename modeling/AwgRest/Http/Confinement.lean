import AwgRest.Http.Refinement
import AwgRest.Invariant.Accounts
import AwgRest.Invariant.Tenancy

open Domain Store Auth Api

namespace Http.Server

variable {H : Server} {w : World} {limiter : Option RateLimit.TokenBucket} {τ : List Ev}
  {c c₁ : Conf} {ev : Ev}
  {pid : Nat} {req : Request}

def writes : Route → Option String
  | .createPeer tenant   => some tenant
  | .revokePeer tenant _ => some tenant
  | _                    => none

theorem Enters.request {l : Heard} {k : ControlPlane.Kind}
    {f : Except Err ControlPlane.Result → Result} (h : H.Enters (.request req) l k f) :
    ∃ tenant p, writes req.route = some tenant ∧ H.Passed req tenant p l ∧
      k.caller = some (some p.toPrincipal) := by
  rcases h with _ | ⟨hr, hp, _⟩ | ⟨hr, hp⟩
  case create => exact ⟨_, _, by rw [hr]; rfl, hp, rfl⟩
  case revoke => exact ⟨_, _, by rw [hr]; rfl, hp, rfl⟩

-- What a request can change. Whatever else runs, a step of it leaves the executor and the files
-- alone, and it leaves everything as it was unless the request is one that writes and its token has
-- been accepted, its bearer has one of the roles, and the limiter has let it pass. Only rows of the
-- tenant in the token change then, unless the bearer is a platform administrator.
theorem request_confined (H : Server) {w : World} {limiter : Option RateLimit.TokenBucket}
    {τ : List Ev} {c c₁ : Conf} {ev : Ev} {pid : Nat} {req : Request} (hq : ControlPlane.Quiet w)
    (hd : w.db.peers.Pairwise Domain.Peer.Apart) (hu : (ControlPlane.Table.pools.keys w.db).Nodup)
    (h : H.Runs w limiter τ c) (hreq : .spawn pid (.request req) ∈ τ) (hs : H.system.Step c ev c₁)
    (hpid : ev.pid = some pid) :
    c₁.world.1.runtime = c.world.1.runtime ∧ c₁.world.1.files = c.world.1.files ∧
    (c₁.world.1 = c.world.1 ∨ ∃ tenant p, writes req.route = some tenant ∧
      H.Passed req tenant p (System.history pid τ) ∧
      (¬ p.hasRole .platformAdmin → ControlPlane.OnlyTenant p.tenantID c.world.1.db c₁.world.1.db)) := by
  rcases h.step_cases hq hs hpid hreq with
    hw | ⟨τ', c', ev', c₁', k, f, hrun, hs', hw, hw', hp, _, hk, l, hl, he⟩
  · exact ⟨by rw [hw], by rw [hw], .inl hw⟩
  · obtain ⟨tenant, p, hroute, hpass, hcall⟩ := he.request
    rw [← hw, ← hw']
    have hr := ControlPlane.Kind.isRequest_of_caller hcall
    obtain ⟨a, ha, rfl, _⟩ := ControlPlane.account_of_spawn hrun hk
    refine ⟨ControlPlane.runtime_of_request hrun hq hk hr hs' hp,
      ControlPlane.files_of_request hrun hk hr hs' hp, .inr ⟨tenant, p, hroute, hpass.mono hl, ?_⟩⟩
    exact fun hadmin => ControlPlane.onlyTenant_of_run hq hd hu hrun ha hcall hadmin hs' hp

-- The commit of the request of the small installation.
theorem request_confined_sample :
    ∃ τ c ev c₁, Sample.server.Runs ControlPlane.Sample.world Sample.limiter τ c ∧
    Sample.server.system.Step c ev c₁ ∧ c₁.world.1.runtime = c.world.1.runtime ∧
    c₁.world.1.files = c.world.1.files ∧
    c.world.1.db.peers.length = 0 ∧ c₁.world.1.db.peers.length = 1 ∧
    ∃ p, Sample.server.Passed (Sample.createRequest "Bearer t" "k") "t" p (System.history 0 τ) ∧
      (¬ p.hasRole .platformAdmin → ControlPlane.OnlyTenant p.tenantID c.world.1.db c₁.world.1.db) := by
  have h : ((Sample.server.system.playAll (boot ControlPlane.Sample.world Sample.limiter)
      ((Sample.create 0 "Bearer t" "k").take 20)).bind fun r =>
      (Sample.server.system.play r.2 (.act 0 ({}, {}))).map fun s =>
        decide (r.1.any (Sample.Begins 0 (Sample.createRequest "Bearer t" "k")) ∧ s.1.pid = some 0 ∧
          r.2.world.1.db.peers.length = 0 ∧ s.2.world.1.db.peers.length = 1)) = some true := by
    decide +kernel
  obtain ⟨⟨τ, c⟩, hplay, hs⟩ := Option.bind_eq_some_iff.mp h
  obtain ⟨⟨ev, c₁⟩, hstep, hs⟩ := Option.map_eq_some_iff.mp hs
  obtain ⟨hb, hpid, h₁, h₂⟩ := of_decide_eq_true hs
  have hrun : Sample.server.Runs ControlPlane.Sample.world Sample.limiter τ c :=
    System.playAll_run hplay
  obtain ⟨hr, hf, hw⟩ := request_confined (w := ControlPlane.Sample.world) Sample.server
    ⟨fun _ => rfl, rfl⟩ .nil
    (List.nodup_singleton _) hrun (Sample.mem_of_begins hb) (System.play_step hstep) hpid
  refine ⟨τ, c, ev, c₁, hrun, System.play_step hstep, hr, hf, h₁, h₂, ?_⟩
  rcases hw with hw | ⟨tenant, p, ht, hp, ho⟩
  · rw [hw, h₁] at h₂
    cases h₂
  · cases ht
    exact ⟨p, hp, ho⟩

end Http.Server
