import AwgRest.Http.Answers

open Domain Store Auth Api

namespace Http

namespace Sample

def readRequest : Request where
  route         := .getPeer "t" (UUID.string 10)
  authorization := "Bearer t"

end Sample

namespace Server

variable {H : Server} {w : World} {limiter : Option RateLimit.TokenBucket} {τ : List Ev} {c : Conf}
  {pid : Nat}
  {req : Request} {resp : Response} {l : Heard} {P P' : DB → Prop}

-- At some moment after the request has come in, the database was as `P` says.
def During (H : Server) (w : World) (limiter : Option RateLimit.TokenBucket) (τ : List Ev) (pid : Nat)
    (req : Request) (P : DB → Prop) : Prop :=
  ∃ τ₁ c₁, .spawn pid (.request req) ∈ τ₁ ∧ τ₁ <+: τ ∧ H.Runs w limiter τ₁ c₁ ∧ P c₁.world.1.db

theorem During.imp (h : H.During w limiter τ pid req P) (hp : ∀ db, P db → P' db) :
    H.During w limiter τ pid req P' := by
  obtain ⟨τ₁, c₁, hreq, hτ, h₁, hdb⟩ := h
  exact ⟨τ₁, c₁, hreq, hτ, h₁, hp _ hdb⟩

-- A request that does not write never has a transaction.
theorem Runs.idle_of_reads (h : H.Runs w limiter τ c) (hq : ControlPlane.Quiet w)
    (hreq : .spawn pid (.request req) ∈ τ) (hr : writes req.route = none) :
    World.Idle pid c.world.1 := by
  obtain ⟨τ', c', hrun, hm⟩ := h.mirrors hq
  have outside {k} (hk : .spawn pid k ∈ τ') : False := by
    obtain ⟨k', l, f, hk', _, he⟩ := hm.spawn hk
    cases h.spawn_unique hreq hk'
    obtain ⟨_, _, hw, _⟩ := Enters.request he
    rw [hr] at hw
    cases hw
  have hu : c'.procs pid = .unused := by
    by_contra hn
    obtain ⟨k, hk⟩ := hrun.spawn_of_used (fun _ => rfl) hn
    exact outside hk
  exact hm.world ▸ (hm.idle hu).1

-- What such a request has read was in the database.
theorem Runs.saw (h : H.Runs w limiter τ c) (hq : ControlPlane.Quiet w)
    (hreq : .spawn pid (.request req) ∈ τ) (hr : writes req.route = none) {q : Query} {a : q.Answer}
    (hl : l <+: System.history pid τ) (hs : Saw l q a) :
    H.During w limiter τ pid req fun db => ∃ now, q.eval db now = a := by
  have ha : .act pid (.inl (.query q)) (.ok a) ∈ τ := System.mem_history.mp (hl.subset hs)
  obtain ⟨τ₁, τ₂, c₁, c₂, rfl, h₁, hstep, _, _⟩ := h.step_of_mem ha
  have hreq₁ : .spawn pid (.request req) ∈ τ₁ := by
    have hn : c₁.procs pid ≠ .unused := by
      cases hstep with | act _ hp _ => simp [hp]
    obtain ⟨k, hk⟩ := h₁.spawn_of_used (fun _ => rfl) hn
    cases h.spawn_unique hreq (List.mem_append_left _ hk)
    exact hk
  obtain ⟨x, w', hx⟩ : ∃ x w', World.exec x pid c₁.world.1 (.query q) = some (.ok a, w') := by
    cases hstep with | act x _ hx => ?_
    obtain ⟨⟨r, w'⟩, hx', heq⟩ := Option.map_eq_some_iff.mp hx
    cases heq
    exact ⟨x.1, w', hx'⟩
  have hview : c₁.world.1.view pid = c₁.world.1.db := (Runs.idle_of_reads h₁ hq hreq₁ hr).view
  refine ⟨τ₁, c₁, hreq₁, List.prefix_append .., h₁, ?_⟩
  cases World.acts_of_exec hx
  case query     => exact ⟨_, by rw [hview]⟩
  case silent hs => cases hs

-- A bearer may see the rows of the tenant in their token, and an administrator of the platform all
-- rows.
def MaySee (p : Identity) (tenantID : UUID) : Prop :=
  p.hasRole .platformAdmin ∨ p.tenantID = tenantID

theorem maySee_of_authorized {p : Identity} {tenantID : UUID} {roles : List Role}
    (h : authorizeTenant (some p.toPrincipal) tenantID roles = .ok ()) : MaySee p tenantID := by
  by_cases hadmin : p.hasRole .platformAdmin
  case pos => exact .inl hadmin
  case neg =>
    refine .inr (by_contra fun hne => ?_)
    rw [Service.authorizeTenant_foreign hadmin (Ne.symm hne)] at h
    cases h

-- What the answer to a request may show to the bearer of its token: rows that were in the database
-- while the request was served, and that belong to their tenant.
def Shows (H : Server) (w : World) (limiter : Option RateLimit.TokenBucket) (τ : List Ev) (pid : Nat)
    (req : Request) (p : Identity) : Body → Prop
  | .peer d      => ∃ peer : Peer, d = peer.document ∧ MaySee p peer.tenantID ∧
    H.During w limiter τ pid req (peer ∈ ·.peers)
  | .operation o => MaySee p o.tenantID ∧
    H.During w limiter τ pid req fun db => ∃ op ∈ db.operations, o = { op with requestHash := "" }
  | .config text => ∃ peer node profile, text = H.plane.service.skeleton peer node profile ∧
    MaySee p peer.tenantID ∧ H.During w limiter τ pid req (peer ∈ ·.peers) ∧
    H.During w limiter τ pid req (node ∈ ·.nodes) ∧
      H.During w limiter τ pid req (profile ∈ ·.profiles)
  | _            => False

def reads : Route → Bool
  | .getOperation _           => true
  | .getPeer ..               => true
  | .getPeerConfiguration ..  => true
  | _                         => false

theorem writes_of_reads {r : Route} (h : reads r) : writes r = none := by
  cases r
  all_goals first | rfl | cases h

-- Whatever else runs, the answer to a request that reads is a problem, or it shows rows of the
-- tenant in a token that has been accepted, as they were while the request was served.
theorem disclosure (H : Server) {w : World} {limiter : Option RateLimit.TokenBucket} {τ : List Ev}
    {c : Conf} {pid : Nat} {req : Request} {resp : Response} (hq : ControlPlane.Quiet w)
    (h : H.Runs w limiter τ c) (hreq : .spawn pid (.request req) ∈ τ) (hr : reads req.route)
    (hd : .done pid (.response resp) ∈ τ) :
    resp.IsProblem ∨ ∃ p, H.Reader req p (System.history pid τ) ∧
      H.Shows w limiter τ pid req p resp.body := by
  have hw := writes_of_reads hr
  have saw {l} (hl : l <+: System.history pid τ) {q : Query} {a : q.Answer} (hs : Saw l q a) :=
    h.saw hq hreq hw hl hs
  obtain ⟨l, hl, ⟨ha, _⟩ | ⟨τ', c', k, f, b, _, _, _, he, _, _⟩⟩ := h.answered hq hreq hd
  case inr =>
    obtain ⟨_, _, hw', _⟩ := he.request
    rw [hw] at hw'
    cases hw'
  cases ha
  case problem   => exact .inl (writeError_isProblem _ _)
  case health hr' => rcases hr' with hr' | hr' <;> rw [hr'] at hr <;> cases hr
  case peer p h peer _ hp hs =>
    obtain ⟨⟨id, hs⟩, hau⟩ := hs
    refine .inr ⟨p, hp.mono hl, peer, rfl, maySee_of_authorized hau,
      (saw hl hs).imp fun db ⟨_, hdb⟩ => ?_⟩
    exact List.mem_of_find?_eq_some hdb
  case configuration p h text _ hp hs =>
    obtain ⟨peer, node, profile, ⟨⟨id, hs⟩, hau⟩, ⟨id', hs'⟩, ⟨id'', hs''⟩, rfl⟩ := hs
    refine .inr ⟨p, hp.mono hl, peer, node, profile, rfl, maySee_of_authorized hau,
      (saw hl hs).imp fun db ⟨_, hdb⟩ => ?_, (saw hl hs').imp fun db ⟨_, hdb⟩ => ?_,
      (saw hl hs'').imp fun db ⟨_, hdb⟩ => ?_⟩
    all_goals exact List.mem_of_find?_eq_some hdb
  case operation p h op _ hp hs =>
    obtain ⟨⟨id, hs⟩, hau⟩ := hs
    refine .inr ⟨p, hp.mono hl, maySee_of_authorized hau, (saw hl hs).imp fun db ⟨_, hdb⟩ => ?_⟩
    obtain ⟨row, hrow, rfl⟩ := Option.map_eq_some_iff.mp hdb
    exact ⟨row, List.mem_of_find?_eq_some hrow, rfl⟩

end Server

-- The peer of the small installation is read by its tenant.
theorem Server.disclosure_sample :
    ∃ τ c resp, Sample.server.Runs ControlPlane.Sample.world Sample.limiter τ c ∧
    .done 1 (.response resp) ∈ τ ∧ ¬ resp.IsProblem ∧
    ∃ p, Sample.server.Reader Sample.readRequest p (System.history 1 τ) ∧
      Sample.server.Shows ControlPlane.Sample.world Sample.limiter τ 1 Sample.readRequest p resp.body := by
  have h : ((Sample.server.system.playAll (boot ControlPlane.Sample.world Sample.limiter)
      (Sample.create 0 "Bearer t" "k" ++ [.spawn 1 (.request Sample.readRequest),
        .act 1 ({}, {}), .act 1 ({}, {}), .act 1 ({}, {}), .act 1 ({}, {}), .done 1])).bind fun r =>
      (Sample.answer 1 r.1).map fun a =>
        decide (¬ a.IsProblem ∧ r.1.any (Sample.Begins 1 Sample.readRequest))) = some true := by
    decide +kernel
  obtain ⟨⟨τ, c⟩, hplay, hs⟩ := Option.bind_eq_some_iff.mp h
  obtain ⟨resp, ha, hs⟩ := Option.map_eq_some_iff.mp hs
  obtain ⟨hp, hb⟩ := of_decide_eq_true hs
  have hrun : Sample.server.Runs ControlPlane.Sample.world Sample.limiter τ c :=
    System.playAll_run hplay
  have hd := Sample.mem_of_answer ha
  refine ⟨τ, c, resp, hrun, hd, hp, ?_⟩
  exact (Server.disclosure Sample.server ⟨fun _ => rfl, rfl⟩ hrun
    (Sample.mem_of_begins hb) rfl hd).resolve_left hp

end Http
