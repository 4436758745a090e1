import AwgRest.Auth.Acceptance
import AwgRest.Http.Reads

open Domain Store Auth Api Fallible Repo

namespace Store.World

variable {c : Choice} {pid q : Nat} {w w' : World} {e : Eff} {r : Except Err e.Answer}

-- The process has neither a transaction nor a lock.
structure Idle (pid : Nat) (w : World) : Prop where
  tx    : w.txs pid = none
  locks : ∀ l ∈ w.locks, l.2 ≠ pid

theorem Idle.view (h : Idle pid w) : w.view pid = w.db := by
  rw [Transactions.view, Transactions.pending, h.tx]
  rfl

theorem Idle.abort_self (h : Idle pid w) : w.abort pid = w := by
  have htxs : Function.update w.txs pid none = w.txs := Function.update_eq_self_iff.mpr h.tx.symm
  have hlocks : w.locks.filter (·.2 ≠ pid) = w.locks :=
    List.filter_eq_self.mpr fun l hl => by simpa using h.locks l hl
  rw [abort, Transactions.abort, htxs, hlocks]

theorem Idle.abort (h : Idle pid w) (hq : q ≠ pid) : Idle pid (w.abort q) where
  tx    := (Function.update_of_ne hq.symm _ _).trans h.tx
  locks := fun l hl => h.locks l (List.mem_filter.mp hl).1

theorem Idle.acts (h : Idle pid w) (hq : q ≠ pid) (ha : Acts q w e r w') : Idle pid w' := by
  cases ha
  case begin    => exact ⟨(Function.update_of_ne hq.symm _ _).trans h.tx, h.locks⟩
  case stmt     =>
    refine ⟨(Function.update_of_ne hq.symm _ _).trans h.tx, fun l hl => ?_⟩
    rcases List.mem_append.mp hl with hl | hl
    · exact h.locks l hl
    · obtain ⟨_, _, rfl⟩ := List.mem_map.mp hl
      exact hq
  case commit   => exact ⟨(h.abort hq).tx, (h.abort hq).locks⟩
  case lost     => exact h.abort hq
  case rollback => exact h.abort hq
  all_goals exact ⟨h.tx, h.locks⟩

end Store.World

namespace ControlPlane

theorem idleness (C : ControlPlane) : C.system.Idleness World.Idle where
  self h        := h.abort_self
  exec hq hx h  := h.acts hq (World.acts_of_exec hx)
  abort hq h    := h.abort hq
  tick h        := ⟨h.tx, h.locks⟩

end ControlPlane

namespace Http

namespace Server

variable {H : Server} {req : Request} {h : Header} {p : Identity} {tenant : String}
  {l l' : Heard} {f : Response → Result}

-- The token of the request was accepted when the clock was read.
def Authenticated (H : Server) (req : Request) (p : Identity) (l : Heard) : Prop :=
  ∃ tok now, bearer req = some tok ∧ ⟨.inr .clock, now⟩ ∈ l ∧
    H.validator.validate H.jwt now tok = .ok p

theorem Authenticated.mono (h : H.Authenticated req p l) (hl : l <+: l') :
    H.Authenticated req p l' := by
  obtain ⟨tok, now, hb, hm, hv⟩ := h
  exact ⟨tok, now, hb, hl.subset hm, hv⟩

-- The request has such a token, its bearer has a role for writing, and the limiter has let it pass.
structure Passed (H : Server) (req : Request) (tenant : String) (p : Identity)
    (l : Heard) : Prop where
  token   : H.Authenticated req p l
  limiter : ∃ now, ⟨.inr (.allow (limitKey p tenant)), now, .next⟩ ∈ l
  role    : p.hasAnyRole writers

theorem Passed.mono (h : H.Passed req tenant p l) (hl : l <+: l') : H.Passed req tenant p l' where
  token   := h.token.mono hl
  limiter := h.limiter.imp fun _ hm => hl.subset hm
  role    := h.role

-- The results of the two kinds of requests that write. The others do not occur.

def created : ControlPlane.Result → CreatePeerResponse × Int
  | .created resp status => (resp, status)
  | _                    => ({}, 0)

def revoked : ControlPlane.Result → UUID
  | .revoked opID => opID
  | _             => 0

-- What a process of the server does in the control plane, after what it has heard, and what it
-- makes of the result.
inductive Enters (H : Server) :
    Kind → Heard → ControlPlane.Kind → (Except Err ControlPlane.Result → Result) → Prop
  | background {k l} : Enters H (.background k) l k .background
  | create {req tenant p r h l} :
    req.route = .createPeer tenant → H.Passed req tenant p l → H.decodeCreate req.body = .ok r →
    Enters H (.request req) l (.createPeer (some p.toPrincipal) tenant req.idempotencyKey r)
      (fun b => .response (writeCreated h (b.map created)))
  | revoke {req tenant id p h l} :
    req.route = .revokePeer tenant id → H.Passed req tenant p l →
    Enters H (.request req) l
      (.revokePeer (some p.toPrincipal) tenant id req.idempotencyKey (H.decodeReason req.body))
      (fun b => .response (writeRevoked h (b.map revoked)))

-- A request that reads, from a bearer with a role for that.
structure Reader (H : Server) (req : Request) (p : Identity) (l : Heard) : Prop where
  token : H.Authenticated req p l
  role  : p.hasAnyRole readers

theorem Reader.mono (h : H.Reader req p l) (hl : l <+: l') : H.Reader req p l' :=
  ⟨h.token.mono hl, h.role⟩

-- What a request is answered without entering the control plane.
inductive Answers (H : Server) (req : Request) (l : Heard) : Response → Prop
  | problem {h e} : Answers H req l (writeError h e)
  | health {h s} :
    req.route = .healthLive ∨ req.route = .healthReady → Answers H req l (writeJSON h 200 (.status s))
  | peer {tenant id p h peer} :
    req.route = .getPeer tenant id → H.Reader req p l → SawPeer (some p.toPrincipal) l peer →
    Answers H req l (writePeer h (.ok peer))
  | configuration {tenant id p h text} :
    req.route = .getPeerConfiguration tenant id → H.Reader req p l →
    SawConfiguration H.plane.service (some p.toPrincipal) l text →
    Answers H req l (writeConfiguration h (.ok text))
  | operation {id p h op} :
    req.route = .getOperation id → H.Reader req p l → SawOperation (some p.toPrincipal) l op →
    Answers H req l (writeOperation h (.ok op))

def contract (H : Server) (k : Kind) :
    System.Contract (Sum.elim Reply Need.Answer) ControlPlane.Kind
      (Except Err ControlPlane.Result) Result where
  enters       := H.Enters k
  answers l b  := ∃ req resp, k = .request req ∧ b = .response resp ∧ H.Answers req l resp

abbrev Served (H : Server) (req : Request) (l : Heard) (x : Serve Response) : Prop :=
  System.Serves H.plane.system (H.contract (.request req)) l (x >>= fun r => .ret (.response r))

theorem served_pure {resp : Response} (h : H.Answers req l resp) : H.Served req l (pure resp) :=
  .ret ⟨req, resp, rfl, rfl, h⟩

theorem served_requestID {next : Header → Serve Response} (hn : ∀ h l, H.Served req l (next h)) :
    H.Served req l (requestID req next) := by
  unfold requestID
  split
  case isTrue  => exact .front fun _ => hn _ _
  case isFalse => exact hn _ _

theorem served_authenticator {next : Identity → Serve Response}
    (hn : ∀ p l, H.Authenticated req p l → H.Served req l (next p)) :
    H.Served req l (H.authenticator req h next) := by
  unfold authenticator
  split
  case h_1        => exact served_pure .problem
  case h_2 tok ht =>
    refine .front fun now => ?_
    simp only [Prog.bind]
    split
    case h_1      => exact served_pure .problem
    case h_2 p hv => exact hn p _ ⟨tok, now, ht, by simp, hv⟩

theorem served_rateLimit {next : Serve Response}
    (hn : ∀ now, H.Served req (l ++ [⟨.inr (.allow (limitKey p tenant)), now, .next⟩]) next) :
    H.Served req l (rateLimit p tenant h next) := by
  refine .front fun ⟨now, outcome⟩ => ?_
  cases outcome
  case next             => exact hn now
  case rateLimited secs =>
    cases secs
    all_goals exact served_pure .problem

theorem served_requireRoles {roles : List Role} {next : Serve Response}
    (hn : p.hasAnyRole roles → H.Served req l next) :
    H.Served req l (requireRoles roles p h next) := by
  unfold requireRoles
  cases hr : p.hasAnyRole roles
  case false => exact served_pure .problem
  case true  => exact hn hr

theorem served_reading {handler : Identity → Header → Serve Response}
    (hn : ∀ p l, H.Reader req p l → H.Served req l (handler p h)) :
    H.Served req l (H.reading req h handler) :=
  served_authenticator fun p l ht => served_requireRoles fun hr => hn p l ⟨ht, hr⟩

theorem served_writing {handler : Identity → Header → Serve Response}
    (hn : ∀ p l, H.Passed req tenant p l → H.Served req l (handler p h)) :
    H.Served req l (H.writing req tenant h handler) := by
  refine served_authenticator fun p l ht => served_rateLimit fun t => served_requireRoles fun hr => ?_
  exact hn p _ ⟨ht.mono (List.prefix_append ..), ⟨t, by simp⟩, hr⟩

-- A handler that reads. What it has read is heard after what came before.
theorem served_looking {α : Type} {x : Act α} {g : Except Err α → Response} {P : Heard → α → Prop}
    (hx : Looks H.plane P l x) (hok : ∀ l' a, l <+: l' → P l' a → H.Answers req l' (g (.ok a)))
    (herr : ∀ l' e, H.Answers req l' (g (.error e))) :
    H.Served req l (service x >>= fun a => .ret (g a)) := by
  rw [Served, service, Prog.bind_assoc]
  refine .lift_bind ((System.follows_looking hx).mono fun l' r hr => served_pure ?_)
  obtain ⟨hl, hr⟩ := hr
  cases r
  case error e => exact herr l' e
  case ok a    => exact hok l' a hl hr

-- A method of the service, and the program of the control plane that runs it.
theorem run_bind_pure {α β : Type} (x : Act α) (g : α → β) :
    (do pure (g (← x)) : Act β).run = x.run >>= fun r => .ret (r.map g) := by
  rw [ExceptT.run_bind]
  refine congrArg (x.run >>= ·) (funext fun r => ?_)
  cases r <;> rfl

theorem enters_service {α : Type} (x : Act α) (g : α → ControlPlane.Result)
    (w : Except Err α → Response) (u : ControlPlane.Result → α) (hu : ∀ a, u (g a) = a) :
    ((service x >>= fun a => .ret (w a)) >>= fun r => (.ret (.response r) : Serve Result)) =
      ((do pure (g (← x)) : Act ControlPlane.Result).run.lift Need.Answer >>=
        fun b => .ret (.response (w (b.map u)))) := by
  rw [service, Prog.bind_assoc, run_bind_pure, Prog.lift_bind, Prog.bind_assoc]
  refine congrArg (x.run.lift Need.Answer >>= ·) (funext fun r => ?_)
  have hr : (r.map g).map u = r := by
    cases r
    case error => rfl
    case ok a  => exact congrArg Except.ok (hu a)
  show Prog.ret (Result.response (w r)) = Prog.ret (Result.response (w ((r.map g).map u)))
  rw [hr]

theorem serves (H : Server) (k : Kind) : H.plane.system.Serves (H.contract k) [] (H.prog k) := by
  cases k
  case background k => exact .enter .background rfl
  case request req  =>
    refine served_requestID fun h l => ?_
    cases hr : req.route
    case healthLive  => exact served_pure (.health (.inl hr))
    case healthReady =>
      refine .front fun e => ?_
      cases e
      case none   => exact served_pure (.health (.inr hr))
      case some e => exact served_pure .problem
    case getOperation id =>
      refine served_reading fun p l hp =>
        served_looking (looks_getOperation id) (fun l' op hl ho => ?_) fun _ _ => .problem
      exact .operation hr (hp.mono hl) ho
    case getPeer tenant id =>
      refine served_reading fun p l hp =>
        served_looking (looks_getPeer tenant id) (fun l' peer hl ho => ?_) fun _ _ => .problem
      exact .peer hr (hp.mono hl) ho
    case getPeerConfiguration tenant id =>
      refine served_reading fun p l hp => ?_
      unfold getPeerConfiguration
      split
      case isTrue  => exact served_pure .problem
      case isFalse =>
        refine served_looking (looks_peerConfiguration tenant id)
          (fun l' text hl ho => ?_) fun _ _ => .problem
        exact .configuration hr (hp.mono hl) ho
    case createPeer tenant =>
      refine served_writing fun p l hp => ?_
      unfold createPeer
      cases hd : H.decodeCreate req.body
      case error => exact served_pure .problem
      case ok r  =>
        exact .enter (.create hr hp hd)
          (enters_service _ (fun a : CreatePeerResponse × Int => .created a.1 a.2) _ _ fun _ => rfl)
    case revokePeer tenant id =>
      exact served_writing fun p l hp => .enter (.revoke hr hp) (enters_service _ .revoked _ _ fun _ => rfl)

abbrev Mirrors (H : Server) := System.Front.Mirrors (A := Need.Answer) (V := Option RateLimit.TokenBucket)
  H.plane.system H.contract World.Idle

theorem idle_of_quiet {w : World} (hq : ControlPlane.Quiet w) (pid : Nat) : World.Idle pid w :=
  ⟨hq.txs pid, by simp [hq.locks]⟩

variable {w : World} {limiter : Option RateLimit.TokenBucket} {τ : List Ev} {c c₁ : Conf} {ev : Ev}
  {pid : Nat}

abbrev Runs (H : Server) (w : World) (limiter : Option RateLimit.TokenBucket) (τ : List Ev)
    (c : Conf) : Prop :=
  H.system.Run (fun _ _ _ => True) (boot w limiter) τ c

theorem Runs.mirrors (h : H.Runs w limiter τ c) (hq : ControlPlane.Quiet w) :
    ∃ τ' c', H.plane.Runs ControlPlane.unguarded w τ' c' ∧ H.Mirrors τ c τ' c' :=
  System.Front.mirrors_of_run H.plane.idleness H.serves (idle_of_quiet hq) h

-- A step of a request, inside the control plane or not.
theorem Runs.step_cases (h : H.Runs w limiter τ c) (hq : ControlPlane.Quiet w)
    (hs : H.system.Step c ev c₁) (hpid : ev.pid = some pid) (hreq : .spawn pid (.request req) ∈ τ) :
    c₁.world.1 = c.world.1 ∨
    ∃ τ' c' ev' c₁' k f, H.plane.Runs ControlPlane.unguarded w τ' c' ∧
      H.plane.system.Step c' ev' c₁' ∧
      c'.world = c.world.1 ∧ c₁'.world = c₁.world.1 ∧ ev'.pid = some pid ∧
      (∀ {e r}, ev' = .act pid e r → .act pid (.inl e) r ∈ τ ++ [ev]) ∧ .spawn pid k ∈ τ' ∧
      ∃ l, l <+: System.history pid τ ∧ H.Enters (.request req) l k f := by
  rcases System.Front.step_of_run H.plane.idleness H.serves (idle_of_quiet hq) h hs with hw | hin
  · exact .inl hw
  · obtain ⟨τ', c', ev', c₁', hrun, hs', hw, hw', hp, ha, hk⟩ := hin
    obtain ⟨k', l, k, f, hk', hl, hk, he⟩ := hk hpid
    cases h.spawn_unique hreq hk'
    exact .inr ⟨τ', c', ev', c₁', k, f, hrun, hs', hw, hw', hp.trans hpid, ha, hk, l, hl, he⟩

-- The server does what the control plane does: every run of it is one of the control plane on the
-- same database, executor and files. Only workers, commands, and requests that write and have
-- passed the middleware are processes of that run. What they return is what is answered.
theorem refines (H : Server) {w : World} {limiter : Option RateLimit.TokenBucket} {τ : List Ev}
    {c : Conf} (hq : ControlPlane.Quiet w) (h : H.Runs w limiter τ c) :
    ∃ τ' c', H.plane.Runs ControlPlane.unguarded w τ' c' ∧ H.Mirrors τ c τ' c' :=
  h.mirrors hq

end Server

namespace Sample

def claims : List (String × Claim) :=
  [("exp", .number 100), ("roles", .list [some "tenant_admin"]), ("tenant_id", .string "4")]

-- A token that is signed with the secret of the server, and one with the same claims that is not.
def known : List Auth.Sample.Issued :=
  [⟨"t", "HS256", [], claims, .secret [1]⟩, ⟨"u", "HS256", [], claims, .secret [2]⟩]

def server : Server where
  plane          := ControlPlane.Sample.plane
  jwt            := Auth.Sample.jwt known fun s => if s = "4" then some 4 else none
  validator      := .hmac ⟨[1], "", "", [], 0⟩
  decodeCreate _ := .ok { externalID := "x" }
  decodeReason _ := ""

abbrev Schedule := List (System.Move (Choice × Draw) Kind Nat)

-- The moves of a process of the control plane, after those of the middleware.
def inside (ms : ControlPlane.Sample.Schedule) : Schedule :=
  ms.filterMap fun
    | .act pid x => some (.act pid (x, {}))
    | .done pid  => some (.done pid)
    | _          => none

def createRequest (authorization key : String) : Request where
  route          := .createPeer "t"
  authorization  := authorization
  idempotencyKey := key

def create (pid : Nat) (authorization key : String) : Schedule :=
  [.spawn pid (.request (createRequest authorization key)),
    .act pid ({}, {}), .act pid ({}, {}), .act pid ({}, {})] ++
  inside (ControlPlane.Sample.create pid key "x" ⟨"a", ""⟩ 10 11 12)

def limiter : Option RateLimit.TokenBucket :=
  some (RateLimit.newTokenBucket 1 1)

def Begins (pid : Nat) (req : Request) : Ev → Bool
  | .spawn q (.request r) => q = pid ∧ r = req
  | _                     => false

theorem mem_of_begins {pid : Nat} {req : Request} {τ : List Ev} (h : τ.any (Begins pid req)) :
    .spawn pid (.request req) ∈ τ := by
  obtain ⟨ev, hev, hb⟩ := List.any_eq_true.mp h
  unfold Begins at hb
  split at hb
  case h_1 =>
    obtain ⟨rfl, rfl⟩ := of_decide_eq_true hb
    exact hev
  case h_2 => cases hb

def Answers (status : Int) : Ev → Bool
  | .done _ (.response r) => r.status = status
  | _                     => false

end Sample

theorem Server.refines_sample :
    ∃ τ c τ' c', Sample.server.Runs ControlPlane.Sample.world Sample.limiter τ c ∧
    τ.any (Sample.Answers 202) ∧
    Sample.server.plane.Runs ControlPlane.unguarded ControlPlane.Sample.world τ' c' ∧
    Sample.server.Mirrors τ c τ' c' := by
  have h : ((Sample.server.system.playAll (boot ControlPlane.Sample.world Sample.limiter)
      (Sample.create 0 "Bearer t" "k")).map fun r => r.1.any (Sample.Answers 202)) =
        some true := by decide +kernel
  obtain ⟨⟨τ, c⟩, hplay, hs⟩ := Option.map_eq_some_iff.mp h
  have hrun : Sample.server.Runs ControlPlane.Sample.world Sample.limiter τ c :=
    System.playAll_run hplay
  obtain ⟨τ', c', h', hm⟩ := Server.refines Sample.server ⟨fun _ => rfl, rfl⟩ hrun
  exact ⟨τ, c, τ', c', hrun, hs, h', hm⟩

end Http
