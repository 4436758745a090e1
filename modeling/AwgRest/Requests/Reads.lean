import AwgRest.Api.Service
import AwgRest.Store.Session

open Domain Store Fallible Repo Auth

-- Programs that only read, as functions of the database.
namespace Store

abbrev Handler (S : Type) := Nat × S → (e : Eff) → Option (Except Err e.Answer × Nat × S)

variable {S α β : Type} {h : Handler S} {s : S} {db : DB} {now : Time}

-- Queries are answered from `db`.
def Looks (h : Handler S) (s : S) (db : DB) (now : Time) : Prop :=
  ∀ n q, h (n, s) (.query q) = some (.ok (q.eval db now), n + 1, s)

theorem Looks.session (o : Oracle) (σ : Session) : Looks (Session.step o) σ σ.view σ.world.now :=
  fun _ _ => rfl

theorem Looks.world {o : Oracle} {pid : Nat} {w : World} (ho : o.Benign) :
    Looks (World.alone o pid) w (w.view pid) (((w.txs pid).map Tx.start).getD w.now) := by
  intro n q
  simp only [World.alone, World.exec, ho n]
  rfl

theorem Looks.solo (hl : Looks h s db now) (n : Nat) (q : Query) :
    (query q).run.solo h (n, s) = some (.ok (q.eval db now), n + 1, s) :=
  (solo_call _).trans (hl n q)

-- The program returns `r` and changes nothing.
def Reads (h : Handler S) (s : S) (p : Act α) (r : Except Err α) : Prop :=
  ∀ n, ∃ m, p.run.solo h (n, s) = some (r, m, s)

def rowOf : Option α → Except Err α
  | some a => .ok a
  | none   => .error errNotFound

@[simp]
theorem ok_bind (a : α) (f : α → Except Err β) : (Except.ok a >>= f) = f a :=
  rfl

@[simp]
theorem error_bind (e : Err) (f : α → Except Err β) : (Except.error e >>= f) = .error e :=
  rfl

theorem bind_eq_ok {x : Except Err α} {f : α → Except Err β} {b : β} :
    (x >>= f) = .ok b ↔ ∃ a, x = .ok a ∧ f a = .ok b := by
  cases x <;> simp

theorem rowOf_eq_ok {x : Option α} {a : α} : rowOf x = .ok a ↔ x = some a := by
  cases x <;> simp [rowOf]

theorem reads_pure (a : α) : Reads h s (pure a) (.ok a) :=
  fun n => ⟨n, rfl⟩

theorem reads_throw (e : Err) : Reads h s (throw e : Act α) (.error e) :=
  fun n => ⟨n, rfl⟩

theorem reads_row (a : Option α) : Reads h s (row a) (rowOf a) := by
  cases a
  case none   => exact reads_throw _
  case some a => exact reads_pure a

theorem reads_check (x : Except Err α) : Reads h s (check x) x := by
  cases x
  case error e => exact reads_throw e
  case ok a    => exact reads_pure a

theorem reads_bind {x : Act α} {f : α → Act β} {r : Except Err α} {g : α → Except Err β}
    (hx : Reads h s x r) (hf : ∀ a, Reads h s (f a) (g a)) : Reads h s (x >>= f) (r >>= g) := by
  intro n
  obtain ⟨m, hm⟩ := hx n
  cases r
  case error e => exact ⟨m, solo_bind_error hm⟩
  case ok a    =>
    obtain ⟨m', hm'⟩ := hf a m
    exact ⟨m', (solo_bind_ok hm).trans hm'⟩

theorem reads_query {q : Query} {f : q.Answer → Act β} {r : Except Err β} (hl : Looks h s db now)
    (hf : Reads h s (f (q.eval db now)) r) : Reads h s (query q >>= f) r := by
  intro n
  obtain ⟨m, hm⟩ := hf (n + 1)
  exact ⟨m, (solo_bind_ok (hl.solo n q)).trans hm⟩

end Store

namespace Api.Service

variable {S : Type} {h : Handler S} {v : S} {now : Time} (s : Service) (db : DB)
  (caller : Option Principal) (slug id : String)

def readOperation : Except Err Operation :=
  match s.parseUUID id with
  | none    => throw (invalid "id" "invalid" "must be a UUID")
  | some id => do
    let op ← rowOf (Query.eval db 0 (.operationByID id))
    authorizeTenant caller op.tenantID readers
    pure op

def readPeer : Except Err Peer := do
  let tenant ← rowOf (Query.eval db 0 (.tenantBySlug slug))
  authorizeTenant caller tenant.id readers
  match s.parseUUID id with
  | none    => throw (invalid "id" "invalid" "must be a UUID")
  | some id => do
    let p ← rowOf (Query.eval db 0 (.peerByID id))
    if p.tenantID ≠ tenant.id then throw errNotFound else pure p

def readConfiguration : Except Err (List Char) := do
  let peer ← s.readPeer db caller slug id
  let node ← rowOf (Query.eval db 0 (.nodeByID peer.nodeID))
  match node.profileID with
  | none => throw (invalid "node_id" "profile_unassigned" "node has no protocol profile assigned")
  | some profileID => do
    let profile ← rowOf (Query.eval db 0 (.profileByID profileID))
    pure (s.skeleton peer node profile)

variable {db}

theorem reads_getOperation (hl : Looks h v db now) :
    Reads h v (s.getOperation caller id) (s.readOperation db caller id) := by
  unfold getOperation readOperation
  cases s.parseUUID id
  case none => exact reads_throw _
  case some =>
    refine reads_query hl <| reads_bind (reads_row _) fun op => ?_
    exact reads_bind (reads_check _) fun _ => reads_pure op

theorem reads_getPeer (hl : Looks h v db now) :
    Reads h v (s.getPeer caller slug id) (s.readPeer db caller slug id) := by
  refine reads_query hl <| reads_bind (reads_row _) fun tenant =>
    reads_bind (reads_check _) fun _ => ?_
  cases s.parseUUID id
  case none => exact reads_throw _
  case some =>
    refine reads_query hl <| reads_bind (reads_row _) fun p => ?_
    split
    case isTrue  => exact reads_throw _
    case isFalse => exact reads_pure p

theorem reads_getPeerDocument (hl : Looks h v db now) :
    Reads h v (s.getPeerDocument caller slug id) (do pure (← s.readPeer db caller slug id).document) :=
  reads_bind (s.reads_getPeer caller slug id hl) fun _ => reads_pure _

theorem reads_peerConfiguration (hl : Looks h v db now) :
    Reads h v (s.peerConfiguration caller slug id) (s.readConfiguration db caller slug id) := by
  refine reads_bind (s.reads_getPeer caller slug id hl) fun peer => ?_
  refine reads_query hl <| reads_bind (reads_row _) fun node => ?_
  cases node.profileID
  case none => exact reads_throw _
  case some => exact reads_query hl <| reads_bind (reads_row _) fun _ => reads_pure _

end Api.Service
