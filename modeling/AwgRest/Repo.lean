import AwgRest.Ipam
import AwgRest.Store.World

open Domain Netip Store Fallible

-- The functions of the repositories that do more than one statement, or more than a statement.
namespace Repo

def query (q : Query) : Act q.Answer := call (Eff.query q)
def stmt (s : Stmt) : Act s.Answer := call (Eff.stmt s)
def auto (s : Auto) : Act s.Answer := call (Eff.auto s)

def errNotFound : Err :=
  .sentinel .notFound

-- The only row of a query, or `ErrNotFound`.
def row {α : Type} : Option α → Act α
  | some a => pure a
  | none   => throw errNotFound

def check {α : Type} : Except Err α → Act α
  | .ok a    => pure a
  | .error e => throw e

section Follows

variable {Φ α : Type} {P : Protocol (fun e : Eff => Except Err e.Answer) Φ} {φ : Φ}
  {Q : Φ → Except Err α → Prop}

theorem follows_row {a : Option α} (hsome : ∀ {b}, a = some b → Q φ (.ok b))
    (hnone : Q φ (.error errNotFound)) : (row a).run.Follows P Q φ := by
  cases a
  case none   => exact hnone
  case some b => exact hsome rfl

theorem follows_check {x : Except Err α} (hok : ∀ {a}, x = .ok a → Q φ (.ok a))
    (herr : ∀ {e}, x = .error e → Q φ (.error e)) : (check x).run.Follows P Q φ := by
  cases x
  case ok    => exact hok rfl
  case error => exact herr rfl

end Follows

-- `fn` returns an error, if there is one, and the variables that it shares with its caller. They have
-- their initial values where `fn` fails with the error of a statement.
def inTx {σ : Type} (init : σ) (fn : Act (Option Err × σ)) : Act (Option Err × σ) := do
  match ← attempt (call Eff.begin) with
  | .error e => pure (some (e.wrap "begin tx: "), init)
  | .ok _ =>
    match ← attempt fn with
    | .error e        => do let _ ← attempt (call Eff.rollback); pure (some e, init)
    | .ok (some e, s) => do let _ ← attempt (call Eff.rollback); pure (some e, s)
    | .ok (none, s)   =>
      match ← attempt (call Eff.commit) with
      | .error e => pure (some e, s)
      | .ok _    => pure (none, s)

section Transaction

variable {Φ σ : Type} {P : Protocol (fun e : Eff => Except Err e.Answer) Φ} {φ : Φ} {init : σ}
  {Q : Φ → Except Err (Option Err × σ) → Prop}

-- What has to hold when the function of a transaction returns: it is rolled back if there is an
-- error, and committed otherwise.
def Ends (P : Protocol (fun e : Eff => Except Err e.Answer) Φ) (init : σ)
    (Q : Φ → Except Err (Option Err × σ) → Prop) (φ : Φ) : Except Err (Option Err × σ) → Prop
  | .error e        =>
    P.Allows φ .rollback ∧ ∀ r, P.Answers .rollback r → Q (P.next φ .rollback r) (.ok (some e, init))
  | .ok (some e, s) =>
    P.Allows φ .rollback ∧ ∀ r, P.Answers .rollback r → Q (P.next φ .rollback r) (.ok (some e, s))
  | .ok (none, s)   =>
    P.Allows φ .commit ∧
    (P.Answers .commit (.ok ()) → Q (P.next φ .commit (.ok ())) (.ok (none, s))) ∧
    ∀ e, P.Answers .commit (.error e) → Q (P.next φ .commit (.error e)) (.ok (some e, s))

theorem follows_rolledBack {a : Option Err × σ} (ha : P.Allows φ .rollback)
    (h : ∀ r, P.Answers .rollback r → Q (P.next φ .rollback r) (.ok a)) :
    (do let _ ← attempt (call Eff.rollback); pure a : Act (Option Err × σ)).run.Follows P Q φ :=
  follows_bind_of <| follows_attempt.mpr <|
    (follows_call (e := Eff.rollback)).mpr ⟨ha, fun _ => h _, fun _ => h _⟩

theorem follows_transaction {fn : Act (Option Err × σ)} (ha : P.Allows φ .begin)
    (hbegin : ∀ e, P.Answers .begin (.error e) →
      Q (P.next φ .begin (.error e)) (.ok (some (e.wrap "begin tx: "), init)))
    (hfn : P.Answers .begin (.ok ()) →
      fn.run.Follows P (Ends P init Q) (P.next φ .begin (.ok ()))) :
    (inTx init fn).run.Follows P Q φ := by
  refine follows_bind_of <| follows_attempt.mpr <|
    (follows_call (e := Eff.begin)).mpr ⟨ha, fun _ hr => ?_, hbegin⟩
  refine follows_bind_of <| follows_attempt.mpr <| (hfn hr).mono ?_
  rintro φ (e | ⟨_ | e, s⟩)
  case error   => exact fun h => follows_rolledBack h.1 h.2
  case ok.some => exact fun h => follows_rolledBack h.1 h.2
  case ok.none =>
    rintro ⟨ha, hok, herr⟩
    exact follows_bind_of <| follows_attempt.mpr <|
      (follows_call (e := Eff.commit)).mpr ⟨ha, fun _ => hok, herr⟩

end Transaction

namespace Peers

def gatewayAddress (pool : Prefix) : Option Addr :=
  let pool := pool.masked
  if !pool.addr.is4 ∨ 31 ≤ pool.bits then none
  else pool.addr.next.filter (fun a => pool.contains (some a))

-- The addresses that the allocator skips: those in use and the gateway.
def reserved (pool : Prefix) (used : List Addr) (a : Addr) : Bool :=
  a ∈ used ∨ gatewayAddress pool = some a

def allocateAndInsert (p : InsertParams) : Act Peer := do
  let pool ← mapErr (·.wrap "lock pool: ") (stmt (.lockPool p.nodeID p.tenantID))
  match pool with
  | none => throw (.new ("no address pool configured for node " ++ p.nodeID.string))
  | some pool => do
    let used ← mapErr (·.wrap "load used ips: ") (query (.usedAddrs p.nodeID))
    match Ipam.allocate pool.cidr pool.cursor (reserved pool.cidr used) with
    | .exhausted   => throw (.sentinel .ipPoolExhausted)
    | .unfinished  => do let never ← call Eff.diverge; nomatch (never : Empty)
    | .allocated a => do
      mapErr (·.wrap "update cursor: ") (stmt (.updateCursor a.nextCursor pool.id))
      mapErr (fun e => if .uniqueViolation ∈ e.is then .sentinel .peerExists else e)
        (stmt (.insertPeer p a.address))

end Peers
end Repo
