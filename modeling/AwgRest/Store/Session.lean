import AwgRest.Repo

open Domain Fallible Repo

-- What a process does while no other runs and nothing fails.
namespace Store

-- The choices of the environment, one for each effect of the process.
abbrev Oracle := Nat → Choice

def Oracle.Benign (o : Oracle) : Prop :=
  ∀ n, (o n).fault = none

def World.alone (o : Oracle) (pid : Nat) :
    Nat × World → (e : Eff) → Option (Except Err e.Answer × Nat × World)
  | (n, w), e => (World.exec (o n) pid w e).map fun (r, w') => (r, n + 1, w')

-- What a program returns and the world that it leaves behind, unless it waits or runs forever.
def World.outcome {α : Type} (o : Oracle) (pid : Nat) (w : World) (p : Act α) :
    Option (Except Err α × World) :=
  (p.run.solo (World.alone o pid) (0, w)).map fun (r, _, w') => (r, w')

-- A simpler view of the same: the world as it was before the transaction of the process, and what the
-- transaction has written. There are no locks, since there is nobody to wait for.
structure Session where
  world : World
  tx    : Option (List Write) := none

namespace Session

def view (σ : Session) : DB :=
  Transactions.replay σ.world.db (σ.tx.getD [])

def exec (x : Choice) (σ : Session) : (e : Eff) → Option (Except Err e.Answer × Session)
  | .query q => some (.ok (q.eval σ.view σ.world.now), σ)
  | .begin =>
    match σ.tx with
    | none   => some (.ok (), { σ with tx := some [] })
    | some _ => none
  | .stmt s =>
    match σ.tx with
    | none    => none
    | some ws =>
      match s.eval σ.view σ.world.now x.id with
      | none            => none
      | some (.error e) => some (.error e, σ)
      | some (.ok a)    => some (.ok a, { σ with tx := some (ws ++ s.writes a) })
  | .commit =>
    match σ.tx with
    | none   => none
    | some _ => some (.ok (), ⟨{ σ.world with db := σ.view }, none⟩)
  | .rollback => some (.ok (), { σ with tx := none })
  | e => (World.exec x 0 σ.world e).map fun (r, w) => (r, { σ with world := w })

def step (o : Oracle) : Nat × Session → (e : Eff) → Option (Except Err e.Answer × Nat × Session)
  | (n, σ), e => (σ.exec (o n) e).map fun (r, σ') => (r, n + 1, σ')

-- How the world looks while the process is in its transaction.
structure Opened (pid : Nat) (σ : Session) (w : World) : Prop where
  db      : w.db = σ.world.db
  runtime : w.runtime = σ.world.runtime
  files   : w.files = σ.world.files
  now     : w.now = σ.world.now
  tx      : w.txs pid = σ.tx.map (Tx.mk σ.world.now)
  others  : ∀ q, q ≠ pid → w.txs q = none
  locks   : ∀ l ∈ w.locks, l.2 = pid
  closed  : σ.tx = none → w.locks = []

variable {pid : Nat} {σ σ' : Session} {w w' : World} {o : Oracle} {x : Choice} {e : Eff}

namespace Opened

theorem view (h : Opened pid σ w) : w.view pid = σ.view := by
  rw [Transactions.view, Transactions.pending, h.tx, h.db, Session.view]
  cases σ.tx <;> rfl

theorem time (h : Opened pid σ w) : ((w.txs pid).map Tx.start).getD w.now = σ.world.now := by
  rw [h.tx, h.now]
  cases σ.tx <;> rfl

-- The transaction ends.
theorem close (h : Opened pid σ w) (d : DB) :
    Opened pid ⟨{ σ.world with db := d }, none⟩
      { w with toTransactions := { w.toTransactions.abort pid with db := d } } where
  db      := rfl
  runtime := h.runtime
  files   := h.files
  now     := h.now
  tx      := by simp [Transactions.abort]
  others  := fun q hq => by simp [Transactions.abort, hq, h.others q hq]
  locks   := fun l hl => h.locks l (List.mem_filter.mp hl).1
  closed  := fun _ => by
    refine List.filter_eq_nil_iff.mpr fun l hl => ?_
    simp [h.locks l hl]

theorem rollback (h : Opened pid σ w) :
    Opened pid ⟨σ.world, none⟩ { w with toTransactions := w.toTransactions.abort pid } :=
  { h.close w.db with db := h.db }

theorem commit (h : Opened pid σ w) :
    Opened pid ⟨{ σ.world with db := σ.view }, none⟩
      { w with toTransactions := w.toTransactions.commit pid } := by
  rw [← h.view]
  exact h.close _

theorem begin (h : Opened pid σ w) :
    Opened pid ⟨σ.world, some []⟩ { w with toTransactions := w.toTransactions.begin pid w.now } where
  db      := h.db
  runtime := h.runtime
  files   := h.files
  now     := h.now
  tx      := by simp [Transactions.begin, h.now]
  others  := fun q hq => by simp [Transactions.begin, hq, h.others q hq]
  locks   := h.locks
  closed  := fun h => by cases h

theorem write (h : Opened pid σ w) {ws ws' : List Write} {extra : List Lock} (ht : σ.tx = some ws) :
    Opened pid ⟨σ.world, some (ws ++ ws')⟩ { w with toTransactions := w.write pid extra ws' } where
  db      := h.db
  runtime := h.runtime
  files   := h.files
  now     := h.now
  tx      := by simp [Transactions.write, h.tx, ht]
  others  := fun q hq => by simp [Transactions.write, hq, h.others q hq]
  locks   := fun l hl => by
    rcases List.mem_append.mp hl with hl | hl
    · exact h.locks l hl
    · obtain ⟨_, _, rfl⟩ := List.mem_map.mp hl
      rfl
  closed  := fun h => by cases h

theorem init (ht : ∀ q, w.txs q = none) (hl : w.locks = []) : Opened pid ⟨w, none⟩ w where
  db      := rfl
  runtime := rfl
  files   := rfl
  now     := rfl
  tx      := ht pid
  others  := fun q _ => ht q
  locks   := fun l h => by simp [hl] at h
  closed  := fun _ => hl

end Opened

theorem exec_rel (hx : x.fault = none) (h : Opened pid σ w) :
    Option.Rel (fun a b => a.1 = b.1 ∧ Opened pid a.2 b.2) (σ.exec x e) (World.exec x pid w e) := by
  have htx := h.tx
  cases e <;> simp only [exec, World.exec, hx]
  case query q  => exact .some ⟨by rw [h.view, h.time], h⟩
  case rollback => exact .some ⟨rfl, h.rollback⟩
  case begin =>
    cases ht : σ.tx <;> rw [ht] at htx <;> simp only [htx, Option.map]
    case none   => exact .some ⟨rfl, h.begin⟩
    case some _ => exact .none
  case commit =>
    cases ht : σ.tx <;> rw [ht] at htx <;> simp only [htx, Option.map]
    case none   => exact .none
    case some _ => exact .some ⟨rfl, h.commit⟩
  case stmt s =>
    cases ht : σ.tx <;> rw [ht] at htx <;> simp only [htx, Option.map]
    case none   => exact .none
    case some _ =>
      rw [h.view]
      cases s.eval σ.view σ.world.now x.id
      case none => exact .none
      case some r =>
        cases r
        case error => exact .some ⟨rfl, h⟩
        case ok a  =>
          have hf (l) : w.Free pid l := fun k hk _ => h.locks k hk
          simp only [hf, implies_true, if_true]
          exact .some ⟨rfl, h.write ht⟩
  case auto s =>
    rw [h.db, h.now]
    exact .some ⟨rfl, { h with db := rfl, now := rfl }⟩
  case syncConf iface conf =>
    rw [h.runtime]
    cases σ.world.runtime iface
    case none   => exact .some ⟨rfl, h⟩
    case some _ => exact .some ⟨rfl, { h with runtime := rfl }⟩
  case interfaceUp iface path =>
    rw [h.runtime]
    cases σ.world.runtime iface
    case none   => exact .some ⟨rfl, { h with runtime := rfl }⟩
    case some _ => exact .some ⟨rfl, h⟩
  case showConf iface =>
    rw [h.runtime]
    cases σ.world.runtime iface <;> exact .some ⟨rfl, h⟩
  case showDump iface =>
    rw [h.runtime]
    cases σ.world.runtime iface <;> exact .some ⟨rfl, h⟩
  case openNew path =>
    rw [h.files]
    exact .some ⟨rfl, { h with files := rfl }⟩
  case file op =>
    rw [h.files]
    exact .some ⟨rfl, { h with files := rfl }⟩
  case diverge => exact .none
  all_goals exact .some ⟨rfl, h⟩

theorem step_rel (ho : o.Benign) {n m : Nat} (h : n = m ∧ Opened pid σ w) :
    Option.Rel (fun a b => a.1 = b.1 ∧ a.2.1 = b.2.1 ∧ Opened pid a.2.2 b.2.2) (step o (n, σ) e)
      (World.alone o pid (m, w) e) := by
  obtain ⟨rfl, h⟩ := h
  have hr := exec_rel (e := e) (ho n) h
  simp only [step, World.alone]
  cases hs : σ.exec (o n) e <;> cases hw : World.exec (o n) pid w e <;> rw [hs, hw] at hr <;> cases hr
  case none     => exact .none
  case some hab => exact .some ⟨hab.1, rfl, hab.2⟩

variable {α : Type} {p : Act α}

-- What the process returns and the database that it leaves behind can be told from the session.
theorem outcome_eq (ho : o.Benign) (ht : ∀ q, w.txs q = none) (hl : w.locks = []) (p : Act α) :
    (w.outcome o pid p).map (fun (r, w') => (r, w'.db)) =
      (p.run.solo (step o) (0, ⟨w, none⟩)).map fun (r, _, σ) => (r, σ.world.db) := by
  have hr := Prog.solo_rel (S := fun v w => v.1 = w.1 ∧ Opened pid v.2 w.2)
    (fun {v w _} h => step_rel (n := v.1) (m := w.1) ho h) p.run (v := (0, ⟨w, none⟩)) (w := (0, w))
    ⟨rfl, .init ht hl⟩
  rw [World.outcome]
  cases hs : p.run.solo (step o) (0, ⟨w, none⟩) <;>
    cases hw : p.run.solo (World.alone o pid) (0, w) <;> rw [hs, hw] at hr <;> cases hr
  case none     => rfl
  case some hab => simp [hab.1, hab.2.2.db]

-- The effects of a program, one by one.
section Rules

variable {n : Nat} {ws : List Write} {db : DB}

theorem solo_query (q : Query) :
    (query q).run.solo (step o) (n, σ) = some (.ok (q.eval σ.view σ.world.now), n + 1, σ) := by
  rw [query, solo_call]
  rfl

theorem solo_stmt_ok {s : Stmt} {a : s.Answer}
    (hs : s.eval (view ⟨w, some ws⟩) w.now (o n).id = some (.ok a)) :
    (stmt s).run.solo (step o) (n, ⟨w, some ws⟩) =
      some (.ok a, n + 1, ⟨w, some (ws ++ s.writes a)⟩) := by
  rw [stmt, solo_call]
  simp only [step, exec, hs]
  rfl

theorem solo_stmt_error {s : Stmt} {e : Err}
    (hs : s.eval (view ⟨w, some ws⟩) w.now (o n).id = some (.error e)) :
    (stmt s).run.solo (step o) (n, ⟨w, some ws⟩) = some (.error e, n + 1, ⟨w, some ws⟩) := by
  rw [stmt, solo_call]
  simp only [step, exec, hs]
  rfl

theorem solo_keyPair (ho : o.Benign) :
    (call Eff.keyPair : Act Crypto.KeyPair).run.solo (step o) (n, σ) =
      some (.ok (o n).keyPair, n + 1, σ) := by
  rw [solo_call]
  simp only [step, exec, World.exec, ho n]
  rfl

theorem solo_randomKey (ho : o.Benign) :
    (call Eff.randomKey : Act String).run.solo (step o) (n, σ) = some (.ok (o n).key, n + 1, σ) := by
  rw [solo_call]
  simp only [step, exec, World.exec, ho n]
  rfl

theorem solo_timeNow :
    (call Eff.timeNow : Act Time).run.solo (step o) (n, σ) = some (.ok (o n).time, n + 1, σ) :=
  solo_call _

-- A transaction leaves the writes of its function behind, unless the function returns an error.
theorem solo_inTx {s : Type} (init : s) (fn : Act (Option Err × s)) :
    (inTx init fn).run.solo (step o) (n, ⟨w, none⟩) =
      (fn.run.solo (step o) (n + 1, ⟨w, some []⟩)).bind fun
        | (.error e, m, σ)        => some (.ok (some e, init), m + 1, ⟨σ.world, none⟩)
        | (.ok (some e, a), m, σ) => some (.ok (some e, a), m + 1, ⟨σ.world, none⟩)
        | (.ok (none, a), m, σ)   =>
          σ.tx.map fun _ => (.ok (none, a), m + 1, ⟨{ σ.world with db := σ.view }, none⟩) := by
  simp only [inTx, solo_bind, solo_attempt, solo_call]
  simp only [step, exec, Option.map_some, Option.bind_some, solo_bind, solo_attempt, Option.bind_map]
  refine Option.bind_congr fun ⟨r, m, σ⟩ _ => ?_
  rcases r with e | ⟨_ | e, a⟩
  case ok.none =>
    simp only [Function.comp, solo_bind, solo_attempt, solo_call, step, exec]
    cases σ.tx <;> rfl
  all_goals rfl

end Rules
end Session
end Store
