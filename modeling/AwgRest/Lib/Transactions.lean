import Mathlib.Logic.Function.Basic
import Mathlib.Tactic.Common

-- What a database is made of: the writes that can be replayed on it, and for each write the locks
-- that a transaction holds from the write until it ends. Two writes of different transactions that
-- cannot both be replayed as they were computed have a lock in common.
class Journal (D : Type) (X L : outParam Type) where
  apply : D → X → D
  locks : X → List L

structure Tx (X : Type) where
  start  : Int
  writes : List X

-- A database under READ COMMITTED isolation. A transaction reads what is committed and what it wrote
-- itself. Its writes are replayed when it commits.
structure Transactions (D X L : Type) where
  db    : D
  txs   : Nat → Option (Tx X)
  locks : List (L × Nat)

namespace Transactions

section

variable {D X L : Type} {s : Transactions D X L} {pid q : Nat} {t : Int} {tx : Tx X}

def pending (s : Transactions D X L) (pid : Nat) : List X :=
  match s.txs pid with
  | none    => []
  | some tx => tx.writes

def begin (s : Transactions D X L) (pid : Nat) (start : Int) : Transactions D X L :=
  { s with txs := Function.update s.txs pid (some ⟨start, []⟩) }

def abort (s : Transactions D X L) (pid : Nat) : Transactions D X L where
  db    := s.db
  txs   := Function.update s.txs pid none
  locks := s.locks.filter (·.2 ≠ pid)

-- A statement waits for a lock that another transaction holds.
def Free (s : Transactions D X L) (pid : Nat) (l : L) : Prop :=
  ∀ h ∈ s.locks, h.1 = l → h.2 = pid

instance [DecidableEq L] {l : L} : Decidable (s.Free pid l) :=
  inferInstanceAs (Decidable (∀ h ∈ s.locks, h.1 = l → h.2 = pid))

theorem pending_of_some (h : s.txs pid = some tx) : s.pending pid = tx.writes := by
  simp [pending, h]

@[simp]
theorem pending_begin_self : (s.begin pid t).pending pid = [] := by
  simp [pending, begin]

theorem pending_begin_of_ne (h : q ≠ pid) : (s.begin pid t).pending q = s.pending q := by
  simp [pending, begin, h]

@[simp]
theorem pending_abort_self : (s.abort pid).pending pid = [] := by
  simp [pending, abort]

theorem pending_abort_of_ne (h : q ≠ pid) : (s.abort pid).pending q = s.pending q := by
  simp [pending, abort, h]

end

section

variable {D X L : Type} [Journal D X L] {s : Transactions D X L} {pid q : Nat} {x y : X} {l : L}
  {t : Int} {extra : List L} {ws : List X} {tx : Tx X}

def replay (db : D) (ws : List X) : D :=
  ws.foldl Journal.apply db

-- What a statement of the process sees.
def view (s : Transactions D X L) (pid : Nat) : D :=
  replay s.db (s.pending pid)

-- The locks of a statement that writes `ws` and locks some rows without writing them.
def needed (D : Type) {X L : Type} [Journal D X L] (extra : List L) (ws : List X) : List L :=
  extra ++ ws.flatMap (Journal.locks D)

def write (s : Transactions D X L) (pid : Nat) (extra : List L) (ws : List X) :
    Transactions D X L where
  db    := s.db
  txs   := Function.update s.txs pid ((s.txs pid).map fun tx => { tx with writes := tx.writes ++ ws })
  locks := s.locks ++ (needed D extra ws).map (·, pid)

def commit (s : Transactions D X L) (pid : Nat) : Transactions D X L :=
  { s.abort pid with db := s.view pid }

@[simp]
theorem replay_nil {db : D} : replay db ([] : List X) = db :=
  rfl

theorem replay_append {db : D} {ws' : List X} : replay db (ws ++ ws') = replay (replay db ws) ws' :=
  List.foldl_append

@[simp]
theorem pending_commit : (s.commit pid).pending q = (s.abort pid).pending q :=
  rfl

theorem pending_write_self (h : s.txs pid = some tx) :
    (s.write pid extra ws).pending pid = s.pending pid ++ ws := by
  simp [pending, write, h]

theorem pending_write_of_ne (h : q ≠ pid) : (s.write pid extra ws).pending q = s.pending q := by
  simp [pending, write, h]

-- Locks are exclusive, and held for every write that is pending.
structure Orderly (s : Transactions D X L) : Prop where
  exclusive : ∀ {l p q}, (l, p) ∈ s.locks → (l, q) ∈ s.locks → p = q
  held      : ∀ {pid x l}, x ∈ s.pending pid → l ∈ Journal.locks D x → (l, pid) ∈ s.locks

namespace Orderly

-- The pending writes of two transactions have no lock in common.
theorem disjoint (h : s.Orderly) (hx : x ∈ s.pending pid) (hy : y ∈ s.pending q)
    (hl : l ∈ Journal.locks D x) (hl' : l ∈ Journal.locks D y) : pid = q :=
  h.exclusive (h.held hx hl) (h.held hy hl')

protected theorem begin (h : s.Orderly) : (s.begin pid t).Orderly where
  exclusive := h.exclusive
  held {q x l} hx hl := by
    by_cases hq : q = pid
    case pos => simp [hq] at hx
    case neg => exact h.held (pending_begin_of_ne hq ▸ hx) hl

protected theorem abort (h : s.Orderly) : (s.abort pid).Orderly where
  exclusive hp hq := h.exclusive (List.mem_filter.mp hp).1 (List.mem_filter.mp hq).1
  held {q x l} hx hl := by
    by_cases hq : q = pid
    case pos => simp [hq] at hx
    case neg => simpa [Transactions.abort, hq] using h.held (pending_abort_of_ne hq ▸ hx) hl

protected theorem commit (h : s.Orderly) : (s.commit pid).Orderly where
  exclusive := h.abort.exclusive
  held      := h.abort.held

protected theorem write (h : s.Orderly) (htx : s.txs pid = some tx)
    (hf : ∀ l ∈ needed D extra ws, s.Free pid l) : (s.write pid extra ws).Orderly where
  exclusive {l p q} hp hq := by
    simp only [Transactions.write, List.mem_append, List.mem_map, Prod.mk.injEq] at hp hq
    rcases hp with hp | ⟨l₁, hl₁, rfl, rfl⟩ <;> rcases hq with hq | ⟨l₂, hl₂, rfl, rfl⟩
    · exact h.exclusive hp hq
    · exact hf _ hl₂ _ hp rfl
    · exact (hf _ hl₁ _ hq rfl).symm
    · rfl
  held {q x l} hx hl := by
    simp only [Transactions.write, List.mem_append, List.mem_map, Prod.mk.injEq]
    by_cases hq : q = pid
    case neg =>
      rw [pending_write_of_ne hq] at hx
      exact .inl (h.held hx hl)
    case pos =>
      subst hq
      rw [pending_write_self htx, List.mem_append] at hx
      rcases hx with hx | hx
      · exact .inl (h.held hx hl)
      · exact .inr ⟨l, List.mem_append_right _ (List.mem_flatMap.mpr ⟨x, hx, hl⟩), rfl, rfl⟩

end Orderly
end
end Transactions
