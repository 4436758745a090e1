import AwgRest.Invariant.Link
import AwgRest.Requests.Reads

open Domain Store Session

namespace ControlPlane

variable {o : Oracle} {pid : Nat} {w : World} {α : Type} {p : Act α}

-- What a process returned in a run.
def returned (τ : List Ev) (pid : Nat) : Option (Except Err Result) :=
  τ.findSome? fun
    | .done q b => if q = pid then some b else none
    | _         => none

-- What a process returns and the database that it leaves behind, where it is the only one.
def answer (o : Oracle) (pid : Nat) (w : World) (p : Act α) : Option (Except Err α × DB) :=
  (w.outcome o pid p).map fun (r, w') => (r, w'.db)

theorem answer_eq (hq : Quiet w) (ho : o.Benign) (p : Act α) :
    answer o pid w p = (p.run.solo (step o) (0, ⟨w, none⟩)).map fun (r, _, σ) => (r, σ.world.db) :=
  outcome_eq ho hq.txs hq.locks p

-- A process without a transaction sees what is committed.
theorem looks_committed (ho : o.Benign) (ht : w.txs pid = none) :
    Looks (World.alone o pid) w w.db w.now := by
  have hl := @Looks.world o pid w ho
  rwa [Transactions.view, Transactions.pending, ht] at hl

theorem answer_of_reads {r : Except Err α} (h : Reads (World.alone o pid) w p r) :
    answer o pid w p = some (r, w.db) := by
  obtain ⟨m, hm⟩ := h 0
  rw [answer, World.outcome, hm]
  rfl

end ControlPlane
