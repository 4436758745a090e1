import Mathlib.Data.Set.Finite.Lattice
import Mathlib.Order.WellFoundedSet
import Mathlib.Logic.Relation

-- Processes that wait for each other.
namespace Waiting

variable {α ρ : Type} [Preorder ρ] {waits : α → α → Prop} {rank : α → ρ}

-- If a process that is waited for and waits itself ranks above those that wait for it, and only
-- finitely many are waited for, then everyone waits, in the end, for a process that does not wait.
theorem exists_not_waiting (hfin : {b | ∃ a, waits a b}.Finite)
    (hrank : ∀ {a b c}, waits a b → waits b c → rank a < rank b) (a : α) :
    ∃ b, Relation.ReflTransGen waits a b ∧ ∀ c, ¬ waits b c := by
  have hwf : {b | ∃ a, waits a b}.WellFoundedOn fun b a => rank a < rank b := by
    have : IsStrictOrder α fun b a => rank a < rank b :=
      { irrefl := fun a => lt_irrefl (rank a), trans := fun _ _ _ h h' => lt_trans h' h }
    exact hfin.wellFoundedOn
  have awaited (b : α) (hb : ∃ a, waits a b) : ∃ c, Relation.ReflTransGen waits b c ∧
      ∀ d, ¬ waits c d := by
    refine hwf.induction (P := fun b => ∃ c, Relation.ReflTransGen waits b c ∧ ∀ d, ¬ waits c d) hb ?_
    intro b _ ih
    by_cases hn : ∃ c, waits b c
    case neg => exact ⟨b, .refl, not_exists.mp hn⟩
    case pos =>
      obtain ⟨c, hc⟩ := hn
      by_cases hn' : ∃ d, waits c d
      case neg => exact ⟨c, .single hc, not_exists.mp hn'⟩
      case pos =>
        obtain ⟨d, hd⟩ := hn'
        obtain ⟨e, he, hne⟩ := ih c ⟨b, hc⟩ (hrank hc hd)
        exact ⟨e, .head hc he, hne⟩
  by_cases hn : ∃ b, waits a b
  case neg => exact ⟨a, .refl, not_exists.mp hn⟩
  case pos =>
    obtain ⟨b, hb⟩ := hn
    obtain ⟨c, hc, hne⟩ := awaited b ⟨a, hb⟩
    exact ⟨c, .head hb hc, hne⟩

end Waiting
