import AwgRest.Lib.Interleaving
import Mathlib.Data.List.Induction

-- What the events of a run say about its processes.
namespace System

variable {E : Type} {R : E → Type} {W C K T β : Type} {S : System R W C K T β} {G : Guard R W K T β}
  {c₀ c c' : Config R W β} {τ τ₁ τ₂ : List (Event R K T β)} {ev : Event R K T β} {pid : Nat} {k k' : K}

-- The effects of a process so far, with their answers.
def answer? (pid : Nat) : Event R K T β → Option (Sigma R)
  | .act q e r => if q = pid then some ⟨e, r⟩ else none
  | _          => none

def history (pid : Nat) (τ : List (Event R K T β)) : List (Sigma R) :=
  τ.filterMap (answer? pid)

theorem mem_history {e : E} {r : R e} : ⟨e, r⟩ ∈ history pid τ ↔ .act pid e r ∈ τ := by
  constructor
  · intro h
    obtain ⟨ev, hev, he⟩ := List.mem_filterMap.mp h
    cases ev
    case act q e' r' =>
      rw [answer?] at he
      split at he
      case isTrue hq => cases hq; cases he; exact hev
      case isFalse   => cases he
    all_goals cases he
  · exact fun h => List.mem_filterMap.mpr ⟨_, h, if_pos rfl⟩

theorem history_append : history pid (τ ++ τ₁) = history pid τ ++ history pid τ₁ :=
  List.filterMap_append

theorem history_concat {e : E} {r : R e} :
    history pid (τ ++ [.act pid e r]) = history pid τ ++ [⟨e, r⟩] := by
  simp [history, answer?]

theorem history_grow {h : List (Sigma R)} (hp : h <+: history pid τ) : h <+: history pid (τ ++ τ₁) :=
  history_append ▸ hp.trans (List.prefix_append ..)

theorem history_append_of_ne (hτ₁ : ∀ ev ∈ τ₁, ev.pid ≠ some pid) :
    history pid (τ ++ τ₁) = history pid τ := by
  have hn : history pid τ₁ = [] := by
    refine List.filterMap_eq_nil_iff.mpr fun ev hev => ?_
    cases ev
    case act q e r => exact if_neg fun hq => hτ₁ _ hev (congrArg some hq)
    all_goals rfl
  rw [history_append, hn, List.append_nil]

theorem Step.pid_cases (h : S.Step c ev c') (hp : ev.pid = some pid) :
    (∃ k, ev = .spawn pid k ∧ c.procs pid = .unused) ∨
      (∀ k, ev ≠ .spawn pid k) ∧ c.procs pid ≠ .unused := by
  cases h
  case spawn k hu => cases hp; exact .inl ⟨k, rfl, hu⟩
  case act hr _   => cases hp; exact .inr ⟨nofun, by simp [hr]⟩
  case done hr    => cases hp; exact .inr ⟨nofun, by simp [hr]⟩
  case crash hr   => cases hp; exact .inr ⟨nofun, by simp [hr]⟩
  case tick       => cases hp

-- A process that has been used is never unused again.
theorem Step.unused (h : S.Step c ev c') (hu : c'.procs pid = .unused) :
    c.procs pid = .unused ∧ ev.pid ≠ some pid := by
  have other {q : Nat} {s : Slot R β} (hu : Function.update c.procs q s pid = .unused) (hs : s ≠ .unused) :
      c.procs pid = .unused ∧ some q ≠ some pid := by
    by_cases hq : pid = q
    · subst hq
      exact absurd (by simpa using hu) hs
    · exact ⟨by simpa [hq] using hu, fun h => hq (Option.some.inj h).symm⟩
  cases h
  case tick => exact ⟨hu, nofun⟩
  all_goals exact other hu nofun

-- A process that has ended does nothing any more.
theorem Step.ended (h : S.Step c ev c') (he : c.procs pid = .ended) :
    c'.procs pid = .ended ∧ ev.pid ≠ some pid := by
  have other {q : Nat} {s : Slot R β} (hq : c.procs q ≠ .ended) :
      Function.update c.procs q s pid = .ended ∧ some q ≠ some pid := by
    have hne : pid ≠ q := by
      rintro rfl
      exact hq he
    exact ⟨by simpa [hne] using he, fun h => hne (Option.some.inj h).symm⟩
  cases h
  case tick     => exact ⟨he, nofun⟩
  case spawn hu => exact other (by simp [hu])
  case act hr _ => exact other (by simp [hr])
  case done hr  => exact other (by simp [hr])
  case crash hr => exact other (by simp [hr])

namespace Run

theorem ended_of_done {b : β} (h : S.Run G c₀ τ c) (hd : .done pid b ∈ τ) : c.procs pid = .ended := by
  induction h
  case nil          => cases hd
  case step hs _ ih =>
    rcases List.mem_append.mp hd with hd | hd
    · exact (hs.ended (ih hd)).1
    · cases List.mem_singleton.mp hd
      cases hs
      simp

theorem concat_inv (h : S.Run G c₀ (τ ++ [ev]) c') :
    ∃ c, S.Run G c₀ τ c ∧ S.Step c ev c' ∧ G τ c.world ev := by
  generalize hτ : τ ++ [ev] = σ at h
  cases h
  case nil          => simp at hτ
  case step h hg hs =>
    obtain ⟨rfl, hev⟩ := List.append_inj' hτ rfl
    cases hev
    exact ⟨_, h, hs, hg⟩

theorem append_inv (h : S.Run G c₀ (τ₁ ++ τ₂) c) :
    ∃ c₁, S.Run G c₀ τ₁ c₁ ∧ S.Run (fun τ => G (τ₁ ++ τ)) c₁ τ₂ c := by
  induction τ₂ using List.reverseRecOn generalizing c
  case nil => exact ⟨c, by simpa using h, .nil⟩
  case append_singleton τ₂ ev ih =>
    rw [← List.append_assoc] at h
    obtain ⟨c', h, hs, hg⟩ := h.concat_inv
    obtain ⟨c₁, h₁, h₂⟩ := ih h
    exact ⟨c₁, h₁, h₂.step hs hg⟩

theorem unused (h : S.Run G c₀ τ c) (hu : c.procs pid = .unused) :
    c₀.procs pid = .unused ∧ ∀ ev ∈ τ, ev.pid ≠ some pid := by
  induction h
  case nil           => exact ⟨hu, nofun⟩
  case step hs _ ih  =>
    obtain ⟨hu', hne⟩ := hs.unused hu
    obtain ⟨h₀, hn⟩ := ih hu'
    refine ⟨h₀, fun ev hev => ?_⟩
    rcases List.mem_append.mp hev with hev | hev
    · exact hn ev hev
    · exact List.mem_singleton.mp hev ▸ hne

-- The event that is somewhere in a run, as a step of it.
theorem step_of_mem (h : S.Run G c₀ τ c) (hev : ev ∈ τ) :
    ∃ τ₁ τ₂ c₁ c₂, τ = τ₁ ++ ev :: τ₂ ∧ S.Run G c₀ τ₁ c₁ ∧ S.Step c₁ ev c₂ ∧ G τ₁ c₁.world ev ∧
      S.Run (fun τ => G (τ₁ ++ [ev] ++ τ)) c₂ τ₂ c := by
  obtain ⟨τ₁, τ₂, rfl⟩ := List.append_of_mem hev
  have h' : S.Run G c₀ ((τ₁ ++ [ev]) ++ τ₂) c := by simpa using h
  obtain ⟨c₂, h₁, h₂⟩ := h'.append_inv
  obtain ⟨c₁, h₁, hs, hg⟩ := h₁.concat_inv
  exact ⟨τ₁, τ₂, c₁, c₂, rfl, h₁, hs, hg, h₂⟩

-- A process does nothing before it is spawned.
theorem not_mem_of_spawn (h : S.Run G c₀ (τ₁ ++ τ₂) c) (hs : .spawn pid k ∈ τ₂) :
    ∀ ev ∈ τ₁, ev.pid ≠ some pid := by
  obtain ⟨c₁, h₁, h₂⟩ := h.append_inv
  obtain ⟨_, _, c₂, _, _, h₂, hs, _⟩ := h₂.step_of_mem hs
  obtain ⟨k, _, hu⟩ | ⟨hne, _⟩ := hs.pid_cases rfl
  · exact (h₁.unused (h₂.unused hu).1).2
  · exact absurd rfl (hne k)

theorem spawn_unique (h : S.Run G c₀ τ c) (hk : .spawn pid k ∈ τ)
    (hk' : .spawn pid k' ∈ τ) : k = k' := by
  induction h
  case nil => cases hk
  case step τ _ ev _ h hs hg ih =>
    have last {k} (hk : Event.spawn pid k ∈ [ev]) : ∀ ev ∈ τ, ev.pid ≠ some pid :=
      not_mem_of_spawn (h.step hs hg) hk
    rcases List.mem_append.mp hk with hk | hk <;> rcases List.mem_append.mp hk' with hk' | hk'
    · exact ih hk hk'
    · exact absurd rfl (last hk' _ hk)
    · exact absurd rfl (last hk _ hk')
    · cases (List.mem_singleton.mp hk).trans (List.mem_singleton.mp hk').symm
      rfl

theorem spawn_of_used (h : S.Run G c₀ τ c) (h₀ : ∀ pid, c₀.procs pid = .unused)
    (hn : c.procs pid ≠ .unused) :
    ∃ k, .spawn pid k ∈ τ := by
  induction h
  case nil                    => exact absurd (h₀ pid) hn
  case step c ev _ h hs hg ih =>
    by_cases hu : c.procs pid = .unused
    case neg =>
      obtain ⟨k, hk⟩ := ih hu
      exact ⟨k, List.mem_append_left _ hk⟩
    case pos =>
      by_cases hev : ev.pid = some pid
      case pos =>
        obtain ⟨k, rfl, _⟩ | ⟨_, hn'⟩ := hs.pid_cases hev
        · exact ⟨k, by simp⟩
        · exact absurd hu hn'
      case neg =>
        refine absurd ?_ hn
        cases hs
        case tick => exact hu
        all_goals exact (Function.update_of_ne (fun h => hev (congrArg some h.symm)) _ _).trans hu

theorem spawn_of_mem (h : S.Run G c₀ τ c) (h₀ : ∀ pid, c₀.procs pid = .unused) (hev : ev ∈ τ)
    (hp : ev.pid = some pid) : ∃ k, .spawn pid k ∈ τ := by
  obtain ⟨τ₁, τ₂, c₁, c₂, rfl, h₁, hs, _⟩ := h.step_of_mem hev
  obtain ⟨k, rfl, _⟩ | ⟨_, hn⟩ := hs.pid_cases hp
  · exact ⟨k, hev⟩
  · obtain ⟨k, hk⟩ := h₁.spawn_of_used h₀ hn
    exact ⟨k, List.mem_append_left _ hk⟩

end Run
end System
