import AwgRest.Invariant.Jobs
import AwgRest.Invariant.Leases

open Domain Store

-- Runs with a single worker, which may be stopped and started again at any time.
namespace ControlPlane

variable {C : ControlPlane} {G : Guard} {w₀ w w' : World} {τ : List Ev} {pid q : Nat} {φ ψ : Local}
  {e : Eff} {r : Except Err e.Answer} {ev : Ev} {db db' : DB}

def spawned : Ev → Option Kind
  | .spawn _ k => some k
  | _          => none

def workersNext (ws : List Nat) : Ev → List Nat
  | .spawn pid k => if k.IsWorker then pid :: ws else ws
  | .done pid _  => ws.filter (· ≠ pid)
  | .crash pid   => ws.filter (· ≠ pid)
  | _            => ws

-- The workers that are running.
def workers (τ : List Ev) : List Nat :=
  τ.foldl workersNext []

theorem workers_concat : workers (τ ++ [ev]) = workersNext (workers τ) ev := by
  simp [workers]

-- A worker is only started when no worker is running.
def oneWorker : Guard := fun τ _ ev =>
  ∀ k ∈ spawned ev, k.IsWorker → workers τ = []

instance : Decidable (oneWorker τ w ev) :=
  inferInstanceAs (Decidable (∀ k ∈ spawned ev, k.IsWorker → workers τ = []))

theorem mem_workers (h : C.Trace G w₀ τ w) (hq : Quiet w₀) :
    ∀ q ψ, C.locals τ q = some ψ → ψ.kind.IsWorker → q ∈ workers τ := by
  refine trace_induction
    (I := fun τ _ => ∀ q ψ, C.locals τ q = some ψ → ψ.kind.IsWorker → q ∈ workers τ) hq h
    (fun q ψ hψ => by simp [locals] at hψ) (fun {τ w ev w'} hs ih q ψ hψ hk => ?_)
    (fun {τ w pid φ e r w'} hs ih q ψ hψ hk => ?_)
  · rw [workers_concat]
    rcases hs.running q ψ hψ with hψ' | ⟨k, rfl, rfl, _⟩
    · have hm := ih q ψ hψ' hk
      cases ev
      case spawn pid k =>
        rw [workersNext]
        split
        · exact List.mem_cons_of_mem _ hm
        · exact hm
      case done pid b =>
        refine List.mem_filter.mpr ⟨hm, decide_eq_true fun he => ?_⟩
        rw [locals_done, he, Function.update_self] at hψ
        cases hψ
      case crash pid =>
        refine List.mem_filter.mpr ⟨hm, decide_eq_true fun he => ?_⟩
        rw [locals_crash, he, Function.update_self] at hψ
        cases hψ
      case act pid e r => exact hm
      case tick d      => exact hm
    · rw [workersNext, if_pos hk]
      exact List.mem_cons_self
  · rw [locals_act hs.running] at hψ
    rw [workers_concat]
    by_cases hp : q = pid
    · subst hp
      obtain rfl : φ.next e r = ψ := by simpa using hψ
      exact ih q φ hs.running (Local.kind_next ▸ hk)
    · exact ih q ψ (by simpa [hp] using hψ) hk

theorem length_workers_le (hG : ∀ {τ w ev}, G τ w ev → oneWorker τ w ev) (h : C.Trace G w₀ τ w)
    (hq : Quiet w₀) : (workers τ).length ≤ 1 := by
  refine trace_induction (I := fun τ _ => (workers τ).length ≤ 1) hq h (Nat.zero_le 1)
    (fun {τ w ev w'} hs ih => ?_) (fun {τ w pid φ e r w'} hs ih => ?_)
  · rw [workers_concat]
    cases ev
    case spawn pid k =>
      rw [workersNext]
      split
      case _ hk => simp [hG hs.guard k rfl hk]
      case _    => exact ih
    case done pid b  => exact (List.length_filter_le ..).trans ih
    case crash pid   => exact (List.length_filter_le ..).trans ih
    case act pid e r => exact ih
    case tick d      => exact ih
  · rw [workers_concat]
    exact ih

theorem sole_worker (hG : ∀ {τ w ev}, G τ w ev → oneWorker τ w ev) (h : C.Trace G w₀ τ w)
    (hq : Quiet w₀) (hφ : C.locals τ pid = some φ) (hk : φ.kind.IsWorker)
    (hψ : C.locals τ q = some ψ) (hk' : ψ.kind.IsWorker) : q = pid := by
  have h₁ := mem_workers h hq pid φ hφ hk
  have h₂ := mem_workers h hq q ψ hψ hk'
  have hlen := length_workers_le hG h hq
  generalize workers τ = ws at h₁ h₂ hlen
  rcases ws with _ | ⟨x, _ | ⟨y, ws⟩⟩
  · simp at h₁
  · rw [List.mem_singleton] at h₁ h₂
    rw [h₁, h₂]
  · simp at hlen

end ControlPlane
