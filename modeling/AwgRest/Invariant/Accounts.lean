import AwgRest.Discipline.Tenancy
import AwgRest.Invariant.Idempotency
import AwgRest.Lib.Traces

open Domain Store

namespace ControlPlane

variable {C : ControlPlane} {G : Guard} {w₀ w : World} {τ : List Ev} {c c' : Conf} {ev : Ev}
  {pid : Nat} {k : Kind}

-- What the account of a process says about its events.
structure Account.Tells (a : Account) (τ : List Ev) (pid : Nat) : Prop where
  commits : a.commits ≠ 0 ↔ .act pid .commit (.ok ()) ∈ τ
  found   : a.found ↔ ∃ t key r, .act pid (.query (.lookup t key)) (.ok (some r)) ∈ τ
  answer  : ∀ {b}, .done pid b ∈ τ → a.answer = some b

namespace Account

variable {a : Account} {e : Eff} {r : Except Err e.Answer} {b : Except Err Result}

theorem kind_next : (a.next e r).kind = a.kind := by
  unfold next
  split <;> rfl

theorem answer_next : (a.next e r).answer = a.answer := by
  unfold next
  split <;> rfl

theorem commits_next (pid : Nat) : (a.next e r).commits ≠ 0 ↔
    a.commits ≠ 0 ∨ (.act pid .commit (.ok ()) : Ev) = .act pid e r := by
  unfold next
  split
  case h_1     => simp
  case h_2     => simp
  case h_3 h _ =>
    refine ⟨.inl, fun hc => hc.resolve_right fun he => ?_⟩
    cases he
    exact h () rfl HEq.rfl

theorem found_next (pid : Nat) : (a.next e r).found ↔
    a.found ∨ ∃ t key x, (.act pid (.query (.lookup t key)) (.ok (some x)) : Ev) = .act pid e r := by
  unfold next
  split
  case h_1     => simp
  case h_2     => simp
  case h_3 _ h =>
    refine ⟨.inl, fun hc => hc.resolve_right fun ⟨t, key, x, he⟩ => ?_⟩
    cases he
    exact h t key x rfl HEq.rfl

theorem Tells.act (h : a.Tells τ pid) : (a.next e r).Tells (τ ++ [.act pid e r]) pid where
  commits := by
    rw [commits_next pid, h.commits]
    simp
  found   := by
    rw [found_next pid, h.found]
    simp [exists_or]
  answer  := fun hd => answer_next.trans (h.answer (by simpa using hd))

-- An event of another process, or one that an account does not tell.
theorem Tells.concat (h : a.Tells τ pid) (ha : ∀ e r, ev ≠ .act pid e r)
    (hd : ∀ b, ev ≠ .done pid b) :
    a.Tells (τ ++ [ev]) pid where
  commits := by simpa [(ha _ _).symm] using h.commits
  found   := by simpa [(ha _ _).symm] using h.found
  answer  := fun hb => h.answer (by simpa [(hd _).symm] using hb)

theorem Tells.done (h : a.Tells τ pid) (hn : ∀ b, .done pid b ∉ τ) :
    Tells { a with answer := some b } (τ ++ [.done pid b]) pid where
  commits := by simpa using h.commits
  found   := by simpa using h.found
  answer  := by
    intro b' hb'
    rcases List.mem_append.mp hb' with hb' | hb'
    · exact absurd hb' (hn b')
    · cases List.mem_singleton.mp hb'
      rfl

end Account

-- Every process has an account, which is of its kind.
theorem account_of_spawn (h : C.Runs G w₀ τ c) (hk : .spawn pid k ∈ τ) :
    ∃ a, accounts τ pid = some a ∧ a.kind = k ∧ a.Tells τ pid := by
  induction h
  case nil => cases hk
  case step τ c ev c' h hs hg ih =>
    rw [accounts_concat]
    rcases List.mem_append.mp hk with hk' | hk'
    case inr =>
      cases List.mem_singleton.mp hk'
      have hn : ∀ ev ∈ τ, ev.pid ≠ some pid :=
        (h.step hs hg).not_mem_of_spawn (List.mem_singleton_self _)
      have ha (e : Eff) (r : Except Err e.Answer) : .act pid e r ∉ τ := fun hm => hn _ hm rfl
      have hd (b : Except Err Result) : .done pid b ∉ τ := fun hm => hn _ hm rfl
      exact ⟨{ kind := k }, by simp [Account.record], rfl, by simp [ha], by simp [ha], by simp [hd]⟩
    case inl =>
      obtain ⟨a, ha, rfl, ht⟩ := ih hk'
      cases ev
      case spawn q k' =>
        have hq : pid ≠ q := by
          rintro rfl
          exact (h.step hs hg).not_mem_of_spawn (List.mem_singleton_self _) _ hk' rfl
        exact ⟨a, by simpa [Account.record, hq] using ha, rfl, ht.concat (by simp) (by simp)⟩
      case act q e r =>
        by_cases hq : pid = q
        · subst hq
          exact ⟨a.next e r, by simp [Account.record, ha], Account.kind_next, ht.act⟩
        · exact ⟨a, by simpa [Account.record, hq] using ha, rfl,
            ht.concat (by simp [Ne.symm hq]) (by simp)⟩
      case done q b =>
        by_cases hq : pid = q
        · subst hq
          refine ⟨{ a with answer := some b }, by simp [Account.record, ha], rfl,
            ht.done fun b' hb => ?_⟩
          cases hs with | done hp => exact absurd (h.ended_of_done hb) (by simp [hp])
        · exact ⟨a, by simpa [Account.record, hq] using ha, rfl,
            ht.concat (by simp) (by simp [Ne.symm hq])⟩
      case crash => exact ⟨a, ha, rfl, ht.concat (by simp) (by simp)⟩
      case tick  => exact ⟨a, ha, rfl, ht.concat (by simp) (by simp)⟩

theorem kind_of_locals {φ : Local} (h : C.Runs G w₀ τ c) (hk : .spawn pid k ∈ τ)
    (hφ : C.locals τ pid = some φ) : φ.kind = k := by
  obtain ⟨a, ha, rfl, _⟩ := account_of_spawn h hk
  obtain ⟨a', ha', ho⟩ := (accounts_of_trace h.trace).1 pid φ hφ
  obtain rfl := Option.some.inj (ha.symm.trans ha')
  exact ho.kind.symm

-- Only an effect of a process can change the executor and the files.
theorem act_or_still (hs : C.system.Step c ev c') (hpid : ev.pid = some pid) :
    (∃ e r, ev = .act pid e r) ∨
      c'.world.runtime = c.world.runtime ∧ c'.world.files = c.world.files := by
  cases ev
  case tick      => cases hpid
  case act q e r =>
    obtain rfl : q = pid := Option.some.inj hpid
    exact .inl ⟨e, r, rfl⟩
  all_goals
    cases hs
    exact .inr ⟨rfl, rfl⟩

-- Requests leave the executor alone.
theorem runtime_of_request (h : C.Runs unguarded w₀ τ c) (hq : Quiet w₀) (hk : .spawn pid k ∈ τ)
    (hr : k.IsRequest) (hs : C.system.Step c ev c') (hpid : ev.pid = some pid) :
    c'.world.runtime = c.world.runtime := by
  rcases act_or_still hs hpid with ⟨e, r, rfl⟩ | ⟨hstill, _⟩
  case inr => exact hstill
  case inl =>
    obtain ⟨φ, hact⟩ := h.act hq hs trivial
    obtain rfl := kind_of_locals h hk hact.running
    have hw : ¬ φ.kind.IsWorker := fun hw => φ.kind.not_isRequest hw hr
    have hal := hact.allowed
    have hacts := hact.acts
    generalize c'.world = w' at hacts
    cases hacts
    case sync   => exact absurd hal.2.1 hw
    case create => exact absurd hal hw
    all_goals rfl

-- Requests leave the files alone.
theorem files_of_request (h : C.Runs unguarded w₀ τ c) (hk : .spawn pid k ∈ τ) (hr : k.IsRequest)
    (hs : C.system.Step c ev c') (hpid : ev.pid = some pid) : c'.world.files = c.world.files := by
  rcases act_or_still hs hpid with ⟨e, r, rfl⟩ | ⟨_, hstill⟩
  case inr => exact hstill
  case inl =>
    obtain ⟨φ, x, hφ, ha, hx⟩ := C.tenancy.act_of_step h (fun _ => rfl) hs
    obtain rfl := kind_of_locals h hk hφ
    refine (World.files_of_exec hx).eq_of_not_onFiles fun he => ?_
    cases e <;> first | exact ha hr | exact he

theorem tenants_of_run (h : C.Runs unguarded w₀ τ c) (hq : Quiet w₀) :
    c.world.db.tenants = w₀.db.tenants :=
  trace_induction (I := fun _ w => w.db.tenants = w₀.db.tenants) hq h.trace rfl (fun hs ih => hs.db ▸ ih)
    fun hs ih => hs.change.tenants.trans ih

-- Requests look up their own key, of the tenant that they name.
theorem lookup_of_request {id : UUID} {key : String} {r : Except Err (Option Record)}
    (h : C.Runs unguarded w₀ τ c) (hq : Quiet w₀) (hk : .spawn pid k ∈ τ) (hr : k.IsRequest)
    (hm : .act pid (.query (.lookup id key)) r ∈ τ) :
    ∃ slug t, k.names = some (slug, key) ∧ w₀.db.tenants.find? (·.slug = slug) = some t ∧
      t.id = id := by
  obtain ⟨τ₁, τ₂, c₁, c₂, rfl, h₁, hs, _, _⟩ := h.step_of_mem hm
  have h₁ : C.Runs unguarded w₀ τ₁ c₁ := h₁
  obtain ⟨φ, x, hφ, ha, _⟩ := C.tenancy.act_of_step h₁ (fun _ => rfl) hs
  have hused : c₁.procs pid ≠ .unused := by
    cases hs with | act _ hp _ => simp [hp]
  obtain ⟨k', hk'⟩ := h₁.spawn_of_used (fun _ => rfl) hused
  obtain rfl := h.spawn_unique hk (List.mem_append_left _ hk')
  obtain rfl := kind_of_locals h₁ hk' hφ
  obtain ⟨t, ht, rfl, hn⟩ := ha hr
  refine ⟨t.slug, t, hn, ?_, rfl⟩
  rw [← tenants_of_run h₁ hq]
  exact tenants_of_trace h₁.trace hq pid φ hφ ht

end ControlPlane
