import AwgRest.Cli.Ownership

open Domain Fallible

-- The temporary files hold keys. Which of them stay behind?
namespace Cli

def Created (τ : List Ev) (pid : Nat) (p : Path) : Prop :=
  ∃ dir before after f, .act pid (.createTemp dir before after) (.ok (p, f)) ∈ τ

-- The call that had the file under the name `p` has died, or could not remove it or give it its name.
inductive Abandoned (τ : List Ev) (p : Path) : Prop
  | crash {pid} : .crash pid ∈ τ → Created τ pid p → Abandoned τ p
  | remove {pid x} : .act pid (.remove p) (.error x) ∈ τ → Abandoned τ p
  | rename {pid new x} : .act pid (.rename p new) (.error x) ∈ τ → Abandoned τ p

-- Why there is a file under a name.
inductive Accounted (c : CLIExecutor) (h₀ : Host) (τ : List Ev) (L : Nat → Option Local)
    (p : Path) : Prop
  | before : h₀.files.names p ≠ none → Accounted c h₀ τ L p
  | rendered {pid i config} : .spawn pid (.syncConf i config) ∈ τ → p = c.rendered i →
    Accounted c h₀ τ L p
  | held {pid φ t} : L pid = some φ → t ∈ φ.temps → t.path = p → Accounted c h₀ τ L p
  | abandoned : Abandoned τ p → Accounted c h₀ τ L p

structure Tracked (c : CLIExecutor) (h₀ : Host) (τ : List Ev) (h : Host)
    (L : Nat → Option Local) : Prop where
  spawned : ∀ {pid φ}, L pid = some φ → .spawn pid φ.kind ∈ τ
  created : ∀ {pid φ t}, L pid = some φ → t ∈ φ.temps → Created τ pid t.path
  named   : ∀ {p}, h.files.names p ≠ none → Accounted c h₀ τ L p

variable {c : CLIExecutor} {T : Tools} {h₀ h h' : Host} {φ : Local} {e : Eff}
  {r : Except Err e.Answer} {τ : List Ev}
  {L L' : Nat → Option Local} {p : Path} {pid : Nat} {ev : Ev} {t : Temp}

theorem Created.mono (hc : Created τ pid p) : Created (τ ++ [ev]) pid p := by
  obtain ⟨dir, before, after, f, hm⟩ := hc
  exact ⟨dir, before, after, f, List.mem_append_left _ hm⟩

theorem Abandoned.mono (ha : Abandoned τ p) : Abandoned (τ ++ [ev]) p := by
  cases ha
  case crash hm hc => exact .crash (List.mem_append_left _ hm) hc.mono
  case remove hm   => exact .remove (List.mem_append_left _ hm)
  case rename hm   => exact .rename (List.mem_append_left _ hm)

-- One more event. What becomes of the files that are held is left to be said.
theorem Accounted.lift (ha : Accounted c h₀ τ L p)
    (hh : ∀ {q φ t}, L q = some φ → t ∈ φ.temps → t.path = p → Accounted c h₀ (τ ++ [ev]) L' p) :
    Accounted c h₀ (τ ++ [ev]) L' p := by
  cases ha
  case before hn      => exact .before hn
  case rendered hm hp => exact .rendered (List.mem_append_left _ hm) hp
  case held hl ht hp  => exact hh hl ht hp
  case abandoned ha   => exact .abandoned ha.mono

-- A call keeps its files, except for one that it removes or renames.
theorem kept_next (ha : Allows c φ e) (ht : t ∈ φ.temps) :
    (∃ u ∈ (φ.next e r).temps, u.path = t.path) ∨ e = .remove t.path ∨
      ∃ new, e = .rename t.path new := by
  have kept (hm : (t.path, t.file) ∈ (φ.next e r).names) : ∃ u ∈ (φ.next e r).temps, u.path = t.path := by
    obtain ⟨u, hu, hp, -⟩ := Local.exists_of_mem_names hm
    exact ⟨u, hu, hp⟩
  have hm := Local.mem_names ht
  cases e
  case remove q =>
    obtain ⟨s, ts, hs, rfl⟩ := ha
    rw [hs] at ht
    rcases List.mem_cons.mp ht with rfl | ht
    · exact .inr (.inl rfl)
    · exact .inl ⟨t, by simpa [Local.next, Local.pop, hs] using ht, rfl⟩
  case rename old new =>
    obtain ⟨i, config, full, f, ts, -, -, -, hs, -⟩ := ha
    rw [hs] at ht
    rcases List.mem_cons.mp ht with rfl | ht
    · exact .inr (.inr ⟨new, rfl⟩)
    · exact .inl ⟨t, by cases r <;> simpa [Local.next, Local.pop, hs] using ht, rfl⟩
  case createTemp dir before after =>
    cases r
    case error => exact .inl (kept hm)
    case ok a  => exact .inl (kept (.tail _ hm))
  all_goals cases r <;> exact .inl (kept (by simpa [Local.next] using hm))

namespace Tracked

theorem mono (I : Tracked c h₀ τ h L) : Tracked c h₀ (τ ++ [ev]) h L where
  spawned hl    := List.mem_append_left _ (I.spawned hl)
  created hl ht := (I.created hl ht).mono
  named hp      := (I.named hp).lift .held

-- A file that has been there before the effect is accounted for, also if the call has just given it
-- up.
theorem named_of_old (I : Tracked c h₀ τ h L) (hl : L pid = some φ) (ha : Allows c φ e)
    (hn : h.files.names p ≠ none)
    (hg : e = .remove p ∨ (∃ new, e = .rename p new) → Abandoned (τ ++ [.act pid e r]) p) :
    Accounted c h₀ (τ ++ [.act pid e r]) (Function.update L pid (some (φ.next e r))) p := by
  refine (I.named hn).lift fun {q ψ t} hq ht htp => ?_
  by_cases hne : q = pid
  case neg => exact .held (by rwa [Function.update_of_ne hne]) ht htp
  case pos =>
    subst hne
    cases hl.symm.trans hq
    rcases kept_next (r := r) ha ht with ⟨u, hu, hut⟩ | hgone
    · exact .held (Function.update_self ..) hu (hut.trans htp)
    · exact .abandoned (hg (htp ▸ hgone))

theorem named_of_acts (I : Tracked c h₀ τ h L) (hl : L pid = some φ) (ha : Allows c φ e)
    (hx : Acts T h h' e r) (hp : h'.files.names p ≠ none) :
    Accounted c h₀ (τ ++ [.act pid e r]) (Function.update L pid (some (φ.next e r))) p := by
  cases e <;> rcases r with x | a
  case createTemp.ok =>
    obtain ⟨-, -, -, rfl⟩ := hx
    by_cases hq : p = a.1
    case pos => exact .held (Function.update_self ..) (.head _) hq.symm
    case neg => exact I.named_of_old hl ha (by rwa [← FileSystem.names_create_of_ne hq]) (by simp)
  case remove.error q =>
    obtain rfl := hx
    refine I.named_of_old hl ha hp fun hg => ?_
    obtain rfl : q = p := by simpa using hg
    exact .remove (List.mem_append_right _ (.head _))
  case remove.ok q =>
    obtain rfl := hx
    have hq : p ≠ q := by
      rintro rfl
      exact hp FileSystem.names_remove_self
    exact I.named_of_old hl ha (by rwa [← FileSystem.names_remove_of_ne hq]) (by simp [hq.symm])
  case rename.error q new =>
    obtain rfl := hx
    refine I.named_of_old hl ha hp fun hg => ?_
    obtain rfl : q = p := by simpa using hg
    exact .rename (List.mem_append_right _ (.head _))
  case rename.ok q new =>
    obtain ⟨n, hn, rfl⟩ := hx
    by_cases hnew : p = new
    case pos =>
      obtain ⟨i, config, -, -, -, hk, hi, -⟩ := ha
      exact .rendered (List.mem_append_left _ (hk ▸ I.spawned hl)) (hnew.trans hi)
    case neg =>
      have hq : p ≠ q := by
        rintro rfl
        exact hp (FileSystem.names_rename_old hn hnew)
      exact I.named_of_old hl ha (by rwa [← FileSystem.names_rename_of_ne hn hq hnew]) (by simp [hq.symm])
  case write.error =>
    obtain ⟨text, rfl⟩ := hx
    exact I.named_of_old hl ha hp (by simp)
  case readFile.ok =>
    obtain ⟨rfl, -⟩ := hx
    exact I.named_of_old hl ha hp (by simp)
  case exec.error | exec.ok =>
    obtain ⟨text, errors, links, -, rfl⟩ := hx
    exact I.named_of_old hl ha hp (by simp)
  all_goals
    obtain rfl := hx
    exact I.named_of_old hl ha hp (by simp)

theorem act (I : Tracked c h₀ τ h L) (hl : L pid = some φ) (ha : Allows c φ e)
    (hx : Acts T h h' e r) :
    Tracked c h₀ (τ ++ [.act pid e r]) h' (Function.update L pid (some (φ.next e r))) where
  spawned {q ψ} hq := by
    rw [Function.update_apply] at hq
    split at hq
    case isTrue hqp =>
      cases hq
      exact List.mem_append_left _ (by rw [Local.kind_next, hqp]; exact I.spawned hl)
    case isFalse => exact List.mem_append_left _ (I.spawned hq)
  created {q ψ t} hq ht := by
    rw [Function.update_apply] at hq
    split at hq
    case isTrue hqp =>
      cases hq
      subst hqp
      rcases names_next q (Local.mem_names ht) with hm | ⟨dir, before, after, hev⟩
      · obtain ⟨u, hu, hp, -⟩ := Local.exists_of_mem_names hm
        exact hp ▸ (I.created hl hu).mono
      · exact ⟨dir, before, after, t.file, hev ▸ by simp⟩
    case isFalse => exact (I.created hq ht).mono
  named hp := I.named_of_acts hl ha hx hp

-- A call begins or ends.
theorem update {x : Option Local} (I : Tracked c h₀ τ h L)
    (hx : ∀ {φ}, x = some φ → .spawn pid φ.kind ∈ τ ++ [ev] ∧ φ.temps = [])
    (hf : ∀ {φ t}, L pid = some φ → t ∈ φ.temps → Abandoned (τ ++ [ev]) t.path) :
    Tracked c h₀ (τ ++ [ev]) h (Function.update L pid x) where
  spawned {q ψ} hq := by
    rw [Function.update_apply] at hq
    split at hq
    case isTrue h => exact h ▸ (hx hq).1
    case isFalse  => exact List.mem_append_left _ (I.spawned hq)
  created {q ψ t} hq ht := by
    rw [Function.update_apply] at hq
    split at hq
    case isTrue  => simp [(hx hq).2] at ht
    case isFalse => exact (I.created hq ht).mono
  named {p} hp := by
    refine (I.named hp).lift fun {q φ t} hq ht htp => ?_
    by_cases hne : q = pid
    case neg => exact .held (by rwa [Function.update_of_ne hne]) ht htp
    case pos =>
      subst hne
      exact .abandoned (htp ▸ hf hq ht)

end Tracked

theorem tracked_of_trace
    {G : System.Guard (fun e : Eff => Except Err e.Answer) Host Kind Unit (Except Err Result)}
    (ht : (discipline c T).Trace G h₀ τ h) : Tracked c h₀ τ h ((discipline c T).locals τ) := by
  refine ht.invariant (I := Tracked c h₀) ⟨by simp, by simp, .before⟩ ?spawn ?act ?done ?crash ?tick
  case spawn =>
    intro τ h L pid k I hl _
    refine I.update (fun hx => ?_) (by simp [hl])
    cases hx
    exact ⟨List.mem_append_right _ (.head _), rfl⟩
  case act   => exact fun I hl ha hx _ => I.act hl ha (acts_of_exec hx)
  case done  =>
    intro τ h L pid φ b I hl hp
    refine I.update (by simp) fun {ψ t} hψ ht => ?_
    cases hl.symm.trans hψ
    rw [(hp : φ.temps = [])] at ht
    cases ht
  case crash =>
    intro τ h L pid φ I hl
    exact I.update (by simp) fun hψ ht => .crash (List.mem_append_right _ (.head _)) (I.created hψ ht).mono
  case tick  => exact fun I => I.mono

-- A file that is there has been there before, or it is the configuration of an interface, unless a
-- call still has it or has given it up without removing it.
theorem leftovers (c : CLIExecutor) (T : Tools) {h : Host} {τ : List Ev} {conf : Conf}
    (hr : (c.system T).Run (fun _ _ _ => True) (boot h) τ conf) {p : Path}
    (hp : conf.world.files.names p ≠ none) :
    h.files.names p ≠ none ∨ (∃ pid i config, .spawn pid (.syncConf i config) ∈ τ ∧ p = c.rendered i) ∨
    (∃ pid prog, conf.procs pid = .running prog ∧ Created τ pid p) ∨ Abandoned τ p := by
  have I := tracked_of_trace ((discipline c T).trace_of_run hr fun _ => rfl)
  cases I.named hp
  case before hn      => exact .inl hn
  case rendered hm hi => exact .inr (.inl ⟨_, _, _, hm, hi⟩)
  case abandoned ha   => exact .inr (.inr (.inr ha))
  case held pid φ t hl ht htp =>
    have ha := System.Discipline.agrees_run (D := discipline c T) hr (fun _ => rfl) pid
    cases hs : conf.procs pid
    case running prog => exact .inr (.inr (.inl ⟨pid, prog, hs, htp ▸ I.created hl ht⟩))
    case unused       =>
      rw [hs] at ha
      cases hl.symm.trans ha.1
    case ended        =>
      rw [hs] at ha
      cases hl.symm.trans ha

-- A call dies when it has written a preshared key, and the file stays.
theorem leftovers_sample :
    ∃ τ conf, (Sample.cli.system Sample.tools).Run (fun _ _ _ => True) (boot Sample.host) τ conf ∧
      conf.world.files.names ⟨"/tmp", "awg-psk-1".toList⟩ ≠ none ∧
      (Sample.host.files.names ⟨"/tmp", "awg-psk-1".toList⟩ ≠ none ∨
        (∃ pid i config, .spawn pid (.syncConf i config) ∈ τ ∧
          ⟨"/tmp", "awg-psk-1".toList⟩ = Sample.cli.rendered i) ∨
        (∃ pid prog, conf.procs pid = .running prog ∧ Created τ pid ⟨"/tmp", "awg-psk-1".toList⟩) ∨
        Abandoned τ ⟨"/tmp", "awg-psk-1".toList⟩) := by
  have h : (((Sample.cli.system Sample.tools).playAll (boot Sample.host)
      ([.spawn 0 (.setPeer "awg0" { publicKey := "k", presharedKey := "secret" })] ++
        Sample.steps 0 '1' 2 ++
        [.crash 0])).map fun r => (r.2.world.files.names ⟨"/tmp", "awg-psk-1".toList⟩).isSome) =
          some true := by
    decide +kernel
  obtain ⟨⟨τ, conf⟩, hplay, hs⟩ := Option.map_eq_some_iff.mp h
  have hr := System.playAll_run hplay
  have hp : conf.world.files.names ⟨"/tmp", "awg-psk-1".toList⟩ ≠ none :=
    Option.isSome_iff_ne_none.mp hs
  exact ⟨τ, conf, hr, hp, leftovers Sample.cli Sample.tools hr hp⟩

end Cli
