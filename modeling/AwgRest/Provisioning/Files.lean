import AwgRest.Provisioning.Protocol

open Domain Store

-- Who the configuration files belong to, in any run of the commands.
namespace Bootstrap

variable {b : Bootstrap} {w₀ w w' : World} {M : Nat → Option Progress} {pid : Nat} {φ ψ : Progress}

theorem of_update {q : Nat} {χ : Progress} (h : Function.update M pid (some ψ) q = some χ) :
    (q = pid ∧ ψ = χ) ∨ (q ≠ pid ∧ M q = some χ) := by
  by_cases hq : q = pid
  case pos => exact .inl ⟨hq, by simpa [hq] using h⟩
  case neg => exact .inr ⟨hq, by simpa [hq] using h⟩

-- A file that was there before stays as it is. A file that a command holds is new, and nobody else's.
-- The file that a command has created is nowhere if the command does not hold it.
structure Filed (w₀ : World) (M : Nat → Option Progress) (w : World) : Prop where
  kept   : ∀ {path f}, w₀.files.lookup path = some f → w.files.lookup path = some f
  held   : ∀ {pid φ h}, M pid = some φ → φ.file = some h →
    w₀.files.lookup h.path = none ∧
    ∃ text, w.files.lookup h.path = some ⟨h.number, text⟩ ∧ ∀ t ∈ h.text, text = t
  apart  : ∀ {pid q φ ψ h h'}, M pid = some φ → M q = some ψ → φ.file = some h → ψ.file = some h' →
    h.path = h'.path → pid = q
  opened : ∀ {pid φ n}, M pid = some φ → φ.opened = some n → n < w.files.created
  owned  : ∀ {pid φ path f}, M pid = some φ → w.files.lookup path = some f →
    φ.opened = some f.number → ∃ h, φ.file = some h ∧ h.path = path

namespace Filed

theorem init : Filed w₀ (fun _ => none) w₀ where
  kept   := id
  held   := nofun
  apart  := nofun
  opened := nofun
  owned  := nofun

-- A step that does not concern the files.
theorem frame (h : Filed w₀ M w) (hw : w'.files = w.files)
    (hf : ∀ {h}, ψ.file = some h → ∃ φ, M pid = some φ ∧ φ.file = some h)
    (ho : ∀ {n}, ψ.opened = some n → ∃ φ, M pid = some φ ∧ φ.opened = some n ∧ φ.file = ψ.file) :
    Filed w₀ (Function.update M pid (some ψ)) w' := by
  have file {q χ h} (hq : Function.update M pid (some ψ) q = some χ) (hh : χ.file = some h) :
      ∃ φ, M q = some φ ∧ φ.file = some h := by
    rcases of_update hq with ⟨rfl, rfl⟩ | ⟨-, hq⟩
    · exact hf hh
    · exact ⟨χ, hq, hh⟩
  have opened {q χ n} (hq : Function.update M pid (some ψ) q = some χ) (hn : χ.opened = some n) :
      ∃ φ, M q = some φ ∧ φ.opened = some n ∧ φ.file = χ.file := by
    rcases of_update hq with ⟨rfl, rfl⟩ | ⟨-, hq⟩
    · exact ho hn
    · exact ⟨χ, hq, hn, rfl⟩
  refine ⟨fun hl => ?_, fun hq hh => ?_, fun hp hq hh hh' he => ?_, fun hq hn => ?_,
    fun hq hl hn => ?_⟩
  · rw [hw]
    exact h.kept hl
  · obtain ⟨φ, hφ, hh⟩ := file hq hh
    rw [hw]
    exact h.held hφ hh
  · obtain ⟨φ, hφ, hh⟩ := file hp hh
    obtain ⟨χ, hχ, hh'⟩ := file hq hh'
    exact h.apart hφ hχ hh hh' he
  · obtain ⟨φ, hφ, hn, -⟩ := opened hq hn
    rw [hw]
    exact h.opened hφ hn
  · obtain ⟨φ, hφ, hn, he⟩ := opened hq hn
    rw [hw] at hl
    exact he ▸ h.owned hφ hl hn

-- A step of a command at the path `p`, where no file was before, and which no other command uses.
theorem touch {p : String} (h : Filed w₀ M w) (hnew : w₀.files.lookup p = none)
    (hw : ∀ {path}, path ≠ p → w'.files.lookup path = w.files.lookup path)
    (hc : w.files.created ≤ w'.files.created)
    (hothers : ∀ {q χ h}, q ≠ pid → M q = some χ → χ.file = some h → h.path ≠ p)
    (hnum : ∀ {q χ f}, q ≠ pid → M q = some χ → χ.opened = some f.number →
      w'.files.lookup p ≠ some f)
    (hheld : ∀ {h}, ψ.file = some h →
      h.path = p ∧ ∃ text, w'.files.lookup p = some ⟨h.number, text⟩ ∧ ∀ t ∈ h.text, text = t)
    (hopen : ∀ {n}, ψ.opened = some n → n < w'.files.created)
    (hown : ∀ {path f}, ψ.opened = some f.number → w'.files.lookup path = some f →
      ∃ h, ψ.file = some h ∧ h.path = path) :
    Filed w₀ (Function.update M pid (some ψ)) w' where
  kept {path f} hl := by
    have hne : path ≠ p := by
      rintro rfl
      rw [hnew] at hl
      cases hl
    rw [hw hne]
    exact h.kept hl
  held hq hh := by
    rcases of_update hq with ⟨rfl, rfl⟩ | ⟨hne, hq⟩
    · obtain ⟨rfl, ht⟩ := hheld hh
      exact ⟨hnew, ht⟩
    · rw [hw (hothers hne hq hh)]
      exact h.held hq hh
  apart hp hq hh hh' he := by
    rcases of_update hp with ⟨rfl, rfl⟩ | ⟨hnp, hφ⟩ <;> rcases of_update hq with ⟨rfl, rfl⟩ | ⟨hnq, hχ⟩
    · rfl
    · exact absurd (he.symm.trans (hheld hh).1) (hothers hnq hχ hh')
    · exact absurd (he.trans (hheld hh').1) (hothers hnp hφ hh)
    · exact h.apart hφ hχ hh hh' he
  opened hq hn := by
    rcases of_update hq with ⟨rfl, rfl⟩ | ⟨-, hq⟩
    · exact hopen hn
    · exact Nat.lt_of_lt_of_le (h.opened hq hn) hc
  owned {q χ path f} hq hl hn := by
    rcases of_update hq with ⟨rfl, rfl⟩ | ⟨hne, hq⟩
    · exact hown hn hl
    · have hp : path ≠ p := by
        rintro rfl
        exact hnum hne hq hn hl
      rw [hw hp] at hl
      exact h.owned hq hl hn

theorem create {path : String} (h : Filed w₀ M w) (hl : w.files.lookup path = none)
    (hw : w'.files = w.files.create path) :
    Filed w₀ (Function.update M pid (some { φ with
      opened := some w.files.created
      file   := some { path := path, number := w.files.created } })) w' := by
  have hself : w'.files.lookup path = some ⟨w.files.created, []⟩ := by simp [hw]
  have hne {q : String} (hq : q ≠ path) : w'.files.lookup q = w.files.lookup q := by
    rw [hw, Files.lookup_create_of_ne hq]
  have hc : w'.files.created = w.files.created + 1 := by rw [hw, Files.created_create]
  refine h.touch ?_ hne (by omega) (fun _ hχ hh => ?_) (fun _ hχ hn hf => ?_) ?_ ?_ ?_
  · cases hl₀ : w₀.files.lookup path
    case none   => rfl
    case some f => rw [h.kept hl₀] at hl; cases hl
  · rintro rfl
    obtain ⟨-, text, ht, -⟩ := h.held hχ hh
    rw [hl] at ht
    cases ht
  · rw [hself] at hf
    cases hf
    exact absurd (h.opened hχ hn) (Nat.lt_irrefl _)
  · rintro _ ⟨⟩
    exact ⟨rfl, [], hself, nofun⟩
  · rintro _ ⟨⟩
    omega
  · rintro q f ho hf
    simp only [Option.some.injEq] at ho
    by_cases hq : q = path
    case pos => exact ⟨_, rfl, hq.symm⟩
    case neg =>
      rw [hne hq] at hf
      exact absurd (w.files.numbered hf) (by omega)

-- The other commands do not use the path of a file that is held.
theorem others {q : Nat} {χ : Progress} {g g' : Held} (h : Filed w₀ M w) (hφ : M pid = some φ)
    (hg : φ.file = some g) (hq : q ≠ pid) (hχ : M q = some χ) (hg' : χ.file = some g') :
    g'.path ≠ g.path :=
  fun he => hq (h.apart hχ hφ hg' hg he)

theorem write {g : Held} {t : List Char} {text : Option (List Char)} (h : Filed w₀ M w)
    (hφ : M pid = some φ) (hg : φ.file = some g) (ht : ∀ u ∈ text, t = u)
    (hw : w'.files = w.files.write g.path g.number t) :
    Filed w₀ (Function.update M pid (some { φ with file := some { g with text := text } })) w' := by
  obtain ⟨hnew, old, hold, -⟩ := h.held hφ hg
  have hself : w'.files.lookup g.path = some ⟨g.number, t⟩ := by
    rw [hw]
    exact Files.lookup_write_self hold
  have hne {q : String} (hq : q ≠ g.path) : w'.files.lookup q = w.files.lookup q := by
    rw [hw, Files.lookup_write_of_ne hq]
  have hc : w'.files.created = w.files.created := by rw [hw, Files.created_write]
  refine h.touch hnew hne (by omega) (fun hq => h.others hφ hg hq) (fun {q χ f} hq hχ hn hf => ?_) ?_
    (fun hn => ?_) (fun {path f} hn hf => ?_)
  · rw [hself] at hf
    cases hf
    obtain ⟨g', hg', hp⟩ := h.owned hχ hold hn
    exact h.others hφ hg hq hχ hg' hp
  · rintro _ ⟨⟩
    exact ⟨rfl, t, hself, ht⟩
  · rw [hc]
    exact h.opened hφ hn
  · refine ⟨_, rfl, ?_⟩
    by_cases hp : path = g.path
    case pos => exact hp.symm
    case neg =>
      rw [hne hp] at hf
      obtain ⟨g', hg', hp'⟩ := h.owned hφ hf hn
      cases hg.symm.trans hg'
      exact hp'

theorem remove {g : Held} (h : Filed w₀ M w) (hφ : M pid = some φ) (hg : φ.file = some g)
    (hw : w'.files = w.files.remove g.path) :
    Filed w₀ (Function.update M pid (some { φ with file := none })) w' := by
  have hself : w'.files.lookup g.path = none := by rw [hw, Files.lookup_remove_self]
  have hne {q : String} (hq : q ≠ g.path) : w'.files.lookup q = w.files.lookup q := by
    rw [hw, Files.lookup_remove_of_ne hq]
  have hc : w'.files.created = w.files.created := by rw [hw, Files.created_remove]
  refine h.touch (h.held hφ hg).1 hne (by omega) (fun hq => h.others hφ hg hq) (fun _ _ _ hf => ?_)
    (fun hh => ?_) (fun hn => ?_) (fun {path f} hn hf => ?_)
  · rw [hself] at hf
    cases hf
  · cases hh
  · rw [hc]
    exact h.opened hφ hn
  · have hp : path ≠ g.path := by
      rintro rfl
      rw [hself] at hf
      cases hf
    rw [hne hp] at hf
    obtain ⟨g', hg', hp'⟩ := h.owned hφ hf hn
    cases hg.symm.trans hg'
    exact absurd hp'.symm hp

end Filed

theorem Progress.file_next {e : Eff} {r : Except Err e.Answer} (h : e.KeepsFiles r) :
    (φ.next e r).file = φ.file ∧ (φ.next e r).opened = φ.opened := by
  obtain ⟨ψ, hl, hn⟩ := φ.learned e r
  rw [hn]
  cases hl <;> first | exact ⟨rfl, rfl⟩ | exact False.elim h

theorem Filed.act {x : Choice} {e : Eff} {r : Except Err e.Answer} (h : Filed w₀ M w)
    (hφ : M pid = some φ) (ha : b.Allows φ e) (hx : World.exec x pid w e = some (r, w')) :
    Filed w₀ (Function.update M pid (some (φ.next e r))) w' := by
  have hf := World.files_of_exec hx
  generalize hfs : w'.files = fs at hf
  cases hf
  case created path hl => exact h.create hl hfs
  case written path file text a t ht =>
    have hg : φ.file = some { path := path, number := file } := ha
    cases a
    case none   =>
      have hn : φ.next (.file (.writeString path file text)) (.ok none) =
          { φ with file := some ⟨path, file, some text⟩ } := by
        simp [Progress.next, Progress.learn, track, hg]
      rw [hn]
      exact h.write hφ hg (by simp [ht rfl]) hfs
    case some e =>
      have hn : φ.next (.file (.writeString path file text)) (.ok (some e)) =
          { φ with file := some ⟨path, file, none⟩ } := by
        simp [Progress.next, Progress.learn, track, ← hg]
      rw [hn]
      exact h.write hφ hg (by simp) hfs
  case removed path =>
    obtain ⟨g, hg, rfl, -⟩ := ha
    have hn := h.remove hφ hg hfs
    exact hn
  case kept hk =>
    obtain ⟨hf, ho⟩ := Progress.file_next (φ := φ) hk
    exact h.frame hfs (fun hh => ⟨φ, hφ, hf ▸ hh⟩) (fun hn => ⟨φ, hφ, ho ▸ hn, hf.symm⟩)

-- How the files are in any run.
theorem filed_of_trace {τ : List Ev} (h : b.discipline.Trace undying w₀ τ w) :
    Filed w₀ (b.discipline.memory τ) w := by
  refine h.memory_inv (fun hg => hg _ rfl) .init (fun hi _ => ?_) (fun hi hφ ha hx => ?_) (fun hi => ?_)
  · exact hi.frame rfl nofun nofun
  · exact hi.act hφ ha hx
  · exact ⟨hi.kept, hi.held, hi.apart, hi.opened, hi.owned⟩

end Bootstrap
