import Mathlib.Logic.Function.Basic
import Mathlib.Tactic.Common

-- Files and their names. A file keeps its number when it gets another name, so a process that has
-- opened a file writes to it whatever is found under the old name by then. There are no links: a
-- file has one name at most.
structure FileSystem (P T : Type) where
  names    : P → Option Nat
  data     : Nat → T
  created  : Nat
  numbered : ∀ {p n}, names p = some n → n < created
  single   : ∀ {p q n}, names p = some n → names q = some n → p = q

namespace FileSystem

variable {P T : Type} {fs : FileSystem P T} {p q r : P} {n m : Nat} {t : T}

def read (fs : FileSystem P T) (p : P) : Option T :=
  (fs.names p).map fs.data

def write (fs : FileSystem P T) (n : Nat) (t : T) : FileSystem P T :=
  { fs with data := Function.update fs.data n t }

@[simp]
theorem data_write_self : (fs.write n t).data n = t := by
  simp [write]

theorem data_write_of_ne (h : m ≠ n) : (fs.write n t).data m = fs.data m := by
  simp [write, h]

theorem read_eq (h : fs.names p = some n) : fs.read p = some (fs.data n) := by
  simp [read, h]

-- Different names are names of different files.
theorem ne_of_names (hp : fs.names p = some n) (hq : fs.names q = some m) (h : p ≠ q) : n ≠ m := by
  rintro rfl
  exact h (fs.single hp hq)

-- What is under the name `p` stays as it is.
def Keeps (fs fs' : FileSystem P T) (p : P) : Prop :=
  ∀ n, fs.names p = some n → fs'.names p = some n ∧ fs'.data n = fs.data n

theorem Keeps.refl (fs : FileSystem P T) (p : P) : fs.Keeps fs p :=
  fun _ h => ⟨h, rfl⟩

theorem Keeps.trans {fs' fs'' : FileSystem P T} (h₁ : fs.Keeps fs' p) (h₂ : fs'.Keeps fs'' p) :
    fs.Keeps fs'' p := by
  intro n hn
  obtain ⟨hn', hd⟩ := h₁ n hn
  exact ⟨(h₂ n hn').1, (h₂ n hn').2.trans hd⟩

theorem keeps_write (h : fs.names q = some m) (hp : p ≠ q) : fs.Keeps (fs.write m t) p :=
  fun _ hn => ⟨hn, data_write_of_ne (ne_of_names hn h hp)⟩

section

variable [DecidableEq P]

-- A new file, which replaces what has been under its name.
def create (fs : FileSystem P T) (p : P) (t : T) : FileSystem P T where
  names   := Function.update fs.names p (some fs.created)
  data    := Function.update fs.data fs.created t
  created := fs.created + 1
  numbered {q n} h := by
    by_cases hq : q = p
    case pos => simp_all
    case neg => exact Nat.lt_succ_of_lt (fs.numbered (by simpa [hq] using h))
  single {q r n} hq hr := by
    by_cases h₁ : q = p <;> by_cases h₂ : r = p
    · exact h₁.trans h₂.symm
    · have := fs.numbered (p := r) (n := n) (by simpa [h₂] using hr)
      simp_all
    · have := fs.numbered (p := q) (n := n) (by simpa [h₁] using hq)
      simp_all
    · exact fs.single (by simpa [h₁] using hq) (by simpa [h₂] using hr)

def remove (fs : FileSystem P T) (p : P) : FileSystem P T where
  names   := Function.update fs.names p none
  data    := fs.data
  created := fs.created
  numbered {q n} h := by
    by_cases hq : q = p
    case pos => simp_all
    case neg => exact fs.numbered (by simpa [hq] using h)
  single {q r n} hq hr := by
    by_cases h₁ : q = p <;> by_cases h₂ : r = p
    · exact h₁.trans h₂.symm
    · simp_all
    · simp_all
    · exact fs.single (by simpa [h₁] using hq) (by simpa [h₂] using hr)

-- The file `n` under the name `p` gets the name `q`. What has been under that name is gone.
def rename (fs : FileSystem P T) (p q : P) (n : Nat) (h : fs.names p = some n) : FileSystem P T where
  names   := Function.update (Function.update fs.names p none) q (some n)
  data    := fs.data
  created := fs.created
  numbered {r m} hr := by
    by_cases h₁ : r = q
    case pos =>
      obtain rfl : n = m := by simpa [h₁] using hr
      exact fs.numbered h
    case neg =>
      by_cases h₂ : r = p
      case pos => simp_all
      case neg => exact fs.numbered (by simpa [h₁, h₂] using hr)
  single {r s m} hr hs := by
    -- Under another name than `q` there is another file than `n`.
    have other {r : P} (hr : Function.update (Function.update fs.names p none) q (some n) r = some m)
        (hq : r ≠ q) : fs.names r = some m ∧ m ≠ n := by
      have hp : r ≠ p := by
        rintro rfl
        simp [hq] at hr
      have hr : fs.names r = some m := by simpa [hq, hp] using hr
      exact ⟨hr, fun hm => hp (fs.single hr (hm ▸ h))⟩
    by_cases h₁ : r = q <;> by_cases h₂ : s = q
    · exact h₁.trans h₂.symm
    · obtain rfl : n = m := by simpa [h₁] using hr
      exact absurd rfl (other hs h₂).2
    · obtain rfl : n = m := by simpa [h₂] using hs
      exact absurd rfl (other hr h₁).2
    · exact fs.single (other hr h₁).1 (other hs h₂).1

@[simp]
theorem names_create_self : (fs.create p t).names p = some fs.created := by
  simp [create]

theorem names_create_of_ne (h : q ≠ p) : (fs.create p t).names q = fs.names q := by
  simp [create, h]

@[simp]
theorem data_create_self : (fs.create p t).data fs.created = t := by
  simp [create]

theorem data_create_of_name (h : fs.names q = some n) : (fs.create p t).data n = fs.data n := by
  simp [create, Nat.ne_of_lt (fs.numbered h)]

@[simp]
theorem names_remove_self : (fs.remove p).names p = none := by
  simp [remove]

theorem names_remove_of_ne (h : q ≠ p) : (fs.remove p).names q = fs.names q := by
  simp [remove, h]

@[simp]
theorem names_rename_self {h : fs.names p = some n} : (fs.rename p q n h).names q = some n := by
  simp [rename]

theorem names_rename_of_ne (h : fs.names p = some n) (hp : r ≠ p) (hq : r ≠ q) :
    (fs.rename p q n h).names r = fs.names r := by
  simp [rename, hp, hq]

theorem names_rename_old (h : fs.names p = some n) (hq : p ≠ q) :
    (fs.rename p q n h).names p = none := by
  simp [rename, hq]

@[simp]
theorem data_rename {h : fs.names p = some n} : (fs.rename p q n h).data = fs.data :=
  rfl

theorem keeps_create (h : fs.names q = none) : fs.Keeps (fs.create q t) p := by
  intro n hn
  have hp : p ≠ q := by
    rintro rfl
    cases h.symm.trans hn
  exact ⟨(names_create_of_ne hp).trans hn, data_create_of_name hn⟩

theorem keeps_remove (hp : p ≠ q) : fs.Keeps (fs.remove q) p :=
  fun _ hn => ⟨(names_remove_of_ne hp).trans hn, rfl⟩

theorem keeps_rename (h : fs.names q = some m) (hq : p ≠ q) (hr : p ≠ r) :
    fs.Keeps (fs.rename q r m h) p :=
  fun _ hn => ⟨(names_rename_of_ne h hq hr).trans hn, rfl⟩

end
end FileSystem
