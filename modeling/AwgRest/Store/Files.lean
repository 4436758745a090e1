import AwgRest.Domain
import Mathlib.Logic.Function.Basic

open Domain

-- The configuration files of a host.
namespace Store

-- A file, and the number that tells it from another one that is created at the same path later.
structure File where
  number : Nat
  text   : List Char
deriving DecidableEq

structure Files where
  lookup   : String → Option File := fun _ => none
  created  : Nat := 0
  numbered : ∀ {path f}, lookup path = some f → f.number < created := by simp

-- What `os.OpenFile` with `O_CREATE` and `O_EXCL` returns.
inductive Opened
  | new     (file : Nat)
  | present
  | failed  (e : Err)

-- The other functions return an error, if there is one. Directories are not modelled: `mkdirAll`
-- makes the one that a path is in.
inductive FileOp
  | mkdirAll    (path : String)
  | writeString (path : String) (file : Nat) (text : List Char)
  | sync        (file : Nat)
  | close       (file : Nat)
  | remove      (path : String)
deriving DecidableEq

namespace Files

variable {fs : Files} {path q : String} {f : File}

-- What is at one path from now on.
def put (fs : Files) (path : String) (new : Option File)
    (h : ∀ {f}, new = some f → f.number < fs.created) : Files where
  lookup  := Function.update fs.lookup path new
  created := fs.created
  numbered {q f} hf := by
    by_cases hq : q = path
    case pos =>
      subst hq
      exact h (by simpa using hf)
    case neg => exact fs.numbered (by simpa [hq] using hf)

def create (fs : Files) (path : String) : Files :=
  put
    { lookup   := fs.lookup
      created  := fs.created + 1
      numbered := fun hf => Nat.lt_succ_of_lt (fs.numbered hf) }
    path (some ⟨fs.created, []⟩) fun hf => by cases hf; exact Nat.lt_succ_self _

-- What is written goes to the file that was opened, even if there is another one at its path by now.
def write (fs : Files) (path : String) (file : Nat) (text : List Char) : Files :=
  match h : fs.lookup path with
  | some f =>
    have hn : f.number < fs.created := fs.numbered h
    if f.number = file then fs.put path (some ⟨f.number, text⟩) fun hf => by cases hf; exact hn
    else fs
  | none   => fs

def remove (fs : Files) (path : String) : Files :=
  fs.put path none nofun

def openNew (fail : Option Err) (fs : Files) (path : String) : Opened × Files :=
  match fail, fs.lookup path with
  | some e, _      => (.failed e, fs)
  | none,   some _ => (.present, fs)
  | none,   none   => (.new fs.created, fs.create path)

-- A write that fails leaves some text in the file, which is `left`.
def perform (fail : Option Err) (left : List Char) (fs : Files) : FileOp → Option Err × Files
  | .writeString path file text =>
    match fail with
    | some e => (some e, fs.write path file left)
    | none   => (none, fs.write path file text)
  | .remove path =>
    match fail, fs.lookup path with
    | some e, _      => (some e, fs)
    | none,   none   => (some (.new ("remove " ++ path ++ ": no such file or directory")), fs)
    | none,   some _ => (none, fs.remove path)
  | .mkdirAll _ | .sync _ | .close _ => (fail, fs)

@[simp]
theorem lookup_create_self : (fs.create path).lookup path = some ⟨fs.created, []⟩ := by
  simp [create, put]

theorem lookup_create_of_ne (h : q ≠ path) : (fs.create path).lookup q = fs.lookup q := by
  simp [create, put, h]

@[simp]
theorem created_create : (fs.create path).created = fs.created + 1 :=
  rfl

@[simp]
theorem lookup_remove_self : (fs.remove path).lookup path = none := by
  simp [remove, put]

theorem lookup_remove_of_ne (h : q ≠ path) : (fs.remove path).lookup q = fs.lookup q := by
  simp [remove, put, h]

@[simp]
theorem created_remove : (fs.remove path).created = fs.created :=
  rfl

theorem lookup_write_self {text : List Char} (h : fs.lookup path = some f) :
    (fs.write path f.number text).lookup path = some ⟨f.number, text⟩ := by
  unfold write
  split <;> simp_all [put]

theorem lookup_write_of_ne {file : Nat} {text : List Char} (h : q ≠ path) :
    (fs.write path file text).lookup q = fs.lookup q := by
  unfold write
  split <;> (try split) <;> simp [put, h]

@[simp]
theorem created_write {file : Nat} {text : List Char} :
    (fs.write path file text).created = fs.created := by
  unfold write
  split <;> (try split) <;> rfl

end Files
end Store
