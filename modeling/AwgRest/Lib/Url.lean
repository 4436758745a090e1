import Mathlib.Tactic.Common

-- The escapes of `net/url` in the path of a URL. Escapes of bytes that are not ASCII are read one by
-- one, so that texts that hold such bytes are not read back.
namespace Url

inductive Mode
  | path
  | pathSegment
deriving DecidableEq

def isAlnum (c : Char) : Bool :=
  ('a' ≤ c ∧ c ≤ 'z') ∨ ('A' ≤ c ∧ c ≤ 'Z') ∨ ('0' ≤ c ∧ c ≤ '9')

def shouldEscape (mode : Mode) (c : Char) : Bool :=
  if isAlnum c then false
  else if c ∈ "-_.~".toList then false
  else if c ∈ "$&+,/:;=?@".toList then
    match mode with
    | .path        => c = '?'
    | .pathSegment => c = '/' ∨ c = ';' ∨ c = ',' ∨ c = '?'
  else true

def upperhex (n : Nat) : Char :=
  "0123456789ABCDEF".toList.getD n '0'

def unhex (c : Char) : Option Nat :=
  if '0' ≤ c ∧ c ≤ '9' then some (c.toNat - '0'.toNat)
  else if 'a' ≤ c ∧ c ≤ 'f' then some (c.toNat - 'a'.toNat + 10)
  else if 'A' ≤ c ∧ c ≤ 'F' then some (c.toNat - 'A'.toNat + 10)
  else none

def escapeByte (b : UInt8) : List Char :=
  ['%', upperhex (b.toNat / 16), upperhex (b.toNat % 16)]

def escapeChar (mode : Mode) (c : Char) : List Char :=
  if shouldEscape mode c then (String.utf8EncodeChar c).flatMap escapeByte else [c]

def escape (mode : Mode) (s : List Char) : List Char :=
  s.flatMap (escapeChar mode)

def pathEscape (s : List Char) : List Char :=
  escape .pathSegment s

def unescape : List Char → Option (List Char)
  | []                 => some []
  | '%' :: a :: b :: s => do some (Char.ofNat ((← unhex a) * 16 + (← unhex b)) :: (← unescape s))
  | '%' :: _           => none
  | c :: s             => (unescape s).map (c :: ·)

-- The path as it is meant, and as it was written if it would be written in another way now.
structure URL where
  path    : List Char
  rawPath : List Char
deriving DecidableEq

def setPath (p : List Char) : Option URL :=
  (unescape p).map fun path => ⟨path, if escape .path path = p then [] else p⟩

def validEncoded (s : List Char) : Bool :=
  s.all fun c => c ∈ "!$&'()*+,;=:@[]%".toList || !shouldEscape .path c

-- The path as a request holds it.
def URL.escapedPath (u : URL) : List Char :=
  if u.rawPath ≠ [] ∧ validEncoded u.rawPath ∧ unescape u.rawPath = some u.path then u.rawPath
  else escape .path u.path

section

variable {mode : Mode} {c : Char} {s t : List Char}

theorem escape_eq_self (h : ∀ c ∈ s, shouldEscape mode c = false) : escape mode s = s := by
  induction s
  case nil => rfl
  case cons c s ih =>
    have hc : escapeChar mode c = [c] := by simp [escapeChar, h c (by simp)]
    have hs := ih fun d hd => h d (List.mem_cons_of_mem _ hd)
    unfold escape at hs ⊢
    rw [List.flatMap_cons, hc, hs, List.singleton_append]

theorem unescape_cons (h : c ≠ '%') : unescape (c :: s) = (unescape s).map (c :: ·) := by
  rw [unescape.eq_def]
  split
  case h_1 he => cases he
  case h_2 he => exact absurd (List.cons.inj he).1 h
  case h_3 he => exact absurd (List.cons.inj he).1 h
  case h_4 he =>
    cases he
    rfl

theorem unescape_append (h : '%' ∉ s) : unescape (s ++ t) = (unescape t).map (s ++ ·) := by
  induction s
  case nil => simp
  case cons c s ih =>
    obtain ⟨hc, hs⟩ := not_or.mp (mt List.mem_cons.mpr h)
    rw [List.cons_append, unescape_cons (Ne.symm hc), ih hs, Option.map_map]
    rfl

theorem not_mem_escape_percent (h : ∀ c ∈ s, shouldEscape mode c = false) : '%' ∉ s := by
  intro hm
  have hf := h '%' hm
  cases mode <;> exact absurd hf (by decide)

theorem unhex_upperhex : ∀ n < 16, unhex (upperhex n) = some n := by
  decide

theorem utf8EncodeChar_ascii (h : c.toNat < 128) :
    String.utf8EncodeChar c = [UInt8.ofNat c.toNat] := by
  have hle : c.toNat ≤ 127 := Nat.le_of_lt_succ h
  exact if_pos hle

theorem unescape_escapeByte (b : UInt8) (t : List Char) :
    unescape (escapeByte b ++ t) = (unescape t).map (Char.ofNat b.toNat :: ·) := by
  have hlt := b.toNat_lt
  have hhi := unhex_upperhex (b.toNat / 16) (by omega)
  have hlo := unhex_upperhex (b.toNat % 16) (by omega)
  simp only [escapeByte, List.cons_append, List.nil_append, unescape, hhi, hlo]
  cases unescape t
  case none   => rfl
  case some t =>
    show some (Char.ofNat (b.toNat / 16 * 16 + b.toNat % 16) :: t) = _
    rw [Nat.div_add_mod']
    rfl

theorem unescape_escapeChar (h : c.toNat < 128) :
    unescape (escapeChar mode c ++ t) = (unescape t).map (c :: ·) := by
  unfold escapeChar
  split
  case isTrue =>
    have hb : (UInt8.ofNat c.toNat).toNat = c.toNat := Nat.mod_eq_of_lt (by omega)
    rw [utf8EncodeChar_ascii h, List.flatMap_singleton, unescape_escapeByte, hb, Char.ofNat_toNat]
  case isFalse hs =>
    refine unescape_cons ?_
    rintro rfl
    cases mode <;> exact hs (by decide)

-- An escaped text is read back.
theorem unescape_escape (h : ∀ c ∈ s, c.toNat < 128) :
    unescape (escape mode s ++ t) = (unescape t).map (s ++ ·) := by
  induction s
  case nil => simp [escape]
  case cons c s ih =>
    have hs := ih fun d hd => h d (List.mem_cons_of_mem _ hd)
    unfold escape at hs ⊢
    rw [List.flatMap_cons, List.append_assoc, unescape_escapeChar (h c (by simp)), hs, Option.map_map]
    rfl

theorem mem_escapeChar {d : Char} (hc : shouldEscape mode c = true) (hm : d ∈ escapeChar mode c) :
    d = '%' ∨ ∃ n < 16, d = upperhex n := by
  rw [escapeChar, if_pos hc, List.mem_flatMap] at hm
  obtain ⟨b, -, hm⟩ := hm
  have hlt := b.toNat_lt
  simp only [escapeByte, List.mem_cons, List.not_mem_nil, or_false] at hm
  rcases hm with rfl | rfl | rfl
  · exact .inl rfl
  · exact .inr ⟨_, by omega, rfl⟩
  · exact .inr ⟨_, by omega, rfl⟩

-- A segment holds no separator.
theorem slash_not_mem_pathEscape : '/' ∉ pathEscape s := by
  intro hm
  obtain ⟨c, -, hm⟩ := List.mem_flatMap.mp hm
  by_cases hc : shouldEscape .pathSegment c = true
  case pos =>
    rcases mem_escapeChar hc hm with h | ⟨n, hn, h⟩
    · cases h
    · revert n
      decide
  case neg =>
    rw [escapeChar, if_neg hc, List.mem_singleton] at hm
    exact hc (hm ▸ by decide)

-- What is changed is not as it was, as it holds an escape.
theorem pathEscape_eq_self_iff (h : '%' ∉ s) :
    pathEscape s = s ↔ ∀ c ∈ s, shouldEscape .pathSegment c = false := by
  refine ⟨fun he c hc => ?_, escape_eq_self⟩
  by_contra hn
  have hs := Bool.not_eq_false _ ▸ hn
  refine h (he ▸ List.mem_flatMap.mpr ⟨c, hc, ?_⟩)
  rw [escapeChar, if_pos hs]
  obtain ⟨b, bs, hb⟩ := List.exists_cons_of_ne_nil (@String.utf8EncodeChar_ne_nil c)
  simp [hb, escapeByte]

-- A segment is escaped where a path is.
theorem shouldEscape_path (h : shouldEscape .pathSegment c = false) :
    shouldEscape .path c = false := by
  unfold shouldEscape at h ⊢
  by_cases h₁ : isAlnum c = true
  · rw [if_pos h₁]
  by_cases h₂ : c ∈ "-_.~".toList
  · rw [if_neg h₁, if_pos h₂]
  by_cases h₃ : c ∈ "$&+,/:;=?@".toList
  · rw [if_neg h₁, if_neg h₂, if_pos h₃] at h ⊢
    exact decide_eq_false fun he => of_decide_eq_false h (.inr (.inr (.inr he)))
  · rw [if_neg h₁, if_neg h₂, if_neg h₃] at h
    cases h

theorem validEncoded_append : validEncoded (s ++ t) = (validEncoded s && validEncoded t) :=
  List.all_append

theorem validEncoded_pathEscape : validEncoded (pathEscape s) = true := by
  refine List.all_eq_true.mpr fun d hd => ?_
  obtain ⟨c, -, hm⟩ := List.mem_flatMap.mp hd
  by_cases hc : shouldEscape .pathSegment c = true
  case pos =>
    have hhex : ∀ n < 16, shouldEscape .path (upperhex n) = false := by decide
    rcases mem_escapeChar hc hm with rfl | ⟨n, hn, rfl⟩
    · decide
    · simp [hhex n hn]
  case neg =>
    rw [escapeChar, if_neg hc, List.mem_singleton] at hm
    simp [hm, shouldEscape_path (Bool.not_eq_true _ ▸ hc)]

-- A path is sent as it is written, and it is kept where it is not the default way to write it.
theorem setPath_eq (hu : unescape s = some t) (hv : validEncoded s = true) :
    ∃ u, setPath s = some u ∧ u.path = t ∧ u.escapedPath = s ∧
      (escape .path t = s ∧ u.rawPath = [] ∨ escape .path t ≠ s ∧ u.rawPath = s) := by
  rw [setPath, hu]
  by_cases he : escape .path t = s
  case pos => exact ⟨⟨t, []⟩, by simp [he], rfl, by simp [URL.escapedPath, he], .inl ⟨he, rfl⟩⟩
  case neg =>
    have hne : s ≠ [] := by
      rintro rfl
      cases hu
      exact he rfl
    exact ⟨⟨t, s⟩, by simp [he], rfl, if_pos ⟨hne, hv, hu⟩, .inr ⟨he, rfl⟩⟩

end

end Url
