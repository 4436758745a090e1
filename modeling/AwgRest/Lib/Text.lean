import Mathlib.Data.List.DropRight
import Mathlib.Tactic.Common

-- The functions of the `strings` package on texts as lists of characters.
namespace Text

-- `unicode.IsSpace`
def isSpace (c : Char) : Bool :=
  c ∈ ['\t', '\n', '\x0b', '\x0c', '\r', ' ', '\u0085', '\u00a0', '\u1680', '\u2028', '\u2029',
    '\u202f', '\u205f', '\u3000'] ∨ ('\u2000' ≤ c ∧ c ≤ '\u200a')

-- `strings.TrimFunc`
def trimBy (p : Char → Bool) (s : List Char) : List Char :=
  (s.dropWhile p).rdropWhile p

-- `strings.TrimSpace`
def trimSpace (s : List Char) : List Char :=
  trimBy isSpace s

-- `strings.Cut` at a separator of one character.
def cut (c : Char) (s : List Char) : Option (List Char × List Char) :=
  match s.dropWhile (· ≠ c) with
  | []     => none
  | _ :: v => some (s.takeWhile (· ≠ c), v)

-- `strings.SplitAfter` at a separator of one character, which stays at the end of each part.
def splitAfter (c : Char) : List Char → List (List Char)
  | []     => [[]]
  | d :: s =>
    if d = c then [d] :: splitAfter c s
    else match splitAfter c s with
      | []      => [[d]]
      | l :: ls => (d :: l) :: ls

-- `strings.Contains`
def contains (s sub : List Char) : Bool :=
  s.tails.any sub.isPrefixOf

-- `strings.ToLower`. All but two of the characters outside of ASCII have lower case forms that are
-- outside of ASCII too. They are left as they are, since results are compared with ASCII words only.
def toLower (c : Char) : Char :=
  if c = '\u212a' then 'k' else if c = '\u0130' then 'i' else c.toLower

-- `strings.Fields`
def fields (s : List Char) : List (List Char) :=
  (s.splitOnP isSpace).filter (· ≠ [])

-- The characters of ASCII that leave a mark.
def isGraph (c : Char) : Bool :=
  '!' ≤ c ∧ c ≤ '~'

section

variable {p : Char → Bool} {s t : List Char} {c : Char}

-- What holds of all characters of a text, by going through them.
theorem forall_of_all {p : Char → Prop} [DecidablePred p] (h : s.all (fun c => decide (p c)) = true) :
    ∀ c ∈ s, p c :=
  fun c hc => of_decide_eq_true (List.all_eq_true.mp h c hc)

theorem trimBy_eq_self (h : ∀ c ∈ s, p c = false) : trimBy p s = s := by
  have hd : s.dropWhile p = s := by
    cases s
    case nil       => rfl
    case cons c s  => simp [h c]
  rw [trimBy, hd, List.rdropWhile_eq_self_iff]
  intro hs
  simp [h _ (List.getLast_mem hs)]

theorem trimBy_cons (hc : p c = true) : trimBy p (c :: s) = trimBy p s := by
  simp [trimBy, hc]

theorem rdropWhile_append_cons (hc : p c = false) :
    (s ++ c :: t).rdropWhile p = s ++ c :: t.rdropWhile p := by
  induction t using List.reverseRecOn
  case nil => simp [hc]
  case append_singleton t d ih =>
    rw [← List.cons_append, ← List.append_assoc, List.rdropWhile_concat, List.rdropWhile_concat]
    split
    case isTrue  => exact ih
    case isFalse => simp

-- Trimming keeps what stands before a character that is not trimmed.
theorem trimBy_append_cons (hs : ∀ d ∈ s.head?, p d = false) (hc : p c = false) :
    trimBy p (s ++ c :: t) = s ++ c :: t.rdropWhile p := by
  have hd : (s ++ c :: t).dropWhile p = s ++ c :: t := by
    cases s
    case nil      => simp [hc]
    case cons d s => simp [hs d rfl]
  rw [trimBy, hd, rdropWhile_append_cons hc]

theorem trimBy_concat (hc : p c = true) (hs : ∀ d ∈ s, p d = false) : trimBy p (s ++ [c]) = s := by
  cases s
  case nil => simp [trimBy, hc, List.rdropWhile]
  case cons d s =>
    have hd := hs d (by simp)
    have := trimBy_eq_self hs
    simp only [trimBy, List.dropWhile_cons, hd, Bool.false_eq_true, if_false] at this
    simp only [trimBy, List.cons_append, List.dropWhile_cons, hd, Bool.false_eq_true, if_false]
    rw [← List.cons_append, List.rdropWhile_concat, if_pos hc, this]

theorem trimBy_rdropWhile : trimBy p (s.rdropWhile p) = trimBy p s := by
  induction s using List.reverseRecOn
  case nil => rfl
  case append_singleton s c ih =>
    rw [List.rdropWhile_concat]
    split
    case isFalse => rfl
    case isTrue hc =>
      rw [ih, trimBy, trimBy, List.dropWhile_append]
      split
      case isTrue h  => rw [List.isEmpty_iff.mp h, List.dropWhile_cons_of_pos hc, List.dropWhile_nil]
      case isFalse h => rw [List.rdropWhile_concat, if_pos hc]

theorem trimBy_concat_pos (hc : p c = true) : trimBy p (s ++ [c]) = trimBy p s := by
  rw [← trimBy_rdropWhile, List.rdropWhile_concat, if_pos hc, trimBy_rdropWhile]

theorem trimBy_trimBy : trimBy p (trimBy p s) = trimBy p s := by
  have h : trimBy p (s.dropWhile p) = trimBy p s := by
    rw [trimBy, trimBy, List.dropWhile_idempotent]
  rw [trimBy.eq_def p s, trimBy_rdropWhile, h]
  rfl

theorem mem_of_mem_trimBy (h : c ∈ trimBy p s) : c ∈ s :=
  (List.dropWhile_sublist p).mem ((List.rdropWhile_prefix p _).subset h)

theorem trimBy_eq_nil_iff : trimBy p s = [] ↔ ∀ d ∈ s, p d = true := by
  rw [trimBy, List.rdropWhile_eq_nil_iff]
  refine ⟨fun h d hd => ?_, fun h d hd => h d ((List.dropWhile_sublist p).mem hd)⟩
  rw [← List.takeWhile_append_dropWhile (p := p) (l := s), List.mem_append] at hd
  exact hd.elim List.mem_takeWhile_imp (h d)

theorem cut_append_cons (h : c ∉ s) : cut c (s ++ c :: t) = some (s, t) := by
  have hs : ∀ d ∈ s, decide (d ≠ c) = true := by
    rintro d hd
    exact decide_eq_true fun e => h (e ▸ hd)
  rw [cut, List.takeWhile_append_of_pos hs, List.dropWhile_append_of_pos hs]
  simp

theorem cut_eq_none (h : c ∉ s) : cut c s = none := by
  have hs : s.dropWhile (· ≠ c) = [] :=
    List.dropWhile_eq_nil_iff.mpr fun d hd => decide_eq_true fun e => h (e ▸ hd)
  rw [cut, hs]

theorem cut_cons {d : Char} (h : d ≠ c) :
    cut c (d :: s) = (cut c s).map fun kv => (d :: kv.1, kv.2) := by
  rw [cut, cut, List.dropWhile_cons_of_pos (by simpa using h),
    List.takeWhile_cons_of_pos (by simpa using h)]
  cases s.dropWhile (· ≠ c)
  case nil  => rfl
  case cons => rfl

theorem trimBy_cons_neg (hc : p c = false) : trimBy p (c :: s) = c :: s.rdropWhile p := by
  rw [trimBy, List.dropWhile_cons_of_neg (by simp [hc])]
  exact rdropWhile_append_cons (s := []) hc

theorem isGraph_iff : isGraph c = true ↔ '!' ≤ c ∧ c ≤ '~' :=
  decide_eq_true_iff

theorem isSpace_of_isGraph (h : isGraph c = true) : isSpace c = false := by
  obtain ⟨hl, hh⟩ := isGraph_iff.mp h
  rw [isSpace, decide_eq_false_iff_not]
  rintro (hm | ⟨hs, _⟩)
  · simp only [List.mem_cons, List.not_mem_nil, or_false] at hm
    rcases hm with rfl | rfl | rfl | rfl | rfl | rfl | rfl | rfl | rfl | rfl | rfl | rfl | rfl | rfl
      <;> revert hl hh <;> decide
  · exact absurd (Char.le_trans hs hh) (by decide)

theorem isGraph_of_isDigit (h : c.isDigit = true) : isGraph c = true := by
  simp only [Char.isDigit, Bool.and_eq_true, decide_eq_true_eq] at h
  exact isGraph_iff.mpr ⟨Char.le_trans (b := '0') (by decide) h.1,
    Char.le_trans (b := '9') h.2 (by decide)⟩

-- A text of at least one character, all of which leave a mark. Trimming keeps it as it is.
def Solid (s : List Char) : Prop :=
  s ≠ [] ∧ ∀ c ∈ s, isGraph c = true

-- Not by way of all characters, of which there are too many.
instance {s : List Char} : Decidable (Solid s) :=
  decidable_of_iff (s ≠ [] ∧ s.all isGraph = true) (and_congr_right' List.all_eq_true)

theorem Solid.trimSpace_eq (h : Solid s) : trimSpace s = s :=
  trimBy_eq_self fun c hc => isSpace_of_isGraph (h.2 c hc)

theorem Solid.not_mem (h : Solid s) (hc : isGraph c = false) : c ∉ s := by
  intro hm
  simp [h.2 c hm] at hc

theorem Solid.append (hs : Solid s) (ht : Solid t) : Solid (s ++ t) := by
  refine ⟨by simp [hs.1], fun c hc => ?_⟩
  rcases List.mem_append.mp hc with hc | hc
  · exact hs.2 c hc
  · exact ht.2 c hc

theorem solid_toDigits (n : Nat) : Solid (Nat.toDigits 10 n) :=
  ⟨Nat.toDigits_ne_nil, fun _ hc =>
    isGraph_of_isDigit (Nat.isDigit_of_mem_toDigits (by decide) (by decide) hc)⟩

theorem solid_toString (n : Nat) : Solid (toString n).toList := by
  rw [Nat.toString_eq_ofList_toDigits, String.toList_ofList]
  exact solid_toDigits n

theorem solid_toString_int (n : Int) : Solid (toString n).toList := by
  rw [Int.toString_eq_repr, Int.repr_eq_if]
  split
  · exact solid_toString _
  · rw [String.toList_append]
    exact Solid.append (by decide) (solid_toString _)

-- No line break stands before a character that is not white space.
def Tame (s : List Char) : Prop :=
  '\n' ∉ s.rdropWhile isSpace

instance : Decidable (Tame s) :=
  inferInstanceAs (Decidable (¬ _))

def firstLine (s : List Char) : List Char :=
  s.takeWhile (· ≠ '\n')

theorem tame_of_not_mem (h : '\n' ∉ s) : Tame s :=
  fun hm => h ((List.rdropWhile_prefix isSpace s).subset hm)

theorem firstLine_of_not_mem (h : '\n' ∉ s) : firstLine s = s := by
  rw [firstLine, List.takeWhile_eq_self_iff]
  exact fun c hc => decide_eq_true fun e => h (e ▸ hc)

theorem firstLine_break (h : '\n' ∉ s) : firstLine (s ++ '\n' :: t) = s := by
  have hs : ∀ c ∈ s, decide (c ≠ '\n') = true := fun c hc => decide_eq_true fun e => h (e ▸ hc)
  rw [firstLine, List.takeWhile_append_of_pos hs]
  simp

theorem splitOn_break (h : '\n' ∉ s) : (s ++ '\n' :: t).splitOn '\n' = s :: t.splitOn '\n' := by
  rw [List.splitOn_append_cons_self, List.splitOn_eq_singleton h, List.singleton_append]

theorem splitOn_lines {ls : List (List Char)} (h : ∀ l ∈ ls, '\n' ∉ l) :
    (ls.flatMap (· ++ ['\n']) ++ t).splitOn '\n' = ls ++ t.splitOn '\n' := by
  induction ls
  case nil => rfl
  case cons l ls ih =>
    rw [List.flatMap_cons, List.append_assoc, List.append_assoc, List.singleton_append,
      splitOn_break (h l (by simp)), ih fun l hl => h l (List.mem_cons_of_mem _ hl), List.cons_append]

theorem of_mem_splitOn {l : List Char} (hl : l ∈ s.splitOn '\n') : '\n' ∉ l ∧ ∀ c ∈ l, c ∈ s := by
  induction hn : s.length using Nat.strong_induction_on generalizing s
  case _ n ih =>
    by_cases hm : '\n' ∈ s
    case neg =>
      rw [List.splitOn_eq_singleton hm, List.mem_singleton] at hl
      subst hl
      exact ⟨hm, fun _ => id⟩
    case pos =>
      obtain ⟨a, b, rfl, ha⟩ := List.eq_append_cons_of_mem hm
      rw [splitOn_break ha, List.mem_cons] at hl
      rcases hl with rfl | hl
      · exact ⟨ha, fun c hc => List.mem_append_left _ hc⟩
      · obtain ⟨h₁, h₂⟩ := ih b.length (by simp at hn; omega) hl rfl
        exact ⟨h₁, fun c hc => List.mem_append_right _ (List.mem_cons_of_mem _ (h₂ c hc))⟩

theorem rdropWhile_append_of_pos (ht : ∀ d ∈ t, p d = true) :
    (s ++ t).rdropWhile p = s.rdropWhile p := by
  rw [List.rdropWhile, List.reverse_append, List.dropWhile_append_of_pos (by simpa using ht)]
  rfl

-- White space on both sides.
theorem trimSpace_blanks {u : List Char} (hs : ∀ c ∈ s, isSpace c = true)
    (hu : ∀ c ∈ u, isSpace c = true) :
    trimSpace (s ++ t ++ u) = trimSpace t := by
  rw [trimSpace, ← trimBy_rdropWhile, rdropWhile_append_of_pos hu, trimBy_rdropWhile, trimBy,
    List.dropWhile_append_of_pos hs]
  rfl

-- The text after a line break is not blank if a character other than white space is in it.
theorem tame_break_iff (h : '\n' ∉ s) : Tame (s ++ '\n' :: t) ↔ ∀ d ∈ t, isSpace d = true := by
  constructor
  case mpr =>
    intro ht
    rw [Tame, rdropWhile_append_of_pos (by simpa using ⟨by decide, ht⟩)]
    exact tame_of_not_mem h
  case mp =>
    intro hn
    by_contra ht
    obtain ⟨d, hd, hs⟩ := not_forall₂.mp ht
    obtain ⟨a, b, rfl⟩ := List.append_of_mem hd
    refine hn ?_
    rw [← List.cons_append, ← List.append_assoc, rdropWhile_append_cons (by simpa using hs)]
    simp

-- Of a tame text only the first line is not blank.
theorem Tame.blank (h : Tame s) : ∀ l ∈ (s.splitOn '\n').tail, trimSpace l = [] := by
  by_cases hm : '\n' ∈ s
  case neg => simp [List.splitOn_eq_singleton hm]
  case pos =>
    obtain ⟨a, b, rfl, ha⟩ := List.eq_append_cons_of_mem hm
    rw [splitOn_break ha, List.tail_cons]
    intro l hl
    exact trimBy_eq_nil_iff.mpr fun d hd => (tame_break_iff ha).mp h d ((of_mem_splitOn hl).2 d hd)

-- A text is tame if and only if the first line is all of it, but for white space at the ends.
theorem trimSpace_firstLine_iff : trimSpace (firstLine s) = trimSpace s ↔ Tame s := by
  by_cases hm : '\n' ∈ s
  case neg => simp [firstLine_of_not_mem hm, tame_of_not_mem hm]
  case pos =>
    obtain ⟨a, b, rfl, ha⟩ := List.eq_append_cons_of_mem hm
    rw [firstLine_break ha, tame_break_iff ha]
    constructor
    case mpr =>
      intro hb
      have hs : ∀ d ∈ '\n' :: b, isSpace d = true := by simpa using ⟨by decide, hb⟩
      rw [trimSpace, trimSpace, ← trimBy_rdropWhile, ← trimBy_rdropWhile (s := a ++ _),
        rdropWhile_append_of_pos hs]
    case mp =>
      intro he
      by_contra hb
      obtain ⟨d, hd, hs⟩ := not_forall₂.mp hb
      obtain ⟨b₁, b₂, rfl⟩ := List.append_of_mem hd
      by_cases hblank : trimSpace a = []
      · -- The first line is blank, but the text is not.
        rw [hblank, eq_comm, trimSpace, trimBy_eq_nil_iff] at he
        exact hs (he d (by simp))
      · -- There is a line break between the first line and what follows it.
        have hn : '\n' ∈ trimSpace (a ++ '\n' :: (b₁ ++ d :: b₂)) := by
          have hd : a.dropWhile isSpace ≠ [] := by
            simpa [trimSpace, trimBy_eq_nil_iff] using hblank
          rw [trimSpace, trimBy, List.dropWhile_append, if_neg (by simpa using hd),
            ← List.cons_append,
            ← List.append_assoc, rdropWhile_append_cons (by simpa using hs)]
          simp
        rw [← he] at hn
        exact ha (mem_of_mem_trimBy hn)

-- The parts of `splitAfter`: all but the last one end with the separator.
theorem splitAfter_eq (sep : Char) (s : List Char) :
    ∃ (xs : List (List Char)) (y : List Char), splitAfter sep s = xs.map (· ++ [sep]) ++ [y] ∧
      (∀ x ∈ xs, sep ∉ x) ∧ sep ∉ y ∧ s = xs.flatMap (· ++ [sep]) ++ y := by
  induction s
  case nil => exact ⟨[], [], rfl, by simp, by simp, rfl⟩
  case cons d s ih =>
    obtain ⟨xs, y, he, hx, hy, rfl⟩ := ih
    by_cases hd : d = sep
    case pos => exact ⟨[] :: xs, y, by simp [splitAfter, hd, he], by simpa using hx, hy, by simp [hd]⟩
    case neg =>
      cases xs
      case nil => exact ⟨[], d :: y, by simp_all [splitAfter], by simp, by simp_all [eq_comm], by simp⟩
      case cons x xs =>
        refine ⟨(d :: x) :: xs, y, ?_, ?_, hy, by simp⟩
        · rw [splitAfter, if_neg hd, he]
          rfl
        · simp_all [eq_comm]

-- Splitting a text of lines that all end with the separator.
theorem splitOn_flatMap (ls : List (List Char)) (sep : Char) :
    (ls.flatMap (· ++ [sep])).splitOn sep = ls.flatMap (List.splitOn sep) ++ [[]] := by
  induction ls
  case nil => rfl
  case cons l ls ih =>
    rw [List.flatMap_cons, List.append_assoc, List.singleton_append,
      List.splitOn_append_cons_self, ih,
      List.flatMap_cons, List.append_assoc]

end
end Text
