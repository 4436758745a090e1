import AwgRest.RoundTrip.Redaction
import AwgRest.RoundTrip.Splice

open Text

-- Which lines are taken out of a configuration before it is handed to `awg syncconf`.
namespace Awg

def isEmptySpecialJunkLine (raw : List Char) : Bool :=
  let line := trimSpace raw
  if line = [] ∨ line.head? = some '#' then false
  else match cut '=' line with
    | none              => false
    | some (key, value) =>
      if String.ofList ((trimSpace key).map toLower) ∈ ["i1", "i2", "i3", "i4", "i5"] then
        trimSpace value = []
      else false

def sanitizeSyncConf (config : List Char) : List Char :=
  ((splitAfter '\n' config).filter fun raw => !isEmptySpecialJunkLine raw).flatten

-- The names `I1` to `I5`, as keys are compared.
def IsSpecialKey (key : List Char) : Prop :=
  String.ofList ((trimSpace key).map toLower) ∈ ["i1", "i2", "i3", "i4", "i5"]

-- A line with one of these keys and a blank value.
def EmptySpecialJunk (line : List Char) : Prop :=
  ∃ key value, line = key ++ '=' :: value ∧ '=' ∉ key ∧ IsSpecialKey key ∧ trimSpace value = []

section Lines

variable {l k v y : List Char} {key sect : String} {ls xs : List (List Char)}

-- So a line with such a key is neither a comment nor a section header.
theorem IsSpecialKey.head (h : IsSpecialKey k) :
    ∃ c t, k.dropWhile isSpace = c :: t ∧ toLower c = 'i' := by
  rw [IsSpecialKey, ← NodeAgent.trimSpace_dropWhile] at h
  cases hd : k.dropWhile isSpace
  case nil =>
    rw [hd] at h
    exact absurd h (by decide)
  case cons c t =>
    have hc : isSpace c = false := by
      have hh := List.head?_dropWhile_not isSpace k
      rw [hd] at hh
      simpa using hh
    have htrim : trimSpace (c :: t) = c :: t.rdropWhile isSpace := trimBy_cons_neg hc
    refine ⟨c, t, rfl, ?_⟩
    rw [hd, htrim, List.map_cons] at h
    simp only [List.mem_cons, List.not_mem_nil, or_false, ← String.toList_inj,
      String.toList_ofList] at h
    rcases h with h | h | h | h | h <;> exact (List.cons.inj h).1

theorem IsSpecialKey.line_head (h : IsSpecialKey k) :
    ∃ c t, trimSpace (k ++ '=' :: v) = c :: t ∧ toLower c = 'i' := by
  obtain ⟨c, t, hk, hc⟩ := h.head
  exact ⟨c, t ++ '=' :: v.rdropWhile isSpace, by rw [NodeAgent.trimSpace_assignment, hk]; rfl, hc⟩

theorem isEmptySpecialJunkLine_assignment (hk : '=' ∉ k) :
    isEmptySpecialJunkLine (k ++ '=' :: v) = true ↔ IsSpecialKey k ∧ trimSpace v = [] := by
  simp only [isEmptySpecialJunkLine, NodeAgent.cut_trimSpace hk, NodeAgent.trimSpace_dropWhile,
    NodeAgent.trimSpace_rdropWhile]
  by_cases hc : trimSpace (k ++ '=' :: v) = [] ∨ (trimSpace (k ++ '=' :: v)).head? = some '#'
  case pos =>
    rw [if_pos hc]
    refine ⟨nofun, fun ⟨hs, _⟩ => ?_⟩
    obtain ⟨c, t, ht, hi⟩ := hs.line_head (v := v)
    rw [ht] at hc
    obtain rfl : c = '#' := by simpa using hc
    exact absurd hi (by decide)
  case neg =>
    rw [if_neg hc]
    split
    case isTrue hs  => exact decide_eq_true_iff.trans (and_iff_right hs).symm
    case isFalse hs => exact ⟨nofun, fun h => absurd h.1 hs⟩

theorem isEmptySpecialJunkLine_iff : isEmptySpecialJunkLine l = true ↔ EmptySpecialJunk l := by
  constructor
  · intro h
    by_cases hm : '=' ∈ l
    case pos =>
      obtain ⟨k, v, rfl, hk⟩ := List.eq_append_cons_of_mem hm
      obtain ⟨hs, hv⟩ := (isEmptySpecialJunkLine_assignment hk).mp h
      exact ⟨k, v, rfl, hk, hs, hv⟩
    case neg =>
      have hcut : cut '=' (trimSpace l) = none := cut_eq_none fun hc => hm (mem_of_mem_trimBy hc)
      simp [isEmptySpecialJunkLine, hcut] at h
  · rintro ⟨k, v, rfl, hk, hs, hv⟩
    exact (isEmptySpecialJunkLine_assignment hk).mpr ⟨hs, hv⟩

instance : DecidablePred EmptySpecialJunk :=
  fun _ => decidable_of_iff _ isEmptySpecialJunkLine_iff

theorem not_isEmptySpecialJunkLine : (!isEmptySpecialJunkLine l) = decide (¬ EmptySpecialJunk l) := by
  simp only [← isEmptySpecialJunkLine_iff, Bool.not_eq_true, Bool.decide_eq_false]

-- The end of a line is no part of its value.
theorem isEmptySpecialJunkLine_break :
    isEmptySpecialJunkLine (l ++ ['\n']) = isEmptySpecialJunkLine l := by
  have htrim : trimSpace (l ++ ['\n']) = trimSpace l := trimBy_concat_pos (by decide)
  simp only [isEmptySpecialJunkLine, htrim]

end Lines

section Texts

variable {l y : List Char} {xs : List (List Char)}

-- The lines that stay, and the rest of the text after the last line break.
def keptLines (ls : List (List Char)) : List (List Char) :=
  ls.filter (!isEmptySpecialJunkLine ·)

def keptRest (y : List Char) : List Char :=
  if isEmptySpecialJunkLine y then [] else y

theorem isEmptySpecialJunkLine_keptRest : isEmptySpecialJunkLine (keptRest y) = false := by
  unfold keptRest
  split
  case isTrue    => rfl
  case isFalse h => exact Bool.not_eq_true _ ▸ h

theorem keptLines_keptLines : keptLines (keptLines xs) = keptLines xs := by
  simp [keptLines]

theorem keptRest_keptRest : keptRest (keptRest y) = keptRest y := by
  rw [keptRest, if_neg (by simp [isEmptySpecialJunkLine_keptRest])]

theorem keptLines_break (hx : ∀ x ∈ xs, '\n' ∉ x) : ∀ x ∈ keptLines xs, '\n' ∉ x :=
  fun x hm => hx x (List.mem_of_mem_filter hm)

theorem keptRest_break (hy : '\n' ∉ y) : '\n' ∉ keptRest y := by
  unfold keptRest
  split
  case isTrue  => exact List.not_mem_nil
  case isFalse => exact hy

-- No two lines are merged: what is left is again a text of the lines that stay.
theorem sanitizeSyncConf_lines (hx : ∀ x ∈ xs, '\n' ∉ x) (hy : '\n' ∉ y) :
    sanitizeSyncConf (xs.flatMap (· ++ ['\n']) ++ y) =
      (keptLines xs).flatMap (· ++ ['\n']) ++ keptRest y := by
  have hrest : ([y].filter (!isEmptySpecialJunkLine ·)).flatten = keptRest y := by
    unfold keptRest
    cases h : isEmptySpecialJunkLine y <;> simp [h]
  have hlines : (xs.map (· ++ ['\n'])).filter (!isEmptySpecialJunkLine ·) =
      (keptLines xs).map (· ++ ['\n']) := by
    rw [List.filter_map]
    exact congrArg _ <| List.filter_congr fun x _ => by
      rw [Function.comp_apply, isEmptySpecialJunkLine_break]
  rw [sanitizeSyncConf, splitAfter_lines hx, splitAfter_rest hy, List.filter_append,
    List.flatten_append,
    hrest, hlines, List.flatMap_def]

end Texts

section Reading

variable {l k v y : List Char} {key sect : String} {ls xs : List (List Char)}

theorem go_emptySpecialJunk (h : EmptySpecialJunk l) (hkey : ¬ IsSpecialKey key.toList) :
    interfaceValue.go key sect (l :: ls) = interfaceValue.go key sect ls := by
  obtain ⟨k, v, rfl, hk, hs, -⟩ := h
  have hother : (trimSpace k).map toLower ≠ interfaceValue.want key := by
    intro he
    rw [interfaceValue.want] at he
    exact hkey (by rwa [IsSpecialKey, ← he])
  have ha : assigns key sect (k ++ '=' :: v) = false := by
    simp [assigns, NodeAgent.cut_trimSpace hk, NodeAgent.trimSpace_dropWhile, hother]
  have hsect : sectionOf sect (k ++ '=' :: v) = sect := by
    obtain ⟨c, t, ht, hi⟩ := hs.line_head (v := v)
    refine if_neg fun hb => ?_
    rw [ht] at hb
    obtain rfl : c = '[' := by simpa using hb.1
    exact absurd hi (by decide)
  rw [go_cons ha, hsect]

theorem go_keptLines (hkey : ¬ IsSpecialKey key.toList) :
    interfaceValue.go key sect (keptLines ls) = interfaceValue.go key sect ls := by
  induction ls generalizing sect
  case nil => rfl
  case cons l ls ih =>
    by_cases hj : isEmptySpecialJunkLine l = true
    case pos =>
      rw [go_emptySpecialJunk (isEmptySpecialJunkLine_iff.mp hj) hkey, ← ih, keptLines,
        List.filter_cons_of_neg (by simp [hj])]
      rfl
    case neg =>
      have hl : keptLines (l :: ls) = l :: keptLines ls := List.filter_cons_of_pos (by simpa using hj)
      rw [hl]
      by_cases ha : assigns key sect l = true
      case pos =>
        obtain ⟨w, hw, -⟩ := go_of_assigns ha
        rw [hw, hw]
      case neg =>
        rw [go_cons (Bool.not_eq_true _ ▸ ha), go_cons (Bool.not_eq_true _ ▸ ha), ih]

-- An empty last line, which stays where the last one is taken out, is not read.
theorem go_nil_line : interfaceValue.go key sect (ls ++ [[]]) = interfaceValue.go key sect ls := by
  induction ls generalizing sect
  case nil => rfl
  case cons l ls ih =>
    rw [List.cons_append]
    by_cases ha : assigns key sect l = true
    case pos =>
      obtain ⟨w, hw, -⟩ := go_of_assigns ha
      rw [hw, hw]
    case neg =>
      rw [go_cons (Bool.not_eq_true _ ▸ ha), go_cons (Bool.not_eq_true _ ▸ ha), ih]

theorem interfaceValue_lines (hx : ∀ x ∈ xs, '\n' ∉ x) (hy : '\n' ∉ y) :
    interfaceValue (xs.flatMap (· ++ ['\n']) ++ y) key = interfaceValue.go key "" (xs ++ [y]) := by
  rw [interfaceValue, splitOn_lines hx, List.splitOn_eq_singleton hy]

theorem interfaceValue_sanitizeSyncConf (config : List Char) (hkey : ¬ IsSpecialKey key.toList) :
    interfaceValue (sanitizeSyncConf config) key = interfaceValue config key := by
  obtain ⟨xs, y, -, hx, hy, rfl⟩ := splitAfter_eq '\n' config
  have hkept : interfaceValue.go key "" (keptLines (xs ++ [y])) =
      interfaceValue.go key "" (xs ++ [y]) :=
    go_keptLines hkey
  rw [sanitizeSyncConf_lines hx hy, interfaceValue_lines (keptLines_break hx) (keptRest_break hy),
    interfaceValue_lines hx hy, ← hkept, keptLines, keptLines, List.filter_append]
  cases h : isEmptySpecialJunkLine y
  case false => simp [keptRest, h]
  case true  => simpa [keptRest, h] using go_nil_line

end Reading

theorem sanitizeSyncConf_idempotent (config : List Char) :
    sanitizeSyncConf (sanitizeSyncConf config) = sanitizeSyncConf config := by
  obtain ⟨xs, y, -, hx, hy, rfl⟩ := splitAfter_eq '\n' config
  rw [sanitizeSyncConf_lines hx hy, sanitizeSyncConf_lines (keptLines_break hx) (keptRest_break hy),
    keptLines_keptLines, keptRest_keptRest]

theorem splitAfter_sanitizeSyncConf (config : List Char) :
    ∀ line ∈ splitAfter '\n' (sanitizeSyncConf config), ¬ EmptySpecialJunk line := by
  obtain ⟨xs, y, -, hx, hy, rfl⟩ := splitAfter_eq '\n' config
  rw [sanitizeSyncConf_lines hx hy, splitAfter_lines (keptLines_break hx),
    splitAfter_rest (keptRest_break hy)]
  intro line hm
  rw [← isEmptySpecialJunkLine_iff, Bool.not_eq_true]
  rcases List.mem_append.mp hm with hm | hm
  · obtain ⟨x, hx, rfl⟩ := List.mem_map.mp hm
    rw [isEmptySpecialJunkLine_break]
    simpa using (List.mem_filter.mp hx).2
  · rw [List.mem_singleton.mp hm, isEmptySpecialJunkLine_keptRest]

-- Exactly the empty lines of `I1` to `I5` are taken out, and no other key is read differently.
theorem sanitizeSyncConf_exact (config : List Char) :
    sanitizeSyncConf config =
      ((splitAfter '\n' config).filter fun line => ¬ EmptySpecialJunk line).flatten ∧
    (∀ line ∈ splitAfter '\n' (sanitizeSyncConf config), ¬ EmptySpecialJunk line) ∧
    sanitizeSyncConf (sanitizeSyncConf config) = sanitizeSyncConf config ∧
    ∀ key : String, ¬ IsSpecialKey key.toList →
      interfaceValue (sanitizeSyncConf config) key = interfaceValue config key := by
  refine ⟨?_, splitAfter_sanitizeSyncConf config, sanitizeSyncConf_idempotent config,
    fun key => interfaceValue_sanitizeSyncConf config⟩
  rw [sanitizeSyncConf]
  exact congrArg _ <| List.filter_congr fun _ _ => not_isEmptySpecialJunkLine

-- The lines around a blank `i2` and a blank last `I5` stay as they are.
theorem sanitizeSyncConf_exact_sample :
    sanitizeSyncConf "[Interface]\nI1 = <b 0xff>\n i2 =\nJc = 4\nI5= ".toList =
      "[Interface]\nI1 = <b 0xff>\nJc = 4\n".toList ∧
    interfaceValue "[Interface]\nI1 = <b 0xff>\nJc = 4\n".toList "Jc" = ['4'] := by
  have hs : sanitizeSyncConf "[Interface]\nI1 = <b 0xff>\n i2 =\nJc = 4\nI5= ".toList =
      "[Interface]\nI1 = <b 0xff>\nJc = 4\n".toList := by decide +kernel
  refine ⟨hs, ?_⟩
  rw [← hs, (sanitizeSyncConf_exact _).2.2.2 "Jc" (by unfold IsSpecialKey; decide +kernel)]
  decide +kernel

end Awg
