import AwgRest.RoundTrip.Interface

open Text Render Fake

-- Copying the private key of one configuration into another one.
namespace Awg

section Lines

variable {key sect : String} {l : List Char} {ls ms : List (List Char)}

-- The section after a line.
def sectionOf (sect : String) (raw : List Char) : String :=
  let line := trimSpace raw
  if line.head? = some '[' ∧ line.getLast? = some ']' then
    String.ofList ((trimSpace (trimBy (fun c => c = '[' ∨ c = ']') line)).map toLower)
  else sect

-- Whether a line of the interface section gives the key a value, be it an empty one.
def assigns (key sect : String) (raw : List Char) : Bool :=
  let line := trimSpace raw
  line ≠ [] && line.head? ≠ some '#' && !(line.head? = some '[' && line.getLast? = some ']') &&
  sect = "interface" &&
    ((cut '=' line).any fun kv => (trimSpace kv.1).map toLower = interfaceValue.want key)

def unassigned (key : String) (sect : String) : List (List Char) → Bool
  | []      => true
  | l :: ls => !assigns key sect l && unassigned key (sectionOf sect l) ls

theorem go_cons (h : assigns key sect l = false) :
    interfaceValue.go key sect (l :: ls) = interfaceValue.go key (sectionOf sect l) ls := by
  simp only [assigns, sectionOf, interfaceValue.go] at h ⊢
  generalize trimSpace l = line at h ⊢
  by_cases hb : line.head? = some '[' ∧ line.getLast? = some ']'
  case pos =>
    have hn : ¬ (line = [] ∨ line.head? = some '#') := by
      rintro (rfl | hc)
      · cases hb.1
      · simp [hc] at hb
    rw [if_neg hn, if_pos hb, if_pos hb]
  case neg =>
    rw [if_neg hb, if_neg hb]
    by_cases hn : line = [] ∨ line.head? = some '#'
    case pos => rw [if_pos hn]
    case neg =>
      rw [if_neg hn]
      by_cases hs : sect = "interface"
      case neg => rw [if_pos hs]
      case pos =>
        rw [if_neg (not_not.mpr hs)]
        cases hc : cut '=' line
        case none    => rfl
        case some kv =>
          refine if_neg fun hk => ?_
          have hb' : (decide (line.head? = some '[') && decide (line.getLast? = some ']')) =
              false := by
            simpa using hb
          rw [not_or] at hn
          simp [hn.1, hn.2, hb', hs, hc, hk] at h

theorem mem_of_cut {c d : Char} {s t u : List Char} (h : cut c s = some (t, u))
    (hd : d ∈ u) : d ∈ s := by
  unfold cut at h
  split at h
  case _ => cases h
  case _ hw =>
    cases h
    exact (List.dropWhile_sublist _).mem (hw ▸ List.mem_cons_of_mem _ hd)

theorem go_of_assigns (h : assigns key sect l = true) :
    ∃ v, (∀ ls, interfaceValue.go key sect (l :: ls) = trimSpace v) ∧ ∀ c ∈ v, c ∈ l := by
  simp only [assigns, Bool.and_eq_true, decide_eq_true_eq, Bool.not_eq_true', Bool.and_eq_false_iff,
    decide_eq_false_iff_not, Option.any_eq_true] at h
  obtain ⟨⟨⟨⟨hn, hc⟩, hb⟩, hs⟩, ⟨k, v⟩, hcut, hk⟩ := h
  refine ⟨v, fun ls => ?_, fun c hc => mem_of_mem_trimBy (mem_of_cut hcut hc)⟩
  rw [← not_and_or] at hb
  simp only [interfaceValue.go, hn, hc, hb, hs, hcut, hk, or_self, if_false, ne_eq, not_true_eq_false,
    if_true]

theorem go_append (h : unassigned key sect ls = true) :
    interfaceValue.go key sect (ls ++ ms) = interfaceValue.go key (ls.foldl sectionOf sect) ms := by
  induction ls generalizing sect
  case nil => rfl
  case cons l ls ih =>
    simp only [unassigned, Bool.and_eq_true, Bool.not_eq_true'] at h
    rw [List.cons_append, go_cons h.1, ih h.2]
    rfl

theorem unassigned_append :
    unassigned key sect (ls ++ ms) =
      (unassigned key sect ls && unassigned key (ls.foldl sectionOf sect) ms) := by
  induction ls generalizing sect
  case nil => rfl
  case cons l ls ih => simp [unassigned, ih, Bool.and_assoc]

theorem go_eq_nil (h : unassigned key sect ls = true) : interfaceValue.go key sect ls = [] := by
  rw [← List.append_nil ls, go_append h]
  rfl

-- A value is a part of a line, without white space around it.
theorem go_part (key sect : String) (ls : List (List Char)) :
    trimSpace (interfaceValue.go key sect ls) = interfaceValue.go key sect ls ∧
      ∀ c ∈ interfaceValue.go key sect ls, ∃ l ∈ ls, c ∈ l := by
  induction ls generalizing sect
  case nil => exact ⟨rfl, fun c hc => absurd hc List.not_mem_nil⟩
  case cons l ls ih =>
    by_cases ha : assigns key sect l = true
    case neg =>
      rw [go_cons (Bool.not_eq_true _ ▸ ha)]
      refine ⟨(ih _).1, fun c hc => ?_⟩
      obtain ⟨m, hm, hc⟩ := (ih _).2 c hc
      exact ⟨m, List.mem_cons_of_mem _ hm, hc⟩
    case pos =>
      obtain ⟨v, hv, hm⟩ := go_of_assigns ha
      rw [hv]
      exact ⟨trimBy_trimBy, fun c hc => ⟨l, by simp, hm c (mem_of_mem_trimBy hc)⟩⟩

theorem toLower_cases (c : Char) :
    c.toLower = c ∨ isGraph c = true ∧ 'a' ≤ c.toLower ∧ c.toLower ≤ 'z' := by
  unfold Char.toLower
  split
  case isFalse => exact .inl rfl
  case isTrue h =>
    simp only [isGraph_iff, Char.le_def, UInt32.le_iff_toNat_le, ge_iff_le, UInt32.toNat_add] at h ⊢
    have hA : 'A'.val.toNat = 65 := rfl
    have hZ : 'Z'.val.toNat = 90 := rfl
    have ha : 'a'.val.toNat = 97 := rfl
    have hz : 'z'.val.toNat = 122 := rfl
    have hl : '!'.val.toNat = 33 := rfl
    have hh : '~'.val.toNat = 126 := rfl
    have hd : ('a'.val - 'A'.val).toNat = 32 := rfl
    exact .inr ⟨by omega, by omega, by omega⟩

theorem eq_of_toLower {c d : Char} (h : c.toLower = d) (hd : ¬ ('a' ≤ d ∧ d ≤ 'z')) : c = d := by
  rcases toLower_cases c with hc | ⟨-, hc⟩
  · exact hc.symm.trans h
  · exact absurd (h ▸ hc) hd

theorem isGraph_of_toLower {c : Char} (h : isGraph c.toLower = true) : isGraph c = true := by
  rcases toLower_cases c with hc | ⟨hg, -⟩
  · exact hc ▸ h
  · exact hg

theorem toLower_of_isGraph {c : Char} (h : isGraph c = true) : Text.toLower c = c.toLower := by
  have h₁ : c ≠ '\u212a' := fun hc => by simp [hc] at h; revert h; decide
  have h₂ : c ≠ '\u0130' := fun hc => by simp [hc] at h; revert h; decide
  simp [Text.toLower, h₁, h₂]

-- The line that `WithInterfaceValue` looks for begins the interface section.
theorem header_interface (key sect : String) (h : equalFold (trimSpace l) "[Interface]" = true) :
    sectionOf sect l = "interface" ∧ assigns key sect l = false := by
  have hm : (trimSpace l).map Char.toLower = "[interface]".toList := by
    simpa [equalFold] using h
  have hsplit : "[interface]".toList = ['['] ++ ("interface".toList ++ [']']) := rfl
  rw [hsplit, List.map_eq_append_iff] at hm
  obtain ⟨x, y, hl, hx, hy⟩ := hm
  obtain ⟨mid, z, rfl, hmid, hz⟩ := List.map_eq_append_iff.mp hy
  obtain ⟨a, rfl, ha⟩ := List.map_eq_singleton_iff.mp hx
  obtain ⟨b, rfl, hb⟩ := List.map_eq_singleton_iff.mp hz
  -- The brackets are what they are in any case, and there are only letters between them.
  obtain rfl : a = '[' := eq_of_toLower ha (by decide)
  obtain rfl : b = ']' := eq_of_toLower hb (by decide)
  have hlow {c : Char} (hc : c ∈ mid) : c.toLower ∈ "interface".toList :=
    hmid ▸ List.mem_map_of_mem hc
  have hg : ∀ c ∈ mid, isGraph c = true := fun c hc =>
    isGraph_of_toLower (List.all_eq_true.mp (by decide) _ (hlow hc))
  have hbr : ∀ c ∈ mid, decide (c = '[' ∨ c = ']') = false := by
    intro c hc
    refine decide_eq_false ?_
    rintro (rfl | rfl) <;> exact absurd (hlow hc) (by decide)
  have htrim : trimBy (fun c => decide (c = '[' ∨ c = ']')) ('[' :: (mid ++ [']'])) = mid := by
    rw [trimBy_cons (by decide), trimBy_concat (by decide) hbr]
  have hlast : ('[' :: (mid ++ [']'])).getLast? = some ']' := by
    rw [← List.cons_append, List.getLast?_concat]
  have hmap : (trimSpace mid).map Text.toLower = "interface".toList := by
    rw [trimSpace, trimBy_eq_self fun c hc => isSpace_of_isGraph (hg c hc), ← hmid]
    exact List.map_congr_left fun c hc => toLower_of_isGraph (hg c hc)
  simp only [List.singleton_append] at hl
  constructor
  · rw [sectionOf, hl, if_pos ⟨rfl, hlast⟩, htrim, hmap]
    rfl
  · simp [assigns, hl, hlast]

end Lines

section Splice

variable {config current v : List Char}

-- No line assigns a private key, not even an empty one.
def NoKey (config : List Char) : Prop :=
  unassigned "PrivateKey" "" (config.splitOn '\n') = true

instance : Decidable (NoKey config) :=
  inferInstanceAs (Decidable (_ = true))

-- The header of the interface section, if there is one, is not an unfinished last line.
def Terminated (config : List Char) : Prop :=
  ∀ i ∈ (splitAfter '\n' config).findIdx? (fun line => equalFold (trimSpace line) "[Interface]"),
    ∃ l ∈ (splitAfter '\n' config)[i]?, l.getLast? = some '\n'

instance : Decidable (Terminated config) :=
  inferInstanceAs (Decidable (∀ i ∈ _, ∃ l ∈ _, _))

theorem splitOn_insert {key : String} {t : List Char} {ls : List (List Char)} (h : ∀ l ∈ ls, '\n' ∉ l)
    (hk : IsKey key) (hv : '\n' ∉ v) :
    (ls.flatMap (· ++ ['\n']) ++ (item key (String.ofList v) ++ ['\n']) ++ t).splitOn '\n' =
      ls ++ item key (String.ofList v) :: t.splitOn '\n' := by
  rw [List.append_assoc, splitOn_lines h, List.append_assoc, List.singleton_append,
    splitOn_break (item_no_break hk (by simpa using hv))]

theorem value_withInterfaceValue (hn : NoKey config) (ht : Terminated config) (hv : trimSpace v = v)
    (hne : v ≠ []) (hb : '\n' ∉ v) :
    interfaceValue (withInterfaceValue config "PrivateKey" v) "PrivateKey" = v := by
  have hk : IsKey "PrivateKey" := by decide
  have hread {ls : List (List Char)} : interfaceValue.go "PrivateKey" "interface"
      (item "PrivateKey" (String.ofList v) :: ls) = v := by
    rw [go_item hk, if_pos (by decide), String.toList_ofList, hv]
  have hc : ¬ (trimSpace v = [] ∨ interfaceValue config "PrivateKey" ≠ []) := by
    rw [hv]
    exact not_or.mpr ⟨hne, not_not.mpr (go_eq_nil hn)⟩
  rw [withInterfaceValue, if_neg hc]
  cases hi : (splitAfter '\n' config).findIdx? (fun line => equalFold (trimSpace line) "[Interface]")
  case none =>
    -- There is no header, and one is put in front.
    have header : ∀ l ∈ ["[Interface]".toList], '\n' ∉ l := by decide
    have hs := splitOn_insert (t := config) header hk hb
    simp only [hi]
    rw [interfaceValue]
    refine (congrArg _ hs).trans ?_
    rw [List.singleton_append, go_header, hread]
  case some i =>
    obtain ⟨xs, y, hsp, hx, hy, rfl⟩ := splitAfter_eq '\n' config
    obtain ⟨l, hl, hlast⟩ := ht i hi
    obtain ⟨hlt, hhead, -⟩ := List.findIdx?_eq_some_iff_getElem.mp hi
    simp only [hi]
    rw [hsp] at hl hlt ⊢
    simp only [hsp] at hhead
    -- The header is not the last line, which has no line break at its end.
    have hlen : i < xs.length := by
      by_contra hge
      have hlt' : i = xs.length := by simp at hlt; omega
      subst hlt'
      have : y = l := by simpa using hl
      subst this
      exact hy (List.mem_of_getLast? hlast)
    obtain ⟨a, x, b, rfl, rfl⟩ : ∃ a x b, xs = a ++ x :: b ∧ a.length = i :=
      ⟨xs.take i, xs[i], xs.drop (i + 1), by rw [← List.drop_eq_getElem_cons, List.take_append_drop],
        by simp; omega⟩
    have hsplit : (a ++ x :: b).map (· ++ ['\n']) ++ [y] =
        (a ++ [x]).map (· ++ ['\n']) ++ (b.map (· ++ ['\n']) ++ [y]) := by simp
    have hcount : ((a ++ [x]).map (· ++ ['\n'])).length = a.length + 1 := by simp
    have hh : equalFold (trimSpace x) "[Interface]" = true := by
      have : trimSpace (x ++ ['\n']) = trimSpace x := trimBy_concat_pos (by decide)
      simpa [this] using hhead
    have hlines : ∀ l ∈ a ++ [x], '\n' ∉ l := fun l hl => hx l (by simp at hl ⊢; tauto)
    have hun : unassigned "PrivateKey" "" a = true := by
      rw [NoKey, splitOn_lines hx, List.append_assoc, unassigned_append, Bool.and_eq_true] at hn
      exact hn.1
    rw [hsplit, List.take_left' hcount, List.drop_left' hcount, ← List.flatMap_def, interfaceValue,
      splitOn_insert hlines hk hb,
      List.append_assoc, go_append hun, List.singleton_append,
      go_cons (header_interface _ _ hh).2, (header_interface "PrivateKey" _ hh).1, hread]

theorem interfaceValue_part (config : List Char) (key : String) :
    trimSpace (interfaceValue config key) = interfaceValue config key ∧
      '\n' ∉ interfaceValue config key := by
  obtain ⟨htrim, hpart⟩ := go_part key "" (config.splitOn '\n')
  refine ⟨htrim, fun hb => ?_⟩
  obtain ⟨l, hl, hc⟩ := hpart _ hb
  exact (of_mem_splitOn hl).1 hc

theorem preserve_of_key (h : interfaceValue config "PrivateKey" ≠ []) (current : List Char) :
    preserveInterfacePrivateKey config current = config := by
  rw [preserveInterfacePrivateKey]
  split
  case isTrue  => rfl
  case isFalse => rw [withInterfaceValue, if_pos (.inr h)]

-- What the reconciler and the node agent rely on: the new configuration has the key of the current
-- one.
theorem value_preserve (hn : NoKey config) (ht : Terminated config)
    (hne : interfaceValue current "PrivateKey" ≠ [])
    (hr : equalFold (interfaceValue current "PrivateKey") "(redacted)" = false) :
    interfaceValue (preserveInterfacePrivateKey config current) "PrivateKey" =
      interfaceValue current "PrivateKey" := by
  obtain ⟨htrim, hb⟩ := interfaceValue_part current "PrivateKey"
  rw [preserveInterfacePrivateKey, htrim, if_neg (by simp [hr])]
  exact value_withInterfaceValue hn ht htrim hne hb

end Splice
end Awg
