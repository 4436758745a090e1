import AwgRest.Crypto
import AwgRest.Fake
import AwgRest.Worker.Config

open Domain Netip Text Render Fake Go Awg

-- What the parser makes of the text that the renderer writes for a node.

namespace Netip

-- The characters of an address or a prefix.
def isAddrChar (c : Char) : Bool :=
  c.isDigit ∨ ('a' ≤ c ∧ c ≤ 'f') ∨ c = '.' ∨ c = ':' ∨ c = '/'

theorem isGraph_of_isAddrChar {c : Char} (h : isAddrChar c = true) : isGraph c = true ∧ c ≠ ',' := by
  simp only [isAddrChar, decide_eq_true_eq] at h
  rcases h with h | ⟨hl, hh⟩ | rfl | rfl | rfl
  · exact ⟨isGraph_of_isDigit h, by rintro rfl; exact absurd h (by decide)⟩
  · refine ⟨isGraph_iff.mpr ⟨Char.le_trans (b := 'a') (by decide) hl,
      Char.le_trans (b := 'f') hh (by decide)⟩, ?_⟩
    rintro rfl
    exact absurd hl (by decide)
  all_goals decide

theorem isAddrChar_hex {n : Nat} {c : Char} (h : c ∈ Nat.toDigits 16 n) : isAddrChar c = true := by
  induction n using Nat.strongRecOn
  case ind n ih =>
    have digit : ∀ m < 16, isAddrChar (Nat.digitChar m) = true := by decide
    by_cases hn : n < 16
    case pos =>
      rw [Nat.toDigits_of_lt_base hn, List.mem_singleton] at h
      exact h ▸ digit n hn
    case neg =>
      rw [Nat.toDigits_of_base_le (by decide) (Nat.le_of_not_lt hn), List.mem_append,
        List.mem_singleton] at h
      rcases h with h | rfl
      · exact ih (n / 16) (Nat.div_lt_self (by omega) (by decide)) h
      · exact digit _ (Nat.mod_lt _ (by decide))

def AddrText (s : String) : Prop :=
  ∀ c ∈ s.toList, isAddrChar c = true

namespace AddrText

theorem append {s t : String} (hs : AddrText s) (ht : AddrText t) : AddrText (s ++ t) := by
  intro c hc
  rw [String.toList_append, List.mem_append] at hc
  exact hc.elim (hs c) (ht c)

theorem nat (n : Nat) : AddrText (toString n) := by
  intro c hc
  rw [Nat.toString_eq_ofList_toDigits, String.toList_ofList] at hc
  simp [isAddrChar, Nat.isDigit_of_mem_toDigits (by decide) (by decide) hc]

theorem intercalate {ls : List String} (h : ∀ l ∈ ls, AddrText l) :
    AddrText (":".intercalate ls) := by
  intro c hc
  rw [String.toList_intercalate] at hc
  induction ls using List.twoStepInduction
  case nil => simp [List.intercalate] at hc
  case singleton l => exact h l (by simp) c (by simpa [List.intercalate] using hc)
  case cons_cons l m ls _ ih =>
    simp only [List.map_cons, List.intercalate, List.intersperse_cons_cons, List.flatten_cons,
      List.mem_append] at hc
    rcases hc with hc | hc | hc
    · exact h l (by simp) c hc
    · obtain rfl : c = ':' := by simpa using hc
      decide
    · exact ih m (fun l hl => h l (List.mem_cons_of_mem _ hl)) (by simpa [List.intercalate] using hc)

theorem string4 (v : Nat) : AddrText (Addr.string4 v) := by
  have dot : AddrText "." := by simp [AddrText, isAddrChar]
  exact ((((((nat _).append dot).append (nat _)).append dot).append (nat _)).append dot).append (nat _)

theorem hexGroups (gs : List Nat) : AddrText (Addr.hexGroups gs) := by
  refine intercalate fun l hl => ?_
  obtain ⟨g, _, rfl⟩ := List.mem_map.mp hl
  exact fun c hc => isAddrChar_hex (by simpa using hc)

theorem string6 (v : Nat) : AddrText (Addr.string6 v) := by
  unfold Addr.string6
  simp only
  split
  · exact hexGroups _
  · exact ((hexGroups _).append (by simp [AddrText, isAddrChar])).append (hexGroups _)

theorem string (a : Addr) : AddrText a.string := by
  unfold Addr.string
  split
  · exact string4 _
  · split
    · exact append (by simp [AddrText, isAddrChar]) (string4 _)
    · exact string6 _

theorem ofPrefix (p : Prefix) : AddrText p.string :=
  ((string _).append (by simp [AddrText, isAddrChar])).append (nat _)

end AddrText

theorem solid_prefixString (p : Prefix) : Solid p.string.toList := by
  refine ⟨?_, fun c hc => (isGraph_of_isAddrChar (AddrText.ofPrefix p c hc)).1⟩
  simp [Prefix.string]

end Netip

namespace Fake

section Parser

variable {st : ParseState} {key v : String} {ls : List (List Char)}

theorem parseLines_append (st : ParseState) (ls ms : List (List Char)) :
    parseLines st (ls ++ ms) = parseLines (parseLines st ls) ms :=
  List.foldl_append

theorem parseLines_cons (st : ParseState) (l : List Char) (ls : List (List Char)) :
    parseLines st (l :: ls) = parseLines (parseLine st l) ls :=
  rfl

-- A word that can stand before an equals sign.
def IsKey (key : String) : Prop :=
  Solid key.toList ∧ '=' ∉ key.toList ∧ key.toList.head? ≠ some '#' ∧ key.toList.head? ≠ some '['

instance : Decidable (IsKey key) :=
  inferInstanceAs (Decidable (Solid key.toList ∧ _ ∧ _ ∧ _))

-- How a line that assigns a value to a key is read.
theorem read_item (hk : IsKey key) :
    (trimSpace (item key v) ≠ [] ∧ (trimSpace (item key v)).head? ≠ some '#' ∧
      (trimSpace (item key v)).head? ≠ some '[') ∧
    cut '=' (trimSpace (item key v)) =
      some (key.toList ++ [' '], (' ' :: v.toList).rdropWhile isSpace) ∧
    trimSpace (key.toList ++ [' ']) = key.toList := by
  obtain ⟨⟨hne, hg⟩, he, hh, hb⟩ := hk
  have hs : ∀ c ∈ key.toList, isSpace c = false := fun c hc => isSpace_of_isGraph (hg c hc)
  have hl : (item key v) = (key.toList ++ [' ']) ++ '=' :: ' ' :: v.toList := by
    simp [item]
  -- Nothing before the equals sign is trimmed from the line.
  have ht : trimSpace (item key v) =
      (key.toList ++ [' ']) ++ '=' :: (' ' :: v.toList).rdropWhile isSpace := by
    rw [hl]
    refine trimBy_append_cons (fun d hd => ?_) (by decide)
    cases hk : key.toList
    case nil  => exact absurd hk hne
    case cons => exact hs d (List.mem_of_mem_head? (by simpa [hk] using hd))
  have h0 : (trimSpace (item key v)).head? = key.toList.head? := by
    rw [ht]
    cases hk : key.toList
    case nil  => exact absurd hk hne
    case cons => simp
  refine ⟨⟨by simp [ht], h0 ▸ hh, h0 ▸ hb⟩, ?_, trimBy_concat (by decide) hs⟩
  rw [ht]
  exact cut_append_cons (by simpa using he)

theorem parseLine_item (hk : IsKey key) :
    parseLine st (item key v) =
      assign st key.toList (trimSpace ((' ' :: v.toList).rdropWhile isSpace)) := by
  obtain ⟨⟨hn, hh, hb⟩, hcut, hkt⟩ := read_item (v := v) hk
  simp only [parseLine, hn, hh, hb, hcut, hkt, false_or, false_and, if_false]

theorem parseLine_item_solid (hk : IsKey key) (hv : Solid v.toList) :
    parseLine st (item key v) = assign st key.toList v.toList := by
  have hr : (' ' :: v.toList).rdropWhile isSpace = ' ' :: v.toList := by
    rw [List.rdropWhile_eq_self_iff]
    intro h
    rw [List.getLast_cons hv.1, isSpace_of_isGraph (hv.2 _ (List.getLast_mem hv.1))]
    exact Bool.false_ne_true
  have ht : trimSpace (' ' :: v.toList) = v.toList :=
    (trimBy_cons (by decide)).trans hv.trimSpace_eq
  rw [parseLine_item hk, hr, ht]

-- The lines of a text that is given without its last line breaks.
def lines (ls : List (List Char)) : List (List Char) :=
  ls.flatMap (List.splitOn '\n')

theorem lines_append (ls ms : List (List Char)) : lines (ls ++ ms) = lines ls ++ lines ms :=
  List.flatMap_append

theorem lines_singleton {l : List Char} (h : '\n' ∉ l) : lines [l] = [l] := by
  simp [lines, List.splitOn_eq_singleton h]

theorem parse_unlines (ls : List (List Char)) :
    parseRenderedConfig (unlines ls) = (flush (parseLines {} (lines ls))).toParsedConfig := by
  rw [parseRenderedConfig, unlines, splitOn_flatMap, parseLines_append]
  rfl

-- A key that the parser does not look at in the interface section.
def IgnoredKey (key : String) : Prop :=
  IsKey key ∧ String.ofList (key.toList.map toLower) ∉ ["privatekey", "listenport"]

instance : Decidable (IgnoredKey key) :=
  inferInstanceAs (Decidable (_ ∧ _))

def AllIgnored (ls : List (List Char)) : Prop :=
  ∀ l ∈ ls, ∃ key v, l = item key v ∧ IgnoredKey key ∧ '\n' ∉ v.toList

theorem item_no_break (hk : IsKey key) (hv : '\n' ∉ v.toList) : '\n' ∉ (item key v) := by
  have := hk.1.not_mem (c := '\n') (by decide)
  simp [item, this, hv]

theorem assign_ignored {k : List Char} {u : List Char} (hs : st.sect = "Interface")
    (hk : String.ofList (k.map toLower) ∉ ["privatekey", "listenport"]) : assign st k u = st := by
  simp only [List.mem_cons, List.not_mem_nil, or_false, not_or] at hk
  unfold assign
  split <;> simp_all

theorem parse_ignored (hs : st.sect = "Interface") (h : AllIgnored ls) :
    parseLines st (lines ls) = st := by
  induction ls
  case nil => rfl
  case cons l ls ih =>
    obtain ⟨key, v, rfl, ⟨hk, hi⟩, hv⟩ := h l (by simp)
    have hl : lines (item key v :: ls) = (item key v) :: lines ls := by
      rw [← List.singleton_append, lines_append, lines_singleton (item_no_break hk hv),
        List.singleton_append]
    rw [hl, parseLines_cons, parseLine_item hk, assign_ignored hs hi]
    exact ih fun l hl => h l (List.mem_cons_of_mem _ hl)

end Parser

section Profile

-- The texts of a profile that are rendered have no line breaks.
structure NoBreak (p : ProtocolProfile) : Prop where
  i1 : '\n' ∉ p.i1.toList
  i2 : '\n' ∉ p.i2.toList
  i3 : '\n' ∉ p.i3.toList
  i4 : '\n' ∉ p.i4.toList
  i5 : '\n' ∉ p.i5.toList
  headerProtectionKey : '\n' ∉ p.headerProtectionKey.toList

theorem no_break_of_solid {s : List Char} (h : Solid s) : '\n' ∉ s :=
  h.not_mem (by decide)

theorem solid_intRange (r : IntRange) : Solid r.string.toList := by
  unfold IntRange.string
  split
  · exact solid_toString_int _
  · simp only [String.toList_append]
    exact ((solid_toString_int _).append (by decide)).append (solid_toString_int _)

theorem solid_uint16Range (r : Uint16Range) : Solid r.string.toList := by
  unfold Uint16Range.string
  split
  · exact solid_toString _
  · simp only [String.toList_append]
    exact ((solid_toString _).append (by decide)).append (solid_toString _)

namespace AllIgnored

variable {key v : String} {ls ms : List (List Char)} {b : Bool}

theorem nil : AllIgnored [] :=
  nofun

theorem cons (hk : IgnoredKey key) (hv : '\n' ∉ v.toList) (h : AllIgnored ls) :
    AllIgnored (item key v :: ls) := by
  intro l hl
  rcases List.mem_cons.mp hl with rfl | hl
  · exact ⟨key, v, rfl, hk, hv⟩
  · exact h l hl

theorem append (h : AllIgnored ls) (h' : AllIgnored ms) : AllIgnored (ls ++ ms) :=
  fun l hl => (List.mem_append.mp hl).elim (h l) (h' l)

theorem ite (h : AllIgnored ls) : AllIgnored (if b then ls else []) := by
  split
  · exact h
  · exact nil

theorem itemIf (hk : IgnoredKey key) (hv : '\n' ∉ v.toList) : AllIgnored (itemIf b key v) :=
  .ite (.cons hk hv .nil)

end AllIgnored

theorem ignored_writeProfile {p : ProtocolProfile} (hp : NoBreak p) :
    AllIgnored (writeProfile p false) := by
  have int (n : Int) := no_break_of_solid (solid_toString_int n)
  have bool : ∀ b, '\n' ∉ (awgBool b).toList := by decide
  have range (r : IntRange) := no_break_of_solid (solid_intRange r)
  have range16 (r : Uint16Range) := no_break_of_solid (solid_uint16Range r)
  refine .append (.append (.append (.append (.append ?head ?s3) ?s4) ?headers) (.ite ?junk)) (.ite ?v31)
  case head =>
    exact .cons (by decide) (int _) <| .cons (by decide) (int _) <| .cons (by decide) (int _) <|
      .cons (by decide) (int _) <| .cons (by decide) (int _) .nil
  case s3 => exact .itemIf (by decide) (int _)
  case s4 => exact .itemIf (by decide) (int _)
  case headers =>
    exact .cons (by decide) (range _) <| .cons (by decide) (range _) <|
      .cons (by decide) (range _) <| .cons (by decide) (range _) .nil
  case junk =>
    exact .append (.append (.append (.append (.itemIf (by decide) hp.i1) (.itemIf (by decide) hp.i2))
      (.itemIf (by decide) hp.i3)) (.itemIf (by decide) hp.i4)) (.itemIf (by decide) hp.i5)
  case v31 =>
    refine .append (.append (.append (.append (.append (.append (.append
      (.itemIf (by decide) hp.headerProtectionKey) ?_) ?_) ?_) ?_) ?_) ?_)
      (.cons (by decide) (bool _) <| .cons (by decide) (bool _) .nil)
    all_goals exact .itemIf (by decide) (range16 _)

end Profile

section Numbers

theorem le_ofDigitChars (l : List Char) (n : Nat) : n ≤ Nat.ofDigitChars 10 l n := by
  induction l generalizing n
  case nil => exact Nat.le_refl _
  case cons c l ih =>
    have := ih (10 * n + (c.toNat - '0'.toNat))
    simp only [Nat.ofDigitChars, List.foldl_cons] at this ⊢
    omega

-- As long as the number fits into an `int` it is read without overflow.
theorem foldl_toInt {l : List Char} {n : Nat} (h : Nat.ofDigitChars 10 l n < 2 ^ 63) :
    l.foldl (fun m c => toInt (m * 10 + (c.toNat - '0'.toNat : Nat))) (n : Int) =
      Nat.ofDigitChars 10 l n := by
  induction l generalizing n
  case nil => rfl
  case cons c l ih =>
    have hle := le_ofDigitChars l (10 * n + (c.toNat - '0'.toNat))
    have hstep : Nat.ofDigitChars 10 (c :: l) n =
        Nat.ofDigitChars 10 l (10 * n + (c.toNat - '0'.toNat)) := rfl
    rw [hstep] at h
    have hv : toInt ((n : Int) * 10 + (c.toNat - '0'.toNat : Nat)) =
        (10 * n + (c.toNat - '0'.toNat) : Nat) := by
      generalize c.toNat - '0'.toNat = d at *
      rw [toInt, Int.bmod_eq_of_le] <;> push_cast <;> omega
    rw [List.foldl_cons, hv, ih h, hstep]

theorem fmtScan_toString {n : Int} (h0 : 0 ≤ n) (h : n < 2 ^ 63) :
    fmtScan (toString n).toList = n := by
  obtain ⟨m, rfl⟩ := Int.eq_ofNat_of_zero_le h0
  have hs : (toString (m : Int)).toList = Nat.toDigits 10 m := by
    rw [Int.toString_eq_repr, Int.repr_eq_if, if_pos h0, Int.toNat_natCast,
      Nat.repr_eq_ofList_toDigits, String.toList_ofList]
  have hd : (Nat.toDigits 10 m).takeWhile Char.isDigit = Nat.toDigits 10 m :=
    List.takeWhile_eq_self_iff.mpr fun c hc =>
      Nat.isDigit_of_mem_toDigits (by decide) (by decide) hc
  have hv := Nat.ofDigitChars_ten_toDigits (n := m)
  rw [fmtScan, hs, hd]
  exact (foldl_toInt (n := 0) (by rw [hv]; exact_mod_cast h)).trans (by rw [hv])

end Numbers

section Server

variable {st : ParseState} {port : Int}

-- The state of the parser where the peers of a node begin.
def interfaceState (port : Int) : ParseState :=
  { iface := { listenPort := port }, sect := "Interface" }

theorem parse_interface {profile : ProtocolProfile} (hp : 1 ≤ port ∧ port ≤ 65535)
    (hb : NoBreak profile) :
    parseLines {} (lines (["# Generated by awg-rest. Do not edit by hand.".toList, "[Interface]".toList] ++
      writeInterface { listenPort := port } ++ writeProfile profile false)) =
        interfaceState port := by
  have hw : writeInterface { listenPort := port } = [item "ListenPort" (toString port)] := by
    have : port > 0 := by omega
    simp [writeInterface, itemIf, this]
  have hl : lines [item "ListenPort" (toString port)] = [item "ListenPort" (toString port)] :=
    lines_singleton (item_no_break (by decide) (no_break_of_solid (solid_toString_int _)))
  have hhead : parseLines {} (lines ["# Generated by awg-rest. Do not edit by hand.".toList,
      "[Interface]".toList]) = { sect := "Interface" } := by decide
  rw [lines_append, lines_append, parseLines_append, parseLines_append, hhead, hw, hl,
    parseLines_cons,
    parseLine_item_solid (by decide) (solid_toString_int _)]
  have ha : assign { sect := "Interface" } "ListenPort".toList (toString port).toList =
      interfaceState port := by
    have hk : String.ofList ("ListenPort".toList.map toLower) = "listenport" := by decide
    simp only [assign, hk, fmtScan_toString (n := port) (by omega) (by omega), interfaceState]
  rw [ha]
  exact parse_ignored rfl (ignored_writeProfile hb)

-- The parser only ever adds peers.
theorem parseLine_frame (ps : List PeerSpec) (l : List Char) :
    parseLine { st with peers := ps ++ st.peers } l =
      { parseLine st l with peers := ps ++ (parseLine st l).peers } := by
  unfold parseLine
  simp only
  split
  · rfl
  · split
    · simp only [flush]
      split <;> simp
    · split
      · rfl
      · unfold assign
        simp only
        split <;> rfl

theorem parseLines_frame (ps : List PeerSpec) (ls : List (List Char)) :
    parseLines { st with peers := ps ++ st.peers } ls =
      { parseLines st ls with peers := ps ++ (parseLines st ls).peers } := by
  induction ls generalizing st
  case nil => rfl
  case cons l ls ih => rw [parseLines_cons, parseLine_frame, ih, parseLines_cons]

-- Of the interface the parser only sets the private key and the port.
theorem parseLine_iface (l : List Char) :
    (parseLine st l).iface =
      { st.iface with
        privateKey := (parseLine st l).iface.privateKey
        listenPort := (parseLine st l).iface.listenPort } := by
  unfold parseLine
  simp only
  split
  · rfl
  · split
    · rfl
    · split
      · rfl
      · unfold assign
        split <;> rfl

-- The lines of a display name that come after the one on which its comment starts.
def contLines (d : String) : List (List Char) :=
  (d.toList.splitOn '\n').tail

theorem parse_comment (d : String) :
    parseLines st (lines ['#' :: ' ' :: d.toList]) = parseLines st (contLines d) := by
  have hl : lines ['#' :: ' ' :: d.toList] = ('#' :: ' ' :: (d.toList.splitOn '\n').headI) ::
      contLines d := by
    have hne := List.splitOn_ne_nil '\n' d.toList
    obtain ⟨first, rest, hd⟩ := List.exists_cons_of_ne_nil hne
    simp [lines, contLines, List.splitOn_cons_eq_if_modifyHead, hd]
  have hc : parseLine st ('#' :: ' ' :: (d.toList.splitOn '\n').headI) = st := by
    have ht : trimSpace ('#' :: ' ' :: (d.toList.splitOn '\n').headI) =
        '#' :: (' ' :: (d.toList.splitOn '\n').headI).rdropWhile isSpace :=
      trimBy_append_cons (s := []) (by simp) (by decide)
    simp [parseLine, ht]
  rw [hl, parseLines_cons, hc]

theorem parse_header :
    parseLines st (lines [[], "[Peer]".toList]) = { flush st with sect := "Peer" } := by
  rfl

end Server

end Fake
