import AwgRest.Dump

open Domain Text Strconv

-- What `awg show <iface> dump` prints is read back.
namespace Awg

-- A text that can stand in a column.
def Column (s : List Char) : Prop :=
  '\t' ∉ s ∧ '\n' ∉ s

inductive Fwmark
  | off
  | hex (n : Nat)
  | dec (n : Nat)

def Fwmark.value : Fwmark → Nat
  | off   => 0
  | hex n => n
  | dec n => n

def Fwmark.text : Fwmark → List Char
  | off   => "off".toList
  | hex n => '0' :: 'x' :: Nat.toDigits 16 n
  | dec n => Nat.toDigits 10 n

inductive Keepalive
  | off
  | secs (n : Nat)
  | range (lo hi : Nat)

def Keepalive.text : Keepalive → List Char
  | off         => "off".toList
  | secs n      => Nat.toDigits 10 n
  | range lo hi => Nat.toDigits 10 lo ++ '-' :: Nat.toDigits 10 hi

def orNone (s : String) : List Char :=
  if s = "" then "(none)".toList else s.toList

structure InterfaceRow where
  privateKey : String
  publicKey  : String
  listenPort : Int
  extra      : List String
  fwmark     : Fwmark

structure PeerRow where
  publicKey    : String
  presharedKey : String
  endpoint     : String
  allowedIPs   : List String
  handshake    : Nat
  rxBytes      : Nat
  txBytes      : Nat
  keepalive    : Keepalive

namespace InterfaceRow

variable (i : InterfaceRow)

def columns : List (List Char) :=
  [orNone i.privateKey, orNone i.publicKey, (toString i.listenPort).toList] ++ i.extra.map String.toList ++
    [i.fwmark.text]

def line : List Char :=
  ['\t'].intercalate i.columns

-- What is to be read; the columns that depend on the version are not.
def runtime : InterfaceRuntime where
  privateKey := i.privateKey
  publicKey  := i.publicKey
  listenPort := i.listenPort
  fwMark     := i.fwmark.value

structure Valid : Prop where
  privateKey : Column i.privateKey.toList ∧ i.privateKey ≠ "(none)"
  publicKey  : Column i.publicKey.toList ∧ i.publicKey ≠ "(none)"
  listenPort : -2 ^ 63 ≤ i.listenPort ∧ i.listenPort < 2 ^ 63
  extra      : ∀ s ∈ i.extra, Column s.toList
  fwmark     : i.fwmark.value < 2 ^ 63
  short      : (String.ofList i.line).utf8ByteSize < maxTokenSize

end InterfaceRow

namespace PeerRow

variable (p : PeerRow)

def allowedText : List Char :=
  if p.allowedIPs = [] then "(none)".toList else [','].intercalate (p.allowedIPs.map String.toList)

def columns : List (List Char) :=
  [p.publicKey.toList, orNone p.presharedKey, orNone p.endpoint, p.allowedText,
    Nat.toDigits 10 p.handshake,
    Nat.toDigits 10 p.rxBytes, Nat.toDigits 10 p.txBytes, p.keepalive.text]

def line : List Char :=
  ['\t'].intercalate p.columns

def runtime : PeerRuntime where
  publicKey      := p.publicKey
  presharedKey   := p.presharedKey
  endpoint       := p.endpoint
  allowedIPs     := p.allowedIPs
  lastHandshake  := if p.handshake = 0 then none else some (p.handshake * 1000000)
  rxBytes        := p.rxBytes
  txBytes        := p.txBytes
  keepaliveSecs  := match p.keepalive with | .secs n => n | _ => 0
  keepaliveRange := match p.keepalive with | .off => "" | k => String.ofList k.text

structure Valid : Prop where
  publicKey    : Column p.publicKey.toList ∧ p.publicKey ≠ ""
  presharedKey : Column p.presharedKey.toList ∧ p.presharedKey ≠ "(none)"
  endpoint     : Column p.endpoint.toList ∧ p.endpoint ≠ "(none)"
  allowedIPs   : p.allowedIPs ≠ ["(none)"] ∧
    ∀ s ∈ p.allowedIPs, s ≠ "" ∧ ∀ c ∈ s.toList, isSpace c = false ∧ c ≠ ','
  handshake    : p.handshake < 2 ^ 63
  counters     : p.rxBytes < 2 ^ 63 ∧ p.txBytes < 2 ^ 63
  keepalive    : match p.keepalive with
    | .off         => True
    | .secs n      => n < 2 ^ 63
    | .range lo hi => lo ≤ hi ∧ hi < 2 ^ 16
  short        : (String.ofList p.line).utf8ByteSize < maxTokenSize

end PeerRow

-- The whole output, where every line is ended.
def dump (i : InterfaceRow) (ps : List PeerRow) : List Char :=
  (i.line :: ps.map PeerRow.line).flatMap (· ++ ['\n'])

section Columns

variable {sep c : Char} {l s : List Char} {ls : List (List Char)} {n : Nat}

theorem mem_intercalate (h : c ∈ [sep].intercalate ls) : c = sep ∨ ∃ l ∈ ls, c ∈ l := by
  induction ls
  case nil => cases h
  case cons l ls ih =>
    cases ls
    case nil => exact .inr ⟨l, by simp, by simpa [List.intercalate_singleton] using h⟩
    case cons m ls =>
      rw [List.intercalate_cons_cons, List.mem_append, List.mem_append, List.mem_singleton] at h
      rcases h with (h | h) | h
      · exact .inr ⟨l, by simp, h⟩
      · exact .inl h
      · exact (ih h).imp_right fun ⟨l, hl, hc⟩ => ⟨l, List.mem_cons_of_mem _ hl, hc⟩

-- A line ends as its last column does.
theorem getLast?_intercalate (hl : l ≠ []) :
    ([sep].intercalate (ls ++ [l])).getLast? = l.getLast? := by
  induction ls
  case nil => rw [List.nil_append, List.intercalate_singleton]
  case cons m ls ih =>
    obtain ⟨x, xs, hx⟩ : ∃ x xs, ls ++ [l] = x :: xs := List.exists_cons_of_ne_nil (by simp)
    have hn : l.getLast?.isSome = true := by simpa using hl
    rw [List.cons_append, hx, List.intercalate_cons_cons, ← hx, List.getLast?_append, ih]
    cases h : l.getLast?
    case none   => simp [h] at hn
    case some c => rfl

theorem column_toDigits {base : Nat} (h₁ : 1 < base) (hb : base ≤ 16) :
    Column (Nat.toDigits base n) :=
  ⟨not_mem_toDigits h₁ hb (by decide), not_mem_toDigits h₁ hb (by decide)⟩

theorem column_toString (k : Int) : Column (toString k).toList :=
  ⟨(solid_toString_int k).not_mem (by decide), (solid_toString_int k).not_mem (by decide)⟩

theorem column_orNone {s : String} (h : Column s.toList) : Column (orNone s) := by
  unfold orNone
  split
  case isTrue  => exact ⟨by decide, by decide⟩
  case isFalse => exact h

theorem noneToEmpty_orNone {s : String} (h : s ≠ "(none)") : noneToEmpty (orNone s) = s := by
  unfold orNone noneToEmpty
  by_cases hs : s = ""
  case pos => simp [hs]
  case neg =>
    have hn : s.toList ≠ "(none)".toList := fun he => h (String.toList_inj.mp he)
    rw [if_neg hs, if_neg hn, String.ofList_toList]

-- A line of columns: it has no line break, it is not empty, and its columns are found again.
theorem read_columns (hs : ∀ l ∈ ls, Column l) (hn : ls ≠ []) :
    ([('\t')].intercalate ls).splitOn '\t' = ls ∧ '\n' ∉ ['\t'].intercalate ls := by
  refine ⟨List.splitOn_intercalate _ (fun l hl => (hs l hl).1) hn, fun hm => ?_⟩
  rcases mem_intercalate hm with h | ⟨l, hl, hc⟩
  · cases h
  · exact (hs l hl).2 hc

theorem dropCR_columns (hl : l ≠ []) (hr : '\r' ∉ l) :
    dropCR (['\t'].intercalate (ls ++ [l])) = ['\t'].intercalate (ls ++ [l]) := by
  refine if_neg fun h => hr ?_
  rw [getLast?_intercalate hl] at h
  exact List.mem_of_getLast? h

end Columns

variable (quote : List Char → String)

section Interface

variable {i : InterfaceRow}

theorem Fwmark.text_ne_nil (f : Fwmark) : f.text ≠ [] := by
  cases f
  case off => decide
  case hex => exact List.cons_ne_nil _ _
  case dec => exact Nat.toDigits_ne_nil

theorem Fwmark.not_mem_text (f : Fwmark) {c : Char} (hc : c ∉ "off0x".toList)
    (hd : ∀ m < 16, c ≠ Nat.digitChar m) : c ∉ f.text := by
  cases f
  case off   => exact fun hm => hc (by revert hm; simp [text]; tauto)
  case hex n =>
    rw [text, List.mem_cons, List.mem_cons, not_or, not_or]
    exact ⟨fun he => hc (by simp [he]), fun he => hc (by simp [he]),
      not_mem_toDigits (by decide) (by decide) hd⟩
  case dec n => exact not_mem_toDigits (by decide) (by decide) hd

theorem InterfaceRow.Valid.columns (h : i.Valid) : ∀ l ∈ i.columns, Column l := by
  intro l hl
  simp only [InterfaceRow.columns, List.mem_append, List.mem_cons, List.mem_map,
    List.not_mem_nil, or_false] at hl
  rcases hl with ((rfl | rfl | rfl) | ⟨s, hs, rfl⟩) | rfl
  · exact column_orNone h.privateKey.1
  · exact column_orNone h.publicKey.1
  · exact column_toString _
  · exact h.extra s hs
  · exact ⟨i.fwmark.not_mem_text (by decide) (by decide),
      i.fwmark.not_mem_text (by decide) (by decide)⟩

theorem Fwmark.read (f : Fwmark) (h : f.value < 2 ^ 63) :
    parseInt0 f.text = .ok f.value ∨
      f.text = "off".toList ∧ parseInt0 f.text = .error .malformed ∧ f.value = 0 := by
  cases f
  case off   => exact .inr ⟨rfl, rfl, rfl⟩
  case hex n => exact .inl (parseInt0_hex h)
  case dec n => exact .inl (parseInt0_toDigits h)

theorem InterfaceRow.Valid.parse (h : i.Valid) : parseInterfaceLine quote i.line = .ok i.runtime := by
  obtain ⟨x, rest, hx⟩ : ∃ x rest, i.extra.map String.toList ++ [i.fwmark.text] = x :: rest :=
    List.exists_cons_of_ne_nil (by simp)
  have hlast : (x :: rest).getLast (List.cons_ne_nil _ _) = i.fwmark.text := by
    simp only [← hx, List.getLast_append_singleton]
  have hsplit : i.line.splitOn '\t' =
      orNone i.privateKey :: orNone i.publicKey :: (toString i.listenPort).toList :: x :: rest := by
    rw [InterfaceRow.line, (read_columns h.columns (by simp [InterfaceRow.columns])).1,
      InterfaceRow.columns,
      List.append_assoc, hx]
    rfl
  unfold parseInterfaceLine
  rw [hsplit]
  simp only [parseInt_toString h.listenPort.1 h.listenPort.2, hlast,
    noneToEmpty_orNone h.privateKey.2,
    noneToEmpty_orNone h.publicKey.2]
  rcases i.fwmark.read h.fwmark with hf | ⟨ht, hf, hv⟩
  · rw [hf]
    rfl
  · rw [hf, ht, InterfaceRow.runtime, hv]
    rfl

end Interface

section Peer

variable {p : PeerRow}

theorem lastHandshake_toDigits {n : Nat} (h : n < 2 ^ 63) :
    lastHandshake (Nat.toDigits 10 n) = if n = 0 then none else some (n * 1000000 : Int) := by
  rw [lastHandshake, parseInt_toDigits h]
  by_cases hn : n = 0
  case pos => simp [hn]
  case neg => simp [hn]

theorem splitAllowedIPs_text (h : p.Valid) : splitAllowedIPs p.allowedText = p.allowedIPs := by
  obtain ⟨hnone, hips⟩ := h.allowedIPs
  unfold PeerRow.allowedText splitAllowedIPs
  by_cases hn : p.allowedIPs = []
  case pos => simp [hn]
  case neg =>
    have hsplit : ([','].intercalate (p.allowedIPs.map String.toList)).splitOn ',' =
        p.allowedIPs.map String.toList := by
      refine List.splitOn_intercalate _ (fun l hl => ?_) (by simpa using hn)
      obtain ⟨s, hs, rfl⟩ := List.mem_map.mp hl
      exact fun hc => ((hips s hs).2 _ hc).2 rfl
    -- The text is not a sentinel, as it would be split in another way.
    have hsent : ¬ ([','].intercalate (p.allowedIPs.map String.toList) = "(none)".toList ∨
        [','].intercalate (p.allowedIPs.map String.toList) = []) := by
      rintro (he | he)
      · rw [he, show "(none)".toList.splitOn ',' = ["(none)"].map String.toList by decide] at hsplit
        exact hnone (List.map_injective_iff.mpr (fun a b => String.toList_inj.mp) hsplit).symm
      · rw [he, show ([] : List Char).splitOn ',' = [""].map String.toList by decide] at hsplit
        have hips' := List.map_injective_iff.mpr (fun a b => String.toList_inj.mp) hsplit
        exact (hips "" (by simp [← hips'])).1 rfl
    have htrim : (p.allowedIPs.map String.toList).map trimSpace = p.allowedIPs.map String.toList := by
      rw [List.map_map]
      exact List.map_congr_left fun s hs => trimBy_eq_self fun c hc => ((hips s hs).2 c hc).1
    have hkeep : (p.allowedIPs.map String.toList).filter (· ≠ []) =
        p.allowedIPs.map String.toList := by
      refine List.filter_eq_self.mpr fun l hl => ?_
      obtain ⟨s, hs, rfl⟩ := List.mem_map.mp hl
      simpa using (hips s hs).1
    rw [if_neg hn, if_neg hsent, hsplit, htrim, hkeep, List.map_map]
    simp [Function.comp_def]

theorem Keepalive.not_mem_text (k : Keepalive) {c : Char} (hc : c ∉ "off-".toList)
    (hd : ∀ m < 16, c ≠ Nat.digitChar m) : c ∉ k.text := by
  have hn {n : Nat} : c ∉ Nat.toDigits 10 n := not_mem_toDigits (by decide) (by decide) hd
  cases k
  case off         => exact fun hm => hc (by revert hm; simp [text]; tauto)
  case secs n      => exact hn
  case range lo hi =>
    rw [text, List.mem_append, List.mem_cons, not_or, not_or]
    exact ⟨hn, fun he => hc (by simp [he]), hn⟩

theorem Keepalive.text_ne_nil (k : Keepalive) : k.text ≠ [] := by
  cases k
  case off   => decide
  case secs  => exact Nat.toDigits_ne_nil
  case range => simp [text]

theorem validate_range {lo hi : Nat} (h : lo ≤ hi) (hb : hi < 2 ^ 16) :
    validateUint16RangeText quote (Keepalive.range lo hi).text = .ok () := by
  have hn {n : Nat} : '-' ∉ Nat.toDigits 10 n := not_mem_toDigits (by decide) (by decide) (by decide)
  have hsplit : (Keepalive.range lo hi).text.splitOn '-' = [Nat.toDigits 10 lo,
      Nat.toDigits 10 hi] := by
    rw [Keepalive.text, List.splitOn_append_cons_self, List.splitOn_eq_singleton hn,
      List.splitOn_eq_singleton hn]
    rfl
  unfold validateUint16RangeText
  rw [hsplit]
  simp only [@parseUint_toDigits 16 lo (by omega), parseUint_toDigits hb]
  exact if_neg (Nat.not_lt.mpr h)

theorem parseKeepalive_text (h : p.Valid) :
    parseKeepalive quote p.keepalive.text = .ok (p.runtime.keepaliveSecs,
      p.runtime.keepaliveRange) := by
  have hk := h.keepalive
  have hoff {n : Nat} : ¬ (Nat.toDigits 10 n = "off".toList ∨ Nat.toDigits 10 n = []) := by
    rintro (he | he)
    · have ho : 'o' ∉ Nat.toDigits 10 n := not_mem_toDigits (by decide) (by decide) (by decide)
      exact ho (he ▸ by decide)
    · exact Nat.toDigits_ne_nil he
  simp only [PeerRow.runtime]
  cases hkeep : p.keepalive
  case off => rfl
  case secs n =>
    rw [hkeep] at hk
    have hn : '-' ∉ Nat.toDigits 10 n := not_mem_toDigits (by decide) (by decide) (by decide)
    rw [parseKeepalive, Keepalive.text, if_neg hoff, if_pos hn, parseInt_toDigits hk]
    rfl
  case range lo hi =>
    rw [hkeep] at hk
    have hm : '-' ∈ (Keepalive.range lo hi).text := by simp [Keepalive.text]
    have hne : ¬ ((Keepalive.range lo hi).text = "off".toList ∨ (Keepalive.range lo hi).text = []) := by
      rintro (he | he)
      all_goals
        rw [he] at hm
        exact absurd hm (by decide)
    rw [parseKeepalive, if_neg hne, if_neg (not_not.mpr hm), validate_range quote hk.1 hk.2]
    rfl

theorem column_allowedText (h : p.Valid) : Column p.allowedText := by
  obtain ⟨-, hips⟩ := h.allowedIPs
  unfold PeerRow.allowedText
  split
  case isTrue  => exact ⟨by decide, by decide⟩
  case isFalse =>
    constructor
    all_goals
      intro hm
      rcases mem_intercalate hm with he | ⟨l, hl, hc⟩
      · cases he
      · obtain ⟨s, hs, rfl⟩ := List.mem_map.mp hl
        exact absurd ((hips s hs).2 _ hc).1 (by decide)

theorem PeerRow.Valid.columns (h : p.Valid) : ∀ l ∈ p.columns, Column l := by
  have hn {n : Nat} : Column (Nat.toDigits 10 n) := column_toDigits (by decide) (by decide)
  intro l hl
  simp only [PeerRow.columns, List.mem_cons, List.not_mem_nil, or_false] at hl
  rcases hl with rfl | rfl | rfl | rfl | rfl | rfl | rfl | rfl
  · exact h.publicKey.1
  · exact column_orNone h.presharedKey.1
  · exact column_orNone h.endpoint.1
  · exact column_allowedText h
  · exact hn
  · exact hn
  · exact hn
  · exact ⟨p.keepalive.not_mem_text (by decide) (by decide),
      p.keepalive.not_mem_text (by decide) (by decide)⟩

theorem PeerRow.Valid.parse (h : p.Valid) : parsePeerLine quote p.line = .ok p.runtime := by
  unfold parsePeerLine
  rw [PeerRow.line, (read_columns h.columns (by simp [PeerRow.columns])).1]
  simp only [PeerRow.columns, parseInt_toDigits h.counters.1, parseInt_toDigits h.counters.2,
    parseKeepalive_text quote h, lastHandshake_toDigits h.handshake, splitAllowedIPs_text h,
    noneToEmpty_orNone h.presharedKey.2, noneToEmpty_orNone h.endpoint.2, String.ofList_toList]
  rfl

end Peer

section Whole

variable {i : InterfaceRow} {p : PeerRow} {ps : List PeerRow}

-- What the scanner hands on of a row is the row.
structure Scanned (line : List Char) : Prop where
  short : (String.ofList line).utf8ByteSize < maxTokenSize
  whole : dropCR line = line
  text  : line ≠ []
  once  : '\n' ∉ line

theorem scanned_columns {l : List Char} {ls : List (List Char)} (hs : ∀ m ∈ ls ++ [l], Column m)
    (hl : l ≠ []) (hr : '\r' ∉ l)
    (hb : (String.ofList (['\t'].intercalate (ls ++ [l]))).utf8ByteSize < maxTokenSize) :
    Scanned (['\t'].intercalate (ls ++ [l])) where
  short := hb
  whole := dropCR_columns hl hr
  text he := by
    have hlast := @getLast?_intercalate '\t' _ ls hl
    rw [he, List.getLast?_nil] at hlast
    exact hl (List.getLast?_eq_none_iff.mp hlast.symm)
  once  := (read_columns hs (by simp)).2

theorem InterfaceRow.Valid.scanned (h : i.Valid) : Scanned i.line :=
  scanned_columns h.columns i.fwmark.text_ne_nil (i.fwmark.not_mem_text (by decide) (by decide)) h.short

theorem PeerRow.Valid.scanned (h : p.Valid) : Scanned p.line :=
  @scanned_columns p.keepalive.text (p.columns.take 7) h.columns p.keepalive.text_ne_nil
    (p.keepalive.not_mem_text (by decide) (by decide)) h.short

theorem rawLines_dump (hi : i.Valid) (hp : ∀ p ∈ ps, p.Valid) :
    rawLines (dump i ps) = i.line :: ps.map PeerRow.line := by
  have hb : ∀ l ∈ i.line :: ps.map PeerRow.line, '\n' ∉ l := by
    intro l hl
    rcases List.mem_cons.mp hl with rfl | hl
    · exact hi.scanned.once
    · obtain ⟨p, hm, rfl⟩ := List.mem_map.mp hl
      exact (hp p hm).scanned.once
  have hsplit : (dump i ps).splitOn '\n' = (i.line :: ps.map PeerRow.line) ++ [[]] := by
    rw [dump, ← List.append_nil (List.flatMap _ _), splitOn_lines hb]
    rfl
  rw [rawLines, hsplit]
  simp only [List.getLast?_append, List.getLast?_singleton, Option.some_or, if_true,
    List.dropLast_concat]

theorem parseLines_peers (hp : ∀ p ∈ ps, p.Valid) (iface : InterfaceRuntime)
    (peers : List PeerRuntime) :
    parseLines quote (some iface) peers (ps.map PeerRow.line) = .ok (iface,
      peers ++ ps.map PeerRow.runtime) := by
  induction ps generalizing peers
  case nil =>
    rw [List.map_nil, List.map_nil, List.append_nil]
    rfl
  case cons p ps ih =>
    have h := hp p (by simp)
    have hs := h.scanned
    rw [List.map_cons, parseLines, if_neg (Nat.not_le.mpr hs.short), hs.whole, if_neg hs.text,
      h.parse quote]
    refine (ih (fun q hq => hp q (List.mem_cons_of_mem _ hq)) _).trans ?_
    rw [List.append_assoc, List.map_cons, List.singleton_append]

theorem parseShowDump_rows (hi : i.Valid) (hp : ∀ p ∈ ps, p.Valid) :
    parseShowDump quote (dump i ps) = .ok (i.runtime, ps.map PeerRow.runtime) := by
  have hs := hi.scanned
  rw [parseShowDump, rawLines_dump hi hp, parseLines, if_neg (Nat.not_le.mpr hs.short), hs.whole,
    if_neg hs.text, hi.parse quote]
  exact parseLines_peers quote hp _ _

end Whole

theorem parseShowDump_dump (i : InterfaceRow) (ps : List PeerRow) (hi : i.Valid)
    (hp : ∀ p ∈ ps, p.Valid) :
    parseShowDump quote (dump i ps) = .ok (i.runtime, ps.map PeerRow.runtime) ∧
    (∀ extra, { i with extra := extra }.Valid →
      parseShowDump quote (dump { i with extra := extra } ps) = parseShowDump quote (dump i ps)) ∧
    ∀ p ∈ ps,
      (p.runtime.lastHandshake = none ↔ p.handshake = 0) ∧
      ∀ lo hi, p.keepalive = .range lo hi →
        p.runtime.keepaliveSecs = 0 ∧
        p.runtime.keepaliveRange = toString lo ++ "-" ++ toString hi := by
  refine ⟨parseShowDump_rows quote hi hp, fun extra he => ?_, fun p _ => ⟨?_, fun lo hi hk => ?_⟩⟩
  · rw [parseShowDump_rows quote he hp, parseShowDump_rows quote hi hp]
    rfl
  · simp [PeerRow.runtime]
  · refine ⟨by simp [PeerRow.runtime, hk], ?_⟩
    simp only [PeerRow.runtime, hk, Keepalive.text]
    apply String.toList_inj.mp
    simp [Nat.toString_eq_repr, Nat.toList_repr]

namespace Sample

def interfaceRow : InterfaceRow where
  privateKey := ""
  publicKey  := "pub"
  listenPort := 51820
  extra      := ["4", "40", "70"]
  fwmark     := .hex 51820

def rangePeer : PeerRow where
  publicKey    := "a/b="
  presharedKey := ""
  endpoint     := "198.51.100.7:40000"
  allowedIPs   := ["10.8.0.2/32", "fd00::2/128"]
  handshake    := 1700000000
  rxBytes      := 12
  txBytes      := 34
  keepalive    := .range 20 30

def idlePeer : PeerRow where
  publicKey    := "c"
  presharedKey := "psk"
  endpoint     := ""
  allowedIPs   := []
  handshake    := 0
  rxBytes      := 0
  txBytes      := 0
  keepalive    := .off

instance (s : List Char) : Decidable (Column s) :=
  inferInstanceAs (Decidable (_ ∧ _))

theorem interfaceRow_valid : interfaceRow.Valid :=
  ⟨by decide, by decide, by decide, by decide, by decide, by decide +kernel⟩

theorem rows_valid : ∀ p ∈ [rangePeer, idlePeer], p.Valid := by
  intro p hp
  simp only [List.mem_cons, List.not_mem_nil, or_false] at hp
  rcases hp with rfl | rfl
  · have hips : ∀ s ∈ rangePeer.allowedIPs, s ≠ "" ∧ ∀ c ∈ s.toList, isSpace c = false ∧ c ≠ ',' := by
      simp only [rangePeer, List.mem_cons, List.not_mem_nil, or_false, forall_eq_or_imp, forall_eq]
      exact ⟨⟨by decide, forall_of_all (by decide)⟩, by decide, forall_of_all (by decide)⟩
    exact ⟨by decide, by decide, by decide, ⟨by decide, hips⟩, by decide, by decide,
      ⟨by decide, by decide⟩, by decide +kernel⟩
  · exact ⟨by decide, by decide, by decide, ⟨by decide, nofun⟩, by decide, by decide, trivial,
      by decide +kernel⟩

end Sample

theorem parseShowDump_dump_sample :
    parseShowDump (fun _ => "") (dump Sample.interfaceRow [Sample.rangePeer, Sample.idlePeer]) =
      .ok (Sample.interfaceRow.runtime, [Sample.rangePeer.runtime, Sample.idlePeer.runtime]) :=
  (parseShowDump_dump (fun _ => "") Sample.interfaceRow [Sample.rangePeer, Sample.idlePeer]
    Sample.interfaceRow_valid Sample.rows_valid).1

end Awg
