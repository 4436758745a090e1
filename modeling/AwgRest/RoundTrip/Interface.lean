import AwgRest.RoundTrip.Lines
import AwgRest.Worker.Config

open Domain Text Render Fake

-- What the interface section of a rendered configuration says to the reader of single values.
namespace Awg

section Reader

variable {key k v sect : String} {l : List Char} {ls ms : List (List Char)}

theorem go_blank (h : trimSpace l = []) :
    interfaceValue.go key sect (l :: ls) = interfaceValue.go key sect ls := by
  simp [interfaceValue.go, h]

theorem go_blanks (h : ∀ l ∈ ls, trimSpace l = []) :
    interfaceValue.go key sect (ls ++ ms) = interfaceValue.go key sect ms := by
  induction ls
  case nil => rfl
  case cons l ls ih =>
    rw [List.cons_append, go_blank (h l (by simp))]
    exact ih fun l hl => h l (List.mem_cons_of_mem _ hl)

theorem go_item (hk : IsKey k) :
    interfaceValue.go key "interface" (item k v :: ls) =
      if k.toList.map toLower = interfaceValue.want key then trimSpace v.toList
      else interfaceValue.go key "interface" ls := by
  obtain ⟨⟨hn, hh, hb⟩, hcut, hkt⟩ := read_item (v := v) hk
  have hv : trimSpace ((' ' :: v.toList).rdropWhile isSpace) = trimSpace v.toList :=
    trimBy_rdropWhile.trans (trimBy_cons (by decide))
  simp only [interfaceValue.go, hn, hh, hb, hcut, hkt, hv, false_or, false_and, if_false, ne_eq,
    not_true_eq_false]

-- Assignments in other sections are not looked at.
theorem go_other (hs : sect ≠ "interface") (hk : IsKey k) :
    interfaceValue.go key sect (item k v :: ls) = interfaceValue.go key sect ls := by
  obtain ⟨⟨hn, hh, hb⟩, -⟩ := read_item (v := v) hk
  simp only [interfaceValue.go, hn, hh, hb, hs, false_or, false_and, if_false, ne_eq,
    not_false_eq_true, if_true]

theorem splitOn_item (hk : IsKey k) :
    (item k v).splitOn '\n' =
      item k (String.ofList (firstLine v.toList)) :: (v.toList.splitOn '\n').tail := by
  by_cases hm : '\n' ∈ v.toList
  case neg =>
    rw [List.splitOn_eq_singleton hm, firstLine_of_not_mem hm, String.ofList_toList,
      List.splitOn_eq_singleton (item_no_break hk hm), List.tail_cons]
  case pos =>
    obtain ⟨a, b, hv, ha⟩ := List.eq_append_cons_of_mem hm
    have hi : item k v = item k (String.ofList a) ++ '\n' :: b := by
      simp [item, hv]
    rw [hi, splitOn_break (item_no_break hk (by simpa using ha)), hv, firstLine_break ha,
      splitOn_break ha, List.tail_cons]

theorem go_lines_self (hk : IsKey k) (hkey : k.toList.map toLower = interfaceValue.want key) :
    interfaceValue.go key "interface" (lines [item k v] ++ ls) = trimSpace (firstLine v.toList) := by
  simp [lines, splitOn_item hk, go_item hk, hkey]

-- Assignments to other keys, which do not continue on further lines.
def Passes (key : String) (ls : List (List Char)) : Prop :=
  ∀ l ∈ ls, ∃ k v, l = item k v ∧ IsKey k ∧ k.toList.map toLower ≠ interfaceValue.want key ∧
    Tame v.toList

theorem go_passes (h : Passes key ls) :
    interfaceValue.go key "interface" (lines ls ++ ms) = interfaceValue.go key "interface" ms := by
  induction ls
  case nil => rfl
  case cons l ls ih =>
    obtain ⟨k, v, rfl, hk, hne, hv⟩ := h l (by simp)
    have hl : lines (item k v :: ls) = (item k v).splitOn '\n' ++ lines ls := List.flatMap_cons ..
    rw [hl, splitOn_item hk, List.append_assoc, List.cons_append, go_item hk, if_neg hne,
      go_blanks hv.blank]
    exact ih fun l hl => h l (List.mem_cons_of_mem _ hl)

theorem go_header :
    interfaceValue.go key sect ("[Interface]".toList :: ls) =
      interfaceValue.go key "interface" ls := by
  rw [interfaceValue.go]
  exact (if_neg (by decide)).trans (if_pos (by decide))

theorem go_peer :
    interfaceValue.go key sect ("[Peer]".toList :: ls) = interfaceValue.go key "peer" ls := by
  rw [interfaceValue.go]
  exact (if_neg (by decide)).trans (if_pos (by decide))

theorem go_comment (h : l.head? = some '#') (hs : trimSpace l = l) :
    interfaceValue.go key sect (l :: ls) = interfaceValue.go key sect ls := by
  simp [interfaceValue.go, h, hs]

namespace Passes

variable {b : Bool} {vs : List String}

-- A key that is not the one looked for.
def Other (key k : String) : Prop :=
  IsKey k ∧ k.toList.map toLower ≠ interfaceValue.want key

instance : Decidable (Other key k) :=
  inferInstanceAs (Decidable (_ ∧ _))

theorem nil : Passes key [] :=
  fun _ h => absurd h List.not_mem_nil

theorem single (hk : Other key k) (hv : Tame v.toList) : Passes key [item k v] := by
  rintro l hl
  obtain rfl := List.mem_singleton.mp hl
  exact ⟨k, v, rfl, hk.1, hk.2, hv⟩

theorem append (h : Passes key ls) (h' : Passes key ms) : Passes key (ls ++ ms) :=
  fun l hl => (List.mem_append.mp hl).elim (h l) (h' l)

theorem itemIf (hk : Other key k) (hv : Tame v.toList) : Passes key (itemIf b k v) := by
  cases b
  case false => exact nil
  case true  => exact single hk hv

theorem map (hk : Other key k) (hv : ∀ v ∈ vs, Tame v.toList) : Passes key (vs.map (item k)) := by
  intro l hl
  obtain ⟨v, hm, rfl⟩ := List.mem_map.mp hl
  exact ⟨k, v, rfl, hk.1, hk.2, hv v hm⟩

theorem flatMap {α : Type} {as : List α} {f : α → List (List Char)} (h : ∀ a ∈ as, Passes key (f a)) :
    Passes key (as.flatMap f) := by
  intro l hl
  obtain ⟨a, ha, hl⟩ := List.mem_flatMap.mp hl
  exact h a ha l hl

end Passes

end Reader
end Awg

namespace Render

-- A parameter of a profile: whether the version of the profile has it, the key under which it is
-- rendered, and its text, which is empty where it is not set.
structure Field where
  applies : Bool
  key     : String
  text    : String

def rangeText (r : Uint16Range) : String :=
  if r.isZero then "" else r.string

-- In the order in which they are rendered.
def fields (p : ProtocolProfile) : List Field :=
  [⟨true, "Jc", toString p.jc⟩, ⟨true, "Jmin", toString p.jmin⟩, ⟨true, "Jmax", toString p.jmax⟩,
    ⟨true, "S1", toString p.s1⟩, ⟨true, "S2", toString p.s2⟩,
    ⟨p.supportsV2Fields, "S3", toString p.s3⟩, ⟨p.supportsV2Fields, "S4", toString p.s4⟩,
    ⟨true, "H1", p.h1.string⟩, ⟨true, "H2", p.h2.string⟩, ⟨true, "H3", p.h3.string⟩,
    ⟨true, "H4", p.h4.string⟩,
    ⟨p.supportsV2Fields, "I1", p.i1⟩, ⟨p.supportsV2Fields, "I2", p.i2⟩,
    ⟨p.supportsV2Fields, "I3", p.i3⟩, ⟨p.supportsV2Fields, "I4", p.i4⟩,
    ⟨p.supportsV2Fields, "I5", p.i5⟩,
    ⟨p.isV31, "HeaderProtectionKey", p.headerProtectionKey⟩,
    ⟨p.isV31, "ContentPaddingAddition", rangeText p.contentPaddingAddition⟩,
    ⟨p.isV31, "RekeyAfterTime", rangeText p.rekeyAfterTime⟩,
    ⟨p.isV31, "RekeyTimeout", rangeText p.rekeyTimeout⟩,
    ⟨p.isV31, "RejectAfterTime", rangeText p.rejectAfterTime⟩,
    ⟨p.isV31, "KeepaliveTimeout", rangeText p.keepaliveTimeout⟩,
    ⟨p.isV31, "MaxHandshakeAttempts", rangeText p.maxHandshakeAttempts⟩,
    ⟨p.isV31, "RandomTrailers", awgBool p.randomTrailers⟩,
    ⟨p.isV31, "DisableCookies", awgBool p.disableCookies⟩]

-- The texts that a user chooses.
def freeTexts (p : ProtocolProfile) : List String :=
  (if p.supportsV2Fields then [p.i1, p.i2, p.i3, p.i4, p.i5] else []) ++
  (if p.isV31 then [p.headerProtectionKey] else [])

section Fields

variable {p : ProtocolProfile} {b : Bool}

def specialJunkKeys : List String :=
  ["I1", "I2", "I3", "I4", "I5"]

def Field.lines (includeEmpty : Bool) (f : Field) : List (List Char) :=
  itemIf (f.applies && (f.text ≠ "" || includeEmpty && f.key ∈ specialJunkKeys)) f.key f.text

theorem ne_empty_of_solid {s : String} (h : Solid s.toList) : s ≠ "" :=
  fun hs => h.1 (by simp [hs])

theorem lines_of_solid {g : Bool} {key text : String} (h : Solid text.toList) :
    Field.lines b ⟨g, key, text⟩ = itemIf g key text := by
  simp [Field.lines, ne_empty_of_solid h]

theorem lines_junk {key text : String} (h : key ∈ specialJunkKeys) :
    Field.lines b ⟨true, key, text⟩ = writeSpecialJunk key text b := by
  simp [Field.lines, writeSpecialJunk, h]

theorem lines_headerProtectionKey {text : String} :
    Field.lines b ⟨true, "HeaderProtectionKey", text⟩ =
      itemIf (text ≠ "") "HeaderProtectionKey" text := by
  simp [Field.lines, specialJunkKeys]

theorem lines_range {key : String} {r : Uint16Range} (h : key ∉ specialJunkKeys) :
    Field.lines b ⟨true, key, rangeText r⟩ = writeUint16Range key r := by
  rw [Field.lines, rangeText, writeUint16Range]
  cases hr : r.isZero
  case true  => simp [itemIf, h]
  case false => simp [ne_empty_of_solid (solid_uint16Range r)]

theorem lines_off {key text : String} : Field.lines b ⟨false, key, text⟩ = [] := by
  simp [Field.lines, itemIf]

theorem writeProfile_eq : writeProfile p b = (fields p).flatMap (Field.lines b) := by
  have int (n : Int) := solid_toString_int n
  have range := solid_intRange
  have bool : ∀ v, Solid (awgBool v).toList := by decide
  have hb : ∀ v : Bool, v = true ∨ v = false := by decide
  simp only [writeProfile, fields, List.flatMap_cons, List.flatMap_nil, lines_of_solid (int _),
    lines_of_solid (range _), lines_of_solid (bool _)]
  rcases hb p.supportsV2Fields with h₂ | h₂ <;> rcases hb p.isV31 with h₃ | h₃ <;>
    simp (disch := decide) only [h₂, h₃, lines_junk, lines_headerProtectionKey, lines_range,
      lines_off,
      itemIf, if_true, Bool.false_eq_true, if_false, List.append_nil, List.nil_append,
      List.append_assoc, List.cons_append]

def fieldKeys : List String :=
  ["Jc", "Jmin", "Jmax", "S1", "S2", "S3", "S4", "H1", "H2", "H3", "H4", "I1", "I2", "I3", "I4", "I5",
    "HeaderProtectionKey", "ContentPaddingAddition", "RekeyAfterTime", "RekeyTimeout",
    "RejectAfterTime", "KeepaliveTimeout", "MaxHandshakeAttempts", "RandomTrailers", "DisableCookies"]

theorem keys_fields : (fields p).map Field.key = fieldKeys :=
  rfl

theorem mem_fieldKeys {f : Field} (h : f ∈ fields p) : f.key ∈ fieldKeys :=
  keys_fields (p := p) ▸ List.mem_map_of_mem h

theorem isKey_fieldKeys :
    ∀ k ∈ fieldKeys, IsKey k ∧ k.toList.map toLower = Awg.interfaceValue.want k := by
  decide +kernel

theorem other_fieldKeys :
    ∀ key ∈ fieldKeys, ∀ k ∈ fieldKeys, k ≠ key → Awg.Passes.Other key k := by
  decide +kernel

-- The keys of the settings of an interface that do not come from the profile.
theorem other_interfaceKeys :
    ∀ key ∈ fieldKeys,
      ∀ k ∈ ["Address", "ListenPort", "PrivateKey", "MTU", "DNS", "PostUp", "PostDown"],
        Awg.Passes.Other key k := by
  decide +kernel

theorem passes_lines {key : String} {g : Field} (hk : Awg.Passes.Other key g.key)
    (ht : g.applies = true → Tame g.text.toList) : Awg.Passes key (g.lines b) := by
  unfold Field.lines
  cases ha : g.applies
  case false => exact .nil
  case true  => exact .itemIf hk (ht ha)

theorem key_ne_of_append {f g : Field} {pre post : List Field} (h : fields p = pre ++ f :: post)
    (hg : g ∈ pre ∨ g ∈ post) : g.key ≠ f.key := by
  have hn : ((fields p).map Field.key).Nodup := by
    rw [keys_fields]
    decide +kernel
  rw [h, List.map_append, List.map_cons, List.nodup_append, List.nodup_cons] at hn
  obtain ⟨-, ⟨hf, -⟩, hd⟩ := hn
  rcases hg with hg | hg
  · exact hd _ (List.mem_map_of_mem hg) _ (by simp)
  · exact fun he => hf (he ▸ List.mem_map_of_mem hg)

theorem passes_fields {f : Field} {fs : List Field} (hf : f ∈ fields p)
    (hfs : ∀ g ∈ fs, g ∈ fields p ∧ g.key ≠ f.key ∧ (g.applies = true → Tame g.text.toList)) :
    Awg.Passes f.key (fs.flatMap (Field.lines b)) :=
  .flatMap fun g hg =>
    have ⟨hm, hne, ht⟩ := hfs g hg
    passes_lines (other_fieldKeys _ (mem_fieldKeys hf) _ (mem_fieldKeys hm) hne) ht

-- What is read for a parameter, if those before it do not continue on further lines.
theorem read_field {f : Field} {pre post : List Field} {ms : List (List Char)}
    (h : fields p = pre ++ f :: post) (hpre : ∀ g ∈ pre, g.applies = true → Tame g.text.toList)
    (hf : f.applies = true) (hne : f.text ≠ "") :
    Awg.interfaceValue.go f.key "interface" (Fake.lines (writeProfile p b) ++ ms) =
      trimSpace (firstLine f.text.toList) := by
  have hm : f ∈ fields p := by simp [h]
  obtain ⟨hk, hw⟩ := isKey_fieldKeys _ (mem_fieldKeys hm)
  have hl : f.lines b = [item f.key f.text] := by simp [Field.lines, hf, hne, itemIf]
  have hp : Awg.Passes f.key (pre.flatMap (Field.lines b)) :=
    passes_fields hm fun g hg => ⟨by simp [h, hg], key_ne_of_append h (.inl hg), hpre g hg⟩
  rw [writeProfile_eq, h, List.flatMap_append, List.flatMap_cons, lines_append, lines_append,
    List.append_assoc, Awg.go_passes hp, hl, List.append_assoc, Awg.go_lines_self hk hw]

theorem read_unset {f : Field} {ms : List (List Char)} (hm : f ∈ fields p)
    (ht : ∀ g ∈ fields p, g.applies = true → Tame g.text.toList) (hf : f.text = "")
    (hms : Awg.interfaceValue.go f.key "interface" ms = []) :
    Awg.interfaceValue.go f.key "interface" (Fake.lines (writeProfile p b) ++ ms) = [] := by
  obtain ⟨pre, post, h⟩ := List.append_of_mem hm
  obtain ⟨hk, hw⟩ := isKey_fieldKeys _ (mem_fieldKeys hm)
  have passes {fs : List Field} (hs : ∀ g ∈ fs, g ∈ pre ∨ g ∈ post) :
      Awg.Passes f.key (fs.flatMap (Field.lines b)) := by
    refine passes_fields hm fun g hg => ?_
    have hg' : g ∈ fields p := by rcases hs g hg with hg | hg <;> simp [h, hg]
    exact ⟨hg', key_ne_of_append h (hs g hg), ht g hg'⟩
  have hl : f.lines b = [item f.key ""] ∨ f.lines b = [] := by
    unfold Field.lines itemIf
    split <;> simp [hf]
  rw [writeProfile_eq, h, List.flatMap_append, List.flatMap_cons, lines_append, lines_append,
    List.append_assoc, Awg.go_passes (passes fun g hg => .inl hg), List.append_assoc]
  rcases hl with hl | hl <;> rw [hl]
  · rw [Awg.go_lines_self hk hw]
    rfl
  · rw [lines, List.flatMap_nil, List.nil_append, Awg.go_passes (passes fun g hg => .inr hg), hms]

-- The parameters are read back as they are if and only if none of them continues on further lines.
theorem read_fields_iff {ms : List (List Char)}
    (hms : ∀ f ∈ fields p, Awg.interfaceValue.go f.key "interface" ms = []) :
    (∀ f ∈ fields p, f.applies = true →
      Awg.interfaceValue.go f.key "interface" (Fake.lines (writeProfile p b) ++ ms) =
        trimSpace f.text.toList) ↔
    ∀ f ∈ fields p, f.applies = true → Tame f.text.toList := by
  constructor
  case mpr =>
    intro ht f hm hf
    by_cases hne : f.text = ""
    case pos => rw [read_unset hm ht hne (hms f hm), hne]; rfl
    case neg =>
      obtain ⟨pre, post, h⟩ := List.append_of_mem hm
      rw [read_field h (fun g hg => ht g (by simp [h, hg])) hf hne]
      exact trimSpace_firstLine_iff.mpr (ht f hm hf)
  case mp =>
    intro hr
    -- One after the other, since what is read for a parameter depends on those before it.
    suffices ∀ pre, pre <+: fields p → ∀ g ∈ pre, g.applies = true → Tame g.text.toList from
      this _ (List.prefix_refl _)
    intro pre
    induction pre using List.reverseRecOn
    case nil => simp
    case append_singleton pre f ih =>
      rintro ⟨post, h⟩
      have hpre := ih ⟨f :: post, by simpa using h⟩
      have h : fields p = pre ++ f :: post := by simpa using h.symm
      intro g hg ha
      rcases List.mem_append.mp hg with hg | hg
      · exact hpre g hg ha
      · obtain rfl := List.mem_singleton.mp hg
        by_cases hne : g.text = ""
        · exact tame_of_not_mem (by simp [hne])
        · exact trimSpace_firstLine_iff.mp
            ((read_field h hpre ha hne).symm.trans (hr g (by simp [h]) ha))

theorem tame_of_solid {s : List Char} (h : Solid s) : Tame s :=
  tame_of_not_mem (no_break_of_solid h)

theorem tame_fields_iff :
    (∀ f ∈ fields p, f.applies = true → Tame f.text.toList) ↔ ∀ t ∈ freeTexts p, Tame t.toList := by
  have int (n : Int) := tame_of_solid (solid_toString_int n)
  have range (r : IntRange) := tame_of_solid (solid_intRange r)
  have bool : ∀ v, Tame (awgBool v).toList := by decide
  have range16 (r : Uint16Range) : Tame (rangeText r).toList := by
    unfold rangeText
    split
    · decide
    · exact tame_of_solid (solid_uint16Range r)
  simp only [fields, freeTexts, List.forall_mem_cons, List.not_mem_nil, false_imp_iff, implies_true,
    int, range, bool, range16, true_and, and_true, List.forall_mem_append]
  cases p.supportsV2Fields <;> cases p.isV31 <;> simp [and_assoc]

end Fields

-- Values without line breaks.

structure Interface.OneLine (i : Interface) : Prop where
  privateKey : '\n' ∉ i.privateKey.toList
  address    : ∀ a ∈ i.address, '\n' ∉ a.toList
  dns        : ∀ a ∈ i.dns, '\n' ∉ a.toList
  postUp     : '\n' ∉ i.postUp.toList
  postDown   : '\n' ∉ i.postDown.toList

structure ClientArgs.OneLine (a : ClientArgs) : Prop where
  clientPrivateKey : '\n' ∉ a.clientPrivateKey.toList
  clientAddress    : ∀ s ∈ a.clientAddress, '\n' ∉ s.toList
  dns              : ∀ s ∈ a.dns, '\n' ∉ s.toList
  serverPublicKey  : '\n' ∉ a.serverPublicKey.toList
  serverEndpoint   : '\n' ∉ a.serverEndpoint.toList
  presharedKey     : '\n' ∉ a.presharedKey.toList
  allowedIPs       : ∀ s ∈ a.allowedIPs, '\n' ∉ s.toList

theorem intercalate_no_break {vs : List String} (h : ∀ v ∈ vs, '\n' ∉ v.toList) :
    '\n' ∉ (", ".intercalate vs).toList := by
  rw [String.toList_intercalate]
  induction vs using List.twoStepInduction
  case nil => simp [List.intercalate]
  case singleton v => simpa [List.intercalate] using h
  case cons_cons v u vs _ ih =>
    have := ih u fun v hv => h v (List.mem_cons_of_mem _ hv)
    simp only [List.map_cons, List.intercalate, List.intersperse_cons_cons, List.flatten_cons,
      List.mem_append, not_or] at this ⊢
    exact ⟨h v (by simp), by decide, this⟩

section Texts

variable {key : String} {p : ProtocolProfile} {iface : Interface} {args : ClientArgs}
  {ls ms : List (List Char)}

theorem interfaceValue_unlines :
    Awg.interfaceValue (unlines ls) key = Awg.interfaceValue.go key "" (Fake.lines ls ++ [[]]) := by
  rw [Awg.interfaceValue, unlines, splitOn_flatMap]
  rfl

theorem passes_writeInterface (hk : key ∈ fieldKeys) (hi : iface.OneLine) :
    Awg.Passes key (writeInterface iface) := by
  have ho (k : String) := other_interfaceKeys key hk k
  have int (n : Int) := tame_of_solid (solid_toString_int n)
  refine .append (.append (.append (.append (.append (.append ?_ ?_) ?_) ?_) ?_) ?_) ?_
  · exact .map (ho _ (by decide)) fun v hv => tame_of_not_mem (hi.address v hv)
  · exact .itemIf (ho _ (by decide)) (int _)
  · exact .itemIf (ho _ (by decide)) (tame_of_not_mem hi.privateKey)
  · exact .itemIf (ho _ (by decide)) (int _)
  · exact .itemIf (ho _ (by decide)) (tame_of_not_mem (intercalate_no_break hi.dns))
  · exact .itemIf (ho _ (by decide)) (tame_of_not_mem hi.postUp)
  · exact .itemIf (ho _ (by decide)) (tame_of_not_mem hi.postDown)

theorem server_value (hk : key ∈ fieldKeys) (hi : iface.OneLine) :
    Awg.interfaceValue (server iface p []) key =
      Awg.interfaceValue.go key "interface" (Fake.lines (writeProfile p false) ++ [[]]) := by
  have hh : Fake.lines ["# Generated by awg-rest. Do not edit by hand.".toList,
    "[Interface]".toList] =
      ["# Generated by awg-rest. Do not edit by hand.".toList, "[Interface]".toList] := by decide
  rw [server, interfaceValue_unlines, lines_append, lines_append, lines_append, hh]
  simp only [sorted, List.insertionSort_nil, List.flatMap_nil, Fake.lines, List.append_nil,
    List.append_assoc, List.cons_append, List.nil_append]
  rw [Awg.go_comment (by decide) (by decide), Awg.go_header]
  exact Awg.go_passes (passes_writeInterface hk hi)

-- What a client is told about its server.
def peerSection (args : ClientArgs) (p : ProtocolProfile) : List (List Char) :=
  let allowed := if args.allowedIPs = [] then amneziaFullTunnelAllowedIPs else args.allowedIPs
  [item "PublicKey" args.serverPublicKey] ++
  itemIf (args.presharedKey ≠ "") "PresharedKey" args.presharedKey ++
  [item "AllowedIPs" (", ".intercalate allowed), item "Endpoint" args.serverEndpoint] ++
  (if p.isV31 && !p.persistentKeepalive.isZero then
    [item "PersistentKeepalive" p.persistentKeepalive.string]
  else itemIf (args.keepalive > 0) "PersistentKeepalive" (toString args.keepalive))

theorem go_peerSection (h : ∀ l ∈ ls, ∃ k v, l = item k v ∧ IsKey k ∧ '\n' ∉ v.toList) :
    Awg.interfaceValue.go key "peer" (Fake.lines ls ++ ms) = Awg.interfaceValue.go key "peer" ms := by
  induction ls
  case nil => rfl
  case cons l ls ih =>
    obtain ⟨k, v, rfl, hk, hv⟩ := h l (by simp)
    rw [← List.singleton_append, lines_append, lines_singleton (item_no_break hk hv),
      List.append_assoc,
      List.singleton_append, Awg.go_other (by decide) hk]
    exact ih fun l hl => h l (List.mem_cons_of_mem _ hl)

theorem items_peerSection (ha : args.OneLine) :
    ∀ l ∈ peerSection args p, ∃ k v, l = item k v ∧ IsKey k ∧ '\n' ∉ v.toList := by
  have hips : '\n' ∉ (", ".intercalate
      (if args.allowedIPs = [] then amneziaFullTunnelAllowedIPs else args.allowedIPs)).toList := by
    refine intercalate_no_break ?_
    split
    · decide
    · exact ha.allowedIPs
  have hlast : ∃ b v, (if p.isV31 && !p.persistentKeepalive.isZero then
        [item "PersistentKeepalive" p.persistentKeepalive.string]
      else itemIf (args.keepalive > 0) "PersistentKeepalive" (toString args.keepalive)) =
        itemIf b "PersistentKeepalive" v ∧ '\n' ∉ v.toList := by
    split
    · exact ⟨true, _, rfl, no_break_of_solid (solid_uint16Range _)⟩
    · exact ⟨_, _, rfl, no_break_of_solid (solid_toString_int _)⟩
  obtain ⟨b, v, he, hv⟩ := hlast
  have itemIf {b : Bool} {k v : String} (hk : IsKey k) (hv : '\n' ∉ v.toList) :
      ∀ l ∈ itemIf b k v, ∃ k v, l = item k v ∧ IsKey k ∧ '\n' ∉ v.toList := by
    intro l hl
    cases b
    case false => cases hl
    case true  => exact ⟨k, v, List.mem_singleton.mp hl, hk, hv⟩
  rw [peerSection, he]
  simp only [List.forall_mem_append, List.forall_mem_cons, List.not_mem_nil, false_imp_iff,
    implies_true, and_true]
  exact ⟨⟨⟨⟨_, _, rfl, by decide, ha.serverPublicKey⟩, itemIf (by decide) ha.presharedKey⟩,
    ⟨_, _, rfl, by decide, hips⟩, ⟨_, _, rfl, by decide, ha.serverEndpoint⟩⟩, itemIf (by decide) hv⟩

-- The settings of a client's interface that do not come from the profile.
def ownSettings (args : ClientArgs) : List (List Char) :=
  itemIf (args.clientPrivateKey ≠ "") "PrivateKey" args.clientPrivateKey ++
  args.clientAddress.map (item "Address") ++
  itemIf (args.dns ≠ []) "DNS" (", ".intercalate args.dns) ++
  itemIf (args.mtu > 0) "MTU" (toString args.mtu)

theorem client_eq :
    client args p = unlines (["[Interface]".toList] ++ ownSettings args ++ writeProfile p true ++
      [[], "[Peer]".toList] ++ peerSection args p) := by
  simp only [client, ownSettings, peerSection, List.append_assoc, List.cons_append, List.nil_append]

theorem passes_ownSettings (hk : key ∈ fieldKeys) (ha : args.OneLine) :
    Awg.Passes key (ownSettings args) := by
  have ho (k : String) := other_interfaceKeys key hk k
  refine .append (.append (.append ?_ ?_) ?_) ?_
  · exact .itemIf (ho _ (by decide)) (tame_of_not_mem ha.clientPrivateKey)
  · exact .map (ho _ (by decide)) fun v hv => tame_of_not_mem (ha.clientAddress v hv)
  · exact .itemIf (ho _ (by decide)) (tame_of_not_mem (intercalate_no_break ha.dns))
  · exact .itemIf (ho _ (by decide)) (tame_of_solid (solid_toString_int _))

theorem client_value (hk : key ∈ fieldKeys) (ha : args.OneLine) :
    Awg.interfaceValue (client args p) key =
      Awg.interfaceValue.go key "interface" (Fake.lines (writeProfile p true) ++
        ([] :: "[Peer]".toList :: (Fake.lines (peerSection args p) ++ [[]]))) := by
  have hh : Fake.lines ["[Interface]".toList] = ["[Interface]".toList] := by decide
  have ht : Fake.lines [[], "[Peer]".toList] = [[], "[Peer]".toList] := by decide
  rw [client_eq, interfaceValue_unlines, lines_append, lines_append, lines_append,
    lines_append, hh, ht]
  simp only [List.append_assoc, List.cons_append, List.nil_append]
  rw [Awg.go_header, Awg.go_passes (passes_ownSettings hk ha)]

-- The server's and the client's configurations both give back the parameters of a profile if and only
-- if its free texts have no line breaks, other than in white space at their ends.
theorem profile_survives_iff (hi : iface.OneLine) (ha : args.OneLine) :
    (∀ f ∈ fields p, f.applies = true →
      Awg.interfaceValue (server iface p []) f.key = trimSpace f.text.toList ∧
      Awg.interfaceValue (client args p) f.key = trimSpace f.text.toList) ↔
    ∀ t ∈ freeTexts p, '\n' ∉ t.toList.rdropWhile isSpace := by
  have hend (key) : Awg.interfaceValue.go key "interface" [[]] = [] := Awg.go_blank rfl
  have hpeer (key) : Awg.interfaceValue.go key "interface"
      ([] :: "[Peer]".toList :: (Fake.lines (peerSection args p) ++ [[]])) = [] := by
    rw [Awg.go_blank rfl, Awg.go_peer, go_peerSection (items_peerSection ha), Awg.go_blank rfl]
    rfl
  have hs := read_fields_iff (p := p) (b := false) fun f _ => hend f.key
  have hc := read_fields_iff (p := p) (b := true) fun f _ => hpeer f.key
  refine Iff.trans ?_ tame_fields_iff
  constructor
  case mp =>
    intro h
    refine hs.mp fun f hf hap => ?_
    rw [← server_value (mem_fieldKeys hf) hi]
    exact (h f hf hap).1
  case mpr =>
    intro h f hf hap
    rw [server_value (mem_fieldKeys hf) hi, client_value (mem_fieldKeys hf) ha]
    exact ⟨hs.mpr h f hf hap, hc.mpr h f hf hap⟩

theorem profile_survives_sample :
    ∃ p : ProtocolProfile, p.validate = [] ∧ p.i1 = "<t>\n" ∧
      ∀ f ∈ fields p, f.applies = true →
        Awg.interfaceValue (server { listenPort := 51820 } p []) f.key = trimSpace f.text.toList ∧
        Awg.interfaceValue (client { serverPublicKey := "k", serverEndpoint := "h:1" } p) f.key =
          trimSpace f.text.toList := by
  let p : ProtocolProfile :=
    { id := 0, name := "n", protocolVersion := .v2, jc := 1, jmin := 1, jmax := 2, s1 := 0, s2 := 0
      h1 := ⟨1, 1⟩, h2 := ⟨2, 2⟩, h3 := ⟨3, 3⟩, h4 := ⟨4, 9⟩, i1 := "<t>\n" }
  have hi : Interface.OneLine { listenPort := 51820 } :=
    ⟨by decide, by decide, by decide, by decide, by decide⟩
  have ha : ClientArgs.OneLine { serverPublicKey := "k", serverEndpoint := "h:1" } :=
    ⟨by decide, by decide, by decide, by decide, by decide, by decide, by decide⟩
  exact ⟨p, by decide +kernel, rfl, (profile_survives_iff hi ha).mpr (by decide +kernel)⟩

-- `Validate` accepts a special-junk value and a key that go on on a second line.
theorem second_line_lost :
    ∃ p : ProtocolProfile, p.validate = [] ∧
      Awg.interfaceValue (server { listenPort := 51820 } p []) "I1" ≠ trimSpace p.i1.toList ∧
      Awg.interfaceValue (client { serverPublicKey := "k", serverEndpoint := "h:1" } p)
        "HeaderProtectionKey" ≠ trimSpace p.headerProtectionKey.toList := by
  refine ⟨
    { id := 0, name := "n", protocolVersion := .v31, jc := 1, jmin := 1, jmax := 2, s1 := 12, s2 := 12
      s3 := 12, s4 := 12, h1 := ⟨1, 1⟩, h2 := ⟨2, 2⟩, h3 := ⟨3, 3⟩, h4 := ⟨4, 9⟩, i1 := "<t>\n<r 2>"
      headerProtectionKey := "AAAAAAAAAAAAAAAAAAAAA\nAAAAAAAAAAAAAAAAAAAAAA=" }, ?_, ?_, ?_⟩
  all_goals decide +kernel

end Texts
end Render
