import AwgRest.RoundTrip.PrivateKey

open Text Render Fake

-- When the private key of one configuration can be read back from another one that it was copied to.
namespace Awg

-- The lines after which a key is put.
def isHeader (line : List Char) : Bool :=
  equalFold (trimSpace line) "[Interface]"

def HasHeader (config : List Char) : Prop :=
  ∃ l ∈ config.splitOn '\n', isHeader l = true

def linesBefore (config : List Char) : List (List Char) :=
  (config.splitOn '\n').takeWhile (!isHeader ·)

-- The header is a whole line, and there is no assignment of an empty private key before it in what
-- the reader takes for an interface section.
def Ready (config : List Char) : Prop :=
  Terminated config ∧ unassigned "PrivateKey" "" (linesBefore config) = true

instance {config : List Char} : Decidable (HasHeader config) :=
  inferInstanceAs (Decidable (∃ l ∈ _, _))

instance {config : List Char} : Decidable (Ready config) :=
  inferInstanceAs (Decidable (_ ∧ _))

section Shape

variable {config : List Char} {ls : List (List Char)} {x y : List Char}

theorem splitAfter_break (h : '\n' ∉ x) :
    splitAfter '\n' (x ++ '\n' :: y) = (x ++ ['\n']) :: splitAfter '\n' y := by
  induction x
  case nil         => simp [splitAfter]
  case cons c x ih =>
    rw [List.mem_cons, not_or] at h
    rw [List.cons_append, splitAfter, if_neg (Ne.symm h.1), ih h.2]
    rfl

theorem splitAfter_rest (h : '\n' ∉ y) : splitAfter '\n' y = [y] := by
  induction y
  case nil         => rfl
  case cons c y ih =>
    rw [List.mem_cons, not_or] at h
    rw [splitAfter, if_neg (Ne.symm h.1), ih h.2]

theorem splitAfter_lines (h : ∀ l ∈ ls, '\n' ∉ l) :
    splitAfter '\n' (ls.flatMap (· ++ ['\n']) ++ y) = ls.map (· ++ ['\n']) ++ splitAfter '\n' y := by
  induction ls
  case nil          => rfl
  case cons l ls ih =>
    rw [List.flatMap_cons, List.append_assoc, List.append_assoc, List.singleton_append,
      splitAfter_break (h l (by simp)), ih fun l hl => h l (List.mem_cons_of_mem _ hl)]
    rfl

theorem isHeader_break : isHeader (x ++ ['\n']) = isHeader x := by
  rw [isHeader, trimSpace, trimBy_concat_pos (by decide)]
  rfl

-- A configuration around its first header, which is either followed by a line break or all that is
-- left of the text.
inductive Headed : List Char → Prop
  | whole {a b : List (List Char)} {x y : List Char} (ha : ∀ l ∈ a, '\n' ∉ l ∧ isHeader l = false)
    (hx : '\n' ∉ x ∧ isHeader x = true) (hb : ∀ l ∈ b, '\n' ∉ l) (hy : '\n' ∉ y) :
    Headed ((a ++ x :: b).flatMap (· ++ ['\n']) ++ y)
  | unfinished {a : List (List Char)} {y : List Char} (ha : ∀ l ∈ a, '\n' ∉ l ∧ isHeader l = false)
    (hy : '\n' ∉ y ∧ isHeader y = true) : Headed (a.flatMap (· ++ ['\n']) ++ y)

theorem HasHeader.headed (h : HasHeader config) : Headed config := by
  obtain ⟨xs, y, -, hxs, hy, rfl⟩ := splitAfter_eq '\n' config
  by_cases hex : ∃ l ∈ xs, isHeader l = true
  case neg =>
    obtain ⟨l, hl, hh⟩ := h
    rw [splitOn_lines hxs, List.splitOn_eq_singleton hy, List.mem_append, List.mem_singleton] at hl
    rcases hl with hl | rfl
    · exact absurd ⟨l, hl, hh⟩ hex
    · exact .unfinished (fun l hl => ⟨hxs l hl, by simpa using fun ht => hex ⟨l, hl, ht⟩⟩) ⟨hy, hh⟩
  case pos =>
    obtain ⟨l, hl, hh⟩ := hex
    have hsplit := List.takeWhile_append_dropWhile (p := (!isHeader ·)) (l := xs)
    cases hd : xs.dropWhile (!isHeader ·)
    case nil =>
      have := List.dropWhile_eq_nil_iff.mp hd l hl
      simp [hh] at this
    case cons x b =>
      have hx : isHeader x = true := by
        have hn : xs.dropWhile (!isHeader ·) ≠ [] := by simp [hd]
        simpa [hd] using List.head_dropWhile_not _ hn
      rw [hd] at hsplit
      rw [← hsplit] at hxs ⊢
      refine .whole (fun l hl => ⟨hxs l (by simp [hl]), ?_⟩) ⟨hxs x (by simp), hx⟩
        (fun l hl => hxs l (by simp [hl])) hy
      simpa using List.mem_takeWhile_imp hl

end Shape

section Put

variable {a b : List (List Char)} {x y v : List Char} {key : String}

theorem findIdx?_header {ls : List (List Char)} (ha : ∀ l ∈ a, isHeader l = false)
    (hx : isHeader x = true) :
    (a.map (· ++ ['\n']) ++ x :: ls).findIdx? (fun line => equalFold (trimSpace line) "[Interface]") =
      some a.length := by
  change List.findIdx? isHeader _ = _
  induction a
  case nil         => simp [List.findIdx?_cons, hx]
  case cons l a ih =>
    have hl : isHeader (l ++ ['\n']) = false := isHeader_break.trans (ha l (by simp))
    rw [List.map_cons, List.cons_append, List.findIdx?_cons, hl, ih fun l hl => ha l (by simp [hl])]
    rfl

theorem put_at {config : List Char} {pre post : List (List Char)} {i : Nat}
    (hs : splitAfter '\n' config = pre ++ post) (hl : pre.length = i + 1)
    (hf : (pre ++ post).findIdx? (fun line => equalFold (trimSpace line) "[Interface]") = some i)
    (hv : trimSpace v ≠ []) (hk : interfaceValue config key = []) :
    withInterfaceValue config key v =
      pre.flatten ++ (item key (String.ofList v) ++ ['\n']) ++ post.flatten := by
  rw [withInterfaceValue, if_neg (not_or.mpr ⟨hv, not_not.mpr hk⟩), hs]
  simp only [hf]
  rw [List.take_left' hl, List.drop_left' hl]

theorem put_whole (ha : ∀ l ∈ a, '\n' ∉ l ∧ isHeader l = false) (hx : '\n' ∉ x ∧ isHeader x = true)
    (hb : ∀ l ∈ b, '\n' ∉ l) (hy : '\n' ∉ y) (hv : trimSpace v ≠ [])
    (hk : interfaceValue ((a ++ x :: b).flatMap (· ++ ['\n']) ++ y) key = []) :
    withInterfaceValue ((a ++ x :: b).flatMap (· ++ ['\n']) ++ y) key v =
      (a ++ [x]).flatMap (· ++ ['\n']) ++ (item key (String.ofList v) ++ ['\n']) ++
        (b.flatMap (· ++ ['\n']) ++ y) := by
  have hlines : ∀ l ∈ a ++ x :: b, '\n' ∉ l := by
    simpa [or_imp, forall_and] using ⟨fun l hl => (ha l hl).1, hx.1, hb⟩
  have hsplit : splitAfter '\n' ((a ++ x :: b).flatMap (· ++ ['\n']) ++ y) =
      (a ++ [x]).map (· ++ ['\n']) ++ (b.map (· ++ ['\n']) ++ [y]) := by
    rw [splitAfter_lines hlines, splitAfter_rest hy]
    simp
  have hfind := @findIdx?_header a (x ++ ['\n']) (b.map (· ++ ['\n']) ++ [y])
    (fun l hl => (ha l hl).2) (isHeader_break.trans hx.2)
  have hpre : (a ++ [x]).map (· ++ ['\n']) ++ (b.map (· ++ ['\n']) ++ [y]) =
      a.map (· ++ ['\n']) ++ (x ++ ['\n']) :: (b.map (· ++ ['\n']) ++ [y]) := by simp
  rw [put_at (i := a.length) hsplit (by simp) (hpre ▸ hfind) hv hk, List.flatten_append,
    ← List.flatMap_def, ← List.flatMap_def, List.flatten_singleton]

theorem put_unfinished (ha : ∀ l ∈ a, '\n' ∉ l ∧ isHeader l = false)
    (hy : '\n' ∉ y ∧ isHeader y = true) (hv : trimSpace v ≠ [])
    (hk : interfaceValue (a.flatMap (· ++ ['\n']) ++ y) key = []) :
    withInterfaceValue (a.flatMap (· ++ ['\n']) ++ y) key v =
      a.flatMap (· ++ ['\n']) ++ (y ++ item key (String.ofList v)) ++ ['\n'] := by
  have hsplit : splitAfter '\n' (a.flatMap (· ++ ['\n']) ++ y) =
      (a.map (· ++ ['\n']) ++ [y]) ++ [] := by
    rw [splitAfter_lines fun l hl => (ha l hl).1, splitAfter_rest hy.1, List.append_nil]
  have hfind := @findIdx?_header a y [] (fun l hl => (ha l hl).2) hy.2
  rw [put_at (i := a.length) hsplit (by simp) (by rw [List.append_nil]; exact hfind) hv hk,
    List.flatten_append, ← List.flatMap_def]
  simp

end Put

section Read

variable {a b ls ms : List (List Char)} {l x y v : List Char} {key sect : String}

-- A line that assigns nothing to a key and is not a header can be left out.
theorem go_insert (ha : ∀ sect, assigns key sect l = false) (hs : ∀ sect, sectionOf sect l = sect) :
    interfaceValue.go key sect (ls ++ l :: ms) = interfaceValue.go key sect (ls ++ ms) := by
  induction ls generalizing sect
  case nil =>
    rw [List.nil_append, go_cons (ha sect), hs]
    rfl
  case cons m ls ih =>
    simp only [List.cons_append]
    cases hm : assigns key sect m
    case false => rw [go_cons hm, go_cons hm, ih]
    case true  =>
      obtain ⟨v, hv, -⟩ := go_of_assigns hm
      rw [hv, hv]

theorem sectionOf_item (hk : IsKey key) (v : String) (sect : String) :
    sectionOf sect (item key v) = sect := by
  obtain ⟨⟨-, -, hb⟩, -, -⟩ := read_item (v := v) hk
  exact if_neg fun h => hb h.1

theorem assigns_item {k : String} (hk : IsKey k)
    (hne : k.toList.map toLower ≠ interfaceValue.want key) (v : String) (sect : String) :
    assigns key sect (item k v) = false := by
  obtain ⟨-, hcut, hkt⟩ := read_item (v := v) hk
  simp [assigns, hcut, hkt, hne]

theorem go_append_of_assigned (h : unassigned key sect ls = false) :
    interfaceValue.go key sect (ls ++ ms) = interfaceValue.go key sect ls := by
  induction ls generalizing sect
  case nil          => cases h
  case cons l ls ih =>
    rw [List.cons_append]
    cases hl : assigns key sect l
    case true  =>
      obtain ⟨v, hv, -⟩ := go_of_assigns hl
      rw [hv, hv]
    case false =>
      rw [go_cons hl, go_cons hl]
      exact ih (by simpa [unassigned, hl] using h)

-- A line that begins with a header and goes on is no assignment to a private key.
theorem assigns_joined (h : isHeader y = true) : assigns "PrivateKey" sect (y ++ x) = false := by
  have hm : (trimSpace y).map Char.toLower = "[interface]".toList := by
    simpa [isHeader, equalFold] using h
  obtain ⟨c, t, ht, hc, -⟩ := List.map_eq_cons_iff.mp hm
  obtain rfl : c = '[' := eq_of_toLower hc (by decide)
  obtain ⟨u, hu⟩ : ∃ u, y.dropWhile isSpace = '[' :: u := by
    obtain ⟨w, hw⟩ := List.rdropWhile_prefix isSpace (y.dropWhile isSpace)
    exact ⟨_, by rw [← hw]; exact congrArg (· ++ w) ht⟩
  have hline : trimSpace (y ++ x) = '[' :: (u ++ x).rdropWhile isSpace := by
    rw [trimSpace, trimBy, List.dropWhile_append, hu, if_neg (by simp)]
    exact rdropWhile_append_cons (s := []) (by decide)
  have hkey (k : List Char) :
      decide ((trimSpace ('[' :: k)).map toLower = interfaceValue.want "PrivateKey") = false := by
    rw [trimSpace, trimBy_cons_neg (by decide), List.map_cons, decide_eq_false_iff_not]
    intro he
    have hw : (interfaceValue.want "PrivateKey").head? = some 'p' := by decide
    rw [← he] at hw
    cases hw
  simp [assigns, hline, cut_cons, hkey, Option.any_map]

end Read

-- Some text is put between the lines of another one.
def Inserted (config result : List Char) : Prop :=
  ∃ a t b, config = a ++ b ∧ result = a ++ t ++ b ∧ (a = [] ∨ a.getLast? = some '\n') ∧
    (b = [] ∨ t.getLast? = some '\n')

-- A key that was put into a configuration can be got from it, and everything else stays.
structure GetPut (config current : List Char) : Prop where
  kept     : interfaceValue config "PrivateKey" ≠ [] →
    preserveInterfacePrivateKey config current = config
  value    : interfaceValue config "PrivateKey" = [] →
    interfaceValue (preserveInterfacePrivateKey config current) "PrivateKey" =
      interfaceValue current "PrivateKey"
  others   : interfaceValue config "PrivateKey" = [] →
    ∀ key, interfaceValue.want key ≠ interfaceValue.want "PrivateKey" →
      interfaceValue (preserveInterfacePrivateKey config current) key = interfaceValue config key
  inserted : interfaceValue config "PrivateKey" = [] →
    Inserted config (preserveInterfacePrivateKey config current)

section

variable {config current : List Char} {a b : List (List Char)} {x y v : List Char}

theorem takeWhile_before {ls : List (List Char)} (ha : ∀ l ∈ a, isHeader l = false)
    (hx : isHeader x = true) :
    (a ++ x :: ls).takeWhile (!isHeader ·) = a := by
  rw [List.takeWhile_append_of_pos (by simpa using ha), List.takeWhile_cons_of_neg (by simp [hx]),
    List.append_nil]

theorem ready_whole (ha : ∀ l ∈ a, '\n' ∉ l ∧ isHeader l = false) (hx : '\n' ∉ x ∧ isHeader x = true)
    (hb : ∀ l ∈ b, '\n' ∉ l) (hy : '\n' ∉ y) :
    Ready ((a ++ x :: b).flatMap (· ++ ['\n']) ++ y) ↔ unassigned "PrivateKey" "" a = true := by
  have hlines : ∀ l ∈ a ++ x :: b, '\n' ∉ l := by
    simpa [or_imp, forall_and] using ⟨fun l hl => (ha l hl).1, hx.1, hb⟩
  have hbefore : linesBefore ((a ++ x :: b).flatMap (· ++ ['\n']) ++ y) = a := by
    rw [linesBefore, splitOn_lines hlines, List.append_assoc, List.cons_append]
    exact takeWhile_before (fun l hl => (ha l hl).2) hx.2
  rw [Ready, hbefore, and_iff_right]
  intro i hi
  have hsplit : splitAfter '\n' ((a ++ x :: b).flatMap (· ++ ['\n']) ++ y) =
      a.map (· ++ ['\n']) ++ (x ++ ['\n']) :: (b.map (· ++ ['\n']) ++ [y]) := by
    rw [splitAfter_lines hlines, splitAfter_rest hy]
    simp
  rw [hsplit, findIdx?_header (fun l hl => (ha l hl).2) (isHeader_break.trans hx.2)] at hi
  obtain rfl := Option.some.inj hi
  exact ⟨x ++ ['\n'], by rw [hsplit]; simp, by simp⟩

theorem not_ready_unfinished (ha : ∀ l ∈ a, '\n' ∉ l ∧ isHeader l = false)
    (hy : '\n' ∉ y ∧ isHeader y = true) : ¬ Ready (a.flatMap (· ++ ['\n']) ++ y) := by
  intro h
  have hsplit : splitAfter '\n' (a.flatMap (· ++ ['\n']) ++ y) = a.map (· ++ ['\n']) ++ [y] := by
    rw [splitAfter_lines fun l hl => (ha l hl).1, splitAfter_rest hy.1]
  obtain ⟨l, hl, hlast⟩ := h.1 a.length
    (by rw [hsplit]; exact findIdx?_header (fun l hl => (ha l hl).2) hy.2)
  obtain rfl : y = l := by simpa [hsplit] using hl
  exact hy.1 (List.mem_of_getLast? hlast)

theorem preserve_eq
    (hr : equalFold (interfaceValue current "PrivateKey") "(redacted)" = false) :
    preserveInterfacePrivateKey config current =
      withInterfaceValue config "PrivateKey" (interfaceValue current "PrivateKey") := by
  rw [preserveInterfacePrivateKey, (interfaceValue_part current "PrivateKey").1,
    if_neg (by simp [hr])]

-- After a whole header, the key is read back unless the reader stops before it gets there.
theorem getPut_whole (ha : ∀ l ∈ a, '\n' ∉ l ∧ isHeader l = false) (hx : '\n' ∉ x ∧ isHeader x = true)
    (hb : ∀ l ∈ b, '\n' ∉ l) (hy : '\n' ∉ y) (hc : config = (a ++ x :: b).flatMap (· ++ ['\n']) ++ y)
    (hn : interfaceValue current "PrivateKey" ≠ [])
    (hr : equalFold (interfaceValue current "PrivateKey") "(redacted)" = false)
    (he : interfaceValue config "PrivateKey" = []) :
    GetPut config current ↔ unassigned "PrivateKey" "" a = true := by
  obtain ⟨htrim, hbreak⟩ := interfaceValue_part current "PrivateKey"
  have hk : IsKey "PrivateKey" := by decide
  have hlines : ∀ l ∈ a ++ x :: b, '\n' ∉ l := by
    simpa [or_imp, forall_and] using ⟨fun l hl => (ha l hl).1, hx.1, hb⟩
  have hax : ∀ l ∈ a ++ [x], '\n' ∉ l := fun l hl => hlines l (by simp at hl ⊢; tauto)
  have hput := (@preserve_eq config current hr).trans
    (hc ▸ put_whole ha hx hb hy (htrim.symm ▸ hn) (hc ▸ he))
  have hread : (preserveInterfacePrivateKey config current).splitOn '\n' =
      (a ++ [x]) ++ item "PrivateKey" (String.ofList (interfaceValue current "PrivateKey")) ::
        (b ++ [y]) := by
    rw [hput, splitOn_insert hax hk hbreak, splitOn_lines hb, List.splitOn_eq_singleton hy]
  have hconfig : config.splitOn '\n' = (a ++ [x]) ++ (b ++ [y]) := by
    rw [hc, splitOn_lines hlines, List.splitOn_eq_singleton hy]
    simp
  constructor
  case mp =>
    intro h
    by_contra hun
    rw [Bool.not_eq_true] at hun
    refine hn ((h.value he).symm.trans ?_)
    rw [← he, interfaceValue, interfaceValue, hread, hconfig, List.append_assoc, List.append_assoc,
      go_append_of_assigned hun, go_append_of_assigned hun]
  case mpr =>
    intro hun
    refine ⟨fun hne => absurd he hne, fun _ => ?_, fun _ key hkey => ?_, fun _ => ?_⟩
    · rw [interfaceValue, hread, List.append_assoc, go_append hun, List.singleton_append,
        go_cons (header_interface _ _ hx.2).2, (header_interface "PrivateKey" _ hx.2).1, go_item hk,
        if_pos (by decide), String.toList_ofList, htrim]
    · rw [interfaceValue, interfaceValue, hread, hconfig]
      exact go_insert (assigns_item hk (fun hw => hkey (hw.symm.trans (by decide))) _) (sectionOf_item hk _)
    · refine ⟨_, _, _, ?_, hput, .inr (by simp), .inr (by simp)⟩
      rw [hc]
      simp

-- After an unfinished header the key ends up in the header's line, where it is not read.
theorem not_getPut_unfinished (ha : ∀ l ∈ a, '\n' ∉ l ∧ isHeader l = false)
    (hy : '\n' ∉ y ∧ isHeader y = true) (hc : config = a.flatMap (· ++ ['\n']) ++ y)
    (hn : interfaceValue current "PrivateKey" ≠ [])
    (hr : equalFold (interfaceValue current "PrivateKey") "(redacted)" = false)
    (he : interfaceValue config "PrivateKey" = []) : ¬ GetPut config current := by
  intro h
  obtain ⟨htrim, hbreak⟩ := interfaceValue_part current "PrivateKey"
  generalize hv : interfaceValue current "PrivateKey" = v at hn hr htrim hbreak
  have hput : preserveInterfacePrivateKey config current =
      (a ++ [y ++ item "PrivateKey" (String.ofList v)]).flatMap (· ++ ['\n']) ++ [] := by
    rw [preserve_eq (by rw [hv]; exact hr), hv, hc,
      put_unfinished ha hy (htrim.symm ▸ hn) (hc ▸ he)]
    simp
  have hlines : ∀ l ∈ a ++ [y ++ item "PrivateKey" (String.ofList v)], '\n' ∉ l := by
    intro l hl
    rcases List.mem_append.mp hl with hl | hl
    · exact (ha l hl).1
    · rw [List.mem_singleton.mp hl, List.mem_append, not_or]
      exact ⟨hy.1, item_no_break (by decide) (by simpa using hbreak)⟩
  have hread : (preserveInterfacePrivateKey config current).splitOn '\n' =
      a ++ [y ++ item "PrivateKey" (String.ofList v), []] := by
    rw [hput, splitOn_lines hlines]
    simp
  have hconfig : config.splitOn '\n' = a ++ [y] := by
    rw [hc, splitOn_lines fun l hl => (ha l hl).1, List.splitOn_eq_singleton hy.1]
  refine hn (hv ▸ (h.value he).symm.trans ?_)
  rw [interfaceValue, hread]
  cases hun : unassigned "PrivateKey" "" a
  case true =>
    rw [go_append hun, go_cons (assigns_joined hy.2)]
    rfl
  case false =>
    rw [go_append_of_assigned hun, ← he, interfaceValue, hconfig, go_append_of_assigned hun]

end

theorem get_after_put_iff {config current : List Char} (hh : HasHeader config)
    (hn : interfaceValue current "PrivateKey" ≠ [])
    (hr : equalFold (interfaceValue current "PrivateKey") "(redacted)" = false) :
    GetPut config current ↔ interfaceValue config "PrivateKey" ≠ [] ∨ Ready config := by
  by_cases he : interfaceValue config "PrivateKey" = []
  case neg =>
    refine iff_of_true ⟨fun _ => preserve_of_key he current, ?_, ?_, ?_⟩ (.inl he)
    all_goals exact fun h => absurd h he
  case pos =>
    rw [or_iff_right (not_not.mpr he)]
    cases hh.headed
    case whole ha hx hb hy =>
      exact (getPut_whole ha hx hb hy rfl hn hr he).trans (ready_whole ha hx hb hy).symm
    case unfinished ha hy =>
      exact iff_of_false (not_getPut_unfinished ha hy rfl hn hr he) (not_ready_unfinished ha hy)

theorem get_after_put_sample :
    GetPut "ListenPort = 1\n [interface]\r\nPrivateKey =\n[Peer]".toList
      "[Interface]\nPrivateKey = abc\n".toList :=
  (get_after_put_iff (by decide) (by decide) (by decide)).mpr (by decide)

-- Without a line break after the header, the key is joined to it and lost.
theorem put_joins_unfinished_header :
    HasHeader "[Interface]".toList ∧
      interfaceValue "[Interface]\nPrivateKey = abc\n".toList "PrivateKey" = "abc".toList ∧
      preserveInterfacePrivateKey "[Interface]".toList "[Interface]\nPrivateKey = abc\n".toList =
        "[Interface]PrivateKey = abc\n".toList ∧
      ¬ GetPut "[Interface]".toList "[Interface]\nPrivateKey = abc\n".toList := by
  refine ⟨by decide, by decide, by decide, fun h => ?_⟩
  exact absurd (h.value (by decide)) (by decide)

end Awg
