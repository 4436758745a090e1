import AwgRest.Profile
import Mathlib.Algebra.BigOperators.Group.List.Basic
import Mathlib.Data.List.Perm.Basic

open Text

-- The grammar of special-junk values, and the loop that decides it.
namespace Domain

-- What stands between the brackets of a tag, split on white space, with the length that it adds.
inductive Tag : List (List Char) → Int → Prop
  | bytes {raw arg : List Char} (ha : arg = raw ∨ arg = '0' :: 'x' :: raw) (hn : raw ≠ [])
    (heven : raw.length % 2 = 0) (hhex : ∀ c ∈ raw, isHexDigit c = true) :
    Tag [['b'], arg] (raw.length / 2)
  | time : Tag [['t']] 4
  | data : Tag [['d']] 0
  | dataSize : Tag ["ds".toList] 0
  | sized {name arg : List Char} {n : Int}
    (hname : name ∈ ["r".toList, "rc".toList, "rd".toList, "dz".toList]) (ha : atoi arg = some n)
    (h₀ : 0 ≤ n) (h₁ : n ≤ junkSizeMax) : Tag [name, arg] n

theorem Tag.nonneg {fs : List (List Char)} {n : Int} (h : Tag fs n) : 0 ≤ n := by
  cases h
  case bytes raw arg _ _ _ _ => exact Int.ediv_nonneg (Int.natCast_nonneg _) (by decide)
  case sized h₀ _ => exact h₀
  all_goals decide

-- The text `t₀ <c₁> t₁ … <cₙ> tₙ`.
def written (t₀ : List Char) (tags : List (List Char × List Char)) : List Char :=
  t₀ ++ tags.flatMap fun ct => '<' :: (ct.1 ++ '>' :: ct.2)

structure Written (spec t₀ : List Char) (tags : List (List Char × List Char)) : Prop where
  text    : spec = written t₀ tags
  outside : '<' ∉ t₀ ∧ ∀ ct ∈ tags, '<' ∉ ct.2
  inside  : ∀ ct ∈ tags, '>' ∉ ct.1

-- The tags are of the grammar, and what they add is not too long.
def Fitting (commands : List (List Char)) : Prop :=
  ∃ sizes, List.Forall₂ (fun c n => Tag (fields c) n) commands sizes ∧ sizes.sum ≤ junkSizeMax

def SpecialJunk (spec : List Char) : Prop :=
  ∃ t₀ tags, Written spec t₀ tags ∧ tags ≠ [] ∧ Fitting (tags.map Prod.fst)

-- The loop of `validateSpecialJunk` as it stands in the source, with a bound on its rounds.
def junkLoop : Nat → Int → Nat → List Char → Option (Except String Unit)
  | 0, _, _, _ => none
  | fuel + 1, totalFixed, tagCount, remaining =>
    match cut '<' remaining with
    | none =>
      some (if tagCount = 0 then throw "special-junk value must contain at least one supported tag"
        else pure ())
    | some (_, rest) =>
      match cut '>' rest with
      | none => some (throw "special-junk tag is missing closing '>'")
      | some (tag, rest) =>
        match junkTag (fields tag) with
        | .error e => some (throw e)
        | .ok n =>
          if totalFixed + n > junkSizeMax then
            some (throw ("special-junk fixed output must be <= " ++ toString junkSizeMax ++ " bytes"))
          else junkLoop fuel (totalFixed + n) (tagCount + 1) rest

section Scan

variable {total : Int} {count : Nat} {c s t acc : List Char}

theorem junkScan_text (h : '<' ∉ t) :
    junkScan total count none (t ++ s) = junkScan total count none s := by
  induction t
  case nil         => rfl
  case cons d t ih =>
    rw [List.mem_cons, not_or] at h
    rw [List.cons_append, junkScan, if_neg (Ne.symm h.1), ih h.2]

theorem junkScan_inside (h : '>' ∉ c) :
    junkScan total count (some acc) (c ++ s) = junkScan total count (some (c.reverse ++ acc)) s := by
  induction c generalizing acc
  case nil         => rfl
  case cons d c ih =>
    rw [List.mem_cons, not_or] at h
    rw [List.cons_append, junkScan, if_neg (Ne.symm h.1), ih h.2]
    simp

theorem junkScan_unclosed (h : '>' ∉ c) :
    junkScan total count none ('<' :: c) = throw "special-junk tag is missing closing '>'" := by
  have hc : junkScan total count (some []) (c ++ []) =
      junkScan total count (some (c.reverse ++ [])) [] :=
    junkScan_inside h
  rw [List.append_nil] at hc
  rw [junkScan, if_pos rfl, hc]
  rfl

-- One tag, with its brackets.
theorem junkScan_tag (h : '>' ∉ c) :
    junkScan total count none ('<' :: (c ++ '>' :: s)) =
      match junkTag (fields c) with
      | .error e => throw e
      | .ok n =>
        if total + n > junkSizeMax then
          throw ("special-junk fixed output must be <= " ++ toString junkSizeMax ++ " bytes")
        else junkScan (total + n) (count + 1) none s := by
  have hscan : junkScan total count none ('<' :: (c ++ '>' :: s)) =
      junkScan total count (some c.reverse) ('>' :: s) := by
    rw [junkScan, if_pos rfl, junkScan_inside h, List.append_nil]
  have hc : c.reverse.reverse = c := List.reverse_reverse c
  generalize c.reverse = d at hscan hc
  subst hc
  rw [hscan, junkScan]
  exact if_pos rfl

end Scan

section Tags

variable {fs : List (List Char)} {raw tag : List Char} {n : Int}

theorem utf8Size_of_isHexDigit {c : Char} (h : isHexDigit c = true) : c.utf8Size = 1 := by
  rw [Char.utf8Size_eq_one_iff, UInt32.le_iff_toNat_le]
  simp only [isHexDigit, Char.isDigit, Char.le_def, Bool.and_eq_true, decide_eq_true_eq,
    UInt32.le_iff_toNat_le] at h
  have hd : '0'.val.toNat = 48 ∧ '9'.val.toNat = 57 ∧ 'a'.val.toNat = 97 ∧ 'f'.val.toNat = 102 ∧
      'A'.val.toNat = 65 ∧ 'F'.val.toNat = 70 ∧ (127 : UInt32).toNat = 127 := by decide
  omega

theorem utf8ByteSize_of_hex (h : ∀ c ∈ raw, isHexDigit c = true) :
    (String.ofList raw).utf8ByteSize = raw.length := by
  induction raw
  case nil           => rfl
  case cons c raw ih =>
    rw [String.ofList_cons, String.utf8ByteSize_append, String.utf8ByteSize_singleton,
      utf8Size_of_isHexDigit (h c (by simp)), ih fun c hc => h c (List.mem_cons_of_mem _ hc),
      List.length_cons, Nat.add_comm]

theorem tag_eq {w : String} (h : String.ofList tag = w) : tag = w.toList := by
  rw [← h, String.toList_ofList]

-- A `0x` in front of the digits is left out, and there cannot be a second one.
theorem trimHex (h : ∀ c ∈ raw, isHexDigit c = true) {arg : List Char}
    (ha : arg = raw ∨ arg = '0' :: 'x' :: raw) :
    (if ['0', 'x'].isPrefixOf arg then arg.drop 2 else arg) = raw := by
  rcases ha with rfl | rfl
  · refine if_neg fun hp => ?_
    obtain ⟨t, rfl⟩ := List.isPrefixOf_iff_prefix.mp hp
    exact absurd (h 'x' (by simp)) (by decide)
  · simp

theorem tag_of_junkTag (h : junkTag fs = .ok n) : Tag fs n := by
  unfold junkTag at h
  split at h
  case h_1 => cases h
  case h_2 tag args =>
    simp only at h
    split at h
    case h_1 arg ht =>
      obtain rfl := tag_eq ht
      have ha : arg = (if ['0', 'x'].isPrefixOf arg then arg.drop 2 else arg) ∨
          arg = '0' :: 'x' :: (if ['0', 'x'].isPrefixOf arg then arg.drop 2 else arg) := by
        split
        case isFalse   => exact .inl rfl
        case isTrue hp =>
          obtain ⟨t, rfl⟩ := List.isPrefixOf_iff_prefix.mp hp
          exact .inr rfl
      generalize (if ['0', 'x'].isPrefixOf arg then arg.drop 2 else arg) = raw at h ha
      split at h
      case isTrue  => cases h
      case isFalse hn =>
        split at h
        case isFalse => cases h
        case isTrue hx =>
          rw [List.all_eq_true] at hx
          rw [utf8ByteSize_of_hex hx, not_or, not_not] at hn
          cases h
          exact .bytes ha hn.1 hn.2 hx
    case h_3 ht =>
      cases h
      exact tag_eq ht ▸ .time
    case h_5 ht =>
      cases h
      exact tag_eq ht ▸ .data
    case h_6 ht =>
      cases h
      exact tag_eq ht ▸ .dataSize
    case' h_9 ht | h_10 ht | h_11 ht | h_12 ht =>
      split at h
      case h_1 m hm =>
        split at h
        case isTrue     => cases h
        case isFalse h₀ =>
          split at h
          case isTrue     => cases h
          case isFalse h₁ =>
            cases h
            exact .sized (by rw [tag_eq ht]; decide) hm (by omega) (by omega)
      case h_2 => cases h
    all_goals cases h

theorem junkTag_of_tag (h : Tag fs n) : junkTag fs = .ok n := by
  cases h
  case bytes raw arg ha hn heven hhex =>
    have hb : ¬ (raw = [] ∨ (String.ofList raw).utf8ByteSize % 2 ≠ 0) := by
      rw [utf8ByteSize_of_hex hhex]
      exact not_or.mpr ⟨hn, not_not.mpr heven⟩
    have hname : String.ofList ['b'] = "b" := rfl
    unfold junkTag
    simp only [hname, trimHex hhex ha, if_neg hb, List.all_eq_true.mpr hhex, if_true]
    rfl
  case time     => rfl
  case data     => rfl
  case dataSize => rfl
  case sized name arg hname ha h₀ h₁ =>
    have h₀ : ¬ n < 0 := by omega
    have h₁ : ¬ n > junkSizeMax := by omega
    simp only [List.mem_cons, List.not_mem_nil, or_false] at hname
    rcases hname with rfl | rfl | rfl | rfl
    all_goals
      unfold junkTag
      simp only [String.ofList_toList, ha, if_neg h₀, if_neg h₁]
      rfl

end Tags

section Grammar

variable {total : Int} {count : Nat} {spec t₀ : List Char} {tags : List (List Char × List Char)}

def Sizes (commands : List (List Char)) (sizes : List Int) : Prop :=
  List.Forall₂ (fun c n => Tag (fields c) n) commands sizes

theorem Sizes.sum_nonneg {commands : List (List Char)} {sizes : List Int} (h : Sizes commands sizes) :
    0 ≤ sizes.sum := by
  induction h
  case nil             => exact le_refl _
  case cons htag _ ih =>
    rw [List.sum_cons]
    exact Int.add_nonneg htag.nonneg ih

-- The scanner on a text of tags: it accepts them if all of them are of the grammar and they fit into
-- what is left.
theorem junkScan_tags (h₁ : total ≤ junkSizeMax) (hin : ∀ ct ∈ tags, '>' ∉ ct.1)
    (hout : ∀ ct ∈ tags, '<' ∉ ct.2) :
    junkScan total count none (tags.flatMap fun ct => '<' :: (ct.1 ++ '>' :: ct.2)) = .ok () ↔
      (count ≠ 0 ∨ tags ≠ []) ∧
        ∃ sizes, Sizes (tags.map Prod.fst) sizes ∧ total + sizes.sum ≤ junkSizeMax := by
  induction tags generalizing total count
  case nil =>
    rw [List.flatMap_nil, junkScan]
    by_cases hc : count = 0
    case pos => simp [hc, throw, throwThe, MonadExceptOf.throw]
    case neg =>
      rw [if_neg hc]
      exact iff_of_true rfl ⟨.inl hc, [], .nil, by simpa using h₁⟩
  case cons ct tags ih =>
    obtain ⟨c, t⟩ := ct
    have hc : '>' ∉ c := hin _ (List.mem_cons_self ..)
    have ht : '<' ∉ t := hout _ (List.mem_cons_self ..)
    have htext : ((c, t) :: tags).flatMap (fun ct => '<' :: (ct.1 ++ '>' :: ct.2)) =
        '<' :: (c ++ '>' :: (t ++ tags.flatMap fun ct => '<' :: (ct.1 ++ '>' :: ct.2))) := by simp
    have hinv {sizes : List Int} (hs : Sizes (((c, t) :: tags).map Prod.fst) sizes) :
        ∃ n ns, sizes = n :: ns ∧ junkTag (fields c) = .ok n ∧ Sizes (tags.map Prod.fst) ns := by
      rcases hs with _ | @⟨_, n, _, ns, htag, hns⟩
      exact ⟨n, ns, rfl, junkTag_of_tag htag, hns⟩
    rw [htext, junkScan_tag hc]
    cases hj : junkTag (fields c)
    case error e =>
      refine iff_of_false (fun h => by cases h) ?_
      rintro ⟨-, sizes, hs, -⟩
      obtain ⟨n, ns, rfl, hn, -⟩ := hinv hs
      cases hj.symm.trans hn
    case ok n =>
      simp only
      split
      case isTrue hgt =>
        refine iff_of_false (fun h => by cases h) ?_
        rintro ⟨-, sizes, hs, hle⟩
        obtain ⟨m, ns, rfl, hm, hns⟩ := hinv hs
        obtain rfl : n = m := Except.ok.inj (hj.symm.trans hm)
        have := hns.sum_nonneg
        rw [List.sum_cons] at hle
        omega
      case isFalse hle =>
        rw [junkScan_text ht, ih (by omega) (fun ct h => hin ct (List.mem_cons_of_mem _ h))
          fun ct h => hout ct (List.mem_cons_of_mem _ h)]
        constructor
        case mp =>
          rintro ⟨-, ns, hns, hsum⟩
          refine ⟨.inr (List.cons_ne_nil _ _), n :: ns, .cons (tag_of_junkTag hj) hns, ?_⟩
          rw [List.sum_cons]
          omega
        case mpr =>
          rintro ⟨-, sizes, hs, hsum⟩
          obtain ⟨m, ns, rfl, hm, hns⟩ := hinv hs
          obtain rfl : n = m := Except.ok.inj (hj.symm.trans hm)
          rw [List.sum_cons] at hsum
          exact ⟨.inl (Nat.succ_ne_zero _), ns, hns, by omega⟩

theorem Written.accepted_iff (h : Written spec t₀ tags) :
    junkScan 0 0 none spec = .ok () ↔ tags ≠ [] ∧ Fitting (tags.map Prod.fst) := by
  rw [h.text, written, junkScan_text h.outside.1, junkScan_tags (by decide) h.inside h.outside.2]
  simp [Fitting, Sizes]

-- Whatever is accepted can be written with tags.
theorem written_of_accepted (h : junkScan total count none spec = .ok ()) :
    ∃ t₀ tags, Written spec t₀ tags := by
  induction hn : spec.length using Nat.strong_induction_on generalizing spec total count
  case _ n ih =>
    by_cases hopen : '<' ∈ spec
    case neg => exact ⟨spec, [], by simp [written], ⟨hopen, by simp⟩, by simp⟩
    case pos =>
      obtain ⟨t, r, rfl, ht⟩ := List.eq_append_cons_of_mem hopen
      rw [junkScan_text ht] at h
      by_cases hclose : '>' ∈ r
      case neg =>
        rw [junkScan_unclosed hclose] at h
        cases h
      case pos =>
        obtain ⟨c, r, rfl, hc⟩ := List.eq_append_cons_of_mem hclose
        rw [junkScan_tag hc] at h
        split at h
        case h_1 => cases h
        case h_2 =>
          split at h
          case isTrue  => cases h
          case isFalse =>
            obtain ⟨t₀, tags, hw⟩ := ih r.length (by simp at hn; omega) h rfl
            refine ⟨t, (c, t₀) :: tags, ?_, ⟨ht, ?_⟩, ?_⟩
            · rw [hw.text]
              simp [written]
            · simpa using hw.outside
            · simpa using ⟨hc, fun c t h => hw.inside (c, t) h⟩

-- Enough rounds of the loop for a text give what the scanner gives.
theorem junkLoop_eq {fuel : Nat} (h : spec.length < fuel) :
    junkLoop fuel total count spec = some (junkScan total count none spec) := by
  induction fuel generalizing spec total count
  case zero         => cases h
  case succ fuel ih =>
    rw [junkLoop]
    by_cases hopen : '<' ∈ spec
    case neg =>
      have hend : junkScan total count none (spec ++ []) = junkScan total count none [] :=
        junkScan_text hopen
      rw [List.append_nil] at hend
      simp only [cut_eq_none hopen, hend]
      rfl
    case pos =>
      obtain ⟨t, r, rfl, ht⟩ := List.eq_append_cons_of_mem hopen
      simp only [cut_append_cons ht]
      rw [junkScan_text ht]
      by_cases hclose : '>' ∈ r
      case neg => simp only [cut_eq_none hclose, junkScan_unclosed hclose]
      case pos =>
        obtain ⟨c, r, rfl, hc⟩ := List.eq_append_cons_of_mem hclose
        have hr : r.length < fuel := by simp at h; omega
        simp only [cut_append_cons hc]
        rw [junkScan_tag hc]
        cases junkTag (fields c)
        case error e => rfl
        case ok n    =>
          simp only
          split
          case isTrue  => rfl
          case isFalse => exact ih hr

theorem Fitting.perm {cs cs' : List (List Char)} (h : Fitting cs) (hp : cs'.Perm cs) :
    Fitting cs' := by
  obtain ⟨sizes, hs, hsum⟩ := h
  obtain ⟨sizes', hs', hp'⟩ := List.perm_comp_forall₂ hp hs
  exact ⟨sizes', hs', hp'.sum_eq ▸ hsum⟩

end Grammar

theorem specialJunk_accepts_grammar (spec : String) :
    (validateSpecialJunk spec = .ok () ↔ SpecialJunk spec.toList) ∧
    (∀ fuel, spec.toList.length < fuel →
      junkLoop fuel 0 0 spec.toList = some (validateSpecialJunk spec)) ∧
    ∀ (spec' : String) t₀ t₀' tags tags', Written spec.toList t₀ tags →
      Written spec'.toList t₀' tags' →
      (tags.map Prod.fst).Perm (tags'.map Prod.fst) →
        (validateSpecialJunk spec = .ok () ↔ validateSpecialJunk spec' = .ok ()) := by
  refine ⟨⟨fun h => ?_, fun h => ?_⟩, fun fuel hf => junkLoop_eq hf,
    fun spec' t₀ t₀' tags tags' h h' hp => ?_⟩
  · obtain ⟨t₀, tags, hw⟩ := written_of_accepted h
    exact ⟨t₀, tags, hw, hw.accepted_iff.mp h⟩
  · obtain ⟨t₀, tags, hw, hfit⟩ := h
    exact hw.accepted_iff.mpr hfit
  · have hn : tags ≠ [] ↔ tags' ≠ [] := by
      rw [ne_eq, ne_eq, ← List.map_eq_nil_iff, ← List.map_eq_nil_iff (l := tags'),
        ← List.length_eq_zero_iff,
        ← List.length_eq_zero_iff, hp.length_eq]
    rw [validateSpecialJunk, validateSpecialJunk, h.accepted_iff, h'.accepted_iff, hn]
    exact and_congr_right fun _ => ⟨(·.perm hp.symm), (·.perm hp)⟩

theorem specialJunk_accepts_grammar_sample :
    (validateSpecialJunk "a<b 0x0102><t>" = .ok () ↔ validateSpecialJunk "<t>><b 0x0102>" = .ok ()) ∧
      junkLoop 15 0 0 "a<b 0x0102><t>".toList = some (.ok ()) := by
  obtain ⟨-, hloop, hperm⟩ := specialJunk_accepts_grammar "a<b 0x0102><t>"
  refine ⟨hperm "<t>><b 0x0102>" "a".toList [] [("b 0x0102".toList, []), ("t".toList, [])]
    [("t".toList, ">".toList), ("b 0x0102".toList, [])] ⟨by decide, by decide, by decide⟩
    ⟨by decide, by decide, by decide⟩ (.swap _ _ _), ?_⟩
  rw [hloop 15 (by decide)]
  decide

end Domain
