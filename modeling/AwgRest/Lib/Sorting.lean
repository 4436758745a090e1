import Mathlib.Data.List.Sort

-- The first element of a list in the order of a key, where the list decides between equal keys.
namespace List

variable {α κ : Type} {l : List α} {a b : α}

theorem pair_sublist_or_of_mem (ha : a ∈ l) (hb : b ∈ l) (hne : a ≠ b) :
    [a, b].Sublist l ∨ [b, a].Sublist l := by
  induction l
  case nil => cases ha
  case cons c l ih =>
    rcases mem_cons.mp ha with rfl | ha'
    · have hb' : b ∈ l := (mem_cons.mp hb).resolve_left (Ne.symm hne)
      exact .inl (cons_sublist_cons.mpr (singleton_sublist.mpr hb'))
    · rcases mem_cons.mp hb with rfl | hb'
      · exact .inr (cons_sublist_cons.mpr (singleton_sublist.mpr ha'))
      · exact (ih ha' hb').imp (·.cons c) (·.cons c)

theorem Nodup.not_pair_sublist (h : (b :: l).Nodup) (hne : a ≠ b) : ¬ [a, b].Sublist (b :: l) := by
  intro hs
  cases hs
  case cons hs   => exact (nodup_cons.mp h).1 (hs.subset (by simp))
  case cons_cons => exact hne rfl

variable [LinearOrder κ] {k : α → κ}

theorem head?_insertionSort_ne_iff (hn : l.Nodup) (ha : a ∈ l) :
    (∃ b, (l.insertionSort (k · ≤ k ·)).head? = some b ∧ b ≠ a) ↔
      ∃ b ∈ l, b ≠ a ∧ (k b < k a ∨ k b = k a ∧ [b, a].Sublist l) := by
  have hmem {b : α} : b ∈ l.insertionSort (k · ≤ k ·) ↔ b ∈ l := mem_insertionSort _
  have hdup : (l.insertionSort (k · ≤ k ·)).Nodup := (perm_insertionSort _ l).nodup_iff.mpr hn
  have hle : (l.insertionSort (k · ≤ k ·)).Pairwise (k · ≤ k ·) :=
    haveI : Std.Total fun a b : α => k a ≤ k b := ⟨fun a b => le_total (k a) (k b)⟩
    haveI : IsTrans α fun a b => k a ≤ k b := ⟨fun _ _ _ => le_trans⟩
    pairwise_insertionSort _ l
  have hstable {b c : α} (hk : k b ≤ k c) (hs : [b, c].Sublist l) :
      [b, c].Sublist (l.insertionSort (k · ≤ k ·)) := pair_sublist_insertionSort hk hs
  generalize l.insertionSort (k · ≤ k ·) = s at hmem hdup hle hstable
  rcases s with _ | ⟨c, s⟩
  case nil => exact absurd (hmem.mpr ha) not_mem_nil
  case cons =>
    have hmin {b : α} (hb : b ∈ l) : k c ≤ k b := by
      rcases mem_cons.mp (hmem.mpr hb) with rfl | hb
      · exact le_refl _
      · exact (pairwise_cons.mp hle).1 b hb
    simp only [head?_cons, Option.some.injEq, exists_eq_left']
    constructor
    · intro hne
      have hc : c ∈ l := hmem.mp mem_cons_self
      refine ⟨c, hc, hne, (hmin ha).lt_or_eq.imp_right fun hk => ⟨hk, ?_⟩⟩
      refine (pair_sublist_or_of_mem hc ha hne).resolve_right fun hs => ?_
      exact hdup.not_pair_sublist (Ne.symm hne) (hstable hk.ge hs)
    · rintro ⟨b, hb, hne, hk⟩ rfl
      rcases hk with hk | ⟨hk, hs⟩
      · exact absurd hk (not_lt.mpr (hmin hb))
      · exact hdup.not_pair_sublist hne (hstable hk.le hs)

-- A function that sorts by a key. Nothing is said about the order of elements with the same key.
structure SortsBy (k : α → κ) (sort : List α → List α) : Prop where
  perm    : ∀ l, (sort l).Perm l
  ordered : ∀ l, (sort l).Pairwise fun a b => ¬ k b < k a

variable {sort sort' : List α → List α} {l' : List α}

theorem SortsBy.strict (h : SortsBy k sort) (hn : (l.map k).Nodup) :
    (sort l).Pairwise (k · < k ·) := by
  have hne : (sort l).Pairwise (k · ≠ k ·) := pairwise_map.mp (((h.perm l).map k).nodup_iff.mpr hn)
  exact (h.ordered l).imp₂ (fun _ _ hle hne => lt_of_le_of_ne (not_lt.mp hle) hne) hne

theorem SortsBy.eq_of_perm (h : SortsBy k sort) (h' : SortsBy k sort') (hp : l.Perm l')
    (hn : (l.map k).Nodup) : sort l = sort' l' := by
  have hn' : (l'.map k).Nodup := (hp.map k).nodup_iff.mp hn
  refine ((h.perm l).trans (hp.trans (h'.perm l').symm)).eq_of_pairwise ?_ (h.strict hn) (h'.strict hn')
  exact fun a b _ _ hab hba => absurd hba (not_lt.mpr hab.le)

theorem sortsBy_insertionSort : SortsBy k (insertionSort (k · ≤ k ·)) := by
  have : Std.Total fun a b : α => k a ≤ k b := ⟨fun a b => le_total (k a) (k b)⟩
  have : IsTrans α fun a b => k a ≤ k b := ⟨fun _ _ _ => le_trans⟩
  exact ⟨perm_insertionSort _, fun l => (pairwise_insertionSort _ l).imp fun h => not_lt.mpr h⟩

end List
