import AwgRest.Invariant.Link
import AwgRest.Provisioning.Files

open Domain Netip Store

-- What the database has in any run of the commands, and which commands put it there.
namespace Bootstrap

variable {b : Bootstrap} {db : DB} {w₀ w w' : World} {M : Nat → Option Progress} {pid : Nat}
  {φ ψ : Progress} {e : Entry} {es : List Entry}

section Overlap

variable {p q : Prefix} {a : Addr}

theorem div_mul_div_pow (n : Nat) {i j : Nat} (h : i ≤ j) :
    n / 2 ^ i * 2 ^ i / 2 ^ j = n / 2 ^ j := by
  obtain ⟨k, rfl⟩ := Nat.exists_eq_add_of_le h
  rw [Nat.pow_add, ← Nat.div_div_eq_div_mul, Nat.mul_div_cancel _ (Nat.two_pow_pos i),
    Nat.div_div_eq_div_mul]

-- The longer one of two prefixes with an address in common is a part of the other one.
theorem contains_of_common (hb : p.bits ≤ q.bits) (hp : p.contains (some a) = true)
    (hq : q.contains (some a) = true) : p.masked.contains (some q.masked.addr) = true := by
  simp only [Prefix.contains, decide_eq_true_iff] at hp hq ⊢
  have hh : q.hostBits ≤ p.hostBits := by
    rw [Prefix.hostBits, Prefix.hostBits, ← hp.1, ← hq.1]
    omega
  refine ⟨hq.1.symm.trans hp.1, ?_⟩
  simp only [Prefix.masked_hostBits]
  calc q.masked.addr.val / 2 ^ p.hostBits
      = a.val / 2 ^ q.hostBits * 2 ^ q.hostBits / 2 ^ p.hostBits := by rw [hq.2]; rfl
    _ = p.addr.val / 2 ^ p.hostBits := by rw [div_mul_div_pow _ hh, hp.2]
    _ = p.masked.addr.val / 2 ^ p.hostBits := (div_mul_div_pow _ (Nat.le_refl _)).symm

theorem disjoint_of_not_overlap (h : Query.overlap p q = false) : Entry.Disjoint p q := by
  rintro a ⟨hp, hq⟩
  rcases Nat.le_total p.bits q.bits with hb | hb
  · simp [Query.overlap, contains_of_common hb hp hq, hb] at h
  · simp [Query.overlap, contains_of_common hb hq hp, hb] at h

end Overlap

-- What a check that found nothing tells about the database.
def Vacant (db : DB) : Query → Prop
  | .profileExists s  => ∀ p ∈ db.profiles, p.name ≠ s
  | .hostnameExists s => ∀ n ∈ db.nodes, n.hostname ≠ s
  | .ifaceExists s    => ∀ n ∈ db.nodes, n.interfaceName ≠ s
  | .portExists i     => ∀ n ∈ db.nodes, n.basePort ≠ i
  | .poolOverlaps c   => ∀ p ∈ db.pools, Query.overlap p.cidr c = false
  | _                 => True

-- A check answers whether some row has what it asks for.
theorem of_mem_cleared {α : Type} {xs : List α} {p : α → Bool} {q c : Query} {l : Bool → List Query}
    (hl : l true = []) (hl' : l false = [q]) (h : c ∈ l (xs.any p)) :
    c = q ∧ ∀ x ∈ xs, p x = false := by
  cases hx : xs.any p <;> rw [hx] at h
  case true  => simp [hl] at h
  case false => exact ⟨by simpa [hl'] using h, by simpa using hx⟩

theorem isCheck_of_cleared {q c : Query} {a : q.Answer} (h : c ∈ cleared q a) : IsCheck q := by
  cases q <;> trivial

theorem vacant_of_cleared {q c : Query} {now : Time} (h : c ∈ cleared q (q.eval db now)) :
    Vacant db c := by
  cases q
  case profileExists s =>
    obtain ⟨rfl, hx⟩ := of_mem_cleared (l := cleared (.profileExists s)) rfl rfl h
    exact fun p hp => by simpa using hx p hp
  case hostnameExists s =>
    obtain ⟨rfl, hx⟩ := of_mem_cleared (l := cleared (.hostnameExists s)) rfl rfl h
    exact fun n hn => by simpa using hx n hn
  case ifaceExists s =>
    obtain ⟨rfl, hx⟩ := of_mem_cleared (l := cleared (.ifaceExists s)) rfl rfl h
    exact fun n hn => by simpa using hx n hn
  case portExists i =>
    obtain ⟨rfl, hx⟩ := of_mem_cleared (l := cleared (.portExists i)) rfl rfl h
    exact fun n hn => by simpa using hx n hn
  case poolOverlaps c =>
    obtain ⟨rfl, hx⟩ := of_mem_cleared (l := cleared (.poolOverlaps c)) rfl rfl h
    exact hx
  all_goals cases h

namespace Entry

theorem new_of_vacant (h : ∀ q ∈ e.checks, Vacant db q) : e.New db where
  name     := h (.profileExists _) (by simp [checks])
  hostname := h (.hostnameExists _) (by simp [checks])
  iface    := h (.ifaceExists _) (by simp [checks])
  port     := h (.portExists _) (by simp [checks])
  pool     := fun p hp => disjoint_of_not_overlap (h (.poolOverlaps _) (by simp [checks]) p hp)

-- What is new after others have been added has nothing in common with them.
theorem New.of_provisioned (h : e.New (provisioned db es)) : e.New db ∧ ∀ e' ∈ es, e'.Apart e := by
  have split {α : Type} {f : Entry → α} {xs : List α} {P : α → Prop}
      (h : ∀ x ∈ xs ++ es.map f, P x) : (∀ x ∈ xs, P x) ∧ ∀ e' ∈ es, P (f e') := by
    simpa [or_imp, forall_and] using h
  constructor
  · exact ⟨(split h.name).1, (split h.hostname).1, (split h.iface).1, (split h.port).1,
      (split h.pool).1⟩
  · intro e' he'
    exact ⟨(split h.name).2 e' he', (split h.hostname).2 e' he', (split h.iface).2 e' he',
      (split h.port).2 e' he', (split h.pool).2 e' he'⟩

theorem writes_injective {e' : Entry} (h : e.writes = e'.writes) : e = e' := by
  cases e
  cases e'
  simpa [writes] using h

theorem replay_writes :
    Transactions.replay (provisioned db es) e.writes = provisioned db (es ++ [e]) := by
  simp [writes, provisioned, Transactions.replay, Journal.apply, Write.apply]

end Entry

-- The statement that takes the advisory lock, and succeeds.
def Takes : (x : Eff) → Except Err x.Answer → Prop
  | .stmt .advisoryLock, .ok _ => True
  | _,                   _     => False

theorem locked_of_takes {x : Eff} {r : Except Err x.Answer} (h : World.Acts pid w x r w')
    (ht : Takes x r) : (.advisory, pid) ∈ w'.locks := by
  cases h
  case stmt s tx id a htx ha hf =>
    cases s <;> first
      | exact False.elim ht
      | exact List.mem_append_right _ (by simp [Transactions.needed, Stmt.extraLocks])
  case failed    =>
    cases x <;> first
      | exact False.elim ht
      | case stmt s _ => cases s <;> exact False.elim ht
  case silent hs => cases x <;> first | exact False.elim ht | cases hs
  all_goals exact False.elim ht

namespace Progress

variable {x : Eff} {r : Except Err x.Answer}

-- The lock is taken by one statement, and given up at the end of the transaction.
theorem locked_next (h : (φ.next x r).locked = true) :
    (φ.locked = true ∧ x ≠ .commit ∧ x ≠ .rollback) ∨ Takes x r := by
  obtain ⟨ψ, hl, hn⟩ := φ.learned x r
  rw [hn] at h
  cases hl
  case lock       => exact .inr trivial
  case commit     => cases h
  case lost       => cases h
  case rollback   => cases h
  case same hc hb => exact .inl ⟨h, hc, hb⟩
  all_goals exact .inl ⟨h, nofun, nofun⟩

-- Only a check adds to what a command knows to be free, and only the lock lets it keep that.
theorem clear_next {c : Query} (hq : ∀ q, x ≠ .query q) (h : c ∈ (φ.next x r).clear) :
    c ∈ φ.clear ∧ (φ.locked = true → (φ.next x r).locked = true) := by
  obtain ⟨ψ, hl, hn⟩ := φ.learned x r
  rw [hn] at h ⊢
  cases hl
  case query    => exact absurd rfl (hq _)
  case lock     => exact ⟨h, fun _ => rfl⟩
  case commit   => cases h
  case lost     => cases h
  case rollback => cases h
  all_goals exact ⟨h, id⟩

theorem committed_next (h : ¬ x.Commits r) : (φ.next x r).committed = φ.committed := by
  obtain ⟨ψ, hl, hn⟩ := φ.learned x r
  rw [hn]
  cases hl <;> first | rfl | exact absurd trivial h

end Progress

-- A command that has the lock is the only one, so what it has found to be free stays free.
structure Secured (M : Nat → Option Progress) (w : World) : Prop where
  tracks : Tracks (fun pid => (M pid).bind Progress.tx) w
  held   : ∀ {pid φ}, M pid = some φ → φ.locked = true → (.advisory, pid) ∈ w.locks
  clear  : ∀ {pid φ c}, M pid = some φ → c ∈ φ.clear → φ.locked = true ∧ Vacant w.db c

namespace Secured

theorem of_quiet (h : ControlPlane.Quiet w) : Secured (fun _ => none) w where
  tracks :=
    have hl := ControlPlane.Linked.of_quiet h
    ⟨hl.txs, hl.orderly⟩
  held   := nofun
  clear  := nofun

theorem update_tx (t : Option (List Write)) (hψ : ψ.tx = t) :
    (fun q => (Function.update M pid (some ψ) q).bind Progress.tx) =
      Function.update (fun q => (M q).bind Progress.tx) pid t := by
  funext q
  by_cases hq : q = pid
  case pos => simp [hq, hψ]
  case neg => simp [hq]

theorem spawn (h : Secured M w) (hp : M pid = none) {o : V31NodeOptions} :
    Secured (Function.update M pid (some { opts := o })) w where
  tracks := by
    have ht : (fun q => (M q).bind Progress.tx) pid = none := by simp [hp]
    rw [update_tx none rfl, ← ht, Function.update_eq_self]
    exact h.tracks
  held hq hl := by
    rcases of_update hq with ⟨-, rfl⟩ | ⟨-, hq⟩
    · cases hl
    · exact h.held hq hl
  clear hq hc := by
    rcases of_update hq with ⟨-, rfl⟩ | ⟨-, hq⟩
    · cases hc
    · exact h.clear hq hc

-- What a command finds out about the database.
theorem query {q c : Query} {r : Except Err q.Answer} (h : Secured M w) (hφ : M pid = some φ)
    (ha : b.Allows φ (.query q)) (hx : World.Acts pid w (.query q) r w')
    (hc : c ∈ (φ.next (.query q) r).clear) : φ.locked = true ∧ Vacant w.db c := by
  cases hx
  case failed    => exact h.clear hφ hc
  case silent hs => cases hs
  case query     =>
    rcases List.mem_append.mp hc with hc | hc
    · exact h.clear hφ hc
    · obtain ⟨ht, hl⟩ := ha (isCheck_of_cleared hc)
      have hp : w.pending pid = [] := h.tracks.pending (by simpa [hφ] using ht)
      have hv : w.view pid = w.db := by rw [Transactions.view, hp, Transactions.replay_nil]
      exact ⟨hl, hv ▸ vacant_of_cleared hc⟩

-- Nobody else knows anything to be free when a command commits.
theorem alone {q : Nat} {χ : Progress} {c : Query} (h : Secured M w) (hφ : M pid = some φ)
    (hl : φ.locked = true) (hq : M q = some χ) (hc : c ∈ χ.clear) : q = pid :=
  h.tracks.orderly.exclusive (h.held hq (h.clear hq hc).1) (h.held hφ hl)

theorem act {x : Eff} {r : Except Err x.Answer} (h : Secured M w) (hφ : M pid = some φ)
    (ha : b.Allows φ x) (hx : World.Acts pid w x r w') :
    Secured (Function.update M pid (some (φ.next x r))) w' where
  tracks := by
    have ht := h.tracks.act hx
    rw [update_tx (track φ.tx x r) rfl]
    simpa [hφ] using ht
  held {q χ} hq hl := by
    rcases of_update hq with ⟨rfl, rfl⟩ | ⟨hne, hq⟩
    · rcases Progress.locked_next hl with ⟨hl, hc⟩ | ht
      · exact hx.locks (fun _ => hc) (h.held hφ hl)
      · exact locked_of_takes hx ht
    · exact hx.locks (fun he => absurd he hne) (h.held hq hl)
  clear {q χ c} hq hc := by
    by_cases hx' : x.Commits r
    case pos =>
      cases x <;> cases r <;> cases hx'
      obtain ⟨e, -, -, hl, -, -⟩ := ha
      rcases of_update hq with ⟨-, rfl⟩ | ⟨hne, hq⟩
      · cases hc
      · exact absurd (h.alone hφ hl hq hc) hne
    case neg =>
      rw [hx.db (by rintro s rfl; exact ha) hx']
      rcases of_update hq with ⟨-, rfl⟩ | ⟨-, hq⟩
      case inr => exact h.clear hq hc
      case inl =>
        by_cases hxq : ∃ q, x = .query q
        case pos =>
          obtain ⟨q, rfl⟩ := hxq
          have hn : (φ.next (.query q) r).locked = φ.locked := by cases r <;> rfl
          rw [hn]
          exact h.query hφ ha hx hc
        case neg =>
          obtain ⟨hc, hl⟩ := Progress.clear_next (not_exists.mp hxq) hc
          exact ⟨hl (h.clear hφ hc).1, (h.clear hφ hc).2⟩

end Secured

-- The rows that were added are those that commands have committed.
structure Recorded (w₀ : World) (M : Nat → Option Progress) (w : World) (es : List (Nat × Entry)) :
    Prop where
  db      : w.db = provisioned w₀.db (es.map Prod.snd)
  new     : ∀ x ∈ es, x.2.New w₀.db
  apart   : es.Pairwise fun x y => x.2.Apart y.2
  once    : (es.map Prod.fst).Nodup
  commits : ∀ {pid e}, (pid, e) ∈ es ↔ ∃ φ, M pid = some φ ∧ φ.committed = some e.writes

namespace Recorded

variable {xs : List (Nat × Entry)}

theorem init : Recorded w₀ (fun _ => none) w₀ [] where
  db      := by simp [provisioned]
  new     := by simp
  apart   := List.Pairwise.nil
  once    := List.nodup_nil
  commits := by simp

-- A step after which the same has been committed.
theorem frame (h : Recorded w₀ M w xs) (hdb : w'.db = w.db)
    (hψ : ψ.committed = (M pid).bind Progress.committed) :
    Recorded w₀ (Function.update M pid (some ψ)) w' xs where
  db      := hdb.trans h.db
  new     := h.new
  apart   := h.apart
  once    := h.once
  commits {q e} := by
    rw [h.commits]
    by_cases hq : q = pid
    case pos =>
      subst hq
      simp only [Function.update_self, Option.some.injEq, exists_eq_left', hψ]
      exact Option.bind_eq_some_iff.symm
    case neg => simp [hq]

theorem commit (h : Recorded w₀ M w xs) (hφ : M pid = some φ) (hc : φ.committed = none)
    (hψ : ψ.committed = some e.writes) (hn : e.New w.db)
    (hdb : w'.db = Transactions.replay w.db e.writes) :
    Recorded w₀ (Function.update M pid (some ψ)) w' (xs ++ [(pid, e)]) := by
  rw [h.db] at hn hdb
  obtain ⟨hnew, hapart⟩ := hn.of_provisioned
  have hfresh {e'} : (pid, e') ∉ xs := by
    rw [h.commits]
    rintro ⟨φ', hφ', hc'⟩
    cases hφ.symm.trans hφ'
    rw [hc] at hc'
    cases hc'
  refine ⟨?_, ?_, ?_, ?_, ?_⟩
  · rw [hdb, Entry.replay_writes, List.map_append]
    rfl
  · intro x hx
    rcases List.mem_append.mp hx with hx | hx
    · exact h.new x hx
    · cases List.mem_singleton.mp hx
      exact hnew
  · refine List.pairwise_append.mpr ⟨h.apart, List.pairwise_singleton _ _, fun x hx y hy => ?_⟩
    cases List.mem_singleton.mp hy
    exact hapart _ (List.mem_map_of_mem hx)
  · rw [List.map_append]
    refine List.Nodup.append h.once (List.nodup_singleton _) fun q hq hq' => ?_
    cases List.mem_singleton.mp hq'
    obtain ⟨x, hx, rfl⟩ := List.mem_map.mp hq
    exact hfresh hx
  · intro q e'
    rw [List.mem_append, List.mem_singleton, h.commits]
    by_cases hq : q = pid
    case neg => simp [hq]
    case pos =>
      subst hq
      simp only [hφ, Option.some.injEq, exists_eq_left', hc, reduceCtorEq, false_or, Prod.mk.injEq,
        true_and, Function.update_self, hψ]
      exact ⟨fun he => by rw [he], fun he => Entry.writes_injective he.symm⟩

theorem act {x : Eff} {r : Except Err x.Answer} (h : Recorded w₀ M w xs) (hs : Secured M w)
    (hφ : M pid = some φ) (ha : b.Allows φ x) (hx : World.Acts pid w x r w') :
    ∃ ys, Recorded w₀ (Function.update M pid (some (φ.next x r))) w' ys := by
  by_cases hx' : x.Commits r
  case pos =>
    cases x <;> cases r <;> cases hx'
    obtain ⟨e, -, ht, -, hsub, hc⟩ := ha
    have hp : w.pending pid = e.writes := hs.tracks.pending (by simpa [hφ] using ht)
    have hn : e.New w.db := Entry.new_of_vacant fun q hq => (hs.clear hφ (hsub hq)).2
    refine ⟨_, h.commit hφ hc ht hn ?_⟩
    cases hx
    case commit    => rw [← hp]; rfl
    case silent hs => cases hs
  case neg =>
    refine ⟨xs, h.frame (hx.db (by rintro s rfl; exact ha) hx') ?_⟩
    rw [Progress.committed_next hx', hφ]
    rfl

end Recorded

-- What the database is in any run.
theorem recorded_of_trace {τ : List Ev} (hq : ControlPlane.Quiet w₀)
    (h : b.discipline.Trace undying w₀ τ w) : ∃ xs, Recorded w₀ (b.discipline.memory τ) w xs := by
  refine (h.memory_inv (I := fun M w => Secured M w ∧ ∃ xs, Recorded w₀ M w xs) (fun hg => hg _ rfl)
    ⟨.of_quiet hq, [], .init⟩ ?_ ?_ ?_).2
  · rintro M w pid o ⟨hs, xs, hr⟩ hp
    exact ⟨hs.spawn hp, xs, hr.frame rfl (by rw [hp]; rfl)⟩
  · rintro M w pid φ x c r w' ⟨hs, xs, hr⟩ hφ ha hx
    have hx := World.acts_of_exec hx
    exact ⟨hs.act hφ ha hx, hr.act hs hφ ha hx⟩
  · rintro M w t ⟨hs, xs, hr⟩
    exact ⟨⟨⟨hs.tracks.txs, hs.tracks.orderly⟩, hs.held, hs.clear⟩,
      xs, ⟨hr.db, hr.new, hr.apart, hr.once, hr.commits⟩⟩

end Bootstrap
