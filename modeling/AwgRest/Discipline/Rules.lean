import AwgRest.Discipline.Local

open Domain Netip Store Fallible Repo

namespace ControlPlane

variable {C : ControlPlane} {φ : Local} {α σ : Type}

-- Which effects the protocol allows, and what it assumes of their answers, as rules for programs.
section Rules

theorem follows_query {q : Query} {Q : Local → Except Err q.Answer → Prop}
    (ha : AllowsQuery φ q)
    (hok : ∀ db now, Q (φ.next (.query q) (.ok (q.eval db now))) (.ok (q.eval db now)))
    (herr : ∀ {x}, External x → Q φ (.error x)) : (query q).run.Follows C.protocol Q φ := by
  refine (follows_call (e := Eff.query q) (P := C.protocol) (Q := Q)).mpr ⟨ha, ?_, ?_⟩
  · rintro a ⟨db, now, rfl⟩
    exact hok db now
  · intro x hx
    cases q <;> exact herr hx

theorem follows_stmt {s : Stmt} {t : TxLocal} {Q : Local → Except Err s.Answer → Prop}
    (ht : φ.tx = some t) (hs : AllowsStmt φ t s)
    (hok : ∀ {db now id a}, s.eval db now id = some (.ok a) → Q (φ.next (.stmt s) (.ok a)) (.ok a))
    (herr : ∀ {x}, External x → Q φ (.error x)) : (stmt s).run.Follows C.protocol Q φ := by
  refine (follows_call (e := Eff.stmt s) (P := C.protocol) (Q := Q)).mpr ⟨⟨t, ht, hs⟩, ?_, ?_⟩
  · rintro a ⟨db, now, id, h⟩
    exact hok h
  · intro x hx
    cases s <;> exact herr hx

-- Most statements write what their answer says.
theorem follows_write {s : Stmt} {t : TxLocal} {Q : Local → Except Err s.Answer → Prop}
    (ht : φ.tx = some t) (hs : AllowsStmt φ t s) (hl : ∀ n t, s ≠ .lockPool n t)
    (hok : ∀ {db now id a}, s.eval db now id = some (.ok a) →
      Q { φ with tx := some { t with writes := t.writes ++ s.writes a } } (.ok a))
    (herr : ∀ {x}, External x → Q φ (.error x)) : (stmt s).run.Follows C.protocol Q φ := by
  refine follows_stmt ht hs (fun {_ _ _ a} h => ?_) herr
  have hn : φ.next (.stmt s) (.ok a) = φ.wrote s a := by
    cases s <;> first
      | rfl
      | exact absurd rfl (hl _ _)
  rw [hn, Local.wrote, ht]
  exact hok h

theorem follows_auto {s : Auto} {Q : Local → Except Err s.Answer → Prop}
    (ht : φ.tx = none) (hk : φ.kind.IsWorker) (hs : AllowsAuto φ s)
    (hok : ∀ a, Q (φ.next (.auto s) (.ok a)) (.ok a))
    (herr : ∀ {x}, External x → Q (φ.next (.auto s) (.error x)) (.error x)) :
    (auto s).run.Follows C.protocol Q φ :=
  (follows_call (e := Eff.auto s) (P := C.protocol) (Q := Q)).mpr
    ⟨⟨ht, hk, hs⟩, fun a _ => hok a, fun _ => herr⟩

-- An effect about which the protocol says nothing.
theorem follows_silent {e : Eff} {Q : Local → Except Err e.Answer → Prop} (he : e.Silent)
    (hok : ∀ a, Q φ (.ok a)) (herr : ∀ {x}, External x → Q φ (.error x)) :
    (call e : Act e.Answer).run.Follows C.protocol Q φ := by
  cases e <;> first
    | exact follows_call.mpr ⟨trivial, fun a _ => hok a, fun _ => herr⟩
    | exact follows_call.mpr ⟨trivial, fun a _ => hok a, fun _ h => h.elim⟩
    | cases he

-- No program forgets what kind of process it is.
theorem follows_kind {p : Prog (fun e : Eff => Except Err e.Answer) α} {Q : Local → α → Prop}
    (h : p.Follows C.protocol Q φ) :
    p.Follows C.protocol (fun ψ a => Q ψ a ∧ ψ.kind = φ.kind) φ := by
  induction p generalizing φ
  case ret a     => exact ⟨h, rfl⟩
  case op e k ih =>
    refine ⟨h.1, fun r hr => (ih r (h.2 r hr)).mono fun ψ a hψ => ?_⟩
    exact ⟨hψ.1, hψ.2.trans Local.kind_next⟩

-- A transaction ends with its commit only if its function returns no error.
def AtEnd (C : ControlPlane) (init : σ) (Q : Local → Except Err (Option Err × σ) → Prop) (φ : Local) :
    Except Err (Option Err × σ) → Prop
  | .error e        => φ.tx ≠ none ∧ Q { φ with tx := none } (.ok (some e, init))
  | .ok (some e, s) => φ.tx ≠ none ∧ Q { φ with tx := none } (.ok (some e, s))
  | .ok (none, s)   =>
    ∃ t, φ.tx = some t ∧ Effect C φ t.writes ∧
      Q { φ with tx := none, effect := some t.writes } (.ok (none, s)) ∧
      ∀ e, External e → Q { φ with tx := none } (.ok (some e, s))

theorem AtEnd.mono {init : σ} {Q Q' : Local → Except Err (Option Err × σ) → Prop}
    {r : Except Err (Option Err × σ)} (h : AtEnd C init Q φ r) (hq : ∀ φ r, Q φ r → Q' φ r) :
    AtEnd C init Q' φ r := by
  rcases r with e | ⟨_ | e, s⟩
  case error   => exact ⟨h.1, hq _ _ h.2⟩
  case ok.some => exact ⟨h.1, hq _ _ h.2⟩
  case ok.none =>
    have ⟨t, ht, hc, hok, herr⟩ := h
    exact ⟨t, ht, hc, hq _ _ hok, fun e he => hq _ _ (herr e he)⟩

theorem follows_inTx {init : σ} {fn : Act (Option Err × σ)}
    {Q : Local → Except Err (Option Err × σ) → Prop} (ht : φ.tx = none)
    (hbegin : ∀ {e}, External e → Q φ (.ok (some e, init)))
    (hfn : fn.run.Follows C.protocol (AtEnd C init Q) { φ with tx := some {} }) :
    (inTx init fn).run.Follows C.protocol Q φ := by
  refine follows_transaction ht (fun _ hx => hbegin hx) fun _ => hfn.mono ?_
  rintro φ (e | ⟨_ | e, s⟩)
  case error   => exact fun ⟨htx, hq⟩ => ⟨htx, fun _ _ => hq⟩
  case ok.some => exact fun ⟨htx, hq⟩ => ⟨htx, fun _ _ => hq⟩
  case ok.none =>
    rintro ⟨t, htx, hc, hok, herr⟩
    refine ⟨⟨t, htx, hc⟩, fun _ => ?_, herr⟩
    simp only [protocol, Local.next, htx]
    exact hok

end Rules
end ControlPlane
