import AwgRest.Invariant.Peers
import AwgRest.Invariant.Tables

open Domain Store Domain.Peer

namespace ControlPlane

variable {C : ControlPlane} {G : Guard} {w₀ w w' : World} {τ : List Ev} {pid q : Nat} {φ ψ : Local}
  {e : Eff} {r : Except Err e.Answer} {db db' : DB} {k : Kind}

-- What a run has seen of a process: how often it has committed, whether it has found a record of its
-- idempotency key, and what it has answered.
structure Account where
  kind    : Kind
  commits : Nat := 0
  found   : Bool := false
  answer  : Option (Except Err Result) := none

namespace Account

def next (a : Account) : (e : Eff) → Except Err e.Answer → Account
  | .commit,              .ok _        => { a with commits := a.commits + 1 }
  | .query (.lookup _ _), .ok (some _) => { a with found := true }
  | _,                    _            => a

def record (A : Nat → Option Account) : Ev → Nat → Option Account
  | .spawn pid k => Function.update A pid (some { kind := k })
  | .act pid e r => Function.update A pid ((A pid).map (·.next e r))
  | .done pid b  => Function.update A pid ((A pid).map ({ · with answer := some b }))
  | .crash _     => A
  | .tick _      => A

-- A request commits once or not at all, and it does not commit if it fails or finds a record.
structure Settled (a : Account) : Prop where
  once     : a.commits ≤ 1
  replayed : a.found → a.commits = 0
  failed   : ∀ {x}, a.answer = some (.error x) → a.commits = 0
  answered : ∀ {b}, a.answer = some (.ok b) → a.commits = 1 ∨ a.found

-- The account of a request that is still running.
structure Open (a : Account) (φ : Local) : Prop where
  kind    : a.kind = φ.kind
  commits : φ.kind.IsRequest → a.commits = if φ.effect.isSome then 1 else 0
  lookup  : φ.kind.IsRequest → φ.effect.isSome → φ.lookup = some none
  found   : a.found ↔ ∃ r, φ.lookup = some (some r)
  answer  : a.answer = none

theorem Open.settled {a : Account} (h : Open a φ) (hr : φ.kind.IsRequest) : Settled a where
  once := by
    rw [h.commits hr]
    split <;> simp
  replayed hf := by
    have ⟨r, hl⟩ := h.found.mp hf
    rw [h.commits hr, if_neg]
    intro he
    simp [h.lookup hr he] at hl
  failed ha   := by simp [h.answer] at ha
  answered ha := by simp [h.answer] at ha

-- What an effect does to the account of its process.
inductive Marks (φ : Local) : (e : Eff) → Except Err e.Answer → Prop
  | commit : Marks φ .commit (.ok ())
  | lookup {t key r} : Marks φ (.query (.lookup t key)) (.ok r)
  | keep {e : Eff} {r : Except Err e.Answer} :
    (φ.next e r).effect = φ.effect → (φ.next e r).lookup = φ.lookup →
    (∀ a : Account, a.next e r = a) → Marks φ e r

theorem marks (φ : Local) (e : Eff) (r : Except Err e.Answer) : Marks φ e r := by
  have keep {e : Eff} {r : Except Err e.Answer} (h₁ : (φ.next e r).effect = φ.effect)
      (h₂ : (φ.next e r).lookup = φ.lookup) (h₃ : ∀ a : Account, a.next e r = a) : Marks φ e r :=
    .keep h₁ h₂ h₃
  cases r
  case error x =>
    cases e
    case query q => cases q <;> exact keep rfl rfl fun _ => rfl
    case stmt s  => cases s <;> exact keep rfl rfl fun _ => rfl
    case auto s  => cases s <;> exact keep rfl rfl fun _ => rfl
    all_goals exact keep rfl rfl fun _ => rfl
  case ok a =>
    cases e
    case query q =>
      cases q
      case lookup => exact .lookup
      all_goals exact keep rfl rfl fun _ => rfl
    case stmt s => cases s <;> exact keep rfl rfl fun _ => rfl
    case auto s => cases s <;> exact keep rfl rfl fun _ => rfl
    case commit => exact .commit
    all_goals exact keep rfl rfl fun _ => rfl

end Account

-- A request that commits has looked its key up and has not committed before.
theorem Effect.of_request {ws : List Write} (h : Effect C φ ws) (hr : φ.kind.IsRequest) :
    φ.lookup = some none ∧ φ.effect = none := by
  cases h
  case create hl he _ _ _ _ _ _ _ _ _ _ _ => exact ⟨hl, he⟩
  case revoke hl he _ _ _ _ _ => exact ⟨hl, he⟩
  case work hw _          => exact absurd hr (φ.kind.not_isRequest hw)
  case provision hk _ _ _ => rw [hk] at hr; cases hr
  case allocate hk        => rw [hk] at hr; cases hr
  case markRevoked hk     => rw [hk] at hr; cases hr

theorem Account.Open.act {a : Account} (h : Open a φ) (ha : Allows C φ e) :
    Open (a.next e r) (φ.next e r) := by
  cases Account.marks φ e r
  case commit =>
    have ⟨t, ht, he⟩ := ha
    refine ⟨h.kind, fun hr => ?_, fun hr _ => (he.of_request hr).1, h.found, h.answer⟩
    have := h.commits hr
    simp_all [Account.next, Local.next, (he.of_request hr).2]
  case lookup t key r =>
    have hn : ¬ (φ.kind.IsRequest ∧ φ.effect.isSome) := by
      rintro ⟨hr, he⟩
      have hl : φ.lookup = none := ha
      simp [h.lookup hr he] at hl
    have hl : φ.lookup = none := ha
    have hf : a.found = false := by simpa [hl] using h.found
    cases r
    case none =>
      refine ⟨h.kind, h.commits, fun hr he => absurd ⟨hr, he⟩ hn, ?_, h.answer⟩
      simp [Account.next, Local.next, hf]
    case some r =>
      refine ⟨h.kind, h.commits, fun hr he => absurd ⟨hr, he⟩ hn, ?_, h.answer⟩
      simp [Account.next, Local.next]
  case keep h₁ h₂ h₃ =>
    rw [h₃]
    refine ⟨by simp [h.kind], ?_, ?_, ?_, h.answer⟩
    · rw [h₁, Local.kind_next]
      exact h.commits
    · rw [h₁, h₂, Local.kind_next]
      exact h.lookup
    · rw [h₂]
      exact h.found

theorem Account.Open.done {a : Account} {b : Except Err Result} (h : Open a φ) (hp : Post φ b)
    (hr : φ.kind.IsRequest) : Settled { a with answer := some b } := by
  have hs := h.settled hr
  have hc := h.commits hr
  refine ⟨hs.once, hs.replayed, fun ha => ?_, fun ha => ?_⟩
  · cases ha
    cases hp.2.1 hr
    case failed he => simp [hc, he]
  · cases ha
    cases hp.2.1 hr
    case created he _ _ _        => simp [hc, he]
    case revoked he _ _          => simp [hc, he]
    case createReplayed r _ hl   => exact .inr (h.found.mpr ⟨r, hl⟩)
    case revokeReplayed r _ hl   => exact .inr (h.found.mpr ⟨r, hl⟩)

-- The accounts of the processes after the events `τ`.
def accounts (τ : List Ev) : Nat → Option Account :=
  τ.foldl Account.record (fun _ => none)

theorem accounts_concat {ev : Ev} : accounts (τ ++ [ev]) = Account.record (accounts τ) ev := by
  simp [accounts]

-- Every process that is running has an account that is open, and those of requests are settled.
theorem accounts_of_trace (h : C.Trace G w₀ τ w) :
    (∀ pid φ, C.locals τ pid = some φ → ∃ a, accounts τ pid = some a ∧ a.Open φ) ∧
    ∀ pid a, accounts τ pid = some a → a.kind.IsRequest → a.Settled := by
  induction h
  case nil => simp [locals, accounts]
  case spawn τ w pid k h _ _ _ ih =>
    rw [accounts_concat, locals_spawn]
    refine ⟨fun q φ hφ => ?_, fun q a ha hr => ?_⟩ <;> by_cases hq : q = pid
    · subst hq
      obtain rfl : { kind := k } = φ := by simpa using hφ
      exact ⟨{ kind := k }, by simp [Account.record], rfl, fun _ => rfl, nofun, by simp, rfl⟩
    · simp only [Account.record, ne_eq, hq, not_false_eq_true, Function.update_of_ne] at hφ ⊢
      exact ih.1 q φ hφ
    · subst hq
      obtain rfl : { kind := k } = a := by simpa [Account.record] using ha
      exact ⟨by simp, by simp, by simp, by simp⟩
    · simp only [Account.record, ne_eq, hq, not_false_eq_true, Function.update_of_ne] at ha
      exact ih.2 q a ha hr
  case act τ w pid φ e r w' x h hl ha _ _ ih =>
    rw [accounts_concat, locals_act hl]
    obtain ⟨a, hA, ho⟩ := ih.1 pid φ hl
    have ho' : (a.next e r).Open (φ.next e r) := ho.act ha
    refine ⟨fun q ψ hψ => ?_, fun q b hb hr => ?_⟩ <;> by_cases hq : q = pid
    · subst hq
      obtain rfl : φ.next e r = ψ := by simpa using hψ
      exact ⟨a.next e r, by simp [Account.record, hA], ho'⟩
    · simp only [Account.record, ne_eq, hq, not_false_eq_true, Function.update_of_ne] at hψ ⊢
      exact ih.1 q ψ hψ
    · subst hq
      obtain rfl : a.next e r = b := by simpa [Account.record, hA] using hb
      exact ho'.settled (ho'.kind ▸ hr)
    · simp only [Account.record, ne_eq, hq, not_false_eq_true, Function.update_of_ne] at hb
      exact ih.2 q b hb hr
  case done τ w pid φ b h hl hp _ ih =>
    rw [accounts_concat, locals_done]
    obtain ⟨a, hA, ho⟩ := ih.1 pid φ hl
    refine ⟨fun q ψ hψ => ?_, fun q b' hb hr => ?_⟩ <;> by_cases hq : q = pid
    · simp [hq] at hψ
    · simp only [Account.record, ne_eq, hq, not_false_eq_true, Function.update_of_ne] at hψ ⊢
      exact ih.1 q ψ hψ
    · subst hq
      obtain rfl : { a with answer := some b } = b' := by simpa [Account.record, hA] using hb
      exact ho.done hp (ho.kind ▸ hr)
    · simp only [Account.record, ne_eq, hq, not_false_eq_true, Function.update_of_ne] at hb
      exact ih.2 q b' hb hr
  case crash τ w pid φ h hl _ ih =>
    rw [accounts_concat, locals_crash]
    refine ⟨fun q ψ hψ => ?_, ih.2⟩
    by_cases hq : q = pid
    · simp [hq] at hψ
    · exact ih.1 q ψ (by simpa [hq] using hψ)
  case tick τ w d h _ ih =>
    rw [accounts_concat, locals_tick]
    exact ih

-- The tenant and the idempotency key of a request.
def Kind.scope (db : DB) : Kind → Option (UUID × String)
  | .createPeer _ slug key _   => (db.tenants.find? (·.slug = slug)).map fun t => (t.id, key)
  | .revokePeer _ slug _ key _ => (db.tenants.find? (·.slug = slug)).map fun t => (t.id, key)
  | _                          => none

-- The tenant of a process is the one that its slug names.
def TenantLocal (db : DB) (φ : Local) : Prop :=
  ∀ {t}, φ.tenant = some t → db.tenants.find? (·.slug = t.slug) = some t

-- The rows that a request adds when it commits.
inductive Added (C : ControlPlane) (k : Kind) (db : DB) : DB → Prop
  | create {caller slug key req tenantID p o j a r pool cursor} :
    k = .createPeer caller slug key req → k.scope db = some (tenantID, key) →
    (∀ q ∈ db.peers, q.id ≠ p.id) → p.tenantID = tenantID → p.externalID = req.externalID →
    Requested tenantID key (C.service.createHash req slug) .createPeer p o j a r →
    Added C k db
      { db with
        pools      := db.pools.map fun q => if q.id = pool then { q with cursor := cursor } else q
        peers      := db.peers ++ [p]
        operations := db.operations ++ [o]
        outbox     := db.outbox ++ [j]
        audit      := db.audit ++ [a]
        records    := db.records ++ [r] }
  | revoke {caller slug peerID key reason tenantID q p o j a r} :
    k = .revokePeer caller slug peerID key reason → k.scope db = some (tenantID, key) →
    q ∈ db.peers → Grows q p → p.state = .revoked → p.tenantID = tenantID →
    Requested tenantID key (C.service.revokeHash tenantID.string p.id.string reason) .revokePeer
      p o j a r →
    Added C k db
      { db with
        peers      := db.peers.map fun q => if q.id = p.id then p else q
        operations := db.operations ++ [o]
        outbox     := db.outbox ++ [j]
        audit      := db.audit ++ [a]
        records    := db.records ++ [r] }

-- The only record among the rows is that of the request.
theorem Added.record (h : Added C k db db') :
    ∃ r, db'.records = db.records ++ [r] ∧ k.scope db = some (r.tenantID, r.key) := by
  cases h
  case create r _ _ _ hs _ _ _ hr => exact ⟨r, rfl, hr.tenant.symm ▸ hr.key.symm ▸ hs⟩
  case revoke r _ hs _ _ _ _ hr => exact ⟨r, rfl, hr.tenant.symm ▸ hr.key.symm ▸ hs⟩

-- What a request commits.
theorem added_of_effect (hp : PeerLocal db φ) (ha : db.peers.Pairwise Apart) (ht : TenantLocal db φ)
    (hk : φ.kind.IsRequest) (he : Effect C φ φ.writes) : Added C φ.kind db (φ.view db) := by
  have hv := view_peers ha hp
  generalize hws : φ.writes = ws at he
  cases he
  case work hw _          => exact absurd hk (φ.kind.not_isRequest hw)
  case provision hkd _ _ _ => rw [hkd] at hk; cases hk
  case allocate hkd       => rw [hkd] at hk; cases hk
  case markRevoked hkd    => rw [hkd] at hk; cases hk
  case create caller slug key req t n pr p o j a r pool cursor priv psk hkd _ _ htn hsl _ _ _ hpt _ _ hpe
      hrq _ =>
    have hsc : φ.kind.scope db = some (t.id, key) := by
      rw [hkd, Kind.scope, ← hsl, ht htn]
      rfl
    rcases hv with ⟨p', hw, _, hn, _⟩ | ⟨hu, _⟩
    · rw [hws] at hw
      obtain rfl : p = p' := (List.cons.inj hw).1
      have hup : upsert Peer.id db.peers p = db.peers ++ [p] := upsert_of_new fun q hq => (hn q hq).id
      have := @Added.create C _ db _ _ _ _ _ _ _ _ _ _ pool cursor hkd hsc
        (fun q hq => (hn q hq).id) hpt hpe hrq
      rw [← hup] at this
      rw [Local.view, hws]
      exact this
    · have hi : φ.kind.Inserts := by rw [hkd]; rfl
      exact absurd hi (hu p (by simp [hws])).1
  case revoke caller slug peerID key reason t p o j a r hkd _ _ htn hsl hpt hst hrq =>
    have hsc : φ.kind.scope db = some (t.id, key) := by
      rw [hkd, Kind.scope, ← hsl, ht htn]
      rfl
    rcases hv with ⟨p', hw, hi, _⟩ | ⟨hu, _⟩
    · rw [hkd] at hi
      cases hi
    · obtain ⟨-, q, hq, g, -⟩ := hu p (by simp [hws])
      have hup : upsert Peer.id db.peers p = db.peers.map fun q => if q.id = p.id then p else q :=
        upsert_of_mem ⟨q, hq, g.id⟩
      have := Added.revoke hkd hsc hq g hst hpt hrq
      rw [← hup] at this
      rw [Local.view, hws]
      exact this

section Tenants

-- The effect that resolves the tenant of a process.
inductive Resolves (φ : Local) : (e : Eff) → Except Err e.Answer → Prop
  | tenant {slug t} : Resolves φ (.query (.tenantBySlug slug)) (.ok t)
  | keep {e : Eff} {r : Except Err e.Answer} : (φ.next e r).tenant = φ.tenant → Resolves φ e r

theorem resolves (φ : Local) (e : Eff) (r : Except Err e.Answer) : Resolves φ e r := by
  have keep {e : Eff} {r : Except Err e.Answer} (h : (φ.next e r).tenant = φ.tenant) :
      Resolves φ e r := .keep h
  cases e
  case query q =>
    cases q
    case tenantBySlug slug =>
      cases r
      case error => exact keep rfl
      case ok    => exact .tenant
    all_goals cases r <;> exact keep rfl
  case stmt s => cases s <;> cases r <;> exact keep rfl
  case auto s => cases s <;> cases r <;> exact keep rfl
  all_goals cases r <;> exact keep rfl

theorem Change.tenants (h : Change C φ w e r db') : db'.tenants = w.db.tenants := by
  cases h
  case commit         => exact replay_tenants
  case auto s _ _ _ _ => rw [Auto.eval_frame]
  all_goals rfl

theorem Change.records (h : Change C φ w e r db') :
    db'.records = w.db.records ∨ db'.records = w.db.records ++ recordsOf φ.writes := by
  cases h
  case commit         => exact .inr replay_records
  case auto s _ _ _ _ => exact .inl (by rw [Auto.eval_frame])
  all_goals exact .inl rfl

theorem tenant_own (h : ActStep C G w₀ τ w pid φ e r w') (hl : TenantLocal w.db φ) :
    TenantLocal w.db (φ.next e r) := by
  intro t ht
  cases resolves φ e r
  case keep hk => exact hl (hk ▸ ht)
  case tenant slug t' =>
    have hc := h.change
    generalize w'.db = db' at hc
    cases hc
    case query now ha =>
      rw [Local.view_of_none ha] at ht
      have ht : (Query.tenantBySlug slug).eval w.db now = some t := ht
      rw [(tenantBySlug_some ht).2]
      exact ht
    case aside hr => cases hr; case silent hs => cases hs

theorem tenants_of_trace (h : C.Trace G w₀ τ w) (hq : Quiet w₀) :
    ∀ q ψ, C.locals τ q = some ψ → TenantLocal w.db ψ := by
  refine (trace_invariant (Q := fun _ _ => True) (P := fun _ w _ ψ => TenantLocal w.db ψ) hq h trivial
    ?idle (fun _ => nofun) ?act).2
  case idle => exact fun hi => ⟨id, fun q ψ h => hi.db ▸ h⟩
  case act  =>
    intro τ w pid φ e r w' hs _ hl
    have ht := hs.change.tenants
    refine ⟨trivial, fun {t} h => ?_, fun q ψ _ hψ {t} h => ?_⟩
    · exact ht ▸ tenant_own hs (hl pid φ hs.running) h
    · exact ht ▸ hl q ψ hψ h

end Tenants

-- Which process commits with an event.
def Commits (pid : Nat) : Ev → Prop
  | .act q .commit (.ok _) => q = pid
  | _                      => False

theorem eq_of_commits {ev : Ev} (h : Commits pid ev) : ev = .act pid .commit (.ok ()) := by
  cases ev
  case act q e r =>
    cases e <;> first
      | exact h.elim
      | cases r
        · exact h.elim
        · cases h; rfl
  all_goals exact h.elim

section Commits

variable {ev : Ev} {a : Account}

-- Other events leave the number of commits of a process alone, or begin to count them.
theorem accounts_of_not_commits (h : ¬ Commits q ev) (ha : accounts (τ ++ [ev]) q = some a)
    (hc : a.commits ≠ 0) :
    ∃ a', accounts τ q = some a' ∧ a'.kind = a.kind ∧ a'.commits = a.commits := by
  rw [accounts_concat] at ha
  cases ev
  case tick  => exact ⟨a, ha, rfl, rfl⟩
  case crash => exact ⟨a, ha, rfl, rfl⟩
  case spawn pid k =>
    by_cases hq : q = pid
    · subst hq
      obtain rfl : { kind := k } = a := by simpa [Account.record] using ha
      exact absurd rfl hc
    · exact ⟨a, by simpa [Account.record, hq] using ha, rfl, rfl⟩
  case done pid b =>
    by_cases hq : q = pid
    · subst hq
      simp only [Account.record, Function.update_self, Option.map_eq_some_iff] at ha
      obtain ⟨a', ha', rfl⟩ := ha
      exact ⟨a', ha', rfl, rfl⟩
    · exact ⟨a, by simpa [Account.record, hq] using ha, rfl, rfl⟩
  case act pid e r =>
    by_cases hq : q = pid
    · subst hq
      simp only [Account.record, Function.update_self, Option.map_eq_some_iff] at ha
      obtain ⟨a', ha', rfl⟩ := ha
      cases Account.marks { kind := .runOnce } e r
      case commit           => exact absurd rfl h
      case lookup t key rec => cases rec <;> exact ⟨a', ha', rfl, rfl⟩
      case keep hk          => exact ⟨a', ha', by rw [hk], by rw [hk]⟩
    · exact ⟨a, by simpa [Account.record, hq] using ha, rfl, rfl⟩

theorem Kind.scope_congr (h : db'.tenants = db.tenants) : k.scope db' = k.scope db := by
  cases k <;> simp [Kind.scope, h]

theorem Kind.isRequest_of_scope {x : UUID × String} (h : k.scope db = some x) : k.IsRequest := by
  cases k <;> first | rfl | cases h

-- The processes that have committed for a tenant and a key: there is a record of it, and no other
-- process has done so.
structure Ledger (τ : List Ev) (db : DB) : Prop where
  recorded : ∀ {q a x}, accounts τ q = some a → a.commits ≠ 0 → a.kind.scope db = some x →
    ∃ r ∈ db.records, (r.tenantID, r.key) = x
  unique   : ∀ {p q a b x}, accounts τ p = some a → accounts τ q = some b → a.commits ≠ 0 →
    b.commits ≠ 0 → a.kind.scope db = some x → b.kind.scope db = some x → p = q

theorem Ledger.concat (h : Ledger τ db) (hc : ∀ q, ¬ Commits q ev) (ht : db'.tenants = db.tenants)
    (hr : db.records ⊆ db'.records) : Ledger (τ ++ [ev]) db' where
  recorded ha hn hx := by
    obtain ⟨a', ha', hk, hn'⟩ := accounts_of_not_commits (hc _) ha hn
    rw [Kind.scope_congr ht, ← hk] at hx
    obtain ⟨r, hm, hrx⟩ := h.recorded ha' (hn' ▸ hn) hx
    exact ⟨r, hr hm, hrx⟩
  unique ha hb hna hnb hxa hxb := by
    obtain ⟨a', ha', hk, hn⟩ := accounts_of_not_commits (hc _) ha hna
    obtain ⟨b', hb', hk', hn'⟩ := accounts_of_not_commits (hc _) hb hnb
    rw [Kind.scope_congr ht, ← hk] at hxa
    rw [Kind.scope_congr ht, ← hk'] at hxb
    exact h.unique ha' hb' (hn ▸ hna) (hn' ▸ hnb) hxa hxb

end Commits

-- What a request commits, in terms of the step.
theorem added_of_step (h : ActStep C G w₀ τ w pid φ .commit (.ok ()) w') (hq : Quiet w₀)
    (hp : w₀.db.peers.Pairwise Apart) (hk : φ.kind.IsRequest) :
    Added C φ.kind w.db w'.db := by
  have ⟨ha, hl⟩ := peers_of_trace h.trace hq hp
  have ht := tenants_of_trace h.trace hq
  have hc := h.change
  generalize w'.db = db' at hc ⊢
  cases hc
  case commit he => exact added_of_effect (hl _ _ h.running) ha (ht _ _ h.running) hk he
  case aside hr  => cases hr; case silent hs => cases hs

theorem ledger_commit (h : ActStep C G w₀ τ w pid φ .commit (.ok ()) w') (hq : Quiet w₀)
    (hp : w₀.db.peers.Pairwise Apart) (hr : (Table.records.keys w₀.db).Nodup) (hl : Ledger τ w.db) :
    Ledger (τ ++ [.act pid .commit (.ok ())]) w'.db := by
  have ht := h.change.tenants
  obtain ⟨a, hA, ho⟩ := (accounts_of_trace h.trace).1 pid φ h.running
  -- A process for which there is a key is a request, and its record is a new one.
  have new {x} (hx : φ.kind.scope w.db = some x) :
      ∃ r, w'.db.records = w.db.records ++ [r] ∧ (r.tenantID, r.key) = x ∧
        ∀ s ∈ w.db.records, (s.tenantID, s.key) ≠ x := by
    obtain ⟨r, hr', hs⟩ := (added_of_step h hq hp (Kind.isRequest_of_scope hx)).record
    obtain rfl : (r.tenantID, r.key) = x := Option.some.inj (hs.symm.trans hx)
    have hn := Table.nodup_step (T := Table.records) h hq hr
    have hk : Table.records.keys w'.db = Table.records.keys w.db ++ [(r.tenantID, r.key)] := by
      simp [Table.keys, Table.records, hr']
    rw [hk] at hn
    refine ⟨r, hr', rfl, fun s hs he => (List.nodup_append.mp hn).2.2 _ ?_ _ (by simp) he⟩
    exact List.mem_map_of_mem hs
  have own {b : Account} (hb : accounts (τ ++ [.act pid .commit (.ok ())]) pid = some b) :
      b.kind = φ.kind := by
    rw [accounts_concat, Account.record, Function.update_self, hA] at hb
    cases hb
    exact ho.kind
  have other {q : Nat} {b : Account} (hne : q ≠ pid)
      (hb : accounts (τ ++ [.act pid .commit (.ok ())]) q = some b) : accounts τ q = some b := by
    simpa [accounts_concat, Account.record, hne] using hb
  have sub : w.db.records ⊆ w'.db.records := by
    rcases h.change.records with he | he <;> simp [he]
  constructor
  case recorded =>
    intro q b x hb hn hx
    rw [Kind.scope_congr ht] at hx
    by_cases hne : q = pid
    · subst hne
      rw [own hb] at hx
      obtain ⟨r, hr', hrx, _⟩ := new hx
      exact ⟨r, by simp [hr'], hrx⟩
    · obtain ⟨r, hm, hrx⟩ := hl.recorded (other hne hb) hn hx
      exact ⟨r, sub hm, hrx⟩
  case unique =>
    intro p q b b' x hb hb' hn hn' hx hx'
    rw [Kind.scope_congr ht] at hx hx'
    by_cases h₁ : p = pid <;> by_cases h₂ : q = pid
    · exact h₁.trans h₂.symm
    · subst h₁
      rw [own hb] at hx
      obtain ⟨_, _, _, hs⟩ := new hx
      obtain ⟨r, hm, hrx⟩ := hl.recorded (other h₂ hb') hn' hx'
      exact absurd hrx (hs r hm)
    · subst h₂
      rw [own hb'] at hx'
      obtain ⟨_, _, _, hs⟩ := new hx'
      obtain ⟨r, hm, hrx⟩ := hl.recorded (other h₁ hb) hn hx
      exact absurd hrx (hs r hm)
    · exact hl.unique (other h₁ hb) (other h₂ hb') hn hn' hx hx'

theorem ledger_of_trace (h : C.Trace G w₀ τ w) (hq : Quiet w₀) (hp : w₀.db.peers.Pairwise Apart)
    (hr : (Table.records.keys w₀.db).Nodup) : Ledger τ w.db := by
  refine (trace_invariant (Q := fun τ w => Ledger τ w.db) (P := fun _ _ _ _ => True) hq h
    ⟨by simp [accounts], by simp [accounts]⟩ ?idle (fun _ => trivial) ?act).1
  case idle =>
    intro τ w ev w' hi
    refine ⟨fun hl => hi.db ▸ hl.concat (fun q hc => ?_) rfl (fun _ => id), fun _ _ _ => trivial⟩
    cases ev <;> first | exact hc | exact hi.event _ _ _ rfl
  case act =>
    intro τ w pid φ e r w' hs hl _
    refine ⟨?_, trivial, fun _ _ _ _ => trivial⟩
    by_cases hc : ∃ q, Commits q (.act pid e r)
    case pos =>
      obtain ⟨q, hc⟩ := hc
      cases eq_of_commits hc
      exact ledger_commit hs hq hp hr hl
    case neg =>
      refine hl.concat (not_exists.mp hc) hs.change.tenants fun x hx => ?_
      rcases hs.change.records with he | he <;> simp [he, hx]

-- Apart from its commit, nothing that a request does changes a row.
theorem db_of_not_commits {c c' : Conf} {a : Account} {ev : Ev} (hq : Quiet w₀)
    (h : C.Runs unguarded w₀ τ c) (ha : accounts τ pid = some a) (hr : a.kind.IsRequest)
    (hs : C.system.Step c ev c') (hpid : ev.pid = some pid) (hc : ¬ Commits pid ev) :
    c'.world.db = c.world.db := by
  cases ev
  case spawn => cases hs; rfl
  case done  => cases hs; rfl
  case crash => cases hs; rfl
  case tick  => cases hs; rfl
  case act q e r =>
    obtain rfl : q = pid := Option.some.inj hpid
    obtain ⟨φ, hact⟩ := h.act hq hs trivial
    obtain ⟨a', ha', ho⟩ := (accounts_of_trace h.trace).1 q φ hact.running
    obtain rfl : a' = a := Option.some.inj (ha'.symm.trans ha)
    have hch := hact.change
    generalize c'.world.db = db' at hch
    cases hch
    case auto hw _ => exact absurd hr (ho.kind ▸ φ.kind.not_isRequest hw)
    case commit    => exact absurd rfl hc
    all_goals rfl

-- A request commits at most once, and then it adds its rows; a request that fails or finds a record
-- of its key commits nothing; and no two requests commit for the same tenant and key.
theorem requests_atomic {c : Conf} (hq : Quiet w₀) (hp : w₀.db.peers.Pairwise Apart)
    (hk : (Table.records.keys w₀.db).Nodup) (h : C.Runs unguarded w₀ τ c) :
    (∀ {pid a}, accounts τ pid = some a → a.kind.IsRequest →
      a.Settled ∧
      ∀ {ev c'}, C.system.Step c ev c' → ev.pid = some pid →
        (Commits pid ev → Added C a.kind c.world.db c'.world.db) ∧
        (¬ Commits pid ev → c'.world.db = c.world.db)) ∧
    ∀ {p q a b x}, accounts τ p = some a → accounts τ q = some b → a.commits ≠ 0 → b.commits ≠ 0 →
      a.kind.scope c.world.db = some x → b.kind.scope c.world.db = some x → p = q := by
  have ⟨ho, hset⟩ := accounts_of_trace h.trace
  refine ⟨fun {pid a} ha hr => ⟨hset pid a ha hr, fun {ev c'} hs hpid => ⟨fun hc => ?_, ?_⟩⟩,
    (ledger_of_trace h.trace hq hp hk).unique⟩
  · rw [eq_of_commits hc] at hs
    obtain ⟨φ, hact⟩ := h.act hq hs trivial
    obtain ⟨a', ha', hop⟩ := ho _ φ hact.running
    obtain rfl : a' = a := Option.some.inj (ha'.symm.trans ha)
    exact hop.kind ▸ added_of_step hact hq hp (hop.kind ▸ hr)
  · exact db_of_not_commits hq h ha hr hs hpid

-- Two requests with the same key that both find no record: the second one fails. The rows are those
-- of the first one, and its job refers to its operation.
theorem requests_atomic_race :
    ∃ τ c, Sample.plane.Runs unguarded Sample.world τ c ∧
      (accounts τ 0).map Account.commits = some 1 ∧ (accounts τ 1).map Account.commits = some 0 ∧
      c.world.db.peers.map (fun p => (p.id, p.tenantID, p.nodeID)) = [(10, 4, 2)] ∧
      c.world.db.operations.map (fun o => (o.id, o.peerID, o.nodeID)) = [(11, some 10, 2)] ∧
      c.world.db.outbox.map (fun j => (j.operationID, j.aggregateID, j.nodeID)) = [(some 11, 10, 2)] ∧
      c.world.db.audit.map (fun a => (a.tenantID, a.after.id)) = [(4, 10)] ∧
      c.world.db.records.map (fun r => (r.tenantID, r.key, r.operationID)) = [(4, "k", some 11)] ∧
      ∀ {pid a}, accounts τ pid = some a → a.kind.IsRequest → a.Settled := by
  have h : ((Sample.plane.system.playAll (boot Sample.world)
      (.spawn 1 (.createPeer Sample.admin "t" "k" { externalID := "x" }) :: Sample.steps 1 5 ++
        Sample.create 0 "k" "x" ⟨"a", "b"⟩ 10 11 12 ++ Sample.steps 1 5 ++
        Sample.acts 1 [{ id := 13 }, {}] ++ [.done 1])).map
      fun r => decide (
        (accounts r.1 0).map Account.commits = some 1 ∧
          (accounts r.1 1).map Account.commits = some 0 ∧
        r.2.world.db.peers.map (fun p => (p.id, p.tenantID, p.nodeID)) = [(10, 4, 2)] ∧
        r.2.world.db.operations.map (fun o => (o.id, o.peerID, o.nodeID)) = [(11, some 10, 2)] ∧
        r.2.world.db.outbox.map (fun j => (j.operationID, j.aggregateID, j.nodeID)) =
          [(some 11, 10, 2)] ∧
        r.2.world.db.audit.map (fun a => (a.tenantID, a.after.id)) = [(4, 10)] ∧
        r.2.world.db.records.map (fun r => (r.tenantID, r.key, r.operationID)) =
          [(4, "k", some 11)])) =
      some true := by decide +kernel
  obtain ⟨⟨τ, c⟩, hp, hs⟩ := Option.map_eq_some_iff.mp h
  obtain ⟨hc₀, hc₁, hpeers, hops, hjobs, haudit, hrecs⟩ := of_decide_eq_true hs
  have hr : Sample.plane.Runs unguarded Sample.world τ c := System.playAll_run hp
  have hk : (Table.records.keys Sample.world.db).Nodup := List.nodup_nil
  have hat := requests_atomic ⟨fun _ => rfl, rfl⟩ List.Pairwise.nil hk hr
  exact ⟨τ, c, hr, hc₀, hc₁, hpeers, hops, hjobs, haudit, hrecs, fun ha hreq => (hat.1 ha hreq).1⟩

end ControlPlane
