import AwgRest.Discipline.Commands

open Domain Store Fallible Repo Auth

-- A second view of the requests: for which tenant they write.
namespace ControlPlane

def Kind.caller : Kind → Option (Option Principal)
  | createPeer caller .. => some caller
  | revokePeer caller .. => some caller
  | _ => none

-- The slug and the idempotency key of a request.
def Kind.names : Kind → Option (String × String)
  | createPeer _ slug key _   => some (slug, key)
  | revokePeer _ slug _ key _ => some (slug, key)
  | _ => none

-- A request looks up its own key, of the tenant that it names, and moves the cursor of the pool
-- that it has locked, which is one of that tenant. It commits only if its caller is authorised for
-- the tenant, and it leaves files alone.
def AllowsTenant (φ : Local) : Eff → Prop
  | .query (.lookup id key) =>
    φ.kind.IsRequest → ∃ t, φ.tenant = some t ∧ t.id = id ∧ φ.kind.names = some (t.slug, key)
  | .stmt (.updateCursor _ id) =>
    φ.kind.IsRequest → ∃ x pool t, φ.tx = some x ∧ x.pool = some pool ∧ pool.id = id ∧
      φ.tenant = some t ∧ pool.tenantID = t.id
  | .commit =>
    ∀ caller ∈ φ.kind.caller, ∃ t, φ.tenant = some t ∧
      authorizeTenant caller t.id Api.Service.writers = .ok ()
  | .openNew _ | .file _ => ¬ φ.kind.IsRequest
  | _ => True

def vetting : Protocol (fun e : Eff => Except Err e.Answer) Local where
  Allows  := AllowsTenant
  Answers := Answers
  next    := Local.next

variable {C : ControlPlane} {φ : Local} {α β σ : Type} {e : Eff} {k : Kind} {t : Tenant}

-- The program can be run wherever `I` holds, and `I` holds after it.
def Keeps (I : Local → Prop) (p : Act α) : Prop :=
  ∀ φ, I φ → p.run.Follows vetting (fun φ _ => I φ) φ

section Keeps

variable {I : Local → Prop}

theorem keeps_pure (a : α) : Keeps I (pure a) :=
  fun _ h => h

theorem keeps_throw (x : Err) : Keeps I (throw x : Act α) :=
  fun _ h => h

theorem keeps_bind {x : Act α} {f : α → Act β} (hx : Keeps I x) (hf : ∀ a, Keeps I (f a)) :
    Keeps I (x >>= f) := by
  intro φ h
  refine follows_bind_of <| (hx φ h).mono fun ψ r hψ => ?_
  cases r
  case error   => exact hψ
  case ok a    => exact hf a ψ hψ

theorem keeps_mapErr {f : Err → Err} {x : Act α} (hx : Keeps I x) : Keeps I (x.mapErr f) :=
  fun φ h => follows_mapErr.mpr (hx φ h)

theorem keeps_row (a : Option α) : Keeps I (row a) := by
  cases a
  case none   => exact keeps_throw _
  case some a => exact keeps_pure a

theorem keeps_check (x : Except Err α) : Keeps I (check x) := by
  cases x
  case error x => exact keeps_throw x
  case ok a    => exact keeps_pure a

end Keeps

-- The tenant of a request is known, and its transaction has begun.
structure Inside (k : Kind) (t : Tenant) (φ : Local) : Prop where
  kind   : φ.kind = k
  tenant : φ.tenant = some t
  tx     : φ.tx ≠ none

namespace Inside

theorem next (h : Inside k t φ) (he : (∃ q, e = .query q ∧ ∀ s, q ≠ .tenantBySlug s) ∨
    (∃ s, e = .stmt s) ∨ e.Silent) (r : Except Err e.Answer) : Inside k t (φ.next e r) := by
  refine ⟨Local.kind_next.trans h.kind, ?_, ?_⟩
  case refine_1 =>
    rcases he with ⟨q, rfl, hq⟩ | ⟨s, rfl⟩ | he
    · cases r <;> cases q <;> first | exact h.tenant | exact absurd rfl (hq _)
    · cases r <;> cases s <;> exact h.tenant
    · cases e <;> first | exact h.tenant | cases he
  case refine_2 =>
    obtain ⟨x, hx⟩ := Option.ne_none_iff_exists'.mp h.tx
    rcases he with ⟨q, rfl, -⟩ | ⟨s, rfl⟩ | he
    · cases r <;> cases q <;> exact h.tx
    · cases r <;> cases s <;> simp [Local.next, Local.wrote, Local.locked, hx]
    · cases e <;> first | exact h.tx | cases he

theorem lookup {key : String} (hk : k.names = some (t.slug, key)) :
    Keeps (Inside k t) (Repo.query (.lookup t.id key)) :=
  fun _ h => ⟨fun _ => ⟨t, h.tenant, rfl, h.kind ▸ hk⟩, fun r _ => h.next (.inl ⟨_, rfl, by simp⟩) r⟩

theorem stmt {s : Stmt} (hs : ∀ c id, s ≠ .updateCursor c id) : Keeps (Inside k t) (Repo.stmt s) := by
  refine fun φ h => ⟨?_, fun r _ => h.next (.inr (.inl ⟨s, rfl⟩)) r⟩
  cases s <;> first | exact trivial | exact absurd rfl (hs _ _)

theorem silent (he : e.Silent) (hf : ¬ e.OnFiles) : Keeps (Inside k t) (call e : Act e.Answer) := by
  refine fun φ h => ⟨?_, fun r _ => h.next (.inr (.inr he)) r⟩
  cases e <;> first | exact trivial | exact absurd trivial hf | cases he

theorem allocateAndInsert {ps : InsertParams} (ht : ps.tenantID = t.id) :
    Keeps (Inside k t) (Peers.allocateAndInsert ps) := by
  intro φ h
  obtain ⟨x, hx⟩ := Option.ne_none_iff_exists'.mp h.tx
  have hl (r) : Inside k t (φ.next (.stmt (.lockPool ps.nodeID ps.tenantID)) r) :=
    h.next (.inr (.inl ⟨_, rfl⟩)) r
  refine follows_bind_of <| follows_mapErr.mpr <|
    (follows_call (e := Eff.stmt (.lockPool ps.nodeID ps.tenantID))).mpr
      ⟨trivial, fun pool hr => ?_, fun x _ => hl (.error x)⟩
  cases pool
  case none      => exact hl (.ok none)
  case some pool =>
  obtain ⟨db, now, id, he⟩ := hr
  obtain ⟨-, -, hpt⟩ := lockPool_ok he
  have hi : Inside k t (φ.locked (some pool)) := hl (.ok (some pool))
  have hp : (φ.locked (some pool)).tx = some { x with pool := some pool } := by
    simp [Local.locked, hx]
  refine follows_bind_of <| follows_mapErr.mpr <|
    (follows_call (e := Eff.query (.usedAddrs ps.nodeID))).mpr ⟨trivial, fun used _ => ?_,
      fun _ _ => hi⟩
  simp only [Except.mapError, Then]
  split
  case h_1 => exact hi
  case h_2 => exact follows_bind_of ⟨trivial, fun r _ => by rcases r with e | ⟨⟨⟩⟩; exact hi⟩
  case h_3 a _ =>
    refine follows_bind_of <| follows_mapErr.mpr
      ⟨fun _ => ⟨_, pool, t, hp, rfl, rfl, hi.tenant, hpt.trans ht⟩, fun r _ => ?_⟩
    have hi' := hi.next (e := .stmt (.updateCursor a.nextCursor pool.id)) (.inr (.inl ⟨_, rfl⟩)) r
    cases r
    case error => exact hi'
    case ok    => exact keeps_mapErr (stmt (by simp)) _ hi'

theorem generateKeys {req : Api.CreatePeerRequest} :
    Keeps (Inside k t) (Api.Service.generateKeys req) := by
  have hpsk (pub priv : String) : Keeps (Inside k t)
      ((call Eff.randomKey : Act String) >>= fun psk => pure (pub, priv, psk)) :=
    keeps_bind (silent (e := .randomKey) trivial not_false) fun _ => keeps_pure _
  unfold Api.Service.generateKeys
  cases Api.Service.suppliedKey req
  case some key => exact hpsk key ""
  case none     =>
    exact keeps_bind (silent (e := .keyPair) trivial not_false) fun kp =>
      hpsk kp.publicKey kp.privateKey

theorem createPeerTx {n : Node} {pr : ProtocolProfile} {key hash : String}
    {req : Api.CreatePeerRequest} (hk : k.names = some (t.slug, key)) :
    Keeps (Inside k t) (C.service.createPeerTx t n pr key hash req) := by
  refine keeps_bind (lookup hk) fun rec => ?_
  split
  case h_1 =>
    split
    · exact keeps_throw _
    · exact keeps_pure _
  case h_2 =>
    refine keeps_bind generateKeys fun _ => keeps_bind (allocateAndInsert rfl) fun _ => ?_
    refine keeps_bind (stmt (by simp)) fun _ => keeps_bind (stmt (by simp)) fun _ => ?_
    refine keeps_bind (stmt (by simp)) fun _ => ?_
    refine keeps_bind (keeps_bind (silent (e := .timeNow) trivial not_false) fun _ => stmt (by simp))
      fun _ => ?_
    exact keeps_pure _

theorem revokePeerTx {pid : UUID} {key reason : String} (hk : k.names = some (t.slug, key)) :
    Keeps (Inside k t) (C.service.revokePeerTx t pid key reason) := by
  refine keeps_bind (lookup hk) fun rec => ?_
  split
  case h_1 =>
    split
    · exact keeps_throw _
    · exact keeps_pure _
  case h_2 =>
    refine keeps_bind (silent (e := .timeNow) trivial not_false) fun _ => ?_
    refine keeps_bind (stmt (by simp)) fun _ => keeps_bind (keeps_row _) fun peer => ?_
    split
    · exact keeps_throw _
    refine keeps_bind (stmt (by simp)) fun _ => keeps_bind (stmt (by simp)) fun _ => ?_
    refine keeps_bind (stmt (by simp)) fun _ => ?_
    refine keeps_bind (keeps_bind (silent (e := .timeNow) trivial not_false) fun _ => stmt (by simp))
      fun _ => ?_
    exact keeps_pure _

end Inside

-- A request ends with its transaction.
theorem follows_vetted {init : σ} {fn : Act (Option Err × σ)} (hk : φ.kind = k)
    (ht : φ.tenant = some t)
    (ha : ∀ caller ∈ k.caller, authorizeTenant caller t.id Api.Service.writers = .ok ())
    (hf : Keeps (Inside k t) fn) :
    (inTx init fn >>= Api.Service.reply).run.Follows vetting (fun _ _ => True) φ := by
  have hend (φ : Local) (r : Option Err × σ) :
      (Api.Service.reply r).run.Follows vetting (fun _ _ => True) φ := by
    obtain ⟨_ | e, s⟩ := r
    · exact trivial
    · simp only [Api.Service.reply]
      split <;> exact trivial
  refine follows_bind_of <| follows_bind_of <| follows_attempt.mpr <|
    (follows_call (e := Eff.begin)).mpr ⟨trivial, fun _ _ => ?_, fun _ _ => hend _ _⟩
  have hi : Inside k t { φ with tx := some {} } := ⟨hk, ht, Option.some_ne_none _⟩
  refine follows_bind_of <| follows_attempt.mpr <| (hf _ hi).mono fun ψ r hψ => ?_
  rcases r with e | ⟨_ | e, s⟩
  case ok.none =>
    refine follows_bind_of <| follows_attempt.mpr <| (follows_call (e := Eff.commit)).mpr
      ⟨fun caller hc => ⟨t, hψ.tenant, ha caller (hψ.kind ▸ hc)⟩, fun _ _ => hend _ _,
        fun _ _ => hend _ _⟩
  all_goals
    exact follows_bind_of <| follows_attempt.mpr <| (follows_call (e := Eff.rollback)).mpr
      ⟨trivial, fun _ _ => hend _ _, fun _ _ => hend _ _⟩

-- The caller and the tenant of a request are known, the tenant is the one that the request names, and
-- the caller is authorised.
structure Vetted (k : Kind) (t : Tenant) (φ : Local) : Prop where
  kind   : φ.kind = k
  tenant : φ.tenant = some t
  named  : ∀ {slug key}, k.names = some (slug, key) → k.names = some (t.slug, key)
  caller : ∀ caller ∈ k.caller, authorizeTenant caller t.id Api.Service.writers = .ok ()

namespace Vetted

theorem query {q : Query} (hq : ∀ s, q ≠ .tenantBySlug s) (hl : ∀ id key, q ≠ .lookup id key) :
    Keeps (Vetted k t) (Repo.query q) := by
  refine fun φ h => ⟨?_, fun r _ => ⟨Local.kind_next.trans h.kind, ?_, h.named, h.caller⟩⟩
  · cases q <;> first | exact trivial | exact absurd rfl (hl _ _)
  · cases r <;> cases q <;> first | exact h.tenant | exact absurd rfl (hq _)

theorem bind {x : Act α} {f : α → Act β} (hx : Keeps (Vetted k t) x)
    (hf : ∀ a φ, Vetted k t φ → (f a).run.Follows vetting (fun _ _ => True) φ) (h : Vetted k t φ) :
    (x >>= f).run.Follows vetting (fun _ _ => True) φ :=
  follows_bind_of <| (hx φ h).mono fun ψ r hψ => by
    cases r
    case error => exact trivial
    case ok a  => exact hf a ψ hψ

theorem resolveNode {req : Api.CreatePeerRequest} :
    Keeps (Vetted k t) (C.service.resolveNode req) := by
  unfold Api.Service.resolveNode
  cases req.nodeID
  case none    => exact keeps_bind (query (by simp) (by simp)) fun _ => keeps_row _
  case some id =>
    simp only
    cases C.service.parseUUID id
    case none    => exact keeps_throw _
    case some id => exact keeps_bind (query (by simp) (by simp)) fun _ => keeps_row _

end Vetted

-- What a request does once its tenant is found.
theorem follows_of_tenant {slug : String} {caller : Option Principal} {f : Tenant → Act α}
    (hk : φ.kind = k) (hc : k.caller = some caller)
    (hn : ∀ {s key}, k.names = some (s, key) → s = slug)
    (hf : ∀ t φ, Vetted k t φ → (f t).run.Follows vetting (fun _ _ => True) φ) :
    (do let t ← row (← Repo.query (.tenantBySlug slug))
        check (authorizeTenant caller t.id Api.Service.writers)
        f t : Act α).run.Follows vetting (fun _ _ => True) φ := by
  refine follows_bind_of ⟨trivial, fun r hr => ?_⟩
  rcases r with x | t
  case error => exact trivial
  refine follows_bind_of <| follows_row (fun {t} ht => ?_) trivial
  subst ht
  obtain ⟨db, now, hfind⟩ := hr
  have hslug : t.slug = slug := by simpa using List.find?_some hfind.symm
  refine follows_bind_of <| follows_check (fun {u} ha => ?_) (fun _ => trivial)
  refine hf t _ ⟨hk, rfl, fun h => ?_, fun c h => ?_⟩
  · rw [hslug, ← hn h, h]
  · cases hc.symm.trans h
    exact ha

theorem vetted_createPeer {caller : Option Principal} {slug key : String}
    {req : Api.CreatePeerRequest} (hk : φ.kind = .createPeer caller slug key req) :
    (C.service.createPeer caller slug key req).run.Follows vetting (fun _ _ => True) φ := by
  unfold Api.Service.createPeer
  split
  · exact trivial
  split
  · exact trivial
  refine follows_of_tenant hk rfl (fun h => (Prod.mk.inj (Option.some.inj h)).1.symm) fun t φ =>
    Vetted.bind Vetted.resolveNode fun n φ h => ?_
  split
  case h_1   => exact trivial
  case h_2 p =>
    refine h.bind (Vetted.query (by simp) (by simp)) fun pr φ =>
      Vetted.bind (keeps_row _) fun pr φ => ?_
    refine Vetted.bind (keeps_check _) fun _ φ => Vetted.bind (keeps_check _) fun _ φ h => ?_
    exact follows_vetted h.kind h.tenant h.caller (Inside.createPeerTx (h.named rfl))

theorem vetted_revokePeer {caller : Option Principal} {slug peerID key reason : String}
    (hk : φ.kind = .revokePeer caller slug peerID key reason) :
    (C.service.revokePeer caller slug peerID key reason).run.Follows vetting (fun _ _ => True) φ := by
  unfold Api.Service.revokePeer
  split
  · exact trivial
  refine follows_of_tenant hk rfl (fun h => (Prod.mk.inj (Option.some.inj h)).1.symm) fun t φ h => ?_
  split
  case h_1 => exact trivial
  case h_2 => exact follows_vetted h.kind h.tenant h.caller (Inside.revokePeerTx (h.named rfl))

-- The other processes have no caller.
theorem vetted_other {p : Prog (fun e : Eff => Except Err e.Answer) β} (hk : ¬ φ.kind.IsRequest) :
    p.Follows vetting (fun _ _ => True) φ := by
  induction p generalizing φ
  case ret => exact trivial
  case op e k ih =>
    refine ⟨?_, fun r _ => ih r (by rwa [show (vetting.next φ e r).kind = φ.kind from Local.kind_next])⟩
    have hc : φ.kind.caller = none := by
      cases h : φ.kind <;> first | rfl | exact absurd rfl (h ▸ hk)
    cases e <;> first
      | exact trivial
      | exact hk
      | case commit => exact fun caller h => by simp [hc] at h
      | case query q => cases q <;> first | exact trivial | exact fun h => absurd h hk
      | case stmt s => cases s <;> first | exact trivial | exact fun h => absurd h hk

-- Every program keeps to this protocol too.
theorem vetting_answers {C : ControlPlane} {x : Choice} {pid : Nat} {w w' : World} {e : Eff}
    {r : Except Err e.Answer} (h : C.system.exec x pid w e = some (r, w')) : vetting.Answers e r :=
  answers_of_acts (World.acts_of_exec h)

def tenancy (C : ControlPlane) : C.system.Discipline Local where
  toProtocol := vetting
  init       := fun k => { kind := k }
  Post       := fun _ _ => True
  answers    := vetting_answers
  follows    := fun k => by
    cases k
    case createPeer =>
      exact follows_bind_of <| (vetted_createPeer rfl).mono fun _ r _ => by cases r <;> exact trivial
    case revokePeer =>
      exact follows_bind_of <| (vetted_revokePeer rfl).mono fun _ r _ => by cases r <;> exact trivial
    all_goals exact vetted_other Bool.false_ne_true

end ControlPlane
