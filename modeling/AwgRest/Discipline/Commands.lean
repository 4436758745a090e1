import AwgRest.Discipline.Requests
import AwgRest.Discipline.Workers

open Domain Netip Store Fallible Repo

namespace ControlPlane

variable {C : ControlPlane} {φ : Local} {α : Type}

theorem follows_ensureFree {q : Query} {inUse : q.Answer → Bool} {what : String}
    {Q : Local → Except Err Unit → Prop} (hq : AllowsQuery φ q)
    (hn : ∀ a, φ.next (.query q) (.ok a) = φ)
    (hok : Q φ (.ok ())) (herr : ∀ {x}, Q φ (.error x)) :
    (Bootstrap.ensureFree q inUse what).run.Follows C.protocol Q φ := by
  refine follows_bind_of <| follows_query hq (fun db now => ?_) (fun _ => herr)
  rw [hn]
  simp only [Then]
  split
  case _ => exact herr
  case _ => exact hok

theorem follows_ensureV31ProvisioningAvailable {o : Bootstrap.V31NodeOptions} {pool : Prefix}
    {Q : Local → Except Err Unit → Prop} (hok : Q φ (.ok ())) (herr : ∀ {x}, Q φ (.error x)) :
    (Bootstrap.ensureV31ProvisioningAvailable o pool).run.Follows C.protocol Q φ := by
  refine follows_bind_of <| follows_ensureFree trivial (fun _ => rfl) ?_ herr
  refine follows_bind_of <| follows_ensureFree trivial (fun _ => rfl) ?_ herr
  refine follows_bind_of <| follows_ensureFree trivial (fun _ => rfl) ?_ herr
  refine follows_bind_of <| follows_ensureFree trivial (fun _ => rfl) ?_ herr
  exact follows_ensureFree trivial (fun _ => rfl) hok herr

-- Files are of no concern to the other processes.

theorem follows_tryFile {what : String} {op : FileOp} {Q : Local → Except Err Unit → Prop}
    (hok : Q φ (.ok ())) (herr : ∀ {x}, Q φ (.error x)) :
    (Bootstrap.tryFile what op).run.Follows C.protocol Q φ := by
  refine follows_bind_of <| follows_silent (e := .file op) trivial (fun a => ?_) (fun _ => herr)
  cases a
  case none   => exact hok
  case some e => exact herr

theorem follows_finishFile {path : String} {f : Nat} {r : Except Err Unit}
    {Q : Local → Except Err Unit → Prop} (hok : Q φ (.ok ())) (herr : ∀ {x}, Q φ (.error x)) :
    (Bootstrap.finishFile path f r).run.Follows C.protocol Q φ := by
  refine follows_bind_of <| follows_silent (e := .file _) trivial (fun _ => ?_) (fun _ => herr)
  cases r
  case ok      => exact hok
  case error e =>
    exact follows_bind_of <| follows_silent (e := .file _) trivial (fun _ => herr) (fun _ => herr)

theorem follows_writeBootstrapConfigExclusive {path : String} {config : List Char}
    {Q : Local → Except Err Unit → Prop} (hok : Q φ (.ok ())) (herr : ∀ {x}, Q φ (.error x)) :
    (Bootstrap.writeBootstrapConfigExclusive path config).run.Follows C.protocol Q φ := by
  refine follows_bind_of <| follows_tryFile ?_ herr
  refine follows_bind_of <| follows_silent (e := .openNew path) trivial (fun a => ?_) (fun _ => herr)
  cases a
  case present  => exact herr
  case failed e => exact herr
  case new f    =>
    have hend (r : Except Err Unit) : (Bootstrap.finishFile path f r).run.Follows C.protocol Q φ :=
      follows_finishFile hok herr
    refine follows_bind_of <| follows_attempt.mpr ?_
    refine follows_bind_of <| follows_tryFile ?_ fun {x} => hend (.error x)
    refine follows_bind_of <| follows_tryFile ?_ fun {x} => hend (.error x)
    exact follows_tryFile (hend (.ok ())) fun {x} => hend (.error x)

theorem follows_provisionTx {o opts : Bootstrap.V31NodeOptions} {tenant : Option Tenant} {tn : Tenant}
    {pool : Prefix} {profile : ProtocolProfile} {key path : String} {config : List Char}
    {Q : Local → Except Err (Option Err × Bool × Bootstrap.V31NodeResult) → Prop}
    (hv : profile.protocolVersion = .v31)
    (hQ : ∀ {effect r}, Q { kind := .provision opts, tenant := tenant, effect := effect } r) :
    (C.bootstrap.provisionTx o tn pool profile key path config).run.Follows C.protocol
      (AtEnd C (false, {}) Q) { kind := .provision opts, tenant := tenant, tx := some {} } := by
  have herr {t : TxLocal} {x : Err} : AtEnd C (false, {}) Q
      { kind := .provision opts, tenant := tenant, tx := some t } (.error x) :=
    ⟨Option.some_ne_none _, hQ⟩
  refine follows_bind_of <| follows_mapErr.mpr <| follows_write rfl trivial (by simp) (fun _ => ?_)
    (fun _ => herr)
  refine follows_bind_of <| follows_ensureV31ProvisioningAvailable ?_ herr
  refine follows_bind_of <| follows_mapErr.mpr ?_
  unfold Bootstrap.insertProfile
  split
  case _ =>
    refine follows_write rfl trivial (by simp) (fun {_ _ _ p} hp => ?_) (fun _ => herr)
    have ⟨_, _, hp⟩ := insert_ok hp
    refine follows_bind_of <| follows_mapErr.mpr <| follows_write rfl trivial (by simp)
      (fun {_ _ _ n} hn => ?_) (fun _ => herr)
    have ⟨_, _, hn⟩ := insert_ok hn
    refine follows_bind_of <| follows_mapErr.mpr <| follows_write rfl trivial (by simp)
      (fun {_ _ _ pl} hpl => ?_) (fun _ => herr)
    have ⟨_, _, hpl⟩ := insert_ok hpl
    refine follows_bind_of <| follows_writeBootstrapConfigExclusive ?_ herr
    refine ⟨_, rfl, ?_, hQ, fun _ _ => hQ⟩
    exact .provision rfl (by simp [hp, hv]) (by simp [hn]) (by simp [hpl])
  case _ => exact herr

theorem follows_provisionV31Node {o : Bootstrap.V31NodeOptions} :
    (C.bootstrap.provisionV31Node o).run.Follows C.protocol (fun φ _ => Idle (.provision o) φ)
      { kind := .provision o } := by
  have hi {tenant effect} :
      Idle (.provision o) { kind := .provision o, tenant := tenant, effect := effect } :=
        ⟨rfl, rfl, rfl⟩
  unfold Bootstrap.provisionV31Node
  generalize Bootstrap.normalizeV31NodeOptions o = o'
  refine follows_bind_of <| follows_check (fun _ => ?_) (fun _ => hi)
  refine follows_bind_of <| follows_check (fun _ => ?_) (fun _ => hi)
  refine follows_bind_of <| follows_mapErr.mpr <| follows_bind_of <|
    follows_query rfl (fun db now => ?_) (fun _ => hi)
  refine follows_row (fun {t} ht => ?_) hi
  refine follows_bind_of <| follows_mapErr.mpr <|
    follows_silent (e := .randomKey) trivial (fun hpk => ?_) (fun _ => hi)
  refine follows_bind_of <| follows_mapErr.mpr <|
    follows_silent (e := .keyPair) trivial (fun kp => ?_) (fun _ => hi)
  simp only [Then, Except.mapError]
  split
  case _ =>
    refine follows_bind_of <| follows_check (fun _ => ?_) (fun _ => hi)
    refine follows_bind_of <| follows_inTx rfl (fun _ => ?_) <| follows_provisionTx rfl ?_
    · exact hi
    · rintro effect (e | ⟨_ | e, created, r⟩)
      case error   => exact hi
      case ok.none => exact hi
      case ok.some =>
        cases created
        case false => exact hi
        case true  =>
          exact follows_bind_of <| follows_silent (e := .file _) trivial (fun _ => hi) (fun _ => hi)
  case _ => exact hi

-- The transactions of the peer repository by themselves.

theorem follows_allocate {ps : InsertParams} {commit : Bool} :
    (allocate ps commit).run.Follows C.protocol (fun φ _ => Idle (.allocate ps commit) φ)
      { kind := .allocate ps commit } := by
  have hi {effect} : Idle (.allocate ps commit) { kind := .allocate ps commit, effect := effect } :=
    ⟨rfl, rfl, rfl⟩
  refine follows_bind_of <| follows_inTx rfl (fun _ => hi) <| follows_bind_of <|
    follows_allocateAndInsert rfl nofun rfl rfl (fun {pool cursor p} _ => ?_) (fun _ => ?_)
  · cases commit
    case false => exact ⟨Option.some_ne_none _, hi⟩
    case true  => exact ⟨_, rfl, .allocate rfl, hi, fun _ _ => hi⟩
  · exact ⟨Option.some_ne_none _, hi⟩

theorem follows_markRevoked {id : UUID} {at_ : Time} :
    (markRevoked id at_).run.Follows C.protocol (fun φ _ => Idle (.markRevoked id at_) φ)
      { kind := .markRevoked id at_ } := by
  have hi {effect} : Idle (.markRevoked id at_) { kind := .markRevoked id at_, effect := effect } :=
    ⟨rfl, rfl, rfl⟩
  refine follows_bind_of <| follows_inTx rfl (fun _ => hi) <| follows_bind_of <|
    follows_write rfl ⟨Bool.false_ne_true, Bool.false_ne_true, rfl⟩ (by simp)
      (fun {_ _ _ p} _ => ?_) (fun _ => ?_)
  · refine follows_bind_of <| follows_row (fun {p} hp => ?_) ⟨Option.some_ne_none _, hi⟩
    subst hp
    exact ⟨_, rfl, .markRevoked rfl, hi, fun _ _ => hi⟩
  · exact ⟨Option.some_ne_none _, hi⟩

theorem post_of_idle {k : Kind} (hk : ¬ k.IsRequest) (hi : Idle k φ) (b : Except Err Result) :
    Post φ b :=
  ⟨hi.tx, fun h => absurd (hi.kind ▸ h) hk, fun _ => hi.due⟩

theorem follows_post {k : Kind} (hk : ¬ k.IsRequest) {x : Act α} {f : α → Result}
    (h : x.run.Follows C.protocol (fun φ _ => Idle k φ) φ) :
    (x >>= fun a => pure (f a)).run.Follows C.protocol Post φ :=
  follows_bind_of <| h.mono fun φ r hi => by cases r <;> exact post_of_idle hk hi _

theorem follows_answered {σ : Type} {result : σ → Result} {x : Act σ} (hk : ¬ φ.kind.IsWorker)
    (h : x.run.Follows C.protocol (Returns result) φ) :
    (x >>= fun s => pure (result s)).run.Follows C.protocol Post φ :=
  follows_bind_of <| (follows_kind h).mono fun ψ r ⟨hr, hψ⟩ => by
    have hw (h : ψ.kind.IsWorker) : ψ.due = none := absurd (hψ ▸ h) hk
    cases r <;> exact ⟨hr.1, fun _ => hr.2, hw⟩

theorem follows_prog (k : Kind) : (C.prog k).run.Follows C.protocol Post { kind := k } := by
  cases k
  case createPeer   => exact follows_answered Bool.false_ne_true follows_createPeer
  case revokePeer   => exact follows_answered Bool.false_ne_true follows_revokePeer
  case runOnce      => exact follows_post (k := .runOnce) nofun (follows_runOnce rfl ⟨rfl, rfl, rfl⟩ id)
  case run n        =>
    exact follows_post (k := .run n) nofun (follows_run (k := .run n) rfl ⟨rfl, rfl, rfl⟩ (fun hi => hi) n)
  case reconcile n  => exact follows_post (k := .reconcile n) nofun (follows_reconcile rfl ⟨rfl, rfl, rfl⟩ id)
  case reconcileAll =>
    exact follows_post (k := .reconcileAll) nofun (follows_reconcileAll rfl ⟨rfl, rfl, rfl⟩ id)
  case provision o  => exact follows_post (k := .provision o) nofun follows_provisionV31Node
  case allocate ps c =>
    exact follows_allocate.mono fun _ _ hi => post_of_idle (k := .allocate ps c) nofun hi _
  case markRevoked id t =>
    exact follows_markRevoked.mono fun _ _ hi => post_of_idle (k := .markRevoked id t) nofun hi _

theorem answers_of_acts {pid : Nat} {w w' : World} {e : Eff} {r : Except Err e.Answer}
    (h : World.Acts pid w e r w') : Answers e r := by
  cases h
  case failed hx hf => cases e <;> first | exact hx | exact absurd trivial hf
  case query        => exact ⟨_, _, rfl⟩
  case stmt ha _    => exact ⟨_, _, _, ha⟩
  case lost hx      => exact hx
  case auto         => exact ⟨_, _, _, rfl⟩
  case silent he    => cases e <;> trivial
  all_goals trivial

-- Every program keeps to the protocol, and the world answers as the protocol assumes.
def discipline (C : ControlPlane) : C.system.Discipline Local where
  toProtocol := C.protocol
  init       := fun k => { kind := k }
  Post       := Post
  answers    := fun h => answers_of_acts (World.acts_of_exec h)
  follows    := follows_prog

end ControlPlane
