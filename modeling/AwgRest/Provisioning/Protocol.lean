import AwgRest.Discipline.Commands
import AwgRest.Provisioning

open Domain Netip Store Fallible Repo

-- What a command has done so far, and what it does then.
namespace Bootstrap

-- A file that a command has created and not removed, and its text once it is complete.
structure Held where
  path   : String
  number : Nat
  text   : Option (List Char) := none

structure Progress where
  opts      : V31NodeOptions
  key       : Option String := none
  keyPair   : Option Crypto.KeyPair := none
  tx        : Option (List Write) := none
  -- Whether the transaction has the advisory lock, and what it has found to be free since.
  locked    : Bool := false
  clear     : List Query := []
  -- The file that was created, the same as long as it has not been removed, and whether a removal
  -- failed.
  opened    : Option Nat := none
  file      : Option Held := none
  stuck     : Bool := false
  committed : Option (List Write) := none

def cleared : (q : Query) → q.Answer → List Query
  | .profileExists s,  false => [.profileExists s]
  | .hostnameExists s, false => [.hostnameExists s]
  | .ifaceExists s,    false => [.ifaceExists s]
  | .portExists n,     false => [.portExists n]
  | .poolOverlaps c,   false => [.poolOverlaps c]
  | _,                 _     => []

-- What the checks for an entry ask.
def Entry.checks (e : Entry) : List Query :=
  [.profileExists e.profile.name, .hostnameExists e.node.hostname, .ifaceExists e.node.interfaceName,
    .portExists e.node.basePort, .poolOverlaps e.pool.cidr]

def IsCheck : Query → Prop
  | .profileExists _ | .hostnameExists _ | .ifaceExists _ | .portExists _ | .poolOverlaps _ => True
  | _ => False

namespace Progress

def learn (φ : Progress) : (e : Eff) → Except Err e.Answer → Progress
  | .randomKey,                   .ok k         => { φ with key := some k }
  | .keyPair,                     .ok kp        => { φ with keyPair := some kp }
  | .query q,                     .ok a         => { φ with clear := φ.clear ++ cleared q a }
  | .stmt .advisoryLock,          .ok _         => { φ with locked := true }
  | .commit,                      .ok _         =>
    { φ with locked := false, clear := [], committed := φ.tx }
  | .commit,                      .error _      => { φ with locked := false, clear := [] }
  | .rollback,                    _             => { φ with locked := false, clear := [] }
  | .openNew path,                .ok (.new f)  =>
    { φ with opened := some f, file := some { path := path, number := f } }
  | .file (.writeString _ _ text), .ok none     =>
    { φ with file := φ.file.map fun h => { h with text := some text } }
  | .file (.remove _),            .ok none      => { φ with file := none }
  | .file (.remove _),            .ok (some _)  => { φ with stuck := true }
  | _,                            _             => φ

def next (φ : Progress) (e : Eff) (r : Except Err e.Answer) : Progress :=
  { φ.learn e r with tx := track φ.tx e r }

-- Everything that can be learned, apart from what is written in a transaction.
inductive Learns (φ : Progress) : (e : Eff) → Except Err e.Answer → Progress → Prop
  | key {k} : Learns φ .randomKey (.ok k) { φ with key := some k }
  | keyPair {kp} : Learns φ .keyPair (.ok kp) { φ with keyPair := some kp }
  | query {q a} : Learns φ (.query q) (.ok a) { φ with clear := φ.clear ++ cleared q a }
  | lock {a} : Learns φ (.stmt .advisoryLock) (.ok a) { φ with locked := true }
  | commit {a} :
    Learns φ .commit (.ok a) { φ with locked := false, clear := [], committed := φ.tx }
  | lost {x} : Learns φ .commit (.error x) { φ with locked := false, clear := [] }
  | rollback {r} : Learns φ .rollback r { φ with locked := false, clear := [] }
  | opened {path f} :
    Learns φ (.openNew path) (.ok (.new f))
      { φ with opened := some f, file := some { path := path, number := f } }
  | written {path f text} :
    Learns φ (.file (.writeString path f text)) (.ok none)
      { φ with file := φ.file.map fun h => { h with text := some text } }
  | removed {path} : Learns φ (.file (.remove path)) (.ok none) { φ with file := none }
  | stuck {path x} : Learns φ (.file (.remove path)) (.ok (some x)) { φ with stuck := true }
  | same {e r} : e ≠ .commit → e ≠ .rollback → Learns φ e r φ

theorem learned (φ : Progress) (e : Eff) (r : Except Err e.Answer) :
    ∃ ψ, φ.Learns e r ψ ∧ φ.next e r = { ψ with tx := track φ.tx e r } := by
  refine ⟨φ.learn e r, ?_, rfl⟩
  cases e
  case randomKey => cases r <;> first | exact .key | exact .same nofun nofun
  case keyPair   => cases r <;> first | exact .keyPair | exact .same nofun nofun
  case query     => cases r <;> first | exact .query | exact .same nofun nofun
  case stmt s    => cases r <;> cases s <;> first | exact .lock | exact .same nofun nofun
  case commit    => cases r <;> first | exact .commit | exact .lost
  case rollback  => exact .rollback
  case openNew   => rcases r with _ | _ | _ | _ <;> first | exact .opened | exact .same nofun nofun
  case file op   =>
    cases op <;> rcases r with _ | _ | _ <;> first
      | exact .written
      | exact .removed
      | exact .stuck
      | exact .same nofun nofun
  all_goals cases r <;> exact .same nofun nofun

end Progress

variable (b : Bootstrap)

-- The file is complete, and `e` is what the command is to insert.
inductive Complete (φ : Progress) : Entry → Prop
  | mk {d e text f} :
    b.Makes φ.opts d e text → φ.key = some d.key → φ.keyPair = some d.keyPair →
    φ.opened = some f → φ.file = some ⟨b.configPath φ.opts, f, some text⟩ → Complete φ e

-- Nothing is left of what the command has done.
def Undone (φ : Progress) : Prop :=
  φ.committed = none ∧ (φ.file = none ∨ φ.stuck = true)

def Allows (φ : Progress) : Eff → Prop
  | .randomKey => φ.key = none
  | .keyPair => φ.keyPair = none
  | .query q => IsCheck q → φ.tx = some [] ∧ φ.locked = true
  | .commit =>
    ∃ e, b.Complete φ e ∧ φ.tx = some e.writes ∧ φ.locked = true ∧ e.checks ⊆ φ.clear ∧
      φ.committed = none
  | .openNew path => path = b.configPath φ.opts ∧ φ.opened = none ∧ φ.file = none
  | .file (.writeString path f _) => φ.file = some { path := path, number := f }
  | .file (.remove path) => ∃ h, φ.file = some h ∧ h.path = path ∧ φ.committed = none
  | .auto _ => False
  | _ => True

def Answers : (e : Eff) → Except Err e.Answer → Prop
  | .openNew _, .error _ => False
  | .file _,    .error _ => False
  | e,          r        => ControlPlane.Answers e r

-- A command that succeeds has committed and leaves its file, and another one leaves nothing.
def Post (φ : Progress) : Except Err V31NodeResult → Prop
  | .ok _    => φ.tx = none ∧ ∃ e, φ.committed = some e.writes ∧ b.Complete φ e
  | .error _ => φ.tx = none ∧ Undone φ

def protocol : Protocol (fun e : Eff => Except Err e.Answer) Progress where
  Allows  := b.Allows
  Answers := Answers
  next    := Progress.next

section Rules

variable {b : Bootstrap} {φ : Progress}

theorem follows_eff {e : Eff} {Q : Progress → Except Err e.Answer → Prop} (ha : b.Allows φ e)
    (h : ∀ r, Answers e r → Q (φ.next e r) r) : (call e : Act e.Answer).run.Follows b.protocol Q φ :=
  follows_call.mpr ⟨ha, fun a => h (.ok a), fun x => h (.error x)⟩

theorem follows_tryFile {what : String} {op : FileOp} {Q : Progress → Except Err Unit → Prop}
    (ha : b.Allows φ (.file op)) (hok : Q (φ.next (.file op) (.ok none)) (.ok ()))
    (herr : ∀ {x e}, Q (φ.next (.file op) (.ok (some x))) (.error e)) :
    (tryFile what op).run.Follows b.protocol Q φ := by
  refine follows_bind_of <| follows_eff ha ?_
  rintro (x | _ | x) hr
  case error   => exact hr.elim
  case ok.none => exact hok
  case ok.some => exact herr

theorem follows_finishFile {path : String} {f : Nat} {h : Held} {r : Except Err Unit}
    {Q : Progress → Except Err Unit → Prop} (hh : φ.file = some h) (hp : h.path = path)
    (hc : φ.committed = none) (hok : r = .ok () → Q φ (.ok ()))
    (herr : ∀ {ψ x}, Undone ψ → Q ψ (.error x)) :
    (finishFile path f r).run.Follows b.protocol Q φ := by
  refine follows_bind_of <| follows_eff trivial ?_
  rintro (x | a) hr
  case error => exact hr.elim
  case ok    =>
    cases r
    case ok      => exact hok rfl
    case error e =>
      refine follows_bind_of <| follows_eff ⟨h, hh, hp, hc⟩ ?_
      rintro (x | _ | x) hr
      case error   => exact hr.elim
      case ok.none => exact herr ⟨hc, .inl rfl⟩
      case ok.some => exact herr ⟨hc, .inr rfl⟩

-- The part of `writeBootstrapConfigExclusive` that may leave a file that is not complete.
theorem follows_written {path : String} {f : Nat} {config : List Char}
    {Q : Progress → Except Err Unit → Prop} (hf : φ.file = some { path := path, number := f })
    (hok : Q { φ with file := some ⟨path, f, some config⟩ } (.ok ()))
    (herr : ∀ {text x}, Q { φ with file := some ⟨path, f, text⟩ } (.error x)) :
    (do tryFile "write bootstrap config: " (.writeString path f config)
        tryFile "sync bootstrap config: " (.sync f)
        tryFile "close bootstrap config: " (.close f) : Act Unit).run.Follows b.protocol Q φ := by
  have hw : φ.next (.file (.writeString path f config)) (.ok none) =
      { φ with file := some ⟨path, f, some config⟩ } := by
    simp [Progress.next, Progress.learn, track, hf]
  have hn : φ = { φ with file := some { path := path, number := f } } := by rw [← hf]
  refine follows_bind_of <| follows_tryFile hf ?_ (fun {x e} => ?_)
  · rw [hw]
    refine follows_bind_of <| follows_tryFile trivial ?_ herr
    exact follows_tryFile trivial hok herr
  · exact hn ▸ herr

theorem follows_writeBootstrapConfigExclusive {config : List Char}
    {Q : Progress → Except Err Unit → Prop} (ho : φ.opened = none) (hf : φ.file = none)
    (hc : φ.committed = none)
    (hok : ∀ {f},
      Q { φ with opened := some f, file := some ⟨b.configPath φ.opts, f, some config⟩ } (.ok ()))
    (herr : ∀ {ψ x}, Undone ψ → Q ψ (.error x)) :
    (writeBootstrapConfigExclusive (b.configPath φ.opts) config).run.Follows b.protocol Q φ := by
  have hu : Undone φ := ⟨hc, .inl hf⟩
  refine follows_bind_of <| follows_tryFile trivial ?_ (herr hu)
  refine follows_bind_of <| follows_eff ⟨rfl, ho, hf⟩ ?_
  rintro (x | f | _ | e) hr
  case error      => exact hr.elim
  case ok.present => exact herr hu
  case ok.failed  => exact herr hu
  case ok.new     =>
    have hend (text : Option (List Char)) (r : Except Err Unit) (ht : r = .ok () → text = some config) :
        (finishFile (b.configPath φ.opts) f r).run.Follows b.protocol Q
          { φ with opened := some f, file := some ⟨b.configPath φ.opts, f, text⟩ } := by
      refine follows_finishFile rfl rfl hc (fun hr => ?_) herr
      cases ht hr
      exact hok
    exact follows_bind_of <| follows_attempt.mpr <| follows_written rfl
      (hend (some config) (.ok ()) fun _ => rfl) fun {text x} => hend text (.error x) nofun

theorem follows_ensureFree {q : Query} {inUse : q.Answer → Bool} {what : String}
    {Q : Progress → Except Err Unit → Prop} (ht : φ.tx = some []) (hl : φ.locked = true)
    (hq : ∀ {a}, inUse a = false → cleared q a = [q]) (hu : Undone φ)
    (hok : Q { φ with clear := φ.clear ++ [q] } (.ok ()))
    (herr : ∀ {ψ x}, Undone ψ → Q ψ (.error x)) :
    (ensureFree q inUse what).run.Follows b.protocol Q φ := by
  refine follows_bind_of <| follows_eff (fun _ => ⟨ht, hl⟩) ?_
  rintro (x | a) hr
  case error => exact herr hu
  case ok    =>
    simp only [Then]
    split
    case isTrue  => exact herr hu
    case isFalse ha =>
      have hn : φ.next (.query q) (.ok a) = { φ with clear := φ.clear ++ [q] } := by
        rw [← hq (Bool.eq_false_of_not_eq_true ha)]
        rfl
      rw [hn]
      exact hok

theorem follows_ensureV31ProvisioningAvailable {o : V31NodeOptions} {pool : Prefix}
    {Q : Progress → Except Err Unit → Prop} (ht : φ.tx = some []) (hl : φ.locked = true)
    (hc : φ.clear = []) (hu : Undone φ)
    (hok : Q { φ with clear := [.profileExists o.profileName, .hostnameExists o.nodeHostname,
        .ifaceExists o.nodeIface, .portExists o.nodeBasePort, .poolOverlaps pool] } (.ok ()))
    (herr : ∀ {ψ x}, Undone ψ → Q ψ (.error x)) :
    (ensureV31ProvisioningAvailable o pool).run.Follows b.protocol Q φ := by
  refine follows_bind_of <| follows_ensureFree ht hl (by rintro _ ⟨⟩; rfl) hu ?_ herr
  refine follows_bind_of <| follows_ensureFree ht hl (by rintro _ ⟨⟩; rfl) hu ?_ herr
  refine follows_bind_of <| follows_ensureFree ht hl (by rintro _ ⟨⟩; rfl) hu ?_ herr
  refine follows_bind_of <| follows_ensureFree ht hl (by rintro _ ⟨⟩; rfl) hu ?_ herr
  refine follows_ensureFree ht hl (by rintro _ ⟨⟩; rfl) hu ?_ herr
  simpa [hc] using hok

theorem follows_stmt {s : Stmt} {Q : Progress → Except Err s.Answer → Prop}
    (hok : ∀ {db now id a}, s.eval db now id = some (.ok a) → Q (φ.next (.stmt s) (.ok a)) (.ok a))
    (herr : ∀ {x}, Q φ (.error x)) : (stmt s).run.Follows b.protocol Q φ := by
  refine follows_eff (e := .stmt s) trivial ?_
  rintro (x | a) hr
  case error => cases s <;> exact herr
  case ok    =>
    obtain ⟨db, now, id, h⟩ := hr
    exact hok h

theorem follows_lock {ws : List Write} {Q : Progress → Except Err Unit → Prop} (ht : φ.tx = some ws)
    (hok : Q { φ with locked := true } (.ok ())) (herr : ∀ {x}, Q φ (.error x)) :
    (stmt .advisoryLock).run.Follows b.protocol Q φ := by
  refine follows_stmt (fun _ => ?_) herr
  have hn : φ.next (.stmt .advisoryLock) (.ok ()) = { φ with locked := true } := by
    simp [Progress.next, Progress.learn, track, ht, Stmt.writes]
  exact hn ▸ hok

theorem follows_write {s : Stmt} {ws : List Write} {Q : Progress → Except Err s.Answer → Prop}
    (hs : s ≠ .advisoryLock) (ht : φ.tx = some ws)
    (hok : ∀ {db now id a}, s.eval db now id = some (.ok a) →
      Q { φ with tx := some (ws ++ s.writes a) } (.ok a))
    (herr : ∀ {x}, Q φ (.error x)) : (stmt s).run.Follows b.protocol Q φ := by
  refine follows_stmt (fun {db now id a} h => ?_) herr
  have hn : φ.next (.stmt s) (.ok a) = { φ with tx := some (ws ++ s.writes a) } := by
    cases s <;> first
      | exact absurd rfl hs
      | simp [Progress.next, Progress.learn, track, ht]
  exact hn ▸ hok h

-- The three inserts, and the file after them.
theorem follows_provisionTx (key : String) {o : V31NodeOptions} {tenant : Tenant} {pool : Prefix}
    {kp : Crypto.KeyPair} {profile : ProtocolProfile} {config : List Char}
    {Q : Progress → Except Err (Option Err × Bool × V31NodeResult) → Prop}
    (ho : φ.opts = o) (ht : φ.tx = some []) (hc : φ.clear = []) (hfile : φ.file = none)
    (hopen : φ.opened = none) (hcom : φ.committed = none)
    (hok : ∀ {p n pl f r}, Ends b.protocol (false, {}) Q
      { φ with
        tx     := some (b.v31Rows o pool ⟨key, kp, tenant.id, p, n, pl⟩ profile).writes
        locked := true
        clear  := [.profileExists o.profileName, .hostnameExists o.nodeHostname,
          .ifaceExists o.nodeIface, .portExists o.nodeBasePort, .poolOverlaps pool]
        opened := some f
        file   := some ⟨b.configPath o, f, some config⟩ } (.ok (none, true, r)))
    (herr : ∀ {ψ x}, Undone ψ → Ends b.protocol (false, {}) Q ψ (.error x)) :
    (b.provisionTx o tenant pool profile kp.publicKey (b.configPath o) config).run.Follows b.protocol
      (Ends b.protocol (false, {}) Q) φ := by
  subst ho
  have hu : Undone φ := ⟨hcom, .inl hfile⟩
  refine follows_bind_of <| follows_mapErr.mpr <| follows_lock ht ?_ (herr hu)
  refine follows_bind_of <| follows_ensureV31ProvisioningAvailable ht rfl hc hu ?_ herr
  refine follows_bind_of <| follows_mapErr.mpr ?_
  unfold insertProfile
  split
  case _ =>
    refine follows_write nofun ht (fun {_ _ _ p} hp => ?_) (herr hu)
    obtain ⟨-, -, rfl⟩ := ControlPlane.insert_ok hp
    refine follows_bind_of <| follows_mapErr.mpr <| follows_write nofun rfl (fun {_ _ _ n} hn => ?_)
      (herr hu)
    obtain ⟨-, -, rfl⟩ := ControlPlane.insert_ok hn
    refine follows_bind_of <| follows_mapErr.mpr <| follows_write nofun rfl (fun {_ _ _ pl} hpl => ?_)
      (herr hu)
    obtain ⟨-, -, rfl⟩ := ControlPlane.insert_ok hpl
    exact follows_bind_of <| follows_writeBootstrapConfigExclusive hopen hfile hcom hok herr
  case _ => exact herr hu

theorem trimSpace_trimSpace (s : String) : trimSpace (trimSpace s) = trimSpace s := by
  rw [trimSpace, trimSpace, String.toList_ofList, Text.trimSpace, Text.trimSpace, Text.trimBy_trimBy]

-- What is left to do once the transaction has ended.
inductive Ended (b : Bootstrap) (o : V31NodeOptions) (φ : Progress) :
    Except Err (Option Err × Bool × V31NodeResult) → Prop
  | committed {e created r} :
    φ.tx = none → φ.committed = some e.writes → b.Complete φ e → Ended b o φ (.ok (none, created, r))
  | lost {h x r} :
    φ.tx = none → φ.committed = none → φ.file = some h → h.path = b.configPath o →
    Ended b o φ (.ok (some x, true, r))
  | failed {x r} : φ.tx = none → Undone φ → Ended b o φ (.ok (some x, false, r))

theorem follows_v31Transaction {o : V31NodeOptions} {tenant : Tenant} {pool : Prefix}
    {address key : String} {kp : Crypto.KeyPair} {profile : ProtocolProfile}
    (hp : profile = defaultV31Profile (trimSpace o.profileName) key)
    (ho : trimSpace o.profileName = o.profileName) (hpool : b.parseCIDR o.poolCIDR = .ok pool)
    (ha : serverAddressFromPool pool = .ok address) :
    (inTx (false, {}) (b.provisionTx o tenant pool profile kp.publicKey (b.configPath o)
      (v31Config o pool address kp.privateKey profile))).run.Follows b.protocol (b.Ended o)
      { opts := o, key := some key, keyPair := some kp } := by
  refine follows_transaction trivial (fun _ _ => .failed rfl ⟨rfl, .inl rfl⟩) fun _ =>
    follows_provisionTx key rfl rfl rfl rfl rfl rfl (fun {p n pl f r} => ?_)
      (fun {ψ x} hu => ⟨trivial, fun _ _ => .failed rfl hu⟩)
  -- The name that is checked and the one that is inserted have been trimmed differently often.
  have hname : profile.name = o.profileName := by
    rw [hp]
    exact ho
  have hm : b.Makes o ⟨key, kp, tenant.id, p, n, pl⟩
      (b.v31Rows o pool ⟨key, kp, tenant.id, p, n, pl⟩ profile)
      (v31Config o pool address kp.privateKey profile) := by
    rw [hp]
    exact .mk hpool ha
  have hsub : (b.v31Rows o pool ⟨key, kp, tenant.id, p, n, pl⟩ profile).checks ⊆
      [.profileExists o.profileName, .hostnameExists o.nodeHostname, .ifaceExists o.nodeIface,
        .portExists o.nodeBasePort, .poolOverlaps pool] := by
    rw [← hname]
    exact List.Subset.refl _
  refine ⟨⟨_, .mk hm rfl rfl rfl rfl, rfl, rfl, hsub, rfl⟩, fun _ => ?_, fun _ _ => ?_⟩
  · exact .committed rfl rfl (.mk hm rfl rfl rfl rfl)
  · exact .lost rfl rfl rfl rfl

theorem follows_provisionV31Node {o : V31NodeOptions} :
    (b.provisionV31Node o).run.Follows b.protocol b.Post { opts := normalizeV31NodeOptions o } := by
  have ho : trimSpace (normalizeV31NodeOptions o).profileName =
      (normalizeV31NodeOptions o).profileName :=
    trimSpace_trimSpace _
  unfold provisionV31Node
  generalize normalizeV31NodeOptions o = o at ho
  refine follows_bind_of <| follows_check (fun _ => ?_) (fun _ => ⟨rfl, rfl, .inl rfl⟩)
  refine follows_bind_of <| follows_check (fun {pool} hpool => ?_) (fun _ => ⟨rfl, rfl, .inl rfl⟩)
  refine follows_bind_of <| follows_mapErr.mpr <| follows_bind_of <| follows_eff nofun ?_
  rintro (x | t) -
  case error => exact ⟨rfl, rfl, .inl rfl⟩
  refine follows_row (fun {t} ht => ?_) ⟨rfl, rfl, .inl rfl⟩
  refine follows_bind_of <| follows_mapErr.mpr <| follows_eff rfl ?_
  rintro (x | key) -
  case error => exact ⟨rfl, rfl, .inl rfl⟩
  refine follows_bind_of <| follows_mapErr.mpr <| follows_eff rfl ?_
  rintro (x | kp) -
  case error => exact ⟨rfl, rfl, .inl rfl⟩
  simp only [Then, Except.mapError]
  split
  case _ =>
    refine follows_bind_of <| follows_check (fun {address} ha => ?_) (fun _ => ⟨rfl, rfl, .inl rfl⟩)
    refine follows_bind_of <| (follows_v31Transaction rfl ho hpool ha).mono ?_
    rintro φ _ (⟨ht, hc, hr⟩ | ⟨ht, hc, hf, hp⟩ | ⟨ht, hu⟩)
    · exact ⟨ht, _, hc, hr⟩
    · refine follows_bind_of <| follows_eff ⟨_, hf, hp, hc⟩ ?_
      rintro (x | _ | x) hr
      case error   => exact hr.elim
      case ok.none => exact ⟨ht, hc, .inl rfl⟩
      case ok.some => exact ⟨ht, hc, .inr rfl⟩
    · exact ⟨ht, hu⟩
  case _ => exact ⟨rfl, rfl, .inl rfl⟩

end Rules

-- Every command keeps to the protocol, and the world answers as the protocol assumes.
def discipline : b.commands.Discipline Progress where
  toProtocol := b.protocol
  init       := fun o => { opts := normalizeV31NodeOptions o }
  Post       := b.Post
  follows    := fun _ => follows_provisionV31Node
  answers    := fun {x pid w e r w'} h => by
    have ha := ControlPlane.answers_of_acts (World.acts_of_exec h)
    cases e <;> first
      | exact ha
      | cases h; trivial

end Bootstrap
