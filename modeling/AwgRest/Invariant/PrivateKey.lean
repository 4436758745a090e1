import AwgRest.NodeAgent
import AwgRest.RoundTrip.PrivateKey
import AwgRest.Store.Acts
import AwgRest.System

open Domain Store Fallible Repo

-- The private key of an interface while configurations without one are applied to it.
namespace Host

-- What is known of a call: what it read from the database, the configuration that it wants to apply
-- to an interface, and what `ShowConf` returned to it last (`none` if it failed).
structure Caller where
  node    : Option Node := none
  peers   : List Peer := []
  desired : Option (String × List Char) := none
  shown   : Option (String × Option (List Char)) := none

namespace Caller

def init : Call → Caller
  | .applyNode _                => {}
  | .syncConf iface (.ok body)  => { desired := some (iface, body.text) }
  | .syncConf _     (.error _)  => {}

def next (φ : Caller) : (e : Eff) → Except Err e.Answer → Caller
  | .query (.nodeByID _),    .ok (some n) => { φ with node := some n }
  | .query (.peersByNode _), .ok ps       => { φ with peers := ps }
  | .query (.profileByID _), .ok (some p) =>
    { φ with
      desired := φ.node.map fun n => (n.interfaceName, (Worker.desiredConf n p φ.peers).text) }
  | .showConf iface,         .ok text     => { φ with shown := some (iface, some text) }
  | .showConf iface,         .error _     => { φ with shown := some (iface, none) }
  | _,                       _            => φ

end Caller

def keyOf (config : List Char) : List Char :=
  Awg.interfaceValue config "PrivateKey"

-- A key that can be copied: one that is there, and that is not a placeholder for it.
structure Copied (key : List Char) : Prop where
  ne_nil       : key ≠ []
  not_redacted : Awg.equalFold key "(redacted)" = false

-- A configuration into which a key can be copied.
structure Fit (config : List Char) : Prop where
  noKey      : Awg.NoKey config
  terminated : Awg.Terminated config

-- The text has the key that `ShowConf` returned, if it did not fail.
def Prepared (shown : Option (String × Option (List Char))) (iface : String)
    (text : List Char) : Prop :=
  ∃ o, shown = some (iface, o) ∧ ∀ current, o = some current → Copied (keyOf current) →
    keyOf text = keyOf current

def Allows (φ : Caller) : Eff → Prop
  | .syncConf iface conf =>
    ∃ d, φ.desired = some (iface, d) ∧ (Fit d → Prepared φ.shown iface conf.text)
  | _ => True

def protocol : Protocol (fun e : Eff => Except Err e.Answer) Caller where
  Allows  := Allows
  Answers := fun _ _ => True
  next    := Caller.next

section Programs

variable {φ : Caller} {α σ : Type} {iface : String} {d : List Char} {conf : Awg.Conf}

def Anything : Caller → α → Prop :=
  fun _ _ => True

theorem keyOf_eq_nil (h : Fit d) : keyOf d = [] :=
  Awg.go_eq_nil h.noKey

theorem keyOf_preserve {current : List Char} (h : Fit d) (hc : Copied (keyOf current)) :
    keyOf (Awg.preserveInterfacePrivateKey d current) = keyOf current :=
  Awg.value_preserve h.noKey h.terminated hc.ne_nil hc.not_redacted

-- The text is the desired one, unless a key was copied into it.
def Edited (d text : List Char) : Prop :=
  Fit d → text = d ∨ keyOf text ≠ []

theorem edited_preserve (d current : List Char) :
    Edited d (Awg.preserveInterfacePrivateKey d current) := by
  intro h
  by_cases hr : Awg.equalFold (keyOf current) "(redacted)" = true
  case pos =>
    refine .inl ?_
    have htrim : Text.trimSpace (Awg.interfaceValue current "PrivateKey") = keyOf current :=
      (Awg.interfaceValue_part current "PrivateKey").1
    rw [Awg.preserveInterfacePrivateKey, htrim, if_pos hr]
  case neg =>
    by_cases hn : keyOf current = []
    case pos =>
      refine .inl ?_
      have hn' : Awg.interfaceValue current "PrivateKey" = [] := hn
      rw [Awg.preserveInterfacePrivateKey, hn']
      rfl
    case neg => exact .inr (keyOf_preserve h ⟨hn, by simpa using hr⟩ ▸ hn)

-- The configuration is ready to be applied.
structure Ready (φ : Caller) (iface : String) (d text : List Char) : Prop where
  desired  : φ.desired = some (iface, d)
  edited   : Edited d text
  prepared : Fit d → Prepared φ.shown iface text

theorem follows_preserve {Q : Caller → Except Err Awg.Conf → Prop} (hd : φ.desired = some (iface, d))
    (he : Edited d conf.text)
    (hp : keyOf conf.text ≠ [] → Fit d → Prepared φ.shown iface conf.text)
    (hok : ∀ {φ' conf'}, Ready φ' iface d conf'.text → Q φ' (.ok conf')) :
    (Worker.preserveRuntimePrivateKey iface conf).run.Follows protocol Q φ := by
  unfold Worker.preserveRuntimePrivateKey
  split
  case isTrue hk => exact hok ⟨hd, he, hp hk⟩
  case isFalse hk =>
    have hk : keyOf conf.text = [] := not_not.mp hk
    have hcd (hf : Fit d) : conf.text = d := (he hf).resolve_right (not_not.mpr hk)
    refine follows_bind_of <| follows_attempt.mpr <|
      (follows_call (e := Eff.showConf iface)).mpr ⟨trivial, fun current _ => ?_, fun _ _ => ?_⟩
    · refine hok ⟨hd, fun hf => ?_, fun hf => ⟨some current, rfl, ?_⟩⟩
      · exact hcd hf ▸ edited_preserve conf.text current (hcd hf ▸ hf)
      · rintro _ ⟨⟩ hc
        exact keyOf_preserve (hcd hf ▸ hf) hc
    · refine hok ⟨hd, he, fun _ => ⟨none, rfl, fun _ h => ?_⟩⟩
      cases h

theorem follows_prepare {Q : Caller → Except Err Awg.Conf → Prop}
    (hd : φ.desired = some (iface, conf.text))
    (hok : ∀ {φ' conf'}, Ready φ' iface conf.text conf'.text → Q φ' (.ok conf')) :
    (Worker.preserveRuntimePrivateKey iface conf).run.Follows protocol Q φ :=
  follows_preserve hd (fun _ => .inl rfl) (fun hk hf => absurd (keyOf_eq_nil hf) hk) hok

theorem follows_call_of {e : Eff} {Q : Caller → Except Err e.Answer → Prop} (ha : Allows φ e)
    (hq : ∀ r, Q (φ.next e r) r) : (call e : Act e.Answer).run.Follows protocol Q φ :=
  follows_call.mpr ⟨ha, fun a _ => hq (.ok a), fun x _ => hq (.error x)⟩

theorem Ready.allows {text : List Char} {peers : List Render.PeerEntry} (h : Ready φ iface d text) :
    Allows φ (.syncConf iface ⟨text, peers⟩) :=
  ⟨d, h.desired, h.prepared⟩

theorem follows_syncConf (w : Worker) {Q : Caller → Except Err Unit → Prop}
    (h : Ready φ iface d conf.text) (hq : ∀ φ r, Q φ r) :
    (w.syncConf iface conf).run.Follows protocol Q φ := by
  refine follows_bind_of <| follows_attempt.mpr <|
    follows_call_of (e := Eff.syncConf iface conf) h.allows fun r => ?_
  cases r
  case ok    => exact hq _ _
  case error =>
    simp only [Then]
    split
    case _ => exact hq _ _
    case _ =>
      refine follows_bind_of <| follows_mapErr.mpr <|
        follows_call_of (e := Eff.interfaceUp ..) trivial
        fun r => ?_
      cases r
      case error => exact hq _ _
      case ok    =>
        refine follows_bind_of <| follows_preserve h.desired h.edited (fun _ => h.prepared)
          fun {φ' conf'} h' => ?_
        exact follows_call_of (e := Eff.syncConf iface conf') h'.allows fun r => hq _ _

-- What follows a configuration that was applied does not concern the interface.
theorem follows_inTx {init : σ} {fn : Act (Option Err × σ)}
    {Q : Caller → Except Err (Option Err × σ) → Prop}
    (hf : ∀ φ, fn.run.Follows protocol Anything φ) (hq : ∀ φ r, Q φ r) :
    (inTx init fn).run.Follows protocol Q φ := by
  refine follows_bind_of <| follows_attempt.mpr <|
    follows_call_of (e := Eff.begin) trivial fun r => ?_
  cases r
  case error => exact hq _ _
  case ok    =>
    refine follows_bind_of <| follows_attempt.mpr <| (hf _).mono fun φ r _ => ?_
    rcases r with e | ⟨_ | e, s⟩
    case ok.none =>
      refine follows_bind_of <| follows_attempt.mpr <|
        follows_call_of (e := Eff.commit) trivial fun r => ?_
      cases r <;> exact hq _ _
    all_goals
      exact follows_bind_of <| follows_attempt.mpr <|
        follows_call_of (e := Eff.rollback) trivial fun _ => hq _ _

theorem follows_persistPeers (runtime : List Awg.PeerRuntime) (ps : List Peer) (φ : Caller) :
    (Worker.persistPeers runtime ps).run.Follows protocol Anything φ := by
  induction ps generalizing φ
  case nil          => exact trivial
  case cons p ps ih =>
    refine follows_bind_of <| follows_call_of (e := Eff.stmt _) trivial fun r => ?_
    cases r
    case error => exact trivial
    case ok    =>
      refine follows_bind_of <| follows_call_of (e := Eff.stmt _) trivial fun r => ?_
      cases r
      case error => exact trivial
      case ok    => exact ih _

theorem follows_applyNode (w : Worker) (nodeID : UUID) {Q : Caller → Except Err Unit → Prop}
    (hq : ∀ φ r, Q φ r) : (w.applyNode nodeID).run.Follows protocol Q {} := by
  refine follows_bind_of <| follows_call_of (e := Eff.query (.nodeByID nodeID)) trivial ?_
  rintro (x | node)
  case error => exact hq _ _
  refine follows_bind_of <| follows_row (fun {n} hn => ?_) (hq _ _)
  subst hn
  refine follows_bind_of <| follows_call_of (e := Eff.query (.peersByNode nodeID)) trivial ?_
  rintro (x | peers)
  case error => exact hq _ _
  simp only [Then]
  split
  case h_1 =>
    split <;> exact hq _ _
  case h_2 profileID _ =>
  refine follows_bind_of <| follows_call_of (e := Eff.query (.profileByID profileID)) trivial ?_
  rintro (x | profile)
  case error => exact hq _ _
  refine follows_bind_of <| follows_row (fun {p} hp => ?_) (hq _ _)
  subst hp
  simp only [Caller.next, Option.map, Then]
  generalize Worker.desiredConf n p peers = desired
  refine follows_bind_of <| follows_prepare rfl fun {φ conf} hr => ?_
  refine follows_bind_of <| follows_syncConf w hr ?_
  rintro φ (x | _)
  case error => exact hq _ _
  refine follows_bind_of <| follows_call_of (e := Eff.showDump _) trivial ?_
  rintro (x | dump)
  case error => exact hq _ _
  simp only [Then]
  split
  case isTrue  => exact hq _ _
  case isFalse =>
    refine follows_bind_of <| follows_inTx (follows_persistPeers _ _) ?_
    rintro φ (x | ⟨_ | e, s⟩) <;> exact hq _ _

theorem follows_syncConfHandler (iface : String) (body : Except String Awg.Conf) :
    (NodeAgent.syncConfHandler iface body).run.Follows protocol Anything
      (Caller.init (.syncConf iface body)) := by
  unfold NodeAgent.syncConfHandler
  split
  case isTrue  => exact trivial
  case isFalse =>
    cases body
    case error text => exact trivial
    case ok body    =>
      refine follows_bind_of <| follows_attempt.mpr <|
        follows_call_of (e := Eff.showConf iface) trivial ?_
      rintro (x | current)
      case error =>
        refine follows_bind_of <| follows_pure.mpr <| follows_bind_of <| follows_attempt.mpr <|
          follows_call_of (e := Eff.syncConf iface body) ⟨_, rfl, fun _ => ⟨none, rfl, ?_⟩⟩ ?_
        · intro _ h
          cases h
        · rintro (x | _) <;> exact trivial
      case ok =>
        refine follows_bind_of <| follows_pure.mpr <| follows_bind_of <| follows_attempt.mpr <|
          follows_call_of (e := Eff.syncConf iface _) ⟨_, rfl, fun hf => ⟨some current, rfl, ?_⟩⟩ ?_
        · rintro _ ⟨⟩ hc
          exact keyOf_preserve hf hc
        · rintro (x | _) <;> exact trivial

end Programs

def discipline (w : Worker) : System.Discipline (system w) Caller where
  toProtocol := protocol
  init       := Caller.init
  Post       := Anything
  follows k  := by
    cases k
    case applyNode nodeID =>
      refine follows_bind_of <| follows_applyNode w nodeID ?_
      rintro φ (x | _) <;> exact trivial
    case syncConf iface body => exact follows_syncConfHandler iface body
  answers _ := trivial

section Runs

variable {iface : String} {x : Choice} {pid : Nat} {h h' : Host} {e : Eff} {r : Except Err e.Answer}

-- What an effect means for an interface that exists.
inductive Seen (iface : String) (h h' : Host) : (e : Eff) → Except Err e.Answer → Prop
  | applied (conf : Awg.Conf) : h'.confs iface = conf.text →
    Seen iface h h' (.syncConf iface conf) (.ok ())
  | shown : h'.confs iface = h.confs iface → Seen iface h h' (.showConf iface) (.ok (h.confs iface))
  | other {e : Eff} {r : Except Err e.Answer} :
    h'.confs iface = h.confs iface →
    (∀ (φ : Caller) text, (φ.next e r).shown = some (iface, some text) →
      φ.shown = some (iface, some text)) →
    Seen iface h h' e r

theorem next_shown (he : ∀ i, e ≠ .showConf i) (φ : Caller) : (φ.next e r).shown = φ.shown := by
  cases e
  case showConf i => exact absurd rfl (he i)
  case query q =>
    cases q <;> cases r <;> try rfl
    all_goals
      case ok a => cases a <;> rfl
  all_goals rfl

theorem exec_seen (hx : exec x pid h e = some (r, h')) (hup : h.runtime iface ≠ none) :
    Seen iface h h' e r := by
  simp only [exec, Option.map_eq_some_iff, Prod.mk.injEq, Prod.exists] at hx
  obtain ⟨r, w, hw, rfl, rfl⟩ := hx
  have other (he : ∀ i, e ≠ .showConf i) (hc : exec.confs x h e r iface = h.confs iface) :
      Seen iface h ⟨w, exec.confs x h e r⟩ e r :=
    .other hc fun φ _ hs => next_shown he φ ▸ hs
  cases e
  case syncConf i conf =>
    cases r
    case error => exact other (by simp) rfl
    case ok    =>
      by_cases hi : iface = i
      · subst hi
        exact .applied conf (Function.update_self ..)
      · exact other (by simp) (Function.update_of_ne hi ..)
  case showConf i =>
    cases r
    case error => exact .other rfl fun φ _ hs => by simp [Caller.next] at hs
    case ok    =>
      by_cases hi : iface = i
      · subst hi
        simp only [World.exec, exec.shown] at hw
        split at hw <;> cases hw
        exact .shown rfl
      · exact .other rfl fun φ _ hs => by simp [Caller.next, Ne.symm hi] at hs
  case interfaceUp i path =>
    cases r
    case error => exact other (by simp) rfl
    case ok    =>
      refine other (by simp) ?_
      simp only [exec.confs]
      split
      case isTrue hi =>
        refine Function.update_of_ne ?_ ..
        rintro rfl
        exact hup (Option.isNone_iff_eq_none.mp hi)
      case isFalse => rfl
  all_goals exact other (by simp) rfl

theorem exec_runtime (hx : exec x pid h e = some (r, h')) (hup : h.runtime iface ≠ none) :
    h'.runtime iface ≠ none := by
  simp only [exec, Option.map_eq_some_iff, Prod.mk.injEq, Prod.exists] at hx
  obtain ⟨r, w, hw, rfl, rfl⟩ := hx
  have hu (i : String) (ps : List Awg.PeerSpec) :
      Function.update h.runtime i (some ps) iface ≠ none := by
    rw [Function.update_apply]
    split
    · exact Option.some_ne_none _
    · exact hup
  cases World.acts_of_exec hw
  case sync   => exact hu _ _
  case create => exact hu _ _
  all_goals exact hup

abbrev Ev := Event (fun e : Eff => Except Err e.Answer) Call Nat (Except Err NodeAgent.Response)
abbrev Guard :=
  System.Guard (fun e : Eff => Except Err e.Answer) Host Call Nat (Except Err NodeAgent.Response)

-- The process that applies a configuration to the interface.
def applies (iface : String) : Ev → Option Nat
  | .act pid (.syncConf i _) (.ok _) => if i = iface then some pid else none
  | _ => none

def callers (τ : List Ev) : Nat → Option Caller :=
  System.observe Caller.init Caller.next τ

-- The configurations that the calls want to apply to the interface have no key.
def Keyless (iface : String) : Guard := fun τ _ ev =>
  ∀ pid ∈ applies iface ev, ∀ φ ∈ callers τ pid, ∀ d ∈ φ.desired, Awg.NoKey d.2

instance {τ h ev} : Decidable (Keyless iface τ h ev) :=
  inferInstanceAs (Decidable (∀ pid ∈ applies iface ev, ∀ φ ∈ callers τ pid, ∀ d ∈ φ.desired,
    Awg.NoKey d.2))

-- They can take one, and they are only applied by a call whose last `ShowConf` did not fail.
def Careful (iface : String) : Guard := fun τ _ ev =>
  ∀ pid ∈ applies iface ev, ∀ φ ∈ callers τ pid,
    φ.shown ≠ some (iface, none) ∧ ∀ d ∈ φ.desired, Awg.Terminated d.2

instance {τ h ev} : Decidable (Careful iface τ h ev) :=
  inferInstanceAs (Decidable (∀ pid ∈ applies iface ev, ∀ φ ∈ callers τ pid,
    φ.shown ≠ some (iface, none) ∧ ∀ d ∈ φ.desired, Awg.Terminated d.2))

-- The key is in place, and it is what the calls have been shown.
structure Keeps (iface : String) (key : List Char) (τ : List Ev) (h : Host) : Prop where
  up     : h.runtime iface ≠ none
  placed : keyOf (h.confs iface) = key
  shown  : ∀ {pid φ text}, callers τ pid = some φ → φ.shown = some (iface, some text) →
    keyOf text = key

variable {key : List Char} {τ : List Ev} {φ : Caller}

theorem Keeps.frame {ev : Ev} (hk : Keeps iface key τ h) (hr : h'.runtime = h.runtime)
    (hc : h'.confs = h.confs)
    (hl : ∀ pid φ, callers (τ ++ [ev]) pid = some φ → callers τ pid = some φ ∨ φ.shown = none) :
    Keeps iface key (τ ++ [ev]) h' where
  up     := hr ▸ hk.up
  placed := hc ▸ hk.placed
  shown {pid φ _} hφ ht := by
    rcases hl pid φ hφ with hφ | hn
    · exact hk.shown hφ ht
    · rw [hn] at ht
      cases ht

theorem callers_act (hφ : callers τ pid = some φ) (q : Nat) :
    callers (τ ++ [.act pid e r]) q = if q = pid then some (φ.next e r) else callers τ q := by
  rw [callers, System.observe_concat]
  simp only [System.observed, Function.update_apply]
  split
  · exact congrArg (Option.map (Caller.next · e r)) hφ
  · rfl

-- A step that applies a configuration applies one with the key that its call was shown.
theorem Keeps.act (hc : Copied key) (hk : Keeps iface key τ h) (hφ : callers τ pid = some φ)
    (ha : Allows φ e) (hx : exec x pid h e = some (r, h'))
    (hg : Keyless iface τ h (.act pid e r)) (hs : Careful iface τ h (.act pid e r)) :
    Keeps iface key (τ ++ [.act pid e r]) h' := by
  have keeps (hp : keyOf (h'.confs iface) = key)
      (hn : ∀ text, (φ.next e r).shown = some (iface, some text) → keyOf text = key) :
      Keeps iface key (τ ++ [.act pid e r]) h' := by
    refine ⟨exec_runtime hx hk.up, hp, fun {q ψ text} hψ ht => ?_⟩
    rw [callers_act hφ] at hψ
    split at hψ
    · cases hψ
      exact hn text ht
    · exact hk.shown hψ ht
  cases exec_seen hx hk.up
  case applied conf hconf =>
    obtain ⟨d, hd, hp⟩ := ha
    have hpid : pid ∈ applies iface (.act pid (.syncConf iface conf) (.ok ())) := if_pos rfl
    obtain ⟨hshown, hterm⟩ := hs pid hpid φ hφ
    obtain ⟨_ | current, hcur, hkey⟩ := hp ⟨hg pid hpid φ hφ _ hd, hterm _ hd⟩
    case none => exact absurd hcur hshown
    have hcur' : keyOf current = key := hk.shown hφ hcur
    refine keeps ?_ fun text ht => hk.shown hφ ht
    rw [hconf, hkey current rfl (hcur' ▸ hc), hcur']
  case shown hconf =>
    refine keeps (hconf ▸ hk.placed) fun text ht => ?_
    obtain rfl : h.confs iface = text := by simpa [Caller.next] using ht
    exact hk.placed
  case other hconf hn => exact keeps (hconf ▸ hk.placed) fun text ht => hk.shown hφ (hn φ text ht)

def boot (h : Host) :
    Config (fun e : Eff => Except Err e.Answer) Host (Except Err NodeAgent.Response) where
  world := h
  procs := fun _ => .unused

theorem Caller.shown_init (k : Call) : (Caller.init k).shown = none := by
  cases k
  case applyNode       => rfl
  case syncConf _ body => cases body <;> rfl

-- Other steps change no configuration, and show nothing to anyone.
theorem callers_idle {ev : Ev} (he : ∀ pid e r, ev ≠ .act pid e r) (pid : Nat) (φ : Caller)
    (hφ : callers (τ ++ [ev]) pid = some φ) : callers τ pid = some φ ∨ φ.shown = none := by
  rw [callers, System.observe_concat] at hφ
  cases ev
  case act q e r => exact absurd rfl (he q e r)
  case tick      => exact .inl hφ
  case spawn q k =>
    simp only [System.observed, Function.update_apply] at hφ
    split at hφ
    · cases hφ
      exact .inr (Caller.shown_init k)
    · exact .inl hφ
  all_goals
    simp only [System.observed, Function.update_apply] at hφ
    split at hφ
    · cases hφ
    · exact .inl hφ

theorem keeps_of_trace {w : Worker} {h₀ : Host} (hup : h₀.runtime iface ≠ none)
    (hc : Copied (keyOf (h₀.confs iface)))
    (ht : (discipline w).Trace (fun τ h ev => Keyless iface τ h ev ∧ Careful iface τ h ev) h₀ τ h) :
    Keeps iface (keyOf (h₀.confs iface)) τ h := by
  induction ht
  case nil                       => exact ⟨hup, rfl, fun hφ => by cases hφ⟩
  case act x _ hφ ha hx hg ih    => exact ih.act hc hφ ha hx hg.1 hg.2
  all_goals
    case _ ih => exact ih.frame rfl rfl (callers_idle (by simp))

theorem private_key_kept (w : Worker) {h₀ : Host} {c} (hup : h₀.runtime iface ≠ none)
    (hc : Copied (keyOf (h₀.confs iface)))
    (hr : (system w).Run (fun τ h ev => Keyless iface τ h ev ∧ Careful iface τ h ev) (boot h₀) τ c) :
    c.world.runtime iface ≠ none ∧ keyOf (c.world.confs iface) = keyOf (h₀.confs iface) := by
  have hk := keeps_of_trace hup hc ((discipline w).trace_of_run hr fun _ => rfl)
  exact ⟨hk.up, hk.placed⟩

end Runs

namespace Sample

open ControlPlane.Sample (plane world)

def host : Host where
  toWorld := world
  confs   := fun _ => "[Interface]\nPrivateKey = secret\n".toList

abbrev Schedule := List (System.Move Choice Call Nat)

def acts (pid : Nat) (faults : List (Option Fault)) : Schedule :=
  faults.map fun f => .act pid { fault := f }

-- The node is applied, where the calls of the executor before `ShowDump` fail as given.
def apply (pid : Nat) (faults : List (Option Fault)) : Schedule :=
  .spawn pid (.applyNode 2) :: acts pid ([none, none, none] ++ faults)

def request (pid : Nat) (faults : List (Option Fault)) : Schedule :=
  .spawn pid (.syncConf "awg0" (.ok ⟨"[Interface]\nListenPort = 1\n".toList, []⟩)) ::
    acts pid faults ++ [.done pid]

end Sample

-- A call of which nothing succeeds, one that succeeds, and a request to the agent.
theorem private_key_kept_sample :
    ∃ τ c, (system ControlPlane.Sample.plane.worker).Run
        (fun τ h ev => Keyless "awg0" τ h ev ∧ Careful "awg0" τ h ev) (boot Sample.host) τ c ∧
      c.world.confs "awg0" = "[Interface]\nPrivateKey = secret\nListenPort = 1\n".toList ∧
      c.world.runtime "awg0" ≠ none ∧
      keyOf (c.world.confs "awg0") = keyOf (Sample.host.confs "awg0") := by
  have h : (((system ControlPlane.Sample.plane.worker).playUnder
      (fun τ h ev => decide (Keyless "awg0" τ h ev ∧ Careful "awg0" τ h ev)) [] (boot Sample.host)
      (Sample.apply 0 [some .canceled, some .canceled] ++ [.done 0] ++
        Sample.apply 1 [none, none, none] ++ Sample.acts 1 [none, none] ++ [.done 1] ++
        Sample.request 2 [none, none])).map fun r => decide (r.2.world.confs "awg0" =
          "[Interface]\nPrivateKey = secret\nListenPort = 1\n".toList)) = some true := by
    decide +kernel
  obtain ⟨⟨τ, c⟩, hp, hs⟩ := Option.map_eq_some_iff.mp h
  have hr := System.playUnder_run (fun _ _ _ h => of_decide_eq_true h) .nil hp
  exact ⟨τ, c, hr, of_decide_eq_true hs,
    private_key_kept _ (by decide) ⟨by decide +kernel, by decide +kernel⟩ hr⟩

-- `ShowConf` fails once, and the configuration without a key is applied.
theorem failed_showConf_erases_key :
    ∃ τ c, (system ControlPlane.Sample.plane.worker).Run (Keyless "awg0") (boot Sample.host) τ c ∧
      keyOf (Sample.host.confs "awg0") = "secret".toList ∧ keyOf (c.world.confs "awg0") = [] := by
  have h : (((system ControlPlane.Sample.plane.worker).playUnder
      (fun τ h ev => decide (Keyless "awg0" τ h ev)) [] (boot Sample.host)
      (Sample.request 0 [some .canceled, none])).map fun r =>
        decide (keyOf (r.2.world.confs "awg0") = [])) = some true := by decide +kernel
  obtain ⟨⟨τ, c⟩, hp, hs⟩ := Option.map_eq_some_iff.mp h
  exact ⟨τ, c, System.playUnder_run (fun _ _ _ h => of_decide_eq_true h) .nil hp,
    by decide +kernel, of_decide_eq_true hs⟩

end Host
