import AwgRest.Cli.Ownership

open Domain Fallible

-- What is done to an interface has been asked for, however the calls are interleaved.
namespace Cli

-- The change that `SetPeer` is to make.
def setOf (p : Awg.PeerSpec) : Change :=
  .set p.publicKey (if p.presharedKey = "" then none else some p.presharedKey.toList)
    (if p.allowedIPs = [] then none else some (CLIExecutor.joinCSV p.allowedIPs))
    (if p.endpoint = "" then none else some p.endpoint)
    (if 0 < p.keepaliveSecs then some (toString p.keepaliveSecs) else none)

-- The changes of an interface that the calls are to make.
inductive Intended (c : CLIExecutor) (T : Tools) (τ : List Ev) : String → Change → Prop
  | up {pid j path text} :
    .spawn pid (.interfaceUp j path) ∈ τ → Intended c T τ (T.linkName (c.upPath j path)) (.up text)
  | sync {i full} : Complete τ i full → Intended c T τ i (.sync (Awg.sanitizeSyncConf (T.strip full)))
  | set {pid i p} : .spawn pid (.setPeer i p) ∈ τ → Intended c T τ i (setOf p)
  | unset {pid i pub} : .spawn pid (.removePeer i pub) ∈ τ → Intended c T τ i (.unset pub)

def Made (links : String → Option (List Change)) (i : String) (x : Change) : Prop :=
  ∃ xs, links i = some xs ∧ x ∈ xs

variable {c : CLIExecutor} {T : Tools} {h h' : Host} {φ : Local} {e : Eff} {r : Except Err e.Answer}
  {τ : List Ev}
  {i : String} {x : Change} {cmd : Command} {text : List Char} {links : String → Option (List Change)}

theorem Intended.mono {ev : Ev} (hi : Intended c T τ i x) : Intended c T (τ ++ [ev]) i x := by
  cases hi
  case up hm    => exact .up (List.mem_append_left _ hm)
  case sync hc  => exact .sync hc.mono
  case set hm   => exact .set (List.mem_append_left _ hm)
  case unset hm => exact .unset (List.mem_append_left _ hm)

theorem made_update {j : String} {xs : Option (List Change)}
    (hm : Made (Function.update links j xs) i x) :
    Made links i x ∨ i = j ∧ ∃ ys, xs = some ys ∧ x ∈ ys := by
  obtain ⟨ys, hl, hx⟩ := hm
  rw [Function.update_apply] at hl
  split at hl
  case isTrue hi => exact .inr ⟨hi, ys, hl, hx⟩
  case isFalse   => exact .inl ⟨ys, hl, hx⟩

theorem made_change {j : String} {y : Change} (hc : Tools.change h j y = some (text, links))
    (hm : Made links i x) :
    Made h.links i x ∨ i = j ∧ x = y := by
  obtain ⟨xs, hj, hr⟩ := Option.map_eq_some_iff.mp hc
  cases hr
  rcases made_update hm with hm | ⟨rfl, ys, hys, hx⟩
  · exact .inl hm
  · cases hys
    rcases List.mem_append.mp hx with hx | hx
    · exact .inl ⟨xs, hj, hx⟩
    · exact .inr ⟨rfl, List.mem_singleton.mp hx⟩

-- The text of a file that a call has written.
theorem read_of_mem {p : Path} {f : Nat} (o : Owned c T τ h φ) (hm : ⟨p, f, .text text⟩ ∈ φ.temps) :
    h.files.read p = some text :=
  (FileSystem.read_eq (o.named hm)).trans (congrArg some (o.content hm))

theorem intended_sync {p : Path} {data : List Char} (o : Owned c T τ h φ)
    (ha : AllowsCommand c φ (.syncconf i p)) (hd : h.files.read p = some data) :
    Intended c T τ i (.sync data) := by
  obtain ⟨config, s, f, hk, hs, hm⟩ := ha
  obtain ⟨j, config', full, hj, hc, rfl⟩ := o.stripped hs
  cases hk.symm.trans hj
  cases hd.symm.trans (read_of_mem o hm)
  exact .sync hc

theorem intended_set {pub : String} {path : Option Path} {psk : Option (List Char)}
    {a e k : Option String} (o : Owned c T τ h φ) (ha : AllowsCommand c φ (.set i pub path a e k))
    (hd : path.map h.files.read = psk.map some) : Intended c T τ i (.set pub psk a e k) := by
  obtain ⟨p, hk, hargs, hn, hm⟩ := ha
  obtain ⟨pid, hspawn⟩ := o.spawned
  have hpsk : psk = if p.presharedKey = "" then none else some p.presharedKey.toList := by
    cases path
    case none => simp_all
    case some q =>
      obtain ⟨f, hf⟩ := hm q rfl
      simp_all [read_of_mem o hf]
  cases hargs
  exact hpsk ▸ .set (hk ▸ hspawn)

theorem intended_of_perform (o : Owned c T τ h φ) (ha : AllowsCommand c φ cmd)
    (hp : T.perform h cmd = some (text, links)) (hm : Made links i x) :
    Made h.links i x ∨ Intended c T τ i x := by
  obtain ⟨pid, hspawn⟩ := o.spawned
  cases cmd
  case syncconf j p =>
    obtain ⟨data, hd, hc⟩ := Option.bind_eq_some_iff.mp hp
    rcases made_change hc hm with hm | ⟨rfl, rfl⟩
    · exact .inl hm
    · exact .inr (intended_sync o ha hd)
  case set j pub path a e k =>
    cases path
    case none   =>
      rcases made_change hp hm with hm | ⟨rfl, rfl⟩
      · exact .inl hm
      · exact .inr (intended_set o ha rfl)
    case some q =>
      obtain ⟨data, hd, hc⟩ := Option.bind_eq_some_iff.mp hp
      rcases made_change hc hm with hm | ⟨rfl, rfl⟩
      · exact .inl hm
      · exact .inr (intended_set o ha (congrArg some hd))
  case unset j pub =>
    have hk : φ.kind = .removePeer j pub := ha
    rcases made_change hp hm with hm | ⟨rfl, rfl⟩
    · exact .inl hm
    · exact .inr (.unset (hk ▸ hspawn))
  case up p =>
    obtain ⟨j, path, hk, rfl⟩ := ha
    simp only [Tools.perform] at hp
    split at hp <;> cases hp
    rcases made_update hm with hm | ⟨rfl, ys, hys, hx⟩
    · exact .inl hm
    · cases hys
      cases List.mem_singleton.mp hx
      exact .inr (.up (hk ▸ hspawn))
  case down j =>
    obtain ⟨xs, -, hr⟩ := Option.map_eq_some_iff.mp hp
    cases hr
    rcases made_update hm with hm | ⟨-, ys, hys, -⟩
    · exact .inl hm
    · cases hys
  all_goals
    obtain ⟨xs, -, hr⟩ := Option.map_eq_some_iff.mp hp
    cases hr
    exact .inl hm

theorem intended_of_acts (o : Owned c T τ h φ) (ha : Allows c φ e) (hx : Acts T h h' e r)
    (hm : Made h'.links i x) :
    Made h.links i x ∨ Intended c T τ i x := by
  cases e <;> rcases r with err | a
  case createTemp.ok =>
    obtain ⟨-, -, -, rfl⟩ := hx
    exact .inl hm
  case write.error =>
    obtain ⟨text, rfl⟩ := hx
    exact .inl hm
  case rename.ok =>
    obtain ⟨n, hn, rfl⟩ := hx
    exact .inl hm
  case readFile.ok =>
    obtain ⟨rfl, -⟩ := hx
    exact .inl hm
  case exec.error =>
    obtain ⟨text, errors, links, hl | ⟨s, hp⟩, rfl⟩ := hx
    · exact .inl (hl ▸ hm)
    · exact intended_of_perform o ha.2 hp hm
  case exec.ok =>
    obtain ⟨text, errors, links, hp, rfl⟩ := hx
    exact intended_of_perform o ha.2 hp hm
  all_goals
    obtain rfl := hx
    exact .inl hm

theorem intended_of_trace {h₀ : Host} (ht : (discipline c T).Trace PlainNames h₀ τ h)
    (hm : Made h.links i x) :
    Made h₀.links i x ∨ Intended c T τ i x := by
  induction ht
  case nil => exact .inl hm
  case act ht hl ha hx _ ih =>
    rcases intended_of_acts ((owning_of_trace ht).owned hl) ha (acts_of_exec hx) hm with hm | hi
    · exact (ih hm).imp_right .mono
    · exact .inr hi.mono
  case spawn ih | done ih | crash ih | tick ih => exact (ih hm).imp_right .mono

-- Nothing is done to an interface that was not to be done to it: what `awg syncconf` gets, for
-- example, is a whole configuration of this interface that `SyncConf` has been called with, as
-- `awg-quick strip` leaves it, also if other calls write the configurations of this and of other
-- interfaces at the same time, fail halfway or die.
theorem provenance (c : CLIExecutor) (T : Tools) {h : Host} {τ : List Ev} {conf : Conf}
    (hr : (c.system T).Run PlainNames (boot h) τ conf) {i : String} {x : Change}
    (hm : Made conf.world.links i x) :
    Made h.links i x ∨ Intended c T τ i x :=
  intended_of_trace ((discipline c T).trace_of_run hr fun _ => rfl) hm

-- Of two calls the second puts its configuration in place before the first has read it, and the
-- first applies it.
theorem provenance_sample :
    ∃ τ conf, (Sample.cli.system Sample.tools).Run PlainNames (boot Sample.host) τ conf ∧
      Made conf.world.links "awg0" (.sync (Sample.config "b")) ∧
      (Made Sample.host.links "awg0" (.sync (Sample.config "b")) ∨
        Intended Sample.cli Sample.tools τ "awg0" (.sync (Sample.config "b"))) := by
  have h : (((Sample.cli.system Sample.tools).playUnder (fun τ h ev => decide (PlainNames τ h ev)) []
      (boot Sample.host) ([.spawn 0 (.syncConf "awg0" (Sample.config "a")),
        .spawn 1 (.syncConf "awg0" (Sample.config "b"))] ++ Sample.steps 0 '1' 6 ++
          Sample.steps 1 '2' 6 ++
        Sample.steps 0 '1' 22 ++ [.done 0])).map fun r => decide (r.2.world.links "awg0" =
          some [.sync (Sample.config "b")])) = some true := by decide +kernel
  obtain ⟨⟨τ, conf⟩, hp, hl⟩ := Option.map_eq_some_iff.mp h
  have hr := System.playUnder_run (fun _ _ _ h => of_decide_eq_true h) .nil hp
  have hm : Made conf.world.links "awg0" (.sync (Sample.config "b")) :=
    ⟨_, of_decide_eq_true hl, by simp⟩
  exact ⟨τ, conf, hr, hm, provenance Sample.cli Sample.tools hr hm⟩

end Cli
