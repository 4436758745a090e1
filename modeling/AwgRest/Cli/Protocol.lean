import AwgRest.Cli
import AwgRest.Lib.Discipline

open Domain Fallible

-- An abstract view of the calls: which files they have created and not yet given up, and what is in
-- them.
namespace Cli

-- What a call knows of the text in one of its files: it has written it, it is the output of a
-- command, or nothing.
inductive Content
  | text   (t : List Char)
  | output (cmd : Command)
  | any

structure Temp where
  path    : Path
  file    : Nat
  content : Content

structure Local where
  kind     : Kind
  -- The files of the call, the newest one first.
  temps    : List Temp := []
  -- Whether the configuration has been put in its place, and what `awg-quick strip` has made of
  -- what it found there.
  renamed  : Bool := false
  stripped : Option (List Char) := none

namespace Local

def push (φ : Local) (t : Temp) : Local :=
  { φ with temps := t :: φ.temps }

def pop (φ : Local) : Local :=
  { φ with temps := φ.temps.tail }

def fill (φ : Local) (x : Content) : Local :=
  match φ.temps with
  | t :: ts => { φ with temps := { t with content := x } :: ts }
  | []      => φ

-- The output of a command goes to the file below the newest one, which gets its errors.
def print (φ : Local) (x : Content) : Local :=
  match φ.temps with
  | e :: o :: ts => { φ with temps := { e with content := .any } :: { o with content := x } :: ts }
  | _            => φ

-- The output of `awg-quick strip` is read from its file, once.
def hear (φ : Local) (p : Path) (text : List Char) : Local :=
  match φ.temps with
  | e :: ⟨q, f, .output (.strip _)⟩ :: ts =>
    if p = q then { φ with temps := e :: ⟨q, f, .any⟩ :: ts, stripped := some text } else φ
  | _ => φ

def next (φ : Local) : (e : Eff) → Except Err e.Answer → Local
  | .createTemp ..,   .ok (p, f) => φ.push ⟨p, f, .text []⟩
  | .write _ text,    .ok _      => φ.fill (.text text)
  | .write _ _,       .error _   => φ.fill .any
  | .rename _ _,      .ok _      => { φ.pop with renamed := true }
  | .rename _ _,      .error _   => φ.pop
  | .remove _,        _          => φ.pop
  | .exec cmd _ _,    .ok _      => φ.print (.output cmd)
  | .exec _ _ _,      .error _   => φ.print .any
  | .readFile p,      .ok text   => φ.hear p text
  | _,                _          => φ

-- The files of a call, without what is in them.
def names (φ : Local) : List (Path × Nat) :=
  φ.temps.map fun t => (t.path, t.file)

variable {φ : Local} {x : Content}

theorem mem_names {t : Temp} (ht : t ∈ φ.temps) : (t.path, t.file) ∈ φ.names :=
  List.mem_map_of_mem ht

theorem exists_of_mem_names {p : Path} {f : Nat} (h : (p, f) ∈ φ.names) :
    ∃ t ∈ φ.temps, t.path = p ∧ t.file = f := by
  obtain ⟨t, ht, hx⟩ := List.mem_map.mp h
  exact ⟨t, ht, congrArg Prod.fst hx, congrArg Prod.snd hx⟩

@[simp]
theorem names_pop : φ.pop.names = φ.names.tail := by
  simp [names, pop, List.map_tail]

@[simp]
theorem names_fill : (φ.fill x).names = φ.names := by
  unfold fill
  split
  case h_1 ht => simp [names, ht]
  case h_2    => rfl

@[simp]
theorem names_print : (φ.print x).names = φ.names := by
  unfold print
  split
  case h_1 ht => simp [names, ht]
  case h_2    => rfl

@[simp]
theorem names_hear {p : Path} {text : List Char} : (φ.hear p text).names = φ.names := by
  unfold hear
  split
  case h_2    => rfl
  case h_1 ht =>
    split
    case isTrue  => simp [names, ht]
    case isFalse => rfl

theorem kind_next {e : Eff} {r : Except Err e.Answer} : (φ.next e r).kind = φ.kind := by
  unfold next
  split
  case h_2 | h_3 => unfold fill; split <;> rfl
  case h_7 | h_8 => unfold print; split <;> rfl
  case h_9       => unfold hear; split <;> [split <;> rfl; rfl]
  all_goals rfl

end Local

-- A configuration in which at most the private key has been filled in.
def Filled (config full : List Char) : Prop :=
  full = config ∨ (∃ a, full = Awg.preserveInterfacePrivateKey config a) ∨
  ∃ a b, full = Awg.preserveInterfacePrivateKey (Awg.preserveInterfacePrivateKey config a) b

-- The names of temporary files.
def IsPattern (before after : List Char) : Prop :=
  after = [] ∨ ∃ iface, Awg.validInterfaceName iface = true ∧
    before = iface.toList ++ "-stripped-".toList ∧
    after = ".conf".toList

variable (c : CLIExecutor)

-- The commands that a call runs are those that it is to run, and the files in their arguments are
-- its own.
def AllowsCommand (φ : Local) : Command → Prop
  | .strip p           => ∃ i config, φ.kind = .syncConf i config ∧ p = c.rendered i ∧ φ.renamed
  | .syncconf i p      =>
    ∃ config s f, φ.kind = .syncConf i config ∧ φ.stripped = some s ∧
      ⟨p, f, .text (Awg.sanitizeSyncConf s)⟩ ∈ φ.temps
  | .set i pub psk a e k =>
    ∃ p, φ.kind = .setPeer i p ∧ .set i pub psk a e k = CLIExecutor.setArgs i p psk ∧
      (psk = none ↔ p.presharedKey = "") ∧ ∀ path ∈ psk, ∃ f, ⟨path, f,
        .text p.presharedKey.toList⟩ ∈ φ.temps
  | .unset i pub       => φ.kind = .removePeer i pub
  | .up p              => ∃ i path, φ.kind = .interfaceUp i path ∧ p = c.upPath i path
  | .down i            => φ.kind = .interfaceDown i
  | _                  => True

def Allows (φ : Local) : Eff → Prop
  | .createTemp _ before after => IsPattern before after
  | .write f _        => ∃ t ts, φ.temps = t :: ts ∧ t.file = f
  | .rename old new   =>
    ∃ i config full f ts, φ.kind = .syncConf i config ∧ new = c.rendered i ∧
      Awg.validInterfaceName i = true ∧
      φ.temps = ⟨old, f, .text full⟩ :: ts ∧ Filled config full
  | .remove p         => ∃ t ts, φ.temps = t :: ts ∧ t.path = p
  | .exec cmd out err =>
    (∃ e o ts, φ.temps = e :: o :: ts ∧ e.file = err ∧ o.file = out) ∧ AllowsCommand c φ cmd
  | _                 => True

def protocol : Protocol (fun e : Eff => Except Err e.Answer) Local where
  Allows  := Allows c
  Answers := fun _ _ => True
  next    := Local.next

variable {c} {α : Type} {φ ψ : Local} {cmd : Command}

theorem AllowsCommand.mono (h : AllowsCommand c φ cmd) (hk : ψ.kind = φ.kind)
    (hr : ψ.renamed = φ.renamed) (hs : ψ.stripped = φ.stripped) (ht : ∀ t ∈ φ.temps, t ∈ ψ.temps) :
    AllowsCommand c ψ cmd := by
  cases cmd <;> simp only [AllowsCommand, hk, hr, hs] at h ⊢
  case syncconf i p =>
    obtain ⟨config, s, f, hk, hs, hm⟩ := h
    exact ⟨config, s, f, hk, hs, ht _ hm⟩
  case set i pub psk a e k =>
    obtain ⟨p, hk, ha, hn, hm⟩ := h
    exact ⟨p, hk, ha, hn, fun path hp => (hm path hp).imp fun _ => ht _⟩
  all_goals exact h

-- A call that has the files that it had before.
structure Same (φ ψ : Local) : Prop where
  kind    : ψ.kind = φ.kind
  temps   : ψ.temps = φ.temps
  renamed : ψ.renamed = φ.renamed

theorem Same.refl (φ : Local) : Same φ φ :=
  ⟨rfl, rfl, rfl⟩

-- The same with two more files on top.
structure Over (φ ψ : Local) (err out : Path) : Prop where
  kind    : ψ.kind = φ.kind
  temps   : ∃ e o, ψ.temps = e :: o :: φ.temps ∧ e.path = err ∧ o.path = out
  renamed : ψ.renamed = φ.renamed

section Rules

variable {Q : Local → Except Err α → Prop}

theorem follows_effect {e : Eff} {Q : Local → Except Err e.Answer → Prop} (ha : Allows c φ e)
    (hok : ∀ a, Q (φ.next e (.ok a)) (.ok a)) (herr : ∀ x, Q (φ.next e (.error x)) (.error x)) :
    (call e : Act e.Answer).run.Follows (protocol c) Q φ :=
  follows_call.mpr ⟨ha, fun a _ => hok a, fun x _ => herr x⟩

theorem follows_deferRemove {p : Path} {body : Act α}
    (hb : body.run.Follows (protocol c)
      (fun ψ r => (∃ t ts, ψ.temps = t :: ts ∧ t.path = p) ∧ Q ψ.pop r) φ) :
    (deferRemove p body).run.Follows (protocol c) Q φ := by
  refine follows_bind_of <| follows_attempt.mpr <| hb.mono fun ψ r ⟨ha, hq⟩ => ?_
  cases r
  all_goals
    exact follows_bind_of <| follows_attempt.mpr <|
      follows_effect (e := .remove p) ha (fun _ => hq) fun _ => hq

theorem Over.pop {err out : Path} (h : Over φ ψ err out) :
    (∃ t ts, ψ.temps = t :: ts ∧ t.path = err) ∧ (∃ t ts, ψ.pop.temps = t :: ts ∧ t.path = out) ∧
      Same φ ψ.pop.pop := by
  obtain ⟨e, o, ht, he, ho⟩ := h.temps
  exact ⟨⟨e, _, ht, he⟩, ⟨o, φ.temps, by simp [Local.pop, ht], ho⟩,
    h.kind, by simp [Local.pop, ht], h.renamed⟩

theorem Over.hear {err out p : Path} {text : List Char} (h : Over φ ψ err out) :
    Over φ (ψ.hear p text) err out := by
  obtain ⟨e, o, ht, he, ho⟩ := h.temps
  unfold Local.hear
  split
  case h_1 heq =>
    cases ht.symm.trans heq
    split
    · exact ⟨h.kind, ⟨_, _, rfl, he, ho⟩, h.renamed⟩
    · exact h
  case h_2 => exact h

-- What a call knows when it has read the output of a command that succeeded.
theorem stripped_hear {e o : Temp} {ts : List Temp} {stdout stderr : List Char} {err : Path}
    (ht : ψ.temps = e :: o :: ts) (ho : o.content = .output cmd) {p : Path} (hc : cmd = .strip p) :
    ((ψ.hear o.path stdout).hear err stderr).stripped = some stdout := by
  obtain ⟨q, f, x⟩ := o
  obtain rfl : x = .output (.strip p) := ho.trans (congrArg _ hc)
  have hfirst : ψ.hear q stdout = { ψ with temps := e :: ⟨q, f, .any⟩ :: ts, stripped := some stdout } := by
    simp [Local.hear, ht]
  rw [hfirst]
  rfl

-- Effects that the call learns nothing from.
theorem follows_aside {e : Eff} {Q : Local → Except Err (Except Err e.Answer) → Prop}
    (ha : Allows c φ e) (hn : ∀ r, φ.next e r = φ) (hq : ∀ r, Q φ (.ok r)) :
    (attempt (call e : Act e.Answer)).run.Follows (protocol c) Q φ :=
  follows_attempt.mpr <| follows_effect ha (fun a => (hn (.ok a)).symm ▸ hq _) fun x =>
    (hn (.error x)).symm ▸ hq _

theorem follows_run {Q : Local → Except Err (List Char) → Prop} (ha : AllowsCommand c φ cmd)
    (hok : ∀ out ψ, Same φ ψ → (∀ p, cmd = .strip p → ψ.stripped = some out) → Q ψ (.ok out))
    (herr : ∀ x ψ, Same φ ψ → Q ψ (.error x)) : (c.run cmd).run.Follows (protocol c) Q φ := by
  refine follows_bind_of <| follows_effect (e := .createTemp ..) (.inl rfl) ?_ fun x =>
    herr x φ (.refl φ)
  rintro ⟨out, o⟩
  refine follows_deferRemove <| follows_bind_of <| follows_attempt.mpr <|
    follows_effect (e := .createTemp ..) (.inl rfl) ?_ fun x => ?_
  case refine_2 =>
    refine follows_bind_of <| follows_aside (e := .close o) trivial (fun _ => rfl) fun _ => ?_
    exact ⟨⟨_, _, rfl, rfl⟩, herr x _ ⟨rfl, rfl, rfl⟩⟩
  rintro ⟨err, e⟩
  -- Both files are removed, whatever happens from here on.
  have hend {r : Except Err (List Char)} {ψ : Local} (h : Over φ ψ err out) (hq : Q ψ.pop.pop r) :
      (∃ t ts, ψ.temps = t :: ts ∧ t.path = err) ∧ (∃ t ts, ψ.pop.temps = t :: ts ∧ t.path = out) ∧
        Q ψ.pop.pop r :=
    ⟨h.pop.1, h.pop.2.1, hq⟩
  have hfail {x : Err} {ψ : Local} (h : Over φ ψ err out) := hend h (herr x _ h.pop.2.2)
  refine follows_deferRemove <| follows_bind_of <| follows_attempt.mpr <|
    follows_effect (e := .exec cmd o e) ⟨⟨_, _, _, rfl, rfl, rfl⟩,
      ha.mono rfl rfl rfl fun _ ht => .tail _ (.tail _ ht)⟩
      (fun _ => ?_) fun x => ?_
  all_goals
    refine follows_bind_of <| follows_aside (e := .close o) trivial (fun _ => rfl) fun _ => ?_
    refine follows_bind_of <| follows_aside (e := .close e) trivial (fun _ => rfl) fun _ => ?_
  case refine_1 =>
    have ho : Over φ (((φ.push ⟨out, o, .text []⟩).push ⟨err, e, .text []⟩).print (.output cmd)) err out :=
      ⟨rfl, ⟨_, _, rfl, rfl, rfl⟩, rfl⟩
    refine follows_bind_of <|
      follows_effect (e := .readFile out) trivial (fun stdout => ?_) fun _ => hfail ho
    refine follows_bind_of <| follows_effect (e := .readFile err) trivial
      (fun stderr => ?_) fun _ => hfail ho.hear
    refine hend ho.hear.hear (hok stdout _ ho.hear.hear.pop.2.2 fun p hp => ?_)
    exact stripped_hear (o := ⟨out, o, .output cmd⟩) rfl rfl hp
  case refine_2 =>
    have ho : Over φ (((φ.push ⟨out, o, .text []⟩).push ⟨err, e, .text []⟩).print .any) err out :=
      ⟨rfl, ⟨_, _, rfl, rfl, rfl⟩, rfl⟩
    refine follows_bind_of <|
      follows_effect (e := .readFile out) trivial (fun stdout => ?_) fun _ => hfail ho
    exact follows_bind_of <|
      follows_effect (e := .readFile err) trivial (fun _ => hfail ho) fun _ => hfail ho

theorem follows_validateInterfaceName {iface : String} {Q : Local → Except Err Unit → Prop}
    (hok : Awg.validInterfaceName iface = true → Q φ (.ok ())) (herr : ∀ x, Q φ (.error x)) :
    (c.validateInterfaceName iface).run.Follows (protocol c) Q φ := by
  unfold CLIExecutor.validateInterfaceName
  split
  case isTrue    => exact herr _
  case isFalse h => exact hok (by simpa using h)

theorem follows_fill {t : Temp} {ts : List Temp} {text : List Char} {Q : Local → Except Err Unit → Prop}
    (ht : φ.temps = t :: ts) (hok : Q { φ with temps := { t with content := .text text } :: ts } (.ok ()))
    (herr : ∀ x content, Q { φ with temps := { t with content := content } :: ts } (.error x)) :
    (CLIExecutor.fill t.file text).run.Follows (protocol c) Q φ := by
  obtain ⟨kind, temps, renamed, stripped⟩ := φ
  subst ht
  refine follows_bind_of <| follows_attempt.mpr <|
    follows_effect (e := .write t.file text) ⟨t, ts, rfl, rfl⟩
    (fun _ => ?_) fun x => ?_
  · exact follows_effect (e := .close t.file) trivial (fun _ => hok) fun x => herr x _
  · exact follows_bind_of <| follows_aside (e := .close t.file) trivial (fun _ => rfl) fun _ => herr x _

theorem follows_writeAtomic {i : String} {config full : List Char}
    {Q : Local → Except Err Unit → Prop} (hk : φ.kind = .syncConf i config)
    (hi : Awg.validInterfaceName i = true) (hf : Filled config full)
    (hok : Q { φ with renamed := true } (.ok ())) (herr : ∀ x, Q φ (.error x)) :
    (CLIExecutor.writeAtomic (c.rendered i) full).run.Follows (protocol c) Q φ := by
  refine follows_bind_of <| follows_effect (e := .createTemp ..) (.inl rfl) ?_ herr
  rintro ⟨p, f⟩
  have discard {ψ : Local} {x : Err} {t : Temp} (hψ : ψ = φ.push t) (ht : t.path = p) :
      (do let _ ← attempt (call (Eff.remove p)); throw x : Act Unit).run.Follows (protocol c) Q ψ := by
    subst hψ
    exact follows_bind_of <| follows_attempt.mpr <|
      follows_effect (e := .remove p) ⟨t, _, rfl, ht⟩ (fun _ => herr x) fun _ => herr x
  refine follows_bind_of <| follows_attempt.mpr <|
    follows_effect (e := .write f full) ⟨_, _, rfl, rfl⟩
    (fun _ => ?_) fun x => ?_
  case refine_2 =>
    exact follows_bind_of <| follows_aside (e := .close f) trivial (fun _ => rfl) fun _ =>
      discard (t := ⟨p, f, .any⟩) rfl rfl
  refine follows_bind_of <| follows_attempt.mpr <|
    follows_effect (e := .chmod f) trivial (fun _ => ?_) fun x => ?_
  case refine_2 =>
    exact follows_bind_of <| follows_aside (e := .close f) trivial (fun _ => rfl) fun _ =>
      discard (t := ⟨p, f, .text full⟩) rfl rfl
  refine follows_bind_of <| follows_attempt.mpr <|
    follows_effect (e := .close f) trivial (fun _ => ?_) fun x => ?_
  case refine_2 => exact discard (t := ⟨p, f, .text full⟩) rfl rfl
  exact follows_effect (e := .rename p (c.rendered i)) ⟨i, config, full, f, φ.temps, hk,
    rfl, hi, rfl, hf⟩
    (fun _ => hok) herr

theorem follows_preservePrivateKey {i : String} {config : List Char}
    {Q : Local → Except Err (List Char) → Prop} (ht : φ.temps = [])
    (hok : ∀ full ψ, Filled config full → Same φ ψ → Q ψ (.ok full)) :
    (c.preservePrivateKey i config).run.Follows (protocol c) Q φ := by
  have hboot {config' : List Char} {ψ : Local} (hs : Same φ ψ) (hf : Filled config config')
      (hf' : ∀ b, Filled config (Awg.preserveInterfacePrivateKey config' b)) :
      (c.fromBootstrap i config').run.Follows (protocol c) Q ψ := by
    have hn (b : List Char) : ψ.hear (c.bootstrap i) b = ψ := by simp [Local.hear, hs.temps, ht]
    refine follows_bind_of <| follows_attempt.mpr <|
      follows_effect (e := .readFile _) trivial (fun b => ?_) fun _ => ?_
    · show (pure _ : Act (List Char)).run.Follows (protocol c) Q (ψ.hear (c.bootstrap i) b)
      rw [hn]
      exact hok _ ψ (hf' b) hs
    · exact hok _ ψ hf hs
  unfold CLIExecutor.preservePrivateKey
  split
  case isTrue  => exact hok config φ (.inl rfl) (.refl φ)
  case isFalse =>
    refine follows_bind_of <| follows_attempt.mpr <|
      follows_run trivial (fun current ψ hs _ => ?_) fun _ ψ hs => ?_
    · have hf : Filled config (Awg.preserveInterfacePrivateKey config current) :=
        .inr (.inl ⟨current, rfl⟩)
      simp only [Then]
      split
      · exact hok _ _ hf hs
      · exact hboot hs hf fun b => .inr (.inr ⟨current, b, rfl⟩)
    · exact hboot hs (.inl rfl) fun b => .inr (.inl ⟨b, rfl⟩)

-- A call that has given up all of its files.
def Clean (φ : Local) (_ : Except Err α) : Prop :=
  φ.temps = []

-- The last file of a call is removed.
theorem clean_pop {p : Path} {t : Temp} {ts : List Temp} {r : Except Err α} (h : φ.temps = t :: ts)
    (hp : t.path = p) (ht : ts = []) : (∃ t ts, φ.temps = t :: ts ∧ t.path = p) ∧ Clean φ.pop r :=
  ⟨⟨t, ts, h, hp⟩, by simp [Clean, Local.pop, h, ht]⟩

theorem clean_run {f : List Char → Act α} (ht : φ.temps = []) (ha : AllowsCommand c φ cmd)
    (hf : ∀ out ψ, Same φ ψ → (f out).run.Follows (protocol c) Clean ψ) :
    (c.run cmd >>= f).run.Follows (protocol c) Clean φ :=
  follows_bind_of <| follows_run ha (fun out ψ h _ => hf out ψ h) fun _ _ h => h.temps.trans ht

theorem clean_syncConf {i : String} {config : List Char} (ht : φ.temps = [])
    (hk : φ.kind = .syncConf i config) :
    (c.syncConf i config).run.Follows (protocol c) Clean φ := by
  refine follows_bind_of <| follows_validateInterfaceName (fun hi => ?_) fun _ => ht
  refine follows_bind_of <| follows_preservePrivateKey ht fun full ψ hf hs => ?_
  have ht' := hs.temps.trans ht
  refine follows_bind_of <| follows_mapErr.mpr <|
    follows_effect (e := .mkdirAll _) trivial (fun _ => ?_) fun _ => ht'
  refine follows_bind_of <| follows_writeAtomic (hs.kind.trans hk) hi hf ?_ fun _ => ht'
  refine follows_bind_of <| follows_run ⟨i, config,
    hs.kind.trans hk, rfl, rfl⟩ (fun stripped χ hs' hout => ?_)
    fun _ _ h => h.temps.trans ht'
  have hkχ : χ.kind = .syncConf i config := hs'.kind.trans (hs.kind.trans hk)
  have htχ : χ.temps = [] := hs'.temps.trans ht'
  refine follows_bind_of <| follows_effect (e := .createTemp ..) (.inr ⟨i, hi, rfl, rfl⟩) ?_ fun _ => htχ
  rintro ⟨p, f⟩
  refine follows_deferRemove <| follows_bind_of <|
    follows_fill (t := ⟨p, f, .text []⟩) rfl ?_ fun _ _ =>
    clean_pop rfl rfl htχ
  exact follows_bind_of <| follows_run ⟨config, stripped, f, hkχ, hout _ rfl, by simp⟩
    (fun _ ω h _ => clean_pop h.temps rfl htχ) fun _ ω h => clean_pop h.temps rfl htχ

theorem clean_setPeer {i : String} {p : Awg.PeerSpec} (ht : φ.temps = [])
    (hk : φ.kind = .setPeer i p) :
    (c.setPeer i p).run.Follows (protocol c) Clean φ := by
  refine follows_bind_of <| follows_validateInterfaceName (fun hi => ?_) fun _ => ht
  simp only [Then]
  split
  case isTrue hp =>
    refine follows_bind_of <| follows_effect (e := .createTemp ..) (.inl rfl) ?_ fun _ => ht
    rintro ⟨q, f⟩
    refine follows_deferRemove <| follows_bind_of <|
      follows_fill (t := ⟨q, f, .text []⟩) rfl ?_ fun _ _ =>
      clean_pop rfl rfl ht
    exact follows_bind_of <| follows_run ⟨p, hk, rfl, by simp [hp], by simp⟩
      (fun _ ω h _ => clean_pop h.temps rfl ht) fun _ ω h => clean_pop h.temps rfl ht
  case isFalse hp =>
    exact clean_run ht ⟨p, hk, rfl, by simpa using hp, by simp⟩ fun _ _ h => h.temps.trans ht

theorem clean_interfaceUp {i : String} {path : Option Path} (ht : φ.temps = [])
    (hk : φ.kind = .interfaceUp i path) :
    (c.interfaceUp i path).run.Follows (protocol c) Clean φ := by
  refine follows_bind_of <| follows_validateInterfaceName (fun _ => ?_) fun _ => ht
  refine follows_bind_of <| follows_attempt.mpr <|
    follows_run trivial (fun _ _ h _ => h.temps.trans ht) fun _ ψ h => ?_
  exact clean_run (h.temps.trans ht) ⟨i, path, h.kind.trans hk, rfl⟩ fun _ _ h' =>
    h'.temps.trans (h.temps.trans ht)

theorem clean_interfaceDown {i : String} (ht : φ.temps = []) (hk : φ.kind = .interfaceDown i) :
    (c.interfaceDown i).run.Follows (protocol c) Clean φ := by
  refine follows_bind_of <| follows_validateInterfaceName (fun _ => ?_) fun _ => ht
  refine follows_bind_of <| follows_attempt.mpr <|
    follows_run trivial (fun _ ψ h _ => ?_) fun _ _ h => h.temps.trans ht
  exact clean_run (h.temps.trans ht) (h.kind.trans hk) fun _ _ h' => h'.temps.trans (h.temps.trans ht)

theorem clean_prog (k : Kind) : (c.prog k).run.Follows (protocol c) Clean { kind := k } := by
  have finish {α : Type} {x : Act α} {f : α → Result} {φ : Local} (h : x.run.Follows (protocol c) Clean φ) :
      (x >>= fun a => pure (f a)).run.Follows (protocol c) Clean φ :=
    follows_bind_of <| h.mono fun _ r hr => by cases r <;> exact hr
  have checked {α : Type} {i : String} {x : Act α} {k : Kind}
      (h : x.run.Follows (protocol c) Clean { kind := k }) :
      (c.validateInterfaceName i >>= fun _ => x).run.Follows (protocol c) Clean { kind := k } :=
    follows_bind_of <| follows_validateInterfaceName (fun _ => h) fun _ => rfl
  cases k
  case syncConf      => exact finish (clean_syncConf rfl rfl)
  case setPeer       => exact finish (clean_setPeer rfl rfl)
  case removePeer    => exact finish (checked (clean_run rfl rfl fun _ _ h => h.temps))
  case showConf      =>
    exact finish (checked (follows_run trivial (fun _ _ h _ => h.temps) fun _ _ h => h.temps))
  case interfaceUp   => exact finish (clean_interfaceUp rfl rfl)
  case interfaceDown => exact finish (clean_interfaceDown rfl rfl)
  case showDump      =>
    refine finish (checked (clean_run rfl trivial fun out _ h => ?_))
    cases Awg.parseShowDump (c.quote ∘ String.ofList) out <;> exact h.temps

end Rules

-- Every method keeps to the protocol, and has given up its files when it returns.
def discipline (c : CLIExecutor) (T : Tools) : (c.system T).Discipline Local where
  toProtocol := protocol c
  init       := fun k => { kind := k }
  Post       := Clean
  answers    := fun _ => trivial
  follows    := clean_prog

end Cli
