import AwgRest.Cli.Protocol
import AwgRest.Lib.Invariants

open Domain Fallible

-- The files of a call are its own: however the calls are interleaved, they hold what the call has
-- written to them.
namespace Cli

-- What an effect does to the host, whatever the environment chooses.
def Acts (T : Tools) (h h' : Host) : (e : Eff) → Except Err e.Answer → Prop
  | .createTemp dir before after, .ok (p, f) =>
    (∃ d, d ≠ [] ∧ d.all Char.isDigit ∧ p = ⟨dir, before ++ d ++ after⟩) ∧ h.files.names p = none ∧
      f = h.files.created ∧ h' = { h with files := h.files.create p [] }
  | .write f text, .ok _         => h' = { h with files := h.files.write f text }
  | .write f _, .error _         => ∃ text, h' = { h with files := h.files.write f text }
  | .rename old new, .ok _       => ∃ n hn, h' = { h with files := h.files.rename old new n hn }
  | .remove p, .ok _             => h' = { h with files := h.files.remove p }
  | .readFile p, .ok text        => h' = h ∧ h.files.read p = some text
  | .exec cmd out err, .ok _     =>
    ∃ text errors links, T.perform h cmd = some (text, links) ∧
      h' = ⟨(h.files.write out text).write err errors, links⟩
  | .exec cmd out err, .error _  =>
    ∃ text errors links, (links = h.links ∨ ∃ s, T.perform h cmd = some (s, links)) ∧
      h' = ⟨(h.files.write out text).write err errors, links⟩
  | _, _                         => h' = h

variable {c : CLIExecutor} {T : Tools} {h h' : Host} {φ ψ : Local} {e : Eff}
  {r : Except Err e.Answer} {τ : List Ev}
  {i : String} {p : Path}

theorem acts_of_exec {x : Choice} (hx : h.exec T x e = some (r, h')) : Acts T h h' e r := by
  cases e <;> simp only [Host.exec] at hx
  case createTemp dir before after =>
    split at hx
    case h_1 => cases hx; rfl
    case h_2 =>
      split at hx
      case isTrue hd => cases hx; exact ⟨⟨x.random, hd.1, hd.2.1, rfl⟩, hd.2.2, rfl, rfl⟩
      case isFalse   => cases hx
  case write =>
    split at hx <;> cases hx
    case h_1 => exact ⟨_, rfl⟩
    case h_2 => rfl
  case rename =>
    split at hx <;> cases hx
    case h_3 => exact ⟨_, _, rfl⟩
    all_goals rfl
  case readFile =>
    split at hx <;> cases hx
    case h_3 hr => exact ⟨rfl, hr⟩
    all_goals rfl
  case exec cmd out err =>
    split at hx <;> cases hx
    case h_1 hp => exact ⟨_, _, _, hp, rfl⟩
    case h_2    => exact ⟨_, _, _, .inl rfl, rfl⟩
    case h_3    =>
      refine ⟨_, _, _, ?_, rfl⟩
      cases x.took <;> cases hp : T.perform h cmd
      case true.some r => exact .inr ⟨r.1, by simp⟩
      all_goals exact .inl rfl
  all_goals
    split at hx <;> cases hx
    all_goals rfl

-- The name of an interface that the configuration of no other interface gets when it is stripped.
def Plain (i : String) : Prop :=
  ¬ "-stripped-".toList <:+: i.toList

instance : Decidable (Plain i) := inferInstanceAs (Decidable (¬ _))

theorem temp_ne_rendered {dir : String} {before after d : List Char} (ha : IsPattern before after)
    (hd : d ≠ []) (hdig : d.all Char.isDigit) (hi : Plain i) :
    (⟨dir, before ++ d ++ after⟩ : Path) ≠ c.rendered i := by
  intro h
  have hname : before ++ d ++ after = i.toList ++ ".conf".toList := congrArg Path.name h
  rcases ha with rfl | ⟨j, -, rfl, rfl⟩
  · -- The last character is a digit.
    have hlast := congrArg List.getLast? hname
    rw [List.append_nil, List.getLast?_append_of_ne_nil _ hd,
      List.getLast?_append_of_ne_nil _ (by decide)] at hlast
    have hf : 'f' ∈ d := List.mem_of_getLast? hlast
    exact absurd (List.all_eq_true.mp hdig _ hf) (by decide)
  · have hj := List.append_cancel_right hname
    exact hi ⟨j.toList, d, hj⟩

-- A configuration that `SyncConf` has been called with for an interface, with at most the private
-- key filled in.
def Complete (τ : List Ev) (i : String) (full : List Char) : Prop :=
  ∃ pid config, .spawn pid (.syncConf i config) ∈ τ ∧ Filled config full

-- Such a configuration is where it belongs.
def InPlace (c : CLIExecutor) (τ : List Ev) (h : Host) (i : String) : Prop :=
  ∃ n, h.files.names (c.rendered i) = some n ∧ Complete τ i (h.files.data n)

def Stripped (T : Tools) (τ : List Ev) (k : Kind) (text : List Char) : Prop :=
  ∃ i config full, k = .syncConf i config ∧ Complete τ i full ∧ text = T.strip full

def Matches (T : Tools) (τ : List Ev) (k : Kind) (data : List Char) : Content → Prop
  | .text t            => data = t
  | .output (.strip _) => Stripped T τ k data
  | _                  => True

structure Owned (c : CLIExecutor) (T : Tools) (τ : List Ev) (h : Host) (φ : Local) : Prop where
  spawned  : ∃ pid, .spawn pid φ.kind ∈ τ
  plain    : ∀ {i config}, φ.kind = .syncConf i config → Plain i
  named    : ∀ {t}, t ∈ φ.temps → h.files.names t.path = some t.file
  content  : ∀ {t}, t ∈ φ.temps → Matches T τ φ.kind (h.files.data t.file) t.content
  aside    : ∀ {t i}, t ∈ φ.temps → Plain i → t.path ≠ c.rendered i
  apart    : φ.temps.Pairwise fun t t' => t.path ≠ t'.path
  renamed  : ∀ {i config}, φ.kind = .syncConf i config → φ.renamed = true → InPlace c τ h i
  stripped : ∀ {s}, φ.stripped = some s → Stripped T τ φ.kind s

theorem Complete.mono {ev : Ev} {full : List Char} (h : Complete τ i full) :
    Complete (τ ++ [ev]) i full := by
  obtain ⟨pid, config, hm, hf⟩ := h
  exact ⟨pid, config, List.mem_append_left _ hm, hf⟩

theorem Stripped.mono {ev : Ev} {k : Kind} {text : List Char} (h : Stripped T τ k text) :
    Stripped T (τ ++ [ev]) k text := by
  obtain ⟨i, config, full, hk, hf, ht⟩ := h
  exact ⟨i, config, full, hk, hf.mono, ht⟩

theorem InPlace.mono {ev : Ev} (hi : InPlace c τ h i) : InPlace c (τ ++ [ev]) h i := by
  obtain ⟨n, hn, hc⟩ := hi
  exact ⟨n, hn, hc.mono⟩

theorem InPlace.keep (hi : InPlace c τ h i) (hk : h.files.Keeps h'.files (c.rendered i)) :
    InPlace c τ h' i := by
  obtain ⟨n, hn, hc⟩ := hi
  obtain ⟨hn', hd⟩ := hk n hn
  exact ⟨n, hn', hd ▸ hc⟩

theorem Matches.mono {ev : Ev} {k : Kind} {data : List Char} {x : Content}
    (h : Matches T τ k data x) :
    Matches T (τ ++ [ev]) k data x := by
  unfold Matches at h ⊢
  split at h
  case h_2 => exact h.mono
  all_goals exact h

namespace Owned

theorem mono {ev : Ev} (o : Owned c T τ h φ) : Owned c T (τ ++ [ev]) h φ where
  spawned       := o.spawned.imp fun _ hm => List.mem_append_left _ hm
  plain         := o.plain
  named         := o.named
  content ht    := (o.content ht).mono
  aside         := o.aside
  apart         := o.apart
  renamed hk hr := (o.renamed hk hr).mono
  stripped hs   := (o.stripped hs).mono

theorem spawn {pid : Nat} {k : Kind} (hp : ∀ {i config}, k = .syncConf i config → Plain i) :
    Owned c T (τ ++ [.spawn pid k]) h { kind := k } where
  spawned       := ⟨pid, by simp⟩
  plain         := hp
  named ht      := nomatch ht
  content ht    := nomatch ht
  aside ht      := nomatch ht
  apart         := .nil
  renamed _ hr  := nomatch hr
  stripped hs   := nomatch hs

-- The files of a call stay as they are.
theorem frame (o : Owned c T τ h φ) (hk : ∀ t ∈ φ.temps, h.files.Keeps h'.files t.path)
    (hr : ∀ {i}, Plain i → InPlace c τ h i → InPlace c τ h' i) : Owned c T τ h' φ where
  spawned         := o.spawned
  plain           := o.plain
  named ht        := (hk _ ht _ (o.named ht)).1
  content {t} ht  := by
    rw [(hk t ht _ (o.named ht)).2]
    exact o.content ht
  aside           := o.aside
  apart           := o.apart
  renamed hφ hren := hr (o.plain hφ) (o.renamed hφ hren)
  stripped        := o.stripped

theorem push (o : Owned c T τ h φ) {t : Temp} (hn : h.files.names t.path = some t.file)
    (hm : Matches T τ φ.kind (h.files.data t.file) t.content)
    (ha : ∀ {i}, Plain i → t.path ≠ c.rendered i) (hf : ∀ t' ∈ φ.temps, t.path ≠ t'.path) :
    Owned c T τ h (φ.push t) where
  spawned  := o.spawned
  plain    := o.plain
  named    := by
    rintro t' (_ | ⟨_, ht⟩)
    · exact hn
    · exact o.named ht
  content  := by
    rintro t' (_ | ⟨_, ht⟩)
    · exact hm
    · exact o.content ht
  aside    := by
    rintro t' i (_ | ⟨_, ht⟩) hi
    · exact ha hi
    · exact o.aside ht hi
  apart    := .cons hf o.apart
  renamed  := o.renamed
  stripped := o.stripped

theorem drop (o : Owned c T τ h φ) (n : Nat) : Owned c T τ h { φ with temps := φ.temps.drop n } where
  spawned    := o.spawned
  plain      := o.plain
  named ht   := o.named (List.mem_of_mem_drop ht)
  content ht := o.content (List.mem_of_mem_drop ht)
  aside ht   := o.aside (List.mem_of_mem_drop ht)
  apart      := o.apart.drop
  renamed    := o.renamed
  stripped   := o.stripped

end Owned

-- How many of the newest files of a call an effect may change.
def Eff.uses : Eff → Nat
  | .write .. | .rename .. | .remove _ => 1
  | .exec ..                           => 2
  | _                                  => 0

-- Everything else stays as it is.
theorem keeps_of_acts (o : Owned c T τ h φ) (ha : Allows c φ e) (hx : Acts T h h' e r)
    (hp : ∀ t ∈ φ.temps.take e.uses, p ≠ t.path) (hr : ∀ {old new}, e = .rename old new → p ≠ new) :
    h.files.Keeps h'.files p := by
  have idle (hx : h' = h) : h.files.Keeps h'.files p := hx ▸ .refl _ _
  cases e <;> rcases r with x | a
  case createTemp.ok =>
    obtain ⟨-, hn, -, rfl⟩ := hx
    exact FileSystem.keeps_create hn
  case write.error =>
    obtain ⟨⟨t, ts, ht, rfl⟩, ⟨text, rfl⟩⟩ := ha, hx
    exact FileSystem.keeps_write (o.named (by simp [ht])) (hp t (by simp [ht, Eff.uses]))
  case write.ok =>
    obtain ⟨⟨t, ts, ht, rfl⟩, rfl⟩ := ha, hx
    exact FileSystem.keeps_write (o.named (by simp [ht])) (hp t (by simp [ht, Eff.uses]))
  case rename.ok =>
    obtain ⟨i, config, full, f, ts, -, rfl, -, ht, -⟩ := ha
    obtain ⟨n, hn, rfl⟩ := hx
    exact FileSystem.keeps_rename hn (hp ⟨_, f, .text full⟩ (by simp [ht, Eff.uses])) (hr rfl)
  case remove.ok =>
    obtain ⟨⟨t, ts, ht, rfl⟩, rfl⟩ := ha, hx
    exact FileSystem.keeps_remove (hp t (by simp [ht, Eff.uses]))
  case readFile.ok => exact idle hx.1
  case exec.error | exec.ok =>
    obtain ⟨⟨e, o', ts, ht, rfl, rfl⟩, -⟩ := ha
    obtain ⟨text, errors, links, -, rfl⟩ := hx
    have ho : h.files.names o'.path = some o'.file := o.named (by simp [ht])
    have he : (h.files.write o'.file text).names e.path = some e.file := o.named (by simp [ht])
    exact (FileSystem.keeps_write ho (hp o' (by simp [ht, Eff.uses]))).trans
      (FileSystem.keeps_write he (hp e (by simp [ht, Eff.uses])))
  all_goals exact idle hx

theorem inPlace_rename {old new : Path} {config : List Char} (o : Owned c T τ h φ)
    (ha : Allows c φ (.rename old new)) (hk : φ.kind = .syncConf i config) {n : Nat}
    (hn : h.files.names old = some n) :
    new = c.rendered i ∧ InPlace c τ { h with files := h.files.rename old new n hn } i := by
  obtain ⟨j, config', full, f, ts, hj, rfl, -, ht, hf⟩ := ha
  cases hj.symm.trans hk
  have hmem : ⟨old, f, .text full⟩ ∈ φ.temps := by simp [ht]
  obtain rfl : n = f := Option.some.inj (hn.symm.trans (o.named hmem))
  have hdata : h.files.data n = full := o.content hmem
  obtain ⟨pid, hm⟩ := o.spawned
  refine ⟨rfl, n, by simp, pid, config, hk ▸ hm, ?_⟩
  simpa [hdata] using hf

theorem inPlace_of_acts (o : Owned c T τ h φ) (ha : Allows c φ e) (hx : Acts T h h' e r)
    (hi : Plain i) (hp : InPlace c τ h i) : InPlace c τ h' i := by
  by_cases hr : ∃ old, e = .rename old (c.rendered i)
  case neg =>
    refine hp.keep (keeps_of_acts o ha hx (fun t ht => ?_) ?_)
    · exact (o.aside (List.mem_of_mem_take ht) hi).symm
    · rintro old new rfl rfl
      exact hr ⟨old, rfl⟩
  case pos =>
    obtain ⟨old, rfl⟩ := hr
    cases r
    case error => exact (hx : h' = h) ▸ hp
    case ok    =>
      obtain ⟨n, hn, rfl⟩ := hx
      obtain ⟨j, config, -, -, -, hk, hj, -⟩ := id ha
      obtain rfl : i = j := String.toList_injective
        (by simpa [CLIExecutor.rendered, CLIExecutor.confFile] using hj)
      exact (inPlace_rename o ha hk hn).2

-- The files that a call has are its older ones, the ones that the effect has changed, and the one
-- that it has made.
theorem rest_of_acts (o : Owned c T τ h φ) (ha : Allows c φ e) (hx : Acts T h h' e r) :
    Owned c T τ h' { φ with temps := φ.temps.drop e.uses } := by
  refine (o.drop e.uses).frame (fun t ht => keeps_of_acts o ha hx (fun t' ht' => ?_) ?_)
    (inPlace_of_acts o ha hx)
  · have happ := o.apart
    rw [← List.take_append_drop e.uses φ.temps, List.pairwise_append] at happ
    exact (happ.2.2 t' ht' t ht).symm
  · rintro old new rfl
    obtain ⟨j, config, -, -, -, hk, rfl, -⟩ := ha
    exact o.aside (List.mem_of_mem_drop ht) (o.plain hk)

-- An effect after which the newest file of a call has another content.
theorem owned_fill {t : Temp} {ts : List Temp} {x : Content} (o : Owned c T τ h φ) (ht : φ.temps = t :: ts)
    (ho : Owned c T τ h' { φ with temps := ts }) (hn : h'.files.names t.path = some t.file)
    (hm : Matches T τ φ.kind (h'.files.data t.file) x) : Owned c T τ h' (φ.fill x) := by
  have happ := o.apart
  rw [ht, List.pairwise_cons] at happ
  have := ho.push (t := { t with content := x }) hn hm (o.aside (t := t) (by simp [ht])) happ.1
  simpa [Local.fill, Local.push, ht] using this

-- The same of the newest two.
theorem owned_print {t u : Temp} {ts : List Temp} {x y : Content} (o : Owned c T τ h φ)
    (ht : φ.temps = t :: u :: ts)
    (ho : Owned c T τ h' { φ with temps := ts }) (hn : h'.files.names = h.files.names)
    (hu : Matches T τ φ.kind (h'.files.data u.file) x) (hy : Matches T τ φ.kind (h'.files.data t.file) y) :
    Owned c T τ h' { φ with temps := { t with content := y } :: { u with content := x } :: ts } := by
  have happ := o.apart
  rw [ht, List.pairwise_cons, List.pairwise_cons] at happ
  obtain ⟨hot, hou, -⟩ := happ
  have hmt : t ∈ φ.temps := by simp [ht]
  have hmu : u ∈ φ.temps := by simp [ht]
  have hpu : Owned c T τ h' { φ with temps := { u with content := x } :: ts } :=
    ho.push (hn ▸ o.named (t := u) hmu) hu (o.aside (t := u) hmu) hou
  refine hpu.push (hn ▸ o.named (t := t) hmt) hy (o.aside (t := t) hmt) ?_
  rintro t' (_ | ⟨_, ht'⟩)
  · exact hot u (.head _)
  · exact hot t' (.tail _ ht')

theorem owned_hear {text : List Char} (o : Owned c T τ h φ) (hr : h.files.read p = some text) :
    Owned c T τ h (φ.hear p text) := by
  unfold Local.hear
  split
  case h_2 => exact o
  case h_1 t q f q' ts ht =>
    split
    case isFalse   => exact o
    case isTrue hq =>
      subst hq
      have hmem : ⟨p, f, .output (.strip q')⟩ ∈ φ.temps := by simp [ht]
      have hdata : h.files.data f = text := Option.some.inj
        ((FileSystem.read_eq (o.named hmem)).symm.trans hr)
      have hs : Stripped T τ φ.kind text := hdata ▸ o.content hmem
      have hrest : Owned c T τ h { φ with temps := ts } := by simpa [ht] using o.drop 2
      have hall := owned_print (x := .any) o ht hrest rfl trivial (o.content (t := t) (by simp [ht]))
      exact { hall with stripped := by rintro _ ⟨⟩; exact hs }

-- What a command that succeeds prints.
theorem matches_of_perform {cmd : Command} {text : List Char} {links : String → Option (List Change)}
    (o : Owned c T τ h φ) (ha : AllowsCommand c φ cmd) (hp : T.perform h cmd = some (text, links)) :
    Matches T τ φ.kind text (.output cmd) := by
  cases cmd <;> try trivial
  case strip q =>
    obtain ⟨i, config, hk, rfl, hr⟩ := ha
    obtain ⟨n, hn, hc⟩ := o.renamed hk hr
    simp only [Tools.perform, FileSystem.read_eq hn, Option.map_some, Option.some.injEq,
      Prod.mk.injEq] at hp
    exact ⟨i, config, h.files.data n, hk, hc, hp.1.symm⟩

theorem owned_of_acts (o : Owned c T τ h φ) (ha : Allows c φ e) (hx : Acts T h h' e r) :
    Owned c T τ h' (φ.next e r) := by
  have hrest := rest_of_acts o ha hx
  cases e <;> rcases r with x | a
  case createTemp.ok dir before after =>
    obtain ⟨q, f⟩ := a
    obtain ⟨⟨d, hd, hdig, rfl⟩, hn, rfl, rfl⟩ := hx
    refine hrest.push ?_ ?_ (temp_ne_rendered ha hd hdig) fun t ht heq => ?_
    · simp
    · exact FileSystem.data_create_self
    · have := o.named (t := t) (by simpa [Eff.uses] using ht)
      rw [← heq, hn] at this
      cases this
  case write.error =>
    obtain ⟨⟨t, ts, ht, rfl⟩, ⟨text, rfl⟩⟩ := ha, hx
    exact owned_fill o ht (by simpa [Eff.uses, ht] using hrest) (o.named (by simp [ht])) trivial
  case write.ok =>
    obtain ⟨⟨t, ts, ht, rfl⟩, rfl⟩ := ha, hx
    exact owned_fill o ht (by simpa [Eff.uses, ht] using hrest)
      (o.named (by simp [ht])) FileSystem.data_write_self
  case rename.ok =>
    have hpop : Owned c T τ h' φ.pop := by simpa [Local.pop, Eff.uses] using hrest
    obtain ⟨n, hn, rfl⟩ := hx
    exact { hpop with renamed := fun hk _ => (inPlace_rename o ha hk hn).2 }
  case rename.error | remove.ok | remove.error => simpa [Local.next, Local.pop, Eff.uses] using hrest
  case readFile.ok =>
    obtain ⟨rfl, hr⟩ := hx
    exact owned_hear o hr
  case exec.error =>
    obtain ⟨⟨t, u, ts, ht, rfl, rfl⟩, -⟩ := ha
    obtain ⟨text, errors, links, -, rfl⟩ := hx
    simp only [Local.next, Local.print, ht]
    exact owned_print o ht (by simpa [Eff.uses, ht] using hrest) rfl trivial trivial
  case exec.ok cmd out err =>
    obtain ⟨⟨t, u, ts, ht, rfl, rfl⟩, ha⟩ := ha
    obtain ⟨text, errors, links, hp, rfl⟩ := hx
    simp only [Local.next, Local.print, ht]
    refine owned_print o ht (by simpa [Eff.uses, ht] using hrest) rfl ?_ trivial
    -- The errors do not go to the file that takes the output.
    have hne : u.file ≠ t.file := by
      have happ := o.apart
      rw [ht, List.pairwise_cons] at happ
      exact FileSystem.ne_of_names (o.named (by simp [ht])) (o.named (by simp [ht]))
        (happ.1 u (.head _)).symm
    have hdata : ((h.files.write u.file text).write t.file errors).data u.file = text := by
      rw [FileSystem.data_write_of_ne hne, FileSystem.data_write_self]
    exact hdata.symm ▸ matches_of_perform o ha hp
  all_goals exact hrest

-- The files that a call has after an effect.
theorem names_next (pid : Nat) {x : Path × Nat} (hm : x ∈ (φ.next e r).names) :
    x ∈ φ.names ∨ ∃ dir before after, (.act pid e r : Ev) = .act pid (.createTemp dir before after)
      (.ok x) := by
  unfold Local.next at hm
  split at hm
  case h_1 dir before after q f =>
    obtain rfl | hm := List.mem_cons.mp hm
    · exact .inr ⟨dir, before, after, rfl⟩
    · exact .inl hm
  case h_4 | h_5 | h_6 => exact .inl (List.mem_of_mem_tail (Local.names_pop ▸ hm))
  all_goals exact .inl (by simpa using hm)

-- What holds at every point of a run.
structure Owning (c : CLIExecutor) (T : Tools) (τ : List Ev) (h : Host)
    (L : Nat → Option Local) : Prop where
  owned : ∀ {pid φ}, L pid = some φ → Owned c T τ h φ
  apart : ∀ {pid q φ ψ t u}, pid ≠ q → L pid = some φ → L q = some ψ → t ∈ φ.temps → u ∈ ψ.temps →
    t.path ≠ u.path

namespace Owning

variable {L : Nat → Option Local} {pid : Nat}

theorem mono {ev : Ev} (I : Owning c T τ h L) : Owning c T (τ ++ [ev]) h L where
  owned hl := (I.owned hl).mono
  apart    := I.apart

-- A call that has not begun or that has ended has no files.
theorem update {x : Option Local} (I : Owning c T τ h L)
    (hx : ∀ {φ}, x = some φ → Owned c T τ h φ ∧ φ.temps = []) :
    Owning c T τ h (Function.update L pid x) where
  owned {q φ} hl := by
    rw [Function.update_apply] at hl
    split at hl
    case isTrue  => exact (hx hl).1
    case isFalse => exact I.owned hl
  apart {p q φ ψ t u} hne hp hq ht hu := by
    rw [Function.update_apply] at hp hq
    split at hp
    case isTrue => simp [(hx hp).2] at ht
    split at hq
    case isTrue => simp [(hx hq).2] at hu
    exact I.apart hne hp hq ht hu

theorem act (I : Owning c T τ h L) (hl : L pid = some φ) (ha : Allows c φ e) (hx : Acts T h h' e r) :
    Owning c T (τ ++ [.act pid e r]) h' (Function.update L pid (some (φ.next e r))) := by
  have o := I.owned hl
  -- What the call has after the effect is not a file of another call.
  have hother {q : Nat} {ψ : Local} {t u : Temp} (hne : pid ≠ q) (hq : L q = some ψ)
    (ht : t ∈ (φ.next e r).temps)
      (hu : u ∈ ψ.temps) : t.path ≠ u.path := by
    rcases names_next pid (Local.mem_names ht) with hm | ⟨dir, before, after, hev⟩
    · obtain ⟨t', ht', hp, -⟩ := Local.exists_of_mem_names hm
      exact hp ▸ I.apart hne hl hq ht' hu
    · cases hev
      intro hp
      cases (hp ▸ hx.2.1).symm.trans ((I.owned hq).named hu)
  constructor
  case owned =>
    intro q ψ hq
    rw [Function.update_apply] at hq
    split at hq
    case isTrue =>
      cases hq
      exact (owned_of_acts o ha hx).mono
    case isFalse hne =>
      refine ((I.owned hq).frame (fun u hu => keeps_of_acts o ha hx (fun t ht => ?_) ?_)
        (inPlace_of_acts o ha hx)).mono
      · exact I.apart hne hq hl hu (List.mem_of_mem_take ht)
      · rintro old new rfl
        obtain ⟨j, config, -, -, -, hk, rfl, -⟩ := ha
        exact (I.owned hq).aside hu (o.plain hk)
  case apart =>
    intro p q ψ χ t u hne hp hq ht hu
    rw [Function.update_apply] at hp hq
    split at hp <;> split at hq
    case isTrue.isTrue h₁ h₂ => exact absurd (h₁.trans h₂.symm) hne
    case isTrue.isFalse h₁ _ =>
      cases hp
      exact hother (h₁ ▸ hne) hq ht hu
    case isFalse.isTrue _ h₂ =>
      cases hq
      exact (hother (h₂ ▸ hne.symm) hp hu ht).symm
    case isFalse.isFalse => exact I.apart hne hp hq ht hu

end Owning

-- No call configures an interface that another interface could be taken for.
def PlainNames :
    System.Guard (fun e : Eff => Except Err e.Answer) Host Kind Unit (Except Err Result) :=
  fun _ _ ev => ∀ {pid i config}, ev = .spawn pid (.syncConf i config) → Plain i

instance {h : Host} {ev : Ev} : Decidable (PlainNames τ h ev) :=
  match ev with
  | .spawn pid (.syncConf i _) =>
    decidable_of_iff (Plain i) ⟨by rintro hi _ _ _ ⟨⟩; exact hi, fun hp => hp rfl⟩
  | .spawn _ (.setPeer ..) | .spawn _ (.removePeer ..) | .spawn _ (.showDump _) | .spawn _ (.showConf _)
  | .spawn _ (.interfaceUp ..) | .spawn _ (.interfaceDown _) | .act .. | .done .. | .crash _ | .tick _ =>
    .isTrue (by rintro _ _ _ ⟨⟩)

theorem owning_of_trace {h₀ : Host} (ht : (discipline c T).Trace PlainNames h₀ τ h) :
    Owning c T τ h ((discipline c T).locals τ) := by
  refine ht.invariant (I := Owning c T) ⟨nofun, fun _ => nofun⟩ ?spawn ?act ?done ?crash ?tick
  case spawn =>
    intro τ h L pid k I _ hg
    refine I.mono.update fun hk => ?_
    cases hk
    exact ⟨.spawn fun hk => hg (by rw [hk]), rfl⟩
  case act   => exact fun I hl ha hx _ => I.act hl ha (acts_of_exec hx)
  case done  => exact fun I _ _ => I.mono.update nofun
  case crash => exact fun I _ => I.mono.update nofun
  case tick  => exact fun I => I.mono

end Cli
