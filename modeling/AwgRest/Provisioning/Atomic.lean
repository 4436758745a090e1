import AwgRest.Provisioning.Ledger

open Domain Netip Store

-- What the events of a run tell about a command, and what all the commands have achieved together.
namespace Bootstrap

variable {b : Bootstrap} {w₀ w : World} {τ : List Ev} {pid f : Nat} {φ : Progress} {e : Entry}
  {o : V31NodeOptions} {d : Draw} {path : String}

namespace Progress

variable {x : Eff} {r : Except Err x.Answer}

theorem opts_next : (φ.next x r).opts = φ.opts := by
  obtain ⟨ψ, hl, hn⟩ := φ.learned x r
  rw [hn]
  cases hl <;> rfl

-- Keys are only drawn once, and only one file is created.

theorem key_next {k : String} (ha : b.Allows φ x) (h : φ.key = some k) :
    (φ.next x r).key = some k := by
  obtain ⟨ψ, hl, hn⟩ := φ.learned x r
  rw [hn]
  cases hl <;> first | exact h | cases h.symm.trans ha

theorem keyPair_next {kp : Crypto.KeyPair} (ha : b.Allows φ x) (h : φ.keyPair = some kp) :
    (φ.next x r).keyPair = some kp := by
  obtain ⟨ψ, hl, hn⟩ := φ.learned x r
  rw [hn]
  cases hl <;> first | exact h | cases h.symm.trans ha

theorem opened_next (ha : b.Allows φ x) (h : φ.opened = some f) : (φ.next x r).opened = some f := by
  obtain ⟨ψ, hl, hn⟩ := φ.learned x r
  rw [hn]
  cases hl <;> first | exact h | cases h.symm.trans ha.2.1

-- Where things are known from.

abbrev Reply := (x : Eff) × Except Err x.Answer

theorem of_key_next {k : String} (h : (φ.next x r).key = some k) :
    φ.key = some k ∨ (⟨x, r⟩ : Reply) = ⟨.randomKey, .ok k⟩ := by
  obtain ⟨ψ, hl, hn⟩ := φ.learned x r
  rw [hn] at h
  cases hl
  case key => cases h; exact .inr rfl
  all_goals exact .inl h

theorem of_keyPair_next {kp : Crypto.KeyPair} (h : (φ.next x r).keyPair = some kp) :
    φ.keyPair = some kp ∨ (⟨x, r⟩ : Reply) = ⟨.keyPair, .ok kp⟩ := by
  obtain ⟨ψ, hl, hn⟩ := φ.learned x r
  rw [hn] at h
  cases hl
  case keyPair => cases h; exact .inr rfl
  all_goals exact .inl h

theorem of_committed_next (h : (φ.next x r).committed ≠ none) :
    φ.committed ≠ none ∨ (⟨x, r⟩ : Reply) = ⟨.commit, .ok ()⟩ := by
  obtain ⟨ψ, hl, hn⟩ := φ.learned x r
  rw [hn] at h
  cases hl
  case commit => exact .inr rfl
  all_goals exact .inl h

theorem of_stuck_next (h : (φ.next x r).stuck = true) :
    φ.stuck = true ∨ ∃ path e, (⟨x, r⟩ : Reply) = ⟨.file (.remove path), .ok (some e)⟩ := by
  obtain ⟨ψ, hl, hn⟩ := φ.learned x r
  rw [hn] at h
  cases hl
  case stuck => exact .inr ⟨_, _, rfl⟩
  all_goals exact .inl h

theorem of_file_next {text : Option (List Char)} (h : (φ.next x r).file = some ⟨path, f, text⟩) :
    (∃ text, φ.file = some ⟨path, f, text⟩) ∨ (⟨x, r⟩ : Reply) = ⟨.openNew path, .ok (.new f)⟩ := by
  obtain ⟨ψ, hl, hn⟩ := φ.learned x r
  rw [hn] at h
  cases hl
  case opened  => cases h; exact .inr rfl
  case written =>
    obtain ⟨g, hg, he⟩ := Option.map_eq_some_iff.mp h
    cases he
    exact .inl ⟨_, hg⟩
  case removed => cases h
  all_goals exact .inl ⟨_, h⟩

end Progress

section Events

variable (hφ : b.discipline.memory τ pid = some φ)

include hφ

theorem act_of_memory {J : Progress → Prop} {Q : Progress.Reply → Prop} (hi : ∀ o, ¬ J { opts := o })
    (hn : ∀ {φ x r}, J (φ.next x r) → J φ ∨ Q ⟨x, r⟩) (hj : J φ) :
    ∃ x r, Q ⟨x, r⟩ ∧ .act pid x r ∈ τ :=
  System.act_of_remember (fun _ => hi _) hn hφ hj

theorem act_of_key {k : String} (hk : φ.key = some k) : .act pid .randomKey (.ok k) ∈ τ := by
  obtain ⟨x, r, ⟨⟩, hm⟩ := act_of_memory hφ (J := (·.key = some k))
    (Q := (· = ⟨.randomKey, .ok k⟩)) nofun Progress.of_key_next hk
  exact hm

theorem act_of_keyPair {kp : Crypto.KeyPair} (hk : φ.keyPair = some kp) :
    .act pid .keyPair (.ok kp) ∈ τ := by
  obtain ⟨x, r, ⟨⟩, hm⟩ := act_of_memory hφ (J := (·.keyPair = some kp))
    (Q := (· = ⟨.keyPair, .ok kp⟩)) nofun Progress.of_keyPair_next hk
  exact hm

theorem act_of_committed (hc : φ.committed ≠ none) : .act pid .commit (.ok ()) ∈ τ := by
  obtain ⟨x, r, ⟨⟩, hm⟩ := act_of_memory hφ (J := (·.committed ≠ none))
    (Q := (· = ⟨.commit, .ok ()⟩)) (fun _ h => h rfl) Progress.of_committed_next hc
  exact hm

theorem act_of_file {text : Option (List Char)} (hf : φ.file = some ⟨path, f, text⟩) :
    .act pid (.openNew path) (.ok (.new f)) ∈ τ := by
  obtain ⟨x, r, ⟨⟩, hm⟩ := act_of_memory hφ (J := fun φ => ∃ text, φ.file = some ⟨path, f, text⟩)
    (Q := (· = ⟨.openNew path, .ok (.new f)⟩)) nofun (fun ⟨_, h⟩ => Progress.of_file_next h) ⟨_, hf⟩
  exact hm

theorem stuck_of_memory (hs : φ.stuck = true) : Stuck τ pid := by
  obtain ⟨x, r, ⟨path, e, ⟨⟩⟩, hm⟩ := act_of_memory hφ (J := (·.stuck = true))
    (Q := fun y => ∃ path e, y = ⟨.file (.remove path), .ok (some e)⟩) nofun Progress.of_stuck_next hs
  exact ⟨path, e, hm⟩

end Events

section Runs

variable (h : b.discipline.Trace undying w₀ τ w)

include h

theorem memory_of_spawn (hs : .spawn pid o ∈ τ) :
    ∃ φ, b.discipline.memory τ pid = some φ ∧ φ.opts = normalizeV31NodeOptions o :=
  h.of_sets hs (.spawn rfl) (fun _ hi => Progress.opts_next.trans hi)

theorem memory_of_openNew (ho : .act pid (.openNew path) (.ok (.new f)) ∈ τ) :
    ∃ φ, b.discipline.memory τ pid = some φ ∧ φ.opened = some f :=
  h.of_sets ho (.act fun _ => rfl) Progress.opened_next

-- What a command has committed is what it was to make.
theorem memory_of_commit (hc : .act pid .commit (.ok ()) ∈ τ) :
    ∃ φ, b.discipline.memory τ pid = some φ ∧ ∃ d e text, b.Makes φ.opts d e text ∧
      φ.key = some d.key ∧ φ.keyPair = some d.keyPair ∧ φ.committed = some e.writes := by
  refine h.of_sets hc (.act ?_) ?_
  · rintro φ ⟨e, ⟨hm, hk, hkp, -, -⟩, ht, -, -, -⟩
    exact ⟨_, _, _, hm, hk, hkp, ht⟩
  · rintro φ x r ha ⟨d, e, text, hm, hk, hkp, hc⟩
    have hx : ¬ x.Commits r := by
      intro hx
      cases x <;> cases r <;> cases hx
      obtain ⟨_, -, -, -, -, hn⟩ := ha
      cases hc.symm.trans hn
    have ho : (φ.next x r).opts = φ.opts := Progress.opts_next
    exact ⟨d, e, text, ho.symm ▸ hm, Progress.key_next ha hk, Progress.keyPair_next ha hkp,
      (Progress.committed_next hx).trans hc⟩

theorem Recorded.ledger {xs : List (Nat × Entry)} (hr : Recorded w₀ (b.discipline.memory τ) w xs) :
    b.Ledger w₀ τ w xs where
  db      := hr.db
  new     := hr.new
  apart   := hr.apart
  once    := hr.once
  commits pid := by
    constructor
    case mp =>
      intro hp
      obtain ⟨⟨_, e⟩, he, rfl⟩ := List.mem_map.mp hp
      obtain ⟨φ, hφ, hc⟩ := hr.commits.mp he
      exact act_of_committed hφ (by rw [hc]; nofun)
    case mpr =>
      intro hc
      obtain ⟨φ, hφ, d, e, text, -, -, -, hc⟩ := memory_of_commit h hc
      exact List.mem_map.mpr ⟨(pid, e), hr.commits.mpr ⟨φ, hφ, hc⟩, rfl⟩
  rows x hx := by
    obtain ⟨pid, e⟩ := x
    obtain ⟨φ, hφ, hc⟩ := hr.commits.mp hx
    obtain ⟨φ', hφ', d, e', text, hm, hk, hkp, hc'⟩ :=
      memory_of_commit h (act_of_committed hφ (by rw [hc]; nofun))
    obtain ⟨o, ho⟩ := System.spawn_of_remember hφ
    obtain ⟨φ'', hφ'', hopts⟩ := memory_of_spawn h ho
    cases hφ.symm.trans hφ'
    cases hφ.symm.trans hφ''
    cases Entry.writes_injective (Option.some.inj (hc.symm.trans hc'))
    exact ⟨o, d, text, ho, ⟨act_of_key hφ hk, act_of_keyPair hφ hkp⟩, hopts ▸ hm⟩

end Runs

-- Provisioning is exclusive and atomic, whichever effects fail. Only a command that is unable to
-- remove its file again leaves it without having committed.
theorem provisioning_exclusive_atomic {c : Conf} (hq : ControlPlane.Quiet w₀) (h : b.Runs w₀ τ c) :
    ∃ es, b.Ledger w₀ τ c.world es ∧
      (∀ path f, w₀.files.lookup path = some f → c.world.files.lookup path = some f) ∧
      ∀ pid o r, .spawn pid o ∈ τ → .done pid r ∈ τ → ¬ Stuck τ pid →
        (b.InPlace τ c.world pid (normalizeV31NodeOptions o) ↔ ∃ e, (pid, e) ∈ es) := by
  have ht := b.discipline.trace_of_run h fun _ => rfl
  obtain ⟨es, hr⟩ := recorded_of_trace hq ht
  have hf := filed_of_trace ht
  refine ⟨es, hr.ledger ht, fun _ _ => hf.kept, fun pid o r ho hd hs => ?_⟩
  obtain ⟨φ, hφ, hopts⟩ := memory_of_spawn ht ho
  obtain ⟨-, φ', hφ', hpost⟩ := ht.of_done hd
  cases hφ.symm.trans hφ'
  constructor
  case mp =>
    rintro ⟨hopen, -, -, hl⟩
    obtain ⟨φ', hφ', hopen⟩ := memory_of_openNew ht hopen
    cases hφ.symm.trans hφ'
    cases r
    case ok r =>
      obtain ⟨-, e, hc, -⟩ := hpost
      exact ⟨e, hr.commits.mpr ⟨φ, hφ, hc⟩⟩
    case error x =>
      obtain ⟨-, -, hfile | hstuck⟩ := hpost
      · obtain ⟨g, hg, -⟩ := hf.owned hφ hl hopen
        cases hfile.symm.trans hg
      · exact absurd (stuck_of_memory hφ hstuck) hs
  case mpr =>
    rintro ⟨e, he⟩
    obtain ⟨φ', hφ', hc⟩ := hr.commits.mp he
    cases hφ.symm.trans hφ'
    cases r
    case error x => cases hc.symm.trans hpost.2.1
    case ok r =>
      obtain ⟨-, e', -, hm, hk, hkp, -, hfile⟩ := hpost
      obtain ⟨-, text, hl, htext⟩ := hf.held hφ hfile
      cases htext _ rfl
      rw [hopts] at hm hfile hl
      exact .mk (act_of_file hφ hfile) ⟨act_of_key hφ hk, act_of_keyPair hφ hkp⟩ hm hl

-- Two commands that ask for the same node. The first one does not get to commit.
namespace Sample

def host : Bootstrap where
  parsePrefix    := fun _ => .ok ControlPlane.Sample.pool.cidr
  join           := fun _ file => file
  splitsHostPort := fun _ => true
  joinHostPort   := fun host _ => host
  quote          := fun s => s

def tenantOnly : World :=
  { ControlPlane.Sample.world with db := { tenants := [⟨1, "t"⟩] } }

def wanted : V31NodeOptions where
  tenantSlug       := "t"
  profileName      := "p"
  nodeRegion       := "eu"
  nodeHostname     := "a"
  nodeEndpoint     := "e"
  nodeBasePort     := 1
  nodeIface        := "awg0"
  poolCIDR         := "10.0.0.0/29"
  bootstrapConfDir := "d"

abbrev Schedule := List (System.Move Choice V31NodeOptions Nat)

def acts (pid : Nat) (cs : List Choice) : Schedule :=
  cs.map (.act pid ·)

def ok (n : Nat) : List Choice :=
  List.replicate n {}

-- From the start of a command until its file is complete.
def prepare (pid : Nat) (profile node pool : UUID) : Schedule :=
  .spawn pid wanted :: acts pid (ok 1 ++
    [{ key := "AAAAAAAAAAAAAAAAAAAAAAAAAAAAAAAAAAAAAAAAAAA=" }, { keyPair := ⟨"x", "y"⟩ }] ++ ok 7 ++
    [{ id := profile }, { id := node }, { id := pool }] ++ ok 6)

def rivals : Schedule :=
  prepare 0 1 2 3 ++ acts 0 [{ fault := some .canceled }, {}] ++ [.done 0] ++
  prepare 1 4 5 6 ++ acts 1 (ok 1) ++ [.done 1]

def survives : Ev → Bool
  | .crash _ => false
  | _        => true

def isSpawn (pid : Nat) : Ev → Bool
  | .spawn q o => q = pid ∧ o = wanted
  | _          => false

def isCommit (pid : Nat) : Ev → Bool
  | .act q .commit (.ok _) => q = pid
  | _                      => false

def isDone (pid : Nat) : Ev → Bool
  | .done q _ => q = pid
  | _         => false

def isStuck : Ev → Bool
  | .act _ (.file (.remove _)) (.ok (some _)) => true
  | _                                         => false

theorem mem_of_isSpawn (h : τ.any (isSpawn pid) = true) : .spawn pid wanted ∈ τ := by
  obtain ⟨ev, hm, hev⟩ := List.any_eq_true.mp h
  cases ev <;> simp only [isSpawn, decide_eq_true_eq, Bool.false_eq_true] at hev
  obtain ⟨rfl, rfl⟩ := hev
  exact hm

theorem mem_of_isCommit (h : τ.any (isCommit pid) = true) : .act pid .commit (.ok ()) ∈ τ := by
  obtain ⟨ev, hm, hev⟩ := List.any_eq_true.mp h
  cases ev
  case act q x r =>
    cases x <;> cases r <;> simp only [isCommit, decide_eq_true_eq, Bool.false_eq_true] at hev
    exact hev ▸ hm
  all_goals cases hev

theorem mem_of_isDone (h : τ.any (isDone pid) = true) : ∃ r, .done pid r ∈ τ := by
  obtain ⟨ev, hm, hev⟩ := List.any_eq_true.mp h
  cases ev <;> simp only [isDone, decide_eq_true_eq, Bool.false_eq_true] at hev
  exact ⟨_, hev ▸ hm⟩

end Sample

theorem provisioning_rivals :
    ∃ τ c, Sample.host.Runs Sample.tenantOnly τ c ∧
      Sample.host.InPlace τ c.world 1 (normalizeV31NodeOptions Sample.wanted) ∧
      ¬ Sample.host.InPlace τ c.world 0 (normalizeV31NodeOptions Sample.wanted) := by
  have hplay : ((Sample.host.commands.playUnder (fun _ _ => Sample.survives) []
      (boot Sample.tenantOnly) Sample.rivals).map fun r => decide (
        (r.1.any (Sample.isSpawn 0) ∧ r.1.any (Sample.isDone 0) ∧ ¬ r.1.any (Sample.isCommit 0)) ∧
        (r.1.any (Sample.isSpawn 1) ∧ r.1.any (Sample.isDone 1) ∧ r.1.any (Sample.isCommit 1)) ∧
        ¬ r.1.any Sample.isStuck)) = some true := by decide +kernel
  obtain ⟨⟨τ, c⟩, hp, hs⟩ := Option.map_eq_some_iff.mp hplay
  obtain ⟨⟨hs₀, hd₀, hc₀⟩, ⟨hs₁, hd₁, hc₁⟩, hstuck⟩ := of_decide_eq_true hs
  have hrun : Sample.host.Runs Sample.tenantOnly τ c :=
    System.playUnder_run (fun _ _ ev hev pid he => by subst he; cases hev) .nil hp
  have hns (pid : Nat) : ¬ Stuck τ pid := fun ⟨path, e, hm⟩ =>
    hstuck (List.any_eq_true.mpr ⟨_, hm, rfl⟩)
  obtain ⟨es, hl, -, hiff⟩ := provisioning_exclusive_atomic ⟨fun _ => rfl, rfl⟩ hrun
  obtain ⟨r₀, hd₀⟩ := Sample.mem_of_isDone hd₀
  obtain ⟨r₁, hd₁⟩ := Sample.mem_of_isDone hd₁
  refine ⟨τ, c, hrun, ?_, ?_⟩
  · rw [hiff 1 _ r₁ (Sample.mem_of_isSpawn hs₁) hd₁ (hns 1)]
    obtain ⟨⟨_, e⟩, he, rfl⟩ := List.mem_map.mp ((hl.commits 1).mpr (Sample.mem_of_isCommit hc₁))
    exact ⟨e, he⟩
  · rw [hiff 0 _ r₀ (Sample.mem_of_isSpawn hs₀) hd₀ (hns 0)]
    rintro ⟨e, he⟩
    have hm := (hl.commits 0).mp (List.mem_map.mpr ⟨_, he, rfl⟩)
    exact hc₀ (List.any_eq_true.mpr ⟨_, hm, rfl⟩)

namespace Sample

-- The commit of the only command fails, and so does the removal of its file.
def stranded : Schedule :=
  prepare 0 1 2 3 ++ acts 0 [{ fault := some .canceled }, { fault := some .canceled }] ++ [.done 0]

def draw : Draw where
  tenant  := 1
  key     := "AAAAAAAAAAAAAAAAAAAAAAAAAAAAAAAAAAAAAAAAAAA="
  keyPair := ⟨"x", "y"⟩
  profile := 1
  node    := 2
  pool    := 3

def isOpen : Ev → Bool
  | .act 0 (.openNew path) (.ok (.new 0)) => path = host.configPath (normalizeV31NodeOptions wanted)
  | _                                     => false

def isKey : Ev → Bool
  | .act 0 .randomKey (.ok k) => k = draw.key
  | _                         => false

def isKeyPair : Ev → Bool
  | .act 0 .keyPair (.ok k) => k = draw.keyPair
  | _                       => false

def isFailure : Ev → Bool
  | .done 0 (.error _) => true
  | _                  => false

theorem mem_of_isOpen (h : τ.any isOpen = true) :
    .act 0 (.openNew (host.configPath (normalizeV31NodeOptions wanted))) (.ok (.new 0)) ∈ τ := by
  obtain ⟨ev, hm, hev⟩ := List.any_eq_true.mp h
  unfold isOpen at hev
  split at hev
  case h_1 => exact of_decide_eq_true hev ▸ hm
  case h_2 => cases hev

theorem drew_of_any (hk : τ.any isKey = true) (hp : τ.any isKeyPair = true) : Drew τ 0 draw where
  key := by
    obtain ⟨ev, hm, hev⟩ := List.any_eq_true.mp hk
    unfold isKey at hev
    split at hev
    case h_1 => exact of_decide_eq_true hev ▸ hm
    case h_2 => cases hev
  keyPair := by
    obtain ⟨ev, hm, hev⟩ := List.any_eq_true.mp hp
    unfold isKeyPair at hev
    split at hev
    case h_1 => exact of_decide_eq_true hev ▸ hm
    case h_2 => cases hev

theorem mem_of_isFailure (h : τ.any isFailure = true) : ∃ x, .done 0 (.error x) ∈ τ := by
  obtain ⟨ev, hm, hev⟩ := List.any_eq_true.mp h
  unfold isFailure at hev
  split at hev
  case h_1 => exact ⟨_, hm⟩
  case h_2 => cases hev

end Sample

-- A command that has failed leaves its file, with the private key of a server that does not exist,
-- since it does not look at whether the removal succeeds.
theorem provisioning_leaves_file :
    ∃ τ c x, Sample.host.Runs Sample.tenantOnly τ c ∧ .spawn 0 Sample.wanted ∈ τ ∧
      .done 0 (.error x) ∈ τ ∧
      Sample.host.InPlace τ c.world 0 (normalizeV31NodeOptions Sample.wanted) ∧
      .act 0 .commit (.ok ()) ∉ τ ∧
      c.world.db.profiles = [] ∧ c.world.db.nodes = [] ∧ c.world.db.pools = [] := by
  have hplay : ((Sample.host.commands.playUnder (fun _ _ => Sample.survives) []
      (boot Sample.tenantOnly) Sample.stranded).map fun r => decide (
        r.1.any (Sample.isSpawn 0) ∧ r.1.any Sample.isFailure ∧ ¬ r.1.any (Sample.isCommit 0) ∧
        r.1.any Sample.isOpen ∧ r.1.any Sample.isKey ∧ r.1.any Sample.isKeyPair ∧
        r.2.world.files.lookup (Sample.host.configPath (normalizeV31NodeOptions Sample.wanted)) =
          some ⟨0, v31Config (normalizeV31NodeOptions Sample.wanted) ControlPlane.Sample.pool.cidr
            "10.0.0.1/29" "x" (defaultV31Profile "p" Sample.draw.key)⟩ ∧
        r.2.world.db.profiles = [] ∧ r.2.world.db.nodes = [] ∧ r.2.world.db.pools = [])) =
          some true := by
    decide +kernel
  obtain ⟨⟨τ, c⟩, hp, hs⟩ := Option.map_eq_some_iff.mp hplay
  obtain ⟨hspawn, hfail, hcommit, hopen, hkey, hpair, hfile, hrows⟩ := of_decide_eq_true hs
  have hrun : Sample.host.Runs Sample.tenantOnly τ c :=
    System.playUnder_run (fun _ _ ev hev pid he => by subst he; cases hev) .nil hp
  obtain ⟨x, hx⟩ := Sample.mem_of_isFailure hfail
  refine ⟨τ, c, x, hrun, Sample.mem_of_isSpawn hspawn, hx, ?_, fun hm => ?_, hrows⟩
  · exact .mk (Sample.mem_of_isOpen hopen) (Sample.drew_of_any hkey hpair) (.mk rfl rfl) hfile
  · exact hcommit (List.any_eq_true.mpr ⟨_, hm, rfl⟩)

end Bootstrap
