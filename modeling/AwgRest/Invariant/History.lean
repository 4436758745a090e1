import AwgRest.Invariant.Peers

open Domain Store Domain.Peer

namespace ControlPlane

-- A configuration that was put in place, with the listing of peers that it was computed from.
structure Sync where
  iface : String
  rows  : List Peer

-- What a run has done to the runtime so far, and the last listing that each process has read.
structure History where
  listing : Nat → List Peer
  syncs   : List Sync

namespace History

def record (h : History) : Ev → History
  | .act pid (.query (.peersByNode _)) (.ok rows) =>
    { h with listing := Function.update h.listing pid rows }
  | .act pid (.syncConf iface conf) (.ok _) =>
    if conf.peers = Worker.entries (h.listing pid) then
      { h with syncs := h.syncs ++ [⟨iface, h.listing pid⟩] }
    else h
  | _ => h

end History

def history (τ : List Ev) : History :=
  τ.foldl History.record ⟨fun _ => [], []⟩

variable {C : ControlPlane} {G : Guard} {w₀ w w' : World} {τ : List Ev} {pid q : Nat} {φ ψ : Local}
  {e : Eff} {r : Except Err e.Answer} {ev : Ev} {db db' : DB}

theorem history_concat : history (τ ++ [ev]) = (history τ).record ev := by
  simp [history]

theorem mem_syncs_concat {s : Sync} (h : s ∈ (history τ).syncs) :
    s ∈ (history (τ ++ [ev])).syncs := by
  rw [history_concat]
  unfold History.record
  split
  · exact h
  · split
    · simp [h]
    · exact h
  · exact h

theorem listing_concat_of_idle (h : ∀ pid e r, ev ≠ .act pid e r) :
    (history (τ ++ [ev])).listing = (history τ).listing := by
  rw [history_concat]
  unfold History.record
  split
  · exact absurd rfl (h _ _ _)
  · exact absurd rfl (h _ _ _)
  · rfl

theorem syncs_concat_of_idle (h : ∀ pid e r, ev ≠ .act pid e r) :
    (history (τ ++ [ev])).syncs = (history τ).syncs := by
  rw [history_concat]
  cases ev
  case act pid e r => exact absurd rfl (h pid e r)
  all_goals rfl

-- The listing of a process is not touched by what others do.
theorem listing_concat_of_ne (h : q ≠ pid) :
    (history (τ ++ [.act pid e r])).listing q = (history τ).listing q := by
  rw [history_concat]
  unfold History.record
  split
  case _ heq => cases heq; simp [h]
  case _     => split <;> rfl
  case _     => rfl

-- What an effect does to the listing of its process.
inductive Relists (pid : Nat) (φ : Local) : (e : Eff) → Except Err e.Answer → Prop
  | list {n rows} : Relists pid φ (.query (.peersByNode n)) (.ok rows)
  | sync {iface conf} : Relists pid φ (.syncConf iface conf) (.ok ())
  | drop {e : Eff} {r : Except Err e.Answer} :
    (φ.next e r).listing = none → (φ.next e r).synced = false →
    (∀ h : History, h.record (.act pid e r) = h) → Relists pid φ e r
  | keep {e : Eff} {r : Except Err e.Answer} :
    (φ.next e r).listing = φ.listing → (φ.next e r).synced = φ.synced → (φ.next e r).node = φ.node →
    (∀ h : History, h.record (.act pid e r) = h) → Relists pid φ e r

theorem relists (pid : Nat) (φ : Local) (e : Eff) (r : Except Err e.Answer) : Relists pid φ e r := by
  have keep {e : Eff} {r : Except Err e.Answer} (h₁ : (φ.next e r).listing = φ.listing)
      (h₂ : (φ.next e r).synced = φ.synced) (h₃ : (φ.next e r).node = φ.node)
      (h₄ : ∀ h : History, h.record (.act pid e r) = h) : Relists pid φ e r := .keep h₁ h₂ h₃ h₄
  cases r
  case error x =>
    cases e
    case query q => cases q <;> exact keep rfl rfl rfl fun _ => rfl
    case stmt s  => cases s <;> exact keep rfl rfl rfl fun _ => rfl
    case auto s  => cases s <;> exact keep rfl rfl rfl fun _ => rfl
    all_goals exact keep rfl rfl rfl fun _ => rfl
  case ok a =>
    cases e
    case query q =>
      cases q
      case peersByNode n => exact .list
      case nodeByID id   => exact .drop rfl rfl fun _ => rfl
      case pickFirst     => exact .drop rfl rfl fun _ => rfl
      all_goals exact keep rfl rfl rfl fun _ => rfl
    case stmt s => cases s <;> exact keep rfl rfl rfl fun _ => rfl
    case auto s =>
      cases s
      case claimNext l => exact .drop rfl rfl fun _ => rfl
      all_goals exact keep rfl rfl rfl fun _ => rfl
    case syncConf => exact .sync
    all_goals exact keep rfl rfl rfl fun _ => rfl

-- The listing that a process works with, and that it is in place once the process has synced it.
structure Listed (τ : List Ev) (db : DB) (pid : Nat) (φ : Local) : Prop where
  listing : ∀ {n rows}, φ.listing = some (n, rows) → (history τ).listing pid = rows
  rows    : ∀ {n rows p}, φ.listing = some (n, rows) → p ∈ rows →
    p.nodeID = n ∧ ∃ p' ∈ db.peers, Grows p p'
  synced  : φ.synced → ∃ n s, φ.listing = some (n, s.rows) ∧ s ∈ (history τ).syncs

theorem Listed.of_grows (h : Listed τ db pid φ) (hg : ∀ p ∈ db.peers, ∃ p' ∈ db'.peers, Grows p p')
    (hl : (history (τ ++ [ev])).listing pid = (history τ).listing pid) :
    Listed (τ ++ [ev]) db' pid φ where
  listing hφ := hl.trans (h.listing hφ)
  rows hφ hp :=
    have ⟨hn, p', hp', g⟩ := h.rows hφ hp
    have ⟨p'', hp'', g'⟩ := hg p' hp'
    ⟨hn, p'', hp'', g.trans g'⟩
  synced hs :=
    have ⟨n, s, hφ, hm⟩ := h.synced hs
    ⟨n, s, hφ, mem_syncs_concat hm⟩

theorem mem_peersByNode {db : DB} {n : UUID} {now : Time} {p : Peer} :
    p ∈ (Query.peersByNode n).eval db now ↔ p ∈ db.peers ∧ p.nodeID = n := by
  simp [Query.eval, List.mem_insertionSort]

theorem listed_own (h : ActStep C G w₀ τ w pid φ e r w') (hl : Listed τ w.db pid φ)
    (hg : ∀ p ∈ w.db.peers, ∃ p' ∈ w'.db.peers, Grows p p') :
    Listed (τ ++ [.act pid e r]) w'.db pid (φ.next e r) := by
  cases relists pid φ e r
  case list n rows =>
    have hc := h.change
    generalize w'.db = db' at hc
    cases hc
    case query now ha =>
      rw [Local.view_of_none ha.1]
      refine ⟨fun hφ => ?_, fun hφ hp => ?_, nofun⟩
      · cases hφ
        simp [history_concat, History.record]
      · cases hφ
        have ⟨hp, hn⟩ := mem_peersByNode.mp hp
        exact ⟨hn, _, hp, .refl _⟩
    case aside hr => cases hr; case silent hs => cases hs
  case sync iface conf =>
    have ⟨_, _, n, rows, _, hφ, _, hc⟩ := h.allowed
    have hrec : history (τ ++ [.act pid (.syncConf iface conf) (.ok ())]) =
        { history τ with syncs := (history τ).syncs ++ [⟨iface, rows⟩] } := by
      rw [history_concat, History.record, hl.listing hφ, if_pos hc]
    refine ⟨fun hφ => ?_, fun hφ hp => ?_, fun _ => ⟨n.id, ⟨iface, rows⟩, hφ, ?_⟩⟩
    · exact (congrArg (·.listing pid) hrec).trans (hl.listing hφ)
    · have ⟨hn, p', hp', g⟩ := hl.rows hφ hp
      have ⟨p'', hp'', g'⟩ := hg p' hp'
      exact ⟨hn, p'', hp'', g.trans g'⟩
    · simp [hrec]
  case drop hd hs _ => exact ⟨by simp [hd], by simp [hd], by simp [hs]⟩
  case keep hk hs _ hh =>
    have hr : history (τ ++ [.act pid e r]) = history τ := history_concat.trans (hh _)
    have : Listed (τ ++ [.act pid e r]) w'.db pid φ := hl.of_grows hg (by rw [hr])
    exact ⟨fun hφ => this.listing (hk ▸ hφ), fun hφ => this.rows (hk ▸ hφ),
      fun h => hk ▸ this.synced (hs ▸ h)⟩

theorem listed_of_trace (h : C.Trace G w₀ τ w) (hq : Quiet w₀) (h₀ : w₀.db.peers.Pairwise Apart) :
    ∀ q ψ, C.locals τ q = some ψ → Listed τ w.db q ψ := by
  refine (trace_invariant (Q := fun _ _ => True) (P := fun τ w q ψ => Listed τ w.db q ψ) hq h trivial
    ?idle ?new ?act).2
  case idle =>
    intro τ w ev w' hi
    refine ⟨id, fun q ψ hl => hl.of_grows (fun p hp => ⟨p, hi.db ▸ hp, .refl p⟩) ?_⟩
    rw [listing_concat_of_idle hi.event]
  case new => exact fun _ => ⟨nofun, nofun, nofun⟩
  case act =>
    intro τ w pid φ e r w' hs _ hl
    have ⟨ha, hp⟩ := peers_of_trace hs.trace hq h₀
    have hg (p) (h : p ∈ w.db.peers) := grows_step hs ha (hp pid φ hs.running) h
    exact ⟨trivial, listed_own hs (hl pid φ hs.running) hg,
      fun q ψ hne hψ => (hl q ψ hψ).of_grows hg (listing_concat_of_ne hne)⟩

end ControlPlane
