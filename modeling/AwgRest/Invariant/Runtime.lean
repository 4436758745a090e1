import AwgRest.Invariant.History
import AwgRest.Invariant.OneWorker

open Domain Store Domain.Peer

-- The peers of an interface.
def Store.World.peersAt (w : World) (iface : String) : List Awg.PeerSpec :=
  (w.runtime iface).getD []

-- What the runtime of an interface has to do with the listings that were put in place.
namespace ControlPlane

variable {C : ControlPlane} {G : Guard} {w₀ w w' : World} {τ : List Ev} {pid q : Nat} {φ ψ : Local}
  {e : Eff} {r : Except Err e.Answer} {ev : Ev} {db db' : DB}

-- Only requests and workers are started.
def ordinary : Guard := fun _ _ ev =>
  ∀ k ∈ spawned ev, k.IsRequest ∨ k.IsWorker

instance : Decidable (ordinary τ w ev) :=
  inferInstanceAs (Decidable (∀ k ∈ spawned ev, k.IsRequest ∨ k.IsWorker))

theorem ordinary_of_trace (hG : ∀ {τ w ev}, G τ w ev → ordinary τ w ev) (h : C.Trace G w₀ τ w)
    (hq : Quiet w₀) : ∀ q ψ, C.locals τ q = some ψ → ψ.kind.IsRequest ∨ ψ.kind.IsWorker := by
  refine trace_induction
    (I := fun τ _ => ∀ q ψ, C.locals τ q = some ψ → ψ.kind.IsRequest ∨ ψ.kind.IsWorker) hq h
    (fun q ψ hψ => by simp [locals] at hψ) (fun {τ w ev w'} hs ih q ψ hψ => ?_)
    (fun {τ w pid φ e r w'} hs ih q ψ hψ => ?_)
  · rcases hs.running q ψ hψ with hψ | ⟨k, rfl, rfl, _⟩
    · exact ih q ψ hψ
    · exact hG hs.guard k rfl
  · rw [locals_act hs.running] at hψ
    by_cases hp : q = pid
    · subst hp
      obtain rfl : φ.next e r = ψ := by simpa using hψ
      rw [Local.kind_next]
      exact ih q φ hs.running
    · exact ih q ψ (by simpa [hp] using hψ)

theorem Effect.no_nodes {ws : List Write} (h : Effect C φ ws)
    (hk : φ.kind.IsRequest ∨ φ.kind.IsWorker) :
    ws.filterMap Write.node? = [] := by
  cases h
  case work hw =>
    refine List.filterMap_eq_nil_iff.mpr fun x hx => ?_
    rcases hw x hx with ⟨_, rfl⟩ | ⟨_, rfl⟩ <;> rfl
  case provision ho _ _ _ =>
    rw [ho] at hk
    exact absurd hk (not_or.mpr ⟨Bool.false_ne_true, Bool.false_ne_true⟩)
  all_goals rfl

theorem nodes_of_trace (hG : ∀ {τ w ev}, G τ w ev → ordinary τ w ev) (h : C.Trace G w₀ τ w)
    (hq : Quiet w₀) : w.db.nodes = w₀.db.nodes := by
  refine trace_induction (I := fun _ w => w.db.nodes = w₀.db.nodes) hq h rfl
    (fun hs ih => hs.db ▸ ih) (fun {τ w pid φ e r w'} hs ih => ?_)
  have hk := ordinary_of_trace hG hs.trace hq pid φ hs.running
  have hc := hs.change
  generalize w'.db = db' at hc ⊢
  cases hc
  case commit he         => rw [Local.view, replay_nodes, he.no_nodes hk, List.append_nil, ih]
  case auto s x _ _ _ => rw [Auto.eval_frame, ih]
  all_goals exact ih

-- An effect either leaves the runtime alone, or it puts the listing of its process in place.
theorem ActStep.runtime (h : ActStep C G w₀ τ w pid φ e r w') (hl : Listed τ w.db pid φ) :
    ((∀ iface, w'.peersAt iface = w.peersAt iface) ∧
      (history (τ ++ [.act pid e r])).syncs = (history τ).syncs ∧
      ((φ.next e r).synced → φ.synced)) ∨
    ∃ n rows conf, φ.kind.IsWorker ∧ φ.node = some n ∧ φ.listing = some (n.id, rows) ∧
      (.act pid e r : Ev) = .act pid (.syncConf n.interfaceName conf) (.ok ()) ∧
      (∀ iface, w'.peersAt iface = if iface = n.interfaceName then
        (Worker.entries rows).map Awg.specOf else w.peersAt iface) ∧
      (history (τ ++ [.act pid e r])).syncs = (history τ).syncs ++ [⟨n.interfaceName, rows⟩] := by
  have hacts := h.acts
  have other (hs : ∀ iface conf, (.act pid e r : Ev) ≠ .act pid (.syncConf iface conf) (.ok ())) :
      ∀ iface, w'.peersAt iface = w.peersAt iface := by
    intro iface
    cases hacts
    case sync => exact absurd rfl (hs _ _)
    case create hn =>
      simp only [World.peersAt, Function.update_apply]
      split
      · simp [*]
      · rfl
    all_goals rfl
  cases relists pid φ e r
  case list n rows =>
    refine .inl ⟨other (by simp), ?_, fun h => by cases h⟩
    rw [history_concat]
    rfl
  case drop hd hs hr =>
    refine .inl ⟨other ?_, by rw [history_concat, hr], by simp [hs]⟩
    intro iface conf he
    cases he
    simp [Local.next] at hs
  case keep hk hs hn hr =>
    refine .inl ⟨other ?_, by rw [history_concat, hr], fun h => hs ▸ h⟩
    intro iface conf he
    cases he
    obtain ⟨_, _, n, rows, _, _, _, hc⟩ := h.allowed
    have := congrArg History.syncs (hr ⟨fun _ => rows, []⟩)
    simp [History.record, hc] at this
  case sync iface conf =>
    obtain ⟨_, hk, n, rows, hn, hφ, rfl, hc⟩ := h.allowed
    refine .inr ⟨n, rows, conf, hk, hn, hφ, rfl, fun iface => ?_, ?_⟩
    · cases hacts
      case silent hs => cases hs
      case sync =>
        simp only [World.peersAt, Function.update_apply]
        split
        · rw [Option.getD_some, hc]
        · rfl
    · rw [history_concat, History.record, hl.listing hφ, if_pos hc]

-- No peer is listed twice.
def Distinct (rows : List Peer) : Prop :=
  ∀ p ∈ rows, ∀ q ∈ rows, p.id = q.id → p = q

-- What a process knows of the node that it works on.
structure Surveyed (τ : List Ev) (db : DB) (φ : Local) : Prop where
  worker   : φ.listing ≠ none → φ.kind.IsWorker
  node     : ∀ {n}, φ.node = some n → n ∈ db.nodes
  distinct : ∀ {n rows}, φ.listing = some (n, rows) → Distinct rows
  synced   : φ.synced → ∃ n rows, φ.node = some n ∧ φ.listing = some (n.id, rows) ∧
    ⟨n.interfaceName, rows⟩ ∈ (history τ).syncs

theorem Surveyed.mono (h : Surveyed τ db φ) (hn : ∀ n ∈ db.nodes, n ∈ db'.nodes) :
    Surveyed (τ ++ [ev]) db' φ where
  worker   := h.worker
  node hφ  := hn _ (h.node hφ)
  distinct := h.distinct
  synced hs :=
    have ⟨n, rows, hφ, hl, hm⟩ := h.synced hs
    ⟨n, rows, hφ, hl, mem_syncs_concat hm⟩

theorem mem_nodes_step (h : ActStep C G w₀ τ w pid φ e r w') (n : Node) (hn : n ∈ w.db.nodes) :
    n ∈ w'.db.nodes := by
  have hc := h.change
  generalize w'.db = db' at hc ⊢
  cases hc
  case commit            =>
    rw [Local.view, replay_nodes]
    exact List.mem_append_left _ hn
  case auto s x _ _ _ => rwa [Auto.eval_frame]
  all_goals exact hn

theorem distinct_listing {n : UUID} {now : Time} (ha : db.peers.Pairwise Apart) :
    Distinct ((Query.peersByNode n).eval db now) :=
  fun _ hp _ hq => eq_of_id ha (mem_peersByNode.mp hp).1 (mem_peersByNode.mp hq).1

-- The node of a process is one that it has read.
theorem node_next (h : ActStep C G w₀ τ w pid φ e r w') {n : Node} (hn : (φ.next e r).node = some n) :
    φ.node = some n ∨ n ∈ w.db.nodes := by
  have hc := h.change
  generalize w'.db = db' at hc
  cases hc
  case query qu now ha =>
    cases qu
    case nodeByID id =>
      rw [Local.view_of_none ha] at hn
      have hn : (Query.nodeByID id).eval w.db now = some n := hn
      exact .inr (nodeByID_some hn).1
    case pickFirst =>
      rw [Local.view_of_none ha] at hn
      exact .inr (by simpa [List.mem_insertionSort] using List.mem_of_mem_head? hn)
    all_goals exact .inl hn
  case stmt s _ _ _ _ _ _ => cases s <;> exact .inl hn
  case auto s _ _ _ _     => cases s <;> exact .inl hn
  case commit             => exact .inl hn
  case aside ha =>
    cases ha
    case failed x =>
      cases e
      case query q => cases q <;> exact .inl hn
      case stmt s  => cases s <;> exact .inl hn
      case auto s  => cases s <;> exact .inl hn
      all_goals exact .inl hn
    case silent a hs => cases e <;> first | exact .inl hn | cases hs
    all_goals exact .inl hn

theorem surveyed_own (h : ActStep C G w₀ τ w pid φ e r w') (ha : w.db.peers.Pairwise Apart)
    (hl : Listed τ w.db pid φ) (hs : Surveyed τ w.db φ) :
    Surveyed (τ ++ [.act pid e r]) w'.db (φ.next e r) := by
  have hnode {n : Node} (hn : (φ.next e r).node = some n) : n ∈ w'.db.nodes :=
    mem_nodes_step h n ((node_next h hn).elim hs.node id)
  have hnew : Surveyed (τ ++ [.act pid e r]) w'.db φ := hs.mono (mem_nodes_step h)
  cases relists pid φ e r
  case list n rows =>
    have hk : φ.kind.IsWorker := h.allowed.2
    have hc := h.change
    refine ⟨fun _ => hk, hnode, fun hφ => ?_, fun h => by cases h⟩
    generalize w'.db = db' at hc
    cases hφ
    cases hc
    case query now hq =>
      rw [Local.view_of_none hq.1]
      exact distinct_listing ha
    case aside hr => cases hr; case silent hs => cases hs
  case sync iface conf =>
    have hrt := h.runtime hl
    refine ⟨hs.worker, hnode, hs.distinct, fun _ => ?_⟩
    rcases hrt with ⟨_, _, hsy⟩ | ⟨n, rows, conf', _, hn, hφ, he, _, hss⟩
    · obtain ⟨n, rows, hn, hφ, hm⟩ := hnew.synced (hsy rfl)
      exact ⟨n, rows, hn, hφ, hm⟩
    · exact ⟨n, rows, hn, hφ, by simp [hss]⟩
  case drop hd hsy hr =>
    refine ⟨fun h => absurd hd h, hnode, fun hφ => by simp [hd] at hφ, fun h => by simp [hsy] at h⟩
  case keep hk hsy hn hr =>
    refine ⟨fun h => ?_, hnode, fun hφ => hs.distinct (hk ▸ hφ), fun h => ?_⟩
    · rw [Local.kind_next]
      exact hs.worker (hk ▸ h)
    · obtain ⟨n, rows, hn', hφ, hm⟩ := hnew.synced (hsy ▸ h)
      exact ⟨n, rows, hn.trans hn', hk.trans hφ, hm⟩

theorem surveyed_of_trace (h : C.Trace G w₀ τ w) (hq : Quiet w₀) (h₀ : w₀.db.peers.Pairwise Apart) :
    ∀ q ψ, C.locals τ q = some ψ → Surveyed τ w.db ψ := by
  refine (trace_invariant (Q := fun _ _ => True) (P := fun τ w _ ψ => Surveyed τ w.db ψ) hq h trivial
    ?idle ?new ?act).2
  case idle =>
    intro τ w ev w' hi
    exact ⟨id, fun q ψ hs => hs.mono fun n hn => hi.db ▸ hn⟩
  case new =>
    intro τ w pid k _
    exact ⟨fun h => absurd rfl h, fun h => (by cases h), fun h => (by cases h), fun h => (by cases h)⟩
  case act =>
    intro τ w pid φ e r w' hs _ hl
    exact ⟨trivial, surveyed_own hs (peers_of_trace hs.trace hq h₀).1
      (listed_of_trace hs.trace hq h₀ _ _ hs.running) (hl pid φ hs.running),
      fun q ψ _ hψ => (hl q ψ hψ).mono (mem_nodes_step hs)⟩

-- A listing of the peers of a node, as it was at some time.
structure Recorded (db : DB) (s : Sync) (n : Node) : Prop where
  node     : n ∈ db.nodes
  iface    : s.iface = n.interfaceName
  rows     : ∀ p ∈ s.rows, p.nodeID = n.id ∧ ∃ p' ∈ db.peers, Grows p p'
  distinct : Distinct s.rows

theorem recorded_of_trace (h : C.Trace G w₀ τ w) (hq : Quiet w₀) (h₀ : w₀.db.peers.Pairwise Apart) :
    ∀ s ∈ (history τ).syncs, ∃ n, Recorded w.db s n := by
  refine trace_induction (I := fun τ w => ∀ s ∈ (history τ).syncs, ∃ n, Recorded w.db s n) hq h
    (fun s hs => absurd hs List.not_mem_nil) (fun {τ w ev w'} hs ih s hm => ?_)
    (fun {τ w pid φ e r w'} hs ih s hm => ?_)
  · rw [syncs_concat_of_idle hs.event] at hm
    rw [hs.db]
    exact ih s hm
  · obtain ⟨ha, hp⟩ := peers_of_trace hs.trace hq h₀
    have hg (p) (hm : p ∈ w.db.peers) := grows_step hs ha (hp pid φ hs.running) hm
    have hl := listed_of_trace hs.trace hq h₀ _ _ hs.running
    have hsv := surveyed_of_trace hs.trace hq h₀ _ _ hs.running
    have grow {s : Sync} {n : Node} (hr : Recorded w.db s n) : Recorded w'.db s n := by
      refine ⟨mem_nodes_step hs n hr.node, hr.iface, fun p hp => ?_, hr.distinct⟩
      obtain ⟨hn, p', hp', g⟩ := hr.rows p hp
      obtain ⟨p'', hp'', g'⟩ := hg p' hp'
      exact ⟨hn, p'', hp'', g.trans g'⟩
    rcases hs.runtime hl with ⟨_, hh, _⟩ | ⟨n, rows, conf, _, hn, hφ, _, _, hh⟩
    · obtain ⟨n, hr⟩ := ih s (hh ▸ hm)
      exact ⟨n, grow hr⟩
    · rw [hh, List.mem_append, List.mem_singleton] at hm
      rcases hm with hm | rfl
      · obtain ⟨n, hr⟩ := ih s hm
        exact ⟨n, grow hr⟩
      · exact ⟨n, grow ⟨hsv.node hn, rfl, fun p hp => hl.rows hφ hp, hsv.distinct hφ⟩⟩

end ControlPlane
