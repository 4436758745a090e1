import AwgRest.Discipline.Rules

open Domain Netip Store Fallible Repo

namespace ControlPlane

variable {C : ControlPlane} {φ : Local}

-- What applying a node leaves alone.
structure Kept (φ φ' : Local) : Prop where
  kind : φ'.kind = φ.kind
  tx   : φ'.tx = none
  job  : φ'.job = φ.job
  due  : φ'.due = φ.due

def OnlyPeers (ws : List Write) : Prop :=
  ∀ x ∈ ws, (∃ r, x = .runtime r) ∨ ∃ p, x = .peer p

theorem onlyPeers_append {ws ws' : List Write} (h : OnlyPeers ws) (h' : OnlyPeers ws') :
    OnlyPeers (ws ++ ws') :=
  fun x hx => (List.mem_append.mp hx).elim (h x) (h' x)

theorem follows_persistPeers {runtime : List Awg.PeerRuntime} {ps rows : List Peer} {n : UUID}
    {t : TxLocal} {Q : Local → Except Err (Option Err × Unit) → Prop} (hk : φ.kind.IsWorker)
    (hs : φ.synced) (hl : φ.listing = some (n, rows)) (hps : ∀ p ∈ ps, p ∈ rows)
    (hw : OnlyPeers t.writes)
    (hok : ∀ {t : TxLocal}, OnlyPeers t.writes → Q { φ with tx := some t } (.ok (none, ())))
    (herr : ∀ {t x}, Q { φ with tx := some t } (.error x)) :
    (Worker.persistPeers runtime ps).run.Follows C.protocol Q { φ with tx := some t } := by
  induction ps generalizing t
  case nil => exact hok hw
  case cons p ps ih =>
    refine follows_bind_of <| follows_write rfl trivial (by simp) (fun {_ _ _ r} _ => ?_) (fun _ => herr)
    refine follows_bind_of <| follows_write rfl ⟨hk, hs, n, rows, hl, p, hps p (by simp), rfl, rfl⟩
      (by simp) (fun {_ _ _ q} _ => ?_) (fun _ => herr)
    refine ih (fun q hq => hps q (by simp [hq])) (onlyPeers_append (onlyPeers_append hw ?_) ?_)
    · simp [OnlyPeers, Stmt.writes]
    · cases q <;> simp [OnlyPeers, Stmt.writes]

theorem follows_persistRuntime {runtime : List Awg.PeerRuntime} {rows : List Peer} {n : UUID}
    {Q : Local → Except Err Unit → Prop} (ht : φ.tx = none) (hk : φ.kind.IsWorker) (hs : φ.synced)
    (hl : φ.listing = some (n, rows))
    (hok : ∀ {effect}, Q { φ with effect := effect } (.ok ())) (herr : ∀ {x}, Q φ (.error x)) :
    (Worker.persistRuntime rows runtime).run.Follows C.protocol Q φ := by
  have hφ : { φ with tx := none } = φ := Local.tx_eta ht
  refine follows_bind_of <| follows_inTx ht (fun {e} _ => ?_) <|
    follows_persistPeers hk hs hl (fun _ => id) (t := {}) (by simp [OnlyPeers]) (fun {t} hw => ?_)
      (fun {t x} => ?_)
  · exact herr
  · refine ⟨t, rfl, .work hk hw, ?_, fun e _ => ?_⟩
    · have h : Q { φ with effect := some t.writes } (.ok ()) := hok
      rw [← hφ] at h
      exact h
    · exact hφ.symm ▸ herr
  · exact ⟨Option.some_ne_none _, hφ.symm ▸ herr⟩

theorem follows_preserveRuntimePrivateKey {iface : String} {conf : Awg.Conf}
    {Q : Local → Except Err Awg.Conf → Prop}
    (hok : ∀ {conf'}, conf'.peers = conf.peers → Q φ (.ok conf')) :
    (Worker.preserveRuntimePrivateKey iface conf).run.Follows C.protocol Q φ := by
  unfold Worker.preserveRuntimePrivateKey
  split
  case _ => exact hok rfl
  case _ =>
    exact follows_bind_of <| follows_attempt.mpr <|
      follows_silent (e := .showConf iface) trivial (fun _ => hok rfl) (fun _ => hok rfl)

-- The configuration that is handed to the executor, before or after the interface is brought up, has
-- the peers of the listing.
theorem follows_syncConf {n : Node} {rows : List Peer} {conf : Awg.Conf}
    {Q : Local → Except Err Unit → Prop} (ht : φ.tx = none) (hk : φ.kind.IsWorker)
    (hn : φ.node = some n) (hl : φ.listing = some (n.id, rows))
    (hc : conf.peers = Worker.entries rows) (hok : Q { φ with synced := true } (.ok ()))
    (herr : ∀ {x}, Q φ (.error x)) :
    (C.worker.syncConf n.interfaceName conf).run.Follows C.protocol Q φ := by
  have hsync {conf : Awg.Conf} {Q : Local → Except Err Unit → Prop}
      (hc : conf.peers = Worker.entries rows) (hok : Q { φ with synced := true } (.ok ()))
      (herr : ∀ {x}, Q φ (.error x)) :
      (call (Eff.syncConf n.interfaceName conf) : Act Unit).run.Follows C.protocol Q φ :=
    (follows_call (e := Eff.syncConf n.interfaceName conf) (P := C.protocol)).mpr
      ⟨⟨ht, hk, n, rows, hn, hl, rfl, hc⟩, fun _ _ => hok, fun _ _ => herr⟩
  refine follows_bind_of <| follows_attempt.mpr <| hsync hc hok fun {e} => ?_
  simp only [Then]
  split
  case _ => exact herr
  case _ =>
    refine follows_bind_of <| follows_mapErr.mpr <|
      (follows_call (e := Eff.interfaceUp ..) (P := C.protocol)).mpr ⟨hk, fun _ _ => ?_,
        fun _ _ => herr⟩
    refine follows_bind_of <| follows_preserveRuntimePrivateKey fun {conf'} hc' => ?_
    exact hsync (hc'.trans hc) hok herr

theorem follows_applyNode {nodeID : UUID} {Q : Local → Except Err Unit → Prop} (ht : φ.tx = none)
    (hk : φ.kind.IsWorker)
    (hok : ∀ {φ' rows}, Kept φ φ' → φ'.listing = some (nodeID, rows) → (φ'.synced ∨ rows = []) →
      Q φ' (.ok ()))
    (herr : ∀ {φ' x}, Kept φ φ' → Q φ' (.error x)) :
    (C.worker.applyNode nodeID).run.Follows C.protocol Q φ := by
  refine follows_bind_of <| follows_query ht (fun db now => ?_)
    (fun _ => herr ⟨rfl, ht, rfl, rfl⟩)
  refine follows_bind_of <| follows_row (fun {n} hn => ?_) (herr ⟨rfl, ht, rfl, rfl⟩)
  have hid : n.id = nodeID := by simpa using List.find?_some hn
  simp only [Local.next, hn]
  refine follows_bind_of <| follows_query ⟨ht, hk⟩ (fun db now => ?_)
    (fun _ => herr ⟨rfl, ht, rfl, rfl⟩)
  simp only [Local.next, Then]
  generalize Query.eval db now (.peersByNode nodeID) = rows
  cases hp : n.profileID
  case none =>
    simp only
    split
    case _ hr => exact hok ⟨rfl, ht, rfl, rfl⟩ rfl (.inr hr)
    case _    => exact herr ⟨rfl, ht, rfl, rfl⟩
  case some profile =>
  simp only
  refine follows_bind_of <| follows_query ht (fun db now => ?_)
    (fun _ => herr ⟨rfl, ht, rfl, rfl⟩)
  refine follows_bind_of <| follows_row (fun {pr} _ => ?_) (herr ⟨rfl, ht, rfl, rfl⟩)
  simp only [Local.next, Then]
  have hd : (Worker.desiredConf n pr rows).peers = Worker.entries rows := rfl
  generalize Worker.desiredConf n pr rows = desired at hd
  refine follows_bind_of <| follows_preserveRuntimePrivateKey fun {conf} hc => ?_
  refine follows_bind_of <|
    follows_syncConf ht hk rfl (hid ▸ rfl) (hc.trans hd) ?_ (herr ⟨rfl, ht, rfl, rfl⟩)
  simp only [Then]
  refine follows_bind_of <| follows_silent (e := .showDump n.interfaceName) trivial (fun dump => ?_)
    (fun _ => herr ⟨rfl, ht, rfl, rfl⟩)
  simp only [Then]
  split
  case _ => exact herr ⟨rfl, ht, rfl, rfl⟩
  case _ =>
    exact follows_persistRuntime ht hk rfl rfl (hok ⟨rfl, ht, rfl, rfl⟩ rfl (.inl rfl))
      (herr ⟨rfl, ht, rfl, rfl⟩)

-- Between two jobs a worker is in no transaction, and it has no operation to mark.
structure Idle (k : Kind) (φ : Local) : Prop where
  kind : φ.kind = k
  tx   : φ.tx = none
  due  : φ.due = none

section Loop

variable {k : Kind}

theorem Idle.of_kept {φ' : Local} (hi : Idle k φ) (h : Kept φ φ') : Idle k φ' :=
  ⟨h.kind.trans hi.kind, h.tx, h.due.trans hi.due⟩

theorem Idle.worker (hi : Idle k φ) (hk : k.IsWorker) : φ.kind.IsWorker :=
  hi.kind.symm ▸ hk

theorem follows_markOperation {job : Job} {st : OperationStatus} {s : UUID → Time → Auto}
    {Q : Local → Except Err Unit → Prop} (ht : φ.tx = none) (hk : φ.kind.IsWorker)
    (hj : φ.job = some job)
    (hs : ∀ {i t}, (φ.concludes st).due = some (job, st) → job.operationID = some i →
      AllowsAuto (φ.concludes st) (s i t))
    (hn : ∀ i t r, (φ.concludes st).next (.auto (s i t)) r = { φ with job := none, due := none })
    (hQ : ∀ r, Q { φ with job := none, due := none } r) :
    (Worker.markOperation job.operationID s).run.Follows C.protocol Q (φ.concludes st) := by
  cases ho : job.operationID
  case none    =>
    have : φ.concludes st = { φ with job := none, due := none } := by
      simp [Local.concludes, hj, ho]
    exact this ▸ hQ _
  case some id =>
    have hd : (φ.concludes st).due = some (job, st) := by simp [Local.concludes, hj, ho]
    refine follows_bind_of <| (follows_call (e := Eff.timeNow)).mpr
      ⟨trivial, fun now _ => ?_, fun _ h => h.elim⟩
    refine follows_bind_of <| follows_attempt.mpr <|
      follows_auto ht hk (hs hd ho) (fun a => ?_) (fun {x} _ => ?_)
    · exact (hn id now (.ok a)).symm ▸ hQ (.ok ())
    · exact (hn id now (.error x)).symm ▸ hQ (.ok ())

theorem follows_processJob {job : Job} {Q : Local → Except Err Unit → Prop} (hi : Idle k φ)
    (hk : k.IsWorker) (hj : φ.job = some job) (hQ : ∀ {φ r}, Idle k φ → Q φ r) :
    (C.worker.processJob job).run.Follows C.protocol Q φ := by
  refine follows_bind_of <| follows_attempt.mpr <|
    follows_applyNode hi.tx (hi.worker hk) (fun {φ' rows} hkept hl hs => ?_) (fun {φ' x} hkept => ?_)
  · have hi' : Idle k φ' := hi.of_kept hkept
    have hj' : φ'.job = some job := hkept.job.trans hj
    refine follows_bind_of <| follows_attempt.mpr <|
      follows_auto hi'.tx (hi'.worker hk) ⟨job, rows, hj', rfl, hl, hs⟩ (fun a => ?_) (fun _ => ?_)
    · exact follows_markOperation hi'.tx (hi'.worker hk) hj' (fun hd ho => ⟨job, hd, ho⟩)
        (fun _ _ r => by cases r <;> rfl) (fun r => hQ ⟨hi'.kind, hi'.tx, rfl⟩)
    · exact hQ ⟨hi'.kind, hi'.tx, hi'.due⟩
  · have hi' : Idle k φ' := hi.of_kept hkept
    have hj' : φ'.job = some job := hkept.job.trans hj
    refine follows_bind_of <| follows_attempt.mpr <|
      follows_auto hi'.tx (hi'.worker hk) ⟨job, hj', rfl⟩ (fun a => ?_) (fun {y} _ => ?_)
    all_goals
      exact follows_markOperation hi'.tx (hi'.worker hk) hj' (fun hd ho => ⟨job, hd, ho⟩)
        (fun _ _ r => by cases r <;> rfl) (fun r => hQ ⟨hi'.kind, hi'.tx, rfl⟩)

theorem follows_claimNext {lease : Int} {Q : Local → Except Err (Option Job) → Prop} (hi : Idle k φ)
    (hk : k.IsWorker) (hok : ∀ {φ j}, Idle k φ → φ.job = j → Q φ (.ok j))
    (herr : ∀ {φ x}, Idle k φ → Q φ (.error x)) :
    (auto (.claimNext lease)).run.Follows C.protocol Q φ :=
  follows_auto hi.tx (hi.worker hk) hi.due (fun _ => hok ⟨hi.kind, hi.tx, hi.due⟩ rfl)
    (fun _ => herr hi)

theorem follows_runOnce (hk : k.IsWorker) (hi : Idle k φ) {Q : Local → Except Err Bool → Prop}
    (hQ : ∀ {φ r}, Idle k φ → Q φ r) : (C.worker.runOnce).run.Follows C.protocol Q φ := by
  refine follows_bind_of <| follows_claimNext hi hk (fun {φ j} hi hj => ?_) hQ
  cases j
  case none     => exact hQ hi
  case some job =>
    exact follows_bind_of <| follows_processJob hi hk hj fun {φ r} hi => by cases r <;> exact hQ hi

theorem follows_run (hk : k.IsWorker) (hi : Idle k φ) {Q : Local → Except Err Unit → Prop}
    (hQ : ∀ {φ r}, Idle k φ → Q φ r) (n : Nat) : (C.worker.run n).run.Follows C.protocol Q φ := by
  induction n generalizing φ
  case zero => exact hQ hi
  case succ n ih =>
    refine follows_bind_of <| follows_attempt.mpr <| follows_claimNext hi hk
      (fun {φ j} hi hj => ?_) (fun hi => ?_)
    · cases j
      case none     => exact ih hi
      case some job =>
        exact follows_bind_of <| follows_processJob hi hk hj fun {φ r} hi => by
          cases r
          case ok    => exact ih hi
          case error => exact hQ hi
    · exact ih hi

theorem follows_reconcile {nodeID : UUID} (hk : k.IsWorker) (hi : Idle k φ)
    {Q : Local → Except Err Unit → Prop} (hQ : ∀ {φ r}, Idle k φ → Q φ r) :
    (C.worker.reconcile nodeID).run.Follows C.protocol Q φ :=
  follows_applyNode hi.tx (hi.worker hk)
    (fun hkept _ _ => hQ (hi.of_kept hkept)) (fun hkept => hQ (hi.of_kept hkept))

theorem follows_reconcileEach (hk : k.IsWorker) (hi : Idle k φ)
    {Q : Local → Except Err (List Err) → Prop} (hQ : ∀ {φ r}, Idle k φ → Q φ r) (ids : List UUID) :
    (C.worker.reconcileEach ids).run.Follows C.protocol Q φ := by
  induction ids generalizing φ Q
  case nil => exact hQ hi
  case cons id ids ih =>
    refine follows_bind_of <| follows_attempt.mpr <| follows_reconcile hk hi fun {φ r} hi => ?_
    cases r
    case ok    => exact ih hi hQ
    case error =>
      exact follows_bind_of <| ih hi fun {φ r} hi => by cases r <;> exact hQ hi

theorem follows_reconcileAll (hk : k.IsWorker) (hi : Idle k φ)
    {Q : Local → Except Err Unit → Prop} (hQ : ∀ {φ r}, Idle k φ → Q φ r) :
    (C.worker.reconcileAll).run.Follows C.protocol Q φ := by
  refine follows_bind_of <| follows_query hi.tx (fun db now => ?_) (fun _ => hQ hi)
  refine follows_bind_of <| follows_reconcileEach hk hi (fun {φ r} hi => ?_) _
  cases r
  case error   => exact hQ hi
  case ok errs =>
    simp only [Then]
    split <;> exact hQ hi

end Loop
end ControlPlane
