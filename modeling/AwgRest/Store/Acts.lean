import AwgRest.Store.World

open Domain

namespace Store

namespace Eff

-- Effects that change nothing that is modelled, apart from files.
def Silent : Eff → Prop
  | showConf _ | showDump _ | keyPair | randomKey | timeNow | openNew _ | file _ => True
  | _ => False

def OnFiles : Eff → Prop
  | openNew _ | file _ => True
  | _ => False

-- Effects that end a transaction even if they fail, and the clock, which cannot fail.
def Unfailing : Eff → Prop
  | commit | rollback | timeNow => True
  | _ => False

-- A commit that succeeds.
def Commits : (e : Eff) → Except Err e.Answer → Prop
  | commit, .ok _ => True
  | _,      _     => False

end Eff

namespace World

-- The statement time of a process: the start of its transaction, if it is in one.
def stmtTime (w : World) (pid : Nat) : Time :=
  ((w.txs pid).map Tx.start).getD w.now

-- Everything that an effect of the process `pid` can do to the world.
inductive Acts (pid : Nat) (w : World) : (e : Eff) → Except Err e.Answer → World → Prop
  | failed {e x} : ¬ e.Unfailing → External x → Acts pid w e (.error x) w
  | query (q) : Acts pid w (.query q) (.ok (q.eval (w.view pid) (w.stmtTime pid))) w
  | begin :
    w.txs pid = none →
    Acts pid w .begin (.ok ()) { w with toTransactions := w.toTransactions.begin pid w.now }
  | stmt {s tx id a} :
    w.txs pid = some tx → s.eval (w.view pid) tx.start id = some (.ok a) →
    (∀ l ∈ Transactions.needed DB (s.extraLocks a) (s.writes a), w.Free pid l) →
    Acts pid w (.stmt s) (.ok a)
      { w with toTransactions := w.write pid (s.extraLocks a) (s.writes a) }
  | commit {tx} :
    w.txs pid = some tx →
    Acts pid w .commit (.ok ()) { w with toTransactions := w.toTransactions.commit pid }
  | lost {x} : External x → Acts pid w .commit (.error x) (w.abort pid)
  | rollback : Acts pid w .rollback (.ok ()) (w.abort pid)
  | auto (s x) :
    Acts pid w (.auto s) (.ok (s.eval w.db w.now x).1) { w with db := (s.eval w.db w.now x).2 }
  | sync {iface conf old} :
    w.runtime iface = some old →
    Acts pid w (.syncConf iface conf) (.ok ())
      { w with runtime := Function.update w.runtime iface (some (conf.peers.map Awg.specOf)) }
  | up {iface path old} : w.runtime iface = some old → Acts pid w (.interfaceUp iface path) (.ok ()) w
  | create {iface path} :
    w.runtime iface = none →
    Acts pid w (.interfaceUp iface path) (.ok ())
      { w with runtime := Function.update w.runtime iface (some []) }
  | silent {e a files} : e.Silent → Acts pid w e (.ok a) { w with files := files }

theorem Acts.now {pid : Nat} {w w' : World} {e : Eff} {r : Except Err e.Answer}
    (h : Acts pid w e r w') : w'.now = w.now := by
  cases h <;> rfl

-- A lock is only lost by the end of the transaction that has it.
theorem Acts.locks {pid q : Nat} {w w' : World} {e : Eff} {r : Except Err e.Answer} {l : Lock}
    (h : Acts pid w e r w') (he : q = pid → e ≠ .commit ∧ e ≠ .rollback) (hl : (l, q) ∈ w.locks) :
    (l, q) ∈ w'.locks := by
  have ended (hq : q ≠ pid) : (l, q) ∈ (w.toTransactions.abort pid).locks :=
    List.mem_filter.mpr ⟨hl, by simpa using hq⟩
  cases h
  case stmt     => exact List.mem_append_left _ hl
  case commit   => exact ended fun hq => (he hq).1 rfl
  case lost     => exact ended fun hq => (he hq).1 rfl
  case rollback => exact ended fun hq => (he hq).2 rfl
  all_goals exact hl

-- Apart from statements that take effect at once, only a commit changes the database.
theorem Acts.db {pid : Nat} {w w' : World} {e : Eff} {r : Except Err e.Answer} (h : Acts pid w e r w')
    (ha : ∀ s, e ≠ .auto s) (hc : ¬ e.Commits r) : w'.db = w.db := by
  cases h
  case commit   => exact absurd trivial hc
  case auto s _ => exact absurd rfl (ha s)
  all_goals rfl

theorem external_fault (f : Fault) : External f.err := by
  cases f <;> simp [External, Fault.err, Err.sentinel, Err.new]

theorem external_new (text : String) : External (.new text) := by
  simp [External, Err.new]

theorem external_insert {α : Type} {used taken : Bool} {a : α} {x : Err}
    (h : Stmt.insert used taken a = some (.error x)) : External x := by
  cases used <;> cases taken <;> simp_all [Stmt.insert, External, Err.sentinel]
  subst h
  simp

theorem external_eval {s : Stmt} {db : DB} {now : Time} {id : UUID} {x : Err}
    (h : s.eval db now id = some (.error x)) : External x := by
  cases s
  case updateCursor c _ =>
    cases c
    case none   => cases h; exact external_new _
    case some _ => cases h
  all_goals first
    | exact external_insert h
    | cases h

theorem acts_of_exec {c : Choice} {pid : Nat} {w w' : World} {e : Eff} {r : Except Err e.Answer}
    (h : exec c pid w e = some (r, w')) : Acts pid w e r w' := by
  cases e <;> simp only [exec] at h
  case stmt s =>
    split at h <;> try (cases h; done)
    case _ f _ => cases h; exact .failed id (external_fault f)
    case _ tx _ htx =>
      split at h <;> try (cases h; done)
      case _ he => cases h; exact .failed id (external_eval he)
      case _ a ha =>
        split at h <;> cases h
        case _ hf => exact .stmt htx ha hf
  case commit =>
    split at h <;> cases h
    case _ f _ => exact .lost (external_fault f)
    case _ htx => exact .commit htx
  case openNew path =>
    cases h
    exact .silent trivial
  case file op =>
    cases h
    exact .silent trivial
  all_goals (try split at h) <;> cases h
  all_goals first
    | exact .failed id (external_fault _)
    | exact .failed id (external_new _)
    | exact .query _
    | exact .begin ‹_›
    | exact .rollback
    | exact .auto _ _
    | exact .sync ‹_›
    | exact .up ‹_›
    | exact .create ‹_›
    | exact .silent trivial

end World

namespace Eff

-- Whether an effect leaves all files as they are.
def KeepsFiles : (e : Eff) → Except Err e.Answer → Prop
  | openNew _, .ok (.new _)         => False
  | file (.writeString ..), .ok _   => False
  | file (.remove _), .ok none      => False
  | _, _                            => True

end Eff

-- Everything that an effect can do to the files.
inductive Files.Acts (fs : Files) : (e : Eff) → Except Err e.Answer → Files → Prop
  | created {path} :
    fs.lookup path = none → Acts fs (.openNew path) (.ok (.new fs.created)) (fs.create path)
  | written {path file text a} (t) :
    (a = none → t = text) → Acts fs (.file (.writeString path file text)) (.ok a) (fs.write path file t)
  | removed {path} : Acts fs (.file (.remove path)) (.ok none) (fs.remove path)
  | kept {e r} : e.KeepsFiles r → Acts fs e r fs

theorem Files.Acts.eq_of_not_onFiles {fs fs' : Files} {e : Eff} {r : Except Err e.Answer}
    (h : fs.Acts e r fs') (he : ¬ e.OnFiles) : fs' = fs := by
  cases h
  case kept => rfl
  all_goals exact absurd trivial he

namespace World

theorem files_of_exec {c : Choice} {pid : Nat} {w w' : World} {e : Eff} {r : Except Err e.Answer}
    (h : exec c pid w e = some (r, w')) : w.files.Acts e r w'.files := by
  have same (ho : ∀ path, e ≠ .openNew path) (hf : ∀ op, e ≠ .file op) (hw : w'.files = w.files) :
      w.files.Acts e r w'.files := by
    rw [hw]
    refine .kept ?_
    cases e <;> first
      | trivial
      | exact absurd rfl (ho _)
      | exact absurd rfl (hf _)
  cases e
  case openNew path =>
    simp only [exec, Files.openNew] at h
    split at h <;> cases h
    case _          => exact .kept trivial
    case _          => exact .kept trivial
    case _ hl       => exact .created hl
  case file op =>
    simp only [exec] at h
    cases op <;> simp only [Files.perform] at h
    case writeString path file text => split at h <;> cases h <;> exact .written _ (by simp)
    case remove path =>
      split at h <;> cases h
      case _ => exact .kept trivial
      case _ => exact .kept trivial
      case _ => exact .removed
    all_goals
      cases h
      exact .kept trivial
  case stmt s =>
    refine same nofun nofun ?_
    cases acts_of_exec h <;> first | rfl | cases ‹Eff.Silent _›
  all_goals
    refine same nofun nofun ?_
    simp only [exec] at h
    (try split at h) <;> cases h <;> rfl

end World

-- The writes of the transaction that a process is in, as its effects tell them.
def track (t : Option (List Write)) : (e : Eff) → Except Err e.Answer → Option (List Write)
  | .begin,    .ok _ => some []
  | .stmt s,   .ok a => t.map (· ++ s.writes a)
  | .commit,   _     => none
  | .rollback, _     => none
  | _,         _     => t

structure Tracks (T : Nat → Option (List Write)) (w : World) : Prop where
  txs     : ∀ pid, (w.txs pid).map Tx.writes = T pid
  orderly : w.Orderly

namespace Tracks

variable {T : Nat → Option (List Write)} {w w' : World} {pid : Nat} {e : Eff}
  {r : Except Err e.Answer}

theorem pending {ws : List Write} (h : Tracks T w) (ht : T pid = some ws) : w.pending pid = ws := by
  obtain ⟨tx, htx, rfl⟩ := Option.map_eq_some_iff.mp ((h.txs pid).trans ht)
  exact Transactions.pending_of_some htx

-- A step that leaves the transactions of the other processes alone.
theorem update {t : Option (List Write)} {w' : World} (h : Tracks T w) (ho : w'.Orderly)
    (hs : ∀ q, q ≠ pid → w'.txs q = w.txs q) (hp : (w'.txs pid).map Tx.writes = t) :
    Tracks (Function.update T pid t) w' where
  orderly := ho
  txs q := by
    by_cases hq : q = pid
    case pos => subst hq; simpa using hp
    case neg => simpa [hq, hs q hq] using h.txs q

theorem act (h : Tracks T w) (hx : World.Acts pid w e r w') :
    Tracks (Function.update T pid (track (T pid) e r)) w' := by
  have same {w' : World} (hw : w'.toTransactions = w.toTransactions) (ht : track (T pid) e r = T pid) :
      Tracks (Function.update T pid (track (T pid) e r)) w' := by
    refine h.update ?_ ?_ ?_
    · exact hw ▸ h.orderly
    · exact fun q _ => by rw [hw]
    · rw [hw, ht, h.txs pid]
  have ended : Tracks (Function.update T pid none) (w.abort pid) :=
    h.update h.orderly.abort (fun q hq => by simp [World.abort, Transactions.abort, hq])
      (by simp [World.abort, Transactions.abort])
  cases hx
  case failed hx hn => exact same rfl (by cases e <;> first | rfl | exact absurd trivial hn)
  case query q      => exact same rfl rfl
  case begin ht     =>
    exact h.update h.orderly.begin (fun q hq => by simp [Transactions.begin, hq])
      (by simp [Transactions.begin, track])
  case stmt s tx id a ht ha hf =>
    exact h.update (h.orderly.write ht hf) (fun q hq => by simp [Transactions.write, hq])
      (by simp [Transactions.write, track, ← h.txs pid, ht])
  case commit ht =>
    exact h.update h.orderly.commit
      (fun q hq => by simp [Transactions.commit, Transactions.abort, hq])
      (by simp [Transactions.commit, Transactions.abort, track])
  case lost      => exact ended
  case rollback  => exact ended
  case auto s _  =>
    exact h.update ⟨h.orderly.exclusive, h.orderly.held⟩ (fun _ _ => rfl) (h.txs pid)
  case silent hs => exact same rfl (by cases e <;> first | rfl | cases hs)
  all_goals exact same rfl rfl

end Tracks
end Store
