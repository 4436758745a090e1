import AwgRest.Crypto
import AwgRest.Store.Files
import AwgRest.Store.Statements
import AwgRest.Lib.Program

open Domain Netip

namespace Store

-- Failures that the environment can cause at any effect.
inductive Fault
  | canceled
  | deadlineExceeded
  | notImplemented
  | other (text : String)
deriving DecidableEq

def Fault.err : Fault → Err
  | canceled         => .sentinel .canceled
  | deadlineExceeded => .sentinel .deadlineExceeded
  | notImplemented   => .sentinel .notImplemented
  | other text       => .new text

-- Errors that do not come from the service itself, so that they are not its private sentinel.
def External (e : Err) : Prop :=
  .alreadyHandled ∉ e.is

instance {e : Err} : Decidable (External e) :=
  inferInstanceAs (Decidable (¬ _))

-- The effects of the control plane: statements, calls of the executor, random numbers, clocks and
-- files. `diverge` is what a loop that never ends looks like from outside.
inductive Eff
  | query       (q : Query)
  | begin
  | stmt        (s : Stmt)
  | commit
  | rollback
  | auto        (s : Auto)
  | syncConf    (iface : String) (conf : Awg.Conf)
  | showConf    (iface : String)
  | showDump    (iface : String)
  | interfaceUp (iface path : String)
  | keyPair
  | randomKey
  | timeNow
  | openNew     (path : String)
  | file        (op : FileOp)
  | diverge

abbrev Eff.Answer : Eff → Type
  | query q         => q.Answer
  | begin           => Unit
  | stmt s          => s.Answer
  | commit          => Unit
  | rollback        => Unit
  | auto s          => s.Answer
  | syncConf ..     => Unit
  | showConf _      => List Char
  | showDump _      => Awg.InterfaceRuntime × List Awg.PeerRuntime
  | interfaceUp ..  => Unit
  | keyPair         => Crypto.KeyPair
  | randomKey       => String
  | timeNow         => Time
  | openNew _       => Opened
  | file _          => Option Err
  | diverge         => Empty

-- What the environment is free to choose: whether an effect fails, and the values that the model does
-- not determine.
structure Choice where
  fault   : Option Fault := none
  id      : UUID := 0
  pick    : Auto.Pick := {}
  keyPair : Crypto.KeyPair := ⟨"", ""⟩
  key     : String := ""
  time    : Time := 0
  text    : List Char := []
  iface   : Awg.InterfaceRuntime := {}
  stats   : String → Awg.Stats := fun _ => {}

structure World extends Transactions DB Write Lock where
  -- The peers of each interface that exists.
  runtime : String → Option (List Awg.PeerSpec)
  files   : Files
  now     : Time

namespace World

def exec (c : Choice) (pid : Nat) (w : World) : (e : Eff) → Option (Except Err e.Answer × World)
  | .query q =>
    match c.fault with
    | some f => some (.error f.err, w)
    | none   =>
      let now := ((w.txs pid).map Tx.start).getD w.now
      some (.ok (q.eval (w.view pid) now), w)
  | .begin =>
    match c.fault, w.txs pid with
    | some f, _      => some (.error f.err, w)
    | none,   none   => some (.ok (), { w with toTransactions := w.toTransactions.begin pid w.now })
    | none,   some _ => none
  | .stmt s =>
    match c.fault, w.txs pid with
    | some f, _       => some (.error f.err, w)
    | none,   none    => none
    | none,   some tx =>
      match s.eval (w.view pid) tx.start c.id with
      | none            => none
      | some (.error e) => some (.error e, w)
      | some (.ok a)    =>
        if ∀ l ∈ Transactions.needed DB (s.extraLocks a) (s.writes a), w.Free pid l then
          some (.ok a, { w with toTransactions := w.write pid (s.extraLocks a) (s.writes a) })
        else none
  | .commit =>
    match c.fault, w.txs pid with
    | some f, _      => some (.error f.err, { w with toTransactions := w.toTransactions.abort pid })
    | none,   none   => none
    | none,   some _ => some (.ok (), { w with toTransactions := w.toTransactions.commit pid })
  | .rollback => some (.ok (), { w with toTransactions := w.toTransactions.abort pid })
  | .auto s =>
    match c.fault with
    | some f => some (.error f.err, w)
    | none   =>
      let (a, db) := s.eval w.db w.now c.pick
      some (.ok a, { w with db := db })
  | .syncConf iface conf =>
    match c.fault, w.runtime iface with
    | some f, _      => some (.error f.err, w)
    | none,   none   => some (.error (.new ("awg: interface not found: " ++ iface)), w)
    | none,   some _ =>
      some (.ok (), { w with
        runtime := Function.update w.runtime iface (some (conf.peers.map Awg.specOf)) })
  | .showConf iface =>
    match c.fault, w.runtime iface with
    | some f, _      => some (.error f.err, w)
    | none,   none   => some (.error (.new ("awg: interface not found: " ++ iface)), w)
    | none,   some _ => some (.ok c.text, w)
  | .showDump iface =>
    match c.fault, w.runtime iface with
    | some f, _       => some (.error f.err, w)
    | none,   none    => some (.error (.new ("awg: interface not found: " ++ iface)), w)
    | none,   some ps => some (.ok (c.iface, ps.map fun p => { p, c.stats p.publicKey with }), w)
  | .interfaceUp iface _ =>
    match c.fault, w.runtime iface with
    | some f, _      => some (.error f.err, w)
    | none,   some _ => some (.ok (), w)
    | none,   none   => some (.ok (), { w with runtime := Function.update w.runtime iface (some []) })
  | .keyPair =>
    match c.fault with
    | some f => some (.error f.err, w)
    | none   => some (.ok c.keyPair, w)
  | .randomKey =>
    match c.fault with
    | some f => some (.error f.err, w)
    | none   => some (.ok c.key, w)
  | .timeNow => some (.ok c.time, w)
  | .openNew path =>
    let (a, files) := w.files.openNew (c.fault.map Fault.err) path
    some (.ok a, { w with files := files })
  | .file op =>
    let (a, files) := w.files.perform (c.fault.map Fault.err) c.text op
    some (.ok a, { w with files := files })
  | .diverge => none

-- A process that dies loses its transaction.
def abort (pid : Nat) (w : World) : World :=
  { w with toTransactions := w.toTransactions.abort pid }

-- Time passes.
def tick (d : Nat) (w : World) : World :=
  { w with now := w.now + d }

end World

-- The programs of the control plane.
abbrev Act (α : Type) := Fallible Err Eff.Answer α

end Store
