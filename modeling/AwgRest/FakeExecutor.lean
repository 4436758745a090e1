import AwgRest.Executor
import AwgRest.Store.Replay

open Domain Awg Store

namespace Awg

-- The part of the executor interface that works on peers, for an executor with states of a type.
structure Executor (σ : Type) where
  setPeer    : String → PeerSpec → StateM σ (Except Err Unit)
  removePeer : String → String → StateM σ (Except Err Unit)
  showDump   : String → StateM σ (Except Err (InterfaceRuntime × List PeerRuntime))

inductive PeerCall
  | setPeer    (iface : String) (p : PeerSpec)
  | removePeer (iface publicKey : String)

namespace Executor

variable {σ : Type} (e : Executor σ)

def step (st : σ) : PeerCall → σ
  | .setPeer iface p            => (e.setPeer iface p st).2
  | .removePeer iface publicKey => (e.removePeer iface publicKey st).2

-- The state after calls, each of which may have failed.
def run (calls : List PeerCall) (st : σ) : σ :=
  calls.foldl e.step st

end Executor
end Awg

namespace Fake

def keyOf (p : PeerRuntime) : String :=
  p.publicKey

-- The peers are a map by their keys.
@[ext]
structure Iface where
  priv       : String
  pub        : String
  listenPort : Int
  rendered   : List Char
  peers      : List PeerRuntime
  distinct   : (peers.map keyOf).Nodup

structure FakeExecutor where
  interfaces      : String → Option Iface
  bootstraps      : String → Option Iface
  failSyncConf    : Option Err := none
  failSetPeer     : Option Err := none
  failRemovePeer  : Option Err := none
  failShowDump    : Option Err := none
  failShowConf    : Option Err := none
  failInterfaceUp : Option Err := none

namespace Iface

variable (ifc : Iface)

def peer (p : PeerSpec) : PeerRuntime :=
  let cur := (ifc.peers.find? (keyOf · = p.publicKey)).getD { publicKey := p.publicKey }
  { cur with
    presharedKey  := p.presharedKey
    allowedIPs    := p.allowedIPs
    endpoint      := p.endpoint
    keepaliveSecs := p.keepaliveSecs }

theorem nodup_upsert {rows : List PeerRuntime} (h : (rows.map keyOf).Nodup) (r : PeerRuntime) :
    ((upsert keyOf rows r).map keyOf).Nodup := by
  by_cases hr : ∃ q ∈ rows, keyOf q = keyOf r
  case pos =>
    rw [map_upsert (fun _ hk => hk) hr]
    exact h
  case neg =>
    have hn : ∀ q ∈ rows, keyOf q ≠ keyOf r := fun q hq hk => hr ⟨q, hq, hk⟩
    rw [upsert_of_new hn, List.map_append, List.map_singleton]
    refine List.nodup_append.mpr ⟨h, by simp, ?_⟩
    intro a ha b hb
    obtain ⟨q, hq, rfl⟩ := List.mem_map.mp ha
    exact List.mem_singleton.mp hb ▸ hn q hq

def setPeer (p : PeerSpec) : Iface :=
  { ifc with peers := upsert keyOf ifc.peers (ifc.peer p), distinct := nodup_upsert ifc.distinct _ }

def removePeer (publicKey : String) : Iface where
  priv       := ifc.priv
  pub        := ifc.pub
  listenPort := ifc.listenPort
  rendered   := ifc.rendered
  peers      := ifc.peers.filter (keyOf · ≠ publicKey)
  distinct   := ifc.distinct.sublist (List.filter_sublist.map _)

end Iface

namespace FakeExecutor

def notFound (iface : String) : Err :=
  .new ("awg: interface not found: " ++ iface)

-- A failure is given once.

def setPeer (iface : String) (p : PeerSpec) : StateM FakeExecutor (Except Err Unit) := fun f =>
  match f.failSetPeer with
  | some e => (.error e, { f with failSetPeer := none })
  | none   =>
    match f.interfaces iface with
    | none     => (.error (notFound iface), f)
    | some ifc =>
      (.ok (), { f with interfaces := Function.update f.interfaces iface (some (ifc.setPeer p)) })

def removePeer (iface publicKey : String) : StateM FakeExecutor (Except Err Unit) := fun f =>
  match f.failRemovePeer with
  | some e => (.error e, { f with failRemovePeer := none })
  | none   =>
    match f.interfaces iface with
    | none     => (.ok (), f)
    | some ifc =>
      (.ok (), { f with
        interfaces := Function.update f.interfaces iface (some (ifc.removePeer publicKey)) })

def showDump (iface : String) :
    StateM FakeExecutor (Except Err (InterfaceRuntime × List PeerRuntime)) := fun f =>
  match f.failShowDump with
  | some e => (.error e, { f with failShowDump := none })
  | none   =>
    match f.interfaces iface with
    | none     => (.error (notFound iface), f)
    | some ifc =>
      (.ok ({ privateKey := ifc.priv, publicKey := ifc.pub, listenPort := ifc.listenPort },
        ifc.peers.insertionSort (keyOf · ≤ keyOf ·)), f)

end FakeExecutor

def executor : Executor FakeExecutor where
  setPeer    := FakeExecutor.setPeer
  removePeer := FakeExecutor.removePeer
  showDump   := FakeExecutor.showDump

end Fake
