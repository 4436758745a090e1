import AwgRest.Render

-- The types of the executor interface.
namespace Awg

structure PeerSpec where
  publicKey     : String := ""
  presharedKey  : String := ""
  allowedIPs    : List String := []
  endpoint      : String := ""
  keepaliveSecs : Int := 0
deriving DecidableEq

-- Counters of a peer, which the runtime updates by itself.
structure Stats where
  endpoint      : String := ""
  lastHandshake : Option Time := none
  rxBytes       : Int := 0
  txBytes       : Int := 0
deriving DecidableEq

structure PeerRuntime extends PeerSpec, Stats where
  keepaliveRange : String := ""
deriving DecidableEq

structure InterfaceRuntime where
  privateKey : String := ""
  publicKey  : String := ""
  listenPort : Int := 0
  fwMark     : Int := 0
deriving DecidableEq

-- A configuration text, together with the peers that it was rendered from.
structure Conf where
  text  : List Char
  peers : List Render.PeerEntry
deriving DecidableEq

def specOf (e : Render.PeerEntry) : PeerSpec where
  publicKey     := e.publicKey
  presharedKey  := e.presharedKey
  allowedIPs    := e.allowedIPs
  endpoint      := e.endpoint
  keepaliveSecs := e.keepalive

end Awg
