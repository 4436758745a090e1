import AwgRest.Profile
import Mathlib.Data.List.Sort

open Domain

namespace Render

structure Interface where
  privateKey : String := ""
  address    : List String := []
  listenPort : Int := 0
  mtu        : Int := 0
  dns        : List String := []
  postUp     : String := ""
  postDown   : String := ""
deriving DecidableEq

structure PeerEntry where
  publicKey    : String
  presharedKey : String := ""
  allowedIPs   : List String := []
  endpoint     : String := ""
  keepalive    : Int := 0
  comment      : String := ""
deriving DecidableEq

-- Configuration texts are lists of characters. Everything that the renderer writes ends with a line
-- break, so what it writes is given as the list of the texts before these line breaks.
def unlines (ls : List (List Char)) : List Char :=
  ls.flatMap (· ++ ['\n'])

def item (key value : String) : List Char :=
  key.toList ++ [' ', '=', ' '] ++ value.toList

def itemIf (b : Bool) (key value : String) : List (List Char) :=
  if b then [item key value] else []

def awgBool (v : Bool) : String :=
  if v then "on" else "off"

def writeUint16Range (key : String) (value : Uint16Range) : List (List Char) :=
  itemIf (!value.isZero) key value.string

def writeSpecialJunk (key value : String) (includeEmpty : Bool) : List (List Char) :=
  itemIf (value ≠ "" || includeEmpty) key value

def writeProfile (p : ProtocolProfile) (includeEmptySpecialJunk : Bool) : List (List Char) :=
  [item "Jc" (toString p.jc), item "Jmin" (toString p.jmin), item "Jmax" (toString p.jmax),
    item "S1" (toString p.s1), item "S2" (toString p.s2)] ++
  itemIf p.supportsV2Fields "S3" (toString p.s3) ++
  itemIf p.supportsV2Fields "S4" (toString p.s4) ++
  [item "H1" p.h1.string, item "H2" p.h2.string, item "H3" p.h3.string, item "H4" p.h4.string] ++
  (if p.supportsV2Fields then
    writeSpecialJunk "I1" p.i1 includeEmptySpecialJunk ++
    writeSpecialJunk "I2" p.i2 includeEmptySpecialJunk ++
    writeSpecialJunk "I3" p.i3 includeEmptySpecialJunk ++
    writeSpecialJunk "I4" p.i4 includeEmptySpecialJunk ++
    writeSpecialJunk "I5" p.i5 includeEmptySpecialJunk
  else []) ++
  (if p.isV31 then
    itemIf (p.headerProtectionKey ≠ "") "HeaderProtectionKey" p.headerProtectionKey ++
    writeUint16Range "ContentPaddingAddition" p.contentPaddingAddition ++
    writeUint16Range "RekeyAfterTime" p.rekeyAfterTime ++
    writeUint16Range "RekeyTimeout" p.rekeyTimeout ++
    writeUint16Range "RejectAfterTime" p.rejectAfterTime ++
    writeUint16Range "KeepaliveTimeout" p.keepaliveTimeout ++
    writeUint16Range "MaxHandshakeAttempts" p.maxHandshakeAttempts ++
    [item "RandomTrailers" (awgBool p.randomTrailers),
      item "DisableCookies" (awgBool p.disableCookies)]
  else [])

def writeInterface (iface : Interface) : List (List Char) :=
  iface.address.map (item "Address") ++
  itemIf (iface.listenPort > 0) "ListenPort" (toString iface.listenPort) ++
  itemIf (iface.privateKey ≠ "") "PrivateKey" iface.privateKey ++
  itemIf (iface.mtu > 0) "MTU" (toString iface.mtu) ++
  itemIf (iface.dns ≠ []) "DNS" (", ".intercalate iface.dns) ++
  itemIf (iface.postUp ≠ "") "PostUp" iface.postUp ++
  itemIf (iface.postDown ≠ "") "PostDown" iface.postDown

def writePeer (p : PeerEntry) : List (List Char) :=
  [[], "[Peer]".toList] ++
  (if p.comment ≠ "" then ['#' :: ' ' :: p.comment.toList] else []) ++
  [item "PublicKey" p.publicKey] ++
  itemIf (p.presharedKey ≠ "") "PresharedKey" p.presharedKey ++
  itemIf (p.allowedIPs ≠ []) "AllowedIPs" (", ".intercalate p.allowedIPs) ++
  itemIf (p.endpoint ≠ "") "Endpoint" p.endpoint ++
  itemIf (p.keepalive > 0) "PersistentKeepalive" (toString p.keepalive)

def KeyLe (a b : PeerEntry) : Prop :=
  a.publicKey ≤ b.publicKey

instance : DecidableRel KeyLe :=
  fun a b => inferInstanceAs (Decidable (a.publicKey ≤ b.publicKey))

def sorted (peers : List PeerEntry) : List PeerEntry :=
  peers.insertionSort KeyLe

def server (iface : Interface) (profile : ProtocolProfile) (peers : List PeerEntry) :
    List Char :=
  unlines <|
    ["# Generated by awg-rest. Do not edit by hand.".toList,
      "[Interface]".toList] ++ writeInterface iface ++
    writeProfile profile false ++ (sorted peers).flatMap writePeer

structure ClientArgs where
  clientPrivateKey : String := ""
  clientAddress    : List String := []
  dns              : List String := []
  mtu              : Int := 0
  serverPublicKey  : String
  serverEndpoint   : String
  presharedKey     : String := ""
  allowedIPs       : List String := []
  keepalive        : Int := 0

def amneziaFullTunnelAllowedIPs : List String :=
  ["0.0.0.0/0", "::/0"]

def client (args : ClientArgs) (profile : ProtocolProfile) : List Char :=
  let allowed := if args.allowedIPs = [] then amneziaFullTunnelAllowedIPs else args.allowedIPs
  unlines <|
    ["[Interface]".toList] ++
    itemIf (args.clientPrivateKey ≠ "") "PrivateKey" args.clientPrivateKey ++
    args.clientAddress.map (item "Address") ++
    itemIf (args.dns ≠ []) "DNS" (", ".intercalate args.dns) ++
    itemIf (args.mtu > 0) "MTU" (toString args.mtu) ++
    writeProfile profile true ++
    [[], "[Peer]".toList, item "PublicKey" args.serverPublicKey] ++
    itemIf (args.presharedKey ≠ "") "PresharedKey" args.presharedKey ++
    [item "AllowedIPs" (", ".intercalate allowed), item "Endpoint" args.serverEndpoint] ++
    (if profile.isV31 && !profile.persistentKeepalive.isZero then
      [item "PersistentKeepalive" profile.persistentKeepalive.string]
    else itemIf (args.keepalive > 0) "PersistentKeepalive" (toString args.keepalive))

def amneziaClient (args : ClientArgs) (profile : ProtocolProfile) : List Char :=
  client { args with allowedIPs := amneziaFullTunnelAllowedIPs } profile

end Render
