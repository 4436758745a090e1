import AwgRest.Render

open Domain Netip Text

-- Edits of configuration texts before they are handed to the executor.
namespace Awg

def interfaceValue (config : List Char) (key : String) : List Char :=
  go "" (config.splitOn '\n')
where
  want := (trimSpace key.toList).map toLower
  go (sect : String) : List (List Char) → List Char
    | [] => []
    | raw :: lines =>
      let line := trimSpace raw
      if line = [] ∨ line.head? = some '#' then go sect lines
      else if line.head? = some '[' ∧ line.getLast? = some ']' then
        go (String.ofList ((trimSpace (trimBy (fun c => c = '[' ∨ c = ']') line)).map toLower)) lines
      else if sect ≠ "interface" then go sect lines
      else match cut '=' line with
        | none => go sect lines
        | some (k, v) => if (trimSpace k).map toLower = want then trimSpace v else go sect lines

-- `strings.EqualFold`, for words in which only ASCII letters can fold to the same letter.
def equalFold (s : List Char) (word : String) : Bool :=
  s.map Char.toLower = word.toList.map Char.toLower

def withInterfaceValue (config : List Char) (key : String) (value : List Char) : List Char :=
  if trimSpace value = [] ∨ interfaceValue config key ≠ [] then config
  else
    let lines := splitAfter '\n' config
    let insert := Render.item key (String.ofList value) ++ ['\n']
    match lines.findIdx? (fun line => equalFold (trimSpace line) "[Interface]") with
    | some i => (lines.take (i + 1)).flatten ++ insert ++ (lines.drop (i + 1)).flatten
    | none   => "[Interface]\n".toList ++ insert ++ config

def preserveInterfacePrivateKey (config currentConfig : List Char) : List Char :=
  let value := interfaceValue currentConfig "PrivateKey"
  if equalFold (trimSpace value) "(redacted)" then config
  else withInterfaceValue config "PrivateKey" value

end Awg

namespace Worker

def peerPresharedKey (p : Peer) : String :=
  p.presharedKeyRef.getD ""

def entry (p : Peer) : Render.PeerEntry where
  publicKey    := p.publicKey
  presharedKey := peerPresharedKey p
  allowedIPs   := [(Prefix.host p.allowedIP).string]
  comment      := p.displayName

-- The peers that `applyNode` renders.
def entries (peers : List Peer) : List Render.PeerEntry :=
  (peers.filter (·.state ≠ .revoked)).map entry

def isMissingInterfaceError (e : Err) : Bool :=
  let msg := e.text.toList.map toLower
  contains msg "interface not found".toList || contains msg "cannot find device".toList ||
  contains msg "no such device".toList || contains msg "protocol not supported".toList

def classifyRetryable (e : Err) : Bool :=
  if .notImplemented ∈ e.is then false
  else if .canceled ∈ e.is ∨ .deadlineExceeded ∈ e.is then true
  else !(contains e.text.toList "validation".toList || contains e.text.toList "invalid".toList)

end Worker
