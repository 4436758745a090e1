import AwgRest.Executor
import AwgRest.Lib.Strconv

open Domain Text Strconv

-- The reader of `awg show <iface> dump`. The verb `%q` is a parameter, as it occurs in errors only.
namespace Awg

variable (quote : List Char → String)

def noneToEmpty (s : List Char) : String :=
  if s = "(none)".toList then "" else String.ofList s

def splitAllowedIPs (s : List Char) : List String :=
  if s = "(none)".toList ∨ s = [] then []
  else ((s.splitOn ',').map trimSpace).filter (· ≠ []) |>.map String.ofList

-- The error of a function of `strconv`, after what was to be read with it.
def numError (what fn : String) (s : List Char) (e : NumError) : Err :=
  .new (what ++ "strconv." ++ fn ++ ": parsing " ++ quote s ++ ": " ++ e.text)

def validateUint16RangeText (s : List Char) : Except Err Unit := do
  match s.splitOn '-' with
  | [min, max] =>
    let lo ← (parseUint 16 min).mapError (numError quote "invalid min: " "ParseUint" min)
    let hi ← (parseUint 16 max).mapError (numError quote "invalid max: " "ParseUint" max)
    if lo > hi then throw (.new ("min " ++ toString lo ++ " > max " ++ toString hi)) else pure ()
  | _ => throw (.new "expected min-max")

-- The columns between the port and the last one differ between versions, and are not read.
def parseInterfaceLine (line : List Char) : Except Err InterfaceRuntime := do
  match line.splitOn '\t' with
  | priv :: pub :: port :: x :: rest =>
    let listenPort ← (parseInt port).mapError (numError quote "invalid listen port: " "Atoi" port)
    let fwmarkField := (x :: rest).getLast (List.cons_ne_nil _ _)
    let fwMark ← match parseInt0 fwmarkField with
      | .ok n    => pure n
      | .error e =>
        if fwmarkField ≠ "off".toList then
          throw (numError quote "invalid fwmark: " "ParseInt" fwmarkField e)
        else pure 0
    pure { privateKey := noneToEmpty priv, publicKey := noneToEmpty pub, listenPort, fwMark }
  | _ => throw (.new ("invalid interface line: " ++ quote line))

-- The time of a handshake in seconds; what is not a number counts as none.
def lastHandshake (s : List Char) : Option Time :=
  match parseInt s with
  | .ok ts   => if ts > 0 then some (ts * 1000000) else none
  | .error _ => none

-- A scalar is given both as a number and as it stands.
def parseKeepalive (s : List Char) : Except Err (Int × String) := do
  if s = "off".toList ∨ s = [] then pure (0, "")
  else if '-' ∉ s then
    let secs ← (parseInt s).mapError (numError quote "invalid keepalive: " "Atoi" s)
    pure (secs, String.ofList s)
  else
    (validateUint16RangeText quote s).mapError (·.wrap "invalid keepalive range: ")
    pure (0, String.ofList s)

def parsePeerLine (line : List Char) : Except Err PeerRuntime := do
  match line.splitOn '\t' with
  | pub :: psk :: endpoint :: ips :: ts :: rx :: tx :: keepalive :: _ =>
    let rxBytes ← (parseInt rx).mapError (numError quote "invalid rx bytes: " "ParseInt" rx)
    let txBytes ← (parseInt tx).mapError (numError quote "invalid tx bytes: " "ParseInt" tx)
    let (keepaliveSecs, keepaliveRange) ← parseKeepalive quote keepalive
    pure {
      publicKey := String.ofList pub, presharedKey := noneToEmpty psk
      endpoint := noneToEmpty endpoint, allowedIPs := splitAllowedIPs ips
      lastHandshake := lastHandshake ts
      rxBytes, txBytes, keepaliveSecs, keepaliveRange }
  | _ => throw (.new ("invalid peer line: " ++ quote line))

-- The lines of `bufio.Scanner`, which has a buffer of this size and takes off a carriage return.

def maxTokenSize : Nat :=
  1024 * 1024

def rawLines (s : List Char) : List (List Char) :=
  let ls := s.splitOn '\n'
  if ls.getLast? = some [] then ls.dropLast else ls

def dropCR (line : List Char) : List Char :=
  if line.getLast? = some '\r' then line.dropLast else line

def parseLines (iface : Option InterfaceRuntime) (peers : List PeerRuntime) :
    List (List Char) → Except Err (InterfaceRuntime × List PeerRuntime)
  | []          => pure (iface.getD {}, peers)
  | raw :: rest => do
    if maxTokenSize ≤ (String.ofList raw).utf8ByteSize then throw (.new "bufio.Scanner: token too long")
    else if dropCR raw = [] then parseLines iface peers rest
    else match iface with
      | none   => parseLines (some (← parseInterfaceLine quote (dropCR raw))) peers rest
      | some i => parseLines (some i) (peers ++ [← parsePeerLine quote (dropCR raw)]) rest

def parseShowDump (s : List Char) : Except Err (InterfaceRuntime × List PeerRuntime) :=
  parseLines quote none [] (rawLines s)

end Awg
