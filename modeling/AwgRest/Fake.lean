import AwgRest.Executor

open Text Go Awg

-- The parser by which the in-memory executor reads a rendered configuration.
namespace Fake

structure ParsedConfig where
  iface : InterfaceRuntime := {}
  peers : List PeerSpec := []
deriving DecidableEq

-- The variables of `parseRenderedConfig`.
structure ParseState extends ParsedConfig where
  sect : String := ""
  cur  : PeerSpec := {}
deriving DecidableEq

def splitCSV (s : List Char) : List String :=
  (s.splitOn ',').map trimSpace |>.filter (· ≠ []) |>.map String.ofList

-- Reads digits up to the first other character, in a variable of type `int`.
def fmtScan (s : List Char) : Int :=
  (s.takeWhile Char.isDigit).foldl (fun n c => toInt (n * 10 + (c.toNat - '0'.toNat : Nat))) 0

def flush (st : ParseState) : ParseState :=
  { st with
    peers := if st.sect = "Peer" ∧ st.cur.publicKey ≠ "" then st.peers ++ [st.cur] else st.peers
    cur   := {} }

def assign (st : ParseState) (k v : List Char) : ParseState :=
  match st.sect, String.ofList (k.map toLower) with
  | "Interface", "privatekey"      => { st with iface.privateKey := String.ofList v }
  | "Interface", "listenport"      => { st with iface.listenPort := fmtScan v }
  | "Peer", "publickey"            => { st with cur.publicKey := String.ofList v }
  | "Peer", "presharedkey"         => { st with cur.presharedKey := String.ofList v }
  | "Peer", "allowedips"           => { st with cur.allowedIPs := splitCSV v }
  | "Peer", "endpoint"             => { st with cur.endpoint := String.ofList v }
  | "Peer", "persistentkeepalive"  => { st with cur.keepaliveSecs := fmtScan v }
  | _, _                           => st

def isBracket (c : Char) : Bool :=
  c = '[' ∨ c = ']'

def parseLine (st : ParseState) (raw : List Char) : ParseState :=
  let line := trimSpace raw
  if line = [] ∨ line.head? = some '#' then st
  else if line.head? = some '[' ∧ line.getLast? = some ']' then
    { flush st with sect := String.ofList (trimBy isBracket line) }
  else match cut '=' line with
    | none        => st
    | some (k, v) => assign st (trimSpace k) (trimSpace v)

def parseLines (st : ParseState) (lines : List (List Char)) : ParseState :=
  lines.foldl parseLine st

def parseRenderedConfig (s : List Char) : ParsedConfig :=
  (flush (parseLines {} (s.splitOn '\n'))).toParsedConfig

end Fake
