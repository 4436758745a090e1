import AwgRest.RoundTrip.Lines

open Domain Netip Text Render Go Awg

namespace Fake

section Peers

variable {st : ParseState} {port : Int} {p : Peer}

theorem isGraph_of_base64 {c : Char} (h : Base64.isChar c = true) : isGraph c = true := by
  have between {a b : Char} (ha : '!' ≤ a) (hb : b ≤ '~') (h : a ≤ c ∧ c ≤ b) : isGraph c = true :=
    isGraph_iff.mpr ⟨Char.le_trans ha h.1, Char.le_trans h.2 hb⟩
  simp only [Base64.isChar, Base64.value, Bool.or_eq_true, decide_eq_true_eq] at h
  split at h
  case isTrue hc => exact between (by decide) (by decide) hc
  split at h
  case isTrue hc => exact between (by decide) (by decide) hc
  split at h
  case isTrue hc => exact between (by decide) (by decide) hc
  split at h
  case isTrue hc => exact hc ▸ by decide
  split at h
  case isTrue hc => exact hc ▸ by decide
  case isFalse =>
    obtain rfl : c = '=' := by simpa using h
    decide

-- A peer row as `CreatePeer` stores it: its keys have been validated or generated.
structure Storable (p : Peer) : Prop where
  publicKey    : Crypto.validateKey p.publicKey = .ok ()
  presharedKey : ∃ k, p.presharedKeyRef = some k ∧ k ≠ "" ∧ ∀ c ∈ k.toList, Base64.isChar c = true

theorem Storable.solid_publicKey (h : Storable p) : Solid p.publicKey.toList := by
  obtain ⟨hne, hc⟩ := Crypto.isChar_of_validateKey h.publicKey
  exact ⟨by simpa using hne, fun c hm => isGraph_of_base64 (hc c hm)⟩

theorem Storable.solid_presharedKey (h : Storable p) : Solid (Worker.peerPresharedKey p).toList := by
  obtain ⟨k, hk, hne, hc⟩ := h.presharedKey
  rw [Worker.peerPresharedKey, hk, Option.getD_some]
  exact ⟨by simpa using hne, fun c hm => isGraph_of_base64 (hc c hm)⟩

theorem splitCSV_prefix (q : Prefix) : splitCSV q.string.toList = [q.string] := by
  have hc : ',' ∉ q.string.toList := fun h => (isGraph_of_isAddrChar (AddrText.ofPrefix q _ h)).2 rfl
  have hs := solid_prefixString q
  simp [splitCSV, List.splitOn_eq_singleton hc, hs.trimSpace_eq, hs.1]

-- The fields in which a parsed peer is compared with an entry: public key, preshared key and
-- allowed addresses. Endpoint and keepalive are not compared, nor is the comment with the name.
def core (p : PeerSpec) : String × String × List String :=
  (p.publicKey, p.presharedKey, p.allowedIPs)

def entryCore (e : PeerEntry) : String × String × List String :=
  (e.publicKey, e.presharedKey, e.allowedIPs)

-- The items of a rendered peer.
def peerItems (p : Peer) : List (List Char) :=
  [item "PublicKey" p.publicKey, item "PresharedKey" (Worker.peerPresharedKey p),
    item "AllowedIPs" (Prefix.host p.allowedIP).string]

def commentTexts (d : String) : List (List Char) :=
  if d ≠ "" then ['#' :: ' ' :: d.toList] else []

theorem writePeer_entry (h : Storable p) :
    writePeer (Worker.entry p) = [[], "[Peer]".toList] ++ commentTexts p.displayName ++ peerItems p := by
  have hne : Worker.peerPresharedKey p ≠ "" := by
    intro he
    exact h.solid_presharedKey.1 (by simp [he])
  by_cases hd : p.displayName = "" <;>
    simp [writePeer, Worker.entry, itemIf, hne, commentTexts, peerItems, hd]

theorem lines_peerItems (h : Storable p) : lines (peerItems p) = peerItems p := by
  have hb : ∀ l ∈ peerItems p, '\n' ∉ l := by
    simp only [peerItems, List.forall_mem_cons]
    exact ⟨item_no_break (by decide) (no_break_of_solid h.solid_publicKey),
      item_no_break (by decide) (no_break_of_solid h.solid_presharedKey),
      item_no_break (by decide) (no_break_of_solid (solid_prefixString _)), nofun⟩
  rw [lines, List.flatMap_congr fun l hl => List.splitOn_eq_singleton (hb l hl)]
  exact List.flatMap_singleton' _

theorem parse_peerItems (h : Storable p) :
    parseLines st (lines (peerItems p)) =
      assign (assign (assign st "PublicKey".toList p.publicKey.toList)
        "PresharedKey".toList (Worker.peerPresharedKey p).toList)
        "AllowedIPs".toList (Prefix.host p.allowedIP).string.toList := by
  rw [lines_peerItems h]
  simp only [peerItems, parseLines_cons]
  rw [parseLine_item_solid (by decide) h.solid_publicKey,
    parseLine_item_solid (by decide) h.solid_presharedKey,
    parseLine_item_solid (by decide) (solid_prefixString _)]
  rfl

-- In the section of a peer the items set the fields of the peer, and otherwise they do nothing.
theorem parse_peerItems_peer (h : Storable p) (hs : st.sect = "Peer") :
    parseLines st (lines (peerItems p)) =
      { st with
        cur.publicKey    := p.publicKey
        cur.presharedKey := Worker.peerPresharedKey p
        cur.allowedIPs   := [(Prefix.host p.allowedIP).string] } := by
  have h₁ : String.ofList ("PublicKey".toList.map toLower) = "publickey" := by decide
  have h₂ : String.ofList ("PresharedKey".toList.map toLower) = "presharedkey" := by decide
  have h₃ : String.ofList ("AllowedIPs".toList.map toLower) = "allowedips" := by decide
  simp only [parse_peerItems h, assign, hs, h₁, h₂, h₃, splitCSV_prefix, String.ofList_toList]

theorem assign_other {k v : List Char} (hs : st.sect ≠ "Peer")
    (hk : String.ofList (k.map toLower) ∉ ["privatekey", "listenport"]) : assign st k v = st := by
  simp only [List.mem_cons, List.not_mem_nil, or_false, not_or] at hk
  unfold assign
  split <;> simp_all

theorem parse_peerItems_other (h : Storable p) (hs : st.sect ≠ "Peer") :
    parseLines st (lines (peerItems p)) = st := by
  rw [parse_peerItems h, assign_other hs (by decide), assign_other hs (by decide),
    assign_other hs (by decide)]

-- The state of the parser after the header of a peer, where there were no peers before.
def peerState (port : Int) : ParseState :=
  { interfaceState port with sect := "Peer" }

-- A display name is inert if the lines that it adds change nothing but the values that the items of
-- its peer set again, its endpoint and its keepalive interval.
def Inert (d : String) : Prop :=
  ∀ port, 1 ≤ port ∧ port ≤ 65535 →
    let st := parseLines (peerState port) (contLines d)
    st.peers = [] ∧ st.sect = "Peer" ∧ st.iface.listenPort = port ∧ st.iface.privateKey = ""

theorem parseLines_iface (st : ParseState) (ls : List (List Char)) :
    (parseLines st ls).iface =
      { st.iface with
        privateKey := (parseLines st ls).iface.privateKey
        listenPort := (parseLines st ls).iface.listenPort } := by
  induction ls generalizing st
  case nil => rfl
  case cons l ls ih =>
    rw [parseLines_cons, ih, parseLine_iface]

theorem parse_commentTexts (d : String) :
    parseLines st (lines (commentTexts d)) = parseLines st (contLines d) := by
  unfold commentTexts
  split
  case isTrue  => exact parse_comment d
  case isFalse h =>
    obtain rfl : d = "" := by simpa using h
    rfl

theorem Inert.parse_eq {d : String} (h : Inert d) (hp : 1 ≤ port ∧ port ≤ 65535) :
    ∃ c, parseLines (peerState port) (contLines d) = { peerState port with cur := c } := by
  obtain ⟨hps, hs, hl, hk⟩ := h port hp
  have hi := parseLines_iface (peerState port) (contLines d)
  rw [hl, hk] at hi
  refine ⟨(parseLines (peerState port) (contLines d)).cur, ?_⟩
  generalize parseLines (peerState port) (contLines d) = st at *
  obtain ⟨⟨iface, peers⟩, sect, cur⟩ := st
  simp_all [peerState, interfaceState]

theorem inert_of_no_break {d : String} (h : '\n' ∉ d.toList) : Inert d := by
  intro port _
  have hc : contLines d = [] := by simp [contLines, List.splitOn_eq_singleton h]
  simp [hc, parseLines, peerState, interfaceState]

-- One rendered peer adds itself, whatever section it is found in.
theorem parse_writePeer (h : Storable p) (hd : Inert p.displayName) (hp : 1 ≤ port ∧ port ≤ 65535)
    (hi : st.iface = { listenPort := port }) :
    (parseLines st (lines (writePeer (Worker.entry p)))).iface = { listenPort := port } ∧
    (flush (parseLines st (lines (writePeer (Worker.entry p))))).peers.map core =
      (flush st).peers.map core ++ [entryCore (Worker.entry p)] := by
  obtain ⟨c, hc⟩ := hd.parse_eq hp
  have h₁ : parseLines st (lines [[], "[Peer]".toList]) =
      { peerState port with peers := (flush st).peers ++ (peerState port).peers } := by
    rw [parse_header]
    simp [flush, peerState, interfaceState, hi]
  rw [writePeer_entry h, lines_append, lines_append, parseLines_append, parseLines_append, h₁,
    parse_commentTexts, parseLines_frame, hc, parse_peerItems_peer h rfl]
  have hne : p.publicKey ≠ "" := fun he => h.solid_publicKey.1 (by simp [he])
  simp [flush, peerState, interfaceState, hne, core, entryCore, Worker.entry]

theorem parse_writePeers {ps : List Peer} (h : ∀ p ∈ ps, Storable p)
    (hd : ∀ p ∈ ps, Inert p.displayName) (hp : 1 ≤ port ∧ port ≤ 65535)
    (hi : st.iface = { listenPort := port }) :
    (parseLines st (lines ((ps.map Worker.entry).flatMap writePeer))).iface = { listenPort := port } ∧
    (flush (parseLines st (lines ((ps.map Worker.entry).flatMap writePeer)))).peers.map core =
      (flush st).peers.map core ++ (ps.map Worker.entry).map entryCore := by
  induction ps generalizing st
  case nil => simp [lines, parseLines, hi]
  case cons p ps ih =>
    obtain ⟨hi', hp'⟩ := parse_writePeer (h p (by simp)) (hd p (by simp)) hp hi
    obtain ⟨hi'', hp''⟩ := ih (fun q hq => h q (by simp [hq])) (fun q hq => hd q (by simp [hq])) hi'
    simp only [List.map_cons, List.flatMap_cons, lines_append, parseLines_append]
    exact ⟨hi'', by rw [hp'', hp', List.append_assoc]; rfl⟩

end Peers
end Fake
