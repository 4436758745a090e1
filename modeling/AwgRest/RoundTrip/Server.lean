import AwgRest.RoundTrip.Peers
import Mathlib.Data.String.Basic

open Domain Netip Text Render Awg

namespace Fake

-- What is rendered for a node: a port, a profile that was accepted when it was stored, and peer rows.
structure Renderable (port : Int) (profile : ProtocolProfile) (rows : List Peer) : Prop where
  inRange  : 1 ≤ port ∧ port ≤ 65535
  valid    : profile.validate = []
  noBreak  : NoBreak profile
  storable : ∀ p ∈ rows, Storable p
  distinct : (rows.map Peer.publicKey).Nodup

-- A parsed configuration carries exactly the peers that `applyNode` renders, sorted by public key.
structure Carries (port : Int) (rows : List Peer) (pc : ParsedConfig) : Prop where
  listenPort : pc.iface.listenPort = port
  privateKey : pc.iface.privateKey = ""
  sorted     : (pc.peers.map PeerSpec.publicKey).Pairwise (· < ·)
  perm       : (pc.peers.map core).Perm ((Worker.entries rows).map entryCore)

section

variable {port : Int} {profile : ProtocolProfile} {rows : List Peer} {p : Peer}

-- The renderer sorts the entries of the peers as it would sort the peers themselves.
def sortedRows (rows : List Peer) : List Peer :=
  (rows.filter (·.state ≠ .revoked)).insertionSort (fun a b => KeyLe (Worker.entry a) (Worker.entry b))

theorem sorted_entries (rows : List Peer) :
    sorted (Worker.entries rows) = (sortedRows rows).map Worker.entry := by
  rw [sorted, Worker.entries, sortedRows]
  exact (List.map_insertionSort _ _ Worker.entry _ fun _ _ _ _ => Iff.rfl).symm

theorem mem_sortedRows : p ∈ sortedRows rows ↔ p ∈ rows ∧ p.state ≠ .revoked := by
  simp [sortedRows, List.mem_insertionSort]

instance : Std.Total (fun a b : Peer => KeyLe (Worker.entry a) (Worker.entry b)) where
  total _ _ := String.le_total ..

instance : IsTrans Peer (fun a b => KeyLe (Worker.entry a) (Worker.entry b)) where
  trans _ _ _ := String.le_trans

theorem pairwise_sortedRows (h : (rows.map Peer.publicKey).Nodup) :
    ((sortedRows rows).map Peer.publicKey).Pairwise (· < ·) := by
  have hle : ((sortedRows rows).map Peer.publicKey).Pairwise (· ≤ ·) :=
    List.pairwise_map.mpr (List.pairwise_insertionSort _ _)
  have hperm : ((sortedRows rows).map Peer.publicKey).Perm
      ((rows.filter (·.state ≠ .revoked)).map Peer.publicKey) :=
    (List.perm_insertionSort _ _).map _
  have hnd : ((sortedRows rows).map Peer.publicKey).Nodup :=
    hperm.nodup_iff.mpr (h.sublist (List.filter_sublist.map _))
  exact (hle.and hnd).imp fun ⟨hle, hne⟩ => lt_of_le_of_ne hle hne

theorem parse_server (hp : 1 ≤ port ∧ port ≤ 65535) (hb : NoBreak profile) (rows : List Peer) :
    parseRenderedConfig (server { listenPort := port } profile (Worker.entries rows)) =
      (flush (parseLines (interfaceState port)
        (lines (((sortedRows rows).map Worker.entry).flatMap writePeer)))).toParsedConfig := by
  rw [server, parse_unlines, lines_append, parseLines_append, parse_interface hp hb, sorted_entries]

theorem carries_of_inert (h : Renderable port profile rows)
    (hd : ∀ e ∈ Worker.entries rows, Inert e.comment) :
    Carries port rows
      (parseRenderedConfig (server { listenPort := port } profile (Worker.entries rows))) := by
  have hst : ∀ p ∈ sortedRows rows, Storable p := fun p hp => h.storable p (mem_sortedRows.mp hp).1
  have hin : ∀ p ∈ sortedRows rows, Inert p.displayName := by
    intro p hp
    refine hd (Worker.entry p) (List.mem_map_of_mem ?_)
    simpa using mem_sortedRows.mp hp
  have hi₀ : (interfaceState port).iface = { listenPort := port } := rfl
  obtain ⟨hi, hps⟩ := parse_writePeers hst hin h.inRange hi₀
  rw [parse_server h.inRange h.noBreak]
  generalize hst' : parseLines (interfaceState port)
    (lines (((sortedRows rows).map Worker.entry).flatMap writePeer)) = st at *
  have hcore : (flush st).peers.map core = ((sortedRows rows).map Worker.entry).map entryCore := by
    simpa [flush, interfaceState] using hps
  refine ⟨by simp [flush, hi], by simp [flush, hi], ?_, ?_⟩
  case refine_1 =>
    have hkeys : (flush st).peers.map PeerSpec.publicKey = (sortedRows rows).map Peer.publicKey := by
      have := congrArg (List.map Prod.fst) hcore
      simpa [core, entryCore, Worker.entry, Function.comp_def] using this
    rw [hkeys]
    exact pairwise_sortedRows h.distinct
  case refine_2 =>
    rw [hcore, Worker.entries]
    exact ((List.perm_insertionSort _ _).map _).map _

theorem parse_writePeer_first (h : Storable p) :
    parseLines (interfaceState port) (lines (writePeer (Worker.entry p))) =
      parseLines (parseLines (peerState port) (contLines p.displayName)) (lines (peerItems p)) := by
  rw [writePeer_entry h, lines_append, lines_append, parseLines_append, parseLines_append,
    parse_header,
    parse_commentTexts]
  rfl

-- A single peer, whatever its display name is.
theorem parse_server_singleton (h : Storable p) (hr : p.state ≠ .revoked)
    (hp : 1 ≤ port ∧ port ≤ 65535) (hb : NoBreak profile) :
    parseRenderedConfig (server { listenPort := port } profile (Worker.entries [p])) =
      (flush (parseLines (parseLines (peerState port) (contLines p.displayName))
        (lines (peerItems p)))).toParsedConfig := by
  have hs : sortedRows [p] = [p] := by simp [sortedRows, hr]
  rw [parse_server hp hb, hs, ← parse_writePeer_first h]
  simp

end

-- A profile and peers with which every display name can be tried out.
namespace Sample

def profile : ProtocolProfile where
  id              := 1
  name            := "default"
  protocolVersion := .v1
  jc              := 4
  jmin            := 40
  jmax            := 70
  s1              := 0
  s2              := 0
  h1              := ⟨1, 1⟩
  h2              := ⟨2, 2⟩
  h3              := ⟨3, 3⟩
  h4              := ⟨4, 4⟩

def keyA : String := "AAAAAAAAAAAAAAAAAAAAAAAAAAAAAAAAAAAAAAAAAAA="
def keyB : String := "BBBBBBBBBBBBBBBBBBBBBBBBBBBBBBBBBBBBBBBBBBA="

def peer (key name : String) : Peer where
  id              := 2
  tenantID        := 3
  nodeID          := 4
  profileID       := 1
  externalID      := "device"
  displayName     := name
  publicKey       := key
  presharedKeyRef := some keyA
  allowedIP       := ⟨.v4, 0x0a000002, by decide⟩
  state           := .active
  desiredRevision := 1
  appliedRevision := 1
  expiresAt       := none
  revokedAt       := none
  createdAt       := 0
  updatedAt       := 0

theorem validateKey_key {key : String} (hk : key = keyA ∨ key = keyB) :
    Crypto.validateKey key = .ok () := by
  rw [Crypto.validateKey_eq_ok_iff]
  rcases hk with rfl | rfl <;> decide

theorem storable_peer {key : String} (hk : key = keyA ∨ key = keyB) (name : String) :
    Storable (peer key name) where
  publicKey    := validateKey_key hk
  presharedKey := ⟨keyA, rfl, by decide, List.all_eq_true.mp (by decide)⟩

theorem renderable_peer {port : Int} (hp : 1 ≤ port ∧ port ≤ 65535) {key : String}
    (hk : key = keyA ∨ key = keyB) (name : String) : Renderable port profile [peer key name] where
  inRange  := hp
  valid    := by decide
  noBreak  := by constructor <;> decide
  storable := by simpa using storable_peer hk name
  distinct := List.nodup_singleton _

end Sample

-- The necessity of inertness: the peer with the display name is lost, a foreign one appears, or the
-- interface changes.
theorem inert_of_carries {d : String}
    (h : ∀ port, 1 ≤ port ∧ port ≤ 65535 → ∀ key, key = Sample.keyA ∨ key = Sample.keyB →
      Carries port [Sample.peer key d]
        (parseRenderedConfig (server { listenPort := port } Sample.profile
          (Worker.entries [Sample.peer key d])))) : Inert d := by
  intro port hp st
  have carries (key) (hk : key = Sample.keyA ∨ key = Sample.keyB) := h port hp key hk
  have parse (key) (hk : key = Sample.keyA ∨ key = Sample.keyB) :
      parseRenderedConfig (server { listenPort := port } Sample.profile
        (Worker.entries [Sample.peer key d])) =
        (flush (parseLines st (lines (peerItems (Sample.peer key d))))).toParsedConfig :=
    parse_server_singleton (Sample.storable_peer hk d) nofun hp
      (Sample.renderable_peer hp hk d).noBreak
  have one (key) : (Worker.entries [Sample.peer key d]).map entryCore =
      [entryCore (Worker.entry (Sample.peer key d))] := rfl
  by_cases hs : st.sect = "Peer"
  case pos =>
    have hc := carries _ (.inl rfl)
    rw [parse _ (.inl rfl), parse_peerItems_peer (Sample.storable_peer (.inl rfl) d) hs] at hc
    have hlen := hc.perm.length_eq
    have hne : (Sample.peer Sample.keyA d).publicKey ≠ "" := by simp [Sample.peer, Sample.keyA]
    simp only [one, flush, hs, hne, ne_eq, not_false_eq_true, and_self, if_true, List.length_map,
      List.length_append, List.length_singleton] at hlen
    exact ⟨by simpa using hlen, hs, hc.listenPort, hc.privateKey⟩
  case neg =>
    -- The items of the peer are not read, so the only peer comes from the display name and cannot
    -- have both keys.
    exfalso
    have key (key) (hk : key = Sample.keyA ∨ key = Sample.keyB) :
        (st.peers.map core).map Prod.fst = [key] := by
      have hc := carries key hk
      rw [parse key hk, parse_peerItems_other (Sample.storable_peer hk d) hs] at hc
      have := (hc.perm.map Prod.fst)
      simp only [flush, hs, false_and, if_false, one] at this
      simpa [entryCore, Worker.entry, Sample.peer] using this
    have := (key _ (.inl rfl)).symm.trans (key _ (.inr rfl))
    exact absurd this (by decide)

-- The display names with which the desired peers are always carried are the inert ones.
theorem server_carries_iff_inert (D : String → Prop) :
    (∀ port profile rows, Renderable port profile rows →
      (∀ e ∈ Worker.entries rows, D e.comment) →
      Carries port rows
        (parseRenderedConfig (server { listenPort := port } profile (Worker.entries rows)))) ↔
    ∀ d, D d → Inert d := by
  constructor
  case mp =>
    intro h d hd
    refine inert_of_carries fun port hp key hk => h _ _ _ (Sample.renderable_peer hp hk d) ?_
    intro e he
    obtain rfl : e = Worker.entry (Sample.peer key d) := by
      simpa [Worker.entries, Sample.peer] using he
    exact hd
  case mpr => exact fun h port profile rows hr hD => carries_of_inert hr fun e he => h _ (hD e he)

-- A display name that opens a section hides its peer from the parser.
theorem server_loses_peer :
    let p := Sample.peer Sample.keyA "phone\n[Removed]"
    let pc := parseRenderedConfig (server { listenPort := 51820 } Sample.profile (Worker.entries [p]))
    Renderable 51820 Sample.profile [p] ∧ pc.peers = [] ∧ ¬ Carries 51820 [p] pc := by
  intro p pc
  have hr : Renderable 51820 Sample.profile [p] := Sample.renderable_peer (by decide) (.inl rfl) _
  have hst : Storable p := Sample.storable_peer (.inl rfl) _
  have hs : parseLines (peerState 51820) (contLines "phone\n[Removed]") =
      { peerState 51820 with sect := "Removed" } := by decide
  have hp : pc.peers = [] := by
    have : pc = (flush { peerState 51820 with sect := "Removed" }).toParsedConfig := by
      have hsect : (parseLines (peerState 51820) (contLines "phone\n[Removed]")).sect ≠ "Peer" := by
        rw [hs]
        decide
      rw [← hs, ← parse_peerItems_other hst hsect]
      exact parse_server_singleton hst nofun hr.inRange hr.noBreak
    rw [this]
    rfl
  refine ⟨hr, hp, fun hc => ?_⟩
  have := hc.perm.length_eq
  rw [hp] at this
  exact absurd this (by decide)

end Fake
