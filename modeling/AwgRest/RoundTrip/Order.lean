import AwgRest.Lib.Sorting
import AwgRest.RoundTrip.Server

open Domain

-- The configuration of a server is the same for every order of its peers.
namespace Render

-- The lines above the peers.
def serverHead (iface : Interface) (profile : ProtocolProfile) : List Char :=
  unlines <|
    ["# Generated by awg-rest. Do not edit by hand.".toList,
      "[Interface]".toList] ++ writeInterface iface ++
    writeProfile profile false

-- `Server` with any function in the place of `sort.Slice`.
def serverWith (sort : List PeerEntry → List PeerEntry) (iface : Interface)
    (profile : ProtocolProfile) (peers : List PeerEntry) : List Char :=
  unlines <|
    ["# Generated by awg-rest. Do not edit by hand.".toList,
      "[Interface]".toList] ++ writeInterface iface ++
    writeProfile profile false ++ (sort peers).flatMap writePeer

theorem server_eq (iface : Interface) (profile : ProtocolProfile) (peers : List PeerEntry) :
    server iface profile peers = serverWith sorted iface profile peers :=
  rfl

def setting (name value : String) : List Char :=
  name.toList ++ " = ".toList ++ value.toList ++ "\n".toList

-- The section of a peer, as it stands in the text.
def peerBlock (p : PeerEntry) : List Char :=
  "\n[Peer]\n".toList ++
  (if p.comment = "" then [] else "# ".toList ++ p.comment.toList ++ "\n".toList) ++
  setting "PublicKey" p.publicKey ++
  (if p.presharedKey = "" then [] else setting "PresharedKey" p.presharedKey) ++
  (if p.allowedIPs = [] then [] else setting "AllowedIPs" (", ".intercalate p.allowedIPs)) ++
  (if p.endpoint = "" then [] else setting "Endpoint" p.endpoint) ++
  (if p.keepalive ≤ 0 then [] else setting "PersistentKeepalive" (toString p.keepalive))

theorem unlines_append (ls ls' : List (List Char)) :
    unlines (ls ++ ls') = unlines ls ++ unlines ls' :=
  List.flatMap_append

theorem unlines_item (name value : String) : unlines [item name value] = setting name value := by
  simp [unlines, item, setting]

theorem unlines_itemIf (P : Prop) [Decidable P] (name value : String) :
    unlines (itemIf (¬ P) name value) = if P then [] else setting name value := by
  by_cases h : P
  · simp [itemIf, h, unlines]
  · simp [itemIf, h, unlines_item]

theorem unlines_writePeer (p : PeerEntry) : unlines (writePeer p) = peerBlock p := by
  have hc : unlines (if p.comment ≠ "" then ['#' :: ' ' :: p.comment.toList] else []) =
      if p.comment = "" then [] else "# ".toList ++ p.comment.toList ++ "\n".toList := by
    by_cases h : p.comment = "" <;> simp [h, unlines]
  have hk : decide (p.keepalive > 0) = decide (¬ p.keepalive ≤ 0) := by simp
  simp only [writePeer, unlines_append, hc, hk, unlines_item, unlines_itemIf, ne_eq]
  rfl

theorem serverWith_eq (sort : List PeerEntry → List PeerEntry) (iface : Interface)
    (profile : ProtocolProfile) (peers : List PeerEntry) :
    serverWith sort iface profile peers = serverHead iface profile ++ (sort peers).flatMap peerBlock := by
  rw [serverWith, unlines_append]
  refine congrArg (serverHead iface profile ++ ·) ?_
  rw [unlines, List.flatMap_assoc]
  exact congrArg (List.flatMap · (sort peers)) (funext unlines_writePeer)

abbrev SortsByKey (sort : List PeerEntry → List PeerEntry) : Prop :=
  List.SortsBy PeerEntry.publicKey sort

theorem sortsByKey_sorted : SortsByKey sorted :=
  List.sortsBy_insertionSort

-- Each block is a section for a peer with its public key.
theorem peerBlock_section (p : PeerEntry) :
    "\n[Peer]\n".toList <+: peerBlock p ∧
    ("\nPublicKey = " ++ p.publicKey ++ "\n").toList <:+: peerBlock p := by
  unfold peerBlock
  generalize (if p.presharedKey = "" then [] else setting "PresharedKey" p.presharedKey) = psk
  generalize (if p.allowedIPs = [] then [] else setting "AllowedIPs" _) = ips
  generalize (if p.endpoint = "" then [] else setting "Endpoint" p.endpoint) = endpoint
  generalize (if p.keepalive ≤ 0 then [] else setting "PersistentKeepalive" _) = keepalive
  constructor
  · simp only [List.append_assoc]
    exact List.prefix_append ..
  · -- The line break before the key ends the line of the comment, or that of the title.
    refine ⟨"\n[Peer]".toList ++ if p.comment = "" then [] else "\n# ".toList ++ p.comment.toList,
      psk ++ ips ++ endpoint ++ keepalive, ?_⟩
    by_cases h : p.comment = "" <;> simp [setting, h]

theorem server_depends_on_set {sort : List PeerEntry → List PeerEntry} (hs : SortsByKey sort)
    (iface : Interface) (profile : ProtocolProfile) {peers peers' : List PeerEntry}
    (hp : peers.Perm peers') (hd : (peers.map PeerEntry.publicKey).Nodup) :
    serverWith sort iface profile peers = serverWith sort iface profile peers' ∧
    serverWith sort iface profile peers = server iface profile peers ∧
    ∃ blocks : List PeerEntry, blocks.Perm peers ∧ blocks.Pairwise (·.publicKey < ·.publicKey) ∧
      serverWith sort iface profile peers = serverHead iface profile ++ blocks.flatMap peerBlock ∧
      ∀ p ∈ blocks, "\n[Peer]\n".toList <+: peerBlock p ∧
        ("\nPublicKey = " ++ p.publicKey ++ "\n").toList <:+: peerBlock p := by
  refine ⟨?_, ?_, sort peers, hs.perm peers, hs.strict hd, serverWith_eq ..,
    fun p _ => peerBlock_section p⟩
  · rw [serverWith, serverWith, hs.eq_of_perm hs hp hd]
  · rw [server_eq, serverWith, serverWith, hs.eq_of_perm sortsByKey_sorted (.refl _) hd]

theorem server_depends_on_set_sample :
    serverWith sorted {} Fake.Sample.profile [{ publicKey := "b" },
      { publicKey := "a", comment := "c" }] =
      serverWith sorted {} Fake.Sample.profile [{ publicKey := "a", comment := "c" },
        { publicKey := "b" }] ∧
    serverWith sorted {} Fake.Sample.profile [{ publicKey := "b" },
      { publicKey := "a", comment := "c" }] =
      serverHead {} Fake.Sample.profile ++
        "\n[Peer]\n# c\nPublicKey = a\n\n[Peer]\nPublicKey = b\n".toList :=
  ⟨(server_depends_on_set sortsByKey_sorted {} Fake.Sample.profile (.swap _ _ []) (by decide)).1,
    by decide +kernel⟩

end Render
