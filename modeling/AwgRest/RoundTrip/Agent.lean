import AwgRest.NodeAgent.Peers

open Domain Awg Fake

-- Peers that are driven through an agent.
namespace NodeAgent

section Codec

variable {p : PeerRuntime} {i : InterfaceRuntime} {ps : List PeerRuntime}

theorem asList_allowedIPs (ips : List String) :
    Json.asList Json.asString (.arr (ips.map .str) : Document) = .ok ips :=
  (Json.asList_arr fun s _ => Json.asString_str s).trans (by rw [List.map_id'])

theorem decodeSpec_encodeSpec (p : PeerSpec) : decodeSpec (encodeSpec p) = .ok p := by
  simp [encodeSpec, decodeSpec, Json.field, List.lookup_append, List.lookup_cons,
    Json.lookup_omitEmpty_of_ne,
    Json.asString_omitEmpty, Json.asInt_omitEmpty, Json.asString_str, asList_allowedIPs]
  rfl

-- The dump of a peer, and of an interface, but for their secrets.

def blankPeer (p : PeerRuntime) : PeerRuntime :=
  { p with presharedKey := "" }

def blankInterface (i : InterfaceRuntime) : InterfaceRuntime :=
  { i with privateKey := "" }

theorem decodeRuntime_encodeRuntime (p : PeerRuntime) :
    decodeRuntime (encodeRuntime p) = .ok (blankPeer p) := by
  simp [encodeRuntime, decodeRuntime, Json.field, List.lookup_append, List.lookup_cons,
    Json.lookup_omitEmpty_of_ne, Json.asString_omitEmpty, Json.asInt_omitEmpty, Json.asString_str,
    Json.asInt_num, Json.asTime_time, asList_allowedIPs]
  rfl

theorem decodeInterface_encodeInterface (i : InterfaceRuntime) :
    decodeInterface (encodeInterface i) = .ok (blankInterface i) :=
  rfl

theorem decodeDump_encodeDump {d : Document} (h : encodeDump i ps = some d) :
    decodeDump d = .ok (blankInterface i, ps.map blankPeer) := by
  have hpeers : Json.asList decodeRuntime (if ps = [] then .null else .arr (ps.map encodeRuntime)) =
      .ok (ps.map blankPeer) := by
    split
    case isTrue hn  => simp [hn, Json.asList]
    case isFalse    => exact Json.asList_arr fun p _ => decodeRuntime_encodeRuntime p
  unfold encodeDump at h
  split at h
  case isFalse => cases h
  case isTrue  =>
    cases h
    simp [decodeDump, Json.field, List.lookup_cons, decodeInterface_encodeInterface, hpeers]
    rfl

end Codec

section Path

variable {iface key : String} {rest : List Char}

-- The names of interfaces are not escaped.
theorem escape_iface (h : validInterfaceName iface = true) :
    ∀ c ∈ iface.toList, Url.shouldEscape .pathSegment c = false := by
  intro c hc
  simp only [validInterfaceName, Bool.and_eq_true, List.all_eq_true, Bool.or_eq_true,
    decide_eq_true_eq] at h
  have hchar := h.2 c hc
  unfold Url.shouldEscape
  by_cases ha : Url.isAlnum c = true
  · exact if_pos ha
  · have hp : c ∈ "-_.~".toList := by
      simp only [Url.isAlnum, decide_eq_true_eq, not_or] at ha
      rcases hchar with ((((hc | hc) | hc) | rfl) | rfl) | rfl
      · exact absurd hc ha.1
      · exact absurd hc ha.2.1
      · exact absurd hc ha.2.2
      all_goals decide
    rw [if_neg ha, if_pos hp]

-- Of the characters of a key only the slash is escaped, and only in a segment.

theorem isChar_cases {c : Char} (h : Base64.isChar c = true) :
    Url.isAlnum c = true ∨ c = '+' ∨ c = '/' ∨ c = '=' := by
  simp only [Base64.isChar, Base64.value, Bool.or_eq_true, decide_eq_true_eq] at h
  simp only [Url.isAlnum, decide_eq_true_eq]
  by_contra hn
  simp only [not_or] at hn
  obtain ⟨⟨h₁, h₂, h₃⟩, h₄, h₅, h₆⟩ := hn
  simp [h₁, h₂, h₃, h₄, h₅, h₆] at h

theorem escape_key {c : Char} (hc : Base64.isChar c = true) :
    c.toNat < 128 ∧ Url.shouldEscape .path c = false ∧
    (Url.shouldEscape .pathSegment c = true ↔ c = '/') := by
  rcases isChar_cases hc with ha | rfl | rfl | rfl
  · refine ⟨?_, if_pos ha, ?_⟩
    · simp only [Url.isAlnum, decide_eq_true_eq, Char.le_def, UInt32.le_iff_toNat_le] at ha
      have hz : 'z'.val.toNat = 122 := rfl
      have hZ : 'Z'.val.toNat = 90 := rfl
      have h9 : '9'.val.toNat = 57 := rfl
      show c.val.toNat < 128
      omega
    · have hf : Url.shouldEscape .pathSegment c = false := if_pos ha
      rw [hf]
      refine ⟨nofun, ?_⟩
      rintro rfl
      exact absurd ha (by decide)
  all_goals decide

-- The key of a peer as the agent is given it.
def escapedKey (key : String) : String :=
  String.ofList (Url.pathEscape key.toList)

theorem escapedKey_eq_iff (h : Crypto.validateKey key = .ok ()) :
    escapedKey key = key ↔ '/' ∉ key.toList := by
  obtain ⟨-, hc⟩ := Crypto.isChar_of_validateKey h
  have hp : '%' ∉ key.toList := fun hm => absurd (hc _ hm) (by decide)
  rw [escapedKey, ← String.toList_inj, String.toList_ofList, Url.pathEscape_eq_self_iff hp]
  refine ⟨fun hs hm => ?_, fun hn c hm => ?_⟩
  · exact absurd (hs _ hm) (by decide)
  · exact Bool.eq_false_iff.mpr fun ht => hn ((escape_key (hc c hm)).2.2.mp ht ▸ hm)

-- A path whose parts need no escape is sent, kept and matched as it is written.
theorem matched {p path : List Char} (hu : Url.unescape p = some path)
    (hv : Url.validEncoded p = true) (hp : ∀ c ∈ path, Url.shouldEscape .path c = false) :
    ∃ u, Url.setPath p = some u ∧ u.escapedPath = p ∧ routePath u = p := by
  obtain ⟨u, hset, hpath, hesc, ⟨he, hraw⟩ | ⟨he, hraw⟩⟩ := Url.setPath_eq hu hv
  · refine ⟨u, hset, hesc, ?_⟩
    rw [Url.escape_eq_self hp] at he
    rw [routePath, hraw, if_neg (by simp), hpath, he]
  · refine ⟨u, hset, hesc, ?_⟩
    have hne : p ≠ [] := by
      rintro rfl
      cases hu
      exact he rfl
    rw [routePath, hraw, if_pos hne]

theorem ifacePath_eq (h : validInterfaceName iface = true) :
    RemoteExecutor.ifacePath iface rest = "/v1/iface/".toList ++ iface.toList ++ rest :=
  congrArg (fun s => "/v1/iface/".toList ++ s ++ rest) (Url.escape_eq_self (escape_iface h))

theorem matched_iface (h : validInterfaceName iface = true) {path : List Char}
    (hu : Url.unescape rest = some path) (hv : Url.validEncoded rest = true)
    (hp : ∀ c ∈ path, Url.shouldEscape .path c = false) :
    ∃ u, Url.setPath (RemoteExecutor.ifacePath iface rest) = some u ∧
      u.escapedPath = RemoteExecutor.ifacePath iface rest ∧
      routePath u = RemoteExecutor.ifacePath iface rest := by
  have hstart : ∀ c ∈ "/v1/iface/".toList, Url.shouldEscape .path c = false :=
    Text.forall_of_all (by decide)
  have hplain : ∀ c ∈ "/v1/iface/".toList ++ iface.toList, Url.shouldEscape .path c = false := by
    intro c hc
    rcases List.mem_append.mp hc with hc | hc
    · exact hstart c hc
    · exact Url.shouldEscape_path (escape_iface h c hc)
  rw [ifacePath_eq h]
  refine matched ((Url.unescape_append (Url.not_mem_escape_percent hplain)).trans (by rw [hu]; rfl)) ?_ ?_
  · rw [Url.validEncoded_append, hv, Bool.and_true]
    exact List.all_eq_true.mpr fun c hc => by simp [hplain c hc]
  · intro c hc
    exact (List.mem_append.mp hc).elim (hplain c) (hp c)

theorem split_ifacePath (h : validInterfaceName iface = true) :
    ((RemoteExecutor.ifacePath iface ('/' :: rest)).splitOn '/').map String.ofList =
      ["", "v1", "iface", iface] ++ (rest.splitOn '/').map String.ofList := by
  have hi : '/' ∉ iface.toList := fun hm => absurd (escape_iface h _ hm) (by decide)
  rw [ifacePath_eq h, show "/v1/iface/".toList = "/v1/iface".toList ++ ['/'] from rfl,
    List.append_assoc, List.append_assoc, List.singleton_append, List.splitOn_append_cons_self,
    List.splitOn_append_cons_self, List.splitOn_eq_singleton hi, List.map_append, List.map_append,
    List.map_singleton, String.ofList_toList]
  rfl

end Path

section Remote

open RemoteExecutor

variable {σ : Type} {r : RemoteExecutor} {e : Executor σ} {st : σ} {iface key : String}
  {method : Method}
  {p : List Char} {body : Document} {u : Url.URL}

-- A request whose path is kept is routed by the segments of that path.
theorem send_eq (hset : Url.setPath p = some u) (hesc : u.escapedPath = p)
    (hroute : routePath u = p) :
    r.send e method p body =
      send.check r method u <$> route e body method ((p.splitOn '/').map String.ofList) := by
  unfold send serve
  simp only [hset, hesc, hroute]

theorem withIface_eq (h : validInterfaceName iface = true) (handler : StateM σ Reply) :
    withIface iface handler = handler :=
  if_pos h

theorem send_setPeer (h : validInterfaceName iface = true) (spec : PeerSpec) :
    ∃ u, r.send e .post (ifacePath iface "/peers".toList) (encodeSpec spec) =
      send.check r .post u <$> Reply.of "set_peer_failed" (fun _ => .noContent) <$>
        e.setPeer iface spec := by
  obtain ⟨u, hset, hesc, hroute⟩ := @matched_iface iface "/peers".toList h "/peers".toList
    (by decide) (by decide) (Text.forall_of_all (by decide))
  have hsegs : ((ifacePath iface "/peers".toList).splitOn '/').map String.ofList =
      ["", "v1", "iface", iface, "peers"] := @split_ifacePath iface "peers".toList h
  refine ⟨u, ?_⟩
  rw [send_eq hset hesc hroute, hsegs, route, setPeerHandler, withIface_eq h, decodeSpec_encodeSpec]

theorem send_removePeer (h : validInterfaceName iface = true) (hk : Crypto.validateKey key = .ok ()) :
    ∃ u, r.send e .delete (ifacePath iface ("/peers/".toList ++ Url.pathEscape key.toList)) =
      send.check r .delete u <$> Reply.of "remove_peer_failed" (fun _ => .noContent) <$>
        e.removePeer iface (escapedKey key) := by
  obtain ⟨-, hchar⟩ := Crypto.isChar_of_validateKey hk
  have hplain : ∀ c ∈ "/peers/".toList, Url.shouldEscape .path c = false :=
    Text.forall_of_all (by decide)
  have hunescape : Url.unescape ("/peers/".toList ++ Url.pathEscape key.toList) =
      some ("/peers/".toList ++ key.toList) := by
    have hkey := @Url.unescape_escape .pathSegment key.toList [] fun c hc =>
      (escape_key (hchar c hc)).1
    rw [List.append_nil] at hkey
    rw [Url.unescape_append (Url.not_mem_escape_percent hplain), Url.pathEscape, hkey]
    simp [Url.unescape]
  have hvalid : Url.validEncoded ("/peers/".toList ++ Url.pathEscape key.toList) = true := by
    rw [Url.validEncoded_append, Url.validEncoded_pathEscape]
    decide
  have hpath : ∀ c ∈ "/peers/".toList ++ key.toList, Url.shouldEscape .path c = false := by
    intro c hc
    exact (List.mem_append.mp hc).elim (hplain c) fun hc => (escape_key (hchar c hc)).2.1
  obtain ⟨u, hset, hesc, hroute⟩ := matched_iface h hunescape hvalid hpath
  have hsegs :
      ((ifacePath iface ("/peers/".toList ++ Url.pathEscape key.toList)).splitOn '/').map
        String.ofList =
      ["", "v1", "iface", iface, "peers", escapedKey key] := by
    refine (@split_ifacePath iface ("peers".toList ++ '/' :: Url.pathEscape key.toList) h).trans ?_
    rw [List.splitOn_append_cons_self, List.splitOn_eq_singleton Url.slash_not_mem_pathEscape]
    rfl
  refine ⟨u, ?_⟩
  rw [send_eq hset hesc hroute, hsegs, route, removePeerHandler, withIface_eq h]

theorem send_showDump (h : validInterfaceName iface = true) :
    ∃ u, r.send e .get (ifacePath iface "/dump".toList) =
      send.check r .get u <$> Reply.of "show_dump_failed" (fun (i, peers) => .json (encodeDump i peers)) <$>
        e.showDump iface := by
  obtain ⟨u, hset, hesc, hroute⟩ := @matched_iface iface "/dump".toList h "/dump".toList
    (by decide) (by decide) (Text.forall_of_all (by decide))
  have hsegs : ((ifacePath iface "/dump".toList).splitOn '/').map String.ofList =
      ["", "v1", "iface", iface, "dump"] := @split_ifacePath iface "dump".toList h
  refine ⟨u, ?_⟩
  rw [send_eq hset hesc hroute, hsegs, route, dumpHandler, withIface_eq h]

end Remote

-- The accepted calls.
def Valid : PeerCall → Prop
  | .setPeer iface p      => validInterfaceName iface = true ∧ Crypto.validateKey p.publicKey = .ok ()
  | .removePeer iface key => validInterfaceName iface = true ∧ Crypto.validateKey key = .ok ()

-- What the executor of the agent is called with.
def escaped : PeerCall → PeerCall
  | .setPeer iface p      => .setPeer iface p
  | .removePeer iface key => .removePeer iface (escapedKey key)

section Calls

variable {σ : Type} {r : RemoteExecutor} {e : Executor σ} {st : σ} {c : PeerCall}
  {calls : List PeerCall}

theorem step_remote (h : Valid c) : (r.executor e).step st c = e.step st (escaped c) := by
  cases c
  case setPeer iface p =>
    obtain ⟨u, hu⟩ := @send_setPeer _ r e _ h.1 p
    show ((r.setPeer e iface p) st).2 = _
    rw [RemoteExecutor.setPeer, hu]
    rfl
  case removePeer iface key =>
    obtain ⟨u, hu⟩ := @send_removePeer _ r e _ _ h.1 h.2
    show ((r.removePeer e iface key) st).2 = _
    rw [RemoteExecutor.removePeer, hu]
    rfl

theorem run_remote (h : ∀ c ∈ calls, Valid c) :
    (r.executor e).run calls st = e.run (calls.map escaped) st := by
  induction calls generalizing st
  case nil => rfl
  case cons c calls ih =>
    have hc : (r.executor e).step st c = e.step st (escaped c) := step_remote (h c (by simp))
    show (r.executor e).run calls ((r.executor e).step st c) =
      e.run (calls.map escaped) (e.step st (escaped c))
    rw [hc]
    exact ih fun c hc => h c (List.mem_cons_of_mem _ hc)

end Calls

section Peers

variable {f : FakeExecutor} {ifc : Iface} {iface a b key : String} {c : PeerCall}
  {calls : List PeerCall}

-- Where a removal has the same effect for two keys.
theorem filter_key_eq_iff {ps : List PeerRuntime} (hab : a ≠ b) :
    ps.filter (keyOf · ≠ a) = ps.filter (keyOf · ≠ b) ↔ ∀ p ∈ ps, keyOf p ≠ a ∧ keyOf p ≠ b := by
  constructor
  · intro h p hp
    have hmem : p ∈ ps.filter (keyOf · ≠ a) ↔ p ∈ ps.filter (keyOf · ≠ b) := by rw [h]
    simp only [List.mem_filter, hp, true_and, decide_eq_true_eq] at hmem
    refine ⟨fun ha => ?_, fun hb => ?_⟩
    · exact hmem.mpr (ha ▸ hab) ha
    · exact hmem.mp (hb ▸ hab.symm) hb
  · intro h
    rw [List.filter_eq_self.mpr fun p hp => decide_eq_true (h p hp).1,
      List.filter_eq_self.mpr fun p hp => decide_eq_true (h p hp).2]

theorem removePeer_eq_iff (hab : a ≠ b) :
    (FakeExecutor.removePeer iface a f).2 = (FakeExecutor.removePeer iface b f).2 ↔
      f.failRemovePeer ≠ none ∨ ∀ ifc ∈ f.interfaces iface, ∀ p ∈ ifc.peers, keyOf p ≠ a ∧
        keyOf p ≠ b := by
  unfold FakeExecutor.removePeer
  cases hf : f.failRemovePeer
  case some => simp
  case none =>
    cases hi : f.interfaces iface
    case none     => simp
    case some ifc =>
      simp only [ne_eq, not_true_eq_false, false_or, Option.mem_def, Option.some.injEq, forall_eq']
      refine Iff.trans ⟨fun h => ?_, fun h => ?_⟩ (filter_key_eq_iff hab)
      · have hat := congrFun (congrArg FakeExecutor.interfaces h) iface
        simp only [Function.update_self, Option.some.injEq] at hat
        exact congrArg Iface.peers hat
      · have hifc : ifc.removePeer a = ifc.removePeer b := Iface.ext rfl rfl rfl rfl h
        rw [hifc]

-- The state before a call that the agent does as asked.
def Unharmed (f : FakeExecutor) : PeerCall → Prop
  | .setPeer _ _          => True
  | .removePeer iface key =>
    '/' ∉ key.toList ∨ f.failRemovePeer ≠ none ∨
      ∀ ifc ∈ f.interfaces iface, ∀ p ∈ ifc.peers, keyOf p ≠ key ∧ keyOf p ≠ escapedKey key

theorem step_escaped_iff (h : Valid c) :
    executor.step f (escaped c) = executor.step f c ↔ Unharmed f c := by
  cases c
  case setPeer => exact ⟨fun _ => trivial, fun _ => rfl⟩
  case removePeer iface key =>
    by_cases hs : '/' ∈ key.toList
    case pos =>
      have hne : key ≠ escapedKey key := fun he => (escapedKey_eq_iff h.2).mp he.symm hs
      exact eq_comm.trans ((removePeer_eq_iff hne).trans (or_iff_right (not_not.mpr hs)).symm)
    case neg =>
      refine ⟨fun _ => .inl hs, fun _ => ?_⟩
      rw [escaped, (escapedKey_eq_iff h.2).mpr hs]

theorem run_take_succ {σ : Type} (e : Executor σ) (st : σ) {n : Nat} (hc : calls[n]? = some c) :
    e.run (calls.take (n + 1)) st = e.step (e.run (calls.take n) st) c := by
  rw [List.take_add_one, hc, Executor.run, List.foldl_append]
  rfl

theorem run_take_of_none {σ : Type} (e : Executor σ) (st : σ) {n : Nat} (hc : calls[n]? = none) :
    e.run (calls.take (n + 1)) st = e.run (calls.take n) st := by
  rw [List.take_add_one, hc, Option.toList_none, List.append_nil]

-- The states agree all along a run exactly if they do after each call.
theorem runs_agree_iff {r : RemoteExecutor} (h : ∀ c ∈ calls, Valid c) :
    (∀ n, (r.executor executor).run (calls.take n) f = executor.run (calls.take n) f) ↔
      ∀ n c, calls[n]? = some c → Unharmed (executor.run (calls.take n) f) c := by
  constructor
  · intro ha n c hc
    have hv := h c (List.mem_of_getElem? hc)
    have hstep := ha (n + 1)
    rw [run_take_succ _ _ hc, run_take_succ _ _ hc, ha n, step_remote hv] at hstep
    exact (step_escaped_iff hv).mp hstep
  · intro hu n
    induction n
    case zero => rfl
    case succ n ih =>
      cases hc : calls[n]?
      case none => rw [run_take_of_none _ _ hc, run_take_of_none _ _ hc, ih]
      case some c =>
        have hv := h c (List.mem_of_getElem? hc)
        rw [run_take_succ _ _ hc, run_take_succ _ _ hc, ih, step_remote hv]
        exact (step_escaped_iff hv).mpr (hu n c hc)

def Present (key iface : String) (f : FakeExecutor) : Prop :=
  ∃ ifc ∈ f.interfaces iface, ∃ p ∈ ifc.peers, keyOf p = key

-- The only keys that come and go are those of the calls.

theorem keyOf_peer (ifc : Iface) (p : PeerSpec) : keyOf (ifc.peer p) = p.publicKey := by
  show ((ifc.peers.find? (keyOf · = p.publicKey)).getD { publicKey := p.publicKey }).publicKey =
    p.publicKey
  cases hf : ifc.peers.find? (keyOf · = p.publicKey)
  case none   => rfl
  case some q =>
    have hq := List.find?_some hf
    exact of_decide_eq_true hq

theorem present_iff (hi : f.interfaces iface = some ifc) :
    Present key iface f ↔ ∃ p ∈ ifc.peers, keyOf p = key := by
  simp [Present, hi]

theorem present_update {g : FakeExecutor} {at' : String} {ifc' : Iface}
    (hg : g.interfaces = Function.update f.interfaces at' (some ifc')) :
    Present key iface g ↔ if iface = at' then ∃ p ∈ ifc'.peers, keyOf p = key else Present key iface f := by
  by_cases ha : iface = at'
  case pos => simp [Present, hg, ha]
  case neg => simp [Present, hg, ha]

theorem present_setPeer {at' : String} {p : PeerSpec} (hk : p.publicKey ≠ key) :
    Present key iface (FakeExecutor.setPeer at' p f).2 ↔ Present key iface f := by
  unfold FakeExecutor.setPeer
  cases f.failSetPeer
  case some => rfl
  case none =>
    cases hi : f.interfaces at'
    case none     => rfl
    case some ifc =>
      refine (present_update rfl).trans ?_
      split
      case isFalse => rfl
      case isTrue ha =>
        rw [ha, present_iff hi]
        constructor
        · rintro ⟨q, hq, rfl⟩
          rcases Store.mem_upsert hq with hq | rfl
          · exact ⟨q, hq, rfl⟩
          · exact absurd (keyOf_peer ifc p).symm hk
        · rintro ⟨q, hq, rfl⟩
          exact ⟨q, Store.mem_upsert_of_ne hq (keyOf_peer ifc p ▸ hk.symm), rfl⟩

theorem present_removePeer {at' : String} (hf : f.failRemovePeer = none) :
    Present key iface (FakeExecutor.removePeer at' a f).2 ↔ Present key iface f ∧
      ¬ (iface = at' ∧ key = a) := by
  unfold FakeExecutor.removePeer
  rw [hf]
  cases hi : f.interfaces at'
  case none =>
    refine (and_iff_left_of_imp ?_).symm
    rintro ⟨ifc, hm, -⟩ ⟨rfl, -⟩
    rw [hi] at hm
    cases hm
  case some ifc =>
    refine (present_update rfl).trans ?_
    split
    case isFalse ha => simp [ha]
    case isTrue ha =>
      rw [ha, present_iff hi]
      constructor
      · rintro ⟨q, hq, rfl⟩
        obtain ⟨hq, hne⟩ := List.mem_filter.mp hq
        exact ⟨⟨q, hq, rfl⟩, fun h => of_decide_eq_true hne h.2⟩
      · rintro ⟨⟨q, hq, rfl⟩, hne⟩
        exact ⟨q, List.mem_filter.mpr ⟨hq, decide_eq_true fun h => hne ⟨rfl, h⟩⟩, rfl⟩

theorem failRemovePeer_step (hf : f.failRemovePeer = none) :
    (executor.step f c).failRemovePeer = none := by
  cases c
  case setPeer iface p =>
    show (FakeExecutor.setPeer iface p f).2.failRemovePeer = none
    unfold FakeExecutor.setPeer
    split <;> try split
    all_goals exact hf
  case removePeer iface key =>
    show (FakeExecutor.removePeer iface key f).2.failRemovePeer = none
    unfold FakeExecutor.removePeer
    split
    case h_1 => rfl
    case h_2 =>
      split
      all_goals exact hf

theorem failRemovePeer_run (hf : f.failRemovePeer = none) :
    (executor.run calls f).failRemovePeer = none := by
  induction calls generalizing f
  case nil => exact hf
  case cons c calls ih => exact ih (failRemovePeer_step hf)

-- A key that no call sets stays away once it is removed, and stays where it is if no call removes it.

def Sets (key : String) (c : PeerCall) : Prop :=
  ∃ iface p, c = .setPeer iface p ∧ p.publicKey = key

def Removes (key : String) (c : PeerCall) : Prop :=
  ∃ iface, c = .removePeer iface key

theorem of_present_step (hf : f.failRemovePeer = none) (hs : ¬ Sets key c)
    (h : Present key iface (executor.step f c)) : Present key iface f := by
  cases c
  case setPeer at' p  => exact (present_setPeer fun hk => hs ⟨at', p, rfl, hk⟩).mp h
  case removePeer     => exact ((present_removePeer hf).mp h).1

theorem of_present_run (hf : f.failRemovePeer = none) (hs : ∀ c ∈ calls, ¬ Sets key c)
    (h : Present key iface (executor.run calls f)) : Present key iface f := by
  induction calls generalizing f
  case nil => exact h
  case cons c calls ih =>
    have hrest := ih (failRemovePeer_step hf) (fun c hc => hs c (List.mem_cons_of_mem _ hc)) h
    exact of_present_step hf (hs c (by simp)) hrest

theorem present_run (hf : f.failRemovePeer = none) (hs : ∀ c ∈ calls, ¬ Sets key c ∧ ¬ Removes key c)
    (h : Present key iface f) : Present key iface (executor.run calls f) := by
  induction calls generalizing f
  case nil => exact h
  case cons c calls ih =>
    refine ih (failRemovePeer_step hf) (fun c hc => hs c (List.mem_cons_of_mem _ hc)) ?_
    obtain ⟨hset, hrem⟩ := hs c (by simp)
    cases c
    case setPeer at' p    => exact (present_setPeer fun hk => hset ⟨at', p, rfl, hk⟩).mpr h
    case removePeer at' k =>
      exact (present_removePeer hf).mpr ⟨h, fun ⟨_, hk⟩ => hrem ⟨at', by rw [hk]⟩⟩

theorem percent_mem_escapedKey (hs : '/' ∈ key.toList) : '%' ∈ (escapedKey key).toList := by
  rw [escapedKey, String.toList_ofList]
  exact List.mem_flatMap.mpr ⟨'/', hs, by decide⟩

theorem ne_escapedKey (ha : Crypto.validateKey a = .ok ()) (hs : '/' ∈ key.toList) :
    a ≠ escapedKey key := by
  rintro rfl
  obtain ⟨-, hc⟩ := Crypto.isChar_of_validateKey ha
  exact absurd (hc _ (percent_mem_escapedKey hs)) (by decide)

-- A state in which the key is there in the form that the agent is given.

def escapedPeer (key : String) : Iface where
  priv       := ""
  pub        := ""
  listenPort := 0
  rendered   := []
  peers      := [{ publicKey := escapedKey key }]
  distinct   := by simp

def escapedOnly (iface key : String) : FakeExecutor where
  interfaces := Function.update (fun _ => none) iface (some (escapedPeer key))
  bootstraps := fun _ => none

theorem runs_differ {r : RemoteExecutor} (h : ∀ c ∈ calls, Valid c)
    (hc : .removePeer iface key ∈ calls) (hs : '/' ∈ key.toList) :
    (r.executor executor).run calls (escapedOnly iface key) ≠
      executor.run calls (escapedOnly iface key) := by
  have hvalid {c : PeerCall} (hv : Valid c) : ¬ Sets (escapedKey key) c ∧
      ¬ Removes (escapedKey key) c := by
    refine ⟨?_, ?_⟩
    · rintro ⟨at', p, rfl, hk⟩
      exact ne_escapedKey hv.2 hs hk
    · rintro ⟨at', rfl⟩
      exact ne_escapedKey hv.2 hs rfl
  have hset {c : PeerCall} (hv : Valid c) : ¬ Sets (escapedKey key) (escaped c) := by
    cases c
    case setPeer    => exact (hvalid hv).1
    case removePeer => rintro ⟨_, _, ⟨⟩, _⟩
  have hstart : Present (escapedKey key) iface (escapedOnly iface key) := by
    refine ⟨escapedPeer key, ?_, { publicKey := escapedKey key }, List.mem_cons_self, rfl⟩
    exact Function.update_self iface (some (escapedPeer key)) fun _ => none
  have hdirect : Present (escapedKey key) iface (executor.run calls (escapedOnly iface key)) :=
    present_run rfl (fun c hc => hvalid (h c hc)) hstart
  intro heq
  rw [← heq, run_remote h] at hdirect
  -- The agent has removed the key in its place, and nothing has brought it back.
  obtain ⟨before, after, rfl⟩ := List.append_of_mem hc
  rw [List.map_append, List.map_cons, Executor.run, List.foldl_append, List.foldl_cons] at hdirect
  have hfail := @failRemovePeer_run (escapedOnly iface key) (before.map escaped) rfl
  have hremoved := of_present_run (failRemovePeer_step hfail) (fun c hc => ?_) hdirect
  · exact ((present_removePeer hfail).mp hremoved).2 ⟨rfl, rfl⟩
  · obtain ⟨c, hm, rfl⟩ := List.mem_map.mp hc
    exact hset (h c (by simp [hm]))

end Peers

section Dump

variable {r : RemoteExecutor} {f : FakeExecutor} {iface : String}

-- The dump through the agent: the same state is left, and the same answer is given but for the
-- secrets.
def DumpAgrees (r : RemoteExecutor) (f : FakeExecutor) (iface : String) : Prop :=
  ((r.executor executor).showDump iface f).2 = (executor.showDump iface f).2 ∧
  match (executor.showDump iface f).1 with
  | .ok (i, peers) =>
    ((r.executor executor).showDump iface f).1 = .ok (blankInterface i, peers.map blankPeer)
  | .error _       => ∃ err, ((r.executor executor).showDump iface f).1 = .error err

theorem encodeDump_eq_none_iff {i : InterfaceRuntime} {ps : List PeerRuntime} :
    encodeDump i ps = none ↔ ∃ p ∈ ps, marshals p.lastHandshake = false := by
  unfold encodeDump
  split
  case isTrue h  => simpa using h
  case isFalse h => simpa using h

-- What the client makes of the answer to a dump.
theorem showDump_remote (h : validInterfaceName iface = true) :
    ∃ u, (r.executor executor).showDump iface f =
      ((RemoteExecutor.send.check r .get u
        (Reply.of "show_dump_failed" (fun (i, peers) => .json (encodeDump i peers))
          (executor.showDump iface f).1)).bind RemoteExecutor.readDump,
            (executor.showDump iface f).2) := by
  obtain ⟨u, hu⟩ := @send_showDump _ r executor _ h
  refine ⟨u, ?_⟩
  show (r.showDump executor iface) f = _
  rw [RemoteExecutor.showDump, hu]
  rfl

theorem dumpAgrees_of_error {err : Err} (h : validInterfaceName iface = true)
    (hd : (executor.showDump iface f).1 = .error err) : DumpAgrees r f iface := by
  obtain ⟨u, hu⟩ := @showDump_remote r f _ h
  unfold DumpAgrees
  rw [hu, hd]
  exact ⟨rfl, _, rfl⟩

theorem dumpAgrees_of_ok {i : InterfaceRuntime} {ps : List PeerRuntime}
    (h : validInterfaceName iface = true) (hd : (executor.showDump iface f).1 = .ok (i, ps)) :
    DumpAgrees r f iface ↔ ∀ p ∈ ps, marshals p.lastHandshake = true := by
  obtain ⟨u, hu⟩ := @showDump_remote r f _ h
  unfold DumpAgrees
  rw [hu, hd]
  cases he : encodeDump i ps
  case none =>
    obtain ⟨p, hp, hm⟩ := encodeDump_eq_none_iff.mp he
    simp only [Reply.of, he]
    refine ⟨fun ha => absurd ha.2 nofun, fun ha => ?_⟩
    rw [ha p hp] at hm
    cases hm
  case some d =>
    have hall : ∀ p ∈ ps, marshals p.lastHandshake = true := by
      intro p hp
      by_contra hn
      rw [encodeDump_eq_none_iff.mpr ⟨p, hp, Bool.eq_false_iff.mpr hn⟩] at he
      cases he
    refine ⟨fun _ => hall, fun _ => ⟨rfl, ?_⟩⟩
    simp only [Reply.of, he]
    show (decodeDump d).mapError Err.new = _
    rw [decodeDump_encodeDump he]
    rfl

theorem dumpAgrees_iff (h : validInterfaceName iface = true) :
    DumpAgrees r f iface ↔
      f.failShowDump ≠ none ∨
        ∀ ifc ∈ f.interfaces iface, ∀ p ∈ ifc.peers, marshals p.lastHandshake = true := by
  cases hf : f.failShowDump
  case some err =>
    have hd : (executor.showDump iface f).1 = .error err := by
      simp [executor, FakeExecutor.showDump, hf]
    exact ⟨fun _ => .inl nofun, fun _ => dumpAgrees_of_error h hd⟩
  case none =>
    cases hi : f.interfaces iface
    case none =>
      have hd : (executor.showDump iface f).1 = .error (FakeExecutor.notFound iface) := by
        simp [executor, FakeExecutor.showDump, hf, hi]
      exact ⟨fun _ => .inr nofun, fun _ => dumpAgrees_of_error h hd⟩
    case some ifc =>
      have hd : (executor.showDump iface f).1 =
          .ok ({ privateKey := ifc.priv, publicKey := ifc.pub, listenPort := ifc.listenPort },
            ifc.peers.insertionSort (keyOf · ≤ keyOf ·)) := by
        simp [executor, FakeExecutor.showDump, hf, hi]
      rw [dumpAgrees_of_ok h hd]
      simp [List.mem_insertionSort]

end Dump

theorem agent_agrees_iff (r : RemoteExecutor) :
    (∀ (f : FakeExecutor) (calls : List PeerCall), (∀ c ∈ calls, Valid c) →
      ((∀ n, (r.executor executor).run (calls.take n) f = executor.run (calls.take n) f) ↔
        ∀ n c, calls[n]? = some c → Unharmed (executor.run (calls.take n) f) c)) ∧
    (∀ calls, (∀ c ∈ calls, Valid c) →
      ((∀ f, (r.executor executor).run calls f = executor.run calls f) ↔
        ∀ iface key, .removePeer iface key ∈ calls → '/' ∉ key.toList)) ∧
    ∀ f iface, validInterfaceName iface = true →
      (DumpAgrees r f iface ↔
        f.failShowDump ≠ none ∨
          ∀ ifc ∈ f.interfaces iface, ∀ p ∈ ifc.peers, marshals p.lastHandshake = true) := by
  refine ⟨fun f calls h => runs_agree_iff h, fun calls h => ⟨fun ha iface key hc hs => ?_, fun hn f => ?_⟩,
    fun f iface h => dumpAgrees_iff h⟩
  · exact runs_differ h hc hs (ha (escapedOnly iface key))
  · have hu : ∀ n c, calls[n]? = some c → Unharmed (executor.run (calls.take n) f) c := by
      intro n c hc
      cases c
      case setPeer              => trivial
      case removePeer iface key => exact .inl (hn iface key (List.mem_of_getElem? hc))
    have hall := (@runs_agree_iff f calls r h).mpr hu calls.length
    rw [List.take_length] at hall
    exact hall

namespace Sample

def plainKey : String :=
  "AAAAAAAAAAAAAAAAAAAAAAAAAAAAAAAAAAAAAAAAAAA="

def slashKey : String :=
  "/AAAAAAAAAAAAAAAAAAAAAAAAAAAAAAAAAAAAAAAAAA="

def remote : RemoteExecutor where
  basePath := ""

def ifc : Iface where
  priv       := "priv"
  pub        := "pub"
  listenPort := 51820
  rendered   := []
  peers      := [{ publicKey := plainKey, presharedKey := "psk" }, { publicKey := slashKey }]
  distinct   := by decide

def host : FakeExecutor where
  interfaces := fun iface => if iface = "awg0" then some ifc else none
  bootstraps := fun _ => none

def calls : List PeerCall :=
  [.setPeer "awg0" { publicKey := slashKey, endpoint := "198.51.100.7:40000" },
    .removePeer "awg0" plainKey]

theorem calls_valid : ∀ c ∈ calls, Valid c := by
  intro c hc
  simp only [calls, List.mem_cons, List.not_mem_nil, or_false] at hc
  rcases hc with rfl | rfl
  · exact ⟨by decide, by decide +kernel⟩
  · exact ⟨by decide, by decide +kernel⟩

end Sample

theorem agent_agrees_sample :
    (Sample.remote.executor executor).run Sample.calls Sample.host =
      executor.run Sample.calls Sample.host ∧
    DumpAgrees Sample.remote Sample.host "awg0" := by
  obtain ⟨-, hruns, hdump⟩ := agent_agrees_iff Sample.remote
  refine ⟨(hruns Sample.calls Sample.calls_valid).mpr ?_ Sample.host,
    (hdump Sample.host "awg0" ?_).mpr (.inr ?_)⟩
  · intro iface key hc
    simp only [Sample.calls, List.mem_cons, PeerCall.removePeer.injEq, reduceCtorEq,
      List.not_mem_nil, or_false,
      false_or] at hc
    rw [hc.2]
    decide
  · decide
  · rintro _ ⟨⟩ p hp
    revert p
    decide

-- A peer whose key has a slash is still there after it was removed.
theorem remove_misses_slash :
    Crypto.validateKey Sample.slashKey = .ok () ∧
    (((Sample.remote.executor executor).run [.removePeer "awg0" Sample.slashKey] Sample.host).interfaces
      "awg0").map (·.peers.map keyOf) = some [Sample.plainKey, Sample.slashKey] ∧
    ((executor.run [.removePeer "awg0" Sample.slashKey] Sample.host).interfaces "awg0").map
      (·.peers.map keyOf) = some [Sample.plainKey] := by
  decide +kernel

end NodeAgent
