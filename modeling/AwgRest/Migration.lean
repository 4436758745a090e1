import AwgRest.Store.Profiles
import Mathlib.Data.Finset.Card

open Domain Store

-- The embedded migrations, which every start of the process runs in one transaction.
namespace Migration

inductive RangeName
  | contentPaddingAddition
  | rekeyAfterTime
  | rekeyTimeout
  | rejectAfterTime
  | keepaliveTimeout
  | maxHandshakeAttempts
  | persistentKeepalive
deriving DecidableEq

namespace RangeName

def all : List RangeName :=
  [contentPaddingAddition, rekeyAfterTime, rekeyTimeout, rejectAfterTime, keepaliveTimeout,
    maxHandshakeAttempts, persistentKeepalive]

def text : RangeName → String
  | contentPaddingAddition => "content_padding_addition"
  | rekeyAfterTime         => "rekey_after_time"
  | rekeyTimeout           => "rekey_timeout"
  | rejectAfterTime        => "reject_after_time"
  | keepaliveTimeout       => "keepalive_timeout"
  | maxHandshakeAttempts   => "max_handshake_attempts"
  | persistentKeepalive    => "persistent_keepalive"

def columns (r : RangeName) (c : ProfileColumns) : RangeColumns :=
  match r with
  | contentPaddingAddition => c.contentPaddingAddition
  | rekeyAfterTime         => c.rekeyAfterTime
  | rekeyTimeout           => c.rekeyTimeout
  | rejectAfterTime        => c.rejectAfterTime
  | keepaliveTimeout       => c.keepaliveTimeout
  | maxHandshakeAttempts   => c.maxHandshakeAttempts
  | persistentKeepalive    => c.persistentKeepalive

theorem columns_mem_ranges (r : RangeName) (c : ProfileColumns) : r.columns c ∈ c.ranges := by
  cases r <;> simp [columns, ProfileColumns.ranges]

end RangeName

-- The constraints that the third migration adds to `protocol_profiles`.
inductive Constraint
  | u16Min (r : RangeName)
  | u16Max (r : RangeName)
  | order (r : RangeName)
  | version
  | pairCompleteness
  | legacyNull
  | required
deriving DecidableEq

namespace Constraint

def name : Constraint → String
  | u16Min r                      => "protocol_profiles_" ++ r.text ++ "_min_u16_check"
  | u16Max r                      => "protocol_profiles_" ++ r.text ++ "_max_u16_check"
  | order .contentPaddingAddition => "protocol_profiles_content_padding_order_check"
  | order r                       => "protocol_profiles_" ++ r.text ++ "_order_check"
  | version                       => "protocol_profiles_version_check"
  | pairCompleteness              => "protocol_profiles_awg31_pair_completeness_check"
  | legacyNull                    => "protocol_profiles_awg31_legacy_null_check"
  | required                      => "protocol_profiles_awg31_required_check"

def Holds : Constraint → ProfileColumns → Prop
  | u16Min r,         c => ProfileColumns.U16Check (r.columns c).lo
  | u16Max r,         c => ProfileColumns.U16Check (r.columns c).hi
  | order r,          c => ProfileColumns.OrderCheck (r.columns c)
  | version,          c => c.VersionCheck
  | pairCompleteness, c => c.PairCompletenessCheck
  | legacyNull,       c => c.LegacyNullCheck
  | required,         c => c.RequiredCheck

instance (v : Option (BitVec 32)) : Decidable (ProfileColumns.U16Check v) :=
  inferInstanceAs (Decidable (∀ x ∈ v, _))

instance (c : RangeColumns) : Decidable (ProfileColumns.OrderCheck c) :=
  inferInstanceAs (Decidable (∀ lo ∈ c.lo, ∀ hi ∈ c.hi, _))

instance (k : Constraint) (c : ProfileColumns) : Decidable (k.Holds c) :=
  match k with
  | u16Min r         => inferInstanceAs (Decidable (ProfileColumns.U16Check (r.columns c).lo))
  | u16Max r         => inferInstanceAs (Decidable (ProfileColumns.U16Check (r.columns c).hi))
  | order r          => inferInstanceAs (Decidable (ProfileColumns.OrderCheck (r.columns c)))
  | version          => inferInstanceAs (Decidable (_ ∈ _))
  | pairCompleteness => inferInstanceAs (Decidable (∀ r ∈ c.ranges, _))
  | legacyNull       => inferInstanceAs (Decidable (_ ∨ _ ∧ (∀ r ∈ c.ranges, _) ∧ _))
  | required         => inferInstanceAs (Decidable (_ ∨ (∃ key ∈ c.headerProtectionKey, _) ∧ _))

theorem holds_of_checked {c : ProfileColumns} (h : c.Checked) (k : Constraint) : k.Holds c := by
  cases k
  case u16Min r         => exact (h.u16 _ (r.columns_mem_ranges c)).1
  case u16Max r         => exact (h.u16 _ (r.columns_mem_ranges c)).2
  case order r          => exact h.order _ (r.columns_mem_ranges c)
  case version          => exact h.version
  case pairCompleteness => exact h.complete
  case legacyNull       => exact h.legacy
  case required         => exact h.required

end Constraint

-- What a statement of definition creates.
inductive Object
  | extension (name : String)
  | table (name : String)
  | index (name : String)
  | column (table name : String)
  | constraint (c : Constraint)
deriving DecidableEq

structure ProfileRow extends ProfileColumns where
  id : UUID
deriving DecidableEq

-- The catalogue, and the rows of the tables that the migrations read. A column that is not there is
-- null in every row.
structure Database where
  objects  : List Object
  nodes    : List Node
  profiles : List ProfileRow
  peers    : List Peer
deriving DecidableEq

namespace Database

variable (db : Database)

-- `SELECT ... FROM peers GROUP BY node_id HAVING COUNT(DISTINCT profile_id) > 1`
def mixedNodes : List UUID :=
  (db.peers.map Peer.nodeID).dedup.filter fun id =>
    1 < ((db.peers.filter (·.nodeID = id)).map Peer.profileID).dedup.length

-- `SELECT DISTINCT node_id, profile_id FROM peers`
def peerProfiles : List (UUID × UUID) :=
  (db.peers.map fun p => (p.nodeID, p.profileID)).dedup

end Database

inductive Guard
  | mixedPeers
  | ambiguousNodes
deriving DecidableEq

namespace Guard

def raises : Guard → Database → Bool
  | mixedPeers,     db => db.mixedNodes ≠ []
  | ambiguousNodes, db => (∃ n ∈ db.nodes, n.profileID = none) ∧ db.profiles.length > 1

def text : Guard → String
  | mixedPeers     => "cannot migrate vpn_nodes.profile_id: at least one node has peers with multiple " ++
    "protocol profiles"
  | ambiguousNodes => "cannot migrate vpn_nodes.profile_id: at least one node has no peers and multiple " ++
    "protocol profiles exist; assign a node profile explicitly before upgrading"

end Guard

inductive Update
  | fromPeers
  | fromOnlyProfile
deriving DecidableEq

-- The value that a row of `vpn_nodes` is set to, if the statement selects it. Where a node is joined
-- with several rows, any of them may be taken.
def Update.value : Update → Database → Node → Option (Option UUID)
  | fromPeers, db, n =>
    if n.profileID = none then (db.peerProfiles.find? (·.1 = n.id)).map (some ·.2) else none
  | fromOnlyProfile, db, n =>
    if n.profileID = none ∧ db.profiles.length = 1 then some (db.profiles.head?.map ProfileRow.id) else none

def Update.node (u : Update) (db : Database) (n : Node) : Node :=
  match u.value db n with
  | some v => { n with profileID := v }
  | none   => n

-- The references are looked up among the profiles.
instance {u : Update} {db : Database} :
    Decidable (∀ n ∈ db.nodes, ∀ v ∈ u.value db n, ∀ id ∈ v, id ∈ db.profiles.map ProfileRow.id) :=
  decidable_of_iff (db.nodes.all fun n => (u.value db n).all fun v => v.all fun id =>
    decide (id ∈ db.profiles.map ProfileRow.id)) (by simp [Option.all_eq_true])

inductive Statement
  | create (o : Object)
  | constrain (c : Constraint)
  | raiseIf (g : Guard)
  | update (u : Update)
deriving DecidableEq

namespace Statement

-- What exists is left, and a constraint that exists is not checked again. An update checks the
-- reference of the rows that it changes.
def exec : Statement → Database → Except Err Database
  | create o, db =>
    if o ∈ db.objects then pure db else pure { db with objects := db.objects ++ [o] }
  | constrain c, db =>
    if .constraint c ∈ db.objects then pure db
    else if ∀ p ∈ db.profiles, c.Holds p.toProfileColumns then
      pure { db with objects := db.objects ++ [.constraint c] }
    else throw (.new ("ERROR: check constraint \"" ++ c.name ++
      "\" of relation \"protocol_profiles\" is violated by some row (SQLSTATE 23514)"))
  | raiseIf g, db =>
    if g.raises db then throw (.new ("ERROR: " ++ g.text ++ " (SQLSTATE P0001)")) else pure db
  | update u, db =>
    if ∀ n ∈ db.nodes, ∀ v ∈ u.value db n, ∀ id ∈ v, id ∈ db.profiles.map ProfileRow.id then
      pure { db with nodes := db.nodes.map (u.node db) }
    else throw (.new ("ERROR: insert or update on table \"vpn_nodes\" violates foreign key constraint " ++
      "\"vpn_nodes_profile_id_fkey\" (SQLSTATE 23503)"))

end Statement

abbrev Script := List Statement

def schemaV1 : Script :=
  [.create (.extension "pgcrypto"), .create (.table "tenants"), .create (.table "subjects"),
    .create (.table "role_bindings"), .create (.table "vpn_nodes"),
    .create (.table "protocol_profiles"), .create (.index "protocol_profiles_version_idx"),
    .create (.table "address_pools"), .create (.table "peers"),
    .create (.index "peers_tenant_state_idx"), .create (.index "peers_node_state_idx"),
    .create (.table "peer_runtime"), .create (.table "operations"),
    .create (.index "operations_status_started_idx"), .create (.index "operations_peer_idx"),
    .create (.table "idempotency_keys"), .create (.table "outbox"),
    .create (.index "outbox_status_idx"), .create (.index "outbox_node_status_idx"),
    .create (.table "audit_events"),
    .create (.index "audit_tenant_created_idx"), .create (.index "audit_target_idx"),
    .create (.table "config_snapshots"), .create (.table "usage_rollups")]

def assignment : Script :=
  [.raiseIf .mixedPeers, .update .fromPeers, .update .fromOnlyProfile, .raiseIf .ambiguousNodes]

def schemaV2 : Script :=
  [.create (.column "vpn_nodes" "profile_id")] ++ assignment ++ [.create (.index "vpn_nodes_profile_idx")]

def v31Columns : List String :=
  ["header_protection_key"] ++ RangeName.all.flatMap (fun r => [r.text ++ "_min", r.text ++ "_max"]) ++
    ["random_trailers", "disable_cookies"]

def schemaV3 : Script :=
  v31Columns.map (fun c => .create (.column "protocol_profiles" c)) ++
  RangeName.all.flatMap (fun r => [.constrain (.u16Min r), .constrain (.u16Max r)]) ++
  RangeName.all.map (fun r => .constrain (.order r)) ++
  [.constrain .version, .constrain .pairCompleteness, .constrain .legacyNull, .constrain .required]

def run (s : Script) (db : Database) : Except Err Database :=
  s.foldlM (fun db st => st.exec db) db

-- The failures that are not of the statements themselves.
structure Faults where
  start  : Option Err := none
  exec   : Nat → Option Err := fun _ => none
  commit : Option Err := none

def runAll (fault : Nat → Option Err) (i : Nat) : List Script → Database → Except Err Database
  | [],      db => pure db
  | s :: ss, db =>
    match fault i with
    | some e => throw e
    | none   => do runAll fault (i + 1) ss (← run s db)

-- The database that is left, and the error that is returned. The transaction works on a version of
-- its own, which the deferred rollback drops.
def migrate (faults : Faults) (db : Database) : Database × Option Err :=
  match faults.start with
  | some e => (db, some e)
  | none   =>
    match runAll faults.exec 0 [schemaV1, schemaV2, schemaV3] db with
    | .error e => (db, some e)
    | .ok tx   =>
      match faults.commit with
      | some e => (db, some e)
      | none   => (tx, none)

-- The rows that the schema allows.

structure Database.Referenced (db : Database) : Prop where
  node    : ∀ p ∈ db.peers, ∃ n ∈ db.nodes, n.id = p.nodeID
  profile : ∀ p ∈ db.peers, p.profileID ∈ db.profiles.map ProfileRow.id

-- A profile of version 1 or 2, without any of the values of version 3.1.
structure Legacy (c : ProfileColumns) : Prop where
  version : c.protocolVersion = "v1" ∨ c.protocolVersion = "v2"
  key     : c.headerProtectionKey = none
  ranges  : ∀ r ∈ c.ranges, r.lo = none ∧ r.hi = none
  flags   : c.randomTrailers = none ∧ c.disableCookies = none

theorem Legacy.checked {c : ProfileColumns} (h : Legacy c) : c.Checked where
  u16 r hr := by
    obtain ⟨hl, hh⟩ := h.ranges r hr
    rw [hl, hh]
    exact ⟨nofun, nofun⟩
  order r hr := by
    unfold ProfileColumns.OrderCheck
    rw [(h.ranges r hr).1]
    exact nofun
  version := by
    rcases h.version with hv | hv <;> simp [ProfileColumns.VersionCheck, hv]
  complete r hr := by
    obtain ⟨hl, hh⟩ := h.ranges r hr
    rw [hl, hh]
  legacy := .inr ⟨h.key, h.ranges, h.flags⟩
  required := .inl <| by rcases h.version with hv | hv <;> simp [hv]

namespace Database

variable (db : Database)

def Mixed : Prop :=
  ∃ n ∈ db.nodes, ∃ p ∈ db.peers, ∃ q ∈ db.peers,
    p.nodeID = n.id ∧ q.nodeID = n.id ∧ p.profileID ≠ q.profileID

def Idle (n : Node) : Prop :=
  n.profileID = none ∧ ∀ p ∈ db.peers, p.nodeID ≠ n.id

def Ambiguous : Prop :=
  (∃ n ∈ db.nodes, db.Idle n) ∧ 2 ≤ db.profiles.length

end Database

section Assignment

variable {db : Database} {n : Node} {p : Peer}

theorem one_lt_length_dedup {l : List UUID} : 1 < l.dedup.length ↔ ∃ a ∈ l, ∃ b ∈ l, a ≠ b := by
  rw [← List.card_toFinset, Finset.one_lt_card]
  simp only [List.mem_toFinset]

theorem mem_mixedNodes {id : UUID} :
    id ∈ db.mixedNodes ↔
      ∃ p ∈ db.peers, ∃ q ∈ db.peers, p.nodeID = id ∧ q.nodeID = id ∧ p.profileID ≠ q.profileID := by
  simp only [Database.mixedNodes, List.mem_filter, List.mem_dedup, one_lt_length_dedup, List.mem_map,
    decide_eq_true_eq]
  constructor
  · rintro ⟨-, _, ⟨p, ⟨hp, hpn⟩, rfl⟩, _, ⟨q, ⟨hq, hqn⟩, rfl⟩, hne⟩
    exact ⟨p, hp, q, hq, hpn, hqn, hne⟩
  · rintro ⟨p, hp, q, hq, hpn, hqn, hne⟩
    exact ⟨⟨p, hp, hpn⟩, _, ⟨p, ⟨hp, hpn⟩, rfl⟩, _, ⟨q, ⟨hq, hqn⟩, rfl⟩, hne⟩

theorem raises_mixedPeers (hr : db.Referenced) : Guard.mixedPeers.raises db = true ↔ db.Mixed := by
  refine decide_eq_true_iff.trans ⟨fun h => ?_, ?_⟩
  · obtain ⟨id, hid⟩ := List.exists_mem_of_ne_nil _ h
    obtain ⟨p, hp, q, hq, hpn, hqn, hne⟩ := mem_mixedNodes.mp hid
    obtain ⟨n, hn, hid⟩ := hr.node p hp
    exact ⟨n, hn, p, hp, q, hq, hid.symm, by rw [hqn, hid, hpn], hne⟩
  · rintro ⟨n, -, h⟩
    exact List.ne_nil_of_mem (mem_mixedNodes.mpr h)

theorem fromPeers_value {v : Option UUID} (h : Update.fromPeers.value db n = some v) :
    n.profileID = none ∧ ∃ p ∈ db.peers, p.nodeID = n.id ∧ v = some p.profileID := by
  simp only [Update.value] at h
  split at h
  case isFalse => cases h
  case isTrue hn =>
    obtain ⟨⟨a, b⟩, hf, rfl⟩ := Option.map_eq_some_iff.mp h
    have hm := List.mem_of_find?_eq_some hf
    have hid := List.find?_some hf
    rw [Database.peerProfiles, List.mem_dedup, List.mem_map] at hm
    obtain ⟨p, hp, he⟩ := hm
    cases he
    exact ⟨hn, p, hp, by simpa using hid, rfl⟩

theorem fromPeers_isSome (hn : n.profileID = none) (hp : p ∈ db.peers) (hid : p.nodeID = n.id) :
    (Update.fromPeers.value db n).isSome = true := by
  rw [Update.value, if_pos hn, Option.isSome_map, List.find?_isSome]
  refine ⟨(p.nodeID, p.profileID), ?_, by simpa using hid⟩
  rw [Database.peerProfiles, List.mem_dedup]
  exact List.mem_map.mpr ⟨p, hp, rfl⟩

-- The profile that both updates give a node.
def owned (db : Database) (n : Node) : Node :=
  Update.fromOnlyProfile.node db (Update.fromPeers.node db n)

-- How a node of the old version is assigned its profile.
structure Owned (db : Database) (n n' : Node) : Prop where
  rest  : { n' with profileID := n.profileID } = n
  kept  : ∀ id, n.profileID = some id → n'.profileID = some id
  peers : n.profileID = none → ∀ p ∈ db.peers, p.nodeID = n.id → n'.profileID = some p.profileID
  only  : db.Idle n → ∀ q, db.profiles = [q] → n'.profileID = some q.id
  unset : n'.profileID = none → db.profiles = []

theorem owned_set (h : n.profileID ≠ none) : owned db n = n := by
  simp [owned, Update.node, Update.value, h]

theorem owned_peers (hm : ¬ db.Mixed) (hn : n ∈ db.nodes) (h : n.profileID = none) (hp : p ∈ db.peers)
    (hid : p.nodeID = n.id) : owned db n = { n with profileID := some p.profileID } := by
  obtain ⟨v, hv⟩ := Option.isSome_iff_exists.mp (fromPeers_isSome h hp hid)
  obtain ⟨-, q, hq, hqn, rfl⟩ := fromPeers_value hv
  have heq : q.profileID = p.profileID := by
    by_contra hne
    exact hm ⟨n, hn, q, hq, p, hp, hqn, hid, hne⟩
  have hnode : Update.fromPeers.node db n = { n with profileID := some p.profileID } := by
    rw [Update.node, hv, heq]
  rw [owned, hnode]
  simp [Update.node, Update.value]

theorem owned_idle (h : db.Idle n) :
    owned db n = if db.profiles.length = 1 then { n with profileID := db.profiles.head?.map ProfileRow.id }
      else n := by
  have hv : Update.fromPeers.value db n = none := by
    by_contra hne
    obtain ⟨v, hv⟩ := Option.ne_none_iff_exists'.mp hne
    obtain ⟨-, p, hp, hid, -⟩ := fromPeers_value hv
    exact h.2 p hp hid
  have hnode : Update.fromPeers.node db n = n := by
    rw [Update.node, hv]
  rw [owned, hnode]
  by_cases hl : db.profiles.length = 1
  · simp [Update.node, Update.value, h.1, hl]
  · simp [Update.node, Update.value, hl]

-- A node has a profile, or peers, or neither.
theorem node_cases (db : Database) (n : Node) :
    n.profileID ≠ none ∨ (n.profileID = none ∧ ∃ p ∈ db.peers, p.nodeID = n.id) ∨ db.Idle n := by
  by_cases hn : n.profileID = none
  case neg => exact .inl hn
  case pos =>
    by_cases hp : ∃ p ∈ db.peers, p.nodeID = n.id
    · exact .inr (.inl ⟨hn, hp⟩)
    · exact .inr (.inr ⟨hn, fun p hm hid => hp ⟨p, hm, hid⟩⟩)

theorem owned_rest : { owned db n with profileID := n.profileID } = n := by
  simp only [owned, Update.node]
  split <;> split <;> rfl

theorem owned_spec (hm : ¬ db.Mixed) (ha : ¬ db.Ambiguous) (hn : n ∈ db.nodes) :
    Owned db n (owned db n) := by
  rcases node_cases db n with hset | ⟨hnone, p, hp, hid⟩ | hidle
  · rw [owned_set hset]
    exact ⟨rfl, fun _ h => h, fun h => absurd h hset, fun h => absurd h.1 hset,
      fun h => absurd h hset⟩
  · refine ⟨owned_rest, ?_, fun _ q hq hqn => ?_, fun h => absurd hid (h.2 p hp), ?_⟩
    · simp [hnone]
    · rw [owned_peers hm hn hnone hq hqn]
    · simp [owned_peers hm hn hnone hp hid]
  · have hlen : db.profiles.length < 2 := Nat.not_le.mp fun h => ha ⟨⟨n, hn, hidle⟩, h⟩
    refine ⟨owned_rest, ?_, fun _ q hq hqn => absurd hqn (hidle.2 q hq),
      fun _ q hq => ?_, fun h => ?_⟩
    · simp [hidle.1]
    · simp [owned_idle hidle, hq]
    · by_contra hne
      have hpos := List.length_pos_iff.mpr hne
      have hone : db.profiles.length = 1 := by omega
      obtain ⟨q, hq⟩ := List.length_eq_one_iff.mp hone
      simp [owned_idle hidle, hq] at h

theorem fromPeers_references (hr : db.Referenced) :
    ∀ n ∈ db.nodes, ∀ v ∈ Update.fromPeers.value db n, ∀ id ∈ v,
    id ∈ db.profiles.map ProfileRow.id := by
  intro n _ v hv id hid
  obtain ⟨-, p, hp, -, rfl⟩ := fromPeers_value hv
  cases hid
  exact hr.profile p hp

theorem fromOnlyProfile_references (db : Database) : ∀ n ∈ db.nodes,
    ∀ v ∈ Update.fromOnlyProfile.value db n, ∀ id ∈ v, id ∈ db.profiles.map ProfileRow.id := by
  intro n _ v hv id hid
  simp only [Update.value, Option.mem_def] at hv
  split at hv
  case isFalse => cases hv
  case isTrue =>
    cases hv
    obtain ⟨q, hq, rfl⟩ := Option.map_eq_some_iff.mp hid
    exact List.mem_map_of_mem (List.mem_of_mem_head? hq)

theorem raises_ambiguousNodes (hm : ¬ db.Mixed) :
    Guard.ambiguousNodes.raises { db with nodes := db.nodes.map (owned db) } = true ↔
      db.Ambiguous := by
  refine decide_eq_true_iff.trans (and_congr_left fun hl => ?_)
  have hne : db.profiles.length ≠ 1 := by
    have : 1 < db.profiles.length := hl
    omega
  simp only [List.mem_map, exists_exists_and_eq_and]
  refine exists_congr fun n => and_congr_right fun hn => ⟨fun h => ?_, fun h => ?_⟩
  · rcases node_cases db n with hset | ⟨hnone, p, hp, hid⟩ | hidle
    · exact absurd (owned_set hset ▸ h) hset
    · simp [owned_peers hm hn hnone hp hid] at h
    · exact hidle
  · rw [owned_idle h, if_neg hne]
    exact h.1

end Assignment

section Run

variable {db : Database} {s t : Script}

theorem run_cons_ok {st : Statement} {db' : Database} (h : st.exec db = .ok db') :
    run (st :: s) db = run s db' := by
  rw [run, List.foldlM_cons, h]
  rfl

theorem run_cons_error {st : Statement} {e : Err} (h : st.exec db = .error e) :
    run (st :: s) db = .error e := by
  rw [run, List.foldlM_cons, h]
  rfl

theorem run_append : run (s ++ t) db = (run s db).bind (run t) :=
  List.foldlM_append

theorem exec_raiseIf {g : Guard} (h : ¬ g.raises db = true) :
    Statement.exec (.raiseIf g) db = .ok db := by
  rw [Statement.exec, if_neg h]
  rfl

theorem exec_raiseIf_error {g : Guard} (h : g.raises db = true) :
    ∃ e, Statement.exec (.raiseIf g) db = .error e := by
  rw [Statement.exec, if_pos h]
  exact ⟨_, rfl⟩

theorem exec_update {u : Update}
    (h : ∀ n ∈ db.nodes, ∀ v ∈ u.value db n, ∀ id ∈ v, id ∈ db.profiles.map ProfileRow.id) :
    Statement.exec (.update u) db = .ok { db with nodes := db.nodes.map (u.node db) } :=
  if_pos h

theorem run_updates (hr : db.Referenced) :
    run (.update .fromPeers :: .update .fromOnlyProfile :: s) db =
      run s { db with nodes := db.nodes.map (owned db) } := by
  rw [run_cons_ok (exec_update (fromPeers_references hr)),
    run_cons_ok (exec_update (fromOnlyProfile_references _)), List.map_map]
  rfl

theorem run_assignment (hr : db.Referenced) (hm : ¬ db.Mixed) (ha : ¬ db.Ambiguous) :
    run assignment db = .ok { db with nodes := db.nodes.map (owned db) } := by
  rw [assignment, run_cons_ok (exec_raiseIf (mt (raises_mixedPeers hr).mp hm)), run_updates hr,
    run_cons_ok (exec_raiseIf (mt (raises_ambiguousNodes hm).mp ha))]
  rfl

theorem run_assignment_error (hr : db.Referenced) (h : db.Mixed ∨ db.Ambiguous) :
    ∃ e, run assignment db = .error e := by
  rw [assignment]
  by_cases hm : db.Mixed
  case pos =>
    obtain ⟨e, he⟩ := exec_raiseIf_error ((raises_mixedPeers hr).mpr hm)
    exact ⟨e, run_cons_error he⟩
  case neg =>
    have ha := h.resolve_left hm
    obtain ⟨e, he⟩ := exec_raiseIf_error ((raises_ambiguousNodes hm).mpr ha)
    rw [run_cons_ok (exec_raiseIf (mt (raises_mixedPeers hr).mp hm)), run_updates hr]
    exact ⟨e, run_cons_error he⟩

-- The statements that define an object of the catalogue.
def Statement.object? : Statement → Option Object
  | create o    => some o
  | constrain c => some (.constraint c)
  | _           => none

theorem exec_object {st : Statement} {o : Object} (h : st.object? = some o)
    (hp : ∀ p ∈ db.profiles, p.Checked) :
    st.exec db = .ok (if o ∈ db.objects then db else { db with objects := db.objects ++ [o] }) := by
  cases st
  case create =>
    cases h
    rw [Statement.exec]
    split <;> rfl
  case constrain c =>
    cases h
    rw [Statement.exec, if_pos fun p hm => Constraint.holds_of_checked (hp p hm) c]
    split <;> rfl
  all_goals cases h

theorem exec_present {st : Statement} {o : Object} (h : st.object? = some o) (ho : o ∈ db.objects) :
    st.exec db = .ok db := by
  cases st
  case create | constrain =>
    cases h
    exact if_pos ho
  all_goals cases h

-- A script of definitions changes the catalogue only, in which its objects then are.
theorem run_objects (hs : ∀ st ∈ s, st.object?.isSome = true) (hp : ∀ p ∈ db.profiles, p.Checked) :
    ∃ os, run s db = .ok { db with objects := os } ∧ (∀ o ∈ db.objects, o ∈ os) ∧
      ∀ st ∈ s, ∀ o ∈ st.object?, o ∈ os := by
  induction s generalizing db
  case nil => exact ⟨db.objects, rfl, fun _ h => h, nofun⟩
  case cons st s ih =>
    obtain ⟨o, ho⟩ := Option.isSome_iff_exists.mp (hs st (by simp))
    obtain ⟨os, hrun, hsub, hall⟩ :=
      @ih { db with objects := if o ∈ db.objects then db.objects else db.objects ++ [o] }
      (fun st hst => hs st (List.mem_cons_of_mem _ hst)) hp
    have hexec : st.exec db =
        .ok { db with objects := if o ∈ db.objects then db.objects else db.objects ++ [o] } := by
      rw [exec_object ho hp]
      split <;> rfl
    have hgrow : ∀ x, x ∈ db.objects ∨ x = o →
        x ∈ if o ∈ db.objects then db.objects else db.objects ++ [o] := by
      intro x hx
      split
      case isTrue hin  => exact hx.elim id (· ▸ hin)
      case isFalse     => simpa using hx
    refine ⟨os, (run_cons_ok hexec).trans hrun, fun x hx => hsub x (hgrow x (.inl hx)),
      fun st' hst x hx => ?_⟩
    rcases List.mem_cons.mp hst with rfl | hst
    · cases ho.symm.trans hx
      exact hsub o (hgrow o (.inr rfl))
    · exact hall st' hst x hx

theorem run_stable (h : ∀ st ∈ s, st.exec db = .ok db) : run s db = .ok db := by
  induction s
  case nil => rfl
  case cons st s ih =>
    rw [run_cons_ok (h st (by simp))]
    exact ih fun st hst => h st (List.mem_cons_of_mem _ hst)

-- Where a node without a profile means that there are no profiles, nothing is left to assign.
theorem assignment_stable (hr : ∀ p ∈ db.peers, p.profileID ∈ db.profiles.map ProfileRow.id)
    (hu : ∀ n ∈ db.nodes, n.profileID = none → db.profiles = [])
    (hm : ¬ Guard.mixedPeers.raises db = true) : ∀ st ∈ assignment, st.exec db = .ok db := by
  have hvalue : ∀ u : Update, ∀ n ∈ db.nodes, u.value db n = none := by
    intro u n hn
    by_cases hnone : n.profileID = none
    case neg => cases u <;> simp [Update.value, hnone]
    case pos =>
      have hprofiles := hu n hn hnone
      cases u
      case fromPeers =>
        by_contra hne
        obtain ⟨v, hv⟩ := Option.ne_none_iff_exists'.mp hne
        obtain ⟨-, p, hp, -⟩ := fromPeers_value hv
        simpa [hprofiles] using hr p hp
      case fromOnlyProfile => simp [Update.value, hprofiles]
  have hupdate : ∀ u : Update, Statement.exec (.update u) db = .ok db := by
    intro u
    have hnodes : db.nodes.map (u.node db) = db.nodes := by
      refine (List.map_congr_left fun n hn => ?_).trans (List.map_id _)
      rw [Update.node, hvalue u n hn]
      rfl
    rw [exec_update fun n hn v hv => absurd (hvalue u n hn ▸ hv) (Option.not_mem_none v), hnodes]
  have hguard : ¬ Guard.ambiguousNodes.raises db = true := by
    refine mt decide_eq_true_iff.mp ?_
    rintro ⟨⟨n, hn, hnone⟩, hl⟩
    simp [hu n hn hnone] at hl
  simp only [assignment, List.forall_mem_cons, List.not_mem_nil, false_imp_iff,
    implies_true, and_true]
  exact ⟨exec_raiseIf hm, hupdate _, hupdate _, exec_raiseIf hguard⟩

end Run

section Migrate

variable {db : Database} {faults : Faults}

def migrations : Script :=
  schemaV1 ++ schemaV2 ++ schemaV3

-- The definitions before and after the assignment.

def opening : Script :=
  schemaV1 ++ [.create (.column "vpn_nodes" "profile_id")]

def closing : Script :=
  [.create (.index "vpn_nodes_profile_idx")] ++ schemaV3

theorem migrations_eq : migrations = opening ++ (assignment ++ closing) := by
  simp [migrations, opening, closing, schemaV2]

theorem opening_objects : ∀ st ∈ opening, st.object?.isSome = true := by
  decide

theorem closing_objects : ∀ st ∈ closing, st.object?.isSome = true := by
  decide

theorem run_migrations (hr : db.Referenced) (hc : ∀ p ∈ db.profiles, p.Checked) (hm : ¬ db.Mixed)
    (ha : ¬ db.Ambiguous) :
    ∃ os, run migrations db = .ok { db with objects := os, nodes := db.nodes.map (owned db) } ∧
      ∀ st ∈ opening ++ closing, ∀ o ∈ st.object?, o ∈ os := by
  obtain ⟨os₁, h₁, -, hin₁⟩ := run_objects opening_objects hc
  have h₂ := @run_assignment { db with objects := os₁ } ⟨hr.node, hr.profile⟩ hm ha
  obtain ⟨os₂, h₃, hsub, hin₂⟩ :=
    @run_objects { db with objects := os₁, nodes := db.nodes.map (owned db) } _
    closing_objects hc
  refine ⟨os₂, ?_, fun st hst o ho => ?_⟩
  · rw [migrations_eq, run_append, h₁]
    refine run_append.trans ?_
    rw [h₂]
    exact h₃
  · rcases List.mem_append.mp hst with hst | hst
    · exact hsub o (hin₁ st hst o ho)
    · exact hin₂ st hst o ho

theorem run_migrations_error (hr : db.Referenced) (hc : ∀ p ∈ db.profiles, p.Checked)
    (h : db.Mixed ∨ db.Ambiguous) : ∃ e, run migrations db = .error e := by
  obtain ⟨os₁, h₁, -, -⟩ := run_objects opening_objects hc
  obtain ⟨e, h₂⟩ := @run_assignment_error { db with objects := os₁ } ⟨hr.node, hr.profile⟩ h
  refine ⟨e, ?_⟩
  rw [migrations_eq, run_append, h₁]
  refine run_append.trans ?_
  rw [h₂]
  rfl

theorem run_migrations_again {os : List Object} (hr : db.Referenced) (hm : ¬ db.Mixed)
    (ha : ¬ db.Ambiguous) (hos : ∀ st ∈ opening ++ closing, ∀ o ∈ st.object?, o ∈ os) :
    run migrations { db with objects := os, nodes := db.nodes.map (owned db) } =
      .ok { db with objects := os, nodes := db.nodes.map (owned db) } := by
  have hu : ∀ n ∈ db.nodes.map (owned db), n.profileID = none → db.profiles = [] := by
    intro n' hn'
    obtain ⟨n, hn, rfl⟩ := List.mem_map.mp hn'
    exact (owned_spec hm ha hn).unset
  have hdef : ∀ st ∈ opening ++ closing,
      st.exec { db with objects := os, nodes := db.nodes.map (owned db) } =
      .ok { db with objects := os, nodes := db.nodes.map (owned db) } := by
    intro st hst
    have hsome : st.object?.isSome = true :=
      (List.mem_append.mp hst).elim (opening_objects st) (closing_objects st)
    obtain ⟨o, ho⟩ := Option.isSome_iff_exists.mp hsome
    exact exec_present ho (hos st hst o ho)
  refine run_stable fun st hst => ?_
  rw [migrations_eq, List.mem_append, List.mem_append] at hst
  rcases hst with hst | hst | hst
  · exact hdef st (List.mem_append_left _ hst)
  · refine @assignment_stable { db with objects := os, nodes := db.nodes.map (owned db) }
      hr.profile hu ?_ st hst
    exact mt (raises_mixedPeers hr).mp hm
  · exact hdef st (List.mem_append_right _ hst)

theorem runAll_without_faults (i : Nat) (ss : List Script) (db : Database) :
    runAll (fun _ => none) i ss db = run ss.flatten db := by
  induction ss generalizing i db
  case nil => rfl
  case cons s ss ih =>
    rw [List.flatten_cons, run_append]
    show (run s db).bind (runAll (fun _ => none) (i + 1) ss) = _
    congr 1
    funext db
    exact ih (i + 1) db

theorem migrate_of_run {db' : Database} (h : run migrations db = .ok db') :
    migrate {} db = (db', none) := by
  have hall := runAll_without_faults 0 [schemaV1, schemaV2, schemaV3] db
  rw [show [schemaV1, schemaV2, schemaV3].flatten = migrations by simp [migrations], h] at hall
  simp only [migrate, hall]

theorem migrate_of_error {e : Err} (h : run migrations db = .error e) :
    migrate {} db = (db, some e) := by
  have hall := runAll_without_faults 0 [schemaV1, schemaV2, schemaV3] db
  rw [show [schemaV1, schemaV2, schemaV3].flatten = migrations by simp [migrations], h] at hall
  simp only [migrate, hall]

theorem migrate_atomic (h : (migrate faults db).2 ≠ none) : (migrate faults db).1 = db := by
  revert h
  unfold migrate
  split
  case h_1 => exact fun _ => rfl
  case h_2 =>
    split
    case h_1 => exact fun _ => rfl
    case h_2 =>
      split
      case h_1 => exact fun _ => rfl
      case h_2 => exact fun h => absurd rfl h

end Migrate

theorem migrate_assigns_profiles (db : Database) (hr : db.Referenced)
    (hp : ∀ p ∈ db.profiles, Legacy p.toProfileColumns ∨ p.protocolVersion = "v3.1" ∧ p.Checked) :
    (∀ faults, (migrate faults db).2 ≠ none → (migrate faults db).1 = db) ∧
    ((migrate {} db).2 ≠ none ↔ db.Mixed ∨ db.Ambiguous) ∧
    ((migrate {} db).2 = none →
      (migrate {} db).1.profiles = db.profiles ∧ (migrate {} db).1.peers = db.peers ∧
      List.Forall₂ (Owned db) db.nodes (migrate {} db).1.nodes ∧
      migrate {} (migrate {} db).1 = ((migrate {} db).1, none)) := by
  have hc : ∀ p ∈ db.profiles, p.Checked := fun p hm => (hp p hm).elim Legacy.checked And.right
  refine ⟨fun _ => migrate_atomic, ?_⟩
  by_cases hf : db.Mixed ∨ db.Ambiguous
  case pos =>
    obtain ⟨e, he⟩ := run_migrations_error hr hc hf
    rw [migrate_of_error he]
    exact ⟨⟨fun _ => hf, fun _ => nofun⟩, nofun⟩
  case neg =>
    obtain ⟨hm, ha⟩ := not_or.mp hf
    obtain ⟨os, hrun, hos⟩ := run_migrations hr hc hm ha
    rw [migrate_of_run hrun]
    refine ⟨⟨fun h => absurd rfl h, fun h => absurd h hf⟩, fun _ => ⟨rfl, rfl, ?_, ?_⟩⟩
    · refine List.forall₂_map_right_iff.mpr (List.forall₂_same.mpr fun n hn => ?_)
      exact owned_spec hm ha hn
    · exact migrate_of_run (run_migrations_again hr hm ha hos)

namespace Sample

def profileRow (id : UUID) (name : String) : ProfileRow where
  toProfileColumns := columns
    { id, name, protocolVersion := .v1, jc := 1, jmin := 1, jmax := 2, s1 := 0, s2 := 0
      h1 := ⟨1, 1⟩, h2 := ⟨2, 2⟩, h3 := ⟨3, 3⟩, h4 := ⟨4, 4⟩ }
  id := id

def node (id : UUID) (hostname : String) : Node where
  id              := id
  profileID       := none
  region          := "eu"
  hostname        := hostname
  status          := "unknown"
  publicEndpoint  := ""
  basePort        := 1
  interfaceName   := "awg0"
  serverPublicKey := ""

def peer (id nodeID profileID : UUID) : Peer where
  id              := id
  tenantID        := 9
  nodeID          := nodeID
  profileID       := profileID
  externalID      := "e"
  displayName     := ""
  publicKey       := ""
  presharedKeyRef := none
  allowedIP       := ⟨.v4, 1, by decide⟩
  state           := .active
  desiredRevision := 1
  appliedRevision := 0
  expiresAt       := none
  revokedAt       := none
  createdAt       := 0
  updatedAt       := 0

-- A database of the first migration, with a node in use and one without peers.
def database : Database where
  objects  := []
  nodes    := [node 2 "a", node 3 "b"]
  profiles := [profileRow 1 "plain"]
  peers    := [peer 4 2 1]

theorem database_referenced : database.Referenced :=
  ⟨by decide, by decide⟩

theorem database_legacy : ∀ p ∈ database.profiles,
    Legacy p.toProfileColumns ∨ p.protocolVersion = "v3.1" ∧ p.Checked := by
  intro p hp
  obtain rfl := List.mem_singleton.mp hp
  exact .inl ⟨by decide, by decide, by decide, by decide⟩

theorem database_assignable : ¬ (database.Mixed ∨ database.Ambiguous) := by
  unfold Database.Mixed Database.Ambiguous Database.Idle
  decide

end Sample

theorem migrate_assigns_profiles_sample :
    (migrate {} Sample.database).2 = none ∧
    List.Forall₂ (Owned Sample.database) [Sample.node 2 "a", Sample.node 3 "b"]
      (migrate {} Sample.database).1.nodes := by
  have h := migrate_assigns_profiles Sample.database Sample.database_referenced Sample.database_legacy
  have hok : (migrate {} Sample.database).2 = none :=
    not_not.mp (mt h.2.1.mp Sample.database_assignable)
  exact ⟨hok, (h.2.2 hok).2.2.1⟩

end Migration
