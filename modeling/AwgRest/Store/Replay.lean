import AwgRest.Store.Rows

open Domain

-- What a list of writes makes of each table.
namespace Store

section Upsert

variable {α β : Type} [DecidableEq α] {key : β → α} {rows : List β} {r x : β}

theorem upsert_of_new (h : ∀ q ∈ rows, key q ≠ key r) : upsert key rows r = rows ++ [r] := by
  have : rows.any (key · = key r) = false := by simpa using h
  simp [upsert, this]

theorem upsert_of_mem (h : ∃ q ∈ rows, key q = key r) :
    upsert key rows r = rows.map (fun q => if key q = key r then r else q) := by
  have : rows.any (key · = key r) = true := by simpa using h
  simp [upsert, this]

theorem mem_upsert (h : x ∈ upsert key rows r) : x ∈ rows ∨ x = r := by
  unfold upsert at h
  split at h
  · obtain ⟨q, hq, rfl⟩ := List.mem_map.mp h
    split
    · exact .inr rfl
    · exact .inl hq
  · simpa using h

theorem mem_upsert_self : r ∈ upsert key rows r := by
  by_cases h : ∃ q ∈ rows, key q = key r
  · rw [upsert_of_mem h]
    obtain ⟨q, hq, hk⟩ := h
    exact List.mem_map.mpr ⟨q, hq, by simp [hk]⟩
  · rw [upsert_of_new (by simpa using h)]
    simp

theorem mem_upsert_of_ne (hx : x ∈ rows) (hk : key x ≠ key r) : x ∈ upsert key rows r := by
  unfold upsert
  split
  · exact List.mem_map.mpr ⟨x, hx, by simp [hk]⟩
  · simp [hx]

-- Replacing rows by rows with the same `f` changes no `f`.
theorem map_upsert {γ : Type} {f : β → γ} (hf : ∀ {q}, q ∈ rows → key q = key r → f q = f r)
    (h : ∃ q ∈ rows, key q = key r) : (upsert key rows r).map f = rows.map f := by
  rw [upsert_of_mem h, List.map_map]
  refine List.map_congr_left fun q hq => ?_
  by_cases hk : key q = key r
  · simp [hk, hf hq hk]
  · simp [hk]

-- A list of rows, one after the other.
section Fold

variable {ps : List β}

theorem mem_foldl_upsert (h : x ∈ ps.foldl (upsert key) rows) : x ∈ rows ∨ x ∈ ps := by
  induction ps generalizing rows
  case nil => exact .inl h
  case cons p ps ih =>
    rcases ih h with h | h
    · rcases mem_upsert h with h | rfl
      · exact .inl h
      · exact .inr (List.mem_cons_self ..)
    · exact .inr (List.mem_cons_of_mem _ h)

theorem mem_foldl_upsert_of_ne (hx : x ∈ rows) (hk : ∀ p ∈ ps, key x ≠ key p) :
    x ∈ ps.foldl (upsert key) rows := by
  induction ps generalizing rows
  case nil => exact hx
  case cons p ps ih =>
    exact ih (mem_upsert_of_ne hx (hk p (by simp))) fun q hq => hk q (by simp [hq])

-- No key is lost.
theorem exists_mem_foldl_upsert (hx : x ∈ rows) :
    ∃ p ∈ ps.foldl (upsert key) rows, key p = key x ∧ (p = x ∨ p ∈ ps) := by
  induction ps generalizing rows x
  case nil => exact ⟨x, hx, rfl, .inl rfl⟩
  case cons r ps ih =>
    by_cases hk : key x = key r
    case pos =>
      have hr : r ∈ upsert key rows r := mem_upsert_self
      obtain ⟨p, hp, hkp, h⟩ := ih hr
      exact ⟨p, hp, hkp.trans hk.symm, .inr (h.elim (· ▸ List.mem_cons_self ..)
        (List.mem_cons_of_mem _))⟩
    case neg =>
      obtain ⟨p, hp, hkp, h⟩ := ih (mem_upsert_of_ne hx hk)
      exact ⟨p, hp, hkp, h.imp_right (List.mem_cons_of_mem _)⟩

-- If all rows are new versions of rows that are there, with the same `f`, then no `f` changes.
theorem map_foldl_upsert {γ : Type} {f : β → γ} (hf : ∀ {p q}, f p = f q → key p = key q)
    (hu : ∀ {q r}, q ∈ rows → r ∈ rows → key q = key r → f q = f r)
    (h : ∀ p ∈ ps, ∃ q ∈ rows, f q = f p) :
    (ps.foldl (upsert key) rows).map f = rows.map f := by
  induction ps generalizing rows
  case nil => rfl
  case cons p ps ih =>
    obtain ⟨q, hq, hqp⟩ := h p (by simp)
    have hm : (upsert key rows p).map f = rows.map f :=
      map_upsert (fun hr hk => (hu hr hq (hk.trans (hf hqp).symm)).trans hqp) ⟨q, hq, hf hqp⟩
    have back {r} (hr : r ∈ upsert key rows p) : ∃ s ∈ rows, f s = f r := by
      have := hm ▸ List.mem_map_of_mem (f := f) hr
      simpa using this
    rw [List.foldl_cons, ih, hm]
    · intro r s hr hs hk
      obtain ⟨r', hr', hfr⟩ := back hr
      obtain ⟨s', hs', hfs⟩ := back hs
      rw [← hfr, ← hfs]
      exact hu hr' hs' (by rw [hf hfr, hf hfs, hk])
    · intro r hr
      obtain ⟨s, hs, hsr⟩ := h r (by simp [hr])
      have := hm.symm ▸ List.mem_map_of_mem (f := f) hs
      obtain ⟨s', hs', hfs⟩ := List.mem_map.mp this
      exact ⟨s', hs', hfs.trans hsr⟩

end Fold
end Upsert

namespace Write

-- The row of a table that a write has, if it is a write to that table.

def peer? : Write → Option Peer
  | peer p => some p
  | _      => none

def operation? : Write → Option Operation
  | operation o => some o
  | _           => none

def job? : Write → Option Job
  | job j => some j
  | _     => none

def record? : Write → Option Record
  | record r => some r
  | _        => none

def profile? : Write → Option ProtocolProfile
  | profile p => some p
  | _         => none

def node? : Write → Option Node
  | node n => some n
  | _      => none

def pool? : Write → Option AddressPool
  | pool p => some p
  | _      => none

end Write

def peersOf (ws : List Write) : List Peer :=
  ws.filterMap Write.peer?

def jobsOf (ws : List Write) : List Job :=
  ws.filterMap Write.job?

def operationsOf (ws : List Write) : List Operation :=
  ws.filterMap Write.operation?

def recordsOf (ws : List Write) : List Record :=
  ws.filterMap Write.record?

section Rows

variable {ws ws' : List Write}

theorem mem_rows {β : Type} {row : Write → Option β} {write : β → Write}
    (h : ∀ x b, row x = some b ↔ x = write b) {b : β} : b ∈ ws.filterMap row ↔ write b ∈ ws := by
  simp [List.mem_filterMap, h]

@[simp]
theorem mem_peersOf {p : Peer} : p ∈ peersOf ws ↔ .peer p ∈ ws :=
  mem_rows fun x _ => by cases x <;> simp [Write.peer?]

@[simp]
theorem mem_jobsOf {j : Job} : j ∈ jobsOf ws ↔ .job j ∈ ws :=
  mem_rows fun x _ => by cases x <;> simp [Write.job?]

@[simp]
theorem mem_operationsOf {o : Operation} : o ∈ operationsOf ws ↔ .operation o ∈ ws :=
  mem_rows fun x _ => by cases x <;> simp [Write.operation?]

@[simp]
theorem mem_recordsOf {r : Record} : r ∈ recordsOf ws ↔ .record r ∈ ws :=
  mem_rows fun x _ => by cases x <;> simp [Write.record?]

@[simp]
theorem peersOf_append : peersOf (ws ++ ws') = peersOf ws ++ peersOf ws' :=
  List.filterMap_append

end Rows

section Replay

variable {db : DB} {ws : List Write}

-- A table to which rows are only appended.
theorem replay_appended {α : Type} (table : DB → List α) (row : Write → Option α)
    (h : ∀ db x, table (Write.apply db x) = table db ++ (row x).toList) :
    table (Transactions.replay db ws) = table db ++ ws.filterMap row := by
  unfold Transactions.replay
  induction ws generalizing db
  case nil => simp
  case cons x ws ih =>
    rw [List.foldl_cons, ih]
    change table (Write.apply db x) ++ _ = _
    rw [h]
    cases hx : row x <;> simp [hx]

theorem replay_peers :
    (Transactions.replay db ws).peers = (peersOf ws).foldl (upsert Peer.id) db.peers := by
  unfold Transactions.replay
  induction ws generalizing db
  case nil => rfl
  case cons x ws ih =>
    rw [List.foldl_cons, ih]
    cases x <;> rfl

theorem replay_tenants : (Transactions.replay db ws).tenants = db.tenants := by
  simpa using replay_appended DB.tenants (fun _ => none) fun _ x => by cases x <;> simp [Write.apply]

theorem replay_operations :
    (Transactions.replay db ws).operations = db.operations ++ operationsOf ws :=
  replay_appended _ _ fun _ x => by cases x <;> simp [Write.apply, Write.operation?]

theorem replay_outbox : (Transactions.replay db ws).outbox = db.outbox ++ jobsOf ws :=
  replay_appended _ _ fun _ x => by cases x <;> simp [Write.apply, Write.job?]

theorem replay_records : (Transactions.replay db ws).records = db.records ++ recordsOf ws :=
  replay_appended _ _ fun _ x => by cases x <;> simp [Write.apply, Write.record?]

theorem replay_profiles :
    (Transactions.replay db ws).profiles = db.profiles ++ ws.filterMap Write.profile? :=
  replay_appended _ _ fun _ x => by cases x <;> simp [Write.apply, Write.profile?]

theorem replay_nodes : (Transactions.replay db ws).nodes = db.nodes ++ ws.filterMap Write.node? :=
  replay_appended _ _ fun _ x => by cases x <;> simp [Write.apply, Write.node?]

-- A pool without its cursor, which is all of it that ever changes.
def poolOf (p : AddressPool) : UUID × UUID × UUID × Netip.Prefix :=
  (p.id, p.tenantID, p.nodeID, p.cidr)

theorem replay_pools :
    (Transactions.replay db ws).pools.map poolOf =
      db.pools.map poolOf ++ ws.filterMap (fun x => x.pool?.map poolOf) := by
  refine replay_appended (fun db => db.pools.map poolOf) _ fun db x => ?_
  cases x <;> simp [Write.apply, Write.pool?]
  case cursor id c => intro p _; split <;> rfl

end Replay
end Store
