import AwgRest.Invariant.Link

open Domain Netip Store

namespace ControlPlane

-- A table to which rows are only appended, with a unique index: an insert checks the index in what
-- its transaction sees, and the transaction holds the lock of the new value until it ends.
structure Table (α κ : Type) where
  rows   : DB → List α
  row    : Write → Option α
  key    : α → κ
  lock   : κ → Lock
  replay : ∀ {db ws}, rows (Transactions.replay db ws) = rows db ++ ws.filterMap row
  locks  : ∀ {x a}, row x = some a → lock (key a) ∈ Write.locks x
  insert : ∀ {db now id} {s : Stmt} {a : s.Answer} {b}, s.eval db now id = some (.ok a) →
    b ∈ (s.writes a).filterMap row → key b ∉ (rows db).map key
  auto   : ∀ {db now x} {s : Auto}, (rows (s.eval db now x).2).map key = (rows db).map key

namespace Table

variable {C : ControlPlane} {G : Guard} {w₀ w w' : World} {τ : List Ev} {pid q : Nat} {φ ψ : Local}
  {e : Eff} {r : Except Err e.Answer} {db db' : DB} {α κ : Type} (T : Table α κ)

def keys (db : DB) : List κ :=
  (T.rows db).map T.key

-- The keys that a process is about to add.
def added (φ : Local) : List κ :=
  (φ.writes.filterMap T.row).map T.key

variable {T}

theorem keys_view : T.keys (φ.view db) = T.keys db ++ T.added φ := by
  rw [keys, Local.view, T.replay, List.map_append]
  rfl

-- The keys of a table that an effect leaves behind.
theorem keys_change (h : Change C φ w e r db') :
    T.keys db' = T.keys w.db ∨ e = .commit ∧ T.keys db' = T.keys w.db ++ T.added φ := by
  cases h
  case commit => exact .inr ⟨rfl, keys_view⟩
  case auto   => exact .inl T.auto
  all_goals exact .inl rfl

theorem nodup_added_next (h : Change C φ w e r db') (hn : (T.keys w.db ++ T.added φ).Nodup) :
    (T.keys w.db ++ T.added (φ.next e r)).Nodup := by
  have same (hw : (φ.next e r).writes = φ.writes ∨ (φ.next e r).writes = []) :
      (T.keys w.db ++ T.added (φ.next e r)).Nodup := by
    rcases hw with hw | hw
    · rwa [added, hw]
    · rw [added, hw]
      simpa using (List.nodup_append.mp hn).1
  cases h
  case query    => exact same (.inl (by simp [Local.writes]))
  case auto     => exact same (.inl (by simp [Local.writes]))
  case commit   => exact same (.inr rfl)
  case aside ha => exact same (Local.writes_next_aside ha)
  case stmt t s a now id ht ha he =>
    rw [added, Local.writes_next_stmt ht, List.filterMap_append, List.map_append, ← List.append_assoc]
    refine List.nodup_append.mpr ⟨hn, ?_, ?_⟩
    · have hs : ((s.writes a).filterMap T.row).length ≤ 1 :=
        (List.length_filterMap_le ..).trans (Stmt.length_writes_le a)
      generalize (s.writes a).filterMap T.row = rows at hs
      rcases rows with _ | ⟨x, _ | ⟨y, rows⟩⟩
      · simp
      · simp
      · simp at hs
    · intro x hx y hy hxy
      subst hxy
      obtain ⟨b, hb, rfl⟩ := List.mem_map.mp hy
      exact T.insert he hb (by rw [← keys, keys_view]; exact hx)

-- No key is used twice, and no transaction is about to add one that is in use.
theorem nodup_of_trace (h : C.Trace G w₀ τ w) (hq : Quiet w₀) (h₀ : (T.keys w₀.db).Nodup) :
    (T.keys w.db).Nodup ∧ ∀ q ψ, C.locals τ q = some ψ → (T.keys w.db ++ T.added ψ).Nodup := by
  refine trace_invariant (Q := fun _ w => (T.keys w.db).Nodup)
    (P := fun _ w _ ψ => (T.keys w.db ++ T.added ψ).Nodup) hq h h₀ ?idle ?new ?act
  case idle => exact fun hi => ⟨fun h => hi.db ▸ h, fun q ψ h => hi.db ▸ h⟩
  case new  => exact fun h => by simpa [added, Local.writes] using h
  case act  =>
    intro τ w pid φ e r w' hs hn hl
    have hφ := hl pid φ hs.running
    rcases keys_change (T := T) hs.change with hk | ⟨rfl, hk⟩
    · rw [hk]
      exact ⟨hn, nodup_added_next hs.change hφ, fun q ψ _ hψ => hl q ψ hψ⟩
    · rw [hk]
      have hw : T.added (φ.next .commit r) = [] := by cases r <;> rfl
      refine ⟨hφ, by rwa [hw, List.append_nil], fun q ψ hne hψ => ?_⟩
      -- The other transaction holds the locks of its keys.
      have hd : ∀ x ∈ T.added φ, x ∉ T.added ψ := by
        intro x hx hy
        simp only [added, List.mem_map, List.mem_filterMap] at hx hy
        obtain ⟨a, ⟨u, hu, ha⟩, rfl⟩ := hx
        obtain ⟨b, ⟨v, hv, hb⟩, hk⟩ := hy
        exact hs.disjoint hne hψ hu hv (T.locks ha) (hk ▸ T.locks hb)
      obtain ⟨h₁, h₂, h₃⟩ := List.nodup_append.mp (hl q ψ hψ)
      refine List.nodup_append.mpr ⟨hφ, h₂, fun x hx y hy hxy => ?_⟩
      subst hxy
      rcases List.mem_append.mp hx with hx | hx
      · exact h₃ x hx x hy rfl
      · exact hd x hx hy

theorem nodup_step (hs : ActStep C G w₀ τ w pid φ e r w') (hq : Quiet w₀)
    (h₀ : (T.keys w₀.db).Nodup) :
    (T.keys w'.db).Nodup := by
  have ⟨hn, hl⟩ := nodup_of_trace hs.trace hq h₀
  rcases keys_change (T := T) hs.change with hk | ⟨_, hk⟩
  · exact hk ▸ hn
  · exact hk ▸ hl _ _ hs.running

-- A row is determined by its key.
theorem eq_of_key (h : (T.keys db).Nodup) {a b : α} (ha : a ∈ T.rows db) (hb : b ∈ T.rows db)
    (hk : T.key a = T.key b) : a = b :=
  List.inj_on_of_nodup_map h ha hb hk

-- The tables with rows that requests add.

def operations : Table Operation UUID where
  rows   := DB.operations
  row    := Write.operation?
  key    := Operation.id
  lock   := .operation
  replay := replay_operations
  locks  := fun {x a} h => by cases x <;> cases h; simp [Write.locks]
  insert := fun {db now id s a b} he hb => by
    have hb : .operation b ∈ s.writes a := mem_operationsOf.mp hb
    cases s <;> simp only [Stmt.writes, List.mem_singleton, List.mem_map, reduceCtorEq, and_false,
      exists_false, List.not_mem_nil, Write.operation.injEq] at hb
    case insertOperation =>
      have ⟨hu, _, ha⟩ := insert_ok he
      rw [hb, ha]
      simpa [Stmt.newOperation] using hu
  auto   := fun {db now x s} => by
    cases s
    case claimNext     => rw [Auto.eval]; split <;> rfl
    case opMarkApplied => exact Auto.map_updateOperation fun _ => rfl
    case opMarkFailed  => exact Auto.map_updateOperation fun _ => rfl
    all_goals rfl

def outbox : Table Job UUID where
  rows   := DB.outbox
  row    := Write.job?
  key    := Job.id
  lock   := .job
  replay := replay_outbox
  locks  := fun {x a} h => by cases x <;> cases h; simp [Write.locks]
  insert := fun {db now id s a b} he hb => by
    have hb : .job b ∈ s.writes a := mem_jobsOf.mp hb
    cases s <;> simp only [Stmt.writes, List.mem_singleton, List.mem_map, reduceCtorEq, and_false,
      exists_false, List.not_mem_nil, Write.job.injEq] at hb
    case insertJob =>
      have ⟨hu, _, ha⟩ := insert_ok he
      rw [hb, ha]
      simpa [Stmt.newJob] using hu
  auto   := fun {db now x s} => by
    cases s
    case claimNext     =>
      rw [Auto.eval]
      split
      · rfl
      · exact Auto.map_updateJob fun _ => rfl
    case complete      => exact Auto.map_updateJob fun _ => rfl
    case fail          => exact Auto.map_updateJob fun _ => rfl
    all_goals rfl

def records : Table Record (UUID × String) where
  rows   := DB.records
  row    := Write.record?
  key    := fun r => (r.tenantID, r.key)
  lock   := fun k => .record k.1 k.2
  replay := replay_records
  locks  := fun {x a} h => by cases x <;> cases h; simp [Write.locks]
  insert := fun {db now id s a b} he hb => by
    have hb : .record b ∈ s.writes a := mem_recordsOf.mp hb
    cases s <;> simp only [Stmt.writes, List.mem_singleton, List.mem_map, reduceCtorEq, and_false,
      exists_false, List.not_mem_nil, Write.record.injEq] at hb
    case storeRecord r =>
      have ⟨_, ht, _⟩ := insert_ok he
      rw [hb]
      simpa using ht
  auto   := fun {db now x s} => by rw [Auto.eval_frame]

-- The tables with rows that provisioning adds.

def profiles : Table ProtocolProfile UUID where
  rows   := DB.profiles
  row    := Write.profile?
  key    := ProtocolProfile.id
  lock   := .profile
  replay := replay_profiles
  locks  := fun {x a} h => by cases x <;> cases h; simp [Write.locks]
  insert := fun {db now id s a b} he hb => by
    obtain ⟨x, hx, hb⟩ := List.mem_filterMap.mp hb
    cases s <;> simp only [Stmt.writes, List.mem_singleton, List.mem_map, Option.mem_toList,
      List.not_mem_nil] at hx
    case insertProfile =>
      subst hx
      cases hb
      obtain ⟨hu, _, ha⟩ := insert_ok he
      rw [ha]
      simpa using hu
    all_goals
      first
      | subst hx; cases hb
      | obtain ⟨_, _, rfl⟩ := hx; cases hb
  auto   := fun {db now x s} => by rw [Auto.eval_frame]

def nodes : Table Node UUID where
  rows   := DB.nodes
  row    := Write.node?
  key    := Node.id
  lock   := .node
  replay := replay_nodes
  locks  := fun {x a} h => by cases x <;> cases h; simp [Write.locks]
  insert := fun {db now id s a b} he hb => by
    obtain ⟨x, hx, hb⟩ := List.mem_filterMap.mp hb
    cases s <;> simp only [Stmt.writes, List.mem_singleton, List.mem_map, Option.mem_toList,
      List.not_mem_nil] at hx
    case insertNode =>
      subst hx
      cases hb
      obtain ⟨hu, _, ha⟩ := insert_ok he
      rw [ha]
      simpa using hu
    all_goals
      first
      | subst hx; cases hb
      | obtain ⟨_, _, rfl⟩ := hx; cases hb
  auto   := fun {db now x s} => by rw [Auto.eval_frame]

-- Pools without their cursors, which are only ever added.
def pools : Table (UUID × UUID × UUID × Prefix) UUID where
  rows   := fun db => db.pools.map poolOf
  row    := fun x => x.pool?.map poolOf
  key    := Prod.fst
  lock   := .pool
  replay := replay_pools
  locks  := fun {x a} h => by
    cases x <;> cases h
    simp [Write.locks, poolOf]
  insert := fun {db now id s a b} he hb => by
    obtain ⟨x, hx, hb⟩ := List.mem_filterMap.mp hb
    cases s <;> simp only [Stmt.writes, List.mem_singleton, List.mem_map, Option.mem_toList,
      List.not_mem_nil] at hx
    case insertPool =>
      subst hx
      cases hb
      obtain ⟨hu, _, ha⟩ := insert_ok he
      rw [ha]
      simpa [poolOf] using hu
    all_goals
      first
      | subst hx; cases hb
      | obtain ⟨_, _, rfl⟩ := hx; cases hb
  auto   := fun {db now x s} => by rw [Auto.eval_frame]

end Table
end ControlPlane
