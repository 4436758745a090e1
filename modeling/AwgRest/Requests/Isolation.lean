import AwgRest.Requests.Answer

open Domain Store Auth

-- What a caller of one tenant sees of the rows of others.
namespace Api

variable {α : Type} {T i : UUID} {id tenant : α → UUID} {rows rows' : List α}

-- Two tables with the same rows of a tenant, and of which the other rows have the same keys and
-- owners.
structure SameRows (T : UUID) (id tenant : α → UUID) (rows rows' : List α) : Prop where
  unique  : (rows.map id).Nodup
  unique' : (rows'.map id).Nodup
  own     : ∀ a, tenant a = T → (a ∈ rows ↔ a ∈ rows')
  owners  : ∀ i t, (∃ a ∈ rows, id a = i ∧ tenant a = t) ↔ ∃ a ∈ rows', id a = i ∧ tenant a = t

theorem find?_id_iff (h : (rows.map id).Nodup) {a : α} :
    rows.find? (id · = i) = some a ↔ a ∈ rows ∧ id a = i := by
  constructor
  · intro hf
    exact ⟨List.mem_of_find?_eq_some hf, by simpa using List.find?_some hf⟩
  · rintro ⟨hm, rfl⟩
    cases hf : rows.find? (fun b => id b = id a)
    case none   => exact absurd (List.find?_eq_none.mp hf a hm) (by simp)
    case some b =>
      have hb : id b = id a := by simpa using List.find?_some hf
      rw [List.inj_on_of_nodup_map h (List.mem_of_find?_eq_some hf) hm hb]

theorem SameRows.find_owner (h : SameRows T id tenant rows rows') (i : UUID) :
    (rows.find? (id · = i)).map tenant = (rows'.find? (id · = i)).map tenant := by
  refine Option.ext fun t => ?_
  simp only [Option.map_eq_some_iff, find?_id_iff h.unique, find?_id_iff h.unique', and_assoc]
  exact h.owners i t

theorem SameRows.find_own (h : SameRows T id tenant rows rows') (i : UUID)
    (ht : (rows.find? (id · = i)).map tenant = some T) :
    rows.find? (id · = i) = rows'.find? (id · = i) := by
  obtain ⟨a, ha, hT⟩ := Option.map_eq_some_iff.mp ht
  obtain ⟨hm, hi⟩ := (find?_id_iff h.unique).mp ha
  rw [ha, (find?_id_iff h.unique').mpr ⟨(h.own a hT).mp hm, hi⟩]

-- Two databases between which a caller of the tenant should not be able to tell.
structure Alike (T : UUID) (db db' : DB) : Prop where
  tenants    : db.tenants = db'.tenants
  nodes      : db.nodes = db'.nodes
  profiles   : db.profiles = db'.profiles
  peers      : SameRows T Peer.id Peer.tenantID db.peers db'.peers
  operations : SameRows T Operation.id Operation.tenantID db.operations db'.operations

namespace Service

variable (s : Service) {db db' : DB} {p : Principal}

-- A caller who is no platform administrator is authorised for their own tenant only.
theorem authorizeTenant_foreign {t : UUID} {roles : List Role} (hp : ¬ p.hasRole .platformAdmin)
    (ht : t ≠ p.tenantID) : authorizeTenant (some p) t roles = .error (.sentinel .forbidden) := by
  have hn : p.tenantID = 0 ∨ p.tenantID ≠ t := .inr (Ne.symm ht)
  unfold authorizeTenant
  simp only [hp, hn, if_true, Bool.false_eq_true, if_false]
  split <;> rfl

theorem SameRows.find_cases (h : SameRows T id tenant rows rows') (i : UUID) :
    rows.find? (id · = i) = rows'.find? (id · = i) ∨
    ∃ a a', rows.find? (id · = i) = some a ∧ rows'.find? (id · = i) = some a' ∧
      tenant a ≠ T ∧ tenant a' ≠ T := by
  have ho := h.find_owner i
  cases ha : rows.find? (id · = i) <;> cases ha' : rows'.find? (id · = i) <;> rw [ha, ha'] at ho
  case none.none      => exact .inl rfl
  case none.some      => cases ho
  case some.none      => cases ho
  case some.some a a' =>
    have ho : tenant a = tenant a' := Option.some.inj ho
    by_cases ht : tenant a = T
    · exact .inl (ha' ▸ ha ▸ h.find_own i (by rw [ha, Option.map_some, ht]))
    · exact .inr ⟨a, a', rfl, rfl, ht, ho ▸ ht⟩

theorem readOperation_alike (hp : ¬ p.hasRole .platformAdmin) (h : Alike p.tenantID db db')
    (id : String) : s.readOperation db (some p) id = s.readOperation db' (some p) id := by
  unfold readOperation
  cases s.parseUUID id
  case none   => rfl
  case some i =>
    simp only [Query.eval]
    rcases SameRows.find_cases h.operations i with he | ⟨a, a', ha, ha', ht, ht'⟩
    · rw [he]
    · rw [ha, ha']
      simp only [Option.map_some, rowOf, ok_bind, authorizeTenant_foreign hp ht,
        authorizeTenant_foreign hp ht', error_bind]

theorem readPeer_alike (hp : ¬ p.hasRole .platformAdmin) (h : Alike p.tenantID db db')
    (slug id : String) : s.readPeer db (some p) slug id = s.readPeer db' (some p) slug id := by
  simp only [readPeer, Query.eval, h.tenants]
  cases db'.tenants.find? (·.slug = slug)
  case none        => rfl
  case some tenant =>
    simp only [rowOf, ok_bind]
    by_cases htn : tenant.id = p.tenantID
    case neg => rw [authorizeTenant_foreign hp htn]; rfl
    cases s.parseUUID id
    case none   => rfl
    case some i =>
      rcases SameRows.find_cases h.peers i with he | ⟨a, a', ha, ha', ht, ht'⟩
      · simp only [he]
      · simp only [ha, ha', ok_bind, htn, ht, ht', ne_eq, not_false_eq_true, if_true]

theorem readConfiguration_alike (hp : ¬ p.hasRole .platformAdmin) (h : Alike p.tenantID db db')
    (slug id : String) :
    s.readConfiguration db (some p) slug id = s.readConfiguration db' (some p) slug id := by
  simp only [readConfiguration, s.readPeer_alike hp h, Query.eval, h.nodes, h.profiles]

end Service
end Api
