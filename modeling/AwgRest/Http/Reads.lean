import AwgRest.Http
import AwgRest.Invariant.Link

open Domain Store Auth Api Fallible Repo

namespace ControlPlane

theorem inert_query (C : ControlPlane) (q : Query) : C.system.Inert (.query q) := by
  intro x pid w r w' h
  have ha : World.Acts pid w (.query q) r w' := World.acts_of_exec (c := x) h
  cases ha
  case failed    => rfl
  case query     => rfl
  case silent hs => cases hs

end ControlPlane

namespace Http

-- The answers that a process has received.
abbrev Heard := List (Sigma (Sum.elim Reply Need.Answer))

def Saw (l : Heard) (q : Query) (a : q.Answer) : Prop :=
  ⟨.inl (.query q), .ok a⟩ ∈ l

theorem Saw.mono {l l' : Heard} {q : Query} {a : q.Answer} (h : Saw l q a)
    (hl : l <+: l') : Saw l' q a :=
  hl.subset h

-- The reading methods of the service do nothing but queries. What they return, they have read.
section Looks

variable {C : ControlPlane} {α β : Type} {P : Heard → α → Prop} {l : Heard}

def Yields (P : Heard → α → Prop) (l : Heard) : Except Err α → Prop
  | .ok a    => P l a
  | .error _ => True

def Looks (C : ControlPlane) (P : Heard → α → Prop) (l : Heard) (x : Act α) : Prop :=
  x.run.Follows (C.system.looking Need.Answer) (Yields P) l

theorem looks_pure {a : α} (h : P l a) : Looks C P l (pure a : Act α) :=
  h

theorem looks_throw (e : Err) : Looks C P l (throw e : Act α) :=
  trivial

theorem looks_bind {P' : Heard → β → Prop} {x : Act α} {f : α → Act β} (hx : Looks C P l x)
    (hf : ∀ l a, P l a → Looks C P' l (f a)) : Looks C P' l (x >>= f) := by
  refine follows_bind_of (hx.mono fun l r hr => ?_)
  cases r
  case error => trivial
  case ok a  => exact hf l a hr

theorem looks_query {q : Query} {f : q.Answer → Act α}
    (hf : ∀ a, Looks C P (l ++ [⟨.inl (.query q), .ok a⟩]) (f a)) : Looks C P l (query q >>= f) :=
  follows_call_bind.mpr ⟨C.inert_query q, fun a _ => hf a, fun _ _ => trivial⟩

theorem looks_row {o : Option β} {f : β → Act α} (hf : ∀ b, o = some b → Looks C P l (f b)) :
    Looks C P l (row o >>= f) :=
  follows_bind_of (follows_row (fun {b} hb => hf b hb) trivial)

theorem looks_check {x : Except Err β} {f : β → Act α} (hf : ∀ b, x = .ok b → Looks C P l (f b)) :
    Looks C P l (check x >>= f) :=
  follows_bind_of (follows_check (fun {b} hb => hf b hb) fun _ => trivial)

end Looks

-- What a caller can be shown.

def SawPeer (caller : Option Principal) (l : Heard) (peer : Peer) : Prop :=
  (∃ id, Saw l (.peerByID id) (some peer)) ∧ authorizeTenant caller peer.tenantID Service.readers = .ok ()

def SawOperation (caller : Option Principal) (l : Heard) (op : Operation) : Prop :=
  (∃ id, Saw l (.operationByID id) (some op)) ∧
    authorizeTenant caller op.tenantID Service.readers = .ok ()

-- The rows that a configuration is made of may have been read at different times.
def SawConfiguration (s : Service) (caller : Option Principal) (l : Heard)
    (text : List Char) : Prop :=
  ∃ peer node profile, SawPeer caller l peer ∧ (∃ id, Saw l (.nodeByID id) (some node)) ∧
    (∃ id, Saw l (.profileByID id) (some profile)) ∧ text = s.skeleton peer node profile

section Methods

variable {C : ControlPlane} {s : Service} {caller : Option Principal} {l : Heard}

theorem looks_getPeer (slug id : String) : Looks C (SawPeer caller) l (s.getPeer caller slug id) := by
  refine looks_query fun _ => looks_row fun tenant _ => looks_check fun _ ha => ?_
  cases s.parseUUID id
  case none   => exact looks_throw _
  case some i =>
    refine looks_query fun _ => looks_row fun p hp => ?_
    split
    case isTrue     => exact looks_throw _
    case isFalse ht =>
      have ht : p.tenantID = tenant.id := not_not.mp ht
      exact looks_pure ⟨⟨i, hp ▸ List.mem_append_right _ (List.mem_singleton_self _)⟩, ht ▸ ha⟩

theorem looks_peerConfiguration (slug id : String) :
    Looks C (SawConfiguration s caller) l (s.peerConfiguration caller slug id) := by
  refine looks_bind (looks_getPeer slug id) fun l peer hpeer => looks_query fun _ =>
    looks_row fun node hn => ?_
  cases node.profileID
  case none   => exact looks_throw _
  case some i =>
    refine looks_query fun _ => looks_row fun profile hp => looks_pure ?_
    obtain ⟨⟨j, hj⟩, ha⟩ := hpeer
    refine ⟨peer, node, profile, ⟨⟨j, hj.mono ?_⟩, ha⟩, ⟨peer.nodeID, ?_⟩, ⟨i, ?_⟩, rfl⟩
    · simp
    · simp [Saw, hn]
    · simp [Saw, hp]

theorem looks_getOperation (id : String) :
    Looks C (SawOperation caller) l (s.getOperation caller id) := by
  unfold Service.getOperation
  cases s.parseUUID id
  case none   => exact looks_throw _
  case some i =>
    refine looks_query fun _ => looks_row fun op ho => looks_check fun _ ha =>
      looks_pure ⟨⟨i, ?_⟩, ha⟩
    exact ho ▸ List.mem_append_right _ (List.mem_singleton_self _)

end Methods
end Http
