import AwgRest.Invariant.Addresses
import AwgRest.Lib.Text

open Domain Netip Store Ipam

namespace Netip.Addr

variable {m n k v v' : Nat} {s t : List Char}

-- Numbers that are followed by the same separator can be told apart.
theorem toDigits_append_inj {c : Char} (hc : c.isDigit = false)
    (h : Nat.toDigits 10 m ++ c :: s = Nat.toDigits 10 n ++ c :: t) : m = n ∧ s = t := by
  have hm (k : Nat) : c ∉ Nat.toDigits 10 k := fun hk => by
    simp [Nat.isDigit_of_mem_toDigits (by decide) (by decide) hk] at hc
  have hcut := congrArg (Text.cut c) h
  rw [Text.cut_append_cons (hm m), Text.cut_append_cons (hm n)] at hcut
  simp only [Option.some.injEq, Prod.mk.injEq] at hcut
  refine ⟨?_, hcut.2⟩
  have hn := congrArg (Nat.ofDigitChars 10 · 0) hcut.1
  simpa only [Nat.ofDigitChars_ten_toDigits] using hn

theorem string4_inj
    (h : string4 v ++ "/" ++ toString n = string4 v' ++ "/" ++ toString n) : v = v' := by
  have h := congrArg String.toList h
  simp only [string4, String.toList_append, Nat.toString_eq_ofList_toDigits, String.toList_ofList,
    List.append_assoc] at h
  obtain ⟨h₁, h⟩ := toDigits_append_inj (c := '.') rfl h
  obtain ⟨h₂, h⟩ := toDigits_append_inj (c := '.') rfl h
  obtain ⟨h₃, h⟩ := toDigits_append_inj (c := '.') rfl h
  obtain ⟨h₄, -⟩ := toDigits_append_inj (c := '/') rfl h
  omega

end Netip.Addr

namespace ControlPlane

open Repo.Peers

variable {C : ControlPlane} {w₀ : World} {τ : List Ev} {c : Conf} {pool : AddressPool} {s : String}

-- The address of the server is the one after the network address.
theorem serverAddressFromPool_ok {cidr : Prefix} (h : Bootstrap.serverAddressFromPool cidr = .ok s) :
    cidr.addr.family = .v4 ∧
    s = Addr.string4 (cidr.masked.addr.val + 1) ++ "/" ++ toString cidr.bits := by
  simp only [Bootstrap.serverAddressFromPool] at h
  split at h <;> try cases h
  case isFalse h₄ =>
    have hf : cidr.addr.family = .v4 := by
      simp only [Bool.not_eq_true', Bool.not_eq_false, Addr.is4] at h₄
      exact of_decide_eq_true h₄
    split at h <;> cases h
    case _ a ha =>
      obtain ⟨hn, -⟩ := Option.filter_eq_some_iff.mp ha
      simp only [Addr.next] at hn
      split at hn <;> cases hn
      exact ⟨hf, by simp [Addr.string, hf]⟩

-- What is in a configuration is not the address of a peer that is placed in a pool shorter than /31.
theorem Assignable.ne_server {cidr : Prefix} {a : Addr} (ha : Assignable cidr a) (hb : cidr.bits < 31)
    (hs : Bootstrap.serverAddressFromPool cidr = .ok s) :
    a.string ++ "/" ++ toString cidr.bits ≠ s := by
  obtain ⟨hf, rfl⟩ := serverAddressFromPool_ok hs
  have haf : a.family = .v4 := ((Prefix.masked_contains_iff.mp ha.contains).1).trans hf
  intro h
  simp only [Addr.string, haf] at h
  exact ha.gateway ⟨hf, hb⟩ (Addr.string4_inj h)

theorem server_address_kept (hq : Quiet w₀) (h₀ : w₀.db.peers = []) (h : C.Runs unguarded w₀ τ c)
    (hone : ∀ q ∈ c.world.db.pools, q.tenantID = pool.tenantID → q.nodeID = pool.nodeID →
      q.cidr = pool.cidr)
    (hs : Bootstrap.serverAddressFromPool pool.cidr = .ok s) (hb : pool.cidr.bits < 31) :
    ∀ p ∈ c.world.db.peers, p.tenantID = pool.tenantID → p.nodeID = pool.nodeID →
      p.allowedIP.string ++ "/" ++ toString pool.cidr.bits ≠ s := by
  intro p hp ht hn
  obtain ⟨q, hq, hqt, hqn, ha⟩ := placed_of_trace h.trace hq h₀ p hp
  have hc : q.cidr = pool.cidr := hone q hq (hqt.trans ht) (hqn.trans hn)
  exact Assignable.ne_server (hc ▸ ha) hb hs

theorem server_address_kept_sample :
    ∃ τ c, Sample.plane.Runs unguarded Sample.world τ c ∧
      Bootstrap.serverAddressFromPool Sample.pool.cidr = .ok "10.0.0.1/29" ∧
      c.world.db.peers.map (fun p => p.allowedIP.string) = ["10.0.0.2", "10.0.0.3"] ∧
      ∀ p ∈ c.world.db.peers, p.tenantID = 4 → p.nodeID = 2 →
        p.allowedIP.string ++ "/" ++ toString 29 ≠ "10.0.0.1/29" := by
  have h : ((Sample.plane.system.playAll (boot Sample.world)
      (Sample.insert 0 (Sample.params "x" "a") 10 ++ Sample.withdraw 1 10 ++
        Sample.insert 2 (Sample.params "y" "b") 11)).map fun r => decide (
      r.2.world.db.peers.map (fun p => p.allowedIP.string) = ["10.0.0.2", "10.0.0.3"] ∧
      ∀ q ∈ r.2.world.db.pools, q.tenantID = 4 → q.nodeID = 2 → q.cidr = Sample.pool.cidr)) =
      some true := by decide +kernel
  obtain ⟨⟨τ, c⟩, hp, hs⟩ := Option.map_eq_some_iff.mp h
  obtain ⟨hips, hone⟩ := of_decide_eq_true hs
  have hr : Sample.plane.Runs unguarded Sample.world τ c := System.playAll_run hp
  have hsrv : Bootstrap.serverAddressFromPool Sample.pool.cidr = .ok "10.0.0.1/29" := by
    decide +kernel
  exact ⟨τ, c, hr, hsrv, hips,
    @server_address_kept _ _ _ _ Sample.pool _ ⟨fun _ => rfl, rfl⟩ rfl hr hone hsrv (by decide)⟩

-- A pool of two addresses, of which the server has the second one.
def Sample.pair : World :=
  { world with
    db := { world.db with pools := [{ Sample.pool with cidr := ⟨Sample.pool.cidr.addr, 31, by decide⟩ }] } }

theorem peer_gets_server_address :
    ∃ τ c, Sample.plane.Runs unguarded Sample.pair τ c ∧
      ∃ pool ∈ c.world.db.pools, ∃ p ∈ c.world.db.peers,
        p.tenantID = pool.tenantID ∧ p.nodeID = pool.nodeID ∧
        Bootstrap.serverAddressFromPool pool.cidr =
          .ok (p.allowedIP.string ++ "/" ++ toString pool.cidr.bits) := by
  have h : ((Sample.plane.system.playAll (boot Sample.pair)
      (Sample.insert 0 (Sample.params "x" "a") 10 ++ Sample.insert 1 (Sample.params "y" "b") 11)).map
      fun r => decide (∃ pool ∈ r.2.world.db.pools, ∃ p ∈ r.2.world.db.peers,
        p.tenantID = pool.tenantID ∧ p.nodeID = pool.nodeID ∧
        Bootstrap.serverAddressFromPool pool.cidr =
          .ok (p.allowedIP.string ++ "/" ++ toString pool.cidr.bits))) =
            some true := by decide +kernel
  obtain ⟨⟨τ, c⟩, hp, hs⟩ := Option.map_eq_some_iff.mp h
  exact ⟨τ, c, System.playAll_run hp, of_decide_eq_true hs⟩

end ControlPlane
