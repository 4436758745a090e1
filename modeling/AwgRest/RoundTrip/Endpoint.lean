import AwgRest.Bootstrap
import AwgRest.Lib.Net
import AwgRest.Lib.Strconv

open Text Net

-- Endpoints of nodes: a host as an operator writes it becomes a host with a port.
namespace Bootstrap

-- The ways to write a host. What `Host.Valid` asks is true of every DNS name, IPv4 literal and IPv6
-- literal, and of no text that is both a name and an IPv6 literal.
inductive Host
  | name (text : List Char)
  | ipv6 (text : List Char)
  | bracketed (text : List Char)
deriving DecidableEq

namespace Host

def bare : Host → List Char
  | name s | ipv6 s | bracketed s => s

def text : Host → List Char
  | name s | ipv6 s => s
  | bracketed s     => '[' :: (s ++ [']'])

def Valid : Host → Prop
  | name s                => s ≠ [] ∧ Plain s ∧ ∀ c ∈ s, isSpace c = false
  | ipv6 s | bracketed s  => 2 ≤ s.count ':' ∧ Bracketless s ∧ ∀ c ∈ s, isSpace c = false

end Host

-- A host, maybe with a port, and white space around them.
structure Given where
  host   : Host
  port   : Option (List Char) := none
  before : List Char := []
  after  : List Char := []
deriving DecidableEq

namespace Given

def core (g : Given) : List Char :=
  g.host.text ++ g.port.elim [] (':' :: ·)

def text (g : Given) : String :=
  String.ofList (g.before ++ g.core ++ g.after)

structure Valid (g : Given) : Prop where
  host   : g.host.Valid
  port   : ∀ p ∈ g.port, p ≠ [] ∧ Plain p ∧ ∀ c ∈ p, isSpace c = false
  before : ∀ c ∈ g.before, isSpace c = true
  after  : ∀ c ∈ g.after, isSpace c = true

-- An IPv6 literal has brackets just in case it has a port.
def Delimited (g : Given) : Prop :=
  match g.host with
  | .name _      => True
  | .ipv6 _      => g.port = none
  | .bracketed _ => g.port ≠ none

end Given

-- `net.SplitHostPort` and `net.JoinHostPort` do what their documentation says.
structure HostPorts (b : Bootstrap) : Prop where
  splits : ∀ s, b.splitsHostPort s = (splitHostPort s.toList).isOk
  join   : ∀ host port, b.joinHostPort host port =
    String.ofList (Net.joinHostPort host.toList port.toList)

-- What is asked of an endpoint.
structure Usable (b : Bootstrap) (g : Given) (port : Int) : Prop where
  split  : splitHostPort (b.endpointWithPort g.text port).toList =
    .ok (g.host.bare, g.port.getD (toString port).toList)
  stable : ∀ q, b.endpointWithPort (b.endpointWithPort g.text port) q = b.endpointWithPort g.text port

-- `endpointWithPort` of a text without white space around it.
def endpoint (s : List Char) (port : Int) : List Char :=
  if (splitHostPort s).isOk then s else Net.joinHostPort s (toString port).toList

-- The host for which a second node is provisioned, unless the command line names one.
def endpointHost (text : List Char) : List Char :=
  let endpoint := Text.trimSpace text
  match splitHostPort endpoint with
  | .ok (host, _) => host
  | .error _      => endpoint

section Endpoints

variable {b : Bootstrap} {g : Given} {s t host p : List Char} {port : Int}

theorem endpointWithPort_eq (hb : HostPorts b) {text : String} (ht : Text.trimSpace text.toList = s)
    (hs : s ≠ []) : b.endpointWithPort text port = String.ofList (endpoint s port) := by
  have hne : String.ofList s ≠ "" := fun he => hs (by simpa using congrArg String.toList he)
  simp only [endpointWithPort, trimSpace, ht, if_neg hne, hb.splits, hb.join,
    String.toList_ofList, endpoint]
  split <;> rfl

theorem endpoint_of_ok (h : splitHostPort s = .ok (host, p)) : endpoint s port = s := by
  rw [endpoint, h]
  rfl

theorem endpoint_of_error {e : AddrError} (h : splitHostPort s = .error e) :
    endpoint s port = Net.joinHostPort s (toString port).toList := by
  rw [endpoint, h]
  rfl

-- An endpoint that can be split is kept, whatever the port.
theorem endpointWithPort_stable (hb : HostPorts b) (hs : ∀ c ∈ s, isSpace c = false)
    (h : splitHostPort s = .ok (host, p)) :
    b.endpointWithPort (String.ofList s) port = String.ofList s := by
  have hne : s ≠ [] := by
    rintro rfl
    cases h
  have ht : Text.trimSpace (String.ofList s).toList = s := by
    rw [String.toList_ofList]
    exact trimBy_eq_self hs
  rw [endpointWithPort_eq hb ht hne, endpoint_of_ok h]

-- The decimal digits of a port.
theorem toString_port (h : 0 ≤ port) :
    Plain (toString port).toList ∧ ∀ c ∈ (toString port).toList, isSpace c = false := by
  refine ⟨?_, fun c hc => isSpace_of_isGraph ((solid_toString_int port).2 c hc)⟩
  rw [Int.toString_eq_repr, Int.repr_eq_if, if_pos h, Nat.repr_eq_ofList_toDigits,
    String.toList_ofList]
  intro c hc
  have hd := Strconv.isDigit_toDigits c hc
  refine ⟨?_, ?_, ?_⟩ <;> rintro rfl <;> exact absurd hd (by decide)

theorem Host.Valid.isSpace_text {h : Host} (hv : h.Valid) : ∀ c ∈ h.text, isSpace c = false := by
  cases h
  case name | ipv6 => exact hv.2.2
  case bracketed s =>
    intro c hc
    rcases List.mem_cons.mp hc with rfl | hc
    · decide
    · rcases List.mem_append.mp hc with hc | hc
      · exact hv.2.2 c hc
      · rw [List.mem_singleton.mp hc]
        decide

theorem Host.Valid.text_ne_nil {h : Host} (hv : h.Valid) : h.text ≠ [] := by
  cases h
  case name s => exact hv.1
  case ipv6 s =>
    rintro rfl
    exact absurd hv.1 (by decide)
  case bracketed s => exact List.cons_ne_nil _ _

theorem isSpace_endpoint (hs : ∀ c ∈ s, isSpace c = false) (hp : 0 ≤ port) :
    ∀ c ∈ endpoint s port, isSpace c = false := by
  have hport := (toString_port hp).2
  intro c hc
  unfold endpoint Net.joinHostPort at hc
  split at hc
  case isTrue  => exact hs c hc
  case isFalse =>
    split at hc <;> simp only [List.mem_cons, List.mem_append] at hc
    case isTrue =>
      rcases hc with rfl | hc | rfl | rfl | hc
      · decide
      · exact hs c hc
      · decide
      · decide
      · exact hport c hc
    case isFalse =>
      rcases hc with hc | rfl | hc
      · exact hs c hc
      · decide
      · exact hport c hc

-- A host alone is not split, also where it is an IPv6 literal.
theorem Host.Valid.not_split {h : Host} (hv : h.Valid) : ∃ e, splitHostPort h.bare = .error e := by
  cases h
  case name s => exact ⟨_, splitHostPort_missing hv.2.1.not_mem.1⟩
  case ipv6 s | bracketed s =>
    have hhead : s.head? ≠ some '[' := fun hh => hv.2.1.not_mem.1 (List.mem_of_mem_head? hh)
    exact ⟨_, splitHostPort_tooManyColons hhead hv.1⟩

theorem Host.Valid.split_endpoint {h : Host} (hv : h.Valid) (hp : 0 ≤ port) :
    splitHostPort (endpoint h.bare port) = .ok (h.bare, (toString port).toList) := by
  obtain ⟨e, he⟩ := hv.not_split
  rw [endpoint_of_error he, Net.joinHostPort]
  cases h
  case name s =>
    rw [Host.bare, if_neg hv.2.1.not_mem.1]
    exact splitHostPort_plain hv.2.1 (toString_port hp).1
  case ipv6 s | bracketed s =>
    have hcolon : ':' ∈ s := List.count_pos_iff.mp (Nat.lt_of_lt_of_le (by decide) hv.1)
    rw [Host.bare, if_pos hcolon]
    exact splitHostPort_bracketed hv.2.1 (toString_port hp).1

namespace Given

theorem isSpace_core (h : g.Valid) : ∀ c ∈ g.core, isSpace c = false := by
  intro c hc
  rcases List.mem_append.mp hc with hc | hc
  · exact h.host.isSpace_text c hc
  · cases hp : g.port
    case none   => simp [hp] at hc
    case some p =>
      rw [hp, Option.elim_some, List.mem_cons] at hc
      rcases hc with rfl | hc
      · decide
      · exact (h.port p hp).2.2 c hc

theorem core_ne_nil (h : g.Valid) : g.core ≠ [] :=
  List.append_ne_nil_of_left_ne_nil h.host.text_ne_nil _

theorem trimSpace_text (h : g.Valid) : Text.trimSpace g.text.toList = g.core := by
  rw [text, String.toList_ofList, trimSpace_blanks h.before h.after]
  exact trimBy_eq_self (isSpace_core h)

theorem endpointWithPort_text (hb : HostPorts b) (h : g.Valid) :
    b.endpointWithPort g.text port = String.ofList (endpoint g.core port) :=
  endpointWithPort_eq hb (trimSpace_text h) (core_ne_nil h)

-- Whether an endpoint is usable is a matter of how it is split.
theorem usable_iff (hb : HostPorts b) (h : g.Valid) (hp : 0 ≤ port) :
    Usable b g port ↔
      splitHostPort (endpoint g.core port) = .ok (g.host.bare,
        g.port.getD (toString port).toList) := by
  have htext : b.endpointWithPort g.text port = String.ofList (endpoint g.core port) :=
    endpointWithPort_text hb h
  constructor
  · intro hu
    have hsplit := hu.split
    rwa [htext, String.toList_ofList] at hsplit
  · intro hs
    constructor
    · rw [htext, String.toList_ofList, hs]
    · intro q
      rw [htext]
      exact endpointWithPort_stable hb (isSpace_endpoint (isSpace_core h) hp) hs

-- A host with a port is split as it stands.
theorem split_core (h : g.Valid) (hd : g.Delimited) (hq : g.port = some p) :
    splitHostPort g.core = .ok (g.host.bare, p) := by
  have hv := h.host
  have hp := (h.port p hq).2.1
  rw [core, hq, Option.elim_some]
  unfold Delimited at hd
  cases hg : g.host <;> rw [hg] at hd hv
  case name s => exact splitHostPort_plain hv.2.1 hp
  case ipv6 s => exact absurd (hd.symm.trans hq) nofun
  case bracketed s =>
    have hsplit := splitHostPort_bracketed hv.2.1 hp
    simpa [Host.text, Host.bare] using hsplit

theorem core_eq_bare (hd : g.Delimited) (hq : g.port = none) : g.core = g.host.bare := by
  unfold Delimited at hd
  rw [core, hq, Option.elim_none, List.append_nil]
  cases hg : g.host <;> rw [hg] at hd
  case name | ipv6 => rfl
  case bracketed   => exact absurd hq hd

theorem split_endpoint (h : g.Valid) (hd : g.Delimited) (hp : 0 ≤ port) :
    splitHostPort (endpoint g.core port) = .ok (g.host.bare, g.port.getD (toString port).toList) := by
  cases hq : g.port
  case none   => rw [core_eq_bare hd hq, h.host.split_endpoint hp, Option.getD_none]
  case some p => rw [endpoint_of_ok (split_core h hd hq), split_core h hd hq, Option.getD_some]

-- A port after an IPv6 literal without brackets counts as a part of it.
theorem split_ipv6 (h : g.Valid) (hp : 0 ≤ port) (hg : g.host = .ipv6 host) (hq : g.port = some p) :
    splitHostPort (endpoint g.core port) = .ok (host ++ ':' :: p, (toString port).toList) := by
  have hv : (Host.ipv6 host).Valid := hg ▸ h.host
  have hcore : g.core = host ++ ':' :: p := by rw [core, hg, hq, Host.text, Option.elim_some]
  obtain ⟨hcount, hbrackets, -⟩ := hv
  have hlonger : (Host.ipv6 (host ++ ':' :: p)).Valid := by
    refine ⟨?_, ?_, hcore ▸ isSpace_core h⟩
    · rw [List.count_append]
      exact Nat.le_add_right_of_le hcount
    · intro c hc
      rcases List.mem_append.mp hc with hc | hc
      · exact hbrackets c hc
      · rcases List.mem_cons.mp hc with rfl | hc
        · decide
        · exact ((h.port p hq).2.1 c hc).2
  rw [hcore]
  exact hlonger.split_endpoint hp

-- Brackets without a port count as a part of the host, which gets another pair of them.
theorem split_brackets_only (h : g.Valid) (hp : 0 ≤ port) (hg : g.host = .bracketed host)
    (hq : g.port = none) : splitHostPort (endpoint g.core port) = .error .missingPort := by
  have hv : (Host.bracketed host).Valid := hg ▸ h.host
  have hcore : g.core = '[' :: (host ++ [']']) := by simp [core, hg, hq, Host.text]
  have hclose : ']' ∉ host := hv.2.1.not_mem.2
  have hcolon : ':' ∈ '[' :: (host ++ [']']) := by
    have hm : ':' ∈ host := List.count_pos_iff.mp (Nat.lt_of_lt_of_le (by decide) hv.1)
    simp [hm]
  rw [hcore, endpoint_of_error (splitHostPort_no_port hclose), Net.joinHostPort, if_pos hcolon]
  have htwice := splitHostPort_twice hclose (toString_port hp).1.not_mem.1
  simpa using htwice

theorem endpointHost_text (h : g.Valid) (hd : g.Delimited) :
    endpointHost g.text.toList = g.host.bare := by
  rw [endpointHost, trimSpace_text h]
  cases hq : g.port
  case some p => simp only [split_core h hd hq]
  case none   =>
    obtain ⟨e, he⟩ := h.host.not_split
    simp only [core_eq_bare hd hq, he]

end Given

-- So the new node gets the host of the old one with a port of its own.
theorem endpointWithPort_endpointHost (hb : HostPorts b) (h : g.Valid) (hd : g.Delimited)
    (hp : 0 ≤ port) :
    splitHostPort (b.endpointWithPort (String.ofList (endpointHost g.text.toList)) port).toList =
      .ok (g.host.bare, (toString port).toList) := by
  have hspace : ∀ c ∈ g.host.bare, isSpace c = false := by
    have hv := h.host
    cases hg : g.host <;> rw [hg] at hv <;> exact hv.2.2
  have hne : g.host.bare ≠ [] := by
    have hv := h.host
    cases hg : g.host <;> rw [hg] at hv
    case name s => exact hv.1
    case ipv6 s | bracketed s =>
      rintro rfl
      exact absurd hv.1 (by decide)
  have htrim : Text.trimSpace (String.ofList (endpointHost g.text.toList)).toList = g.host.bare := by
    rw [String.toList_ofList, Given.endpointHost_text h hd]
    exact trimBy_eq_self hspace
  rw [endpointWithPort_eq hb htrim hne, String.toList_ofList, h.host.split_endpoint hp]

end Endpoints

-- An endpoint is usable for names, and for IPv6 literals that have brackets just in case they have
-- a port.
theorem endpointWithPort_usable_iff (b : Bootstrap) (hb : HostPorts b) (g : Given) (h : g.Valid)
    (port : Int) (hport : 1 ≤ port ∧ port ≤ 65535) : Usable b g port ↔ g.Delimited := by
  have hp : 0 ≤ port := Int.le_trans (by decide) hport.1
  rw [Given.usable_iff hb h hp]
  refine ⟨fun hs => ?_, fun hd => Given.split_endpoint h hd hp⟩
  unfold Given.Delimited
  cases hg : g.host
  case name host => trivial
  case ipv6 host =>
    cases hq : g.port
    case none   => rfl
    case some p =>
      rw [Given.split_ipv6 h hp hg hq, hg] at hs
      simp [Host.bare] at hs
  case bracketed host =>
    intro hq
    rw [Given.split_brackets_only h hp hg hq] at hs
    cases hs

-- Provisioning with these two functions, which is all that endpoints need.
def hostPortsOnly : Bootstrap where
  parsePrefix    := fun _ => .error (.new "no prefixes")
  join           := fun dir _ => dir
  splitsHostPort := fun s => (splitHostPort s.toList).isOk
  joinHostPort   := fun host port => String.ofList (Net.joinHostPort host.toList port.toList)
  quote          := fun s => s

theorem hostPorts_only : HostPorts hostPortsOnly where
  splits _ := rfl
  join _ _ := rfl

theorem endpointWithPort_usable_sample :
    Usable hostPortsOnly
        { host := .bracketed "2001:db8::1".toList, port := some "4444".toList, after := ['\n'] }
      51820 := by
  refine (endpointWithPort_usable_iff _ hostPorts_only _ ?_ _ (by decide)).mpr nofun
  constructor
  · exact ⟨by decide, forall_of_all (by decide), forall_of_all (by decide)⟩
  · simp only [Option.mem_def, Option.some.injEq, forall_eq']
    exact ⟨by decide, forall_of_all (by decide), forall_of_all (by decide)⟩
  · exact nofun
  · exact forall_of_all (by decide)

-- An IPv6 literal in brackets without a port gets a second pair of brackets.
theorem endpoint_brackets_doubled :
    let g : Given := { host := .bracketed "2001:db8::1".toList }
    g.Valid ∧ g.text = "[2001:db8::1]" ∧
    hostPortsOnly.endpointWithPort "[2001:db8::1]" 51820 = "[[2001:db8::1]]:51820" ∧
    splitHostPort "[[2001:db8::1]]:51820".toList = .error .missingPort ∧
    ¬ Usable hostPortsOnly g 51820 := by
  intro g
  have htext : g.text = "[2001:db8::1]" := by decide +kernel
  have he : hostPortsOnly.endpointWithPort "[2001:db8::1]" 51820 = "[[2001:db8::1]]:51820" := by
    decide +kernel
  have hsplit : splitHostPort "[[2001:db8::1]]:51820".toList = .error .missingPort := by
    decide +kernel
  have hhost : g.host.Valid := ⟨by decide, forall_of_all (by decide), forall_of_all (by decide)⟩
  refine ⟨⟨hhost, nofun, nofun, nofun⟩, htext, he, hsplit, ?_⟩
  intro hu
  have hok := hu.split
  rw [htext, he, hsplit] at hok
  cases hok

end Bootstrap
