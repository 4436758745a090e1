import AwgRest.NodeAgent
import AwgRest.RoundTrip.PrivateKey

open Domain Store Text Fake Awg Fallible

-- What the configuration that an agent shows still says, and what it hides.
namespace NodeAgent

section Lines

variable {k l v : List Char} {key sect : String} {ls : List (List Char)}

theorem trimSpace_assignment :
    trimSpace (k ++ '=' :: v) = k.dropWhile isSpace ++ '=' :: v.rdropWhile isSpace := by
  have hd : (k ++ '=' :: v).dropWhile isSpace = k.dropWhile isSpace ++ '=' :: v := by
    rw [List.dropWhile_append]
    split
    case isTrue h  => rw [List.isEmpty_iff.mp h, List.dropWhile_cons_of_neg (by decide), List.nil_append]
    case isFalse h => rfl
  rw [trimSpace, trimBy, hd, rdropWhile_append_cons (by decide)]

theorem cut_trimSpace (h : '=' ∉ k) :
    cut '=' (trimSpace (k ++ '=' :: v)) = some (k.dropWhile isSpace, v.rdropWhile isSpace) := by
  rw [trimSpace_assignment, cut_append_cons fun hm => h ((List.dropWhile_sublist _).mem hm)]

theorem trimSpace_dropWhile : trimSpace (k.dropWhile isSpace) = trimSpace k := by
  rw [trimSpace, trimBy, List.dropWhile_idempotent]
  rfl

-- The line that a secret becomes is an assignment to the same key.
def redactedKey (k : List Char) : List Char :=
  k.rdropWhile (fun c => c = ' ' ∨ c = '\t') ++ [' ']

theorem trimSpace_redactedKey : trimSpace (redactedKey k) = trimSpace k := by
  rw [redactedKey, trimSpace, trimBy_concat_pos (by decide)]
  induction k using List.reverseRecOn
  case nil => rfl
  case append_singleton k c ih =>
    rw [List.rdropWhile_concat]
    split
    case isFalse h => rfl
    case isTrue h  =>
      have hc : isSpace c = true := by
        rcases of_decide_eq_true h with rfl | rfl <;> decide
      exact ih.trans (trimBy_concat_pos hc).symm

theorem isSecretKey_redactedKey : isSecretKey (redactedKey k) = isSecretKey k := by
  rw [isSecretKey, trimSpace_redactedKey]
  rfl

theorem redactedKey_no_eq (h : '=' ∉ k) : '=' ∉ redactedKey k := by
  simp only [redactedKey, List.mem_append, not_or]
  exact ⟨fun hm => h ((List.rdropWhile_prefix _ _).subset hm), by decide⟩

theorem redactLine_plain (h : '=' ∉ l) : redactLine l = l := by
  rw [redactLine, cut_eq_none h]

theorem isSecretConfigLine_assignment (h : '=' ∉ k) :
    isSecretConfigLine (k ++ '=' :: v) = isSecretKey k := by
  rw [isSecretConfigLine, cut_append_cons h]
  rfl

theorem redactLine_secret (h : '=' ∉ k) (hs : isSecretKey k = true) :
    redactLine (k ++ '=' :: v) = redactedKey k ++ '=' :: " (redacted)".toList := by
  rw [redactLine, isSecretConfigLine_assignment h, cut_append_cons h]
  simp [hs, redactedKey]

theorem redactLine_open (h : '=' ∉ k) (hs : isSecretKey k = false) :
    redactLine (k ++ '=' :: v) = k ++ '=' :: v := by
  rw [redactLine, isSecretConfigLine_assignment h, cut_append_cons h]
  simp [hs]

-- The kinds of lines, by what redaction does to them.
theorem redactLine_cases (l : List Char) :
    ('=' ∉ l ∧ redactLine l = l) ∨
      ∃ k v, l = k ++ '=' :: v ∧ '=' ∉ k ∧
        (isSecretKey k = true ∧ redactLine l = redactedKey k ++ '=' :: " (redacted)".toList ∨
          isSecretKey k = false ∧ redactLine l = l) := by
  by_cases h : '=' ∈ l
  case neg => exact .inl ⟨h, redactLine_plain h⟩
  case pos =>
    obtain ⟨k, v, rfl, hk⟩ := List.eq_append_cons_of_mem h
    refine .inr ⟨k, v, rfl, hk, ?_⟩
    cases hs : isSecretKey k
    case true  => exact .inl ⟨rfl, redactLine_secret hk hs⟩
    case false => exact .inr ⟨rfl, redactLine_open hk hs⟩

theorem redactLine_no_break (h : '\n' ∉ l) : '\n' ∉ redactLine l := by
  rcases redactLine_cases l with ⟨-, he⟩ | ⟨k, v, rfl, -, ⟨-, he⟩ | ⟨-, he⟩⟩
  · rwa [he]
  · rw [he, redactedKey]
    simp only [List.mem_append, not_or] at h ⊢
    exact ⟨⟨fun hm => h.1 ((List.rdropWhile_prefix _ _).subset hm), by decide⟩, by decide⟩
  · rwa [he]

-- An assignment to a secret key is neither a comment nor a header.
theorem head_of_secret (hs : isSecretKey k = true) :
    ∃ c s, k.dropWhile isSpace = c :: s ∧ c ≠ '#' ∧ c ≠ '[' := by
  obtain ⟨w, hw, he⟩ : ∃ w ∈ ["privatekey", "presharedkey", "headerprotectionkey"],
      (trimSpace k).map toLower = w.toList :=
    ⟨_, of_decide_eq_true hs, String.toList_ofList.symm⟩
  cases hd : k.dropWhile isSpace
  case nil =>
    rw [trimSpace, trimBy, hd] at he
    exact absurd he ((by decide : ∀ w ∈ ["privatekey", "presharedkey", "headerprotectionkey"],
      (([] : List Char).rdropWhile isSpace).map toLower ≠ w.toList) w hw)
  case cons c s =>
    have hc : isSpace c = false := by
      have hn : k.dropWhile isSpace ≠ [] := by simp [hd]
      simpa [hd] using List.head_dropWhile_not isSpace hn
    have ht : trimSpace k = c :: s.rdropWhile isSpace := by
      rw [trimSpace, trimBy, hd]
      exact rdropWhile_append_cons (s := []) hc
    rw [ht, List.map_cons] at he
    have hp : ∀ w ∈ ["privatekey", "presharedkey", "headerprotectionkey"],
        w.toList.head? ≠ some '#' ∧ w.toList.head? ≠ some '[' := by decide
    refine ⟨c, s, rfl, ?_, ?_⟩
    · rintro rfl
      exact (hp w hw).1 (he ▸ rfl)
    · rintro rfl
      exact (hp w hw).2 (he ▸ rfl)

-- So the readers of configurations take it for what it is.
theorem secret_line (hs : isSecretKey k = true) :
    trimSpace (k ++ '=' :: v) ≠ [] ∧ (trimSpace (k ++ '=' :: v)).head? ≠ some '#' ∧
      (trimSpace (k ++ '=' :: v)).head? ≠ some '[' := by
  obtain ⟨c, s, hd, hc, hb⟩ := head_of_secret hs
  rw [trimSpace_assignment, hd, List.cons_append, List.head?_cons]
  exact ⟨List.cons_ne_nil _ _, by simpa using hc, by simpa using hb⟩

theorem trimSpace_rdropWhile : trimSpace (v.rdropWhile isSpace) = trimSpace v :=
  trimBy_rdropWhile

theorem go_secret (h : '=' ∉ k) (hs : isSecretKey k = true) :
    interfaceValue.go key sect ((k ++ '=' :: v) :: ls) =
      if sect = "interface" ∧ (trimSpace k).map toLower = interfaceValue.want key then trimSpace v
      else interfaceValue.go key sect ls := by
  obtain ⟨hn, hc, hb⟩ := secret_line (v := v) hs
  rw [interfaceValue.go, if_neg (not_or.mpr ⟨hn, hc⟩), if_neg fun hbr => hb hbr.1, cut_trimSpace h]
  simp only [trimSpace_dropWhile, trimSpace_rdropWhile]
  by_cases hsect : sect = "interface"
  case neg => rw [if_pos hsect, if_neg fun hx => hsect hx.1]
  case pos => simp only [hsect, ne_eq, not_true_eq_false, if_false, true_and]

theorem parseLine_secret (st : ParseState) (h : '=' ∉ k) (hs : isSecretKey k = true) :
    parseLine st (k ++ '=' :: v) = assign st (trimSpace k) (trimSpace v) := by
  obtain ⟨hn, hc, hb⟩ := secret_line (v := v) hs
  rw [parseLine, if_neg (not_or.mpr ⟨hn, hc⟩), if_neg fun hbr => hb hbr.1, cut_trimSpace h]
  simp only [trimSpace_dropWhile, trimSpace_rdropWhile]

-- A line that is not redacted does not assign a private key.
theorem assigns_plain (h : '=' ∉ l) : assigns key sect l = false := by
  have hc : cut '=' (trimSpace l) = none := cut_eq_none fun hm => h (mem_of_mem_trimBy hm)
  simp [assigns, hc]

theorem assigns_open (h : '=' ∉ k) (hs : isSecretKey k = false) :
    assigns "PrivateKey" sect (k ++ '=' :: v) = false := by
  have hk : (trimSpace k).map toLower ≠ interfaceValue.want "PrivateKey" := by
    intro he
    rw [isSecretKey, he] at hs
    exact absurd hs (by decide)
  simp [assigns, cut_trimSpace h, trimSpace_dropWhile, hk]

theorem go_redacted (sect : String) (ls : List (List Char)) :
    interfaceValue.go "PrivateKey" sect (ls.map redactLine) = [] ∨
      interfaceValue.go "PrivateKey" sect (ls.map redactLine) = "(redacted)".toList := by
  induction ls generalizing sect
  case nil => exact .inl rfl
  case cons l ls ih =>
    rw [List.map_cons]
    rcases redactLine_cases l with ⟨hl, he⟩ | ⟨k, v, rfl, hk, ⟨hs, he⟩ | ⟨hs, he⟩⟩
    · rw [he, go_cons (assigns_plain hl)]
      exact ih _
    · rw [he, go_secret (redactedKey_no_eq hk) (isSecretKey_redactedKey.trans hs)]
      split
      case isTrue  => exact .inr (by decide)
      case isFalse => exact ih _
    · rw [he, go_cons (assigns_open hk hs)]
      exact ih _

end Lines

theorem splitOn_redactConfigSecrets (c : List Char) :
    (redactConfigSecrets c).splitOn '\n' = (c.splitOn '\n').map redactLine := by
  refine List.splitOn_intercalate _ (fun l hl => ?_) (by simp [List.splitOn_ne_nil])
  obtain ⟨l, hm, rfl⟩ := List.mem_map.mp hl
  exact redactLine_no_break (of_mem_splitOn hm).1

theorem interfaceValue_redacted (c : List Char) :
    interfaceValue (redactConfigSecrets c) "PrivateKey" = [] ∨
      interfaceValue (redactConfigSecrets c) "PrivateKey" = "(redacted)".toList := by
  rw [interfaceValue, splitOn_redactConfigSecrets]
  exact go_redacted _ _

-- Nothing is copied out of what an agent shows.
theorem preserve_redacted (desired current : List Char) :
    preserveInterfacePrivateKey desired (redactConfigSecrets current) = desired := by
  rw [preserveInterfacePrivateKey]
  rcases interfaceValue_redacted current with h | h
  · simp only [h]
    rw [if_neg (by decide), withInterfaceValue, if_pos (.inl rfl)]
  · simp only [h]
    rw [if_pos (by decide)]

section Application

variable {W : Type} {h : W → (e : Eff) → Option (Except Err e.Answer × W)} {w : W}
variable {iface : String} {current : List Char} (r : RemoteExecutor)

-- How `applyNode` hands a configuration to its executor.
def splice (iface : String) (conf : Conf) : Act Unit := do
  let conf ← Worker.preserveRuntimePrivateKey iface conf
  call (Eff.syncConf iface conf)

def spliced (conf : Conf) (current : List Char) : Conf :=
  { conf with text := preserveInterfacePrivateKey conf.text current }

theorem solo_preserve (hs : h w (.showConf iface) = some (.ok current, w)) (conf : Conf) :
    (Worker.preserveRuntimePrivateKey iface conf).run.solo h w =
      some (.ok (spliced conf current), w) := by
  unfold Worker.preserveRuntimePrivateKey
  split
  case isTrue hk  => rw [spliced, preserve_of_key hk]; rfl
  case isFalse hk => exact solo_bind_ok (solo_attempt_call hs)

theorem solo_splice (hs : h w (.showConf iface) = some (.ok current, w)) (conf : Conf) :
    (splice iface conf).run.solo h w = h w (.syncConf iface (spliced conf current)) := by
  rw [splice, solo_bind_ok (solo_preserve hs conf), solo_call]

theorem solo_remote_showConf (hv : validInterfaceName iface = true)
    (hs : h w (.showConf iface) = some (.ok current, w)) :
    (r.showConf iface).run.solo h w = some (.ok (redactConfigSecrets current), w) := by
  have hh : (showconfHandler iface).run.solo h w =
      some (.ok (.text (redactConfigSecrets current)), w) := by
    rw [showconfHandler, hv]
    exact solo_bind_ok (solo_attempt_call hs)
  rw [RemoteExecutor.showConf, solo_bind_ok hh]
  rfl

def syncResponse : Except Err Unit → Response
  | .error e => .problem 500 "syncconf_failed" e.text
  | .ok _    => .noContent

-- The agent's own key is copied into what it was sent.
theorem solo_syncConfHandler (hv : validInterfaceName iface = true)
    (hs : h w (.showConf iface) = some (.ok current, w)) (conf : Conf) :
    (syncConfHandler iface (.ok conf)).run.solo h w =
      (h w (.syncConf iface (spliced conf current))).map fun (x, w') =>
        (.ok (syncResponse x), w') := by
  rw [syncConfHandler, hv, if_neg (by decide)]
  refine (solo_bind_ok (solo_attempt_call hs)).trans ?_
  refine (solo_bind_ok (solo_pure (spliced conf current))).trans ?_
  cases hx : h w (.syncConf iface (spliced conf current))
  case none =>
    refine solo_bind_none ?_
    rw [solo_attempt, solo_call, hx]
    rfl
  case some x =>
    obtain ⟨_ | _, w'⟩ := x
    case error => exact solo_bind_ok (solo_attempt_call hx)
    case ok    => exact solo_bind_ok (solo_attempt_call hx)

theorem solo_remote_syncConf (hv : validInterfaceName iface = true)
    (hs : h w (.showConf iface) = some (.ok current, w)) (conf : Conf) :
    (r.syncConf iface conf).run.solo h w =
      (h w (.syncConf iface (spliced conf current))).map
        (Prod.map (Except.mapError fun e =>
          r.problem "POST" ("/v1/iface/" ++ iface ++ "/syncconf") 500 e.text) id) := by
  rw [RemoteExecutor.syncConf, solo_bind, solo_syncConfHandler hv hs]
  cases h w (.syncConf iface (spliced conf current))
  case none => rfl
  case some x =>
    obtain ⟨_ | _, w'⟩ := x
    case error => rfl
    case ok    => rfl

-- A worker whose executor is the remote one.
def remotely {α : Type} (p : Act α) : Prog (fun e : Eff => Except Err e.Answer) (Except Err α) :=
  p.run.through fun e => (r.perform e).run

theorem solo_remotely {α : Type} (p : Act α) :
    (remotely r p).solo h w = p.run.solo (fun w e => (r.perform e).run.solo h w) w :=
  Prog.solo_through _ _

end Application

-- The worker sends the desired configuration as it is, and the agent applies what the worker would
-- have applied itself.
theorem remote_application_agrees (desired current : List Char) :
    preserveInterfacePrivateKey desired (redactConfigSecrets current) = desired ∧
    preserveInterfacePrivateKey (preserveInterfacePrivateKey desired (redactConfigSecrets current))
      current = preserveInterfacePrivateKey desired current ∧
    ∀ {W : Type} (h : W → (e : Eff) → Option (Except Err e.Answer × W)) (w : W) (iface : String)
      (r : RemoteExecutor) (peers : List Render.PeerEntry), validInterfaceName iface = true →
      h w (.showConf iface) = some (.ok current, w) →
        (remotely r (Worker.preserveRuntimePrivateKey iface ⟨desired, peers⟩)).solo h w =
          some (.ok ⟨desired, peers⟩, w) ∧
        (splice iface ⟨desired, peers⟩).run.solo h w =
          h w (.syncConf iface ⟨preserveInterfacePrivateKey desired current, peers⟩) ∧
        (remotely r (splice iface ⟨desired, peers⟩)).solo h w =
          (h w (.syncConf iface ⟨preserveInterfacePrivateKey desired current, peers⟩)).map
            (Prod.map (Except.mapError fun e =>
              r.problem "POST" ("/v1/iface/" ++ iface ++ "/syncconf") 500 e.text) id) := by
  have hd := preserve_redacted desired current
  refine ⟨hd, by rw [hd], fun h w iface r peers hv hs => ?_⟩
  have hr := solo_remote_showConf r hv hs
  have hsent : spliced ⟨desired, peers⟩ (redactConfigSecrets current) = ⟨desired, peers⟩ := by
    rw [spliced, hd]
  refine ⟨?_, solo_splice hs _, ?_⟩
  · rw [solo_remotely, solo_preserve hr, hsent]
  · rw [solo_remotely, solo_splice hr, hsent]
    exact solo_remote_syncConf r hv hs _

namespace Sample

-- An interface that has a configuration, and nothing else.
def interface (text : List Char) : (e : Eff) → Option (Except Err e.Answer × List Char)
  | .showConf _      => some (.ok text, text)
  | .syncConf _ conf => some (.ok (), conf.text)
  | _                => none

def current : List Char :=
  "[Interface]\nprivatekey=abc\n[Peer]\nPresharedKey = def\n".toList

def desired : List Char :=
  "[Interface]\nListenPort = 1\n".toList

end Sample

theorem remote_application_agrees_sample :
    validInterfaceName "awg0" = true ∧
      (remotely ⟨""⟩ (splice "awg0" ⟨Sample.desired, []⟩)).solo Sample.interface Sample.current =
        some (.ok (), "[Interface]\nPrivateKey = abc\nListenPort = 1\n".toList) := by
  obtain ⟨-, -, happly⟩ := remote_application_agrees Sample.desired Sample.current
  refine ⟨by decide, ?_⟩
  rw [(happly Sample.interface Sample.current "awg0" ⟨""⟩ [] (by decide) rfl).2.2]
  decide +kernel

section Masking

-- What is left of a secret value: nothing if there was none, and the placeholder otherwise.
def Hidden (value shown : String) : Prop :=
  value = "" ∧ shown = "" ∨ shown = "(redacted)"

structure HidesPeer (p q : PeerSpec) : Prop where
  same   : q = { p with presharedKey := q.presharedKey }
  hidden : Hidden p.presharedKey q.presharedKey

structure HidesInterface (i j : InterfaceRuntime) : Prop where
  same   : j = { i with privateKey := j.privateKey }
  hidden : Hidden i.privateKey j.privateKey

-- The variables of the parser while it reads a text and its redaction.
structure Masked (s t : ParseState) : Prop where
  sect  : t.sect = s.sect
  iface : HidesInterface s.iface t.iface
  cur   : HidesPeer s.cur t.cur
  peers : List.Forall₂ HidesPeer s.peers t.peers

variable {s t : ParseState} {k l v x : List Char}

theorem HidesPeer.empty : HidesPeer {} {} :=
  ⟨rfl, .inl ⟨rfl, rfl⟩⟩

theorem Masked.flush (h : Masked s t) : Masked (flush s) (flush t) := by
  have hk : t.cur.publicKey = s.cur.publicKey := by rw [h.cur.same]
  refine ⟨h.sect, h.iface, .empty, ?_⟩
  simp only [Fake.flush, h.sect, hk]
  split
  case isTrue  => exact List.rel_append h.peers (.cons h.cur .nil)
  case isFalse => exact h.peers

-- An assignment of the same value, unless the key is secret.
theorem Masked.assign (h : Masked s t)
    (hx : isSecretKey k = true ∧ x = "(redacted)".toList ∨ isSecretKey k = false ∧ x = v) :
    Masked (assign s (trimSpace k) v) (assign t (trimSpace k) x) := by
  unfold isSecretKey at hx
  unfold Fake.assign
  rw [h.sect]
  generalize s.sect = sect, String.ofList ((trimSpace k).map toLower) = word at hx ⊢
  have hi := h.iface.same
  have hc := h.cur.same
  split
  case h_1 =>
    obtain rfl : x = "(redacted)".toList := by simpa using hx
    exact { h with sect := rfl, iface := ⟨by rw [hi], .inr rfl⟩ }
  case h_2 =>
    obtain rfl : x = v := by simpa using hx
    exact { h with sect := rfl, iface := ⟨by rw [hi], h.iface.hidden⟩ }
  case h_4 =>
    obtain rfl : x = "(redacted)".toList := by simpa using hx
    exact { h with sect := rfl, cur := ⟨by rw [hc], .inr rfl⟩ }
  case h_8 => exact h
  all_goals
    obtain rfl : x = v := by simpa using hx
    exact { h with sect := rfl, cur := ⟨by rw [hc], h.cur.hidden⟩ }

theorem Masked.parseLine (h : Masked s t) (l : List Char) :
    Masked (parseLine s l) (parseLine t (redactLine l)) := by
  rcases redactLine_cases l with ⟨hl, he⟩ | ⟨k, v, rfl, hk, ⟨hs, he⟩ | ⟨hs, he⟩⟩
  · have hc : cut '=' (trimSpace l) = none := cut_eq_none fun hm => hl (mem_of_mem_trimBy hm)
    rw [he]
    unfold Fake.parseLine
    simp only [hc]
    split
    case isTrue  => exact h
    case isFalse =>
      split
      case isTrue  => exact { h.flush with sect := rfl }
      case isFalse => exact h
  · rw [he, parseLine_secret s hk hs,
      parseLine_secret t (redactedKey_no_eq hk) (isSecretKey_redactedKey.trans hs),
        trimSpace_redactedKey]
    exact h.assign (.inl ⟨hs, by decide⟩)
  · rw [he]
    unfold Fake.parseLine
    simp only [cut_trimSpace hk, trimSpace_dropWhile]
    split
    case isTrue  => exact h
    case isFalse =>
      split
      case isTrue  => exact { h.flush with sect := rfl }
      case isFalse => exact h.assign (.inr ⟨hs, rfl⟩)

theorem Masked.parseLines (h : Masked s t) (ls : List (List Char)) :
    Masked (parseLines s ls) (parseLines t (ls.map redactLine)) := by
  induction ls generalizing s t
  case nil          => exact h
  case cons l ls ih => exact ih (h.parseLine l)

-- Two texts that differ only in values of secret keys, line by line.
inductive SameLine : List Char → List Char → Prop
  | refl (l : List Char) : SameLine l l
  | secret {k : List Char} (v v' : List Char) (hk : '=' ∉ k) (hs : isSecretKey k = true) :
    SameLine (k ++ '=' :: v) (k ++ '=' :: v')

def SameButSecrets (c d : List Char) : Prop :=
  List.Forall₂ SameLine (c.splitOn '\n') (d.splitOn '\n')

theorem SameLine.redactLine_eq (h : SameLine l x) : redactLine l = redactLine x := by
  cases h
  case refl             => rfl
  case secret k v v' hk hs => rw [redactLine_secret hk hs, redactLine_secret hk hs]

theorem SameButSecrets.redact_eq {c d : List Char} (h : SameButSecrets c d) :
    redactConfigSecrets c = redactConfigSecrets d := by
  have hm : (c.splitOn '\n').map redactLine = (d.splitOn '\n').map redactLine := by
    rw [← List.forall₂_eq_eq_eq, List.forall₂_map_left_iff, List.forall₂_map_right_iff]
    exact h.imp fun _ _ hl => hl.redactLine_eq
  rw [redactConfigSecrets, redactConfigSecrets, hm]

end Masking

theorem redaction_hides_secrets (c : List Char) :
    HidesInterface (parseRenderedConfig c).iface (parseRenderedConfig (redactConfigSecrets c)).iface ∧
    List.Forall₂ HidesPeer (parseRenderedConfig c).peers
      (parseRenderedConfig (redactConfigSecrets c)).peers ∧
    ∀ d, SameButSecrets c d → redactConfigSecrets c = redactConfigSecrets d := by
  have hinit : Masked {} {} := ⟨rfl, ⟨rfl, .inl ⟨rfl, rfl⟩⟩, .empty, .nil⟩
  have h := (hinit.parseLines (c.splitOn '\n')).flush
  rw [← splitOn_redactConfigSecrets] at h
  exact ⟨h.iface, h.peers, fun d hd => hd.redact_eq⟩

theorem redaction_hides_secrets_sample :
    SameButSecrets "[Interface]\n PRIVATEKEY =abc".toList "[Interface]\n PRIVATEKEY =x=y".toList ∧
      redactConfigSecrets "[Interface]\n PRIVATEKEY =abc".toList =
        redactConfigSecrets "[Interface]\n PRIVATEKEY =x=y".toList := by
  have h : SameButSecrets "[Interface]\n PRIVATEKEY =abc".toList
      "[Interface]\n PRIVATEKEY =x=y".toList := by
    have h₁ : "[Interface]\n PRIVATEKEY =abc".toList.splitOn '\n' =
        ["[Interface]".toList, " PRIVATEKEY ".toList ++ '=' :: "abc".toList] := by decide
    have h₂ : "[Interface]\n PRIVATEKEY =x=y".toList.splitOn '\n' =
        ["[Interface]".toList, " PRIVATEKEY ".toList ++ '=' :: "x=y".toList] := by decide
    rw [SameButSecrets, h₁, h₂]
    exact .cons (.refl _) (.cons (.secret _ _ (by decide) (by decide)) .nil)
  exact ⟨h, (redaction_hides_secrets _).2.2 _ h⟩

end NodeAgent
