import AwgRest.Lib.Text

open Text

-- Hosts with ports, as `net` splits and joins them.
namespace Net

inductive AddrError
  | missingPort
  | tooManyColons
  | missingBracket
  | unexpectedBracket (c : Char)
deriving DecidableEq

-- The text on both sides of the last `c`.
def cutLast (c : Char) (s : List Char) : Option (List Char × List Char) :=
  (cut c s.reverse).map fun (t, u) => (u.reverse, t.reverse)

-- The port starts after the last colon. In a text with a bracket in front, the first closing one
-- has to stand right before that colon.
def splitHostPort (hostport : List Char) : Except AddrError (List Char × List Char) :=
  match cutLast ':' hostport with
  | none              => .error .missingPort
  | some (host, port) =>
    match hostport with
    | '[' :: rest =>
      match cut ']' rest with
      | none                 => .error .missingBracket
      | some (_, [])         => .error .missingPort
      | some (literal, tail) =>
        if tail = ':' :: port then
          if '[' ∈ rest then .error (.unexpectedBracket '[')
          else if ']' ∈ tail then .error (.unexpectedBracket ']')
          else .ok (literal, port)
        else if tail.head? = some ':' then .error .tooManyColons
        else .error .missingPort
    | _ =>
      if ':' ∈ host then .error .tooManyColons
      else if '[' ∈ hostport then .error (.unexpectedBracket '[')
      else if ']' ∈ hostport then .error (.unexpectedBracket ']')
      else .ok (host, port)

-- A host with colons is taken for a literal IPv6 address.
def joinHostPort (host port : List Char) : List Char :=
  if ':' ∈ host then '[' :: (host ++ ']' :: ':' :: port) else host ++ ':' :: port

-- Without the characters that have a meaning here.
def Plain (s : List Char) : Prop :=
  ∀ c ∈ s, c ≠ ':' ∧ c ≠ '[' ∧ c ≠ ']'

def Bracketless (s : List Char) : Prop :=
  ∀ c ∈ s, c ≠ '[' ∧ c ≠ ']'

section Split

variable {c : Char} {s t host port : List Char}

theorem cutLast_append_cons (h : c ∉ t) : cutLast c (s ++ c :: t) = some (s, t) := by
  have hr : c ∉ t.reverse := fun hc => h (List.mem_reverse.mp hc)
  rw [cutLast, List.reverse_append, List.reverse_cons, List.append_assoc, List.singleton_append,
    cut_append_cons hr]
  simp

theorem cutLast_eq_none (h : c ∉ s) : cutLast c s = none := by
  rw [cutLast, cut_eq_none fun hc => h (List.mem_reverse.mp hc)]
  rfl

theorem Plain.not_mem (h : Plain s) : ':' ∉ s ∧ '[' ∉ s ∧ ']' ∉ s :=
  ⟨fun hc => (h _ hc).1 rfl, fun hc => (h _ hc).2.1 rfl, fun hc => (h _ hc).2.2 rfl⟩

theorem Bracketless.not_mem (h : Bracketless s) : '[' ∉ s ∧ ']' ∉ s :=
  ⟨fun hc => (h _ hc).1 rfl, fun hc => (h _ hc).2 rfl⟩

theorem splitHostPort_missing (h : ':' ∉ s) : splitHostPort s = .error .missingPort := by
  rw [splitHostPort, cutLast_eq_none h]

-- The cases of a text without a bracket in front.
theorem splitHostPort_bare (hs : s.head? ≠ some '[') (hc : cutLast ':' s = some (host, port)) :
    splitHostPort s =
      if ':' ∈ host then .error .tooManyColons
      else if '[' ∈ s then .error (.unexpectedBracket '[')
      else if ']' ∈ s then .error (.unexpectedBracket ']')
      else .ok (host, port) := by
  rw [splitHostPort, hc]
  cases s
  case nil      => rfl
  case cons a s =>
    have ha : a ≠ '[' := by simpa using hs
    simp only
    split
    case h_1 heq => exact absurd (List.cons.inj heq).1 ha
    case h_2     => rfl

theorem splitHostPort_plain (hh : Plain host) (hp : Plain port) :
    splitHostPort (host ++ ':' :: port) = .ok (host, port) := by
  have hs : (host ++ ':' :: port).head? ≠ some '[' := by
    cases host
    case nil       => simp
    case cons a hs => simpa using (hh a (by simp)).2.1
  obtain ⟨hh₁, hh₂, hh₃⟩ := hh.not_mem
  obtain ⟨hp₁, hp₂, hp₃⟩ := hp.not_mem
  rw [splitHostPort_bare hs (cutLast_append_cons hp₁), if_neg hh₁, if_neg (by simp [hh₂, hp₂]),
    if_neg (by simp [hh₃, hp₃])]

theorem eq_append_cons_of_mem_last (h : c ∈ s) : ∃ t u, s = t ++ c :: u ∧ c ∉ u := by
  obtain ⟨u, t, hr, hu⟩ := List.eq_append_cons_of_mem (List.mem_reverse.mpr h)
  refine ⟨t.reverse, u.reverse, ?_, fun hc => hu (List.mem_reverse.mp hc)⟩
  rw [← List.reverse_reverse s, hr]
  simp

theorem splitHostPort_tooManyColons (hs : s.head? ≠ some '[') (h : 2 ≤ s.count ':') :
    splitHostPort s = .error .tooManyColons := by
  obtain ⟨t, u, rfl, hu⟩ := eq_append_cons_of_mem_last
    (List.count_pos_iff.mp (Nat.lt_of_lt_of_le (by decide) h))
  have ht : ':' ∈ t := by
    rw [List.count_append, List.count_cons_self, List.count_eq_zero_of_not_mem hu] at h
    exact List.count_pos_iff.mp (by omega)
  rw [splitHostPort_bare hs (cutLast_append_cons hu), if_pos ht]

-- The cases of a text with one.
theorem splitHostPort_brackets (hl : ']' ∉ host)
    (hc : cutLast ':' ('[' :: (host ++ ']' :: t)) = some (s, port)) :
    splitHostPort ('[' :: (host ++ ']' :: t)) =
      if t = [] then .error .missingPort
      else if t = ':' :: port then
        if '[' ∈ host ++ ']' :: t then .error (.unexpectedBracket '[')
        else if ']' ∈ t then .error (.unexpectedBracket ']')
        else .ok (host, port)
      else if t.head? = some ':' then .error .tooManyColons
      else .error .missingPort := by
  rw [splitHostPort, hc]
  simp only [cut_append_cons hl]
  cases t <;> rfl

theorem splitHostPort_bracketed (hh : Bracketless host) (hp : Plain port) :
    splitHostPort ('[' :: (host ++ ']' :: ':' :: port)) = .ok (host, port) := by
  obtain ⟨hh₁, hh₂⟩ := hh.not_mem
  obtain ⟨hp₁, hp₂, hp₃⟩ := hp.not_mem
  have hc : cutLast ':' ('[' :: (host ++ ']' :: ':' :: port)) =
      some ('[' :: (host ++ [']']), port) := by
    have he : '[' :: (host ++ ']' :: ':' :: port) = '[' :: (host ++ [']']) ++ ':' :: port := by simp
    rw [he, cutLast_append_cons hp₁]
  rw [splitHostPort_brackets hh₂ hc, if_neg (List.cons_ne_nil _ _), if_pos rfl,
    if_neg (by simp [hh₁, hp₂]), if_neg (by simp [hp₃])]

theorem splitHostPort_no_port (hh : ']' ∉ host) :
    splitHostPort ('[' :: (host ++ [']'])) = .error .missingPort := by
  by_cases hm : ':' ∈ '[' :: (host ++ [']'])
  case neg => exact splitHostPort_missing hm
  case pos =>
    obtain ⟨t, u, he, hu⟩ := eq_append_cons_of_mem_last hm
    have hc : cutLast ':' ('[' :: (host ++ [']'])) = some (t, u) := by rw [he, cutLast_append_cons hu]
    rw [splitHostPort_brackets hh hc, if_pos rfl]

-- Brackets around a host that has brackets already.
theorem splitHostPort_twice (hh : ']' ∉ host) (hp : ':' ∉ port) :
    splitHostPort ('[' :: '[' :: (host ++ ']' :: ']' :: ':' :: port)) = .error .missingPort := by
  have he : '[' :: '[' :: (host ++ ']' :: ']' :: ':' :: port) =
      '[' :: '[' :: (host ++ [']', ']']) ++ ':' :: port := by simp
  have hc : cutLast ':' ('[' :: ('[' :: host ++ ']' :: ']' :: ':' :: port)) =
      some ('[' :: '[' :: (host ++ [']', ']']), port) := by
    rw [List.cons_append, he, cutLast_append_cons hp]
  have hh' : ']' ∉ '[' :: host := by simp [hh]
  rw [← List.cons_append, splitHostPort_brackets hh' hc, if_neg (List.cons_ne_nil _ _),
    if_neg (by simp),
    if_neg (by simp)]

end Split

end Net
