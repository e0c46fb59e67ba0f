import MgCommonUtils.Lib.Framing
import MgCommonUtils.RedisProxy.Response

/-!
# The upstream

The upstream as the proxy relies on it: it cuts the bytes of a connection into frames, executes
those that are commands one after the other, and sends one reply for each. `Upstream` is any such
server. `redisUpstream` is the one of the Redis protocol, where a frame is a multi-bulk or an
inline line, and an empty multi-bulk or a blank line is no command. A request that violates the
protocol never becomes a frame.
-/

namespace MgCommonUtils.RedisProxy

open MgCommonUtils.Lib

/-- A server that executes the commands of a byte stream. -/
structure Upstream where
  /-- The frames of the stream. -/
  framing : Framing UInt8
  /-- Whether a frame is a command, which gets a reply. -/
  isCommand : Bytes → Bool

namespace Upstream

variable (U : Upstream)

/-- The commands of a stream. -/
def commands (s : Bytes) : List Bytes := (U.framing.frames s).filter U.isCommand

/-- A stream in which nothing is left to be answered, also not when it grows. -/
structure Quiet (s : Bytes) : Prop where
  /-- It has no command. -/
  commands : U.commands s = []
  /-- It has no part of a frame after its frames. -/
  rest : U.framing.rest s = []

/-- A request in which the upstream finds no whole command, or one and nothing after it that
could become part of another. -/
def OneCommand (s : Bytes) : Prop :=
  U.commands s = [] ∨ (U.commands s).length = 1 ∧ U.framing.rest s = []

variable {U}

/-- Nothing is quiet. -/
theorem quiet_nil : U.Quiet [] := by
  have h : U.framing.next [] = none := by
    by_contra hne
    obtain ⟨n, hn⟩ := Option.ne_none_iff_exists'.mp hne
    have h1 := U.framing.next_pos hn
    have h2 := U.framing.next_le hn
    simp at h2
    omega
  exact ⟨by rw [commands, Framing.frames_none h]; rfl, by rw [Framing.rest_none h]⟩

/-- The commands behind a stream with nothing left over. -/
theorem commands_append {s : Bytes} (hs : U.framing.rest s = []) (t : Bytes) :
    U.commands (s ++ t) = U.commands s ++ U.commands t := by
  rw [commands, Framing.frames_append, hs, List.nil_append, List.filter_append]
  rfl

/-- What is left over behind a stream with nothing left over. -/
theorem rest_append {s : Bytes} (hs : U.framing.rest s = []) (t : Bytes) :
    U.framing.rest (s ++ t) = U.framing.rest t := by
  rw [Framing.rest_append, hs, List.nil_append]

/-- Two quiet streams, one after the other. -/
theorem Quiet.append {s t : Bytes} (hs : U.Quiet s) (ht : U.Quiet t) : U.Quiet (s ++ t) :=
  ⟨by rw [commands_append hs.rest, hs.commands, ht.commands, List.append_nil],
    by rw [rest_append hs.rest, ht.rest]⟩

/-- The commands of a stream that starts with a frame. -/
theorem commands_of_next {s : Bytes} {n : ℕ} (h : U.framing.next s = some n) :
    U.commands s =
      if U.isCommand (s.take n) then s.take n :: U.commands (s.drop n)
      else U.commands (s.drop n) := by
  rw [commands, Framing.frames_some h, List.filter_cons]
  rfl

/-- A stream that is one command. -/
theorem oneCommand_of_next {s : Bytes} (h : U.framing.next s = some s.length)
    (hcmd : U.isCommand s = true) : U.OneCommand s := by
  refine .inr ⟨?_, ?_⟩
  · rw [commands_of_next h, List.take_length, if_pos hcmd, List.drop_length, quiet_nil.commands,
      List.length_singleton]
  · rw [Framing.rest_some h, List.drop_length, quiet_nil.rest]

/-- A quiet stream that is not empty starts with a frame that is no command, and is quiet
behind it. -/
theorem Quiet.next {s : Bytes} (hs : U.Quiet s) (hne : s ≠ []) :
    ∃ n, U.framing.next s = some n ∧ U.isCommand (s.take n) = false ∧ U.Quiet (s.drop n) := by
  cases h : U.framing.next s with
  | none => exact absurd (Framing.rest_none h ▸ hs.rest) hne
  | some n =>
    have hc := hs.commands
    rw [commands_of_next h] at hc
    split_ifs at hc with hcmd
    exact ⟨n, rfl, by simpa using hcmd, hc, by rw [← Framing.rest_some h, hs.rest]⟩

end Upstream

/-! ## The Redis protocol -/

/-- The value of a canonical decimal integer. -/
def parseInteger (line : Bytes) : Option ℤ :=
  match line with
  | 45 :: digits =>
    if decimal (digitsValue 0 digits) = digits then some (-digitsValue 0 digits) else none
  | digits => if decimal (digitsValue 0 digits) = digits then some (digitsValue 0 digits) else none

/-- The value of the decimal line after a type byte, and the length of both with the CR LF. -/
def headerNext (s : Bytes) : Option (ℤ × ℕ) :=
  match strstrCrlf (s.drop 1) with
  | none => none
  | some n => (parseInteger ((s.drop 1).take n)).map fun v => (v, n + 3)

/-- The length of `argc` bulks. -/
def bulksNext : ℕ → Bytes → Option ℕ
  | 0, _ => some 0
  | argc + 1, s =>
    if s.head? ≠ some 36 then none
    else
      match headerNext s with
      | none => none
      | some (len, n) =>
        if 0 ≤ len ∧ n + len.toNat + 2 ≤ s.length then
          (bulksNext argc (s.drop (n + len.toNat + 2))).map (· + (n + len.toNat + 2))
        else none

/-- The length of the first request of a stream. -/
def redisNext (s : Bytes) : Option ℕ :=
  if s.head? = some 42 then
    match headerNext s with
    | none => none
    | some (argc, n) => (bulksNext argc.toNat (s.drop n)).map (· + n)
  else (s.findIdx? (· == 10)).map (· + 1)

/-- Whether a request is a command: a multi-bulk of one argument or more, or a line that is not
blank. -/
def redisIsCommand (s : Bytes) : Bool :=
  if s.head? = some 42 then
    match headerNext s with
    | none => false
    | some (argc, _) => 0 < argc
  else s.any fun b => !isspace b

/-- A header is in the stream. -/
theorem headerNext_le {s : Bytes} {v : ℤ} {n : ℕ} (h : headerNext s = some (v, n)) :
    3 ≤ n ∧ n ≤ s.length := by
  unfold headerNext at h
  split at h
  · cases h
  · rename_i m hm
    obtain ⟨w, -, hw⟩ := Option.map_eq_some_iff.mp h
    obtain ⟨rfl, rfl⟩ := Prod.mk.inj hw
    have := strstrCrlf_le hm
    rw [List.length_drop] at this
    omega

/-- A header stays what it is when the stream grows. -/
theorem headerNext_append {s : Bytes} {x : ℤ × ℕ} (t : Bytes) (h : headerNext s = some x) :
    headerNext (s ++ t) = some x := by
  have hle := headerNext_le h
  unfold headerNext at h ⊢
  split at h
  · cases h
  · rename_i m hm
    have hdrop : (s ++ t).drop 1 = s.drop 1 ++ t := List.drop_append_of_le_length (by omega)
    have hlen := strstrCrlf_le hm
    rw [hdrop, strstrCrlf_append t hm]
    dsimp only
    rwa [List.take_append_of_le_length (by omega)]

/-- Bulks are in the stream. -/
theorem bulksNext_le {argc : ℕ} {s : Bytes} {n : ℕ} (h : bulksNext argc s = some n) :
    n ≤ s.length := by
  induction argc generalizing s n with
  | zero =>
    obtain rfl := Option.some.inj h
    omega
  | succ argc ih =>
    unfold bulksNext at h
    split_ifs at h
    split at h
    · cases h
    · split_ifs at h with hlen
      obtain ⟨m, hm, rfl⟩ := Option.map_eq_some_iff.mp h
      have := ih hm
      rw [List.length_drop] at this
      omega

/-- Bulks stay what they are when the stream grows. -/
theorem bulksNext_append {argc : ℕ} {s : Bytes} {n : ℕ} (t : Bytes)
    (h : bulksNext argc s = some n) : bulksNext argc (s ++ t) = some n := by
  induction argc generalizing s n with
  | zero => exact h
  | succ argc ih =>
    unfold bulksNext at h ⊢
    split_ifs at h with hhead
    split at h
    · cases h
    · rename_i len k hk
      split_ifs at h with hlen
      obtain ⟨m, hm, rfl⟩ := Option.map_eq_some_iff.mp h
      have hne : s ≠ [] := by rintro rfl; simp at hhead
      have hhead' : ¬ (s ++ t).head? ≠ some 36 := by
        rwa [List.head?_append_of_ne_nil _ hne]
      rw [if_neg hhead', headerNext_append t hk]
      dsimp only
      rw [if_pos ⟨hlen.1, by rw [List.length_append]; omega⟩,
        List.drop_append_of_le_length hlen.2, ih hm]
      rfl

/-- The framing of the Redis protocol. -/
def redisFraming : Framing UInt8 where
  next := redisNext
  next_pos {s n} h := by
    unfold redisNext at h
    split_ifs at h
    · split at h
      · cases h
      · rename_i argc k hk
        obtain ⟨m, -, rfl⟩ := Option.map_eq_some_iff.mp h
        have := headerNext_le hk
        omega
    · obtain ⟨m, -, rfl⟩ := Option.map_eq_some_iff.mp h
      omega
  next_le {s n} h := by
    unfold redisNext at h
    split_ifs at h
    · split at h
      · cases h
      · rename_i argc k hk
        obtain ⟨m, hm, rfl⟩ := Option.map_eq_some_iff.mp h
        have h1 := headerNext_le hk
        have h2 := bulksNext_le hm
        rw [List.length_drop] at h2
        omega
    · obtain ⟨m, hm, rfl⟩ := Option.map_eq_some_iff.mp h
      obtain ⟨hlt, -⟩ := List.findIdx?_eq_some_iff_getElem.mp hm
      omega
  next_append {s n} t h := by
    have hne : s ≠ [] := by rintro rfl; simp [redisNext] at h
    unfold redisNext at h ⊢
    rw [List.head?_append_of_ne_nil _ hne]
    split_ifs at h ⊢
    · split at h
      · cases h
      · rename_i argc k hk
        obtain ⟨m, hm, rfl⟩ := Option.map_eq_some_iff.mp h
        rw [headerNext_append t hk]
        dsimp only
        rw [List.drop_append_of_le_length (headerNext_le hk).2, bulksNext_append t hm]
        rfl
    · obtain ⟨m, hm, rfl⟩ := Option.map_eq_some_iff.mp h
      rw [List.findIdx?_append, hm]
      rfl

/-- The upstream of the Redis protocol. -/
def redisUpstream : Upstream where
  framing := redisFraming
  isCommand := redisIsCommand

end MgCommonUtils.RedisProxy
