import Mathlib.Data.Nat.ModEq
import MgCommonUtils.Lib.CString

/-!
# The id server

`redis-uuid/redis.c`: a process takes its id `mid` from the command line, and answers each `get`
with a new 52-bit id, which is put together from the clock, `mid` and a counter (`get_uuid_52bit`).
The three fields do not overlap (`toNat_uuid52bit`), and the counter of a process goes on over all
its answers (`getElem?_ids`). So two ids are the same if and only if all three fields are, and a
process whose clock does not go back repeats no id unless it answers more than `2 ^ 18` times in one
second (`uuid_unique`). The field of the clock has room for `2 ^ 30` seconds, which were over in
2020 (`getUuid52bit_lt_iff`).
-/

namespace MgCommonUtils.RedisUuid

open MgCommonUtils.Lib

/-! ## The model -/

/-- The globals of a process that an answer depends on. -/
structure Server where
  /-- `mid`. -/
  mid : UInt64
  /-- `sid`. -/
  sid : UInt64
  /-- `server.stat_numcommands`. -/
  stat_numcommands : ℤ
  /-- `server.clients`. -/
  clients : ℕ
  /-- `server.stat_numconnections`. -/
  stat_numconnections : ℤ
  deriving DecidableEq, Repr

/-- What `getopt` returns for the options of `main`. -/
inductive Opt
  /-- One of `-p`, `-c`, `-v`, `-d` and `-l`, which set nothing that an answer depends on. -/
  | other
  /-- `-u` with its argument. -/
  | u (optarg : Bytes)
  /-- `-h`, or an option that there is not. -/
  | exit

/-- The loop of `main` over the options, or none where `main` returns. -/
def options (mid : UInt64) : List Opt → Option UInt64
  | [] => some mid
  | .other :: rest => options mid rest
  | .u optarg :: rest =>
    let mid := UInt64.ofInt (atoi optarg)
    if mid > 15 then none else options mid rest
  | .exit :: _ => none

/-- `main` up to its event loop. -/
def main (opts : List Opt) : Option Server := do
  let mid ← options 10000 opts
  if mid > 15 then none
  else some { mid, sid := 0, stat_numcommands := 0, clients := 0, stat_numconnections := 0 }

/-- `get_uuid_52bit`, when `time` returns `now`. -/
def getUuid52bit (s : Server) (now : ℕ) : UInt64 × Server :=
  let uuid := UInt64.ofNat now
  let uuid := uuid - 515483463
  let uuid := uuid <<< 22
  let uuid := uuid + (s.mid <<< 18)
  let s := { s with sid := s.sid + 1 }
  let uuid := uuid + s.sid % 262144
  (uuid, s)

/-- `strncasecmp(s, t, n) == 0`. -/
def strncasecmpEq (s t : Bytes) (n : ℕ) : Bool :=
  ((cstr s).take n).map tolower == ((cstr t).take n).map tolower

/-- What `ProcessRequestBuffer` makes of the bytes of a client. -/
inductive Answer
  /-- There is no line yet, 0. -/
  | incomplete
  /-- The client does not keep to the protocol, -1. -/
  | error
  /-- The client asks to quit, -2. -/
  | quit
  /-- The answer to `get`, 1. -/
  | value (uuid : UInt64)
  /-- The answer to `stats`, 1. -/
  | stats (s : Server)
  deriving DecidableEq

/-- What `ProcessRequestBuffer` returns. -/
def Answer.code : Answer → ℤ
  | .incomplete => 0
  | .error => -1
  | .quit => -2
  | .value _ => 1
  | .stats _ => 1

/-- What `ProcessRequestBuffer` writes into `wbuf`, which has room for it. -/
def Answer.wbuf : Answer → Bytes
  | .value uuid => text "VALUE uuid 0 16\r\n" ++ decimal uuid.toNat ++ text "\r\nEND\r\n"
  | .stats s =>
    text "STAT version 3.0.1\r\nSTAT unique_id " ++ decimal s.mid.toNat ++
      text "\r\nSTAT cmd_get " ++ decimalInt s.stat_numcommands ++
      text "\r\nSTAT curr_connections " ++ decimal s.clients ++
      text "\r\nSTAT total_connections " ++ decimalInt s.stat_numconnections ++ text "\r\nEND\r\n"
  | _ => []

/-- `ProcessRequestBuffer`, on the bytes that the client has sent. -/
def processRequestBuffer (s : Server) (now : ℕ) (rbuf : Bytes) : Answer × Server :=
  match strstrCrlf rbuf with
  | none => (.incomplete, s)
  | some p =>
    if p + 2 ≠ rbuf.length then (.error, s)
    else if strcasecmpEq rbuf (text "quit\r\n") then (.quit, s)
    else if strncasecmpEq rbuf (text "get ") 4 then
      let (uuid, s) := getUuid52bit s now
      (.value uuid, { s with stat_numcommands := s.stat_numcommands + 1 })
    else if strncasecmpEq rbuf (text "stats ") 4 then (.stats s, s)
    else (.error, s)

/-- What happens to a process. -/
inductive Event
  /-- `acceptHandler` creates a client. -/
  | accept
  /-- `freeClient`. -/
  | free
  /-- `ProcessRequestBuffer` on the bytes of a client, at the clock reading `now`. -/
  | request (now : ℕ) (rbuf : Bytes)

/-- The call of `get_uuid_52bit` at an event, if there is one: the clock reading and the id. -/
def Server.step (s : Server) : Event → Option (ℕ × UInt64) × Server
  | .accept =>
    (none, { s with clients := s.clients + 1, stat_numconnections := s.stat_numconnections + 1 })
  | .free => (none, { s with clients := s.clients - 1 })
  | .request now rbuf =>
    match processRequestBuffer s now rbuf with
    | (.value uuid, s) => (some (now, uuid), s)
    | (_, s) => (none, s)

/-- The calls of `get_uuid_52bit` in a run of a process. -/
def ids (s : Server) : List Event → List (ℕ × UInt64)
  | [] => []
  | e :: es =>
    let (call, s) := s.step e
    call.toList ++ ids s es

/-! ## The fields of an id -/

/-- The id of the calls of a process: its clock reading, its `mid` and its counter. -/
def uuid52bit (mid : UInt64) (now : ℕ) (sid : UInt64) : UInt64 :=
  (UInt64.ofNat now - 515483463) <<< 22 + mid <<< 18 + sid % 262144

/-- `main` accepts the ids from 0 to 15, and starts the counter at 0. -/
theorem main_spec {opts : List Opt} {s : Server} (h : main opts = some s) :
    s.mid.toNat ≤ 15 ∧ s.sid = 0 := by
  obtain ⟨mid, -, h⟩ := Option.bind_eq_some_iff.mp h
  split at h
  · cases h
  · rename_i hmid
    obtain rfl := Option.some.inj h
    have hle : mid ≤ 15 := UInt64.not_lt.mp hmid
    exact ⟨UInt64.le_iff_toNat_le.mp hle, rfl⟩

/-- The three fields of an id do not overlap, and it fits into 63 bits. -/
theorem toNat_uuid52bit {mid : UInt64} {now : ℕ} (sid : UInt64) (hmid : mid.toNat ≤ 15)
    (h0 : 515483463 ≤ now) (h1 : now < 2^41) :
    (uuid52bit mid now sid).toNat =
      (now - 515483463) * 4194304 + mid.toNat * 262144 + sid.toNat % 262144 := by
  have hnow : (UInt64.ofNat now - 515483463).toNat = now - 515483463 := by
    rw [UInt64.toNat_sub_of_le _ _
        (by rw [UInt64.le_iff_toNat_le, UInt64.toNat_ofNat']; simp; omega),
      UInt64.toNat_ofNat', Nat.mod_eq_of_lt (by omega)]
    rfl
  have hfield : ((UInt64.ofNat now - 515483463) <<< 22).toNat = (now - 515483463) * 4194304 := by
    rw [UInt64.toNat_shiftLeft, hnow, Nat.shiftLeft_eq]
    exact Nat.mod_eq_of_lt (by simp; omega)
  have hmid' : (mid <<< 18).toNat = mid.toNat * 262144 := by
    rw [UInt64.toNat_shiftLeft, Nat.shiftLeft_eq]
    exact Nat.mod_eq_of_lt (by simp; omega)
  have hsid : (sid % 262144).toNat = sid.toNat % 262144 := UInt64.toNat_mod _ _
  unfold uuid52bit
  rw [UInt64.toNat_add, UInt64.toNat_add, hfield, hmid', hsid]
  omega

/-- The clock readings that the id is made for: its time field is not negative and fits. -/
def InRange (now : ℕ) : Prop := 515483463 ≤ now ∧ now < 2^41

/-- Two ids are the same if and only if their fields are. -/
theorem uuid52bit_eq_iff {mid mid' : UInt64} {now now' : ℕ} (sid sid' : UInt64)
    (hmid : mid.toNat ≤ 15) (hmid' : mid'.toNat ≤ 15) (h : InRange now) (h' : InRange now') :
    uuid52bit mid now sid = uuid52bit mid' now' sid' ↔
      mid = mid' ∧ now = now' ∧ sid.toNat ≡ sid'.toNat [MOD 262144] := by
  obtain ⟨h0, h1⟩ := h
  obtain ⟨h0', h1'⟩ := h'
  rw [← UInt64.toNat_inj, toNat_uuid52bit sid hmid h0 h1, toNat_uuid52bit sid' hmid' h0' h1',
    ← UInt64.toNat_inj (a := mid), Nat.ModEq]
  omega

/-- Before the year 2038, `get_uuid_52bit` returns a number below `2 ^ 52` if and only if not more
than `2 ^ 30` seconds have passed since its epoch. -/
theorem getUuid52bit_lt_iff {s : Server} {now : ℕ} (hmid : s.mid.toNat ≤ 15)
    (h0 : 515483463 ≤ now) (h1 : now < 2^31) :
    (getUuid52bit s now).1.toNat < 2^52 ↔ now < 515483463 + 2^30 := by
  have heq : (getUuid52bit s now).1 = uuid52bit s.mid now (s.sid + 1) := rfl
  have hlow : (s.sid + 1).toNat % 262144 < 262144 := Nat.mod_lt _ (by norm_num)
  rw [heq, toNat_uuid52bit _ hmid h0 (by omega)]
  omega

/-- The id of process 3 at the beginning of 2020. -/
theorem getUuid52bit_lt_2020 : (getUuid52bit ⟨3, 0, 0, 0, 0⟩ 1577836800).1.toNat < 2^52 :=
  (getUuid52bit_lt_iff (by decide) (by norm_num) (by norm_num)).mpr (by norm_num)

/-- The first id of process 3 when `2 ^ 30` seconds have passed, on the 11th of May 2020. -/
theorem not_getUuid52bit_lt : ¬(getUuid52bit ⟨3, 0, 0, 0, 0⟩ 1589225287).1.toNat < 2^52 := by
  decide +kernel

/-! ## The ids of a run -/

/-- A `get` takes the next id, and every other request leaves the process as it is. -/
theorem processRequestBuffer_cases (s : Server) (now : ℕ) (rbuf : Bytes) :
    (∃ a, (∀ uuid, a ≠ .value uuid) ∧ processRequestBuffer s now rbuf = (a, s)) ∨
      processRequestBuffer s now rbuf = (.value (uuid52bit s.mid now (s.sid + 1)),
        { s with sid := s.sid + 1, stat_numcommands := s.stat_numcommands + 1 }) := by
  unfold processRequestBuffer
  cases strstrCrlf rbuf with
  | none => exact .inl ⟨.incomplete, by simp, rfl⟩
  | some p =>
    dsimp only
    by_cases hline : p + 2 ≠ rbuf.length
    · exact .inl ⟨.error, by simp, if_pos hline⟩
    rw [if_neg hline]
    by_cases hquit : strcasecmpEq rbuf (text "quit\r\n")
    · exact .inl ⟨.quit, by simp, if_pos hquit⟩
    rw [if_neg hquit]
    by_cases hget : strncasecmpEq rbuf (text "get ") 4
    · exact .inr (if_pos hget)
    rw [if_neg hget]
    by_cases hstats : strncasecmpEq rbuf (text "stats ") 4
    · exact .inl ⟨.stats s, by simp, if_pos hstats⟩
    · exact .inl ⟨.error, by simp, if_neg hstats⟩

/-- An event calls `get_uuid_52bit` once or not at all, and the counter counts the calls. -/
theorem step_spec (s : Server) (e : Event) :
    (s.step e).2.mid = s.mid ∧
      ((s.step e).1 = none ∧ (s.step e).2.sid = s.sid ∨
        ∃ now, (s.step e).1 = some (now, uuid52bit s.mid now (s.sid + 1)) ∧
          (s.step e).2.sid = s.sid + 1) := by
  cases e with
  | accept => exact ⟨rfl, .inl ⟨rfl, rfl⟩⟩
  | free => exact ⟨rfl, .inl ⟨rfl, rfl⟩⟩
  | request now rbuf =>
    rcases processRequestBuffer_cases s now rbuf with ⟨a, ha, heq⟩ | heq
    · have hstep : s.step (.request now rbuf) = (none, s) := by
        unfold Server.step
        dsimp only
        rw [heq]
        cases a with
        | value uuid => exact absurd rfl (ha uuid)
        | incomplete => rfl
        | error => rfl
        | quit => rfl
        | stats _ => rfl
      rw [hstep]
      exact ⟨rfl, .inl ⟨rfl, rfl⟩⟩
    · unfold Server.step
      dsimp only
      rw [heq]
      exact ⟨rfl, .inr ⟨now, rfl, rfl⟩⟩

theorem ids_cons (s : Server) (e : Event) (es : List Event) :
    ids s (e :: es) = (s.step e).1.toList ++ ids (s.step e).2 es := rfl

/-- The id of the `i`-th call has the counter that the process started with, and `i + 1`. -/
theorem getElem?_ids {s : Server} {es : List Event} {i t : ℕ} {u : UInt64}
    (h : (ids s es)[i]? = some (t, u)) :
    u = uuid52bit s.mid t (s.sid + UInt64.ofNat (i + 1)) := by
  induction es generalizing s i with
  | nil => simp [ids] at h
  | cons e es ih =>
    obtain ⟨hmid, ⟨hcall, hsid⟩ | ⟨now, hcall, hsid⟩⟩ := step_spec s e
    · have hcons : ids s (e :: es) = ids (s.step e).2 es := by
        rw [ids_cons, hcall]
        rfl
      rw [hcons] at h
      rw [ih h, hmid, hsid]
    · have hcons : ids s (e :: es) = (now, uuid52bit s.mid now (s.sid + 1)) ::
          ids (s.step e).2 es := by
        rw [ids_cons, hcall]
        rfl
      rw [hcons] at h
      cases i with
      | zero =>
        obtain ⟨rfl, rfl⟩ := Prod.mk.inj (Option.some.inj h)
        rfl
      | succ i =>
        have hadd : s.sid + 1 + UInt64.ofNat (i + 1) = s.sid + UInt64.ofNat (i + 1 + 1) := by
          rw [UInt64.ofNat_add (i + 1) 1, UInt64.add_assoc, UInt64.add_comm 1]
          rfl
        rw [ih h, hmid, hsid, hadd]

/-- Two calls return the same id if and only if the processes have the same `mid`, the clock
readings are the same and the numbers of the calls agree modulo `2 ^ 18`. -/
theorem id_eq_iff {opts opts' : List Opt} {s s' : Server} (hs : main opts = some s)
    (hs' : main opts' = some s') {es es' : List Event} {i j t t' : ℕ} {u u' : UInt64}
    (hi : (ids s es)[i]? = some (t, u)) (hj : (ids s' es')[j]? = some (t', u'))
    (ht : InRange t) (ht' : InRange t') :
    u = u' ↔ s.mid = s'.mid ∧ t = t' ∧ i ≡ j [MOD 262144] := by
  obtain ⟨hmid, hsid⟩ := main_spec hs
  obtain ⟨hmid', hsid'⟩ := main_spec hs'
  have hcount : ∀ n, ((0 : UInt64) + UInt64.ofNat (n + 1)).toNat ≡ n + 1 [MOD 262144] := by
    intro n
    rw [UInt64.zero_add, UInt64.toNat_ofNat', Nat.ModEq]
    omega
  rw [getElem?_ids hi, getElem?_ids hj, uuid52bit_eq_iff _ _ hmid hmid' ht ht', hsid, hsid']
  have hmod : ((0 : UInt64) + UInt64.ofNat (i + 1)).toNat ≡
      ((0 : UInt64) + UInt64.ofNat (j + 1)).toNat [MOD 262144] ↔ i ≡ j [MOD 262144] := by
    constructor
    · intro h
      exact Nat.ModEq.add_right_cancel' 1 ((hcount i).symm.trans (h.trans (hcount j)))
    · intro h
      exact (hcount i).trans ((h.add_right 1).trans (hcount j).symm)
  rw [hmod]

/-- A process whose clock does not go back, and that answers at most `2 ^ 18` times in any one
second, returns each id once. -/
theorem nodup_ids {opts : List Opt} {s : Server} (hs : main opts = some s) {es : List Event}
    (hrange : ∀ c ∈ ids s es, InRange c.1) (hclock : (ids s es).Pairwise fun c d => c.1 ≤ d.1)
    (hrate : ∀ t, (ids s es).countP (fun c => c.1 = t) ≤ 262144) :
    ((ids s es).map Prod.snd).Nodup := by
  rw [List.Nodup, List.pairwise_map, List.pairwise_iff_getElem]
  intro i j hi hj hij heq
  have hgeti : (ids s es)[i]? = some ((ids s es)[i].1, (ids s es)[i].2) :=
    List.getElem?_eq_getElem hi
  have hgetj : (ids s es)[j]? = some ((ids s es)[j].1, (ids s es)[j].2) :=
    List.getElem?_eq_getElem hj
  obtain ⟨-, ht, hmod⟩ := (id_eq_iff hs hs hgeti hgetj (hrange _ (List.getElem_mem hi))
    (hrange _ (List.getElem_mem hj))).mp heq
  have hgap : i + 262144 ≤ j := by
    rw [Nat.ModEq] at hmod
    omega
  -- All the calls from the first of the two to the second are in the same second.
  have hslice : ∀ c ∈ ((ids s es).take (j + 1)).drop i, c.1 = (ids s es)[i].1 := by
    intro c hc
    obtain ⟨k, hk, rfl⟩ := List.mem_iff_getElem.mp hc
    rw [List.length_drop, List.length_take] at hk
    rw [List.getElem_drop, List.getElem_take]
    have hle : ∀ a b (ha : a < (ids s es).length) (hb : b < (ids s es).length), a ≤ b →
        (ids s es)[a].1 ≤ (ids s es)[b].1 := by
      intro a b ha hb hab
      rcases Nat.eq_or_lt_of_le hab with rfl | hab
      · exact le_rfl
      · exact List.pairwise_iff_getElem.mp hclock a b ha hb hab
    have h1 := hle i (i + k) hi (by omega) (by omega)
    have h2 := hle (i + k) j (by omega) hj (by omega)
    omega
  have hcount : (((ids s es).take (j + 1)).drop i).countP (fun c => c.1 = (ids s es)[i].1) =
      j + 1 - i := by
    rw [List.countP_eq_length.mpr fun c hc => decide_eq_true (hslice c hc), List.length_drop,
      List.length_take]
    omega
  have hsub : (((ids s es).take (j + 1)).drop i).countP (fun c => c.1 = (ids s es)[i].1) ≤
      (ids s es).countP fun c => c.1 = (ids s es)[i].1 :=
    ((List.drop_sublist _ _).trans (List.take_sublist _ _)).countP_le
  have := hrate (ids s es)[i].1
  omega

/-- Two calls of processes that `main` has started return the same id if and only if the processes
have the same `mid`, the clock readings are the same and the numbers of the calls agree modulo
`2 ^ 18`; and a process whose clock does not go back, and that answers at most `2 ^ 18` times in any
one second, returns each id once. -/
theorem uuid_unique {opts opts' : List Opt} {s s' : Server} (hs : main opts = some s)
    (hs' : main opts' = some s') :
    (∀ (es es' : List Event) (i j t t' : ℕ) (u u' : UInt64), (ids s es)[i]? = some (t, u) →
      (ids s' es')[j]? = some (t', u') → InRange t → InRange t' →
        (u = u' ↔ s.mid = s'.mid ∧ t = t' ∧ i ≡ j [MOD 262144])) ∧
    ∀ es : List Event, (∀ c ∈ ids s es, InRange c.1) →
      ((ids s es).Pairwise fun c d => c.1 ≤ d.1) →
      (∀ t, (ids s es).countP (fun c => c.1 = t) ≤ 262144) → ((ids s es).map Prod.snd).Nodup :=
  ⟨fun _ _ _ _ _ _ _ _ hi hj ht ht' => id_eq_iff hs hs' hi hj ht ht',
    fun _ hrange hclock hrate => nodup_ids hs hrange hclock hrate⟩

/-- `main` accepts each of the ids from 0 to 15. -/
theorem main_u {n : ℕ} (hn : n ≤ 15) :
    main [.u (decimal n)] = some ⟨UInt64.ofNat n, 0, 0, 0, 0⟩ := by
  have hofInt : UInt64.ofInt (n : ℤ) = UInt64.ofNat n := by
    have hmod : ((n : ℤ) % 2^64).toNat = n := by omega
    rw [UInt64.ofInt, hmod]
  have hle : ¬UInt64.ofNat n > 15 := by
    rw [UInt64.not_lt, UInt64.le_iff_toNat_le, UInt64.toNat_ofNat']
    simp
    omega
  unfold main
  rw [options, atoi_decimal (by omega), hofInt, if_neg hle, options]
  simp only [Option.bind_eq_bind, Option.bind_some]
  rw [if_neg hle]

/-- Two requests in one second. -/
def twoGets : List Event :=
  [.request 1700000000 (text "get uuid\r\n"), .request 1700000000 (text "get uuid\r\n")]

/-- Processes 3 and 4 answer two requests each in the same second: their first ids differ, and those
of process 3 do. -/
theorem uuid_unique_twoGets :
    (uuid52bit 3 1700000000 1 = uuid52bit 4 1700000000 1 ↔
      (3 : UInt64) = 4 ∧ 1700000000 = 1700000000 ∧ 0 ≡ 0 [MOD 262144]) ∧
    ((ids ⟨3, 0, 0, 0, 0⟩ twoGets).map Prod.snd).Nodup := by
  have h3 : main [.u (decimal 3)] = some ⟨3, 0, 0, 0, 0⟩ := main_u (by decide)
  have h4 : main [.u (decimal 4)] = some ⟨4, 0, 0, 0, 0⟩ := main_u (by decide)
  have hunique := uuid_unique h3 h4
  have hrange : InRange 1700000000 := ⟨by decide, by decide⟩
  have hids : ids ⟨3, 0, 0, 0, 0⟩ twoGets =
      [(1700000000, uuid52bit 3 1700000000 1), (1700000000, uuid52bit 3 1700000000 2)] := by
    decide +kernel
  refine ⟨hunique.1 twoGets twoGets 0 0 1700000000 1700000000 _ _ (by decide +kernel)
    (by decide +kernel) hrange hrange, hunique.2 twoGets ?_ ?_ ?_⟩
  · intro c hc
    rw [hids] at hc
    rcases List.mem_pair.mp hc with rfl | rfl
    · exact hrange
    · exact hrange
  · rw [hids]
    exact List.pairwise_pair.mpr le_rfl
  · intro t
    rw [hids]
    exact List.countP_le_length.trans (by decide)

end MgCommonUtils.RedisUuid
