import Mathlib.Data.List.Infix
import MgCommonUtils.Lib.LittleEndian

/-!
# Readers of a memory

Computations that read bytes at offsets from a pointer. The memory is the byte string from the
pointer on; a read past its end stops the computation. A reader is `Stable` when what it returns
stays the same once more bytes follow: it looked at nothing beyond the end. The closure lemmas say
that the readers built from the primitive ones by sequencing and branching are stable, so the
result of a decoder on an encoding alone is its result on the encoding followed by anything.
-/

namespace MgCommonUtils.Lib

/-- Why a computation has no result. -/
inductive Stop where
  /-- It accesses bytes outside of its memory. -/
  | outOfBounds
  /-- An argument does not fit the callee's type, and the callee refuses it. -/
  | overflow
  /-- It runs forever. -/
  | forever
  deriving DecidableEq, Repr

/-- A sequence of fallible computations goes on with what the first of them returns. -/
theorem except_bind_of_ok {ε α β : Type} {x : Except ε α} {f : α → Except ε β} {a : α}
    (h : x = .ok a) : (x >>= f) = f a := by
  rw [h]
  rfl

/-- A sequence of fallible computations returns when its parts do. -/
theorem except_bind_eq_ok {ε α β : Type} {x : Except ε α} {f : α → Except ε β} {b : β} :
    (x >>= f) = .ok b ↔ ∃ a, x = .ok a ∧ f a = .ok b := by
  cases x with
  | error e => simp [bind, Except.bind]
  | ok a => simp [bind, Except.bind]

/-- What is done to the result of a fallible computation. -/
theorem except_map_eq_ok {ε α β : Type} {x : Except ε α} {f : α → β} {b : β} :
    x.map f = .ok b ↔ ∃ a, x = .ok a ∧ f a = b := by
  cases x with
  | error e => simp [Except.map]
  | ok a => simp [Except.map]

/-- A sequence of fallible computations fails in a way only where a part of it does. -/
theorem except_bind_ne_error {ε α β : Type} {x : Except ε α} {f : α → Except ε β} {e : ε}
    (hx : x ≠ .error e) (hf : ∀ a, x = .ok a → f a ≠ .error e) : (x >>= f) ≠ .error e := by
  cases x with
  | ok a => exact hf a rfl
  | error e' =>
    intro h
    obtain rfl := Except.error.inj h
    exact hx rfl

/-- A fallible computation whose evaluation returns. -/
theorem exists_ok_of_isSome {ε α : Type} {x : Except ε α} (h : x.toOption.isSome = true) :
    ∃ a, x = .ok a := by
  cases x with
  | error e => cases h
  | ok a => exact ⟨a, rfl⟩

/-- What a fallible computation returns. -/
theorem mem_toOption {ε α : Type} {x : Except ε α} {a : α} (h : x = .ok a) : a ∈ x.toOption := by
  rw [h]
  rfl

/-- A computation that reads the memory that it is given. -/
def Reader (α : Type) : Type := Bytes → Except Stop α

namespace Reader

variable {α β : Type}

/-- The computation that goes on with what the first part returns. -/
def andThen (r : Reader α) (f : α → Reader β) : Reader β := fun m =>
  match r m with
  | .ok a => f a m
  | .error e => .error e

instance : Monad Reader where
  pure a := fun _ => .ok a
  bind := andThen

/-- The computation that stops. -/
def stop (e : Stop) : Reader α := fun _ => .error e

/-- The byte at offset `p`. -/
def byteAt (p : ℕ) : Reader ℕ := fun m =>
  match m[p]? with
  | some b => .ok b.toNat
  | none => .error .outOfBounds

/-- The `n` bytes from offset `p` on. No byte is accessed when `n` is 0. -/
def bytesAt (p n : ℕ) : Reader Bytes := fun m =>
  if ((m.drop p).take n).length = n then .ok ((m.drop p).take n) else .error .outOfBounds

/-- The C string at offset `p`: the bytes before the first NUL. -/
def cstrAt (p : ℕ) : Reader Bytes := fun m =>
  if 0 ∈ m.drop p then .ok (cstr (m.drop p)) else .error .outOfBounds

/-- The unsigned little-endian integer in the `n` bytes from offset `p` on. -/
def leAt (p n : ℕ) : Reader ℕ := do
  return leNat (← bytesAt p n)

/-- The result of a computation that reads none of the memory. -/
def ofExcept (x : Except Stop α) : Reader α := fun _ => x

/-- The reader on the memory from offset `p` on. -/
def shift (p : ℕ) (r : Reader α) : Reader α := fun m => r (m.drop p)

/-! ## Results -/

@[simp]
theorem pure_apply (a : α) (m : Bytes) : (pure a : Reader α) m = .ok a := rfl

@[simp]
theorem stop_apply (e : Stop) (m : Bytes) : (stop e : Reader α) m = .error e := rfl

@[simp]
theorem ofExcept_apply (x : Except Stop α) (m : Bytes) : ofExcept x m = x := rfl

theorem shift_apply (p : ℕ) (r : Reader α) (m : Bytes) : shift p r m = r (m.drop p) := rfl

/-- A sequence whose first part returns goes on with its second. -/
theorem bind_ok {r : Reader α} {f : α → Reader β} {m : Bytes} {a : α} (h : r m = .ok a) :
    (r >>= f) m = f a m := by
  change andThen r f m = f a m
  unfold andThen
  rw [h]

/-- A sequence whose first part stops stops there. -/
theorem bind_error {r : Reader α} {f : α → Reader β} {m : Bytes} {e : Stop}
    (h : r m = .error e) : (r >>= f) m = .error e := by
  change andThen r f m = .error e
  unfold andThen
  rw [h]

/-- A sequence returns when its parts do. -/
theorem bind_eq_ok {r : Reader α} {f : α → Reader β} {m : Bytes} {b : β} :
    (r >>= f) m = .ok b ↔ ∃ a, r m = .ok a ∧ f a m = .ok b := by
  constructor
  · intro h
    change andThen r f m = .ok b at h
    unfold andThen at h
    split at h
    · rename_i a ha
      exact ⟨a, ha, h⟩
    · cases h
  · rintro ⟨a, ha, hb⟩
    rw [bind_ok ha, hb]

-- Sequences are compared part by part, not by what they compute.
attribute [irreducible] andThen

/-- The bytes after a known prefix. -/
theorem bytesAt_append {p n : ℕ} {e s t : Bytes} (he : e.length = p) (hs : s.length = n) :
    bytesAt p n (e ++ (s ++ t)) = .ok s := by
  unfold bytesAt
  rw [List.drop_left' he, List.take_left' hs, if_pos hs]

/-- Behind known bytes comes what follows them. -/
theorem drop_add_of_drop {m s t : Bytes} {p : ℕ} (h : m.drop p = s ++ t) :
    m.drop (p + s.length) = t := by
  rw [← List.drop_drop, h, List.drop_left]

/-- Behind known bytes, at an offset that is known by another name. -/
theorem drop_of_drop {m s t : Bytes} {p q : ℕ} (h : m.drop p = s ++ t) (hq : p + s.length = q) :
    m.drop q = t :=
  hq ▸ drop_add_of_drop h

/-- A byte of what the memory is known to hold from an offset on. -/
theorem byteAt_add_of_drop {m s t : Bytes} {p k : ℕ} {b : UInt8} (h : m.drop p = s ++ t)
    (hk : s[k]? = some b) : byteAt (p + k) m = .ok b.toNat := by
  have hlt : k < s.length := (List.getElem?_eq_some_iff.mp hk).1
  have hget : m[p + k]? = some b := by
    rw [← List.getElem?_drop, h, List.getElem?_append_left hlt, hk]
  unfold byteAt
  rw [hget]

/-- The byte at an offset from which the memory is known. -/
theorem byteAt_of_drop {m t : Bytes} {p : ℕ} {b : UInt8} (h : m.drop p = b :: t) :
    byteAt p m = .ok b.toNat :=
  byteAt_add_of_drop (s := [b]) (k := 0) h rfl

/-- The bytes at an offset from which the memory is known. -/
theorem bytesAt_of_drop {m s t : Bytes} {p n : ℕ} (h : m.drop p = s ++ t) (hs : s.length = n) :
    bytesAt p n m = .ok s := by
  unfold bytesAt
  rw [h, List.take_left' hs, if_pos hs]

/-- The integer that was written at an offset, as far as the bytes hold it. -/
theorem leAt_of_drop_mod {m t : Bytes} {p n v : ℕ} (h : m.drop p = leBytes n v ++ t) :
    leAt p n m = .ok (v % 256 ^ n) := by
  unfold leAt
  rw [bind_ok (bytesAt_of_drop h (length_leBytes n v)), pure_apply, leNat_leBytes_mod]

/-- The integer that was written at an offset. -/
theorem leAt_of_drop {m t : Bytes} {p n v : ℕ} (h : m.drop p = leBytes n v ++ t)
    (hv : v < 256 ^ n) : leAt p n m = .ok v := by
  rw [leAt_of_drop_mod h, Nat.mod_eq_of_lt hv]

/-- A C string is read if and only if its bytes are there, and a NUL behind them. -/
theorem cstrAt_eq_ok {p : ℕ} {m s : Bytes} :
    cstrAt p m = .ok s ↔ 0 ∉ s ∧ ∃ rest, m.drop p = s ++ 0 :: rest := by
  unfold cstrAt
  constructor
  · intro h
    split at h
    · rename_i hmem
      obtain ⟨u, rest, hdrop, hnul⟩ := List.eq_append_cons_of_mem hmem
      obtain rfl := Except.ok.inj h
      rw [hdrop, cstr_append_nul, cstr_eq_self hnul]
      exact ⟨hnul, rest, rfl⟩
    · cases h
  · rintro ⟨hnul, rest, hdrop⟩
    have hmem : (0 : UInt8) ∈ m.drop p := by
      rw [hdrop]
      exact List.mem_append_right _ List.mem_cons_self
    rw [if_pos hmem, hdrop, cstr_append_nul, cstr_eq_self hnul]

/-- Bytes that were read are as many as asked for. -/
theorem length_of_bytesAt {p n : ℕ} {m s : Bytes} (h : bytesAt p n m = .ok s) : s.length = n := by
  unfold bytesAt at h
  split at h
  · rename_i hn
    obtain rfl := Except.ok.inj h
    exact hn
  · cases h

/-! ## Stability -/

/-- What the reader returns stays the same when more bytes follow. -/
def Stable (r : Reader α) : Prop := ∀ ⦃m m' : Bytes⦄ ⦃a : α⦄, m <+: m' → r m = .ok a → r m' = .ok a

namespace Stable

/-- Bytes may follow. -/
theorem append {r : Reader α} (h : Stable r) {m : Bytes} {a : α} (hm : r m = .ok a) (t : Bytes) :
    r (m ++ t) = .ok a :=
  h (List.prefix_append m t) hm

theorem pure (a : α) : Stable (Pure.pure a : Reader α) := fun _ _ _ _ h => h

theorem stop (e : Stop) : Stable (Reader.stop e : Reader α) := fun _ _ _ _ h => h

theorem ofExcept (x : Except Stop α) : Stable (Reader.ofExcept x) := fun _ _ _ _ h => h

theorem bind {r : Reader α} {f : α → Reader β} (hr : Stable r) (hf : ∀ a, Stable (f a)) :
    Stable (r >>= f) := by
  intro m m' b hm h
  obtain ⟨a, ha, hb⟩ := bind_eq_ok.mp h
  exact bind_eq_ok.mpr ⟨a, hr hm ha, hf a hm hb⟩

theorem ite {c : Prop} [Decidable c] {r r' : Reader α} (hr : Stable r) (hr' : Stable r') :
    Stable (if c then r else r') := by
  split
  · exact hr
  · exact hr'

theorem byteAt (p : ℕ) : Stable (Reader.byteAt p) := by
  rintro m _ a ⟨t, rfl⟩ h
  unfold Reader.byteAt at h ⊢
  cases hb : m[p]? with
  | none => rw [hb] at h; cases h
  | some b =>
    have hp : p < m.length := (List.getElem?_eq_some_iff.mp hb).1
    rw [hb] at h
    rw [List.getElem?_append_left hp, hb]
    exact h

theorem bytesAt (p n : ℕ) : Stable (Reader.bytesAt p n) := by
  rintro m _ a ⟨t, rfl⟩ h
  have hlen := length_of_bytesAt h
  unfold Reader.bytesAt at h ⊢
  split at h
  · rename_i hn
    obtain rfl := Except.ok.inj h
    have htake : ((m ++ t).drop p).take n = (m.drop p).take n := by
      rw [List.drop_append, List.take_append_of_le_length]
      rw [List.length_take] at hn
      omega
    rw [htake, if_pos hn]
  · cases h

theorem cstrAt (p : ℕ) : Stable (Reader.cstrAt p) := by
  rintro m _ a ⟨t, rfl⟩ h
  unfold Reader.cstrAt at h ⊢
  split at h
  · rename_i h0
    obtain rfl := Except.ok.inj h
    have hmem : 0 ∈ (m ++ t).drop p := by
      rw [List.drop_append]
      exact List.mem_append_left _ h0
    have hcut : cstr ((m ++ t).drop p) = cstr (m.drop p) := by
      unfold cstr
      rw [List.drop_append, List.takeWhile_append, if_neg]
      -- A string cut by its NUL is shorter than the bytes.
      intro hall
      have hsuf := List.takeWhile_eq_self_iff.mp
        ((List.takeWhile_prefix _).eq_of_length hall)
      simpa using hsuf 0 h0
    rw [if_pos hmem, hcut]
  · cases h

theorem leAt (p n : ℕ) : Stable (Reader.leAt p n) :=
  (bytesAt p n).bind fun _ => pure _

theorem shift (p : ℕ) {r : Reader α} (hr : Stable r) : Stable (Reader.shift p r) := by
  rintro m _ a ⟨t, rfl⟩ h
  unfold Reader.shift at h ⊢
  rw [List.drop_append]
  exact hr.append h _

end Stable

/-! ## Termination -/

/-- The reader does not run forever, whatever the memory. -/
def Ends (r : Reader α) : Prop := ∀ m : Bytes, r m ≠ .error .forever

/-- What returns does not run forever. -/
theorem ok_ne_forever (a : α) : (Except.ok a : Except Stop α) ≠ .error .forever := by
  intro h
  cases h

/-- Nor does what stops for another reason. -/
theorem error_ne_forever {e : Stop} (he : e ≠ .forever) :
    (Except.error e : Except Stop α) ≠ .error .forever :=
  fun h => he (Except.error.inj h)

/-- A sequence runs forever only where a part of it does. -/
theorem bind_ne_forever {r : Reader α} {f : α → Reader β} {m : Bytes}
    (hr : r m ≠ .error .forever) (hf : ∀ a, r m = .ok a → f a m ≠ .error .forever) :
    (r >>= f) m ≠ .error .forever := by
  intro h
  cases hm : r m with
  | ok a =>
    rw [bind_ok hm] at h
    exact hf a hm h
  | error e =>
    rw [bind_error hm] at h
    obtain rfl := Except.error.inj h
    exact hr hm

namespace Ends

theorem pure (a : α) : Ends (Pure.pure a : Reader α) := fun _ => ok_ne_forever a

theorem stop {e : Stop} (he : e ≠ .forever) : Ends (Reader.stop e : Reader α) :=
  fun _ => error_ne_forever he

theorem ofExcept {x : Except Stop α} (hx : x ≠ .error .forever) : Ends (Reader.ofExcept x) :=
  fun _ => hx

theorem bind {r : Reader α} {f : α → Reader β} (hr : Ends r) (hf : ∀ a, Ends (f a)) :
    Ends (r >>= f) :=
  fun m => bind_ne_forever (hr m) fun a _ => hf a m

theorem ite {c : Prop} [Decidable c] {r r' : Reader α} (hr : Ends r) (hr' : Ends r') :
    Ends (if c then r else r') := by
  split
  · exact hr
  · exact hr'

theorem byteAt (p : ℕ) : Ends (Reader.byteAt p) := by
  intro m
  unfold Reader.byteAt
  split
  · exact ok_ne_forever _
  · exact error_ne_forever (by decide)

theorem bytesAt (p n : ℕ) : Ends (Reader.bytesAt p n) := by
  intro m
  unfold Reader.bytesAt
  split
  · exact ok_ne_forever _
  · exact error_ne_forever (by decide)

theorem cstrAt (p : ℕ) : Ends (Reader.cstrAt p) := by
  intro m
  unfold Reader.cstrAt
  split
  · exact ok_ne_forever _
  · exact error_ne_forever (by decide)

theorem leAt (p n : ℕ) : Ends (Reader.leAt p n) :=
  (bytesAt p n).bind fun _ => pure _

theorem shift (p : ℕ) {r : Reader α} (hr : Ends r) : Ends (Reader.shift p r) := fun _ => hr _

end Ends

end Reader

end MgCommonUtils.Lib
