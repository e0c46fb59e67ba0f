import MgCommonUtils.Lib.Reader

/-!
# Writing into an array

An array as the bytes that it holds, `memcpy` into it, and a pointer into it that texts are written
at. A write that does not fit stops the computation. `Cursor.store_ok` is what a program that puts a
text together piece by piece needs: where there is room, the text in front of the pointer grows by
what is written.
-/

namespace MgCommonUtils.Lib

/-- `memcpy(dst+off,src,n)`, where `src` are the `n` bytes. -/
def memcpy (dst : Bytes) (off : ℕ) (src : Bytes) : Bytes :=
  dst.take off ++ src ++ dst.drop (off + src.length)

/-- What was copied behind the front of an array, and the front. -/
theorem take_memcpy (front rest src : Bytes) :
    (memcpy (front ++ rest) front.length src).take (front.length + src.length) = front ++ src := by
  rw [memcpy, List.take_left]
  exact List.take_left' List.length_append

/-- The array keeps its size. -/
theorem length_memcpy {dst src : Bytes} {off : ℕ} (h : off + src.length ≤ dst.length) :
    (memcpy dst off src).length = dst.length := by
  rw [memcpy, List.length_append, List.length_append, List.length_take, List.length_drop]
  omega

/-- Two copies, one behind the other, are one. -/
theorem memcpy_memcpy {dst : Bytes} {off : ℕ} {a b : Bytes}
    (h : off + a.length + b.length ≤ dst.length) :
    memcpy (memcpy dst off a) (off + a.length) b = memcpy dst off (a ++ b) := by
  have htake : (memcpy dst off a).take (off + a.length) = dst.take off ++ a := by
    refine List.take_left' ?_
    rw [List.length_append, List.length_take]
    omega
  have hdrop : (memcpy dst off a).drop (off + a.length + b.length) =
      dst.drop (off + a.length + b.length) := by
    have hlen : (dst.take off ++ a).length = off + a.length := by
      rw [List.length_append, List.length_take]
      omega
    rw [memcpy, List.drop_append, hlen, List.drop_of_length_le (by omega), List.nil_append,
      Nat.add_sub_cancel_left, List.drop_drop]
  rw [memcpy, htake, hdrop, memcpy, List.length_append, Nat.add_assoc]
  simp only [List.append_assoc]

/-- Two runs of bytes that are as long as the buffer together replace all of it. -/
theorem memcpy_memcpy_full {dst a b : Bytes} (h : a.length + b.length = dst.length) :
    memcpy (memcpy dst 0 a) a.length b = a ++ b := by
  have hjoin := @memcpy_memcpy dst 0 a b (by omega)
  rw [Nat.zero_add] at hjoin
  rw [hjoin, memcpy, List.take_zero, List.nil_append]
  refine List.append_right_eq_self.mpr (List.drop_of_length_le ?_)
  rw [List.length_append]
  omega

/-- An array and a pointer into it. -/
structure Cursor where
  /-- The array. -/
  ptr : Bytes
  /-- The offset of the pointer. -/
  pos : ℕ
  deriving DecidableEq, Repr

namespace Cursor

/-- What stands in front of the pointer. -/
def text (c : Cursor) : Bytes := c.ptr.take c.pos

/-- The bytes `src` and `tail` are written at the pointer, which moves behind `src`. -/
def store (c : Cursor) (src tail : Bytes) : Except Stop Cursor :=
  if c.pos + (src ++ tail).length ≤ c.ptr.length then
    .ok ⟨memcpy c.ptr c.pos (src ++ tail), c.pos + src.length⟩
  else .error .outOfBounds

/-- `*pos=b; ++pos;`. -/
def putc (c : Cursor) (b : UInt8) : Except Stop Cursor := c.store [b] []

/-- `pos+=sprintf(pos,...)`, where `s` is the text: a NUL is written behind it. -/
def sprintf (c : Cursor) (s : Bytes) : Except Stop Cursor := c.store s [0]

/-- Where there is room, the text grows. -/
theorem store_ok {c : Cursor} (src tail : Bytes)
    (h : c.pos + (src ++ tail).length ≤ c.ptr.length) : ∃ c', c.store src tail = .ok c' ∧
      c'.ptr.length = c.ptr.length ∧ c'.pos = c.pos + src.length ∧ c'.text = c.text ++ src := by
  refine ⟨_, if_pos h, length_memcpy h, rfl, ?_⟩
  rw [List.length_append] at h
  have hpos : (c.ptr.take c.pos).length = c.pos := List.length_take_of_le (by omega)
  change (memcpy c.ptr c.pos (src ++ tail)).take (c.pos + src.length) = c.text ++ src
  rw [memcpy, ← List.append_assoc, List.append_assoc]
  exact List.take_left' (by rw [List.length_append, hpos])

/-- Where there is room for a byte, the text grows by it. -/
theorem putc_ok {c : Cursor} (h : c.pos < c.ptr.length) (b : UInt8) : ∃ c', c.putc b = .ok c' ∧
    c'.ptr.length = c.ptr.length ∧ c'.pos = c.pos + 1 ∧ c'.text = c.text ++ [b] :=
  store_ok [b] [] h

/-- Where there is room for a text and its NUL, the text grows by it. -/
theorem sprintf_ok {c : Cursor} {s : Bytes} (h : c.pos + s.length < c.ptr.length) :
    ∃ c', c.sprintf s = .ok c' ∧ c'.ptr.length = c.ptr.length ∧ c'.pos = c.pos + s.length ∧
      c'.text = c.text ++ s := by
  refine store_ok s [0] ?_
  rw [List.length_append, List.length_singleton]
  exact h

end Cursor

end MgCommonUtils.Lib
