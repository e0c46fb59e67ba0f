import MgCommonUtils.Lib.LittleEndian

/-!
# Bitmaps

Lists of bits packed into bytes, eight to a byte and the lowest bit first. Where their number is no
multiple of eight, the bits that are left over are filled. `bit_bitmap` says that a bit is read
back from its byte.
-/

namespace MgCommonUtils.Lib

/-- The number with the given bits, the lowest first. -/
def bitsNat : List Bool → ℕ
  | [] => 0
  | b :: bits => b.toNat + 2 * bitsNat bits

/-- The number is less than what that many bits can hold. -/
theorem bitsNat_lt (bits : List Bool) : bitsNat bits < 2 ^ bits.length := by
  induction bits with
  | nil => exact Nat.one_pos
  | cons b bits ih =>
    have hb := b.toNat_le
    rw [bitsNat, List.length_cons, Nat.pow_succ]
    omega

/-- A bit of the number. -/
theorem shiftRight_bitsNat (bits : List Bool) (i : ℕ) :
    (bitsNat bits >>> i) % 2 = (bits.getD i false).toNat := by
  induction bits generalizing i with
  | nil => simp [bitsNat]
  | cons b bits ih =>
    have hb := b.toNat_le
    cases i with
    | zero =>
      rw [bitsNat, Nat.shiftRight_zero, List.getD_cons_zero]
      omega
    | succ i =>
      have hhalf : (b.toNat + 2 * bitsNat bits) / 2 = bitsNat bits := by omega
      rw [bitsNat, Nat.add_comm i 1, Nat.shiftRight_add, Nat.shiftRight_one, hhalf, ih,
        Nat.add_comm 1 i, List.getD_cons_succ]

/-- Byte `j` of the bitmap. -/
def bitmapByte (fill : Bool) (bits : List Bool) (j : ℕ) : UInt8 :=
  UInt8.ofNat (bitsNat ((List.range 8).map fun k => bits.getD (8 * j + k) fill))

/-- The bytes that hold the bits. -/
def bitmap (fill : Bool) (bits : List Bool) : Bytes :=
  (List.range ((bits.length + 7) / 8)).map (bitmapByte fill bits)

@[simp]
theorem length_bitmap (fill : Bool) (bits : List Bool) :
    (bitmap fill bits).length = (bits.length + 7) / 8 := by
  rw [bitmap, List.length_map, List.length_range]

/-- A byte holds its eight bits. -/
theorem toNat_bitmapByte (fill : Bool) (bits : List Bool) (j : ℕ) :
    (bitmapByte fill bits j).toNat =
      bitsNat ((List.range 8).map fun k => bits.getD (8 * j + k) fill) := by
  have hlt := bitsNat_lt ((List.range 8).map fun k => bits.getD (8 * j + k) fill)
  rw [List.length_map, List.length_range] at hlt
  exact UInt8.toNat_ofNat_of_lt' hlt

/-- The byte of a bit. -/
theorem getElem?_bitmap (fill : Bool) {bits : List Bool} {i : ℕ} (hi : i < bits.length) :
    (bitmap fill bits)[i / 8]? = some (bitmapByte fill bits (i / 8)) := by
  have hj : i / 8 < (bits.length + 7) / 8 := by omega
  rw [bitmap, List.getElem?_map, List.getElem?_range hj, Option.map_some]

/-- A bit is read back from its byte. -/
theorem bit_bitmap (fill : Bool) {bits : List Bool} {i : ℕ} (hi : i < bits.length) :
    ((bitmapByte fill bits (i / 8)).toNat >>> (i % 8)) % 2 = bits[i].toNat := by
  have hplace : 8 * (i / 8) + i % 8 = i := Nat.div_add_mod i 8
  have hmod : i % 8 < 8 := Nat.mod_lt i (by norm_num)
  rw [toNat_bitmapByte, shiftRight_bitsNat, List.getD_eq_getElem?_getD, List.getElem?_map,
    List.getElem?_range hmod, Option.map_some, Option.getD_some, hplace,
    List.getD_eq_getElem?_getD, List.getElem?_eq_getElem hi, Option.getD_some]

end MgCommonUtils.Lib
