import MgCommonUtils.Lib.Reader

/-!
# Types and conversions of the binlog parser

The codes and the conversions of `ebinlog/BinlogTypes.h`: MySQL's column types, the event types
that the parser knows, the macros that read little-endian integers, the packed integers of the
protocol, and the conversion of a packed decimal. A `uint32` is a natural number that is reduced
(`u32`) where the code computes with it.
-/

namespace MgCommonUtils.Ebinlog

open MgCommonUtils.Lib MgCommonUtils.Lib.Reader

/-! ## Codes -/

@[match_pattern] abbrev mysqlTypeTiny : ℕ := 1
@[match_pattern] abbrev mysqlTypeShort : ℕ := 2
@[match_pattern] abbrev mysqlTypeLong : ℕ := 3
@[match_pattern] abbrev mysqlTypeFloat : ℕ := 4
@[match_pattern] abbrev mysqlTypeDouble : ℕ := 5
@[match_pattern] abbrev mysqlTypeTimestamp : ℕ := 7
@[match_pattern] abbrev mysqlTypeLonglong : ℕ := 8
@[match_pattern] abbrev mysqlTypeInt24 : ℕ := 9
@[match_pattern] abbrev mysqlTypeDate : ℕ := 10
@[match_pattern] abbrev mysqlTypeTime : ℕ := 11
@[match_pattern] abbrev mysqlTypeDatetime : ℕ := 12
@[match_pattern] abbrev mysqlTypeYear : ℕ := 13
@[match_pattern] abbrev mysqlTypeNewdate : ℕ := 14
@[match_pattern] abbrev mysqlTypeVarchar : ℕ := 15
@[match_pattern] abbrev mysqlTypeBit : ℕ := 16
@[match_pattern] abbrev mysqlTypeNewdecimal : ℕ := 246
@[match_pattern] abbrev mysqlTypeEnum : ℕ := 247
@[match_pattern] abbrev mysqlTypeSet : ℕ := 248
@[match_pattern] abbrev mysqlTypeTinyBlob : ℕ := 249
@[match_pattern] abbrev mysqlTypeMediumBlob : ℕ := 250
@[match_pattern] abbrev mysqlTypeLongBlob : ℕ := 251
@[match_pattern] abbrev mysqlTypeBlob : ℕ := 252
@[match_pattern] abbrev mysqlTypeVarString : ℕ := 253
@[match_pattern] abbrev mysqlTypeString : ℕ := 254
@[match_pattern] abbrev mysqlTypeGeometry : ℕ := 255

@[match_pattern] abbrev rotateEvent : ℕ := 4
@[match_pattern] abbrev tableMapEvent : ℕ := 19
@[match_pattern] abbrev writeRowsEvent : ℕ := 23
@[match_pattern] abbrev updateRowsEvent : ℕ := 24
@[match_pattern] abbrev deleteRowsEvent : ℕ := 25

/-! ## Integers -/

/-- The conversion of a sum to `uint32`. -/
@[irreducible]
def u32 (n : ℕ) : ℕ := n % 4294967296

/-- The difference of two `uint32`. -/
@[irreducible]
def sub32 (a b : ℕ) : ℕ := u32 (a + (4294967296 - b))

/-- The conversion of an `int` to `uint32`. -/
def ofInt (i : ℤ) : ℕ := (i % 4294967296).toNat

/-- A number that fits is kept. -/
theorem u32_of_lt {n : ℕ} (h : n < 4294967296) : u32 n = n := by
  unfold u32
  exact Nat.mod_eq_of_lt h

/-- A difference that is not negative is the difference. -/
theorem sub32_of_le {a b : ℕ} (hb : b ≤ a) (ha : a < 4294967296) : sub32 a b = a - b := by
  unfold sub32 u32
  omega

/-- An `int` that is not negative is kept. -/
theorem ofInt_natCast {n : ℕ} (h : n < 4294967296) : ofInt n = n := by
  unfold ofInt
  omega

def sint2korr (p : ℕ) : Reader ℤ := do return signed 2 (← leAt p 2)

/-- The macro extends the sign of the third byte. -/
def sint3korr (p : ℕ) : Reader ℤ := do return signed 3 (← leAt p 3)

def sint4korr (p : ℕ) : Reader ℤ := do return signed 4 (← leAt p 4)

def sint8korr (p : ℕ) : Reader ℤ := do return signed 8 (← leAt p 8)

abbrev uint2korr (p : ℕ) : Reader ℕ := leAt p 2

abbrev uint3korr (p : ℕ) : Reader ℕ := leAt p 3

abbrev uint4korr (p : ℕ) : Reader ℕ := leAt p 4

abbrev uint6korr (p : ℕ) : Reader ℕ := leAt p 6

abbrev uint8korr (p : ℕ) : Reader ℕ := leAt p 8

/-- The byte at offset `p` as a `char`, which is signed. -/
def charAt (p : ℕ) : Reader ℤ := do return signed 1 (← byteAt p)

/-- The packed integer at offset `p`, as the `int` that is returned, and by how much `*pPos`
moves. -/
def decodePacketInt (p : ℕ) : Reader (ℤ × ℕ) := do
  let n ← byteAt p
  if n < 251 then
    return ((n : ℤ), 1)
  else if n = 251 then
    return (0, 1)
  else if n = 252 then
    let i ← uint2korr (p + 1)
    return ((i : ℤ), 3)
  else if n = 253 then
    let i ← uint3korr (p + 1)
    return ((i : ℤ), 4)
  else
    -- The low four of the eight bytes, converted to int.
    let i ← uint4korr (p + 1)
    return (signed 4 i, 9)

theorem stable_sint2korr (p : ℕ) : Stable (sint2korr p) := (Stable.leAt p 2).bind fun _ => .pure _

theorem stable_sint3korr (p : ℕ) : Stable (sint3korr p) := (Stable.leAt p 3).bind fun _ => .pure _

theorem stable_sint4korr (p : ℕ) : Stable (sint4korr p) := (Stable.leAt p 4).bind fun _ => .pure _

theorem stable_sint8korr (p : ℕ) : Stable (sint8korr p) := (Stable.leAt p 8).bind fun _ => .pure _

theorem stable_charAt (p : ℕ) : Stable (charAt p) := (Stable.byteAt p).bind fun _ => .pure _

/-- The packed integer is read from its own bytes. -/
theorem stable_decodePacketInt (p : ℕ) : Stable (decodePacketInt p) := by
  apply (Stable.byteAt p).bind
  intro n
  apply Stable.ite (.pure _)
  apply Stable.ite (.pure _)
  apply Stable.ite ((Stable.leAt _ _).bind fun _ => .pure _)
  apply Stable.ite ((Stable.leAt _ _).bind fun _ => .pure _)
  exact (Stable.leAt _ _).bind fun _ => .pure _

/-! ## Packed decimals -/

/-- `DIG_PER_DEC1`, the decimal digits in a word. -/
def digPerDec1 : ℕ := 9

/-- `dig2bytes`, the bytes that hold a number of digits below a whole word. -/
def dig2bytes (n : ℕ) : ℕ := [0, 1, 1, 2, 2, 3, 3, 4, 4, 4].getD n 0

/-- `ROUND_UP`, the words that hold a number of digits. -/
def roundUp (x : ℕ) : ℕ := (x + digPerDec1 - 1) / digPerDec1

/-- `decimal_bin_size`, where the scale is at most the precision. -/
def decimalBinSize (precision scale : ℕ) : ℕ :=
  let intg := precision - scale
  let intg0 := intg / digPerDec1
  let frac0 := scale / digPerDec1
  let intg0x := intg - intg0 * digPerDec1
  let frac0x := scale - frac0 * digPerDec1
  intg0 * 4 + dig2bytes intg0x + frac0 * 4 + dig2bytes frac0x

/-- `my_decimal`: the digits before and after the point, the sign, and the words. -/
structure MyDecimal where
  /-- The digits before the point. -/
  intg : ℕ
  /-- The digits after the point. -/
  frac : ℕ
  /-- Whether the number is negative. -/
  sign : Bool
  /-- The `DECIMAL_BUFF_LENGTH` words of nine digits. -/
  buf : List ℤ

/-- `my_decimal::init`, which numbers the words. -/
def MyDecimal.fresh : MyDecimal :=
  { intg := 0, frac := 0, sign := false, buf := [0, 1, 2, 3, 4, 5, 6, 7, 8] }

/-- `decimal_make_zero`. -/
def MyDecimal.makeZero (d : MyDecimal) : MyDecimal :=
  { intg := 1, frac := 0, sign := false, buf := d.buf.set 0 0 }

/-- `mi_sintNkorr(from) ^ mask`: the signed big-endian integer in the bytes, complemented for a
negative number. -/
def miSintKorr (neg : Bool) (from_ : Bytes) : ℤ :=
  let x := signed from_.length (leNat from_.reverse)
  if neg then -x - 1 else x

/-- The storing of a word before the point at `buf`, with `buf++` unless it is a leading zero. -/
def MyDecimal.putIntg (d : MyDecimal) (buf : ℕ) (x : ℤ) (digits : ℕ) : MyDecimal × ℕ :=
  if 0 < buf ∨ x ≠ 0 then ({ d with buf := d.buf.set buf x }, buf + 1)
  else ({ d with buf := d.buf.set buf x, intg := d.intg - digits }, buf)

/-- The loop over the whole words before the point. None is the jump to `err`. -/
def intgLoop (neg : Bool) : ℕ → Bytes → MyDecimal → ℕ → Option (Bytes × MyDecimal × ℕ)
  | 0, from_, d, buf => some (from_, d, buf)
  | n + 1, from_, d, buf =>
    let x := miSintKorr neg (from_.take 4)
    if x < 0 ∨ 999999999 < x then none
    else
      let (d, buf) := d.putIntg buf x digPerDec1
      intgLoop neg n (from_.drop 4) d buf

/-- The loop over the whole words after the point. None is the jump to `err`. -/
def fracLoop (neg : Bool) : ℕ → Bytes → MyDecimal → ℕ → Option (Bytes × MyDecimal × ℕ)
  | 0, from_, d, buf => some (from_, d, buf)
  | n + 1, from_, d, buf =>
    let x := miSintKorr neg (from_.take 4)
    if x < 0 ∨ 999999999 < x then none
    else fracLoop neg n (from_.drop 4) { d with buf := d.buf.set buf x } (buf + 1)

/-- The part of `bin2decimal` that reads the words of the copy `from`, whose first bit has been
inverted. None is the jump to `err`. -/
def decimalWords (neg : Bool) (intg0 intg0x frac0 frac0x : ℕ) (from_ : Bytes) :
    Option MyDecimal := do
  let d : MyDecimal := { MyDecimal.fresh with
    intg := intg0 * digPerDec1 + intg0x, frac := frac0 * digPerDec1 + frac0x, sign := neg }
  let mut (from_, d, buf) := (from_, d, 0)
  if intg0x ≠ 0 then
    let i := dig2bytes intg0x
    let x := miSintKorr neg (from_.take i)
    if x < 0 ∨ 10 ^ (intg0x + 1) ≤ x then none
    (d, buf) := d.putIntg buf x intg0x
    from_ := from_.drop i
  (from_, d, buf) ← intgLoop neg intg0 from_ d buf
  (from_, d, buf) ← fracLoop neg frac0 from_ d buf
  if frac0x ≠ 0 then
    let x := toInt32 (miSintKorr neg (from_.take (dig2bytes frac0x)) *
      10 ^ (digPerDec1 - frac0x))
    if x < 0 ∨ 999999999 < x then none
    d := { d with buf := d.buf.set buf x }
  return d

/-- `bin2decimal` into a fresh decimal, on the bytes at offset 0. A precision of 0 writes outside
of the empty copy, and a scale above the precision reads behind it. -/
def bin2decimal (precision scale : ℕ) : Reader MyDecimal :=
  if precision = 0 ∨ precision < scale then stop .outOfBounds
  else do
    let copy ← bytesAt 0 (decimalBinSize precision scale)
    let intg0 := (precision - scale) / digPerDec1
    let intg0x := (precision - scale) % digPerDec1
    let frac0 := scale / digPerDec1
    let frac0x := scale % digPerDec1
    let intg1 := intg0 + (if 0 < intg0x then 1 else 0)
    let frac1 := frac0 + (if 0 < frac0x then 1 else 0)
    -- `mask = (*from & 0x80) ? 0 : -1`, and `d_copy[0] ^= 0x80`.
    let neg := decide ((copy.headD 0).toNat < 128)
    let from_ := copy.set 0 ((copy.headD 0) ^^^ 128)
    -- `FIX_INTG_FRAC_ERROR` keeps the nine words of the buffer.
    let words :=
      if intg1 + frac1 ≤ 9 then decimalWords neg intg0 intg0x frac0 frac0x from_
      else if intg1 ≤ 9 then decimalWords neg intg0 intg0x (9 - intg1) 0 from_
      else decimalWords neg 9 0 0 0 (from_.drop (dig2bytes intg0x + 4 * (intg0 - 9)))
    return words.getD MyDecimal.fresh.makeZero

/-- A packed decimal is read from its own bytes. -/
theorem stable_bin2decimal (precision scale : ℕ) : Stable (bin2decimal precision scale) := by
  unfold bin2decimal
  exact Stable.ite (.stop _) ((Stable.bytesAt _ _).bind fun _ => .pure _)

/-! ## Texts -/

/-- `"%0nd"` of an `int`: the sign counts, and zeros stand between it and the digits. -/
def format0d (n : ℕ) (i : ℤ) : Bytes :=
  let digits := decimal i.natAbs
  if i < 0 then text "-" ++ List.replicate (n - 1 - digits.length) 48 ++ digits
  else List.replicate (n - digits.length) 48 ++ digits

end MgCommonUtils.Ebinlog
