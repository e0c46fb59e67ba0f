import MgCommonUtils.Ebinlog.RoundTrip

/-!
# BIT, NEWDECIMAL, YEAR, ENUM and SET

The column types whose values MySQL packs by rules of their own, what it writes for them, and what
the parser makes of it. For a column the master writes its metadata into the TABLE_MAP event and
each value into the row images; `PackedValue.DecodesRight` says that the parser, once it has read
the one, moves `*pPos` by the bytes of the other and returns a text that denotes the value. It does
for a SET always, for a BIT when at most one bit is left over from whole bytes, for a YEAR and an
ENUM of one byte when that byte is no negative `char`, and for a NEWDECIMAL never, since `*pPos`
stays where it is (`decodesRight_iff`).
-/

namespace MgCommonUtils.Ebinlog

open MgCommonUtils.Lib MgCommonUtils.Lib.Reader

/-! ## What MySQL writes -/

/-- The integer in the given number of bytes, the most significant first. -/
def beBytes (k v : ℕ) : Bytes := (leBytes k v).reverse

@[simp]
theorem length_beBytes (k v : ℕ) : (beBytes k v).length = k := by
  rw [beBytes, List.length_reverse, length_leBytes]

/-- A packed decimal: the digits before and after the point in words of nine, the leftmost word
before it and the rightmost one after it in as many bytes as their digits need. The bytes of a
negative number are complemented, and the first bit of either is inverted. -/
def decimalBytes (precision scale : ℕ) (unscaled : ℤ) : Bytes :=
  let intg0 := (precision - scale) / digPerDec1
  let intg0x := (precision - scale) % digPerDec1
  let frac0 := scale / digPerDec1
  let frac0x := scale % digPerDec1
  let whole := unscaled.natAbs / 10 ^ scale
  let fraction := unscaled.natAbs % 10 ^ scale
  let digits :=
    beBytes (dig2bytes intg0x) (whole / 10 ^ (intg0 * digPerDec1)) ++
      ((List.range intg0).reverse.flatMap fun i =>
        beBytes 4 (whole / 10 ^ (i * digPerDec1) % 10 ^ digPerDec1)) ++
      ((List.range frac0).reverse.flatMap fun i =>
        beBytes 4 (fraction / 10 ^ (i * digPerDec1 + frac0x) % 10 ^ digPerDec1)) ++
      beBytes (dig2bytes frac0x) (fraction % 10 ^ frac0x)
  let digits := if unscaled < 0 then digits.map (~~~ ·) else digits
  digits.modifyHead (· ^^^ 128)

/-- `1234567890.1234` as a DECIMAL(14,4), and its negation. -/
example : decimalBytes 14 4 12345678901234 = [0x81, 0x0D, 0xFB, 0x38, 0xD2, 0x04, 0xD2] ∧
    decimalBytes 14 4 (-12345678901234) = [0x7E, 0xF2, 0x04, 0xC7, 0x2D, 0xFB, 0x2D] := by
  decide

/-- A type whose values are packed by a rule of its own. -/
inductive PackedType where
  /-- A BIT with the number of bits. -/
  | bit (n : {n : ℕ // 1 ≤ n ∧ n ≤ 64})
  /-- A NEWDECIMAL with the number of digits, and of those after the point. -/
  | newdecimal (precision : {n : ℕ // 1 ≤ n ∧ n ≤ 65})
      (scale : {n : ℕ // n ≤ 30 ∧ n ≤ precision.val})
  /-- A YEAR. -/
  | year
  /-- An ENUM with the number of members. -/
  | enum (members : {n : ℕ // 1 ≤ n ∧ n ≤ 65535})
  /-- A SET with the number of members. -/
  | set (members : {n : ℕ // 1 ≤ n ∧ n ≤ 64})
  deriving DecidableEq, Repr

namespace PackedType

/-- The bytes of an ENUM's index. -/
def enumBytes (members : ℕ) : ℕ := if members < 256 then 1 else 2

/-- The bytes of a SET's bits: those from five on have eight. -/
def setBytes (members : ℕ) : ℕ := if 4 < (members + 7) / 8 then 8 else (members + 7) / 8

/-- The code of a type in a TABLE_MAP event. An ENUM and a SET are strings there. -/
def code : PackedType → ℕ
  | bit _ => mysqlTypeBit
  | newdecimal _ _ => mysqlTypeNewdecimal
  | year => mysqlTypeYear
  | enum _ | set _ => mysqlTypeString

/-- The metadata of a type. That of an ENUM and of a SET starts with the type's own code. -/
def metadata : PackedType → Bytes
  | bit n => [UInt8.ofNat (n % 8), UInt8.ofNat (n / 8)]
  | newdecimal precision scale => [UInt8.ofNat precision, UInt8.ofNat scale]
  | year => []
  | enum members => [UInt8.ofNat mysqlTypeEnum, UInt8.ofNat (enumBytes members)]
  | set members => [UInt8.ofNat mysqlTypeSet, UInt8.ofNat (setBytes members)]

end PackedType

/-- A value of a packed type. -/
inductive PackedValue : PackedType → Type
  /-- The bits of a BIT, as a number. -/
  | bit (n : {n : ℕ // 1 ≤ n ∧ n ≤ 64}) (v : ℕ) (h : v < 2 ^ n.val) : PackedValue (.bit n)
  /-- A decimal, as the integer of all its digits. -/
  | newdecimal (precision : {n : ℕ // 1 ≤ n ∧ n ≤ 65})
      (scale : {n : ℕ // n ≤ 30 ∧ n ≤ precision.val}) (unscaled : ℤ)
      (h : unscaled.natAbs < 10 ^ precision.val) : PackedValue (.newdecimal precision scale)
  /-- The byte of a YEAR. -/
  | year (b : UInt8) : PackedValue .year
  /-- The index of a member, which is 0 for the empty string that stands for an invalid value. -/
  | enum (members : {n : ℕ // 1 ≤ n ∧ n ≤ 65535}) (index : ℕ) (h : index ≤ members) :
      PackedValue (.enum members)
  /-- The members that are in the set, as the bits of a number. -/
  | set (members : {n : ℕ // 1 ≤ n ∧ n ≤ 64}) (bits : ℕ) (h : bits < 2 ^ members.val) :
      PackedValue (.set members)

/-- The text denotes the decimal with the given digits and scale: a sign, digits, and after a point
more digits. -/
def DenotesDecimal (s : Bytes) (unscaled : ℤ) (scale : ℕ) : Prop :=
  ∃ (neg : Bool) (whole fraction : Bytes), whole ≠ [] ∧ (∀ b ∈ whole ++ fraction, isdigit b) ∧
    s = (if neg then text "-" else []) ++ whole ++
      (if fraction = [] then [] else text "." ++ fraction) ∧
    (if neg then -1 else 1) * (digitsValue 0 (whole ++ fraction) : ℤ) * 10 ^ scale =
      unscaled * 10 ^ fraction.length

namespace PackedValue

variable {t : PackedType}

/-- The bytes of a value in a row image. -/
def encode : PackedValue t → Bytes
  | bit n v _ => beBytes ((n + 7) / 8) v
  | newdecimal precision scale unscaled _ => decimalBytes precision scale unscaled
  | year b => [b]
  | enum members index _ => leBytes (PackedType.enumBytes members) index
  | set members bits _ => leBytes (PackedType.setBytes members) bits

/-- The text denotes the value: the number for a decimal, the year with four digits, where the byte
0 is the year 0000, the index for an ENUM, and for a BIT and a SET the bytes as they are stored. -/
def Denotes : PackedValue t → Bytes → Prop
  | bit n v h, s => s = (bit n v h).encode
  | newdecimal _ scale unscaled _, s => DenotesDecimal s unscaled scale
  | year b, s => s = if b.toNat = 0 then text "0000" else decimal (1900 + b.toNat)
  | enum _ index _, s => s = decimal index
  | set members bits h, s => s = (set members bits h).encode

/-- The column's metadata, wherever it is in a TABLE_MAP event, and the value, whatever follows it
in the row image, are decoded into a text that denotes the value, and `*pPos` moves by the value's
bytes. -/
def DecodesRight (v : PackedValue t) (before after rest : Bytes) : Prop :=
  ∃ nMeta text,
    TableMap.decodeMeta t.code before.length (before ++ (t.metadata ++ after)) =
      .ok (nMeta, t.metadata.length) ∧
    decodeRowImageItem (TableMap.decodeDataType t.code nMeta) nMeta (v.encode ++ rest) =
      .ok (.str text, v.encode.length) ∧
    v.Denotes text

/-- The values that the parser decodes right. -/
def Right : PackedValue t → Prop
  | bit n _ _ => n.val % 8 ≤ 1
  | newdecimal _ _ _ _ => False
  | year b => 0 < b.toNat ∧ b.toNat < 128
  | enum members index _ => index < 128 ∨ 256 ≤ members.val
  | set _ _ _ => True

instance (v : PackedValue t) : Decidable v.Right := by
  cases v <;> unfold Right <;> infer_instance

end PackedValue

/-! ## The table map -/

namespace PackedType

/-- The entry for `_szMeta` of a column of the type. The bits of a BIT and its bytes are added up
before the shift. -/
def szMeta : PackedType → ℕ
  | bit n => (n.val % 8 + n.val / 8) <<< 8
  | newdecimal precision scale => (precision.val <<< 8) + scale
  | year => 0
  | enum members => (mysqlTypeEnum <<< 8) + enumBytes members
  | set members => (mysqlTypeSet <<< 8) + setBytes members

/-- The entry for `_szType`. -/
def szType : PackedType → ℕ
  | bit _ => mysqlTypeBit
  | newdecimal _ _ => mysqlTypeNewdecimal
  | year => mysqlTypeYear
  | enum _ => mysqlTypeEnum
  | set _ => mysqlTypeSet

theorem enumBytes_le (members : ℕ) : enumBytes members ≤ 2 := by
  unfold enumBytes
  split <;> omega

theorem setBytes_le (members : ℕ) : setBytes members ≤ 8 := by
  unfold setBytes
  split <;> omega

/-- The two bytes of an entry for `_szMeta`. -/
theorem bytes_of_entry (x : ℕ) {y : ℕ} (hy : y < 256) :
    ((x <<< 8) + y) >>> 8 = x ∧ ((x <<< 8) + y) &&& 0xFF = y := by
  have hlow : ((x <<< 8) + y) &&& 0xFF = ((x <<< 8) + y) % 2 ^ 8 :=
    Nat.and_two_pow_sub_one_eq_mod _ 8
  rw [hlow, Nat.shiftLeft_eq, Nat.shiftRight_eq_div_pow]
  omega

/-- The code of an ENUM or a SET is found in the metadata. -/
theorem decodeDataType_entry {nRealType y : ℕ} (hy : y < 256)
    (hreal : nRealType = mysqlTypeEnum ∨ nRealType = mysqlTypeSet) :
    TableMap.decodeDataType mysqlTypeString ((nRealType <<< 8) + y) = nRealType := by
  have hmod : nRealType % 256 = nRealType := by rcases hreal with rfl | rfl <;> rfl
  unfold TableMap.decodeDataType
  rw [if_pos rfl, (bytes_of_entry nRealType hy).1, hmod]
  exact if_pos hreal

/-- The two bytes of a column's metadata. -/
theorem byteAt_pair (before after : Bytes) {x y : ℕ} (hx : x < 256) (hy : y < 256) :
    byteAt before.length (before ++ ([UInt8.ofNat x, UInt8.ofNat y] ++ after)) = .ok x ∧
      byteAt (before.length + 1) (before ++ ([UInt8.ofNat x, UInt8.ofNat y] ++ after)) = .ok y := by
  have hdrop : (before ++ ([UInt8.ofNat x, UInt8.ofNat y] ++ after)).drop before.length =
      [UInt8.ofNat x, UInt8.ofNat y] ++ after := List.drop_left
  have h0 := byteAt_add_of_drop (k := 0) hdrop rfl
  have h1 := byteAt_add_of_drop (k := 1) hdrop rfl
  rw [UInt8.toNat_ofNat_of_lt' hx] at h0
  rw [UInt8.toNat_ofNat_of_lt' hy] at h1
  exact ⟨h0, h1⟩

/-- The metadata of a string and of a decimal is its two bytes. -/
theorem decodeMeta_pair {nType x y : ℕ}
    (htype : nType = mysqlTypeString ∨ nType = mysqlTypeNewdecimal) (before after : Bytes)
    (hx : x < 256) (hy : y < 256) :
    TableMap.decodeMeta nType before.length
        (before ++ ([UInt8.ofNat x, UInt8.ofNat y] ++ after)) = .ok ((x <<< 8) + y, 2) := by
  obtain ⟨h0, h1⟩ := byteAt_pair before after hx hy
  rcases htype with rfl | rfl
  · exact (bind_ok h0).trans (bind_ok h1)
  · exact (bind_ok h0).trans (bind_ok h1)

/-- The metadata is read, and `j` moves behind it. -/
theorem decodeMeta_metadata (t : PackedType) (before after : Bytes) :
    TableMap.decodeMeta t.code before.length (before ++ (t.metadata ++ after)) =
      .ok (t.szMeta, t.metadata.length) := by
  cases t with
  | bit n =>
    have hn := n.property
    obtain ⟨h0, h1⟩ := byteAt_pair before after (x := n % 8) (y := n / 8) (by omega) (by omega)
    exact (bind_ok h0).trans (bind_ok h1)
  | newdecimal precision scale =>
    have hp := precision.property
    have hs := scale.property
    exact decodeMeta_pair (.inr rfl) before after (by omega) (by omega)
  | year => rfl
  | enum members =>
    have hm := enumBytes_le members
    exact decodeMeta_pair (.inl rfl) before after (by norm_num) (by omega)
  | set members =>
    have hm := setBytes_le members
    exact decodeMeta_pair (.inl rfl) before after (by norm_num) (by omega)

/-- The code that hides in the metadata is found. -/
theorem decodeDataType_szMeta (t : PackedType) :
    TableMap.decodeDataType t.code t.szMeta = t.szType := by
  cases t with
  | bit n => rfl
  | newdecimal precision scale => rfl
  | year => rfl
  | enum members =>
    exact decodeDataType_entry (lt_of_le_of_lt (enumBytes_le members) (by norm_num)) (.inl rfl)
  | set members =>
    exact decodeDataType_entry (lt_of_le_of_lt (setBytes_le members) (by norm_num)) (.inr rfl)

end PackedType

/-- So it depends on the row image alone whether a value is decoded right. -/
theorem PackedValue.decodesRight_iff_item {t : PackedType} {v : PackedValue t}
    {before after rest : Bytes} : v.DecodesRight before after rest ↔
      ∃ text, decodeRowImageItem t.szType t.szMeta (v.encode ++ rest) =
        .ok (.str text, v.encode.length) ∧ v.Denotes text := by
  unfold PackedValue.DecodesRight
  rw [t.decodeMeta_metadata]
  constructor
  · rintro ⟨nMeta, text, hmeta, h⟩
    obtain ⟨rfl, -⟩ := Prod.mk.inj (Except.ok.inj hmeta)
    rw [t.decodeDataType_szMeta] at h
    exact ⟨text, h⟩
  · rintro ⟨text, h⟩
    refine ⟨t.szMeta, text, rfl, ?_⟩
    rw [t.decodeDataType_szMeta]
    exact h

/-! ## The row image -/

/-- The bytes of a value that are copied as they are. -/
theorem buildString_encode {s : Bytes} (hs : s.length < 2147483648) (rest : Bytes) :
    buildString 0 s.length (s ++ rest) = .ok (.str s) := by
  unfold buildString
  rw [if_pos hs]
  exact bind_eq_ok.mpr ⟨s, bytesAt_of_drop (s := s) (t := rest) rfl rfl, rfl⟩

/-- The decoder of a BIT. The bits that are left over count as bytes. -/
theorem decodeRowImageItem_bit (n : {n : ℕ // 1 ≤ n ∧ n ≤ 64}) :
    decodeRowImageItem (PackedType.bit n).szType (PackedType.bit n).szMeta =
      fixedItem (buildString 0 (n.val % 8 + n.val / 8)) id (n.val % 8 + n.val / 8) := by
  have hn := n.property
  have hentry := PackedType.bytes_of_entry (n.val % 8 + n.val / 8) (y := 0) (by norm_num)
  rw [Nat.add_zero] at hentry
  have hbits : u32 (((n.val % 8 + n.val / 8) <<< 8) >>> 8 * 8 +
      ((n.val % 8 + n.val / 8) <<< 8 &&& 0xFF)) = (n.val % 8 + n.val / 8) * 8 := by
    rw [hentry.1, hentry.2, u32_of_lt (by omega), Nat.add_zero]
  have hlength : u32 ((n.val % 8 + n.val / 8) * 8 + 7) / 8 = n.val % 8 + n.val / 8 := by
    rw [u32_of_lt (by omega)]
    omega
  change (if 16 < u32 (u32 _ + 7) / 8 then stop .outOfBounds
    else fixedItem (buildString 0 (u32 (u32 _ + 7) / 8)) id (u32 (u32 _ + 7) / 8)) = _
  rw [PackedType.szMeta, hbits, hlength, if_neg (by omega)]

/-- The decoder of a SET. -/
theorem decodeRowImageItem_set (members : {n : ℕ // 1 ≤ n ∧ n ≤ 64}) :
    decodeRowImageItem (PackedType.set members).szType (PackedType.set members).szMeta =
      fixedItem (buildString 0 (PackedType.setBytes members)) id (PackedType.setBytes members) := by
  have hle := PackedType.setBytes_le members
  have hentry := (PackedType.bytes_of_entry mysqlTypeSet (y := PackedType.setBytes members)
    (by omega)).2
  change (if 32 < PackedType.szMeta _ &&& 0xFF then stop .outOfBounds
    else fixedItem (buildString 0 (PackedType.szMeta _ &&& 0xFF)) id
      (PackedType.szMeta _ &&& 0xFF)) = _
  rw [PackedType.szMeta, hentry, if_neg (by omega)]

/-- The decoder of an ENUM. -/
theorem decodeRowImageItem_enum (members : {n : ℕ // 1 ≤ n ∧ n ≤ 65535}) :
    decodeRowImageItem (PackedType.enum members).szType (PackedType.enum members).szMeta =
      if members.val < 256 then fixedItem (charAt 0) (fun c => .str (format0d 0 c)) 1
      else fixedItem (uint2korr 0) (fun i32 => .str (format0d 0 i32)) 2 := by
  change decodeRowImageItem mysqlTypeEnum
    ((mysqlTypeEnum <<< 8) + if members.val < 256 then 1 else 2) = _
  split <;> rfl

/-- A byte as a `char`. -/
theorem charAt_cons (b : UInt8) (rest : Bytes) :
    charAt 0 (b :: rest) = .ok (signed 1 b.toNat) :=
  bind_eq_ok.mpr ⟨_, byteAt_of_drop (t := rest) rfl, rfl⟩

/-- A number that is not negative is written without a sign, and without zeros in front when it has
the digits. -/
theorem format0d_natCast {n k : ℕ} (h : n ≤ (decimal k).length) :
    format0d n (k : ℤ) = decimal k := by
  unfold format0d
  rw [if_neg (by omega), Int.natAbs_natCast, Nat.sub_eq_zero_of_le h]
  rfl

/-- Where the text of a year is right. -/
theorem yearText_iff (b : UInt8) :
    format0d 4 (signed 1 b.toNat + 1900) =
      (if b.toNat = 0 then text "0000" else decimal (1900 + b.toNat)) ↔
        0 < b.toNat ∧ b.toNat < 128 := by
  have hb := b.toNat_lt
  have hfour {k : ℕ} (hk : 1000 ≤ k) : format0d 4 (k : ℤ) = decimal k := by
    refine format0d_natCast ?_
    unfold decimal
    rw [List.length_map]
    have hlen := (Nat.length_toDigits_le_iff (b := 10) (n := k) (k := 3) (by norm_num)
      (by norm_num)).not.mpr (by omega)
    omega
  rw [signed_one hb]
  by_cases hneg : b.toNat < 128
  · rw [if_pos hneg, show (b.toNat : ℤ) + 1900 = ((1900 + b.toNat : ℕ) : ℤ) by omega,
      hfour (by omega)]
    by_cases hzero : b.toNat = 0
    · -- the year 0000 is taken for 1900
      rw [if_pos hzero, hzero]
      exact ⟨fun h => absurd h (by decide), fun h => absurd h.1 (lt_irrefl 0)⟩
    · rw [if_neg hzero]
      exact ⟨fun _ => ⟨by omega, hneg⟩, fun _ => rfl⟩
  · -- the others from 2028 on are 256 years too early
    rw [if_neg hneg, show (b.toNat : ℤ) - 256 + 1900 = ((1644 + b.toNat : ℕ) : ℤ) by omega,
      hfour (by omega), if_neg (by omega)]
    refine ⟨fun h => ?_, fun h => absurd h.2 hneg⟩
    have := decimal_inj h
    omega

/-- Where the text of an index in one byte is right. -/
theorem indexText_iff {index : ℕ} (h : index < 256) :
    format0d 0 (signed 1 index) = decimal index ↔ index < 128 := by
  rw [signed_one h]
  by_cases hneg : index < 128
  · rw [if_pos hneg, format0d_natCast (Nat.zero_le _)]
    exact iff_of_true rfl hneg
  · rw [if_neg hneg]
    refine iff_of_false (fun heq => ?_) hneg
    -- A sign is no digit.
    have hsign : (45 : UInt8) ∈ format0d 0 ((index : ℤ) - 256) := by
      unfold format0d
      rw [if_pos (by omega)]
      exact List.mem_append_left _ (List.mem_append_left _ (List.mem_singleton_self _))
    rw [heq] at hsign
    exact absurd (isdigit_of_mem_decimal hsign) (by decide)

/-! ## Which values are decoded right -/

variable {rest : Bytes}

/-- Of the BITs those that are right have at most one bit besides their whole bytes. -/
theorem decodes_bit_iff (n : {n : ℕ // 1 ≤ n ∧ n ≤ 64}) (v : ℕ) (h : v < 2 ^ n.val) :
    (∃ text, decodeRowImageItem (PackedType.bit n).szType (PackedType.bit n).szMeta
        ((PackedValue.bit n v h).encode ++ rest) =
          .ok (.str text, (PackedValue.bit n v h).encode.length) ∧
      (PackedValue.bit n v h).Denotes text) ↔ n.val % 8 ≤ 1 := by
  have hn := n.property
  have hlen : (PackedValue.bit n v h).encode.length = (n.val + 7) / 8 := length_beBytes _ _
  rw [decodeRowImageItem_bit]
  constructor
  · -- what is moved is what is read
    rintro ⟨text, hitem, -⟩
    obtain ⟨s, -, hs⟩ := bind_eq_ok.mp hitem
    have hmove := (Prod.mk.inj (Except.ok.inj hs)).2
    omega
  · intro hone
    have hsize : n.val % 8 + n.val / 8 = (PackedValue.bit n v h).encode.length := by omega
    rw [hsize]
    exact ⟨_, fixedItem_ok (buildString_encode (by omega) rest) id _, rfl⟩

/-- The bytes of a NEWDECIMAL are as many as the code's own formula says. -/
theorem length_decimalBytes (precision scale : ℕ) (unscaled : ℤ) :
    (decimalBytes precision scale unscaled).length = decimalBinSize precision scale := by
  have hwords (n : ℕ) (f : ℕ → ℕ) :
      ((List.range n).reverse.flatMap fun i => beBytes 4 (f i)).length = n * 4 := by
    rw [List.length_flatMap, List.map_congr_left (fun i _ => length_beBytes 4 (f i)),
      List.map_const', List.sum_replicate, List.length_reverse, List.length_range, smul_eq_mul]
  have hrest (n : ℕ) : n - n / digPerDec1 * digPerDec1 = n % digPerDec1 := by
    unfold digPerDec1
    omega
  unfold decimalBytes decimalBinSize
  dsimp only
  rw [List.length_modifyHead, hrest, hrest, apply_ite List.length, List.length_map, ite_self]
  simp only [List.length_append, length_beBytes, hwords]
  omega

/-- There is a digit, and so a byte. -/
theorem decimalBinSize_pos {precision scale : ℕ} (h : 1 ≤ precision) (hs : scale ≤ precision) :
    0 < decimalBinSize precision scale := by
  have hbytes : ∀ n < 9, n ≠ 0 → 0 < dig2bytes n := by decide
  have hdigits (n : ℕ) (hn : 0 < n) :
      0 < n / digPerDec1 ∨ 0 < dig2bytes (n - n / digPerDec1 * digPerDec1) := by
    unfold digPerDec1
    by_cases hword : 9 ≤ n
    · exact .inl (by omega)
    · exact .inr (hbytes _ (by omega) (by omega))
  unfold decimalBinSize
  dsimp only
  by_cases hscale : 0 < scale
  · have := hdigits scale hscale
    omega
  · have := hdigits (precision - scale) (by omega)
    omega

/-- None of the NEWDECIMALs is: `*pPos` does not move. -/
theorem not_decodes_newdecimal (precision : {n : ℕ // 1 ≤ n ∧ n ≤ 65})
    (scale : {n : ℕ // n ≤ 30 ∧ n ≤ precision.val}) (unscaled : ℤ) (item : PyItem) :
    decodeRowImageItem (PackedType.newdecimal precision scale).szType
        (PackedType.newdecimal precision scale).szMeta
        (decimalBytes precision scale unscaled ++ rest) ≠
      .ok (item, (decimalBytes precision scale unscaled).length) := by
  intro hitem
  obtain ⟨dec, -, hdec⟩ := bind_eq_ok.mp hitem
  have hmove := (Prod.mk.inj (Except.ok.inj hdec)).2
  have hpos := decimalBinSize_pos precision.property.1 scale.property.2
  rw [length_decimalBytes] at hmove
  omega

/-- Its text has a point behind every word but the last: `1234567890.1234`. -/
example : decodeRowImageItem mysqlTypeNewdecimal ((14 <<< 8) + 4)
    (decimalBytes 14 4 12345678901234) =
      .ok (.str (text "000000001.234567890.123400000"), 0) := by decide +kernel

/-- Of the YEARs those from 1901 to 2027 are right. -/
theorem decodes_year_iff (b : UInt8) :
    (∃ text, decodeRowImageItem PackedType.year.szType PackedType.year.szMeta ([b] ++ rest) =
        .ok (.str text, 1) ∧ (PackedValue.year b).Denotes text) ↔
      0 < b.toNat ∧ b.toNat < 128 := by
  have hitem : decodeRowImageItem PackedType.year.szType PackedType.year.szMeta ([b] ++ rest) =
      .ok (.str (format0d 4 (signed 1 b.toNat + 1900)), 1) :=
    fixedItem_ok (charAt_cons b rest) (fun c => .str (format0d 4 (c + 1900))) 1
  rw [hitem, ← yearText_iff]
  constructor
  · rintro ⟨text, heq, hden⟩
    obtain ⟨htext, -⟩ := Prod.mk.inj (Except.ok.inj heq)
    obtain rfl := PyItem.str.inj htext
    exact hden
  · intro htext
    exact ⟨_, rfl, htext⟩

/-- Of the ENUMs in one byte those below 128 are right, and those in two bytes all. -/
theorem decodes_enum_iff (members : {n : ℕ // 1 ≤ n ∧ n ≤ 65535}) (index : ℕ)
    (h : index ≤ members) :
    (∃ text, decodeRowImageItem (PackedType.enum members).szType (PackedType.enum members).szMeta
        ((PackedValue.enum members index h).encode ++ rest) =
          .ok (.str text, (PackedValue.enum members index h).encode.length) ∧
      (PackedValue.enum members index h).Denotes text) ↔ index < 128 ∨ 256 ≤ members.val := by
  have hmembers := members.property
  rw [decodeRowImageItem_enum]
  by_cases hone : members.val < 256
  · have hencode : (PackedValue.enum members index h).encode = [UInt8.ofNat index] := by
      change leBytes (if members.val < 256 then 1 else 2) index = _
      rw [if_pos hone]
      rfl
    have hread : charAt 0 ([UInt8.ofNat index] ++ rest) = .ok (signed 1 index) := by
      rw [List.singleton_append, charAt_cons,
        UInt8.toNat_ofNat_of_lt' (show index < 256 by omega)]
    rw [if_pos hone, hencode, fixedItem_ok hread]
    constructor
    · rintro ⟨text, heq, hden⟩
      obtain ⟨htext, -⟩ := Prod.mk.inj (Except.ok.inj heq)
      obtain rfl := PyItem.str.inj htext
      exact .inl ((indexText_iff (by omega)).mp hden)
    · rintro (hlt | hge)
      · exact ⟨_, rfl, (indexText_iff (by omega)).mpr hlt⟩
      · omega
  · have hencode : (PackedValue.enum members index h).encode = leBytes 2 index := by
      change leBytes (if members.val < 256 then 1 else 2) index = _
      rw [if_neg hone]
    have hread : uint2korr 0 (leBytes 2 index ++ rest) = .ok index :=
      leAt_of_drop rfl (by omega)
    rw [if_neg hone, hencode, fixedItem_ok hread, length_leBytes]
    constructor
    · intro _
      exact .inr (Nat.le_of_not_lt hone)
    · intro _
      exact ⟨_, rfl, format0d_natCast (Nat.zero_le _)⟩

/-- Every SET is right. -/
theorem decodes_set (members : {n : ℕ // 1 ≤ n ∧ n ≤ 64}) (bits : ℕ)
    (h : bits < 2 ^ members.val) :
    ∃ text, decodeRowImageItem (PackedType.set members).szType (PackedType.set members).szMeta
        ((PackedValue.set members bits h).encode ++ rest) =
          .ok (.str text, (PackedValue.set members bits h).encode.length) ∧
      (PackedValue.set members bits h).Denotes text := by
  have hle := PackedType.setBytes_le members
  have hlen : (PackedValue.set members bits h).encode.length = PackedType.setBytes members :=
    length_leBytes _ _
  rw [decodeRowImageItem_set, ← hlen]
  exact ⟨_, fixedItem_ok (buildString_encode (by omega) rest) id _, rfl⟩

/-- Which values are decoded right from the row image. -/
theorem PackedValue.item_iff {t : PackedType} (v : PackedValue t) (rest : Bytes) :
    (∃ text, decodeRowImageItem t.szType t.szMeta (v.encode ++ rest) =
      .ok (.str text, v.encode.length) ∧ v.Denotes text) ↔ v.Right := by
  cases v with
  | bit n v h => exact decodes_bit_iff n v h
  | newdecimal precision scale unscaled h =>
    constructor
    · rintro ⟨text, hitem, -⟩
      exact not_decodes_newdecimal precision scale unscaled _ hitem
    · exact False.elim
  | year b => exact decodes_year_iff b
  | enum members index h => exact decodes_enum_iff members index h
  | set members bits h =>
    constructor
    · intro _
      trivial
    · intro _
      exact decodes_set members bits h

/-- Which values are decoded right: wherever the column's metadata is in the TABLE_MAP event and
whatever follows the value, it is the value and its type that decide. -/
theorem decodesRight_iff {t : PackedType} (v : PackedValue t) (before after rest : Bytes) :
    v.DecodesRight before after rest ↔ v.Right := by
  rw [PackedValue.decodesRight_iff_item]
  exact v.item_iff rest

/-- A BIT with two bits, a DECIMAL with one digit, the year 2028 and the 200th of 255 members are
decoded wrong. -/
theorem not_decodesRight :
    ¬ (PackedValue.bit ⟨2, by decide⟩ 1 (by decide)).DecodesRight [] [] [0, 0] ∧
    ¬ (PackedValue.newdecimal ⟨1, by decide⟩ ⟨0, by decide⟩ 5 (by decide)).DecodesRight [] [] [] ∧
    ¬ (PackedValue.year 128).DecodesRight [] [] [] ∧
    ¬ (PackedValue.enum ⟨255, by decide⟩ 200 (by decide)).DecodesRight [] [] [] := by
  refine ⟨?_, ?_, ?_, ?_⟩ <;>
    · rw [PackedValue.decodesRight_iff_item, PackedValue.item_iff]
      decide

/-! ## In a row -/

/-- The entries in the arrays of the table map for a column of the type. -/
def PackedType.column (t : PackedType) (nullAble : ℕ) : Column :=
  { type := t.szType, metadata := t.szMeta, nullAble }

/-- Behind a value that is decoded right the columns after it are decoded from their own bytes. -/
theorem decodeColumns_right {t : PackedType} {v : PackedValue t} (hv : v.Right) {m : Bytes}
    {pBitmapData i pPos bits nullAble : ℕ} {cs : List Column}
    (hbits : byteAt (pBitmapData + i / 8) m = .ok bits) (hnull : (bits >>> (i % 8)) % 2 = 0)
    (hm : m.drop pPos = v.encode ++ rest) (hfit : pPos + v.encode.length < 4294967296) :
    ∃ text, v.Denotes text ∧ decodeColumns pBitmapData (t.column nullAble :: cs) i pPos m =
      (do
        let (row, pPos) ← decodeColumns pBitmapData cs (i + 1) (pPos + v.encode.length)
        return (.str text :: row, pPos) : Reader (List PyItem × ℕ)) m := by
  obtain ⟨text, hitem, hden⟩ := (v.item_iff rest).mpr hv
  refine ⟨text, hden, ?_⟩
  have hshift : shift pPos (decodeRowImageItem t.szType t.szMeta) m =
      .ok (.str text, v.encode.length) := by
    rw [shift_apply, hm]
    exact hitem
  have hcolumn : decodeColumn pBitmapData i pPos (t.column nullAble) m =
      .ok (.str text, pPos + v.encode.length) := by
    unfold decodeColumn
    rw [bind_ok hbits, if_pos hnull]
    exact (bind_ok hshift).trans
      (congrArg (fun n => Except.ok (PyItem.str text, n)) (u32_of_lt hfit))
  rw [decodeColumns, bind_ok hcolumn]

end MgCommonUtils.Ebinlog
