import MgCommonUtils.Lib.CString

/-!
# Addresses and blocks as numbers

`ip2long`, `long2ip` and `get_first_ip` of `main.cpp`, on the words of the machine: a `long` has 64
bits, and the mask of a block is built in an `int` of 32 bits and sign-extended. On an address in
dotted decimal `ip2long` gives its number, and `long2ip` gives the address back. On a block
`get_first_ip` gives the address after the first one of the block, and the number of the addresses
from there to the last one.
-/

namespace MgCommonUtils.CountLogByIpRange

open MgCommonUtils.Lib

/-! ## The model -/

/-- A `long`. -/
abbrev Long := BitVec 64

/-- `ip2long` of a pointer that is not null. -/
def ip2long (ip : Bytes) : Long :=
  match strchr ip 46 with
  | none => -1
  | some p1 =>
    let ip1 := ip.drop (p1 + 1)
    match strchr ip1 46 with
    | none => -2
    | some p2 =>
      let ip2 := ip1.drop (p2 + 1)
      match strchr ip2 46 with
      | none => -3
      | some p3 =>
        (BitVec.ofInt 64 (atol (ip.take p1)) <<< 24) +
        (BitVec.ofInt 64 (atol (ip1.take p2)) <<< 16) +
        (BitVec.ofInt 64 (atol (ip2.take p3)) <<< 8) +
        BitVec.ofInt 64 (atol (ip2.drop (p3 + 1)))

/-- `long2ip`: the text that `sprintf` writes. -/
def long2ip (ip : Long) : Bytes :=
  let uiip : BitVec 32 := ip.setWidth 32
  let octet (k : ℕ) : Bytes := decimal ((uiip <<< k) >>> 24).toNat
  octet 0 ++ 46 :: (octet 8 ++ 46 :: (octet 16 ++ 46 :: octet 24))

/-- `pow(2, e) - 1` as a `double`, converted to `long`. -/
def powSubOne (e : ℤ) : Long :=
  if e < -53 then -1
  else if e < 0 then 0
  else if e < 54 then BitVec.ofNat 64 (2^e.toNat - 1)
  -- From 2^54 on the difference rounds to the power.
  else if e < 63 then BitVec.ofNat 64 (2^e.toNat)
  -- Out of the range of `long`: the processor's indefinite integer.
  else BitVec.intMin 64

/-- `get_first_ip`: what it returns, and `*length`. The processor takes the count of a shift of an
`int` modulo 32. -/
def getFirstIp (cidr mask : Bytes) : Long × Long :=
  let lmask := BitVec.ofInt 64 (atol mask)
  let ipMask := ~~~((1#32 <<< ((32 - lmask).toNat % 32)) - 1#32)
  let first := (ip2long cidr &&& ipMask.signExtend 64) + 1
  (first, powSubOne (32 - lmask).toInt)

/-! ## Addresses -/

/-- An IPv4 address. -/
structure Addr where
  /-- The first octet. -/
  a : UInt8
  /-- The second octet. -/
  b : UInt8
  /-- The third octet. -/
  c : UInt8
  /-- The last octet. -/
  d : UInt8
deriving DecidableEq, Repr

/-- The number of an address. -/
def Addr.toNat (x : Addr) : ℕ := x.a.toNat * 2^24 + x.b.toNat * 2^16 + x.c.toNat * 2^8 + x.d.toNat

/-- An address in dotted decimal. -/
def Addr.text (x : Addr) : Bytes :=
  decimal x.a.toNat ++ 46 :: (decimal x.b.toNat ++ 46 :: (decimal x.c.toNat ++ 46 ::
    decimal x.d.toNat))

/-- The number of an address has 32 bits. -/
theorem Addr.toNat_lt (x : Addr) : x.toNat < 2^32 := by
  have ha := x.a.toNat_lt
  have hb := x.b.toNat_lt
  have hc := x.c.toNat_lt
  have hd := x.d.toNat_lt
  rw [Addr.toNat]
  omega

/-- A byte that is not a digit is not in a numeral. -/
theorem notMem_decimal {b : UInt8} (hb : isdigit b = false) (n : ℕ) : b ∉ decimal n := by
  intro h
  rw [isdigit_of_mem_decimal h] at hb
  cases hb

/-- An address has digits and dots only. -/
theorem Addr.notMem_text {b : UInt8} (hb : isdigit b = false) (hdot : b ≠ 46) (x : Addr) :
    b ∉ x.text := by
  simp [Addr.text, notMem_decimal hb, hdot]

/-- An address has from seven to 15 bytes. -/
theorem Addr.length_text (x : Addr) : 7 ≤ x.text.length ∧ x.text.length ≤ 15 := by
  have hpos (n : ℕ) : 0 < (decimal n).length := List.length_pos_iff.mpr (decimal_ne_nil n)
  have hle (b : UInt8) : (decimal b.toNat).length ≤ 3 :=
    length_decimal_le (by norm_num) (lt_trans b.toNat_lt (by norm_num))
  have ha := hle x.a
  have hb := hle x.b
  have hc := hle x.c
  have hd := hle x.d
  have ha' := hpos x.a.toNat
  have hb' := hpos x.b.toNat
  have hc' := hpos x.c.toNat
  have hd' := hpos x.d.toNat
  simp only [Addr.text, List.length_append, List.length_cons]
  omega

/-- The search for a dot after an octet. -/
theorem strchr_octet (n : ℕ) (t : Bytes) :
    strchr (decimal n ++ 46 :: t) 46 = some (decimal n).length :=
  strchr_append t (notMem_decimal (by decide) n) (notMem_decimal (by decide) n) (by decide)

/-- What `atol` gives for an octet, as a word. -/
theorem ofInt_atol_decimal {n : ℕ} (h : n < 2^63) :
    BitVec.ofInt 64 (atol (decimal n)) = BitVec.ofNat 64 n := by
  rw [atol_decimal h, BitVec.ofInt_natCast]

/-- `ip2long` of an address in dotted decimal is its number. -/
theorem ip2long_text (x : Addr) : ip2long x.text = BitVec.ofNat 64 x.toNat := by
  have ha := x.a.toNat_lt
  have hb := x.b.toNat_lt
  have hc := x.c.toNat_lt
  have hd := x.d.toNat_lt
  have htake (s t : Bytes) : (s ++ 46 :: t).take s.length = s := List.take_left
  have hoctet (o : UInt8) : BitVec.ofInt 64 (atol (decimal o.toNat)) = BitVec.ofNat 64 o.toNat :=
    ofInt_atol_decimal (lt_trans o.toNat_lt (by norm_num))
  rw [ip2long, Addr.text]
  -- Every search finds the next dot: the octet stands before it, and the rest behind it.
  simp only [strchr_octet, htake, drop_length_add_one, hoctet]
  apply BitVec.eq_of_toNat_eq
  simp only [BitVec.toNat_add, BitVec.toNat_shiftLeft, BitVec.toNat_ofNat, Nat.shiftLeft_eq,
    Addr.toNat]
  omega

/-! ## Numbers in dotted decimal -/

/-- The address of a number. -/
def Addr.ofNat (n : ℕ) : Addr :=
  ⟨UInt8.ofNat (n / 2^24), UInt8.ofNat (n / 2^16), UInt8.ofNat (n / 2^8), UInt8.ofNat n⟩

/-- A number of 32 bits is that of its address. -/
theorem Addr.toNat_ofNat {n : ℕ} (h : n < 2^32) : (Addr.ofNat n).toNat = n := by
  simp only [Addr.ofNat, Addr.toNat, UInt8.toNat_ofNat']
  omega

/-- An address is that of its number. -/
theorem Addr.ofNat_toNat (x : Addr) : Addr.ofNat x.toNat = x := by
  obtain ⟨a, b, c, d⟩ := x
  have ha := a.toNat_lt
  have hb := b.toNat_lt
  have hc := c.toNat_lt
  have hd := d.toNat_lt
  simp only [Addr.ofNat, Addr.toNat, Addr.mk.injEq, ← UInt8.toNat_inj, UInt8.toNat_ofNat']
  refine ⟨?_, ?_, ?_, ?_⟩ <;> omega

/-- The octet that the two shifts leave. -/
theorem toNat_octet (n : ℕ) {k : ℕ} (hk : k ≤ 24) :
    (((BitVec.ofNat 64 n).setWidth 32 <<< k) >>> 24).toNat = n / 2^(24 - k) % 2^8 := by
  have hword : ((BitVec.ofNat 64 n).setWidth 32).toNat = n % 2^32 := by
    rw [BitVec.toNat_setWidth, BitVec.toNat_ofNat]
    omega
  have h24 : 2^24 = 2^(24 - k) * 2^k := by
    rw [← Nat.pow_add, Nat.sub_add_cancel hk]
  have h32 : 2^32 = 2^(24 - k) * 2^8 * 2^k := by
    rw [Nat.mul_right_comm, ← h24, ← Nat.pow_add]
  have hdvd : 2^(24 - k) * 2^8 ∣ 2^32 := ⟨2^k, h32⟩
  calc (((BitVec.ofNat 64 n).setWidth 32 <<< k) >>> 24).toNat
      = n % 2^32 * 2^k % 2^32 / 2^24 := by
        rw [BitVec.toNat_ushiftRight, BitVec.toNat_shiftLeft, hword, Nat.shiftLeft_eq,
          Nat.shiftRight_eq_div_pow]
    _ = n % 2^32 * 2^k % (2^(24 - k) * 2^8 * 2^k) / (2^(24 - k) * 2^k) := by rw [← h32, ← h24]
    _ = n % 2^32 % (2^(24 - k) * 2^8) / 2^(24 - k) := by
        rw [Nat.mul_mod_mul_right, Nat.mul_div_mul_right _ _ (Nat.two_pow_pos k)]
    _ = n / 2^(24 - k) % 2^8 := by
        rw [Nat.mod_mod_of_dvd n hdvd, Nat.mod_mul_right_div_self]

/-- `long2ip` of a number is its address in dotted decimal. -/
theorem long2ip_ofNat (n : ℕ) : long2ip (BitVec.ofNat 64 n) = (Addr.ofNat n).text := by
  have h0 := @toNat_octet n 0 (by norm_num)
  have h8 := @toNat_octet n 8 (by norm_num)
  have h16 := @toNat_octet n 16 (by norm_num)
  have h24 := @toNat_octet n 24 (by norm_num)
  simp only [long2ip, Addr.text, Addr.ofNat, UInt8.toNat_ofNat']
  rw [h0, h8, h16, h24]
  simp only [Nat.sub_zero, Nat.reduceSub, Nat.sub_self, Nat.pow_zero, Nat.div_one]

/-- `ip2long` and `long2ip` are inverse to each other, on the numbers of 32 bits and on the
addresses in dotted decimal. -/
theorem ip2long_long2ip_inverse :
    (∀ x : ℤ, 0 ≤ x → x < 2^32 → (ip2long (long2ip (BitVec.ofInt 64 x))).toInt = x) ∧
      ∀ x : Addr, long2ip (ip2long x.text) = x.text := by
  constructor
  · intro x h0 h1
    obtain ⟨n, rfl⟩ := Int.eq_ofNat_of_zero_le h0
    have hn : n < 2^32 := by exact_mod_cast h1
    rw [BitVec.ofInt_natCast, long2ip_ofNat, ip2long_text, Addr.toNat_ofNat hn]
    have hnat : (BitVec.ofNat 64 n).toNat = n := by
      rw [BitVec.toNat_ofNat]
      omega
    rw [BitVec.toInt_eq_toNat_of_lt (by omega), hnat]
  · intro x
    rw [ip2long_text, long2ip_ofNat, Addr.ofNat_toNat]

/-- The number of 255.255.255.255. -/
theorem ip2long_long2ip_inverse_last :
    (ip2long (long2ip (BitVec.ofInt 64 4294967295))).toInt = 4294967295 :=
  ip2long_long2ip_inverse.1 4294967295 (by decide) (by decide)

/-! ## Blocks -/

/-- The first address of the block of `2^(32 - m)` addresses that `n` is in. -/
def network (n m : ℕ) : ℕ := n / 2^(32 - m) * 2^(32 - m)

/-- One more. -/
theorem ofNat_add_one (n : ℕ) : BitVec.ofNat 64 n + 1 = BitVec.ofNat 64 (n + 1) :=
  (BitVec.ofNat_add n 1).symm

/-- The mask of `get_first_ip` for `k` bits of the host, in a `long`. -/
theorem ipMask_eq (k : Fin 32) :
    (~~~((1#32 <<< k.val) - 1#32)).signExtend 64 = BitVec.allOnes 64 <<< k.val := by
  revert k
  decide

/-- The bits that a mask with `k` bits of the host leaves. -/
theorem and_ipMask (n k : ℕ) (hn : n < 2^64) :
    BitVec.ofNat 64 n &&& (BitVec.allOnes 64 <<< k) = BitVec.ofNat 64 (n / 2^k * 2^k) := by
  have hshift : BitVec.ofNat 64 n &&& (BitVec.allOnes 64 <<< k) =
      (BitVec.ofNat 64 n >>> k) <<< k := by
    apply BitVec.eq_of_getLsbD_eq
    intro i hi
    simp only [BitVec.getLsbD_and, BitVec.getLsbD_shiftLeft, BitVec.getLsbD_ushiftRight,
      BitVec.getLsbD_allOnes]
    by_cases hik : i < k
    · simp [hik]
    · simp [hik, hi, show k + (i - k) = i by omega, show i - k < 64 by omega]
  rw [hshift]
  apply BitVec.eq_of_toNat_eq
  simp only [BitVec.toNat_shiftLeft, BitVec.toNat_ushiftRight, BitVec.toNat_ofNat,
    Nat.mod_eq_of_lt hn, Nat.shiftLeft_eq, Nat.shiftRight_eq_div_pow]

/-- `get_first_ip` of an address and a mask from 1 to 32. -/
theorem getFirstIp_eq (x : Addr) {mask : Bytes} {m : ℕ} (hmask : atol mask = m) (hm : 0 < m)
    (hle : m ≤ 32) : getFirstIp x.text mask =
      (BitVec.ofNat 64 (network x.toNat m + 1), BitVec.ofNat 64 (2^(32 - m) - 1)) := by
  have hx := x.toNat_lt
  have hsub : (32 : Long) - BitVec.ofInt 64 (m : ℤ) = BitVec.ofNat 64 (32 - m) := by
    have h32 : (32 : Long).toNat = 32 := rfl
    apply BitVec.eq_of_toNat_eq
    simp only [BitVec.ofInt_natCast, BitVec.toNat_sub, BitVec.toNat_ofNat, h32]
    omega
  have hnat : (BitVec.ofNat 64 (32 - m)).toNat = 32 - m := by
    rw [BitVec.toNat_ofNat]
    omega
  have hint : (BitVec.ofNat 64 (32 - m)).toInt = (32 - m : ℕ) := by
    rw [BitVec.toInt_eq_toNat_of_lt (by omega), hnat]
  have hmod : (32 - m) % 32 = 32 - m := Nat.mod_eq_of_lt (by omega)
  have hand : BitVec.ofNat 64 x.toNat &&& (BitVec.allOnes 64 <<< (32 - m)) =
      BitVec.ofNat 64 (network x.toNat m) := and_ipMask x.toNat (32 - m) (by omega)
  have hpow : powSubOne (32 - m : ℕ) = BitVec.ofNat 64 (2^(32 - m) - 1) := by
    rw [powSubOne, if_neg (by omega), if_neg (by omega), if_pos (by omega), Int.toNat_natCast]
  simp only [getFirstIp, hmask, hsub, hnat, hint, hmod, hpow, ipMask_eq ⟨32 - m, by omega⟩,
    ip2long_text, hand, ofNat_add_one]

/-- `get_first_ip` of an address and no mask, or the mask 0. -/
theorem getFirstIp_zero (x : Addr) {mask : Bytes} (hmask : atol mask = 0) :
    getFirstIp x.text mask = (BitVec.ofNat 64 (x.toNat + 1), BitVec.ofNat 64 (2^32 - 1)) := by
  have hlow : (~~~((1#32 <<< ((32 : Long).toNat % 32)) - 1#32)).signExtend 64 =
      BitVec.allOnes 64 := by decide
  have hpow : powSubOne (32 : Long).toInt = BitVec.ofNat 64 (2^32 - 1) := by decide
  simp only [getFirstIp, hmask, BitVec.ofInt_ofNat, BitVec.sub_zero, hlow, hpow, ip2long_text,
    BitVec.and_allOnes, ofNat_add_one]

end MgCommonUtils.CountLogByIpRange
