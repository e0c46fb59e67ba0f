import Mathlib.Data.List.Infix
import Mathlib.Data.List.TakeWhile
import Mathlib.Tactic

/-!
# C strings and decimal numerals

Byte strings as C's library sees them: the search for a line's end (`strstr` for `"\r\n"`, which
stops at a NUL), the decimal conversion `atoi`, and canonical decimal numerals. The two facts that
parsers of line-oriented protocols need are `strstrCrlf_line`, that the search finds the end of a
line, and `atoi_decimal`, that `atoi` inverts the canonical numeral.
-/

namespace MgCommonUtils.Lib

/-- A byte string. -/
abbrev Bytes := List UInt8

/-- The line terminator `"\r\n"`. -/
def crlf : Bytes := [13, 10]

@[simp]
theorem length_crlf : crlf.length = 2 := rfl

/-- The bytes of a text in ASCII. -/
def text (s : String) : Bytes := s.toList.map fun c => c.toNat.toUInt8

/-! ## `strstr` for a line's end -/

/-- `strstr(s, "\r\n")` on the bytes from `s` on: the offset of the first CR LF, searched up to the
first NUL or to the end of the bytes. -/
def strstrCrlf : Bytes → Option ℕ
  | [] => none
  | [_] => none
  | a :: b :: t =>
    if a = 13 ∧ b = 10 then some 0
    else if a = 0 then none
    else (strstrCrlf (b :: t)).map (· + 1)

/-- The content of a line: no CR LF and no NUL in it. A lone CR or LF is allowed. -/
structure IsLine (s : Bytes) : Prop where
  /-- No CR LF inside. -/
  noCrlf : ¬ crlf <:+: s
  /-- No NUL inside. -/
  noNul : (0 : UInt8) ∉ s

/-- What follows the first byte of a line's content is a line's content. -/
theorem IsLine.tail {a : UInt8} {s : Bytes} (h : IsLine (a :: s)) : IsLine s where
  noCrlf hc := h.noCrlf (hc.trans (List.suffix_cons a s).isInfix)
  noNul hm := h.noNul (List.mem_cons_of_mem _ hm)

/-- The search finds the end of a line: the first CR LF after a line's content is the one that
terminates it. -/
theorem strstrCrlf_line (s t : Bytes) (h : IsLine s) :
    strstrCrlf (s ++ 13 :: 10 :: t) = some s.length := by
  induction s with
  | nil => simp [strstrCrlf]
  | cons a s ih =>
    have ha : a ≠ 0 := fun h0 => h.noNul (by simp [h0])
    have ih' := ih h.tail
    cases s with
    | nil =>
      simp only [List.nil_append] at ih'
      simp [strstrCrlf, ha]
    | cons b s =>
      have hab : ¬ (a = 13 ∧ b = 10) := by
        rintro ⟨rfl, rfl⟩
        exact h.noCrlf ⟨[], s, rfl⟩
      simp only [List.cons_append] at ih'
      simp [strstrCrlf, hab, ha, ih']

/-- What is found is in the bytes. -/
theorem strstrCrlf_le {s : Bytes} {n : ℕ} (h : strstrCrlf s = some n) : n + 2 ≤ s.length := by
  induction s using strstrCrlf.induct generalizing n with
  | case1 => simp [strstrCrlf] at h
  | case2 => simp [strstrCrlf] at h
  | case3 a b t hab =>
    rw [strstrCrlf, if_pos hab] at h
    obtain rfl := Option.some.inj h
    simp
  | case4 t hab => simp [strstrCrlf] at h
  | case5 a b t hab h0 ih =>
    rw [strstrCrlf, if_neg hab, if_neg h0] at h
    obtain ⟨m, hm, rfl⟩ := Option.map_eq_some_iff.mp h
    have := ih hm
    simp only [List.length_cons] at this ⊢
    omega

/-- What is found is a CR LF. -/
theorem strstrCrlf_split {s : Bytes} {n : ℕ} (h : strstrCrlf s = some n) :
    s = s.take n ++ crlf ++ s.drop (n + 2) := by
  induction s using strstrCrlf.induct generalizing n with
  | case1 => cases h
  | case2 => cases h
  | case3 a b t hab =>
    rw [strstrCrlf, if_pos hab] at h
    obtain rfl := Option.some.inj h
    rw [hab.1, hab.2]
    rfl
  | case4 b t hab => simp [strstrCrlf] at h
  | case5 a b t hab h0 ih =>
    rw [strstrCrlf, if_neg hab, if_neg h0] at h
    obtain ⟨m, hm, rfl⟩ := Option.map_eq_some_iff.mp h
    exact congrArg (a :: ·) (ih hm)

/-- What is found stays the same when bytes are appended. -/
theorem strstrCrlf_append {s : Bytes} {n : ℕ} (t : Bytes) (h : strstrCrlf s = some n) :
    strstrCrlf (s ++ t) = some n := by
  induction s using strstrCrlf.induct generalizing n with
  | case1 => simp [strstrCrlf] at h
  | case2 => simp [strstrCrlf] at h
  | case3 a b u hab =>
    rw [strstrCrlf, if_pos hab] at h
    simpa [strstrCrlf, hab] using h
  | case4 u hab => simp [strstrCrlf] at h
  | case5 a b u hab h0 ih =>
    rw [strstrCrlf, if_neg hab, if_neg h0] at h
    obtain ⟨m, hm, rfl⟩ := Option.map_eq_some_iff.mp h
    have := ih hm
    rw [List.cons_append] at this
    simp [strstrCrlf, hab, h0, this]

/-- The search does not look behind a NUL. -/
theorem strstrCrlf_append_nul (s t : Bytes) : strstrCrlf (s ++ 0 :: t) = strstrCrlf s := by
  have hnul : strstrCrlf (0 :: t) = none := by cases t <;> simp [strstrCrlf]
  induction s using strstrCrlf.induct with
  | case1 => exact hnul
  | case2 a => simp [strstrCrlf, hnul]
  | case3 a b u hab => simp [strstrCrlf, hab]
  | case4 u hab => simp [strstrCrlf]
  | case5 a b u hab h0 ih =>
    rw [List.cons_append] at ih
    simp [strstrCrlf, hab, h0, ih]

/-! ## C strings -/

/-- The C string at the front of the bytes: what stands before the first NUL. -/
def cstr (s : Bytes) : Bytes := s.takeWhile (· != 0)

/-- A C string ends before the first NUL. -/
theorem cstr_append_nul (s t : Bytes) : cstr (s ++ 0 :: t) = cstr s := by
  induction s with
  | nil => simp [cstr]
  | cons a s ih =>
    rw [cstr] at ih
    by_cases ha : a = 0 <;> simp [cstr, ha, ih]

/-- Bytes without a NUL are a C string. -/
theorem cstr_eq_self {s : Bytes} (hs : (0 : UInt8) ∉ s) : cstr s = s :=
  List.takeWhile_eq_self_iff.mpr fun _ hb => bne_iff_ne.mpr fun h => hs (h ▸ hb)

/-! ## `strchr` -/

/-- `strchr(s, c)` as an offset. -/
def strchr (s : Bytes) (c : UInt8) : Option ℕ := (cstr s).idxOf? c

/-- The search finds the first byte there is. -/
theorem strchr_append {s : Bytes} {c : UInt8} (t : Bytes) (hs : (0 : UInt8) ∉ s) (hc : c ∉ s)
    (h0 : c ≠ 0) : strchr (s ++ c :: t) c = some s.length := by
  rw [strchr]
  induction s with
  | nil => simp [cstr, h0, List.idxOf?_cons]
  | cons a s ih =>
    simp only [List.mem_cons, not_or] at hs hc
    have ih := ih hs.2 hc.2
    rw [cstr] at ih
    have ha : a ≠ 0 := fun h => hs.1 h.symm
    have hac : a ≠ c := fun h => hc.1 h.symm
    simp [cstr, ha, hac, List.idxOf?_cons, ih]

/-- What stands behind the byte that was found. -/
theorem drop_length_add_one (s : Bytes) (c : UInt8) (t : Bytes) :
    (s ++ c :: t).drop (s.length + 1) = t := by
  rw [List.drop_length_add_append, List.drop_one, List.tail_cons]

/-- Bytes that are shifted there and back are what they were. -/
theorem map_sub_map_add (c : UInt8) (s : Bytes) : (s.map (· + c)).map (· - c) = s :=
  have hcancel : Function.LeftInverse (· - c) (· + c) := fun b => UInt8.add_sub_cancel b c
  hcancel.list_map s

/-! ## `strcasecmp` -/

/-- `tolower` in the C locale. -/
def tolower (b : UInt8) : UInt8 := if 65 ≤ b && b ≤ 90 then b + 32 else b

/-- `strcasecmp(s, t) == 0`. -/
def strcasecmpEq (s t : Bytes) : Bool := (cstr s).map tolower == (cstr t).map tolower

/-! ## Spans -/

/-- Bytes of a kind are taken up to the first one that is not of it. -/
theorem takeWhile_append_of_head {p : UInt8 → Bool} {s t : Bytes} (hs : ∀ b ∈ s, p b)
    (ht : ∀ b ∈ t.head?, ¬p b) : (s ++ t).takeWhile p = s := by
  rw [List.takeWhile_append_of_pos hs]
  cases t with
  | nil => rw [List.takeWhile_nil, List.append_nil]
  | cons b t => rw [List.takeWhile_cons_of_neg (ht b rfl), List.append_nil]

/-- Bytes of a kind are skipped up to the first one that is not of it. -/
theorem dropWhile_append_of_head {p : UInt8 → Bool} {s t : Bytes} (hs : ∀ b ∈ s, p b)
    (ht : ∀ b ∈ t.head?, ¬p b) : (s ++ t).dropWhile p = t := by
  rw [List.dropWhile_append_of_pos hs]
  cases t with
  | nil => rfl
  | cons b t => exact List.dropWhile_cons_of_neg (ht b rfl)

/-- What is left after the bytes of a kind does not begin with one. -/
theorem head?_dropWhile_not (p : UInt8 → Bool) (s : Bytes) : ∀ b ∈ (s.dropWhile p).head?, ¬p b := by
  intro b hb
  have hhead := List.head?_dropWhile_not p s
  rw [Option.mem_def.mp hb] at hhead
  simpa using hhead

/-! ## `atoi` -/

/-- `isspace` in the C locale. -/
def isspace (b : UInt8) : Bool := b == 32 || (9 ≤ b && b ≤ 13)

/-- `isdigit`. -/
def isdigit (b : UInt8) : Bool := 48 ≤ b && b ≤ 57

/-- The value of the digits at the front of the bytes, after the value `acc` of those before. -/
def digitsValue (acc : ℕ) : Bytes → ℕ
  | [] => acc
  | b :: t => if isdigit b then digitsValue (10 * acc + (b.toNat - 48)) t else acc

/-- `strtol(s, NULL, 10)` before its range check: blanks, an optional sign, and digits. -/
def strtolValue (s : Bytes) : ℤ :=
  match s.dropWhile isspace with
  | [] => 0
  | b :: t =>
    if b = 45 then -(digitsValue 0 t : ℤ)
    else if b = 43 then digitsValue 0 t
    else digitsValue 0 (b :: t)

/-- The 32-bit two's complement value of an integer, as a conversion to `int` gives it. -/
def toInt32 (z : ℤ) : ℤ := z.bmod (2^32)

/-- `atoi`: `strtol`, which saturates at the range of `long`, converted to `int`. -/
def atoi (s : Bytes) : ℤ :=
  toInt32 (max (-(2^63)) (min (strtolValue s) (2^63 - 1)))

/-- `atol`: `strtol`, which saturates at the range of `long`. -/
def atol (s : Bytes) : ℤ := max (-(2^63)) (min (strtolValue s) (2^63 - 1))

/-- A value in the range of `int` is its own 32-bit value. -/
theorem toInt32_of_range {z : ℤ} (h₁ : -(2^31) ≤ z) (h₂ : z < 2^31) : toInt32 z = z :=
  Int.bmod_eq_of_le (by omega) (by omega)

/-! ## Canonical numerals -/

/-- The canonical decimal numeral of `n`. -/
def decimal (n : ℕ) : Bytes := (Nat.toDigits 10 n).map fun c => c.toNat.toUInt8

/-- The decimal numeral of an integer, with its sign. -/
def decimalInt (z : ℤ) : Bytes := (if z < 0 then [45] else []) ++ decimal z.natAbs

/-- The byte of a digit character. -/
theorem isdigit_of_isDigit {c : Char} (h : c.isDigit) : isdigit c.toNat.toUInt8 ∧
    c.toNat.toUInt8.toNat = c.toNat := by
  simp only [Char.isDigit, Bool.and_eq_true, decide_eq_true_eq, ge_iff_le] at h
  obtain ⟨h1, h2⟩ := h
  have h1' : 48 ≤ c.toNat := h1
  have h2' : c.toNat ≤ 57 := h2
  have hn : c.toNat.toUInt8.toNat = c.toNat := by
    simp only [Nat.toUInt8, UInt8.toNat_ofNat']
    omega
  refine ⟨?_, hn⟩
  simp only [isdigit, Bool.and_eq_true, decide_eq_true_eq, UInt8.le_iff_toNat_le, hn]
  exact ⟨h1', h2'⟩

/-- A numeral has digits only. -/
theorem isdigit_of_mem_decimal {n : ℕ} {b : UInt8} (h : b ∈ decimal n) : isdigit b := by
  obtain ⟨c, hc, rfl⟩ := List.mem_map.mp h
  exact (isdigit_of_isDigit (Nat.isDigit_of_mem_toDigits (by norm_num) (by norm_num) hc)).1

/-- A numeral has a first digit. -/
theorem decimal_ne_nil (n : ℕ) : decimal n ≠ [] := by
  simp [decimal, Nat.toDigits_ne_nil]

/-- A digit is between `'0'` and `'9'`. -/
theorem isdigit_iff (b : UInt8) : isdigit b = true ↔ 48 ≤ b.toNat ∧ b.toNat ≤ 57 := by
  simp [isdigit, UInt8.le_iff_toNat_le]

/-- A byte string of digits is a line's content. -/
theorem isLine_of_digits {s : Bytes} (h : ∀ b ∈ s, isdigit b) : IsLine s where
  noCrlf hc := by
    have := h 13 (hc.subset (by simp [crlf]))
    simp [isdigit_iff] at this
  noNul hm := by
    have := h 0 hm
    simp [isdigit_iff] at this

/-- A numeral is a line's content. -/
theorem isLine_decimal (n : ℕ) : IsLine (decimal n) :=
  isLine_of_digits fun _ => isdigit_of_mem_decimal

/-- The value of a string of digits, read as `Nat.ofDigitChars` reads it. -/
theorem digitsValue_map (acc : ℕ) (cs : List Char) (h : ∀ c ∈ cs, c.isDigit) :
    digitsValue acc (cs.map fun c => c.toNat.toUInt8) = Nat.ofDigitChars 10 cs acc := by
  induction cs generalizing acc with
  | nil => simp [digitsValue]
  | cons c cs ih =>
    obtain ⟨hd, hn⟩ := isdigit_of_isDigit (h c (by simp))
    simp only [List.map_cons, digitsValue, hd, if_true, hn, Nat.ofDigitChars_cons]
    exact ih _ fun c' hc' => h c' (by simp [hc'])

/-- The digits of a numeral have its value. -/
theorem digitsValue_decimal (n : ℕ) : digitsValue 0 (decimal n) = n := by
  rw [decimal, digitsValue_map _ _ fun c hc =>
    Nat.isDigit_of_mem_toDigits (by norm_num) (by norm_num) hc]
  exact Nat.ofDigitChars_ten_toDigits

/-- Numbers with the same numeral are the same. -/
theorem decimal_inj {n k : ℕ} (h : decimal n = decimal k) : n = k := by
  rw [← digitsValue_decimal n, h, digitsValue_decimal]

/-- The value of digits that something else follows. -/
theorem digitsValue_append (acc : ℕ) {s t : Bytes} (hs : ∀ b ∈ s, isdigit b)
    (ht : ∀ b ∈ t.head?, ¬isdigit b) : digitsValue acc (s ++ t) = digitsValue acc s := by
  induction s generalizing acc with
  | nil =>
    cases t with
    | nil => rfl
    | cons b t => simp [digitsValue, ht b rfl]
  | cons a s ih =>
    have ha := hs a List.mem_cons_self
    rw [List.cons_append, digitsValue, digitsValue, if_pos ha, if_pos ha]
    exact ih _ fun b hb => hs b (List.mem_cons_of_mem _ hb)

/-- Digits start with neither a blank nor a sign. -/
theorem exists_eq_cons_of_digits {s : Bytes} (hne : s ≠ []) (hs : ∀ b ∈ s, isdigit b) :
    ∃ b u, s = b :: u ∧ isspace b = false ∧ b ≠ 45 ∧ b ≠ 43 := by
  obtain ⟨b, u, rfl⟩ := List.exists_cons_of_ne_nil hne
  have hb := (isdigit_iff b).mp (hs b List.mem_cons_self)
  refine ⟨b, u, rfl, ?_, ?_, ?_⟩
  · simp only [isspace, Bool.or_eq_false_iff, Bool.and_eq_false_iff, beq_eq_false_iff_ne,
      decide_eq_false_iff_not, UInt8.le_iff_toNat_le, ne_eq, ← UInt8.toNat_inj]
    exact ⟨by simp; omega, Or.inr (by simp; omega)⟩
  · rintro rfl
    simp at hb
  · rintro rfl
    simp at hb

/-- A numeral starts with neither a blank nor a sign. -/
theorem exists_decimal_eq_cons (n : ℕ) :
    ∃ b u, decimal n = b :: u ∧ isspace b = false ∧ b ≠ 45 ∧ b ≠ 43 :=
  exists_eq_cons_of_digits (decimal_ne_nil n) fun _ => isdigit_of_mem_decimal

/-- `strtol` reads digits that something else follows. -/
theorem strtolValue_digits_append {s t : Bytes} (hne : s ≠ []) (hs : ∀ b ∈ s, isdigit b)
    (ht : ∀ b ∈ t.head?, ¬isdigit b) : strtolValue (s ++ t) = digitsValue 0 s := by
  have hv := digitsValue_append 0 hs ht
  obtain ⟨b, u, rfl, hsp, h45, h43⟩ := exists_eq_cons_of_digits hne hs
  rw [List.cons_append] at hv ⊢
  simp [strtolValue, hsp, h45, h43, hv]

/-- `atoi` reads digits whose value is in the range of `int`. -/
theorem atoi_digits {s : Bytes} (hne : s ≠ []) (hs : ∀ b ∈ s, isdigit b)
    (h : digitsValue 0 s < 2^31) : atoi s = digitsValue 0 s := by
  have hv := strtolValue_digits_append hne hs (t := []) (by simp)
  rw [List.append_nil] at hv
  rw [atoi, hv, min_eq_left (by omega), max_eq_right (by omega)]
  exact toInt32_of_range (by omega) (by omega)

/-- `strtol` reads a numeral back when something else follows. -/
theorem strtolValue_decimal_append (n : ℕ) {t : Bytes} (ht : ∀ b ∈ t.head?, ¬isdigit b) :
    strtolValue (decimal n ++ t) = n := by
  rw [strtolValue_digits_append (decimal_ne_nil n) (fun _ => isdigit_of_mem_decimal) ht,
    digitsValue_decimal]

/-- `strtol` reads a numeral back. -/
theorem strtolValue_decimal (n : ℕ) : strtolValue (decimal n) = n := by
  have h := strtolValue_decimal_append n (t := []) (by simp)
  rwa [List.append_nil] at h

/-- `atoi` reads a numeral back when something else follows. -/
theorem atoi_decimal_append {n : ℕ} (h : n < 2^31) {t : Bytes}
    (ht : ∀ b ∈ t.head?, ¬isdigit b) : atoi (decimal n ++ t) = n := by
  rw [atoi, strtolValue_decimal_append n ht, min_eq_left (by omega), max_eq_right (by omega)]
  exact toInt32_of_range (by omega) (by omega)

/-- `atoi` reads a numeral in the range of `int` back. -/
theorem atoi_decimal {n : ℕ} (h : n < 2^31) : atoi (decimal n) = n := by
  rw [atoi, strtolValue_decimal, min_eq_left (by omega), max_eq_right (by omega)]
  exact toInt32_of_range (by omega) (by omega)

/-- `atol` reads a numeral in the range of `long` back. -/
theorem atol_decimal {n : ℕ} (h : n < 2^63) : atol (decimal n) = n := by
  rw [atol, strtolValue_decimal, min_eq_left (by omega), max_eq_right (by omega)]

/-- A numeral without its last digit. -/
theorem decimal_dropLast (n : ℕ) :
    (decimal n).dropLast = if n < 10 then [] else decimal (n / 10) := by
  split_ifs with h
  · rw [decimal, Nat.toDigits_of_lt_base h]
    rfl
  · rw [decimal, Nat.toDigits_of_base_le (by norm_num) (not_lt.mp h), List.map_append,
      List.map_singleton, List.dropLast_concat, decimal]

/-- `atol` of a numeral without its last digit. -/
theorem atol_decimal_dropLast {n : ℕ} (h : n < 2^63) :
    atol (decimal n).dropLast = (n / 10 : ℕ) := by
  rw [decimal_dropLast]
  split_ifs with h10
  · rw [Nat.div_eq_of_lt h10]
    decide
  · exact atol_decimal (by omega)

/-- A numeral below `10^k` has at most `k` digits. -/
theorem length_decimal_le {n k : ℕ} (hk : 0 < k) (h : n < 10^k) : (decimal n).length ≤ k := by
  rw [decimal, List.length_map]
  exact (Nat.length_toDigits_le_iff (by norm_num) hk).mpr h

/-- A numeral from `10^k` on has more than `k` digits. -/
theorem lt_length_decimal {n k : ℕ} (hk : 0 < k) (h : 10^k ≤ n) : k < (decimal n).length := by
  rw [decimal, List.length_map]
  by_contra hle
  exact absurd ((Nat.length_toDigits_le_iff (by norm_num) hk).mp (not_lt.mp hle)) (not_lt.mpr h)

end MgCommonUtils.Lib
