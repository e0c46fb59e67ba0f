import Mathlib.Data.List.DropRight
import MgCommonUtils.Lib.CString

/-!
# PHP strings

The string functions of PHP 5 that protocol decoders use: `strpos`, `substr`, `intval`, `sscanf` for
words, and `trim`. Offsets and lengths are integers, and `false` is none. What a decoder needs of
them is that a delimiter is found (`strpos_append`), that the bytes in front of it are cut out
(`substr_append`), that a numeral with something else after it is read (`intval_decimal_append`),
and that a word is (`scanWords_append`).
-/

namespace MgCommonUtils.Lib

/-- The first position of `needle` in the bytes. -/
def indexOf (needle : Bytes) : Bytes → Option ℕ
  | [] => if needle = [] then some 0 else none
  | b :: t => if needle.isPrefixOf (b :: t) then some 0 else (indexOf needle t).map (· + 1)

/-- `strpos($s,$needle,$offset)`. An offset outside the string gives `false`, with a warning. -/
def strpos (s needle : Bytes) (offset : ℤ) : Option ℕ :=
  if offset < 0 ∨ s.length < offset then none
  else (indexOf needle (s.drop offset.toNat)).map (offset.toNat + ·)

/-- `substr($s,$f,$l)`. A negative `$f` counts from the end, and a negative `$l` leaves bytes out at
the end. -/
def substr (s : Bytes) (f l : ℤ) : Option Bytes :=
  let len : ℤ := s.length
  if l < -len ∨ len < f then none
  else
    let f := if f < -len then 0 else f
    if l < 0 ∧ l + len - f < 0 then none
    else
      let f := if f < 0 then len + f else f
      let l := if l < 0 then max (len - f + l) 0 else l
      if len ≤ f then none else some ((s.drop f.toNat).take l.toNat)

/-- `intval($s)` of a string: `strtol`, which saturates at the range of a 64-bit integer. -/
def intval (s : Bytes) : ℤ := max (-(2^63)) (min (strtolValue s) (2^63 - 1))

/-- A string that is given for an integer: none, with a warning, if it does not start with digits
and possibly a sign. A fraction or an exponent behind them is not read. -/
def longArg (s : Bytes) : Option ℤ :=
  let digits := if s.head? = some 45 ∨ s.head? = some 43 then s.tail else s
  if digits.head?.any isdigit then some (intval s) else none

/-- The words that `n` conversions `%s` read, and `NULL` for those that there is no word for. -/
def scanWords : ℕ → Bytes → List (Option Bytes)
  | 0, _ => []
  | n + 1, s =>
    let s := s.dropWhile isspace
    (if s = [] then none else some (s.takeWhile fun b => !isspace b)) ::
      scanWords n (s.dropWhile fun b => !isspace b)

/-- `sscanf($s,"%s %s ...")` with `n` conversions. The string ends at a NUL. -/
def sscanfWords (n : ℕ) (s : Bytes) : List (Option Bytes) := scanWords n (cstr s)

/-- The bytes that `trim` removes: blank, tab, line feed, carriage return, NUL and vertical tab. -/
def isTrimmed (b : UInt8) : Bool := b ∈ [32, 9, 10, 13, 0, 11]

/-- `trim($s)`. -/
def trim (s : Bytes) : Bytes := (s.dropWhile isTrimmed).rdropWhile isTrimmed

/-! ## Searching and cutting -/

/-- A string is found behind bytes that its first byte is not among. -/
theorem indexOf_append {a : UInt8} {n s : Bytes} (h : a ∉ s) (t : Bytes) :
    indexOf (a :: n) (s ++ (a :: n) ++ t) = some s.length := by
  induction s with
  | nil =>
    rw [List.nil_append, List.cons_append, indexOf, if_pos, List.length_nil]
    exact List.isPrefixOf_iff_prefix.mpr (List.prefix_append (a :: n) t)
  | cons b s ih =>
    rw [List.mem_cons, not_or] at h
    obtain ⟨hab, hs⟩ := h
    have hpre : ¬(a :: n).isPrefixOf (b :: (s ++ (a :: n) ++ t)) := by
      rw [List.isPrefixOf_iff_prefix]
      intro hpre
      exact hab (List.cons_prefix_cons.mp hpre).1
    rw [List.cons_append, List.cons_append, indexOf, if_neg hpre, ih hs]
    rfl

/-- A string is found behind bytes that its first byte is not among, from an offset on. -/
theorem strpos_append (p : Bytes) {a : UInt8} {n s : Bytes} (h : a ∉ s) (t : Bytes) :
    strpos (p ++ (s ++ (a :: n) ++ t)) (a :: n) p.length = some (p.length + s.length) := by
  have hlen : ¬((p.length : ℤ) < 0 ∨ ((p ++ (s ++ (a :: n) ++ t)).length : ℤ) < p.length) := by
    rw [List.length_append]
    omega
  rw [strpos, if_neg hlen, Int.toNat_natCast, List.drop_left, indexOf_append h]
  rfl

/-- The bytes at an offset are cut out. -/
theorem substr_append (p m : Bytes) {t : Bytes} (h : m ++ t ≠ []) :
    substr (p ++ (m ++ t)) p.length m.length = some m := by
  have hpos : 0 < (m ++ t).length := List.length_pos_of_ne_nil h
  have hlen : ((p ++ (m ++ t)).length : ℤ) = p.length + (m ++ t).length := by
    rw [List.length_append]
    push_cast
    rfl
  unfold substr
  rw [hlen]
  dsimp only
  rw [if_neg (by omega), if_neg (by omega), if_neg (by omega), if_neg (by omega),
    if_neg (by omega), if_neg (by omega), Int.toNat_natCast, Int.toNat_natCast, List.drop_left,
    List.take_left]

/-- A negative offset cuts the bytes at the end out, as far as there are any. -/
theorem substr_neg {s : Bytes} (h : s ≠ []) {k : ℕ} (hk : 0 < k) :
    substr s (-(k : ℤ)) s.length = some (s.drop (s.length - k)) := by
  have hpos : 0 < s.length := List.length_pos_of_ne_nil h
  unfold substr
  dsimp only
  rw [if_neg (by omega), if_neg (by omega : ¬((s.length : ℤ) < 0 ∧ _)),
    if_neg (by omega : ¬(s.length : ℤ) < 0)]
  by_cases hshort : -(k : ℤ) < -s.length
  · have hdrop : s.length - k = 0 := by omega
    rw [if_pos hshort, if_neg (lt_irrefl 0), if_neg (by omega), hdrop, Int.toNat_natCast,
      List.take_of_length_le (by rw [List.length_drop]; omega)]
    rfl
  · have hdrop : ((s.length : ℤ) + -k).toNat = s.length - k := by omega
    have hneg : -(k : ℤ) < 0 := by omega
    rw [if_neg hshort, if_pos hneg, if_neg (by omega), hdrop, Int.toNat_natCast,
      List.take_of_length_le (by rw [List.length_drop]; omega)]

/-- The bytes at the end are cut out if and only if they are there. -/
theorem substr_neg_iff {s m : Bytes} (h : m ≠ []) :
    substr s (-(m.length : ℤ)) s.length = some m ↔ m <:+ s := by
  by_cases hs : s = []
  · rw [hs, List.suffix_nil]
    refine iff_of_false (fun hcut => h ?_) h
    simp only [substr, List.length_nil, List.drop_nil, List.take_nil] at hcut
    split_ifs at hcut <;> exact (Option.some.inj hcut).symm
  · rw [substr_neg hs (List.length_pos_of_ne_nil h), Option.some.injEq, List.suffix_iff_eq_drop]
    exact eq_comm

/-- What is cut out from the front is a prefix. -/
theorem prefix_of_substr {s m : Bytes} {k : ℕ} (h : substr s 0 k = some m) : m <+: s := by
  have hlong : ¬(0 : ℤ) < -s.length := by omega
  unfold substr at h
  dsimp only at h
  rw [if_neg (by omega), if_neg hlong, if_neg (by omega), if_neg (lt_irrefl 0),
    if_neg (by omega : ¬(k : ℤ) < 0)] at h
  split at h
  · cases h
  · exact Option.some.inj h ▸ List.take_prefix _ _

/-- `intval` reads a numeral that something else follows. -/
theorem intval_decimal_append {n : ℕ} (h : n < 2^63) {t : Bytes} (ht : ∀ b ∈ t.head?, ¬isdigit b) :
    intval (decimal n ++ t) = n := by
  rw [intval, strtolValue_decimal_append n ht, min_eq_left (by omega), max_eq_right (by omega)]

/-- `intval` reads a numeral. -/
theorem intval_decimal {n : ℕ} (h : n < 2^63) : intval (decimal n) = n := by
  have happend := intval_decimal_append h (t := []) (by simp)
  rwa [List.append_nil] at happend

/-- So does the conversion of an argument. -/
theorem longArg_decimal {n : ℕ} (h : n < 2^63) : longArg (decimal n) = some (n : ℤ) := by
  obtain ⟨b, t, hb, hdigit⟩ : ∃ b t, decimal n = b :: t ∧ isdigit b := by
    obtain ⟨b, t, hbt⟩ := List.exists_cons_of_ne_nil (decimal_ne_nil n)
    exact ⟨b, t, hbt, isdigit_of_mem_decimal (n := n) (hbt ▸ List.mem_cons_self)⟩
  have hsign : ¬(some b = some 45 ∨ some b = some 43) := by
    rintro (hb | hb) <;> rw [Option.some.inj hb] at hdigit <;> exact absurd hdigit (by decide)
  unfold longArg
  rw [intval_decimal h, hb, List.head?_cons, if_neg hsign]
  exact if_pos hdigit

/-! ## Words -/

/-- Blanks in front of a word are skipped. -/
theorem scanWords_blank (n : ℕ) {b : UInt8} (hb : isspace b) (s : Bytes) :
    scanWords n (b :: s) = scanWords n s := by
  cases n with
  | zero => rfl
  | succ n => rw [scanWords, scanWords, List.dropWhile_cons_of_pos hb]

/-- A word is read up to its end. -/
theorem scanWords_append (n : ℕ) {w s : Bytes} (hne : w ≠ []) (hw : ∀ b ∈ w, ¬isspace b)
    (hs : ∀ b ∈ s.head?, isspace b) : scanWords (n + 1) (w ++ s) = some w :: scanWords n s := by
  have hword : ∀ b ∈ w, (!isspace b) = true := fun b hb => by simpa using hw b hb
  have hskip : (w ++ s).dropWhile isspace = w ++ s := by
    obtain ⟨b, t, rfl⟩ := List.exists_cons_of_ne_nil hne
    exact List.dropWhile_cons_of_neg (hw b List.mem_cons_self)
  have hstop : ∀ b ∈ s.head?, ¬(!isspace b) = true := fun b hb => by simpa using hs b hb
  rw [scanWords, hskip, if_neg (List.append_ne_nil_of_left_ne_nil hne s),
    takeWhile_append_of_head hword hstop, dropWhile_append_of_head hword hstop]

/-! ## Trimming -/

/-- The end of a line is trimmed. -/
theorem trim_append_crlf (s : Bytes) : trim (s ++ crlf) = trim s := by
  have hcr : isTrimmed 13 := by decide
  have hlf : isTrimmed 10 := by decide
  unfold trim
  rw [List.dropWhile_append]
  split
  · rename_i hempty
    rw [List.isEmpty_iff.mp hempty]
    rfl
  · have hsplit : s.dropWhile isTrimmed ++ crlf = s.dropWhile isTrimmed ++ [13] ++ [10] := by
      rw [List.append_assoc]
      rfl
    rw [hsplit, List.rdropWhile_concat_pos _ _ _ hlf, List.rdropWhile_concat_pos _ _ _ hcr]

/-- A byte at the front that is not trimmed stays there. -/
theorem exists_trim_cons {b : UInt8} (h : ¬isTrimmed b) (s : Bytes) :
    ∃ t, trim (b :: s) = b :: t := by
  have hpre : trim (b :: s) <+: b :: s := by
    rw [trim, List.dropWhile_cons_of_neg h]
    exact List.rdropWhile_prefix _ _
  have hne : trim (b :: s) ≠ [] := by
    rw [trim, List.dropWhile_cons_of_neg h]
    intro hnil
    exact h (List.rdropWhile_eq_nil_iff.mp hnil b List.mem_cons_self)
  obtain ⟨c, t, hct⟩ := List.exists_cons_of_ne_nil hne
  rw [hct] at hpre ⊢
  exact ⟨t, by rw [(List.cons_prefix_cons.mp hpre).1]⟩

end MgCommonUtils.Lib
