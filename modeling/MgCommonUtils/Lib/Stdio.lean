import MgCommonUtils.Lib.CString

/-!
# Input files

A `FILE` that is read line by line with `fgets`, or by the conversions of `fscanf`, and its
end-of-file indicator, which is set by the read that meets the end of the file and not by the one
before it. `fgets_line` and `fgets_last` are the two ways in which a line is read, and
`fgets_left_lt` is what makes a loop `while (!feof(fp))` end. A conversion of `fscanf` does not have
to take anything: `scanInt_none` is `%d` on what is no number, which stays to be read. A `SeekFile`
is one that is read at positions.
-/

namespace MgCommonUtils.Lib

/-- A `FILE` open for reading. -/
structure File where
  /-- The bytes not read yet. -/
  rest : Bytes
  /-- The end-of-file indicator, `feof`. -/
  eof : Bool
deriving DecidableEq, Repr

/-- `fopen` of a file with these bytes. -/
def fopen (content : Bytes) : File := ⟨content, false⟩

/-- The bytes up to the first newline, `n` of them at most, and the file after them. -/
def takeLine : ℕ → Bytes → Bytes × File
  | 0, s => ([], ⟨s, false⟩)
  | _ + 1, [] => ([], ⟨[], true⟩)
  | n + 1, b :: s =>
    if b = 10 then ([b], ⟨s, false⟩)
    else
      let (line, fp) := takeLine n s
      (b :: line, fp)

/-- `fgets(buf, size, fp)`: what it puts into `buf`, or none where it returns `NULL` and leaves
`buf` as it is, and the file after it. -/
def fgets (size : ℕ) (fp : File) : Option Bytes × File :=
  let (line, fp) := takeLine (size - 1) fp.rest
  (if line = [] ∧ fp.eof then none else some line, fp)

/-- The file after a read that has looked at the first of these bytes and put it back, or has met
the end of the file. -/
def File.back (s : Bytes) : File := ⟨s, s.isEmpty⟩

/-- A sign of a number. -/
def isSign (b : UInt8) : Bool := b == 43 || b == 45

/-- The sign at the front of the bytes, if there is one, and the bytes after it. -/
def scanSign : Bytes → Bytes × Bytes
  | [] => ([], [])
  | b :: s => if isSign b then ([b], s) else ([], b :: s)

/-- The conversion `%d` of `fscanf`: blanks, a sign if there is one, and digits. The number, or none
where there is no digit, and the file after it. A sign without a digit is not put back. -/
def scanInt (s : Bytes) : Option ℤ × File :=
  let (sign, s) := scanSign (s.dropWhile isspace)
  let digits := s.takeWhile isdigit
  (if digits = [] then none else some (atoi (sign ++ digits)), .back (s.dropWhile isdigit))

/-- The conversion `%s` of `fscanf`: blanks, and the bytes up to the next blank. The word, or none
at the end of the file, and the file after it. -/
def scanWord (s : Bytes) : Option Bytes × File :=
  let s := s.dropWhile isspace
  (if s = [] then none else some (s.takeWhile (!isspace ·)), .back (s.dropWhile (!isspace ·)))

/-- A blank of the format of `fscanf`, or the blanks at its end. -/
def scanBlank (s : Bytes) : File := .back (s.dropWhile isspace)

/-- A `FILE` that is read at positions. -/
structure SeekFile where
  /-- The bytes of the file. -/
  bytes : Bytes
  /-- The position, `ftell`. -/
  pos : ℕ
deriving DecidableEq, Repr

/-- `fseek(fp, offset, SEEK_SET)`, which refuses a negative offset. -/
def SeekFile.fseek (fp : SeekFile) (offset : ℤ) : SeekFile :=
  if offset < 0 then fp else { fp with pos := offset.toNat }

/-- `fread(buf, 1, n, fp)`: the bytes that it puts into `buf`, and the file after it. -/
def SeekFile.fread (fp : SeekFile) (n : ℕ) : Bytes × SeekFile :=
  let s := (fp.bytes.drop fp.pos).take n
  (s, { fp with pos := fp.pos + s.length })

/-- What there is left to do with a file: its bytes, and the read that meets its end. -/
def File.left (fp : File) : ℕ := fp.rest.length + if fp.eof then 0 else 1

/-- A line that fits is taken with its newline. -/
theorem takeLine_line {n : ℕ} {s : Bytes} (t : Bytes) (hs : (10 : UInt8) ∉ s) (hn : s.length < n) :
    takeLine n (s ++ 10 :: t) = (s ++ [10], ⟨t, false⟩) := by
  induction s generalizing n with
  | nil =>
    obtain ⟨n, rfl⟩ := Nat.exists_eq_add_one.mpr hn
    rfl
  | cons b s ih =>
    obtain ⟨n, rfl⟩ := Nat.exists_eq_add_one.mpr (Nat.zero_lt_of_lt hn)
    simp only [List.mem_cons, not_or] at hs
    have hb : b ≠ 10 := fun h => hs.1 h.symm
    have ih := ih hs.2 (Nat.lt_of_succ_lt_succ hn)
    simp only [List.cons_append, takeLine, if_neg hb, ih]

/-- A last line without a newline is taken to the end of the file. -/
theorem takeLine_last {n : ℕ} {s : Bytes} (hs : (10 : UInt8) ∉ s) (hn : s.length < n) :
    takeLine n s = (s, ⟨[], true⟩) := by
  induction s generalizing n with
  | nil =>
    obtain ⟨n, rfl⟩ := Nat.exists_eq_add_one.mpr hn
    rfl
  | cons b s ih =>
    obtain ⟨n, rfl⟩ := Nat.exists_eq_add_one.mpr (Nat.zero_lt_of_lt hn)
    simp only [List.mem_cons, not_or] at hs
    have hb : b ≠ 10 := fun h => hs.1 h.symm
    have ih := ih hs.2 (Nat.lt_of_succ_lt_succ hn)
    simp only [takeLine, if_neg hb, ih]

/-- Taking bytes does not add to what is left. -/
theorem takeLine_left_le (n : ℕ) (s : Bytes) : (takeLine n s).2.left ≤ s.length + 1 := by
  induction n generalizing s with
  | zero => simp [takeLine, File.left]
  | succ n ih =>
    cases s with
    | nil => simp [takeLine, File.left]
    | cons b s =>
      have ih := ih s
      rw [takeLine]
      split_ifs with hb
      · simp [File.left]
      · simp only [List.length_cons]
        omega

/-- A read of a line that fits. -/
theorem fgets_line {size : ℕ} {s : Bytes} (t : Bytes) (hs : (10 : UInt8) ∉ s)
    (hsize : s.length + 1 < size) :
    fgets size ⟨s ++ 10 :: t, false⟩ = (some (s ++ [10]), ⟨t, false⟩) := by
  simp [fgets, takeLine_line t hs (n := size - 1) (by omega)]

/-- A read of a last line without a newline. -/
theorem fgets_last {size : ℕ} {s : Bytes} (hs : (10 : UInt8) ∉ s) (hsize : s.length + 1 < size) :
    fgets size ⟨s, false⟩ = (if s = [] then none else some s, ⟨[], true⟩) := by
  simp [fgets, takeLine_last hs (n := size - 1) (by omega)]

/-- Every read before the end-of-file indicator is set leaves less to do. -/
theorem fgets_left_lt {size : ℕ} (hsize : 1 < size) {fp : File} (h : fp.eof = false) :
    (fgets size fp).2.left < fp.left := by
  obtain ⟨n, rfl⟩ : ∃ n, size = n + 2 := ⟨size - 2, by omega⟩
  obtain ⟨s, eof⟩ := fp
  obtain rfl : eof = false := h
  cases s with
  | nil => simp [fgets, takeLine, File.left]
  | cons b s =>
    have hle := takeLine_left_le n s
    simp only [fgets, show n + 2 - 1 = n + 1 from rfl, takeLine]
    split_ifs with hb
    · simp [File.left]
    · have hleft : File.left ⟨b :: s, false⟩ = s.length + 2 := by simp [File.left]
      rw [hleft]
      exact Nat.lt_succ_of_le hle

/-- Moving to a position of a file. -/
@[simp]
theorem SeekFile.fseek_natCast (fp : SeekFile) (n : ℕ) : fp.fseek n = ⟨fp.bytes, n⟩ := by
  simp [fseek]

/-! ## Conversions -/

/-- What `%d` reads before `t`: blanks `s`, a sign if there is one, and digits `d`. -/
structure IsNumber (s sign d t : Bytes) : Prop where
  /-- There may be blanks. -/
  blank : ∀ b ∈ s, isspace b
  /-- There is one sign at most. -/
  length_sign : sign.length ≤ 1
  /-- It is a sign. -/
  isSign : ∀ b ∈ sign, isSign b
  /-- There is a digit. -/
  digits_ne : d ≠ []
  /-- There are digits only. -/
  digits : ∀ b ∈ d, isdigit b
  /-- They end there. -/
  stop : ∀ b ∈ t.head?, ¬isdigit b

/-- What `%s` reads before `r`: blanks `s` and a word `w`, which is missing at the end of the file
only. -/
structure IsWord (s w r : Bytes) : Prop where
  /-- There may be blanks. -/
  blank : ∀ b ∈ s, isspace b
  /-- There is no blank in the word. -/
  word : ∀ b ∈ w, ¬isspace b
  /-- It ends there. -/
  stop : ∀ b ∈ r.head?, isspace b
  /-- A word is missing at the end of the file only. -/
  missing : w = [] → r = []

/-- A sign is no blank. -/
theorem not_isspace_of_isSign {b : UInt8} (h : isSign b) : ¬isspace b := by
  simp only [isSign, Bool.or_eq_true, beq_iff_eq] at h
  rcases h with rfl | rfl <;> decide

/-- A digit is no blank. -/
theorem not_isspace_of_isdigit {b : UInt8} (h : isdigit b) : ¬isspace b := by
  have hdigit := (isdigit_iff b).mp h
  simp only [isspace, Bool.or_eq_true, Bool.and_eq_true, beq_iff_eq, decide_eq_true_eq,
    UInt8.le_iff_toNat_le, ← UInt8.toNat_inj, UInt8.reduceToNat]
  omega

/-- A digit is no sign. -/
theorem not_isSign_of_isdigit {b : UInt8} (h : isdigit b) : ¬isSign b := by
  have hdigit := (isdigit_iff b).mp h
  simp only [isSign, Bool.or_eq_true, beq_iff_eq, ← UInt8.toNat_inj, UInt8.reduceToNat]
  omega

/-- `%d` skips blanks. -/
theorem scanInt_dropWhile (s : Bytes) : scanInt (s.dropWhile isspace) = scanInt s := by
  have hskip := dropWhile_append_of_head (s := []) (by simp) (head?_dropWhile_not isspace s)
  simp only [scanInt, List.nil_append] at hskip ⊢
  rw [hskip]

/-- `%d` at the end of a file. -/
theorem scanInt_blank {s : Bytes} (hs : ∀ b ∈ s, isspace b) : scanInt s = (none, ⟨[], true⟩) := by
  have hnil : s.dropWhile isspace = [] := List.dropWhile_eq_nil_iff.mpr hs
  simp [scanInt, hnil, scanSign, File.back]

/-- `%d` on blanks, a sign, and digits that something else follows. -/
theorem scanInt_signed {s d t : Bytes} {b : UInt8} (hs : ∀ b ∈ s, isspace b) (hb : isSign b)
    (hd : ∀ b ∈ d, isdigit b) (ht : ∀ b ∈ t.head?, ¬isdigit b) :
    scanInt (s ++ b :: (d ++ t)) = (if d = [] then none else some (atoi (b :: d)), .back t) := by
  have hskip : (s ++ b :: (d ++ t)).dropWhile isspace = b :: (d ++ t) := by
    refine dropWhile_append_of_head hs ?_
    rintro _ ⟨⟩
    exact not_isspace_of_isSign hb
  simp only [scanInt, hskip, scanSign, if_pos hb, takeWhile_append_of_head hd ht,
    dropWhile_append_of_head hd ht, List.singleton_append]

/-- `%d` on blanks and digits that something else follows. -/
theorem scanInt_unsigned {s d t : Bytes} (hs : ∀ b ∈ s, isspace b) (hd : ∀ b ∈ d, isdigit b)
    (ht : ∀ b ∈ t.head?, ¬isdigit b) (hne : d ≠ []) :
    scanInt (s ++ (d ++ t)) = (some (atoi d), .back t) := by
  obtain ⟨b, d', rfl⟩ := List.exists_cons_of_ne_nil hne
  have hb := hd b List.mem_cons_self
  have hskip : (s ++ (b :: d' ++ t)).dropWhile isspace = b :: d' ++ t := by
    refine dropWhile_append_of_head hs ?_
    rintro _ ⟨⟩
    exact not_isspace_of_isdigit hb
  have hsign : scanSign (b :: d' ++ t) = ([], b :: d' ++ t) := by
    rw [List.cons_append, scanSign, if_neg (not_isSign_of_isdigit hb)]
  simp only [scanInt, hskip, hsign, takeWhile_append_of_head hd ht,
    dropWhile_append_of_head hd ht, List.nil_append, if_neg hne]

/-- `%d` on a number. -/
theorem scanInt_number {s sign d t : Bytes} (h : IsNumber s sign d t) :
    scanInt (s ++ (sign ++ (d ++ t))) = (some (atoi (sign ++ d)), .back t) := by
  match sign with
  | [] => exact scanInt_unsigned h.blank h.digits h.stop h.digits_ne
  | [b] =>
    have hscan := scanInt_signed h.blank (h.isSign b List.mem_cons_self) h.digits h.stop
    rwa [if_neg h.digits_ne] at hscan
  | _ :: _ :: _ =>
    have hlen := h.length_sign
    simp at hlen

/-- `%d` on blanks and a byte that no number begins with: it is put back. -/
theorem scanInt_none {s t : Bytes} {b : UInt8} (hs : ∀ b ∈ s, isspace b) (hspace : ¬isspace b)
    (hsign : ¬isSign b) (hdigit : ¬isdigit b) :
    scanInt (s ++ b :: t) = (none, ⟨b :: t, false⟩) := by
  have hskip : (s ++ b :: t).dropWhile isspace = b :: t := by
    refine dropWhile_append_of_head hs ?_
    rintro _ ⟨⟩
    exact hspace
  simp only [scanInt, hskip, scanSign, if_neg hsign, List.takeWhile_cons_of_neg hdigit,
    List.dropWhile_cons_of_neg hdigit, if_pos, File.back, List.isEmpty_cons]

/-- `%s` on a word. -/
theorem scanWord_append {s w r : Bytes} (h : IsWord s w r) (hne : w ≠ []) :
    scanWord (s ++ (w ++ r)) = (some w, .back r) := by
  have hskip : (s ++ (w ++ r)).dropWhile isspace = w ++ r := by
    refine dropWhile_append_of_head h.blank ?_
    obtain ⟨b, w', rfl⟩ := List.exists_cons_of_ne_nil hne
    rintro _ ⟨⟩
    exact h.word b List.mem_cons_self
  have hword : ∀ b ∈ w, (!isspace b) = true := fun b hb => by simpa using h.word b hb
  have hstop : ∀ b ∈ r.head?, ¬(!isspace b) = true := fun b hb => by simpa using h.stop b hb
  simp only [scanWord, hskip, if_neg (List.append_ne_nil_of_left_ne_nil hne r),
    takeWhile_append_of_head hword hstop, dropWhile_append_of_head hword hstop]

/-- `%s` at the end of a file. -/
theorem scanWord_blank {s : Bytes} (hs : ∀ b ∈ s, isspace b) : scanWord s = (none, ⟨[], true⟩) := by
  have hnil : s.dropWhile isspace = [] := List.dropWhile_eq_nil_iff.mpr hs
  simp [scanWord, hnil, File.back]

/-- What `%s` reads of bytes. -/
theorem exists_isWord (t : Bytes) : ∃ s w r, t = s ++ (w ++ r) ∧ IsWord s w r := by
  have hu := head?_dropWhile_not isspace t
  have hr := head?_dropWhile_not (fun b => !isspace b) (t.dropWhile isspace)
  refine ⟨t.takeWhile isspace, (t.dropWhile isspace).takeWhile (!isspace ·),
    (t.dropWhile isspace).dropWhile (!isspace ·), ?_, ?_, ?_, ?_, ?_⟩
  · rw [List.takeWhile_append_dropWhile, List.takeWhile_append_dropWhile]
  · exact fun b hb => List.mem_takeWhile_imp hb
  · intro b hb
    simpa using List.mem_takeWhile_imp hb
  · intro b hb
    simpa using hr b hb
  · intro hw
    -- Behind the blanks there is no blank, so without a word there is nothing.
    cases hcut : t.dropWhile isspace with
    | nil => rfl
    | cons b u =>
      have hb := hu b (by rw [hcut]; rfl)
      rw [hcut, List.takeWhile_cons_of_pos (by simpa using hb)] at hw
      cases hw

/-- What the conversion `%d` meets. -/
inductive Front : Bytes → Prop
  /-- The end of the file. -/
  | blank {s : Bytes} : (∀ b ∈ s, isspace b) → Front s
  /-- A sign without a number. -/
  | sign {s r : Bytes} {b : UInt8} : (∀ b ∈ s, isspace b) → isSign b →
      (∀ b ∈ r.head?, ¬isdigit b) → Front (s ++ b :: r)
  /-- A number. -/
  | number {s sign d t : Bytes} : IsNumber s sign d t → Front (s ++ (sign ++ (d ++ t)))
  /-- Something else. -/
  | other {s t : Bytes} {b : UInt8} : (∀ b ∈ s, isspace b) → ¬isspace b → ¬isSign b →
      ¬isdigit b → Front (s ++ b :: t)

/-- There is nothing else that it can meet. -/
theorem front (input : Bytes) : Front input := by
  have hs : ∀ b ∈ input.takeWhile isspace, isspace b := fun b hb => List.mem_takeWhile_imp hb
  have hu := head?_dropWhile_not isspace input
  rw [← @List.takeWhile_append_dropWhile _ isspace input]
  generalize input.takeWhile isspace = s at hs ⊢
  generalize input.dropWhile isspace = u at hu ⊢
  -- The first byte behind the blanks decides, and behind a sign the next one.
  cases u with
  | nil => exact Front.blank (by simpa using hs)
  | cons b u =>
    have hd (t : Bytes) : ∀ b ∈ t.takeWhile isdigit, isdigit b :=
      fun b hb => List.mem_takeWhile_imp hb
    have ht (t : Bytes) := head?_dropWhile_not isdigit t
    have hsplit (t : Bytes) := @List.takeWhile_append_dropWhile _ isdigit t
    by_cases hsign : isSign b
    · rcases eq_or_ne (u.takeWhile isdigit) [] with hnil | hne
      · have hrest := hsplit u
        rw [hnil, List.nil_append] at hrest
        exact Front.sign hs hsign (hrest ▸ ht u)
      · have hnumber : IsNumber s [b] (u.takeWhile isdigit) (u.dropWhile isdigit) :=
          ⟨hs, le_rfl, by simpa using hsign, hne, hd u, ht u⟩
        rw [← hsplit u]
        exact Front.number hnumber
    · by_cases hdigit : isdigit b
      · have hne : (b :: u).takeWhile isdigit ≠ [] := by simp [hdigit]
        have hnumber : IsNumber s [] ((b :: u).takeWhile isdigit) ((b :: u).dropWhile isdigit) :=
          ⟨hs, Nat.zero_le 1, by simp, hne, hd _, ht _⟩
        rw [← hsplit (b :: u)]
        exact Front.number hnumber
      · exact Front.other hs (hu b rfl) hsign hdigit

end MgCommonUtils.Lib
