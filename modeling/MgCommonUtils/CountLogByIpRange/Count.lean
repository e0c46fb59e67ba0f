import MgCommonUtils.Lib.Reader
import MgCommonUtils.CountLogByIpRange.Load

/-!
# Counting the lines of the standard input

The count loop of `main.cpp`: it reads a count and an address from each line of the standard input,
up to the end of the file, and adds up the counts of the addresses whose bit is set.

It does not look at what `fscanf` returns. A line that does not begin with a number is not read by
`fscanf`, and neither is it by any other turn of the loop, so the loop does not come to the end of
the file. `countEnds_iff` says that there is nothing else, as long as a word fits `cip`: the loop
ends if and only if the input is a sequence of numbers, each with a word behind it, and of signs.
-/

namespace MgCommonUtils.CountLogByIpRange

open MgCommonUtils.Lib

/-! ## The model -/

/-- What the count loop keeps. -/
structure Count where
  /-- `c`. -/
  c : ℤ
  /-- The C string in `cip`. -/
  cip : Bytes
  /-- `total`. -/
  total : ℤ
  /-- What has been printed. -/
  out : Bytes

/-- The call `fscanf(stdin, " %d %s\n", &c, cip)` on this input: the variables and the file after
it. A word that does not fit `cip` is written past its end. -/
def Count.fscanf (s : Count) (input : Bytes) : Except Stop (Count × File) :=
  match scanInt input with
  | (none, fp) => .ok (s, fp)
  | (some c, fp) =>
    let s := { s with c := c }
    match scanWord fp.rest with
    | (none, fp) => .ok (s, fp)
    | (some cip, fp) =>
      if cip.length < 64 then .ok ({ s with cip := cstr cip }, scanBlank fp.rest)
      else .error .outOfBounds

/-- The body of the count loop after `fscanf`. -/
def Count.tally (bs : Bitset) (s : Count) : Except Stop Count :=
  let ip := ip2long s.cip
  if (uintMax : ℤ) ≤ ip.toInt ∨ ip.toInt ≤ 0 then
    .ok { s with out := s.out ++ text "invalied ip: " ++ s.cip ++ [10] }
  else
    match bs.test ip with
    | none => .error .overflow
    | some true =>
      .ok { s with
        total := toInt32 (s.total + s.c)
        out := s.out ++ decimalInt s.c ++ 32 :: s.cip ++ [10] }
    | some false => .ok s

/-- The count loop, for `turns` turns at most. -/
def countLoop (bs : Bitset) : ℕ → Count → File → Except Stop Count
  | 0, s, fp => if fp.eof then .ok s else .error .forever
  | turns + 1, s, fp =>
    if fp.eof then .ok s
    else do
      let (s, fp) ← s.fscanf fp.rest
      let s ← s.tally bs
      countLoop bs turns s fp

/-- What is printed for an input, where `cip` holds the string `cip` before the loop. -/
def count (bs : Bitset) (cip input : Bytes) (turns : ℕ) : Except Stop Bytes := do
  let s ← countLoop bs turns ⟨0, cip, 0, []⟩ (fopen input)
  return s.out ++ text "total count : " ++ decimalInt s.total ++ [10]

/-- The loop ends on an input. -/
def CountEnds (bs : Bitset) (cip input : Bytes) : Prop :=
  ∃ turns out, count bs cip input turns = .ok out

/-- An input that the loop reads to its end: numbers, each with a word of at most 63 bytes behind
it, and signs without a number, with blanks between them. -/
inductive Readable : Bytes → Prop
  /-- Nothing but blanks. -/
  | blank {s : Bytes} : (∀ b ∈ s, isspace b) → Readable s
  /-- A sign without a number. -/
  | sign {s r : Bytes} {b : UInt8} : (∀ b ∈ s, isspace b) → isSign b →
      (∀ b ∈ r.head?, ¬isdigit b) → Readable r → Readable (s ++ b :: r)
  /-- A number, and a word unless it is at the end of the input. -/
  | line {s sign d s' w r : Bytes} : IsNumber s sign d (s' ++ (w ++ r)) → IsWord s' w r →
      w.length < 64 → Readable r → Readable (s ++ (sign ++ (d ++ (s' ++ (w ++ r)))))

/-! ## One turn -/

/-- The bit that is tested exists. -/
theorem Count.exists_tally (bs : Bitset) (s : Count) : ∃ s', s.tally bs = .ok s' := by
  unfold tally
  dsimp only
  split_ifs with hip
  · exact ⟨_, rfl⟩
  · -- The address is below the size of the set of bits, and not negative.
    rw [not_or, not_le, not_le] at hip
    have hnat : (ip2long s.cip).toNat < uintMax := by
      have hpos := BitVec.toInt_eq_toNat_of_lt (BitVec.toInt_pos_iff.mp hip.2.le)
      omega
    rw [Bitset.test, dif_pos hnat]
    split
    · contradiction
    · exact ⟨_, rfl⟩
    · exact ⟨_, rfl⟩

/-- Blanks in front of a number do not matter. -/
theorem Count.fscanf_dropWhile (s : Count) (input : Bytes) :
    s.fscanf (input.dropWhile isspace) = s.fscanf input := by
  rw [fscanf, scanInt_dropWhile, fscanf]

/-- A turn on blanks meets the end of the file. -/
theorem Count.fscanf_blank (c : Count) {s : Bytes} (hs : ∀ b ∈ s, isspace b) :
    c.fscanf s = .ok (c, ⟨[], true⟩) := by
  rw [fscanf, scanInt_blank hs]

/-- A turn on a sign without a number reads the sign. -/
theorem Count.fscanf_sign (c : Count) {s r : Bytes} {b : UInt8} (hs : ∀ b ∈ s, isspace b)
    (hb : isSign b) (hr : ∀ b ∈ r.head?, ¬isdigit b) :
    c.fscanf (s ++ b :: r) = .ok (c, .back r) := by
  have hscan := scanInt_signed (d := []) (t := r) hs hb (by simp) hr
  rw [List.nil_append, if_pos rfl] at hscan
  rw [fscanf, hscan]

/-- A turn on something else reads nothing. -/
theorem Count.fscanf_other (c : Count) {s t : Bytes} {b : UInt8} (hs : ∀ b ∈ s, isspace b)
    (hspace : ¬isspace b) (hsign : ¬isSign b) (hdigit : ¬isdigit b) :
    c.fscanf (s ++ b :: t) = .ok (c, ⟨b :: t, false⟩) := by
  rw [fscanf, scanInt_none hs hspace hsign hdigit]

/-- A turn on a number and a word reads both, if the word fits. -/
theorem Count.fscanf_line (c : Count) {s sign d s' w r : Bytes}
    (hd : IsNumber s sign d (s' ++ (w ++ r))) (hw : IsWord s' w r) :
    c.fscanf (s ++ (sign ++ (d ++ (s' ++ (w ++ r))))) =
      if w.length < 64 then
        .ok ({ c with c := atoi (sign ++ d), cip := if w = [] then c.cip else cstr w },
          scanBlank r)
      else .error .outOfBounds := by
  rw [fscanf, scanInt_number hd]
  dsimp only [File.back]
  rcases eq_or_ne w [] with rfl | hne
  · -- The word is missing, so the input has come to its end, and `cip` keeps what it holds.
    obtain rfl := hw.missing rfl
    rw [List.append_nil, List.append_nil, scanWord_blank hw.blank]
    rfl
  · rw [scanWord_append hw hne, if_neg hne]
    rfl

/-! ## The loop -/

/-- The loop ends on a file, whatever it keeps. -/
def LoopEnds (bs : Bitset) (fp : File) : Prop := ∀ s, ∃ turns s', countLoop bs turns s fp = .ok s'

/-- The loop ends at the end of the file. -/
theorem loopEnds_eof (bs : Bitset) {fp : File} (h : fp.eof = true) : LoopEnds bs fp :=
  fun s => ⟨0, s, if_pos h⟩

/-- A turn of the loop that goes on. -/
theorem countLoop_succ_eq_ok {bs : Bitset} {turns : ℕ} {c c' : Count} {input : Bytes} :
    countLoop bs (turns + 1) c ⟨input, false⟩ = .ok c' ↔
      ∃ c₁ fp c₂, c.fscanf input = .ok (c₁, fp) ∧ c₁.tally bs = .ok c₂ ∧
        countLoop bs turns c₂ fp = .ok c' := by
  rw [countLoop, if_neg Bool.false_ne_true, except_bind_eq_ok]
  constructor
  · rintro ⟨⟨c₁, fp⟩, hscan, h⟩
    obtain ⟨c₂, htally, h⟩ := except_bind_eq_ok.mp h
    exact ⟨c₁, fp, c₂, hscan, htally, h⟩
  · rintro ⟨c₁, fp, c₂, hscan, htally, h⟩
    exact ⟨(c₁, fp), hscan, except_bind_eq_ok.mpr ⟨c₂, htally, h⟩⟩

/-- The loop ends if it ends after a turn. -/
theorem loopEnds_of_fscanf {bs : Bitset} {input : Bytes} {fp : File}
    (hscan : ∀ s : Count, ∃ s', s.fscanf input = .ok (s', fp)) (h : LoopEnds bs fp) :
    LoopEnds bs ⟨input, false⟩ := by
  intro s
  obtain ⟨s₁, hs₁⟩ := hscan s
  obtain ⟨s₂, hs₂⟩ := s₁.exists_tally bs
  obtain ⟨turns, s', hs'⟩ := h s₂
  exact ⟨turns + 1, s', countLoop_succ_eq_ok.mpr ⟨s₁, fp, s₂, hs₁, hs₂, hs'⟩⟩

/-- It does not matter whether the end of the file has been met already. -/
theorem LoopEnds.back {bs : Bitset} {s : Bytes} (h : LoopEnds bs ⟨s, false⟩) :
    LoopEnds bs (.back s) := by
  cases s with
  | nil => exact loopEnds_eof bs rfl
  | cons b s => exact h

/-- Nor does it whether blanks have been read already. -/
theorem LoopEnds.scanBlank {bs : Bitset} {s : Bytes} (h : LoopEnds bs ⟨s, false⟩) :
    LoopEnds bs (scanBlank s) := by
  refine LoopEnds.back fun c => ?_
  obtain ⟨turns, c', hc'⟩ := h c
  refine ⟨turns, c', ?_⟩
  cases turns with
  | zero => exact hc'
  -- The next turn would skip the blanks itself.
  | succ turns => simpa only [countLoop, Count.fscanf_dropWhile] using hc'

/-- The loop reads what is readable to its end. -/
theorem Readable.loopEnds (bs : Bitset) {input : Bytes} (h : Readable input) :
    LoopEnds bs ⟨input, false⟩ := by
  -- The induction is on how the input is readable, one turn of the loop for each part of it.
  induction h with
  | blank hs =>
    exact loopEnds_of_fscanf (fun c => ⟨c, c.fscanf_blank hs⟩) (loopEnds_eof bs rfl)
  | sign hs hb hr _ ih =>
    exact loopEnds_of_fscanf (fun c => ⟨c, c.fscanf_sign hs hb hr⟩) ih.back
  | line hd hw hfit _ ih =>
    refine loopEnds_of_fscanf (fun c => ?_) ih.scanBlank
    rw [c.fscanf_line hd hw, if_pos hfit]
    exact ⟨_, rfl⟩

/-- Blanks may stand in front. -/
theorem Readable.blank_append {s r : Bytes} (hs : ∀ b ∈ s, isspace b) (h : Readable r) :
    Readable (s ++ r) := by
  have happend {s' : Bytes} (hs' : ∀ b ∈ s', isspace b) : ∀ b ∈ s ++ s', isspace b := by
    intro b hb
    rcases List.mem_append.mp hb with hb | hb
    · exact hs b hb
    · exact hs' b hb
  cases h with
  | blank hs' => exact Readable.blank (happend hs')
  | sign hs' hb hr h =>
    rw [← List.append_assoc]
    exact Readable.sign (happend hs') hb hr h
  | line hd hw hfit h =>
    rw [← List.append_assoc]
    exact Readable.line { hd with blank := happend hd.blank } hw hfit h

/-- The loop runs forever on what is neither a blank nor a sign nor a digit. -/
theorem countLoop_other (bs : Bitset) (turns : ℕ) (c : Count) {s t : Bytes} {b : UInt8}
    (hs : ∀ b ∈ s, isspace b) (hspace : ¬isspace b) (hsign : ¬isSign b) (hdigit : ¬isdigit b) :
    countLoop bs turns c ⟨s ++ b :: t, false⟩ = .error .forever := by
  induction turns generalizing c s with
  | zero => rfl
  | succ turns ih =>
    obtain ⟨c', hc'⟩ := c.exists_tally bs
    -- The turn leaves the file where the blanks have been read already.
    have ih := ih c' (s := []) (by simp)
    rw [countLoop, if_neg Bool.false_ne_true,
      except_bind_of_ok (c.fscanf_other hs hspace hsign hdigit)]
    dsimp only
    rw [except_bind_of_ok hc']
    exact ih

/-- What the loop reads to its end is readable. -/
theorem readable_of_countLoop {bs : Bitset} {turns : ℕ} {c c' : Count} {fp : File}
    (hfp : fp.eof = true → fp.rest = []) (h : countLoop bs turns c fp = .ok c') :
    Readable fp.rest := by
  have hblank : Readable [] := Readable.blank (by simp)
  have hback (s : Bytes) : (File.back s).eof = true → (File.back s).rest = [] :=
    List.isEmpty_iff.mp
  -- The induction is on the turns: a turn reads one front of the input, and the rest is readable.
  induction turns generalizing c fp with
  | zero =>
    rw [countLoop] at h
    split_ifs at h with heof
    exact hfp heof ▸ hblank
  | succ turns ih =>
    obtain ⟨input, eof⟩ := fp
    cases eof with
    | true => exact hfp rfl ▸ hblank
    | false =>
      cases front input with
      | blank hs => exact Readable.blank hs
      | sign hs hb hr =>
        obtain ⟨c₁, fp, c₂, hscan, -, h⟩ := countLoop_succ_eq_ok.mp h
        rw [c.fscanf_sign hs hb hr] at hscan
        obtain ⟨rfl, rfl⟩ := Prod.mk.inj (Except.ok.inj hscan)
        exact Readable.sign hs hb hr (ih (hback _) h)
      | other hs hspace hsign hdigit =>
        rw [countLoop_other bs _ c hs hspace hsign hdigit] at h
        cases h
      | @number s sign d t hd =>
        -- A number is read with the word behind it, which has to fit.
        obtain ⟨s', w, r, rfl, hw⟩ := exists_isWord t
        obtain ⟨c₁, fp, c₂, hscan, -, h⟩ := countLoop_succ_eq_ok.mp h
        have hfit : w.length < 64 := by
          by_contra hlong
          rw [c.fscanf_line hd hw, if_neg hlong] at hscan
          cases hscan
        rw [c.fscanf_line hd hw, if_pos hfit] at hscan
        obtain ⟨-, rfl⟩ := Prod.mk.inj (Except.ok.inj hscan)
        -- The blanks behind the word are read with it.
        have hblanks : ∀ b ∈ r.takeWhile isspace, isspace b := fun b hb => List.mem_takeWhile_imp hb
        have hrest : Readable (r.dropWhile isspace) := ih (hback _) h
        have hr := hrest.blank_append hblanks
        rw [List.takeWhile_append_dropWhile] at hr
        exact Readable.line hd hw hfit hr

/-- The loop ends if and only if the input is readable. -/
theorem countEnds_iff (bs : Bitset) (cip input : Bytes) :
    CountEnds bs cip input ↔ Readable input := by
  constructor
  · rintro ⟨turns, out, h⟩
    obtain ⟨s, hs, -⟩ := except_bind_eq_ok.mp h
    have hfp : (fopen input).eof = true → (fopen input).rest = [] := by
      intro heof
      cases heof
    exact readable_of_countLoop hfp hs
  · intro h
    obtain ⟨turns, s, hs⟩ := h.loopEnds bs ⟨0, cip, 0, []⟩
    exact ⟨turns, _, except_bind_eq_ok.mpr ⟨s, hs, rfl⟩⟩

/-- A line `x`. -/
theorem not_countEnds : ¬ CountEnds Bitset.new [] (text "x\n") := by
  rintro ⟨turns, out, h⟩
  obtain ⟨s, hs, -⟩ := except_bind_eq_ok.mp h
  have hloop := countLoop_other Bitset.new turns ⟨0, [], 0, []⟩ (s := []) (t := [10]) (b := 120)
    (by simp) (by decide) (by decide) (by decide)
  cases hs.symm.trans hloop

end MgCommonUtils.CountLogByIpRange
