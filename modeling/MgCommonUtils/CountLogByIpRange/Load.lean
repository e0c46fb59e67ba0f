import MgCommonUtils.Lib.Stdio
import MgCommonUtils.CountLogByIpRange.Address

/-!
# Loading the blocks

The load loop of `main.cpp`: it reads a file of lines `a.b.c.d/m` and sets the bits of the addresses
of every block in a `bitset<UINT_MAX>`.

It does not set all of them. The first address of a block is left out, and with it all of a block of
a single address. The bit of 255.255.255.255 does not exist, and `set` throws an exception for it.
And the last byte of every line is cut off as its newline, so that a last line without a newline
loses the last digit of its mask. `loadOk_iff` says that there is nothing else: the bit of an
address says whether the address is in one of the blocks, if and only if none of the three makes a
difference.
-/

namespace MgCommonUtils.CountLogByIpRange

open MgCommonUtils.Lib

/-! ## The model -/

/-- `UINT_MAX`. -/
def uintMax : ℕ := 2^32 - 1

/-- A `bitset<UINT_MAX>`. -/
def Bitset := Fin uintMax → Bool

/-- `new bitset<UINT_MAX>`. -/
def Bitset.new : Bitset := fun _ => false

/-- `bs->set(pos)`, or none where it throws `out_of_range`. -/
def Bitset.set (bs : Bitset) (pos : Long) : Option Bitset :=
  if pos.toNat < uintMax then some fun p => p.val == pos.toNat || bs p else none

/-- `bs->test(pos)`, or none where it throws `out_of_range`. -/
def Bitset.test (bs : Bitset) (pos : Long) : Option Bool :=
  if h : pos.toNat < uintMax then some (bs ⟨pos.toNat, h⟩) else none

/-- The next of the addresses that are counted up to a bound is nearer to it. -/
theorem toNat_sub_succ_lt {i stop : Long} (h : i.slt stop) :
    (stop.toInt - (i + 1).toInt).toNat < (stop.toInt - i.toInt).toNat := by
  have hlt : i.toInt < stop.toInt := BitVec.slt_iff_toInt_lt.mp h
  have hle := stop.toInt_lt
  have hge := i.le_toInt
  have hone : (1 : Long).toInt = 1 := rfl
  have hsucc : (i + 1).toInt = i.toInt + 1 := by
    rw [BitVec.toInt_add, hone]
    exact Int.bmod_eq_of_le (by omega) (by omega)
  omega

/-- The loop `for (long i = first; i < stop; i++) bs->set(i)`. -/
def fill (bs : Bitset) (i stop : Long) : Option Bitset :=
  if i.slt stop then
    match bs.set i with
    | none => none
    | some bs => fill bs (i + 1) stop
  else some bs
termination_by (stop.toInt - i.toInt).toNat
decreasing_by exact toNat_sub_succ_lt ‹_›

/-- What the load loop keeps. -/
structure Load where
  /-- `bs`. -/
  bs : Bitset
  /-- What has been printed. -/
  out : Bytes

/-- The `printf` for a line that is no block. -/
def Load.badCidr (s : Load) (cidr : Bytes) : Load :=
  { s with out := s.out ++ text "bad cidr: " ++ cidr ++ [10] }

/-- The body of the load loop after `fgets`, or none where an exception leaves it. -/
def loadLine (s : Load) (buf : Bytes) : Option Load :=
  let cidr := cstr buf
  let nc := cidr.length
  if nc ≤ 7 then
    if 1 < nc then some (s.badCidr cidr) else some s
  else
    let cidr := cidr.dropLast
    match strchr cidr 47 with
    | none => some (s.badCidr cidr)
    | some slash =>
      let ip := cidr.take slash
      let mask := cidr.drop (slash + 1)
      let (first, length) := getFirstIp ip mask
      match fill s.bs first (first + length) with
      | none => none
      | some bs => some { s with bs := bs }

/-- The load loop. -/
def load (s : Load) (fp : File) : Option Load :=
  if fp.eof then some s
  else
    match loadLine s ((fgets 63 fp).1.getD []) with
    | none => none
    | some s => load s (fgets 63 fp).2
termination_by fp.left
decreasing_by exact fgets_left_lt (by norm_num) (eq_false_of_ne_true ‹_›)

/-- The load loop on a file with these bytes. -/
def loadFile (content : Bytes) : Option Load := load ⟨Bitset.new, []⟩ (fopen content)

/-! ## Blocks -/

/-- A block of addresses. -/
structure Block where
  /-- An address of the block. -/
  addr : Addr
  /-- The number of the bits that its addresses share. -/
  mask : ℕ
  /-- They share one bit. -/
  mask_pos : 0 < mask
  /-- They share all bits at most. -/
  mask_le : mask ≤ 32

/-- The line of a block. -/
def Block.text (b : Block) : Bytes := b.addr.text ++ 47 :: decimal b.mask

/-- An address is in a block. -/
def Block.Has (b : Block) (x : Addr) : Prop :=
  x.toNat / 2^(32 - b.mask) = b.addr.toNat / 2^(32 - b.mask)

/-- A file of blocks, one on each line. The last line ends with a newline if `newline` is true. -/
def fileText : List Block → Bool → Bytes
  | [], _ => []
  | b :: bs, newline =>
    b.text ++ if bs.isEmpty && !newline then [] else 10 :: fileText bs newline

/-- The bit of an address says whether the address is in one of the blocks. -/
def LoadOk (blocks : List Block) (newline : Bool) (x : Addr) : Prop :=
  ∃ s, loadFile (fileText blocks newline) = some s ∧
    (s.bs.test (ip2long x.text) = some true ↔ ∃ b ∈ blocks, b.Has x)

/-- A line as the loop reads it. -/
structure Entry where
  /-- The address. -/
  addr : Addr
  /-- The mask. -/
  mask : ℕ

/-- The line of a block as the loop reads it: without its last byte, which is the newline, or the
last digit of the mask if it is the last line of a file that does not end with a newline. -/
def Block.entry (b : Block) (cut : Bool) : Entry := ⟨b.addr, if cut then b.mask / 10 else b.mask⟩

/-- The addresses that are set for an entry: those of its block but the first. -/
def Entry.Covers (e : Entry) (n : ℕ) : Prop :=
  network e.addr.toNat e.mask < n ∧ n < network e.addr.toNat e.mask + 2^(32 - e.mask)

instance (e : Entry) (n : ℕ) : Decidable (e.Covers n) :=
  inferInstanceAs (Decidable (_ ∧ _))

/-- An entry covers 255.255.255.255, which has no bit. -/
def Entry.Overruns (e : Entry) : Prop := e.Covers uintMax

instance (e : Entry) : Decidable e.Overruns := inferInstanceAs (Decidable (e.Covers uintMax))

/-- The lines of a file as the loop reads them. -/
def asRead : List Block → Bool → List Entry
  | [], _ => []
  | b :: bs, newline => b.entry (bs.isEmpty && !newline) :: asRead bs newline

/-- What makes a difference between the blocks and the bits does not concern an address. -/
structure NoSlip (blocks : List Block) (newline : Bool) (x : Addr) : Prop where
  /-- No line as it is read covers 255.255.255.255. -/
  noOverrun : ∀ e ∈ asRead blocks newline, ¬ e.Overruns
  /-- The first address of a block is another address of a line as it is read. -/
  network : ∀ b ∈ blocks, x.toNat = network b.addr.toNat b.mask →
    ∃ e ∈ asRead blocks newline, e.Covers x.toNat
  /-- What a last line covers without its last digit is in a block. -/
  lastDigit : ∀ b, newline = false → blocks.getLast? = some b →
    (b.entry true).Covers x.toNat → ∃ b ∈ blocks, b.Has x

/-! ## The bits -/

/-- The bits of a range, set. -/
def Bitset.setRange (bs : Bitset) (a b : ℕ) : Bitset :=
  fun p => bs p || decide (a ≤ p.val ∧ p.val < b)

/-- The word of a small number. -/
theorem toNat_ofNat_of_lt {n : ℕ} (h : n < 2^63) : (BitVec.ofNat 64 n).toNat = n := by
  rw [BitVec.toNat_ofNat]
  omega

/-- The comparison of two small numbers. -/
theorem slt_ofNat {a b : ℕ} (ha : a < 2^63) (hb : b < 2^63) :
    (BitVec.ofNat 64 a).slt (BitVec.ofNat 64 b) = true ↔ a < b := by
  have ha' := toNat_ofNat_of_lt ha
  have hb' := toNat_ofNat_of_lt hb
  rw [BitVec.slt_iff_toInt_lt, BitVec.toInt_eq_toNat_of_lt (by omega),
    BitVec.toInt_eq_toNat_of_lt (by omega), ha', hb']
  exact Nat.cast_lt

/-- Setting the bit of an address that has one. -/
theorem Bitset.set_ofNat (bs : Bitset) {a : ℕ} (ha : a < uintMax) :
    bs.set (BitVec.ofNat 64 a) = some (bs.setRange a (a + 1)) := by
  have hnat : (BitVec.ofNat 64 a).toNat = a :=
    toNat_ofNat_of_lt (lt_trans ha (by norm_num [uintMax]))
  rw [Bitset.set, hnat, if_pos ha]
  congr 1
  funext p
  have hrange : (a ≤ p.val ∧ p.val < a + 1) ↔ p.val = a := by omega
  simp only [Bitset.setRange, hrange, Bool.or_comm (bs p), beq_eq_decide]

/-- Setting the bit of 255.255.255.255, or one behind it. -/
theorem Bitset.set_ofNat_eq_none (bs : Bitset) {a : ℕ} (ha : uintMax ≤ a) (hlt : a < 2^63) :
    bs.set (BitVec.ofNat 64 a) = none := by
  rw [Bitset.set, toNat_ofNat_of_lt hlt, if_neg (not_lt.mpr ha)]

/-- No bits, set. -/
theorem Bitset.setRange_self (bs : Bitset) (a : ℕ) : bs.setRange a a = bs := by
  funext p
  have hp : ¬ (a ≤ p.val ∧ p.val < a) := by omega
  simp only [Bitset.setRange, hp, decide_false, Bool.or_false]

/-- The range of two ranges that follow each other. -/
theorem Bitset.setRange_setRange (bs : Bitset) {a b c : ℕ} (hab : a ≤ b) (hbc : b ≤ c) :
    (bs.setRange a b).setRange b c = bs.setRange a c := by
  funext p
  simp only [Bitset.setRange, Bool.or_assoc, ← Bool.decide_or]
  congr 2
  exact propext (by omega)

/-- The loop over no address. -/
theorem fill_self (bs : Bitset) (i : Long) : fill bs i i = some bs := by
  have hstop : ¬ i.slt i = true := by
    rw [BitVec.slt_iff_toInt_lt]
    exact lt_irrefl _
  rw [fill, if_neg hstop]

/-- The loop over addresses that all have a bit. -/
theorem fill_eq_some (bs : Bitset) {a b : ℕ} (hab : a ≤ b) (hb : b ≤ uintMax) :
    fill bs (BitVec.ofNat 64 a) (BitVec.ofNat 64 b) = some (bs.setRange a b) := by
  have hmax : uintMax < 2^63 := by norm_num [uintMax]
  obtain ⟨n, rfl⟩ := Nat.exists_eq_add_of_le hab
  induction n generalizing bs a with
  | zero => rw [Nat.add_zero, fill_self, Bitset.setRange_self]
  | succ n ih =>
    have hgo : (BitVec.ofNat 64 a).slt (BitVec.ofNat 64 (a + (n + 1))) = true :=
      (slt_ofNat (by omega) (by omega)).mpr (by omega)
    have hnext : a + (n + 1) = a + 1 + n := by omega
    have ih := ih (bs.setRange a (a + 1)) (a := a + 1) (by omega) (by omega)
    rw [Bitset.setRange_setRange bs (by omega) (by omega)] at ih
    rw [fill, if_pos hgo, bs.set_ofNat (by omega), hnext, ofNat_add_one]
    exact ih

/-- The loop over addresses of which the last has no bit. -/
theorem fill_eq_none (bs : Bitset) {a b : ℕ} (hab : a < b) (hb : uintMax < b) (hlt : b < 2^63) :
    fill bs (BitVec.ofNat 64 a) (BitVec.ofNat 64 b) = none := by
  -- The induction is on the number of the addresses before it.
  induction hn : uintMax - a generalizing bs a with
  | zero =>
    have hgo := (slt_ofNat (lt_trans hab hlt) hlt).mpr hab
    rw [fill, if_pos hgo, bs.set_ofNat_eq_none (by omega) (by omega)]
  | succ n ih =>
    have hgo := (slt_ofNat (lt_trans hab hlt) hlt).mpr hab
    have ih := ih (bs.setRange a (a + 1)) (a := a + 1) (by omega) (by omega)
    rw [fill, if_pos hgo, bs.set_ofNat (by omega), ofNat_add_one]
    exact ih

/-- Testing the bit of an address that has one. -/
theorem Bitset.test_ofNat (bs : Bitset) {n : ℕ} (hn : n < uintMax) :
    bs.test (BitVec.ofNat 64 n) = some (bs ⟨n, hn⟩) := by
  have hnat : (BitVec.ofNat 64 n).toNat = n :=
    toNat_ofNat_of_lt (lt_trans hn (by norm_num [uintMax]))
  simp only [Bitset.test, hnat, hn, dif_pos]

/-! ## One line -/

/-- A block ends at 255.255.255.255 at the latest. -/
theorem network_add_le {n : ℕ} (hn : n < 2^32) {m : ℕ} (hm : m ≤ 32) :
    network n m + 2^(32 - m) ≤ 2^32 := by
  have hpow : 2^m * 2^(32 - m) = 2^32 := by rw [← pow_add, Nat.add_sub_cancel' hm]
  have hlt : n / 2^(32 - m) < 2^m := Nat.div_lt_of_lt_mul (by rwa [mul_comm, hpow])
  calc network n m + 2^(32 - m) = (n / 2^(32 - m) + 1) * 2^(32 - m) := by rw [network, add_one_mul]
    _ ≤ 2^m * 2^(32 - m) := Nat.mul_le_mul_right _ hlt
    _ = 2^32 := hpow

/-- The addresses of an entry, set. -/
def Bitset.cover (bs : Bitset) (e : Entry) : Bitset := fun p => bs p || decide (e.Covers p.val)

/-- The loop that sets the addresses of an entry. -/
theorem fill_entry (bs : Bitset) (e : Entry) {mask : Bytes} (hmask : atol mask = e.mask)
    (hle : e.mask ≤ 32) :
    fill bs (getFirstIp e.addr.text mask).1
      ((getFirstIp e.addr.text mask).1 + (getFirstIp e.addr.text mask).2) =
      if e.Overruns then none else some (bs.cover e) := by
  obtain ⟨x, m⟩ := e
  replace hmask : atol mask = m := hmask
  replace hle : m ≤ 32 := hle
  have hx := x.toNat_lt
  have hend := network_add_le hx hle
  have hmax : uintMax = 2^32 - 1 := rfl
  have hcover : bs.cover ⟨x, m⟩ = bs.setRange (network x.toNat m + 1)
      (network x.toNat m + 2^(32 - m)) := rfl
  rcases Nat.eq_zero_or_pos m with rfl | hm
  · -- without a mask the loop runs into 255.255.255.255 from wherever it starts
    have hover : Entry.Overruns ⟨x, 0⟩ := by
      have hzero : network x.toNat 0 = 0 := by
        rw [network, Nat.div_eq_of_lt (by omega), zero_mul]
      simp only [Entry.Overruns, Entry.Covers, hzero]
      omega
    rw [getFirstIp_zero x hmask, if_pos hover, ← BitVec.ofNat_add]
    exact fill_eq_none bs (by omega) (by omega) (by omega)
  · have hstop : network x.toNat m + 1 + (2^(32 - m) - 1) = network x.toNat m + 2^(32 - m) := by
      have hpow : 0 < 2^(32 - m) := by positivity
      omega
    rw [getFirstIp_eq x hmask hm hle, ← BitVec.ofNat_add, hstop]
    rcases Nat.eq_or_lt_of_le (Nat.one_le_two_pow (n := 32 - m)) with hone | hone
    · -- a block of one address
      have hover : ¬ Entry.Overruns ⟨x, m⟩ := by
        simp only [Entry.Overruns, Entry.Covers, ← hone]
        omega
      rw [if_neg hover, hcover, ← hone, fill_self, Bitset.setRange_self]
    · split_ifs with hover
      · have hlast : uintMax < network x.toNat m + 2^(32 - m) := hover.2
        exact fill_eq_none bs (by omega) hlast (by omega)
      · have hlast : network x.toNat m + 2^(32 - m) ≤ uintMax := by
          simp only [Entry.Overruns, Entry.Covers] at hover
          omega
        rw [hcover]
        exact fill_eq_some bs (by omega) hlast

/-- A line of a block, with its last byte. -/
theorem loadLine_eq (s : Load) (e : Entry) {mask buf : Bytes} (hmask : atol mask = e.mask)
    (hle : e.mask ≤ 32) (hnul : (0 : UInt8) ∉ buf) (hlen : 7 < buf.length)
    (hbuf : buf.dropLast = e.addr.text ++ 47 :: mask) :
    loadLine s buf = if e.Overruns then none else some { s with bs := s.bs.cover e } := by
  have hslash : strchr (e.addr.text ++ 47 :: mask) 47 = some e.addr.text.length :=
    strchr_append mask (e.addr.notMem_text (by decide) (by decide))
      (e.addr.notMem_text (by decide) (by decide)) (by decide)
  have hip : (e.addr.text ++ 47 :: mask).take e.addr.text.length = e.addr.text := List.take_left
  have hdrop : (e.addr.text ++ 47 :: mask).drop (e.addr.text.length + 1) = mask :=
    drop_length_add_one e.addr.text 47 mask
  have hfill := fill_entry s.bs e hmask hle
  simp only [loadLine, cstr_eq_self hnul, if_neg (not_le.mpr hlen), hbuf, hslash, hip, hdrop, hfill]
  split_ifs <;> rfl

/-- The line of a block has neither a NUL nor a newline. -/
theorem Block.notMem_text {c : UInt8} (hc : isdigit c = false) (hdot : c ≠ 46) (hslash : c ≠ 47)
    (b : Block) : c ∉ b.text := by
  simp [Block.text, b.addr.notMem_text hc hdot, hslash, notMem_decimal hc]

/-- The line of a block has from nine to 18 bytes. -/
theorem Block.length_text (b : Block) : 9 ≤ b.text.length ∧ b.text.length ≤ 18 := by
  have hle := b.mask_le
  have haddr := b.addr.length_text
  have hpos : 0 < (decimal b.mask).length := List.length_pos_iff.mpr (decimal_ne_nil _)
  have hlen : (decimal b.mask).length ≤ 2 := length_decimal_le (by norm_num) (by omega)
  simp only [Block.text, List.length_append, List.length_cons]
  omega

/-- The line of a block, with its newline or without one. -/
theorem loadLine_block (s : Load) (b : Block) (cut : Bool) :
    loadLine s (b.text ++ if cut then [] else [10]) =
      if (b.entry cut).Overruns then none else some { s with bs := s.bs.cover (b.entry cut) } := by
  have hle := b.mask_le
  have hlen := b.length_text
  have hnul := b.notMem_text (c := 0) (by decide) (by decide) (by decide)
  cases cut with
  | false =>
    have hbuf : (b.text ++ [10]).dropLast = b.text := List.dropLast_concat
    exact loadLine_eq s (b.entry false) (atol_decimal (lt_of_le_of_lt hle (by norm_num))) hle
      (by simp [hnul]) (by simp only [Bool.false_eq_true, if_false, List.length_append]; omega) hbuf
  | true =>
    -- What is cut off is the last digit of the mask.
    have hbuf : (b.text ++ []).dropLast = b.addr.text ++ 47 :: (decimal b.mask).dropLast := by
      rw [List.append_nil, Block.text, List.dropLast_append_of_ne_nil (by simp),
        List.dropLast_cons_of_ne_nil (decimal_ne_nil _)]
    have hmask : (b.entry true).mask = b.mask / 10 := rfl
    exact loadLine_eq s (b.entry true) (atol_decimal_dropLast (lt_of_le_of_lt hle (by norm_num)))
      (by omega) (by simp [hnul]) (by simp only [if_true, List.append_nil]; omega) hbuf

/-! ## The whole file -/

/-- The loop at the end of a file. -/
theorem load_eof (s : Load) (rest : Bytes) : load s ⟨rest, true⟩ = some s := by
  rw [load, if_pos rfl]

/-- The loop at the end of a file that it has not met. -/
theorem load_nil (s : Load) : load s ⟨[], false⟩ = some s := by
  have hgets : fgets 63 ⟨[], false⟩ = (none, ⟨[], true⟩) := rfl
  have hline : loadLine s [] = some s := rfl
  rw [load, if_neg (by decide), hgets, Option.getD_none, hline]
  exact load_eof s []

/-- The addresses of all entries, set. -/
def Bitset.coverAll (bs : Bitset) (es : List Entry) : Bitset := es.foldl Bitset.cover bs

/-- A bit that is set by the entries. -/
theorem Bitset.coverAll_eq_true (bs : Bitset) (es : List Entry) (p : Fin uintMax) :
    bs.coverAll es p = true ↔ bs p = true ∨ ∃ e ∈ es, e.Covers p.val := by
  induction es generalizing bs with
  | nil => simp [Bitset.coverAll]
  | cons e es ih =>
    have ih := ih (bs.cover e)
    rw [Bitset.coverAll] at ih ⊢
    simp [ih, Bitset.cover, or_assoc]

/-- The read of the next line of a file of blocks. -/
theorem fgets_fileText (b : Block) (bs : List Block) (newline : Bool) :
    fgets 63 ⟨fileText (b :: bs) newline, false⟩ =
      (some (b.text ++ if bs.isEmpty && !newline then [] else [10]),
        ⟨fileText bs newline, bs.isEmpty && !newline⟩) := by
  have hlen := b.length_text
  have hnl := b.notMem_text (c := 10) (by decide) (by decide) (by decide)
  rw [fileText]
  split_ifs with hcut
  · obtain ⟨hbs, hnewline⟩ := (Bool.and_eq_true _ _).mp hcut
    obtain rfl := List.isEmpty_iff.mp hbs
    have hne : b.text ≠ [] := List.ne_nil_of_length_pos (by omega)
    rw [List.append_nil, fgets_last hnl (by omega), if_neg hne, fileText, hcut]
  · rw [fgets_line _ hnl (by omega), Bool.eq_false_of_not_eq_true hcut]

/-- It does not matter whether the read of the last line has met the end of the file. -/
theorem load_isEmpty (s : Load) (bs : List Block) (newline : Bool) :
    load s ⟨fileText bs newline, bs.isEmpty && !newline⟩ =
      load s ⟨fileText bs newline, false⟩ := by
  by_cases hcut : (bs.isEmpty && !newline) = true
  · obtain ⟨hbs, -⟩ := (Bool.and_eq_true _ _).mp hcut
    obtain rfl := List.isEmpty_iff.mp hbs
    rw [hcut, fileText, load_eof, load_nil]
  · rw [Bool.eq_false_of_not_eq_true hcut]

/-- The loop over a file of blocks. -/
theorem load_fileText (s : Load) (blocks : List Block) (newline : Bool) :
    load s ⟨fileText blocks newline, false⟩ =
      if ∃ e ∈ asRead blocks newline, e.Overruns then none
      else some { s with bs := s.bs.coverAll (asRead blocks newline) } := by
  induction blocks generalizing s with
  | nil => simp [fileText, asRead, load_nil, Bitset.coverAll]
  | cons b bs ih =>
    rw [load, if_neg Bool.false_ne_true, fgets_fileText, Option.getD_some, loadLine_block]
    by_cases hover : (b.entry (bs.isEmpty && !newline)).Overruns
    · have hex : ∃ e ∈ asRead (b :: bs) newline, e.Overruns := ⟨_, List.mem_cons_self, hover⟩
      rw [if_pos hover, if_pos hex]
    · have hiff : (∃ e ∈ asRead (b :: bs) newline, e.Overruns) ↔
          ∃ e ∈ asRead bs newline, e.Overruns := by
        simp [asRead, hover]
      rw [if_neg hover]
      simp only [load_isEmpty, ih, hiff]
      rfl

/-! ## Entries and blocks -/

/-- The addresses of a block. -/
theorem Block.has_iff (b : Block) (x : Addr) :
    b.Has x ↔ network b.addr.toNat b.mask ≤ x.toNat ∧
      x.toNat < network b.addr.toNat b.mask + 2^(32 - b.mask) := by
  have hpow : 0 < 2^(32 - b.mask) := by positivity
  rw [Block.Has, network, ← Nat.le_div_iff_mul_le hpow, ← add_one_mul, ← Nat.div_lt_iff_lt_mul hpow]
  omega

/-- A line that is read as it is written covers all of its block but the first address. -/
theorem Block.covers_entry_iff (b : Block) (x : Addr) :
    (b.entry false).Covers x.toNat ↔ b.Has x ∧ x.toNat ≠ network b.addr.toNat b.mask := by
  have hcovers : (b.entry false).Covers x.toNat ↔ network b.addr.toNat b.mask < x.toNat ∧
      x.toNat < network b.addr.toNat b.mask + 2^(32 - b.mask) := Iff.rfl
  rw [hcovers, b.has_iff]
  omega

/-- A shorter mask gives a block around the block. -/
theorem network_mono (n : ℕ) {m m' : ℕ} (h : m' ≤ m) (hm : m ≤ 32) :
    network n m' ≤ network n m ∧ network n m + 2^(32 - m) ≤ network n m' + 2^(32 - m') := by
  have hpow : 2^(32 - m') = 2^(32 - m) * 2^(m - m') := by
    rw [← pow_add]
    congr 1
    omega
  have hdiv : n / 2^(32 - m') = n / 2^(32 - m) / 2^(m - m') := by rw [hpow, Nat.div_div_eq_div_mul]
  have hle := Nat.div_mul_le_self (n / 2^(32 - m)) (2^(m - m'))
  have hlt := Nat.lt_div_mul_add (a := n / 2^(32 - m)) (b := 2^(m - m')) (by positivity)
  constructor
  · calc network n m' = n / 2^(32 - m) / 2^(m - m') * 2^(m - m') * 2^(32 - m) := by
          rw [network, hdiv, hpow]
          ring
      _ ≤ n / 2^(32 - m) * 2^(32 - m) := Nat.mul_le_mul_right _ hle
  · calc network n m + 2^(32 - m) = (n / 2^(32 - m) + 1) * 2^(32 - m) := by
          rw [network, add_one_mul]
      _ ≤ (n / 2^(32 - m) / 2^(m - m') * 2^(m - m') + 2^(m - m')) * 2^(32 - m) :=
        Nat.mul_le_mul_right _ hlt
      _ = network n m' + 2^(32 - m') := by
          rw [network, hdiv, hpow]
          ring

/-- A line covers all of its block but the first address, however it is read. -/
theorem Block.covers_of_has {b : Block} {x : Addr} (h : b.Has x)
    (hne : x.toNat ≠ network b.addr.toNat b.mask) (cut : Bool) : (b.entry cut).Covers x.toNat := by
  have hfull := (b.covers_entry_iff x).mpr ⟨h, hne⟩
  cases cut with
  | false => exact hfull
  | true =>
    obtain ⟨hfirst, hlast⟩ := network_mono b.addr.toNat (Nat.div_le_self b.mask 10) b.mask_le
    exact ⟨lt_of_le_of_lt hfirst hfull.1, lt_of_lt_of_le hfull.2 hlast⟩

/-- Every line is read, in one way or the other. -/
theorem exists_entry_mem {blocks : List Block} {b : Block} (hb : b ∈ blocks) (newline : Bool) :
    ∃ cut, b.entry cut ∈ asRead blocks newline := by
  induction blocks with
  | nil => cases hb
  | cons c bs ih =>
    rcases List.mem_cons.mp hb with rfl | hb
    · exact ⟨_, List.mem_cons_self⟩
    · obtain ⟨cut, hmem⟩ := ih hb
      exact ⟨cut, List.mem_cons_of_mem _ hmem⟩

/-- Every line is read as it is written, unless it is the last one and has no newline. -/
theorem mem_asRead {blocks : List Block} {newline : Bool} {e : Entry}
    (he : e ∈ asRead blocks newline) :
    (∃ b ∈ blocks, e = b.entry false) ∨
      ∃ b, newline = false ∧ blocks.getLast? = some b ∧ e = b.entry true := by
  induction blocks with
  | nil => cases he
  | cons c bs ih =>
    rcases List.mem_cons.mp he with rfl | he
    · by_cases hcut : (bs.isEmpty && !newline) = true
      · obtain ⟨hbs, hnewline⟩ := (Bool.and_eq_true _ _).mp hcut
        obtain rfl := List.isEmpty_iff.mp hbs
        exact Or.inr ⟨c, by simpa using hnewline, rfl, by rw [hcut]⟩
      · exact Or.inl ⟨c, List.mem_cons_self, by rw [Bool.eq_false_of_not_eq_true hcut]⟩
    · rcases ih he with ⟨b, hb, rfl⟩ | ⟨b, hnewline, hlast, rfl⟩
      · exact Or.inl ⟨b, List.mem_cons_of_mem _ hb, rfl⟩
      · have hne : bs ≠ [] := List.ne_nil_of_mem (List.mem_of_getLast? hlast)
        exact Or.inr ⟨b, hnewline, by rw [List.getLast?_cons_of_ne_nil hne, hlast], rfl⟩

/-- A last line without a newline is read without its last digit. -/
theorem getLast_mem_asRead {blocks : List Block} {b : Block} (hb : blocks.getLast? = some b) :
    b.entry true ∈ asRead blocks false := by
  induction blocks with
  | nil => cases hb
  | cons c bs ih =>
    rcases List.eq_nil_or_concat bs with rfl | ⟨_, _, hbs⟩
    · obtain rfl : c = b := by simpa using hb
      exact List.mem_cons_self
    · have hne : bs ≠ [] := by simp [hbs]
      rw [List.getLast?_cons_of_ne_nil hne] at hb
      exact List.mem_cons_of_mem _ (ih hb)

/-- The bit of an address after the loop. -/
theorem test_coverAll (es : List Entry) (hes : ∀ e ∈ es, ¬ e.Overruns) (x : Addr) :
    (Bitset.new.coverAll es).test (ip2long x.text) = some true ↔
      ∃ e ∈ es, e.Covers x.toNat := by
  have hx := x.toNat_lt
  rw [ip2long_text]
  by_cases hmax : x.toNat < uintMax
  · rw [Bitset.test_ofNat _ hmax, Option.some_inj, Bitset.coverAll_eq_true]
    simp [Bitset.new]
  · -- there is no bit for 255.255.255.255, and no entry covers it
    have heq : x.toNat = uintMax := by
      rw [uintMax] at hmax ⊢
      omega
    have hnone : (Bitset.new.coverAll es).test (BitVec.ofNat 64 x.toNat) = none := by
      rw [Bitset.test, dif_neg]
      rw [toNat_ofNat_of_lt (by omega)]
      exact hmax
    rw [hnone, heq]
    constructor
    · intro h
      cases h
    · rintro ⟨e, he, hcovers⟩
      exact absurd hcovers (hes e he)

/-- The loop ends if no line as it is read covers 255.255.255.255. -/
theorem LoadOk.noOverrun {blocks : List Block} {newline : Bool} {x : Addr}
    (h : LoadOk blocks newline x) : ∀ e ∈ asRead blocks newline, ¬ e.Overruns := by
  intro e he hover
  obtain ⟨s, hs, -⟩ := h
  rw [loadFile, fopen, load_fileText, if_pos ⟨e, he, hover⟩] at hs
  cases hs

/-- If it ends, the bit says whether the address is covered. -/
theorem loadOk_iff_covers {blocks : List Block} {newline : Bool}
    (hno : ∀ e ∈ asRead blocks newline, ¬ e.Overruns) (x : Addr) :
    LoadOk blocks newline x ↔
      ((∃ e ∈ asRead blocks newline, e.Covers x.toNat) ↔ ∃ b ∈ blocks, b.Has x) := by
  have hover : ¬ ∃ e ∈ asRead blocks newline, e.Overruns := fun ⟨e, he, h⟩ => hno e he h
  have hload := load_fileText ⟨Bitset.new, []⟩ blocks newline
  rw [if_neg hover] at hload
  rw [← test_coverAll _ hno]
  constructor
  · rintro ⟨s, hs, hiff⟩
    rw [loadFile, fopen, hload] at hs
    obtain rfl := Option.some.inj hs
    exact hiff
  · intro hiff
    exact ⟨_, hload, hiff⟩

/-- The bit of an address says whether the address is in one of the blocks, if and only if neither
the first address of a block, nor 255.255.255.255, nor the last digit of a last line makes a
difference. -/
theorem loadOk_iff (blocks : List Block) (newline : Bool) (x : Addr) :
    LoadOk blocks newline x ↔ NoSlip blocks newline x := by
  constructor
  · intro h
    have hiff := (loadOk_iff_covers h.noOverrun x).mp h
    refine ⟨h.noOverrun, ?_, ?_⟩
    · intro b hb hx
      have hpow : 0 < 2^(32 - b.mask) := by positivity
      exact hiff.mpr ⟨b, hb, (b.has_iff x).mpr (by omega)⟩
    · rintro b rfl hb hcovers
      exact hiff.mp ⟨b.entry true, getLast_mem_asRead hb, hcovers⟩
  · intro h
    rw [loadOk_iff_covers h.noOverrun]
    constructor
    · rintro ⟨e, he, hcovers⟩
      rcases mem_asRead he with ⟨b, hb, rfl⟩ | ⟨b, hnewline, hb, rfl⟩
      · exact ⟨b, hb, ((b.covers_entry_iff x).mp hcovers).1⟩
      · exact h.lastDigit b hnewline hb hcovers
    · rintro ⟨b, hb, hhas⟩
      by_cases hne : x.toNat = network b.addr.toNat b.mask
      · exact h.network b hb hne
      · obtain ⟨cut, hmem⟩ := exists_entry_mem hb newline
        exact ⟨b.entry cut, hmem, Block.covers_of_has hhas hne cut⟩

/-- The first address of `10.0.0.0/24`. -/
theorem not_loadOk_network :
    Block.Has ⟨⟨10, 0, 0, 0⟩, 24, by decide, by decide⟩ ⟨10, 0, 0, 0⟩ ∧
      ¬ LoadOk [⟨⟨10, 0, 0, 0⟩, 24, by decide, by decide⟩] true ⟨10, 0, 0, 0⟩ := by
  have hhas : Block.Has ⟨⟨10, 0, 0, 0⟩, 24, by decide, by decide⟩ ⟨10, 0, 0, 0⟩ := rfl
  refine ⟨hhas, fun h => ?_⟩
  -- No line covers the address, and it is in the block.
  obtain ⟨e, he, hcovers⟩ := ((loadOk_iff_covers h.noOverrun _).mp h).mpr
    ⟨_, List.mem_cons_self, hhas⟩
  obtain rfl := List.mem_singleton.mp he
  exact absurd hcovers (by decide)

end MgCommonUtils.CountLogByIpRange
