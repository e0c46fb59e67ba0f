import MgCommonUtils.Lib.Keyed
import MgCommonUtils.URedis.Decode

/-!
# The replies of memcached, decoded

`response_decode` of `uMemcache.php`. A reply with hits is a block for each of them, with a first
line and the value, and `"END\r\n"`. The decoder looks for a line's end and for `"END\r\n"` at its
cursor, and takes the bytes of a value by their number. The cursor is at the front of a block
whenever it looks (`decodeLoop_hits`), so the decoder reads every such reply, whatever the values
hold (`responseDecode_hits`).
-/

namespace MgCommonUtils.UMemcache

open MgCommonUtils.Lib MgCommonUtils.URedis

/-! ## The model -/

/-- Why there is no array. -/
inductive Failure
  /-- `false` is returned, with `$err`. -/
  | err (message : Bytes)
  /-- The loop runs forever. -/
  | forever
  deriving DecidableEq, Repr

/-- The failure with the given message. -/
def Failure.ofText (message : String) : Failure := .err (text message)

/-- A PHP array with strings as keys, in its order. -/
abbrev PhpMap := List (Bytes × PhpValue)

/-- An element as a string: `NULL` and `false` are empty. -/
def stringOf : PhpValue → Bytes
  | .string s => s
  | .null | .boolFalse => []

/-- `$val` for the field `$bytes` of the first line, with the cursor behind that line. -/
def valueAt (reps : Bytes) (start : ℤ) : Option Bytes → PhpValue
  | none => .ofSubstr (substr reps start 0)
  | some bytes =>
    match longArg bytes with
    | none => .null
    | some n => .ofSubstr (substr reps start n)

section

-- `gzuncompress`, with none for `false`
variable (gzuncompress : Bytes → Option Bytes)

/-- The loop over the blocks, with the cursor at `start` and `res` stored so far. -/
def decodeLoop (reps : Bytes) : ℕ → ℤ → PhpMap → Except Failure PhpMap
  | 0, _, _ => .error .forever
  | turns + 1, start, res =>
    if start < reps.length then
      if substr reps start 5 = some (text "END\r\n") then .ok res
      else
        match strpos reps crlf start with
        | none => .error (.ofText "invalid response protocol 2.")
        | some fin =>
          let line := sscanfWords 4 ((substr reps start (fin - start)).getD [])
          let key := (line.getD 1 none).getD []
          let flags := (line.getD 2 none).getD []
          let bytes := line.getD 3 none
          let start : ℤ := fin + 2
          let val := valueAt reps start bytes
          -- `$flags & 16`.
          let val := if (intval flags >>> (4 : ℕ)) % 2 = 1
            then .ofSubstr (gzuncompress (stringOf val)) else val
          let res := Keyed.put Prod.fst res (key, val)
          let start := start + intval (bytes.getD [])
          if substr reps start 2 ≠ some crlf then
            .error (.ofText "invalid response protocol 3.")
          else decodeLoop reps turns (start + 2) res
    else .ok res

/-- `response_decode`: the array, or `$err`. What the loop does depends on the cursor only, and it
ends where the cursor leaves the string, so it has no more turns than this or runs forever. -/
def responseDecode (reps : Bytes) : Except Failure PhpMap :=
  if substr reps 0 5 ≠ some (text "VALUE") ∨
      substr reps (-5) reps.length ≠ some (text "END\r\n") then
    .error (.ofText "invalid response protocol.")
  else decodeLoop gzuncompress reps (reps.length + 1) 0 []

end

/-! ## Hits -/

/-- A key that was found. -/
structure Hit where
  /-- The key. -/
  key : Bytes
  /-- The flags that were stored with it. -/
  flags : ℕ
  /-- The value. -/
  value : Bytes
  /-- The key is not empty. -/
  key_ne : key ≠ []
  /-- It is free of whitespace and control bytes. -/
  key_graphic : ∀ b ∈ key, 32 < b ∧ b ≠ 127
  /-- The flags fit an integer of PHP. -/
  flags_lt : flags < 2^63
  /-- The value is a string of PHP. -/
  value_lt : value.length < 2^63

namespace Hit

/-- The first line of the block, without its end. -/
def line (h : Hit) : Bytes :=
  text "VALUE" ++ ([32] ++ (h.key ++
    ([32] ++ (decimal h.flags ++ ([32] ++ decimal h.value.length)))))

/-- The block. -/
def block (h : Hit) : Bytes := h.line ++ crlf ++ (h.value ++ crlf)

/-- The element that is stored: a value with the flag 16 is uncompressed. -/
def element (gzuncompress : Bytes → Option Bytes) (h : Hit) : Bytes × PhpValue :=
  (h.key, if h.flags.testBit 4 then .ofSubstr (gzuncompress h.value) else .string h.value)

end Hit

/-- The reply with the hits. -/
def hitsText (hits : List Hit) : Bytes := hits.flatMap Hit.block ++ text "END\r\n"

/-- The array of the hits. -/
def hitsMap (gzuncompress : Bytes → Option Bytes) (hits : List Hit) : PhpMap :=
  (hits.map (Hit.element gzuncompress)).foldl (Keyed.put Prod.fst) []

/-! ## The first line of a block -/

/-- A blank ends a word. -/
theorem isspace_head_blank (s : Bytes) : ∀ b ∈ ([32] ++ s).head?, isspace b := by
  intro b hb
  rw [← Option.some.inj hb]
  decide

/-- A byte behind the blank is in a word. -/
theorem not_isspace_of_lt {b : UInt8} (h : 32 < b) : ¬isspace b := by
  intro hb
  simp only [isspace, Bool.or_eq_true, beq_iff_eq, Bool.and_eq_true, decide_eq_true_eq] at hb
  rcases hb with rfl | ⟨-, hb⟩
  · exact absurd h (by decide)
  · exact absurd (UInt8.lt_of_lt_of_le h hb) (by decide)

/-- A digit is behind the blank. -/
theorem lt_of_mem_decimal {n : ℕ} {b : UInt8} (h : b ∈ decimal n) : 32 < b := by
  have hdigit := (isdigit_iff b).mp (isdigit_of_mem_decimal h)
  exact UInt8.lt_iff_toNat_lt.mpr ((show (32 : UInt8).toNat < 48 by decide).trans_le hdigit.1)

/-- A letter is behind the blank. -/
theorem lt_of_mem_value {b : UInt8} (h : b ∈ text "VALUE") : 32 < b := by
  have hall : (text "VALUE").all (32 < ·) = true := by decide
  exact of_decide_eq_true (List.all_eq_true.mp hall b h)

namespace Hit

variable (h : Hit)

/-- The line starts with `"VALUE"`. -/
theorem exists_line_eq : ∃ fields, h.line = text "VALUE" ++ fields := ⟨_, rfl⟩

/-- The bytes of the line are no control bytes. -/
theorem graphic_line {b : UInt8} (hb : b ∈ h.line) : 32 ≤ b := by
  have hblank : b ∈ ([32] : Bytes) → 32 ≤ b := fun hb => List.mem_singleton.mp hb ▸ UInt8.le_refl 32
  simp only [line, List.mem_append] at hb
  rcases hb with hb | hb | hb | hb | hb | hb | hb
  · exact UInt8.le_of_lt (lt_of_mem_value hb)
  · exact hblank hb
  · exact UInt8.le_of_lt (h.key_graphic b hb).1
  · exact hblank hb
  · exact UInt8.le_of_lt (lt_of_mem_decimal hb)
  · exact hblank hb
  · exact UInt8.le_of_lt (lt_of_mem_decimal hb)

/-- The line is one line. -/
theorem cr_not_mem_line : (13 : UInt8) ∉ h.line := fun hb =>
  absurd (h.graphic_line hb) (by decide)

/-- The words of the line. -/
theorem sscanfWords_line : sscanfWords 4 h.line =
    [some (text "VALUE"), some h.key, some (decimal h.flags), some (decimal h.value.length)] := by
  have hnul : (0 : UInt8) ∉ h.line := fun hb => absurd (h.graphic_line hb) (by decide)
  have hspace : isspace 32 := by decide
  have hvalue : ∀ b ∈ text "VALUE", ¬isspace b := fun b hb =>
    not_isspace_of_lt (lt_of_mem_value hb)
  have hkey : ∀ b ∈ h.key, ¬isspace b := fun b hb => not_isspace_of_lt (h.key_graphic b hb).1
  have hdecimal : ∀ n, ∀ b ∈ decimal n, ¬isspace b := fun n b hb =>
    not_isspace_of_lt (lt_of_mem_decimal hb)
  have hlast : scanWords 1 (decimal h.value.length) = [some (decimal h.value.length)] := by
    have happend := scanWords_append 0 (s := []) (decimal_ne_nil h.value.length) (hdecimal _)
      (by simp)
    rwa [List.append_nil] at happend
  rw [sscanfWords, cstr_eq_self hnul, line,
    scanWords_append 3 (by decide) hvalue (isspace_head_blank _), List.singleton_append,
    scanWords_blank 3 hspace,
    scanWords_append 2 h.key_ne hkey (isspace_head_blank _), List.singleton_append,
    scanWords_blank 2 hspace,
    scanWords_append 1 (decimal_ne_nil _) (hdecimal _) (isspace_head_blank _),
    List.singleton_append, scanWords_blank 1 hspace, hlast]

/-- A block does not start as the end of the reply does. -/
theorem substr_line_ne (pre rest : Bytes) :
    substr (pre ++ (h.line ++ rest)) pre.length 5 ≠ some (text "END\r\n") := by
  obtain ⟨fields, hfields⟩ := h.exists_line_eq
  have hcut := substr_append pre (text "VALUE") (t := fields ++ rest) (by simp [text])
  rw [← List.append_assoc (text "VALUE"), ← hfields] at hcut
  intro hend
  exact absurd (Option.some.inj (hcut.symm.trans hend)) (by decide)

/-- The value that is taken from behind the line. -/
theorem valueAt_block (pre rest : Bytes) :
    valueAt (pre ++ (h.value ++ (crlf ++ rest))) pre.length (some (decimal h.value.length)) =
      .string h.value := by
  have hcut := substr_append pre h.value (t := crlf ++ rest) (by simp [crlf])
  unfold valueAt
  dsimp only
  rw [longArg_decimal h.value_lt]
  dsimp only
  rw [hcut]
  rfl

/-- The test of the flags. -/
theorem flags_test : (intval (decimal h.flags) >>> (4 : ℕ)) % 2 = 1 ↔ h.flags.testBit 4 := by
  have hshift : ((h.flags : ℤ) >>> (4 : ℕ)) % (2 : ℤ) = (((h.flags >>> 4) % 2 : ℕ) : ℤ) := rfl
  rw [intval_decimal h.flags_lt, hshift, Nat.testBit, Nat.one_and_eq_mod_two, bne_iff_ne]
  omega

/-- The element that the words of the line give. -/
theorem element_eq (gzuncompress : Bytes → Option Bytes) :
    (h.key, if (intval (decimal h.flags) >>> (4 : ℕ)) % 2 = 1
      then PhpValue.ofSubstr (gzuncompress h.value) else .string h.value) =
      h.element gzuncompress := by
  unfold element
  simp only [h.flags_test]

end Hit

/-! ## The loop -/

variable (gzuncompress : Bytes → Option Bytes)

/-- At `"END\r\n"` the loop ends. -/
theorem decodeLoop_end (pre : Bytes) (turns : ℕ) (res : PhpMap) :
    decodeLoop gzuncompress (pre ++ text "END\r\n") (turns + 1) pre.length res = .ok res := by
  have hlt : (pre.length : ℤ) < (pre ++ text "END\r\n").length := by
    rw [List.length_append]
    have : (text "END\r\n").length = 5 := rfl
    omega
  have hcut : substr (pre ++ text "END\r\n") pre.length 5 = some (text "END\r\n") := by
    have happend := substr_append pre (text "END\r\n") (t := []) (by decide)
    rwa [List.append_nil] at happend
  rw [decodeLoop, if_pos hlt, if_pos hcut]

/-- A turn of the loop: the words of the first line, the value behind it, and the line end behind
the value. -/
theorem decodeLoop_turn {reps key flags bytes value : Bytes} {word : Option Bytes} {start : ℤ}
    {fin : ℕ} (turns : ℕ) (res : PhpMap) (hlt : start < reps.length)
    (hfirst : substr reps start 5 ≠ some (text "END\r\n"))
    (hfind : strpos reps crlf start = some fin)
    (hwords : sscanfWords 4 ((substr reps start (fin - start)).getD []) =
      [word, some key, some flags, some bytes])
    (hvalue : valueAt reps (fin + 2) (some bytes) = .string value)
    (hend : substr reps (fin + 2 + intval bytes) 2 = some crlf) :
    decodeLoop gzuncompress reps (turns + 1) start res =
      decodeLoop gzuncompress reps turns (fin + 2 + intval bytes + 2)
        (Keyed.put Prod.fst res (key, if (intval flags >>> (4 : ℕ)) % 2 = 1
          then .ofSubstr (gzuncompress value) else .string value)) := by
  have hkey : [word, some key, some flags, some bytes].getD 1 none = some key := rfl
  have hflags : [word, some key, some flags, some bytes].getD 2 none = some flags := rfl
  have hbytes : [word, some key, some flags, some bytes].getD 3 none = some bytes := rfl
  rw [decodeLoop, if_pos hlt, if_neg hfirst, hfind]
  dsimp only
  rw [hwords, hkey, hflags, hbytes, Option.getD_some, Option.getD_some, Option.getD_some, hvalue,
    hend, if_neg (by simp), stringOf]

/-- A block is stored, and the cursor moves behind it. -/
theorem decodeLoop_block (pre rest : Bytes) (turns : ℕ) (res : PhpMap) (h : Hit) :
    decodeLoop gzuncompress (pre ++ (h.block ++ rest)) (turns + 1) pre.length res =
      decodeLoop gzuncompress (pre ++ h.block ++ rest) turns (pre ++ h.block).length
        (Keyed.put Prod.fst res (h.element gzuncompress)) := by
  obtain ⟨reps, hreps⟩ : ∃ reps, reps = pre ++ (h.block ++ rest) := ⟨_, rfl⟩
  have hline : reps = pre ++ (h.line ++ (crlf ++ (h.value ++ (crlf ++ rest)))) := by
    rw [hreps, Hit.block]
    simp only [List.append_assoc]
  have hval : reps = (pre ++ (h.line ++ crlf)) ++ (h.value ++ (crlf ++ rest)) := by
    rw [hline]
    simp only [List.append_assoc]
  have hend : reps = (pre ++ (h.line ++ crlf) ++ h.value) ++ (crlf ++ rest) := by
    rw [hval]
    simp only [List.append_assoc]
  have hlt : (pre.length : ℤ) < reps.length := by
    rw [hline, List.length_append, List.length_append, List.length_append, length_crlf]
    omega
  have hfind : strpos reps crlf pre.length = some (pre.length + h.line.length) := by
    rw [hline, ← List.append_assoc h.line]
    exact strpos_append pre h.cr_not_mem_line _
  have hwords : sscanfWords 4
      ((substr reps pre.length (((pre.length + h.line.length : ℕ) : ℤ) - pre.length)).getD []) =
      [some (text "VALUE"), some h.key, some (decimal h.flags), some (decimal h.value.length)] := by
    have hlen : ((pre.length + h.line.length : ℕ) : ℤ) - pre.length = h.line.length := by omega
    rw [hlen, hline, substr_append pre h.line (by simp [crlf]), Option.getD_some,
      h.sscanfWords_line]
  -- The cursor behind the line, behind the value, and behind the block.
  have hstart : ((pre.length + h.line.length : ℕ) : ℤ) + 2 =
      ((pre ++ (h.line ++ crlf)).length : ℤ) := by
    rw [List.length_append, List.length_append, length_crlf]
    omega
  have hnext : ((pre.length + h.line.length : ℕ) : ℤ) + 2 + intval (decimal h.value.length) =
      ((pre ++ (h.line ++ crlf) ++ h.value).length : ℤ) := by
    rw [hstart, intval_decimal h.value_lt, @List.length_append _ (pre ++ (h.line ++ crlf)),
      Nat.cast_add]
  have hcursor : ((pre ++ (h.line ++ crlf) ++ h.value).length : ℤ) + 2 =
      ((pre ++ h.block).length : ℤ) := by
    simp only [Hit.block, List.length_append, length_crlf]
    omega
  have hvalue : valueAt reps (((pre.length + h.line.length : ℕ) : ℤ) + 2)
      (some (decimal h.value.length)) = .string h.value := by
    rw [hstart, hval]
    exact h.valueAt_block _ _
  have hcutEnd : substr reps
      (((pre.length + h.line.length : ℕ) : ℤ) + 2 + intval (decimal h.value.length)) 2 =
      some crlf := by
    rw [hnext, hend]
    exact substr_append _ crlf (by simp [crlf])
  rw [List.append_assoc, ← hreps, decodeLoop_turn gzuncompress turns res hlt
    (hline ▸ h.substr_line_ne pre _) hfind hwords hvalue hcutEnd, hnext, hcursor,
    h.element_eq gzuncompress]

/-- The blocks of the hits are stored one after another, from any block's front on. -/
theorem decodeLoop_hits (pre : Bytes) {turns : ℕ} (res : PhpMap) {hits : List Hit}
    (hturns : hits.length < turns) :
    decodeLoop gzuncompress (pre ++ hitsText hits) turns pre.length res =
      .ok ((hits.map (Hit.element gzuncompress)).foldl (Keyed.put Prod.fst) res) := by
  -- The cursor is at the front of a block, whatever the values in front of it contain.
  induction hits generalizing pre turns res with
  | nil =>
    obtain ⟨turns, rfl⟩ := Nat.exists_eq_succ_of_ne_zero (Nat.ne_zero_of_lt hturns)
    exact decodeLoop_end gzuncompress pre turns res
  | cons h hits ih =>
    obtain ⟨turns, rfl⟩ := Nat.exists_eq_succ_of_ne_zero (Nat.ne_zero_of_lt hturns)
    have hsplit : hitsText (h :: hits) = h.block ++ hitsText hits := by
      rw [hitsText, List.flatMap_cons, List.append_assoc]
      rfl
    rw [hsplit, decodeLoop_block, ih (pre ++ h.block) _ (Nat.lt_of_succ_lt_succ hturns)]
    rfl

/-! ## The reply -/

/-- There are fewer hits than bytes. -/
theorem length_le_hitsText (hits : List Hit) : hits.length ≤ (hitsText hits).length := by
  unfold hitsText
  rw [List.length_append]
  refine Nat.le_add_right_of_le ?_
  induction hits with
  | nil => exact le_rfl
  | cons h hits ih =>
    have hpos : 0 < h.block.length := by
      rw [Hit.block, List.length_append, List.length_append, length_crlf]
      omega
    rw [List.flatMap_cons, List.length_append, List.length_cons]
    omega

/-- A reply with a hit starts with `"VALUE"`. -/
theorem exists_hitsText_eq {hits : List Hit} (hpos : hits ≠ []) :
    ∃ rest, hitsText hits = text "VALUE" ++ rest := by
  obtain ⟨h, hits, rfl⟩ := List.exists_cons_of_ne_nil hpos
  obtain ⟨fields, hfields⟩ := h.exists_line_eq
  refine ⟨fields ++ crlf ++ (h.value ++ crlf) ++ hits.flatMap Hit.block ++ text "END\r\n", ?_⟩
  rw [hitsText, List.flatMap_cons, Hit.block, hfields]
  simp only [List.append_assoc]

/-- `response_decode` reads every reply with a hit. -/
theorem responseDecode_hitsText {hits : List Hit} (hpos : hits ≠ []) :
    responseDecode gzuncompress (hitsText hits) = .ok (hitsMap gzuncompress hits) := by
  have hfirst : substr (hitsText hits) 0 5 = some (text "VALUE") := by
    obtain ⟨rest, hrest⟩ := exists_hitsText_eq hpos
    rw [hrest]
    exact substr_append [] (text "VALUE") (by simp [text])
  have hlast : substr (hitsText hits) (-5) (hitsText hits).length = some (text "END\r\n") :=
    (substr_neg_iff (m := text "END\r\n") (by decide)).mpr (List.suffix_append _ _)
  have htest : ¬(substr (hitsText hits) 0 5 ≠ some (text "VALUE") ∨
      substr (hitsText hits) (-5) (hitsText hits).length ≠ some (text "END\r\n")) := by
    rw [hfirst, hlast]
    simp
  rw [responseDecode, if_neg htest]
  exact decodeLoop_hits gzuncompress [] [] (Nat.lt_succ_of_le (length_le_hitsText hits))

/-- For hits with distinct keys and values that are not compressed, `response_decode` returns the
keys with their values. -/
theorem responseDecode_distinct {hits : List Hit} (hpos : hits ≠ [])
    (hkeys : (hits.map Hit.key).Nodup) (hflags : ∀ h ∈ hits, h.flags.testBit 4 = false) :
    responseDecode gzuncompress (hitsText hits) =
      .ok (hits.map fun h => (h.key, .string h.value)) := by
  have helements : hits.map (Hit.element gzuncompress) =
      hits.map fun h => (h.key, PhpValue.string h.value) := by
    refine List.map_congr_left fun h hh => ?_
    rw [Hit.element, hflags h hh]
    rfl
  have hdistinct : Keyed.Distinct Prod.fst
      ([] ++ hits.map fun h => (h.key, PhpValue.string h.value)) := by
    rw [List.nil_append, Keyed.Distinct, List.map_map]
    exact hkeys
  rw [responseDecode_hitsText gzuncompress hpos, hitsMap, helements, Keyed.foldl_put hdistinct]
  rfl

/-- The hit of a key of one byte. -/
def Hit.ofByte (b : UInt8) (flags : ℕ) (value : Bytes) (hgraphic : 32 < b ∧ b ≠ 127)
    (hflags : flags < 2^63) (hvalue : value.length < 2^63) : Hit where
  key := [b]
  flags := flags
  value := value
  key_ne := List.cons_ne_nil _ _
  key_graphic := List.forall_mem_singleton.mpr hgraphic
  flags_lt := hflags
  value_lt := hvalue

/-- The key `"a"` with the value `"END\r\n"`, and the key `"b"` with an empty one. -/
def markerHits : List Hit :=
  [.ofByte 97 0 (text "END\r\n") (by decide) (by decide) (by decide),
    .ofByte 98 32 [] (by decide) (by decide) (by decide)]

/-- They are decoded, whatever `gzuncompress` does. -/
theorem responseDecode_distinct_markers :
    responseDecode (fun _ => none)
      (text "VALUE a 0 5\r\nEND\r\n\r\nVALUE b 32 0\r\n\r\nEND\r\n") =
      .ok [(text "a", .string (text "END\r\n")), (text "b", .string [])] := by
  have hreply : hitsText markerHits =
      text "VALUE a 0 5\r\nEND\r\n\r\nVALUE b 32 0\r\n\r\nEND\r\n" := by decide +kernel
  rw [← hreply]
  exact @responseDecode_distinct _ markerHits (by decide) (by decide) (by decide)

end MgCommonUtils.UMemcache
