import MgCommonUtils.Fat.Image

/-!
# Listing a directory

Repeated calls of `fat_dir_read` on a directory of one cluster, until the call that returns `NULL`.

Four tests or decodings of the loop are not what they look like. A `char` is never 0xE5, so deleted
entries are not skipped. An entry whose first byte is 5 ends the listing. `attr & 15 == 15` is
`attr & 1`, so that all read-only entries are skipped, not only the long names among them. And the
number of the first cluster is computed from two `short`s, with 256 in place of 65536. `lists_iff`
is what the calls give, for every directory of an image for which `fat_fs_open` is right, and
`listingRight_iff` says when this is the list of the entries that are there. With another number of
tables another cluster is read (`not_listingRight_oneTable`).
-/

namespace MgCommonUtils.Fat

open MgCommonUtils.Lib

/-! ## The model -/

/-- A `FAT_DIR`. -/
structure FatDir where
  /-- `fs`. -/
  fs : FatFs
  /-- `first_cluster`. -/
  firstCluster : ℤ
  /-- `current_cluster`. -/
  currentCluster : ℤ
  /-- `current_pos`. -/
  currentPos : ℕ
deriving DecidableEq, Repr

/-- `fat_dir_open`. -/
def fatDirOpen (fs : FatFs) (firstCluster : ℤ) : FatDir := ⟨fs, firstCluster, firstCluster, 0⟩

/-- `fat_dir_rewind`. -/
def fatDirRewind (dir : FatDir) : FatDir :=
  { dir with currentPos := 0, currentCluster := dir.firstCluster }

/-- The loop of `fat_dir_read`, where `p` is the memory from the pointer on: the file that is
returned, or none for `NULL`, and `current_pos` after it. -/
def dirLoop (p : Bytes) (currentPos : ℕ) : Except Fault (Option FatFile × ℕ) :=
  match p with
  | [] => .error .outOfBounds
  | b :: t =>
    -- A `char` is signed.
    let c := signed 1 b.toNat
    if c ≠ 0 ∧ c ≠ 0xE5 ∧ c ≠ 0x05 then
      match t[10]? with
      | none => .error .outOfBounds
      | some attr =>
        -- `attr & 15 == 15` is `attr & (15 == 15)`.
        if attr &&& (if (15 : ℕ) = 15 then 1 else 0) ≠ 0 then
          dirLoop (t.drop 31) (currentPos + 32)
        else if t.length < 31 then .error .outOfBounds
        else
          let hi := signed 2 (field (b :: t) 0x14 2)
          let lo := signed 2 (field (b :: t) 0x1a 2)
          let file : FatFile := {
            fs := none
            info := {
              shortName := cstr ((b :: t).take 11)
              attr := attr
              size := signed 4 (field (b :: t) 28 4)
              isDir := attr &&& 16 ≠ 0 }
            firstCluster := 256 * hi + lo }
          .ok (some file, currentPos)
    else .ok (none, currentPos)
termination_by p.length
decreasing_by
  rw [List.length_drop, List.length_cons]
  omega

/-- `fat_dir_read`, where `cluster` is what the array `cluster` holds before. -/
def fatDirRead (cluster : Bytes) (dir : FatDir) : Except Fault (Option FatFile × FatDir) := do
  let (cluster, fs) ← fatClusterRead dir.fs dir.currentCluster (some cluster)
  let (file, currentPos) ← dirLoop ((cluster.getD []).drop dir.currentPos) (dir.currentPos + 32)
  return (file, { dir with fs := fs, currentPos := currentPos })

/-- Repeated calls of `fat_dir_read` return these files, and then `NULL`. -/
inductive Lists : FatDir → List FatFile → Prop
  /-- The call returns `NULL`. -/
  | null {dir dir' : FatDir} {cluster : Bytes} : (cluster.length : ℤ) = dir.fs.clusterSize →
      fatDirRead cluster dir = .ok (none, dir') → Lists dir []
  /-- The call returns a file. -/
  | file {dir dir' : FatDir} {cluster : Bytes} {f : FatFile} {l : List FatFile} :
      (cluster.length : ℤ) = dir.fs.clusterSize → fatDirRead cluster dir = .ok (some f, dir') →
      Lists dir' l → Lists dir (f :: l)

/-! ## Directories -/

/-- An entry of a directory. -/
structure DirEntry where
  /-- The bytes of the entry. -/
  bytes : Bytes
  /-- It has 32 bytes. -/
  length_bytes : bytes.length = 32
  /-- It is not the one that ends a directory. -/
  head_ne : bytes.head? ≠ some 0

/-- A directory of an image, in one cluster. -/
structure ImageDir (img : Image) where
  /-- The number of the cluster. -/
  cluster : ℕ
  /-- The image has the cluster. -/
  hasCluster : img.HasCluster cluster
  /-- The entries in front of the one that ends the directory. -/
  entries : List DirEntry
  /-- What follows the first byte of the one that ends it. -/
  rest : Bytes
  /-- They are the cluster. -/
  cluster_eq : img.cluster cluster = (entries.flatMap DirEntry.bytes) ++ 0 :: rest

namespace DirEntry

/-- The first byte. -/
def first (e : DirEntry) : UInt8 := e.bytes.headD 0

/-- The attributes. -/
def attr (e : DirEntry) : UInt8 := e.bytes.getD 11 0

/-- The upper half of the number of the first cluster. -/
def hi (e : DirEntry) : ℕ := field e.bytes 0x14 2

/-- The lower half of the number of the first cluster. -/
def lo (e : DirEntry) : ℕ := field e.bytes 0x1a 2

/-- An entry that is neither deleted nor part of a long name. -/
def Live (e : DirEntry) : Prop := e.first ≠ 0xE5 ∧ e.attr &&& 15 ≠ 15

instance (e : DirEntry) : Decidable e.Live := inferInstanceAs (Decidable (_ ∧ _))

/-- The file of an entry. -/
def file (e : DirEntry) : FatFile where
  fs := none
  info := {
    shortName := cstr (e.bytes.take 11)
    attr := e.attr
    size := signed 4 (field e.bytes 28 4)
    isDir := e.attr &&& 16 ≠ 0 }
  firstCluster := 65536 * e.hi + e.lo

/-- The file of an entry as it is returned. -/
def fileRead (e : DirEntry) : FatFile :=
  { e.file with firstCluster := 256 * signed 2 e.hi + signed 2 e.lo }

/-- The entry does not end the listing. -/
def goesOn (e : DirEntry) : Bool := e.first != 5

/-- The entry is not skipped. -/
def isRead (e : DirEntry) : Bool := e.attr &&& 1 == 0

end DirEntry

/-- What the calls return for these entries. -/
def listed (es : List DirEntry) : List FatFile :=
  ((es.takeWhile DirEntry.goesOn).filter DirEntry.isRead).map DirEntry.fileRead

variable {img : Image}

/-- The calls list the files of the entries that are there. -/
def ImageDir.ListingRight (d : ImageDir img) (fs : FatFs) : Prop :=
  Lists (fatDirOpen fs d.cluster) ((d.entries.filter fun e => e.Live).map DirEntry.file)

/-- No slip makes a difference for a directory. -/
structure ImageDir.NoSlip (d : ImageDir img) : Prop where
  /-- `fat_fs_open` is right for the image. -/
  opens : img.OpensRight
  /-- The offset of the cluster is computed in `int`. -/
  offset : (d.cluster - 2) * img.clusterSize < 2^31
  /-- Deleted entries in front of the first one with the first byte 5 are read-only. -/
  deleted : ∀ e ∈ d.entries.takeWhile DirEntry.goesOn, e.first = 0xE5 → e.isRead = false
  /-- No entry that is there comes after that. -/
  early : ∀ e ∈ d.entries.dropWhile DirEntry.goesOn, ¬ e.Live
  /-- No entry that is there is read-only. -/
  readOnly : ∀ e ∈ d.entries, e.Live → e.isRead = true
  /-- The number of the first cluster is small. -/
  firstCluster : ∀ e ∈ d.entries, e.Live → e.hi = 0 ∧ e.lo < 2^15

/-! ## One call -/

/-- A field of the front of some bytes. -/
theorem field_append {s : Bytes} (t : Bytes) {offset k : ℕ} (h : offset + k ≤ s.length) :
    field (s ++ t) offset k = field s offset k := by
  have hdrop : (s ++ t).drop offset = s.drop offset ++ t :=
    List.drop_append_of_le_length (by omega)
  have htake : (s.drop offset ++ t).take k = (s.drop offset).take k :=
    List.take_append_of_le_length (by rw [List.length_drop]; omega)
  rw [field, field, hdrop, htake]

/-- A signed byte is never 0xE5, and it is 5 or 0 if the byte is. -/
theorem signed_byte (b : UInt8) :
    signed 1 b.toNat ≠ 0xE5 ∧ (signed 1 b.toNat = 5 ↔ b = 5) ∧ (signed 1 b.toNat = 0 ↔ b = 0) := by
  have hlt := b.toNat_lt
  rw [signed_one hlt]
  simp only [← UInt8.toNat_inj, UInt8.reduceToNat]
  split_ifs <;> omega

/-- The loop on an entry. -/
theorem dirLoop_append (e : DirEntry) (t : Bytes) (currentPos : ℕ) :
    dirLoop (e.bytes ++ t) currentPos =
      if e.goesOn then
        if e.isRead then .ok (some e.fileRead, currentPos) else dirLoop t (currentPos + 32)
      else .ok (none, currentPos) := by
  obtain ⟨bytes, hlen, hhead⟩ := e
  obtain ⟨b, s, rfl⟩ := List.exists_cons_of_length_eq_add_one hlen
  have hs : s.length = 31 := Nat.succ.inj hlen
  obtain ⟨hE5, h5, h0⟩ := signed_byte b
  have hne : ¬ b = 0 := by simpa using hhead
  have hcons : b :: (s ++ t) = (b :: s) ++ t := rfl
  -- What the loop reads of the entry is in its 32 bytes.
  have hattr : (s ++ t)[10]? = some (DirEntry.attr ⟨b :: s, hlen, hhead⟩) := by
    have h10 : 10 < s.length := by omega
    rw [List.getElem?_append_left h10, DirEntry.attr, List.getD_cons_succ,
      List.getD_eq_getElem?_getD, List.getElem?_eq_getElem h10, Option.getD_some]
  have hdrop : (s ++ t).drop 31 = t := List.drop_left' hs
  have hcont : ¬ (s ++ t).length < 31 := by
    rw [List.length_append]
    omega
  have hname : (b :: (s ++ t)).take 11 = (b :: s).take 11 := by
    rw [hcons]
    exact List.take_append_of_le_length (by omega)
  have hfield (offset k : ℕ) (h : offset + k ≤ 32) :
      field (b :: (s ++ t)) offset k = field (b :: s) offset k := by
    rw [hcons]
    exact field_append t (by omega)
  -- The comparison with 0xE5 is always true, and the byte is not the one that ends a directory.
  have hgo : (signed 1 b.toNat ≠ 0 ∧ signed 1 b.toNat ≠ 0xE5 ∧ signed 1 b.toNat ≠ 0x05) ↔
      (DirEntry.goesOn ⟨b :: s, hlen, hhead⟩ = true) := by
    simp [DirEntry.goesOn, DirEntry.first, h0, hne, hE5, h5]
  have hread : DirEntry.attr ⟨b :: s, hlen, hhead⟩ &&& 1 = 0 ↔
      DirEntry.isRead ⟨b :: s, hlen, hhead⟩ = true :=
    beq_iff_eq.symm
  rw [← hcons, dirLoop.eq_def]
  simp only [hgo, hattr, if_true, ne_eq, ite_not, hread, hdrop, if_neg hcont, hname,
    hfield 28 4 (by norm_num), hfield 0x14 2 (by norm_num), hfield 0x1a 2 (by norm_num)]
  rfl

/-- The loop on the entry that ends a directory. -/
theorem dirLoop_end (t : Bytes) (currentPos : ℕ) :
    dirLoop (0 :: t) currentPos = .ok (none, currentPos) := by
  have hzero : signed 1 (0 : UInt8).toNat = 0 := (signed_byte 0).2.2.mpr rfl
  rw [dirLoop.eq_def]
  simp only [hzero, ne_eq, not_true_eq_false, false_and, if_false]

section Calls

variable {fs : FatFs} (hfs : fs.Describes img) {c : ℕ} (hc : img.HasCluster c) {cluster : Bytes}
  (hlen : (cluster.length : ℤ) = fs.clusterSize)

include hfs hc

/-- A call on a cluster whose offset does not fit an `int`. -/
theorem fatDirRead_eq_error (hoffset : 2^31 ≤ (c - 2) * img.clusterSize) (firstCluster : ℤ)
    (currentPos : ℕ) :
    fatDirRead cluster ⟨fs, firstCluster, c, currentPos⟩ = .error .overflow := by
  rw [fatDirRead, fatClusterRead_eq_error hfs hc hoffset]
  rfl

include hlen

/-- A call is the loop from the position on. -/
theorem fatDirRead_eq (hoffset : (c - 2) * img.clusterSize < 2^31) (firstCluster : ℤ) :
    ∃ fs', fs'.Describes img ∧ ∀ currentPos,
      fatDirRead cluster ⟨fs, firstCluster, c, currentPos⟩ =
        (dirLoop ((img.cluster c).drop currentPos) (currentPos + 32)).map fun r =>
          (r.1, ⟨fs', firstCluster, c, r.2⟩) := by
  have hsize : cluster.length = img.clusterSize := by
    rw [hfs.clusterSize] at hlen
    exact_mod_cast hlen
  obtain ⟨fs', hfs', hread⟩ := fatClusterRead_eq hfs hc hsize.ge hoffset
  -- The whole array is read.
  have hwhole : memcpy cluster 0 (img.cluster c) = img.cluster c := by
    rw [memcpy, List.take_zero, List.nil_append, Nat.zero_add,
      List.drop_of_length_le (by rw [hc.length_cluster, hsize]), List.append_nil]
  refine ⟨fs', hfs', fun currentPos => ?_⟩
  rw [fatDirRead, except_bind_of_ok hread, hwhole]
  dsimp only [Option.getD_some]
  cases dirLoop ((img.cluster c).drop currentPos) (currentPos + 32) <;> rfl

end Calls

/-! ## Repeated calls -/

/-- Some array can be read into. -/
theorem exists_array {fs : FatFs} (hfs : fs.Describes img) :
    ∃ cluster : Bytes, (cluster.length : ℤ) = fs.clusterSize :=
  ⟨List.replicate img.clusterSize 0, by rw [List.length_replicate, hfs.clusterSize]⟩

/-- What repeated calls return after a call that returns `NULL`. -/
theorem lists_iff_of_null {dir : FatDir} (hfs : dir.fs.Describes img)
    (h : ∀ cluster : Bytes, (cluster.length : ℤ) = dir.fs.clusterSize →
      ∃ dir', fatDirRead cluster dir = .ok (none, dir')) (l : List FatFile) :
    Lists dir l ↔ l = [] := by
  constructor
  · intro hl
    cases hl with
    | null => rfl
    | file hlen hread =>
      -- The same call cannot return a file.
      obtain ⟨dir', hnull⟩ := h _ hlen
      rw [hnull] at hread
      cases hread
  · rintro rfl
    obtain ⟨cluster, hlen⟩ := exists_array hfs
    obtain ⟨dir', hnull⟩ := h cluster hlen
    exact Lists.null hlen hnull

/-- What repeated calls return after a call that returns a file. -/
theorem lists_iff_of_file {dir : FatDir} (hfs : dir.fs.Describes img) {f : FatFile}
    {files : List FatFile} (h : ∀ cluster : Bytes, (cluster.length : ℤ) = dir.fs.clusterSize →
      ∃ dir', fatDirRead cluster dir = .ok (some f, dir') ∧ ∀ l, Lists dir' l ↔ l = files)
    (l : List FatFile) : Lists dir l ↔ l = f :: files := by
  constructor
  · intro hl
    cases hl with
    | null hlen hread =>
      obtain ⟨dir', hfile, -⟩ := h _ hlen
      rw [hfile] at hread
      cases hread
    | file hlen hread hrest =>
      obtain ⟨dir', hfile, hfiles⟩ := h _ hlen
      rw [hfile] at hread
      obtain ⟨hf, rfl⟩ := Prod.mk.inj (Except.ok.inj hread)
      obtain rfl := Option.some.inj hf
      rw [(hfiles _).mp hrest]
  · rintro rfl
    obtain ⟨cluster, hlen⟩ := exists_array hfs
    obtain ⟨dir', hfile, hfiles⟩ := h cluster hlen
    exact Lists.file hlen hfile ((hfiles _).mpr rfl)

/-- The first of repeated calls returns. -/
theorem Lists.exists_read {dir : FatDir} {l : List FatFile} (hl : Lists dir l) :
    ∃ cluster r, fatDirRead cluster dir = .ok r := by
  cases hl with
  | null _ hread => exact ⟨_, _, hread⟩
  | file _ hread _ => exact ⟨_, _, hread⟩

/-- Repeated calls from two positions return the same files if the first calls do the same. -/
theorem Lists.congr {dir dir' : FatDir} {l : List FatFile} (hl : Lists dir l)
    (hfs : dir'.fs = dir.fs) (h : ∀ cluster : Bytes, (cluster.length : ℤ) = dir.fs.clusterSize →
      fatDirRead cluster dir' = fatDirRead cluster dir) : Lists dir' l := by
  cases hl with
  | null hlen hread => exact Lists.null (hfs ▸ hlen) ((h _ hlen).trans hread)
  | file hlen hread hrest => exact Lists.file (hfs ▸ hlen) ((h _ hlen).trans hread) hrest

/-- What the calls return from a position on. -/
theorem lists_iff {fs : FatFs} (hfs : fs.Describes img) {c : ℕ} (hc : img.HasCluster c)
    (hoffset : (c - 2) * img.clusterSize < 2^31) (firstCluster : ℤ) {currentPos : ℕ}
    {es : List DirEntry} {rest : Bytes}
    (hes : (img.cluster c).drop currentPos = es.flatMap DirEntry.bytes ++ 0 :: rest)
    (l : List FatFile) : Lists ⟨fs, firstCluster, c, currentPos⟩ l ↔ l = listed es := by
  -- The induction is on the entries from the position on.
  induction es generalizing fs currentPos l with
  | nil =>
    refine lists_iff_of_null hfs (fun cluster hlen => ?_) l
    obtain ⟨fs', -, hcall⟩ := fatDirRead_eq hfs hc hlen hoffset firstCluster
    have hread := hcall currentPos
    rw [hes, List.flatMap_nil, List.nil_append, dirLoop_end] at hread
    exact ⟨_, hread⟩
  | cons e es ih =>
    rw [List.flatMap_cons, List.append_assoc] at hes
    have hnext : (img.cluster c).drop (currentPos + 32) =
        es.flatMap DirEntry.bytes ++ 0 :: rest := by
      rw [← List.drop_drop, hes, List.drop_left' e.length_bytes]
    by_cases hgo : e.goesOn = true
    · by_cases hread : e.isRead = true
      · -- the entry is returned, and the next call begins behind it
        have hlisted : listed (e :: es) = e.fileRead :: listed es := by
          simp [listed, hgo, hread]
        rw [hlisted]
        refine lists_iff_of_file hfs (fun cluster hlen => ?_) l
        obtain ⟨fs', hfs', hcall⟩ := fatDirRead_eq hfs hc hlen hoffset firstCluster
        have hfile := hcall currentPos
        rw [hes, dirLoop_append, if_pos hgo, if_pos hread] at hfile
        exact ⟨_, hfile, fun l => ih hfs' hnext l⟩
      · -- the entry is skipped, so the call is the same as one that begins behind it
        have hlisted : listed (e :: es) = listed es := by
          simp [listed, hgo, hread]
        have hsame (cluster : Bytes) (hlen : (cluster.length : ℤ) = fs.clusterSize) :
            fatDirRead cluster ⟨fs, firstCluster, c, currentPos⟩ =
              fatDirRead cluster ⟨fs, firstCluster, c, currentPos + 32⟩ := by
          obtain ⟨fs', -, hcall⟩ := fatDirRead_eq hfs hc hlen hoffset firstCluster
          rw [hcall, hcall, hes, dirLoop_append, if_pos hgo, if_neg hread, hnext]
        rw [hlisted, ← ih hfs hnext l]
        constructor
        · exact fun hl => hl.congr rfl fun cluster hlen => (hsame cluster hlen).symm
        · exact fun hl => hl.congr rfl hsame
    · -- the entry ends the listing
      have hlisted : listed (e :: es) = [] := by
        simp [listed, hgo]
      rw [hlisted]
      refine lists_iff_of_null hfs (fun cluster hlen => ?_) l
      obtain ⟨fs', -, hcall⟩ := fatDirRead_eq hfs hc hlen hoffset firstCluster
      have hread := hcall currentPos
      rw [hes, dirLoop_append, if_neg hgo] at hread
      exact ⟨_, hread⟩

/-- What the calls return from the beginning of a directory. -/
theorem ImageDir.lists_begin_iff (d : ImageDir img) {fs : FatFs} (hfs : fs.Describes img)
    (hoffset : (d.cluster - 2) * img.clusterSize < 2^31) (l : List FatFile) :
    Lists (fatDirOpen fs d.cluster) l ↔ l = listed d.entries := by
  have hdrop : (img.cluster d.cluster).drop 0 =
      d.entries.flatMap DirEntry.bytes ++ 0 :: d.rest := d.cluster_eq
  exact lists_iff hfs d.hasCluster hoffset d.cluster hdrop l

/-- After `fat_dir_rewind` the calls return the same as from the beginning. -/
theorem lists_fatDirRewind (d : ImageDir img) {dir : FatDir} (hfs : dir.fs.Describes img)
    (hfirst : dir.firstCluster = d.cluster)
    (hoffset : (d.cluster - 2) * img.clusterSize < 2^31) (l : List FatFile) :
    Lists (fatDirRewind dir) l ↔ l = listed d.entries := by
  rw [fatDirRewind, hfirst]
  exact d.lists_begin_iff hfs hoffset l

/-! ## The files of the entries -/

namespace DirEntry

/-- A field of two bytes. -/
theorem field_lt (s : Bytes) (offset : ℕ) : field s offset 2 < 2^16 := by
  have hlt := leNat_lt ((s.drop offset).take 2)
  have hle : ((s.drop offset).take 2).length ≤ 2 := List.length_take_le _ _
  calc field s offset 2 < 256 ^ ((s.drop offset).take 2).length := hlt
    _ ≤ 256 ^ 2 := Nat.pow_le_pow_right (by norm_num) hle
    _ = 2^16 := by norm_num

/-- An entry that is not skipped is not part of a long name. -/
theorem not_longName_of_isRead {e : DirEntry} (h : e.isRead = true) : e.attr &&& 15 ≠ 15 := by
  intro hlong
  have hone : e.attr &&& 1 = 1 := by
    calc e.attr &&& 1 = (e.attr &&& 15) &&& 1 := by rw [UInt8.and_assoc]; rfl
      _ = 1 := by rw [hlong]; rfl
  rw [isRead, hone] at h
  cases h

/-- Only the number of the first cluster is not returned as it is. -/
@[simp]
theorem info_fileRead (e : DirEntry) : e.fileRead.info = e.file.info := rfl

/-- The attributes of a file are those of its entry. -/
theorem attr_file (e : DirEntry) : e.file.info.attr = e.attr := rfl

/-- The name of a file begins with the first byte of its entry. -/
theorem head?_shortName (e : DirEntry) : e.file.info.shortName.head? = some e.first := by
  obtain ⟨bytes, hlen, hhead⟩ := e
  obtain ⟨b, s, rfl⟩ := List.exists_cons_of_length_eq_add_one hlen
  have hne : (b != 0) = true := by simpa using hhead
  simp only [file, first, cstr, List.take_succ_cons, List.headD_cons, List.takeWhile_cons, hne,
    if_true, List.head?_cons]

/-- The file of an entry is returned as it is if the number of its first cluster is small. -/
theorem fileRead_eq_file_iff (e : DirEntry) : e.fileRead = e.file ↔ e.hi = 0 ∧ e.lo < 2^15 := by
  have hhi : e.hi < 2^16 := field_lt _ _
  have hlo : e.lo < 2^16 := field_lt _ _
  have hsigned {n : ℕ} (h : n < 2^16) : signed 2 n = if n < 2^15 then (n : ℤ) else n - 2^16 := by
    split_ifs with hn
    · exact signed_of_lt (by norm_num; omega)
    · exact signed_of_le (by norm_num; omega) h
  have hiff : e.fileRead = e.file ↔
      256 * signed 2 e.hi + signed 2 e.lo = 65536 * e.hi + e.lo := by
    simp only [fileRead, file, FatFile.mk.injEq, true_and]
  -- Either half may be negative as a `short`.
  rw [hiff, hsigned hhi, hsigned hlo]
  split_ifs <;> omega

end DirEntry

/-- The entries that are there. -/
theorem mem_filter_live {es : List DirEntry} {e : DirEntry} :
    e ∈ es.filter (fun e => e.Live) ↔ e ∈ es ∧ e.Live := by
  rw [List.mem_filter, decide_eq_true_iff]

/-- The entries that are not skipped are those that are there, if deleted entries are read-only and
the others are not. -/
theorem filter_isRead_eq {es : List DirEntry}
    (hdeleted : ∀ e ∈ es, e.first = 0xE5 → e.isRead = false)
    (hreadOnly : ∀ e ∈ es, e.Live → e.isRead = true) :
    es.filter DirEntry.isRead = es.filter fun e => e.Live := by
  refine List.filter_congr fun e he => ?_
  rw [Bool.eq_iff_iff, decide_eq_true_iff]
  constructor
  · intro hread
    refine ⟨fun hE5 => ?_, DirEntry.not_longName_of_isRead hread⟩
    rw [hdeleted e he hE5] at hread
    cases hread
  · exact hreadOnly e he

section Listed

variable {es : List DirEntry} (h : listed es = (es.filter fun e => e.Live).map DirEntry.file)

include h

/-- No file that is listed is read-only. -/
theorem readOnly_of_listed : ∀ e ∈ es, e.Live → e.isRead = true := by
  intro e he hlive
  have hmem : e.file ∈ (es.filter fun e => e.Live).map DirEntry.file :=
    List.mem_map_of_mem (mem_filter_live.mpr ⟨he, hlive⟩)
  rw [← h] at hmem
  obtain ⟨e', he', heq⟩ := List.mem_map.mp hmem
  -- The file is that of an entry that was not skipped, which has the same attributes.
  have hinfo : e'.file.info = e.file.info := by
    rw [← e'.info_fileRead, heq]
  have hattr : e'.attr = e.attr := by
    rw [← e'.attr_file, hinfo, e.attr_file]
  have hread := (List.mem_filter.mp he').2
  rwa [DirEntry.isRead, hattr] at hread

/-- No deleted entry is listed. -/
theorem deleted_of_listed :
    ∀ e ∈ es.takeWhile DirEntry.goesOn, e.first = 0xE5 → e.isRead = false := by
  intro e he hE5
  by_contra hread
  have hmem : e.fileRead ∈ listed es :=
    List.mem_map_of_mem (List.mem_filter.mpr ⟨he, by simpa using hread⟩)
  rw [h] at hmem
  obtain ⟨e', he', heq⟩ := List.mem_map.mp hmem
  -- Its name would begin like that of an entry that is there.
  have hinfo : e'.file.info = e.file.info := by
    rw [heq, e.info_fileRead]
  have hfirst := e'.head?_shortName
  rw [hinfo, e.head?_shortName, Option.some_inj] at hfirst
  exact (mem_filter_live.mp he').2.1 (hfirst.symm.trans hE5)

end Listed

/-- What the calls return is the files of the entries that are there, if and only if none of the
four tests and decodings makes a difference. -/
theorem listed_eq_iff (es : List DirEntry) :
    listed es = (es.filter fun e => e.Live).map DirEntry.file ↔
      (∀ e ∈ es.takeWhile DirEntry.goesOn, e.first = 0xE5 → e.isRead = false) ∧
        (∀ e ∈ es.dropWhile DirEntry.goesOn, ¬ e.Live) ∧
        (∀ e ∈ es, e.Live → e.isRead = true) ∧
        ∀ e ∈ es, e.Live → e.hi = 0 ∧ e.lo < 2^15 := by
  have hsplit : (es.filter fun e => e.Live) =
      ((es.takeWhile DirEntry.goesOn).filter fun e => e.Live) ++
        (es.dropWhile DirEntry.goesOn).filter fun e => e.Live := by
    rw [← List.filter_append, List.takeWhile_append_dropWhile]
  have hfront : ∀ e ∈ es.takeWhile DirEntry.goesOn, e ∈ es :=
    fun e he => (List.takeWhile_sublist _).subset he
  constructor
  · intro h
    have hdeleted := deleted_of_listed h
    have hreadOnly := readOnly_of_listed h
    rw [listed, filter_isRead_eq hdeleted fun e he => hreadOnly e (hfront e he), hsplit] at h
    -- The two lists have the same length, so nothing comes after the first entry with the byte 5.
    have hback : ((es.dropWhile DirEntry.goesOn).filter fun e => e.Live) = [] := by
      have hlen := congrArg List.length h
      rw [List.length_map, List.length_map, List.length_append] at hlen
      exact List.length_eq_zero_iff.mp (by omega)
    have hearly : ∀ e ∈ es.dropWhile DirEntry.goesOn, ¬ e.Live := by
      intro e he hlive
      have hmem := mem_filter_live.mpr ⟨he, hlive⟩
      rw [hback] at hmem
      cases hmem
    rw [hback, List.append_nil, List.map_inj_left] at h
    refine ⟨hdeleted, hearly, hreadOnly, fun e he hlive => ?_⟩
    have hmem : e ∈ es.filter fun e => e.Live := mem_filter_live.mpr ⟨he, hlive⟩
    rw [hsplit, hback, List.append_nil] at hmem
    exact e.fileRead_eq_file_iff.mp (h e hmem)
  · rintro ⟨hdeleted, hearly, hreadOnly, hfirst⟩
    have hback : ((es.dropWhile DirEntry.goesOn).filter fun e => e.Live) = [] :=
      List.filter_eq_nil_iff.mpr fun e he => by simpa using hearly e he
    rw [listed, filter_isRead_eq hdeleted fun e he => hreadOnly e (hfront e he), hsplit, hback,
      List.append_nil]
    refine List.map_congr_left fun e he => e.fileRead_eq_file_iff.mpr ?_
    obtain ⟨hmem, hlive⟩ := mem_filter_live.mp he
    exact hfirst e (hfront e hmem) hlive

/-- The calls list the files of the entries that are there if and only if these are what they
return, and the offset of the cluster fits an `int`. -/
theorem ImageDir.listingRight_iff_listed (d : ImageDir img) {fs : FatFs} (hfs : fs.Describes img) :
    d.ListingRight fs ↔ (d.cluster - 2) * img.clusterSize < 2^31 ∧
      listed d.entries = (d.entries.filter fun e => e.Live).map DirEntry.file := by
  constructor
  · intro h
    have hoffset : (d.cluster - 2) * img.clusterSize < 2^31 := by
      -- Otherwise the first call has no result.
      by_contra hoffset
      obtain ⟨cluster, r, hread⟩ := Lists.exists_read h
      rw [fatDirOpen, fatDirRead_eq_error hfs d.hasCluster (not_lt.mp hoffset)] at hread
      cases hread
    exact ⟨hoffset, ((d.lists_begin_iff hfs hoffset _).mp h).symm⟩
  · rintro ⟨hoffset, hlisted⟩
    exact (d.lists_begin_iff hfs hoffset _).mpr hlisted.symm

/-- With what `fat_fs_open` gives, after any reads, the calls list the files of the entries that are
there if no slip makes a difference, and only then where `fat_fs_open` is right for the image. -/
theorem ImageDir.listingRight_iff (d : ImageDir img) {fs : FatFs}
    (hopen : fatFsOpen img.bytes = .ok fs) (pos : ℕ) :
    (d.NoSlip → d.ListingRight (fs.readUpTo pos)) ∧
      (img.OpensRight → (d.ListingRight (fs.readUpTo pos) ↔ d.NoSlip)) := by
  have hiff : img.OpensRight → (d.ListingRight (fs.readUpTo pos) ↔ d.NoSlip) := by
    intro hright
    rw [d.listingRight_iff_listed (describes_of_fatFsOpen hright hopen pos), listed_eq_iff]
    constructor
    · rintro ⟨hoffset, hdeleted, hearly, hreadOnly, hfirst⟩
      exact ⟨hright, hoffset, hdeleted, hearly, hreadOnly, hfirst⟩
    · intro h
      exact ⟨h.offset, h.deleted, h.early, h.readOnly, h.firstCluster⟩
  exact ⟨fun h => (hiff h.opens).mpr h, hiff⟩

/-! ## A directory with a read-only file -/

/-- There are 32 bytes of an entry. -/
theorem length_fileEntryBytes (attr : UInt8) (cluster size : ℕ) :
    (fileEntryBytes attr cluster size).length = 32 := by
  simp only [fileEntryBytes, List.length_append, length_leBytes, List.length_replicate,
    List.length_singleton]
  rfl

/-- The first one is not zero. -/
theorem head?_fileEntryBytes (attr : UInt8) (cluster size : ℕ) :
    (fileEntryBytes attr cluster size).head? ≠ some 0 := by
  have hhead : (fileEntryBytes attr cluster size).head? = some 65 := rfl
  rw [hhead]
  decide

/-- The entry. -/
def fileEntry (attr : UInt8) (cluster size : ℕ) : DirEntry :=
  ⟨fileEntryBytes attr cluster size, length_fileEntryBytes attr cluster size,
    head?_fileEntryBytes attr cluster size⟩

/-- The image has the cluster. -/
theorem hasCluster_smallImage : smallImage.HasCluster 2 := by
  constructor <;> decide +kernel

/-- The cluster has one entry. -/
theorem cluster_smallImage : smallImage.cluster 2 =
    [fileEntry 33 3 1000].flatMap DirEntry.bytes ++ 0 :: List.replicate 479 0 := by
  decide +kernel

/-- The directory. -/
def smallDir : ImageDir smallImage :=
  ⟨2, hasCluster_smallImage, [fileEntry 33 3 1000], List.replicate 479 0, cluster_smallImage⟩

/-- The calls list the file if and only if no slip makes a difference. -/
theorem listingRight_iff_small : ∃ fs, fatFsOpen smallBytes = .ok fs ∧
    (smallDir.ListingRight (fs.readUpTo 0) ↔ smallDir.NoSlip) := by
  obtain ⟨fs, hopen⟩ := exists_fatFsOpen_smallBytes
  exact ⟨fs, hopen, (smallDir.listingRight_iff hopen 0).2 opensRight_smallImage⟩

/-- The calls do not list the file. -/
theorem not_listingRight_small : ∃ fs, fatFsOpen smallBytes = .ok fs ∧
    ¬ smallDir.ListingRight (fs.readUpTo 0) := by
  obtain ⟨fs, hopen⟩ := exists_fatFsOpen_smallBytes
  have hfs := describes_of_fatFsOpen opensRight_smallImage hopen 0
  refine ⟨fs, hopen, fun h => ?_⟩
  -- The file is read-only, and is skipped.
  have hlisted := ((smallDir.listingRight_iff_listed hfs).mp h).2
  have hlen : (listed [fileEntry 33 3 1000]).length =
      (([fileEntry 33 3 1000].filter fun e => e.Live).map DirEntry.file).length :=
    congrArg List.length hlisted
  revert hlen
  decide +kernel

/-! ## A directory of an image with one table -/

/-- The image has the cluster. -/
theorem hasCluster_oneTableImage : oneTableImage.HasCluster 2 := by
  constructor <;> decide +kernel

/-- The cluster has one entry. -/
theorem cluster_oneTableImage : oneTableImage.cluster 2 =
    [fileEntry 32 4 500].flatMap DirEntry.bytes ++ 0 :: List.replicate 479 0 := by
  decide +kernel

/-- The directory. -/
def oneTableDir : ImageDir oneTableImage :=
  ⟨2, hasCluster_oneTableImage, [fileEntry 32 4 500], List.replicate 479 0, cluster_oneTableImage⟩

/-- The calls read the empty cluster behind the directory, and do not list the file. -/
theorem not_listingRight_oneTable : ∃ fs, fatFsOpen oneTableBytes = .ok fs ∧
    ¬ oneTableDir.ListingRight (fs.readUpTo 0) := by
  obtain ⟨fs, hopen, hsize, hbegin, hbytes⟩ := exists_fatFsOpen_oneTableBytes
  refine ⟨fs, hopen, fun h => ?_⟩
  have hlive : (fileEntry 32 4 500).Live := by decide +kernel
  have hfilter : ([fileEntry 32 4 500].filter fun e => e.Live) = [fileEntry 32 4 500] := by
    simp [hlive]
  have hlists : Lists (fatDirOpen (fs.readUpTo 0) (2 : ℕ)) [(fileEntry 32 4 500).file] := by
    have hdir : oneTableDir.ListingRight (fs.readUpTo 0) =
        Lists (fatDirOpen (fs.readUpTo 0) (2 : ℕ))
          (([fileEntry 32 4 500].filter fun e => e.Live).map DirEntry.file) := rfl
    rw [hdir, hfilter] at h
    exact h
  cases hlists with
  | @file _ _ cluster _ _ hlen hread _ =>
    have hlen' : cluster.length = 512 := by
      have hint : (cluster.length : ℤ) = 512 := hlen.trans hsize
      omega
    have hbegin' : clusterBegin oneTableBytes = 1024 := by decide +kernel
    have hnext : (oneTableBytes.drop (clusterBegin oneTableBytes + 512 + (2 - 2) * 512)).take 512 =
        List.replicate 512 0 := by
      decide +kernel
    -- The whole array is read, with zeros.
    have hcluster := @fatClusterRead_of_begin (fs.readUpTo 0) _ 512 2 cluster hsize hbegin
      (by omega) (by omega) (by omega) (by omega) (by omega) (by omega)
    have hwhole : memcpy cluster 0 (List.replicate 512 0) = 0 :: List.replicate 511 0 := by
      rw [memcpy, List.take_zero, List.nil_append, Nat.zero_add,
        List.drop_of_length_le (by rw [List.length_replicate, hlen']), List.append_nil]
      rfl
    rw [show (fs.readUpTo 0).fp.bytes = oneTableBytes from hbytes, hnext, hwhole] at hcluster
    rw [fatDirRead, fatDirOpen, except_bind_of_ok hcluster] at hread
    dsimp only [Option.getD_some] at hread
    rw [List.drop_zero, dirLoop_end] at hread
    cases hread

end MgCommonUtils.Fat
