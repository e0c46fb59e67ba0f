import MgCommonUtils.Lib.Buffer
import MgCommonUtils.Lib.LittleEndian
import MgCommonUtils.Lib.Stdio

/-!
# FAT32 images

The part of `main.c` that opens an image, reads its clusters and follows its chains of clusters, and
what a FAT32 image is: the fields of its first sector, the table that says which cluster follows a
cluster, and the clusters.

`FatFs.Describes` says that a `FAT_FS` holds what there is to know about an image. `fat_fs_open`
takes the number of the tables for two whatever the image says, and computes in `short` and `int`;
where that is right, `Image.OpensRight`, it makes such a `FAT_FS` (`describes_of_fatFsOpen`). With
such a one the functions on clusters do what they are for, as `fatClusterGetNext_eq` and
`fatClusterRead_eq` say, but for a cluster whose offset does not fit an `int`. With another the
clusters are looked for in another place (`fatClusterRead_of_begin`).
-/

namespace MgCommonUtils.Fat

open MgCommonUtils.Lib

/-! ## The model -/

/-- Why a call has no result. -/
inductive Fault where
  /-- An operation on `int` has no result. -/
  | overflow
  /-- It accesses bytes outside of an array, or the null pointer. -/
  | outOfBounds
  /-- It runs forever. -/
  | forever
deriving DecidableEq, Repr

/-- The result of an operation on `int`. -/
def int (z : ℤ) : Except Fault ℤ := if -2^31 ≤ z ∧ z < 2^31 then .ok z else .error .overflow

/-- A `FAT_FS`. -/
structure FatFs where
  /-- `BytsPerSec`. -/
  bytsPerSec : ℤ
  /-- `SecPerClus`. -/
  secPerClus : ℤ
  /-- `RsvdSecCnt`. -/
  rsvdSecCnt : ℤ
  /-- `NumFATs`. -/
  numFATs : ℤ
  /-- `TotSec32`. -/
  totSec32 : ℤ
  /-- `FATSz32`. -/
  fatSz32 : ℤ
  /-- `RootClus`. -/
  rootClus : ℤ
  /-- `cluster_size`. -/
  clusterSize : ℤ
  /-- The memory of `fat_table`. -/
  fatTable : Bytes
  /-- `cluster_begin_addr`. -/
  clusterBeginAddr : ℕ
  /-- `fp`. -/
  fp : SeekFile
deriving DecidableEq, Repr

/-- The read of a field of `k` bytes, which are zero before. -/
def readField (fp : SeekFile) (offset k : ℕ) : ℤ × SeekFile :=
  let (s, fp) := (fp.fseek offset).fread k
  (signed k (leNat s), fp)

/-- `fat_fs_open` of a file with these bytes. -/
def fatFsOpen (image : Bytes) : Except Fault FatFs := do
  let fp : SeekFile := ⟨image, 0⟩
  let (bytsPerSec, fp) := readField fp 11 2
  let (secPerClus, fp) := readField fp 13 1
  let (rsvdSecCnt, fp) := readField fp 14 2
  let (numFATs, fp) := readField fp 16 1
  let (totSec32, fp) := readField fp 32 4
  let (fatSz32, fp) := readField fp 36 4
  let (rootClus, fp) := readField fp 44 4
  let n ← int (fatSz32 * bytsPerSec)
  -- There is no memory for a negative number of bytes, and `fread` writes to the null pointer.
  if n < 0 then .error .outOfBounds
  let (s, fp) := (fp.fseek (rsvdSecCnt * bytsPerSec)).fread n.toNat
  let clusterBeginAddr ← int (rsvdSecCnt * bytsPerSec + (← int (n * 2)))
  return {
    bytsPerSec, secPerClus, rsvdSecCnt, numFATs, totSec32, fatSz32, rootClus
    clusterSize := bytsPerSec * secPerClus
    fatTable := s ++ List.replicate (n.toNat - s.length) 0
    clusterBeginAddr := (clusterBeginAddr % 2^64).toNat
    fp }

/-- `fat_cluster_get_next`. -/
def fatClusterGetNext (fs : FatFs) (clusterNum : ℤ) : Except Fault ℤ :=
  let i := 4 * clusterNum.toNat
  if 0 ≤ clusterNum ∧ i + 4 ≤ fs.fatTable.length then
    let entry := BitVec.ofNat 32 (leNat ((fs.fatTable.drop i).take 4))
    let nextClus := (entry &&& 0xFFFFFFF).toInt
    .ok (if 0xFFFFFF8 ≤ nextClus then -1 else nextClus)
  else .error .outOfBounds

/-- `fat_cluster_read`, where `buf` is the memory from the pointer on, or none for the null pointer:
what it returns, and the `FAT_FS` after it. -/
def fatClusterRead (fs : FatFs) (num : ℤ) : Option Bytes → Except Fault (Option Bytes × FatFs)
  | none => .ok (none, fs)
  | some buf => do
    let offset ← int ((← int (num - 2)) * fs.clusterSize)
    let pos := ((fs.clusterBeginAddr : ℤ) + offset).bmod (2^64)
    let fp := if pos = fs.fp.pos then fs.fp else fs.fp.fseek pos
    let (s, fp) := fp.fread (fs.clusterSize % 2^64).toNat
    if s.length ≤ buf.length then .ok (some (memcpy buf 0 s), { fs with fp := fp })
    else .error .outOfBounds

/-- The part of a `FAT_FILE_INFO` that is read. -/
structure FatFileInfo where
  /-- The C string in `short_name`. -/
  shortName : Bytes
  /-- `attr`. -/
  attr : UInt8
  /-- `size`. -/
  size : ℤ
  /-- `is_dir`. -/
  isDir : Bool
deriving DecidableEq, Repr

/-- A `FAT_FILE`, without a position. -/
structure FatFile where
  /-- `fs`, or none for the null pointer. -/
  fs : Option FatFs
  /-- `info`. -/
  info : FatFileInfo
  /-- `first_cluster`. -/
  firstCluster : ℤ
deriving DecidableEq, Repr

/-! ## Images -/

/-- A field of the first sector of an image. -/
def field (image : Bytes) (offset k : ℕ) : ℕ := leNat ((image.drop offset).take k)

/-- The bytes of a sector. -/
def bytsPerSec (image : Bytes) : ℕ := field image 11 2

/-- The sectors of a cluster. -/
def secPerClus (image : Bytes) : ℕ := field image 13 1

/-- The sectors in front of the first table. -/
def rsvdSecCnt (image : Bytes) : ℕ := field image 14 2

/-- The number of the tables. -/
def numFATs (image : Bytes) : ℕ := field image 16 1

/-- The sectors of the image. -/
def totSec32 (image : Bytes) : ℕ := field image 32 4

/-- The sectors of a table. -/
def fatSz32 (image : Bytes) : ℕ := field image 36 4

/-- The bytes of a cluster. -/
def clusterSize (image : Bytes) : ℕ := bytsPerSec image * secPerClus image

/-- Where the first table begins. -/
def fatBegin (image : Bytes) : ℕ := rsvdSecCnt image * bytsPerSec image

/-- The bytes of a table. -/
def fatSize (image : Bytes) : ℕ := fatSz32 image * bytsPerSec image

/-- Where the first cluster begins. -/
def clusterBegin (image : Bytes) : ℕ := fatBegin image + numFATs image * fatSize image

/-- The number of the clusters. -/
def clusters (image : Bytes) : ℕ :=
  (totSec32 image - (rsvdSecCnt image + numFATs image * fatSz32 image)) / secPerClus image

/-- The bytes are a FAT32 image with clusters of 32768 bytes at most. -/
structure IsFat32 (image : Bytes) : Prop where
  /-- The sizes of a sector. -/
  bytsPerSec_mem : bytsPerSec image ∈ [512, 1024, 2048, 4096]
  /-- The numbers of the sectors of a cluster. -/
  secPerClus_mem : secPerClus image ∈ [1, 2, 4, 8, 16, 32, 64, 128]
  /-- The largest cluster. -/
  clusterSize_le : clusterSize image ≤ 32768
  /-- The first sector is in front of the tables. -/
  rsvdSecCnt_pos : 0 < rsvdSecCnt image
  /-- There is a table. -/
  numFATs_pos : 0 < numFATs image
  /-- The sectors are in the image. -/
  totSec32_le : totSec32 image * bytsPerSec image ≤ image.length
  /-- There are clusters behind the tables. -/
  clusters_pos : 0 < clusters image
  /-- The number of a cluster is not one of those with a meaning of their own. -/
  clusters_lt : clusters image + 1 < 0xFFFFFF7
  /-- Every cluster has an entry in the table. -/
  clusters_le : 4 * (clusters image + 2) ≤ fatSize image
  /-- The size of a file fits an `off_t`. -/
  length_lt : image.length < 2^63

/-- A FAT32 image. -/
structure Image where
  /-- The bytes of the image. -/
  bytes : Bytes
  /-- They are one. -/
  isFat32 : IsFat32 bytes

/-- The bytes of a cluster of an image. -/
def Image.clusterSize (img : Image) : ℕ := Fat.clusterSize img.bytes

/-- The image has a cluster with this number. The first one has number 2. -/
def Image.HasCluster (img : Image) (c : ℕ) : Prop := 2 ≤ c ∧ c < clusters img.bytes + 2

/-- A cluster. -/
def Image.cluster (img : Image) (c : ℕ) : Bytes :=
  (img.bytes.drop (clusterBegin img.bytes + (c - 2) * img.clusterSize)).take img.clusterSize

/-- The first table. -/
def Image.fat (img : Image) : Bytes :=
  (img.bytes.drop (fatBegin img.bytes)).take (fatSize img.bytes)

/-- The entry of a cluster in the first table, which has 28 bits. -/
def Image.fatEntry (img : Image) (c : ℕ) : ℕ := field img.fat (4 * c) 4 % 2^28

/-- A chain of clusters: every cluster has the number of the next one in its entry, and the last one
has the mark of an end. -/
def Image.IsChain (img : Image) : List ℕ → Prop
  | [] => False
  | [c] => img.HasCluster c ∧ 0xFFFFFF8 ≤ img.fatEntry c
  | c :: c' :: cs => img.HasCluster c ∧ img.fatEntry c = c' ∧ img.IsChain (c' :: cs)

/-- The `FAT_FS` holds what there is to know about the image. -/
structure FatFs.Describes (fs : FatFs) (img : Image) : Prop where
  /-- The size of a cluster. -/
  clusterSize : fs.clusterSize = img.clusterSize
  /-- The table. -/
  fatTable : fs.fatTable = img.fat
  /-- Where the first cluster begins. -/
  clusterBeginAddr : fs.clusterBeginAddr = clusterBegin img.bytes
  /-- The file is the image. It has been read up to any position. -/
  bytes : fs.fp.bytes = img.bytes

/-- What `fat_fs_open` takes for granted of an image. -/
structure Image.OpensRight (img : Image) : Prop where
  /-- There are two tables. -/
  numFATs : Fat.numFATs img.bytes = 2
  /-- The number of the sectors in front of them fits a `short`. -/
  rsvdSecCnt : Fat.rsvdSecCnt img.bytes < 2^15
  /-- The offset of the first cluster fits an `int`. -/
  clusterBegin : Fat.clusterBegin img.bytes < 2^31

/-- The `FAT_FS` after reads that end at this position of the file. -/
def FatFs.readUpTo (fs : FatFs) (pos : ℕ) : FatFs := { fs with fp := ⟨fs.fp.bytes, pos⟩ }

/-- Reads leave what it holds of the image. -/
theorem FatFs.Describes.readUpTo {fs : FatFs} {img : Image} (h : fs.Describes img) (pos : ℕ) :
    (fs.readUpTo pos).Describes img :=
  ⟨h.clusterSize, h.fatTable, h.clusterBeginAddr, h.bytes⟩

/-! ## Sizes -/

/-- An operation on `int` whose result is in range. -/
theorem int_eq_ok {z : ℤ} (h0 : -2^31 ≤ z) (h1 : z < 2^31) : int z = .ok z := if_pos ⟨h0, h1⟩

/-- An operation on `int` whose result is too large. -/
theorem int_eq_error {z : ℤ} (h : 2^31 ≤ z) : int z = .error .overflow :=
  if_neg fun hz => absurd hz.2 (not_lt.mpr h)

namespace Image

variable {img : Image}

/-- A cluster is not empty. -/
theorem clusterSize_pos (img : Image) : 0 < img.clusterSize := by
  have hbyts := img.isFat32.bytsPerSec_mem
  have hsec := img.isFat32.secPerClus_mem
  simp only [List.mem_cons, List.not_mem_nil, or_false] at hbyts hsec
  exact Nat.mul_pos (by omega) (by omega)

/-- A cluster has 32768 bytes at most. -/
theorem clusterSize_le (img : Image) : img.clusterSize ≤ 32768 := img.isFat32.clusterSize_le

/-- A cluster is in the image. -/
theorem HasCluster.end_le {c : ℕ} (hc : img.HasCluster c) :
    clusterBegin img.bytes + (c - 2) * img.clusterSize + img.clusterSize ≤ img.bytes.length := by
  have hdiv : clusters img.bytes * secPerClus img.bytes ≤ totSec32 img.bytes -
      (rsvdSecCnt img.bytes + numFATs img.bytes * fatSz32 img.bytes) := Nat.div_mul_le_self _ _
  have hsec : 0 < secPerClus img.bytes :=
    Nat.pos_of_mul_pos_left img.clusterSize_pos
  have hle : (c - 2 + 1) * secPerClus img.bytes ≤ clusters img.bytes * secPerClus img.bytes :=
    Nat.mul_le_mul_right _ (by have h2 := hc.1; have hlt := hc.2; omega)
  have hpos : 0 < (c - 2 + 1) * secPerClus img.bytes := Nat.mul_pos (Nat.succ_pos _) hsec
  -- The sectors up to the end of the cluster are among those of the image.
  have hsectors : rsvdSecCnt img.bytes + numFATs img.bytes * fatSz32 img.bytes +
      (c - 2 + 1) * secPerClus img.bytes ≤ totSec32 img.bytes := by omega
  calc clusterBegin img.bytes + (c - 2) * img.clusterSize + img.clusterSize
      = (rsvdSecCnt img.bytes + numFATs img.bytes * fatSz32 img.bytes +
          (c - 2 + 1) * secPerClus img.bytes) * bytsPerSec img.bytes := by
        rw [clusterBegin, fatBegin, fatSize, Image.clusterSize, Fat.clusterSize]
        ring
    _ ≤ totSec32 img.bytes * bytsPerSec img.bytes := Nat.mul_le_mul_right _ hsectors
    _ ≤ img.bytes.length := img.isFat32.totSec32_le

/-- The size of a cluster. -/
theorem HasCluster.length_cluster {c : ℕ} (hc : img.HasCluster c) :
    (img.cluster c).length = img.clusterSize := by
  have hend := hc.end_le
  rw [cluster, List.length_take, List.length_drop]
  omega

/-- The number of a cluster is less than the marks. -/
theorem HasCluster.lt {c : ℕ} (hc : img.HasCluster c) : c < 0xFFFFFF7 := by
  have hlt := img.isFat32.clusters_lt
  have hc' := hc.2
  omega

/-- The number of the clusters in front of a cluster. -/
theorem HasCluster.int_sub_two {c : ℕ} (hc : img.HasCluster c) :
    int ((c : ℤ) - 2) = .ok ((c - 2 : ℕ) : ℤ) := by
  have hlt := hc.lt
  rw [Nat.cast_sub hc.1]
  exact int_eq_ok (by push_cast; omega) (by push_cast; omega)

/-- The table is in the image. -/
theorem length_fat (img : Image) : img.fat.length = fatSize img.bytes := by
  have hcluster : img.HasCluster 2 := ⟨le_rfl, by have h := img.isFat32.clusters_pos; omega⟩
  have hend := hcluster.end_le
  have hfat : fatSize img.bytes ≤ numFATs img.bytes * fatSize img.bytes :=
    Nat.le_mul_of_pos_left _ img.isFat32.numFATs_pos
  rw [clusterBegin] at hend
  rw [fat, List.length_take, List.length_drop]
  omega

end Image

/-! ## Clusters -/

/-- What `fat_cluster_read` reads with the clusters taken to begin somewhere: as many bytes as a
cluster has, or what there is of them. -/
theorem fatClusterRead_of_begin {fs : FatFs} {begin k c : ℕ} {buf : Bytes}
    (hsize : fs.clusterSize = k) (hbegin : fs.clusterBeginAddr = begin) (hc : 2 ≤ c)
    (hlt : c < 2^31) (hoffset : (c - 2) * k < 2^31) (hpos : begin + (c - 2) * k < 2^63)
    (hk : k < 2^63) (hbuf : k ≤ buf.length) :
    fatClusterRead fs c (some buf) =
      .ok (some (memcpy buf 0 ((fs.fp.bytes.drop (begin + (c - 2) * k)).take k)),
        fs.readUpTo (begin + (c - 2) * k +
          ((fs.fp.bytes.drop (begin + (c - 2) * k)).take k).length)) := by
  have hnum : int ((c : ℤ) - 2) = .ok ((c - 2 : ℕ) : ℤ) := by
    rw [Nat.cast_sub hc]
    exact int_eq_ok (by push_cast; omega) (by push_cast; omega)
  have hmul : int (((c - 2 : ℕ) : ℤ) * k) = .ok (((c - 2) * k : ℕ) : ℤ) := by
    rw [← Nat.cast_mul]
    exact int_eq_ok (by omega) (by exact_mod_cast hoffset)
  have hmod : ((begin : ℤ) + ((c - 2) * k : ℕ)).bmod (2^64) = ((begin + (c - 2) * k : ℕ) : ℤ) := by
    rw [← Nat.cast_add]
    exact Int.bmod_eq_of_le (by omega) (by omega)
  have hcount : ((k : ℤ) % 2^64).toNat = k := by omega
  -- Whether the file is moved or stands there already, it is read from the same position.
  have hfp : (if ((begin + (c - 2) * k : ℕ) : ℤ) = fs.fp.pos then fs.fp
      else fs.fp.fseek (begin + (c - 2) * k : ℕ)) = ⟨fs.fp.bytes, begin + (c - 2) * k⟩ := by
    split_ifs with heq
    · rw [Nat.cast_inj.mp heq]
    · rw [SeekFile.fseek_natCast]
  have hread : SeekFile.fread ⟨fs.fp.bytes, begin + (c - 2) * k⟩ k =
      ((fs.fp.bytes.drop (begin + (c - 2) * k)).take k, ⟨fs.fp.bytes, begin + (c - 2) * k +
        ((fs.fp.bytes.drop (begin + (c - 2) * k)).take k).length⟩) := rfl
  have hle : ((fs.fp.bytes.drop (begin + (c - 2) * k)).take k).length ≤ buf.length :=
    (List.length_take_le _ _).trans hbuf
  simp only [fatClusterRead, FatFs.readUpTo, hnum, hsize, hbegin, bind, Except.bind, hmul, hmod,
    hfp, hcount, hread, if_pos hle]

section Clusters

variable {img : Image} {fs : FatFs} (hfs : fs.Describes img) {c : ℕ} (hc : img.HasCluster c)

include hfs hc

/-- What `fat_cluster_read` reads, if the offset of the cluster fits an `int`. -/
theorem fatClusterRead_eq {buf : Bytes} (hbuf : img.clusterSize ≤ buf.length)
    (hoffset : (c - 2) * img.clusterSize < 2^31) :
    ∃ fs', fs'.Describes img ∧
      fatClusterRead fs c (some buf) = .ok (some (memcpy buf 0 (img.cluster c)), fs') := by
  have hend := hc.end_le
  have hlen := img.isFat32.length_lt
  have hsize := img.clusterSize_le
  have hlt := hc.lt
  have hcluster : (fs.fp.bytes.drop (clusterBegin img.bytes + (c - 2) * img.clusterSize)).take
      img.clusterSize = img.cluster c := by
    rw [hfs.bytes]
    rfl
  have hread := fatClusterRead_of_begin hfs.clusterSize hfs.clusterBeginAddr hc.1 (by omega)
    hoffset (by omega) (by omega) hbuf
  rw [hcluster] at hread
  exact ⟨_, hfs.readUpTo _, hread⟩

/-- It does not read a cluster whose offset does not fit one. -/
theorem fatClusterRead_eq_error {buf : Bytes} (hoffset : 2^31 ≤ (c - 2) * img.clusterSize) :
    fatClusterRead fs c (some buf) = .error .overflow := by
  have hmul : int (((c - 2 : ℕ) : ℤ) * img.clusterSize) = .error .overflow := by
    rw [← Nat.cast_mul]
    exact int_eq_error (by exact_mod_cast hoffset)
  simp only [fatClusterRead, hc.int_sub_two, hfs.clusterSize, bind, Except.bind, hmul]

end Clusters

/-! ## Opening an image -/

/-- The read of a field. -/
theorem readField_eq (fp : SeekFile) (offset k : ℕ) : readField fp offset k =
    (signed k (field fp.bytes offset k),
      ⟨fp.bytes, offset + ((fp.bytes.drop offset).take k).length⟩) := by
  rw [readField, SeekFile.fseek_natCast]
  rfl

/-- The fields that `fat_fs_open` computes with have no sign, if the tables are small enough. -/
theorem Image.signed_fields (img : Image) (hrsvd : rsvdSecCnt img.bytes < 2^15)
    (hfat : fatSize img.bytes < 2^31) :
    signed 2 (field img.bytes 11 2) = bytsPerSec img.bytes ∧
      signed 1 (field img.bytes 13 1) = secPerClus img.bytes ∧
      signed 2 (field img.bytes 14 2) = rsvdSecCnt img.bytes ∧
      signed 4 (field img.bytes 36 4) = fatSz32 img.bytes := by
  have hbyts := img.isFat32.bytsPerSec_mem
  have hsize : bytsPerSec img.bytes * secPerClus img.bytes ≤ 32768 := img.clusterSize_le
  simp only [List.mem_cons, List.not_mem_nil, or_false] at hbyts
  -- A sector has 512 bytes at least, which bounds the numbers of the sectors.
  have hsec : 512 * secPerClus img.bytes ≤ bytsPerSec img.bytes * secPerClus img.bytes :=
    Nat.mul_le_mul_right _ (by omega)
  have hfatSz : fatSz32 img.bytes * 512 ≤ fatSz32 img.bytes * bytsPerSec img.bytes :=
    Nat.mul_le_mul_left _ (by omega)
  have hfat' : fatSz32 img.bytes * bytsPerSec img.bytes < 2^31 := hfat
  refine ⟨signed_of_lt ?_, signed_of_lt ?_, signed_of_lt ?_, signed_of_lt ?_⟩
  · change 2 * bytsPerSec img.bytes < 256 ^ 2
    omega
  · change 2 * secPerClus img.bytes < 256 ^ 1
    omega
  · change 2 * rsvdSecCnt img.bytes < 256 ^ 2
    omega
  · change 2 * fatSz32 img.bytes < 256 ^ 4
    omega

/-- `fat_fs_open` gives what describes an image for which it is right. -/
theorem Image.OpensRight.exists_fatFsOpen {img : Image} (h : img.OpensRight) :
    ∃ fs, fatFsOpen img.bytes = .ok fs ∧ fs.Describes img := by
  obtain ⟨htwo, hrsvd, hbegin⟩ := h
  rw [Fat.clusterBegin, htwo] at hbegin
  have hfat : fatSize img.bytes < 2^31 := by omega
  obtain ⟨hbyts, hsec, hrsvd', hfatSz⟩ := img.signed_fields hrsvd hfat
  -- The products and sums of `int` are those of the sizes.
  have hn : int ((fatSz32 img.bytes : ℤ) * bytsPerSec img.bytes) = .ok (fatSize img.bytes : ℤ) := by
    rw [← Nat.cast_mul]
    exact int_eq_ok (by omega) (by exact_mod_cast hfat)
  have hneg : ¬ (fatSize img.bytes : ℤ) < 0 := by omega
  have htwice : int ((fatSize img.bytes : ℤ) * 2) = .ok ((2 * fatSize img.bytes : ℕ) : ℤ) := by
    rw [mul_comm]
    exact int_eq_ok (by omega) (by omega)
  have hoffset : (Fat.rsvdSecCnt img.bytes : ℤ) * bytsPerSec img.bytes = (fatBegin img.bytes : ℕ) :=
    (Nat.cast_mul _ _).symm
  have haddr : int ((fatBegin img.bytes : ℤ) + (2 * fatSize img.bytes : ℕ)) =
      .ok ((fatBegin img.bytes + 2 * fatSize img.bytes : ℕ) : ℤ) :=
    int_eq_ok (by omega) (by omega)
  have hmod : ((fatBegin img.bytes + 2 * fatSize img.bytes : ℕ) : ℤ) % 2^64 =
      (fatBegin img.bytes + 2 * fatSize img.bytes : ℕ) := by omega
  -- The read of the table gives all of it.
  have hread : SeekFile.fread ⟨img.bytes, fatBegin img.bytes⟩ (fatSize img.bytes) =
      (img.fat, ⟨img.bytes, fatBegin img.bytes + img.fat.length⟩) := rfl
  simp only [fatFsOpen, readField_eq, hbyts, hsec, hrsvd', hfatSz, hoffset,
    SeekFile.fseek_natCast]
  rw [except_bind_of_ok hn, if_neg hneg, except_bind_of_ok htwice, except_bind_of_ok haddr]
  refine ⟨_, rfl, (Nat.cast_mul _ _).symm, ?_, ?_, rfl⟩
  · simp only [Int.toNat_natCast, hread, img.length_fat, Nat.sub_self, List.replicate_zero,
      List.append_nil]
  · simp only [hmod, Int.toNat_natCast, Fat.clusterBegin, htwo]

/-- What it gives describes the image after any reads, too. -/
theorem describes_of_fatFsOpen {img : Image} (h : img.OpensRight) {fs : FatFs}
    (hopen : fatFsOpen img.bytes = .ok fs) (pos : ℕ) : (fs.readUpTo pos).Describes img := by
  obtain ⟨fs', hopen', hfs⟩ := h.exists_fatFsOpen
  obtain rfl := Except.ok.inj (hopen'.symm.trans hopen)
  exact hfs.readUpTo pos

/-! ## Two images -/

/-- A sector that starts with these bytes. -/
def sector (s : Bytes) : Bytes := s ++ List.replicate (512 - s.length) 0

/-- The first sector of an image of six sectors, with tables of one sector and clusters of one. -/
def bootSector (tables : UInt8) : Bytes :=
  sector (List.replicate 11 0 ++ leBytes 2 512 ++ [1] ++ leBytes 2 1 ++ [tables] ++
    List.replicate 15 0 ++ leBytes 4 6 ++ leBytes 4 1 ++ List.replicate 4 0 ++ leBytes 4 2)

/-- A table with these entries. -/
def tableSector (entries : List ℕ) : Bytes := sector (entries.flatMap (leBytes 4))

/-- The entry of a file in a directory, with these attributes, first cluster and size. -/
def fileEntryBytes (attr : UInt8) (cluster size : ℕ) : Bytes :=
  text "A       TXT" ++ [attr] ++ List.replicate 14 0 ++ leBytes 2 cluster ++ leBytes 4 size

/-- An image with three clusters: a directory with one entry, and a file of two clusters. -/
def smallBytes : Bytes :=
  bootSector 2 ++ tableSector [0xFFFFFF8, 0xFFFFFFF, 0xFFFFFF8, 4, 0xFFFFFF8] ++
  tableSector [0xFFFFFF8, 0xFFFFFFF, 0xFFFFFF8, 4, 0xFFFFFF8] ++
  sector (fileEntryBytes 33 3 1000) ++ List.replicate 512 65 ++ List.replicate 512 66

/-- It is one. -/
theorem isFat32_smallBytes : IsFat32 smallBytes := by
  constructor <;> decide +kernel

/-- The image. -/
def smallImage : Image := ⟨smallBytes, isFat32_smallBytes⟩

/-- `fat_fs_open` is right for it. -/
theorem opensRight_smallImage : smallImage.OpensRight := by
  constructor <;> decide +kernel

/-- `fat_fs_open` has a result. -/
theorem exists_fatFsOpen_smallBytes : ∃ fs, fatFsOpen smallBytes = .ok fs := by
  obtain ⟨fs, hopen, -⟩ := opensRight_smallImage.exists_fatFsOpen
  exact ⟨fs, hopen⟩

/-- An image with one table and four clusters: a directory with one entry, an empty cluster, the
cluster of the file of the entry, and a last one. -/
def oneTableBytes : Bytes :=
  bootSector 1 ++ tableSector [0xFFFFFF8, 0xFFFFFFF, 0xFFFFFF8, 0, 0xFFFFFF8, 0xFFFFFF8] ++
  sector (fileEntryBytes 32 4 500) ++ sector [] ++ List.replicate 512 65 ++ List.replicate 512 66

/-- It is one. -/
theorem isFat32_oneTableBytes : IsFat32 oneTableBytes := by
  constructor <;> decide +kernel

/-- The image. -/
def oneTableImage : Image := ⟨oneTableBytes, isFat32_oneTableBytes⟩

/-- `fat_fs_open` takes the clusters to begin a sector behind their place. -/
theorem exists_fatFsOpen_oneTableBytes : ∃ fs, fatFsOpen oneTableBytes = .ok fs ∧
    fs.clusterSize = 512 ∧ fs.clusterBeginAddr = clusterBegin oneTableBytes + 512 ∧
      fs.fp.bytes = oneTableBytes := by
  have hseen : (fatFsOpen oneTableBytes).map (fun fs =>
      (fs.clusterSize, fs.clusterBeginAddr, fs.fp.bytes)) =
        .ok (512, clusterBegin oneTableBytes + 512, oneTableBytes) := by
    decide +kernel
  obtain ⟨fs, hopen, hfs⟩ := except_map_eq_ok.mp hseen
  obtain ⟨hsize, hrest⟩ := Prod.mk.inj hfs
  obtain ⟨hbegin, hbytes⟩ := Prod.mk.inj hrest
  exact ⟨fs, hopen, hsize, hbegin, hbytes⟩

end MgCommonUtils.Fat
