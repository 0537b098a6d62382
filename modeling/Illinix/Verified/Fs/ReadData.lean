import Illinix.Kernel.Fs
import Illinix.Lib.Except

/-! # Reading the bytes of a file

`read_data` copies the requested bytes block by block.  Its counters are `int`, the lengths
`uint32_t`; for a file that fits into its inode none of them overflows, and the loop is one over
natural numbers. -/

namespace Illinix.Verified.Fs

open Kernel Lib List

/-- The byte at a position of a file. -/
def fileByte (fs : FileSystem) (file : Inode) (p : Nat) : UInt8 :=
  fs.data (file.dataBlock (p / fsBlockSize : Nat)) (p % fsBlockSize : Nat)

/-- `k` bytes from the position `p` on. -/
def slice (fs : FileSystem) (file : Inode) (p k : Nat) : List UInt8 :=
  (range' p k).map (fileByte fs file)

/-- The content of a file: its data blocks one after the other, up to its size. -/
def fileBytes (fs : FileSystem) (file : Inode) : List UInt8 :=
  ((range ((file.size.toNat + fsBlockSize - 1) / fsBlockSize)).flatMap fun (b : Nat) =>
    (range fsBlockSize).map fun (i : Nat) => fs.data (file.dataBlock b) i).take file.size.toNat

section

variable {fs : FileSystem} {file : Inode}

theorem slice_add (p a b : Nat) : slice fs file p (a + b) = slice fs file p a ++ slice fs file (p + a) b := by
  unfold slice
  rw [← range'_append_1, map_append]

theorem slice_block {b i k : Nat} (inside : i + k ≤ fsBlockSize) :
    slice fs file (b * fsBlockSize + i) k =
      (range k).map fun (j : Nat) => fs.data (file.dataBlock b) (i + j : Nat) := by
  unfold slice
  rw [range'_eq_map_range, map_map]
  apply map_congr_left
  intro j hj
  have bound := mem_range.mp hj
  have block : (b * fsBlockSize + i + j) / fsBlockSize = b := by
    unfold fsBlockSize at *
    omega
  have index : (b * fsBlockSize + i + j) % fsBlockSize = i + j := by
    unfold fsBlockSize at *
    omega
  change fs.data (file.dataBlock ((b * fsBlockSize + i + j) / fsBlockSize : Nat)) _ = _
  rw [block, index]

theorem blocks_eq (n : Nat) : ((range n).flatMap fun (b : Nat) =>
      (range fsBlockSize).map fun (i : Nat) => fs.data (file.dataBlock b) i) =
      slice fs file 0 (n * fsBlockSize) := by
  induction n with
  | zero =>
    rfl
  | succ n ih =>
    have last := @slice_block fs file n 0 fsBlockSize (Nat.le_of_eq (Nat.zero_add _))
    simp only [Nat.zero_add, Nat.add_zero] at last
    rw [range_succ, flatMap_append, ih, flatMap_singleton, Nat.add_mul, Nat.one_mul, slice_add,
      Nat.zero_add, last]

theorem slice_length (p k : Nat) : (slice fs file p k).length = k := by
  unfold slice
  rw [length_map, length_range']

theorem slice_take (p k n : Nat) : (slice fs file p k).take n = slice fs file p (min n k) := by
  unfold slice
  rw [← map_take]
  cases Nat.le_total n k with
  | inl fewer => rw [take_range'_of_length_ge fewer, Nat.min_eq_left fewer]
  | inr more => rw [take_range'_of_length_le more, Nat.min_eq_right more]

theorem slice_drop (p k n : Nat) : (slice fs file p k).drop n = slice fs file (p + n) (k - n) := by
  unfold slice
  rw [← map_drop, drop_range', Nat.mul_one]

theorem fileBytes_eq : fileBytes fs file = slice fs file 0 file.size.toNat := by
  unfold fileBytes
  rw [blocks_eq, slice_take, Nat.min_eq_left]
  unfold fsBlockSize
  omega

end

/-! ## Machine words -/

section

theorem ofNat_div {a b : Nat} (ha : a < 2 ^ 31) (hb : b < 2 ^ 31) :
    Int32.ofNat a / Int32.ofNat b = Int32.ofNat (a / b) := by
  have le := Nat.div_le_self a b
  have small : Int32.ofNat a ≠ Int32.minValue := by
    intro same
    have value := congrArg Int32.toInt same
    rw [Int32.toInt_ofNat_of_lt ha] at value
    change (a : Int) = -2 ^ 31 at value
    omega
  apply Int32.toInt_inj.mp
  rw [Int32.toInt_div_of_ne_left _ _ small, Int32.toInt_ofNat_of_lt ha, Int32.toInt_ofNat_of_lt hb,
    Int32.toInt_ofNat_of_lt (by omega)]
  exact (Int.ofNat_tdiv a b).symm

theorem ofNat_mod {a b : Nat} (ha : a < 2 ^ 31) (hb : b < 2 ^ 31) :
    Int32.ofNat a % Int32.ofNat b = Int32.ofNat (a % b) := by
  have le := Nat.mod_le a b
  apply Int32.toInt_inj.mp
  rw [Int32.toInt_mod, Int32.toInt_ofNat_of_lt ha, Int32.toInt_ofNat_of_lt hb,
    Int32.toInt_ofNat_of_lt (by omega)]
  exact (Int.ofNat_tmod a b).symm

theorem ofNat_le {a b : Nat} (ha : a < 2 ^ 31) (hb : b < 2 ^ 31) : Int32.ofNat a ≤ Int32.ofNat b ↔ a ≤ b := by
  rw [Int32.le_iff_toInt_le, Int32.toInt_ofNat_of_lt ha, Int32.toInt_ofNat_of_lt hb, Int.ofNat_le]

theorem ofNat_eq_zero {a : Nat} (ha : a < 2 ^ 31) : Int32.ofNat a = 0 ↔ a = 0 := by
  rw [← Int32.toInt_inj, Int32.toInt_ofNat_of_lt ha]
  change (a : Int) = 0 ↔ a = 0
  omega

end

/-! ## The loop -/

section

variable {fs : FileSystem} {file : Inode}

/-- The position `i` of the block `b` of a file. -/
def filePos (file : Inode) (b i : Nat) : VirtualPos := ⟨Int32.ofNat i, Int32.ofNat b, file.dataBlock b⟩

theorem blockBytes_eq {b i k : Nat} (hk : k < 2 ^ 31) (inside : i + k ≤ fsBlockSize) :
    blockBytes fs (filePos file b i) (Int32.ofNat k) = .ok (slice fs file (b * fsBlockSize + i) k) := by
  have value := Int32.toInt_ofNat_of_lt hk
  have index : (Int32.ofNat i).toInt = i := by
    apply Int32.toInt_ofNat_of_lt
    unfold fsBlockSize at inside
    omega
  have positive : ¬ Int32.ofNat k < 0 := by
    rw [Int32.lt_iff_toInt_lt, value]
    change ¬ (k : Int) < 0
    omega
  unfold blockBytes
  rw [if_neg positive, value, slice_block inside]
  apply congrArg
  apply map_congr_left
  intro j _
  change fs.data (file.dataBlock b) ((Int32.ofNat i).toInt + j) = _
  rw [index]
  rfl

theorem readLoop_succ {b i k fuel : Nat} {out : List UInt8} (hi : i < fsBlockSize) (hk : k < 2 ^ 31)
    (hb : b + 1 < 2 ^ 31) :
    readLoop fs file (fuel + 1) (filePos file b i) (Int32.ofNat k) out = if k ≤ fsBlockSize - i then
        .ok (true, out ++ slice fs file (b * fsBlockSize + i) k)
      else if fs.nDatab ≤ file.dataBlock (b + 1 : Nat) then
        .ok (false, out ++ slice fs file (b * fsBlockSize + i) (fsBlockSize - i))
      else
        readLoop fs file fuel (filePos file (b + 1) 0) (Int32.ofNat (k - (fsBlockSize - i)))
          (out ++ slice fs file (b * fsBlockSize + i) (fsBlockSize - i)) := by
  have each : (4096 : Int32) - Int32.ofNat i = Int32.ofNat (fsBlockSize - i) := by
    rw [Int32.ofNat_sub _ _ (Nat.le_of_lt hi)]
    rfl
  have next : Int32.ofNat b + 1 = Int32.ofNat (b + 1) := by
    rw [Int32.ofNat_add]
    rfl
  have block : (Int32.ofNat (b + 1)).toInt = (b + 1 : Nat) := Int32.toInt_ofNat_of_lt hb
  have room : fsBlockSize - i < 2 ^ 31 := by
    unfold fsBlockSize
    omega
  have whole : k ≤ fsBlockSize - i → i + k ≤ fsBlockSize := fun fits => by omega
  have rest : i + (fsBlockSize - i) ≤ fsBlockSize := by omega
  rw [readLoop]
  by_cases none : k = 0
  · rw [if_pos ((ofNat_eq_zero hk).mpr none), none, if_pos (Nat.zero_le _)]
    unfold slice
    rw [range'_zero, map_nil, append_nil]
    rfl
  · rw [if_neg fun zero => none ((ofNat_eq_zero hk).mp zero)]
    simp only [show (filePos file b i).idx = Int32.ofNat i from rfl,
      show (filePos file b i).nblock = Int32.ofNat b from rfl, each, next, block, ofNat_le hk room]
    by_cases fits : k ≤ fsBlockSize - i
    · rw [if_pos fits, if_pos fits, blockBytes_eq hk (whole fits)]
      rfl
    · rw [if_neg fits, if_neg fits, blockBytes_eq room rest, ok_bind,
        ← Int32.ofNat_sub _ _ (Nat.le_of_not_le fits)]
      rfl

/-- The block numbers that the loop looks up for `k` bytes from position `i` of the block `b` on
    are in range. -/
def LaterOk (fs : FileSystem) (file : Inode) (b i k : Nat) : Prop :=
  ∀ c : Nat, b < c → c * fsBlockSize < b * fsBlockSize + i + k → file.dataBlock c < fs.nDatab

/-- The whole loop: it copies all bytes, or stops at a block number that is out of range. -/
theorem readLoop_spec {b i k fuel : Nat} {out : List UInt8} (hi : i < fsBlockSize) (hk : k < fuel)
    (bound : b + k + 1 < 2 ^ 31) :
    (LaterOk fs file b i k → readLoop fs file fuel (filePos file b i) (Int32.ofNat k) out =
      .ok (true, out ++ slice fs file (b * fsBlockSize + i) k)) ∧
    (¬ LaterOk fs file b i k →
      ∃ bytes, readLoop fs file fuel (filePos file b i) (Int32.ofNat k) out = .ok (false, bytes)) := by
  induction fuel generalizing b i k out with
  | zero => cases hk
  | succ fuel ih =>
    rw [readLoop_succ hi (by omega) (by omega)]
    by_cases fits : k ≤ fsBlockSize - i
    · rw [if_pos fits]
      refine ⟨fun _ => rfl, fun bad => absurd (fun c later needed => ?_) bad⟩
      -- no block after the first is needed
      have step : (b + 1) * fsBlockSize ≤ c * fsBlockSize := Nat.mul_le_mul_right _ later
      rw [Nat.add_mul, Nat.one_mul] at step
      omega
    · rw [if_neg fits]
      have split : k = (fsBlockSize - i) + (k - (fsBlockSize - i)) := by omega
      have start : b * fsBlockSize + i + (fsBlockSize - i) = (b + 1) * fsBlockSize + 0 := by
        rw [Nat.add_mul]
        omega
      have positive : 0 < fsBlockSize := by decide
      obtain ⟨copies, stops⟩ := @ih (b + 1) 0 (k - (fsBlockSize - i))
        (out ++ slice fs file (b * fsBlockSize + i) (fsBlockSize - i)) positive (by omega) (by omega)
      by_cases bad : fs.nDatab ≤ file.dataBlock (b + 1 : Nat)
      · rw [if_pos bad]
        refine ⟨fun ok => ?_, fun _ => ⟨_, rfl⟩⟩
        have fine := ok (b + 1) (Nat.lt_succ_self b) (by omega)
        exact absurd bad (UInt32.not_le.mpr fine)
      · rw [if_neg bad]
        have same : LaterOk fs file b i k ↔ LaterOk fs file (b + 1) 0 (k - (fsBlockSize - i)) := by
          constructor
          · intro ok c later needed
            exact ok c (by omega) (by omega)
          · intro ok c later needed
            by_cases next : c = b + 1
            · rw [next]
              exact UInt32.not_le.mp bad
            · exact ok c (by omega) (by omega)
        rw [same]
        refine ⟨fun ok => ?_, stops⟩
        rw [copies ok, append_assoc, ← start, ← slice_add, ← split]

end

/-! ## The call -/

/-- The inode exists, and the size of the file does not exceed what an inode can describe. -/
structure InodeOk (fs : FileSystem) (inode : UInt32) : Prop where
  valid : inode < fs.nInode
  size : (fs.inodes inode).size.toNat ≤ 1023 * fsBlockSize

/-- The number of bytes that a call delivers. -/
def readCount (file : Inode) (offset length : UInt32) : Nat :=
  min length.toNat (file.size.toNat - offset.toNat)

section

variable {fs : FileSystem} {inode offset length : UInt32}

theorem readData_loop (ok : InodeOk fs inode) (inside : offset < (fs.inodes inode).size) :
    readData fs inode offset true length = (do
      let (done, out) ← readLoop fs (fs.inodes inode) (readCount (fs.inodes inode) offset length + 1)
        (filePos (fs.inodes inode) (offset.toNat / fsBlockSize) (offset.toNat % fsBlockSize))
        (Int32.ofNat (readCount (fs.inodes inode) offset length)) []
      if done then return (Int32.ofNat (readCount (fs.inodes inode) offset length), out) else return (-1, out)) := by
  have size := ok.size
  have bound : offset.toNat < (fs.inodes inode).size.toNat := UInt32.lt_iff_toNat_lt.mp inside
  have small : offset.toNat < 2 ^ 31 := by
    unfold fsBlockSize at size
    omega
  have phyPos : offset.toInt32 = Int32.ofNat offset.toNat := by
    rw [← UInt32.toInt32_ofNat', UInt32.ofNat_toNat]
  have nblock : Int32.ofNat offset.toNat / 4096 = Int32.ofNat (offset.toNat / fsBlockSize) :=
    ofNat_div small (by decide)
  have idx : Int32.ofNat offset.toNat % 4096 = Int32.ofNat (offset.toNat % fsBlockSize) :=
    ofNat_mod small (by decide)
  have left : ((fs.inodes inode).size - (Int32.ofNat (offset.toNat / fsBlockSize) * 4096).toUInt32 -
      (Int32.ofNat (offset.toNat % fsBlockSize)).toUInt32).toNat =
      (fs.inodes inode).size.toNat - offset.toNat := by
    have first : (Int32.ofNat (offset.toNat / fsBlockSize) * 4096).toUInt32 =
        UInt32.ofNat (offset.toNat / fsBlockSize * fsBlockSize) := by
      rw [← Int32.toUInt32_ofNat', Int32.ofNat_mul]
      rfl
    have blocks : (UInt32.ofNat (offset.toNat / fsBlockSize * fsBlockSize)).toNat =
        offset.toNat / fsBlockSize * fsBlockSize := by
      apply UInt32.toNat_ofNat_of_lt'
      unfold fsBlockSize
      change _ < 2 ^ 32
      omega
    have rest : (UInt32.ofNat (offset.toNat % fsBlockSize)).toNat = offset.toNat % fsBlockSize := by
      apply UInt32.toNat_ofNat_of_lt'
      unfold fsBlockSize
      change _ < 2 ^ 32
      omega
    have whole : offset.toNat / fsBlockSize * fsBlockSize + offset.toNat % fsBlockSize = offset.toNat :=
      Nat.div_add_mod' _ _
    have outer : ((fs.inodes inode).size - UInt32.ofNat (offset.toNat / fsBlockSize * fsBlockSize)).toNat =
        (fs.inodes inode).size.toNat - offset.toNat / fsBlockSize * fsBlockSize := by
      rw [UInt32.toNat_sub_of_le _ _ (UInt32.le_iff_toNat_le.mpr (by omega)), blocks]
    rw [first, Int32.toUInt32_ofNat', UInt32.toNat_sub_of_le _ _ (UInt32.le_iff_toNat_le.mpr (by omega)), outer,
      rest]
    omega
  unfold readData
  rw [if_neg (UInt32.not_le.mpr ok.valid), if_neg (by decide)]
  simp only [if_neg (UInt32.not_le.mpr inside), phyPos, nblock, idx]
  generalize (fs.inodes inode).size - (Int32.ofNat (offset.toNat / fsBlockSize) * 4096).toUInt32 -
    (Int32.ofNat (offset.toNat % fsBlockSize)).toUInt32 = nbLeft at left
  have count : (if nbLeft ≤ length then nbLeft else length).toNat = readCount (fs.inodes inode) offset length := by
    unfold readCount
    rw [← left]
    split
    · next fewer => exact (Nat.min_eq_right (UInt32.le_iff_toNat_le.mp fewer)).symm
    · next more => exact (Nat.min_eq_left (Nat.le_of_lt (UInt32.lt_iff_toNat_lt.mp (UInt32.not_le.mp more)))).symm
  generalize (if nbLeft ≤ length then nbLeft else length) = wanted at count
  have needed : wanted.toInt32 = Int32.ofNat (readCount (fs.inodes inode) offset length) := by
    rw [← count, ← UInt32.toInt32_ofNat', UInt32.ofNat_toNat]
  have block : (Int32.ofNat (offset.toNat / fsBlockSize)).toInt = (offset.toNat / fsBlockSize : Nat) :=
    Int32.toInt_ofNat_of_lt (Nat.lt_of_le_of_lt (Nat.div_le_self _ _) small)
  rw [needed, count, block]
  rfl

theorem readCount_le (file : Inode) (offset length : UInt32) :
    readCount file offset length ≤ file.size.toNat - offset.toNat := Nat.min_le_right _ _

theorem readCount_lt (ok : InodeOk fs inode) (offset length : UInt32) :
    readCount (fs.inodes inode) offset length < 2 ^ 31 := by
  have size := ok.size
  have few := readCount_le (fs.inodes inode) offset length
  unfold fsBlockSize at size
  omega

/-- The block numbers that the requested bytes need, after the first, are in range. -/
def LaterBlocksOk (fs : FileSystem) (inode offset length : UInt32) : Prop :=
  LaterOk fs (fs.inodes inode) (offset.toNat / fsBlockSize) (offset.toNat % fsBlockSize)
    (readCount (fs.inodes inode) offset length)

/-- A call inside of the file delivers the bytes, or -1 at a block number that is out of range. -/
theorem readData_spec (ok : InodeOk fs inode) (inside : offset < (fs.inodes inode).size) :
    (LaterBlocksOk fs inode offset length → readData fs inode offset true length =
      .ok (Int32.ofNat (readCount (fs.inodes inode) offset length),
        slice fs (fs.inodes inode) offset.toNat (readCount (fs.inodes inode) offset length))) ∧
    (¬ LaterBlocksOk fs inode offset length → ∃ bytes, readData fs inode offset true length = .ok (-1, bytes)) := by
  have size := ok.size
  have few := readCount_le (fs.inodes inode) offset length
  have bound : offset.toNat < (fs.inodes inode).size.toNat := UInt32.lt_iff_toNat_lt.mp inside
  have start : offset.toNat / fsBlockSize * fsBlockSize + offset.toNat % fsBlockSize = offset.toNat :=
    Nat.div_add_mod' _ _
  have index : offset.toNat % fsBlockSize < fsBlockSize := Nat.mod_lt _ (by decide)
  have few_blocks : offset.toNat / fsBlockSize + readCount (fs.inodes inode) offset length + 1 < 2 ^ 31 := by
    unfold fsBlockSize at *
    omega
  obtain ⟨copies, stops⟩ := @readLoop_spec fs (fs.inodes inode) _ _ _ _ [] index (Nat.lt_succ_self _) few_blocks
  rw [readData_loop ok inside]
  constructor
  · intro fine
    rw [copies fine, start, ok_bind]
    rfl
  · intro bad
    obtain ⟨bytes, stopped⟩ := stops bad
    refine ⟨bytes, ?_⟩
    rw [stopped]
    rfl

theorem readData_outside (ok : InodeOk fs inode) (outside : (fs.inodes inode).size ≤ offset) :
    readData fs inode offset true length = .ok (0, []) := by
  unfold readData
  rw [if_neg (UInt32.not_le.mpr ok.valid), if_neg (by decide)]
  simp only [if_pos outside]
  rfl

end

/-- Every block number that the file needs is in range. -/
structure FileOk (fs : FileSystem) (inode : UInt32) : Prop extends InodeOk fs inode where
  blocks : ∀ b : Nat, b * fsBlockSize < (fs.inodes inode).size.toNat →
    (fs.inodes inode).dataBlock b < fs.nDatab

section

variable {fs : FileSystem} {inode : UInt32}

theorem readData_file (ok : FileOk fs inode) (offset length : UInt32) :
    readData fs inode offset true length = .ok (Int32.ofNat (readCount (fs.inodes inode) offset length),
        ((fileBytes fs (fs.inodes inode)).drop offset.toNat).take length.toNat) := by
  rw [fileBytes_eq, slice_drop, slice_take, Nat.zero_add]
  by_cases inside : offset < (fs.inodes inode).size
  · have few := readCount_le (fs.inodes inode) offset length
    have bound := UInt32.lt_iff_toNat_lt.mp inside
    have start : offset.toNat / fsBlockSize * fsBlockSize + offset.toNat % fsBlockSize = offset.toNat :=
      Nat.div_add_mod' _ _
    have fine : LaterBlocksOk fs inode offset length := by
      intro c _ needed
      apply ok.blocks
      omega
    exact (readData_spec ok.toInodeOk inside).1 fine
  · have outside := UInt32.not_lt.mp inside
    have none : (fs.inodes inode).size.toNat - offset.toNat = 0 :=
      Nat.sub_eq_zero_of_le (UInt32.le_iff_toNat_le.mp outside)
    rw [readData_outside ok.toInodeOk outside, readCount, none, Nat.min_zero]
    rfl

end

/-- `read_data` of a well-formed file delivers the bytes of the file from the offset on, as many as
    were asked for and are there. -/
theorem read_data_slices {fs : FileSystem} {inode : UInt32} (ok : FileOk fs inode) (offset length : UInt32) :
    ∃ r, readData fs inode offset true length =
        .ok (r, ((fileBytes fs (fs.inodes inode)).drop offset.toNat).take length.toNat) ∧
      r.toInt = (min length.toNat ((fs.inodes inode).size.toNat - offset.toNat) : Nat) := by
  refine ⟨_, readData_file ok offset length, ?_⟩
  exact Int32.toInt_ofNat_of_lt (readCount_lt ok.toInodeOk offset length)

/-- One file of three bytes. -/
def threeBytes : FileSystem where
  nDir := 0
  nInode := 1
  nDatab := 1
  dirs _ := ⟨fun _ => 0, .regular, 0⟩
  inodes _ := ⟨3, fun _ => 0⟩
  data _ i := UInt8.ofNat i.toNat

theorem threeBytes_ok : FileOk threeBytes 0 where
  valid := by decide
  size := by decide
  blocks _ _ := show (0 : UInt32) < 1 by decide

theorem read_data_slices_tail : ∃ r, readData threeBytes 0 1 true 10 =
      .ok (r, ((fileBytes threeBytes (threeBytes.inodes 0)).drop 1).take 10) ∧
    r.toInt = (min 10 (3 - 1) : Nat) := read_data_slices threeBytes_ok 1 10

/-! ## Block numbers out of range -/

/-- The bytes asked for, as far as the file has them, need a block whose number is out of range. -/
def NeedsBad (fs : FileSystem) (inode offset length : UInt32) : Prop :=
  ∃ b : Nat, offset.toNat / fsBlockSize ≤ b ∧
    b * fsBlockSize < offset.toNat + readCount (fs.inodes inode) offset length ∧
    fs.nDatab ≤ (fs.inodes inode).dataBlock b

/-- A call finds every bad block number, and what stands at such a number does not matter: the call
    does not read it. -/
def DetectsBad (fs : FileSystem) (inode offset length : UInt32) : Prop :=
  ∃ n bytes, readData fs inode offset true length = .ok (n, bytes) ∧
    (NeedsBad fs inode offset length → n = -1) ∧ (¬ NeedsBad fs inode offset length → 0 ≤ n) ∧
    ∀ data, (∀ b < fs.nDatab, data b = fs.data b) →
      readData { fs with data := data } inode offset true length = .ok (n, bytes)

section

variable {fs : FileSystem} {file : Inode} {inode offset length : UInt32}

/-- From a block in range on, the loop does not read any other. -/
theorem readLoop_congr {data : UInt32 → Int → UInt8} (same : ∀ b < fs.nDatab, data b = fs.data b)
    {pos : VirtualPos} (fine : pos.iblock < fs.nDatab) {fuel : Nat} {k : Int32} {out : List UInt8} :
    readLoop { fs with data := data } file fuel pos k out = readLoop fs file fuel pos k out := by
  have block (n : Int32) {pos : VirtualPos} (fine : pos.iblock < fs.nDatab) :
      blockBytes { fs with data := data } pos n = blockBytes fs pos n := by
    simp only [blockBytes, same _ fine]
  induction fuel generalizing pos k out with
  | zero => rfl
  | succ fuel ih =>
    simp only [readLoop, block _ fine]
    -- the next block is read only if its number is in range
    by_cases next : fs.nDatab ≤ file.dataBlock (pos.nblock + 1).toInt
    · simp only [if_pos next]
    · simp only [if_neg next, @ih ⟨0, pos.nblock + 1, _⟩ (UInt32.not_le.mp next)]

/-- The loop only appends to the bytes stored before. -/
theorem readLoop_out {fuel : Nat} {pos : VirtualPos} {k : Int32} {out bytes : List UInt8} {r : Bool}
    (done : readLoop fs file fuel pos k out = .ok (r, bytes)) : out <+: bytes := by
  induction fuel generalizing pos k out with
  | zero => cases done
  | succ fuel ih =>
    simp only [readLoop] at done
    split at done
    · cases done
      exact prefix_rfl
    · split at done
      · obtain ⟨last, _, done⟩ := bind_eq_ok.mp done
        cases done
        exact prefix_append _ _
      · obtain ⟨block, _, done⟩ := bind_eq_ok.mp done
        apply (prefix_append out block).trans
        split at done
        · cases done
          exact prefix_rfl
        · exact ih done

/-- The first byte stored comes from the block of the offset, whatever its number. -/
theorem readLoop_head {fuel b i k : Nat} {bytes : List UInt8} {r : Bool} (hi : i < fsBlockSize) (hk : k < 2 ^ 31)
    (hb : b + 1 < 2 ^ 31) (asked : 0 < k)
    (done : readLoop fs file (fuel + 1) (filePos file b i) (Int32.ofNat k) [] = .ok (r, bytes)) :
    bytes.head? = some (fileByte fs file (b * fsBlockSize + i)) := by
  have head (n : Nat) (positive : 0 < n) {rest : List UInt8}
      (first : slice fs file (b * fsBlockSize + i) n <+: rest) :
      rest.head? = some (fileByte fs file (b * fsBlockSize + i)) := by
    obtain ⟨m, rfl⟩ := Nat.exists_eq_succ_of_ne_zero (Nat.ne_of_gt positive)
    obtain ⟨tail, rfl⟩ := first
    rfl
  rw [readLoop_succ hi hk hb, nil_append, nil_append] at done
  have room : 0 < fsBlockSize - i := Nat.sub_pos_of_lt hi
  split at done
  · cases done
    exact head k asked prefix_rfl
  · split at done
    · cases done
      exact head _ room prefix_rfl
    · exact head _ room (readLoop_out done)

/-- The number of the first block that the call reads. -/
def firstBlock (fs : FileSystem) (inode offset : UInt32) : UInt32 :=
  (fs.inodes inode).dataBlock (offset.toNat / fsBlockSize : Nat)

theorem readData_congr {data : UInt32 → Int → UInt8} (same : ∀ b < fs.nDatab, data b = fs.data b)
    (ok : InodeOk fs inode) (inside : offset < (fs.inodes inode).size)
    (first : firstBlock fs inode offset < fs.nDatab) :
    readData { fs with data := data } inode offset true length = readData fs inode offset true length := by
  have ok' : InodeOk { fs with data := data } inode := ⟨ok.valid, ok.size⟩
  rw [readData_loop ok inside, readData_loop ok' inside]
  exact congrArg (· >>= _) (readLoop_congr same first)

theorem readData_head (ok : InodeOk fs inode) (inside : offset < (fs.inodes inode).size) (asked : 0 < length)
    {n : Int32} {bytes : List UInt8} (done : readData fs inode offset true length = .ok (n, bytes)) :
    bytes.head? = some (fileByte fs (fs.inodes inode) offset.toNat) := by
  have size := ok.size
  have blocks := Nat.div_le_self offset.toNat fsBlockSize
  have bound := UInt32.lt_iff_toNat_lt.mp inside
  have positive : 0 < readCount (fs.inodes inode) offset length :=
    Nat.lt_min.mpr ⟨UInt32.lt_iff_toNat_lt.mp asked, Nat.sub_pos_of_lt bound⟩
  unfold fsBlockSize at size
  rw [readData_loop ok inside] at done
  obtain ⟨⟨r, out⟩, loop, done⟩ := bind_eq_ok.mp done
  have stored : out = bytes := by
    cases r with
    | true =>
      cases done
      rfl
    | false =>
      cases done
      rfl
  have head := readLoop_head (Nat.mod_lt _ (by decide)) (readCount_lt ok offset length) (by omega) positive loop
  rw [Nat.div_add_mod', stored] at head
  exact head

theorem needsBad_of_later (bad : ¬ LaterBlocksOk fs inode offset length) : NeedsBad fs inode offset length := by
  by_contra good
  apply bad
  intro b later needed
  rw [Nat.div_add_mod'] at needed
  by_contra out
  exact good ⟨b, Nat.le_of_lt later, needed, UInt32.not_lt.mp out⟩

theorem later_of_needsBad (first : firstBlock fs inode offset < fs.nDatab) (bad : NeedsBad fs inode offset length) :
    ¬ LaterBlocksOk fs inode offset length := by
  obtain ⟨b, onward, needed, out⟩ := bad
  intro fine
  rcases Nat.lt_or_eq_of_le onward with later | same
  · have block := fine b later (by rw [Nat.div_add_mod']; exact needed)
    exact UInt32.not_le.mpr block out
  · rw [← same] at out
    exact UInt32.not_le.mpr first out

end

/-- `read_data` finds the bad block numbers if and only if the block that it starts in is none:
    it does not compare the first block number with `n_datab`. -/
theorem bad_block_detected_iff {fs : FileSystem} {inode offset length : UInt32} (ok : InodeOk fs inode)
    (inside : offset < (fs.inodes inode).size) (asked : 0 < length) :
    DetectsBad fs inode offset length ↔ firstBlock fs inode offset < fs.nDatab := by
  constructor
  · rintro ⟨n, bytes, done, -, -, unread⟩
    by_contra bad
    -- other bytes in the blocks out of range would be delivered
    let data (b : UInt32) (i : Int) : UInt8 :=
      if b < fs.nDatab then fs.data b i else if fs.data b i = 0 then 1 else 0
    have done' := unread data fun b fine => funext fun i => if_pos fine
    have ok' : InodeOk { fs with data := data } inode := ⟨ok.valid, ok.size⟩
    have head := readData_head ok inside asked done
    rw [readData_head ok' inside asked done', Option.some.injEq] at head
    unfold fileByte at head
    unfold firstBlock at bad
    simp only [data, if_neg bad] at head
    split at head
    · next zero =>
      rw [zero] at head
      exact absurd head (by decide)
    · next nonzero => exact nonzero head.symm
  · intro first
    have spec := @readData_spec _ _ _ length ok inside
    by_cases fine : LaterBlocksOk fs inode offset length
    · refine ⟨_, _, spec.1 fine, fun bad => absurd fine (later_of_needsBad first bad), fun _ => ?_, fun data same => ?_⟩
      · rw [Int32.le_iff_toInt_le, Int32.toInt_ofNat_of_lt (readCount_lt ok offset length)]
        exact Int.natCast_nonneg _
      · rw [readData_congr same ok inside first, spec.1 fine]
    · obtain ⟨bytes, done⟩ := spec.2 fine
      refine ⟨-1, bytes, done, fun _ => rfl, fun good => absurd (needsBad_of_later fine) good, fun data same => ?_⟩
      rw [readData_congr same ok inside first, done]

/-- The image with one file of two blocks, the second of which is out of range. -/
def straySecond : FileSystem := { threeBytes with inodes := fun _ => ⟨5000, fun b => if b = 0 then 0 else 7⟩ }

theorem bad_block_detected_second : NeedsBad straySecond 0 1 4999 ∧ DetectsBad straySecond 0 1 4999 :=
  ⟨⟨1, by decide, by decide, by decide⟩,
    (bad_block_detected_iff ⟨by decide, by decide⟩ (by decide) (by decide)).mpr (by decide)⟩

/-- The image with one file whose only block number is out of range. -/
def strayBlock : FileSystem := { threeBytes with inodes := fun _ => ⟨3, fun _ => 7⟩ }

theorem stray_block_read : readData strayBlock 0 1 true 10 = .ok (2, [1, 2]) ∧ NeedsBad strayBlock 0 1 10 ∧
    ¬ DetectsBad strayBlock 0 1 10 := by
  have done : readData strayBlock 0 1 true 10 = .ok (2, [1, 2]) := by decide +kernel
  have bad : NeedsBad strayBlock 0 1 10 := ⟨0, by decide, by decide, by decide⟩
  refine ⟨done, bad, ?_⟩
  rintro ⟨n, bytes, other, found, -⟩
  rw [done, found bad] at other
  cases other

end Illinix.Verified.Fs
