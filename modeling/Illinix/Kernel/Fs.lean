import Illinix.Kernel.Buddy

/-! # The file system driver

`drivers/fs.c` over an image in memory: a boot block with the directory, the inodes, and
the data blocks.  Arrays of the image are functions from the index, so that an index past
the end of an array names what stands there in memory.  `lib/lib.c` compares names.

A copy of 2 GB or more runs into pages that are not present; the page fault handler then
loops for ever, which is `Fault.diverges`. -/

namespace Illinix.Kernel

open List

/-! ## Strings -/

/-- The bytes from a `char *` on, with the position of the first NUL. -/
structure CString where
  bytes : Nat → UInt8
  len : Nat
  nul : bytes len = 0
  body : ∀ i < len, bytes i ≠ 0

/-- A string constant of the source. -/
def CString.lit (chars : List UInt8) (body : 0 ∉ chars) : CString where
  bytes i := chars.getD i 0
  len := chars.length
  nul := by simp
  body i hi := by
    rw [getD_eq_getElem?_getD, getElem?_eq_getElem hi]
    exact fun zero => body (zero ▸ getElem_mem hi)

/-- `s1[i] - s2[i]` of signed characters. -/
def charDiff (a b : UInt8) : Int := a.toInt8.toInt - b.toInt8.toInt

def strncmpFrom (s1 s2 : Nat → UInt8) (i : Nat) : Nat → Int
  | 0 => 0
  | n + 1 =>
    if s1 i ≠ s2 i ∨ s1 i = 0 then
      charDiff (s1 i) (s2 i)
    else
      strncmpFrom s1 s2 (i + 1) n

def strncmp (s1 s2 : Nat → UInt8) (n : Nat) : Int := strncmpFrom s1 s2 0 n

/-- The loop of `strcmp` ends where the shorter string does. -/
def strcmpFrom (s1 s2 : Nat → UInt8) (i : Nat) : Nat → Int
  | 0 => 0
  | fuel + 1 =>
    if s1 i ≠ 0 ∧ s2 i ≠ 0 then
      if s1 i ≠ s2 i then charDiff (s1 i) (s2 i) else strcmpFrom s1 s2 (i + 1) fuel
    else
      0

def strcmp (s1 s2 : CString) : Int := strcmpFrom s1.bytes s2.bytes 0 (s1.len + 1)

/-! ## The image -/

def filesMax : Nat := 63

def fsBlockSize : Nat := 4096

def nameSize : Nat := 32

/-- `file_type_t` -/
inductive FileType where
  | rtc
  | directory
  | regular
  | terminal
deriving DecidableEq, Repr

/-- `dentry_t`, without the reserved bytes. -/
structure Dentry where
  fname : Nat → UInt8
  type : FileType
  inode : UInt32

/-- `inode_t`; a negative index is in the inode before. -/
structure Inode where
  size : UInt32
  dataBlock : Int → UInt32

structure FileSystem where
  nDir : UInt32
  nInode : UInt32
  nDatab : UInt32
  dirs : Nat → Dentry
  inodes : UInt32 → Inode
  /-- `data_block_addr[iblock].data[idx]` -/
  data : UInt32 → Int → UInt8

def readDentryByIndex (fs : FileSystem) (index : Nat) : Option Dentry :=
  if filesMax ≤ index ∨ fs.nDir.toNat ≤ index then none else some (fs.dirs index)

def readDentryByName (fs : FileSystem) (fname : Nat → UInt8) : Option Dentry :=
  match (range fs.nDir.toNat).find? fun i => strncmp fname (fs.dirs i).fname nameSize = 0 with
  | some i => readDentryByIndex fs i
  | none => none

/-! ## Reading -/

/-- `virtual_pos`; the block pointer is kept as its index. -/
structure VirtualPos where
  idx : Int32
  nblock : Int32
  iblock : UInt32

/-- The bytes that `memcpy(buf, &datab->data[idx], n)` stores. -/
def blockBytes (fs : FileSystem) (pos : VirtualPos) (n : Int32) : Except Fault (List UInt8) :=
  if n < 0 then
    throw .diverges
  else
    pure ((range n.toInt.toNat).map fun (k : Nat) => fs.data pos.iblock (pos.idx.toInt + k))

/-- `while (nread_needed)`; `false` when the next block number is out of range.  The bytes
    already stored come first. -/
def readLoop (fs : FileSystem) (file : Inode) :
    Nat → VirtualPos → Int32 → List UInt8 → Except Fault (Bool × List UInt8)
  | 0, _, _, _ => throw .diverges
  | fuel + 1, pos, nreadNeeded, out =>
    if nreadNeeded = 0 then
      pure (true, out)
    else do
      let nreadEach := 4096 - pos.idx
      if nreadNeeded ≤ nreadEach then
        return (true, out ++ (← blockBytes fs pos nreadNeeded))
      else
        let out := out ++ (← blockBytes fs pos nreadEach)
        let nblock := pos.nblock + 1
        let iblock := file.dataBlock nblock.toInt
        if fs.nDatab ≤ iblock then
          return (false, out)
        else
          readLoop fs file fuel ⟨0, nblock, iblock⟩ (nreadNeeded - nreadEach) out

/-- The value returned and the bytes stored from `buf` on; `buf` says whether the pointer
    is not `NULL`. -/
def readData (fs : FileSystem) (inode offset : UInt32) (buf : Bool) (length : UInt32) :
    Except Fault (Int32 × List UInt8) := do
  if fs.nInode ≤ inode then
    return (-1, [])
  else if !buf then
    return (-1, [])
  else
    let file := fs.inodes inode
    if file.size ≤ offset then
      return (0, [])
    else
      let phyPos := offset.toInt32
      let nblock := phyPos / 4096
      let pos : VirtualPos := ⟨phyPos % 4096, nblock, file.dataBlock nblock.toInt⟩
      let nbLeft := file.size - (nblock * 4096).toUInt32 - pos.idx.toUInt32
      let length := if nbLeft ≤ length then nbLeft else length
      let (done, out) ← readLoop fs file (length.toNat + 1) pos length.toInt32 []
      if done then return (length.toInt32, out) else return (-1, out)

end Illinix.Kernel
