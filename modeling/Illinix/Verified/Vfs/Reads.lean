import Illinix.Kernel.Vfs
import Illinix.Verified.Fs.ReadData

/-! # Sequential reads

`file_read` moves the position of its descriptor by what `read_data` delivered.  Whatever the
order in which the descriptors of a process are read, each delivers its file from the start. -/

namespace Illinix.Verified.Vfs

open Kernel Lib Verified.Fs List Function

/-- A call of `file_read`: the descriptor and the number of bytes. -/
structure ReadCall where
  fd : Nat
  nbytes : Int32

/-- A call with what it returned and the bytes that it stored. -/
structure Reading extends ReadCall where
  ret : Int
  bytes : List UInt8

/-- The calls one after the other, each with its own buffer. -/
def fileReads (fs : FileSystem) (t : Files) : List ReadCall → Except Fault (Files × List Reading)
  | [] => pure (t, [])
  | call :: calls => do
    let (t, ret, bytes) ← fileReadBytes fs t call.fd true call.nbytes
    let (t, log) ← fileReads fs t calls
    return (t, ⟨call, ret, bytes⟩ :: log)

/-- The bytes delivered on a descriptor. -/
def delivered (log : List Reading) (fd : Nat) : List UInt8 :=
  (log.filter (·.fd = fd)).flatMap (·.bytes)

/-- The number of bytes that the calls on a descriptor ask for. -/
def asked (calls : List ReadCall) (fd : Nat) : Nat :=
  ((calls.filter (·.fd = fd)).map (·.nbytes.toInt.toNat)).sum

/-- The content of the file that a descriptor refers to. -/
def content (fs : FileSystem) (t : Files) (fd : Nat) : List UInt8 :=
  fileBytes fs (fs.inodes (t.fd fd).fDentry.inode)

/-- The descriptor is open on a well-formed file. -/
structure Readable (fs : FileSystem) (t : Files) (fd : Nat) : Prop where
  inUse : (t.fd fd).fCount ≠ 0
  file : FileOk fs (t.fd fd).fDentry.inode
  pos : (t.fd fd).fPos.toNat ≤ (content fs t fd).length

/-! ## One call -/

section

variable {fs : FileSystem} {t : Files} {fd : Nat}

theorem content_length (fs : FileSystem) (t : Files) (fd : Nat) :
    (content fs t fd).length = (fs.inodes (t.fd fd).fDentry.inode).size.toNat := by
  unfold content
  rw [fileBytes_eq, slice_length]

/-- The table after `bytes` were delivered on the descriptor. -/
def advance (t : Files) (fd : Nat) (bytes : List UInt8) : Files :=
  { t with fd := update t.fd fd { t.fd fd with fPos := (t.fd fd).fPos + UInt32.ofNat bytes.length } }

@[simp] theorem advance_dentry (bytes : List UInt8) (other : Nat) :
    ((advance t fd bytes).fd other).fDentry = (t.fd other).fDentry := by
  by_cases same : other = fd
  · subst same
    simp [advance]
  · simp [advance, same]

@[simp] theorem advance_count (bytes : List UInt8) (other : Nat) :
    ((advance t fd bytes).fd other).fCount = (t.fd other).fCount := by
  by_cases same : other = fd
  · subst same
    simp [advance]
  · simp [advance, same]

@[simp] theorem advance_content (bytes : List UInt8) (other : Nat) :
    content fs (advance t fd bytes) other = content fs t other := by
  simp [content]

theorem advance_other {bytes : List UInt8} {other : Nat} (ne : other ≠ fd) :
    (advance t fd bytes).fd other = t.fd other := by
  simp [advance, ne]

/-- The bytes that a call delivers. -/
def nextBytes (fs : FileSystem) (t : Files) (call : ReadCall) : List UInt8 :=
  ((content fs t call.fd).drop (t.fd call.fd).fPos.toNat).take call.nbytes.toInt.toNat

theorem nextBytes_length (fs : FileSystem) (t : Files) (call : ReadCall) : (nextBytes fs t call).length =
    min call.nbytes.toInt.toNat ((content fs t call.fd).length - (t.fd call.fd).fPos.toNat) := by
  unfold nextBytes
  rw [length_take, length_drop]

theorem advance_pos (readable : Readable fs t fd) {call : ReadCall} (same : call.fd = fd) :
    ((advance t fd (nextBytes fs t call)).fd fd).fPos.toNat =
      (t.fd fd).fPos.toNat + (nextBytes fs t call).length := by
  have bound := readable.pos
  have count := nextBytes_length fs t call
  have size := content_length fs t fd
  have word := (fs.inodes (t.fd fd).fDentry.inode).size.toNat_lt
  subst same
  have small : (UInt32.ofNat (nextBytes fs t call).length).toNat = (nextBytes fs t call).length :=
    UInt32.toNat_ofNat_of_lt' (by change _ < 2 ^ 32; omega)
  simp only [advance, update_self]
  rw [UInt32.toNat_add, small, Nat.mod_eq_of_lt (by omega)]

theorem fileReadBytes_spec {call : ReadCall} (readable : Readable fs t call.fd) (positive : 0 ≤ call.nbytes) :
    fileReadBytes fs t call.fd true call.nbytes =
      .ok (advance t call.fd (nextBytes fs t call), (nextBytes fs t call).length, nextBytes fs t call) := by
  have length : call.nbytes.toUInt32.toNat = call.nbytes.toInt.toNat := Int32.toNat_toUInt32_of_le positive
  have small := readCount_lt readable.file.toInodeOk (t.fd call.fd).fPos call.nbytes.toUInt32
  have count : readCount (fs.inodes (t.fd call.fd).fDentry.inode) (t.fd call.fd).fPos call.nbytes.toUInt32 =
      (nextBytes fs t call).length := by
    rw [nextBytes_length, content_length, readCount, length]
  rw [count] at small
  have value : (Int32.ofNat (nextBytes fs t call).length).toInt = (nextBytes fs t call).length :=
    Int32.toInt_ofNat_of_lt small
  have success : Int32.ofNat (nextBytes fs t call).length ≠ -1 := by
    intro failed
    rw [failed] at value
    change (-1 : Int) = _ at value
    omega
  unfold fileReadBytes
  simp only [if_neg readable.inUse]
  rw [readData_file readable.file, ok_bind, length, count]
  rw [if_neg success, value, Int32.toUInt32_ofNat']
  rfl

theorem Readable.advance (readable : Readable fs t fd) {call : ReadCall} :
    Readable fs (advance t call.fd (nextBytes fs t call)) fd where
  inUse := by
    rw [advance_count]
    exact readable.inUse
  file := by
    rw [advance_dentry]
    exact readable.file
  pos := by
    rw [advance_content]
    by_cases same : fd = call.fd
    · subst same
      rw [advance_pos readable rfl]
      have bound := readable.pos
      have count := nextBytes_length fs t call
      omega
    · rw [advance_other same]
      exact readable.pos

end

/-! ## All calls -/

/-- What the calls from a table leave behind. -/
structure ReadsFrom (fs : FileSystem) (t : Files) (calls : List ReadCall) (t' : Files) (log : List Reading) : Prop where
  logged : log.map (·.toReadCall) = calls
  bytes : ∀ fd, Readable fs t fd →
    delivered log fd = ((content fs t fd).drop (t.fd fd).fPos.toNat).take (asked calls fd)
  kept : ∀ fd, t'.fd fd = { t.fd fd with fPos := (t.fd fd).fPos + UInt32.ofNat (delivered log fd).length }
  returned : ∀ r ∈ log, r.ret = r.bytes.length
  ended : log.Pairwise fun a b => a.fd = b.fd → 0 < a.nbytes → a.ret = 0 → b.ret = 0

section

variable {fs : FileSystem} {t t' : Files} {fd : Nat} {call : ReadCall} {calls : List ReadCall}
  {log : List Reading}
  {r : Reading}

theorem delivered_cons_same (same : r.fd = fd) : delivered (r :: log) fd = r.bytes ++ delivered log fd := by
  simp [delivered, same]

theorem delivered_cons_other (other : r.fd ≠ fd) : delivered (r :: log) fd = delivered log fd := by
  simp [delivered, other]

theorem asked_cons_same (same : call.fd = fd) :
    asked (call :: calls) fd = call.nbytes.toInt.toNat + asked calls fd := by
  simp [asked, same]

theorem asked_cons_other (other : call.fd ≠ fd) : asked (call :: calls) fd = asked calls fd := by
  simp [asked, other]

/-- Where the position stands after a call, the file goes on behind the bytes asked for. -/
theorem drop_after (fs : FileSystem) (t : Files) (call : ReadCall) :
    (content fs t call.fd).drop ((t.fd call.fd).fPos.toNat + (nextBytes fs t call).length) =
      (content fs t call.fd).drop ((t.fd call.fd).fPos.toNat + call.nbytes.toInt.toNat) := by
  rw [nextBytes_length]
  cases Nat.le_total call.nbytes.toInt.toNat ((content fs t call.fd).length - (t.fd call.fd).fPos.toNat) with
  | inl fewer => rw [Nat.min_eq_left fewer]
  | inr more =>
    -- both positions are behind the end
    rw [Nat.min_eq_right more, drop_eq_nil_of_le (by omega), drop_eq_nil_of_le (by omega)]

theorem ReadsFrom.cons_bytes (readable : Readable fs t fd)
    (rest : ReadsFrom fs (advance t call.fd (nextBytes fs t call)) calls t' log) :
    delivered (⟨call, (nextBytes fs t call).length, nextBytes fs t call⟩ :: log) fd =
      ((content fs t fd).drop (t.fd fd).fPos.toNat).take (asked (call :: calls) fd) := by
  have later := rest.bytes fd readable.advance
  rw [advance_content] at later
  by_cases same : call.fd = fd
  · subst same
    rw [advance_pos readable rfl, drop_after] at later
    rw [delivered_cons_same rfl, asked_cons_same rfl, later, take_add, drop_drop]
    rfl
  · rw [advance_other (Ne.symm same)] at later
    rw [delivered_cons_other same, asked_cons_other same, later]

theorem ReadsFrom.cons_kept (rest : ReadsFrom fs (advance t call.fd (nextBytes fs t call)) calls t' log) :
    t'.fd fd = { t.fd fd with
      fPos := (t.fd fd).fPos + UInt32.ofNat
        (delivered (⟨call, (nextBytes fs t call).length, nextBytes fs t call⟩ :: log) fd).length } := by
  rw [rest.kept fd]
  by_cases same : call.fd = fd
  · subst same
    rw [delivered_cons_same rfl, length_append, UInt32.ofNat_add, ← UInt32.add_assoc]
    simp only [advance, update_self]
  · rw [advance_other (Ne.symm same), delivered_cons_other same]

/-- After a call that found the end of the file nothing more is delivered. -/
theorem ReadsFrom.cons_ended (readable : Readable fs t call.fd)
    (rest : ReadsFrom fs (advance t call.fd (nextBytes fs t call)) calls t' log) (asked : 0 < call.nbytes)
    (none : (nextBytes fs t call).length = 0) (mem : r ∈ log) (same : r.fd = call.fd) : r.ret = 0 := by
  have behind : (content fs t call.fd).length ≤ (t.fd call.fd).fPos.toNat := by
    have count := nextBytes_length fs t call
    have positive : 0 < call.nbytes.toInt := Int32.lt_iff_toInt_lt.mp asked
    omega
  have later := rest.bytes call.fd readable.advance
  rw [advance_content, advance_pos readable rfl, drop_eq_nil_of_le (by omega), take_nil] at later
  rw [rest.returned r mem, flatMap_eq_nil_iff.mp later r (by simp [mem, same])]
  rfl

theorem fileReads_spec (readable : ∀ call ∈ calls, Readable fs t call.fd) (positive : ∀ call ∈ calls, 0 ≤ call.nbytes) :
    ∃ t' log, fileReads fs t calls = .ok (t', log) ∧ ReadsFrom fs t calls t' log := by
  induction calls generalizing t with
  | nil =>
    refine ⟨t, [], rfl, ?_⟩
    constructor
    · rfl
    · intro fd _
      exact (take_zero ..).symm
    · intro fd
      change _ = { t.fd fd with fPos := (t.fd fd).fPos + 0 }
      rw [UInt32.add_zero]
    · exact forall_mem_nil _
    · exact .nil
  | cons call calls ih =>
    have first := readable call mem_cons_self
    obtain ⟨t', log, done, rest⟩ := @ih (advance t call.fd (nextBytes fs t call))
      (fun c mem => (readable c (mem_cons_of_mem _ mem)).advance)
      (fun c mem => positive c (mem_cons_of_mem _ mem))
    refine ⟨t', ⟨call, (nextBytes fs t call).length, nextBytes fs t call⟩ :: log, ?_, ?_⟩
    · rw [fileReads, fileReadBytes_spec first (positive call mem_cons_self), ok_bind]
      simp only [done, ok_bind, pure_eq_ok]
    · constructor
      · rw [map_cons, rest.logged]
      · intro fd at_fd
        exact rest.cons_bytes at_fd
      · intro fd
        exact rest.cons_kept
      · exact forall_mem_cons.mpr ⟨rfl, rest.returned⟩
      · apply pairwise_cons.mpr
        refine ⟨fun r mem same asked none => ?_, rest.ended⟩
        exact rest.cons_ended first asked (Int.natCast_eq_zero.mp none) mem same.symm

end

/-- The descriptor is as `file_open` leaves it for a well-formed file. -/
structure AtStart (fs : FileSystem) (t : Files) (fd : Nat) : Prop where
  inUse : (t.fd fd).fCount ≠ 0
  file : FileOk fs (t.fd fd).fDentry.inode
  start : (t.fd fd).fPos = 0

theorem AtStart.readable {fs : FileSystem} {t : Files} {fd : Nat} (opened : AtStart fs t fd) : Readable fs t fd where
  inUse := opened.inUse
  file := opened.file
  pos := by
    rw [opened.start]
    exact Nat.zero_le _

/-- Each descriptor delivered its file from the start, and stands where it stopped. -/
structure Sequential (fs : FileSystem) (t : Files) (calls : List ReadCall) (t' : Files) (log : List Reading) :
    Prop where
  logged : log.map (·.toReadCall) = calls
  /-- The first bytes of the file, as many as were asked for and are there. -/
  bytes : ∀ call ∈ calls, delivered log call.fd = (content fs t call.fd).take (asked calls call.fd)
  position : ∀ call ∈ calls, (t'.fd call.fd).fPos.toNat = (delivered log call.fd).length
  inside : ∀ call ∈ calls, (t'.fd call.fd).fPos.toNat ≤ (fs.inodes (t.fd call.fd).fDentry.inode).size.toNat
  returned : ∀ r ∈ log, r.ret = r.bytes.length
  ended : log.Pairwise fun a b => a.fd = b.fd → 0 < a.nbytes → a.ret = 0 → b.ret = 0
  /-- A descriptor changes by what was delivered on itself, only in its position. -/
  kept : ∀ fd, t'.fd fd = { t.fd fd with fPos := (t.fd fd).fPos + UInt32.ofNat (delivered log fd).length }

theorem reads_sequential {fs : FileSystem} {t : Files} {calls : List ReadCall}
    (opened : ∀ call ∈ calls, AtStart fs t call.fd) (positive : ∀ call ∈ calls, 0 ≤ call.nbytes) :
    ∃ t' log, fileReads fs t calls = .ok (t', log) ∧ Sequential fs t calls t' log := by
  obtain ⟨t', log, done, reads⟩ := fileReads_spec (fun call mem => (opened call mem).readable) positive
  have bytes : ∀ call ∈ calls, delivered log call.fd = (content fs t call.fd).take (asked calls call.fd) := by
    intro call mem
    have all := reads.bytes call.fd (opened call mem).readable
    rw [(opened call mem).start] at all
    exact all
  have few : ∀ call ∈ calls, (delivered log call.fd).length ≤ (fs.inodes (t.fd call.fd).fDentry.inode).size.toNat := by
    intro call mem
    rw [bytes call mem, List.length_take, content_length]
    exact Nat.min_le_right _ _
  have position : ∀ call ∈ calls, (t'.fd call.fd).fPos.toNat = (delivered log call.fd).length := by
    intro call mem
    rw [reads.kept call.fd, (opened call mem).start, UInt32.zero_add]
    apply UInt32.toNat_ofNat_of_lt'
    exact Nat.lt_of_le_of_lt (few call mem) (UInt32.toNat_lt _)
  refine ⟨t', log, done, reads.logged, bytes, position, fun call mem => ?_, reads.returned, reads.ended, reads.kept⟩
  rw [position call mem]
  exact few call mem

/-- Two descriptors of the file `threeBytes`. -/
def twoReaders : Files := ⟨0, 8, fun _ => ⟨⟨fun _ => 0, .regular, 0⟩, .file, 1, 0⟩⟩

theorem reads_sequential_two : ∃ t' log,
    fileReads threeBytes twoReaders [⟨2, 2⟩, ⟨3, 5⟩, ⟨2, 2⟩] = .ok (t', log) ∧
      Sequential threeBytes twoReaders [⟨2, 2⟩, ⟨3, 5⟩, ⟨2, 2⟩] t' log :=
  reads_sequential (fun _ _ => ⟨show (1 : UInt32) ≠ 0 by decide, threeBytes_ok, rfl⟩) (by decide)

end Illinix.Verified.Vfs
