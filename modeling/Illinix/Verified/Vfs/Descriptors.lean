import Illinix.Kernel.Vfs
import Illinix.Lib.Except
import Illinix.Lib.Run

/-! # The descriptor table

`do_open`, `do_close`, `do_read` and `do_write` of one process on the table that `fd_init`
set up.  `file_open` does not look at the result of `file_init`, so on a full table it stores
an uninitialised `file_t` in front of `fd[0]`; apart from that a descriptor is in use exactly
while it is open, and a call that returns -1 changes nothing. -/

namespace Illinix.Verified.Vfs

open Kernel Lib Function List

variable {fs : FileSystem} {name : CString} {t : Files}

/-! ## Calls -/

/-- The table, and the descriptors that `do_open` returned and that were not closed since. -/
structure Descriptors where
  files : Files
  opened : List ℤ

section

variable (fs : FileSystem)

/-- The descriptors that are open after a call that returned `r`. -/
def nowOpen (opened : List ℤ) (r : ℤ) : FileCall → List ℤ
  | .open _ _ => if 0 ≤ r then r :: opened else opened
  | .close fd => if r = 0 then opened.filter (· ≠ fd) else opened
  | .read _ _ _ _ | .write _ _ _ _ => opened

/-- A call with its return value. -/
def fileExec (s : Descriptors) (e : FileCall) : Except Fault (Descriptors × ℤ) := do
  let (files, r) ← doCall fs s.files e
  return (⟨files, nowOpen s.opened r e⟩, r)

def FileStep (s : Descriptors) (e : FileCall) (s' : Descriptors) : Prop :=
  ∃ r, fileExec fs s e = .ok (s', r)

/-! ## What a call must do -/

/-- The descriptor is not in use. -/
def Free (t : Files) (i : ℕ) : Prop := (t.fd i).fCount = 0

/-- `r` is the least free descriptor from 2 on, or -1 when none is free. -/
def LeastFree (t : Files) (r : ℤ) : Prop :=
  (∃ i : ℕ, r = i ∧ 2 ≤ i ∧ i < openMax ∧ Free t i ∧ ∀ j, 2 ≤ j → j < i → ¬ Free t j) ∨
  r = -1 ∧ ∀ j, 2 ≤ j → j < openMax → ¬ Free t j

/-- The name is that of an entry of the directory, whose field has no NUL when the name has
    32 characters. -/
def Existing (name : CString) : Prop :=
  0 < name.len ∧ name.len ≤ nameSize ∧ ∃ i, i < filesMax ∧ i < fs.nDir.toNat ∧
    ∀ j < nameSize, j ≤ name.len → (fs.dirs i).fname j = name.bytes j

/-- `count`, `max_fd` and all eight entries are the same. -/
def SameTable (t t' : Files) : Prop :=
  t'.count = t.count ∧ t'.maxFd = t.maxFd ∧ ∀ i < openMax, t'.fd i = t.fd i

/-- A descriptor is in use iff it is 0 or 1, or it is open. -/
def InUse (s : Descriptors) : Prop :=
  ∀ fd : ℤ, validFd s.files fd = true ↔ fd = 0 ∨ fd = 1 ∨ fd ∈ s.opened

/-- The contract of one call from `s`. -/
def CallOk (s : Descriptors) (e : FileCall) (s' : Descriptors) (r : ℤ) : Prop :=
  (match e with
    | .open name _ => Existing fs name → LeastFree s.files r
    | _ => True) ∧
  (r = -1 → SameTable s.files s'.files)

/-- `do_open` of this name gets to `file_open` and finds the entry. -/
def OpensFile (name : CString) : Prop :=
  name.len ≤ nameSize ∧ name.bytes 0 ≠ 0 ∧ name.bytes 0 ≠ dot ∧ strcmp name rtcName ≠ 0 ∧
    (readDentryByName fs name.bytes).isSome = true

/-- A regular file is opened only while a descriptor is free. -/
def FileCareful (s : Descriptors) : FileCall → Prop
  | .open name _ => OpensFile fs name → ∃ i, i < openMax ∧ 2 ≤ i ∧ Free s.files i
  | _ => True

def CarefulFileStep (s : Descriptors) (e : FileCall) (s' : Descriptors) : Prop :=
  FileCareful fs s e ∧ FileStep fs s e s'

end

/-! ## Names -/

/-- A name compares equal with the field that spells it. -/
theorem strncmpFrom_spelled {field : ℕ → UInt8} {n i : ℕ}
    (spelled : ∀ j < i + n, j ≤ name.len → field j = name.bytes j) (started : i ≤ name.len) :
    strncmpFrom name.bytes field i n = 0 := by
  induction n generalizing i with
  | zero => rfl
  | succ n ih =>
    have same : field i = name.bytes i := spelled i (by omega) started
    unfold strncmpFrom
    rw [same]
    split
    · exact Int.sub_self _
    · next inside =>
      -- the name has not ended here
      have more : i ≠ name.len := by
        intro ended
        exact inside (.inr (ended ▸ name.nul))
      apply ih
      · intro j hj
        exact spelled j (by omega)
      · omega

theorem readDentryByName_existing (existing : Existing fs name) :
    ∃ dentry, readDentryByName fs name.bytes = some dentry := by
  obtain ⟨-, -, i, hfiles, hdir, spelled⟩ := existing
  have equal : strncmp name.bytes (fs.dirs i).fname nameSize = 0 := by
    apply strncmpFrom_spelled
    · intro j hj
      exact spelled j (by omega)
    · omega
  unfold readDentryByName
  cases found : (range fs.nDir.toNat).find?
      (fun i => decide (strncmp name.bytes (fs.dirs i).fname nameSize = 0)) with
  | none =>
    rw [find?_eq_none] at found
    exact absurd (decide_eq_true equal) (found i (mem_range.mpr hdir))
  | some j =>
    obtain ⟨-, hj, before⟩ := find?_range_eq_some.mp found
    have first : j ≤ i := by
      by_contra later
      have := before i (by omega)
      rw [decide_eq_true equal] at this
      cases this
    refine ⟨fs.dirs j, if_neg ?_⟩
    omega

/-! ## Opening -/

theorem fileInit_cases (t : Files) (file : File) (dentry : Dentry) (op : FileOp) :
    (∃ i : ℕ, fileInit t 2 file dentry op = ((i : ℤ), ⟨dentry, op, 1, 0⟩) ∧
      2 ≤ i ∧ i < openMax ∧ Free t i ∧ ∀ j, 2 ≤ j → j < i → ¬ Free t j) ∨
    fileInit t 2 file dentry op = (-1, file) ∧ ∀ j, 2 ≤ j → j < openMax → ¬ Free t j := by
  unfold fileInit Free
  cases found : (range' 2 (openMax - 2)).find? (fun i => decide ((t.fd i).fCount = 0)) with
  | some i =>
    left
    obtain ⟨free, hi, before⟩ := find?_range'_eq_some.mp found
    obtain ⟨k, hk, rfl⟩ := mem_range'.mp hi
    refine ⟨_, rfl, by omega, ?_, of_decide_eq_true free, fun j hj earlier => ?_⟩
    · omega
    · have := before j hj earlier
      simpa using this
  | none =>
    right
    refine ⟨rfl, fun j hj inside => ?_⟩
    have := find?_range'_eq_none.mp found j hj (by unfold openMax at *; omega)
    simpa using this

/-- How a call of `do_open` ends. -/
inductive Opened (t : Files) : Files × ℤ → Prop where
  | failed : Opened t (t, -1)
  | stored (i : ℕ) (dentry : Dentry) (op : FileOp) (low : 2 ≤ i) (inside : i < openMax) (free : Free t i)
      (least : ∀ j, 2 ≤ j → j < i → ¬ Free t j) : Opened t (t.store i ⟨dentry, op, 1, 0⟩, i)

theorem openAt_opened (t : Files) (fname : ℕ → UInt8) (type : FileType) (op : FileOp) (stack : File) :
    Opened t (openAt t 2 fname type op stack) ∧ LeastFree t (openAt t 2 fname type op stack).2 := by
  unfold openAt
  rcases fileInit_cases t stack ⟨fname, type, 0⟩ op with ⟨i, done, low, inside, free, least⟩ | ⟨done, full⟩
  · simp only [done]
    exact ⟨.stored i _ _ low inside free least, .inl ⟨i, rfl, low, inside, free, least⟩⟩
  · simp only [done]
    exact ⟨.failed, .inr ⟨rfl, full⟩⟩

theorem fileOpen_opened {fname : CString} (stack : File)
    (room : (readDentryByName fs fname.bytes).isSome = true → ∃ i, i < openMax ∧ 2 ≤ i ∧ Free t i) :
    Opened t (fileOpen fs t fname stack) := by
  unfold fileOpen
  cases found : readDentryByName fs fname.bytes with
  | none => exact .failed
  | some dentry =>
    rcases fileInit_cases t stack dentry .file with ⟨i, done, low, inside, free, least⟩ | ⟨-, full⟩
    · simp only [done]
      exact .stored i _ _ low inside free least
    · obtain ⟨i, inside, low, free⟩ := room (by rw [found]; rfl)
      exact absurd free (full i low inside)

/-- The return value of `file_open` is right also on a full table. -/
theorem fileOpen_leastFree {fname : CString} (existing : Existing fs fname) (t : Files)
    (stack : File) : LeastFree t (fileOpen fs t fname stack).2 := by
  obtain ⟨dentry, found⟩ := readDentryByName_existing existing
  unfold fileOpen
  rw [found]
  rcases fileInit_cases t stack dentry .file with ⟨i, done, rest⟩ | ⟨done, full⟩
  · simp only [done]
    exact .inl ⟨i, rfl, rest⟩
  · simp only [done]
    exact .inr ⟨rfl, full⟩

theorem doOpen_opened (stack : File) (room : OpensFile fs name → ∃ i, i < openMax ∧ 2 ≤ i ∧ Free t i) :
    Opened t (doOpen fs t name stack) := by
  unfold doOpen
  split
  · exact .failed
  · next short =>
    split
    · exact .failed
    · next nonempty =>
      split
      · exact (openAt_opened ..).1
      · next regular =>
        split
        · exact (openAt_opened ..).1
        · next notRtc =>
          apply fileOpen_opened
          exact fun found => room ⟨Nat.not_lt.mp short, nonempty, regular, notRtc, found⟩

theorem doOpen_leastFree (existing : Existing fs name) (t : Files)
    (stack : File) : LeastFree t (doOpen fs t name stack).2 := by
  have nonempty : name.bytes 0 ≠ 0 := name.body 0 existing.1
  unfold doOpen
  rw [if_neg (Nat.not_lt.mpr existing.2.1), if_neg nonempty]
  split
  · exact (openAt_opened ..).2
  · split
    · exact (openAt_opened ..).2
    · exact fileOpen_leastFree existing t stack

/-! ## Invariant -/

structure TableInv (s : Descriptors) : Prop where
  maxFd : s.files.maxFd = 8
  stdin : (s.files.fd 0).fOp = .terminal
  stdout : (s.files.fd 1).fOp = .terminal
  count : ∀ i < openMax, (s.files.fd i).fCount =
    if i = 0 ∨ i = 1 ∨ (i : ℤ) ∈ s.opened then 1 else 0
  range : ∀ fd ∈ s.opened, 2 ≤ fd ∧ fd < openMax

section

variable {s : Descriptors} {t : Files} {fd : ℤ} {i : ℕ}

theorem TableInv.validFd_iff (inv : TableInv s) (fd : ℤ) :
    validFd s.files fd = true ↔ 0 ≤ fd ∧ fd < openMax ∧ ¬ Free s.files fd.toNat := by
  have eight : s.files.maxFd.toInt32.toInt = openMax := by
    rw [inv.maxFd]
    rfl
  unfold validFd Free
  rw [eight]
  simp

theorem TableInv.inUse (inv : TableInv s) : InUse s := by
  intro fd
  rw [inv.validFd_iff]
  constructor
  · rintro ⟨low, inside, used⟩
    have here : ((fd.toNat : ℕ) : ℤ) = fd := Int.toNat_of_nonneg low
    unfold Free at used
    rw [inv.count fd.toNat (by omega)] at used
    split at used
    · next inUse =>
      rw [here] at inUse
      rcases inUse with first | second | mem
      · exact .inl (by omega)
      · exact .inr (.inl (by omega))
      · exact .inr (.inr mem)
    · exact absurd rfl used
  · intro open'
    have bounds : 0 ≤ fd ∧ fd < openMax := by
      rcases open' with rfl | rfl | mem
      · exact ⟨by decide, by decide⟩
      · exact ⟨by decide, by decide⟩
      · have := inv.range fd mem
        omega
    refine ⟨bounds.1, bounds.2, fun free => ?_⟩
    have here : ((fd.toNat : ℕ) : ℤ) = fd := Int.toNat_of_nonneg bounds.1
    unfold Free at free
    rw [inv.count fd.toNat (by omega), if_pos] at free
    · cases free
    · rw [here]
      rcases open' with rfl | rfl | mem
      · exact .inl rfl
      · exact .inr (.inl rfl)
      · exact .inr (.inr mem)

theorem TableInv.congr (inv : TableInv s) (maxFd : t.maxFd = s.files.maxFd)
    (same : ∀ i, (t.fd i).fCount = (s.files.fd i).fCount ∧ (t.fd i).fOp = (s.files.fd i).fOp) :
    TableInv ⟨t, s.opened⟩ := by
  constructor
  · exact maxFd.trans inv.maxFd
  · exact (same 0).2.trans inv.stdin
  · exact (same 1).2.trans inv.stdout
  · intro i hi
    exact (same i).1.trans (inv.count i hi)
  · exact inv.range

theorem TableInv.opened (inv : TableInv s) (dentry : Dentry) (op : FileOp) (low : 2 ≤ i)
    (inside : i < openMax) : TableInv ⟨s.files.store i ⟨dentry, op, 1, 0⟩, (i : ℤ) :: s.opened⟩ := by
  constructor
  · exact inv.maxFd
  · exact (congrArg File.fOp (update_of_ne (by omega) ..)).trans inv.stdin
  · exact (congrArg File.fOp (update_of_ne (by omega) ..)).trans inv.stdout
  · intro j hj
    change ((update s.files.fd i _ : ℕ → File) j).fCount = _
    rcases eq_or_ne j i with rfl | other
    · rw [update_self, if_pos (.inr (.inr mem_cons_self))]
    · rw [update_of_ne other, inv.count j hj]
      have same : (j : ℤ) ∈ (i : ℤ) :: s.opened ↔ (j : ℤ) ∈ s.opened := by
        rw [mem_cons, or_iff_right (by omega)]
      simp only [same]
  · intro fd mem
    cases mem_cons.mp mem with
    | inl new =>
      omega
    | inr old => exact inv.range fd old

/-- A descriptor that is not one of the terminal is given back. -/
theorem TableInv.closed (inv : TableInv s) (low : 2 ≤ fd) (inside : fd < openMax)
    (used : ¬ Free s.files fd.toNat) :
    TableInv ⟨s.files.store fd.toNat { s.files.fd fd.toNat with
      fCount := (s.files.fd fd.toNat).fCount - 1 }, s.opened.filter (· ≠ fd)⟩ := by
  have one : (s.files.fd fd.toNat).fCount = 1 := by
    have count := inv.count fd.toNat (by omega)
    split at count
    · exact count
    · exact absurd count used
  rw [one]
  constructor
  · exact inv.maxFd
  · exact (congrArg File.fOp (update_of_ne (by omega) ..)).trans inv.stdin
  · exact (congrArg File.fOp (update_of_ne (by omega) ..)).trans inv.stdout
  · intro j hj
    change ((update s.files.fd fd.toNat _ : ℕ → File) j).fCount =
      if j = 0 ∨ j = 1 ∨ (j : ℤ) ∈ s.opened.filter (· ≠ fd) then 1 else 0
    rcases eq_or_ne j fd.toNat with rfl | other
    · rw [update_self, if_neg]
      · rfl
      · simp
        omega
    · rw [update_of_ne other, inv.count j hj]
      have same : (j : ℤ) ∈ s.opened.filter (· ≠ fd) ↔ (j : ℤ) ∈ s.opened := by
        rw [mem_filter]
        simp only [decide_eq_true_eq, and_iff_left_iff_imp]
        intro _
        omega
      simp only [same]
  · intro fd' mem
    exact inv.range fd' (mem_filter.mp mem).1

/-! ## Steps -/

variable {fs : FileSystem} {s' : Descriptors} {r : ℤ}

/-- A read does nothing to the table, or moves the position of its descriptor. -/
theorem doRead_moves {files : Files} {buf : Bool} {nbytes : UInt32} {terminal : ℤ}
    (done : doRead fs files fd buf nbytes terminal = .ok (t, r)) :
    t = files ∨ 0 ≤ fd ∧ r ≠ -1 ∧ ∃ pos, t = files.store fd.toNat { files.fd fd.toNat with fPos := pos } := by
  unfold doRead at done
  split at done
  · next valid =>
    have low := (of_decide_eq_true valid).1
    split at done
    · obtain ⟨⟨t', r', bytes⟩, read, done⟩ := bind_eq_ok.mp done
      cases done
      unfold fileReadBytes at read
      simp only at read
      split at read
      · cases read
        exact .inl rfl
      · obtain ⟨⟨nread, bytes⟩, -, read⟩ := bind_eq_ok.mp read
        simp only at read
        split at read
        · cases read
          exact .inl rfl
        · next ok =>
          cases read
          exact .inr ⟨low, fun failed => ok (Int32.toInt_inj.mp failed), _, rfl⟩
    · unfold directoryRead at done
      simp only at done
      generalize (if (nameSize : ℤ) < nbytes.toInt32.toInt then (32 : Int32) else nbytes.toInt32) = nread at done
      split_ifs at done with empty ended negative <;> cases done
      · exact .inl rfl
      · exact .inl rfl
      · refine .inr ⟨low, fun failed => negative ?_, _, rfl⟩
        rw [Int32.lt_iff_toInt_lt, failed]
        decide
    · cases done
      exact .inl rfl
    · cases done
      exact .inl rfl
  · cases done
    exact .inl rfl

section

variable (inv : TableInv s)

include inv

theorem TableInv.openStep {name : CString} {stack : File}
    (room : OpensFile fs name → ∃ i, i < openMax ∧ 2 ≤ i ∧ Free s.files i)
    (done : doOpen fs s.files name stack = (t, r)) :
    TableInv ⟨t, if 0 ≤ r then r :: s.opened else s.opened⟩ ∧ (r = -1 → t = s.files) := by
  have result := doOpen_opened stack room
  rw [done] at result
  cases result with
  | failed => exact ⟨inv, fun _ => rfl⟩
  | stored i dentry op low inside free least =>
    exact ⟨inv.opened dentry op low inside, fun failed => absurd failed (by omega)⟩

theorem TableInv.closeStep (done : doClose s.files fd = (t, r)) :
    TableInv ⟨t, if r = 0 then s.opened.filter (· ≠ fd) else s.opened⟩ ∧ (r = -1 → t = s.files) := by
  unfold doClose at done
  by_cases valid : validFd s.files fd = true
  · rw [if_pos valid] at done
    obtain ⟨low, inside, used⟩ := (inv.validFd_iff fd).mp valid
    by_cases terminal : (s.files.fd fd.toNat).fOp = .terminal
    · rw [terminal] at done
      cases done
      exact ⟨inv, fun _ => rfl⟩
    · -- the first two entries are the terminal's
      have high : 2 ≤ fd := by
        by_contra small
        have first : fd = 0 ∨ fd = 1 := by omega
        rcases first with rfl | rfl
        · exact terminal inv.stdin
        · exact terminal inv.stdout
      have close : fileClose s.files fd.toNat = (s.files.store fd.toNat { s.files.fd fd.toNat with
            fCount := (s.files.fd fd.toNat).fCount - 1 }, 0) := if_neg used
      have after := inv.closed high inside used
      cases op : (s.files.fd fd.toNat).fOp with
      | terminal => exact absurd op terminal
      | file | dir | rtc =>
        rw [op] at done
        simp only [close] at done
        cases done
        exact ⟨after, fun failed => absurd failed (by decide)⟩
  · rw [if_neg valid] at done
    cases done
    exact ⟨inv, fun _ => rfl⟩

theorem TableInv.moved (i : ℕ) (pos : UInt32) :
    TableInv ⟨s.files.store i { s.files.fd i with fPos := pos }, s.opened⟩ := by
  refine inv.congr rfl fun j => ?_
  change ((update s.files.fd i _ : ℕ → File) j).fCount = _ ∧ ((update s.files.fd i _ : ℕ → File) j).fOp = _
  rcases eq_or_ne j i with rfl | other
  · rw [update_self]
    exact ⟨rfl, rfl⟩
  · rw [update_of_ne other]
    exact ⟨rfl, rfl⟩

theorem TableInv.readStep {buf : Bool} {nbytes : UInt32} {terminal : ℤ}
    (done : doRead fs s.files fd buf nbytes terminal = .ok (t, r)) :
    TableInv ⟨t, s.opened⟩ ∧ (r = -1 → t = s.files) := by
  obtain rfl | ⟨-, ok, pos, rfl⟩ := doRead_moves done
  · exact ⟨inv, fun _ => rfl⟩
  · exact ⟨inv.moved _ pos, fun failed => absurd failed ok⟩

end

theorem doWrite_files (t : Files) (fd : ℤ) (buf : Bool) (nbytes : UInt32) (word : Int32) :
    (doWrite t fd buf nbytes word).1 = t := by
  unfold doWrite
  split
  · split <;> rfl
  · rfl

/-! ## Descriptors stay with their files -/

theorem store_of_ne (files : Files) {i : ℕ} (other : fd ≠ i) (file : File) :
    (files.store fd file).fd i = files.fd i := by
  unfold Files.store
  split
  · rfl
  · exact update_of_ne (by omega) ..

/-- No file is opened on a descriptor in use. -/
theorem Opened.keeps {result : Files × ℤ} (opened : Opened t result) (used : ¬ Free t i) :
    result.1.fd i = t.fd i := by
  cases opened with
  | failed => rfl
  | stored j dentry op low inside free =>
    have other : (j : ℤ) ≠ i := fun same => used (Int.natCast_inj.mp same ▸ free : Free t i)
    exact store_of_ne t other _

theorem doClose_keeps (other : fd ≠ i) : (doClose t fd).1.fd i = t.fd i := by
  unfold doClose
  split
  · next valid =>
    have here := Int.toNat_of_nonneg (of_decide_eq_true valid).1
    have closed : (fileClose t fd.toNat).1.fd i = t.fd i := by
      unfold fileClose
      simp only
      split
      · rfl
      · exact store_of_ne t (here.symm ▸ other) _
    split
    · rfl
    all_goals exact closed
  · rfl

theorem doCall_keeps {e : FileCall} (careful : FileCareful fs s e) (used : ¬ Free s.files i) (open' : e ≠ .close i)
    (done : doCall fs s.files e = .ok (t, r)) : t.fd i = { s.files.fd i with fPos := (t.fd i).fPos } := by
  cases e with
  | «open» name stack =>
    have kept := (doOpen_opened stack careful).keeps used
    rw [Except.ok.inj done] at kept
    rw [kept]
  | close fd =>
    have kept := doClose_keeps (t := s.files) (fun same => open' (by rw [same]) : fd ≠ i)
    rw [Except.ok.inj done] at kept
    rw [kept]
  | read fd buf nbytes terminal =>
    obtain rfl | ⟨low, -, pos, rfl⟩ := doRead_moves done
    · rfl
    · by_cases here : fd.toNat = i
      · subst here
        have stored : ∀ file, (s.files.store fd.toNat file).fd fd.toNat = file := fun file => update_self ..
        rw [stored]
      · rw [store_of_ne _ (by omega)]
  | write fd buf nbytes word =>
    have files := doWrite_files s.files fd buf nbytes word
    rw [Except.ok.inj done] at files
    cases files
    rfl

theorem TableInv.call (inv : TableInv s) {e : FileCall} (careful : FileCareful fs s e)
    (done : doCall fs s.files e = .ok (t, r)) :
    TableInv ⟨t, nowOpen s.opened r e⟩ ∧ (r = -1 → t = s.files) := by
  cases e with
  | «open» name stack => exact inv.openStep careful (Except.ok.inj done)
  | close fd => exact inv.closeStep (Except.ok.inj done)
  | read fd buf nbytes terminal => exact inv.readStep done
  | write fd buf nbytes word =>
    have files := doWrite_files s.files fd buf nbytes word
    rw [Except.ok.inj done] at files
    cases files
    exact ⟨inv, fun _ => rfl⟩

theorem TableInv.step (inv : TableInv s) {e : FileCall} (careful : FileCareful fs s e)
    (done : fileExec fs s e = .ok (s', r)) : TableInv s' ∧ CallOk fs s e s' r := by
  obtain ⟨⟨t, value⟩, called, done⟩ := bind_eq_ok.mp done
  cases done
  obtain ⟨after, failed⟩ := inv.call careful called
  refine ⟨after, ?_, fun h => ?_⟩
  · cases e with
    | «open» name stack =>
      intro existing
      have least := doOpen_leastFree existing s.files stack
      rw [Except.ok.inj called] at least
      exact least
    | close fd | read fd buf nbytes terminal | write fd buf nbytes word => trivial
  · cases failed h
    exact ⟨rfl, rfl, fun _ _ => rfl⟩

end

/-! ## Runs -/

/-- The state after `fd_init`. -/
def fdBoot (mem : Files) (stack : File) : Descriptors := ⟨(fdInit mem stack).1, []⟩

/-- The table before `fd_init` opens the terminal. -/
def clearedFiles (mem : Files) : Files :=
  { count := 0
    maxFd := openMax.toUInt32
    fd := fun i => if i < openMax then { mem.fd i with fCount := 0 } else mem.fd i }

theorem clearedFiles_free (mem : Files) {i : ℕ} (inside : i < openMax) : Free (clearedFiles mem) i := by
  unfold Free clearedFiles
  simp only
  rw [if_pos inside]

theorem fdBoot_inv (mem : Files) (stack : File) : TableInv (fdBoot mem stack) := by
  unfold fdBoot
  constructor
  · rfl
  · rfl
  · rfl
  · intro i hi
    change ((update (update (clearedFiles mem).fd 0 _) 1 _ : ℕ → File) i).fCount = _
    rcases eq_or_ne i 1 with rfl | notOne
    · rfl
    · rw [update_of_ne notOne]
      rcases eq_or_ne i 0 with rfl | notZero
      · rfl
      · rw [update_of_ne notZero, if_neg (by simp [notOne, notZero])]
        exact clearedFiles_free mem hi
  · exact fun fd mem => absurd mem not_mem_nil

theorem TableInv.run {fs : FileSystem} {events : List FileCall} {s s' : Descriptors} (inv : TableInv s)
    (run : Run (CarefulFileStep fs) s events s') : TableInv s' := by
  refine run.invariant (fun s e t (inv : TableInv s) (step : CarefulFileStep fs s e t) => ?_) inv
  obtain ⟨careful, r, done⟩ := step
  exact (inv.step careful done).1

/-- In every run after `fd_init` in which regular files are opened only while a descriptor is
    free, the descriptors in use are 0, 1 and the open ones, and every further such call meets
    the contract. -/
theorem descriptors_ok {fs : FileSystem} {mem : Files} {stack : File} {events : List FileCall}
    {s : Descriptors} (run : Run (CarefulFileStep fs) (fdBoot mem stack) events s) :
    InUse s ∧ ∀ e s' r, FileCareful fs s e → fileExec fs s e = .ok (s', r) → CallOk fs s e s' r := by
  have inv := (fdBoot_inv mem stack).run run
  exact ⟨inv.inUse, fun e s' r careful done => (inv.step careful done).2⟩

/-- The name of the only file. -/
def fileName : CString := .lit [102] (by decide)

/-- A file system with one regular file. -/
def oneFile : FileSystem :=
  ⟨1, 1, 1, fun _ => ⟨fileName.bytes, .regular, 0⟩, fun _ => ⟨0, fun _ => 0⟩, fun _ _ => 0⟩

/-- What uninitialised memory may hold. -/
def junkFile : File := ⟨⟨fun _ => 0, .rtc, 0⟩, .file, 7, 9⟩

def junkFiles : Files := ⟨0, 0, fun _ => junkFile⟩

instance (t : Files) (i : ℕ) : Decidable (Free t i) := inferInstanceAs (Decidable (_ = _))

instance (fs : FileSystem) (name : CString) : Decidable (OpensFile fs name) :=
  inferInstanceAs (Decidable (_ ∧ _))

instance (fs : FileSystem) (s : Descriptors) (e : FileCall) : Decidable (FileCareful fs s e) :=
  match e with
  | .open _ _ => inferInstanceAs (Decidable (_ → ∃ i, i < openMax ∧ 2 ≤ i ∧ Free s.files i))
  | .close _ | .read _ _ _ _ | .write _ _ _ _ => inferInstanceAs (Decidable True)

theorem fileStep_of_exec {s s' : Descriptors} {e : FileCall}
    (done : (fileExec fs s e).toOption.map (·.1) = some s') : FileStep fs s e s' := by
  obtain ⟨⟨s1, r⟩, called, rfl⟩ := Option.map_eq_some_iff.mp done
  exact ⟨r, toOption_eq_some.mp called⟩

/-- The file is opened, read and closed. -/
theorem descriptors_ok_file :
    ∃ s, Run (CarefulFileStep oneFile) (fdBoot junkFiles junkFile)
        [.open fileName junkFile, .read 2 true 5 0, .close 2] s ∧
      InUse s ∧ ∀ e s' r, FileCareful oneFile s e → fileExec oneFile s e = .ok (s', r) →
        CallOk oneFile s e s' r := by
  have found : (attempt (FileCareful oneFile) (fun s e => (fileExec oneFile s e).toOption.map (·.1))
      (fdBoot junkFiles junkFile) [.open fileName junkFile, .read 2 true 5 0, .close 2]).any
      (fun _ => true) = true := by
    decide +kernel
  obtain ⟨s, run, _⟩ := exists_run (CarefulFileStep oneFile)
    (fun _ _ _ careful done => ⟨careful, fileStep_of_exec done⟩) found
  exact ⟨s, run, descriptors_ok run⟩

/-- Six descriptors are taken; the seventh `do_open` of the file returns -1 and has stored what
    the stack held over `count` and `max_fd`. -/
theorem full_table_overwritten :
    ∃ s s', Run (FileStep oneFile) (fdBoot junkFiles junkFile)
        (List.replicate 6 (.open fileName junkFile)) s ∧
      fileExec oneFile s (.open fileName junkFile) = .ok (s', -1) ∧ ¬ SameTable s.files s'.files := by
  have found : (attempt (fun _ _ => True) (fun s e => (fileExec oneFile s e).toOption.map (·.1))
      (fdBoot junkFiles junkFile) (List.replicate 6 (.open fileName junkFile))).any
      (fun s => okAnd (fileExec oneFile s (.open fileName junkFile)) fun r =>
        r.2 = -1 ∧ r.1.files.count ≠ s.files.count) = true := by
    decide +kernel
  obtain ⟨s, run, last⟩ := exists_run (FileStep oneFile)
    (fun _ _ _ _ done => fileStep_of_exec done) found
  obtain ⟨⟨s', r⟩, done, test⟩ := okAnd_iff.mp last
  obtain ⟨rfl, changed⟩ := of_decide_eq_true test
  exact ⟨s, s', run, done, fun same => changed same.1⟩

theorem run_keeps {fs : FileSystem} {events : List FileCall} {s s' : Descriptors} {i : ℕ}
    (used : ¬ Free s.files i) (open' : .close i ∉ events) (run : Run (CarefulFileStep fs) s events s') :
    s'.files.fd i = { s.files.fd i with fPos := (s'.files.fd i).fPos } := by
  induction run with
  | nil => rfl
  | cons step rest ih =>
    rw [mem_cons, not_or] at open'
    obtain ⟨careful, r, done⟩ := step
    obtain ⟨⟨t, value⟩, called, done⟩ := bind_eq_ok.mp done
    cases done
    have kept := doCall_keeps careful used (Ne.symm open'.1) called
    rw [ih (by unfold Free at *; rw [kept]; exact used) open'.2, kept]

/-- A descriptor in use stays with its file: while `max_fd` is right, the calls of a process change its entry in
    the position only, until it is closed. -/
theorem descriptor_keeps_file {fs : FileSystem} {mem : Files} {stack : File} {first events : List FileCall}
    {s s' : Descriptors} {i : ℕ} (before : Run (CarefulFileStep fs) (fdBoot mem stack) first s)
    (used : validFd s.files i = true) (open' : .close i ∉ events) (run : Run (CarefulFileStep fs) s events s') :
    validFd s'.files i = true ∧ s'.files.fd i = { s.files.fd i with fPos := (s'.files.fd i).fPos } := by
  have inv := (fdBoot_inv mem stack).run before
  obtain ⟨low, inside, taken⟩ := (inv.validFd_iff i).mp used
  rw [Int.toNat_natCast] at taken
  have kept := run_keeps taken open' run
  refine ⟨((inv.run run).validFd_iff i).mpr ⟨low, inside, ?_⟩, kept⟩
  unfold Free at *
  rw [Int.toNat_natCast, kept]
  exact taken

/-- A file is opened, a second one is opened, read and closed, and the first is still there. -/
theorem descriptor_keeps_file_first : ∃ s s',
    Run (CarefulFileStep oneFile) (fdBoot junkFiles junkFile) [.open fileName junkFile] s ∧
    Run (CarefulFileStep oneFile) s [.open fileName junkFile, .read 3 true 5 0, .close 3] s' ∧
    validFd s'.files 2 = true ∧ (s'.files.fd 2).fOp = (s.files.fd 2).fOp := by
  let exec (s : Descriptors) (e : FileCall) := (fileExec oneFile s e).toOption.map (·.1)
  have found : (attempt (FileCareful oneFile) exec (fdBoot junkFiles junkFile) [.open fileName junkFile]).any
      (fun s => validFd s.files 2 && (attempt (FileCareful oneFile) exec s
        [.open fileName junkFile, .read 3 true 5 0, .close 3]).any fun _ => true) = true := by
    decide +kernel
  have sound : ∀ s e t, FileCareful oneFile s e → exec s e = some t → CarefulFileStep oneFile s e t :=
    fun _ _ _ careful done => ⟨careful, fileStep_of_exec done⟩
  obtain ⟨s, before, test⟩ := exists_run (CarefulFileStep oneFile) sound found
  obtain ⟨used, rest⟩ := Bool.and_eq_true_iff.mp test
  obtain ⟨s', run, -⟩ := exists_run (CarefulFileStep oneFile) sound rest
  obtain ⟨valid, kept⟩ := descriptor_keeps_file (i := 2) before used (by simp) run
  exact ⟨s, s', before, run, valid, by rw [kept]⟩

end Illinix.Verified.Vfs
