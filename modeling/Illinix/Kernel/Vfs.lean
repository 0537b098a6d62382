import Illinix.Kernel.Fs

/-! # File descriptors

`kernel/vfs.c` and `kernel/file.c`: the descriptor table `files` of a process and the calls
that go through it.  The table is a function from the index, so that a corrupted `max_fd`
lets a call see what follows it in memory. -/

namespace Illinix.Kernel

def openMax : Nat := 8

/-- The operation tables `f_op`, `dir_op`, `terminal_op` and `rtc_op`. -/
inductive FileOp where
  | file
  | dir
  | terminal
  | rtc
deriving DecidableEq, Repr

/-- `file_t` -/
structure File where
  fDentry : Dentry
  fOp : FileOp
  fCount : UInt32
  fPos : UInt32

structure Files where
  count : UInt32
  maxFd : UInt32
  fd : Nat → File

/-- `memcpy(&fds->fd[fd], file, sizeof(file_t))`.  A `file_t` has 88 bytes and `fd[0]` is
    8 bytes into the structure, so the last two words of `fd[-1]` are `count` and
    `max_fd`. -/
def Files.store (t : Files) (fd : Int) (file : File) : Files :=
  if fd < 0 then
    { t with count := file.fCount, maxFd := file.fPos }
  else
    { t with fd := Function.update t.fd fd.toNat file }

/-- `file` is what the caller's `file_t` holds on entry and on return. -/
def fileInit (t : Files) (fd : Nat) (file : File) (dentry : Dentry) (op : FileOp) : Int × File :=
  match (List.range' fd (openMax - fd)).find? fun i => (t.fd i).fCount = 0 with
  | some i => (i, ⟨dentry, op, 1, 0⟩)
  | none => (-1, file)

def openAt (t : Files) (fd : Nat) (fname : Nat → UInt8) (type : FileType) (op : FileOp)
    (stack : File) : Files × Int :=
  let (fd, file) := fileInit t fd stack ⟨fname, type, 0⟩ op
  if fd < 0 then (t, -1) else (t.store fd file, fd)

def stdinName : CString := .lit [115, 116, 100, 105, 110] (by decide)

def stdoutName : CString := .lit [115, 116, 100, 111, 117, 116] (by decide)

/-- `fd_init` on the uninitialised block `mem` from `kmalloc`. -/
def fdInit (mem : Files) (stack : File) : Files × Int :=
  let t : Files :=
    { count := 0
      maxFd := openMax.toUInt32
      fd := fun i => if i < openMax then { mem.fd i with fCount := 0 } else mem.fd i }
  let (t, r0) := openAt t 0 stdinName.bytes .terminal .terminal stack
  let (t, r1) := openAt t 1 stdoutName.bytes .terminal .terminal stack
  (t, r0 + r1)

/-! ## Opening -/

/-- `stack` is the uninitialised local `file`. -/
def fileOpen (fs : FileSystem) (t : Files) (fname : CString) (stack : File) : Files × Int :=
  match readDentryByName fs fname.bytes with
  | none => (t, -1)
  | some dentry =>
    let (fd, file) := fileInit t 2 stack dentry .file
    (t.store fd file, fd)

def directoryOpen (t : Files) (fname : CString) (stack : File) : Files × Int :=
  openAt t 2 fname.bytes .directory .dir stack

def rtcOpen (t : Files) (fname : CString) (stack : File) : Files × Int :=
  openAt t 2 fname.bytes .rtc .rtc stack

def rtcName : CString := .lit [114, 116, 99] (by decide)

/-- `'.'` -/
def dot : UInt8 := 46

def doOpen (fs : FileSystem) (t : Files) (filename : CString) (stack : File) : Files × Int :=
  if nameSize < filename.len then
    (t, -1)
  else if filename.bytes 0 = 0 then
    (t, -1)
  else if filename.bytes 0 = dot then
    directoryOpen t filename stack
  else if strcmp filename rtcName = 0 then
    rtcOpen t filename stack
  else
    fileOpen fs t filename stack

/-! ## Closing, reading and writing -/

/-- `validate_fd` accepts the descriptor. -/
def validFd (t : Files) (fd : Int) : Bool :=
  0 ≤ fd ∧ fd < t.maxFd.toInt32.toInt ∧ (t.fd fd.toNat).fCount ≠ 0

def fileClose (t : Files) (fd : Nat) : Files × Int :=
  let file := t.fd fd
  if file.fCount = 0 then
    (t, -1)
  else
    (t.store fd { file with fCount := file.fCount - 1 }, 0)

def doClose (t : Files) (fd : Int) : Files × Int :=
  if validFd t fd then
    match (t.fd fd.toNat).fOp with
    | .terminal => (t, -1)
    | .file | .dir | .rtc => fileClose t fd.toNat
  else
    (t, -1)

/-- `file_read` with the bytes that it stores from `buf` on. -/
def fileReadBytes (fs : FileSystem) (t : Files) (fd : Nat) (buf : Bool) (nbytes : Int32) :
    Except Fault (Files × Int × List UInt8) := do
  let file := t.fd fd
  if file.fCount = 0 then
    return (t, -1, [])
  else
    let (nread, bytes) ← readData fs file.fDentry.inode file.fPos buf nbytes.toUInt32
    if nread = -1 then
      return (t, -1, bytes)
    else
      return (t.store fd { file with fPos := file.fPos + nread.toUInt32 }, nread.toInt, bytes)

def fileRead (fs : FileSystem) (t : Files) (fd : Nat) (buf : Bool) (nbytes : Int32) :
    Except Fault (Files × Int) := do
  let (t, r, _) ← fileReadBytes fs t fd buf nbytes
  return (t, r)

def directoryRead (fs : FileSystem) (t : Files) (fd : Nat) (nbytes : Int32) :
    Except Fault (Files × Int) := do
  let file := t.fd fd
  if file.fCount = 0 then
    return (t, -1)
  else if fs.nDir ≤ file.fPos then
    return (t, 0)
  else
    let nread := if nameSize < nbytes.toInt then 32 else nbytes
    -- a negative count is a copy of 2 GB or more
    if nread < 0 then
      throw .diverges
    else
      return (t.store fd { file with fPos := file.fPos + 1 }, nread.toInt)

/-- `terminal` is what `terminal_read` returns, `buf` whether the buffer is not `NULL`. -/
def doRead (fs : FileSystem) (t : Files) (fd : Int) (buf : Bool) (nbytes : UInt32) (terminal : Int) :
    Except Fault (Files × Int) :=
  if validFd t fd then
    match (t.fd fd.toNat).fOp with
    | .file => fileRead fs t fd.toNat buf nbytes.toInt32
    | .dir => directoryRead fs t fd.toNat nbytes.toInt32
    | .terminal => pure (t, terminal)
    | .rtc => pure (t, 0)
  else
    pure (t, -1)

def terminalWrite (fd : Int) (buf : Bool) (nbytes : Int32) : Int :=
  if !buf then -1 else if fd ≠ 1 then -1 else nbytes.toInt

/-- `word` is the frequency in the buffer. -/
def rtcWrite (buf : Bool) (nbytes word : Int32) : Int :=
  if !buf ∨ nbytes ≠ 4 then -1
  else if 1024 < word ∨ word < 2 then -1
  else if word &&& 1 ≠ 0 then -1
  else 0

def doWrite (t : Files) (fd : Int) (buf : Bool) (nbytes : UInt32) (word : Int32) : Files × Int :=
  if validFd t fd then
    match (t.fd fd.toNat).fOp with
    | .file | .dir => (t, -1)
    | .terminal => (t, terminalWrite fd buf nbytes.toInt32)
    | .rtc => (t, rtcWrite buf nbytes.toInt32 word)
  else
    (t, -1)

/-- The calls on descriptors.  `stack` is what the stack holds under the locals of the call,
    `terminal` what `terminal_read` returns, and `word` the frequency in the buffer. -/
inductive FileCall where
  | open (name : CString) (stack : File)
  | close (fd : Int)
  | read (fd : Int) (buf : Bool) (nbytes : UInt32) (terminal : Int)
  | write (fd : Int) (buf : Bool) (nbytes : UInt32) (word : Int32)

/-- `do_open`, `do_close`, `do_read` and `do_write`. -/
def doCall (fs : FileSystem) (t : Files) : FileCall → Except Fault (Files × Int)
  | .open name stack => pure (doOpen fs t name stack)
  | .close fd => pure (doClose t fd)
  | .read fd buf nbytes terminal => doRead fs t fd buf nbytes terminal
  | .write fd buf nbytes word => pure (doWrite t fd buf nbytes word)

end Illinix.Kernel
