import Illinix.Kernel.Creation
import Illinix.Kernel.Terminal
import Illinix.Kernel.Vm

/-! # Argument vectors

`parse_arg`, `do_execv` and the argument part of `process_clone` in `kernel/process.c`, `sys_getargs`
in `kernel/syscall.c`, and the string functions of `lib/lib.c` they use.

A pointer to a string is the list of the bytes from it to the end of the mapped memory.  `parse_arg`
only moves its pointer forward, so that a byte it stores is seen by the pointers that come later.
A store outside of the vector or of an argument buffer is an `ArgFault`. -/

namespace Illinix.Kernel

open List Function

/-- `ARGSIZE` -/
def argSize : Nat := 33

/-- `MAXARGS` -/
def maxArgs : Nat := 10

inductive ArgFault where
  /-- a slot of `argv` outside of `0 .. MAXARGS - 1`. -/
  | slot
  /-- a byte behind the `ARGSIZE` bytes of an argument buffer. -/
  | buffer
  /-- a copy to a slot that is `NULL`. -/
  | nullSlot
  /-- a string without a NUL in the mapped memory. -/
  | unterminated
deriving DecidableEq, Repr

/-- The characters of a string in front of its NUL. -/
def CString.chars (s : CString) : List UInt8 := (range s.len).map s.bytes

/-! ## Strings -/

def strlen : List UInt8 → Except ArgFault Nat
  | [] => throw .unterminated
  | c :: s => if c = 0 then pure 0 else do return (← strlen s) + 1

/-- The position of the first `c`. -/
def strchr (c : UInt8) : List UInt8 → Except ArgFault (Option Nat)
  | [] => throw .unterminated
  | b :: s =>
    if b = 0 then pure none
    else if b = c then pure (some 0)
    else do return (← strchr c s).map (· + 1)

/-- A block of `ARGSIZE` bytes from `kmalloc`. -/
abbrev ArgBuffer := Fin argSize → UInt8

def ArgBuffer.store (buf : ArgBuffer) (i : Nat) (c : UInt8) : Except ArgFault ArgBuffer :=
  if h : i < argSize then pure (update buf ⟨i, h⟩ c) else throw .buffer

/-- The loop of `strcpy`, for the bytes from `dest[i]` on. -/
def strcpyFrom (dest : ArgBuffer) (i : Nat) : List UInt8 → Except ArgFault ArgBuffer
  | [] => throw .unterminated
  | c :: src => do
    let dest ← dest.store i c
    if c = 0 then pure dest else strcpyFrom dest (i + 1) src

/-- `argv`, an array of `MAXARGS` pointers. -/
abbrev Argv := Fin maxArgs → Option ArgBuffer

/-- `argv[i] = NULL` -/
def Argv.setNull (argv : Argv) (i : Nat) : Except ArgFault Argv :=
  if h : i < maxArgs then pure (update argv ⟨i, h⟩ none) else throw .slot

/-- Changes what `argv[i]` points to. -/
def Argv.modify (argv : Argv) (i : Nat) (f : ArgBuffer → Except ArgFault ArgBuffer) :
    Except ArgFault Argv :=
  if h : i < maxArgs then
    match argv ⟨i, h⟩ with
    | none => throw .nullSlot
    | some buf => do return update argv ⟨i, h⟩ (some (← f buf))
  else
    throw .slot

/-- `strcpy(argv[i], src)` -/
def Argv.copy (argv : Argv) (i : Nat) (src : List UInt8) : Except ArgFault Argv :=
  argv.modify i fun dest => strcpyFrom dest 0 src

/-! ## Parsing a command -/

/-- `while (*cmd && (*cmd == ' ')) ++cmd` -/
def skipBlanks (cmd : List UInt8) : List UInt8 := cmd.dropWhile fun c => c ≠ 0 ∧ c = blank

/-- `while ((delim = strchr(cmd, ' ')))`; `none` when there are too many arguments.  Each pass takes
    one byte at least, so that the number of bytes bounds the passes. -/
def parseLoop : Nat → List UInt8 → Nat → Argv → Except ArgFault (Argv × Option Nat)
  | 0, _, _, _ => throw .unterminated
  | fuel + 1, cmd, argc, argv => do
    match ← strchr blank cmd with
    | none => return (argv, some argc)
    | some delim =>
      if argc = maxArgs then
        return (argv, none)
      else
        let argv ← argv.copy argc (cmd.set delim 0)
        parseLoop fuel (skipBlanks (cmd.drop (delim + 1))) (argc + 1) argv

/-- The trailing `\n` or `\r` becomes a blank, or else the NUL does.  For the empty string `before`
    is `buf[-1]`. -/
def addDelimiter (buf : List UInt8) (len : Nat) (before : UInt8) : List UInt8 :=
  let last := if len = 0 then before else buf.getD (len - 1) 0
  if last = newline ∨ last = carriageReturn then
    if len = 0 then buf else buf.set (len - 1) blank
  else
    buf.set len blank

/-- `parse_arg(cmd, argv)`.  `before` is the byte in front of the array `buf`, and `garbage` what the
    stack holds behind the copy of the command: the last byte of `buf`, and the memory behind it. -/
def parseArg (cmd : CString) (before : UInt8) (garbage : List UInt8) (argv : Argv) :
    Except ArgFault (Argv × Int) := do
  let buf := cmd.chars ++ 0 :: garbage
  let buf := addDelimiter buf (← strlen buf) before
  match ← parseLoop (buf.length + 1) (skipBlanks buf) 0 argv with
  | (argv, none) => return (argv, -1)
  | (argv, some argc) =>
    if argc = 0 then
      return (argv, -1)
    else
      return (← argv.setNull argc, argc)

/-- The string in `argv[i]`. -/
def Argv.string (argv : Argv) (i : Nat) : Option (List UInt8) :=
  if h : i < maxArgs then (argv ⟨i, h⟩).map fun buf => (ofFn buf).takeWhile (· ≠ 0) else none

/-- The loop of `process_clone` that copies the arguments of the parent to the new vector `child`. -/
def cloneArgs (parent : Argv) (argc : Nat) (child : Argv) : Except ArgFault Argv :=
  (range argc).foldlM (fun child i =>
    match parent.string i with
    | none => throw .nullSlot
    | some arg => child.copy i (arg ++ [0])) child

/-! ## `getargs` -/

/-- `strncpy(dest, src, n)` -/
def strncpy (dest : Nat → UInt8) (src : List UInt8) (n : Nat) : Nat → UInt8 :=
  fun i => if i < n then src.getD i 0 else dest i

/-- `sys_getargs(buf, nbytes)` in a process with these arguments; `none` is `NULL`. -/
def sysGetargs (argc : Int) (argv : Argv) (buf : Option (Nat → UInt8)) (nbytes : UInt32) :
    Except ArgFault (Option (Nat → UInt8) × Int) :=
  if argc ≤ 1 then
    pure (buf, -1)
  else
    match buf with
    | none => pure (none, -1)
    | some buf =>
      match argv.string 1 with
      | none => throw .nullSlot
      | some arg => pure (some (strncpy buf arg nbytes.toNat), 0)

/-! ## `do_execv` -/

/-- `if (s[strlen(s) - 1] == '\n') s[strlen(s) - 1] = '\0'`.  In front of the block is the word `next` of
    its header: the top byte of an address below 64 MB, which is no newline. -/
def stripNewline (buf : ArgBuffer) : Except ArgFault ArgBuffer := do
  match ← strlen (ofFn buf) with
  | 0 => return buf
  | n + 1 => if (ofFn buf).getD n 0 = newline then buf.store n 0 else return buf

/-- The loop of `do_execv` from `i` on: the vector and `argc`. -/
def copyArgs (argv : Argv) (i : Nat) : List CString → Except ArgFault (Argv × Nat)
  | [] => pure (argv, i)
  | arg :: args => do
    let argv ← argv.copy i (arg.chars ++ [0])
    let argv ← argv.modify i stripNewline
    copyArgs argv (i + 1) args

/-- `do_execv` up to the call of `pro_loader`. -/
def setArgs (argv : Argv) (args : List CString) : Except ArgFault (Argv × Nat) := do
  let (argv, argc) ← copyArgs argv 0 args
  if argc < maxArgs then return (← argv.setNull argc, argc) else return (argv, argc)

/-- The fields of a thread that `do_execv` changes, apart from its memory. -/
structure ExecThread where
  argc : Int
  argv : Argv
  nice : Nice
  fds : Option Files

inductive ExecFault where
  | arg (fault : ArgFault)
  | vm (fault : VmFault)

/-- `SHELL` -/
def shellName : CString := .lit [115, 104, 101, 108, 108] (by decide)

/-- `do_execv(curr, pathname, argv)` of the thread `t` up to `switch_to_user`.  `header` is the array of
    `pro_loader`, `mem` the block of the new descriptor table and `stack` the local of `fd_init`. -/
def doExecv (fs : FileSystem) (header : Nat → UInt8) (mem : Files) (stack : File) (s : VmState)
    (t : Nat) (p : ExecThread) (args : List CString) :
    Except ExecFault (VmState × ExecThread × Int) := do
  let (argv, argc) ← (setArgs p.argv args).mapError .arg
  let p := { p with argv, argc := argc }
  match argv.string 0 with
  -- the name is read from address 0
  | none => throw (.vm .pageFault)
  | some name =>
    let shell := (args.head?).any fun arg => strcmp arg shellName = 0
    let program : Program := { fs, fname := fun i => name.getD i 0, header, shell }
    let (s, errno) ← (proLoader program s t).mapError .vm
    if errno < 0 then
      return (s, p, errno)
    else
      let fds := p.fds.map fun _ => (fdInit mem stack).1
      return (s, { p with fds, nice := if shell then niceShell else niceNormal }, 0)

end Illinix.Kernel
