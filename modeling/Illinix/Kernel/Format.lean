import Illinix.Kernel.Arguments

/-! # Formatted output

`itoa` and `strrev` of `lib/lib.c`, and `puts` and `printf` of `lib/io.c`.  The user library has the same
functions, so that `itoa` and `printf` are written here for both, with the `strrev` they use as an argument.

A pointer into an array is the list of the bytes from it to the end of the array.  An access outside of the
array is an `ArgFault`.  The result of `puts` and `printf` are the characters they pass to `putc`. -/

namespace Illinix.Kernel

open List

/-! ## Numbers -/

/-- `lookup`: the digits, and the letters -/
def lookup : List UInt8 :=
  [48, 49, 50, 51, 52, 53, 54, 55, 56, 57, 65, 66, 67, 68, 69, 70, 71, 72, 73, 74, 75, 76, 77, 78, 79, 80, 81, 82,
    83, 84, 85, 86, 87, 88, 89, 90]

/-- The loop of `strrev`; its turns are fewer than the bytes of the array. -/
def strrevLoop : Nat → List UInt8 → Nat → Nat → Except ArgFault (List UInt8)
  | 0, _, _, _ => throw .buffer
  | fuel + 1, s, i, j =>
    if i < j then
      match s[i]?, s[j]? with
      | some a, some b => strrevLoop fuel ((s.set j a).set i b) (i + 1) (j - 1)
      | _, _ => throw .buffer
    else
      pure s

/-- `strrev`.  For the empty string `end` is -1, and the loop does not start. -/
def strrev (s : List UInt8) : Except ArgFault (List UInt8) := do
  strrevLoop s.length s 0 ((← strlen s) - 1)

/-- The loop of `itoa` and the NUL behind the digits; the list is the array from `newbuf` on. -/
def itoaLoop (radix newval : UInt32) : List UInt8 → Except ArgFault (List UInt8)
  | [] => throw .buffer
  | _ :: newbuf =>
    if newval > 0 then do
      return lookup.getD (newval % radix).toNat 0 :: (← itoaLoop radix (newval / radix) newbuf)
    else
      pure (0 :: newbuf)

/-- `itoa`, for a radix from 1 to 36: behind that the digits leave `lookup`. -/
def itoaWith (strrev : List UInt8 → Except ArgFault (List UInt8)) (value : UInt32) (buf : List UInt8) (radix : UInt32) :
    Except ArgFault (List UInt8) :=
  if value = 0 then
    match buf with
    | _ :: _ :: rest => pure (48 :: 0 :: rest)
    | _ => throw .buffer
  else do
    strrev (← itoaLoop radix value buf)

def itoa : UInt32 → List UInt8 → UInt32 → Except ArgFault (List UInt8) := itoaWith strrev

def puts : List UInt8 → Except ArgFault (List UInt8)
  | [] => throw .unterminated
  | c :: s => if c = 0 then pure [] else do return c :: (← puts s)

/-! ## `printf` -/

/-- A word behind the format on the stack, and the string at this address. -/
structure Argument where
  word : UInt32
  string : CString

section

variable (strrev : List UInt8 → Except ArgFault (List UInt8))

/-- `while (i < 8) { conv_buf[i] = '0'; i++; }` -/
def padZeros (convBuf : List UInt8) (i : Nat) : List UInt8 :=
  (range' i (8 - i)).foldl (fun buf i => buf.set i 48) convBuf

/-- `%x`, with the flag `#` or without it -/
def printHex (alternate : Bool) (value : UInt32) (convBuf : List UInt8) : Except ArgFault (List UInt8) := do
  if alternate then
    let digits ← itoaWith strrev value (convBuf.drop 8) 16
    let startingIndex ← strlen digits
    puts ((padZeros (convBuf.take 8 ++ digits) startingIndex).drop startingIndex)
  else
    puts (← itoaWith strrev value convBuf 16)

/-- `%u` -/
def printUnsigned (value : UInt32) (convBuf : List UInt8) : Except ArgFault (List UInt8) := do
  puts (← itoaWith strrev value convBuf 10)

/-- `%d` -/
def printSigned (value : Int32) (convBuf : List UInt8) : Except ArgFault (List UInt8) := do
  if value < 0 then
    match convBuf with
    | [] => throw .buffer
    | _ :: rest => puts (45 :: (← itoaWith strrev (-value).toUInt32 rest 10))
  else
    puts (← itoaWith strrev value.toUInt32 convBuf 10)

/-- The conversion `c`: what is printed, and the number of arguments it takes.  `junk` is what the array
    `conv_buf` holds. -/
def convert (junk : Nat → UInt8) (alternate : Bool) (c : UInt8) (arg : Argument) : Except ArgFault (List UInt8 × Nat) :=
  -- `%`
  if c = 37 then pure ([37], 0)
  -- `x`
  else if c = 120 then do return (← printHex strrev alternate arg.word ((range 64).map junk), 1)
  -- `u`
  else if c = 117 then do return (← printUnsigned strrev arg.word ((range 36).map junk), 1)
  -- `d`
  else if c = 100 then do return (← printSigned strrev arg.word.toInt32 ((range 36).map junk), 1)
  -- `c`
  else if c = 99 then pure ([arg.word.toUInt8], 1)
  -- `s`
  else if c = 115 then do return (← puts (arg.string.chars ++ [0]), 1)
  else pure ([], 0)

/-- Where `printf` is: at the test of its loop, or at `format_char_switch`. -/
inductive Scan where
  | text
  | conversion (alternate : Bool)
deriving DecidableEq, Repr

structure Printed where
  chars : List UInt8
  /-- the positions of the format that were read, the last one first -/
  reads : List Nat
  /-- the result, an `int` -/
  value : Int

/-- `printf` from the byte `buf` of the format and the argument `esp` on.  Each turn reads one byte of the format;
    the format goes on behind its NUL with what is in memory.  `none` when the turns are used up. -/
def printfFrom (format : Nat → UInt8) (args : Nat → Argument) (junk : Nat → Nat → UInt8) :
    Nat → Scan → Nat → Nat → List UInt8 → List Nat → Option (Except ArgFault Printed)
  | 0, _, _, _, _, _ => none
  | fuel + 1, .text, buf, esp, chars, reads =>
    let reads := buf :: reads
    if format buf = 0 then
      some (pure ⟨chars, reads, (buf : Int).bmod (2 ^ 32)⟩)
    else if format buf = 37 then
      printfFrom format args junk fuel (.conversion false) (buf + 1) esp chars reads
    else
      printfFrom format args junk fuel .text (buf + 1) esp (chars ++ [format buf]) reads
  | fuel + 1, .conversion alternate, buf, esp, chars, reads =>
    let reads := buf :: reads
    if format buf = 35 then
      printfFrom format args junk fuel (.conversion true) (buf + 1) esp chars reads
    else
      match convert strrev (junk buf) alternate (format buf) (args esp) with
      | .error fault => some (.error fault)
      | .ok (text, used) => printfFrom format args junk fuel .text (buf + 1) (esp + used) (chars ++ text) reads

end

/-- `printf`; `fuel` bounds the number of bytes it reads. -/
def printf (fuel : Nat) (format : Nat → UInt8) (args : Nat → Argument) (junk : Nat → Nat → UInt8) :
    Option (Except ArgFault Printed) :=
  printfFrom strrev format args junk fuel .text 0 0 [] []

end Illinix.Kernel
