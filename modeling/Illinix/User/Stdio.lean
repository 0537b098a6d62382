import Illinix.Kernel.Format

/-! # The user library's strings and output

`strcmp`, `strncmp`, `strrev`, `itoa` and `atoi` of `lib/string.c` and `printf` of `lib/stdio.c`.  Most of them
have the text of the kernel's functions; `strrev` counts in unsigned numbers. -/

namespace Illinix.User

open Kernel (ArgFault CString Argument Printed sub32)

def strcmp (s1 s2 : CString) : Int := Kernel.strcmpFrom s1.bytes s2.bytes 0 (s1.len + 1)

def strncmp (s1 s2 : Nat → UInt8) (n : Nat) : Int := Kernel.strncmpFrom s1 s2 0 n

/-- `strrev`.  For the empty string `end` is the greatest `size_t`. -/
def strrev (s : List UInt8) : Except ArgFault (List UInt8) := do
  Kernel.strrevLoop s.length s 0 (sub32 (← Kernel.strlen s) 1)

def itoa : UInt32 → List UInt8 → UInt32 → Except ArgFault (List UInt8) := Kernel.itoaWith strrev

/-- The loop of `atoi`. -/
def atoiLoop (number : Int32) : List UInt8 → Except ArgFault Int32
  | [] => throw .unterminated
  | c :: nptr =>
    if c ≠ 0 then
      if 48 ≤ c.toInt8 ∧ c.toInt8 ≤ 57 then
        atoiLoop (number * 10 + (c.toInt8.toInt32 - 48)) nptr
      else
        pure number
    else
      pure number

def atoi : List UInt8 → Except ArgFault Int32
  | [] => throw .unterminated
  | c :: nptr => do
    if c = 45 then
      return -1 * (← atoiLoop 0 nptr)
    else
      return 1 * (← atoiLoop 0 (c :: nptr))

/-- `printf`; `fuel` bounds the number of bytes it reads. -/
def printf (fuel : Nat) (format : Nat → UInt8) (args : Nat → Argument) (junk : Nat → Nat → UInt8) :
    Option (Except ArgFault Printed) :=
  Kernel.printfFrom strrev format args junk fuel .text 0 0 [] []

end Illinix.User
