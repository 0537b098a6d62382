import Mathlib.Logic.Function.Basic

/-! # The shell

The loop of `src/bsh.c` up to the argument vector of a command, with `fgets` of `lib/stdio.c` and
the string functions of `lib/string.c`.  A buffer is the memory from its first byte on; what it
holds before the first store is arbitrary.

`none` stands for an access outside of an array: a string that does not end in its buffer of 256
bytes, `buf[-1]`, or an eleventh element of `argv`. -/

namespace Illinix.User

/-- `MAXARGS` -/
def maxArgs : Nat := 10

/-- `MAXLINE` -/
def maxLine : Nat := 256

abbrev Buffer := Nat → UInt8

/-- `' '` -/
def space : UInt8 := 32

/-- `'&'` -/
def ampersand : UInt8 := 38

/-! ## Strings -/

/-- `while (s[len]) ++len`; the first argument bounds the number of bytes left in the array. -/
def strlenFrom (s : Buffer) : Nat → Nat → Option Nat
  | 0, _ => none
  | fuel + 1, len => if s len = 0 then some len else strlenFrom s fuel (len + 1)

/-- `strlen` of a string at the start of an array of `MAXLINE` bytes. -/
def strlen (s : Buffer) : Option Nat := strlenFrom s maxLine 0

/-- `strcpy` between arrays of `MAXLINE` bytes. -/
def strcpy (dest src : Buffer) : Option Buffer :=
  (strlen src).map fun n i => if i ≤ n then src i else dest i

/-- The position of the first `c` of the string at `p`. -/
def strchr (s : Buffer) (c : UInt8) : Nat → Nat → Option Nat
  | 0, _ => none
  | fuel + 1, p => if s p = 0 then none else if s p = c then some p else strchr s c fuel (p + 1)

/-- The string at `p`. -/
def stringAt (s : Buffer) : Nat → Nat → List UInt8
  | 0, _ => []
  | fuel + 1, p => if s p = 0 then [] else s p :: stringAt s fuel (p + 1)

/-! ## Reading and parsing a command -/

/-- `fgets`, where `terminal_read` delivers `line`.  It stores these bytes and nothing behind
    them. -/
def fgets (s : Buffer) (line : List UInt8) : Buffer :=
  fun i => if i < line.length then line.getD i 0 else s i

/-- `while (*buf && (*buf == ' ')) ++buf` -/
def skipSpaces (s : Buffer) : Nat → Nat → Nat
  | 0, p => p
  | fuel + 1, p => if s p ≠ 0 ∧ s p = space then skipSpaces s fuel (p + 1) else p

/-- `while ((delim = strchr(buf, ' ')))`; the arguments so far come first. -/
def parseLoop : Nat → Buffer → Nat → List Nat → Option (Buffer × List Nat)
  | 0, _, _, _ => none
  | fuel + 1, s, p, argv =>
    match strchr s space maxLine p with
    | none => some (s, argv)
    | some delim =>
      if maxArgs ≤ argv.length then
        none
      else
        let s := Function.update s delim 0
        parseLoop fuel s (skipSpaces s maxLine (delim + 1)) (argv ++ [p])

/-- The end of `parse`, from `argv[argc] = NULL` on. -/
def parseEnd (buf : Buffer) (argv : List Nat) : Option (List Nat × Bool) :=
  if maxArgs ≤ argv.length then
    none
  else
    match argv.getLast? with
    | none => some ([], true)
    | some last => if buf last = ampersand then some (argv.dropLast, true) else some (argv, false)

/-- The buffer, the positions of the arguments in it, and the flag. -/
def parse (buf : Buffer) : Option (Buffer × List Nat × Bool) := do
  match ← strlen buf with
  | 0 => none
  | n + 1 =>
    let buf := Function.update buf n space
    let (buf, argv) ← parseLoop maxLine buf (skipSpaces buf maxLine 0) []
    return (buf, ← parseEnd buf argv)

/-- The strings in `argv` and the flag `background`. -/
structure Command where
  argv : List (List UInt8)
  background : Bool
deriving DecidableEq, Repr

/-- The part of `eval` that computes them; `buf` is its uninitialised array. -/
def eval (cmd buf : Buffer) : Option Command := do
  let buf ← strcpy buf cmd
  let (buf, argv, background) ← parse buf
  return ⟨argv.map (stringAt buf maxLine), background⟩

/-- The loop of `main`: for each round the line that is delivered and what the array of `eval`
    holds. -/
def session (cmdline : Buffer) : List (List UInt8 × Buffer) → List (Option Command)
  | [] => []
  | (line, buf) :: rounds =>
    let cmdline := fgets cmdline line
    eval cmdline buf :: session cmdline rounds

end Illinix.User
