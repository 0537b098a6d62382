import Illinix.Verified.Process.ArgumentBounds
import Illinix.Verified.Vfs.Names
import Illinix.Verified.Vm.Sbrk

/-! # A call of `execv` that fails

`do_execv` stores the new arguments before it looks for the program.  When there is no such program,
memory, nice value and descriptors are as before, and the arguments are those of the call. -/

namespace Illinix.Verified.Process

open Kernel Lib List

/-- The strings in the first `argc` slots. -/
def ExecThread.args (p : ExecThread) : List (Option (List UInt8)) :=
  (range p.argc.toNat).map p.argv.string

/-- The file does not exist, or is no ELF image. -/
def NotExecutable (fs : FileSystem) (header : Nat → UInt8) (name : List UInt8) : Prop :=
  Program.inode { fs, fname := fun i => name.getD i 0, header, shell := false } = .ok none

/-- The call has changed nothing of the thread `t`. -/
structure Unchanged (t : Nat) (s s' : VmState) (p p' : ExecThread) : Prop where
  argc : p'.argc = p.argc
  args : ExecThread.args p' = ExecThread.args p
  areas : s'.vms t = s.vms t
  mapped : s'.toSpace = s.toSpace
  nice : p'.nice = p.nice
  fds : p'.fds = p.fds

theorem stripped_subset (arg : List UInt8) : stripped arg ⊆ arg := by
  unfold stripped
  split
  · exact dropLast_subset arg
  · exact List.Subset.refl arg

theorem length_stripped (arg : List UInt8) : (stripped arg).length ≤ arg.length := by
  unfold stripped
  split
  · rw [length_dropLast]
    omega
  · exact Nat.le_refl _

/-! ## The arguments -/

section

variable {argv : Argv} {i : Nat} {ws : List (List UInt8)}

theorem string_setArgsFrom_of_lt (argv : Argv) {i j : Nat} (before : j < i) (ws : List (List UInt8)) :
    (setArgsFrom argv i ws).string j = argv.string j := by
  induction ws generalizing argv i with
  | nil => rfl
  | cons w ws ih =>
    rw [setArgsFrom, ih _ (Nat.lt_succ_of_lt before), string_setArg_of_ne _ _ (Nat.ne_of_lt before),
      string_setArg_of_ne _ _ (Nat.ne_of_lt before)]

theorem string_setArgsFrom (fits : FitsAll argv i ws) (nul : ∀ w ∈ ws, 0 ∉ w) {k : Nat}
    (hk : k < ws.length) : (setArgsFrom argv i ws).string (i + k) = some (stripped (ws)[k]) := by
  induction ws generalizing argv i k with
  | nil => exact absurd hk (Nat.not_lt_zero k)
  | cons w ws ih =>
    rw [forall_mem_cons] at nul
    obtain ⟨⟨has, short⟩, fits⟩ := fitsAll_cons.mp fits
    cases k with
    | zero =>
      rw [setArgsFrom, Nat.add_zero i, string_setArgsFrom_of_lt _ (Nat.lt_succ_self i)]
      apply string_setArg_self ((hasBuffer_setArg argv i w i).mpr has)
      · exact fun zero => nul.1 (stripped_subset w zero)
      · exact (length_stripped w).trans_lt short
    | succ k =>
      rw [setArgsFrom, show i + (k + 1) = i + 1 + k by omega]
      exact ih fits nul.2 (Nat.lt_of_succ_lt_succ hk)

end

theorem setArgs_strings {argv argv' : Argv} {args : List CString} {argc : Nat}
    (set : setArgs argv args = .ok (argv', argc)) :
    argc = args.length ∧ argv'.string args.length = none ∧
    ∀ k (hk : k < args.length), argv'.string k = some (stripped (args)[k].chars) := by
  by_cases fits : FitsAll argv 0 (args.map CString.chars)
  · rw [setArgs_ok fits] at set
    cases set
    refine ⟨rfl, string_nullAt_self _ _, fun k hk => ?_⟩
    have nul : ∀ w ∈ args.map CString.chars, 0 ∉ w := by
      intro w member
      obtain ⟨arg, -, rfl⟩ := mem_map.mp member
      exact zero_notMem_chars arg
    have here := string_setArgsFrom fits nul (k := k) (by rw [length_map]; exact hk)
    rw [Nat.zero_add, getElem_map] at here
    rw [string_nullAt_of_ne _ (Nat.ne_of_lt hk), here]
  · obtain ⟨fault, error, -⟩ := setArgs_error fits
    rw [error] at set
    cases set

/-! ## The call -/

section

variable {fs : FileSystem} {header : Nat → UInt8} {mem : Files} {stack : File} {s s' : VmState}
  {t : Nat} {p p' : ExecThread} {args : List CString} {errno : Int}

theorem doExecv_missing (done : doExecv fs header mem stack s t p args = .ok (s', p', errno))
    (missing : ∀ arg ∈ args.head?, NotExecutable fs header (stripped arg.chars)) :
    ∃ argv, setArgs p.argv args = .ok (argv, args.length) ∧
      s' = s ∧ p' = { p with argv, argc := args.length } ∧ errno = -1 := by
  unfold doExecv at done
  obtain ⟨⟨argv, argc⟩, set, done⟩ := bind_eq_ok.mp done
  have set := mapError_eq_ok.mp set
  obtain ⟨rfl, behind, strings⟩ := setArgs_strings set
  refine ⟨argv, set, ?_⟩
  cases args with
  | nil =>
    -- `argv[0]` is the NULL behind the arguments
    have first : argv.string 0 = none := behind
    simp only [first] at done
    cases done
  | cons arg args =>
    have first : argv.string 0 = some (stripped arg.chars) := strings 0 (Nat.succ_pos _)
    simp only [first] at done
    obtain ⟨⟨s1, errno1⟩, loaded, done⟩ := bind_eq_ok.mp done
    have inode : ∀ shell, Program.inode
        { fs, fname := fun i => (stripped arg.chars).getD i 0, header, shell } = .ok none :=
      fun _ => missing arg rfl
    rw [mapError_eq_ok, proLoader, inode] at loaded
    cases loaded
    cases done
    exact ⟨rfl, rfl, rfl⟩

theorem args_of_setArgs {argv : Argv} (set : setArgs p.argv args = .ok (argv, args.length)) :
    ExecThread.args { p with argv, argc := args.length } = args.map fun arg => some (stripped arg.chars) := by
  obtain ⟨-, -, strings⟩ := setArgs_strings set
  apply ext_getElem
  · simp [ExecThread.args]
  · intro k hk hk'
    rw [length_map] at hk'
    simp [ExecThread.args, strings k hk']

/-- When the program cannot be executed, everything is as before if the arguments are. -/
theorem failed_execv_iff (done : doExecv fs header mem stack s t p args = .ok (s', p', errno))
    (missing : ∀ arg ∈ args.head?, NotExecutable fs header (stripped arg.chars)) :
    Unchanged t s s' p p' ↔
      p.argc = args.length ∧ ExecThread.args p = args.map fun arg => some (stripped arg.chars) := by
  obtain ⟨argv, set, rfl, rfl, -⟩ := doExecv_missing done missing
  have args := args_of_setArgs set
  constructor
  · intro unchanged
    exact ⟨unchanged.argc.symm, unchanged.args.symm.trans args⟩
  · rintro ⟨argc, same⟩
    exact ⟨argc.symm, args.trans same.symm, rfl, rfl, rfl, rfl⟩

end

/-! ## Examples -/

/-- A process with the argument `"a"`. -/
def oneArgument : ExecThread :=
  { argc := 1, argv := setArg blankArgv 0 [97], nice := niceNormal, fds := none }

theorem oneArgument_args : ExecThread.args oneArgument = [some [97]] := by decide +kernel

/-- The call of this process for a program with one argument, in an empty directory. -/
def execvEmpty (name : CString) : Except ExecFault (VmState × ExecThread × Int) :=
  doExecv Vfs.emptyDirectory (fun _ => 0) blankFiles blankFile Vm.sbrkState 0 oneArgument [name]

theorem emptyDirectory_missing (name : CString) :
    ∀ arg ∈ [name].head?, NotExecutable Vfs.emptyDirectory (fun _ => 0) (stripped arg.chars) :=
  fun _ _ => rfl

theorem exists_execvEmpty {name : CString} (fails : okAnd (execvEmpty name) (fun r => r.2.2 = -1) = true) :
    ∃ s p, execvEmpty name = .ok (s, p, -1) := by
  obtain ⟨⟨s, p, errno⟩, done, value⟩ := okAnd_iff.mp fails
  obtain rfl : errno = -1 := of_decide_eq_true value
  exact ⟨s, p, done⟩

/-- `execv` of `"a\n"`, with the argument that the process has. -/
theorem failed_execv_same_argument :
    ∃ s p, execvEmpty (.lit [97, 10] (by decide)) = .ok (s, p, -1) ∧
      Unchanged 0 Vm.sbrkState s oneArgument p := by
  obtain ⟨s, p, done⟩ := exists_execvEmpty (show okAnd (execvEmpty (.lit [97, 10] (by decide))) _ = true by
    decide +kernel)
  exact ⟨s, p, done, (failed_execv_iff done (emptyDirectory_missing _)).mpr ⟨rfl, oneArgument_args⟩⟩

/-- `execv` of `"b"` fails, and the process is left with the argument `"b"`. -/
theorem failed_execv_replaces_arguments :
    ∃ s p, execvEmpty (.lit [98] (by decide)) = .ok (s, p, -1) ∧
      ExecThread.args p = [some [98]] ∧ ¬ Unchanged 0 Vm.sbrkState s oneArgument p := by
  obtain ⟨s, p, done⟩ := exists_execvEmpty (show okAnd (execvEmpty (.lit [98] (by decide))) _ = true by
    decide +kernel)
  obtain ⟨argv, set, -, rfl, -⟩ := doExecv_missing done (emptyDirectory_missing _)
  have args := args_of_setArgs set
  refine ⟨s, _, done, args, fun unchanged => ?_⟩
  have same := args.symm.trans (unchanged.args.trans oneArgument_args)
  exact absurd same (by decide)

end Illinix.Verified.Process
