import Illinix.Lib.Run
import Illinix.Verified.Process.Arguments

/-! # Stores to an argument vector

`parse_arg` and `do_execv` stay inside the vector and its buffers exactly when there are few enough
arguments, each of at most 32 characters, and each slot they copy to still has its buffer.  Each call
of `do_execv` removes the buffer behind its last argument, so that the vectors a process passes to it
must not get longer. -/

namespace Illinix.Verified.Process

open Kernel Lib Function List

variable {args : List CString} {argv argv' : Argv} {i limit : Nat}

/-- Nothing outside of the vector and its buffers was stored.  A string without an end is read beyond
    the mapped memory, and nothing is stored then. -/
def Safe {α : Type} (r : Except ArgFault α) : Prop := ∀ fault, r = .error fault → fault = .unterminated

theorem safe_ok {α : Type} (a : α) : Safe (.ok a : Except ArgFault α) := by
  intro fault error
  cases error

/-! ## `parse_arg` -/

theorem safe_parseArg_iff (cmd : CString) (before : UInt8) (garbage : List UInt8) (argv : Argv) :
    Safe (parseArg cmd before garbage argv) ↔ Fits argv 0 (foundWords cmd.chars before garbage) ∧
      ((foundWords cmd.chars before garbage).length = maxArgs →
        ¬ (EndsLine cmd.chars before ∨ 0 ∈ garbage)) := by
  by_cases fits : Fits argv 0 (foundWords cmd.chars before garbage)
  · obtain ⟨argv', result, -⟩ := parseArg_of_fits cmd before garbage rfl fits
    rw [result, and_iff_right fits]
    constructor
    · intro safe full ended
      rw [if_neg (by omega), if_neg (not_not.mpr ended), if_neg (by rw [full]; decide), if_pos full] at safe
      cases safe .slot rfl
    · intro going
      split_ifs with many ended nothing full
      · exact safe_ok _
      · exact safe_ok _
      · exact absurd ended (going full)
      · exact safe_ok _
      · intro fault error
        cases error
        rfl
  · obtain ⟨fault, error, violation⟩ := parseArg_of_not_fits cmd before garbage fits
    rw [error]
    exact iff_of_false (fun safe => violation (safe fault rfl)) fun both => fits both.1

/-! ## `do_execv` -/

/-- An argument without its trailing newline. -/
def stripped (arg : List UInt8) : List UInt8 := if arg.getLastD 0 = newline then arg.dropLast else arg

theorem overwrite_overwrite {u v : List UInt8} (same : v <+: u) (buf : ArgBuffer) :
    overwrite (overwrite buf 0 u) 0 v = overwrite buf 0 u := by
  obtain ⟨rest, rfl⟩ := same
  funext j
  unfold overwrite
  simp only [Nat.zero_le, true_and, Nat.zero_add, Nat.sub_zero]
  split
  · next inside =>
    rw [if_pos (by rw [length_append]; omega), getD_append _ _ _ _ inside]
  · rfl

/-- The NUL in place of the character behind `text`. -/
theorem update_overwrite (buf : ArgBuffer) {text rest : List UInt8} (inside : text.length < argSize) :
    update (overwrite buf 0 (text ++ rest)) ⟨text.length, inside⟩ 0 =
      overwrite (overwrite buf 0 (text ++ rest)) 0 (text ++ [0]) := by
  funext j
  by_cases here : j = ⟨text.length, inside⟩
  · rw [here, update_self, overwrite, if_pos (by simp)]
    simp
  · have other : (j : Nat) ≠ text.length := fun same => here (Fin.ext same)
    rw [update_of_ne here, overwrite, overwrite, overwrite]
    simp only [Nat.zero_le, true_and, Nat.zero_add, Nat.sub_zero, length_append, length_singleton]
    by_cases before : (j : Nat) < text.length
    · rw [if_pos (by omega), if_pos (by omega), getD_append _ _ _ _ before, getD_append _ _ _ _ before]
    · rw [if_neg (c := (j : Nat) < text.length + 1) (by omega)]

theorem stripNewline_eq {w : List UInt8} (nul : 0 ∉ w) (short : w.length < argSize) (buf : ArgBuffer) :
    stripNewline (overwrite buf 0 (w ++ [0])) =
      .ok (overwrite (overwrite buf 0 (w ++ [0])) 0 (stripped w ++ [0])) := by
  unfold stripNewline
  rw [ofFn_overwrite buf short, strlen_append nul]
  rcases eq_nil_or_concat' w with rfl | ⟨text, c, rfl⟩
  · exact congrArg Except.ok (overwrite_overwrite (prefix_refl [0]) buf).symm
  · have length : (text ++ [c]).length = text.length + 1 := by simp
    have last : ∀ rest : List UInt8, ((text ++ [c]) ++ 0 :: rest).getD text.length 0 = c := by simp
    rw [length, ok_bind]
    simp only [last]
    rw [stripped, getLastD_concat, dropLast_concat]
    split
    · rw [ArgBuffer.store, dif_pos (by omega), append_assoc, update_overwrite]
      rfl
    · rw [overwrite_overwrite (prefix_refl _)]
      rfl

/-- The vector after the loop of `do_execv`, from slot `i` on. -/
def setArgsFrom (argv : Argv) (i : Nat) : List (List UInt8) → Argv
  | [] => argv
  | w :: ws => setArgsFrom (setArg (setArg argv i w) i (stripped w)) (i + 1) ws

/-- There is a buffer for every argument, and it is large enough. -/
def FitsAll (argv : Argv) (i : Nat) (ws : List (List UInt8)) : Prop :=
  ∀ k (hk : k < ws.length), HasBuffer argv (i + k) ∧ (ws)[k].length < argSize

section

variable {argv : Argv} {i : Nat} {w : List UInt8} {ws : List (List UInt8)}

theorem hasBuffer_setArgsFrom (argv : Argv) (i : Nat) (ws : List (List UInt8)) (j : Nat) :
    HasBuffer (setArgsFrom argv i ws) j ↔ HasBuffer argv j := by
  induction ws generalizing argv i with
  | nil => rfl
  | cons w ws ih => rw [setArgsFrom, ih, hasBuffer_setArg, hasBuffer_setArg]

theorem fitsAll_cons : FitsAll argv i (w :: ws) ↔ (HasBuffer argv i ∧ w.length < argSize) ∧
      FitsAll (setArg (setArg argv i w) i (stripped w)) (i + 1) ws := by
  constructor
  · intro fits
    refine ⟨fits 0 (Nat.succ_pos _), fun k hk => ?_⟩
    rw [hasBuffer_setArg, hasBuffer_setArg, Nat.add_right_comm]
    exact fits (k + 1) (Nat.succ_lt_succ hk)
  · rintro ⟨first, later⟩ k hk
    cases k with
    | zero => exact first
    | succ k =>
      have := later k (Nat.lt_of_succ_lt_succ hk)
      rw [hasBuffer_setArg, hasBuffer_setArg, Nat.add_right_comm] at this
      exact this

/-- One argument is copied, and its newline removed. -/
theorem modify_stripNewline (has : HasBuffer argv i) (nul : 0 ∉ w) (short : w.length < argSize) :
    (setArg argv i w).modify i stripNewline = .ok (setArg (setArg argv i w) i (stripped w)) := by
  obtain ⟨hi, has⟩ := has
  obtain ⟨buf, slot⟩ := Option.isSome_iff_exists.mp has
  have copied : setArg argv i w ⟨i, hi⟩ = some (overwrite buf 0 (w ++ [0])) := by
    rw [setArg, if_pos rfl, slot, Option.map_some]
  unfold Argv.modify
  rw [dif_pos hi, copied]
  simp only [stripNewline_eq nul short, ok_bind, pure_eq_ok]
  congr 1
  funext j
  by_cases here : j = ⟨i, hi⟩
  · rw [here, update_self, setArg, if_pos rfl, copied]
    rfl
  · rw [update_of_ne here, setArg_of_ne (setArg argv i w) _ fun same => here (Fin.ext same)]

end

theorem copyArgs_ok (fits : FitsAll argv i (args.map CString.chars)) :
    copyArgs argv i args = .ok (setArgsFrom argv i (args.map CString.chars), i + args.length) := by
  induction args generalizing argv i with
  | nil => rfl
  | cons arg args ih =>
    obtain ⟨⟨has, short⟩, later⟩ := fitsAll_cons.mp fits
    have nul := zero_notMem_chars arg
    rw [copyArgs, copy_ok [] has nul short, ok_bind, modify_stripNewline has nul short, ok_bind,
      ih later, map_cons, setArgsFrom, length_cons, Nat.add_right_comm]
    rfl

theorem copyArgs_error (astray : ¬ FitsAll argv i (args.map CString.chars)) :
    ∃ fault, copyArgs argv i args = .error fault ∧ fault ≠ .unterminated := by
  induction args generalizing argv i with
  | nil => exact absurd (fun k hk => absurd hk (Nat.not_lt_zero k)) astray
  | cons arg args ih =>
    rw [map_cons, fitsAll_cons] at astray
    have nul := zero_notMem_chars arg
    by_cases here : HasBuffer argv i ∧ arg.chars.length < argSize
    · rw [copyArgs, copy_ok [] here.1 nul here.2, ok_bind, modify_stripNewline here.1 nul here.2, ok_bind]
      exact ih fun fits => astray ⟨here, fits⟩
    · obtain ⟨fault, copied, violation⟩ := copy_error [] nul here
      rw [copyArgs, copied]
      exact ⟨fault, rfl, violation⟩

theorem setArgs_ok (fits : FitsAll argv 0 (args.map CString.chars)) : setArgs argv args = .ok
      (nullAt (setArgsFrom argv 0 (args.map CString.chars)) args.length, args.length) := by
  unfold setArgs
  rw [copyArgs_ok fits, ok_bind, Nat.zero_add]
  simp only
  split
  · next few =>
    rw [setNull_eq, if_pos few]
    rfl
  · next full =>
    -- there is no slot for a NULL behind the arguments
    have same : nullAt (setArgsFrom argv 0 (args.map CString.chars)) args.length =
        setArgsFrom argv 0 (args.map CString.chars) := by
      funext j
      exact if_neg (by omega)
    rw [same]
    rfl

theorem setArgs_error (astray : ¬ FitsAll argv 0 (args.map CString.chars)) :
    ∃ fault, setArgs argv args = .error fault ∧ fault ≠ .unterminated := by
  obtain ⟨fault, error, violation⟩ := copyArgs_error astray
  refine ⟨fault, ?_, violation⟩
  unfold setArgs
  rw [error]
  rfl

theorem safe_setArgs_iff (argv : Argv) (args : List CString) :
    Safe (setArgs argv args) ↔ FitsAll argv 0 (args.map CString.chars) := by
  by_cases fits : FitsAll argv 0 (args.map CString.chars)
  · rw [setArgs_ok fits]
    exact iff_of_true (safe_ok _) fits
  · obtain ⟨fault, error, violation⟩ := setArgs_error fits
    rw [error]
    exact iff_of_false (fun safe => violation (safe fault rfl)) fits

/-! ## The vector of a process -/

theorem hasBuffer_nullAt (argv : Argv) (i j : Nat) :
    HasBuffer (nullAt argv i) j ↔ HasBuffer argv j ∧ j ≠ i := by
  unfold HasBuffer nullAt
  by_cases here : j = i
  · simp [here]
  · simp [here]

/-- A call of `do_execv` that stays inside, whether or not the program is then found. -/
def ExecvStep (argv : Argv) (args : List CString) (argv' : Argv) : Prop :=
  setArgs argv args = .ok (argv', args.length)

theorem ExecvStep.hasBuffer (step : ExecvStep argv args argv') (j : Nat) :
    HasBuffer argv' j ↔ HasBuffer argv j ∧ j ≠ args.length := by
  unfold ExecvStep at step
  by_cases fits : FitsAll argv 0 (args.map CString.chars)
  · rw [setArgs_ok fits] at step
    cases step
    rw [hasBuffer_nullAt, hasBuffer_setArgsFrom]
  · obtain ⟨fault, error, -⟩ := setArgs_error fits
    rw [error] at step
    cases step

theorem hasBuffer_run {calls : List (List CString)} (run : Run ExecvStep argv calls argv') (j : Nat) :
    HasBuffer argv' j ↔ HasBuffer argv j ∧ ∀ args ∈ calls, j ≠ args.length := by
  induction run with
  | nil => simp
  | cons step _ ih => rw [ih, step.hasBuffer, forall_mem_cons, and_assoc]

/-- A new process with its vector, and the number of arguments it can be given: those of the command,
    or all ten for the copy that `fork` makes. -/
inductive Created : Argv → Nat → Prop where
  | exec {cmd : CString} {before : UInt8} {garbage : List UInt8} {fresh argv : Argv} {argc : Nat}
      (buffers : ∀ i < maxArgs, HasBuffer fresh i)
      (parsed : parseArg cmd before garbage fresh = .ok (argv, argc)) : Created argv argc
  | fork {parent fresh argv : Argv} {argc : Nat} (buffers : ∀ i < maxArgs, HasBuffer fresh i)
      (cloned : cloneArgs parent argc fresh = .ok argv) : Created argv maxArgs

theorem hasBuffer_copy {src : List UInt8}
    (copied : argv.copy i src = .ok argv') (j : Nat) : HasBuffer argv' j ↔ HasBuffer argv j := by
  unfold Argv.copy Argv.modify at copied
  split at copied
  · next hi =>
    split at copied
    · cases copied
    · next buf slot =>
      obtain ⟨dest, -, stored⟩ := bind_eq_ok.mp copied
      cases stored
      apply exists_congr
      intro hj
      by_cases here : (⟨j, hj⟩ : Fin maxArgs) = ⟨i, hi⟩
      · rw [here, update_self, slot]
        simp
      · rw [update_of_ne here]
  · cases copied

theorem hasBuffer_cloneArgs {parent child : Argv} {argc : Nat}
    (cloned : cloneArgs parent argc child = .ok argv) (j : Nat) :
    HasBuffer argv j ↔ HasBuffer child j := by
  unfold cloneArgs at cloned
  generalize range argc = slots at cloned
  induction slots generalizing child with
  | nil =>
    cases cloned
    rfl
  | cons i rest ih =>
    rw [foldlM_cons] at cloned
    obtain ⟨copy, copied, cloned⟩ := bind_eq_ok.mp cloned
    split at copied
    · cases copied
    · rw [ih cloned, hasBuffer_copy copied]

/-- The vector that `__exec` hands to a new process. -/
theorem parseArg_nonneg {cmd : CString} {before : UInt8} {garbage : List UInt8} {fresh : Argv}
    {argc : Nat} (parsed : parseArg cmd before garbage fresh = .ok (argv, argc)) :
    Fits fresh 0 (foundWords cmd.chars before garbage) ∧
    argc = (foundWords cmd.chars before garbage).length ∧ 0 < argc ∧ argc < maxArgs ∧
    argv = nullAt (setWords fresh 0 (foundWords cmd.chars before garbage)) argc := by
  by_cases fits : Fits fresh 0 (foundWords cmd.chars before garbage)
  · obtain ⟨argv', result, all⟩ := parseArg_of_fits cmd before garbage rfl fits
    rw [parsed] at result
    refine ⟨fits, ?_⟩
    split_ifs at result with many ended nothing full
    · cases result
    · cases result
    · rw [all (by omega)] at result
      obtain ⟨rfl, same⟩ := Prod.mk.inj (Except.ok.inj result)
      obtain rfl := Int.ofNat_inj.mp same
      exact ⟨rfl, by omega, by omega, rfl⟩
  · obtain ⟨fault, error, -⟩ := parseArg_of_not_fits cmd before garbage fits
    rw [parsed] at error
    cases error

theorem Created.hasBuffer (created : Created argv limit) (j : Nat) :
    HasBuffer argv j ↔ j < maxArgs ∧ j ≠ limit := by
  cases created with
  | exec buffers parsed =>
    obtain ⟨-, -, -, -, rfl⟩ := parseArg_nonneg parsed
    rw [hasBuffer_nullAt, hasBuffer_setWords]
    exact and_congr_left' ⟨fun has => has.1, buffers j⟩
  | fork buffers cloned =>
    rw [hasBuffer_cloneArgs cloned]
    constructor
    · rintro ⟨hj, -⟩
      exact ⟨hj, Nat.ne_of_lt hj⟩
    · rintro ⟨hj, -⟩
      exact buffers j hj

theorem Created.limit_le (created : Created argv limit) : limit ≤ maxArgs := by
  cases created with
  | exec buffers parsed => exact (parseArg_nonneg parsed).2.2.2.1.le
  | fork => exact Nat.le_refl maxArgs

theorem length_chars (s : CString) : s.chars.length = s.len := by
  rw [CString.chars, length_map, length_range]

/-- The arguments fit when they are short, and not more than in any call before. -/
theorem Created.fitsAll_iff {calls : List (List CString)}
    (created : Created argv limit) (run : Run ExecvStep argv calls argv') (args : List CString) :
    FitsAll argv' 0 (args.map CString.chars) ↔ (∀ arg ∈ args, arg.len < argSize) ∧ args.length ≤ limit ∧
      ∀ call ∈ calls, args.length ≤ call.length := by
  have limited := created.limit_le
  have buffer : ∀ k, HasBuffer argv' k ↔ (k < maxArgs ∧ k ≠ limit) ∧ ∀ call ∈ calls, k ≠ call.length := by
    intro k
    rw [hasBuffer_run run, created.hasBuffer]
  constructor
  · intro fits
    have all : ∀ k (hk : k < args.length), HasBuffer argv' k ∧ (args)[k].len < argSize := by
      intro k hk
      have here := fits k (by rw [length_map]; exact hk)
      rwa [Nat.zero_add, getElem_map, length_chars] at here
    refine ⟨fun arg member => ?_, ?_, fun call member => ?_⟩
    · obtain ⟨k, hk, rfl⟩ := getElem_of_mem member
      exact (all k hk).2
    · by_contra long
      exact ((buffer limit).mp (all limit (by omega)).1).1.2 rfl
    · by_contra long
      exact ((buffer call.length).mp (all call.length (by omega)).1).2 call member rfl
  · rintro ⟨short, few, fewer⟩ k hk
    rw [length_map] at hk
    refine ⟨?_, ?_⟩
    · rw [Nat.zero_add, buffer]
      refine ⟨⟨by omega, by omega⟩, fun call member => ?_⟩
      have := fewer call member
      omega
    · rw [getElem_map, length_chars]
      exact short _ (getElem_mem hk)

/-- `parse_arg` keeps to the vector and its buffers if the words it finds fit and are not exactly ten;
    `do_execv` does if no argument has more than 32 characters and no earlier vector was shorter. -/
theorem argument_stores_iff (cmd : CString) (before : UInt8) (garbage : List UInt8) (argv : Argv) :
    (Safe (parseArg cmd before garbage argv) ↔
      Fits argv 0 (foundWords cmd.chars before garbage) ∧
      ((foundWords cmd.chars before garbage).length = maxArgs →
        ¬ (EndsLine cmd.chars before ∨ 0 ∈ garbage))) ∧
    ∀ limit calls argv' args, Created argv limit → Run ExecvStep argv calls argv' →
      (Safe (setArgs argv' args) ↔
        (∀ arg ∈ args, arg.len < argSize) ∧ args.length ≤ limit ∧
        ∀ call ∈ calls, args.length ≤ call.length) := by
  refine ⟨safe_parseArg_iff cmd before garbage argv, fun limit calls argv' args created run => ?_⟩
  rw [safe_setArgs_iff]
  exact created.fitsAll_iff run args

/-- The vector of a program that was started by a command with `argc` words. -/
theorem exists_parsed (cmd : CString) (garbage : List UInt8) (argc : Nat)
    (value : okAnd (parseArg cmd 0 garbage blankArgv) (fun r => r.2 = argc) = true) :
    ∃ argv, parseArg cmd 0 garbage blankArgv = .ok (argv, argc) := by
  obtain ⟨⟨argv, value'⟩, parsed, same⟩ := okAnd_iff.mp value
  obtain rfl : value' = argc := of_decide_eq_true same
  exact ⟨argv, parsed⟩

/-- A program started by `"a b\n"` is replaced by `"x"`. -/
theorem argument_stores_inside :
    ∃ argv, Created argv 2 ∧ Safe (setArgs argv [.lit [120] (by decide)]) := by
  obtain ⟨argv, parsed⟩ := exists_parsed (.lit [97, 32, 98, 10] (by decide)) [] 2 (by decide +kernel)
  have created : Created argv 2 := .exec blankArgv_buffers parsed
  refine ⟨argv, created, ?_⟩
  have stores := argument_stores_iff (.lit [] (by decide)) 0 [] argv
  refine (stores.2 2 [] argv _ created (.nil argv)).mpr ⟨?_, by decide, ?_⟩
  · intro arg member
    rw [List.mem_singleton.mp member]
    decide
  · intro call member
    cases member

/-- Ten words make `parse_arg` store a NULL behind the vector; and after a command of one word, two
    arguments make `do_execv` copy to address 0. -/
theorem argument_stores_astray :
    ¬ Safe (parseArg (.lit [97, 32, 97, 32, 97, 32, 97, 32, 97, 32, 97, 32, 97, 32, 97, 32, 97, 32, 97, 10]
      (by decide)) 0 [] blankArgv) ∧
    ∃ argv, parseArg (.lit [97, 10] (by decide)) 0 [] blankArgv = .ok (argv, 1) ∧
      ¬ Safe (setArgs argv [.lit [97] (by decide), .lit [98] (by decide)]) := by
  constructor
  · rw [safe_parseArg_iff]
    exact fun safe => safe.2 (by decide +kernel) (.inl (by decide +kernel))
  · obtain ⟨argv, parsed⟩ := exists_parsed (.lit [97, 10] (by decide)) [] 1 (by decide +kernel)
    have created : Created argv 1 := .exec blankArgv_buffers parsed
    refine ⟨argv, parsed, ?_⟩
    rw [safe_setArgs_iff, created.fitsAll_iff (.nil argv)]
    exact fun safe => absurd safe.2.1 (by decide)

end Illinix.Verified.Process
