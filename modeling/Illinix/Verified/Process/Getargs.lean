import Illinix.Verified.Process.ArgumentBounds

/-! # What `getargs` delivers

The documentation asks for the arguments of the command as one text, and for an error when that text
does not fit.  `sys_getargs` copies the first argument and does not look at its length. -/

namespace Illinix.Verified.Process

open Kernel Lib List

/-- The text behind the name of the program, without the blanks in front of it. -/
def argText (line : List UInt8) : List UInt8 :=
  (((lineText line).dropWhile isBlank).dropWhile fun c => !isBlank c).dropWhile isBlank

/-- There is an argument, and the text with a NUL fits in the buffer. -/
def Deliverable (line : List UInt8) (nbytes : UInt32) : Prop :=
  2 ≤ (words isBlank (lineText line)).length ∧ (argText line).length < nbytes.toNat

/-- The buffer starts with the text and a NUL. -/
def HoldsText (buf : Nat → UInt8) (text : List UInt8) : Prop :=
  ∀ i ≤ text.length, buf i = text.getD i 0

/-- `getargs` delivers the arguments of the command, or refuses and leaves the buffer alone. -/
def Delivers (line : List UInt8) (buf : Nat → UInt8) (nbytes : UInt32)
    (r : Except ArgFault (Option (Nat → UInt8) × Int)) : Prop :=
  (Deliverable line nbytes → ∃ buf', r = .ok (some buf', 0) ∧ HoldsText buf' (argText line)) ∧
  (¬ Deliverable line nbytes → r = .ok (some buf, -1))

theorem argText_subset (line : List UInt8) : argText line ⊆ line := by
  unfold argText
  exact fun c hc => lineText_subset line ((dropWhile_sublist _).subset
    ((dropWhile_sublist _).subset ((dropWhile_sublist _).subset hc)))

/-- A copy that is padded with NULs holds the text if that is what was copied. -/
theorem holdsText_strncpy_iff (buf : Nat → UInt8) {arg text : List UInt8} {n : Nat} (nul : 0 ∉ arg)
    (nul' : 0 ∉ text) (fits : text.length < n) :
    HoldsText (strncpy buf arg n) text ↔ arg = text := by
  constructor
  · intro holds
    have copied : ∀ i ≤ text.length, arg.getD i 0 = text.getD i 0 := by
      intro i hi
      rw [← holds i hi, strncpy, if_pos (by omega)]
    have notLonger : arg.length ≤ text.length := by
      by_contra longer
      have last := copied text.length (Nat.le_refl _)
      rw [getD_eq_default _ _ (Nat.le_refl _), getD_eq_getElem _ _ (by omega)] at last
      exact nul (last ▸ getElem_mem _)
    have notShorter : text.length ≤ arg.length := by
      by_contra shorter
      have last := copied arg.length (by omega)
      rw [getD_eq_default _ _ (Nat.le_refl _), getD_eq_getElem _ _ (by omega)] at last
      exact nul' (last ▸ getElem_mem _)
    apply ext_getElem (by omega)
    intro i hi hi'
    have here := copied i (by omega)
    rwa [getD_eq_getElem _ _ hi, getD_eq_getElem _ _ hi'] at here
  · rintro rfl i hi
    rw [strncpy, if_pos (by omega)]

section

variable {cmd : CString} {before : UInt8} {garbage : List UInt8} {fresh argv : Argv} {argc : Nat}

/-- The second of the words that were found is the argument that `getargs` copies. -/
theorem sysGetargs_eq (parsed : parseArg cmd before garbage fresh = .ok (argv, argc))
    (many : 1 < argc) (buf : Nat → UInt8) (nbytes : UInt32) :
    ∃ arg, (foundWords cmd.chars before garbage)[1]? = some arg ∧ 0 ∉ arg ∧
      sysGetargs argc argv (some buf) nbytes = .ok (some (strncpy buf arg nbytes.toNat), 0) := by
  obtain ⟨fits, count, -, few, rfl⟩ := parseArg_nonneg parsed
  have nul := zero_notMem_foundWords (zero_notMem_chars cmd) before garbage
  have second : 1 < (foundWords cmd.chars before garbage).length := by omega
  have stored := string_setWords fits nul second (by decide)
  refine ⟨_, getElem?_eq_getElem second, nul _ (getElem_mem second), ?_⟩
  unfold sysGetargs
  rw [if_neg (by omega)]
  simp only [string_nullAt_of_ne _ (Nat.ne_of_lt many), stored]
  rfl

/-- `getargs` is right for a command without arguments, and for one argument without blanks behind it
    that fits in the buffer. -/
theorem getargs_iff (parsed : parseArg cmd before garbage fresh = .ok (argv, argc))
    (buf : Nat → UInt8) (nbytes : UInt32) :
    Delivers cmd.chars buf nbytes (sysGetargs argc argv (some buf) nbytes) ↔
      (foundWords cmd.chars before garbage).length ≤ 1 ∨ (Deliverable cmd.chars nbytes ∧
        (words isBlank (lineText cmd.chars))[1]? = some (argText cmd.chars)) := by
  obtain ⟨-, count, -⟩ := parseArg_nonneg parsed
  have own : (words isBlank (lineText cmd.chars)).length ≤ argc := by
    rw [count, foundWords, List.length_append]
    omega
  rw [← count]
  by_cases alone : argc ≤ 1
  · have refused : ¬ Deliverable cmd.chars nbytes := fun deliverable => by
      have := deliverable.1
      omega
    refine iff_of_true ⟨fun deliverable => absurd deliverable refused, fun _ => ?_⟩ (.inl alone)
    exact if_pos (by omega)
  · obtain ⟨arg, second, nul, copied⟩ := sysGetargs_eq parsed (by omega) buf nbytes
    rw [copied, or_iff_right alone]
    by_cases deliverable : Deliverable cmd.chars nbytes
    · have same : (words isBlank (lineText cmd.chars))[1]? = some arg := by
        rw [foundWords, List.getElem?_append_left deliverable.1] at second
        exact second
      have nul' : 0 ∉ argText cmd.chars := fun zero =>
        zero_notMem_chars cmd (argText_subset cmd.chars zero)
      have holds := holdsText_strncpy_iff buf nul nul' deliverable.2
      rw [and_iff_right deliverable, same, Option.some_inj, ← holds]
      constructor
      · intro delivers
        obtain ⟨buf', result, text⟩ := delivers.1 deliverable
        cases result
        exact text
      · exact fun text => ⟨fun _ => ⟨_, rfl, text⟩, fun refused => absurd deliverable refused⟩
    · refine iff_of_false (fun delivers => ?_) fun both => deliverable both.1
      obtain ⟨-, value⟩ := Prod.mk.inj (Except.ok.inj (delivers.2 deliverable))
      exact absurd value (by decide)

end

/-- `"cat a\\n"` with room for 16 bytes. -/
theorem getargs_one_argument :
    ∃ argv, parseArg (.lit [99, 97, 116, 32, 97, 10] (by decide)) 0 [] blankArgv = .ok (argv, 2) ∧
      Delivers (CString.lit [99, 97, 116, 32, 97, 10] (by decide)).chars (fun _ => 0) 16
        (sysGetargs 2 argv (some fun _ => 0) 16) := by
  obtain ⟨argv, parsed⟩ := exists_parsed (.lit [99, 97, 116, 32, 97, 10] (by decide)) [] 2 (by decide +kernel)
  exact ⟨argv, parsed, (getargs_iff parsed (fun _ => 0) 16).mpr
    (.inr ⟨⟨by decide, by decide⟩, by decide⟩)⟩

/-- `"cat a b\\n"`: the text `"a b"` fits in 16 bytes, and `getargs` delivers `"a"`. -/
theorem getargs_drops_arguments :
    ∃ argv, parseArg (.lit [99, 97, 116, 32, 97, 32, 98, 10] (by decide)) 0 [] blankArgv = .ok (argv, 3) ∧
      Deliverable (CString.lit [99, 97, 116, 32, 97, 32, 98, 10] (by decide)).chars 16 ∧
      ¬ Delivers (CString.lit [99, 97, 116, 32, 97, 32, 98, 10] (by decide)).chars (fun _ => 0) 16
        (sysGetargs 3 argv (some fun _ => 0) 16) := by
  obtain ⟨argv, parsed⟩ := exists_parsed (.lit [99, 97, 116, 32, 97, 32, 98, 10] (by decide)) [] 3
    (by decide +kernel)
  have deliverable : Deliverable (CString.lit [99, 97, 116, 32, 97, 32, 98, 10] (by decide)).chars 16 :=
    ⟨by decide, by decide⟩
  refine ⟨argv, parsed, deliverable, fun delivers => ?_⟩
  obtain ⟨arg, second, -, copied⟩ := sysGetargs_eq parsed (by decide) (fun _ => 0) 16
  obtain ⟨buf, result, text⟩ := delivers.1 deliverable
  cases copied.symm.trans result
  -- the second byte is the NUL behind `"a"`
  obtain rfl : [97] = arg := Option.some.inj second
  exact absurd (text 1 (by decide)) (by decide)

end Illinix.Verified.Process
