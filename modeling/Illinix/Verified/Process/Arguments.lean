import Illinix.Kernel.Arguments
import Illinix.Lib.Except
import Illinix.Lib.Words
import Mathlib.Data.List.GetD
import Mathlib.Data.List.OfFn
import Mathlib.Data.List.TakeWhile

/-! # Copying and parsing arguments

`strcpy` into a buffer of 33 bytes is correct for at most 32 characters, `parse_arg` copies the words
of its command one after the other, and the words it finds are those of the line, together with what
the stack holds behind a line without a newline. -/

namespace Illinix.Verified.Process

open Kernel Lib Function List

variable {c : UInt8} {i : Nat} {line mem w : List UInt8}

/-! ## One buffer -/

/-- The buffer with `w` stored from byte `i` on. -/
def overwrite (buf : ArgBuffer) (i : Nat) (w : List UInt8) : ArgBuffer :=
  fun j => if i ≤ j ∧ j < i + w.length then w.getD (j - i) 0 else buf j

theorem overwrite_cons (buf : ArgBuffer) (hi : i < argSize) (c : UInt8) (w : List UInt8) :
    overwrite (update buf ⟨i, hi⟩ c) (i + 1) w = overwrite buf i (c :: w) := by
  funext j
  unfold overwrite
  rcases Nat.lt_trichotomy j i with before | here | behind
  · rw [if_neg (by omega), if_neg (by omega), update_of_ne]
    exact fun same => Nat.ne_of_lt before (congrArg Fin.val same)
  · have same : j = ⟨i, hi⟩ := Fin.ext here
    rw [if_neg (by omega), if_pos ⟨by omega, by rw [length_cons]; omega⟩, here, Nat.sub_self,
      same, update_self]
    rfl
  · have later : (j : Nat) - i = j - (i + 1) + 1 := by omega
    rw [later, getD_cons_succ, length_cons]
    by_cases inside : (j : Nat) < i + 1 + w.length
    · rw [if_pos (by omega), if_pos (by omega)]
    · rw [if_neg (by omega), if_neg (by omega), update_of_ne]
      exact fun same => Nat.ne_of_gt behind (congrArg Fin.val same)

theorem strcpyFrom_cons (dest : ArgBuffer) (i : Nat) (c : UInt8) (src : List UInt8) :
    strcpyFrom dest i (c :: src) = if h : i < argSize then
        if c = 0 then .ok (update dest ⟨i, h⟩ c)
        else strcpyFrom (update dest ⟨i, h⟩ c) (i + 1) src
      else
        .error .buffer := by
  rw [strcpyFrom, ArgBuffer.store]
  split <;> rfl

/-- What stands behind the NUL of the source does not matter. -/
theorem strcpyFrom_eq (rest : List UInt8) (nul : 0 ∉ w) (dest : ArgBuffer) (i : Nat) :
    strcpyFrom dest i (w ++ 0 :: rest) =
      if i + w.length < argSize then .ok (overwrite dest i (w ++ [0])) else .error .buffer := by
  induction w generalizing dest i with
  | nil =>
    rw [nil_append, strcpyFrom_cons, length_nil]
    by_cases inside : i < argSize
    · rw [dif_pos inside, if_pos rfl, if_pos (by omega), nil_append, ← overwrite_cons dest inside]
      congr 1
      funext j
      exact (if_neg (by rw [length_nil]; omega)).symm
    · rw [dif_neg inside, if_neg (by omega)]
  | cons c w ih =>
    rw [mem_cons, not_or] at nul
    rw [cons_append, strcpyFrom_cons, length_cons]
    by_cases inside : i < argSize
    · rw [dif_pos inside, if_neg (Ne.symm nul.1), ih nul.2, overwrite_cons dest inside, Nat.add_right_comm]
      rfl
    · rw [dif_neg inside, if_neg (by omega)]

theorem ofFn_overwrite (buf : ArgBuffer) (short : w.length < argSize) :
    List.ofFn (overwrite buf 0 (w ++ [0])) = w ++ 0 :: (List.ofFn buf).drop (w.length + 1) := by
  apply ext_getElem
  · simp
    omega
  · intro j hj hj'
    rw [List.getElem_ofFn, overwrite, length_append, length_singleton]
    simp only [Nat.zero_le, true_and, Nat.zero_add, Nat.sub_zero]
    rcases Nat.lt_trichotomy j w.length with before | rfl | behind
    · rw [if_pos (by omega), getElem_append_left before, getD_append _ _ _ _ before]
      exact getD_eq_getElem _ _ before
    · simp
    · obtain ⟨k, rfl⟩ := Nat.exists_eq_add_of_lt behind
      have index : w.length + k + 1 - w.length = k + 1 := by omega
      rw [if_neg (by omega), getElem_append_right (by omega)]
      simp only [index, getElem_cons_succ, getElem_drop, List.getElem_ofFn]
      congr 2
      omega

theorem string_overwrite (buf : ArgBuffer) (nul : 0 ∉ w) (short : w.length < argSize) :
    (ofFn (overwrite buf 0 (w ++ [0]))).takeWhile (· ≠ 0) = w := by
  rw [ofFn_overwrite buf short, takeWhile_append_of_pos]
  · simp
  · intro c hc
    exact decide_eq_true fun zero => nul (zero ▸ hc)

/-! ## The vector -/

/-- `argv[i]` points to a buffer. -/
def HasBuffer (argv : Argv) (i : Nat) : Prop := ∃ h : i < maxArgs, (argv ⟨i, h⟩).isSome

/-- The vector after `strcpy(argv[i], w)`. -/
def setArg (argv : Argv) (i : Nat) (w : List UInt8) : Argv :=
  fun j => if (j : Nat) = i then (argv j).map fun buf => overwrite buf 0 (w ++ [0]) else argv j

theorem setArg_of_ne (argv : Argv) (w : List UInt8) {j : Fin maxArgs} (other : (j : Nat) ≠ i) :
    setArg argv i w j = argv j :=
  if_neg other

theorem hasBuffer_setArg (argv : Argv) (i : Nat) (w : List UInt8) (j : Nat) :
    HasBuffer (setArg argv i w) j ↔ HasBuffer argv j := by
  unfold HasBuffer setArg
  apply exists_congr
  intro hj
  split <;> simp

theorem string_setArg_self {argv : Argv} (has : HasBuffer argv i) (nul : 0 ∉ w)
    (short : w.length < argSize) : (setArg argv i w).string i = some w := by
  obtain ⟨hi, has⟩ := has
  obtain ⟨buf, slot⟩ := Option.isSome_iff_exists.mp has
  rw [Argv.string, dif_pos hi, setArg, if_pos rfl, slot, Option.map_some, Option.map_some,
    string_overwrite buf nul short]

theorem string_setArg_of_ne (argv : Argv) {j : Nat} (w : List UInt8) (other : j ≠ i) :
    (setArg argv i w).string j = argv.string j := by
  unfold Argv.string setArg
  simp only [if_neg other]

section

variable (rest : List UInt8) {argv : Argv} {i : Nat} {w : List UInt8}

theorem copy_ok (has : HasBuffer argv i) (nul : 0 ∉ w) (short : w.length < argSize) :
    argv.copy i (w ++ 0 :: rest) = .ok (setArg argv i w) := by
  obtain ⟨hi, has⟩ := has
  obtain ⟨buf, slot⟩ := Option.isSome_iff_exists.mp has
  have copied := strcpyFrom_eq rest nul buf 0
  rw [if_pos (by omega)] at copied
  unfold Argv.copy Argv.modify
  rw [dif_pos hi, slot]
  simp only [copied, ok_bind, pure_eq_ok]
  congr 1
  funext j
  unfold setArg
  by_cases here : j = ⟨i, hi⟩
  · subst here
    rw [update_self, if_pos rfl, slot]
    rfl
  · rw [update_of_ne here, if_neg fun same => here (Fin.ext same)]

/-- Without a buffer, or with too many characters, the copy goes astray. -/
theorem copy_error (nul : 0 ∉ w) (bad : ¬ (HasBuffer argv i ∧ w.length < argSize)) :
    ∃ fault, argv.copy i (w ++ 0 :: rest) = .error fault ∧ fault ≠ .unterminated := by
  unfold Argv.copy Argv.modify
  by_cases hi : i < maxArgs
  · rw [dif_pos hi]
    cases slot : argv ⟨i, hi⟩ with
    | none => exact ⟨.nullSlot, rfl, by decide⟩
    | some buf =>
      have long : ¬ 0 + w.length < argSize := by
        intro short
        exact bad ⟨⟨hi, by rw [slot]; rfl⟩, by omega⟩
      have copied := strcpyFrom_eq rest nul buf 0
      rw [if_neg long] at copied
      simp only [copied, error_bind]
      exact ⟨.buffer, rfl, by decide⟩
  · rw [dif_neg hi]
    exact ⟨.slot, rfl, by decide⟩

end

/-! ## The words of a command -/

def isBlank (c : UInt8) : Bool := c = blank

/-- The characters of the string that starts here. -/
def cstring (mem : List UInt8) : List UInt8 := mem.takeWhile (· ≠ 0)

/-- Stores words from slot `argc` on, as the loop of `parse_arg` does. -/
def storeWords (argv : Argv) (argc : Nat) : List (List UInt8) → Except ArgFault (Argv × Option Nat)
  | [] => .ok (argv, some argc)
  | w :: ws =>
    if argc = maxArgs then .ok (argv, none)
    else do
      let argv ← argv.copy argc (w ++ [0])
      storeWords argv (argc + 1) ws

/-- The result of the loop when the bytes do not end in a NUL. -/
def needsNul (mem : List UInt8) (r : Argv × Option Nat) : Except ArgFault (Argv × Option Nat) :=
  if 0 ∈ mem ∨ r.2 = none then .ok r else .error .unterminated

theorem strchr_word {rest : List UInt8} (nul : 0 ∉ w) (none : ∀ x ∈ w, isBlank x = false) :
    strchr blank (w ++ blank :: rest) = .ok (some w.length) := by
  induction w with
  | nil => rfl
  | cons c w ih =>
    rw [mem_cons, not_or] at nul
    rw [forall_mem_cons] at none
    have notBlank : c ≠ blank := by simpa [isBlank] using none.1
    rw [cons_append, strchr, if_neg (Ne.symm nul.1), if_neg notBlank, ih nul.2 none.2]
    rfl

theorem strchr_none (none : ∀ x ∈ cstring mem, isBlank x = false) :
    strchr blank mem = if 0 ∈ mem then .ok .none else .error .unterminated := by
  induction mem with
  | nil => rfl
  | cons c mem ih =>
    rw [strchr]
    by_cases zero : c = 0
    · rw [if_pos zero, if_pos (by rw [zero]; exact mem_cons_self)]
      rfl
    · have all : cstring (c :: mem) = c :: cstring mem := takeWhile_cons_of_pos (decide_eq_true zero)
      rw [all, forall_mem_cons] at none
      have notBlank : c ≠ blank := by simpa [isBlank] using none.1
      rw [if_neg zero, if_neg notBlank, ih none.2]
      by_cases ends : 0 ∈ mem
      · rw [if_pos ends, if_pos (mem_cons_of_mem c ends)]
        rfl
      · rw [if_neg ends, if_neg (by simp [ends, Ne.symm zero])]
        rfl

theorem cstring_cons (some : c ≠ 0) (mem : List UInt8) : cstring (c :: mem) = c :: cstring mem :=
  takeWhile_cons_of_pos (decide_eq_true some)

theorem zero_notMem_cstring (mem : List UInt8) : 0 ∉ cstring mem := by
  intro zero
  have := mem_takeWhile_imp zero
  simp at this

/-- A word at the start of a string is one at the start of its bytes. -/
theorem eq_append_of_cstring {t : List UInt8} (eq : cstring mem = w ++ c :: t) :
    ∃ rest, mem = w ++ c :: rest ∧ cstring rest = t := by
  induction w generalizing mem with
  | nil =>
    cases mem with
    | nil => cases eq
    | cons b mem =>
      have some : b ≠ 0 := by
        rintro rfl
        cases eq
      rw [cstring_cons some] at eq
      cases eq
      exact ⟨mem, rfl, rfl⟩
  | cons a w ih =>
    cases mem with
    | nil => cases eq
    | cons b mem =>
      have some : b ≠ 0 := by
        rintro rfl
        cases eq
      rw [cstring_cons some, cons_append] at eq
      obtain ⟨rfl, tail⟩ := cons_eq_cons.mp eq
      obtain ⟨rest, rfl, here⟩ := ih tail
      exact ⟨rest, rfl, here⟩

theorem skipBlanks_eq (mem : List UInt8) : skipBlanks mem = mem.dropWhile isBlank := by
  unfold skipBlanks isBlank
  congr 1
  funext c
  by_cases here : c = blank
  · subst here
    rfl
  · simp [here]

theorem cstring_skipBlanks (mem : List UInt8) :
    cstring (skipBlanks mem) = (cstring mem).dropWhile isBlank := by
  rw [skipBlanks_eq]
  induction mem with
  | nil => rfl
  | cons c mem ih =>
    cases hc : isBlank c with
    | true =>
      have some : c ≠ 0 := by
        rintro rfl
        cases hc
      rw [dropWhile_cons_of_pos hc, cstring_cons some, dropWhile_cons_of_pos hc, ih]
    | false =>
      have stop : ¬ isBlank c = true := by simp [hc]
      rw [dropWhile_cons_of_neg stop]
      by_cases zero : c = 0
      · subst zero
        rfl
      · rw [cstring_cons zero, dropWhile_cons_of_neg stop]

theorem zero_mem_skipBlanks : 0 ∈ skipBlanks mem ↔ 0 ∈ mem := by
  rw [skipBlanks_eq]
  have blanks : ∀ x ∈ mem.takeWhile isBlank, isBlank x = true := fun _ => mem_takeWhile_imp
  have zero : 0 ∉ mem.takeWhile isBlank := fun here => absurd (blanks 0 here) (by decide)
  conv_rhs => rw [← takeWhile_append_dropWhile (p := isBlank) (l := mem), mem_append]
  simp [zero]

theorem copy_congr (rest : List UInt8) (argv : Argv) (i : Nat) (nul : 0 ∉ w) :
    argv.copy i (w ++ 0 :: rest) = argv.copy i (w ++ [0]) := by
  unfold Argv.copy
  congr 1
  funext dest
  rw [strcpyFrom_eq rest nul, strcpyFrom_eq [] nul]

/-- The loop of `parse_arg` stores the words that are followed by a blank. -/
theorem parseLoop_eq {fuel : Nat} (enough : mem.length < fuel) (argc : Nat) (argv : Argv) :
    parseLoop fuel (skipBlanks mem) argc argv =
      storeWords argv argc (complete isBlank (cstring mem)) >>= needsNul mem := by
  induction fuel generalizing mem argc argv with
  | zero => exact absurd enough (Nat.not_lt_zero _)
  | succ fuel ih =>
    have here : complete isBlank (cstring (skipBlanks mem)) = complete isBlank (cstring mem) := by
      rw [cstring_skipBlanks, complete_dropWhile]
    rw [parseLoop, ← here]
    obtain none | ⟨w, c, t, eq, none, sep⟩ := forall_not_or_exists_sep isBlank (cstring (skipBlanks mem))
    · rw [strchr_none none, complete_of_forall_not none]
      simp only [zero_mem_skipBlanks, storeWords, needsNul, ok_bind]
      split_ifs with ends <;> simp_all
    · obtain rfl : c = blank := by simpa [isBlank] using sep
      obtain ⟨rest, bytes, rfl⟩ := eq_append_of_cstring eq
      have nul : 0 ∉ w := by
        intro zero
        apply zero_notMem_cstring (skipBlanks mem)
        rw [eq]
        exact mem_append_left _ zero
      -- the blanks in front have been skipped
      have some : w ≠ [] := by
        rintro rfl
        have head := head?_dropWhile_not isBlank mem
        rw [← skipBlanks_eq, bytes] at head
        simp [isBlank] at head
      have shorter : rest.length < fuel := by
        have length : (skipBlanks mem).length ≤ mem.length := length_dropWhile_le ..
        rw [bytes, length_append, length_cons] at length
        omega
      have ends : 0 ∈ mem ↔ 0 ∈ rest := by
        rw [← zero_mem_skipBlanks, bytes]
        simp [nul, blank]
      rw [eq, complete_append_sep sep, words_of_forall_not none some, bytes, strchr_word nul none]
      have set : (w ++ blank :: rest).set w.length 0 = w ++ 0 :: rest := by simp
      have drop : (w ++ blank :: rest).drop (w.length + 1) = rest := by simp
      simp only [ok_bind, set, drop, singleton_append, storeWords]
      by_cases full : argc = maxArgs
      · rw [if_pos full, if_pos full]
        simp [needsNul]
      · rw [if_neg full, if_neg full, copy_congr rest argv argc nul, bind_assoc]
        congr 1
        funext argv
        rw [ih shorter]
        congr 1
        funext r
        unfold needsNul
        simp only [ends]

/-! ## Storing words -/

/-- There is a buffer for each word, and it is large enough. -/
def Fits (argv : Argv) (argc : Nat) (ws : List (List UInt8)) : Prop :=
  ∀ k (hk : k < ws.length), argc + k < maxArgs →
    HasBuffer argv (argc + k) ∧ (ws)[k].length < argSize

/-- The vector with the words from slot `argc` on. -/
def setWords (argv : Argv) (argc : Nat) : List (List UInt8) → Argv
  | [] => argv
  | w :: ws => setWords (setArg argv argc w) (argc + 1) ws

section

variable {argv : Argv} {argc : Nat} {w : List UInt8} {ws : List (List UInt8)}

theorem fits_cons (room : argc < maxArgs) : Fits argv argc (w :: ws) ↔
      (HasBuffer argv argc ∧ w.length < argSize) ∧ Fits (setArg argv argc w) (argc + 1) ws := by
  constructor
  · intro fits
    refine ⟨fits 0 (Nat.succ_pos _) room, fun k hk inside => ?_⟩
    rw [hasBuffer_setArg]
    have later := fits (k + 1) (Nat.succ_lt_succ hk) (by omega)
    rw [show argc + (k + 1) = argc + 1 + k by omega] at later
    exact later
  · rintro ⟨first, later⟩ k hk inside
    cases k with
    | zero => exact first
    | succ k =>
      have := later k (Nat.lt_of_succ_lt_succ hk) (by omega)
      rw [hasBuffer_setArg, show argc + 1 + k = argc + (k + 1) by omega] at this
      exact this

theorem hasBuffer_setWords (argv : Argv) (argc : Nat) (ws : List (List UInt8)) (j : Nat) :
    HasBuffer (setWords argv argc ws) j ↔ HasBuffer argv j := by
  induction ws generalizing argv argc with
  | nil => rfl
  | cons w ws ih => rw [setWords, ih, hasBuffer_setArg]

theorem string_setWords_of_lt (argv : Argv) {argc j : Nat} (before : j < argc)
    (ws : List (List UInt8)) : (setWords argv argc ws).string j = argv.string j := by
  induction ws generalizing argv argc with
  | nil => rfl
  | cons w ws ih =>
    rw [setWords, ih _ (Nat.lt_succ_of_lt before), string_setArg_of_ne _ _ (Nat.ne_of_lt before)]

theorem string_setWords (fits : Fits argv argc ws) (nul : ∀ w ∈ ws, 0 ∉ w) {k : Nat}
    (hk : k < ws.length) (inside : argc + k < maxArgs) :
    (setWords argv argc ws).string (argc + k) = some (ws)[k] := by
  induction ws generalizing argv argc k with
  | nil => exact absurd hk (Nat.not_lt_zero k)
  | cons w ws ih =>
    rw [forall_mem_cons] at nul
    obtain ⟨⟨has, short⟩, fits⟩ := (fits_cons (by omega)).mp fits
    cases k with
    | zero =>
      rw [setWords, Nat.add_zero argc, string_setWords_of_lt _ (Nat.lt_succ_self argc)]
      exact string_setArg_self has nul.1 short
    | succ k =>
      rw [setWords, show argc + (k + 1) = argc + 1 + k by omega]
      exact ih fits nul.2 (Nat.lt_of_succ_lt_succ hk) (by omega)

theorem storeWords_ok (fits : Fits argv argc ws) (nul : ∀ w ∈ ws, 0 ∉ w) (bound : argc ≤ maxArgs) :
    ∃ argv', storeWords argv argc ws =
        .ok (argv', if argc + ws.length ≤ maxArgs then some (argc + ws.length) else none) ∧
      (argc + ws.length ≤ maxArgs → argv' = setWords argv argc ws) := by
  induction ws generalizing argv argc with
  | nil =>
    rw [length_nil, Nat.add_zero, if_pos bound]
    exact ⟨argv, rfl, fun _ => rfl⟩
  | cons w ws ih =>
    rw [forall_mem_cons] at nul
    by_cases full : argc = maxArgs
    · rw [storeWords, if_pos full, if_neg (by rw [length_cons]; omega)]
      refine ⟨argv, rfl, fun below => ?_⟩
      rw [length_cons] at below
      omega
    · obtain ⟨⟨has, short⟩, fits⟩ := (fits_cons (by omega)).mp fits
      rw [storeWords, if_neg full, copy_ok [] has nul.1 short, ok_bind, length_cons,
        show argc + (ws.length + 1) = argc + 1 + ws.length by omega]
      exact ih fits nul.2 (by omega)

theorem storeWords_error (astray : ¬ Fits argv argc ws) (nul : ∀ w ∈ ws, 0 ∉ w) (bound : argc ≤ maxArgs) :
    ∃ fault, storeWords argv argc ws = .error fault ∧ fault ≠ .unterminated := by
  induction ws generalizing argv argc with
  | nil => exact absurd (fun k hk => absurd hk (Nat.not_lt_zero k)) astray
  | cons w ws ih =>
    rw [forall_mem_cons] at nul
    by_cases full : argc = maxArgs
    · refine absurd (fun k hk inside => ?_) astray
      omega
    · rw [fits_cons (by omega)] at astray
      rw [storeWords, if_neg full]
      by_cases here : HasBuffer argv argc ∧ w.length < argSize
      · rw [copy_ok [] here.1 nul.1 here.2, ok_bind]
        exact ih (fun fits => astray ⟨here, fits⟩) nul.2 (by omega)
      · obtain ⟨fault, copied, violation⟩ := copy_error [] nul.1 here
        rw [copied, error_bind]
        exact ⟨fault, rfl, violation⟩

end

/-! ## `parse_arg` -/

/-- The line without its newline or carriage return. -/
def lineText (line : List UInt8) : List UInt8 :=
  if line.getLastD 0 = newline ∨ line.getLastD 0 = carriageReturn then line.dropLast else line

/-- `parse_arg` finds a newline or carriage return to replace; `before` is the byte it looks at when
    the line is empty. -/
def EndsLine (line : List UInt8) (before : UInt8) : Prop :=
  line.getLastD before = newline ∨ line.getLastD before = carriageReturn

instance (line : List UInt8) (before : UInt8) : Decidable (EndsLine line before) :=
  inferInstanceAs (Decidable (_ ∨ _))

/-- The words that the bytes behind the line add to it. -/
def strayWords (garbage : List UInt8) : List (List UInt8) := complete isBlank (cstring garbage)

/-- All the words that `parse_arg` finds. -/
def foundWords (line : List UInt8) (before : UInt8) (garbage : List UInt8) : List (List UInt8) :=
  words isBlank (lineText line) ++ if EndsLine line before then [] else strayWords garbage

theorem zero_notMem_chars (s : CString) : 0 ∉ s.chars := by
  unfold CString.chars
  rw [mem_map]
  rintro ⟨i, hi, zero⟩
  exact s.body i (mem_range.mp hi) zero

theorem strlen_append (nul : 0 ∉ line) (rest : List UInt8) : strlen (line ++ 0 :: rest) = .ok line.length := by
  induction line with
  | nil => rfl
  | cons c line ih =>
    rw [mem_cons, not_or] at nul
    rw [cons_append, strlen, if_neg (Ne.symm nul.1), ih nul.2]
    rfl

theorem cstring_append (nul : 0 ∉ line) (rest : List UInt8) :
    cstring (line ++ rest) = line ++ cstring rest := by
  apply takeWhile_append_of_pos
  intro c hc
  exact decide_eq_true fun zero => nul (zero ▸ hc)

/-- The bytes from which the words are taken. -/
structure Delimited (line : List UInt8) (before : UInt8) (garbage buf : List UInt8) : Prop where
  found : complete isBlank (cstring buf) = foundWords line before garbage
  ends : 0 ∈ buf ↔ EndsLine line before ∨ 0 ∈ garbage

/-- The newline becomes the blank behind the last word. -/
theorem delimited_newline {text : List UInt8} (nul : 0 ∉ text) (ends : c = newline ∨ c = carriageReturn)
    (before : UInt8) (garbage : List UInt8) :
    Delimited (text ++ [c]) before garbage (text ++ blank :: 0 :: garbage) where
  found := by
    have line : lineText (text ++ [c]) = text := by
      rw [lineText, getLastD_concat, if_pos ends, dropLast_concat]
    have replaced : EndsLine (text ++ [c]) before := by
      rw [EndsLine, getLastD_concat]
      exact ends
    rw [foundWords, if_pos replaced, line, cstring_append nul, append_nil]
    change complete isBlank (text ++ blank :: []) = _
    rw [complete_append_sep (by decide), complete_nil, append_nil]
  ends := by
    simp [EndsLine, ends]

/-- The NUL becomes the blank behind the last word, and the string goes on behind it. -/
theorem delimited_nul (nul : 0 ∉ line) {before : UInt8}
    (going : ¬ EndsLine line before) (garbage : List UInt8) :
    Delimited line before garbage (line ++ blank :: garbage) where
  found := by
    have text : lineText line = line := by
      rcases eq_nil_or_concat' line with rfl | ⟨text, c, rfl⟩
      · rfl
      · rw [EndsLine, getLastD_concat] at going
        rw [lineText, getLastD_concat, if_neg going]
    rw [foundWords, if_neg going, text, cstring_append nul, cstring_cons (by decide),
      complete_append_sep (by decide), strayWords]
  ends := by
    simp [going, nul, blank]

theorem addDelimiter_delimited (nul : 0 ∉ line) (before : UInt8) (garbage : List UInt8) :
    Delimited line before garbage (addDelimiter (line ++ 0 :: garbage) line.length before) := by
  rcases eq_nil_or_concat' line with rfl | ⟨text, c, rfl⟩
  · change Delimited [] before garbage
      (if before = newline ∨ before = carriageReturn then 0 :: garbage else blank :: garbage)
    split
    · next ends =>
      have ends : EndsLine [] before := ends
      constructor
      · rw [foundWords, if_pos ends]
        rfl
      · simp [ends]
    · next going => exact delimited_nul nul going garbage
  · have length : (text ++ [c]).length = text.length + 1 := by simp
    have last : ((text ++ [c]) ++ 0 :: garbage).getD (text.length + 1 - 1) 0 = c := by simp
    rw [addDelimiter, length, if_neg (Nat.succ_ne_zero _), last]
    split
    · next ends =>
      have set : ((text ++ [c]) ++ 0 :: garbage).set (text.length + 1 - 1) blank =
          text ++ blank :: 0 :: garbage := by simp
      rw [if_neg (Nat.succ_ne_zero _), set]
      exact delimited_newline (fun zero => nul (mem_append_left _ zero)) ends before garbage
    · next going =>
      have set : ((text ++ [c]) ++ 0 :: garbage).set (text.length + 1) blank =
          (text ++ [c]) ++ blank :: garbage := by simp
      rw [set]
      apply delimited_nul nul
      rw [EndsLine, getLastD_concat]
      exact going

/-! ### The result -/

theorem lineText_subset (line : List UInt8) : lineText line ⊆ line := by
  unfold lineText
  split
  · exact dropLast_subset line
  · exact List.Subset.refl line

theorem zero_notMem_foundWords (nul : 0 ∉ line) (before : UInt8)
    (garbage : List UInt8) : ∀ w ∈ foundWords line before garbage, 0 ∉ w := by
  intro w hw zero
  rw [foundWords, mem_append] at hw
  rcases hw with hw | hw
  · exact nul (lineText_subset line (mem_of_mem_words hw zero))
  · split at hw
    · cases hw
    · exact zero_notMem_cstring garbage (mem_of_mem_complete hw zero)

/-- The vector with `NULL` in slot `i`. -/
def nullAt (argv : Argv) (i : Nat) : Argv := fun j => if (j : Nat) = i then none else argv j

theorem setNull_eq (argv : Argv) (i : Nat) :
    argv.setNull i = if i < maxArgs then .ok (nullAt argv i) else .error .slot := by
  unfold Argv.setNull
  split
  · next hi =>
    congr 1
    funext j
    unfold nullAt
    by_cases here : j = ⟨i, hi⟩
    · rw [here, update_self, if_pos rfl]
    · rw [update_of_ne here, if_neg fun same => here (Fin.ext same)]
  · rfl

section

variable (cmd : CString) (before : UInt8) (garbage : List UInt8) {argv : Argv}

theorem parseArg_eq (argv : Argv) :
    ∃ buf, (0 ∈ buf ↔ EndsLine cmd.chars before ∨ 0 ∈ garbage) ∧
      parseArg cmd before garbage argv =
        ((storeWords argv 0 (foundWords cmd.chars before garbage) >>= needsNul buf) >>= fun r =>
          match r with
          | (argv, none) => .ok (argv, -1)
          | (argv, some argc) =>
            if argc = 0 then .ok (argv, -1)
            else argv.setNull argc >>= fun argv => .ok (argv, (argc : Int))) := by
  have delimited := addDelimiter_delimited (zero_notMem_chars cmd) before garbage
  refine ⟨_, delimited.ends, ?_⟩
  unfold parseArg
  simp only [strlen_append (zero_notMem_chars cmd), ok_bind]
  rw [parseLoop_eq (Nat.lt_succ_self _), delimited.found]
  rfl

theorem parseArg_of_fits {ws : List (List UInt8)} (found : foundWords cmd.chars before garbage = ws)
    (fits : Fits argv 0 ws) :
    ∃ argv', parseArg cmd before garbage argv = (if maxArgs < ws.length then .ok (argv', -1)
        else if ¬ (EndsLine cmd.chars before ∨ 0 ∈ garbage) then .error .unterminated
        else if ws.length = 0 then .ok (argv', -1)
        else if ws.length = maxArgs then .error .slot
        else .ok (nullAt argv' ws.length, (ws.length : Int))) ∧
      (ws.length ≤ maxArgs → argv' = setWords argv 0 ws) := by
  obtain ⟨buf, ends, parsed⟩ := parseArg_eq cmd before garbage argv
  have nul := zero_notMem_foundWords (zero_notMem_chars cmd) before garbage
  rw [found] at parsed nul
  obtain ⟨argv', stored, all⟩ := storeWords_ok fits nul (Nat.zero_le _)
  rw [Nat.zero_add] at stored all
  refine ⟨argv', ?_, all⟩
  rw [parsed, stored, ok_bind]
  by_cases many : maxArgs < ws.length
  · rw [if_pos many, if_neg (by omega), needsNul, if_pos (.inr rfl), ok_bind]
  · rw [if_neg many, if_pos (by omega), needsNul]
    by_cases ended : EndsLine cmd.chars before ∨ 0 ∈ garbage
    · rw [if_pos (.inl (ends.mpr ended)), if_neg (not_not.mpr ended), ok_bind]
      simp only [setNull_eq]
      by_cases nothing : ws.length = 0
      · rw [if_pos nothing, if_pos nothing]
      · rw [if_neg nothing, if_neg nothing]
        by_cases full : ws.length = maxArgs
        · rw [if_pos full, if_neg (by omega)]
          rfl
        · rw [if_neg full, if_pos (by omega)]
          rfl
    · rw [if_pos ended, if_neg]
      · rfl
      · rw [ends]
        simp [ended]

/-- A word without a buffer or with too many characters is copied astray. -/
theorem parseArg_of_not_fits (astray : ¬ Fits argv 0 (foundWords cmd.chars before garbage)) :
    ∃ fault, parseArg cmd before garbage argv = .error fault ∧ fault ≠ .unterminated := by
  obtain ⟨buf, -, parsed⟩ := parseArg_eq cmd before garbage argv
  obtain ⟨fault, stored, violation⟩ := storeWords_error astray
    (zero_notMem_foundWords (zero_notMem_chars cmd) before garbage) (Nat.zero_le _)
  refine ⟨fault, ?_, violation⟩
  rw [parsed, stored]
  rfl

end

/-! ## Which commands are parsed correctly -/

/-- `parse_arg` has returned the number of these words and stored them in order, or has refused the
    line because there are none. -/
def Parsed (r : Except ArgFault (Argv × Int)) (ws : List (List UInt8)) : Prop :=
  if ws = [] then ∃ argv, r = .ok (argv, -1)
  else ∃ argv, r = .ok (argv, ws.length) ∧
    (∀ k (hk : k < ws.length), argv.string k = some (ws)[k]) ∧ argv.string ws.length = none

/-- The bytes behind the line do not add an argument. -/
def Harmless (garbage : List UInt8) : Prop :=
  0 ∈ garbage ∧ ∀ c ∈ (cstring garbage).dropWhile isBlank, c ≠ blank

/-- The bytes behind the line hold more words than the vector, of which the first ten are short enough
    for their buffers. -/
def Refused (garbage : List UInt8) : Prop :=
  maxArgs < (strayWords garbage).length ∧
  ∀ k (hk : k < (strayWords garbage).length), k < maxArgs → (strayWords garbage)[k].length < argSize

theorem strayWords_eq_nil {garbage : List UInt8} :
    strayWords garbage = [] ↔ ∀ c ∈ (cstring garbage).dropWhile isBlank, c ≠ blank := by
  rw [strayWords, complete_eq_nil_iff]
  simp [isBlank]

theorem string_nullAt_self (argv : Argv) (i : Nat) : (nullAt argv i).string i = none := by
  unfold Argv.string nullAt
  simp

theorem string_nullAt_of_ne (argv : Argv) {j : Nat} (other : j ≠ i) :
    (nullAt argv i).string j = argv.string j := by
  unfold Argv.string nullAt
  simp only [if_neg other]

section

variable {cmd : CString} {before : UInt8} {garbage : List UInt8} {argv : Argv}
  {ws : List (List UInt8)}

/-- Up to nine short words are parsed. -/
theorem parsed_of_found (found : foundWords cmd.chars before garbage = ws)
    (ended : EndsLine cmd.chars before ∨ 0 ∈ garbage) (buffers : ∀ i < maxArgs, HasBuffer argv i)
    (few : ws.length < maxArgs) (short : ∀ w ∈ ws, w.length < argSize) :
    Parsed (parseArg cmd before garbage argv) ws := by
  have fits : Fits argv 0 ws := fun k hk inside => ⟨buffers _ inside, short _ (getElem_mem hk)⟩
  have nul := zero_notMem_foundWords (zero_notMem_chars cmd) before garbage
  rw [found] at nul
  obtain ⟨argv', parsed, all⟩ := parseArg_of_fits cmd before garbage found fits
  rw [if_neg (by omega), if_neg (not_not.mpr ended)] at parsed
  unfold Parsed
  by_cases nothing : ws = []
  · rw [if_pos (by rw [nothing]; rfl)] at parsed
    rw [if_pos nothing]
    exact ⟨argv', parsed⟩
  · rw [if_neg (mt length_eq_zero_iff.mp nothing), if_neg (by omega)] at parsed
    rw [if_neg nothing]
    refine ⟨_, parsed, fun k hk => ?_, string_nullAt_self argv' _⟩
    have stored := string_setWords fits nul hk (by omega)
    rw [Nat.zero_add, ← all (by omega)] at stored
    rw [string_nullAt_of_ne argv' (Nat.ne_of_lt hk), stored]

theorem Parsed.not_error {r : Except ArgFault (Argv × Int)} (parsed : Parsed r ws) (fault : ArgFault) :
    r ≠ .error fault := by
  rintro rfl
  unfold Parsed at parsed
  split at parsed
  · obtain ⟨argv, ok⟩ := parsed
    cases ok
  · obtain ⟨argv, ok, -⟩ := parsed
    cases ok

theorem Parsed.value {argv : Argv} {value : Int} (parsed : Parsed (.ok (argv, value)) ws) :
    value = if ws = [] then -1 else (ws.length : Int) := by
  unfold Parsed at parsed
  split at parsed
  · next nothing =>
    obtain ⟨argv, ok⟩ := parsed
    cases ok
    exact (if_pos nothing).symm
  · next some =>
    obtain ⟨argv, ok, -⟩ := parsed
    cases ok
    exact (if_neg some).symm

/-- The result is right although the line has no newline. -/
theorem Parsed.harmless (parsed : Parsed (parseArg cmd before garbage argv) ws)
    (line : ¬ EndsLine cmd.chars before)
    (found : foundWords cmd.chars before garbage = ws ++ strayWords garbage) :
    Harmless garbage ∨ (ws = [] ∧ Refused garbage) := by
  by_cases fits : Fits argv 0 (ws ++ strayWords garbage)
  · obtain ⟨argv', result, -⟩ := parseArg_of_fits cmd before garbage found fits
    rw [length_append] at result
    by_cases many : maxArgs < ws.length + (strayWords garbage).length
    · -- the line is refused for the words that follow it
      rw [if_pos many] at result
      have value := (result ▸ parsed).value
      split at value
      · next nothing =>
        subst nothing
        refine .inr ⟨rfl, by simpa using many, fun k hk inside => ?_⟩
        exact (fits k hk (by omega)).2
      · omega
    · rw [if_neg many] at result
      by_cases ended : 0 ∈ garbage
      · rw [if_neg (not_not.mpr (.inr ended))] at result
        -- no word was added
        suffices alone : strayWords garbage = [] from .inl ⟨ended, strayWords_eq_nil.mp alone⟩
        split_ifs at result with nothing full
        · exact length_eq_zero_iff.mp (by omega)
        · exact absurd result (parsed.not_error _)
        · have value := (result ▸ parsed).value
          split at value
          · omega
          · exact length_eq_zero_iff.mp (by omega)
      · rw [if_pos (by simp [line, ended])] at result
        exact absurd result (parsed.not_error _)
  · obtain ⟨fault, error, -⟩ := parseArg_of_not_fits cmd before garbage (found ▸ fits)
    exact absurd error (parsed.not_error fault)

theorem parsed_of_refused (found : foundWords cmd.chars before garbage = strayWords garbage)
    (buffers : ∀ i < maxArgs, HasBuffer argv i) (refused : Refused garbage) :
    Parsed (parseArg cmd before garbage argv) [] := by
  have fits : Fits argv 0 (strayWords garbage) := by
    intro k hk inside
    exact ⟨buffers _ inside, refused.2 k hk (by omega)⟩
  obtain ⟨argv', result, -⟩ := parseArg_of_fits cmd before garbage found fits
  rw [if_pos refused.1] at result
  exact ⟨argv', result⟩

end

/-- The words are those of the line when it ends in a newline, or when nothing follows it on the stack
    that looks like an argument. -/
theorem parse_arg_iff (cmd : CString) (before : UInt8) (garbage : List UInt8) {argv : Argv}
    (buffers : ∀ i < maxArgs, HasBuffer argv i)
    (few : (words isBlank (lineText cmd.chars)).length < maxArgs)
    (short : ∀ w ∈ words isBlank (lineText cmd.chars), w.length < argSize) :
    Parsed (parseArg cmd before garbage argv) (words isBlank (lineText cmd.chars)) ↔
      EndsLine cmd.chars before ∨ Harmless garbage ∨
        (words isBlank (lineText cmd.chars) = [] ∧ Refused garbage) := by
  by_cases line : EndsLine cmd.chars before
  · -- the line delimits its own last word
    have found : foundWords cmd.chars before garbage = words isBlank (lineText cmd.chars) := by
      rw [foundWords, if_pos line, append_nil]
    exact iff_of_true (parsed_of_found found (.inl line) buffers few short) (.inl line)
  · generalize own : words isBlank (lineText cmd.chars) = ws at few short ⊢
    have found : foundWords cmd.chars before garbage = ws ++ strayWords garbage := by
      rw [foundWords, if_neg line, own]
    constructor
    · exact fun parsed => .inr (parsed.harmless line found)
    · rintro (ends | ⟨ended, harmless⟩ | ⟨rfl, refused⟩)
      · exact absurd ends line
      · rw [strayWords_eq_nil.mpr harmless, append_nil] at found
        exact parsed_of_found found (.inr ended) buffers few short
      · exact parsed_of_refused found buffers refused

/-- Ten buffers, as `__exec` allocates them. -/
def blankArgv : Argv := fun _ => some fun _ => 0

theorem blankArgv_buffers : ∀ i < maxArgs, HasBuffer blankArgv i := fun _ hi => ⟨hi, rfl⟩

/-- `"ls a\n"` -/
theorem parse_arg_line :
    (∀ i < maxArgs, HasBuffer blankArgv i) ∧
    Parsed (parseArg (.lit [108, 115, 32, 97, 10] (by decide)) 0 [] blankArgv)
      [[108, 115], [97]] := by
  have parsed := parse_arg_iff (.lit [108, 115, 32, 97, 10] (by decide)) 0 [] blankArgv_buffers
    (by decide) (by decide)
  exact ⟨blankArgv_buffers, parsed.mpr (.inl (by decide))⟩

/-- `"ls"` without a newline, and the bytes `"x "` behind it on the stack: `parse_arg` finds two words. -/
theorem parse_arg_takes_stack_bytes :
    words isBlank (lineText (CString.lit [108, 115] (by decide)).chars) = [[108, 115]] ∧
    ¬ Parsed (parseArg (.lit [108, 115] (by decide)) 0 [120, 32, 0] blankArgv) [[108, 115]] := by
  refine ⟨by decide, fun parsed => ?_⟩
  have two : okAnd (parseArg (.lit [108, 115] (by decide)) 0 [120, 32, 0] blankArgv)
      (fun r => r.2 = 2) = true := by
    decide +kernel
  obtain ⟨⟨argv, value⟩, result, two⟩ := okAnd_iff.mp two
  obtain rfl : value = 2 := of_decide_eq_true two
  exact absurd parsed.value (by decide)

end Illinix.Verified.Process
