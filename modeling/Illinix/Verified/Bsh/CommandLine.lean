import Illinix.User.Bsh
import Mathlib.Tactic.Common

/-! # What the shell makes of a line

`fgets` does not store a NUL behind the line, so that the command is the line together with what
the buffer held behind it, up to the next NUL.  If there is a NUL right behind the line, the
arguments and the flag are those of the line alone. -/

namespace Illinix.Verified.Bsh

open User Function List

/-- The buffers hold the same string, which ends at `n`. -/
structure SameString (n : Nat) (a b : Buffer) : Prop where
  same : ∀ i ≤ n, a i = b i
  nul : a n = 0

section

variable {n p : Nat} {a b : Buffer}

theorem SameString.update (ab : SameString n a b) {i : Nat} (c : UInt8) (hi : i < n) :
    SameString n (update a i c) (update b i c) where
  same j hj := by
    by_cases here : j = i
    · rw [here, update_self, update_self]
    · rw [update_of_ne here, update_of_ne here]
      exact ab.same j hj
  nul := by
    rw [update_of_ne (Nat.ne_of_gt hi)]
    exact ab.nul

theorem SameString.lt_of_ne (ab : SameString n a b) (hp : p ≤ n) (some : a p ≠ 0) : p < n :=
  Nat.lt_of_le_of_ne hp fun ended => some (ended ▸ ab.nul)

theorem strlenFrom_congr (ab : SameString n a b) (fuel : Nat) (hp : p ≤ n) :
    strlenFrom a fuel p = strlenFrom b fuel p := by
  induction fuel generalizing p with
  | zero => rfl
  | succ fuel ih =>
    unfold strlenFrom
    rw [← ab.same p hp]
    split
    · rfl
    · next more => exact ih (ab.lt_of_ne hp more)

theorem strlenFrom_le (nul : a n = 0) {fuel : Nat} (hp : p ≤ n) {len : Nat} (done : strlenFrom a fuel p = some len) :
    len ≤ n := by
  induction fuel generalizing p with
  | zero => cases done
  | succ fuel ih =>
    unfold strlenFrom at done
    split at done
    · cases done
      exact hp
    · next more => exact ih (Nat.lt_of_le_of_ne hp fun ended => more (ended ▸ nul)) done

theorem strlenFrom_nul {fuel len : Nat} (done : strlenFrom a fuel p = some len) : a len = 0 := by
  induction fuel generalizing p with
  | zero => cases done
  | succ fuel ih =>
    unfold strlenFrom at done
    split at done
    · next ended =>
      cases done
      exact ended
    · exact ih done

theorem strchr_congr (ab : SameString n a b) (c : UInt8) (fuel : Nat) (hp : p ≤ n) :
    strchr a c fuel p = strchr b c fuel p := by
  induction fuel generalizing p with
  | zero => rfl
  | succ fuel ih =>
    unfold strchr
    rw [← ab.same p hp]
    split
    · rfl
    · next more =>
      split
      · rfl
      · exact ih (ab.lt_of_ne hp more)

theorem strchr_lt (ab : SameString n a b) {c : UInt8} {fuel : Nat} (hp : p ≤ n) {delim : Nat}
    (found : strchr a c fuel p = some delim) : delim < n := by
  induction fuel generalizing p with
  | zero => cases found
  | succ fuel ih =>
    unfold strchr at found
    split at found
    · cases found
    · next more =>
      split at found
      · cases found
        exact ab.lt_of_ne hp more
      · exact ih (ab.lt_of_ne hp more) found

theorem stringAt_congr (ab : SameString n a b) (fuel : Nat) (hp : p ≤ n) : stringAt a fuel p = stringAt b fuel p := by
  induction fuel generalizing p with
  | zero => rfl
  | succ fuel ih =>
    unfold stringAt
    rw [← ab.same p hp]
    split
    · rfl
    · next more => rw [ih (ab.lt_of_ne hp more)]

theorem skipSpaces_congr (ab : SameString n a b) (fuel : Nat) (hp : p ≤ n) :
    skipSpaces a fuel p = skipSpaces b fuel p ∧ skipSpaces a fuel p ≤ n := by
  induction fuel generalizing p with
  | zero => exact ⟨rfl, hp⟩
  | succ fuel ih =>
    unfold skipSpaces
    rw [← ab.same p hp]
    split
    · next more => exact ih (ab.lt_of_ne hp more.1)
    · exact ⟨rfl, hp⟩

end

/-! ## The parser -/

/-- Two outcomes of the loop with the same arguments. -/
def SameArgs (n : Nat) : Option (Buffer × List Nat) → Option (Buffer × List Nat) → Prop
  | some (a, argv), some (b, argv') => argv = argv' ∧ SameString n a b ∧ ∀ p ∈ argv, p ≤ n
  | none, none => True
  | _, _ => False

section

variable {n p : Nat} {a b : Buffer}

theorem parseLoop_congr (ab : SameString n a b) {fuel : Nat} (hp : p ≤ n) {argv : List Nat}
    (inside : ∀ q ∈ argv, q ≤ n) : SameArgs n (parseLoop fuel a p argv) (parseLoop fuel b p argv) := by
  induction fuel generalizing p a b argv with
  | zero => trivial
  | succ fuel ih =>
    unfold parseLoop
    rw [← strchr_congr ab space maxLine hp]
    cases found : strchr a space maxLine p with
    | none => exact ⟨rfl, ab, inside⟩
    | some delim =>
      have hd := strchr_lt ab hp found
      have cut := ab.update 0 hd
      obtain ⟨same, bound⟩ := skipSpaces_congr cut maxLine hd
      simp only
      split
      · trivial
      · rw [← same]
        apply ih cut bound
        intro q hq
        rcases mem_append.mp hq with old | new
        · exact inside q old
        · rw [mem_singleton.mp new]
          exact hp

theorem parseEnd_congr (ab : SameString n a b) {argv : List Nat} (inside : ∀ q ∈ argv, q ≤ n) :
    parseEnd a argv = parseEnd b argv ∧ ∀ args, parseEnd a argv = some args → ∀ q ∈ args.1, q ≤ n := by
  unfold parseEnd
  split
  · exact ⟨rfl, fun _ none => by cases none⟩
  · cases last : argv.getLast? with
    | none =>
      refine ⟨rfl, fun args done => ?_⟩
      cases done
      exact forall_mem_nil _
    | some p =>
      have hp := inside p (mem_of_getLast? last)
      simp only [← ab.same p hp]
      refine ⟨trivial, fun args done => ?_⟩
      split at done
      · cases done
        exact fun q hq => inside q (dropLast_subset _ hq)
      · cases done
        exact inside

/-- The command in the array of `eval`. -/
def commandOf (buf : Buffer) : Option Command := do
  let (buf, argv, background) ← parse buf
  return ⟨argv.map (stringAt buf maxLine), background⟩

theorem commandOf_congr (ab : SameString n a b) : commandOf a = commandOf b := by
  have length : strlen a = strlen b := strlenFrom_congr ab maxLine (Nat.zero_le n)
  unfold commandOf parse
  rw [← length]
  cases found : strlen a with
  | none => rfl
  | some len =>
    have bound : len ≤ n := strlenFrom_le ab.nul (Nat.zero_le n) found
    cases len with
    | zero => rfl
    | succ k =>
      have cut := ab.update space bound
      obtain ⟨same, start⟩ := skipSpaces_congr cut maxLine (Nat.zero_le n)
      have loop := @parseLoop_congr n _ _ _ cut maxLine start [] (forall_mem_nil _)
      simp only [Option.bind_eq_bind, Option.bind_some]
      rw [← same]
      generalize parseLoop maxLine (update a k space)
        (skipSpaces (update a k space) maxLine 0) [] = left at loop
      generalize parseLoop maxLine (update b k space)
        (skipSpaces (update a k space) maxLine 0) [] = right at loop
      cases left with
      | none =>
        cases right with
        | none => rfl
        | some _ => exact absurd loop id
      | some l =>
        cases right with
        | none => exact absurd loop id
        | some r =>
          obtain ⟨a', argv⟩ := l
          obtain ⟨b', argv'⟩ := r
          obtain ⟨rfl, strings, inside⟩ := loop
          obtain ⟨same, kept⟩ := parseEnd_congr strings inside
          simp only [Option.bind_some, ← same]
          cases ended : parseEnd a' argv with
          | none => rfl
          | some args =>
            have strings := map_congr_left fun q hq => stringAt_congr strings maxLine (kept args ended q hq)
            simp only [Option.bind_some, Option.pure_def, strings]

/-- The arguments and the flag depend on the string only, not on what is behind it or in `buf`. -/
theorem eval_congr {cmd cmd' : Buffer} (same : SameString n cmd cmd') (buf buf' : Buffer) :
    eval cmd buf = eval cmd' buf' := by
  have length : strlen cmd = strlen cmd' := strlenFrom_congr same maxLine (Nat.zero_le n)
  change (strcpy buf cmd >>= commandOf) = (strcpy buf' cmd' >>= commandOf)
  unfold strcpy
  rw [← length]
  cases found : strlen cmd with
  | none => rfl
  | some len =>
    have bound : len ≤ n := strlenFrom_le same.nul (Nat.zero_le n) found
    have copied : SameString len (fun i => if i ≤ len then cmd i else buf i)
        fun i => if i ≤ len then cmd' i else buf' i := by
      constructor
      · intro i hi
        rw [if_pos hi, if_pos hi]
        exact same.same i (Nat.le_trans hi bound)
      · rw [if_pos (Nat.le_refl len)]
        exact strlenFrom_nul found
    exact commandOf_congr copied

end

/-! ## Lines -/

/-- A line that `terminal_read` delivers. -/
structure LineOk (line : List UInt8) : Prop where
  short : line.length ≤ 128
  ended : line.getLast? = some 10

/-- The length of a line as a string, up to a NUL in it if there should be one. -/
def lineLength (line : List UInt8) : Nat := line.findIdx (· = 0)

/-- What the shell makes of the line alone. -/
def lineCommand (line : List UInt8) : Option Command := eval (fgets (fun _ => 0) line) fun _ => 0

/-- The string in the buffer will end with the line. -/
def Ends (cmdline : Buffer) (line : List UInt8) : Prop := 0 ∈ line ∨ cmdline line.length = 0

/-- The command line after some lines were read. -/
def cmdlineAfter (cmdline : Buffer) (rounds : List (List UInt8 × Buffer)) : Buffer :=
  rounds.foldl (fun s round => fgets s round.1) cmdline

section

variable {cmdline : Buffer} {line : List UInt8}

theorem fgets_inside {i : Nat} (inside : i < line.length) : fgets cmdline line i = (line)[i] := by
  unfold fgets
  simp [inside]

theorem lineLength_le : lineLength line ≤ line.length := findIdx_le_length

/-- The string that `fgets` leaves ends with the line iff there is a NUL. -/
theorem fgets_nul_iff : fgets cmdline line (lineLength line) = 0 ↔ Ends cmdline line := by
  by_cases inside : lineLength line < line.length
  · have nul : (line)[lineLength line] = 0 := of_decide_eq_true (findIdx_getElem (w := inside))
    rw [fgets_inside inside, nul]
    exact ⟨fun _ => .inl (nul ▸ getElem_mem inside), fun _ => rfl⟩
  · have whole : lineLength line = line.length := Nat.le_antisymm lineLength_le (Nat.not_lt.mp inside)
    rw [whole, fgets, if_neg (Nat.lt_irrefl _)]
    exact ⟨.inr, fun ends => ends.resolve_left fun nul => inside (findIdx_lt_length.mpr ⟨0, nul, by simp⟩)⟩

theorem Ends.sameString (ends : Ends cmdline line) :
    SameString (lineLength line) (fgets cmdline line) (fgets (fun _ => 0) line) where
  same i hi := by
    by_cases inside : i < line.length
    · rw [fgets_inside inside, fgets_inside inside]
    · -- the line has no NUL, and this is the byte behind it
      have here : i = lineLength line := Nat.le_antisymm hi (Nat.le_trans lineLength_le (Nat.not_lt.mp inside))
      rw [here, fgets_nul_iff.mpr ends, fgets_nul_iff.mpr (.inr rfl)]
  nul := fgets_nul_iff.mpr ends

theorem strlenFrom_eq {s : Buffer} {n fuel p : Nat} (hp : p ≤ n) (room : n < p + fuel) (nul : s n = 0)
    (before : ∀ i < n, s i ≠ 0) : strlenFrom s fuel p = some n := by
  induction fuel generalizing p with
  | zero => omega
  | succ fuel ih =>
    unfold strlenFrom
    by_cases here : p = n
    · rw [here, if_pos nul]
    · rw [if_neg (before p (by omega))]
      exact ih (by omega) (by omega)

/-- `strcpy` copies the line and nothing else iff there is a NUL. -/
theorem strlen_fgets_iff (ok : LineOk line) :
    strlen (fgets cmdline line) = some (lineLength line) ↔ Ends cmdline line := by
  rw [← fgets_nul_iff]
  constructor
  · exact strlenFrom_nul
  · intro nul
    have short := ok.short
    have le := @lineLength_le line
    apply strlenFrom_eq (Nat.zero_le _) _ nul
    · intro i before
      have inside := Nat.lt_of_lt_of_le before le
      rw [fgets_inside inside]
      simpa using not_of_lt_findIdx before
    · unfold maxLine
      omega

theorem session_getElem? {rounds : List (List UInt8 × Buffer)} {k : Nat} {buf : Buffer}
    (kth : rounds[k]? = some (line, buf)) :
    (session cmdline rounds)[k]? = some (eval (fgets (cmdlineAfter cmdline (rounds.take k)) line) buf) := by
  induction rounds generalizing cmdline k with
  | nil => cases kth
  | cons round rounds ih =>
    obtain ⟨first, _⟩ := round
    cases k with
    | zero =>
      cases kth
      rfl
    | succ k => exact @ih (fgets cmdline first) k kth

theorem cmdlineAfter_succ {rounds : List (List UInt8 × Buffer)} {k : Nat} {buf : Buffer}
    (kth : rounds[k]? = some (line, buf)) :
    cmdlineAfter cmdline (rounds.take (k + 1)) = fgets (cmdlineAfter cmdline (rounds.take k)) line := by
  unfold cmdlineAfter
  rw [take_add_one, kth, foldl_append]
  rfl

end

/-- If there is a NUL behind the `k`-th line, its arguments and flag are those of the line alone,
    whatever the buffers held and the lines before were.  This is also when the string that is
    parsed is the line. -/
theorem command_of_line {cmdline : Buffer} {rounds : List (List UInt8 × Buffer)}
    (lines : ∀ round ∈ rounds, LineOk round.1) {k : Nat} {line : List UInt8} {buf : Buffer}
    (kth : rounds[k]? = some (line, buf)) :
    (Ends (cmdlineAfter cmdline (rounds.take k)) line → (session cmdline rounds)[k]? = some (lineCommand line)) ∧
    (strlen (cmdlineAfter cmdline (rounds.take (k + 1))) = some (lineLength line) ↔
      Ends (cmdlineAfter cmdline (rounds.take k)) line) := by
  constructor
  · intro ends
    rw [session_getElem? kth]
    exact congrArg some (eval_congr ends.sameString _ _)
  · rw [cmdlineAfter_succ kth]
    exact strlen_fgets_iff (lines _ (List.mem_of_getElem? kth))

/-- `ls` and a newline. -/
def lsLine : List UInt8 := [108, 115, 10]

/-- `ls foo &` and a newline. -/
def lsFooLine : List UInt8 := [108, 115, 32, 102, 111, 111, 32, 38, 10]

def zeroBuffer : Buffer := fun _ => 0

theorem command_of_line_ls :
    (session zeroBuffer [(lsLine, zeroBuffer), (lsFooLine, zeroBuffer)])[1]? = some (lineCommand lsFooLine) := by
  have lines : ∀ round ∈ [(lsLine, zeroBuffer), (lsFooLine, zeroBuffer)], LineOk round.1 := by
    rw [List.forall_mem_cons, List.forall_mem_singleton]
    exact ⟨⟨by decide, rfl⟩, ⟨by decide, rfl⟩⟩
  exact (command_of_line lines rfl).1 (.inr rfl)

/-- `ls` after `ls foo &` runs a program whose name has a newline in it, and in the background. -/
theorem command_of_older_line :
    (session zeroBuffer [(lsLine, zeroBuffer), (lsLine, zeroBuffer)])[1]? = some (some ⟨[[108, 115]], false⟩) ∧
    (session zeroBuffer [(lsFooLine, zeroBuffer), (lsLine, zeroBuffer)])[1]? =
      some (some ⟨[[108, 115, 10, 102, 111, 111]], true⟩) := by
  decide +kernel

end Illinix.Verified.Bsh
