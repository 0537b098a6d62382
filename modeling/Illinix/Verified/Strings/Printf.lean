import Illinix.Verified.Strings.Compare
import Illinix.Verified.Strings.Conversions

/-! # Where `printf` stops

The loop of `printf` looks for the NUL between two conversions.  Inside of a conversion the NUL is a character like
any other one, and the pointer moves behind it: a format that ends in `%`, or in `%#`, goes on in the memory behind. -/

namespace Illinix.Verified.Strings

open Kernel Lib List
open Verified.Process (zero_notMem_chars)

/-! ## Formats -/

section

/-- Every conversion of the format has its character: `%`, flags `#` and a character that is no flag. -/
inductive Format : List UInt8 → Prop where
  | nil : Format []
  | char {c : UInt8} {s : List UInt8} (other : c ≠ 37) (rest : Format s) : Format (c :: s)
  | conversion (n : ℕ) {c : UInt8} {s : List UInt8} (letter : c ≠ 35) (rest : Format s) :
      Format (37 :: (replicate n 35 ++ c :: s))

theorem flags_cases (s : List UInt8) :
    ∃ n, s = replicate n 35 ∨ ∃ c rest, c ≠ 35 ∧ s = replicate n 35 ++ c :: rest := by
  induction s with
  | nil => exact ⟨0, .inl rfl⟩
  | cons c s ih =>
    by_cases flag : c = 35
    · obtain ⟨n, done | ⟨d, rest, letter, split⟩⟩ := ih
      · exact ⟨n + 1, .inl (by rw [replicate_succ, flag, done])⟩
      · exact ⟨n + 1, .inr ⟨d, rest, letter, by rw [replicate_succ, cons_append, flag, split]⟩⟩
    · exact ⟨0, .inr ⟨c, s, flag, rfl⟩⟩

/-- Otherwise the last conversion is cut short. -/
theorem format_or_cut (s : List UInt8) : Format s ∨ ∃ pre n, Format pre ∧ s = pre ++ 37 :: replicate n 35 := by
  induction size : s.length using Nat.strong_induction_on generalizing s with
  | _ size' ih =>
    cases s with
    | nil => exact .inl .nil
    | cons c s =>
      by_cases percent : c = 37
      · subst percent
        obtain ⟨n, rfl | ⟨d, rest, letter, rfl⟩⟩ := flags_cases s
        · exact .inr ⟨[], n, .nil, rfl⟩
        · simp only [length_cons, length_append] at size
          cases ih rest.length (by omega) rest rfl with
          | inl format => exact .inl (.conversion n letter format)
          | inr cut =>
            obtain ⟨pre, m, format, rfl⟩ := cut
            exact .inr ⟨_, m, .conversion n letter format, by simp⟩
      · rw [length_cons] at size
        cases ih s.length (by omega) s rfl with
        | inl format => exact .inl (.char percent format)
        | inr cut =>
          obtain ⟨pre, m, format, rfl⟩ := cut
          exact .inr ⟨_, m, .char percent format, rfl⟩

/-- The format holds the characters from the position `k` on. -/
def HoldsFrom (format : ℕ → UInt8) : ℕ → List UInt8 → Prop
  | _, [] => True
  | k, c :: s => format k = c ∧ HoldsFrom format (k + 1) s

theorem holdsFrom_append {format : ℕ → UInt8} {k : ℕ} {s t : List UInt8} :
    HoldsFrom format k (s ++ t) ↔ HoldsFrom format k s ∧ HoldsFrom format (k + s.length) t := by
  induction s generalizing k with
  | nil => simp [HoldsFrom]
  | cons c s ih =>
    rw [cons_append, HoldsFrom, HoldsFrom, ih, and_assoc, length_cons, Nat.add_right_comm, Nat.add_assoc]

theorem holdsFrom_range' (format : ℕ → UInt8) (k n : ℕ) : HoldsFrom format k ((range' k n).map format) := by
  induction n generalizing k with
  | zero => trivial
  | succ n ih => exact ⟨rfl, ih (k + 1)⟩

theorem holdsFrom_chars (format : CString) : HoldsFrom format.bytes 0 format.chars := by
  unfold CString.chars
  rw [range_eq_range']
  exact holdsFrom_range' _ _ _

end

/-! ## Steps -/

section

variable (strrev : List UInt8 → Except ArgFault (List UInt8))
variable (format : ℕ → UInt8) (args : ℕ → Argument) (junk : ℕ → ℕ → UInt8)

/-- From the position `k`, `n` bytes of the format are read one after the other. -/
def Advances (mode mode' : Scan) (k n : ℕ) : Prop :=
  ∀ fuel esp chars reads, ∃ esp' chars',
    printfFrom strrev format args junk (fuel + n) mode k esp chars reads =
      printfFrom strrev format args junk fuel mode' (k + n) esp' chars' ((range' k n).reverse ++ reads)

variable {strrev format args junk}
variable {k : ℕ}

theorem Advances.refl (mode : Scan) : Advances strrev format args junk mode mode k 0 :=
  fun _ esp chars _ => ⟨esp, chars, rfl⟩

theorem Advances.trans {mode mode' mode'' : Scan} {n m : ℕ} (first : Advances strrev format args junk mode mode' k n)
    (second : Advances strrev format args junk mode' mode'' (k + n) m) :
    Advances strrev format args junk mode mode'' k (n + m) := by
  intro fuel esp chars reads
  obtain ⟨esp1, chars1, run1⟩ := first (fuel + m) esp chars reads
  obtain ⟨esp2, chars2, run2⟩ := second fuel esp1 chars1 ((range' k n).reverse ++ reads)
  refine ⟨esp2, chars2, ?_⟩
  rw [Nat.add_comm n m, ← Nat.add_assoc, run1, run2, Nat.add_comm m n, ← Nat.add_assoc, ← append_assoc,
    ← reverse_append, range'_append_1]

theorem advances_char {c : UInt8} (here : format k = c) (nonzero : c ≠ 0) (other : c ≠ 37) :
    Advances strrev format args junk .text .text k 1 := by
  intro fuel esp chars reads
  refine ⟨esp, chars ++ [format k], ?_⟩
  rw [printfFrom, here, if_neg nonzero, if_neg other]
  rfl

theorem advances_percent (here : format k = 37) : Advances strrev format args junk .text (.conversion false) k 1 := by
  intro fuel esp chars reads
  refine ⟨esp, chars, ?_⟩
  rw [printfFrom, here, if_neg (by decide), if_pos rfl]
  rfl

theorem advances_flag (alternate : Bool) (here : format k = 35) :
    Advances strrev format args junk (.conversion alternate) (.conversion true) k 1 := by
  intro fuel esp chars reads
  refine ⟨esp, chars, ?_⟩
  rw [printfFrom, if_pos here]
  rfl

/-- The character of a conversion; it is not compared to the NUL. -/
theorem advances_letter (reverses : Reverses strrev) (alternate : Bool) (letter : format k ≠ 35) :
    Advances strrev format args junk (.conversion alternate) .text k 1 := by
  intro fuel esp chars reads
  obtain ⟨text, used, done⟩ := convert_ok (junk k) alternate (args esp) reverses (format k)
  refine ⟨esp + used, chars ++ text, ?_⟩
  rw [printfFrom, if_neg letter, done]
  rfl

theorem advances_flags (n : ℕ) (alternate : Bool) (flags : HoldsFrom format k (replicate n 35)) :
    ∃ alternate', Advances strrev format args junk (.conversion alternate) (.conversion alternate') k n := by
  induction n generalizing k alternate with
  | zero => exact ⟨alternate, .refl _⟩
  | succ n ih =>
    obtain ⟨here, flags⟩ := flags
    obtain ⟨alternate', rest⟩ := ih true flags
    refine ⟨alternate', ?_⟩
    rw [Nat.add_comm]
    exact (advances_flag alternate here).trans rest

theorem advances_format (reverses : Reverses strrev) {s : List UInt8} (formatted : Format s) (nonzero : 0 ∉ s)
    (holds : HoldsFrom format k s) : Advances strrev format args junk .text .text k s.length := by
  induction formatted generalizing k with
  | nil => exact .refl _
  | @char c s other _ ih =>
    obtain ⟨here, holds⟩ := holds
    rw [mem_cons, not_or] at nonzero
    rw [length_cons, Nat.add_comm]
    exact (advances_char here (Ne.symm nonzero.1) other).trans (ih nonzero.2 holds)
  | @conversion n c s letter _ ih =>
    obtain ⟨percent, holds⟩ := holds
    rw [holdsFrom_append, length_replicate] at holds
    obtain ⟨flags, here, holds⟩ := holds
    obtain ⟨alternate, scanned⟩ := @advances_flags strrev format args junk (k + 1) n false flags
    have clean : 0 ∉ s := fun mem => nonzero (by simp [mem])
    have length : (37 :: (replicate n 35 ++ c :: s)).length = 1 + (n + (1 + s.length)) := by
      simp only [length_cons, length_append, length_replicate]
      omega
    have last : Advances strrev format args junk (.conversion alternate) .text (k + 1 + n) 1 :=
      advances_letter reverses alternate (here ▸ letter)
    rw [length]
    exact (advances_percent percent).trans (scanned.trans (last.trans (ih clean holds)))

/-- Past the end, the first byte behind the NUL is read next. -/
theorem advances_cut (reverses : Reverses strrev) {pre : List UInt8} {n : ℕ} (formatted : Format pre)
    (nonzero : 0 ∉ pre) (holds : HoldsFrom format k (pre ++ 37 :: replicate n 35))
    (nul : format (k + pre.length + 1 + n) = 0) :
    Advances strrev format args junk .text .text k (pre.length + (1 + (n + 1))) := by
  obtain ⟨front, percent, flags⟩ := holdsFrom_append.mp holds
  obtain ⟨alternate, scanned⟩ := @advances_flags strrev format args junk (k + pre.length + 1) n false flags
  have last : Advances strrev format args junk (.conversion alternate) .text (k + pre.length + 1 + n) 1 :=
    advances_letter reverses alternate (by rw [nul]; decide)
  exact (advances_format reverses formatted nonzero front).trans ((advances_percent percent).trans (scanned.trans last))

end

/-! ## Runs -/

section

variable {strrev : List UInt8 → Except ArgFault (List UInt8)}
variable {format : ℕ → UInt8} {args : ℕ → Argument} {junk : ℕ → ℕ → UInt8}

theorem printfFrom_more {fuel : ℕ} {mode : Scan} {k esp : ℕ} {chars : List UInt8} {reads : List ℕ}
    {r : Except ArgFault Printed}
    (done : printfFrom strrev format args junk fuel mode k esp chars reads = some r) (m : ℕ) :
    printfFrom strrev format args junk (fuel + m) mode k esp chars reads = some r := by
  induction fuel generalizing mode k esp chars reads with
  | zero => cases done
  | succ fuel ih =>
    rw [Nat.add_right_comm]
    cases mode with
    | text =>
      rw [printfFrom] at done ⊢
      split_ifs at done ⊢
      · exact done
      · exact ih done
      · exact ih done
    | conversion alternate =>
      rw [printfFrom] at done ⊢
      split_ifs at done ⊢
      · exact ih done
      · split at done
        · exact done
        · exact ih done

/-- Whatever `printf` has read stays read, and so does the byte it is at. -/
theorem printfFrom_reads {fuel : ℕ} {mode : Scan} {k esp : ℕ} {chars : List UInt8} {reads : List ℕ}
    {printed : Printed} (done : printfFrom strrev format args junk fuel mode k esp chars reads = some (.ok printed)) :
    ∀ i ∈ k :: reads, i ∈ printed.reads := by
  induction fuel generalizing mode k esp chars reads with
  | zero => cases done
  | succ fuel ih =>
    have keep {k' : ℕ} (later : ∀ i ∈ k' :: k :: reads, i ∈ printed.reads) :
        ∀ i ∈ k :: reads, i ∈ printed.reads := fun i mem => later i (mem_cons_of_mem _ mem)
    cases mode with
    | text =>
      rw [printfFrom] at done
      split_ifs at done
      · cases done
        exact fun i mem => mem
      · exact keep (ih done)
      · exact keep (ih done)
    | conversion alternate =>
      rw [printfFrom] at done
      split_ifs at done
      · exact keep (ih done)
      · split at done
        · cases done
        · exact keep (ih done)

end

/-! ## The end of the format -/

section

/-- The call ends, has read nothing behind the NUL of the format, and returns the length of the format. -/
def StopsAtEnd
    (printf : ℕ → (ℕ → UInt8) → (ℕ → Argument) → (ℕ → ℕ → UInt8) → Option (Except ArgFault Printed))
    (format : CString) (args : ℕ → Argument) (junk : ℕ → ℕ → UInt8) : Prop :=
  ∃ fuel printed, printf fuel format.bytes args junk = some (.ok printed) ∧
    (∀ i ∈ printed.reads, i ≤ format.len) ∧ printed.value = format.len

/-- A length is an `int` up to its sign bit. -/
theorem bmod_eq_iff {n : ℕ} : (n : ℤ).bmod (2 ^ 32) = n ↔ n < 2 ^ 31 := by
  constructor
  · intro same
    have bound : (n : ℤ).bmod (2 ^ 32) < (2 ^ 32 + 1) / 2 := Int.bmod_lt (by decide)
    omega
  · intro short
    apply Int.bmod_eq_of_le <;> omega

variable {strrev : List UInt8 → Except ArgFault (List UInt8)}
variable (reverses : Reverses strrev) {format : CString} (args : ℕ → Argument) (junk : ℕ → ℕ → UInt8)

include reverses

theorem printfWith_format (formatted : Format format.chars) (m : ℕ) :
    ∃ chars, printfWith strrev (m + 1 + format.len) format.bytes args junk =
      some (.ok ⟨chars, format.len :: (range' 0 format.len).reverse, (format.len : ℤ).bmod (2 ^ 32)⟩) := by
  have run : Advances strrev format.bytes args junk .text .text 0 format.chars.length :=
    advances_format reverses formatted (zero_notMem_chars format) (holdsFrom_chars format)
  rw [length_chars] at run
  obtain ⟨esp, chars, done⟩ := run (m + 1) 0 [] []
  refine ⟨chars, ?_⟩
  rw [printfFrom_end _ _ _ _ _ _ _ _ (by rw [Nat.zero_add]; exact format.nul), Nat.zero_add, append_nil] at done
  exact done

theorem stops_of_format (formatted : Format format.chars) (short : format.len < 2 ^ 31) :
    StopsAtEnd (printfWith strrev) format args junk := by
  obtain ⟨chars, done⟩ := printfWith_format reverses args junk formatted 0
  refine ⟨_, _, done, ?_, ?_⟩
  · intro i mem
    simp at mem
    omega
  · dsimp only
    exact bmod_eq_iff.mpr short

theorem short_of_stops (formatted : Format format.chars) (stops : StopsAtEnd (printfWith strrev) format args junk) :
    format.len < 2 ^ 31 := by
  obtain ⟨fuel, printed, run, -, value⟩ := stops
  obtain ⟨chars, done⟩ := printfWith_format reverses args junk formatted fuel
  have more := printfFrom_more run (1 + format.len)
  rw [← Nat.add_assoc] at more
  have same := Option.some_inj.mp (more.symm.trans done)
  rw [Except.ok.inj same] at value
  dsimp only at value
  exact bmod_eq_iff.mp value

/-- A conversion that is cut short takes `printf` behind the NUL. -/
theorem not_stops_of_cut {pre : List UInt8} {n : ℕ} (formatted : Format pre)
    (cut : format.chars = pre ++ 37 :: replicate n 35) : ¬ StopsAtEnd (printfWith strrev) format args junk := by
  rintro ⟨fuel, printed, run, inside, -⟩
  have length : format.len = pre.length + 1 + n := by
    rw [← length_chars, cut]
    simp
    omega
  have nonzero : 0 ∉ pre := fun mem => zero_notMem_chars format (cut ▸ mem_append_left _ mem)
  have nul : format.bytes (0 + pre.length + 1 + n) = 0 := by
    rw [Nat.zero_add, ← length]
    exact format.nul
  have past : Advances strrev format.bytes args junk .text .text 0 (pre.length + (1 + (n + 1))) :=
    advances_cut reverses formatted nonzero (cut ▸ holdsFrom_chars format) nul
  obtain ⟨esp, chars, done⟩ := past fuel 0 [] []
  have read := inside _ (printfFrom_reads (done ▸ printfFrom_more run _) _ mem_cons_self)
  omega

theorem stops_iff :
    StopsAtEnd (printfWith strrev) format args junk ↔ Format format.chars ∧ format.len < 2 ^ 31 := by
  constructor
  · intro stops
    cases format_or_cut format.chars with
    | inl formatted => exact ⟨formatted, short_of_stops reverses args junk formatted stops⟩
    | inr cut =>
      obtain ⟨pre, n, formatted, cut⟩ := cut
      exact absurd stops (not_stops_of_cut reverses args junk formatted cut)
  · rintro ⟨formatted, short⟩
    exact stops_of_format reverses args junk formatted short

end

/-- In both libraries `printf` stops at the end of a format, and returns its length, exactly if no conversion is cut
    short by the end and the length is an `int`. -/
theorem printf_stops_iff (format : CString) (args : ℕ → Argument) (junk : ℕ → ℕ → UInt8) :
    (StopsAtEnd Kernel.printf format args junk ↔ Format format.chars ∧ format.len < 2 ^ 31) ∧
    (StopsAtEnd User.printf format args junk ↔ Format format.chars ∧ format.len < 2 ^ 31) :=
  ⟨stops_iff strrev_reverses args junk, stops_iff userStrrev_reverses args junk⟩

/-- `100%`, with an `A` in the memory behind it -/
def cutFormat : CString where
  bytes i := [49, 48, 48, 37, 0, 65].getD i 0
  len := 4
  nul := rfl
  body := by decide

/-- The `A` behind the format is read and printed, and the result is 6. -/
theorem printf_passes_end :
    (∀ args junk,
      Kernel.printf 7 cutFormat.bytes args junk = some (.ok ⟨[49, 48, 48, 65], [6, 5, 4, 3, 2, 1, 0], 6⟩) ∧
        ¬ StopsAtEnd Kernel.printf cutFormat args junk) ∧
    ∀ args junk,
      User.printf 7 cutFormat.bytes args junk = some (.ok ⟨[49, 48, 48, 65], [6, 5, 4, 3, 2, 1, 0], 6⟩) ∧
        ¬ StopsAtEnd User.printf cutFormat args junk := by
  have formatted : Format [49, 48, 48] := .char (by decide) (.char (by decide) (.char (by decide) .nil))
  have cut : cutFormat.chars = [49, 48, 48] ++ 37 :: replicate 0 35 := by decide
  exact ⟨fun args junk => ⟨rfl, not_stops_of_cut strrev_reverses args junk formatted cut⟩,
    fun args junk => ⟨rfl, not_stops_of_cut userStrrev_reverses args junk formatted cut⟩⟩

end Illinix.Verified.Strings
