import Illinix.Verified.Strings.Numbers

/-! # The conversions of `printf`

Every conversion ends, whatever the buffer on the stack holds.  What `%d` prints is read back by `atoi`, and `%#x`
prints eight digits. -/

namespace Illinix.Verified.Strings

open Kernel Lib List
open User (atoi)
open Verified.Process (strlen_append zero_notMem_chars)

/-! ## The padding of `%#x` -/

section

/-- `n` turns of the loop store `n` zeros from the index `i` on. -/
theorem foldl_set_zeros (buf : List UInt8) (i n : ℕ) (room : i + n ≤ buf.length) :
    (range' i n).foldl (fun buf i => buf.set i 48) buf =
      buf.take i ++ replicate n 48 ++ buf.drop (i + n) := by
  induction n generalizing buf i with
  | zero => simp
  | succ n ih =>
    rw [range'_succ, foldl_cons, ih _ _ (by rw [length_set]; omega)]
    have front : (buf.set i 48).take (i + 1) = buf.take i ++ [48] := by
      rw [take_add_one, take_set_of_le (Nat.le_refl i), getElem?_set_self (by omega)]
      rfl
    have behind : (buf.set i 48).drop (i + 1 + n) = buf.drop (i + (n + 1)) := by
      rw [drop_set_of_lt (by omega)]
      congr 1
      omega
    rw [front, behind, replicate_succ]
    simp

theorem padZeros_drop {convBuf text rest : List UInt8} (eight : convBuf.length = 8) (short : text.length ≤ 8) :
    (padZeros (convBuf ++ (text ++ rest)) text.length).drop text.length =
      replicate (8 - text.length) 48 ++ (text ++ rest) := by
  unfold padZeros
  have room : text.length + (8 - text.length) ≤ (convBuf ++ (text ++ rest)).length := by
    rw [length_append, eight]
    omega
  rw [foldl_set_zeros _ _ _ room, append_assoc, drop_append_of_le_length]
  · have taken : ((convBuf ++ (text ++ rest)).take text.length).drop text.length = [] := by simp
    have behind : (convBuf ++ (text ++ rest)).drop (text.length + (8 - text.length)) = text ++ rest := by
      rw [Nat.add_sub_cancel' short, ← eight, drop_left]
    rw [taken, behind]
    rfl
  · rw [length_take, length_append, eight]
    omega

end

/-! ## The conversions -/

section

variable {strrev : List UInt8 → Except ArgFault (List UInt8)} {convBuf : List UInt8}

theorem length_decimal_le (v : UInt32) : (numberText 10 v.toNat).length ≤ 10 :=
  length_numberText_le (by decide) (by decide) (Nat.lt_trans v.toNat_lt (by decide))

theorem length_hex_le (v : UInt32) : (numberText 16 v.toNat).length ≤ 8 :=
  length_numberText_le (by decide) (by decide) v.toNat_lt

theorem itoaWith_decimal (reverses : Reverses strrev) (v : UInt32) (size : 10 < convBuf.length) :
    itoaWith strrev v convBuf 10 =
      .ok (numberText 10 v.toNat ++ 0 :: convBuf.drop ((numberText 10 v.toNat).length + 1)) :=
  itoaWith_eq reverses (by decide) (by decide) v (Nat.lt_of_le_of_lt (length_decimal_le v) size)

theorem itoaWith_hex (reverses : Reverses strrev) (v : UInt32) (size : 8 < convBuf.length) :
    itoaWith strrev v convBuf 16 =
      .ok (numberText 16 v.toNat ++ 0 :: convBuf.drop ((numberText 16 v.toNat).length + 1)) :=
  itoaWith_eq reverses (by decide) (by decide) v (Nat.lt_of_le_of_lt (length_hex_le v) size)

theorem zero_notMem_decimal (v : ℕ) : 0 ∉ numberText 10 v := zero_notMem_numberText (by decide) (by decide) v

theorem zero_notMem_hex (v : ℕ) : 0 ∉ numberText 16 v := zero_notMem_numberText (by decide) (by decide) v

theorem printUnsigned_eq (reverses : Reverses strrev) (v : UInt32) (size : 10 < convBuf.length) :
    printUnsigned strrev v convBuf = .ok (numberText 10 v.toNat) := by
  unfold printUnsigned
  rw [itoaWith_decimal reverses v size, ok_bind, puts_append (zero_notMem_decimal _)]

/-- What `%d` prints -/
def signedText (v : Int32) : List UInt8 :=
  if v < 0 then 45 :: numberText 10 (-v).toUInt32.toNat else numberText 10 v.toUInt32.toNat

theorem printSigned_eq (reverses : Reverses strrev) (v : Int32) (size : 11 < convBuf.length) :
    printSigned strrev v convBuf = .ok (signedText v) := by
  unfold printSigned signedText
  by_cases negative : v < 0
  · rw [if_pos negative, if_pos negative]
    cases convBuf with
    | nil => exact absurd size (Nat.not_lt_zero _)
    | cons c rest =>
      rw [length_cons] at size
      show (itoaWith strrev (-v).toUInt32 rest 10 >>= fun digits => puts (45 :: digits)) = _
      rw [itoaWith_decimal reverses _ (by omega), ok_bind, ← cons_append]
      apply puts_append
      rw [mem_cons, not_or]
      exact ⟨by decide, zero_notMem_decimal _⟩
  · rw [if_neg negative, if_neg negative]
    exact printUnsigned_eq reverses _ (by omega)

theorem atoi_signedText (v : Int32) (rest : List UInt8) : atoi (signedText v ++ 0 :: rest) = .ok v := by
  unfold signedText
  split
  · rw [cons_append, atoi_minus_numberText, Int32.toInt32_toUInt32, Int32.neg_neg]
  · rw [atoi_numberText, Int32.toInt32_toUInt32]

/-- The digits that `%#x` prints -/
def paddedDigits (v : ℕ) : List ℕ := replicate (8 - (numeral 16 v).length) 0 ++ numeral 16 v

theorem spells_paddedDigits (v : ℕ) : Spells 16 v (paddedDigits v) :=
  (isNumeral_numeral (by decide) v).toSpells.pad (by decide) _

theorem length_paddedDigits (v : UInt32) : (paddedDigits v.toNat).length = 8 := by
  have short : (numeral 16 v.toNat).length ≤ 8 := length_numeral_le (by decide) (by decide) v.toNat_lt
  unfold paddedDigits
  rw [length_append, length_replicate]
  omega

theorem printHex_plain (reverses : Reverses strrev) (v : UInt32) (size : 8 < convBuf.length) :
    printHex strrev false v convBuf = .ok (numberText 16 v.toNat) := by
  show (itoaWith strrev v convBuf 16 >>= puts) = _
  rw [itoaWith_hex reverses v size, ok_bind, puts_append (zero_notMem_hex _)]

/-- The digits are written from the ninth byte of the buffer on, and the zeros in front of them. -/
theorem printHex_alternate (reverses : Reverses strrev) (v : UInt32) (size : 16 < convBuf.length) :
    printHex strrev true v convBuf = .ok ((paddedDigits v.toNat).map digitChar) := by
  have eight : (convBuf.take 8).length = 8 := by
    rw [length_take]
    omega
  have text : (paddedDigits v.toNat).map digitChar =
      replicate (8 - (numberText 16 v.toNat).length) 48 ++ numberText 16 v.toNat := by
    unfold paddedDigits numberText
    rw [map_append, map_replicate, length_map]
    rfl
  have clean : 0 ∉ (paddedDigits v.toNat).map digitChar :=
    zero_notMem_digitChars (by decide) (spells_paddedDigits v.toNat).digits
  show (itoaWith strrev v (convBuf.drop 8) 16 >>= fun digits => strlen digits >>= fun startingIndex =>
    puts ((padZeros (convBuf.take 8 ++ digits) startingIndex).drop startingIndex)) = _
  rw [itoaWith_hex reverses v (by rw [length_drop]; omega), ok_bind, strlen_append (zero_notMem_hex _), ok_bind,
    padZeros_drop eight (length_hex_le v), ← append_assoc, ← text]
  exact puts_append clean _

variable (junk : ℕ → UInt8) (alternate : Bool) (arg : Argument)

theorem convert_signed (reverses : Reverses strrev) :
    convert strrev junk alternate 100 arg = .ok (signedText arg.word.toInt32, 1) := by
  show (printSigned strrev arg.word.toInt32 ((range 36).map junk) >>= fun text => pure (text, 1)) = _
  rw [printSigned_eq reverses _ (by simp)]
  rfl

theorem convert_hex (reverses : Reverses strrev) :
    convert strrev junk true 120 arg = .ok ((paddedDigits arg.word.toNat).map digitChar, 1) := by
  show (printHex strrev true arg.word ((range 64).map junk) >>= fun text => pure (text, 1)) = _
  rw [printHex_alternate reverses _ (by simp)]
  rfl

theorem convert_ok (reverses : Reverses strrev) (c : UInt8) :
    ∃ text used, convert strrev junk alternate c arg = .ok (text, used) := by
  unfold convert
  split_ifs
  · exact ⟨_, _, rfl⟩
  · cases alternate with
    | false =>
      rw [printHex_plain reverses _ (by simp)]
      exact ⟨_, _, rfl⟩
    | true =>
      rw [printHex_alternate reverses _ (by simp)]
      exact ⟨_, _, rfl⟩
  · rw [printUnsigned_eq reverses _ (by simp)]
    exact ⟨_, _, rfl⟩
  · rw [printSigned_eq reverses _ (by simp)]
    exact ⟨_, _, rfl⟩
  · exact ⟨_, _, rfl⟩
  · rw [puts_append (zero_notMem_chars _)]
    exact ⟨_, _, rfl⟩
  · exact ⟨_, _, rfl⟩

end

/-! ## The round trips -/

section

/-- The number functions of a library: its `itoa`, and its `printf` with the `strrev` it uses.  `%d` and `%#x` may
    stand anywhere in a format: `printf` goes on behind them, with the text added to what it printed. -/
structure NumbersRoundTrip (strrev : List UInt8 → Except ArgFault (List UInt8))
    (itoa : UInt32 → List UInt8 → UInt32 → Except ArgFault (List UInt8))
    (printf : ℕ → (ℕ → UInt8) → (ℕ → Argument) → (ℕ → ℕ → UInt8) → Option (Except ArgFault Printed)) : Prop where
  itoa_canonical : ∀ value radix : UInt32, 2 ≤ radix → radix ≤ 36 →
    ∃ text, Canonical radix.toNat value.toNat text ∧
      ∀ buf : List UInt8, text.length < buf.length →
        itoa value buf radix = .ok (text ++ 0 :: buf.drop (text.length + 1))
  signed : ∀ format args junk fuel buf esp chars reads, format buf = 37 → format (buf + 1) = 100 →
    ∃ text, (∀ rest, atoi (text ++ 0 :: rest) = .ok (args esp).word.toInt32) ∧
      printfFrom strrev format args junk (fuel + 2) .text buf esp chars reads =
        printfFrom strrev format args junk fuel .text (buf + 2) (esp + 1) (chars ++ text) ((buf + 1) :: buf :: reads)
  hex : ∀ format args junk fuel buf esp chars reads,
    format buf = 37 → format (buf + 1) = 35 → format (buf + 2) = 120 →
    ∃ ds, ds.length = 8 ∧ Spells 16 (args esp).word.toNat ds ∧
      printfFrom strrev format args junk (fuel + 3) .text buf esp chars reads =
        printfFrom strrev format args junk fuel .text (buf + 3) (esp + 1) (chars ++ ds.map digitChar)
          ((buf + 2) :: (buf + 1) :: buf :: reads)
  printf_signed : ∀ format args junk fuel, format 0 = 37 → format 1 = 100 → format 2 = 0 →
    ∃ printed, printf (fuel + 3) format args junk = some (.ok printed) ∧
      ∀ rest, atoi (printed.chars ++ 0 :: rest) = .ok (args 0).word.toInt32
  printf_hex : ∀ format args junk fuel, format 0 = 37 → format 1 = 35 → format 2 = 120 → format 3 = 0 →
    ∃ printed, printf (fuel + 4) format args junk = some (.ok printed) ∧
      ∃ ds, ds.length = 8 ∧ Spells 16 (args 0).word.toNat ds ∧ printed.chars = ds.map digitChar

variable {strrev : List UInt8 → Except ArgFault (List UInt8)}
variable (format : ℕ → UInt8) (args : ℕ → Argument) (junk : ℕ → ℕ → UInt8) (fuel buf esp : ℕ)
  (chars : List UInt8)
variable (reads : List ℕ)

theorem printfFrom_end (ended : format buf = 0) :
    printfFrom strrev format args junk (fuel + 1) .text buf esp chars reads =
      some (.ok ⟨chars, buf :: reads, (buf : ℤ).bmod (2 ^ 32)⟩) := by
  rw [printfFrom, if_pos ended]
  rfl

theorem printfFrom_signed (reverses : Reverses strrev) (percent : format buf = 37) (letter : format (buf + 1) = 100) :
    printfFrom strrev format args junk (fuel + 2) .text buf esp chars reads =
      printfFrom strrev format args junk fuel .text (buf + 2) (esp + 1)
        (chars ++ signedText (args esp).word.toInt32) ((buf + 1) :: buf :: reads) := by
  rw [printfFrom, percent, if_neg (by decide), if_pos rfl, printfFrom, letter, if_neg (by decide),
    convert_signed _ _ _ reverses]

theorem printfFrom_hex (reverses : Reverses strrev) (percent : format buf = 37) (flag : format (buf + 1) = 35)
    (letter : format (buf + 2) = 120) :
    printfFrom strrev format args junk (fuel + 3) .text buf esp chars reads =
      printfFrom strrev format args junk fuel .text (buf + 3) (esp + 1)
        (chars ++ (paddedDigits (args esp).word.toNat).map digitChar) ((buf + 2) :: (buf + 1) :: buf :: reads) := by
  rw [printfFrom, percent, if_neg (by decide), if_pos rfl, printfFrom, flag, if_pos rfl, printfFrom, letter,
    if_neg (by decide), convert_hex _ _ reverses]

/-- `printf` with the given `strrev` -/
def printfWith (strrev : List UInt8 → Except ArgFault (List UInt8)) (fuel : ℕ) (format : ℕ → UInt8)
    (args : ℕ → Argument) (junk : ℕ → ℕ → UInt8) : Option (Except ArgFault Printed) :=
  printfFrom strrev format args junk fuel .text 0 0 [] []

theorem numbersRoundTrip (reverses : Reverses strrev) :
    NumbersRoundTrip strrev (itoaWith strrev) (printfWith strrev) where
  itoa_canonical value radix base top := by
    exact ⟨_, ⟨_, isNumeral_numeral base _, rfl⟩, fun buf room => itoaWith_eq reverses base top value room⟩
  signed format args junk fuel buf esp chars reads percent letter :=
    ⟨_, atoi_signedText _, printfFrom_signed _ _ _ _ _ _ _ _ reverses percent letter⟩
  hex format args junk fuel buf esp chars reads percent flag letter :=
    ⟨_, length_paddedDigits _, spells_paddedDigits _, printfFrom_hex _ _ _ _ _ _ _ _ reverses percent flag letter⟩
  printf_signed format args junk fuel percent letter ended := by
    have run := printfFrom_signed format args junk (fuel + 1) 0 0 [] [] reverses percent letter
    rw [printfFrom_end _ _ _ _ _ _ _ _ ended, nil_append] at run
    exact ⟨_, run, atoi_signedText _⟩
  printf_hex format args junk fuel percent flag letter ended := by
    have run := printfFrom_hex format args junk (fuel + 1) 0 0 [] [] reverses percent flag letter
    rw [printfFrom_end _ _ _ _ _ _ _ _ ended, nil_append] at run
    exact ⟨_, run, _, length_paddedDigits _, spells_paddedDigits _, rfl⟩

end

/-- In both libraries `itoa` writes the canonical representation, `atoi` reads back what `%d` prints, and `%#x` prints
    the eight digits of its argument. -/
theorem numbers_round_trip :
    NumbersRoundTrip Kernel.strrev Kernel.itoa Kernel.printf ∧ NumbersRoundTrip User.strrev User.itoa User.printf :=
  ⟨numbersRoundTrip strrev_reverses, numbersRoundTrip userStrrev_reverses⟩

end Illinix.Verified.Strings
