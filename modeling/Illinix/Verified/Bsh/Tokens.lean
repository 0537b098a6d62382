import Illinix.Lib.Words
import Illinix.Verified.Bsh.CommandLine
import Mathlib.Data.List.Forall2
import Mathlib.Data.List.GetD

/-! # The words of a line

`parse` cuts the line in its buffer into words: every run of spaces gets a NUL at its start, and the
arguments are the positions behind the runs.  The result is compared with the words of the text, cut from it
as a list. -/

namespace Illinix.Verified.Bsh

open Lib User Function List

/-- The buffer holds the bytes `t` from position `p` on. -/
def HoldsAt (s : Buffer) (p : Nat) (t : List UInt8) : Prop := ∀ i < t.length, s (p + i) = t.getD i 0

instance (s : Buffer) (p : Nat) (t : List UInt8) : Decidable (HoldsAt s p t) :=
  inferInstanceAs (Decidable (∀ i < t.length, s (p + i) = t.getD i 0))

def isSpace (c : UInt8) : Bool := c = space

section

variable {s s' : Buffer} {p fuel : Nat} {c d : UInt8} {t u w : List UInt8}

theorem holdsAt_cons : HoldsAt s p (c :: t) ↔ s p = c ∧ HoldsAt s (p + 1) t := by
  constructor
  · intro h
    refine ⟨h 0 (Nat.zero_lt_succ _), fun i hi => ?_⟩
    have next := h (i + 1) (Nat.succ_lt_succ hi)
    rwa [← Nat.add_assoc, Nat.add_right_comm, getD_cons_succ] at next
  · rintro ⟨here, rest⟩ i hi
    cases i with
    | zero => exact here
    | succ i =>
      rw [Nat.add_comm i 1, ← Nat.add_assoc, Nat.add_comm 1 i, getD_cons_succ]
      exact rest i (Nat.lt_of_succ_lt_succ hi)

theorem holdsAt_append : HoldsAt s p (t ++ u) ↔ HoldsAt s p t ∧ HoldsAt s (p + t.length) u := by
  induction t generalizing p with
  | nil =>
    have nothing : HoldsAt s p [] := fun i hi => absurd hi (Nat.not_lt_zero i)
    simp [nothing]
  | cons c t ih =>
    rw [cons_append, holdsAt_cons, holdsAt_cons, ih, length_cons, and_assoc, Nat.add_assoc, Nat.add_comm 1]

theorem HoldsAt.congr (h : HoldsAt s p t) (same : ∀ i, p ≤ i → i < p + t.length → s' i = s i) :
    HoldsAt s' p t := fun i hi => (same (p + i) (Nat.le_add_right p i) (Nat.add_lt_add_left hi p)).trans (h i hi)

theorem strchr_found (h : HoldsAt s p (w ++ c :: t)) (nul : 0 ∉ w) (other : c ∉ w) (some : c ≠ 0)
    (enough : w.length < fuel) : strchr s c fuel p = .some (p + w.length) := by
  induction w generalizing p fuel with
  | nil =>
    obtain ⟨here, -⟩ := holdsAt_cons.mp h
    cases fuel with
    | zero => cases enough
    | succ fuel => rw [strchr, here, if_neg some, if_pos rfl, length_nil, Nat.add_zero]
  | cons b w ih =>
    obtain ⟨here, rest⟩ := holdsAt_cons.mp h
    rw [mem_cons, not_or] at nul other
    cases fuel with
    | zero => cases enough
    | succ fuel =>
      rw [strchr, here, if_neg (Ne.symm nul.1), if_neg (Ne.symm other.1),
        ih rest nul.2 other.2 (Nat.lt_of_succ_lt_succ enough), length_cons]
      congr 1
      omega

theorem strchr_none (h : s p = 0) : strchr s c fuel p = none := by
  cases fuel with
  | zero => rfl
  | succ fuel => rw [strchr, if_pos h]

theorem skipSpaces_eq (h : HoldsAt s p (t ++ [0])) (enough : t.length < fuel) :
    skipSpaces s fuel p = p + (t.takeWhile isSpace).length := by
  induction t generalizing p fuel with
  | nil =>
    obtain ⟨here, -⟩ := holdsAt_cons.mp h
    cases fuel with
    | zero => cases enough
    | succ fuel => rw [skipSpaces, if_neg (fun more => more.1 here), takeWhile_nil, length_nil, Nat.add_zero]
  | cons b t ih =>
    obtain ⟨here, rest⟩ := holdsAt_cons.mp h
    cases fuel with
    | zero => cases enough
    | succ fuel =>
      rw [skipSpaces, here]
      by_cases blank : b = space
      · have more : b ≠ 0 ∧ b = space := ⟨by rw [blank]; decide, blank⟩
        rw [if_pos more, takeWhile_cons_of_pos (by simp [isSpace, blank]),
          ih rest (Nat.lt_of_succ_lt_succ enough), length_cons]
        omega
      · rw [if_neg (fun more => blank more.2), takeWhile_cons_of_neg (by simp [isSpace, blank]),
          length_nil, Nat.add_zero]

theorem stringAt_eq (h : HoldsAt s p (w ++ [0])) (nul : 0 ∉ w) (enough : w.length < fuel) :
    stringAt s fuel p = w := by
  induction w generalizing p fuel with
  | nil =>
    obtain ⟨here, -⟩ := holdsAt_cons.mp h
    cases fuel with
    | zero => rfl
    | succ fuel => rw [stringAt, if_pos here]
  | cons b w ih =>
    obtain ⟨here, rest⟩ := holdsAt_cons.mp h
    rw [mem_cons, not_or] at nul
    cases fuel with
    | zero => cases enough
    | succ fuel => rw [stringAt, here, if_neg (Ne.symm nul.1), ih rest nul.2 (Nat.lt_of_succ_lt_succ enough)]

end

/-! ## The loop -/

/-- The word `w` at `q` in the line from `p` to `stop`: it has got a NUL behind it, and its bytes are those that
    stood there before. -/
structure Token (s s' : Buffer) (p stop q : Nat) (w : List UInt8) : Prop where
  start : p ≤ q
  stop : q + w.length < stop
  string : HoldsAt s' q (w ++ [0])
  kept : HoldsAt s q w

section

variable {s s' : Buffer} {p q stop fuel : Nat} {rest w : List UInt8} {argv : List Nat}

/-- A word of the rest of the line, after a byte in front of the rest was written. -/
theorem Token.of_update {p' i : Nat} (token : Token (update s i 0) s' p' stop q w) (before : i < p')
    (le : p ≤ p') : Token s s' p stop q w where
  start := Nat.le_trans le token.start
  stop := token.stop
  string := token.string
  kept := token.kept.congr fun j hj _ => by
    have := token.start
    rw [update_of_ne (by omega)]

theorem exists_word (start : rest.head? ≠ some space) (ends : rest.getLast? = some space) :
    ∃ w t, rest = w ++ space :: t ∧ w ≠ [] ∧ (∀ c ∈ w, isSpace c = false) := by
  obtain none | ⟨w, c, t, rfl, none, sep⟩ := forall_not_or_exists_sep isSpace rest
  · have last := none space (mem_of_getLast? ends)
    simp [isSpace] at last
  · obtain rfl : c = space := of_decide_eq_true sep
    refine ⟨w, t, rfl, ?_, none⟩
    rintro rfl
    exact start rfl

/-- The rest of the line behind its first word and the spaces after it: `t` without its leading spaces. -/
theorem rest_ok {t : List UInt8} (nul : 0 ∉ w ++ space :: t)
    (ends : ∀ c, (w ++ space :: t).getLast? = some c → c = space) :
    0 ∉ t.dropWhile isSpace ∧ (t.dropWhile isSpace).head? ≠ some space ∧
      ∀ c, (t.dropWhile isSpace).getLast? = some c → c = space := by
  refine ⟨fun inside => nul ?_, fun first => ?_, fun c last => ends c ?_⟩
  · simp [(dropWhile_sublist isSpace).mem inside]
  · have head := head?_dropWhile_not isSpace t
    rw [first] at head
    cases head
  · rw [← takeWhile_append_dropWhile (p := isSpace) (l := t), ← cons_append, ← append_assoc,
      getLast?_append, last]
    rfl

/-- One turn: the first word gets its NUL, and the pointer moves to the next one. -/
theorem parseLoop_turn {t : List UInt8} (here : HoldsAt s p (w ++ space :: (t ++ [0]))) (nul : 0 ∉ w)
    (noSpace : ∀ c ∈ w, isSpace c = false) (short : w.length + t.length < maxLine) (room : argv.length < maxArgs) :
    parseLoop (fuel + 1) s p argv = parseLoop fuel (update s (p + w.length) 0)
        (p + w.length + 1 + (t.takeWhile isSpace).length) (argv ++ [p]) ∧
      HoldsAt (update s (p + w.length) 0) (p + w.length + 1 + (t.takeWhile isSpace).length)
        (t.dropWhile isSpace ++ [0]) := by
  have word : space ∉ w := fun inside => absurd (noSpace space inside) (by decide)
  have found := strchr_found here nul word (by decide) (by omega : w.length < maxLine)
  have behind := (holdsAt_cons.mp (holdsAt_append.mp here).2).2
  -- the rest of the line does not see the NUL behind the word
  have behind : HoldsAt (update s (p + w.length) 0) (p + w.length + 1) (t ++ [0]) :=
    behind.congr fun i hi _ => update_of_ne (by omega) ..
  have skipped := skipSpaces_eq behind (by omega : t.length < maxLine)
  constructor
  · rw [parseLoop, found]
    simp only
    rw [if_neg (Nat.not_le.mpr room), skipped]
  · rw [← takeWhile_append_dropWhile (p := isSpace) (l := t), append_assoc] at behind
    exact (holdsAt_append.mp behind).2

/-- The loop cuts the rest of the line into its words, by induction on the bound: a turn takes the first word
    and leaves the rest as it was. -/
theorem parseLoop_tokens (here : HoldsAt s p (rest ++ [0])) (nul : 0 ∉ rest) (start : rest.head? ≠ some space)
    (ends : ∀ c, rest.getLast? = some c → c = space) (short : rest.length < maxLine) (enough : rest.length < fuel)
    (room : argv.length + (words isSpace rest).length ≤ maxArgs) :
    ∃ s' new, parseLoop fuel s p argv = some (s', argv ++ new) ∧
      List.Forall₂ (Token s s' p (p + rest.length)) new (words isSpace rest) ∧
      ∀ i, i < p ∨ p + rest.length ≤ i → s' i = s i := by
  induction fuel generalizing s p rest argv with
  | zero => cases enough
  | succ fuel ih =>
    cases last : rest.getLast? with
    | none =>
      -- nothing is left
      rw [getLast?_eq_none_iff] at last
      subst last
      refine ⟨s, [], ?_, .nil, fun _ _ => rfl⟩
      rw [parseLoop, strchr_none (holdsAt_cons.mp here).1, append_nil]
    | some c =>
      obtain rfl := ends c last
      obtain ⟨w, t, rfl, nonempty, noSpace⟩ := exists_word start last
      obtain ⟨nul', start', ends'⟩ := rest_ok nul ends
      rw [words_append_sep (by rfl : isSpace space = true), words_of_forall_not noSpace nonempty,
        ← words_dropWhile t] at room ⊢
      simp only [length_append, length_cons, length_nil] at room short enough ⊢
      rw [append_assoc, cons_append] at here
      have wnul : 0 ∉ w := fun inside => nul (mem_append_left _ inside)
      obtain ⟨turn, next⟩ := @parseLoop_turn _ _ fuel _ argv _ here wnul noSpace (by omega) (by omega)
      have parts : (t.takeWhile isSpace).length + (t.dropWhile isSpace).length = t.length := by
        rw [← length_append, takeWhile_append_dropWhile]
      have room' : (argv ++ [p]).length + (words isSpace (t.dropWhile isSpace)).length ≤ maxArgs := by
        rw [length_append, length_singleton]
        omega
      obtain ⟨s', new, loop, tokens, same⟩ := ih next nul' start' ends' (by omega) (by omega) room'
      have bytes := (holdsAt_append.mp here).1
      have kept : ∀ i, p ≤ i → i < p + w.length → s' i = s i := fun i _ inside =>
        (same i (.inl (by omega))).trans (update_of_ne (by omega) ..)
      have cut : HoldsAt s' (p + w.length) [0] := by
        refine holdsAt_cons.mpr ⟨?_, fun i hi => absurd hi (Nat.not_lt_zero i)⟩
        rw [same _ (.inl (by omega)), update_self]
      have first : Token s s' p (p + (w.length + (t.length + 1))) p w :=
        ⟨Nat.le_refl p, by omega, holdsAt_append.mpr ⟨bytes.congr kept, cut⟩, bytes⟩
      refine ⟨s', p :: new, ?_, .cons first ?_, fun i outside => ?_⟩
      · rw [turn, loop, append_assoc]
        rfl
      · rw [show p + (w.length + (t.length + 1)) = p + w.length + 1 + (t.takeWhile isSpace).length +
          (t.dropWhile isSpace).length by omega]
        exact tokens.imp fun q w token => token.of_update (by omega) (by omega)
      · rw [same i (by omega), update_of_ne (by omega)]

end

/-! ## Lines -/

/-- A NUL-terminated line: a text without a newline, and a newline. -/
structure Line (buf : Buffer) (text : List UInt8) : Prop where
  bytes : HoldsAt buf 0 (text ++ [10, 0])
  nul : 0 ∉ text
  newline : 10 ∉ text
  short : text.length + 1 ≤ 255

/-- The last word of the text starts with `&`. -/
def endsWithAmpersand (text : List UInt8) : Bool :=
  (words isSpace text).getLast?.any fun w => w.head? = some ampersand

/-- The words of the text, but for a last one that starts with `&`. -/
def arguments (text : List UInt8) : List (List UInt8) :=
  if endsWithAmpersand text then (words isSpace text).dropLast else words isSpace text

section

variable {s s' buf : Buffer} {p stop q : Nat} {w text : List UInt8} {argv : List Nat} {ws : List (List UInt8)}

theorem Token.first_byte (token : Token s s' p stop q w) (some : w ≠ []) : w.head? = .some (s' q) := by
  cases w with
  | nil => exact absurd rfl some
  | cons c w => rw [(holdsAt_cons.mp token.string).1, head?_cons]

theorem ne_nil_of_mem_words (mem : w ∈ words isSpace text) : w ≠ [] := by
  rintro rfl
  have kept := (mem_filter.mp mem).2
  cases kept

/-- The end of `parse`: the last argument decides. -/
theorem parseEnd_eq (tokens : List.Forall₂ (Token s s' p stop) argv ws) (nonempty : ∀ w ∈ ws, w ≠ [])
    (few : ws.length < maxArgs) :
    (ws = [] ∧ parseEnd s' argv = some ([], true)) ∨
      ∃ init last words w, argv = init ++ [last] ∧ ws = words ++ [w] ∧ List.Forall₂ (Token s s' p stop) init words ∧
        parseEnd s' argv = some (if w.head? = some ampersand then (init, true) else (argv, false)) := by
  have room : ¬ maxArgs ≤ argv.length := by
    rw [tokens.length_eq]
    exact Nat.not_le.mpr few
  rw [parseEnd, if_neg room]
  cases last : argv.getLast? with
  | none =>
    rw [getLast?_eq_none_iff] at last
    subst last
    cases tokens
    exact .inl ⟨rfl, rfl⟩
  | some last' =>
    obtain ⟨init, rfl⟩ := getLast?_eq_some_iff.mp last
    have backwards := forall₂_reverse_iff.mpr tokens
    rw [reverse_append, reverse_singleton, singleton_append] at backwards
    generalize reversed : ws.reverse = r at backwards
    cases backwards with
    | @cons _ w _ words token others =>
      have split : ws = words.reverse ++ [w] := by
        rw [← reverse_reverse ws, reversed, reverse_cons]
      have others := forall₂_reverse_iff.mpr others
      rw [reverse_reverse] at others
      refine .inr ⟨init, last', words.reverse, w, rfl, split, others, ?_⟩
      have some : w ≠ [] := nonempty w (by simp [split])
      simp only [token.first_byte some, Option.some_inj, dropLast_concat]
      split <;> rfl

/-- What `parse` works on: the newline is a space now. -/
theorem Line.body (line : Line buf text) : strlen buf = some (text.length + 1) ∧
      HoldsAt (update buf text.length space) 0 (text ++ [space] ++ [0]) := by
  obtain ⟨bytes, behind⟩ := holdsAt_append.mp line.bytes
  obtain ⟨newline, behind⟩ := holdsAt_cons.mp behind
  obtain ⟨nul, -⟩ := holdsAt_cons.mp behind
  rw [Nat.zero_add] at newline nul
  have short := line.short
  constructor
  · apply strlenFrom_eq (Nat.zero_le _) _ nul
    · intro i inside
      by_cases last : i = text.length
      · rw [last, newline]
        decide
      · have byte := bytes i (by omega)
        rw [Nat.zero_add, getD_eq_getElem _ _ (by omega : i < text.length)] at byte
        rw [byte]
        exact fun zero => line.nul (zero ▸ getElem_mem _)
    · unfold maxLine
      omega
  · refine holdsAt_append.mpr ⟨holdsAt_append.mpr ⟨?_, ?_⟩, ?_⟩
    · exact bytes.congr fun i _ inside => update_of_ne (by omega) ..
    · refine holdsAt_cons.mpr ⟨?_, fun i hi => absurd hi (Nat.not_lt_zero i)⟩
      rw [Nat.zero_add, update_self]
    · refine holdsAt_cons.mpr ⟨?_, fun i hi => absurd hi (Nat.not_lt_zero i)⟩
      rw [Nat.zero_add, length_append, length_singleton, update_of_ne (by omega)]
      exact nul

theorem Line.parseLoop (line : Line buf text) (few : (words isSpace text).length < maxArgs) :
    ∃ buf' argv, parseLoop maxLine (update buf text.length space)
        (skipSpaces (update buf text.length space) maxLine 0) [] = some (buf', argv) ∧
      List.Forall₂ (Token buf buf' 0 (text.length + 1)) argv (words isSpace text) ∧
      ∀ i, text.length < i → buf' i = buf i := by
  obtain ⟨-, body⟩ := line.body
  have short := line.short
  have parts : ((text ++ [space]).takeWhile isSpace).length + ((text ++ [space]).dropWhile isSpace).length =
      text.length + 1 := by
    rw [← length_append, takeWhile_append_dropWhile, length_append, length_singleton]
  have whole : words isSpace ((text ++ [space]).dropWhile isSpace) = words isSpace text := by
    rw [words_dropWhile, words_append_sep (by rfl : isSpace space = true), words_nil, append_nil]
  have skipped := skipSpaces_eq body
    (by rw [length_append, length_singleton]; unfold maxLine; omega : (text ++ [space]).length < maxLine)
  rw [Nat.zero_add] at skipped
  rw [← takeWhile_append_dropWhile (p := isSpace) (l := text ++ [space]), append_assoc] at body
  have start := (holdsAt_append.mp body).2
  rw [Nat.zero_add] at start
  -- the text and the space are a rest of a line behind an empty word
  have nul : 0 ∉ [] ++ space :: (text ++ [space]) := by
    simp only [nil_append, mem_cons, mem_append, not_or]
    exact ⟨by decide, line.nul, by decide, not_mem_nil⟩
  have last : ∀ c, ([] ++ space :: (text ++ [space])).getLast? = some c → c = space := by
    intro c last
    rw [nil_append, ← cons_append, getLast?_concat] at last
    exact (Option.some.inj last).symm
  obtain ⟨nul', head, ends⟩ := rest_ok nul last
  have bound : ((text ++ [space]).dropWhile isSpace).length < maxLine := by
    unfold maxLine
    omega
  have room : ([] : List Nat).length + (words isSpace ((text ++ [space]).dropWhile isSpace)).length ≤ maxArgs := by
    rw [whole, length_nil]
    omega
  obtain ⟨buf', argv, loop, tokens, same⟩ := parseLoop_tokens start nul' head ends bound bound room
  rw [whole, parts] at tokens
  refine ⟨buf', argv, ?_, tokens.imp fun q w token => ?_, fun i outside => ?_⟩
  · rw [skipped, loop, nil_append]
  · have stop := token.stop
    exact ⟨Nat.zero_le q, stop, token.string,
      token.kept.congr fun i _ inside => (update_of_ne (by omega) ..).symm⟩
  · rw [same i (.inr (by omega)), update_of_ne (by omega)]

theorem Token.stringAt (token : Token s s' p stop q w) (nul : 0 ∉ w) (short : stop ≤ maxLine) :
    stringAt s' maxLine q = w :=
  stringAt_eq token.string nul (by have := token.stop; omega)

end

/-- For every line with fewer than `MAXARGS` words `parse` returns the words of the text as strings in the
    buffer, but for a last one that starts with `&`; the flag says whether there was such a word, or none at
    all.  The bytes of the words are those of the line, and nothing is written behind the line. -/
theorem parse_tokens {buf : Buffer} {text : List UInt8} (line : Line buf text)
    (few : (words isSpace text).length < maxArgs) :
    ∃ buf' argv background, parse buf = some (buf', argv, background) ∧
      argv.map (stringAt buf' maxLine) = arguments text ∧
      (background = true ↔ words isSpace text = [] ∨ endsWithAmpersand text = true) ∧
      List.Forall₂ (Token buf buf' 0 (text.length + 1)) argv (arguments text) ∧
      ∀ i, text.length < i → buf' i = buf i := by
  obtain ⟨length, -⟩ := line.body
  have short := line.short
  obtain ⟨buf', argv, loop, tokens, same⟩ := line.parseLoop few
  have eq : parse buf = (parseEnd buf' argv).bind fun args => some (buf', args) := by
    rw [parse, length]
    simp [loop]
  -- the strings of arguments that are words of the text
  have strings {argv : List Nat} {ws : List (List UInt8)}
      (tokens : List.Forall₂ (Token buf buf' 0 (text.length + 1)) argv ws) (inside : ∀ w ∈ ws, w ∈ words isSpace text) :
      argv.map (stringAt buf' maxLine) = ws := by
    induction tokens with
    | nil => rfl
    | @cons q w argv ws token _ ih =>
      have nul : 0 ∉ w := fun zero => line.nul (mem_of_mem_words (inside w mem_cons_self) zero)
      rw [map_cons, token.stringAt nul (by unfold maxLine; omega),
        ih fun w mem => inside w (mem_cons_of_mem _ mem)]
  obtain ⟨blank, ended⟩ | ⟨init, last, ws, w, rfl, split, others, ended⟩ :=
    parseEnd_eq tokens (fun w => ne_nil_of_mem_words) few
  · -- a blank line
    rw [ended] at eq
    have nothing : arguments text = [] := by
      simp [arguments, endsWithAmpersand, blank]
    exact ⟨buf', [], true, eq, by rw [nothing, map_nil], by simp [blank], nothing ▸ .nil, same⟩
  · have flag : endsWithAmpersand text = decide (w.head? = some ampersand) := by
      simp [endsWithAmpersand, split]
    rw [ended] at eq
    by_cases ampersand : w.head? = some ampersand
    · have args : arguments text = ws := by
        rw [arguments, flag, if_pos (decide_eq_true ampersand), split, dropLast_concat]
      rw [if_pos ampersand] at eq
      refine ⟨buf', init, true, eq, ?_, by simp [flag, ampersand], args ▸ others, same⟩
      rw [args]
      exact strings others fun w mem => by simp [split, mem]
    · have args : arguments text = words isSpace text := by
        rw [arguments, flag, if_neg (by simpa using ampersand)]
      rw [if_neg ampersand] at eq
      refine ⟨buf', init ++ [last], false, eq, ?_, by simp [flag, ampersand, split], args ▸ tokens, same⟩
      rw [args]
      exact strings tokens fun w mem => mem

/-- ` ls  foo &` and a newline. -/
def lsFooText : List UInt8 := [32, 108, 115, 32, 32, 102, 111, 111, 32, 38]

theorem parse_tokens_ls : ∃ buf' argv background,
    parse (fun i => (lsFooText ++ [10]).getD i 0) = some (buf', argv, background) ∧
      argv.map (stringAt buf' maxLine) = [[108, 115], [102, 111, 111]] ∧ background = true := by
  have line : Line (fun i => (lsFooText ++ [10]).getD i 0) lsFooText :=
    ⟨by decide, by decide, by decide, by decide⟩
  obtain ⟨buf', argv, background, done, strings, flag, -⟩ := parse_tokens line (by decide +kernel)
  have args : arguments lsFooText = [[108, 115], [102, 111, 111]] := by decide +kernel
  exact ⟨buf', argv, background, done, strings.trans args, flag.mpr (.inr (by decide +kernel))⟩

end Illinix.Verified.Bsh
