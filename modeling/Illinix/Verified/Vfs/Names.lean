import Illinix.Verified.Vfs.Descriptors

/-! # The names that `do_open` accepts

Only `file_open` looks a name up.  Before that, `do_open` takes every name that starts with a dot
for a directory, and every name that `strcmp` does not tell from `rtc` for the device. -/

namespace Illinix.Verified.Vfs

open Kernel Lib

/-- The operations for an entry of the given type. -/
def opOf : FileType → FileOp
  | .rtc => .rtc
  | .directory => .dir
  | .regular => .file
  | .terminal => .terminal

section

variable (fs : FileSystem)

/-- The entry `i` of the directory has exactly this name. -/
def Entry (name : CString) (i : ℕ) : Prop :=
  i < filesMax ∧ i < fs.nDir.toNat ∧ name.len ≤ nameSize ∧
    ∀ j < nameSize, j ≤ name.len → (fs.dirs i).fname j = name.bytes j

/-- A descriptor is returned only for the name of an entry, with the operations of its type, and
    any other name is rejected. -/
def Resolves (t : Files) (name : CString) (stack : File) : Prop :=
  (0 ≤ (doOpen fs t name stack).2 → ∃ i, Entry fs name i ∧
    ((doOpen fs t name stack).1.fd (doOpen fs t name stack).2.toNat).fOp = opOf (fs.dirs i).type) ∧
  ((¬ ∃ i, Entry fs name i) → (doOpen fs t name stack).2 = -1)

/-- The name is a prefix of `rtc`, or starts with it. -/
def RtcLike (name : CString) : Prop :=
  ∀ j < rtcName.len, j < name.len → name.bytes j = rtcName.bytes j

/-- The name has an entry of the type that `do_open` takes it for. -/
def NameOk (name : CString) : Prop :=
  (name.bytes 0 = dot → ∃ i, Entry fs name i ∧ (fs.dirs i).type = .directory) ∧
  (name.bytes 0 ≠ dot → RtcLike name → ∃ i, Entry fs name i ∧ (fs.dirs i).type = .rtc) ∧
  (name.bytes 0 ≠ dot → ¬ RtcLike name → (∃ i, Entry fs name i) → ∃ i, Entry fs name i ∧ (fs.dirs i).type = .regular)

end

/-! ## Comparing strings -/

section

theorem charDiff_eq_zero {a b : UInt8} : charDiff a b = 0 ↔ a = b := by
  constructor
  · intro zero
    have same : a.toInt8.toInt = b.toInt8.toInt := Int.sub_eq_zero.mp zero
    exact congrArg Int8.toUInt8 (Int8.toInt_inj.mp same)
  · rintro rfl
    exact Int.sub_self _

/-- `strncmp` finds no difference only if the field spells the name. -/
theorem spelled_of_strncmpFrom {name : CString} {field : ℕ → UInt8} {n i : ℕ}
    (equal : strncmpFrom name.bytes field i n = 0) {j : ℕ} (start : i ≤ j) (inside : j < i + n) (short : j ≤ name.len) :
    field j = name.bytes j := by
  induction n generalizing i with
  | zero => omega
  | succ n ih =>
    unfold strncmpFrom at equal
    split at equal
    · next stop =>
      have same := charDiff_eq_zero.mp equal
      -- the name ends here, so this is the last character
      have ended : name.bytes i = 0 := stop.resolve_left fun differ => differ same
      have last : ¬ i < name.len := fun more => name.body i more ended
      have here : j = i := by omega
      rw [here, same]
    · next go =>
      by_cases here : j = i
      · rw [here]
        by_contra differ
        exact go (.inl (Ne.symm differ))
      · exact ih equal (by omega) (by omega)

/-- `strcmp` compares up to the end of the shorter string. -/
theorem strcmpFrom_eq_zero {s1 s2 : CString} {fuel i : ℕ} (h1 : i ≤ s1.len) (h2 : i ≤ s2.len) :
    strcmpFrom s1.bytes s2.bytes i fuel = 0 ↔
      ∀ j, i ≤ j → j < i + fuel → j < s1.len → j < s2.len → s1.bytes j = s2.bytes j := by
  induction fuel generalizing i with
  | zero =>
    refine ⟨fun _ j _ _ => by omega, fun _ => rfl⟩
  | succ fuel ih =>
    unfold strcmpFrom
    split
    · next both =>
      have more1 : i ≠ s1.len := fun ended => both.1 (ended ▸ s1.nul)
      have more2 : i ≠ s2.len := fun ended => both.2 (ended ▸ s2.nul)
      split
      · next differ =>
        rw [charDiff_eq_zero]
        refine ⟨fun same => absurd same differ, fun all => all i (Nat.le_refl i) ?_ ?_ ?_⟩ <;> omega
      · next same =>
        rw [ih (by omega) (by omega)]
        constructor
        · intro all j start inside short1 short2
          by_cases here : j = i
          · rw [here]
            exact Decidable.not_not.mp same
          · exact all j (by omega) (by omega) short1 short2
        · intro all j start inside
          exact all j (by omega) (by omega)
    · next ended =>
      refine ⟨fun _ j start _ short1 short2 => absurd ⟨?_, ?_⟩ ended, fun _ => rfl⟩
      · exact s1.body i (by omega)
      · exact s2.body i (by omega)

theorem strcmp_rtc_eq_zero {name : CString} : strcmp name rtcName = 0 ↔ RtcLike name := by
  unfold strcmp
  rw [strcmpFrom_eq_zero (Nat.zero_le _) (Nat.zero_le _)]
  constructor
  · intro all j short2 short1
    exact all j (Nat.zero_le _) (by omega) short1 short2
  · intro all j _ _ short1 short2
    exact all j short2 short1

end

/-! ## Opening -/

section

variable {fs : FileSystem} {t : Files} {name : CString}

theorem readDentryByName_isSome (short : name.len ≤ nameSize) (nonempty : name.bytes 0 ≠ 0) :
    (readDentryByName fs name.bytes).isSome = true ↔ ∃ i, Entry fs name i := by
  constructor
  · intro found
    unfold readDentryByName at found
    split at found
    · next i first =>
      have equal : strncmp name.bytes (fs.dirs i).fname nameSize = 0 := by
        simpa using List.find?_some first
      have inside := List.mem_range.mp (List.mem_of_find?_eq_some first)
      unfold readDentryByIndex at found
      split at found
      · cases found
      · next fits =>
        refine ⟨i, by omega, inside, short, fun j hj le => ?_⟩
        exact spelled_of_strncmpFrom equal (Nat.zero_le _) (by omega) le
    · cases found
  · rintro ⟨i, files, inside, -, spelled⟩
    have positive : 0 < name.len := by
      by_contra empty
      have zero : name.len = 0 := by omega
      exact nonempty (zero ▸ name.nul)
    obtain ⟨dentry, found⟩ := readDentryByName_existing ⟨positive, short, i, files, inside, spelled⟩
    rw [found]
    rfl

/-- The operations that `do_open` gives to a descriptor for the name, `none` when it rejects it. -/
def openedAs (fs : FileSystem) (name : CString) : Option FileOp :=
  if nameSize < name.len then none
  else if name.bytes 0 = 0 then none
  else if name.bytes 0 = dot then some .dir
  else if strcmp name rtcName = 0 then some .rtc
  else if (readDentryByName fs name.bytes).isSome then some .file
  else none

/-- No descriptor is free. -/
def Full (t : Files) : Prop := ∀ j, 2 ≤ j → j < openMax → ¬ Free t j

/-- The call returned a descriptor with these operations. -/
def OpensAs (op : FileOp) (r : Files × ℤ) : Prop := ∃ i : ℕ, r.2 = i ∧ (r.1.fd i).fOp = op

/-- How a call ends for a name that is to get the given operations. -/
def Outcome (t : Files) (r : Files × ℤ) : Option FileOp → Prop
  | none => r.2 = -1
  | some op => (Full t ∧ r.2 = -1) ∨ (¬ Full t ∧ OpensAs op r)

theorem store_opensAs (t : Files) (i : ℕ) (dentry : Dentry) (op : FileOp) :
    OpensAs op (t.store i ⟨dentry, op, 1, 0⟩, (i : ℤ)) := by
  refine ⟨i, rfl, ?_⟩
  unfold Files.store
  rw [if_neg (by omega)]
  simp

theorem openAt_outcome (t : Files) (fname : ℕ → UInt8) (type : FileType) (op : FileOp) (stack : File) :
    Outcome t (openAt t 2 fname type op stack) (some op) := by
  unfold openAt
  rcases fileInit_cases t stack ⟨fname, type, 0⟩ op with ⟨i, done, low, inside, free, -⟩ | ⟨done, full⟩
  · simp only [done]
    exact .inr ⟨fun full => full i low inside free, store_opensAs ..⟩
  · simp only [done]
    exact .inl ⟨full, rfl⟩

theorem fileOpen_outcome (t : Files) (stack : File) : Outcome t (fileOpen fs t name stack)
      (if (readDentryByName fs name.bytes).isSome then some .file else none) := by
  unfold fileOpen
  cases readDentryByName fs name.bytes with
  | none => rfl
  | some dentry =>
    rcases fileInit_cases t stack dentry .file with ⟨i, done, low, inside, free, -⟩ | ⟨done, full⟩
    · simp only [done]
      exact .inr ⟨fun full => full i low inside free, store_opensAs ..⟩
    · simp only [done]
      exact .inl ⟨full, rfl⟩

theorem doOpen_outcome (fs : FileSystem) (t : Files) (name : CString) (stack : File) :
    Outcome t (doOpen fs t name stack) (openedAs fs name) := by
  unfold openedAs doOpen
  by_cases long : nameSize < name.len
  · simp only [if_pos long]
    rfl
  by_cases empty : name.bytes 0 = 0
  · simp only [if_neg long, if_pos empty]
    rfl
  by_cases dotted : name.bytes 0 = dot
  · simp only [if_neg long, if_neg empty, if_pos dotted]
    exact openAt_outcome ..
  by_cases device : strcmp name rtcName = 0
  · simp only [if_neg long, if_neg empty, if_neg dotted, if_pos device]
    exact openAt_outcome ..
  · simp only [if_neg long, if_neg empty, if_neg dotted, if_neg device]
    exact fileOpen_outcome ..

/-- A name is resolved iff it gets the operations of one of its entries. -/
theorem resolves_iff_openedAs (fs : FileSystem) (t : Files) (name : CString) (stack : File) :
    Resolves fs t name stack ↔
      Full t ∨ ∀ op, openedAs fs name = some op → ∃ i, Entry fs name i ∧ opOf (fs.dirs i).type = op := by
  have outcome := doOpen_outcome fs t name stack
  unfold Resolves
  generalize doOpen fs t name stack = r at outcome
  cases as : openedAs fs name with
  | none =>
    rw [as] at outcome
    have failed : r.2 = -1 := outcome
    refine ⟨fun _ => .inr fun op none => (by cases none), fun _ => ⟨fun ok => ?_, fun _ => failed⟩⟩
    omega
  | some op =>
    rw [as] at outcome
    rcases outcome with ⟨full, failed⟩ | ⟨room, i, returned, op_eq⟩
    · refine ⟨fun _ => .inl full, fun _ => ⟨fun ok => ?_, fun _ => failed⟩⟩
      omega
    · have index : r.2.toNat = i := by omega
      rw [index, op_eq]
      constructor
      · rintro ⟨entry, -⟩
        obtain ⟨k, is, type⟩ := entry (by omega)
        refine .inr fun op' same => ⟨k, is, ?_⟩
        cases same
        exact type.symm
      · intro cond
        obtain ⟨k, is, type⟩ := (cond.resolve_left room) op rfl
        exact ⟨fun _ => ⟨k, is, type.symm⟩, fun none => absurd ⟨k, is⟩ none⟩

theorem opOf_eq_dir {type : FileType} : opOf type = .dir ↔ type = .directory := by cases type <;> decide

theorem opOf_eq_rtc {type : FileType} : opOf type = .rtc ↔ type = .rtc := by cases type <;> decide

theorem opOf_eq_file {type : FileType} : opOf type = .file ↔ type = .regular := by cases type <;> decide

/-- `do_open` rejects a name that is too long or empty before it looks at anything else. -/
theorem openedAs_ok_iff (fs : FileSystem) (name : CString) :
    (∀ op, openedAs fs name = some op → ∃ i, Entry fs name i ∧ opOf (fs.dirs i).type = op) ↔
      (name.len ≤ nameSize → name.bytes 0 ≠ 0 → NameOk fs name) := by
  unfold openedAs NameOk
  by_cases long : nameSize < name.len
  · simp [long, Nat.not_le.mpr long]
  by_cases empty : name.bytes 0 = 0
  · simp [empty]
  have short : name.len ≤ nameSize := Nat.not_lt.mp long
  by_cases dotted : name.bytes 0 = dot
  · simp [dotted, short, opOf_eq_dir, show dot ≠ 0 by decide]
  by_cases device : RtcLike name
  · have same := strcmp_rtc_eq_zero.mpr device
    simp [dotted, same, device, short, empty, opOf_eq_rtc]
  · have differ := mt strcmp_rtc_eq_zero.mp device
    simp [dotted, differ, device, short, empty, opOf_eq_file, readDentryByName_isSome short empty]

end

/-- `do_open` resolves names properly if and only if the table is full, or the name is too long or
    empty, or has an entry of the type that the name alone suggests. -/
theorem open_resolves_iff (fs : FileSystem) (t : Files) (name : CString) (stack : File) :
    Resolves fs t name stack ↔
      ((∃ j, 2 ≤ j ∧ j < openMax ∧ Free t j) → name.len ≤ nameSize → 0 < name.len → NameOk fs name) := by
  have nonempty : 0 < name.len ↔ name.bytes 0 ≠ 0 := by
    constructor
    · exact name.body 0
    · intro character
      by_contra empty
      exact character ((Nat.eq_zero_of_not_pos empty) ▸ name.nul)
  have room : (∃ j, 2 ≤ j ∧ j < openMax ∧ Free t j) ↔ ¬ Full t := by
    unfold Full
    simp
  rw [resolves_iff_openedAs, openedAs_ok_iff, nonempty, room]
  exact or_iff_not_imp_left

/-- A directory without entries. -/
def emptyDirectory : FileSystem := { oneFile with nDir := 0 }

/-- `r` -/
def rName : CString := .lit [114] (by decide)

/-- `.x` -/
def dotName : CString := .lit [46, 120] (by decide)

/-- In an empty directory, `r` opens the device and `.x` a directory. -/
theorem absent_names_open :
    (doOpen emptyDirectory (fdBoot junkFiles junkFile).files rName junkFile).2 = 2 ∧
    (doOpen emptyDirectory (fdBoot junkFiles junkFile).files dotName junkFile).2 = 2 ∧
    ¬ Resolves emptyDirectory (fdBoot junkFiles junkFile).files rName junkFile ∧
    ¬ Resolves emptyDirectory (fdBoot junkFiles junkFile).files dotName junkFile := by
  have device : (doOpen emptyDirectory (fdBoot junkFiles junkFile).files rName junkFile).2 = 2 := by decide +kernel
  have directory : (doOpen emptyDirectory (fdBoot junkFiles junkFile).files dotName junkFile).2 = 2 := by
    decide +kernel
  have absent (name : CString) : ¬ ∃ i, Entry emptyDirectory name i := by
    rintro ⟨i, -, inside, -⟩
    exact Nat.not_lt_zero i inside
  refine ⟨device, directory, fun resolved => ?_, fun resolved => ?_⟩
  · have failed := resolved.2 (absent rName)
    omega
  · have failed := resolved.2 (absent dotName)
    omega

end Illinix.Verified.Vfs
