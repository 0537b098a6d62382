import Illinix.Verified.Vfs.Names
import Mathlib.Data.Nat.Find

/-! # Looking a name up

`read_dentry_by_name` compares the name with one field after the other.  A name of 32 characters fills
its field and has no NUL there: the comparison then ends by its count, and by the NUL of the
shorter one otherwise. -/

namespace Illinix.Verified.Vfs

open Kernel List

variable {fs : FileSystem} {name : CString} {i : ℕ}

/-- A name field spells a name: the characters are the same, and the field ends with the name, by a NUL
    or because it is full. -/
def Spells (field : ℕ → UInt8) (name : CString) : Prop :=
  (∀ j < name.len, field j = name.bytes j) ∧ (name.len < nameSize → field name.len = 0)

/-- `strncmp` over the whole field decides whether it spells the name. -/
theorem strncmp_eq_zero {field : ℕ → UInt8} (short : name.len ≤ nameSize) :
    strncmp name.bytes field nameSize = 0 ↔ Spells field name := by
  constructor
  · intro equal
    have same {j : ℕ} (inside : j < nameSize) (le : j ≤ name.len) : field j = name.bytes j :=
      spelled_of_strncmpFrom equal (Nat.zero_le _) (by omega) le
    refine ⟨fun j hj => same (by omega) (Nat.le_of_lt hj), fun room => ?_⟩
    rw [same room (Nat.le_refl _)]
    exact name.nul
  · rintro ⟨chars, ends⟩
    refine strncmpFrom_spelled (fun j inside le => ?_) (Nat.zero_le _)
    by_cases last : j = name.len
    · subst last
      rw [name.nul]
      exact ends (by omega)
    · exact chars j (by omega)

/-- The comparison looks at no more than `n` bytes of the field. -/
theorem strncmpFrom_congr {s1 field field' : ℕ → UInt8} {n i : ℕ} (same : ∀ j < i + n, field' j = field j) :
    strncmpFrom s1 field' i n = strncmpFrom s1 field i n := by
  induction n generalizing i with
  | zero => rfl
  | succ n ih =>
    have here := same i (by omega)
    simp only [strncmpFrom, here]
    split
    · rfl
    · exact ih fun j hj => same j (by omega)

/-- The first entry of the directory with this name. -/
def FirstEntry (fs : FileSystem) (name : CString) (i : ℕ) : Prop :=
  i < fs.nDir.toNat ∧ Spells (fs.dirs i).fname name ∧ ∀ j < i, ¬ Spells (fs.dirs j).fname name

/-- What `read_dentry_by_name(fname, dentry)` returns, and what `*dentry` is then. -/
def lookedUp (fs : FileSystem) (name : CString) (dentry : Dentry) : ℤ × Dentry :=
  match readDentryByName fs name.bytes with
  | some entry => (0, entry)
  | none => (-1, dentry)

theorem lookedUp_first (few : fs.nDir.toNat ≤ filesMax) (short : name.len ≤ nameSize) (dentry : Dentry)
    (first : FirstEntry fs name i) : lookedUp fs name dentry = (0, fs.dirs i) := by
  obtain ⟨inside, spelled, before⟩ := first
  have found : (range fs.nDir.toNat).find?
      (fun i => strncmp name.bytes (fs.dirs i).fname nameSize = 0) = some i := by
    rw [find?_range_eq_some]
    refine ⟨decide_eq_true ((strncmp_eq_zero short).mpr spelled), mem_range.mpr inside, fun j hj => ?_⟩
    rw [Bool.not_eq_true', decide_eq_false_iff_not, strncmp_eq_zero short]
    exact before j hj
  have index : readDentryByIndex fs i = some (fs.dirs i) := if_neg (by omega)
  simp only [lookedUp, readDentryByName, found, index]

theorem lookedUp_none (short : name.len ≤ nameSize) (dentry : Dentry)
    (absent : ∀ i < fs.nDir.toNat, ¬ Spells (fs.dirs i).fname name) :
    lookedUp fs name dentry = (-1, dentry) := by
  have missing : (range fs.nDir.toNat).find?
      (fun i => strncmp name.bytes (fs.dirs i).fname nameSize = 0) = none := by
    rw [find?_eq_none]
    intro i hi
    rw [decide_eq_true_eq, strncmp_eq_zero short]
    exact absent i (mem_range.mp hi)
  simp only [lookedUp, readDentryByName, missing]

theorem exists_firstEntry (inside : i < fs.nDir.toNat) (spelled : Spells (fs.dirs i).fname name) :
    ∃ j, FirstEntry fs name j := by
  classical
  have some : ∃ j, j < fs.nDir.toNat ∧ Spells (fs.dirs j).fname name := ⟨i, inside, spelled⟩
  obtain ⟨inside', spelled'⟩ := Nat.find_spec some
  exact ⟨Nat.find some, inside', spelled', fun j hj found => Nat.find_min some hj ⟨Nat.lt_trans hj inside', found⟩⟩

/-- The first entry with the name is copied out, without one the entry is left alone, and the outcome of
    no comparison depends on what follows a name field. -/
theorem directory_lookup (few : fs.nDir.toNat ≤ filesMax) (short : name.len ≤ nameSize)
    (dentry : Dentry) :
    ((∃ i, FirstEntry fs name i) ↔ (lookedUp fs name dentry).1 = 0) ∧
    (∀ i, FirstEntry fs name i → (lookedUp fs name dentry).2 = fs.dirs i) ∧
    ((∀ i < fs.nDir.toNat, ¬ Spells (fs.dirs i).fname name) ↔ (lookedUp fs name dentry).1 = -1) ∧
    ((lookedUp fs name dentry).1 = -1 → (lookedUp fs name dentry).2 = dentry) ∧
    ∀ i field, (∀ j < nameSize, field j = (fs.dirs i).fname j) →
      strncmp name.bytes field nameSize = strncmp name.bytes (fs.dirs i).fname nameSize := by
  have reads (i : ℕ) (field : ℕ → UInt8) (same : ∀ j < nameSize, field j = (fs.dirs i).fname j) :
      strncmp name.bytes field nameSize = strncmp name.bytes (fs.dirs i).fname nameSize :=
    strncmpFrom_congr fun j hj => same j (by omega)
  by_cases there : ∃ i, FirstEntry fs name i
  · obtain ⟨i, first⟩ := there
    have found := lookedUp_first few short dentry first
    refine ⟨?_, fun j other => ?_, ?_, fun fails => ?_, reads⟩
    · rw [found]
      exact iff_of_true ⟨i, first⟩ rfl
    · rw [lookedUp_first few short dentry other]
    · rw [found]
      exact iff_of_false (fun none => none i first.1 first.2.1) (show (0 : ℤ) ≠ -1 by decide)
    · rw [found] at fails
      cases fails
  · have absent : ∀ i < fs.nDir.toNat, ¬ Spells (fs.dirs i).fname name :=
      fun i inside spelled => there (exists_firstEntry inside spelled)
    have missing := lookedUp_none short dentry absent
    refine ⟨?_, fun i first => absurd ⟨i, first⟩ there, ?_, fun _ => ?_, reads⟩
    · rw [missing]
      exact iff_of_false there (show (-1 : ℤ) ≠ 0 by decide)
    · rw [missing]
      exact iff_of_true absent rfl
    · rw [missing]

/-- The name of 32 characters, for a field that has no NUL. -/
def longName : CString := .lit (replicate 32 97) (by decide)

/-- Every field is full, and no NUL follows. -/
def fullField : FileSystem := { oneFile with dirs := fun i => ⟨fun _ => 97, .regular, i.toUInt32⟩ }

theorem directory_lookup_full : FirstEntry fullField longName 0 ∧
    (lookedUp fullField longName ⟨fun _ => 0, .rtc, 7⟩).1 = 0 ∧
    (lookedUp fullField longName ⟨fun _ => 0, .rtc, 7⟩).2 = fullField.dirs 0 := by
  have first : FirstEntry fullField longName 0 := by
    refine ⟨by decide, ⟨fun j hj => ?_, fun room => absurd room (by decide)⟩, nofun⟩
    show (97 : UInt8) = (replicate 32 97).getD j 0
    have inside : j < 32 := hj
    rw [getD_eq_getElem?_getD, getElem?_replicate, if_pos inside]
    rfl
  have looked := @directory_lookup fullField longName (by decide) (by decide) ⟨fun _ => 0, .rtc, 7⟩
  exact ⟨first, looked.1.mp ⟨0, first⟩, looked.2.1 0 first⟩

end Illinix.Verified.Vfs
