import Illinix.Verified.Process.Tree
import Illinix.Verified.Vfs.Descriptors

/-! # What a forked child sees of its parent's files

`do_fork` leaves the child without a descriptor table; `fdcopy` copies that of whoever is its
parent at the child's first file call.  The copy is the table at the time of the fork as long
as the forking process has a table and keeps it, and stays the parent, until the children it
forked have made their first call. -/

namespace Illinix.Verified.Process

open Kernel Lib Function
open Verified.Vfs (Free OpensFile Opened openAt_opened doWrite_files oneFile fileName junkFile junkFiles)

/-- The processes and, for each forked child that has not made a file call, the table of its
    parent when it was forked. -/
structure Forks extends Processes where
  pending : Nat → Option (Option Files)

inductive ForkEvent where
  | fork (p : Nat) (page : Page)
  | call (p : Nat) (c : FileCall)
  | exit (p : Nat) (status : UInt32)

section

variable (fs : FileSystem)

def forkExec (s : Forks) : ForkEvent → Option Forks
  | .fork p page => (doFork s.toProcesses page p).toOption.map fun r =>
    ⟨r.1, update s.pending page.addr (some (s.threads p).fds)⟩
  | .call p c => (sysCall fs s.toProcesses p c).toOption.map fun r =>
    ⟨r.1, update s.pending p none⟩
  | .exit p status => (doExit s.toProcesses p status).map fun k =>
    ⟨k, update s.pending p none⟩

/-- Processes that exist act, and `alloc_kstack` returns a page that none uses. -/
def ForkLegal (s : Forks) : ForkEvent → Prop
  | .fork p page => p ∈ s.taskQueue ∧ page.addr ∉ s.taskQueue
  | .call p _ | .exit p _ => p ∈ s.taskQueue

def ForkStep (s : Forks) (e : ForkEvent) (s' : Forks) : Prop :=
  ForkLegal s e ∧ forkExec fs s e = some s'

/-- The first file call of each forked child finds a table, and it is the one its parent had at
    the fork. -/
def SnapshotsKept (s : Forks) : Prop :=
  ∀ p fds, s.pending p = some fds →
    ∃ t k, fds = some t ∧ fdcopy s.toProcesses p = some k ∧ (k.threads p).fds = some t

/-- No forked child of `p` still has to copy its table. -/
def NoneWaits (s : Forks) (p : Nat) : Prop :=
  ∀ q ∈ s.taskQueue, (s.pending q).isSome = true → (s.threads q).parent ≠ p

/-- The call passes the checks that it makes before it changes the table `t`. -/
def Reaches (t : Files) : FileCall → Prop
  | .open name _ => OpensFile fs name ∨ name.len ≤ nameSize ∧ name.bytes 0 ≠ 0 ∧
      (name.bytes 0 = dot ∨ strcmp name rtcName = 0) ∧ ∃ i, i < openMax ∧ 2 ≤ i ∧ Free t i
  | .close fd => validFd t fd = true ∧ (t.fd fd.toNat).fOp ≠ .terminal
  | .read fd _ _ _ => validFd t fd = true ∧
      ((t.fd fd.toNat).fOp = .file ∨ (t.fd fd.toNat).fOp = .dir ∧ (t.fd fd.toNat).fPos < fs.nDir)
  | .write _ _ _ _ => False

/-- A process forks only when it has a table; it opens, closes and reads files only when no
    child waits for its table, and exits only when its children have made a call. -/
def ForkCareful (s : Forks) : ForkEvent → Prop
  | .fork p _ => (s.threads p).fds.isSome = true
  | .call p c => ∀ t ∈ (s.threads p).fds, Reaches fs t c → NoneWaits s p
  | .exit p _ => ∀ q ∈ (s.threads p).children, (s.pending q).isNone = true

def CarefulForkStep (s : Forks) (e : ForkEvent) (s' : Forks) : Prop :=
  ForkCareful fs s e ∧ ForkStep fs s e s'

end

/-! ## Invariant -/

/-- `q` has no table, and its parent has the table `fds`. -/
structure Waiting (k : Processes) (q : Nat) (fds : Option Files) : Prop where
  mem : q ∈ k.taskQueue
  parent : (k.threads q).parent ∈ k.taskQueue
  none : (k.threads q).fds = none
  some : fds.isSome = true
  same : (k.threads (k.threads q).parent).fds = fds

def ForkInv (s : Forks) : Prop := ∀ q fds, s.pending q = some fds → Waiting s.toProcesses q fds

theorem ForkInv.snapshotsKept {s : Forks} (inv : ForkInv s) : SnapshotsKept s := by
  intro p fds pending
  have waiting := inv p fds pending
  obtain ⟨t, rfl⟩ := Option.isSome_iff_exists.mp waiting.some
  refine ⟨t, s.modify p fun thread => { thread with fds := some t }, rfl, ?_, ?_⟩
  · unfold fdcopy
    rw [waiting.none, waiting.same]
  · rw [modify_self]

section

variable {fs : FileSystem} {s : Forks} {k k' : Processes} {p q : Nat} {fds : Option Files}

/-- A change that leaves the child, its parent and their tables alone. -/
theorem Waiting.congr (waiting : Waiting k q fds) (tasks : ∀ p ∈ k.taskQueue, p ∈ k'.taskQueue)
    (parent : (k'.threads q).parent = (k.threads q).parent)
    (child : (k'.threads q).fds = (k.threads q).fds)
    (table : (k'.threads (k.threads q).parent).fds = (k.threads (k.threads q).parent).fds) :
    Waiting k' q fds := by
  constructor
  · exact tasks q waiting.mem
  · rw [parent]
    exact tasks _ waiting.parent
  · exact child.trans waiting.none
  · exact waiting.some
  · rw [parent, table]
    exact waiting.same

theorem ForkInv.fork {page : Page} {pid : UInt32} (inv : ForkInv s) (hp : p ∈ s.taskQueue)
    (fresh : page.addr ∉ s.taskQueue) (table : (s.threads p).fds.isSome = true)
    (done : doFork s.toProcesses page p = .ok (k', pid)) :
    ForkInv ⟨k', update s.pending page.addr (some (s.threads p).fds)⟩ := by
  obtain ⟨k1, k2, pid', done', added, active⟩ := doFork_spec s.toProcesses (ne_of_mem_of_not_mem hp fresh)
  cases done.symm.trans done'
  have old : ∀ q ∈ s.taskQueue, q ≠ page.addr := fun q hq => ne_of_mem_of_not_mem hq fresh
  have tasks : ∀ q ∈ s.taskQueue, q ∈ k'.taskQueue := by
    intro q hq
    rw [active.taskQueue]
    exact added.mem_taskQueue.mpr (.inl hq)
  have kept : ∀ q ∈ s.taskQueue, (k'.threads q).fds = (s.threads q).fds ∧
      (k'.threads q).parent = (s.threads q).parent := by
    intro q hq
    constructor
    · exact (active.thread (g := (·.fds)) (fun _ _ _ _ _ => rfl) q).trans
        (added.thread (g := (·.fds)) (fun _ _ => rfl) q (old q hq))
    · exact (active.thread (g := (·.parent)) (fun _ _ _ _ _ => rfl) q).trans
        (added.thread (g := (·.parent)) (fun _ _ => rfl) q (old q hq))
  intro q fds pending
  change update s.pending page.addr _ q = some fds at pending
  rcases eq_or_ne q page.addr with rfl | other
  · -- the new child waits for the table of the process that forked it
    rw [update_self] at pending
    cases pending
    have parent : (k'.threads page.addr).parent = p := by
      rw [active.thread (g := (·.parent)) fun _ _ _ _ _ => rfl, added.new]
      rfl
    constructor
    · rw [active.taskQueue]
      exact added.mem_taskQueue.mpr (.inr rfl)
    · rw [parent]
      exact tasks p hp
    · rw [active.thread (g := (·.fds)) fun _ _ _ _ _ => rfl, added.new]
      rfl
    · exact table
    · rw [parent]
      exact (kept p hp).1
  · rw [update_of_ne other] at pending
    have waiting := inv q fds pending
    exact waiting.congr tasks (kept q waiting.mem).2 (kept q waiting.mem).1 (kept _ waiting.parent).1

/-- A file call changes the table of its caller only. -/
theorem sysCall_spec {c : FileCall} {r : Int} (done : sysCall fs k p c = .ok (k', r)) :
    k'.taskQueue = k.taskQueue ∧ (∀ q, (k'.threads q).parent = (k.threads q).parent) ∧
    (∀ q ≠ p, (k'.threads q).fds = (k.threads q).fds) ∧
    ∀ t, (k.threads p).fds = some t → ∃ t', doCall fs t c = .ok (t', r) ∧ (k'.threads p).fds = some t' := by
  have copied : ∀ {k1}, fdcopy k p = some k1 → k1 = k ∨ (k.threads p).fds = none ∧
        ∃ t, k1 = k.modify p fun thread => { thread with fds := some t } := by
    intro k1 copied
    unfold fdcopy at copied
    split at copied
    · cases copied
      exact .inl rfl
    · next missing _ =>
      cases copied
      exact .inr ⟨missing, _, rfl⟩
    · cases copied
  unfold sysCall at done
  cases first : fdcopy k p with
  | none =>
    rw [first] at done
    cases done
  | some k1 =>
    rw [first] at done
    simp only at done
    cases table : (k1.threads p).fds with
    | none =>
      rw [table] at done
      cases done
    | some t1 =>
      rw [table] at done
      obtain ⟨⟨t', r'⟩, called, done⟩ := bind_eq_ok.mp done
      cases done
      rcases copied first with rfl | ⟨missing, t, rfl⟩
      · refine ⟨rfl, ?_, ?_, ?_⟩
        · exact fun q => modify_field (·.parent) (f := fun thread => { thread with fds := some t' }) rfl q
        · intro q other
          rw [modify_of_ne other]
        · intro t same
          cases table.symm.trans same
          exact ⟨t', called, by rw [modify_self]⟩
      · refine ⟨rfl, ?_, ?_, ?_⟩
        · intro q
          rw [modify_field (·.parent) (f := fun thread => { thread with fds := some t' }) rfl q]
          exact modify_field (·.parent) (f := fun thread => { thread with fds := some t }) rfl q
        · intro q other
          rw [modify_of_ne other, modify_of_ne other]
        · intro t same
          cases missing.symm.trans same

theorem doOpen_reaches {name : CString} {stack : File} {t : Files}
    (none : ¬ Reaches fs t (.open name stack)) : (doOpen fs t name stack).1 = t := by
  obtain ⟨regular, special⟩ := not_or.mp none
  have kept : ∀ {result}, Opened t result → (¬ ∃ i, i < openMax ∧ 2 ≤ i ∧ Free t i) → result.1 = t := by
    intro result opened full
    cases opened with
    | failed => rfl
    | stored i dentry op low inside free => exact absurd ⟨i, inside, low, free⟩ full
  unfold doOpen
  split_ifs with long empty dir rtc
  · rfl
  · rfl
  · exact kept (openAt_opened ..).1 fun free => special ⟨Nat.not_lt.mp long, empty, .inl dir, free⟩
  · exact kept (openAt_opened ..).1 fun free => special ⟨Nat.not_lt.mp long, empty, .inr rtc, free⟩
  · unfold fileOpen
    split
    · rfl
    · next found => exact absurd ⟨Nat.not_lt.mp long, empty, dir, rtc, by rw [found]; rfl⟩ regular

/-- Only a call that passes its checks changes the table. -/
theorem doCall_reaches {c : FileCall} {t t' : Files} {r : Int} (none : ¬ Reaches fs t c)
    (done : doCall fs t c = .ok (t', r)) : t' = t := by
  cases c with
  | write fd buf nbytes word =>
    have same := doWrite_files t fd buf nbytes word
    rw [Except.ok.inj done] at same
    exact same
  | «open» name stack =>
    have same := doOpen_reaches none
    rw [Except.ok.inj done] at same
    exact same
  | close fd =>
    have done := Except.ok.inj done
    unfold doClose at done
    split at done
    · next valid =>
      split at done
      · cases done
        rfl
      all_goals next op => exact absurd ⟨valid, by rw [op]; decide⟩ none
    · cases done
      rfl
  | read fd buf nbytes terminal =>
    simp only [doCall, doRead] at done
    split at done
    · next valid =>
      split at done
      · next op => exact absurd ⟨valid, .inl op⟩ none
      · next op =>
        have ended : fs.nDir ≤ (t.fd fd.toNat).fPos :=
          UInt32.not_lt.mp fun inside => none ⟨valid, .inr ⟨op, inside⟩⟩
        simp only [directoryRead, if_pos ended] at done
        split at done
        all_goals
          cases done
          rfl
      all_goals
        cases done
        rfl
    · cases done
      rfl

theorem ForkInv.call {c : FileCall} {r : Int} (inv : ForkInv s) (careful : ForkCareful fs s (.call p c))
    (done : sysCall fs s.toProcesses p c = .ok (k', r)) :
    ForkInv ⟨k', update s.pending p none⟩ := by
  obtain ⟨tasks, parent, others, own⟩ := sysCall_spec done
  intro q fds pending
  change update s.pending p none q = some fds at pending
  rcases eq_or_ne q p with rfl | other
  · rw [update_self] at pending
    cases pending
  · rw [update_of_ne other] at pending
    have waiting := inv q fds pending
    refine waiting.congr (fun _ hq => tasks.symm ▸ hq) (parent q) (others q other) ?_
    by_cases mine : (s.threads q).parent = p
    · -- the caller has a table, and a child that waits for it
      obtain ⟨t, table⟩ := Option.isSome_iff_exists.mp waiting.some
      have before : (s.threads p).fds = some t := by
        rw [← mine, waiting.same, table]
      obtain ⟨t', called, after⟩ := own t before
      rw [mine, before]
      have unreached : ¬ Reaches fs t c := fun reaches =>
        careful t before reaches q waiting.mem (by rw [pending]; rfl) mine
      exact after.trans (congrArg some (doCall_reaches unreached called))
    · exact others _ mine

theorem ForkInv.exit {status : UInt32} (inv : ForkInv s)
    (careful : ∀ q ∈ (s.threads p).children, (s.pending q).isNone = true)
    (done : doExit s.toProcesses p status = some k') :
    ForkInv ⟨k', update s.pending p none⟩ := by
  obtain ⟨-, k1, k2, placed, told, -, rfl⟩ := doExit_spec done
  have woken := schedExit_sameTree
    (k2.setTask (s.threads (s.threads p).parent).consoleId (s.threads p).parent) p (s.threads p).parent
  generalize schedExit (k2.setTask _ _) p _ = k' at woken
  have table : ∀ q, (k'.threads q).fds = (s.threads q).fds := by
    intro q
    rw [woken.thread (g := (·.fds)) fun _ _ _ _ _ => rfl]
    exact (told.thread (g := (·.fds)) (fun _ _ _ _ _ => rfl) q).trans
      (placed.thread (g := (·.fds)) (fun _ _ => rfl) (fun _ _ => rfl) q)
  have parent : ∀ q, q ∉ (s.threads p).children → (k'.threads q).parent = (s.threads q).parent := by
    intro q stays
    rw [woken.thread (g := (·.parent)) fun _ _ _ _ _ => rfl]
    refine (told.thread (g := (·.parent)) (fun _ _ _ _ _ => rfl) q).trans ?_
    rw [placed.parent, if_neg stays]
  have tasks : k'.taskQueue = s.taskQueue := woken.taskQueue.trans (told.taskQueue.trans placed.taskQueue)
  intro q fds pending
  change update s.pending p none q = some fds at pending
  rcases eq_or_ne q p with rfl | other
  · rw [update_self] at pending
    cases pending
  · rw [update_of_ne other] at pending
    have stays : q ∉ (s.threads p).children := by
      intro moved
      have called := careful q moved
      rw [pending] at called
      cases called
    exact (inv q fds pending).congr (fun _ hq => tasks.symm ▸ hq) (parent q stays) (table q) (table _)

theorem ForkInv.step {s' : Forks} {e : ForkEvent} (inv : ForkInv s) (step : CarefulForkStep fs s e s') :
    ForkInv s' := by
  obtain ⟨careful, legal, done⟩ := step
  cases e with
  | fork p page =>
    obtain ⟨⟨k, pid⟩, forked, rfl⟩ := Option.map_eq_some_iff.mp done
    exact inv.fork legal.1 legal.2 careful (toOption_eq_some.mp forked)
  | call p c =>
    obtain ⟨⟨k, r⟩, called, rfl⟩ := Option.map_eq_some_iff.mp done
    exact inv.call careful (toOption_eq_some.mp called)
  | exit p status =>
    obtain ⟨k, exited, rfl⟩ := Option.map_eq_some_iff.mp done
    exact inv.exit careful exited

end

/-! ## Runs -/

/-- In every run in which processes fork with a table, and change it or exit only when no child
    waits for it, the first file call of each forked child sees the table of the fork. -/
theorem fork_snapshots {fs : FileSystem} {s s' : Forks} {events : List ForkEvent}
    (idle : ∀ p, s.pending p = none) (run : Run (CarefulForkStep fs) s events s') :
    SnapshotsKept s' := by
  have start : ForkInv s := by
    intro q fds pending
    rw [idle q] at pending
    cases pending
  have inv := run.invariant
    (fun s e t (inv : ForkInv s) (step : CarefulForkStep fs s e t) => inv.step step) start
  exact inv.snapshotsKept

instance (s : Forks) (e : ForkEvent) : Decidable (ForkLegal s e) :=
  match e with
  | .fork p page => inferInstanceAs (Decidable (p ∈ s.taskQueue ∧ page.addr ∉ s.taskQueue))
  | .call p _ | .exit p _ => inferInstanceAs (Decidable (p ∈ s.taskQueue))

instance (s : Forks) (p : Nat) : Decidable (NoneWaits s p) :=
  inferInstanceAs (Decidable (∀ q ∈ s.taskQueue, (s.pending q).isSome = true → (s.threads q).parent ≠ p))

instance (fs : FileSystem) (t : Files) (c : FileCall) : Decidable (Reaches fs t c) :=
  match c with
  | .open _ _ => inferInstanceAs (Decidable (_ ∨ _ ∧ _ ∧ _ ∧ ∃ i, i < openMax ∧ 2 ≤ i ∧ Free t i))
  | .close _ | .read _ _ _ _ => inferInstanceAs (Decidable (_ ∧ _))
  | .write _ _ _ _ => inferInstanceAs (Decidable False)

instance (fs : FileSystem) (s : Forks) (e : ForkEvent) : Decidable (ForkCareful fs s e) :=
  match e with
  | .fork p _ => inferInstanceAs (Decidable ((s.threads p).fds.isSome = true))
  | .call p c => inferInstanceAs (Decidable (∀ t ∈ (s.threads p).fds, Reaches fs t c → NoneWaits s p))
  | .exit p _ => inferInstanceAs (Decidable (∀ q ∈ (s.threads p).children, (s.pending q).isNone = true))

/-- One process at 1, with the table that `fd_init` builds. -/
def oneProcess : Forks :=
  { blankProcesses with
    threads := fun _ => { blankThread with fds := some (fdInit junkFiles junkFile).1 }
    taskQueue := [1]
    running := 1
    pending := fun _ => none }

/-- The child makes its first call before its parent opens a file, and forks in its turn. -/
theorem fork_snapshots_child :
    ∃ s, Run (CarefulForkStep oneFile) oneProcess
        [.fork 1 ⟨2, blankThread⟩, .call 2 (.close 5), .call 1 (.open fileName junkFile),
          .fork 2 ⟨3, blankThread⟩] s ∧
      (s.pending 3).isSome = true ∧ SnapshotsKept s := by
  have found : (attempt (fun s e => ForkCareful oneFile s e ∧ ForkLegal s e) (forkExec oneFile) oneProcess
      [.fork 1 ⟨2, blankThread⟩, .call 2 (.close 5), .call 1 (.open fileName junkFile),
        .fork 2 ⟨3, blankThread⟩]).any (fun s => (s.pending 3).isSome) = true := by
    decide +kernel
  obtain ⟨s, run, waits⟩ := exists_run (CarefulForkStep oneFile)
    (fun _ _ _ pass done => ⟨pass.1, pass.2, done⟩) found
  exact ⟨s, run, waits, fork_snapshots (fun _ => rfl) run⟩

/-- The parent opens a file after the fork: the child's first call then finds the file in its
    table. -/
theorem fork_snapshot_lost :
    ∃ s, Run (ForkStep oneFile) oneProcess
        [.fork 1 ⟨2, blankThread⟩, .call 1 (.open fileName junkFile)] s ∧ ¬ SnapshotsKept s := by
  have found : (attempt ForkLegal (forkExec oneFile) oneProcess
      [.fork 1 ⟨2, blankThread⟩, .call 1 (.open fileName junkFile)]).any (fun s =>
        -- descriptor 2 in the table of the fork, and in the one that would be copied
        (s.pending 2).map (·.map fun t => (t.fd 2).fCount) = some (some 0) ∧
        (fdcopy s.toProcesses 2).map (fun k => (k.threads 2).fds.map fun t => (t.fd 2).fCount) =
          some (some 1)) = true := by
    decide +kernel
  obtain ⟨s, run, test⟩ := exists_run (ForkStep oneFile) (fun _ _ _ pass done => ⟨pass, done⟩) found
  obtain ⟨forked, copied⟩ := of_decide_eq_true test
  refine ⟨s, run, fun kept => ?_⟩
  obtain ⟨fds, pending, -⟩ := Option.map_eq_some_iff.mp forked
  obtain ⟨t, k, rfl, done, same⟩ := kept 2 fds pending
  rw [pending] at forked
  rw [done, Option.map_some, same] at copied
  cases (Option.some.inj forked).symm.trans (Option.some.inj copied)

end Illinix.Verified.Process
