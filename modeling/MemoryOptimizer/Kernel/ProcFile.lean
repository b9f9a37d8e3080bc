import MemoryOptimizer.Lib.RefCount

/-!
# The references taken by `/proc/idle_pages`

`ept_idle_open` takes a reference to the module, `IDLE_PAGE_SET_PID` one to the
address space of a process and one to its virtual machine, `ept_idle_release`
drops what the file's `eic` points to. The state is the reference count of every
object and what each file opened so far points to; a file is named by the
position at which it was opened.

* `unowned_step` — one operation: the references no file accounts for grow by
  exactly what the operation loses.
* `run_refs_eq_iff` — a run that ends with every file released has put every
  count back if and only if no allocation failed in `ept_idle_open` and no file
  was given a second process.
-/

namespace MemoryOptimizer

namespace ProcFile

variable {Mm Kvm : Type*}

/-! ### The objects with a count -/

/-- What the module takes references to. -/
inductive Obj (Mm Kvm : Type*) where
  | thisModule
  | mm (m : Mm)
  | kvm (k : Kvm)
deriving DecidableEq

/-- The part of `struct ept_idle_ctrl` that owns references. `kvm` is set
together with `mm`, by `get_mm_and_kvm_by_pid` only. -/
structure Eic (Mm Kvm : Type*) where
  mm : Option Mm
  kvm : Option Kvm
  mm_of_kvm : mm = none → kvm = none

/-- `kzalloc`: both pointers are null. -/
def Eic.zero : Eic Mm Kvm := ⟨none, none, fun _ => rfl⟩

/-- The references an `eic` owns. -/
def Eic.holds (eic : Eic Mm Kvm) : List (Obj Mm Kvm) :=
  eic.kvm.toList.map .kvm ++ eic.mm.toList.map .mm

theorem Eic.holds_eq_nil_iff (eic : Eic Mm Kvm) : eic.holds = [] ↔ eic.mm = none := by
  refine ⟨fun h => ?_, fun h => ?_⟩
  · cases hmm : eic.mm with
    | none => rfl
    | some mm => simp [holds, hmm] at h
  · simp [holds, h, eic.mm_of_kvm h]

/-- A file of `/proc/idle_pages`: open, with its `private_data`, or released. -/
inductive FileState (Mm Kvm : Type*) where
  | opened (privateData : Option (Eic Mm Kvm))
  | released

/-- The references a file owns. -/
def FileState.holds : FileState Mm Kvm → List (Obj Mm Kvm)
  | .opened none => [.thisModule]
  | .opened (some eic) => .thisModule :: eic.holds
  | .released => []

/-! ### The operations -/

section Operations

variable [DecidableEq Mm] [DecidableEq Kvm]

def ebusy : ℤ := 16
def enomem : ℤ := 12
def einval : ℤ := 22
def esrch : ℤ := 3

/-- A file of the target process: its `d_path` (none where it does not fit the
32 bytes of the buffer) and its `private_data`. -/
structure FdFile (Kvm : Type*) where
  dPath : Option String
  privateData : Option Kvm

/-- The target process: its address space (none for a kernel thread) and its
table of file descriptors. -/
structure Task (Mm Kvm : Type*) where
  mm : Option Mm
  files : List (Option (FdFile Kvm))

/-- The loop over the descriptors: the first file named `anon_inode:kvm-vm`
decides, also when it carries no virtual machine. -/
def findKvm : List (Option (FdFile Kvm)) → Option Kvm
  | [] => none
  | none :: fds => findKvm fds
  | some file :: fds =>
      match file.dPath with
      | none => findKvm fds
      | some fname => if fname = "anon_inode:kvm-vm" then file.privateData else findKvm fds

/-- `get_mm_and_kvm_by_pid`. The argument is what the lookups of the pid say: no
such pid, a pid without a task, or the task. An error leaves the counts alone. -/
def getMmAndKvmByPid (refs : Refs (Obj Mm Kvm)) :
    Option (Option (Task Mm Kvm)) → Refs (Obj Mm Kvm) × Except ℤ (Mm × Option Kvm)
  | none => (refs, .error (-esrch))
  | some none => (refs, .error (-esrch))
  | some (some task) =>
      match task.mm with
      | none => (refs, .error (-esrch))
      | some mm =>
          match findKvm task.files with
          | none => (refs.get (.mm mm), .ok (mm, none))
          | some kvm => ((refs.get (.mm mm)).get (.kvm kvm), .ok (mm, some kvm))

/-- `ept_idle_open`: the counts, the file's `private_data` and the result. -/
def eptIdleOpen (refs : Refs (Obj Mm Kvm)) (moduleGot allocated : Bool) :
    Refs (Obj Mm Kvm) × Option (Eic Mm Kvm) × ℤ :=
  if ¬moduleGot then (refs, none, -ebusy)
  else
    let refs := refs.get .thisModule
    if ¬allocated then (refs, none, -enomem) else (refs, some .zero, 0)

inductive IoctlCmd where
  | idlePageSetPid
  | other

/-- `ept_idle_ioctl`. The pointers of a successful lookup overwrite the old ones. -/
def eptIdleIoctl (refs : Refs (Obj Mm Kvm)) (privateData : Option (Eic Mm Kvm)) (cmd : IoctlCmd)
    (proc : Option (Option (Task Mm Kvm))) : Refs (Obj Mm Kvm) × Option (Eic Mm Kvm) × ℤ :=
  match privateData with
  | none => (refs, none, -enomem)
  | some eic =>
      match cmd with
      | .other => (refs, some eic, -einval)
      | .idlePageSetPid =>
          match getMmAndKvmByPid refs proc with
          | (refs, .error e) => (refs, some eic, e)
          | (refs, .ok (mm, kvm)) => (refs, some ⟨some mm, kvm, by simp⟩, 0)

/-- `ept_idle_release`. -/
def eptIdleRelease (refs : Refs (Obj Mm Kvm)) (privateData : Option (Eic Mm Kvm)) :
    Refs (Obj Mm Kvm) × ℤ :=
  match privateData with
  | none => (refs.put .thisModule, 0)
  | some eic =>
      let refs := match eic.kvm with
        | some kvm => refs.put (.kvm kvm)
        | none => refs
      let refs := match eic.mm with
        | some mm => refs.put (.mm mm)
        | none => refs
      (refs.put .thisModule, 0)

/-! ### Runs -/

/-- The counts, and every file opened so far. -/
structure System (Mm Kvm : Type*) where
  refs : Refs (Obj Mm Kvm)
  files : List (FileState Mm Kvm)

/-- An operation on `/proc/idle_pages`, with what the kernel around the module
answers: whether it gives the reference and the memory, and what the pid names. -/
inductive Op (Mm Kvm : Type*) where
  | open (moduleGot allocated : Bool)
  | ioctl (file : ℕ) (cmd : IoctlCmd) (proc : Option (Option (Task Mm Kvm)))
  | read (file : ℕ)
  | release (file : ℕ)

/-- The `private_data` of a file that is open. -/
def System.opened (s : System Mm Kvm) (file : ℕ) : Option (Option (Eic Mm Kvm)) :=
  match s.files[file]? with
  | some (.opened privateData) => some privateData
  | _ => none

/-- One operation; none where the file is not open. An open that fails leaves no
file behind, so nothing releases it. -/
def step (s : System Mm Kvm) : Op Mm Kvm → Option (System Mm Kvm)
  | .open moduleGot allocated =>
      let (refs, privateData, ret) := eptIdleOpen s.refs moduleGot allocated
      if ret = 0 then some ⟨refs, s.files ++ [.opened privateData]⟩ else some ⟨refs, s.files⟩
  | .ioctl file cmd proc => do
      let privateData ← s.opened file
      let (refs, privateData, _) := eptIdleIoctl s.refs privateData cmd proc
      some ⟨refs, s.files.set file (.opened privateData)⟩
  | .read file => do
      let _ ← s.opened file
      some s
  | .release file => do
      let privateData ← s.opened file
      some ⟨(eptIdleRelease s.refs privateData).1, s.files.set file .released⟩

/-- The operations one after the other. -/
def run (s : System Mm Kvm) : List (Op Mm Kvm) → Option (System Mm Kvm)
  | [] => some s
  | op :: ops => (step s op).bind fun s => run s ops

/-! ### What an operation loses -/

/-- The references that `op` leaves without an owner: the module's when
`ept_idle_open` has no memory, and what an `eic` pointed to when a second process
is set. -/
def lost (s : System Mm Kvm) : Op Mm Kvm → List (Obj Mm Kvm)
  | .open true false => [.thisModule]
  | .ioctl file .idlePageSetPid (some (some task)) =>
      match task.mm, s.opened file with
      | some _, some (some eic) => eic.holds
      | _, _ => []
  | _ => []

/-- The operation is not an open whose allocation fails, nor a second successful
`IDLE_PAGE_SET_PID` on a file. -/
def Keeps (s : System Mm Kvm) : Op Mm Kvm → Prop
  | .open moduleGot allocated => moduleGot = true → allocated = true
  | .ioctl file .idlePageSetPid (some (some task)) =>
      task.mm ≠ none → ∀ privateData ∈ s.opened file, ∀ eic ∈ privateData, eic.mm = none
  | _ => True

/-- Every operation of a run keeps its references. -/
def RunKeeps (s : System Mm Kvm) : List (Op Mm Kvm) → Prop
  | [] => True
  | op :: ops => Keeps s op ∧ ∀ s' ∈ step s op, RunKeeps s' ops

instance decidableKeeps (s : System Mm Kvm) (op : Op Mm Kvm) : Decidable (Keeps s op) := by
  unfold Keeps
  split <;> infer_instance

instance decidableRunKeeps (s : System Mm Kvm) : ∀ ops, Decidable (RunKeeps s ops)
  | [] => .isTrue trivial
  | op :: ops =>
      have := fun s' => decidableRunKeeps s' ops
      inferInstanceAs (Decidable (Keeps s op ∧ ∀ s' ∈ step s op, RunKeeps s' ops))

omit [DecidableEq Mm] [DecidableEq Kvm] in
theorem lost_eq_nil_iff (s : System Mm Kvm) (op : Op Mm Kvm) : lost s op = [] ↔ Keeps s op := by
  cases op with
  | «open» moduleGot allocated => cases moduleGot <;> cases allocated <;> simp [lost, Keeps]
  | read file => simp [lost, Keeps]
  | release file => simp [lost, Keeps]
  | ioctl file cmd proc =>
      rcases cmd with _ | _
      · rcases proc with _ | _ | task
        · simp [lost, Keeps]
        · simp [lost, Keeps]
        · cases hmm : task.mm with
          | none => simp [lost, Keeps, hmm]
          | some mm =>
              rcases hfile : s.opened file with _ | _ | eic
              · simp [lost, Keeps, hmm, hfile]
              · simp [lost, Keeps, hmm, hfile]
              · simp [lost, Keeps, hmm, hfile, Eic.holds_eq_nil_iff]
      · simp [lost, Keeps]

/-! ### One operation -/

omit [DecidableEq Mm] [DecidableEq Kvm] in
theorem getElem?_of_opened {s : System Mm Kvm} {file : ℕ} {privateData : Option (Eic Mm Kvm)}
    (h : s.opened file = some privateData) : s.files[file]? = some (.opened privateData) := by
  unfold System.opened at h
  split at h
  · next hfile => rw [hfile, Option.some_inj.mp h]
  · cases h

/-- A lookup that succeeds takes the references that the new `eic` owns. -/
theorem getMmAndKvmByPid_ok {refs refs' : Refs (Obj Mm Kvm)}
    {proc : Option (Option (Task Mm Kvm))} {mm : Mm} {kvm : Option Kvm}
    (h : getMmAndKvmByPid refs proc = (refs', .ok (mm, kvm))) (o : Obj Mm Kvm) :
    refs' o = refs o + (Eic.holds ⟨some mm, kvm, by simp⟩).count o := by
  unfold getMmAndKvmByPid at h
  split at h
  · cases h
  · cases h
  · next task =>
    cases hmm : task.mm with
    | none => rw [hmm] at h; cases h
    | some mm' =>
        rw [hmm] at h
        cases hkvm : findKvm task.files with
        | none =>
            rw [hkvm] at h
            cases h
            simp [Refs.get_apply, Eic.holds]
        | some kvm' =>
            rw [hkvm] at h
            cases h
            simp only [Refs.get_apply, Eic.holds, Option.toList_some, List.map_cons, List.map_nil,
              List.count_append]
            push_cast
            ring

theorem getMmAndKvmByPid_error {refs refs' : Refs (Obj Mm Kvm)}
    {proc : Option (Option (Task Mm Kvm))} {e : ℤ}
    (h : getMmAndKvmByPid refs proc = (refs', .error e)) :
    refs' = refs := by
  unfold getMmAndKvmByPid at h
  split at h
  · cases h; rfl
  · cases h; rfl
  · split at h
    · cases h; rfl
    · split at h <;> cases h

theorem eptIdleRelease_apply (refs : Refs (Obj Mm Kvm)) (privateData : Option (Eic Mm Kvm))
    (o : Obj Mm Kvm) :
    (eptIdleRelease refs privateData).1 o =
      refs o - (FileState.opened privateData).holds.count o := by
  rcases privateData with _ | ⟨_ | mm, _ | kvm, _⟩ <;>
    simp only [eptIdleRelease, FileState.holds, Eic.holds, Refs.put_apply, Option.toList_none,
      Option.toList_some, List.map_nil, List.map_cons, List.append_nil, List.nil_append,
      List.count_cons, List.count_nil, List.cons_append] <;>
    push_cast <;> ring

/-- What `ept_idle_ioctl` does to the counts: it adds what the new `eic` owns, and
drops nothing for the old one. -/
theorem eptIdleIoctl_apply (s : System Mm Kvm) {file : ℕ} {privateData : Option (Eic Mm Kvm)}
    (hfile : s.opened file = some privateData) (cmd : IoctlCmd)
    (proc : Option (Option (Task Mm Kvm))) (o : Obj Mm Kvm) :
    (eptIdleIoctl s.refs privateData cmd proc).1 o - s.refs o -
        (((FileState.opened (eptIdleIoctl s.refs privateData cmd proc).2.1).holds.count o : ℤ) -
          (FileState.opened privateData).holds.count o) =
      (lost s (.ioctl file cmd proc)).count o := by
  rcases privateData with _ | eic
  · have hlost : lost s (.ioctl file cmd proc) = [] := by
      unfold lost
      split
      · next h => cases h
      · next h => cases h; rw [hfile]; split <;> simp_all
      · rfl
    rw [hlost]
    simp [eptIdleIoctl]
  · cases cmd with
    | other => simp [eptIdleIoctl, lost]
    | idlePageSetPid =>
        cases hget : getMmAndKvmByPid s.refs proc with
        | mk refs r =>
            cases r with
            | error e =>
                have hlost : lost s (.ioctl file .idlePageSetPid proc) = [] := by
                  rcases proc with _ | _ | task
                  · rfl
                  · rfl
                  · cases hmm : task.mm with
                    | none => simp [lost, hmm]
                    | some mm =>
                        simp only [getMmAndKvmByPid, hmm] at hget
                        split at hget <;> cases hget
                simp [eptIdleIoctl, hget, hlost, getMmAndKvmByPid_error hget]
            | ok found =>
                obtain ⟨mm, kvm⟩ := found
                have hlost : lost s (.ioctl file .idlePageSetPid proc) = eic.holds := by
                  rcases proc with _ | _ | task
                  · cases hget
                  · cases hget
                  · cases hmm : task.mm with
                    | none => simp only [getMmAndKvmByPid, hmm] at hget; cases hget
                    | some mm => simp only [lost, hmm, hfile]
                simp only [eptIdleIoctl, hget, hlost, getMmAndKvmByPid_ok hget, FileState.holds,
                  List.count_cons]
                push_cast
                ring

theorem eptIdleOpen_busy (refs : Refs (Obj Mm Kvm)) (allocated : Bool) :
    eptIdleOpen refs false allocated = (refs, none, -ebusy) := rfl

theorem eptIdleOpen_nomem (refs : Refs (Obj Mm Kvm)) :
    eptIdleOpen refs true false = (refs.get .thisModule, none, -enomem) := rfl

theorem eptIdleOpen_ok (refs : Refs (Obj Mm Kvm)) :
    eptIdleOpen refs true true = (refs.get .thisModule, some .zero, 0) := rfl

/-- **One operation.** The references without an owner grow by what it loses. -/
theorem unowned_step {s s' : System Mm Kvm} {op : Op Mm Kvm} (h : step s op = some s')
    (o : Obj Mm Kvm) :
    unowned FileState.holds s'.refs s'.files o =
      unowned FileState.holds s.refs s.files o + (lost s op).count o := by
  cases op with
  | «open» moduleGot allocated =>
      cases moduleGot with
      | false =>
          simp only [step, eptIdleOpen_busy] at h
          cases h
          simp [lost]
      | true =>
          cases allocated with
          | false =>
              simp only [step, eptIdleOpen_nomem] at h
              cases h
              simp only [unowned, lost, Refs.get_apply]
              ring
          | true =>
              simp only [step, eptIdleOpen_ok] at h
              cases h
              rw [unowned_append _ s.refs]
              simp [Refs.get_apply, lost, FileState.holds, Eic.zero, Eic.holds]
  | read file =>
      simp only [step, Option.bind_eq_bind, Option.bind_eq_some_iff] at h
      obtain ⟨privateData, hfile, h⟩ := h
      cases h
      simp [lost]
  | ioctl file cmd proc =>
      simp only [step, Option.bind_eq_bind, Option.bind_eq_some_iff] at h
      obtain ⟨privateData, hfile, h⟩ := h
      cases h
      rw [unowned_set _ s.refs _ (getElem?_of_opened hfile), eptIdleIoctl_apply s hfile]
  | release file =>
      simp only [step, Option.bind_eq_bind, Option.bind_eq_some_iff] at h
      obtain ⟨privateData, hfile, h⟩ := h
      cases h
      rw [unowned_set _ s.refs _ (getElem?_of_opened hfile)]
      simp [eptIdleRelease_apply, lost, FileState.holds]

/-! ### Runs -/

/-- What the operations of a run lose. -/
def runLost (s : System Mm Kvm) : List (Op Mm Kvm) → List (Obj Mm Kvm)
  | [] => []
  | op :: ops => lost s op ++ (step s op).elim [] fun s => runLost s ops

theorem unowned_run {s s' : System Mm Kvm} {ops : List (Op Mm Kvm)} (h : run s ops = some s')
    (o : Obj Mm Kvm) :
    unowned FileState.holds s'.refs s'.files o =
      unowned FileState.holds s.refs s.files o + (runLost s ops).count o := by
  induction ops generalizing s with
  | nil => cases h; simp [runLost]
  | cons op ops ih =>
      obtain ⟨s₁, hstep, hrun⟩ := Option.bind_eq_some_iff.mp h
      rw [ih hrun, unowned_step hstep]
      simp only [runLost, hstep, Option.elim_some, List.count_append]
      push_cast
      ring

theorem runLost_eq_nil_iff {s s' : System Mm Kvm} {ops : List (Op Mm Kvm)}
    (h : run s ops = some s') : runLost s ops = [] ↔ RunKeeps s ops := by
  induction ops generalizing s with
  | nil => simp [runLost, RunKeeps]
  | cons op ops ih =>
      obtain ⟨s₁, hstep, hrun⟩ := Option.bind_eq_some_iff.mp h
      simp only [runLost, hstep, Option.elim_some, RunKeeps, List.append_eq_nil_iff,
        lost_eq_nil_iff, ih hrun]
      simp

/-- Before the first operation: the counts of the rest of the kernel, no file. -/
def System.initial (refs : Refs (Obj Mm Kvm)) : System Mm Kvm := ⟨refs, []⟩

/-- Every run of operations by any number of openers, with any answers of the
kernel around the module, that ends with every file released: all the counts are
back at their initial values if and only if every operation kept its references. -/
theorem run_refs_eq_iff (refs : Refs (Obj Mm Kvm)) {ops : List (Op Mm Kvm)} {s : System Mm Kvm}
    (hrun : run (.initial refs) ops = some s) (hreleased : ∀ file ∈ s.files, file = .released) :
    s.refs = refs ↔ RunKeeps (.initial refs) ops := by
  have hledger : ∀ o, s.refs o = refs o + (runLost (.initial refs) ops).count o := by
    intro o
    have h := unowned_run hrun o
    rwa [unowned_eq_of_forall_nil _ _ (fun file hfile => by rw [hreleased file hfile]; rfl),
      unowned_eq_of_forall_nil _ _ (fun file hfile => by cases hfile)] at h
  rw [← runLost_eq_nil_iff hrun]
  constructor
  · intro h
    refine List.eq_nil_iff_forall_not_mem.mpr fun o ho => ?_
    have hpos := List.count_pos_iff.mpr ho
    have := hledger o
    rw [h] at this
    omega
  · intro h
    funext o
    rw [hledger o, h]
    simp

/-- A process with a virtual machine behind its second descriptor. -/
def guest : Task ℕ ℕ := ⟨some 7, [none, some ⟨some "anon_inode:kvm-vm", some 9⟩]⟩

/-- Two openers, one of them of a pid that is gone. -/
def twoOpeners : List (Op ℕ ℕ) :=
  [.open true true, .open true true, .ioctl 0 .idlePageSetPid (some (some guest)),
    .ioctl 1 .idlePageSetPid none, .read 0, .release 0, .release 1]

theorem run_refs_eq_iff_twoOpeners :
    ∃ s, run (.initial fun _ => 1) twoOpeners = some s ∧ s.refs = fun _ => 1 := by
  refine ⟨_, rfl, (run_refs_eq_iff (fun _ => 1) (show run _ twoOpeners = some _ from rfl) ?_).mpr
    (by decide)⟩
  intro file hfile
  have hmem : file ∈ [FileState.released, FileState.released] := hfile
  simpa using hmem

/-- The process set twice on one file, as for a second measurement: its address
space keeps a user that no file accounts for. -/
theorem run_setPid_twice :
    ∃ s, run (.initial fun _ => 1) [.open true true,
        .ioctl 0 .idlePageSetPid (some (some guest)),
        .ioctl 0 .idlePageSetPid (some (some guest)), .release 0] = some s ∧
      s.files = [.released] ∧ s.refs (.mm 7) = 2 ∧ s.refs (.kvm 9) = 2 :=
  ⟨_, rfl, rfl, by decide, by decide⟩

end Operations

end ProcFile

end MemoryOptimizer
