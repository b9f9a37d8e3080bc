import Mathlib.Data.List.Count
import Mathlib.Logic.Function.Basic
import MemoryOptimizer.Lib.Holders

/-!
# The phases of the scan and their threads

`GlobalScan` runs its phases, `walk_once` and `migrate`, with a pool of worker
threads: the main thread pushes a job for each range onto `work_queue` and then
pops as many jobs from `done_queue`. The operations of a queue are atomic, and
any thread may take the next step; a pop of an empty queue waits. `executed` and
`quits` are not part of the program: they record the jobs executed since the
phase began, and the quit jobs each worker took.

* `mainStep_inv`, `workerStep_inv` — a step of either side keeps the invariant:
  in a phase the jobs of its ranges are what is still to be pushed, queued, held by
  a worker or executed, and the main thread still waits for as many jobs as there
  are between it and the workers.
* `run_barrier` — a phase that returns has executed every job once and left
  nothing behind.
-/

namespace MemoryOptimizer

namespace GlobalScan.Threads

variable {Range : Type*}

/-! ### The threads -/

inductive JobIntent where
  | walk | migrate | quit
deriving DecidableEq

/-- `struct Job`; a quit job has no range. -/
structure Job (Range : Type*) where
  intent : JobIntent
  migration : Option Range
deriving DecidableEq

/-- `walk_once` and `migrate`. -/
inductive PhaseKind where
  | walkOnce | migrate
deriving DecidableEq

/-- A phase: its function, `idle_ranges`, and `option.max_threads` at that time. -/
structure Phase (Range : Type*) where
  kind : PhaseKind
  idleRanges : List Range
  maxThreads : ℕ

/-- `job.intent` of a phase. -/
def Phase.intent (p : Phase Range) : JobIntent :=
  match p.kind with
  | .walkOnce => .walk
  | .migrate => .migrate

/-- The job of a range. -/
def Phase.job (p : Phase Range) (m : Range) : Job Range := ⟨p.intent, some m⟩

/-- The jobs of a phase. -/
def Phase.jobs (p : Phase Range) : List (Job Range) := p.idleRanges.map p.job

/-- Where a worker is in `consumer_loop`: before `work_queue.pop`, in
`consumer_job`, before `done_queue.push`, or behind the loop. -/
inductive Worker (Range : Type*) where
  | idle
  | running (job : Job Range)
  | finished (job : Job Range)
  | exited
deriving DecidableEq

/-- Where the main thread is: between two phases; in the loop over
`idle_ranges`, with the ranges left and `nr`, also while it executes a job itself
and while it hands that job over; in the loop over the completions; or in
`stop_threads`, with the quit jobs left or the number of threads joined. -/
inductive Main (Range : Type*) where
  | returned (last : Option (Phase Range))
  | pushing (p : Phase Range) (todo : List Range) (nr : ℕ)
  | running (p : Phase Range) (job : Job Range) (todo : List Range) (nr : ℕ)
  | handing (p : Phase Range) (job : Job Range) (todo : List Range) (nr : ℕ)
  | waiting (p : Phase Range) (nr : ℕ)
  | stopping (left : ℕ)
  | joining (joined : ℕ)
  | stopped

structure State (Range : Type*) where
  main : Main Range
  workQueue : List (Job Range)
  doneQueue : List (Job Range)
  workers : List (Worker Range)
  executed : List (Job Range)
  quits : ℕ → ℕ

/-- After `create_threads`. -/
def State.init (Range : Type*) (maxThreads : ℕ) : State Range :=
  ⟨.returned none, [], [], List.replicate maxThreads .idle, [], fun _ => 0⟩

/-- The next step of worker `i` in `consumer_loop`. -/
def workerStep (s : State Range) (i : ℕ) : Option (State Range) :=
  match s.workers[i]? with
  | some .idle =>
      match s.workQueue with
      | [] => none
      | job :: rest => some
          { s with
            workQueue := rest
            workers := s.workers.set i (.running job)
            quits := if job.intent = .quit then Function.update s.quits i (s.quits i + 1)
              else s.quits }
  | some (.running job) =>
      if job.intent = .quit then some { s with workers := s.workers.set i .exited }
      else some
        { s with
          workers := s.workers.set i (.finished job)
          executed := s.executed ++ [job] }
  | some (.finished job) => some
      { s with
        workers := s.workers.set i .idle
        doneQueue := s.doneQueue ++ [job] }
  | some .exited => none
  | none => none

/-- The next step of the main thread in `walk_once`, `migrate` or `stop_threads`.
With `max_threads` 0 it executes a job itself; `walk_once` then hands it over. -/
def mainStep (s : State Range) : Option (State Range) :=
  match s.main with
  | .returned _ => none
  | .pushing p [] nr => some { s with main := .waiting p nr }
  | .pushing p (m :: todo) nr =>
      if p.maxThreads ≠ 0 then
        some { s with
          main := .pushing p todo (nr + 1)
          workQueue := s.workQueue ++ [p.job m] }
      else some { s with main := .running p (p.job m) todo nr }
  | .running p job todo nr => some
      { s with
        main := match p.kind with
          | .walkOnce => .handing p job todo nr
          | .migrate => .pushing p todo nr
        executed := s.executed ++ [job] }
  | .handing p job todo nr => some
      { s with
        main := .pushing p todo (nr + 1)
        doneQueue := s.doneQueue ++ [job] }
  | .waiting p 0 => some { s with main := .returned (some p) }
  | .waiting p (nr + 1) =>
      match s.doneQueue with
      | [] => none
      | _ :: rest => some { s with main := .waiting p nr, doneQueue := rest }
  | .stopping 0 => some { s with main := .joining 0 }
  | .stopping (left + 1) => some
      { s with main := .stopping left, workQueue := s.workQueue ++ [⟨.quit, none⟩] }
  | .joining joined =>
      if joined = s.workers.length then some { s with main := .stopped }
      else
        match s.workers[joined]? with
        | some .exited => some { s with main := .joining (joined + 1) }
        | _ => none
  | .stopped => none

/-- What happens next: between two phases the main thread enters a phase or
`stop_threads`; otherwise it or a worker goes on. -/
inductive Label (Range : Type*) where
  | enter (p : Phase Range)
  | stop
  | main
  | worker (i : ℕ)

def step (s : State Range) : Label Range → Option (State Range)
  | .enter p =>
      match s.main with
      | .returned _ => some { s with main := .pushing p p.idleRanges 0, executed := [] }
      | _ => none
  | .stop =>
      match s.main with
      | .returned _ => some { s with main := .stopping s.workers.length }
      | _ => none
  | .main => mainStep s
  | .worker i => workerStep s i

def run (s : State Range) (labels : List (Label Range)) :
    Option (State Range) :=
  labels.foldlM step s

/-! ### What the threads hold -/

/-- The job a worker executes. -/
def Worker.runs : Worker Range → List (Job Range)
  | .running job => [job]
  | _ => []

/-- The job a worker has executed but not handed over. -/
def Worker.hands : Worker Range → List (Job Range)
  | .finished job => [job]
  | _ => []

/-- The quit jobs a worker has taken. -/
def Worker.quits : Worker Range → ℕ
  | .running job => if job.intent = .quit then 1 else 0
  | .exited => 1
  | _ => 0

/-- The jobs that worker threads execute. -/
def State.running (s : State Range) : List (Job Range) := s.workers.flatMap Worker.runs

/-- The jobs that workers are about to hand over. -/
def State.handed (s : State Range) : List (Job Range) := s.workers.flatMap Worker.hands

/-- The jobs that the main thread executes or is going to push. -/
def Main.todo : Main Range → List (Job Range)
  | .pushing p todo _ => todo.map p.job
  | .running p job todo _ => job :: todo.map p.job
  | .handing p _ todo _ => todo.map p.job
  | _ => []

/-- The jobs not executed yet. -/
def State.unfinished (s : State Range) : List (Job Range) :=
  s.main.todo ++ s.workQueue ++ s.running

/-! ### The invariant -/

/-- In a phase, with the jobs `todo` still to be pushed or executed by the main
thread, and `nr` completions still to be waited for. -/
structure InPhase (s : State Range) (p : Phase Range) (todo : List (Job Range)) (nr : ℕ) :
    Prop where
  accounted : (todo ++ s.workQueue ++ s.running ++ s.executed).Perm p.jobs
  owed : nr = s.workQueue.length + s.running.length + s.handed.length + s.doneQueue.length
  no_exited : ∀ w ∈ s.workers, w ≠ .exited

/-- In `stop_threads`, with `left` quit jobs still to be pushed. -/
structure Stopping (s : State Range) (left : ℕ) : Prop where
  doneQueue_eq : s.doneQueue = []
  handed_eq : s.handed = []
  all_quit : ∀ job ∈ s.workQueue ++ s.running, job.intent = .quit
  exits : left + s.workQueue.length + s.running.length + s.workers.countP (· matches .exited) =
    s.workers.length

/-- What holds while the main thread is at `m`. -/
def AtMain (s : State Range) : Main Range → Prop
  | .returned last => s.workQueue = [] ∧ s.doneQueue = [] ∧ (∀ w ∈ s.workers, w = .idle) ∧
      ∀ p, last = some p → s.executed.Perm p.jobs
  | .pushing p todo nr => InPhase s p (todo.map p.job) nr
  | .running p job todo nr => InPhase s p (job :: todo.map p.job) nr
  | .handing p _ todo nr => InPhase s p (todo.map p.job) nr
  | .waiting p nr => InPhase s p [] nr
  | .stopping left => Stopping s left
  | .joining joined => Stopping s 0 ∧ ∀ i < joined, s.workers[i]? = some .exited
  | .stopped => Stopping s 0 ∧ ∀ i < s.workers.length, s.workers[i]? = some .exited

/-- The invariant of the threads. -/
structure Inv (n : ℕ) (s : State Range) : Prop where
  length_eq : s.workers.length = n
  quits_eq : ∀ i w, s.workers[i]? = some w → s.quits i = w.quits
  atMain : AtMain s s.main

theorem inv_init (n : ℕ) : Inv n (State.init Range n) := by
  refine ⟨by simp [State.init], fun i w hw => ?_, rfl, rfl, fun w hw => ?_, fun p hp => ?_⟩
  · simp only [State.init, List.getElem?_replicate] at hw
    split at hw
    · cases hw
      rfl
    · cases hw
  · exact List.eq_of_mem_replicate hw
  · cases hp

/-- The jobs of a phase are not quit jobs. -/
theorem intent_ne_quit {p : Phase Range} {job : Job Range} (h : job ∈ p.jobs) :
    job.intent ≠ .quit := by
  obtain ⟨m, -, rfl⟩ := List.mem_map.mp h
  cases hkind : p.kind <;> simp [Phase.job, Phase.intent, hkind]

theorem intent_eq {p : Phase Range} {job : Job Range} (h : job ∈ p.jobs) :
    job.intent = p.intent := by
  obtain ⟨m, -, rfl⟩ := List.mem_map.mp h
  rfl

/-- A queued or running job of a phase is one of its jobs. -/
theorem InPhase.mem_jobs {s : State Range} {p : Phase Range} {todo : List (Job Range)} {nr : ℕ}
    (h : InPhase s p todo nr) {job : Job Range} (hjob : job ∈ todo ++ s.workQueue ++ s.running) :
    job ∈ p.jobs := h.accounted.subset (List.mem_append_left _ hjob)

/-! ### Steps of a worker -/

/-- What a worker can do. -/
theorem workerStep_cases {s s' : State Range} {i : ℕ} (h : workerStep s i = some s') :
    (∃ job rest, s.workers[i]? = some .idle ∧ s.workQueue = job :: rest ∧
      s' = { s with
        workQueue := rest
        workers := s.workers.set i (.running job)
        quits := if job.intent = .quit then Function.update s.quits i (s.quits i + 1)
          else s.quits }) ∨
    (∃ job, s.workers[i]? = some (.running job) ∧ job.intent = .quit ∧
      s' = { s with workers := s.workers.set i .exited }) ∨
    (∃ job, s.workers[i]? = some (.running job) ∧ job.intent ≠ .quit ∧
      s' = { s with
        workers := s.workers.set i (.finished job)
        executed := s.executed ++ [job] }) ∨
    ∃ job, s.workers[i]? = some (.finished job) ∧
      s' = { s with
        workers := s.workers.set i .idle
        doneQueue := s.doneQueue ++ [job] } := by
  unfold workerStep at h
  split at h
  · next hw =>
    split at h
    · cases h
    · next job rest hqueue => exact .inl ⟨job, rest, hw, hqueue, (Option.some_inj.mp h).symm⟩
  · next job hw =>
    split at h
    · next hquit => exact .inr (.inl ⟨job, hw, hquit, (Option.some_inj.mp h).symm⟩)
    · next hquit => exact .inr (.inr (.inl ⟨job, hw, hquit, (Option.some_inj.mp h).symm⟩))
  · next job hw => exact .inr (.inr (.inr ⟨job, hw, (Option.some_inj.mp h).symm⟩))
  · cases h
  · cases h

theorem workerStep_main {s s' : State Range} {i : ℕ} (h : workerStep s i = some s') :
    s'.main = s.main := by
  rcases workerStep_cases h with ⟨_, _, _, _, rfl⟩ | ⟨_, _, _, rfl⟩ | ⟨_, _, _, rfl⟩ |
    ⟨_, _, rfl⟩ <;> rfl

theorem workerStep_length {s s' : State Range} {i : ℕ} (h : workerStep s i = some s') :
    s'.workers.length = s.workers.length := by
  rcases workerStep_cases h with ⟨_, _, _, _, rfl⟩ | ⟨_, _, _, rfl⟩ | ⟨_, _, _, rfl⟩ |
    ⟨_, _, rfl⟩ <;> exact List.length_set

theorem quits_set {s : State Range} {i : ℕ} {w : Worker Range} {quits : ℕ → ℕ}
    (h : ∀ i w, s.workers[i]? = some w → s.quits i = w.quits) (hi : quits i = w.quits)
    (hother : ∀ j, j ≠ i → quits j = s.quits j) :
    ∀ j w', (s.workers.set i w)[j]? = some w' → quits j = w'.quits := by
  intro j w' hw'
  rw [List.getElem?_set] at hw'
  split at hw'
  · next heq =>
    subst heq
    split at hw'
    · cases hw'
      exact hi
    · cases hw'
  · next hne => exact (hother j (Ne.symm hne)).trans (h j w' hw')

theorem workerStep_quits {s s' : State Range} {i : ℕ} (h : workerStep s i = some s')
    (hquits : ∀ i w, s.workers[i]? = some w → s.quits i = w.quits) :
    ∀ i w, s'.workers[i]? = some w → s'.quits i = w.quits := by
  rcases workerStep_cases h with ⟨job, rest, hw, -, rfl⟩ | ⟨job, hw, hquit, rfl⟩ |
    ⟨job, hw, hquit, rfl⟩ | ⟨job, hw, rfl⟩
  · have hzero : s.quits i = 0 := hquits i _ hw
    refine quits_set hquits ?_ fun j hj => ?_
    · simp only [Worker.quits]
      split <;> simp [hzero]
    · split
      · exact Function.update_of_ne hj ..
      · rfl
  · refine quits_set hquits ?_ fun _ _ => rfl
    rw [hquits i _ hw, Worker.quits, if_pos hquit]
    rfl
  · refine quits_set hquits ?_ fun _ _ => rfl
    rw [hquits i _ hw, Worker.quits, if_neg hquit]
    rfl
  · refine quits_set hquits ?_ fun _ _ => rfl
    rw [hquits i _ hw]
    rfl

theorem mem_running {s : State Range} {i : ℕ} {job : Job Range}
    (h : s.workers[i]? = some (.running job)) : job ∈ s.running :=
  List.mem_flatMap.mpr ⟨_, List.mem_of_getElem? h, List.mem_singleton_self job⟩

theorem InPhase.workerStep {s s' : State Range} {i : ℕ} {p : Phase Range}
    {todo : List (Job Range)} {nr : ℕ} (h : InPhase s p todo nr)
    (hstep : workerStep s i = some s') : InPhase s' p todo nr := by
  classical
  obtain ⟨haccounted, howed, hexited⟩ := h
  rw [List.perm_iff_count] at haccounted
  have hset : ∀ w, w ≠ Worker.exited → ∀ w' ∈ s.workers.set i w, w' ≠ .exited := by
    intro w hw w' hw'
    rcases List.mem_or_eq_of_mem_set hw' with hmem | rfl
    · exact hexited w' hmem
    · exact hw
  rcases workerStep_cases hstep with ⟨job, rest, hw, hqueue, rfl⟩ | ⟨job, hw, hquit, rfl⟩ |
    ⟨job, hw, hquit, rfl⟩ | ⟨job, hw, rfl⟩
  · refine ⟨List.perm_iff_count.mpr fun j => ?_, ?_, hset _ (by simp)⟩
    · have hruns := count_flatMap_set Worker.runs hw (.running job) j
      have hj := haccounted j
      simp only [State.running, hqueue, Worker.runs, List.count_append, List.count_cons,
        List.count_nil] at hruns hj ⊢
      omega
    · have hruns := length_flatMap_set Worker.runs hw (.running job)
      have hhands := length_flatMap_set Worker.hands hw (.running job)
      simp only [State.running, State.handed, hqueue, Worker.runs, Worker.hands,
        List.length_cons, List.length_nil] at hruns hhands howed ⊢
      omega
  · -- a phase has no quit jobs
    have hmem : job ∈ todo ++ s.workQueue ++ s.running ++ s.executed :=
      List.mem_append_left _ (List.mem_append_right _ (mem_running hw))
    exact absurd hquit (intent_ne_quit ((List.perm_iff_count.mpr haccounted).subset hmem))
  · refine ⟨List.perm_iff_count.mpr fun j => ?_, ?_, hset _ (by simp)⟩
    · have hruns := count_flatMap_set Worker.runs hw (.finished job) j
      have hj := haccounted j
      simp only [State.running, Worker.runs, List.count_append, List.count_cons,
        List.count_nil] at hruns hj ⊢
      omega
    · have hruns := length_flatMap_set Worker.runs hw (.finished job)
      have hhands := length_flatMap_set Worker.hands hw (.finished job)
      simp only [State.running, State.handed, Worker.runs, Worker.hands,
        List.length_cons, List.length_nil] at hruns hhands howed ⊢
      omega
  · refine ⟨List.perm_iff_count.mpr fun j => ?_, ?_, hset _ (by simp)⟩
    · have hruns := count_flatMap_set Worker.runs hw .idle j
      have hj := haccounted j
      simp only [State.running, Worker.runs, List.count_append, List.count_nil] at hruns hj ⊢
      omega
    · have hruns := length_flatMap_set Worker.runs hw .idle
      have hhands := length_flatMap_set Worker.hands hw .idle
      simp only [State.running, State.handed, Worker.runs, Worker.hands, List.length_append,
        List.length_cons, List.length_nil] at hruns hhands howed ⊢
      omega

theorem Stopping.workerStep {s s' : State Range} {i left : ℕ} (h : Stopping s left)
    (hstep : workerStep s i = some s') : Stopping s' left := by
  obtain ⟨hdone, hhanded, hquits, hexits⟩ := h
  -- a worker that takes or ends a job hands nothing over
  have hnone : ∀ {old w : Worker Range}, s.workers[i]? = some old → w.hands = [] →
      (s.workers.set i w).flatMap Worker.hands = [] := by
    intro old w hw hempty
    have hlen := length_flatMap_set Worker.hands hw w
    rw [show s.workers.flatMap Worker.hands = [] from hhanded, hempty] at hlen
    exact List.length_eq_zero_iff.mp (by simp only [List.length_nil] at hlen; omega)
  rcases workerStep_cases hstep with ⟨job, rest, hw, hqueue, rfl⟩ | ⟨job, hw, hquit, rfl⟩ |
    ⟨job, hw, hquit, rfl⟩ | ⟨job, hw, rfl⟩
  · refine ⟨hdone, hnone hw rfl, fun job' hjob' => ?_, ?_⟩
    · refine hquits job' ?_
      rw [hqueue]
      rcases List.mem_append.mp hjob' with hmem | hmem
      · exact List.mem_append_left _ (List.mem_cons_of_mem _ hmem)
      · obtain ⟨w, hmem, hjob'⟩ := List.mem_flatMap.mp hmem
        rcases List.mem_or_eq_of_mem_set hmem with hmem | rfl
        · exact List.mem_append_right _ (List.mem_flatMap.mpr ⟨w, hmem, hjob'⟩)
        · obtain rfl := List.mem_singleton.mp hjob'
          exact List.mem_append_left _ List.mem_cons_self
    · have hruns := length_flatMap_set Worker.runs hw (.running job)
      have hexited := countP_set_of_getElem? (· matches .exited) hw (.running job)
      simp only [State.running, hqueue, Worker.runs, List.length_cons, List.length_nil,
        List.length_set, Bool.false_eq_true, if_false] at hruns hexited hexits ⊢
      omega
  · refine ⟨hdone, hnone hw rfl, fun job' hjob' => ?_, ?_⟩
    · rcases List.mem_append.mp hjob' with hmem | hmem
      · exact hquits job' (List.mem_append_left _ hmem)
      · obtain ⟨w, hmem, hjob'⟩ := List.mem_flatMap.mp hmem
        rcases List.mem_or_eq_of_mem_set hmem with hmem | rfl
        · exact hquits job' (List.mem_append_right _ (List.mem_flatMap.mpr ⟨w, hmem, hjob'⟩))
        · cases hjob'
    · have hruns := length_flatMap_set Worker.runs hw .exited
      have hexited := countP_set_of_getElem? (· matches .exited) hw .exited
      simp only [State.running, Worker.runs, List.length_cons, List.length_nil, List.length_set,
        Bool.false_eq_true, if_false, if_true] at hruns hexited hexits ⊢
      omega
  · exact absurd (hquits job (List.mem_append_right _ (mem_running hw))) hquit
  · have hmem : job ∈ s.handed :=
      List.mem_flatMap.mpr ⟨_, List.mem_of_getElem? hw, List.mem_singleton_self job⟩
    rw [hhanded] at hmem
    cases hmem

/-- A worker that has left its loop takes no step. -/
theorem workerStep_exited {s s' : State Range} {i j : ℕ} (hstep : workerStep s i = some s')
    (h : s.workers[j]? = some .exited) : s'.workers[j]? = some .exited := by
  have hne : i ≠ j := by
    rintro rfl
    rw [workerStep, h] at hstep
    cases hstep
  rcases workerStep_cases hstep with ⟨_, _, _, _, rfl⟩ | ⟨_, _, _, rfl⟩ | ⟨_, _, _, rfl⟩ |
    ⟨_, _, rfl⟩ <;> exact (List.getElem?_set_ne hne).trans h

/-- Between two phases no worker has anything to do. -/
theorem workerStep_eq_none {s : State Range} (hqueue : s.workQueue = [])
    (hidle : ∀ w ∈ s.workers, w = .idle) (i : ℕ) : workerStep s i = none := by
  unfold workerStep
  cases hw : s.workers[i]? with
  | none => rfl
  | some w =>
      rw [hidle w (List.mem_of_getElem? hw), hqueue]

/-- **A step of a worker.** -/
theorem workerStep_inv {n : ℕ} {s s' : State Range} {i : ℕ} (h : Inv n s)
    (hstep : workerStep s i = some s') : Inv n s' := by
  obtain ⟨hlength, hquits, hmain⟩ := h
  refine ⟨(workerStep_length hstep).trans hlength, workerStep_quits hstep hquits, ?_⟩
  rw [workerStep_main hstep]
  cases hm : s.main with
  | returned last =>
      rw [hm] at hmain
      rw [workerStep_eq_none hmain.1 hmain.2.2.1] at hstep
      cases hstep
  | pushing p todo nr => rw [hm] at hmain; exact InPhase.workerStep hmain hstep
  | running p job todo nr => rw [hm] at hmain; exact InPhase.workerStep hmain hstep
  | handing p job todo nr => rw [hm] at hmain; exact InPhase.workerStep hmain hstep
  | waiting p nr => rw [hm] at hmain; exact InPhase.workerStep hmain hstep
  | stopping left => rw [hm] at hmain; exact Stopping.workerStep hmain hstep
  | joining joined =>
      rw [hm] at hmain
      exact ⟨hmain.1.workerStep hstep, fun j hj => workerStep_exited hstep (hmain.2 j hj)⟩
  | stopped =>
      rw [hm] at hmain
      rw [AtMain, workerStep_length hstep]
      exact ⟨hmain.1.workerStep hstep, fun j hj => workerStep_exited hstep (hmain.2 j hj)⟩

/-! ### Steps of the main thread -/

/-- When the main thread waits for nothing more, the jobs are all executed. -/
theorem InPhase.returned {s : State Range} {p : Phase Range} (h : InPhase s p [] 0) :
    s.workQueue = [] ∧ s.doneQueue = [] ∧ (∀ w ∈ s.workers, w = .idle) ∧
      s.executed.Perm p.jobs := by
  have howed := h.owed
  have hqueue : s.workQueue = [] := List.length_eq_zero_iff.mp (by omega)
  have hruns : s.running = [] := List.length_eq_zero_iff.mp (by omega)
  have hhands : s.handed = [] := List.length_eq_zero_iff.mp (by omega)
  refine ⟨hqueue, List.length_eq_zero_iff.mp (by omega), fun w hw => ?_, ?_⟩
  · have hr : w.runs = [] := List.flatMap_eq_nil_iff.mp hruns w hw
    have hh : w.hands = [] := List.flatMap_eq_nil_iff.mp hhands w hw
    cases w with
    | idle => rfl
    | running job => cases hr
    | finished job => cases hh
    | exited => exact absurd rfl (h.no_exited _ hw)
  · have haccounted := h.accounted
    rwa [hqueue, hruns] at haccounted

theorem Stopping.setMain {s : State Range} {left : ℕ} (h : Stopping s left) (m : Main Range) :
    Stopping { s with main := m } left :=
  ⟨h.doneQueue_eq, h.handed_eq, h.all_quit, h.exits⟩

/-- **A step of the main thread.** -/
theorem mainStep_inv {n : ℕ} {s s' : State Range} (h : Inv n s) (hstep : mainStep s = some s') :
    Inv n s' := by
  classical
  obtain ⟨hlength, hquits, hmain⟩ := h
  unfold mainStep at hstep
  split at hstep
  · cases hstep
  · next p nr hm =>
    rw [hm] at hmain
    obtain ⟨haccounted, howed, hexited⟩ := hmain
    cases hstep
    exact ⟨hlength, hquits, haccounted, howed, hexited⟩
  · next p m todo nr hm =>
    rw [hm] at hmain
    obtain ⟨haccounted, howed, hexited⟩ := hmain
    split at hstep
    · cases hstep
      refine ⟨hlength, hquits, List.perm_iff_count.mpr fun j => ?_, ?_, hexited⟩
      · have hj := haccounted.count_eq j
        simp only [State.running, List.map_cons, List.count_append, List.count_cons,
          List.count_nil] at hj ⊢
        omega
      · simp only [State.running, State.handed, List.length_append, List.length_cons,
          List.length_nil] at howed ⊢
        omega
    · cases hstep
      exact ⟨hlength, hquits, haccounted, howed, hexited⟩
  · next p job todo nr hm =>
    rw [hm] at hmain
    obtain ⟨haccounted, howed, hexited⟩ := hmain
    cases hstep
    have hphase : ∀ m, InPhase { s with main := m, executed := s.executed ++ [job] } p
        (todo.map p.job) nr := by
      intro m
      refine ⟨List.perm_iff_count.mpr fun j => ?_, howed, hexited⟩
      have hj := haccounted.count_eq j
      simp only [State.running, List.count_append, List.count_cons, List.count_nil] at hj ⊢
      omega
    refine ⟨hlength, hquits, ?_⟩
    cases hkind : p.kind
    · exact hphase _
    · exact hphase _
  · next p job todo nr hm =>
    rw [hm] at hmain
    obtain ⟨haccounted, howed, hexited⟩ := hmain
    cases hstep
    refine ⟨hlength, hquits, haccounted, ?_, hexited⟩
    simp only [State.running, State.handed, List.length_append, List.length_cons,
      List.length_nil] at howed ⊢
    omega
  · next p hm =>
    rw [hm] at hmain
    cases hstep
    obtain ⟨hqueue, hdone, hidle, hexecuted⟩ := InPhase.returned hmain
    exact ⟨hlength, hquits, hqueue, hdone, hidle, fun p' hp' => by cases hp'; exact hexecuted⟩
  · next p nr hm =>
    rw [hm] at hmain
    obtain ⟨haccounted, howed, hexited⟩ := hmain
    split at hstep
    · cases hstep
    · next job rest hqueue =>
      cases hstep
      refine ⟨hlength, hquits, haccounted, ?_, hexited⟩
      simp only [State.running, State.handed, hqueue, List.length_cons] at howed ⊢
      omega
  · next hm =>
    rw [hm] at hmain
    cases hstep
    exact ⟨hlength, hquits, hmain.setMain _, fun i hi => absurd hi (Nat.not_lt_zero i)⟩
  · next left hm =>
    rw [hm] at hmain
    obtain ⟨hdone, hhanded, hall, hexits⟩ := hmain
    cases hstep
    refine ⟨hlength, hquits, hdone, hhanded, fun job hjob => ?_, ?_⟩
    · simp only [State.running, List.mem_append, List.mem_singleton] at hjob
      rcases hjob with (hjob | rfl) | hjob
      · exact hall job (List.mem_append_left _ hjob)
      · rfl
      · exact hall job (List.mem_append_right _ hjob)
    · simp only [State.running, List.length_append, List.length_cons, List.length_nil] at hexits ⊢
      omega
  · next joined hm =>
    rw [hm] at hmain
    split at hstep
    · next hall =>
      cases hstep
      exact ⟨hlength, hquits, hmain.1.setMain _, fun i hi => hmain.2 i (hall ▸ hi)⟩
    · split at hstep
      · next hexited =>
        cases hstep
        refine ⟨hlength, hquits, hmain.1.setMain _, fun i hi => ?_⟩
        rcases Nat.lt_succ_iff_lt_or_eq.mp hi with hlt | rfl
        · exact hmain.2 i hlt
        · exact hexited
      · cases hstep
  · cases hstep

/-! ### Runs -/

theorem step_inv {n : ℕ} {s s' : State Range} {label : Label Range} (h : Inv n s)
    (hstep : step s label = some s') : Inv n s' := by
  cases label with
  | enter p =>
      obtain ⟨hlength, hquits, hmain⟩ := h
      simp only [step] at hstep
      split at hstep
      · next last hm =>
        rw [hm] at hmain
        obtain ⟨hqueue, hdone, hidle, -⟩ := hmain
        have hempty : ∀ {g : Worker Range → List (Job Range)}, g .idle = [] →
            s.workers.flatMap g = [] := fun hg =>
          List.flatMap_eq_nil_iff.mpr fun w hw => by rw [hidle w hw, hg]
        cases hstep
        refine ⟨hlength, hquits, ?_, ?_, fun w hw => by rw [hidle w hw]; simp⟩
        · simp [State.running, hqueue, hempty (g := Worker.runs) rfl, Phase.jobs]
        · simp [State.running, State.handed, hqueue, hdone, hempty (g := Worker.runs) rfl,
            hempty (g := Worker.hands) rfl]
      · cases hstep
  | stop =>
      obtain ⟨hlength, hquits, hmain⟩ := h
      simp only [step] at hstep
      split at hstep
      · next last hm =>
        rw [hm] at hmain
        obtain ⟨hqueue, hdone, hidle, -⟩ := hmain
        have hempty : ∀ {g : Worker Range → List (Job Range)}, g .idle = [] →
            s.workers.flatMap g = [] := fun hg =>
          List.flatMap_eq_nil_iff.mpr fun w hw => by rw [hidle w hw, hg]
        have hexits : s.workers.countP (· matches .exited) = 0 :=
          List.countP_eq_zero.mpr fun w hw => by rw [hidle w hw]; simp
        cases hstep
        refine ⟨hlength, hquits, hdone, hempty rfl, ?_, ?_⟩
        · simp [State.running, hqueue, hempty (g := Worker.runs) rfl]
        · simp only [State.running, hqueue, hempty (g := Worker.runs) rfl, hexits]
          rfl
      · cases hstep
  | main => exact mainStep_inv h hstep
  | worker i => exact workerStep_inv h hstep

theorem run_inv {n : ℕ} (labels : List (Label Range)) {s s' : State Range} (h : Inv n s)
    (hrun : run s labels = some s') : Inv n s' := by
  induction labels generalizing s with
  | nil => cases hrun; exact h
  | cons label labels ih =>
      obtain ⟨s₁, hstep, hrest⟩ := Option.bind_eq_some_iff.mp hrun
      exact ih (step_inv h hstep) hrest

/-- In a phase the jobs that are not executed yet are jobs of that phase. -/
theorem Inv.unfinished_intent {n : ℕ} {s : State Range} (h : Inv n s) :
    ∃ intent, ∀ job ∈ s.unfinished, job.intent = intent := by
  have hmain := h.atMain
  unfold State.unfinished
  cases hm : s.main with
  | returned last =>
      rw [hm] at hmain
      obtain ⟨hqueue, -, hidle, -⟩ := hmain
      have hruns : s.running = [] := List.flatMap_eq_nil_iff.mpr fun w hw => by
        rw [hidle w hw]
        rfl
      exact ⟨.quit, by simp [Main.todo, hqueue, hruns]⟩
  | pushing p todo nr =>
      rw [hm] at hmain
      exact ⟨p.intent, fun job hjob => intent_eq (InPhase.mem_jobs hmain hjob)⟩
  | running p job todo nr =>
      rw [hm] at hmain
      exact ⟨p.intent, fun job hjob => intent_eq (InPhase.mem_jobs hmain hjob)⟩
  | handing p job todo nr =>
      rw [hm] at hmain
      exact ⟨p.intent, fun job hjob => intent_eq (InPhase.mem_jobs hmain hjob)⟩
  | waiting p nr =>
      rw [hm] at hmain
      exact ⟨p.intent, fun job hjob => intent_eq (InPhase.mem_jobs hmain hjob)⟩
  | stopping left =>
      rw [hm] at hmain
      exact ⟨.quit, hmain.all_quit⟩
  | joining joined =>
      rw [hm] at hmain
      exact ⟨.quit, hmain.1.all_quit⟩
  | stopped =>
      rw [hm] at hmain
      exact ⟨.quit, hmain.1.all_quit⟩

/-- When `stop_threads` has joined all threads, no quit job is left. -/
theorem Stopping.workQueue_eq {s : State Range} (h : Stopping s 0)
    (hall : ∀ i < s.workers.length, s.workers[i]? = some .exited) : s.workQueue = [] := by
  have hcount : s.workers.countP (· matches .exited) = s.workers.length := by
    refine List.countP_eq_length.mpr fun w hw => ?_
    obtain ⟨i, hi, rfl⟩ := List.mem_iff_getElem.mp hw
    have hexited := hall i hi
    rw [List.getElem?_eq_getElem hi, Option.some_inj] at hexited
    rw [hexited]
  have hexits := h.exits
  exact List.length_eq_zero_iff.mp (by omega)

/-- Any number of workers, any sequence of phases over any ranges, any
interleaving of the threads: when a phase has returned, its jobs have been executed,
each once, and no queue and no worker holds a job; a migrate job and a walk job are
never unfinished together; and when `stop_threads` has returned, every worker has
taken one quit job, and left. -/
theorem run_barrier (n : ℕ) (labels : List (Label Range)) {s : State Range}
    (hrun : run (.init Range n) labels = some s) :
    (∀ p, s.main = .returned (some p) → s.executed.Perm p.jobs ∧ s.workQueue = [] ∧
        s.doneQueue = [] ∧ ∀ w ∈ s.workers, w = .idle) ∧
      (∀ job ∈ s.unfinished, job.intent = .migrate →
        ∀ job' ∈ s.unfinished, job'.intent ≠ .walk) ∧
      (s.main = .stopped → s.workQueue = [] ∧
        ∀ i < n, s.workers[i]? = some .exited ∧ s.quits i = 1) := by
  have hinv := run_inv labels (inv_init n) hrun
  have hmain := hinv.atMain
  refine ⟨fun p hp => ?_, fun job hjob hmigrate job' hjob' hwalk => ?_, fun hstopped => ?_⟩
  · rw [hp] at hmain
    obtain ⟨hqueue, hdone, hidle, hexecuted⟩ := hmain
    exact ⟨hexecuted p rfl, hqueue, hdone, hidle⟩
  · obtain ⟨intent, hintent⟩ := hinv.unfinished_intent
    rw [hintent job hjob] at hmigrate
    rw [hintent job' hjob', hmigrate] at hwalk
    cases hwalk
  · rw [hstopped] at hmain
    obtain ⟨hstopping, hall⟩ := hmain
    refine ⟨hstopping.workQueue_eq hall, fun i hi => ?_⟩
    have hexited := hall i (hinv.length_eq.symm ▸ hi)
    exact ⟨hexited, hinv.quits_eq i _ hexited⟩

/-- Two workers and a walk over two ranges: the second job overtakes the first. -/
def overtaking : List (Label ℕ) :=
  [.enter ⟨.walkOnce, [7, 8], 2⟩, .main, .worker 0, .main, .worker 1, .main, .worker 1, .worker 1,
    .main, .worker 0, .worker 0, .main, .main]

theorem run_barrier_overtaking :
    ∃ s, run (.init ℕ 2) overtaking = some s ∧
      s.executed = [⟨.walk, some 8⟩, ⟨.walk, some 7⟩] ∧
      s.executed.Perm [⟨.walk, some 7⟩, ⟨.walk, some 8⟩] ∧ s.workQueue = [] :=
  have h := (run_barrier 2 overtaking rfl).1 ⟨.walkOnce, [7, 8], 2⟩ rfl
  ⟨_, rfl, rfl, h.1, h.2.1⟩

/-! ### No deadlock -/

/-- A worker holding a job, or one in front of a queue that is not empty, goes on. -/
theorem workerStep_isSome {s : State Range} {i : ℕ} {w : Worker Range}
    (hw : s.workers[i]? = some w) (hexited : w ≠ .exited)
    (hqueue : w = .idle → s.workQueue ≠ []) : (workerStep s i).isSome := by
  unfold workerStep
  rw [hw]
  cases w with
  | idle =>
      cases hq : s.workQueue with
      | nil => exact absurd hq (hqueue rfl)
      | cons job rest => rfl
  | running job =>
      dsimp only
      split <;> rfl
  | finished job => rfl
  | exited => exact absurd rfl hexited

theorem length_runs_add_le (ws : List (Worker Range)) :
    (ws.flatMap Worker.runs).length + ws.countP (· matches .exited) +
      ws.countP (· matches .idle) ≤ ws.length := by
  induction ws with
  | nil => simp
  | cons w ws ih =>
      simp only [List.flatMap_cons, List.length_append, List.countP_cons, List.length_cons]
      cases w <;> simp only [Worker.runs, List.length_nil, List.length_cons, Bool.false_eq_true,
        if_false, if_true] <;> omega

/-- With at least one worker, some thread can go on in a phase and in
`stop_threads`: a phase that has begun can always be brought to its end. -/
theorem Inv.exists_step {n : ℕ} {s : State Range} (h : Inv n s) (hn : 0 < n)
    (hstopped : s.main ≠ .stopped) : ∃ label, (step s label).isSome := by
  obtain ⟨hlength, -, hmain⟩ := h
  cases hm : s.main with
  | returned last => exact ⟨.stop, by simp [step, hm]⟩
  | pushing p todo nr =>
      refine ⟨.main, ?_⟩
      cases todo with
      | nil => simp [step, mainStep, hm]
      | cons m todo =>
          simp only [step, mainStep, hm]
          split <;> rfl
  | running p job todo nr => exact ⟨.main, by simp [step, mainStep, hm]⟩
  | handing p job todo nr => exact ⟨.main, by simp [step, mainStep, hm]⟩
  | waiting p nr =>
      rw [hm] at hmain
      obtain ⟨-, howed, hexited⟩ := hmain
      cases nr with
      | zero => exact ⟨.main, by simp [step, mainStep, hm]⟩
      | succ nr =>
          cases hdone : s.doneQueue with
          | cons job rest => exact ⟨.main, by simp [step, mainStep, hm, hdone]⟩
          | nil =>
              -- the completions that are owed are with the workers
              by_cases hidle : ∀ w ∈ s.workers, w = .idle
              · have hruns : s.running = [] := List.flatMap_eq_nil_iff.mpr fun w hw => by
                  rw [hidle w hw]
                  rfl
                have hhands : s.handed = [] := List.flatMap_eq_nil_iff.mpr fun w hw => by
                  rw [hidle w hw]
                  rfl
                have hqueue : s.workQueue ≠ [] := by
                  intro hempty
                  simp [hruns, hhands, hdone, hempty] at howed
                have hfirst := List.getElem?_eq_getElem (l := s.workers) (i := 0) (by omega)
                exact ⟨.worker 0, workerStep_isSome hfirst
                  (hexited _ (List.getElem_mem _)) fun _ => hqueue⟩
              · obtain ⟨w, hw, hbusy⟩ : ∃ w ∈ s.workers, w ≠ .idle := by
                  simpa only [not_forall, exists_prop] using hidle
                obtain ⟨i, hi⟩ := List.mem_iff_getElem?.mp hw
                exact ⟨.worker i, workerStep_isSome hi (hexited w hw) fun h => absurd h hbusy⟩
  | stopping left =>
      refine ⟨.main, ?_⟩
      cases left <;> simp [step, mainStep, hm]
  | stopped => exact absurd hm hstopped
  | joining joined =>
      rw [hm] at hmain
      obtain ⟨⟨-, -, -, hexits⟩, hjoined⟩ := hmain
      by_cases hall : joined = s.workers.length
      · exact ⟨.main, by simp [step, mainStep, hm, hall]⟩
      · have hlt : joined < s.workers.length := by
          by_contra hge
          have hbeyond := hjoined s.workers.length (by omega)
          simp at hbeyond
        have hw := List.getElem?_eq_getElem hlt
        by_cases hexited : s.workers[joined] = .exited
        · rw [hexited] at hw
          exact ⟨.main, by simp [step, mainStep, hm, hall, hw]⟩
        · refine ⟨.worker joined, workerStep_isSome hw hexited fun hidle hempty => ?_⟩
          have hpos : 0 < s.workers.countP (· matches .idle) :=
            List.countP_pos_iff.mpr ⟨_, List.getElem_mem hlt, by rw [hidle]⟩
          have hle := length_runs_add_le s.workers
          simp only [hempty, List.length_nil, State.running] at hexits
          omega

end GlobalScan.Threads

end MemoryOptimizer
