import Acton.Compile.Disk

/-!
# Generations and the back-end queue

`startCompile` begins a new generation. The front end of the generation plans a build from the
disk and runs it. If it is told which files have changed, the plan has only these modules and those
that depend on them (`selectAffectedTasks`). It hands the modules that it has compiled to a queue,
from which workers take them to generate their C and header files. A job of a generation that is no
longer the current one is dropped, at three points: when it is enqueued, when a worker takes it, and
right before its files are written.

`SchedStep` interleaves edits of the sources, calls of `startCompile`, turns of the front end and
the steps of any number of workers. The front end of an earlier generation may go on until the
next one starts and cancels it. The generated files of a module are identified with the input
they are generated from.
-/

namespace Acton.Compile
open Relation Option
variable {S I H : Type}

/-- A job in the queue, with the generation that has enqueued it. -/
structure QueuedJob (S I : Type) where
  gen : ℕ
  mod : ModName
  job : BackJob S I

/-- The tasks that a change of modules affects, with their dependencies among each other; all tasks
if none of the modules is one. Every task is looked at once, and every module that has changed. -/
def selectAffectedTasks (tasks : List (GlobalTask S H)) (changed : List ModName) :
    List (GlobalTask S H) :=
  let changedKeys := (changed.map projKey).filter (· ∈ tasks.map GlobalTask.gtKey)
  if changedKeys = [] then tasks
  else
    let dependents := fun k =>
      (tasks.filter fun t => k ∈ t.gtImportProviders.map Prod.snd).map GlobalTask.gtKey
    let affected := Worklist.closure dependents (changed.length + tasks.length + 1) changedKeys
      changedKeys
    (tasks.filter fun t => t.gtKey ∈ affected).map fun t =>
      { t with gtImportProviders := t.gtImportProviders.filter (·.2 ∈ affected) }

/-- The run of the front end in one generation: the disk it was planned from and the modules that
were reported as changed, its parameters and where it stands. -/
structure FrontRun (S I H : Type) where
  gen : ℕ
  plan : Disk S I H
  changed : List ModName
  maxPar : ℕ
  cw : TaskKey → ℤ
  progress : Progress S I H

/-- The state that the compile scheduler, its workers and the disk make up. -/
structure CompileScheduler (S I H : Type) where
  disk : Disk S I H
  /-- What the C and header files of a module were generated from. -/
  out : Map ModName (BackJob S I)
  genRef : ℕ
  async : Option (FrontRun S I H)
  counts : Map ℕ ℕ
  queue : List (QueuedJob S I)
  /-- The jobs whose back passes run. -/
  passes : List (QueuedJob S I)
  /-- The jobs that were allowed to write their files and have not done so. -/
  writing : List (QueuedJob S I)
  /-- A source was edited after the current plan was made. -/
  edited : Bool

/-- The job that an event hands to the back end. -/
def Event.backJob? : Event S I H → Option (ModName × BackJob S I)
  | .backJob k job => some (k.tkMod, job)
  | _ => none

/-- The jobs handed to the back end between two points of a run. -/
def newJobs (p p' : Progress S I H) : List (ModName × BackJob S I) :=
  (p'.state.trace.drop p.state.trace.length).filterMap Event.backJob?

/-- Count one more job of a generation. -/
def incPending (gen : ℕ) (counts : Map ℕ ℕ) : Map ℕ ℕ := counts.insertWith (· + ·) gen 1

/-- Count one job of a generation less. -/
def decPending (gen : ℕ) (counts : Map ℕ ℕ) : Map ℕ ℕ :=
  match counts gen with
  | none => counts
  | some n => if n - 1 ≤ 0 then counts.erase gen else counts.insert gen (n - 1)

namespace CompileScheduler

/-- The scheduler of a new process on a disk without files. -/
def new : CompileScheduler S I H where
  disk := .empty
  out := Map.empty
  genRef := 0
  async := none
  counts := Map.empty
  queue := []
  passes := []
  writing := []
  edited := false

/-- Add a job to the queue, unless its generation is no longer the current one. -/
def enqueue (s : CompileScheduler S I H) (gen : ℕ) (j : ModName × BackJob S I) :
    CompileScheduler S I H :=
  if s.genRef ≠ gen then s
  else { s with counts := incPending gen s.counts, queue := s.queue ++ [⟨gen, j.1, j.2⟩] }

/-- All jobs of a generation are done or dropped. -/
def waitDone (s : CompileScheduler S I H) (gen : ℕ) : Prop := s.counts.findWithDefault 0 gen = 0

/-- The front end of the current generation starts with a plan for the modules that have changed. -/
def run [DecidableEq H] (F : Frontend S I H) (s : CompileScheduler S I H) (changed : List ModName)
    (maxPar : ℕ) (cw : TaskKey → ℤ) : CompileScheduler S I H :=
  { s with
    async := some ⟨s.genRef, s.disk, changed, maxPar, cw,
      .looping (.init (selectAffectedTasks (globalTasks F s.disk) changed) Map.empty)⟩
    edited := false }

/-- The front end `f` gets to `p` and leaves the disk `d`. -/
def advance (s : CompileScheduler S I H) (f : FrontRun S I H) (p : Progress S I H)
    (d : Disk S I H) : CompileScheduler S I H :=
  (newJobs f.progress p).foldl (fun s => s.enqueue f.gen)
    { s with disk := d, async := some { f with progress := p } }

/-- A worker takes the first job `q` from the queue. -/
def take (s : CompileScheduler S I H) (q : QueuedJob S I) : CompileScheduler S I H :=
  if s.genRef ≠ q.gen then
    { s with queue := s.queue.tail, counts := decPending q.gen s.counts }
  else { s with queue := s.queue.tail, passes := q :: s.passes }

/-- The back passes of the `i`-th job `q` are over, and it asks whether it should write. -/
def shouldWrite (s : CompileScheduler S I H) (i : ℕ) (q : QueuedJob S I) : CompileScheduler S I H :=
  if s.genRef ≠ q.gen then
    { s with passes := s.passes.eraseIdx i, counts := decPending q.gen s.counts }
  else { s with passes := s.passes.eraseIdx i, writing := q :: s.writing }

/-- The `i`-th writing job `q` writes its files. -/
def write (s : CompileScheduler S I H) (i : ℕ) (q : QueuedJob S I) : CompileScheduler S I H :=
  { s with
    writing := s.writing.eraseIdx i
    out := s.out.insert q.mod q.job
    counts := decPending q.gen s.counts }

/-- The jobs that are neither done nor dropped. -/
def jobs (s : CompileScheduler S I H) : List (QueuedJob S I) := s.queue ++ s.passes ++ s.writing

/-- No front end is between two turns. -/
def FrontIdle (s : CompileScheduler S I H) : Prop :=
  ∀ f l, s.async = some f → f.progress ≠ .looping l

/-- The compile of the latest generation has finished without errors on the current sources, and
its wait on the back-end queue has returned. -/
def Settled (s : CompileScheduler S I H) : Prop :=
  (∃ f l, s.async = some f ∧ f.gen = s.genRef ∧ f.progress = .finished l false) ∧
    s.waitDone s.genRef ∧ s.edited = false

end CompileScheduler

/-- The kinds of steps. -/
inductive Action
  | edit
  | startCompile
  | run (changed : List ModName)
  | front
  | worker
  deriving DecidableEq

section Steps
variable [DecidableEq H] (F : Frontend S I H)

/-- The steps of the system. -/
inductive SchedStep : Action → CompileScheduler S I H → CompileScheduler S I H → Prop
  | edit (s) (m : ModName) (src : S) :
      SchedStep .edit s { s with disk := s.disk.edit m src, edited := true }
  | delete (s) (m : ModName) :
      SchedStep .edit s { s with disk := s.disk.delete m, edited := true }
  | startCompile (s) : SchedStep .startCompile s { s with genRef := s.genRef + 1 }
  | run {s} (changed : List ModName) {maxPar : ℕ} (cw : TaskKey → ℤ) (hpar : 1 ≤ maxPar)
      (hstarted : 0 < s.genRef) (hnew : ∀ f, s.async = some f → f.gen ≠ s.genRef) :
      SchedStep (.run changed) s (s.run F changed maxPar cw)
  | front {s f p d} (hf : s.async = some f)
      (hstep : BuildStep F (selectAffectedTasks (globalTasks F f.plan) f.changed) f.maxPar f.cw
        (f.progress, s.disk) (p, d)) :
      SchedStep .front s (s.advance f p d)
  | take {s q} (hq : s.queue.head? = some q) : SchedStep .worker s (s.take q)
  | shouldWrite {s i q} (hq : s.passes[i]? = some q) : SchedStep .worker s (s.shouldWrite i q)
  | write {s i q} (hq : s.writing[i]? = some q) : SchedStep .worker s (s.write i q)

/-- Let the first running job of the front end complete. -/
def frontTurn (s : CompileScheduler S I H) : Option (CompileScheduler S I H) :=
  match s.async with
  | some ⟨gen, plan, changed, maxPar, cw, .looping l⟩ =>
    let f : FrontRun S I H := ⟨gen, plan, changed, maxPar, cw, .looping l⟩
    let tasks := selectAffectedTasks (globalTasks F plan) changed
    match (l.scheduleMore maxPar cw).running[0]? with
    | some r =>
      let w := world F s.disk r.key.tkMod
      (loop tasks maxPar cw l 0 w).map fun p => s.advance f p
        (s.disk.book r.key.tkMod (doOne w (taskMap tasks) r.envSnap r.ifaceMap r.key))
    | none =>
      (loop tasks maxPar cw l 0 (world F s.disk [])).map fun p => s.advance f p s.disk
  | _ => none

/-- Let the first running job of the front end complete, `n` times. -/
def frontTurns : ℕ → CompileScheduler S I H → Option (CompileScheduler S I H)
  | 0, s => some s
  | n + 1, s => (frontTurn F s).bind (frontTurns n)

/-- A worker takes the first job of the queue. -/
def takeFirst (s : CompileScheduler S I H) : Option (CompileScheduler S I H) :=
  s.queue.head?.map s.take

/-- A worker takes the first job of the queue and sees it through. -/
def work (s : CompileScheduler S I H) : Option (CompileScheduler S I H) :=
  (takeFirst s).bind fun s₁ =>
    s₁.passes[0]?.bind fun q =>
      (s₁.shouldWrite 0 q).writing[0]?.map ((s₁.shouldWrite 0 q).write 0)

variable {F}
variable {s s' : CompileScheduler S I H}

lemma schedStep_of_frontTurn (h : frontTurn F s = some s') : SchedStep F .front s s' := by
  unfold frontTurn at h
  split at h
  · rename_i gen plan changed maxPar cw l hf
    dsimp only at h
    split at h
    · rename_i r hr
      obtain ⟨p, hloop, rfl⟩ := map_eq_some_iff.mp h
      exact .front hf (.job hr hloop (.refl _))
    · rename_i hnone
      obtain ⟨p, hloop, rfl⟩ := map_eq_some_iff.mp h
      exact .front hf (.finish (by simpa using hnone) hloop)
  · simp at h

lemma run_of_frontTurns {n : ℕ} (h : frontTurns F n s = some s') :
    ReflTransGen (SchedStep F .front) s s' := by
  induction n generalizing s with
  | zero =>
    obtain ⟨⟩ := h
    exact .refl
  | succ n ih =>
    obtain ⟨s1, hturn, hrest⟩ := bind_eq_some_iff.mp h
    exact .head (schedStep_of_frontTurn hturn) (ih hrest)

lemma schedStep_of_takeFirst (h : takeFirst s = some s') : SchedStep F .worker s s' := by
  obtain ⟨q, hq, rfl⟩ := map_eq_some_iff.mp h
  exact .take hq

lemma run_of_work (h : work s = some s') : ReflTransGen (SchedStep F .worker) s s' := by
  obtain ⟨s1, hs1, h⟩ := bind_eq_some_iff.mp h
  obtain ⟨q, hq, h⟩ := bind_eq_some_iff.mp h
  obtain ⟨q', hq', rfl⟩ := map_eq_some_iff.mp h
  exact .head (schedStep_of_takeFirst hs1) (.head (.shouldWrite hq) (.single (.write hq')))

end Steps
end Acton.Compile
