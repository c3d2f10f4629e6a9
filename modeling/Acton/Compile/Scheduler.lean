import Acton.Compile.Task
import Acton.ToMathlib.Worklist

/-!
# The front-end scheduler

The scheduler keeps a list of ready tasks, a list of running jobs, the interface hashes of the
tasks that have succeeded, the number of unfinished dependencies of every task and the set of
pending tasks. One turn of its loop starts ready tasks up to the allowed parallelism, waits for
some running job and books its outcome: a failure removes every task that depends on the failed
one, a success may make further tasks ready.

`loop` is one turn, with the job that completes and the `World` it saw as arguments, and `Step`
lets both be anything. The callbacks that the loop makes are kept as a trace of `Event`s. Task
lists are in the order of `M.toList`, which is the order of keys. The weights `cw` that order the
ready list are a parameter.
-/

namespace Acton.Compile
open Relation List
variable {S I H : Type}

/-- Tasks of the built-in module are compiled before the loop starts. -/
def isBuiltinKey (k : TaskKey) : Bool := k.tkMod = mBuiltin

section Maps
variable (tasks : List (GlobalTask S H))

/-- The task of a key. -/
def taskMap : Map TaskKey (GlobalTask S H) := Map.fromList (tasks.map fun t => (t.gtKey, t))

/-- The tasks that the loop schedules. -/
def nonBuiltinTasks : List (GlobalTask S H) := tasks.filter fun t => !isBuiltinKey t.gtKey

/-- The keys of the tasks that the loop schedules. -/
def nonBuiltinKeys : List TaskKey := (nonBuiltinTasks tasks).map GlobalTask.gtKey

/-- The tasks that a task waits for. -/
def depsOf (t : GlobalTask S H) : List TaskKey :=
  ((t.gtImportProviders.map Prod.snd).filter (· ∈ nonBuiltinKeys tasks)).eraseDups

/-- Every scheduled task with its dependencies. -/
def depMap : List (TaskKey × List TaskKey) :=
  (nonBuiltinTasks tasks).map fun t => (t.gtKey, depsOf tasks t)

/-- Every task with the tasks that wait for it. -/
def revMap : Map TaskKey (List TaskKey) := (depMap tasks).foldl
    (fun acc p => p.2.foldl (fun a d => a.insertWith (· ++ ·) d [p.1]) acc) Map.empty

/-- The number of dependencies of each scheduled task. -/
def indeg : Map TaskKey ℤ :=
  fun k => ((depMap tasks).lookup k).map fun ds => (ds.length : ℤ)

/-- The tasks without dependencies. -/
def initialReady : List TaskKey := ((depMap tasks).filter (·.2.length = 0)).map Prod.fst

/-- At first every scheduled task is pending. -/
def pending0 : List TaskKey := (depMap tasks).map Prod.fst

/-- The tasks that depend on `k`, directly or through others. -/
def dependentClosure (k : TaskKey) : List TaskKey :=
  Worklist.closure (fun x => (revMap tasks).findWithDefault [] x) (tasks.length + 1) [] [k]

/-- Task `k` has an edge to `d` in the task graph. -/
def DependsOn (k d : TaskKey) : Prop :=
  ∃ t ∈ nonBuiltinTasks tasks, t.gtKey = k ∧ d ∈ depsOf tasks t

/-- The dependencies of a scheduled task. -/
def deps (k : TaskKey) : List TaskKey := ((depMap tasks).lookup k).getD []

end Maps
section MapSpecs
variable {tasks : List (GlobalTask S H)} {k d m : TaskKey} {t : GlobalTask S H}

lemma DependsOn.left_mem (h : DependsOn tasks k d) : k ∈ nonBuiltinKeys tasks := by
  obtain ⟨t, ht, rfl, -⟩ := h
  exact mem_map_of_mem ht

lemma DependsOn.right_mem (h : DependsOn tasks k d) : d ∈ nonBuiltinKeys tasks := by
  obtain ⟨t, -, -, hd⟩ := h
  rw [depsOf, mem_eraseDups, mem_filter] at hd
  exact of_decide_eq_true hd.2

lemma pending0_eq : pending0 tasks = nonBuiltinKeys tasks := by
  simp [pending0, depMap, nonBuiltinKeys]

lemma map_fst_depMap : (depMap tasks).map Prod.fst = nonBuiltinKeys tasks := pending0_eq

lemma nodup_of_mem_depMap {p : TaskKey × List TaskKey} (hp : p ∈ depMap tasks) : p.2.Nodup := by
  obtain ⟨t, -, rfl⟩ := mem_map.mp hp
  exact nodup_eraseDups _

lemma nodup_deps : (deps tasks k).Nodup := by
  cases hk : (depMap tasks).lookup k with
  | none => simp [deps, hk]
  | some ds =>
    rw [deps, hk]
    exact nodup_of_mem_depMap (mem_of_lookup_eq_some hk)

lemma mem_revMap : k ∈ (revMap tasks).findWithDefault [] d ↔ DependsOn tasks k d := by
  rw [revMap, Map.foldl_foldl_insertWith fun p => nodup_of_mem_depMap]
  simp only [Map.findWithDefault, Map.empty, Option.getD_none, append_nil, mem_reverse,
    mem_map, mem_filter, depMap, DependsOn, decide_eq_true_eq]
  constructor
  · rintro ⟨_, ⟨⟨t, ht, rfl⟩, hd⟩, rfl⟩
    exact ⟨t, ht, rfl, hd⟩
  · rintro ⟨t, ht, rfl, hd⟩
    exact ⟨_, ⟨⟨t, ht, rfl⟩, hd⟩, rfl⟩

section Distinct
variable (hkeys : (tasks.map GlobalTask.gtKey).Nodup)
include hkeys

lemma nodup_nonBuiltinKeys : (nonBuiltinKeys tasks).Nodup := hkeys.sublist (filter_sublist.map _)

lemma taskMap_of_mem (ht : t ∈ tasks) : taskMap tasks t.gtKey = some t := by
  apply Map.fromList_of_mem
  · simpa [Function.comp_def] using hkeys
  · exact mem_map.mpr ⟨t, ht, rfl⟩

lemma lookup_depMap (ht : t ∈ nonBuiltinTasks tasks) :
    (depMap tasks).lookup t.gtKey = some (depsOf tasks t) := by
  apply lookup_of_mem
  · rw [map_fst_depMap]
    exact nodup_nonBuiltinKeys hkeys
  · exact mem_map.mpr ⟨t, ht, rfl⟩

lemma mem_deps : d ∈ deps tasks k ↔ DependsOn tasks k d := by
  constructor
  · intro h
    cases hk : (depMap tasks).lookup k with
    | none => simp [deps, hk] at h
    | some ds =>
      obtain ⟨t, ht, hp⟩ := mem_map.mp (mem_of_lookup_eq_some hk)
      obtain ⟨rfl, rfl⟩ := Prod.mk.inj hp
      exact ⟨t, ht, rfl, by simpa [deps, hk] using h⟩
  · rintro ⟨t, ht, rfl, hd⟩
    rwa [deps, lookup_depMap hkeys ht]

lemma indeg_of_mem (hk : k ∈ nonBuiltinKeys tasks) :
    indeg tasks k = some ((deps tasks k).length : ℤ) := by
  obtain ⟨t, ht, rfl⟩ := mem_map.mp hk
  rw [indeg, deps, lookup_depMap hkeys ht]
  rfl

lemma mem_initialReady :
    k ∈ initialReady tasks ↔ k ∈ nonBuiltinKeys tasks ∧ ∀ d, ¬ DependsOn tasks k d := by
  have hiff (t) (ht : t ∈ nonBuiltinTasks tasks) :
      depsOf tasks t = [] ↔ ∀ d, ¬ DependsOn tasks t.gtKey d := by
    simp only [← mem_deps hkeys, deps, lookup_depMap hkeys ht, Option.getD_some,
      eq_nil_iff_forall_not_mem]
  simp only [initialReady, depMap, nonBuiltinKeys, mem_map, mem_filter,
    decide_eq_true_eq, length_eq_zero_iff]
  constructor
  · rintro ⟨_, ⟨⟨t, ht, rfl⟩, hnil⟩, rfl⟩
    exact ⟨⟨t, ht, rfl⟩, (hiff t ht).mp hnil⟩
  · rintro ⟨⟨t, ht, rfl⟩, hnone⟩
    exact ⟨_, ⟨⟨t, ht, rfl⟩, (hiff t ht).mpr hnone⟩, rfl⟩

lemma nodup_initialReady : (initialReady tasks).Nodup := by
  have h := nodup_nonBuiltinKeys hkeys
  rw [← map_fst_depMap] at h
  exact h.sublist (filter_sublist.map _)

lemma nodup_revMap : ((revMap tasks).findWithDefault [] d).Nodup := by
  rw [revMap, Map.foldl_foldl_insertWith fun p => nodup_of_mem_depMap]
  have h := nodup_nonBuiltinKeys hkeys
  rw [← map_fst_depMap] at h
  simpa [Map.findWithDefault, Map.empty] using h.sublist (filter_sublist.map _)

lemma mem_dependentClosure : m ∈ dependentClosure tasks k ↔ TransGen (DependsOn tasks) m k := by
  have hlen : (nonBuiltinKeys tasks).length + 1 ≤ tasks.length + 1 := by
    simpa [nonBuiltinKeys, nonBuiltinTasks] using length_filter_le _ tasks
  rw [dependentClosure, Worklist.mem_closure
    (fun x y hy => (mem_revMap.mp hy).left_mem) (fun x => nodup_revMap hkeys) hlen,
    ← transGen_swap]
  have hedge : Worklist.Edge (fun x => (revMap tasks).findWithDefault [] x)
      = Function.swap (DependsOn tasks) := by
    funext a b
    exact propext mem_revMap
  rw [hedge]

end Distinct
end MapSpecs

/-- A running job: `doOne` on the snapshots that were current when it was started. -/
structure Running (I H : Type) where
  key : TaskKey
  envSnap : Env0 I
  ifaceMap : IfaceMap H

/-- The callbacks of the loop. -/
inductive Event (S I H : Type)
  | frontStart (k : TaskKey)
  | frontDone (k : TaskKey)
  | diagnostics (k : TaskKey) (d : Diag)
  | frontResult (k : TaskKey) (fr : FrontResult S I H)
  | backJob (k : TaskKey) (job : BackJob S I)

/-- The task that an event starts. -/
def Event.started? : Event S I H → Option TaskKey
  | .frontStart k => some k
  | _ => none

/-- The arguments of the loop, and the callbacks made so far. -/
structure Loop (S I H : Type) where
  rdy : List TaskKey
  running : List (Running I H)
  res : IfaceMap H
  ind : Map TaskKey ℤ
  pend : List TaskKey
  envAcc : Env0 I
  hadErrors : Bool
  trace : List (Event S I H)

namespace Loop

/-- The keys of the running jobs. -/
def runningKeys (l : Loop S I H) : List TaskKey := l.running.map Running.key

/-- The tasks that were started, in the order of their starts. -/
def started (l : Loop S I H) : List TaskKey := l.trace.filterMap Event.started?

/-- The arguments that the loop is entered with. -/
def init (tasks : List (GlobalTask S H)) (baseEnv : Env0 I) : Loop S I H where
  rdy := initialReady tasks
  running := []
  res := Map.empty
  ind := indeg tasks
  pend := pending0 tasks
  envAcc := baseEnv
  hadErrors := false
  trace := []

/-- Start as many ready tasks as the parallelism allows, the heaviest first. -/
def scheduleMore (maxPar : ℕ) (cw : TaskKey → ℤ) (l : Loop S I H) : Loop S I H :=
  let rdySorted := l.rdy.insertionSort fun a b => cw b ≤ cw a
  let k := maxPar - l.running.length
  let toStart := rdySorted.take k
  { l with
    rdy := rdySorted.drop k
    running := (toStart.map fun key => ⟨key, l.envAcc, l.res⟩) ++ l.running
    trace := l.trace ++ toStart.map .frontStart }

/-- The arguments without the job that has completed. -/
def complete (i : ℕ) (l : Loop S I H) : Loop S I H :=
  { l with running := l.running.eraseIdx i }

/-- Book a failed job: its dependents will never be started. -/
def fail (tasks : List (GlobalTask S H)) (mnDone : TaskKey) (d : Diag) (l : Loop S I H) :
    Loop S I H :=
  let blocked := dependentClosure tasks mnDone
  { l with
    rdy := l.rdy.filter (· ∉ blocked)
    pend := (l.pend.filter (· ∉ blocked)).filter (· ≠ mnDone)
    hadErrors := true
    trace := l.trace ++ [.frontDone mnDone, .diagnostics mnDone d] }

/-- Book a successful job: tasks that have no unfinished dependency left become ready. -/
def succeed (tasks : List (GlobalTask S H)) (mnDone : TaskKey) (fr : FrontResult S I H)
    (l : Loop S I H) : Loop S I H :=
  let pend := l.pend.filter (· ≠ mnDone)
  let ind := match revMap tasks mnDone with
    | none => l.ind
    | some ds => ds.foldl (fun m d => m.adjust (· - 1) d) l.ind
  let newlyReady := pend.filter fun m =>
    decide (ind.findWithDefault 0 m = 0) && !l.rdy.contains m && !l.runningKeys.contains m
  { l with
    rdy := l.rdy ++ newlyReady
    res := l.res.insert mnDone fr.frIfaceHash
    ind
    pend
    envAcc := l.envAcc.insert mnDone.tkMod fr.frIfaceTE
    trace := l.trace ++ [.frontDone mnDone, .frontResult mnDone fr]
      ++ (fr.frBackJob.map (.backJob mnDone)).toList }

end Loop

/-- Where the scheduler stands: between two turns, at its end, or aborted. -/
inductive Progress (S I H : Type)
  | looping (l : Loop S I H)
  | finished (l : Loop S I H) (hadErrors : Bool)
  | crashed (l : Loop S I H) (e : InternalError)

/-- The loop's arguments at this point of the run. -/
def Progress.state : Progress S I H → Loop S I H
  | .looping l | .finished l _ | .crashed l _ => l

section
variable [DecidableEq H]

/-- One turn of the loop, in which the `i`-th running job completes after seeing `w`. There is no
turn for an `i` that is not running. -/
def loop (tasks : List (GlobalTask S H)) (maxPar : ℕ) (cw : TaskKey → ℤ) (l : Loop S I H) (i : ℕ)
    (w : World S I H) : Option (Progress S I H) :=
  let l₁ := l.scheduleMore maxPar cw
  if l₁.running.isEmpty && l₁.rdy.isEmpty then
    some (.finished l₁ (if l₁.pend.isEmpty then l₁.hadErrors else true))
  else
    match l₁.running[i]? with
    | none => none
    | some r =>
      let l₂ := l₁.complete i
      -- an exception in the job is thrown again by `waitAny`
      match doOne w (taskMap tasks) r.envSnap r.ifaceMap r.key with
      | .error e => some (.crashed l₂ e)
      | .ok done =>
        match done.outcome with
        | .error d => some (.looping (l₂.fail tasks r.key d))
        | .ok fr => some (.looping (l₂.succeed tasks r.key fr))

/-- A turn of the loop in which any running job completes in any way. -/
def Step (tasks : List (GlobalTask S H)) (maxPar : ℕ) (cw : TaskKey → ℤ)
    (p p' : Progress S I H) : Prop :=
  ∃ l i w, p = .looping l ∧ loop tasks maxPar cw l i w = some p'

end
end Acton.Compile
