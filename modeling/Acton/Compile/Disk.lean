import Acton.Compile.Interfaces
import Acton.Compile.Scheduler

/-!
# Builds of a project on disk

A `Disk` holds the source files of one project with their modification times, the interface files
in its output directory with theirs, and the process-wide cache of interface hashes. A build makes
a task of every module (`readModuleTask`), resolves the imports to tasks of the project and runs
the scheduler of `Acton.Compile.Scheduler`, with the answers that the disk gives to each job.

`BuildStep` is one turn of the scheduler together with what the completed job does to the disk,
`CompleteBuild` a whole build with the removal of orphaned files at its end, and `Reachable` a
history of edits and builds. A job is taken to see the disk as it is when the job completes.
`runBuild` is a build that lets the first running job complete at every turn.
-/

namespace Acton.Compile
open Relation
variable {S I H : Type}

/-- The files of a project and its build, and the cache of interface hashes. -/
structure Disk (S I H : Type) where
  files : List (ModName × S × ℕ)
  tys : List (ModName × TyFile I H × ℕ)
  cache : Map ModName H
  clock : ℕ

/-- The task key of a module of the project. -/
def projKey (m : ModName) : TaskKey := ⟨"", m⟩

namespace Disk

/-- The source of a module. -/
def source (d : Disk S I H) (m : ModName) : Option S := (d.files.lookup m).map Prod.fst

/-- The interface file of a module. -/
def ty (d : Disk S I H) (m : ModName) : Option (TyFile I H) := (d.tys.lookup m).map Prod.fst

/-- A disk without files. -/
def empty : Disk S I H := ⟨[], [], Map.empty, 0⟩

/-- Add or change a module. -/
def edit (d : Disk S I H) (m : ModName) (src : S) : Disk S I H :=
  { d with files := d.files.insertKey m (src, d.clock + 1), clock := d.clock + 1 }

/-- Delete a module. -/
def delete (d : Disk S I H) (m : ModName) : Disk S I H :=
  { d with files := d.files.filter fun p => p.1 ≠ m }

/-- A new process starts with an empty cache. -/
def restart (d : Disk S I H) : Disk S I H :=
  { d with cache := Map.empty }

/-- The same sources without the output of earlier builds. -/
def scratch (d : Disk S I H) : Disk S I H :=
  { d with tys := [], cache := Map.empty }

/-- Write an interface file. -/
def writeTy (d : Disk S I H) (m : ModName) (ty : TyFile I H) : Disk S I H :=
  { d with tys := d.tys.insertKey m (ty, d.clock + 1), clock := d.clock + 1 }

/-- Remove the interface files of modules that have no source. -/
def removeOrphanFiles (d : Disk S I H) : Disk S I H :=
  { d with tys := d.tys.filter fun p => (d.files.lookup p.1).isSome }

end Disk
section Plan
variable [DecidableEq H] (F : Frontend S I H) (d : Disk S I H)

/-- The task of a source that has to be parsed. -/
def parseForImports (src : S) : CompileTask S H :=
  match F.parse src with
  | none => .parseErrorTask
  | some imps => .actonTask src (imps.map Import.mod)

/-- The task of a module whose header is trusted. -/
def mkTyTask (ty : TyFile I H) : CompileTask S H := .tyTask ty.srcHash ty.ifaceHash ty.imports

/-- Decide by time stamps and hashes whether the header of a module can be trusted. -/
def readModuleTask (m : ModName) : CompileTask S H :=
  match d.files.lookup m with
  | none => .parseErrorTask
  | some (src, actTime) =>
    match d.tys.lookup m with
    | none => parseForImports F src
    | some (ty, tyTime) =>
      -- equal times are ambiguous, so the source is hashed
      if actTime < tyTime then mkTyTask ty
      else if F.hash src = ty.srcHash then mkTyTask ty
      else parseForImports F src

/-- The tasks of the project that provide the imports. -/
def resolveProviders (imps : List ModName) : List (ModName × TaskKey) :=
  (imps.filter fun m => (d.files.lookup m).isSome).map fun m => (m, projKey m)

/-- The task of a module, with the tasks that provide its imports. -/
def globalTask (m : ModName) : GlobalTask S H :=
  let task := readModuleTask F d m
  ⟨projKey m, task, resolveProviders d task.importsOf⟩

/-- The tasks of a build of the whole project. -/
def globalTasks : List (GlobalTask S H) := d.files.map fun p => globalTask F d p.1

end Plan
section World
variable (F : Frontend S I H) (d : Disk S I H)

/-- The interface hash of a module, from the cache or from its interface file. -/
def getIfaceHashCached (m : ModName) : Option H :=
  match d.cache m with
  | some h => some h
  | none =>
    match d.ty m with
    | some ty => some ty.ifaceHash
    | none => (F.ext m).map fun i => F.hashIface i []

/-- The modules that loading `m` leads to: the imports of its source, or those recorded in its
interface file if there is no source. -/
def importsOn (m : ModName) : List ModName :=
  match d.source m with
  | some src => (((F.parse src).getD []).map Import.mod).eraseDups
  | none => (((d.ty m).map TyFile.imports).getD []).map Prod.fst |>.eraseDups

/-- The direct and indirect imports of `m`. -/
def transImports (m : ModName) : List ModName :=
  let univ := (d.files.map Prod.fst ++ d.tys.map Prod.fst).flatMap (importsOn F d)
  Worklist.closure (importsOn F d) (univ.length + 1) [] [m]

/-- The interface of a module, as it was added to the environment or from its interface file. -/
def loadMod (env : Env0 I) (m : ModName) : Option I :=
  match env m with
  | some i => some i
  | none =>
    match d.ty m with
    | some ty => some ty.iface
    | none => F.ext m

/-- Load the imports of `m` and check its source. -/
def reconstruct (m : ModName) (env : Env0 I) (src : S) : Option (Env0 I × I × List ModName) :=
  match F.parse src with
  | none => none
  | some imps =>
    let mods := transImports F d m
    if mods.all fun x => (loadMod F d env x).isSome then
      let env' : Env0 I := fun x => if x ∈ mods then loadMod F d env x else none
      match F.check m src env' with
      | none => none
      | some i => some (env', i, F.moduleRefs env' imps)
    else none

/-- The answers of the disk to the job of `m`. -/
def world (m : ModName) : World S I H where
  onlyBuild := false
  force := false
  getIfaceHashCached := getIfaceHashCached F d
  readTy := d.ty m
  parseActFile := (d.source m).filter fun src => (F.parse src).isSome
  reconstruct := reconstruct F d m
  hash := F.hash
  hashIface := F.hashIface
  emptyIface := F.emptyIface
  emptyHash := F.emptyHash

/-- The disk with the hashes of some modules cached that were looked up. -/
def LookedUp (d₁ : Disk S I H) : Prop := d₁.files = d.files ∧ d₁.tys = d.tys ∧ d₁.clock = d.clock ∧
    ∀ m, d₁.cache m = d.cache m ∨ d.cache m = none ∧ d₁.cache m = getIfaceHashCached F d m

end World

/-- What a completed job leaves on the disk. -/
def Disk.book (d : Disk S I H) (m : ModName) : Except InternalError (Done S I H) → Disk S I H
  | .error _ => d
  | .ok done =>
    let d₁ := match done.wroteTy with
      | some ty => d.writeTy m ty
      | none => d
    match done.outcome with
    | .ok fr => { d₁ with cache := d₁.cache.insert m fr.frIfaceHash }
    | .error _ => d₁

section Build
variable [DecidableEq H] (F : Frontend S I H)

/-- A turn of the scheduler and its effect on the disk. -/
inductive BuildStep (tasks : List (GlobalTask S H)) (maxPar : ℕ) (cw : TaskKey → ℤ) :
    Progress S I H × Disk S I H → Progress S I H × Disk S I H → Prop
  | job {l d d₁ i r p} (hr : (l.scheduleMore maxPar cw).running[i]? = some r)
      (hloop : loop tasks maxPar cw l i (world F d r.key.tkMod) = some p)
      (hcache : LookedUp F d d₁) :
      BuildStep tasks maxPar cw (.looping l, d)
        (p, d₁.book r.key.tkMod
          (doOne (world F d r.key.tkMod) (taskMap tasks) r.envSnap r.ifaceMap r.key))
  | finish {l d p} (hrun : (l.scheduleMore maxPar cw).running = [])
      (hloop : loop tasks maxPar cw l 0 (world F d []) = some p) :
      BuildStep tasks maxPar cw (.looping l, d) (p, d)

/-- A build of `d` that runs to its end: `l` is the last state of the scheduler and `d'` the disk
that is left. Orphaned files are removed only after a build without errors. -/
def CompleteBuild (d : Disk S I H) (l : Loop S I H) (d' : Disk S I H) : Prop :=
  ∃ maxPar cw hadErrors d₁, ∃ prune : Bool, 1 ≤ maxPar ∧
    ReflTransGen (BuildStep F (globalTasks F d) maxPar cw)
      (.looping (.init (globalTasks F d) Map.empty), d) (.finished l hadErrors, d₁) ∧
    d' = if prune && !hadErrors then d₁.removeOrphanFiles else d₁

/-- The disks that a history of edits and builds leads to, when every build starts from a disk
with `ok`. -/
inductive Reachable (ok : Disk S I H → Prop) : Disk S I H → Prop
  | empty : Reachable ok .empty
  | edit {d} (m : ModName) (src : S) : Reachable ok d → Reachable ok (d.edit m src)
  | delete {d} (m : ModName) : Reachable ok d → Reachable ok (d.delete m)
  | restart {d} : Reachable ok d → Reachable ok d.restart
  | build {d l d'} : Reachable ok d → ok d → CompleteBuild F d l d' → Reachable ok d'

/-- Let the first running job complete at every turn, one job at a time. -/
def runTurns (tasks : List (GlobalTask S H)) :
    ℕ → Loop S I H → Disk S I H → Option (Loop S I H × Bool × Disk S I H)
  | 0, _, _ => none
  | n + 1, l, d =>
    match (l.scheduleMore 1 fun _ => 0).running[0]? with
    | some r =>
      let w := world F d r.key.tkMod
      match loop tasks 1 (fun _ => 0) l 0 w with
      | some (.looping l') =>
        runTurns tasks n l'
          (d.book r.key.tkMod (doOne w (taskMap tasks) r.envSnap r.ifaceMap r.key))
      | _ => none
    | none =>
      match loop tasks 1 (fun _ => 0) l 0 (world F d []) with
      | some (.finished l' hadErrors) => some (l', hadErrors, d)
      | _ => none

/-- A build with one job at a time. -/
def runBuild (d : Disk S I H) (prune : Bool) : Option (Loop S I H × Disk S I H) :=
  (runTurns F (globalTasks F d) (d.files.length + 1) (.init (globalTasks F d) Map.empty) d).map
    fun (l, hadErrors, d₁) => (l, if prune && !hadErrors then d₁.removeOrphanFiles else d₁)

variable {F}
omit [DecidableEq H] in
lemma LookedUp.refl (d : Disk S I H) : LookedUp F d d := ⟨rfl, rfl, rfl, fun _ => .inl rfl⟩

lemma run_of_runTurns {tasks : List (GlobalTask S H)} {n : ℕ} {l l' : Loop S I H}
    {d d' : Disk S I H} {b : Bool} (h : runTurns F tasks n l d = some (l', b, d')) :
    ReflTransGen (BuildStep F tasks 1 fun _ => 0) (.looping l, d) (.finished l' b, d') := by
  induction n generalizing l d with
  | zero => simp [runTurns] at h
  | succ n ih =>
    rw [runTurns] at h
    split at h
    · rename_i r hr
      dsimp only at h
      split at h
      · rename_i l1 hloop
        exact .head (.job hr hloop (.refl d)) (ih h)
      · simp at h
    · rename_i hnone
      split at h
      · rename_i l1 b1 hloop
        obtain ⟨rfl, rfl, rfl⟩ := by simpa using h
        refine .single (.finish ?_ hloop)
        simpa using hnone
      · simp at h

lemma completeBuild_of_runBuild {d d' : Disk S I H} {l : Loop S I H} {prune : Bool}
    (h : runBuild F d prune = some (l, d')) : CompleteBuild F d l d' := by
  obtain ⟨⟨l1, b, d1⟩, hrun, heq⟩ := Option.map_eq_some_iff.mp h
  obtain ⟨rfl, rfl⟩ := Prod.mk.inj heq
  exact ⟨1, fun _ => 0, b, d1, prune, le_rfl, run_of_runTurns hrun, rfl⟩

end Build
end Acton.Compile
