import Acton.Syntax
import Acton.ToMathlib.Except
import Acton.ToMathlib.Map

/-!
# Compile tasks and the front-end job of one module

The build works on one task per module: a parsed source (`actonTask`), the header of an interface
file that is still trusted (`tyTask`), or a source that does not parse. `doOne` is the job that the
scheduler runs for a task. It decides whether the module has to be compiled, runs the front-end
passes if so and otherwise takes the interface from the `.ty` file.

Everything that the job reads from outside (files, options, the type checker) is given by a
`World`, so that `doOne` is a function of the task, the snapshots it was started with, and the
answers of the world. Two faults are internal errors in the source and abort the whole build:
`InternalError.missingTask` and `InternalError.missingIfaceHash`. Source positions, documentation,
timing and the texts of diagnostics are left out.
-/

namespace Acton.Compile
open List

/-- The module that holds the built-in classes. -/
def mBuiltin : ModName := [.name "__builtin__"]

/-- The module of compiler primitives. -/
def mPrim : ModName := [.name "$"]

/-- A module of a project. -/
structure TaskKey where
  tkProj : String
  tkMod : ModName
  deriving DecidableEq, Repr

/-- The contents of a `.ty` file: the hashes and imports of its header, and the interface. -/
structure TyFile (I H : Type) where
  srcHash : H
  ifaceHash : H
  imports : List (ModName × H)
  iface : I
  deriving DecidableEq, Repr

/-- What is known about a module before its job runs. -/
inductive CompileTask (S H : Type)
  | actonTask (src : S) (imports : List ModName)
  | tyTask (tyHash tyIfaceHash : H) (tyImports : List (ModName × H))
  | parseErrorTask
  deriving DecidableEq, Repr

/-- The modules that a task is known to import. -/
def CompileTask.importsOf {S H : Type} : CompileTask S H → List ModName
  | .actonTask _ imports => imports
  | .tyTask _ _ tyImports => tyImports.map Prod.fst
  | .parseErrorTask => []

/-- A task with the tasks that provide its imports. -/
structure GlobalTask (S H : Type) where
  gtKey : TaskKey
  gtTask : CompileTask S H
  gtImportProviders : List (ModName × TaskKey)

/-- Faults that abort the build. -/
inductive InternalError
  | missingTask (key : TaskKey)
  | missingIfaceHash (m : ModName)
  deriving DecidableEq, Repr

/-- Reasons for which a module fails. -/
inductive Diag
  | parseError
  | missingIface (ms : List ModName)
  | checkError
  deriving DecidableEq, Repr

/-- The modules whose interfaces are loaded. -/
abbrev Env0 (I : Type) := Map ModName I

/-- The interface hashes of the tasks that have succeeded. -/
abbrev IfaceMap (H : Type) := Map TaskKey H

/-- The input of the back-end passes: the source and the typing environment. -/
structure BackJob (S I : Type) where
  biSrc : S
  biTypeEnv : Env0 I

/-- The result of a successful front-end job. -/
structure FrontResult (S I H : Type) where
  frIfaceTE : I
  frIfaceHash : H
  frBackJob : Option (BackJob S I)

/-- The answers that a front-end job gets from outside: the options, the hash cache for modules
that are not tasks, the module's own `.ty` and `.act` files, the type checker and the hashes. -/
structure World (S I H : Type) where
  onlyBuild : Bool
  /-- `forceAlt || forceAlways` -/
  force : Bool
  getIfaceHashCached : ModName → Option H
  readTy : Option (TyFile I H)
  parseActFile : Option S
  /-- `mkEnv`, `Kinds.check` and `Types.reconstruct`: the typing environment, the interface and
  the modules that the environment refers to. -/
  reconstruct : Env0 I → S → Option (Env0 I × I × List ModName)
  hash : S → H
  hashIface : I → List H → H
  emptyIface : I
  emptyHash : H

variable {S I H : Type}

/-- The module references that are recorded: all but the built-in ones. -/
def moduleRefs1 (refs : List ModName) : List ModName := refs.eraseDups.diff [mPrim, mBuiltin]

/-- A module name as text. Module paths are made of plain names only. -/
def modNameToString (m : ModName) : String :=
  ".".intercalate (m.map fun
    | .name s => s
    | _ => "")

/-- The hashes of the imports, in the order of the modules' names. -/
def depHashesSorted (imps : List (ModName × H)) : List H :=
  (imps.insertionSort fun p q => modNameToString p.1 ≤ modNameToString q.1).map Prod.snd

/-- The interface hash of an import, from the job that provides it or from the cache. -/
def resolveImportHash (w : World S I H) (providers : List (ModName × TaskKey))
    (ifaceMap : IfaceMap H) (m : ModName) : Except InternalError (Option H) :=
  match providers.lookup m with
  | some depKey =>
    match ifaceMap depKey with
    | some h => .ok (some h)
    | none => .error (.missingIfaceHash m)
  | none => .ok (w.getIfaceHashCached m)

/-- Resolve a list of imports, with a diagnostic that names those that have no hash. -/
def resolveImportHashes (resolve : ModName → Except InternalError (Option H))
    (ms : List ModName) : Except InternalError (Except Diag (List (ModName × H))) := do
  let resolved ← ms.mapM fun m => do return (m, ← resolve m)
  match resolved.filter (·.2.isNone) with
  | [] => return .ok (resolved.filterMap fun p => p.2.map (p.1, ·))
  | errs => return .error (.missingIface (errs.map Prod.fst))

section ResolveImportHashes
variable {resolve : ModName → Except InternalError (Option H)} {ms : List ModName}

/-- What a list of imports is resolved to when no import aborts. -/
theorem resolveImportHashes_eq {f : ModName → Option H} (h : ∀ m ∈ ms, resolve m = .ok (f m)) :
    resolveImportHashes resolve ms =
      match (ms.map fun m => (m, f m)).filter (·.2.isNone) with
      | [] => .ok (.ok ((ms.map fun m => (m, f m)).filterMap fun p => p.2.map (p.1, ·)))
      | errs => .ok (.error (.missingIface (errs.map Prod.fst))) := by
  have hmap : (ms.mapM fun m => do return (m, ← resolve m) :
      Except InternalError (List (ModName × Option H))) = .ok (ms.map fun m => (m, f m)) :=
    Except.mapM_eq_ok_map fun m hm => by
      simp [h m hm, bind, Except.bind, pure, Except.pure]
  rw [resolveImportHashes, hmap]
  rfl

lemma resolveImportHashes_eq_ok {g : ModName → H} (h : ∀ m ∈ ms, resolve m = .ok (some (g m))) :
    resolveImportHashes resolve ms = .ok (.ok (ms.map fun m => (m, g m))) := by
  have hnone : (ms.map fun m => (m, some (g m))).filter (·.2.isNone) = [] := by
    simp [filter_eq_nil_iff]
  rw [resolveImportHashes_eq h, hnone]
  simp [filterMap_map]

lemma resolveImportHashes_ok (h : ∀ m ∈ ms, ∃ o, resolve m = .ok o) :
    ∃ r, resolveImportHashes resolve ms = .ok r := by
  have hf : ∀ m ∈ ms, resolve m = .ok ((resolve m).toOption.getD none) := by
    intro m hm
    obtain ⟨o, ho⟩ := h m hm
    simp [ho, Except.toOption]
  rw [resolveImportHashes_eq hf]
  split
  · exact ⟨_, rfl⟩
  · exact ⟨_, rfl⟩

lemma resolveImportHashes_eq_error {f : ModName → Option H}
    (h : ∀ m ∈ ms, resolve m = .ok (f m)) {m : ModName} (hm : m ∈ ms) (hnone : f m = none) :
    ∃ e, resolveImportHashes resolve ms = .ok (.error e) := by
  rw [resolveImportHashes_eq h]
  split
  · rename_i hnil
    have hmem : (m, (none : Option H)) ∈ ms.map fun m => (m, f m) :=
      mem_map.mpr ⟨m, hm, by rw [hnone]⟩
    simpa using filter_eq_nil_iff.mp hnil _ hmem
  · exact ⟨_, rfl⟩

end ResolveImportHashes

/-- The front-end passes on a parsed module. The interface file is written before the job for the
back end is handed out. -/
def runFrontPasses (w : World S I H) (env0 : Env0 I) (src : S)
    (resolve : ModName → Except InternalError (Option H)) :
    Except InternalError (Except Diag (FrontResult S I H × TyFile I H)) :=
  match w.reconstruct env0 src with
  | none => .ok (.error .checkError)
  | some (typeEnv, nmod, refs) => do
    match ← resolveImportHashes resolve (moduleRefs1 refs) with
    | .error d => return .error d
    | .ok imps =>
      let ifaceHash := w.hashIface nmod (depHashesSorted imps)
      return .ok
        ({ frIfaceTE := nmod, frIfaceHash := ifaceHash,
           frBackJob := some { biSrc := src, biTypeEnv := typeEnv } },
         { srcHash := w.hash src, ifaceHash, imports := imps, iface := nmod })

/-- The outcome of a job, and the interface file that it wrote. -/
structure Done (S I H : Type) where
  outcome : Except Diag (FrontResult S I H)
  wroteTy : Option (TyFile I H)

/-- Whether an import has another interface hash than the one recorded in the header. -/
def needByImports (resolve : ModName → Except InternalError (Option H)) [DecidableEq H] :
    CompileTask S H → Except InternalError (Except Diag Bool)
  | .tyTask _ _ tyImports => do
    match ← resolveImportHashes resolve (tyImports.map Prod.fst) with
    | .error d => return .error d
    | .ok resolved => return .ok (resolved != tyImports)
  | _ => return .ok false

/-- Run the passes and say what was written. -/
def compileSource (w : World S I H) (envSnap : Env0 I)
    (resolve : ModName → Except InternalError (Option H)) (src : S) :
    Except InternalError (Done S I H) := do
  match ← runFrontPasses w envSnap src resolve with
  | .error d => return { outcome := .error d, wroteTy := none }
  | .ok (fr, ty) => return { outcome := .ok fr, wroteTy := some ty }

/-- Take the interface from the module's `.ty` file, under the hash of the task's header. -/
def readIfaceFromTy (w : World S I H) (mHash : Option H) : Except Diag (FrontResult S I H) :=
  match w.readTy with
  | none => .error (.missingIface [])
  | some ty =>
    .ok { frIfaceTE := ty.iface, frIfaceHash := mHash.getD ty.ifaceHash, frBackJob := none }

/-- The interface hash that the header of a task records. -/
def CompileTask.headerHash : CompileTask S H → Option H
  | .tyTask _ tyIfaceHash _ => some tyIfaceHash
  | _ => none

/-- The front-end job of one module. -/
def doOne [DecidableEq H] (w : World S I H) (taskMap : Map TaskKey (GlobalTask S H))
    (envSnap : Env0 I) (ifaceMap : IfaceMap H) (key : TaskKey) :
    Except InternalError (Done S I H) :=
  match taskMap key with
  | none => .error (.missingTask key)
  | some t =>
    let resolve := resolveImportHash w t.gtImportProviders ifaceMap
    match t.gtTask with
    | .parseErrorTask => .ok { outcome := .error .parseError, wroteTy := none }
    | task =>
      if w.onlyBuild then
        -- a missing interface is not an error here: the build goes on with an empty one
        match readIfaceFromTy w task.headerHash with
        | .ok fr => .ok { outcome := .ok fr, wroteTy := none }
        | .error _ =>
          .ok { outcome := .ok { frIfaceTE := w.emptyIface, frIfaceHash := w.emptyHash,
                                 frBackJob := none }
                wroteTy := none }
      else do
        match ← needByImports resolve task with
        | .error d => return { outcome := .error d, wroteTy := none }
        | .ok needByImports =>
          match task with
          | .actonTask src _ => compileSource w envSnap resolve src
          | _ =>
            if needByImports || w.force then
              match w.parseActFile with
              | none => return { outcome := .error .parseError, wroteTy := none }
              | some src => compileSource w envSnap resolve src
            else
              return { outcome := readIfaceFromTy w task.headerHash, wroteTy := none }

end Acton.Compile
