import Acton.Compile.Disk
import Acton.Compile.Scheduler.Correctness

/-!
# The plan of an incremental build

`Clean` collects the conditions on the projects of a history under which an incremental build
gives what a build from scratch gives, and `Disk.NoOrphans` that on the disk at the start of a
build. `Disk.Valid` is what holds of a disk between the builds of such a history.

From a valid disk the tasks of a build know the imports of the current sources, whether they come
from a header or from the source (`BuildCtx.mem_importsOf`), so the edges of the task graph are the
imports within the project (`BuildCtx.dependsOn_iff`).
-/

namespace Acton.Compile
open Relation List Option
variable {S I H : Type} {F : Frontend S I H} {Ps : Set (ModName → Option S)}
  {d d₀ : Disk S I H} {m x : ModName}

/-- The hash of a module outside the project. -/
def Frontend.extHash (F : Frontend S I H) (m : ModName) : Option H :=
  (F.ext m).map fun i => F.hashIface i []

/-- No import of a source leads to the output of a module that has no source any more. -/
def Disk.NoOrphans (F : Frontend S I H) (d : Disk S I H) : Prop :=
  ∀ m x, Imports F d.source m x → d.source x = none →
    d.ty x = none ∧ getIfaceHashCached F d x = F.extHash x

/-- Conditions on the projects that are built in a history. -/
structure Clean (F : Frontend S I H) (Ps : Set (ModName → Option S)) : Prop where
  acyclic : ∀ P ∈ Ps, ∀ m, ¬ TransGen (Imports F P) m m
  exports : ∀ P ∈ Ps, ExportsNames F P
  distinct : ∀ P ∈ Ps, ∀ P' ∈ Ps, DistinctHashes F P P'
  internal : ∀ P ∈ Ps, ∀ m, P m ≠ none → F.ext m = none ∧ m ≠ mBuiltin

/-- What holds of the disk between builds: interface files record outcomes of projects that were
built, and one that is newer than the source records an outcome of that source. -/
structure Disk.Valid (F : Frontend S I H) (Ps : Set (ModName → Option S)) (d : Disk S I H) :
    Prop where
  nodup : (d.files.map Prod.fst).Nodup
  actTime : ∀ m src t, d.files.lookup m = some (src, t) → t ≤ d.clock
  tyTime : ∀ m ty t, d.tys.lookup m = some (ty, t) → t ≤ d.clock
  records : ∀ m ty t, d.tys.lookup m = some (ty, t) → ∃ P ∈ Ps, ∃ r, Records F P m ty r
  fresh : ∀ m src ta ty t, d.files.lookup m = some (src, ta) → d.tys.lookup m = some (ty, t) →
    ta < t → ty.srcHash = F.hash src

/-- What a build starts from. -/
structure BuildCtx (F : Frontend S I H) (Ps : Set (ModName → Option S)) (d₀ : Disk S I H) :
    Prop where
  clean : Clean F Ps
  mem : d₀.source ∈ Ps
  valid : d₀.Valid F Ps
  noOrphans : d₀.NoOrphans F

lemma Disk.source_eq_some_iff {src : S} :
    d.source m = some src ↔ ∃ t, d.files.lookup m = some (src, t) := by
  simp [Disk.source, map_eq_some_iff]

lemma Disk.ty_eq_some_iff {ty : TyFile I H} :
    d.ty m = some ty ↔ ∃ t, d.tys.lookup m = some (ty, t) := by
  simp [Disk.ty, map_eq_some_iff]

lemma Disk.lookup_files_isSome : (d.files.lookup m).isSome ↔ d.source m ≠ none := by
  cases h : d.files.lookup m <;> simp [Disk.source, h]

lemma Disk.source_ne_none_iff : d.source m ≠ none ↔ m ∈ d.files.map Prod.fst := by
  rw [← Disk.lookup_files_isSome]
  induction d.files with
  | nil => simp
  | cons p l ih =>
    by_cases h : m = p.1
    · simp [h]
    · rw [List.lookup_cons, beq_false_of_ne h]
      simp only [ih, map_cons, mem_cons, h, false_or]

/-- The recorded imports of a trusted header are those of the source. -/
theorem Records.mem_imports {P : ModName → Option S} {ty : TyFile I H} {r : Rec I H} {src : S}
    {imps : List Import} (hnames : ExportsNames F P) (h : Records F P m ty r)
    (hsrc : ty.srcHash = F.hash src) (hparse : F.parse src = some imps) :
    x ∈ ty.imports.map Prod.fst ↔ ∃ imp ∈ imps, imp.mod = x := by
  obtain @⟨src0, imps0, env, i, recs, hfile, hparse0, himps, henv, hcheck⟩ := h
  obtain rfl : src0 = src := F.hash_inj hsrc
  obtain rfl := mem_unique hparse0 hparse
  constructor
  · intro hx
    obtain ⟨p, hp, rfl⟩ := List.mem_map.mp hx
    obtain ⟨imp, himp, rfl⟩ := of_mem_recorded hp
    exact ⟨imp, himp, rfl⟩
  · rintro ⟨imp, himp, rfl⟩
    exact List.mem_map.mpr ⟨_, mem_recorded hnames hfile hparse himps henv himp, rfl⟩

lemma Records.parse_isSome {P : ModName → Option S} {ty : TyFile I H} {r : Rec I H} {src : S}
    (h : Records F P m ty r) (hsrc : ty.srcHash = F.hash src) : (F.parse src).isSome := by
  obtain @⟨src0, imps, env, i, recs, hfile, hparse, himps, henv, hcheck⟩ := h
  obtain rfl : src0 = src := F.hash_inj hsrc
  simp [hparse]

lemma projKey_inj : projKey m = projKey x ↔ m = x := by
  simp [projKey]

lemma mem_resolveProviders {imps : List ModName} {p : ModName × TaskKey} :
    p ∈ resolveProviders d₀ imps ↔ ∃ x ∈ imps, d₀.source x ≠ none ∧ p = (x, projKey x) := by
  simp only [resolveProviders, List.mem_map, mem_filter, Disk.lookup_files_isSome, and_assoc]
  exact exists_congr fun x => and_congr_right fun _ => and_congr_right fun _ => eq_comm

section Tasks
variable [DecidableEq H]

/-- The cases of `readModuleTask`: the header is trusted only when it records an outcome of the
source. -/
theorem readModuleTask_cases (hvalid : d₀.Valid F Ps) {src : S} (hfile : d₀.source m = some src) :
    readModuleTask F d₀ m = parseForImports F src ∨
      ∃ ty t, d₀.tys.lookup m = some (ty, t) ∧ readModuleTask F d₀ m = mkTyTask ty ∧
        ty.srcHash = F.hash src := by
  obtain ⟨ta, hlookup⟩ := Disk.source_eq_some_iff.mp hfile
  simp only [readModuleTask, hlookup]
  cases hty : d₀.tys.lookup m with
  | none => exact .inl rfl
  | some p =>
    obtain ⟨ty, t⟩ := p
    by_cases htime : ta < t
    · right
      exact ⟨ty, t, rfl, by simp [htime], hvalid.fresh m src ta ty t hlookup hty htime⟩
    · by_cases hhash : F.hash src = ty.srcHash
      · right
        exact ⟨ty, t, rfl, by simp [htime, hhash], hhash.symm⟩
      · left
        simp [htime, hhash]

lemma BuildCtx.mem_importsOf (ctx : BuildCtx F Ps d₀) (hfile : d₀.source m ≠ none) :
    x ∈ (readModuleTask F d₀ m).importsOf ↔ Imports F d₀.source m x := by
  obtain ⟨src, hsrc⟩ := ne_none_iff_exists'.mp hfile
  have hiff (imps : List Import) (hparse : F.parse src = some imps) :
      Imports F d₀.source m x ↔ ∃ imp ∈ imps, imp.mod = x := by
    constructor
    · rintro ⟨src', imps', hsrc', hparse', h⟩
      obtain rfl := mem_unique hsrc hsrc'
      obtain rfl := mem_unique hparse hparse'
      exact h
    · exact fun h => ⟨src, imps, hsrc, hparse, h⟩
  rcases readModuleTask_cases ctx.valid hsrc with heq | ⟨ty, t, hty, heq, hhash⟩
  · rw [heq, parseForImports]
    cases hparse : F.parse src with
    | none =>
      simp only [CompileTask.importsOf, not_mem_nil, false_iff]
      rintro ⟨src', imps, hsrc', hparse', -⟩
      obtain rfl := mem_unique hsrc hsrc'
      simp [hparse] at hparse'
    | some imps => simp [CompileTask.importsOf, hiff imps hparse]
  · obtain ⟨P, hP, r, hrec⟩ := ctx.valid.records m ty t hty
    obtain ⟨imps, hparse⟩ := isSome_iff_exists.mp (hrec.parse_isSome hhash)
    rw [heq, hiff imps hparse]
    exact hrec.mem_imports (ctx.clean.exports P hP) hhash hparse

lemma mem_globalTasks {t : GlobalTask S H} :
    t ∈ globalTasks F d₀ ↔ ∃ m, d₀.source m ≠ none ∧ t = globalTask F d₀ m := by
  simp only [globalTasks, List.mem_map, Disk.source_ne_none_iff]
  constructor
  · rintro ⟨p, hp, rfl⟩
    exact ⟨p.1, ⟨p, hp, rfl⟩, rfl⟩
  · rintro ⟨_, ⟨p, hp, rfl⟩, rfl⟩
    exact ⟨p, hp, rfl⟩

namespace BuildCtx
variable (ctx : BuildCtx F Ps d₀)
include ctx

lemma nodup_keys : ((globalTasks F d₀).map GlobalTask.gtKey).Nodup := by
  have h : (globalTasks F d₀).map GlobalTask.gtKey = (d₀.files.map Prod.fst).map projKey := by
    simp [globalTasks, globalTask]
  rw [h]
  exact ctx.valid.nodup.map fun a b => projKey_inj.mp

lemma mem_nonBuiltinTasks {t : GlobalTask S H} :
    t ∈ nonBuiltinTasks (globalTasks F d₀) ↔ ∃ m, d₀.source m ≠ none ∧ t = globalTask F d₀ m := by
  rw [nonBuiltinTasks, mem_filter, mem_globalTasks, and_iff_left_iff_imp]
  rintro ⟨m, hm, rfl⟩
  have hne := (ctx.clean.internal _ ctx.mem m hm).2
  simp [globalTask, isBuiltinKey, projKey, hne]

lemma mem_nonBuiltinKeys {k : TaskKey} :
    k ∈ nonBuiltinKeys (globalTasks F d₀) ↔ ∃ m, d₀.source m ≠ none ∧ k = projKey m := by
  simp only [nonBuiltinKeys, List.mem_map, ctx.mem_nonBuiltinTasks]
  constructor
  · rintro ⟨_, ⟨m, hm, rfl⟩, rfl⟩
    exact ⟨m, hm, rfl⟩
  · rintro ⟨m, hm, rfl⟩
    exact ⟨_, ⟨m, hm, rfl⟩, rfl⟩

/-- The edges of the task graph are the imports within the project. -/
theorem dependsOn_iff {k e : TaskKey} : DependsOn (globalTasks F d₀) k e ↔
    ∃ m x, k = projKey m ∧ e = projKey x ∧ Imports F d₀.source m x ∧ d₀.source x ≠ none := by
  simp only [DependsOn, ctx.mem_nonBuiltinTasks, depsOf, mem_eraseDups, mem_filter,
    List.mem_map, decide_eq_true_eq, ctx.mem_nonBuiltinKeys]
  constructor
  · rintro ⟨_, ⟨m, hm, rfl⟩, rfl, ⟨p, hp, rfl⟩, -⟩
    obtain ⟨x, hx, hfile, rfl⟩ := mem_resolveProviders.mp hp
    exact ⟨m, x, rfl, rfl, (ctx.mem_importsOf hm).mp hx, hfile⟩
  · rintro ⟨m, x, rfl, rfl, himp, hfile⟩
    have hm : d₀.source m ≠ none := by
      obtain ⟨src, _, hsrc, _⟩ := himp
      simp [hsrc]
    refine ⟨_, ⟨m, hm, rfl⟩, rfl, ⟨(x, projKey x), ?_, rfl⟩, x, hfile, rfl⟩
    exact mem_resolveProviders.mpr ⟨x, (ctx.mem_importsOf hm).mpr himp, hfile, rfl⟩

lemma transGen_dependsOn {k e : TaskKey} (h : TransGen (DependsOn (globalTasks F d₀)) k e) :
    ∃ m x, k = projKey m ∧ e = projKey x ∧ TransGen (Imports F d₀.source) m x := by
  induction h with
  | single h =>
    obtain ⟨m, x, rfl, rfl, himp, -⟩ := ctx.dependsOn_iff.mp h
    exact ⟨m, x, rfl, rfl, .single himp⟩
  | tail _ h ih =>
    obtain ⟨m, x, rfl, rfl, hmx⟩ := ih
    obtain ⟨x', y, hx', rfl, himp, -⟩ := ctx.dependsOn_iff.mp h
    obtain rfl := projKey_inj.mp hx'
    exact ⟨m, y, rfl, rfl, .tail hmx himp⟩

lemma transGen_dependsOn_of_imports (h : TransGen (Imports F d₀.source) m x)
    (hfile : d₀.source x ≠ none) :
    TransGen (DependsOn (globalTasks F d₀)) (projKey m) (projKey x) := by
  induction h with
  | single himp => exact .single (ctx.dependsOn_iff.mpr ⟨m, _, rfl, rfl, himp, hfile⟩)
  | @tail y z _ himp ih =>
    have hy : d₀.source y ≠ none := by
      obtain ⟨src, _, hsrc, _⟩ := himp
      simp [hsrc]
    exact .tail (ih hy) (ctx.dependsOn_iff.mpr ⟨y, z, rfl, rfl, himp, hfile⟩)

end BuildCtx

/-- The tasks of a build form a task graph. -/
def BuildCtx.graph (ctx : BuildCtx F Ps d₀) : TaskGraph S H where
  tasks := globalTasks F d₀
  nodup_keys := ctx.nodup_keys
  provider_mod := by
    intro t ht p hp
    obtain ⟨m, -, rfl⟩ := mem_globalTasks.mp ht
    obtain ⟨x, -, -, rfl⟩ := mem_resolveProviders.mp hp
    rfl
  provider_mem := by
    intro t ht p hp
    obtain ⟨m, -, rfl⟩ := mem_globalTasks.mp ht
    obtain ⟨x, -, hfile, rfl⟩ := mem_resolveProviders.mp hp
    exact List.mem_map.mpr ⟨_, mem_globalTasks.mpr ⟨x, hfile, rfl⟩, rfl⟩
  header_imports := by
    intro t ht h ih imps heq p hp
    obtain ⟨m, hm, rfl⟩ := mem_globalTasks.mp ht
    have hmem : p.1 ∈ (readModuleTask F d₀ m).importsOf := by
      change readModuleTask F d₀ m = _ at heq
      rw [heq]
      exact mem_map_of_mem hp
    obtain ⟨src, imps', -, hparse, imp, himp, heq'⟩ := (ctx.mem_importsOf hm).mp hmem
    rw [← heq']
    exact (F.parse_imports src imps' hparse imp himp).1
  acyclic := by
    intro k hk
    obtain ⟨m, x, rfl, hx, hmx⟩ := ctx.transGen_dependsOn hk
    rw [← projKey_inj.mp hx] at hmx
    exact ctx.clean.acyclic _ ctx.mem m hmx

end Tasks
end Acton.Compile
