import Acton.Compile.Task
import Acton.ToMathlib.Worklist

/-!
# What a build has to compute

A `Frontend` stands for the parts of the compiler that turn a source into an interface: the
parser, of which only the imports matter, the checker, and the hashes. The checker is a function
of the module's source and of the public interfaces of the modules that it imports, directly or
through others. Modules outside the project have a fixed interface.

`Compiled F P m r` says that in a project with sources `P` the module `m` compiles, with the
interface, hash and environment of `r`. It does not mention files or earlier builds: it is the
outcome that every build of `P` is compared with.

* `Compiled.unique`: a module has at most one outcome.
* `Compiled.eq_of_hash_eq`: outcomes with the same interface hash, also of different projects,
  agree in the interfaces of all modules that they were made from.
* `Compiled.replay`: an outcome carries over to another project in which the source is the same
  and the recorded imports have the recorded hashes.
-/

namespace Acton.Compile
open Relation List Option
variable {S I H : Type}

/-- An import of a source: `from m import *`, or any other form. -/
structure Import where
  mod : ModName
  star : Bool
  deriving DecidableEq, Repr

/-- The front end. Imports of the built-in modules are not listed, since their interfaces are the
same for every module. -/
structure Frontend (S I H : Type) where
  parse : S → Option (List Import)
  check : ModName → S → Env0 I → Option I
  /-- Some name of the interface is visible to `from m import *`. -/
  exportsName : I → Bool
  /-- The interfaces of modules outside the project. -/
  ext : Map ModName I
  hash : S → H
  hashIface : I → List H → H
  emptyIface : I
  emptyHash : H
  parse_imports : ∀ src imps, parse src = some imps →
    ∀ imp ∈ imps, imp.mod ≠ mBuiltin ∧ imp.mod ≠ mPrim
  hash_inj : ∀ {a b}, hash a = hash b → a = b
  hashIface_inj : ∀ {i j hs hs'}, hashIface i hs = hashIface j hs' → i = j ∧ hs = hs'

/-- The modules that the environment refers to after the imports: `from m import *` leaves a
reference to `m` only in the names that it brings into scope. -/
def Frontend.moduleRefs (F : Frontend S I H) (env : Env0 I) (imps : List Import) : List ModName :=
  (imps.filter fun imp => !imp.star || (env imp.mod).any F.exportsName).map Import.mod

/-- The outcome of a module: its interface, the hash of the interface, and the interfaces that it
was checked against. -/
@[ext]
structure Rec (I H : Type) where
  iface : I
  hash : H
  env : Env0 I

/-- The outcome of `m` makes the interface `j` of `x` known. -/
def Rec.Has (r : Rec I H) (m x : ModName) (j : I) : Prop := x = m ∧ j = r.iface ∨ r.env x = some j

/-- The imports that are recorded in the interface file, with their hashes. -/
def Frontend.recorded (F : Frontend S I H) (env : Env0 I) (imps : List Import)
    (hashOf : ModName → H) : List (ModName × H) :=
  (moduleRefs1 (F.moduleRefs env imps)).map fun x => (x, hashOf x)

variable {F : Frontend S I H} {P P' : ModName → Option S} {m m' x : ModName} {r r' : Rec I H}

/-- In the project `P` the module `m` compiles with outcome `r`. -/
inductive Compiled (F : Frontend S I H) (P : ModName → Option S) : ModName → Rec I H → Prop
  | ext {m i} (hfile : P m = none) (hext : F.ext m = some i) :
      Compiled F P m ⟨i, F.hashIface i [], Map.empty⟩
  | src {m src imps env i} (recs : ModName → Rec I H) (hfile : P m = some src)
      (hparse : F.parse src = some imps)
      (himps : ∀ imp ∈ imps, Compiled F P imp.mod (recs imp.mod))
      (henv : ∀ x j, env x = some j ↔ ∃ imp ∈ imps, (recs imp.mod).Has imp.mod x j)
      (hcheck : F.check m src env = some i) :
      Compiled F P m
        ⟨i, F.hashIface i (depHashesSorted (F.recorded env imps fun x => (recs x).hash)), env⟩

/-- The source of `m` imports `x`. -/
def Imports (F : Frontend S I H) (P : ModName → Option S) (m x : ModName) : Prop :=
  ∃ src imps, P m = some src ∧ F.parse src = some imps ∧ ∃ imp ∈ imps, imp.mod = x

lemma mem_moduleRefs1 {refs : List ModName} :
    x ∈ moduleRefs1 refs ↔ x ∈ refs ∧ x ≠ mPrim ∧ x ≠ mBuiltin := by
  rw [moduleRefs1, (nodup_eraseDups refs).mem_sdiff_iff, mem_eraseDups]
  simp

variable {imps : List Import} {env : Env0 I}

lemma Frontend.mem_moduleRefs : x ∈ F.moduleRefs env imps ↔
      ∃ imp ∈ imps, imp.mod = x ∧ (imp.star = true → ∃ i, env x = some i ∧ F.exportsName i) := by
  simp only [Frontend.moduleRefs, List.mem_map, mem_filter, Bool.or_eq_true,
    Bool.not_eq_true', Option.any_eq_true]
  constructor
  · rintro ⟨imp, ⟨himp, h⟩, rfl⟩
    refine ⟨imp, himp, rfl, fun hstar => ?_⟩
    simpa [hstar] using h
  · rintro ⟨imp, himp, rfl, h⟩
    refine ⟨imp, ⟨himp, ?_⟩, rfl⟩
    cases hstar : imp.star
    · exact .inl rfl
    · exact .inr (h hstar)

lemma recorded_congr {recs recs' : ModName → Rec I H}
    (h : ∀ imp ∈ imps, recs imp.mod = recs' imp.mod) :
    (F.recorded env imps fun x => (recs x).hash) = F.recorded env imps fun x => (recs' x).hash := by
  apply map_congr_left
  intro x hx
  obtain ⟨imp, himp, rfl, -⟩ := F.mem_moduleRefs.mp (mem_moduleRefs1.mp hx).1
  simp only [h imp himp]

lemma perm_depHashesSorted (imps : List (ModName × H)) :
    (depHashesSorted imps).Perm (imps.map Prod.snd) :=
  (perm_insertionSort _ _).map _

variable {recs : ModName → Rec I H}
namespace Compiled

lemma of_imports (h : Compiled F P m r) (himp : Imports F P m x) : ∃ r', Compiled F P x r' := by
  obtain ⟨src, imps, hfile, hparse, imp, himp, rfl⟩ := himp
  cases h with
  | ext hnone => simp [hnone] at hfile
  | src recs hfile' hparse' himps =>
    obtain rfl := mem_unique hfile hfile'
    obtain rfl := mem_unique hparse hparse'
    exact ⟨_, himps imp himp⟩

lemma of_transImports (h : Compiled F P m r) (himp : TransGen (Imports F P) m x) :
    ∃ r', Compiled F P x r' := by
  induction himp with
  | single himp => exact h.of_imports himp
  | tail _ himp ih =>
    obtain ⟨r', h'⟩ := ih
    exact h'.of_imports himp

lemma unique (h : Compiled F P m r) (h' : Compiled F P m r') : r = r' := by
  induction h generalizing r' with
  | ext hfile hext =>
    cases h' with
    | ext _ hext' => rw [mem_unique hext hext']
    | src _ hfile' => simp [hfile] at hfile'
  | @src m src imps env i recs hfile hparse himps henv hcheck ih =>
    cases h' with
    | ext hfile' => simp [hfile] at hfile'
    | @src _ _ _ env' i' recs' hfile' hparse' himps' henv' hcheck' =>
      obtain rfl := mem_unique hfile hfile'
      obtain rfl := mem_unique hparse hparse'
      have hrecs : ∀ imp ∈ imps, recs imp.mod = recs' imp.mod :=
        fun imp himp => ih imp himp (himps' imp himp)
      have hEnv : env = env' := by
        funext x
        apply Option.ext
        intro j
        rw [henv, henv']
        exact exists_congr fun imp => and_congr_right fun himp => by rw [hrecs imp himp]
      subst hEnv
      obtain rfl := mem_unique hcheck hcheck'
      rw [recorded_congr hrecs]

/-- The outcomes of the imports make known the interfaces of the direct and indirect imports, if
the environment of each does. -/
theorem exists_has_iff {src : S} (hfile : P m = some src) (hparse : F.parse src = some imps)
    (himps : ∀ imp ∈ imps, Compiled F P imp.mod (recs imp.mod))
    (henvs : ∀ imp ∈ imps, ∀ x j, (recs imp.mod).env x = some j ↔
      TransGen (Imports F P) imp.mod x ∧ ∃ r', Compiled F P x r' ∧ r'.iface = j) {j : I} :
    (∃ imp ∈ imps, (recs imp.mod).Has imp.mod x j) ↔
      TransGen (Imports F P) m x ∧ ∃ r', Compiled F P x r' ∧ r'.iface = j := by
  have hedge {imp} (himp : imp ∈ imps) : Imports F P m imp.mod :=
    ⟨src, imps, hfile, hparse, imp, himp, rfl⟩
  constructor
  · rintro ⟨imp, himp, ⟨rfl, rfl⟩ | hx⟩
    · exact ⟨.single (hedge himp), _, himps imp himp, rfl⟩
    · obtain ⟨hreach, hrec⟩ := (henvs imp himp x j).mp hx
      exact ⟨.head (hedge himp) hreach, hrec⟩
  · rintro ⟨hreach, r', hr', rfl⟩
    obtain ⟨y, ⟨src', imps', hfile', hparse', imp, himp, rfl⟩, hy⟩ := TransGen.head'_iff.mp hreach
    obtain rfl := mem_unique hfile hfile'
    obtain rfl := mem_unique hparse hparse'
    refine ⟨imp, himp, ?_⟩
    rcases reflTransGen_iff_eq_or_transGen.mp hy with rfl | hy
    · exact .inl ⟨rfl, by rw [(himps imp himp).unique hr']⟩
    · exact .inr ((henvs imp himp x _).mpr ⟨hy, r', hr', rfl⟩)

/-- A module is checked against the interfaces of the modules it imports, directly or through
others. -/
theorem env_eq_some_iff (h : Compiled F P m r) {j : I} : r.env x = some j ↔
    TransGen (Imports F P) m x ∧ ∃ r', Compiled F P x r' ∧ r'.iface = j := by
  induction h generalizing x j with
  | @ext m i hfile hext =>
    refine ⟨fun h => by simp [Map.empty] at h, fun ⟨h, _⟩ => ?_⟩
    obtain ⟨_, ⟨_, _, hsrc, _⟩, -⟩ := TransGen.head'_iff.mp h
    simp [hfile] at hsrc
  | @src m src imps env i recs hfile hparse himps henv hcheck ih =>
    rw [henv]
    exact exists_has_iff hfile hparse himps fun imp himp x j => ih imp himp

end Compiled

/-- Every import that `from m import *` makes brings some name into scope. -/
def ExportsNames (F : Frontend S I H) (P : ModName → Option S) : Prop :=
  ∀ m src imps, P m = some src → F.parse src = some imps → ∀ imp ∈ imps, imp.star = true →
    ∀ r, Compiled F P imp.mod r → F.exportsName r.iface

/-- Modules of different names do not have the same interface hash. -/
def DistinctHashes (F : Frontend S I H) (P P' : ModName → Option S) : Prop :=
  ∀ m m' r r', Compiled F P m r → Compiled F P' m' r' → r.hash = r'.hash → m = m'

section Recorded
variable {src : S} (hnames : ExportsNames F P) (hfile : P m = some src)
  (hparse : F.parse src = some imps) (himps : ∀ imp ∈ imps, Compiled F P imp.mod (recs imp.mod))
  (henv : ∀ x j, env x = some j ↔ ∃ imp ∈ imps, (recs imp.mod).Has imp.mod x j)
include hnames hfile hparse himps henv

/-- Then every import is recorded. -/
theorem mem_recorded {imp : Import} (himp : imp ∈ imps) :
    (imp.mod, (recs imp.mod).hash) ∈ F.recorded env imps fun x => (recs x).hash := by
  refine mem_map.mpr ⟨imp.mod, ?_, rfl⟩
  have hne := F.parse_imports src imps hparse imp himp
  refine mem_moduleRefs1.mpr ⟨F.mem_moduleRefs.mpr ⟨imp, himp, rfl, fun hstar => ?_⟩, hne.2, hne.1⟩
  exact ⟨_, (henv _ _).mpr ⟨imp, himp, .inl ⟨rfl, rfl⟩⟩,
    hnames m src imps hfile hparse imp himp hstar _ (himps imp himp)⟩

/-- A module that records no import was checked against nothing. -/
theorem env_eq_empty (hnil : (F.recorded env imps fun x => (recs x).hash) = []) :
    env = Map.empty := by
  funext x
  apply ext
  intro j
  rw [henv]
  constructor
  · rintro ⟨imp, himp, -⟩
    have hmem := mem_recorded hnames hfile hparse himps henv himp
    simp [hnil] at hmem
  · intro h
    simp [Map.empty] at h

end Recorded

lemma of_mem_recorded {hashOf : ModName → H} {p : ModName × H}
    (hp : p ∈ F.recorded env imps hashOf) : ∃ imp ∈ imps, p = (imp.mod, hashOf imp.mod) := by
  obtain ⟨x, hx, rfl⟩ := mem_map.mp hp
  obtain ⟨imp, himp, rfl, -⟩ := F.mem_moduleRefs.mp (mem_moduleRefs1.mp hx).1
  exact ⟨imp, himp, rfl⟩

lemma depHashesSorted_eq_nil {imps : List (ModName × H)} : depHashesSorted imps = [] ↔
    imps = [] := by
  rw [← length_eq_zero_iff, (perm_depHashesSorted imps).length_eq, length_map, length_eq_zero_iff]

/-- Outcomes with the same interface hash are the same, also in different projects. -/
theorem Compiled.eq_of_hash_eq (hnames : ExportsNames F P) (hnames' : ExportsNames F P')
    (hdistinct : DistinctHashes F P P') (h : Compiled F P m r) (h' : Compiled F P' m' r')
    (hhash : r.hash = r'.hash) : m = m' ∧ r = r' := by
  -- the hash of an interface determines those of the recorded imports, so the induction is on the
  -- way in which the first outcome came about
  refine ⟨hdistinct m m' r r' h h' hhash, ?_⟩
  induction h generalizing m' r' with
  | @ext m i hfile hext =>
    cases h' with
    | ext hfile' hext' => rw [(F.hashIface_inj hhash).1]
    | @src _ src imps env i' recs hfile' hparse himps henv hcheck =>
      obtain ⟨rfl, hnil⟩ := F.hashIface_inj hhash
      exact Rec.ext rfl hhash (env_eq_empty hnames' hfile' hparse himps henv
        (depHashesSorted_eq_nil.mp hnil.symm)).symm
  | @src m src imps env i recs hfile hparse himps henv hcheck ih =>
    cases h' with
    | ext hfile' hext' =>
      obtain ⟨rfl, hnil⟩ := F.hashIface_inj hhash
      exact Rec.ext rfl hhash
        (env_eq_empty hnames hfile hparse himps henv (depHashesSorted_eq_nil.mp hnil))
    | @src _ src' imps' env' i' recs' hfile' hparse' himps' henv' hcheck' =>
      obtain ⟨rfl, hsorted⟩ := F.hashIface_inj hhash
      have hperm := (perm_depHashesSorted (F.recorded env imps fun x => (recs x).hash)).symm.trans
        (hsorted ▸ perm_depHashesSorted (F.recorded env' imps' fun x => (recs' x).hash))
      -- each import has a counterpart with the same outcome
      have hfwd : ∀ imp ∈ imps, ∃ imp' ∈ imps', imp.mod = imp'.mod ∧
          recs imp.mod = recs' imp'.mod := by
        intro imp himp
        have hmem := mem_map_of_mem (f := Prod.snd)
          (mem_recorded hnames hfile hparse himps henv himp)
        obtain ⟨p, hp, heq⟩ := mem_map.mp (hperm.mem_iff.mp hmem)
        obtain ⟨imp', himp', rfl⟩ := of_mem_recorded hp
        exact ⟨imp', himp', hdistinct _ _ _ _ (himps imp himp) (himps' imp' himp') heq.symm,
          ih imp himp (himps' imp' himp') heq.symm⟩
      have hbwd : ∀ imp' ∈ imps', ∃ imp ∈ imps, imp.mod = imp'.mod ∧
          recs imp.mod = recs' imp'.mod := by
        intro imp' himp'
        have hmem := mem_map_of_mem (f := Prod.snd)
          (mem_recorded hnames' hfile' hparse' himps' henv' himp')
        obtain ⟨p, hp, heq⟩ := mem_map.mp (hperm.mem_iff.mpr hmem)
        obtain ⟨imp, himp, rfl⟩ := of_mem_recorded hp
        exact ⟨imp, himp, hdistinct _ _ _ _ (himps imp himp) (himps' imp' himp') heq,
          ih imp himp (himps' imp' himp') heq⟩
      refine Rec.ext rfl hhash ?_
      funext x
      apply Option.ext
      intro j
      change env x = some j ↔ env' x = some j
      rw [henv, henv']
      constructor
      · rintro ⟨imp, himp, hhas⟩
        obtain ⟨imp', himp', hmod, hrec⟩ := hfwd imp himp
        exact ⟨imp', himp', by rwa [← hrec, ← hmod]⟩
      · rintro ⟨imp', himp', hhas⟩
        obtain ⟨imp, himp, hmod, hrec⟩ := hbwd imp' himp'
        exact ⟨imp, himp, by rwa [hrec, hmod]⟩

/-- The interface file records the outcome of `m` in the project `P`. -/
inductive Records (F : Frontend S I H) (P : ModName → Option S) (m : ModName) :
    TyFile I H → Rec I H → Prop
  | mk {src imps env i} (recs : ModName → Rec I H) (hfile : P m = some src)
      (hparse : F.parse src = some imps)
      (himps : ∀ imp ∈ imps, Compiled F P imp.mod (recs imp.mod))
      (henv : ∀ x j, env x = some j ↔ ∃ imp ∈ imps, (recs imp.mod).Has imp.mod x j)
      (hcheck : F.check m src env = some i) :
      Records F P m
        { srcHash := F.hash src
          ifaceHash := F.hashIface i (depHashesSorted (F.recorded env imps fun x => (recs x).hash))
          imports := F.recorded env imps fun x => (recs x).hash
          iface := i }
        ⟨i, F.hashIface i (depHashesSorted (F.recorded env imps fun x => (recs x).hash)), env⟩

namespace Records
variable {ty ty' : TyFile I H}
section
variable (h : Records F P m ty r)
include h

lemma compiled : Compiled F P m r := by
  obtain ⟨recs, hfile, hparse, himps, henv, hcheck⟩ := h
  exact .src recs hfile hparse himps henv hcheck

lemma iface_eq : ty.iface = r.iface := by
  cases h; rfl

lemma ifaceHash_eq : ty.ifaceHash = r.hash := by
  cases h; rfl

lemma srcHash_eq : ∃ src, P m = some src ∧ ty.srcHash = F.hash src := by
  obtain @⟨src, -, -, -, -, hfile, -⟩ := h
  exact ⟨src, hfile, rfl⟩

lemma unique (h' : Records F P m ty' r') : ty = ty' := by
  have hr := h.compiled.unique h'.compiled
  obtain @⟨src, imps, env, i, recs, hfile, hparse, himps, henv, hcheck⟩ := h
  obtain @⟨src', imps', env', i', recs', hfile', hparse', himps', henv', hcheck'⟩ := h'
  obtain rfl := mem_unique hfile hfile'
  obtain rfl := mem_unique hparse hparse'
  obtain ⟨rfl, -, rfl⟩ := Rec.mk.inj hr
  rw [recorded_congr fun imp himp => (himps imp himp).unique (himps' imp himp)]

end

/-- A recorded outcome carries over to a project with the same source, in which the recorded
imports have the recorded hashes. -/
theorem replay {src : S} (hnames : ExportsNames F P) (hnames' : ExportsNames F P')
    (hdistinct : DistinctHashes F P P') (h : Records F P m ty r) (hfile' : P' m = some src)
    (hsrc : ty.srcHash = F.hash src)
    (himports : ∀ p ∈ ty.imports, ∃ r', Compiled F P' p.1 r' ∧ r'.hash = p.2) :
    Records F P' m ty r := by
  obtain @⟨src0, imps, env, i, recs, hfile, hparse, himps, henv, hcheck⟩ := h
  obtain rfl : src0 = src := F.hash_inj hsrc
  refine .mk recs hfile' hparse (fun imp himp => ?_) henv hcheck
  -- the import has an outcome with the same hash, so it is the same outcome
  obtain ⟨r', hr', hhash⟩ := himports _ (mem_recorded hnames hfile hparse himps henv himp)
  rw [((himps imp himp).eq_of_hash_eq hnames hnames' hdistinct hr' hhash.symm).2]
  exact hr'

end Records
end Acton.Compile
