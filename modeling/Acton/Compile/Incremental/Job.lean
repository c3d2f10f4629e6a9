import Acton.Compile.Incremental.Plan

/-!
# The job of one module in an incremental build

When the imports of a module have been built, its job gives the outcome that `Compiled` describes:
either the header is trusted and the recorded outcome carries over, or the source is checked
against the interfaces of its imports (`doOne_meets`).
-/

namespace Acton.Compile
open Relation List Option Prod
variable {S I H : Type} {F : Frontend S I H} {Ps : Set (ModName → Option S)}
  {d d₀ : Disk S I H} {m x : ModName}
section Load

lemma importsOn_of_source {src : S} (hsrc : d.source m = some src) :
    x ∈ importsOn F d m ↔ Imports F d.source m x := by
  simp only [importsOn, hsrc, mem_eraseDups, List.mem_map, Imports, Option.some.injEq,
    exists_and_left, exists_eq_left']
  cases hparse : F.parse src with
  | none => simp
  | some imps => simp

lemma importsOn_of_noSource (hsrc : d.source m = none) (hty : d.ty m = none) :
    importsOn F d m = [] := by
  simp [importsOn, hsrc, hty]

/-- The imports that loading a module leads to are those of the sources. -/
theorem mem_transImports (horphans : d.NoOrphans F) (hm : d.source m ≠ none) :
    x ∈ transImports F d m ↔ TransGen (Imports F d.source) m x := by
  have huniv (y : ModName) : importsOn F d y
      ⊆ (d.files.map fst ++ d.tys.map fst).flatMap (importsOn F d) := by
    intro z hz
    refine mem_flatMap.mpr ⟨y, mem_append.mpr ?_, hz⟩
    by_contra hnot
    rw [not_or, ← Disk.source_ne_none_iff, not_not] at hnot
    have hty : d.ty y = none := by
      rw [Disk.ty, map_eq_none_iff, lookup_eq_none_iff]
      intro p hp
      have hne : y ≠ p.1 := fun heq => hnot.2 (heq ▸ mem_map_of_mem hp)
      simpa using hne
    rw [importsOn_of_noSource hnot.1 hty] at hz
    simp at hz
  have hnodup (y : ModName) : (importsOn F d y).Nodup := by
    unfold importsOn
    split <;> exact nodup_eraseDups _
  rw [transImports, Worklist.mem_closure huniv hnodup le_rfl]
  constructor
  · intro h
    induction h with
    | single h =>
      obtain ⟨src, hsrc⟩ := ne_none_iff_exists'.mp hm
      exact .single ((importsOn_of_source hsrc).mp h)
    | @tail y z _ h ih =>
      refine .tail ih ?_
      cases hsrc : d.source y with
      | some src => exact (importsOn_of_source hsrc).mp h
      | none =>
        -- a module without a source is a leaf
        obtain ⟨u, -, hu⟩ := TransGen.tail'_iff.mp ih
        rw [Worklist.Edge, importsOn_of_noSource hsrc (horphans u y hu hsrc).1] at h
        simp at h
  · intro h
    refine TransGen.mono (fun y z hyz => ?_) m x h
    obtain ⟨src, _, hsrc, _⟩ := id hyz
    exact (importsOn_of_source hsrc).mpr hyz

/-- What a job of `m` was started with: the outcomes of the modules it imports. -/
structure Snap (F : Frontend S I H) (P : ModName → Option S) (m : ModName) (env : Env0 I)
    (ifaceMap : IfaceMap H) : Prop where
  done : ∀ x, TransGen (Imports F P) m x → P x ≠ none →
    ∃ r, Compiled F P x r ∧ ifaceMap (projKey x) = some r.hash ∧ env x = some r.iface
  only : ∀ x, env x ≠ none → P x ≠ none

variable {env : Env0 I} {ifaceMap : IfaceMap H}

/-- The interface that is loaded for an import is that of its outcome. -/
theorem loadMod_eq_some_iff (horphans : d.NoOrphans F) (hsnap : Snap F d.source m env ifaceMap)
    (hx : TransGen (Imports F d.source) m x) {j : I} :
    loadMod F d env x = some j ↔ ∃ r, Compiled F d.source x r ∧ r.iface = j := by
  by_cases hfile : d.source x = none
  · obtain ⟨u, -, hu⟩ := TransGen.tail'_iff.mp hx
    have hty := (horphans u x hu hfile).1
    have henv : env x = none := by
      by_contra hne
      exact hsnap.only x hne hfile
    simp only [loadMod, henv, hty]
    constructor
    · exact fun hext => ⟨_, .ext hfile hext, rfl⟩
    · rintro ⟨r, hr, rfl⟩
      cases hr with
      | ext _ hext => exact hext
      | src _ hsrc => simp [hfile] at hsrc
  · obtain ⟨r, hr, -, henv⟩ := hsnap.done x hx hfile
    simp only [loadMod, henv]
    constructor
    · exact fun h => ⟨r, hr, some.inj h⟩
    · rintro ⟨r', hr', rfl⟩
      rw [hr.unique hr']

/-- Checking a source in a build does what `Compiled` says. -/
theorem reconstruct_spec {src : S} {imps : List Import} (horphans : d.NoOrphans F)
    (hsnap : Snap F d.source m env ifaceMap) (hfile : d.source m = some src)
    (hparse : F.parse src = some imps) :
    (∃ recs : ModName → Rec I H, ∃ env' i, (∀ imp ∈ imps,
      Compiled F d.source imp.mod (recs imp.mod)) ∧
      (∀ x j, env' x = some j ↔ ∃ imp ∈ imps, (recs imp.mod).Has imp.mod x j) ∧
      F.check m src env' = some i ∧
      reconstruct F d m env src = some (env', i, F.moduleRefs env' imps)) ∨
    reconstruct F d m env src = none ∧ ∀ r, ¬ Compiled F d.source m r := by
  have hm : d.source m ≠ none := by simp [hfile]
  simp only [reconstruct, hparse]
  by_cases hall : ∀ x, TransGen (Imports F d.source) m x → ∃ r, Compiled F d.source x r
  · have hload : ((transImports F d m).all fun x => (loadMod F d env x).isSome) = true := by
      rw [List.all_eq_true]
      intro x hx
      have hx := (mem_transImports horphans hm).mp hx
      obtain ⟨r, hr⟩ := hall x hx
      rw [(loadMod_eq_some_iff horphans hsnap hx).mpr ⟨r, hr, rfl⟩]
      rfl
    rw [if_pos hload]
    set env' : Env0 I :=
      fun x => if x ∈ transImports F d m then loadMod F d env x else none with henv'
    have hmem {x j} : env' x = some j ↔
        TransGen (Imports F d.source) m x ∧ ∃ r, Compiled F d.source x r ∧ r.iface = j := by
      rw [henv']
      by_cases hx : TransGen (Imports F d.source) m x
      · simp only [(mem_transImports horphans hm).mpr hx, if_true, hx, true_and,
          loadMod_eq_some_iff horphans hsnap hx]
      · simp [mt (mem_transImports horphans hm).mp hx, hx]
    have hchoice : ∀ x, ∃ r : Rec I H, TransGen (Imports F d.source) m x →
        Compiled F d.source x r := by
      intro x
      by_cases hx : TransGen (Imports F d.source) m x
      · obtain ⟨r, hr⟩ := hall x hx
        exact ⟨r, fun _ => hr⟩
      · exact ⟨⟨F.emptyIface, F.emptyHash, Map.empty⟩, fun h => absurd h hx⟩
    choose recs hrecs using hchoice
    have himps : ∀ imp ∈ imps, Compiled F d.source imp.mod (recs imp.mod) :=
      fun imp himp => hrecs _ (.single ⟨src, imps, hfile, hparse, imp, himp, rfl⟩)
    cases hcheck : F.check m src env' with
    | some i =>
      refine .inl ⟨recs, env', i, himps, fun x j => ?_, hcheck, rfl⟩
      rw [hmem, Compiled.exists_has_iff hfile hparse himps
        fun imp himp x j => (himps imp himp).env_eq_some_iff]
    | none =>
      refine .inr ⟨rfl, fun r hr => ?_⟩
      have heq : r.env = env' := by
        funext x
        apply ext
        intro j
        rw [hmem, hr.env_eq_some_iff]
      cases hr with
      | ext hnone => simp [hfile] at hnone
      | src _ hfile' _ _ _ hcheck' =>
        obtain rfl := mem_unique hfile hfile'
        simp [← heq, hcheck'] at hcheck
  · refine .inr ⟨?_, fun r hr => hall fun x hx => hr.of_transImports hx⟩
    have hload : ¬ ((transImports F d m).all fun x => (loadMod F d env x).isSome) = true := by
      rw [List.all_eq_true]
      intro h
      refine hall fun x hx => ?_
      obtain ⟨j, hj⟩ := isSome_iff_exists.mp (h x ((mem_transImports horphans hm).mpr hx))
      obtain ⟨r, hr, -⟩ := (loadMod_eq_some_iff horphans hsnap hx).mp hj
      exact ⟨r, hr⟩
    rw [if_neg hload]

end Load

/-- The job of `m` gives the outcome that the project has for it. A success comes with a new
interface file and a job for the back end, or with the interface file that is on the disk. -/
def Done.Meets (F : Frontend S I H) (d : Disk S I H) (m : ModName) (done : Done S I H) : Prop :=
  (∃ ty r fr, Records F d.source m ty r ∧ done.outcome = .ok fr ∧ fr.frIfaceTE = r.iface ∧
    fr.frIfaceHash = r.hash ∧
    ((∃ src, d.source m = some src ∧ done.wroteTy = some ty ∧ fr.frBackJob = some ⟨src, r.env⟩) ∨
      d.ty m = some ty ∧ done.wroteTy = none ∧ fr.frBackJob = none)) ∨
  (∃ e, done.outcome = .error e) ∧ done.wroteTy = none ∧ ∀ r, ¬ Compiled F d.source m r

section Resolve
variable {env : Env0 I} {ifaceMap : IfaceMap H} {imps : List ModName}

lemma lookup_resolveProviders (hx : x ∈ imps) (hfile : d.source x ≠ none) :
    (resolveProviders d imps).lookup x = some (projKey x) := by
  have hmem : (x, projKey x) ∈ resolveProviders d imps :=
    mem_resolveProviders.mpr ⟨x, hx, hfile, rfl⟩
  cases hlookup : (resolveProviders d imps).lookup x with
  | none => simpa using lookup_eq_none_iff.mp hlookup _ hmem
  | some k =>
    obtain ⟨y, -, -, hy⟩ := mem_resolveProviders.mp (mem_of_lookup_eq_some hlookup)
    obtain ⟨rfl, rfl⟩ := mk.inj hy
    rfl

lemma lookup_resolveProviders_none (hfile : d.source x = none) :
    (resolveProviders d imps).lookup x = none := by
  rw [lookup_eq_none_iff]
  intro p hp
  obtain ⟨y, -, hy, rfl⟩ := mem_resolveProviders.mp hp
  have hne : x ≠ y := by
    rintro rfl
    exact hy hfile
  simpa using hne

section
variable (hfiles : d.files = d₀.files) (horphans : d.NoOrphans F)
  (hsnap : Snap F d.source m env ifaceMap)
include hfiles horphans hsnap

/-- The hash of an import is that of its outcome. For an import without a source it is that of the
external module, if there is one. -/
theorem resolveImportHash_eq (hx : x ∈ imps) (himp : Imports F d.source m x) :
    ∃ o, resolveImportHash (world F d m) (resolveProviders d₀ imps) ifaceMap x = .ok o ∧
      ∀ h, o = some h ↔ ∃ r, Compiled F d.source x r ∧ r.hash = h := by
  have hsource : d.source = d₀.source := by
    funext y
    rw [Disk.source, Disk.source, hfiles]
  by_cases hfile : d.source x = none
  · rw [resolveImportHash, lookup_resolveProviders_none (by rwa [← hsource])]
    refine ⟨_, rfl, fun h => ?_⟩
    rw [show (world F d m).getIfaceHashCached x = F.extHash x from (horphans m x himp hfile).2,
      Frontend.extHash, map_eq_some_iff]
    constructor
    · rintro ⟨i, hi, rfl⟩
      exact ⟨_, .ext hfile hi, rfl⟩
    · rintro ⟨r, hr, rfl⟩
      cases hr with
      | ext _ hext => exact ⟨_, hext, rfl⟩
      | src _ hsrc => simp [hfile] at hsrc
  · obtain ⟨r, hr, hhash, -⟩ := hsnap.done x (.single himp) hfile
    rw [resolveImportHash, lookup_resolveProviders hx (by rwa [← hsource])]
    simp only [hhash]
    refine ⟨_, rfl, fun h => ⟨fun heq => ⟨r, hr, some.inj heq⟩, ?_⟩⟩
    rintro ⟨r', hr', rfl⟩
    rw [hr.unique hr']

lemma compileSource_meets {src : S} {imports : List Import} (hfile : d.source m = some src)
    (hparse : F.parse src = some imports) (himps : ∀ imp ∈ imports, imp.mod ∈ imps) :
    ∃ done, compileSource (world F d m) env
        (resolveImportHash (world F d m) (resolveProviders d₀ imps) ifaceMap) src = .ok done ∧
      done.Meets F d m := by
  have hreconstruct : (world F d m).reconstruct = reconstruct F d m := rfl
  rcases reconstruct_spec horphans hsnap hfile hparse with
    ⟨recs, env', i, hrecs, henv, hcheck, heq⟩ | ⟨hnone, hnot⟩
  · -- the hashes of the recorded imports are those of their outcomes
    have hresolve : ∀ y ∈ moduleRefs1 (F.moduleRefs env' imports),
        resolveImportHash (world F d m) (resolveProviders d₀ imps) ifaceMap y
          = .ok (some (recs y).hash) := by
      intro y hy
      obtain ⟨imp, himp, rfl, -⟩ := F.mem_moduleRefs.mp (mem_moduleRefs1.mp hy).1
      obtain ⟨o, ho, hiff⟩ := resolveImportHash_eq hfiles horphans hsnap (himps imp himp)
        ⟨src, imports, hfile, hparse, imp, himp, rfl⟩
      rw [ho, (hiff _).mpr ⟨_, hrecs imp himp, rfl⟩]
    have hhashes := resolveImportHashes_eq_ok hresolve
    simp only [compileSource, runFrontPasses, hreconstruct, heq, hhashes, bind, Except.bind, pure,
      Except.pure]
    exact ⟨_, rfl, .inl ⟨_, _, _, .mk recs hfile hparse hrecs henv hcheck, rfl, rfl, rfl,
      .inl ⟨src, hfile, rfl, rfl⟩⟩⟩
  · simp only [compileSource, runFrontPasses, hreconstruct, hnone, bind, Except.bind, pure,
      Except.pure]
    exact ⟨_, rfl, .inr ⟨⟨_, rfl⟩, rfl, hnot⟩⟩

end
end Resolve
section DoOne
variable [DecidableEq H] {env : Env0 I} {ifaceMap : IfaceMap H}

/-- The job of a module whose imports have been built gives the module's outcome. -/
theorem BuildCtx.doOne_meets (ctx : BuildCtx F Ps d₀) (hfiles : d.files = d₀.files)
    (hown : d.tys.lookup m = d₀.tys.lookup m) (horphans : d.NoOrphans F)
    (hsnap : Snap F d.source m env ifaceMap) (hm : d.source m ≠ none) :
    ∃ done, doOne (world F d m) (taskMap (globalTasks F d₀)) env ifaceMap (projKey m) = .ok done ∧
      done.Meets F d m := by
  have hsource : d.source = d₀.source := by
    funext y
    rw [Disk.source, Disk.source, hfiles]
  obtain ⟨src, hsrc⟩ := ne_none_iff_exists'.mp hm
  have htask := taskMap_of_mem ctx.nodup_keys (mem_globalTasks.mpr ⟨m, hsource ▸ hm, rfl⟩)
  have himports {imps} (hparse : F.parse src = some imps) :
      ∀ imp ∈ imps, imp.mod ∈ (readModuleTask F d₀ m).importsOf := by
    intro imp himp
    exact (ctx.mem_importsOf (hsource ▸ hm)).mpr
      ⟨src, imps, hsource ▸ hsrc, hparse, imp, himp, rfl⟩
  have honly : (world F d m).onlyBuild = false := rfl
  have hforce : (world F d m).force = false := rfl
  rw [doOne, show projKey m = (globalTask F d₀ m).gtKey from rfl, htask]
  simp only [globalTask, honly, Bool.false_eq_true, if_false, hforce, Bool.or_false]
  rcases readModuleTask_cases ctx.valid (hsource ▸ hsrc) with heq | ⟨ty, t, hty, heq, hhash⟩
  · -- the source is parsed
    rw [heq, parseForImports]
    cases hparse : F.parse src with
    | none =>
      refine ⟨_, rfl, .inr ⟨⟨_, rfl⟩, rfl, fun r hr => ?_⟩⟩
      cases hr with
      | ext hnone => simp [hsrc] at hnone
      | src _ hsrc' hparse' =>
        obtain rfl := mem_unique hsrc hsrc'
        simp [hparse] at hparse'
    | some imps =>
      have h := himports hparse
      rw [heq, parseForImports, hparse] at h
      exact compileSource_meets hfiles horphans hsnap hsrc hparse h
  · -- the header is trusted
    obtain ⟨P0, hP0, r0, hrec⟩ := ctx.valid.records m ty t hty
    obtain ⟨imps, hparse⟩ := isSome_iff_exists.mp (hrec.parse_isSome hhash)
    have himps := himports hparse
    rw [heq, mkTyTask] at himps
    have hmem {y} : y ∈ ty.imports.map fst → Imports F d.source m y := by
      intro hy
      obtain ⟨imp, himp, rfl⟩ := (hrec.mem_imports (ctx.clean.exports P0 hP0) hhash hparse).mp hy
      exact ⟨src, imps, hsrc, hparse, imp, himp, rfl⟩
    rw [heq, mkTyTask]
    simp only [CompileTask.importsOf] at himps ⊢
    set resolve := resolveImportHash (world F d m)
      (resolveProviders d₀ (ty.imports.map fst)) ifaceMap with hresolve
    have hhashes : ∀ y ∈ ty.imports.map fst, ∃ o, resolve y = .ok o ∧
        ∀ h, o = some h ↔ ∃ r, Compiled F d.source y r ∧ r.hash = h :=
      fun y hy => resolveImportHash_eq hfiles horphans hsnap hy (hmem hy)
    by_cases hall : ∀ y ∈ ty.imports.map fst, ∃ r, Compiled F d.source y r
    · have hchoice : ∀ y, ∃ r : Rec I H, y ∈ ty.imports.map fst → Compiled F d.source y r := by
        intro y
        by_cases hy : y ∈ ty.imports.map fst
        · obtain ⟨r, hr⟩ := hall y hy
          exact ⟨r, fun _ => hr⟩
        · exact ⟨r0, fun h => absurd h hy⟩
      choose recs hrecs using hchoice
      have hok : ∀ y ∈ ty.imports.map fst, resolve y = .ok (some (recs y).hash) := by
        intro y hy
        obtain ⟨o, ho, hiff⟩ := hhashes y hy
        rw [ho, (hiff _).mpr ⟨_, hrecs y hy, rfl⟩]
      simp only [needByImports, resolveImportHashes_eq_ok hok, bind, Except.bind, pure, Except.pure]
      by_cases hsame : (ty.imports.map fst).map (fun y => (y, (recs y).hash)) = ty.imports
      · -- the recorded hashes are the current ones, so the recorded outcome carries over
        have hrec' : Records F d.source m ty r0 := by
          refine hrec.replay (ctx.clean.exports P0 hP0) (hsource ▸ ctx.clean.exports _ ctx.mem)
            (hsource ▸ ctx.clean.distinct P0 hP0 _ ctx.mem) hsrc hhash fun p hp => ?_
          rw [← hsame] at hp
          obtain ⟨y, hy, rfl⟩ := mem_map.mp hp
          exact ⟨_, hrecs y hy, rfl⟩
        have hty' : d.ty m = some ty := Disk.ty_eq_some_iff.mpr ⟨t, hown.trans hty⟩
        have hread : (world F d m).readTy = some ty := hty'
        simp only [hsame, bne_self_eq_false, Bool.false_eq_true, if_false, readIfaceFromTy, hread,
          CompileTask.headerHash, getD_some]
        exact ⟨_, rfl, .inl ⟨ty, r0, _, hrec', rfl, hrec'.iface_eq, hrec'.ifaceHash_eq,
          .inr ⟨hty', rfl, rfl⟩⟩⟩
      · have hactFile : (world F d m).parseActFile = some src := by
          simp [world, hsrc, Option.filter, hparse]
        rw [if_pos (by simpa using hsame), hactFile]
        exact compileSource_meets hfiles horphans hsnap hsrc hparse himps
    · -- an import is missing
      obtain ⟨y, hy, hnone⟩ : ∃ y ∈ ty.imports.map fst, ∀ r, ¬ Compiled F d.source y r := by
        simpa only [not_forall, not_exists, exists_prop] using hall
      have hf : ∀ z ∈ ty.imports.map fst, resolve z = .ok ((resolve z).toOption.getD none) := by
        intro z hz
        obtain ⟨o, ho, -⟩ := hhashes z hz
        simp [ho, Except.toOption]
      have hynone : (resolve y).toOption.getD none = none := by
        obtain ⟨o, ho, hiff⟩ := hhashes y hy
        rw [ho]
        refine eq_none_iff_forall_ne_some.mpr fun h heq => ?_
        obtain ⟨r, hr, -⟩ := (hiff h).mp heq
        exact hnone r hr
      obtain ⟨e, he⟩ := resolveImportHashes_eq_error hf hy hynone
      simp only [needByImports, he, bind, Except.bind, pure, Except.pure]
      refine ⟨_, rfl, .inr ⟨⟨_, rfl⟩, rfl, fun r hr => ?_⟩⟩
      obtain ⟨r', hr'⟩ := hr.of_imports (hmem hy)
      exact hnone r' hr'

end DoOne
end Acton.Compile
