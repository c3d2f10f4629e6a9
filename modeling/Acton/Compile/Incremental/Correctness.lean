import Acton.Compile.Incremental.Job

/-!
# Incremental builds against builds from scratch
-/

namespace Acton.Compile
open Relation List Option Disk
variable {S I H : Type} {F : Frontend S I H} {Ps : Set (ModName → Option S)}
  {d d₀ d₁ : Disk S I H} {m x : ModName} {l : Loop S I H}

/-- What holds in a build between two turns of the scheduler. -/
structure BuildInv (F : Frontend S I H) (d₀ : Disk S I H) (l : Loop S I H) (d : Disk S I H) :
    Prop where
  files : d.files = d₀.files
  clock : d₀.clock ≤ d.clock
  tyTime : ∀ x ty t, d.tys.lookup x = some (ty, t) → t ≤ d.clock
  orphans : d.NoOrphans F
  env : ∀ x, l.envAcc x ≠ none → (l.res (projKey x)).isSome
  res : ∀ x h, l.res (projKey x) = some h → ∃ ty r t, Records F d₀.source x ty r ∧ r.hash = h ∧
    l.envAcc x = some r.iface ∧ d.tys.lookup x = some (ty, t)
  other : ∀ x, l.res (projKey x) = none → d.tys.lookup x = d₀.tys.lookup x
  failed : ∀ x, l.Failed (projKey x) → ∀ r, ¬ Compiled F d₀.source x r
  snap : ∀ rn ∈ l.running, ∃ x, rn.key = projKey x ∧ d₀.source x ≠ none ∧
    Snap F d₀.source x rn.envSnap rn.ifaceMap

namespace BuildInv

lemma source_eq (h : BuildInv F d₀ l d) : d.source = d₀.source := by
  funext y
  rw [source, source, h.files]

variable [DecidableEq H] (ctx : BuildCtx F Ps d₀)
include ctx

lemma init : BuildInv F d₀ (.init (globalTasks F d₀) Map.empty) d₀ where
  files := rfl
  clock := le_rfl
  tyTime := ctx.valid.tyTime
  orphans := ctx.noOrphans
  env x hx := absurd rfl hx
  res x h hx := by simp [Loop.init, Map.empty] at hx
  other x _ := rfl
  failed x hx := by
    obtain ⟨e, he⟩ := hx
    simp [Loop.init] at he
  snap rn hrn := by simp [Loop.init] at hrn

/-- Started jobs get the outcomes of their imports. -/
theorem scheduleMore (hl : l.Inv (globalTasks F d₀)) (h : BuildInv F d₀ l d) (maxPar : ℕ)
    (cw : TaskKey → ℤ) : BuildInv F d₀ (l.scheduleMore maxPar cw) d where
  files := h.files
  clock := h.clock
  tyTime := h.tyTime
  orphans := h.orphans
  env := h.env
  res := h.res
  other := h.other
  failed x hx := h.failed x ((Loop.failed_scheduleMore maxPar cw l).mp hx)
  snap := by
    intro rn hrn
    rcases mem_append.mp hrn with hrn | hrn
    · obtain ⟨k, hk, rfl⟩ := mem_map.mp hrn
      have hrdy : k ∈ l.started ++ l.rdy := mem_append_right _
        ((l.toStart_append_rdy maxPar cw).mem_iff.mp (mem_append_left _ hk))
      obtain ⟨x, hx, rfl⟩ := ctx.mem_nonBuiltinKeys.mp (hl.keys k hrdy)
      refine ⟨x, rfl, hx, fun y hxy hy => ?_, fun y hy => ?_⟩
      · -- what the module imports has succeeded
        have hdone := hl.transDeps_done hrdy (ctx.transGen_dependsOn_of_imports hxy hy)
        obtain ⟨h', hh'⟩ := isSome_iff_exists.mp hdone
        obtain ⟨ty, r, t, hrec, hhash, henv, -⟩ := h.res y h' hh'
        exact ⟨r, hrec.compiled, hhash ▸ hh', henv⟩
      · have hstarted := (hl.started_iff (projKey y)).mpr (.inr (.inl (h.env y hy)))
        obtain ⟨z, hz, heq⟩ := ctx.mem_nonBuiltinKeys.mp
          (hl.keys _ (mem_append_left _ hstarted))
        rwa [projKey_inj.mp heq]
    · exact h.snap rn hrn

end BuildInv
variable {d' : Disk S I H}

/-- Looking hashes up and booking a job leaves no orphan behind. -/
theorem Disk.NoOrphans.of_cache (h : d.NoOrphans F) (hfiles : d'.files = d.files)
    (hty : ∀ y, d.source y = none → d'.ty y = d.ty y)
    (hcache : ∀ y, d.source y = none → d'.cache y = d.cache y ∨
      d.cache y = none ∧ d'.cache y = getIfaceHashCached F d y) : d'.NoOrphans F := by
  have hsource : d'.source = d.source := by
    funext y
    rw [source, source, hfiles]
  intro m x himp hx
  rw [hsource] at himp hx
  obtain ⟨hnone, hhash⟩ := h m x himp hx
  refine ⟨(hty x hx).trans hnone, ?_⟩
  rcases hcache x hx with heq | ⟨hold, heq⟩
  · rw [← hhash]
    simp [getIfaceHashCached, heq, hty x hx]
  · rw [hhash] at heq
    simp only [getIfaceHashCached, heq, hty x hx, hnone]
    cases hext : F.extHash x with
    | some h => rfl
    | none => exact hext

section Job
variable {i : ℕ} {tasks : List (GlobalTask S H)}

lemma BuildInv.fail (h : BuildInv F d₀ l d) (hcache : LookedUp F d d₁) (e : Diag)
    (hnot : ∀ r, ¬ Compiled F d₀.source x r) :
    BuildInv F d₀ ((l.complete i).fail tasks (projKey x) e) d₁ := by
  obtain ⟨hfiles, htys, hclock, hcache⟩ := hcache
  constructor
  case files => exact hfiles.trans h.files
  case clock => exact hclock ▸ h.clock
  case tyTime => rw [htys, hclock]; exact h.tyTime
  case orphans =>
    exact h.orphans.of_cache hfiles (fun y _ => by rw [ty, ty, htys]) fun y _ => hcache y
  case env => exact h.env
  case res => rw [htys]; exact h.res
  case other => rw [htys]; exact h.other
  case failed =>
    intro y hy
    have hcases : l.Failed (projKey y) ∨ projKey y = projKey x := by
      simpa [Loop.Failed, Loop.fail, Loop.complete, exists_or] using hy
    rcases hcases with hy | hy
    · exact h.failed y hy
    · rwa [projKey_inj.mp hy]
  case snap => exact fun rn hrn => h.snap rn (mem_of_mem_eraseIdx hrn)

lemma BuildInv.succeed {ty : TyFile I H} {r : Rec I H} {fr : FrontResult S I H}
    (h : BuildInv F d₀ l d) (hx : d₀.source x ≠ none) (hrec : Records F d₀.source x ty r)
    (hiface : fr.frIfaceTE = r.iface) (hhash : fr.frIfaceHash = r.hash)
    (hfiles : d'.files = d.files) (hclock : d.clock ≤ d'.clock)
    (hown : ∃ t ≤ d'.clock, d'.tys.lookup x = some (ty, t))
    (htys : ∀ y ≠ x, d'.tys.lookup y = d.tys.lookup y) (hcache : ∀ y ≠ x, d'.cache y = d.cache y ∨
      d.cache y = none ∧ d'.cache y = getIfaceHashCached F d y) :
    BuildInv F d₀ ((l.complete i).succeed tasks (projKey x) fr) d' := by
  obtain ⟨t, ht, hown⟩ := hown
  have hne {y} (hy : y ≠ x) : projKey y ≠ projKey x := fun heq => hy (projKey_inj.mp heq)
  have hres {y} (hy : y ≠ x) :
      ((l.complete i).succeed tasks (projKey x) fr).res (projKey y) = l.res (projKey y) :=
    Map.insert_of_ne (hne hy) _ _
  have hresx : ((l.complete i).succeed tasks (projKey x) fr).res (projKey x) = some r.hash := by
    simp [Loop.succeed, hhash]
  have henv {y} (hy : y ≠ x) :
      ((l.complete i).succeed tasks (projKey x) fr).envAcc y = l.envAcc y :=
    Map.insert_of_ne hy _ _
  have henvx : ((l.complete i).succeed tasks (projKey x) fr).envAcc x = some r.iface := by
    simp [Loop.succeed, projKey, hiface]
  constructor
  case files => exact hfiles.trans h.files
  case clock => exact h.clock.trans hclock
  case tyTime =>
    intro y ty' t' hy
    by_cases hyx : y = x
    · subst hyx
      rw [hown] at hy
      obtain ⟨-, rfl⟩ := Prod.mk.inj (some.inj hy)
      exact ht
    · rw [htys y hyx] at hy
      exact (h.tyTime y ty' t' hy).trans hclock
  case orphans =>
    have hsource : d.source x ≠ none := h.source_eq ▸ hx
    have hyx {y} (hy : d.source y = none) : y ≠ x := fun heq => hsource (heq ▸ hy)
    refine h.orphans.of_cache hfiles (fun y hy => ?_) fun y hy => hcache y (hyx hy)
    rw [Disk.ty, Disk.ty, htys y (hyx hy)]
  case env =>
    intro y hy
    by_cases hyx : y = x
    · subst hyx
      simp [hresx]
    · rw [henv hyx] at hy
      rw [hres hyx]
      exact h.env y hy
  case res =>
    intro y h' hy
    by_cases hyx : y = x
    · subst hyx
      exact ⟨ty, r, t, hrec, mem_unique hresx hy, henvx, hown⟩
    · rw [hres hyx] at hy
      rw [henv hyx, htys y hyx]
      exact h.res y h' hy
  case other =>
    intro y hy
    by_cases hyx : y = x
    · subst hyx
      simp [hresx] at hy
    · rw [hres hyx] at hy
      rw [htys y hyx]
      exact h.other y hy
  case failed =>
    intro y hy
    refine h.failed y ?_
    simpa [Loop.Failed, Loop.succeed, Loop.complete] using hy
  case snap => exact fun rn hrn => h.snap rn (mem_of_mem_eraseIdx hrn)

end Job

lemma BuildInv.valid (ctx : BuildCtx F Ps d₀) (h : BuildInv F d₀ l d) : d.Valid F Ps where
  nodup := h.files ▸ ctx.valid.nodup
  actTime x src t hx := by
    rw [h.files] at hx
    exact (ctx.valid.actTime x src t hx).trans h.clock
  tyTime := h.tyTime
  records x ty t hx := by
    cases hres : l.res (projKey x) with
    | none =>
      rw [h.other x hres] at hx
      exact ctx.valid.records x ty t hx
    | some h' =>
      obtain ⟨ty', r, t', hrec, -, -, hty⟩ := h.res x h' hres
      obtain ⟨rfl, rfl⟩ := Prod.mk.inj (mem_unique hx hty)
      exact ⟨_, ctx.mem, r, hrec⟩
  fresh x src ta ty t hsrc hx hlt := by
    rw [h.files] at hsrc
    cases hres : l.res (projKey x) with
    | none =>
      rw [h.other x hres] at hx
      exact ctx.valid.fresh x src ta ty t hsrc hx hlt
    | some h' =>
      obtain ⟨ty', r, t', hrec, -, -, hty⟩ := h.res x h' hres
      obtain ⟨rfl, rfl⟩ := Prod.mk.inj (mem_unique hx hty)
      obtain ⟨src', hsrc', hhash⟩ := hrec.srcHash_eq
      rw [source_eq_some_iff.mpr ⟨ta, hsrc⟩] at hsrc'
      rw [hhash, some.inj hsrc']

lemma Disk.lookup_tys_removeOrphanFiles :
    d.removeOrphanFiles.tys.lookup x = if d.source x ≠ none then d.tys.lookup x else none := by
  refine (lookup_filter_fst (fun y => (d.files.lookup y).isSome) d.tys x).trans ?_
  simp only [lookup_files_isSome]

lemma Disk.Valid.removeOrphanFiles (h : d.Valid F Ps) : d.removeOrphanFiles.Valid F Ps := by
  have hsub {x ty t} (hx : d.removeOrphanFiles.tys.lookup x = some (ty, t)) :
      d.tys.lookup x = some (ty, t) := by
    rw [lookup_tys_removeOrphanFiles] at hx
    split at hx
    · exact hx
    · simp at hx
  exact ⟨h.nodup, h.actTime, fun x ty t hx => h.tyTime x ty t (hsub hx),
    fun x ty t hx => h.records x ty t (hsub hx),
    fun x src ta ty t hsrc hx => h.fresh x src ta ty t hsrc (hsub hx)⟩

lemma Disk.Valid.empty : (Disk.empty : Disk S I H).Valid F Ps :=
  ⟨nodup_nil, fun _ _ _ h => by simp [Disk.empty] at h,
    fun _ _ _ h => by simp [Disk.empty] at h, fun _ _ _ h => by simp [Disk.empty] at h,
    fun _ _ _ _ _ h => by simp [Disk.empty] at h⟩

lemma Disk.Valid.edit (h : d.Valid F Ps) (m : ModName) (src : S) : (d.edit m src).Valid F Ps := by
  refine ⟨nodup_map_fst_insertKey _ _ h.nodup, fun x src' t hx => ?_,
    fun x ty t hx => (h.tyTime x ty t hx).trans (Nat.le_succ _), h.records,
    fun x src' ta ty t hsrc hx hlt => ?_⟩
  · rw [Disk.edit, lookup_insertKey] at hx
    split at hx
    · obtain ⟨-, rfl⟩ := Prod.mk.inj (some.inj hx)
      exact le_rfl
    · exact (h.actTime x src' t hx).trans (Nat.le_succ _)
  · rw [Disk.edit, lookup_insertKey] at hsrc
    split at hsrc
    · -- the edit is newer than every interface file
      obtain ⟨-, rfl⟩ := Prod.mk.inj (some.inj hsrc)
      have := h.tyTime x ty t hx
      omega
    · exact h.fresh x src' ta ty t hsrc hx hlt

lemma Disk.Valid.delete (h : d.Valid F Ps) (m : ModName) : (d.delete m).Valid F Ps := by
  have hsub {x p} (hx : (d.delete m).files.lookup x = some p) : d.files.lookup x = some p := by
    have hfilter := lookup_filter_fst (fun y => decide (y ≠ m)) d.files x
    rw [Disk.delete, hfilter] at hx
    split at hx
    · exact hx
    · simp at hx
  exact ⟨h.nodup.sublist (filter_sublist.map _), fun x src t hx => h.actTime x src t (hsub hx),
    h.tyTime, h.records, fun x src ta ty t hsrc => h.fresh x src ta ty t (hsub hsrc)⟩

variable [DecidableEq H]

/-- What holds at every point of a build. -/
def BuildState.Inv (F : Frontend S I H) (d₀ : Disk S I H) : Progress S I H × Disk S I H → Prop
  | (p, d) => p.Inv (globalTasks F d₀) ∧ BuildInv F d₀ p.state d

/-- What a turn of the scheduler does in a build of `d₀`, from the arguments `l` and the disk
`d`. -/
inductive Turn (F : Frontend S I H) (d₀ : Disk S I H) (maxPar : ℕ) (cw : TaskKey → ℤ)
    (l : Loop S I H) (d : Disk S I H) : Progress S I H → Disk S I H → Prop
  | finish (b : Bool) : Turn F d₀ maxPar cw l d (.finished (l.scheduleMore maxPar cw) b) d
  | fail {x i e d'} (hcache : LookedUp F d d') (hnot : ∀ r, ¬ Compiled F d₀.source x r) :
      Turn F d₀ maxPar cw l d (.looping
        (((l.scheduleMore maxPar cw).complete i).fail (globalTasks F d₀) (projKey x) e)) d'
  | succeed {x i ty r fr d'} (hx : d₀.source x ≠ none) (hopen : l.res (projKey x) = none)
      (hrec : Records F d₀.source x ty r) (hiface : fr.frIfaceTE = r.iface)
      (hhash : fr.frIfaceHash = r.hash) (hfiles : d'.files = d.files) (hclock : d.clock ≤ d'.clock)
      (hown : ∃ t ≤ d'.clock, d'.tys.lookup x = some (ty, t))
      (htys : ∀ y ≠ x, d'.tys.lookup y = d.tys.lookup y)
      (hcache : ∀ y ≠ x, d'.cache y = d.cache y ∨
        d.cache y = none ∧ d'.cache y = getIfaceHashCached F d y)
      (hjob : (∃ src, d₀.source x = some src ∧ fr.frBackJob = some ⟨src, r.env⟩) ∨
        fr.frBackJob = none ∧ d'.tys.lookup x = d.tys.lookup x) :
      Turn F d₀ maxPar cw l d (.looping
        (((l.scheduleMore maxPar cw).complete i).succeed (globalTasks F d₀) (projKey x) fr)) d'

variable {cw : TaskKey → ℤ} {maxPar : ℕ}

/-- Every turn of a build is of this kind. -/
theorem BuildState.Inv.turn (ctx : BuildCtx F Ps d₀) {p : Progress S I H}
    (h : BuildState.Inv F d₀ (.looping l, d))
    (hstep : BuildStep F (globalTasks F d₀) maxPar cw (.looping l, d) (p, d')) :
    Turn F d₀ maxPar cw l d p d' := by
  obtain ⟨hl, hb⟩ := h
  cases hstep with
  | finish hrun hloop =>
    rcases loop_cases hloop with ⟨-, -, rfl⟩ | ⟨r, hr, -⟩
    · exact .finish _
    · simp [hrun] at hr
  | @job _ _ d₁ i r _ hr hloop hcache =>
    have hb1 := hb.scheduleMore ctx hl maxPar cw
    have hl1 := Loop.Inv.scheduleMore maxPar cw hl
    obtain ⟨x, hkey, hx, hsnap⟩ := hb1.snap r (mem_of_getElem? hr)
    have hopen := (hl1.running_open r.key
      ((Loop.runningKeys_complete hr).mem_iff.mp mem_cons_self)).1
    have hmod : r.key.tkMod = x := by rw [hkey]; rfl
    rw [hmod] at hloop ⊢
    rw [hkey] at hopen ⊢
    have hsource := hb.source_eq
    obtain ⟨done, hdone, hmeets⟩ := ctx.doOne_meets hb.files (hb1.other x hopen) hb.orphans
      (hsource ▸ hsnap) (hsource ▸ hx)
    rw [← hkey] at hdone
    obtain rfl := some.inj ((loop_of_doOne hr hdone).symm.trans hloop)
    rw [hkey] at hdone ⊢
    rw [hdone]
    rcases hmeets with ⟨ty, rc, fr, hrec, hok, hiface, hhash, hwrote⟩ | ⟨⟨e, he⟩, hwrote, hnot⟩
    · rw [hsource] at hrec hwrote
      simp only [hok, book]
      obtain ⟨hfiles, htys, hclock, hcache⟩ := hcache
      have hinsert {y} (hy : y ≠ x) (c : Map ModName H) : c.insert x fr.frIfaceHash y = c y :=
        Map.insert_of_ne hy _ _
      rcases hwrote with ⟨src, hsrc, hwrote, hjob⟩ | ⟨hty, hwrote, hjob⟩
      · -- the interface file is new
        rw [hwrote]
        refine .succeed hx hopen hrec hiface hhash hfiles ?_ ⟨d₁.clock + 1, le_rfl, ?_⟩ ?_ ?_
          (.inl ⟨src, hsrc, hjob⟩)
        · simp [writeTy, hclock]
        · simp [writeTy, lookup_insertKey]
        · intro y hy
          simp [writeTy, lookup_insertKey, hy, htys]
        · intro y hy
          simp only [writeTy, hinsert hy]
          exact hcache y
      · -- the interface file stays
        rw [hwrote]
        obtain ⟨t, ht⟩ := ty_eq_some_iff.mp hty
        refine .succeed hx hopen hrec hiface hhash hfiles hclock.ge ⟨t, ?_, ?_⟩ ?_ ?_
          (.inr ⟨hjob, by rw [htys]⟩)
        · rw [hclock]
          exact hb.tyTime x ty t ht
        · rw [htys]
          exact ht
        · intro y hy
          rw [htys]
        · intro y hy
          simp only [hinsert hy]
          exact hcache y
    · simp only [he, hwrote, book]
      exact .fail hcache (hsource ▸ hnot)

lemma BuildStep.exists_looping {tasks : List (GlobalTask S H)} {p p' : Progress S I H}
    (h : BuildStep F tasks maxPar cw (p, d) (p', d')) :
    ∃ l, p = .looping l ∧ Step tasks maxPar cw p p' := by
  cases h with
  | job hr hloop _ | finish _ hloop => exact ⟨_, rfl, _, _, _, rfl, hloop⟩

section
variable (ctx : BuildCtx F Ps d₀)
include ctx

lemma BuildState.Inv.step {s s' : Progress S I H × Disk S I H} (h : BuildState.Inv F d₀ s)
    (hstep : BuildStep F (globalTasks F d₀) maxPar cw s s') : BuildState.Inv F d₀ s' := by
  obtain ⟨p, d⟩ := s
  obtain ⟨p', d'⟩ := s'
  obtain ⟨l, rfl, hturn⟩ := hstep.exists_looping
  refine ⟨h.1.step (g := ctx.graph) hturn, ?_⟩
  have hb := h.2.scheduleMore ctx h.1 maxPar cw
  cases h.turn ctx hstep with
  | finish b => exact hb
  | fail hcache hnot => exact hb.fail hcache _ hnot
  | succeed hx _ hrec hiface hhash hfiles hclock hown htys hcache _ =>
    exact hb.succeed hx hrec hiface hhash hfiles hclock hown htys hcache

lemma BuildState.Inv.run {s : Progress S I H × Disk S I H}
    (hrun : ReflTransGen (BuildStep F (globalTasks F d₀) maxPar cw)
      (.looping (.init (globalTasks F d₀) Map.empty), d₀) s) :
    BuildState.Inv F d₀ s := by
  induction hrun with
  | refl => exact ⟨Loop.Inv.init ctx.nodup_keys _, BuildInv.init ctx⟩
  | tail _ hstep ih => exact ih.step ctx hstep

/-- At the end of a build the modules that compile have succeeded. -/
theorem res_isSome_iff (hl : l.Inv (globalTasks F d₀)) (hpend : l.pend = []) (h : BuildInv F d₀ l d)
    (hx : d₀.source x ≠ none) : (l.res (projKey x)).isSome ↔ ∃ r, Compiled F d₀.source x r := by
  constructor
  · intro hres
    obtain ⟨h', hh'⟩ := isSome_iff_exists.mp hres
    obtain ⟨ty, r, t, hrec, -⟩ := h.res x h' hh'
    exact ⟨r, hrec.compiled⟩
  · rintro ⟨r, hr⟩
    by_contra hnone
    rw [not_isSome_iff_eq_none] at hnone
    -- a module that is neither done nor pending has failed or imports one that has failed
    have hnot := mt (hl.pend_iff (projKey x)).mpr (by simp [hpend])
    refine hnot ⟨ctx.mem_nonBuiltinKeys.mpr ⟨x, hx, rfl⟩, hnone, fun hf => h.failed x hf r hr, ?_⟩
    rintro ⟨f, hf, hxf⟩
    obtain ⟨x', y, hx', rfl, hxy⟩ := ctx.transGen_dependsOn hxf
    obtain rfl := projKey_inj.mp hx'
    obtain ⟨r', hr'⟩ := hr.of_transImports hxy
    exact h.failed y hf r' hr'

/-- The outcome of a complete build: the modules that compile have succeeded, with their hashes
and records, and the disk is valid again. -/
theorem CompleteBuild.spec (h : CompleteBuild F d₀ l d') : d'.Valid F Ps ∧ ∀ x, d₀.source x ≠ none →
      ((l.res (projKey x)).isSome ↔ ∃ r, Compiled F d₀.source x r) ∧
      ∀ h, l.res (projKey x) = some h →
        ∃ ty r, Records F d₀.source x ty r ∧ r.hash = h ∧ d'.ty x = some ty := by
  obtain ⟨maxPar, cw, b, d₁, prune, hpar, hrun, rfl⟩ := h
  obtain ⟨⟨hl, -, hpend, -⟩, hb⟩ := BuildState.Inv.run ctx hrun
  have hty : (if prune && !b then d₁.removeOrphanFiles else d₁).Valid F Ps ∧
      ∀ x, d₀.source x ≠ none →
        (if prune && !b then d₁.removeOrphanFiles else d₁).ty x = d₁.ty x := by
    split
    · refine ⟨(hb.valid ctx).removeOrphanFiles, fun x hx => ?_⟩
      rw [ty, lookup_tys_removeOrphanFiles, if_pos (hb.source_eq ▸ hx), ty]
    · exact ⟨hb.valid ctx, fun _ _ => rfl⟩
  refine ⟨hty.1, fun x hx => ⟨res_isSome_iff ctx hl hpend hb hx, fun h' hres => ?_⟩⟩
  obtain ⟨ty, r, t, hrec, hhash, -, hlookup⟩ := hb.res x h' hres
  exact ⟨ty, r, hrec, hhash, (hty.2 x hx).trans (ty_eq_some_iff.mpr ⟨t, hlookup⟩)⟩

end

/-- The condition on the disk at the start of each build of a history. -/
def BuildOk (F : Frontend S I H) (Ps : Set (ModName → Option S)) (d : Disk S I H) : Prop :=
  d.source ∈ Ps ∧ d.NoOrphans F

lemma Reachable.valid (hclean : Clean F Ps) (h : Reachable F (BuildOk F Ps) d) : d.Valid F Ps := by
  induction h with
  | empty => exact .empty
  | edit m src _ ih => exact ih.edit m src
  | delete m _ ih => exact ih.delete m
  | restart _ ih => exact ⟨ih.nodup, ih.actTime, ih.tyTime, ih.records, ih.fresh⟩
  | build _ hok hbuild ih => exact (hbuild.spec ⟨hclean, hok.1, ih, hok.2⟩).1

lemma BuildCtx.exists_completeBuild (ctx : BuildCtx F Ps d₀) : ∃ l d', CompleteBuild F d₀ l d' := by
  have hrun : ∀ p : Progress S I H, p.Inv (globalTasks F d₀) → ∀ d, ∃ l b d',
      ReflTransGen (BuildStep F (globalTasks F d₀) 1 fun _ => 0) (p, d) (.finished l b, d') := by
    intro p hp
    have hacc : Acc (fun p' p => Step ctx.graph.tasks 1 (fun _ => 0) p p') p := acc_step hp
    induction hacc with
    | intro p _ ih =>
      intro d
      cases p with
      | finished l b => exact ⟨l, b, d, .refl⟩
      | crashed l e => exact hp.elim
      | looping l =>
        -- there is a turn, in which the first running job completes if there is one
        obtain ⟨p', d', hstep, hturn⟩ : ∃ p' d',
            BuildStep F (globalTasks F d₀) 1 (fun _ => 0) (.looping l, d) (p', d') ∧
              Step (globalTasks F d₀) 1 (fun _ => 0) (.looping l) p' := by
          cases hrun : (l.scheduleMore 1 fun _ => 0).running with
          | nil =>
            obtain ⟨p', hp'⟩ := exists_turn (g := ctx.graph) le_rfl l (world F d [])
            exact ⟨p', d, .finish hrun hp', l, 0, _, rfl, hp'⟩
          | cons r rs =>
            obtain ⟨p', hp'⟩ := exists_turn (g := ctx.graph) le_rfl l (world F d r.key.tkMod)
            exact ⟨p', _, .job (by rw [hrun]; rfl) hp' (.refl d), l, 0, _, rfl, hp'⟩
        obtain ⟨l', b, d'', hrest⟩ := ih p' hturn (hp.step (g := ctx.graph) hturn) d'
        exact ⟨l', b, d'', .head hstep hrest⟩
  obtain ⟨l, b, d', h⟩ := hrun (.looping (.init (globalTasks F d₀) Map.empty))
    (Loop.Inv.init ctx.nodup_keys _) d₀
  exact ⟨l, d', 1, fun _ => 0, b, d', false, le_rfl, h, rfl⟩

omit [DecidableEq H] in
/-- A build from scratch starts from a disk that meets the conditions, too. -/
theorem BuildCtx.scratch (ctx : BuildCtx F Ps d₀) : BuildCtx F Ps d₀.scratch where
  clean := ctx.clean
  mem := ctx.mem
  valid := ⟨ctx.valid.nodup, ctx.valid.actTime, fun _ _ _ h => by simp [Disk.scratch] at h,
    fun _ _ _ h => by simp [Disk.scratch] at h, fun _ _ _ _ _ _ h => by simp [Disk.scratch] at h⟩
  noOrphans := fun _ _ _ _ => ⟨rfl, rfl⟩

/-- In a history in which every build meets the conditions, a build runs to its end, and it has
the outcome of a build from scratch on the same files: the same modules succeed, with the same
interface hash and the same interface file. -/
theorem incremental_build_correct (hclean : Clean F Ps) (hd : Reachable F (BuildOk F Ps) d)
    (hok : BuildOk F Ps d) :
    (∃ l d', CompleteBuild F d l d') ∧
    ∀ l d' l₀ d₀', CompleteBuild F d l d' → CompleteBuild F d.scratch l₀ d₀' →
      ∀ m, d.source m ≠ none → ((l.res (projKey m)).isSome ↔ (l₀.res (projKey m)).isSome) ∧
        ((l.res (projKey m)).isSome →
          l.res (projKey m) = l₀.res (projKey m) ∧ d'.ty m = d₀'.ty m ∧ (d'.ty m).isSome) := by
  have ctx : BuildCtx F Ps d := ⟨hclean, hok.1, hd.valid hclean, hok.2⟩
  refine ⟨ctx.exists_completeBuild, fun l d' l₀ d₀' hbuild hscratch m hm => ?_⟩
  obtain ⟨hiff, hres⟩ := (hbuild.spec ctx).2 m hm
  obtain ⟨hiff0, hres0⟩ := (hscratch.spec ctx.scratch).2 m hm
  refine ⟨hiff.trans hiff0.symm, fun hsome => ?_⟩
  obtain ⟨h, hh⟩ := isSome_iff_exists.mp hsome
  obtain ⟨h0, hh0⟩ := isSome_iff_exists.mp (hiff0.mpr (hiff.mp hsome))
  obtain ⟨ty, r, hrec, hhash, hty⟩ := hres h hh
  obtain ⟨ty0, r0, hrec0, hhash0, hty0⟩ := hres0 h0 hh0
  refine ⟨?_, ?_, by simp [hty]⟩
  · rw [hh, hh0, ← hhash, ← hhash0, hrec.compiled.unique hrec0.compiled]
  · rw [hty, hty0, hrec.unique hrec0]

section Example

/-- The modules of the example project. -/
def modA : ModName := [.name "a"]

@[inherit_doc modA]
def modB : ModName := [.name "b"]

/-- A front end for sources that are numbers: source `0` imports nothing and every other source
imports `b`. Every source checks, and the interface of a module tells whether it is `a`. -/
def exampleFrontend : Frontend ℕ Bool ℕ where
  parse src := some (if src = 0 then [] else [⟨modB, false⟩])
  check m _ _ := some (m = modA)
  exportsName _ := true
  ext := Map.empty
  hash := id
  hashIface i hs := Encodable.encode (i, hs)
  emptyIface := false
  emptyHash := 0
  parse_imports src imps h imp himp := by
    obtain ⟨⟩ := h
    split at himp
    · simp at himp
    · obtain rfl := mem_singleton.mp himp
      decide
  hash_inj h := h
  hashIface_inj h := Prod.mk.inj (Encodable.encode_injective h)

/-- A project in which `a` imports `b`. -/
def exampleDisk : Disk ℕ Bool ℕ := (Disk.empty.edit modB 0).edit modA 1

/-- The disk after a build of the project and the deletion of `b`. -/
def orphanDisk : Disk ℕ Bool ℕ :=
  (((runBuild exampleFrontend exampleDisk true).map Prod.snd).getD .empty).delete modB

variable {P : ModName → Option ℕ}

lemma imports_exampleFrontend (h : Imports exampleFrontend P m x) :
    x = modB ∧ ∃ n, P m = some (n + 1) := by
  obtain ⟨src, imps, hsrc, hparse, imp, himp, rfl⟩ := h
  obtain ⟨⟩ := hparse
  split at himp
  · simp at himp
  · obtain rfl := mem_singleton.mp himp
    exact ⟨rfl, src - 1, by rw [hsrc]; congr; omega⟩

lemma acyclic_exampleFrontend (hP : P modB = none ∨ P modB = some 0) :
    ∀ m, ¬ TransGen (Imports exampleFrontend P) m m := by
  intro m h
  obtain ⟨_, -, hlast⟩ := TransGen.tail'_iff.mp h
  obtain ⟨_, hfirst, -⟩ := TransGen.head'_iff.mp h
  obtain ⟨n, hn⟩ := (imports_exampleFrontend hfirst).2
  rw [(imports_exampleFrontend hlast).1] at hn
  rcases hP with hP | hP <;> simp [hP] at hn

lemma compiled_exampleFrontend {r : Rec Bool ℕ} (h : Compiled exampleFrontend P m r) :
    P m ≠ none ∧ r.iface = decide (m = modA) ∧
      ∃ hs : List ℕ, r.hash = Encodable.encode (r.iface, hs) := by
  cases h with
  | ext _ hext => simp [exampleFrontend, Map.empty] at hext
  | src recs hfile _ _ _ hcheck =>
    obtain ⟨⟩ := hcheck
    exact ⟨by simp [hfile], rfl, _, rfl⟩

/-- The sources of the example: `b` imports nothing, and there may be `a`. -/
def exampleSources : Set (ModName → Option ℕ) :=
  {P | P modB = some 0 ∧ ∀ m, P m ≠ none → m = modA ∨ m = modB}

lemma source_exampleDisk_mem : exampleDisk.source ∈ exampleSources := by
  refine ⟨rfl, fun m h => ?_⟩
  rw [source_ne_none_iff] at h
  simpa [exampleDisk, edit, empty, insertKey, modA, modB] using h

lemma clean_example : Clean exampleFrontend exampleSources where
  acyclic P hP := acyclic_exampleFrontend (.inr hP.1)
  exports := by
    rintro P - m src imps - hparse imp himp hstar
    obtain ⟨⟩ := hparse
    split at himp
    · simp at himp
    · obtain rfl := mem_singleton.mp himp
      simp at hstar
  distinct := by
    rintro P hP P' hP' m m' r r' h h' hhash
    obtain ⟨hm, hi, hs, heq⟩ := compiled_exampleFrontend h
    obtain ⟨hm', hi', hs', heq'⟩ := compiled_exampleFrontend h'
    rw [heq, heq'] at hhash
    have hiface := (Prod.mk.inj (Encodable.encode_injective hhash)).1
    rw [hi, hi'] at hiface
    rcases hP.2 m hm with rfl | rfl <;> rcases hP'.2 m' hm' with rfl | rfl
    · rfl
    · simp [modA, modB] at hiface
    · simp [modA, modB] at hiface
    · rfl
  internal := by
    rintro P hP m hm
    rcases hP.2 m hm with rfl | rfl <;> exact ⟨rfl, by decide⟩

/-- Only `b` is imported, and it has a source. -/
lemma buildOk_exampleSources {d : Disk ℕ Bool ℕ} (hd : d.source ∈ exampleSources) :
    BuildOk exampleFrontend exampleSources d := by
  refine ⟨hd, fun m x himp hx => ?_⟩
  rw [(imports_exampleFrontend himp).1, hd.1] at hx
  cases hx

lemma buildOk_example : BuildOk exampleFrontend exampleSources exampleDisk :=
  buildOk_exampleSources source_exampleDisk_mem

/-- The disk after a build of the project. -/
def builtDisk : Disk ℕ Bool ℕ :=
  ((runBuild exampleFrontend exampleDisk true).map Prod.snd).getD .empty

/-- Build the project, change `a` and build it again. -/
theorem incremental_build_correct_example :
    (∃ l d', CompleteBuild exampleFrontend (builtDisk.edit modA 2) l d') ∧
    ∀ l d' l₀ d₀', CompleteBuild exampleFrontend (builtDisk.edit modA 2) l d' →
      CompleteBuild exampleFrontend (builtDisk.edit modA 2).scratch l₀ d₀' →
      ((l.res (projKey modA)).isSome ↔ (l₀.res (projKey modA)).isSome) ∧
        ((l.res (projKey modB)).isSome ↔ (l₀.res (projKey modB)).isSome) := by
  obtain ⟨l₁, hl₁⟩ : ∃ l, runBuild exampleFrontend exampleDisk true = some (l, builtDisk) :=
    ⟨_, rfl⟩
  have hreach : Reachable exampleFrontend (BuildOk exampleFrontend exampleSources)
      (builtDisk.edit modA 2) :=
    .edit modA 2 (.build (.edit modA 1 (.edit modB 0 .empty)) buildOk_example
      (completeBuild_of_runBuild hl₁))
  have hfiles : (builtDisk.edit modA 2).files.map Prod.fst = [modA, modB] := rfl
  have hsource : (builtDisk.edit modA 2).source ∈ exampleSources := by
    refine ⟨rfl, fun m h => ?_⟩
    rw [source_ne_none_iff, hfiles] at h
    simpa using h
  have h := incremental_build_correct clean_example hreach (buildOk_exampleSources hsource)
  exact ⟨h.1, fun l d' l₀ d₀' hb hs =>
    ⟨(h.2 l d' l₀ d₀' hb hs modA (by decide)).1, (h.2 l d' l₀ d₀' hb hs modB (by decide)).1⟩⟩

/-- After the deletion of a module that another one imports, an incremental build succeeds and a
build from scratch fails: the interface file of the deleted module is still found, since orphaned
files are removed only at the end of a build. -/
theorem incremental_build_orphan : ∃ d : Disk ℕ Bool ℕ, Reachable exampleFrontend
        (fun d => ∀ m, ¬ TransGen (Imports exampleFrontend d.source) m m) d ∧
      (∀ m, ¬ TransGen (Imports exampleFrontend d.source) m m) ∧ d.source modA ≠ none ∧
      ∃ l d' l₀ d₀', CompleteBuild exampleFrontend d l d' ∧
        CompleteBuild exampleFrontend d.scratch l₀ d₀' ∧
        (l.res (projKey modA)).isSome = true ∧ l₀.res (projKey modA) = none := by
  have hbuild : ∃ l, runBuild exampleFrontend exampleDisk true = some (l,
      ((runBuild exampleFrontend exampleDisk true).map Prod.snd).getD .empty) := ⟨_, rfl⟩
  obtain ⟨l1, hl1⟩ := hbuild
  refine ⟨orphanDisk, .delete modB (.build (.edit modA 1 (.edit modB 0 .empty))
      (acyclic_exampleFrontend (.inr rfl)) (completeBuild_of_runBuild hl1)),
    acyclic_exampleFrontend (.inl rfl), by decide, ?_⟩
  have hinc : (runBuild exampleFrontend orphanDisk true).map
      (fun p => (p.1.res (projKey modA)).isSome) = some true := rfl
  have hscratch : (runBuild exampleFrontend orphanDisk.scratch true).map
      (fun p => p.1.res (projKey modA)) = some none := rfl
  obtain ⟨⟨l, d'⟩, hrun, hsome⟩ := map_eq_some_iff.mp hinc
  obtain ⟨⟨l₀, d₀'⟩, hrun0, hnone⟩ := map_eq_some_iff.mp hscratch
  exact ⟨l, d', l₀, d₀', completeBuild_of_runBuild hrun, completeBuild_of_runBuild hrun0, hsome,
    hnone⟩

end Example
end Acton.Compile
