import Acton.Compile.BackQueue
import Acton.Compile.Incremental.Correctness

/-!
# What the generated files are produced from

The front end writes the interface file of a module before the back end generates its C and header
files, and later builds look only at the interface file to see whether the module is up to date.
The generated files are therefore right as long as no job of the back end is lost. A job is lost
when the next generation starts before it is done: the later build finds the module up to date and
makes no new job for it.

`backQueue_correct` states that the generated files are right in every run in which sources change
only between two runs of the front end, and a compile starts only after the jobs of the one before
it are done. `backQueue_dropped` is a run without the second condition that leaves a module without
generated files.
-/

namespace Acton.Compile
open Relation List Option
variable {S I H : Type} {F : Frontend S I H} {Ps : Set (ModName → Option S)}
  {s s' : CompileScheduler S I H} {m : ModName} {q : QueuedJob S I}
section Counts

lemma findWithDefault_incPending (g k : ℕ) (counts : Map ℕ ℕ) :
    (incPending g counts).findWithDefault 0 k
      = counts.findWithDefault 0 k + if g = k then 1 else 0 := by
  unfold incPending Map.findWithDefault Map.insertWith
  by_cases hk : g = k
  · subst hk
    cases h : counts g <;> simp [Nat.add_comm]
  · simp [hk, Ne.symm hk]

lemma findWithDefault_decPending (g k : ℕ) (counts : Map ℕ ℕ) :
    (decPending g counts).findWithDefault 0 k
      = counts.findWithDefault 0 k - if g = k then 1 else 0 := by
  unfold decPending Map.findWithDefault
  cases h : counts g with
  | none =>
    by_cases hk : g = k
    · subst hk
      simp [h]
    · simp [hk]
  | some n =>
    dsimp only
    split_ifs with hn hk hk
    · subst hk
      simp only [Map.erase_self, getD_none, h, getD_some]
      omega
    · simp [Map.erase_of_ne (Ne.symm hk)]
    · subst hk
      simp [h]
    · simp [Map.insert_of_ne (Ne.symm hk)]

end Counts
section NewJobs
variable {maxPar : ℕ} {cw : TaskKey → ℤ} {l : Loop S I H} {tasks : List (GlobalTask S H)}
  {i : ℕ} {k : TaskKey}

lemma newJobs_succeed (fr : FrontResult S I H) :
    newJobs (.looping l) (.looping (((l.scheduleMore maxPar cw).complete i).succeed tasks k fr))
      = (fr.frBackJob.map fun job => (k.tkMod, job)).toList := by
  cases h : fr.frBackJob <;>
    simp [newJobs, Progress.state, Loop.succeed, Loop.complete, Loop.trace_scheduleMore,
      Event.backJob?, filterMap_cons, h]

end NewJobs
lemma selectAffectedTasks_nil (tasks : List (GlobalTask S H)) :
    selectAffectedTasks tasks [] = tasks := by
  simp [selectAffectedTasks]

namespace CompileScheduler

/-- The generated files of `m` are those of the job that its interface file was written with, or
will be once the jobs are done. -/
def Delivers (F : Frontend S I H) (Ps : Set (ModName → Option S)) (s : CompileScheduler S I H)
    (m : ModName) (ty : TyFile I H) : Prop :=
  ∃ P ∈ Ps, ∃ r src, Records F P m ty r ∧ P m = some src ∧
    (∀ q ∈ s.jobs, q.mod = m → q.job = ⟨src, r.env⟩) ∧
    ((∀ q ∈ s.jobs, q.mod ≠ m) → s.out m = some ⟨src, r.env⟩)

/-- The counters of the queue agree with the jobs that are open. -/
def Counted (s : CompileScheduler S I H) : Prop :=
  ∀ g, s.counts.findWithDefault 0 g = s.jobs.countP fun q => q.gen = g

/-- What holds in every run that meets the conditions. -/
structure Inv [DecidableEq H] (F : Frontend S I H) (Ps : Set (ModName → Option S))
    (s : CompileScheduler S I H) : Prop where
  valid : s.disk.Valid F Ps
  front : ∀ f, s.async = some f → s.edited = false →
    f.changed = [] ∧ BuildCtx F Ps f.plan ∧ BuildState.Inv F f.plan (f.progress, s.disk)
  looping : ∀ f l, s.async = some f → f.progress = .looping l → f.gen = s.genRef ∧ s.edited = false
  counted : s.Counted
  jobs : ∀ q ∈ s.jobs, q.gen = s.genRef ∧ ∃ f, s.async = some f ∧ f.gen = s.genRef ∧
    (f.progress.state.res (projKey q.mod)).isSome
  delivers : ∀ m ty t, s.disk.tys.lookup m = some (ty, t) → s.Delivers F Ps m ty

lemma Inv.new [DecidableEq H] : (new : CompileScheduler S I H).Inv F Ps where
  valid := .empty
  front f hf := by simp [CompileScheduler.new] at hf
  looping f l hf := by simp [CompileScheduler.new] at hf
  counted g := rfl
  jobs q hq := by simp [CompileScheduler.jobs, CompileScheduler.new] at hq
  delivers m ty t hm := by simp [CompileScheduler.new, Disk.empty] at hm

end CompileScheduler

/-- A worker moves a job on, or is done with it after writing its files or finding it stale. -/
theorem SchedStep.worker_cases [DecidableEq H] (h : SchedStep F .worker s s') :
    s'.disk = s.disk ∧ s'.genRef = s.genRef ∧ s'.async = s.async ∧ s'.edited = s.edited ∧
    (s.jobs.Perm s'.jobs ∧ s'.out = s.out ∧ s'.counts = s.counts ∨
      ∃ q, s.jobs.Perm (q :: s'.jobs) ∧ s'.counts = decPending q.gen s.counts ∧
        (s'.out = s.out ∧ s.genRef ≠ q.gen ∨ s'.out = s.out.insert q.mod q.job)) := by
  cases h with
  | @take _ q hq =>
    obtain ⟨qs, hqs⟩ := head?_eq_some_iff.mp hq
    unfold CompileScheduler.take
    split
    · refine ⟨rfl, rfl, rfl, rfl, .inr ⟨q, ?_, rfl, .inl ⟨rfl, ‹_›⟩⟩⟩
      simp [CompileScheduler.jobs, hqs]
    · refine ⟨rfl, rfl, rfl, rfl, .inl ⟨?_, rfl, rfl⟩⟩
      simp only [CompileScheduler.jobs, hqs, tail_cons, cons_append, append_assoc]
      exact perm_middle.symm
  | @shouldWrite _ i q hq =>
    obtain ⟨hi, rfl⟩ := List.getElem?_eq_some_iff.mp hq
    have hperm := (getElem_cons_eraseIdx_perm hi).symm
    unfold CompileScheduler.shouldWrite
    split
    · refine ⟨rfl, rfl, rfl, rfl, .inr ⟨s.passes[i], ?_, rfl, .inl ⟨rfl, ‹_›⟩⟩⟩
      exact ((hperm.append_left s.queue).trans perm_middle).append_right s.writing
    · refine ⟨rfl, rfl, rfl, rfl, .inl ⟨?_, rfl, rfl⟩⟩
      refine ((hperm.append_left s.queue).append_right s.writing).trans ?_
      simp only [CompileScheduler.jobs, append_assoc, cons_append]
      exact (perm_middle.symm).append_left s.queue
  | @write _ i q hq =>
    obtain ⟨hi, rfl⟩ := List.getElem?_eq_some_iff.mp hq
    refine ⟨rfl, rfl, rfl, rfl, .inr ⟨s.writing[i], ?_, rfl, .inr rfl⟩⟩
    exact ((getElem_cons_eraseIdx_perm hi).symm.append_left _).trans perm_middle

namespace CompileScheduler
variable [DecidableEq H]

/-- Workers keep the invariant: no job is stale, so a job that is done has written its files. -/
theorem Inv.worker (h : s.Inv F Ps) (hstep : SchedStep F .worker s s') : s'.Inv F Ps := by
  obtain ⟨hdisk, hgen, hasync, hedited, hcases⟩ := hstep.worker_cases
  have hsub : ∀ q ∈ s'.jobs, q ∈ s.jobs := by
    intro q hq
    rcases hcases with ⟨hperm, -⟩ | ⟨q', hperm, -⟩
    · exact hperm.mem_iff.mpr hq
    · exact hperm.mem_iff.mpr (mem_cons_of_mem _ hq)
  constructor
  case valid => rw [hdisk]; exact h.valid
  case front => rw [hdisk, hasync, hedited]; exact h.front
  case looping => rw [hgen, hasync, hedited]; exact h.looping
  case counted =>
    intro g
    rcases hcases with ⟨hperm, -, hcounts⟩ | ⟨q, hperm, hcounts, -⟩
    · rw [hcounts, h.counted g, hperm.countP_eq]
    · rw [hcounts, findWithDefault_decPending, h.counted g, hperm.countP_eq, countP_cons]
      simp
  case jobs =>
    intro q hq
    rw [hgen, hasync]
    exact h.jobs q (hsub q hq)
  case delivers =>
    intro m ty t hm
    rw [hdisk] at hm
    obtain ⟨P, hP, r, src, hrec, hsrc, hopen, hdone⟩ := h.delivers m ty t hm
    refine ⟨P, hP, r, src, hrec, hsrc, fun q hq => hopen q (hsub q hq), fun hnone => ?_⟩
    rcases hcases with ⟨hperm, hout, -⟩ | ⟨q, hperm, -, hout⟩
    · rw [hout]
      exact hdone fun q hq => hnone q (hperm.mem_iff.mp hq)
    · have hq : q ∈ s.jobs := hperm.mem_iff.mpr mem_cons_self
      rcases hout with ⟨-, hstale⟩ | hout
      · exact absurd (h.jobs q hq).1.symm hstale
      · rw [hout]
        by_cases hm : m = q.mod
        · subst hm
          rw [Map.insert_self, hopen q hq rfl]
        · rw [Map.insert_of_ne hm]
          refine hdone fun q' hq' => ?_
          rcases mem_cons.mp (hperm.mem_iff.mp hq') with rfl | hq'
          · exact Ne.symm hm
          · exact hnone q' hq'

/-- With no job open, nothing is left to deliver. -/
theorem Inv.jobs_eq_nil (h : s.Inv F Ps) (hwait : s.waitDone s.genRef) : s.jobs = [] := by
  rw [waitDone, h.counted s.genRef, countP_eq_zero] at hwait
  refine eq_nil_iff_forall_not_mem.mpr fun q hq => hwait q hq ?_
  simpa using (h.jobs q hq).1

lemma Inv.edit (h : s.Inv F Ps) (hidle : s.FrontIdle) {d : Disk S I H} (hvalid : d.Valid F Ps)
    (htys : d.tys = s.disk.tys) : ({ s with disk := d, edited := true } : CompileScheduler S I
      H).Inv F Ps where
  valid := hvalid
  front f _ hedited := by simp at hedited
  looping f l hf hl := absurd hl (hidle f l hf)
  counted := h.counted
  jobs := h.jobs
  delivers m ty t hm := h.delivers m ty t (htys ▸ hm)

lemma Inv.startCompile (h : s.Inv F Ps) (hidle : s.FrontIdle) (hwait : s.waitDone s.genRef) :
    ({ s with genRef := s.genRef + 1 } : CompileScheduler S I H).Inv F Ps where
  valid := h.valid
  front := h.front
  looping f l hf hl := absurd hl (hidle f l hf)
  counted := h.counted
  jobs q hq := by
    have hnil := h.jobs_eq_nil hwait
    simp only [CompileScheduler.jobs] at hnil hq
    simp [hnil] at hq
  delivers := h.delivers

lemma Inv.run (hclean : Clean F Ps) (h : s.Inv F Ps) (hok : BuildOk F Ps s.disk)
    (hnew : ∀ f, s.async = some f → f.gen ≠ s.genRef) (maxPar : ℕ) (cw : TaskKey → ℤ) :
    (s.run F [] maxPar cw).Inv F Ps where
  valid := h.valid
  front f hf _ := by
    obtain ⟨⟩ := hf
    have ctx : BuildCtx F Ps s.disk := ⟨hclean, hok.1, h.valid, hok.2⟩
    simp only [selectAffectedTasks_nil]
    exact ⟨trivial, ctx, Loop.Inv.init ctx.nodup_keys _, BuildInv.init ctx⟩
  looping f l hf _ := by
    obtain ⟨⟩ := hf
    exact ⟨rfl, rfl⟩
  counted := h.counted
  jobs q hq := by
    -- an open job belongs to a front end of the current generation
    obtain ⟨-, f, hf, hgen, -⟩ := h.jobs q hq
    exact absurd hgen (hnew f hf)
  delivers := h.delivers

section Front
variable {f : FrontRun S I H} {p : Progress S I H} {d : Disk S I H}
  {j : Option (ModName × BackJob S I)}
omit [DecidableEq H] in
/-- A turn of the current front end that hands out at most one job. -/
theorem advance_spec (hgen : f.gen = s.genRef) (hjob : newJobs f.progress p = j.toList) :
    (s.advance f p d).disk = d ∧ (s.advance f p d).async = some { f with progress := p } ∧
    (s.advance f p d).genRef = s.genRef ∧ (s.advance f p d).edited = s.edited ∧
    (s.advance f p d).out = s.out ∧
    (s.advance f p d).jobs.Perm
      ((j.map fun e => (⟨s.genRef, e.1, e.2⟩ : QueuedJob S I)).toList ++ s.jobs) ∧
    (s.Counted → (s.advance f p d).Counted) := by
  cases j with
  | none =>
    rw [advance, hjob]
    exact ⟨rfl, rfl, rfl, rfl, rfl, .refl _, id⟩
  | some e =>
    have heq : s.advance f p d = { s with
        disk := d
        async := some { f with progress := p }
        counts := incPending s.genRef s.counts
        queue := s.queue ++ [⟨s.genRef, e.1, e.2⟩] } := by
      rw [advance, hjob]
      simp [enqueue, hgen]
    have hperm : (s.advance f p d).jobs.Perm (⟨s.genRef, e.1, e.2⟩ :: s.jobs) := by
      rw [heq]
      simp only [jobs, append_assoc, singleton_append]
      exact perm_middle
    refine ⟨by rw [heq], by rw [heq], by rw [heq], by rw [heq], by rw [heq], hperm, fun h g => ?_⟩
    rw [hperm.countP_eq, countP_cons, ← h g, heq, findWithDefault_incPending]
    simp

/-- A turn of the front end keeps the invariant if every new interface file comes with a job. -/
theorem Inv.advance (h : s.Inv F Ps) (hf : s.async = some f) (hgen : f.gen = s.genRef)
    (hedited : s.edited = false) (hchanged : f.changed = []) (ctx : BuildCtx F Ps f.plan)
    (hinv : BuildState.Inv F f.plan (p, d)) (hjob : newJobs f.progress p = j.toList)
    (hres : ∀ x, (f.progress.state.res (projKey x)).isSome → (p.state.res (projKey x)).isSome)
    (hjobs : ∀ e ∈ j, (p.state.res (projKey e.1)).isSome)
    (htys : ∀ m ty t, d.tys.lookup m = some (ty, t) →
      (∃ t', s.disk.tys.lookup m = some (ty, t')) ∧ (∀ e ∈ j, e.1 ≠ m) ∨
      ∃ r src, Records F f.plan.source m ty r ∧ f.plan.source m = some src ∧
        j = some (m, ⟨src, r.env⟩) ∧ ∀ q ∈ s.jobs, q.mod ≠ m) : (s.advance f p d).Inv F Ps := by
  obtain ⟨hdisk, hasync, hgenRef, hedit, hout, hperm, hcounted⟩ :=
    advance_spec (s := s) (d := d) hgen hjob
  have hmem {q} : q ∈ (s.advance f p d).jobs ↔
      (∃ e ∈ j, q = ⟨s.genRef, e.1, e.2⟩) ∨ q ∈ s.jobs := by
    rw [hperm.mem_iff, mem_append]
    simp [eq_comm]
  constructor
  case valid => rw [hdisk]; exact hinv.2.valid ctx
  case front =>
    intro f' hf' _
    obtain rfl := mem_unique hasync hf'
    rw [hdisk]
    exact ⟨hchanged, ctx, hinv⟩
  case looping =>
    intro f' l hf' _
    obtain rfl := mem_unique hasync hf'
    exact ⟨hgen.trans hgenRef.symm, hedit.trans hedited⟩
  case counted => exact hcounted h.counted
  case jobs =>
    intro q hq
    rw [hgenRef]
    rcases hmem.mp hq with ⟨e, he, rfl⟩ | hq
    · exact ⟨rfl, _, hasync, hgen, hjobs e he⟩
    · obtain ⟨hq, f', hf', -, hsome⟩ := h.jobs q hq
      obtain rfl := mem_unique hf hf'
      exact ⟨hq, _, hasync, hgen, hres _ hsome⟩
  case delivers =>
    intro m ty t hm
    rw [hdisk] at hm
    rcases htys m ty t hm with ⟨⟨t', hold⟩, hne⟩ | ⟨r, src, hrec, hsrc, rfl, hnone⟩
    · obtain ⟨P, hP, r, src, hrec, hsrc, hopen, hdone⟩ := h.delivers m ty t' hold
      refine ⟨P, hP, r, src, hrec, hsrc, fun q hq hqm => ?_, fun hnone => ?_⟩
      · rcases hmem.mp hq with ⟨e, he, rfl⟩ | hq
        · exact absurd hqm (hne e he)
        · exact hopen q hq hqm
      · rw [hout]
        exact hdone fun q hq => hnone q (hmem.mpr (.inr hq))
    · refine ⟨_, ctx.mem, r, src, hrec, hsrc, fun q hq hqm => ?_, fun hnone' => ?_⟩
      · rcases hmem.mp hq with ⟨e, he, rfl⟩ | hq
        · obtain ⟨⟩ := he
          rfl
        · exact absurd hqm (hnone q hq)
      · exact absurd rfl (hnone' _ (hmem.mpr (.inl ⟨_, rfl, rfl⟩)))

lemma Inv.frontStep (h : s.Inv F Ps) (hf : s.async = some f)
    (hstep : BuildStep F (selectAffectedTasks (globalTasks F f.plan) f.changed) f.maxPar f.cw
      (f.progress, s.disk) (p, d)) : (s.advance f p d).Inv F Ps := by
  obtain ⟨l, hl, -⟩ := hstep.exists_looping
  obtain ⟨hgen, hedited⟩ := h.looping f l hf hl
  obtain ⟨hchanged, ctx, hinv⟩ := h.front f hf hedited
  rw [hchanged, selectAffectedTasks_nil] at hstep
  have hinv' := hinv.step ctx hstep
  rw [hl] at hstep hinv
  cases hinv.turn ctx hstep with
  | finish b =>
    refine h.advance hf hgen hedited hchanged ctx hinv' (j := none) ?_ ?_ ?_ ?_
    · simp [hl, newJobs, Progress.state, Loop.trace_scheduleMore, Event.backJob?]
    · rw [hl]
      exact fun x hx => hx
    · simp
    · exact fun m ty t hm => .inl ⟨⟨t, hm⟩, by simp⟩
  | fail hcache hnot =>
    refine h.advance hf hgen hedited hchanged ctx hinv' (j := none) ?_ ?_ ?_ ?_
    · simp [hl, newJobs, Progress.state, Loop.fail, Loop.complete, Loop.trace_scheduleMore,
        Event.backJob?]
    · rw [hl]
      exact fun x hx => hx
    · simp
    · exact fun m ty t hm => .inl ⟨⟨t, hcache.2.1 ▸ hm⟩, by simp⟩
  | @succeed x i ty r fr _ hx hopen hrec _ _ _ _ hown htys _ hjob =>
    refine h.advance hf hgen hedited hchanged ctx hinv' (j := fr.frBackJob.map fun job =>
      (x, job)) ?_ ?_ ?_ ?_
    · rw [hl, newJobs_succeed]
      rfl
    · rw [hl]
      exact fun y hy => (Map.isSome_insert _ _ _ _).mpr (.inr hy)
    · intro e he
      obtain ⟨_, -, rfl⟩ := mem_map.mp he
      exact (Map.isSome_insert _ _ _ _).mpr (.inl rfl)
    · intro m ty' t hm
      by_cases hmx : m = x
      · subst hmx
        rcases hjob with ⟨src, hsrc, hjob⟩ | ⟨hjob, hsame⟩
        · -- the jobs that are open are of modules that are done
          obtain ⟨t', -, hown⟩ := hown
          obtain ⟨rfl, -⟩ := Prod.mk.inj (mem_unique hown hm)
          refine .inr ⟨r, src, hrec, hsrc, by rw [hjob]; rfl, fun q hq hqm => ?_⟩
          obtain ⟨-, f', hf', -, hsome⟩ := h.jobs q hq
          obtain rfl := mem_unique hf hf'
          rw [hl, hqm] at hsome
          simp [Progress.state, hopen] at hsome
        · exact .inl ⟨⟨t, hsame ▸ hm⟩, by simp [hjob]⟩
      · refine .inl ⟨⟨t, htys m hmx ▸ hm⟩, fun e he => ?_⟩
        obtain ⟨_, -, rfl⟩ := mem_map.mp he
        exact Ne.symm hmx

end Front

/-- The condition on a step: sources change only between two runs of the front end, a compile
starts only after the one before it and its back-end jobs are done, and each plan is one of the
whole project, made from a disk that meets the condition of incremental builds. -/
def Calm (F : Frontend S I H) (Ps : Set (ModName → Option S)) (s : CompileScheduler S I H) :
    Action → Prop
  | .edit => s.FrontIdle
  | .startCompile => s.FrontIdle ∧ s.waitDone s.genRef
  | .run changed => changed = [] ∧ BuildOk F Ps s.disk
  | .front | .worker => True

lemma Inv.step (hclean : Clean F Ps) {a : Action} (h : s.Inv F Ps) (hcalm : s.Calm F Ps a)
    (hstep : SchedStep F a s s') : s'.Inv F Ps := by
  cases hstep with
  | edit _ m src => exact h.edit hcalm (h.valid.edit m src) rfl
  | delete _ m => exact h.edit hcalm (h.valid.delete m) rfl
  | startCompile => exact h.startCompile hcalm.1 hcalm.2
  | run changed cw _ _ hnew =>
    obtain ⟨rfl, hok⟩ := hcalm
    exact h.run hclean hok hnew _ cw
  | front hf hstep => exact h.frontStep hf hstep
  | take hq => exact h.worker (.take hq)
  | shouldWrite hq => exact h.worker (.shouldWrite hq)
  | write hq => exact h.worker (.write hq)

lemma Inv.of_run (hclean : Clean F Ps)
    (hrun : ReflTransGen (fun s s' => ∃ a, s.Calm F Ps a ∧ SchedStep F a s s') .new s) :
    s.Inv F Ps := by
  induction hrun with
  | refl => exact .new
  | tail _ hstep ih =>
    obtain ⟨a, hcalm, hstep⟩ := hstep
    exact ih.step hclean hcalm hstep

end CompileScheduler

/-- In every run in which sources change only between two runs of the front end, a compile starts
only after the one before it and its back-end jobs are done, and every plan is one of the whole
project: when a compile has finished
without errors and its wait on the queue has returned, the generated files of every module of the
project are produced from its current source and the current interfaces of its imports. -/
theorem backQueue_correct [DecidableEq H] (hclean : Clean F Ps)
    (hrun : ReflTransGen (fun s s' => ∃ a, s.Calm F Ps a ∧ SchedStep F a s s') .new s)
    (hsettled : s.Settled) {src : S} (hsrc : s.disk.source m = some src) :
    ∃ r, Compiled F s.disk.source m r ∧ s.out m = some ⟨src, r.env⟩ := by
  have h := CompileScheduler.Inv.of_run hclean hrun
  obtain ⟨⟨f, l, hf, hgen, hl⟩, hwait, hedited⟩ := hsettled
  obtain ⟨-, ctx, hprog, hb⟩ := h.front f hf hedited
  rw [hl] at hprog hb
  obtain ⟨hinv, -, hpend, herr⟩ := hprog
  have hplan : s.disk.source = f.plan.source := hb.source_eq
  rw [hplan] at hsrc ⊢
  -- without errors every module of the project has succeeded
  have hnofail : ∀ k, ¬ l.Failed k := fun k hk => by
    have := hinv.hadErrors_iff.mpr ⟨k, hk⟩
    simp [← herr] at this
  have hsome : (l.res (projKey m)).isSome := by
    by_contra hnone
    rw [not_isSome_iff_eq_none] at hnone
    have hkey := ctx.mem_nonBuiltinKeys.mpr ⟨m, by simp [hsrc], rfl⟩
    have := (hinv.pend_iff _).mpr ⟨hkey, hnone, hnofail _, fun ⟨k, hk, _⟩ => hnofail k hk⟩
    simp [hpend] at this
  obtain ⟨h', hh'⟩ := isSome_iff_exists.mp hsome
  obtain ⟨ty, r, t, hrec, -, -, hlookup⟩ := hb.res m h' hh'
  -- the interface file was written together with the job of the same source and interfaces
  obtain ⟨P, hP, r', src', hrec', hsrc', -, hdone⟩ := h.delivers m ty t hlookup
  have hr : r = r' := (hrec.compiled.eq_of_hash_eq (hclean.exports _ ctx.mem) (hclean.exports _ hP)
    (hclean.distinct _ ctx.mem _ hP) hrec'.compiled
    (hrec.ifaceHash_eq.symm.trans hrec'.ifaceHash_eq)).2
  have hsrcs : src = src' := by
    obtain ⟨src1, h1, hhash1⟩ := hrec.srcHash_eq
    obtain ⟨src2, h2, hhash2⟩ := hrec'.srcHash_eq
    rw [hsrc] at h1
    rw [hsrc'] at h2
    rw [some.inj h1, some.inj h2]
    exact F.hash_inj (hhash1.symm.trans hhash2)
  refine ⟨r, hrec.compiled, ?_⟩
  rw [hr, hsrcs]
  refine hdone fun q hq => ?_
  rw [h.jobs_eq_nil hwait] at hq
  simp at hq

section Example
open CompileScheduler

/-- The example project, before its first compile. -/
def exampleProject : CompileScheduler ℕ Bool ℕ :=
  { new with disk := exampleDisk, edited := true }

/-- A new compile starts and runs its front end to the end. -/
def exampleCompile (s : CompileScheduler ℕ Bool ℕ) : CompileScheduler ℕ Bool ℕ :=
  (frontTurns exampleFrontend 3 (s.run exampleFrontend [] 1 fun _ => 0)).getD .new

/-- The front end of the first compile is done. -/
def exampleFirst : CompileScheduler ℕ Bool ℕ := exampleCompile { exampleProject with genRef := 1 }

/-- The workers are done with the jobs of the first compile. -/
def exampleSettled : CompileScheduler ℕ Bool ℕ := ((work exampleFirst).bind work).getD .new

/-- A second compile starts, and a worker takes the jobs of the first one and drops them. -/
def exampleSecond : CompileScheduler ℕ Bool ℕ :=
  ((takeFirst { exampleFirst with genRef := 2 }).bind takeFirst).getD .new

lemma settled_exampleSettled : exampleSettled.Settled := ⟨⟨_, _, rfl, rfl, rfl⟩, rfl, rfl⟩

lemma calm_exampleFirst : ReflTransGen (fun s s' => ∃ a,
    s.Calm exampleFrontend exampleSources a ∧ SchedStep exampleFrontend a s s')
    .new exampleFirst := by
  have hidle {s : CompileScheduler ℕ Bool ℕ} (hs : s.async = none) : s.FrontIdle := by
    intro f l hf
    simp [hs] at hf
  have hfront : frontTurns exampleFrontend 3
      (({ exampleProject with genRef := 1 } : CompileScheduler ℕ Bool ℕ).run exampleFrontend []
        1 fun _ => 0) = some exampleFirst := rfl
  refine .head ⟨.edit, hidle rfl, .edit _ modB 0⟩ (.head ⟨.edit, hidle rfl, .edit _ modA 1⟩ ?_)
  refine .head ⟨.startCompile, ⟨hidle rfl, rfl⟩, .startCompile _⟩ ?_
  refine .head ⟨.run [], ⟨rfl, buildOk_example⟩, .run [] (fun _ => 0) le_rfl Nat.one_pos nofun⟩ ?_
  exact ReflTransGen.mono (fun _ _ h => ⟨.front, trivial, h⟩) _ _ (run_of_frontTurns hfront)

theorem backQueue_correct_example :
    exampleSettled.Settled ∧ ∃ r, Compiled exampleFrontend exampleSettled.disk.source modA r ∧
      exampleSettled.out modA = some ⟨1, r.env⟩ := by
  have hwork : (work exampleFirst).bind work = some exampleSettled := rfl
  obtain ⟨s1, h1, h2⟩ := bind_eq_some_iff.mp hwork
  have hrun : ReflTransGen (SchedStep exampleFrontend .worker) exampleFirst exampleSettled :=
    (run_of_work h1).trans (run_of_work h2)
  refine ⟨settled_exampleSettled, backQueue_correct clean_example (calm_exampleFirst.trans ?_)
    settled_exampleSettled rfl⟩
  exact ReflTransGen.mono (fun _ _ h => ⟨.worker, trivial, h⟩) _ _ hrun

/-- If the second compile starts before the workers take the jobs of the first one, these are
dropped and never made again: the second compile finishes without errors and its wait returns, and
no files were generated for the modules. -/
theorem backQueue_dropped : ∃ s : CompileScheduler ℕ Bool ℕ,
      ReflTransGen (fun s s' => ∃ a, SchedStep exampleFrontend a s s') .new s ∧ s.Settled ∧
        s.disk.source modA = some 1 ∧ s.out modA = none := by
  refine ⟨exampleCompile exampleSecond, ?_, ⟨⟨_, _, rfl, rfl, rfl⟩, rfl, rfl⟩, rfl, rfl⟩
  have hdrop : (takeFirst { exampleFirst with genRef := 2 }).bind takeFirst
      = some exampleSecond := rfl
  obtain ⟨s1, h1, h2⟩ := bind_eq_some_iff.mp hdrop
  have hgen : exampleSecond.async.map FrontRun.gen = some 1 := rfl
  have hfront : frontTurns exampleFrontend 3 (exampleSecond.run exampleFrontend [] 1 fun _ => 0)
      = some (exampleCompile exampleSecond) := rfl
  refine .trans (ReflTransGen.mono (fun _ _ ⟨a, _, h⟩ => ⟨a, h⟩) _ _ calm_exampleFirst) ?_
  refine .head ⟨_, .startCompile _⟩ (.head ⟨_, schedStep_of_takeFirst h1⟩
    (.head ⟨_, schedStep_of_takeFirst h2⟩ ?_))
  refine .head ⟨_, .run [] (fun _ => 0) le_rfl (by decide) fun f hf => ?_⟩
    (ReflTransGen.mono (fun _ _ h => ⟨_, h⟩) _ _ (run_of_frontTurns hfront))
  rw [hf] at hgen
  rw [some.inj hgen]
  decide

end Example
end Acton.Compile
