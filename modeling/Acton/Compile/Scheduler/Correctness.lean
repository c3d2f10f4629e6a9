import Acton.Compile.Scheduler.Invariant

/-!
# Correctness of the front-end scheduler

A `TaskGraph` is a list of tasks as the plan for a build makes it: the keys are distinct, every
provider of an import is itself a task of the graph under the name of the import, headers do not
record the built-in module, and the imports have no cycle (`compileTasks` rejects a plan with one).

`scheduler_correct` is about every run of the loop on such a graph, with any parallelism of at
least one, any order of completion and any outcome of each job.
-/

namespace Acton.Compile
open Relation List Option
variable {S I H : Type}

/-- The tasks of a build. -/
structure TaskGraph (S H : Type) where
  tasks : List (GlobalTask S H)
  /-- `buildGlobalTasks` visits every key once. -/
  nodup_keys : (tasks.map GlobalTask.gtKey).Nodup
  /-- `resolveProviders` makes the key of a provider from the name of the import. -/
  provider_mod : ∀ t ∈ tasks, ∀ p ∈ t.gtImportProviders, p.2.tkMod = p.1
  /-- The selection of tasks is closed under providers. -/
  provider_mem : ∀ t ∈ tasks, ∀ p ∈ t.gtImportProviders, p.2 ∈ tasks.map GlobalTask.gtKey
  /-- The imports in a header are those of `moduleRefs1`. -/
  header_imports : ∀ t ∈ tasks, ∀ h ih imps, t.gtTask = .tyTask h ih imps →
    ∀ p ∈ imps, p.1 ≠ mBuiltin
  acyclic : ∀ k, ¬ TransGen (DependsOn tasks) k k

lemma ne_mBuiltin_of_mem_moduleRefs1 {refs : List ModName} {m : ModName}
    (h : m ∈ moduleRefs1 refs) : m ≠ mBuiltin := by
  rw [moduleRefs1, (nodup_eraseDups refs).mem_sdiff_iff] at h
  rintro rfl
  exact h.2 (by simp)

namespace TaskGraph
variable (g : TaskGraph S H) {t : GlobalTask S H} {ifaceMap : IfaceMap H} {w : World S I H}

/-- The snapshot that a job of `t` is started with has the hashes of its dependencies. -/
def SnapshotFor (t : GlobalTask S H) (ifaceMap : IfaceMap H) : Prop :=
  ∀ d, DependsOn g.tasks t.gtKey d → (ifaceMap d).isSome

variable {g}
section
variable (ht : t ∈ nonBuiltinTasks g.tasks) (hsnap : g.SnapshotFor t ifaceMap)
include ht hsnap

/-- The hash of an import is found when the snapshot has those of the dependencies. -/
theorem resolveImportHash_ok {m : ModName} (hm : m ≠ mBuiltin) :
    ∃ o, resolveImportHash w t.gtImportProviders ifaceMap m = .ok o := by
  unfold resolveImportHash
  cases hlookup : t.gtImportProviders.lookup m with
  | none => exact ⟨_, rfl⟩
  | some depKey =>
    have hp := mem_of_lookup_eq_some hlookup
    have htasks : t ∈ g.tasks := (mem_filter.mp ht).1
    -- the provider is a scheduled task, since only the built-in module is not scheduled
    have hkey : depKey ∈ nonBuiltinKeys g.tasks := by
      obtain ⟨t', ht', rfl⟩ := mem_map.mp (g.provider_mem t htasks _ hp)
      refine mem_map_of_mem (mem_filter.mpr ⟨ht', ?_⟩)
      have hmod : t'.gtKey.tkMod = m := g.provider_mod t htasks _ hp
      simp [isBuiltinKey, hmod, hm]
    have hdep : DependsOn g.tasks t.gtKey depKey := by
      refine ⟨t, ht, rfl, ?_⟩
      rw [depsOf, mem_eraseDups, mem_filter]
      exact ⟨mem_map.mpr ⟨_, hp, rfl⟩, decide_eq_true hkey⟩
    obtain ⟨h, hh⟩ := isSome_iff_exists.mp (hsnap depKey hdep)
    exact ⟨some h, by simp [hh]⟩

lemma compileSource_ok (envSnap : Env0 I) (src : S) :
    ∃ r, compileSource w envSnap (resolveImportHash w t.gtImportProviders ifaceMap) src
      = .ok r := by
  unfold compileSource runFrontPasses
  rcases w.reconstruct envSnap src with _ | ⟨typeEnv, nmod, refs⟩
  · exact ⟨_, rfl⟩
  · have hrefs : ∀ m ∈ moduleRefs1 refs,
        ∃ h, resolveImportHash w t.gtImportProviders ifaceMap m = .ok h := fun m hm =>
      resolveImportHash_ok ht hsnap (ne_mBuiltin_of_mem_moduleRefs1 hm)
    obtain ⟨r, hr⟩ := resolveImportHashes_ok hrefs
    simp only [hr, bind, Except.bind]
    cases r <;> exact ⟨_, rfl⟩

lemma needByImports_ok [DecidableEq H] :
    ∃ r, needByImports (resolveImportHash w t.gtImportProviders ifaceMap) t.gtTask = .ok r := by
  cases htask : t.gtTask with
  | actonTask src imports => exact ⟨_, rfl⟩
  | parseErrorTask => exact ⟨_, rfl⟩
  | tyTask tyHash tyIfaceHash tyImports =>
    have himports := g.header_imports t (mem_filter.mp ht).1 _ _ _ htask
    have hresolve : ∀ m ∈ tyImports.map Prod.fst,
        ∃ o, resolveImportHash w t.gtImportProviders ifaceMap m = .ok o := by
      intro m hm
      obtain ⟨p, hp, rfl⟩ := mem_map.mp hm
      exact resolveImportHash_ok ht hsnap (himports p hp)
    obtain ⟨r, hr⟩ := resolveImportHashes_ok hresolve
    simp only [needByImports, hr, bind, Except.bind]
    cases r <;> exact ⟨_, rfl⟩

end

lemma doOne_ok [DecidableEq H] {key : TaskKey} (hkey : key ∈ nonBuiltinKeys g.tasks)
    (hsnap : ∀ d, DependsOn g.tasks key d → (ifaceMap d).isSome) (envSnap : Env0 I) :
    ∃ r, doOne w (taskMap g.tasks) envSnap ifaceMap key = .ok r := by
  obtain ⟨t, ht, rfl⟩ := mem_map.mp hkey
  have hsnap : g.SnapshotFor t ifaceMap := hsnap
  obtain ⟨need, hneed⟩ := needByImports_ok (w := w) ht hsnap
  simp only [doOne, taskMap_of_mem g.nodup_keys (mem_filter.mp ht).1]
  split
  · exact ⟨_, rfl⟩
  · split
    · cases readIfaceFromTy w t.gtTask.headerHash <;> exact ⟨_, rfl⟩
    · simp only [hneed, bind, Except.bind]
      rcases need with d | need
      · exact ⟨_, rfl⟩
      · simp only
        split
        · exact compileSource_ok ht hsnap envSnap _
        · split
          · cases w.parseActFile with
            | none => exact ⟨_, rfl⟩
            | some src => exact compileSource_ok ht hsnap envSnap src
          · exact ⟨_, rfl⟩

end TaskGraph
namespace Loop
variable {tasks : List (GlobalTask S H)} {l : Loop S I H}

/-- When nothing is ready or running, nothing is pending: a pending task that depends on no other
pending task would be ready. -/
theorem Inv.pend_eq_nil (hacyclic : ∀ k, ¬ TransGen (DependsOn tasks) k k) (h : l.Inv tasks)
    (hrdy : l.rdy = []) (hrunning : l.running = []) : l.pend = [] := by
  by_contra hne
  obtain ⟨k0, hk0⟩ := exists_mem_of_ne_nil _ hne
  -- dependency is well founded on the finitely many pending tasks
  let r : {k // k ∈ l.pend} → {k // k ∈ l.pend} → Prop :=
    fun d k => TransGen (DependsOn tasks) k.1 d.1
  have : IsTrans _ r := ⟨fun _ _ _ hab hbc => hbc.trans hab⟩
  have : Std.Irrefl r := ⟨fun k => hacyclic k.1⟩
  obtain ⟨⟨k, hk⟩, -, hmin⟩ := (Finite.wellFounded_of_trans_of_irrefl r).has_min Set.univ
    ⟨⟨k0, hk0⟩, trivial⟩
  obtain ⟨-, -, -, hopen⟩ := (h.pend_iff k).mp hk
  have hdeps : ∀ d, DependsOn tasks k d → (l.res d).isSome := by
    intro d hd
    by_contra hres
    rw [not_isSome_iff_eq_none] at hres
    refine hmin ⟨d, (h.pend_iff d).mpr ⟨hd.right_mem, hres, ?_, ?_⟩⟩ trivial (.single hd)
    · exact fun hf => hopen ⟨d, hf, .single hd⟩
    · rintro ⟨f, hf, hdf⟩
      exact hopen ⟨f, hf, .head hd hdf⟩
  rcases h.exhaustive k hk hdeps with hk | hk
  · simp [hrdy] at hk
  · simp [runningKeys, hrunning] at hk

lemma rdy_scheduleMore_eq_nil {maxPar : ℕ} (hpar : 1 ≤ maxPar) (cw : TaskKey → ℤ)
    (hrunning : (l.scheduleMore maxPar cw).running = []) : (l.scheduleMore maxPar cw).rdy = [] := by
  obtain ⟨hstart, hold⟩ := append_eq_nil_iff.mp hrunning
  have hzero : (maxPar - l.running.length) ≠ 0 := by
    rw [hold, length_nil]
    omega
  have hnil := (take_eq_nil_iff.mp (map_eq_nil_iff.mp hstart)).resolve_left hzero
  simp [scheduleMore, hnil]

end Loop
section Runs
variable [DecidableEq H] {g : TaskGraph S H} {maxPar : ℕ} {cw : TaskKey → ℤ} {l : Loop S I H}
variable {p : Progress S I H} {w : World S I H}

/-- What one turn of the loop can do. -/
theorem loop_cases {tasks : List (GlobalTask S H)} {i : ℕ}
    (h : loop tasks maxPar cw l i w = some p) :
    ((l.scheduleMore maxPar cw).running = [] ∧ (l.scheduleMore maxPar cw).rdy = [] ∧
      p = .finished (l.scheduleMore maxPar cw)
        (if (l.scheduleMore maxPar cw).pend.isEmpty then (l.scheduleMore maxPar cw).hadErrors
         else true)) ∨
    ∃ r, (l.scheduleMore maxPar cw).running[i]? = some r ∧
      ((∃ e, doOne w (taskMap tasks) r.envSnap r.ifaceMap r.key = .error e ∧
          p = .crashed ((l.scheduleMore maxPar cw).complete i) e) ∨
        (∃ d, p = .looping (((l.scheduleMore maxPar cw).complete i).fail tasks r.key d)) ∨
        ∃ fr, p = .looping (((l.scheduleMore maxPar cw).complete i).succeed tasks r.key fr)) := by
  simp only [loop] at h
  split at h
  · rename_i hend
    simp only [Bool.and_eq_true, List.isEmpty_iff] at hend
    exact .inl ⟨hend.1, hend.2, (Option.some.inj h).symm⟩
  · right
    split at h
    · simp at h
    · rename_i r hr
      refine ⟨r, hr, ?_⟩
      split at h
      · rename_i e he
        exact .inl ⟨e, he, (Option.some.inj h).symm⟩
      · split at h
        · exact .inr (.inl ⟨_, (Option.some.inj h).symm⟩)
        · exact .inr (.inr ⟨_, (Option.some.inj h).symm⟩)

/-- The turn in which a given job completes without an internal error. -/
theorem loop_of_doOne {tasks : List (GlobalTask S H)} {i : ℕ} {r : Running I H} {done : Done S I H}
    (hr : (l.scheduleMore maxPar cw).running[i]? = some r)
    (hdone : doOne w (taskMap tasks) r.envSnap r.ifaceMap r.key = .ok done) :
    loop tasks maxPar cw l i w = some (.looping (match done.outcome with
      | .error d => ((l.scheduleMore maxPar cw).complete i).fail tasks r.key d
      | .ok fr => ((l.scheduleMore maxPar cw).complete i).succeed tasks r.key fr)) := by
  have hne : (l.scheduleMore maxPar cw).running.isEmpty = false := by
    rw [isEmpty_eq_false_iff_exists_mem]
    exact ⟨r, mem_of_getElem? hr⟩
  simp only [loop, hne, Bool.false_and, Bool.false_eq_true, if_false, hr, hdone]
  cases done.outcome <;> rfl

/-- What holds of the scheduler at every point of a run. -/
def Progress.Inv (tasks : List (GlobalTask S H)) : Progress S I H → Prop
  | .looping l => l.Inv tasks
  | .finished l b => l.Inv tasks ∧ l.running = [] ∧ l.pend = [] ∧ b = l.hadErrors
  | .crashed _ _ => False

/-- A bound on the number of turns that are left. -/
def Progress.turns : Progress S I H → ℕ
  | .looping l => l.pend.length + 1
  | _ => 0

/-- Booking the outcome of a job leaves fewer pending tasks. -/
theorem turns_lt {i : ℕ} (h : l.Inv g.tasks) (hp : loop g.tasks maxPar cw l i w = some p) :
    p.turns < (Progress.looping l).turns := by
  have hpend {r : Running I H} (hr : (l.scheduleMore maxPar cw).running[i]? = some r) :
      r.key ∈ l.pend := by
    have hmem := (Loop.runningKeys_complete hr).mem_iff.mp mem_cons_self
    exact (h.scheduleMore maxPar cw).running_pend hmem
  rcases loop_cases hp with ⟨-, -, rfl⟩ | ⟨r, hr, ⟨e, -, rfl⟩ | ⟨d, rfl⟩ | ⟨fr, rfl⟩⟩
  · simp [Progress.turns]
  · simp [Progress.turns]
  · have hlt : ((l.pend.filter (· ∉ dependentClosure g.tasks r.key)).filter (· ≠ r.key)).length
        < l.pend.length := by
      rw [List.filter_filter, length_filter_lt_length_iff_exists]
      exact ⟨r.key, hpend hr, by simp⟩
    exact Nat.succ_lt_succ hlt
  · have hlt : (l.pend.filter (· ≠ r.key)).length < l.pend.length := by
      rw [length_filter_lt_length_iff_exists]
      exact ⟨r.key, hpend hr, by simp⟩
    exact Nat.succ_lt_succ hlt

lemma Progress.Inv.step {p p' : Progress S I H} (h : p.Inv g.tasks)
    (hstep : Step g.tasks maxPar cw p p') : p'.Inv g.tasks := by
  obtain ⟨l, i, w, rfl, hp⟩ := hstep
  have h1 : (l.scheduleMore maxPar cw).Inv g.tasks := Loop.Inv.scheduleMore maxPar cw h
  rcases loop_cases hp with ⟨hrun, hrdy, rfl⟩ | ⟨r, hr, ⟨e, he, rfl⟩ | ⟨d, rfl⟩ | ⟨fr, rfl⟩⟩
  · have hnil := h1.pend_eq_nil g.acyclic hrdy hrun
    exact ⟨h1, hrun, hnil, by simp [hnil]⟩
  · -- the job was started with the hashes of its dependencies
    have hmem := h1.mem_started_of_running
      ((Loop.runningKeys_complete hr).mem_iff.mp mem_cons_self)
    obtain ⟨r', hr'⟩ := TaskGraph.doOne_ok (w := w) (h1.keys _ (mem_append_left _ hmem))
      (h1.snapshot r (mem_of_getElem? hr)) r.envSnap
    simp [hr'] at he
  · exact h1.fail g.nodup_keys hr d
  · exact h1.succeed g.nodup_keys hr fr

lemma Progress.Inv.run {p p' : Progress S I H} (h : p.Inv g.tasks)
    (hrun : ReflTransGen (Step g.tasks maxPar cw) p p') : p'.Inv g.tasks := by
  induction hrun with
  | refl => exact h
  | tail _ hstep ih => exact ih.step hstep

lemma acc_step (h : p.Inv g.tasks) : Acc (fun p' p => Step g.tasks maxPar cw p p') p := by
  induction hn : p.turns using Nat.strongRecOn generalizing p with
  | ind n ih =>
    refine ⟨p, fun p' hstep => ih p'.turns ?_ (h.step hstep) rfl⟩
    obtain ⟨l, i, w, rfl, hp⟩ := hstep
    exact hn ▸ turns_lt h hp

/-- Between turns the loop can go on, whatever the first job sees. -/
theorem exists_turn (hpar : 1 ≤ maxPar) (l : Loop S I H) (w : World S I H) :
    ∃ p, loop g.tasks maxPar cw l 0 w = some p := by
  by_cases hrun : (l.scheduleMore maxPar cw).running = []
  · have hrdy := Loop.rdy_scheduleMore_eq_nil hpar cw hrun
    exact ⟨_, by simp [loop, hrun, hrdy]; rfl⟩
  · obtain ⟨r, rs, hcons⟩ := exists_cons_of_ne_nil hrun
    simp only [loop, hcons, isEmpty_cons, Bool.false_and, Bool.false_eq_true, if_false,
      getElem?_cons_zero]
    split
    · exact ⟨_, rfl⟩
    · split <;> exact ⟨_, rfl⟩

/-- Runs of the scheduler loop on an acyclic task graph. There is no infinite run and no run gets
stuck before it is finished. At every point of a run each task was started at most once and after
its dependencies had succeeded, no task was started that depends on a failed one, and no internal
error was reached. At its end nothing is pending or running, the result says whether a task has
failed, and every task was started whose dependencies have all succeeded, directly and
indirectly. -/
theorem scheduler_correct (g : TaskGraph S H) {maxPar : ℕ} (hpar : 1 ≤ maxPar)
    (cw : TaskKey → ℤ) (baseEnv : Env0 I) :
    Acc (fun p' p => Step g.tasks maxPar cw p p') (.looping (.init g.tasks baseEnv)) ∧
    ∀ p, ReflTransGen (Step g.tasks maxPar cw) (.looping (.init g.tasks baseEnv)) p →
      p.state.started.Nodup ∧
      StartsAfterDeps g.tasks p.state.trace ∧
      (∀ f k, p.state.Failed f → TransGen (DependsOn g.tasks) k f → k ∉ p.state.started) ∧
      (∀ l e, p ≠ .crashed l e) ∧
      (∀ l, p = .looping l → ∀ w, ∃ i p', loop g.tasks maxPar cw l i w = some p') ∧
      ∀ l hadErrors, p = .finished l hadErrors →
        l.pend = [] ∧ l.running = [] ∧ (hadErrors = true ↔ ∃ k, l.Failed k) ∧
        ∀ k ∈ nonBuiltinKeys g.tasks,
          (∀ d, TransGen (DependsOn g.tasks) k d → ∃ fr, .frontResult d fr ∈ l.trace) →
          k ∈ l.started := by
  have hinit : (Progress.looping (.init g.tasks baseEnv)).Inv g.tasks :=
    Loop.Inv.init g.nodup_keys baseEnv
  refine ⟨acc_step hinit, fun p hrun => ?_⟩
  have h := hinit.run hrun
  have hstate : p.state.Inv g.tasks := by
    cases p with
    | looping l => exact h
    | finished l b => exact h.1
    | crashed l e => exact h.elim
  refine ⟨hstate.nodup.of_append_left, hstate.order, ?_, ?_, ?_, ?_⟩
  · intro f k hf hkf hk
    exact hstate.not_blocked (mem_append_left _ hk) ⟨f, hf, hkf⟩
  · rintro l e rfl
    exact h
  · rintro l - w
    exact ⟨0, exists_turn hpar l w⟩
  · rintro l b rfl
    obtain ⟨hl, hrunning, hpend, rfl⟩ := h
    refine ⟨hpend, hrunning, hl.hadErrors_iff, fun k hk hdeps => ?_⟩
    -- a task that was not started would still be pending
    by_contra hnot
    rw [hl.started_iff, not_or, not_or, not_isSome_iff_eq_none] at hnot
    have hmem : k ∈ l.pend := by
      refine (hl.pend_iff k).mpr ⟨hk, hnot.2.1, hnot.2.2, ?_⟩
      rintro ⟨f, hf, hkf⟩
      have hsome := (hl.res_iff f).mpr (hdeps f hkf)
      simp [hl.failed_res f hf] at hsome
    simp [hpend] at hmem

/-- A finished run has started what another has, if no task that succeeds in the other fails in it,
whatever the number of jobs, the weights and the order of completion. -/
theorem started_subset {maxPar' : ℕ} {cw' : TaskKey → ℤ} {env : Env0 I} {l' : Loop S I H}
    {b b' : Bool}
    (h : ReflTransGen (Step g.tasks maxPar cw) (.looping (.init g.tasks env)) (.finished l b))
    (h' : ReflTransGen (Step g.tasks maxPar' cw') (.looping (.init g.tasks env)) (.finished l' b'))
    (hagree : ∀ k, (l.res k).isSome → ¬ l'.Failed k) : l.started ⊆ l'.started := by
  have hinit : (Progress.looping (.init g.tasks env)).Inv g.tasks := Loop.Inv.init g.nodup_keys env
  obtain ⟨hl, -⟩ := hinit.run h
  obtain ⟨hl', -, hpend, -⟩ := hinit.run h'
  intro k hk
  have hmem := mem_append_left l.rdy hk
  by_contra hnot
  rw [hl'.started_iff, not_or, not_or, not_isSome_iff_eq_none] at hnot
  -- it depends on a task that has failed in this run, and has succeeded in the other
  obtain ⟨f, hf, hkf⟩ : l'.Blocked g.tasks k := by
    by_contra hb
    simpa [hpend] using (hl'.pend_iff k).mpr ⟨hl.keys k hmem, hnot.2.1, hnot.2.2, hb⟩
  exact hagree f (hl.transDeps_done hmem hkf) hf

end Runs
section Example

/-- The key of a module of the example project. -/
def exampleKey (m : String) : TaskKey := ⟨"project", [.name m]⟩

/-- A changed module `a`, and a module `b` that imports it and has a header. -/
def exampleTasks : List (GlobalTask Unit ℕ) :=
  [⟨exampleKey "a", .actonTask () [], []⟩,
   ⟨exampleKey "b", .tyTask 0 1 [([.name "a"], 2)], [([.name "a"], exampleKey "a")]⟩]

lemma dependsOn_exampleTasks {k d : TaskKey} (h : DependsOn exampleTasks k d) :
    k = exampleKey "b" ∧ d = exampleKey "a" := by
  obtain ⟨t, ht, rfl, hd⟩ := h
  rw [depsOf, mem_eraseDups] at hd
  rcases mem_cons.mp (mem_filter.mp ht).1 with rfl | ht
  · simp at hd
  · obtain rfl := mem_singleton.mp ht
    exact ⟨rfl, mem_singleton.mp (mem_filter.mp hd).1⟩

/-- The task graph of the example project. -/
def exampleGraph : TaskGraph Unit ℕ where
  tasks := exampleTasks
  nodup_keys := by decide
  provider_mod := by decide
  provider_mem := by decide
  header_imports := by
    intro t ht h ih imps heq p hp
    rcases mem_cons.mp ht with rfl | ht
    · simp at heq
    · obtain rfl := mem_singleton.mp ht
      obtain ⟨-, -, rfl⟩ := CompileTask.tyTask.inj heq
      obtain rfl := mem_singleton.mp hp
      decide
  acyclic := by
    intro k hk
    obtain ⟨d, hkd, -⟩ := TransGen.head'_iff.mp hk
    obtain ⟨d', -, hd'k⟩ := TransGen.tail'_iff.mp hk
    have heq := (dependsOn_exampleTasks hkd).1.symm.trans (dependsOn_exampleTasks hd'k).2
    simp [exampleKey] at heq

theorem scheduler_correct_example : Acc (fun p' p => Step exampleGraph.tasks 2 (fun _ => 0) p p')
        (.looping (.init exampleGraph.tasks (Map.empty : Env0 Unit))) ∧
      ∀ p, ReflTransGen (Step exampleGraph.tasks 2 fun _ => 0)
          (.looping (.init exampleGraph.tasks (Map.empty : Env0 Unit))) p →
        p.state.started.Nodup ∧ ∀ l e, p ≠ .crashed l e :=
  have h := scheduler_correct exampleGraph (show 1 ≤ 2 by decide) (fun _ => 0) Map.empty
  ⟨h.1, fun p hp => ⟨(h.2 p hp).1, (h.2 p hp).2.2.2.1⟩⟩

/-- What the jobs see if both modules can be compiled. -/
def exampleWorld : World Unit Unit ℕ :=
  ⟨false, false, fun _ => none, none, some (), fun env _ => some (env, (), []), fun _ => 0,
    fun _ _ => 0, (), 0⟩

/-- Both modules succeed, with one job and with two. -/
theorem started_subset_example : ∃ l l' : Loop Unit Unit ℕ, l.started ⊆ l'.started ∧
    l.started = [exampleKey "a", exampleKey "b"] ∧ (l.res (exampleKey "a")).isSome := by
  have hrun (maxPar : ℕ) (cw : TaskKey → ℤ) (l₁ l₂ l₃ : Loop Unit Unit ℕ)
      (h₁ : loop exampleTasks maxPar cw (.init exampleTasks Map.empty) 0 exampleWorld =
        some (.looping l₁))
      (h₂ : loop exampleTasks maxPar cw l₁ 0 exampleWorld = some (.looping l₂))
      (h₃ : loop exampleTasks maxPar cw l₂ 0 exampleWorld = some (.finished l₃ false)) :
      ReflTransGen (Step exampleGraph.tasks maxPar cw) (.looping (.init exampleTasks Map.empty))
        (.finished l₃ false) :=
    .tail (.tail (.single ⟨_, 0, exampleWorld, rfl, h₁⟩) ⟨_, 0, exampleWorld, rfl, h₂⟩)
      ⟨_, 0, exampleWorld, rfl, h₃⟩
  have h := hrun 1 (fun _ => 0) _ _ _ rfl rfl rfl
  have h' := hrun 2 (fun _ => 1) _ _ _ rfl rfl rfl
  refine ⟨_, _, started_subset h h' fun k _ hfail => ?_, rfl, rfl⟩
  have hinit : (Progress.looping (.init exampleTasks (Map.empty : Env0 Unit))).Inv exampleTasks :=
    Loop.Inv.init exampleGraph.nodup_keys _
  obtain ⟨hinv, -, -, -⟩ := Progress.Inv.run (g := exampleGraph) hinit h'
  exact Bool.false_ne_true (hinv.hadErrors_iff.mpr ⟨k, hfail⟩)

end Example
end Acton.Compile
