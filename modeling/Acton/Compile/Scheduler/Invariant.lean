import Acton.Compile.Scheduler

/-!
# What holds at every turn of the scheduler

`Loop.Inv` relates the separate structures of the loop to each other and to the trace of
callbacks: which tasks have succeeded or failed, which are pending, ready or running, how many
dependencies each task still waits for, and that a task was started after its dependencies had
succeeded. It holds at the start and is kept by `scheduleMore` and by booking the outcome of a
job (`Inv.init`, `Inv.scheduleMore`, `Inv.fail`, `Inv.succeed`).
-/

namespace Acton.Compile
open Relation List Option
variable {S I H : Type} {tasks : List (GlobalTask S H)} {k d : TaskKey}

/-- In a trace, every task is started after its dependencies have succeeded. -/
def StartsAfterDeps (tasks : List (GlobalTask S H)) (trace : List (Event S I H)) : Prop :=
  ∀ pre k post, trace = pre ++ .frontStart k :: post →
    ∀ d, DependsOn tasks k d → ∃ fr, .frontResult d fr ∈ pre

/-- The order of starts is kept when the dependencies of new starts have succeeded before. -/
theorem StartsAfterDeps.append {trace new : List (Event S I H)} (h : StartsAfterDeps tasks trace)
    (hnew : ∀ k, .frontStart k ∈ new → ∀ d, DependsOn tasks k d → ∃ fr, .frontResult d fr ∈ trace) :
    StartsAfterDeps tasks (trace ++ new) := by
  intro pre k post heq d hd
  rcases append_eq_append_iff.mp heq with ⟨mid, hpre, hmid⟩ | ⟨mid, htrace, hmid⟩
  · -- the start is one of the new events
    obtain ⟨fr, hfr⟩ := hnew k (hmid ▸ mem_append_right mid mem_cons_self) d hd
    exact ⟨fr, hpre ▸ mem_append_left mid hfr⟩
  · -- the start was in the trace, unless the trace ends right before it
    cases mid with
    | nil =>
      rw [nil_append] at hmid
      rw [append_nil] at htrace
      obtain ⟨fr, hfr⟩ := hnew k (hmid ▸ mem_cons_self) d hd
      exact ⟨fr, htrace ▸ hfr⟩
    | cons e mid =>
      obtain ⟨rfl, -⟩ := List.cons.inj hmid
      exact h pre k mid htrace d hd

namespace Loop

/-- The job of `k` has failed. -/
def Failed (l : Loop S I H) (k : TaskKey) : Prop := ∃ d, .diagnostics k d ∈ l.trace

/-- Task `k` depends on a task that has failed. -/
def Blocked (tasks : List (GlobalTask S H)) (l : Loop S I H) (k : TaskKey) : Prop :=
  ∃ f, l.Failed f ∧ TransGen (DependsOn tasks) k f

/-- The invariant of the scheduler loop. -/
structure Inv (tasks : List (GlobalTask S H)) (l : Loop S I H) : Prop where
  res_iff : ∀ k, (l.res k).isSome ↔ ∃ fr, .frontResult k fr ∈ l.trace
  failed_res : ∀ k, l.Failed k → l.res k = none
  hadErrors_iff : l.hadErrors = true ↔ ∃ k, l.Failed k
  started_iff : ∀ k, k ∈ l.started ↔ k ∈ l.runningKeys ∨ (l.res k).isSome ∨ l.Failed k
  nodup : (l.started ++ l.rdy).Nodup
  keys : ∀ k ∈ l.started ++ l.rdy, k ∈ nonBuiltinKeys tasks
  running_nodup : l.runningKeys.Nodup
  running_open : ∀ k ∈ l.runningKeys, l.res k = none ∧ ¬ l.Failed k
  pend_nodup : l.pend.Nodup
  pend_iff : ∀ k, k ∈ l.pend ↔
    k ∈ nonBuiltinKeys tasks ∧ l.res k = none ∧ ¬ l.Failed k ∧ ¬ l.Blocked tasks k
  deps_done : ∀ k ∈ l.started ++ l.rdy, ∀ d, DependsOn tasks k d → (l.res d).isSome
  exhaustive : ∀ k ∈ l.pend, (∀ d, DependsOn tasks k d → (l.res d).isSome) →
    k ∈ l.rdy ∨ k ∈ l.runningKeys
  ind_eq : ∀ k ∈ nonBuiltinKeys tasks,
    l.ind k = some (((deps tasks k).filter fun d => (l.res d).isNone).length : ℤ)
  snapshot : ∀ r ∈ l.running, ∀ d, DependsOn tasks r.key d → (r.ifaceMap d).isSome
  order : StartsAfterDeps tasks l.trace

variable {l : Loop S I H}
namespace Inv
section
variable (h : l.Inv tasks)
include h

/-- What a started or ready task depends on has succeeded, also indirectly. -/
theorem transDeps_done (hk : k ∈ l.started ++ l.rdy) (hd : TransGen (DependsOn tasks) k d) :
    (l.res d).isSome := by
  induction hd with
  | single hd => exact h.deps_done k hk _ hd
  | tail _ hd ih =>
    -- the middle task has succeeded, so it was started
    have hstarted := (h.started_iff _).mpr (.inr (.inl ih))
    exact h.deps_done _ (mem_append_left _ hstarted) _ hd

lemma not_blocked (hk : k ∈ l.started ++ l.rdy) : ¬ l.Blocked tasks k := by
  rintro ⟨f, hf, hkf⟩
  have hsome := h.transDeps_done hk hkf
  rw [h.failed_res f hf] at hsome
  simp at hsome

lemma mem_started_of_running (hk : k ∈ l.runningKeys) : k ∈ l.started :=
  (h.started_iff k).mpr (.inl hk)

lemma running_pend (hk : k ∈ l.runningKeys) : k ∈ l.pend := by
  have hmem := mem_append_left l.rdy (h.mem_started_of_running hk)
  obtain ⟨hres, hfailed⟩ := h.running_open k hk
  exact (h.pend_iff k).mpr ⟨h.keys k hmem, hres, hfailed, h.not_blocked hmem⟩

lemma not_started_of_rdy (hk : k ∈ l.rdy) : k ∉ l.started :=
  fun hs => disjoint_of_nodup_append h.nodup hs hk

lemma rdy_pend (hk : k ∈ l.rdy) : k ∈ l.pend := by
  have hmem := mem_append_right l.started hk
  have hnot := h.not_started_of_rdy hk
  rw [h.started_iff, not_or, not_or, Bool.not_eq_true, isSome_eq_false_iff,
    isNone_iff_eq_none] at hnot
  exact (h.pend_iff k).mpr ⟨h.keys k hmem, hnot.2.1, hnot.2.2, h.not_blocked hmem⟩

end

lemma init (hkeys : (tasks.map GlobalTask.gtKey).Nodup) (baseEnv : Env0 I) :
    (Loop.init tasks baseEnv).Inv tasks where
  res_iff k := by simp [Loop.init, Map.empty]
  failed_res k := by rintro ⟨d, hd⟩; simp [Loop.init] at hd
  hadErrors_iff := by simp [Loop.init, Failed]
  started_iff k := by simp [Loop.init, started, runningKeys, Map.empty, Failed]
  nodup := by simpa [Loop.init, started] using nodup_initialReady hkeys
  keys k hk := ((mem_initialReady hkeys).mp (by simpa [Loop.init, started] using hk)).1
  running_nodup := by simp [Loop.init, runningKeys]
  running_open k hk := by simp [Loop.init, runningKeys] at hk
  pend_nodup := by
    simpa only [Loop.init, pending0_eq] using nodup_nonBuiltinKeys hkeys
  pend_iff k := by
    simp [Loop.init, pending0_eq, Map.empty, Failed, Blocked]
  deps_done k hk d hd := by
    have hk' := (mem_initialReady hkeys).mp (by simpa [Loop.init, started] using hk)
    exact absurd hd (hk'.2 d)
  exhaustive k hk hdeps := by
    refine .inl ((mem_initialReady hkeys).mpr ⟨?_, fun d hd => ?_⟩)
    · simpa only [Loop.init, pending0_eq] using hk
    · simpa [Loop.init, Map.empty] using hdeps d hd
  ind_eq k hk := by
    simpa [Loop.init, Map.empty] using indeg_of_mem hkeys hk
  snapshot r hr := by simp [Loop.init] at hr
  order pre k post heq := by simp [Loop.init] at heq

end Inv
section ScheduleMore
variable (maxPar : ℕ) (cw : TaskKey → ℤ)

/-- The tasks that `scheduleMore` starts. -/
def toStart (l : Loop S I H) : List TaskKey :=
  (l.rdy.insertionSort fun a b => cw b ≤ cw a).take (maxPar - l.running.length)

section
variable (l : Loop S I H)

/-- The ready tasks are split into those that are started and those that stay ready. -/
theorem toStart_append_rdy :
    (l.toStart maxPar cw ++ (l.scheduleMore maxPar cw).rdy).Perm l.rdy := by
  rw [toStart, scheduleMore, take_append_drop]
  exact perm_insertionSort _ _

lemma trace_scheduleMore :
    (l.scheduleMore maxPar cw).trace = l.trace ++ (l.toStart maxPar cw).map .frontStart :=
  rfl

lemma started_scheduleMore :
    (l.scheduleMore maxPar cw).started = l.started ++ l.toStart maxPar cw := by
  simp [started, trace_scheduleMore, filterMap_map, Function.comp_def, Event.started?]

lemma runningKeys_scheduleMore :
    (l.scheduleMore maxPar cw).runningKeys = l.toStart maxPar cw ++ l.runningKeys := by
  simp [runningKeys, scheduleMore, toStart, Function.comp_def]

lemma failed_scheduleMore : (l.scheduleMore maxPar cw).Failed k ↔ l.Failed k := by
  simp [Failed, trace_scheduleMore]

end

lemma Inv.scheduleMore (h : l.Inv tasks) : (l.scheduleMore maxPar cw).Inv tasks := by
  have hperm := l.toStart_append_rdy maxPar cw
  have hstart {k} (hk : k ∈ l.toStart maxPar cw) : k ∈ l.rdy :=
    hperm.mem_iff.mp (mem_append_left _ hk)
  have hall : ((l.scheduleMore maxPar cw).started ++ (l.scheduleMore maxPar cw).rdy).Perm
      (l.started ++ l.rdy) := by
    rw [started_scheduleMore, append_assoc]
    exact hperm.append_left _
  have hfailed {k} := failed_scheduleMore (k := k) maxPar cw l
  have hopen {k} (hk : k ∈ l.toStart maxPar cw) : l.res k = none ∧ ¬ l.Failed k :=
    have hpend := (h.pend_iff k).mp (h.rdy_pend (hstart hk))
    ⟨hpend.2.1, hpend.2.2.1⟩
  constructor
  case res_iff =>
    intro k
    have hiff (fr) : .frontResult k fr ∈ (l.scheduleMore maxPar cw).trace
        ↔ .frontResult k fr ∈ l.trace := by
      simp [trace_scheduleMore]
    simp only [hiff]
    exact h.res_iff k
  case failed_res => exact fun k hk => h.failed_res k (hfailed.mp hk)
  case hadErrors_iff =>
    simp only [hfailed]
    exact h.hadErrors_iff
  case started_iff =>
    intro k
    rw [started_scheduleMore, runningKeys_scheduleMore, hfailed, mem_append, mem_append,
      h.started_iff]
    simp only [Loop.scheduleMore]
    tauto
  case nodup => exact hall.nodup_iff.mpr h.nodup
  case keys => exact fun k hk => h.keys k (hall.mem_iff.mp hk)
  case running_nodup =>
    rw [runningKeys_scheduleMore]
    refine List.Nodup.append ?_ h.running_nodup fun k hk hrun => ?_
    · exact (hperm.nodup_iff.mpr h.nodup.of_append_right).of_append_left
    · exact h.not_started_of_rdy (hstart hk) (h.mem_started_of_running hrun)
  case running_open =>
    intro k hk
    rw [runningKeys_scheduleMore, mem_append] at hk
    rw [hfailed]
    rcases hk with hk | hk
    · exact hopen hk
    · exact h.running_open k hk
  case pend_nodup => exact h.pend_nodup
  case pend_iff =>
    intro k
    simp only [Blocked, hfailed]
    exact h.pend_iff k
  case deps_done => exact fun k hk => h.deps_done k (hall.mem_iff.mp hk)
  case exhaustive =>
    intro k hk hdeps
    rw [runningKeys_scheduleMore, mem_append]
    rcases h.exhaustive k hk hdeps with hrdy | hrun
    · rcases mem_append.mp (hperm.mem_iff.mpr hrdy) with h | h
      · exact .inr (.inl h)
      · exact .inl h
    · exact .inr (.inr hrun)
  case ind_eq => exact h.ind_eq
  case snapshot =>
    intro r hr d hd
    rw [Loop.scheduleMore, mem_append] at hr
    rcases hr with hr | hr
    · -- a new job gets the current hashes, and its dependencies have succeeded
      obtain ⟨k, hk, rfl⟩ := mem_map.mp hr
      exact h.deps_done k (mem_append_right _ (hstart hk)) d hd
    · exact h.snapshot r hr d hd
  case order =>
    rw [trace_scheduleMore]
    refine h.order.append fun k hk d hd => ?_
    obtain ⟨j, hj, heq⟩ := mem_map.mp hk
    rw [Event.frontStart.inj heq] at hj
    exact (h.res_iff d).mp (h.deps_done k (mem_append_right _ (hstart hj)) d hd)

end ScheduleMore
section Outcome
variable {i : ℕ} {r : Running I H}

/-- The running keys are that of the completed job and those that go on running. -/
theorem runningKeys_complete (hi : l.running[i]? = some r) :
    (r.key :: (l.complete i).runningKeys).Perm l.runningKeys := by
  obtain ⟨hlt, rfl⟩ := List.getElem?_eq_some_iff.mp hi
  exact (getElem_cons_eraseIdx_perm hlt).map Running.key

section
variable (hkeys : (tasks.map GlobalTask.gtKey).Nodup) (h : l.Inv tasks)
  (hi : l.running[i]? = some r)
include hkeys h hi

lemma Inv.fail (d : Diag) : ((l.complete i).fail tasks r.key d).Inv tasks := by
  set l' := (l.complete i).fail tasks r.key d
  have hrun := runningKeys_complete hi
  have hr : r.key ∈ l.runningKeys := hrun.mem_iff.mp mem_cons_self
  obtain ⟨hnot, hnodup⟩ := nodup_cons.mp (hrun.nodup_iff.mpr h.running_nodup)
  have hrdy {k} : k ∈ l'.rdy ↔ k ∈ l.rdy ∧ ¬ TransGen (DependsOn tasks) k r.key := by
    simp [l', Loop.fail, complete, mem_dependentClosure hkeys]
  have hpend {k} : k ∈ l'.pend ↔ k ∈ l.pend ∧ k ≠ r.key ∧ ¬ TransGen (DependsOn tasks) k r.key := by
    simp [l', Loop.fail, complete, mem_dependentClosure hkeys]
  have hfailed {k} : l'.Failed k ↔ l.Failed k ∨ k = r.key := by
    simp [Failed, l', Loop.fail, complete, exists_or]
  have hblocked {k} : l'.Blocked tasks k ↔
      l.Blocked tasks k ∨ TransGen (DependsOn tasks) k r.key := by
    simp [Blocked, hfailed, or_and_right, exists_or]
  have hstarted : l'.started = l.started := by
    simp [started, l', Loop.fail, complete, Event.started?]
  have hsub {k} (hk : k ∈ l'.started ++ l'.rdy) : k ∈ l.started ++ l.rdy := by
    rw [hstarted, mem_append, hrdy] at hk
    exact mem_append.mpr (hk.imp_right And.left)
  constructor
  case res_iff =>
    intro k
    have hiff (fr) : .frontResult k fr ∈ l'.trace ↔ .frontResult k fr ∈ l.trace := by
      simp [l', Loop.fail, complete]
    simp only [hiff]
    exact h.res_iff k
  case failed_res =>
    intro k hk
    rcases hfailed.mp hk with hk | rfl
    · exact h.failed_res k hk
    · exact (h.running_open _ hr).1
  case hadErrors_iff => exact ⟨fun _ => ⟨r.key, hfailed.mpr (.inr rfl)⟩, fun _ => rfl⟩
  case started_iff =>
    intro k
    rw [hstarted, h.started_iff, hfailed, ← hrun.mem_iff, mem_cons]
    change _ ↔ k ∈ (l.complete i).runningKeys ∨ (l.res k).isSome ∨ _
    tauto
  case nodup =>
    rw [hstarted]
    exact h.nodup.sublist (filter_sublist.append_left _)
  case keys => exact fun k hk => h.keys k (hsub hk)
  case running_nodup => exact hnodup
  case running_open =>
    intro k hk
    obtain ⟨hres, hf⟩ := h.running_open k (hrun.mem_iff.mp (mem_cons_of_mem _ hk))
    refine ⟨hres, fun hf' => ?_⟩
    rcases hfailed.mp hf' with hf' | rfl
    · exact hf hf'
    · exact hnot hk
  case pend_nodup => exact (h.pend_nodup.filter _).filter _
  case pend_iff =>
    intro k
    rw [hpend, h.pend_iff, hfailed, hblocked]
    change _ ↔ _ ∧ l.res k = none ∧ _
    tauto
  case deps_done => exact fun k hk => h.deps_done k (hsub hk)
  case exhaustive =>
    intro k hk hdeps
    obtain ⟨hk, hne, hindep⟩ := hpend.mp hk
    rw [hrdy]
    rcases h.exhaustive k hk hdeps with hk | hk
    · exact .inl ⟨hk, hindep⟩
    · exact .inr ((mem_cons.mp (hrun.mem_iff.mpr hk)).resolve_left hne)
  case ind_eq => exact h.ind_eq
  case snapshot => exact fun r hr => h.snapshot r (mem_of_mem_eraseIdx hr)
  case order => exact h.order.append (by simp)

/-- After a success each dependent has one unfinished dependency less. -/
theorem ind_succeed (fr : FrontResult S I H) (hk : k ∈ nonBuiltinKeys tasks) :
    ((l.complete i).succeed tasks r.key fr).ind k = some (((deps tasks k).filter fun d =>
      (((l.complete i).succeed tasks r.key fr).res d).isNone).length : ℤ) := by
  have hind : ((l.complete i).succeed tasks r.key fr).ind k
      = if k ∈ (revMap tasks).findWithDefault [] r.key then (l.ind k).map (· - 1)
        else l.ind k := by
    have hds := nodup_revMap hkeys (d := r.key)
    simp only [succeed, complete, Map.findWithDefault] at hds ⊢
    rcases eq_none_or_eq_some (revMap tasks r.key) with hrev | ⟨ds, hrev⟩
    · simp only [hrev, getD_none, not_mem_nil, if_false]
    · simp only [hrev, getD_some] at hds ⊢
      exact Map.foldl_adjust_apply _ hds l.ind k
  have hopen := (h.running_open r.key ((runningKeys_complete hi).mem_iff.mp mem_cons_self)).1
  -- the completed task is the only one whose hash was added
  set old := (deps tasks k).filter fun d => (l.res d).isNone with hold
  have hnew : (deps tasks k).filter
      (fun d => (((l.complete i).succeed tasks r.key fr).res d).isNone) = old.erase r.key := by
    rw [(nodup_deps.filter _).erase_eq_filter, List.filter_filter]
    apply filter_congr
    intro d _
    by_cases hd : d = r.key
    · simp [hd, succeed, complete]
    · simp [hd, succeed, complete, Map.insert_of_ne hd]
  rw [hind, h.ind_eq k hk, hnew]
  by_cases hdep : DependsOn tasks k r.key
  · have hmem : r.key ∈ old := by
      simp [hold, mem_deps hkeys, hdep, hopen]
    have hpos := length_pos_of_mem hmem
    rw [if_pos (mem_revMap.mpr hdep), length_erase_of_mem hmem, map_some]
    exact congrArg some (by change (old.length : ℤ) - 1 = _; omega)
  · have hmem : r.key ∉ old := by
      simp [hold, mem_deps hkeys, hdep]
    rw [if_neg (mt mem_revMap.mp hdep), erase_of_not_mem hmem]

lemma Inv.succeed (fr : FrontResult S I H) : ((l.complete i).succeed tasks r.key fr).Inv tasks := by
  set l' := (l.complete i).succeed tasks r.key fr
  have hrun := runningKeys_complete hi
  have hr : r.key ∈ l.runningKeys := hrun.mem_iff.mp mem_cons_self
  obtain ⟨hnot, hnodup⟩ := nodup_cons.mp (hrun.nodup_iff.mpr h.running_nodup)
  have hfailed {k} : l'.Failed k ↔ l.Failed k := by
    simp [Failed, l', Loop.succeed, complete]
  have hblocked {k} : l'.Blocked tasks k ↔ l.Blocked tasks k := by
    simp [Blocked, hfailed]
  have hstarted : l'.started = l.started := by
    cases hjob : fr.frBackJob <;> simp [started, l', Loop.succeed, complete, Event.started?, hjob]
  have hres {k} : (l'.res k).isSome ↔ k = r.key ∨ (l.res k).isSome := Map.isSome_insert ..
  have hres_none {k} : l'.res k = none ↔ k ≠ r.key ∧ l.res k = none := by
    rw [← not_isSome_iff_eq_none, hres, not_or, not_isSome_iff_eq_none]
  have hpend {k} : k ∈ l'.pend ↔ k ∈ l.pend ∧ k ≠ r.key := by
    simp [l', Loop.succeed, complete]
  have hpend_iff (k) : k ∈ l'.pend ↔
      k ∈ nonBuiltinKeys tasks ∧ l'.res k = none ∧ ¬ l'.Failed k ∧ ¬ l'.Blocked tasks k := by
    rw [hpend, h.pend_iff, hres_none, hfailed, hblocked]
    tauto
  -- a pending task is newly ready when no dependency is unfinished and it is not yet listed
  have hzero {k} (hk : k ∈ l'.pend) :
      l'.ind.findWithDefault 0 k = 0 ↔ ∀ d, DependsOn tasks k d → (l'.res d).isSome := by
    rw [Map.findWithDefault, ind_succeed hkeys h hi fr ((hpend_iff k).mp hk).1, getD_some,
      Int.natCast_eq_zero, length_eq_zero_iff, filter_eq_nil_iff]
    simp only [mem_deps hkeys, Bool.not_eq_true, isNone_eq_false_iff]
    rfl
  have hrdy {k} : k ∈ l'.rdy ↔ k ∈ l.rdy ∨ k ∈ l'.pend ∧
      (∀ d, DependsOn tasks k d → (l'.res d).isSome) ∧
        k ∉ l.rdy ∧ k ∉ (l.complete i).runningKeys := by
    have hsplit : k ∈ l'.rdy ↔ k ∈ l.rdy ∨ k ∈ l'.pend ∧ l'.ind.findWithDefault 0 k = 0 ∧
        k ∉ l.rdy ∧ k ∉ (l.complete i).runningKeys := by
      simp only [l', Loop.succeed, mem_append, mem_filter, Bool.and_eq_true,
        decide_eq_true_eq, Bool.not_eq_true', contains_eq_mem, decide_eq_false_iff_not,
        and_assoc]
      rfl
    rw [hsplit]
    exact or_congr_right (and_congr_right fun hk => and_congr_left fun _ => hzero hk)
  have hmem {k} (hk : k ∈ l'.started ++ l'.rdy) : k ∈ l.started ++ l.rdy ∨
      k ∈ l'.pend ∧ ∀ d, DependsOn tasks k d → (l'.res d).isSome := by
    rw [hstarted, mem_append, hrdy] at hk
    rw [mem_append]
    tauto
  constructor
  case res_iff =>
    intro k
    have hiff (x) : .frontResult k x ∈ l'.trace ↔
        .frontResult k x ∈ l.trace ∨ k = r.key ∧ x = fr := by
      cases hjob : fr.frBackJob <;> simp [l', Loop.succeed, complete, hjob]
    rw [hres, h.res_iff]
    simp only [hiff, exists_or, exists_and_left, exists_eq, and_true]
    exact or_comm
  case failed_res =>
    intro k hk
    rw [hfailed] at hk
    refine hres_none.mpr ⟨?_, h.failed_res k hk⟩
    rintro rfl
    exact (h.running_open _ hr).2 hk
  case hadErrors_iff =>
    simp only [hfailed]
    exact h.hadErrors_iff
  case started_iff =>
    intro k
    rw [hstarted, h.started_iff, hfailed, hres, ← hrun.mem_iff, mem_cons]
    change _ ↔ k ∈ (l.complete i).runningKeys ∨ _
    tauto
  case nodup =>
    rw [hstarted]
    change (l.started ++ (l.rdy ++ _)).Nodup
    rw [← append_assoc]
    refine List.Nodup.append h.nodup ((h.pend_nodup.filter _).filter _) fun k hk hnew => ?_
    obtain ⟨hk', hcond⟩ := mem_filter.mp hnew
    simp only [Bool.and_eq_true, Bool.not_eq_true', contains_eq_mem,
      decide_eq_false_iff_not] at hcond
    -- a pending task that is not running was not started
    obtain ⟨-, hnone, hf, -⟩ := (hpend_iff k).mp hk'
    obtain ⟨hne, hnone⟩ := hres_none.mp hnone
    rcases mem_append.mp hk with hk | hk
    · rcases (h.started_iff k).mp hk with hk | hk | hk
      · exact hcond.2 ((mem_cons.mp (hrun.mem_iff.mpr hk)).resolve_left hne)
      · simp [hnone] at hk
      · exact hf (hfailed.mpr hk)
    · exact hcond.1.2 hk
  case keys =>
    intro k hk
    rcases hmem hk with hk | ⟨hk, -⟩
    · exact h.keys k hk
    · exact ((hpend_iff k).mp hk).1
  case running_nodup => exact hnodup
  case running_open =>
    intro k hk
    obtain ⟨hnone, hf⟩ := h.running_open k (hrun.mem_iff.mp (mem_cons_of_mem _ hk))
    refine ⟨hres_none.mpr ⟨?_, hnone⟩, mt hfailed.mp hf⟩
    rintro rfl
    exact hnot hk
  case pend_nodup => exact h.pend_nodup.filter _
  case pend_iff => exact hpend_iff
  case deps_done =>
    intro k hk d hd
    rcases hmem hk with hk | ⟨-, hdone⟩
    · exact hres.mpr (.inr (h.deps_done k hk d hd))
    · exact hdone d hd
  case exhaustive =>
    intro k hk hdeps
    by_cases hrun' : k ∈ (l.complete i).runningKeys
    · exact .inr hrun'
    · refine .inl (hrdy.mpr ?_)
      by_cases hk' : k ∈ l.rdy
      · exact .inl hk'
      · exact .inr ⟨hk, hdeps, hk', hrun'⟩
  case ind_eq => exact fun k hk => ind_succeed hkeys h hi fr hk
  case snapshot => exact fun r hr => h.snapshot r (mem_of_mem_eraseIdx hr)
  case order =>
    change StartsAfterDeps tasks (l.trace ++ _ ++ _)
    rw [append_assoc]
    refine h.order.append fun k hk => ?_
    cases hjob : fr.frBackJob <;> simp [hjob] at hk

end
end Outcome
end Loop
end Acton.Compile
