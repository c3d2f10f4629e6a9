import Acton.ToMathlib.Listing

/-!
# The order of dependent projects

`projDepClosure` lists the projects that a project depends on, dependencies first. The search keeps
the projects on the path to the current one (`seen`), which stops it on cycles. It does not keep the
projects that are already listed, so a project is listed once for every path that leads to it: the
list has no duplicates only if the projects form a tree (`projDepClosure_correct_iff`).
-/

namespace Acton.Compile.DepClosure
open List

/-- What `projDepClosure` reads of a project: the names and the roots of its dependencies. -/
structure ProjCtx where
  projDeps : List (String × String)

/-- Projects by their roots. -/
abbrev ProjMap := List (String × ProjCtx)

def depsOf (ctxs : ProjMap) (p : String) : List String :=
  ((ctxs.lookup p).map fun ctx => ctx.projDeps.map Prod.snd).getD []

@[simp]
lemma depsOf_nil (p : String) : depsOf [] p = [] := rfl

@[simp]
lemma depsOf_cons (q : String) (ctx : ProjCtx) (ctxs : ProjMap) (p : String) :
    depsOf ((q, ctx) :: ctxs) p = if p = q then ctx.projDeps.map Prod.snd else depsOf ctxs p := by
  by_cases h : p = q
  · simp [depsOf, h]
  · simp [depsOf, lookup_cons, beq_eq_false_iff_ne.mpr h, h]

/-- The projects of the map that are not on the path, which become fewer with every step. -/
def unseen (ctxs : ProjMap) (seen : Finset String) : ℕ := ((ctxs.map Prod.fst).toFinset \ seen).card

lemma mem_keys_of_depsOf_ne_nil {ctxs : ProjMap} {p : String} (h : depsOf ctxs p ≠ []) :
    p ∈ ctxs.map Prod.fst := by
  by_contra hmem
  have hnone : ctxs.lookup p = none := by
    rw [lookup_eq_none_iff]
    intro q hq
    have hne : p ≠ q.1 := fun e => hmem (e ▸ mem_map_of_mem hq)
    simpa using hne
  simp [depsOf, hnone] at h

variable {seen : Finset String}

lemma unseen_insert_lt {ctxs : ProjMap} {p : String} (hp : p ∉ seen) (h : depsOf ctxs p ≠ []) :
    unseen ctxs (insert p seen) < unseen ctxs seen := by
  refine Finset.card_lt_card ?_
  rw [Finset.ssubset_iff_of_subset
    (Finset.sdiff_subset_sdiff subset_rfl (Finset.subset_insert p seen))]
  exact ⟨p, by simpa [hp] using mem_keys_of_depsOf_ne_nil h, by simp⟩

/-- A step of the search to the dependencies of a project that is not on the path. -/
theorem unseen_step {ctxs : ProjMap} {p : String} (hp : p ∉ seen) : Prod.Lex (· < ·) (· < ·)
      (unseen ctxs (insert p seen), 2 * (depsOf ctxs p).length) (unseen ctxs seen, 1) := by
  by_cases h : depsOf ctxs p = []
  · rw [h]
    have hle : unseen ctxs (insert p seen) ≤ unseen ctxs seen :=
      Finset.card_le_card (Finset.sdiff_subset_sdiff subset_rfl (Finset.subset_insert p seen))
    rcases hle.lt_or_eq with hlt | heq
    · exact .left _ _ hlt
    · exact heq ▸ .right _ Nat.one_pos
  · exact .left _ _ (unseen_insert_lt hp h)

mutual
/-- Put a project and what it depends on in front of `acc`. -/
def dfs (ctxs : ProjMap) (seen : Finset String) (acc : List String) (node : String) : List String :=
  if node ∈ seen then acc
  else node :: dfsAll ctxs (insert node seen) acc (depsOf ctxs node)
termination_by (unseen ctxs seen, 1)
decreasing_by exact unseen_step ‹_›

/-- The left fold of `dfs` over the dependencies of a project. -/
def dfsAll (ctxs : ProjMap) (seen : Finset String) (acc : List String) : List String → List String
  | [] => acc
  | n :: ns => dfsAll ctxs seen (dfs ctxs seen acc n) ns
termination_by ns => (unseen ctxs seen, 2 * ns.length)
end

/-- The projects below a root, dependencies first. -/
def projDepClosure (ctxs : ProjMap) (root : String) : List String := (dfs ctxs ∅ [] root).reverse

section Correctness
open Listing
variable {ctxs : ProjMap}

/-- All projects on the path are above the current one. -/
def OnPath (ctxs : ProjMap) (seen : Finset String) (node : String) : Prop :=
  ∀ p ∈ seen, ∃ d ∈ depsOf ctxs p, Reach (depsOf ctxs) d node

lemma OnPath.step {node n : String} (h : OnPath ctxs seen node) (hn : n ∈ depsOf ctxs node) :
    OnPath ctxs (insert node seen) n := by
  intro p hp
  rcases Finset.mem_insert.mp hp with rfl | hp
  · exact ⟨n, hn, .refl⟩
  · obtain ⟨d, hd, hreach⟩ := h p hp
    exact ⟨d, hd, hreach.tail hn⟩

mutual
/-- In a graph without cycles the path never stops the search. -/
theorem dfs_lists (hac : Acyclic (depsOf ctxs)) (seen : Finset String) (acc : List String)
    (node : String) (h : OnPath ctxs seen node) :
    ∃ l, dfs ctxs seen acc node = l ++ acc ∧ Lists (depsOf ctxs) node l := by
  have hnode : node ∉ seen := fun hmem => by
    obtain ⟨d, hd, hreach⟩ := h node hmem
    exact hac node d hd hreach
  obtain ⟨l, heq, hl⟩ := dfsAll_lists hac (insert node seen) acc (depsOf ctxs node)
    fun n hn => h.step hn
  refine ⟨node :: l, ?_, .cons hac hl⟩
  rw [dfs, if_neg hnode, heq, cons_append]
termination_by (unseen ctxs seen, 1)
decreasing_by exact unseen_step hnode

lemma dfsAll_lists (hac : Acyclic (depsOf ctxs)) (seen : Finset String) (acc : List String) :
    ∀ ns : List String, (∀ n ∈ ns, OnPath ctxs seen n) →
      ∃ l, dfsAll ctxs seen acc ns = l ++ acc ∧ ListsAll (depsOf ctxs) ns l
  | [], _ => ⟨[], by rw [dfsAll, nil_append], .nil⟩
  | n :: ns, h => by
    obtain ⟨l, heq, hl⟩ := dfs_lists hac seen acc n (h n mem_cons_self)
    obtain ⟨ls, heqs, hls⟩ := dfsAll_lists hac seen (l ++ acc) ns
      fun m hm => h m (mem_cons_of_mem n hm)
    refine ⟨ls ++ l, ?_, .cons hl hls⟩
    rw [dfsAll, heq, heqs, append_assoc]
termination_by ns => (unseen ctxs seen, 2 * ns.length)
end

lemma projDepClosure_lists (hac : Acyclic (depsOf ctxs)) (root : String) :
    Lists (depsOf ctxs) root (projDepClosure ctxs root).reverse := by
  obtain ⟨l, heq, hl⟩ := dfs_lists hac ∅ [] root (by simp [OnPath])
  rw [projDepClosure, reverse_reverse, heq, append_nil]
  exact hl

/-- Each project below the root is in the list once, and after its dependencies. -/
structure DependencyOrder (ctxs : ProjMap) (root : String) (l : List String) : Prop where
  mem_iff : ∀ p, p ∈ l ↔ Reach (depsOf ctxs) root p
  nodup : l.Nodup
  ordered : ∀ l₁ p l₂, l = l₁ ++ p :: l₂ → depsOf ctxs p ⊆ l₁

/-- The list is right exactly if no project is a dependency of two others (or twice of one). In
other graphs it still has all projects, after their dependencies, but some more than once. -/
theorem projDepClosure_correct_iff (ctxs : ProjMap) (hac : Acyclic (depsOf ctxs)) (root : String) :
    (∀ p, p ∈ projDepClosure ctxs root ↔ Reach (depsOf ctxs) root p) ∧
      (∀ l₁ p l₂, projDepClosure ctxs root = l₁ ++ p :: l₂ → depsOf ctxs p ⊆ l₁) ∧
      (DependencyOrder ctxs root (projDepClosure ctxs root) ↔ Tree (depsOf ctxs) root) := by
  have hl : Lists (depsOf ctxs) root (projDepClosure ctxs root).reverse :=
    projDepClosure_lists hac root
  have hmem : ∀ p, p ∈ projDepClosure ctxs root ↔ Reach (depsOf ctxs) root p := by
    intro p
    rw [← hl.mem_iff, mem_reverse]
  have hord : ∀ l₁ p l₂, projDepClosure ctxs root = l₁ ++ p :: l₂ → depsOf ctxs p ⊆ l₁ := by
    intro l₁ p l₂ heq
    have hsub : depsOf ctxs p ⊆ l₁.reverse := hl.ordered l₂.reverse p l₁.reverse (by simp [heq])
    exact fun d hd => mem_reverse.mp (hsub hd)
  have hnodup : (projDepClosure ctxs root).Nodup ↔ Tree (depsOf ctxs) root := by
    rw [← hl.nodup_iff, nodup_reverse]
  exact ⟨hmem, hord, fun h => hnodup.mp h.nodup, fun h => ⟨hmem, hnodup.mpr h, hord⟩⟩

/-- A project that depends on one library. -/
def chain : ProjMap := [("app", ⟨[("lib", "lib")]⟩)]

lemma mem_depsOf_chain {p d : String} : d ∈ depsOf chain p ↔ p = "app" ∧ d = "lib" := by
  by_cases hp : p = "app" <;> simp [chain, hp]

theorem projDepClosure_correct_chain :
    Acyclic (depsOf chain) ∧ DependencyOrder chain "app" (projDepClosure chain "app") := by
  have hac : Acyclic (depsOf chain) :=
    acyclic_of_rank (fun p => if p = "app" then 1 else 0) fun p d hd => by
      obtain ⟨rfl, rfl⟩ := mem_depsOf_chain.mp hd
      decide
  have htree : Tree (depsOf chain) "app" := by
    refine ⟨fun p _ => ?_, fun p q x _ _ hp hq => ?_⟩
    · by_cases hp : p = "app" <;> simp [chain, hp]
    · exact (mem_depsOf_chain.mp hp).1.trans (mem_depsOf_chain.mp hq).1.symm
  exact ⟨hac, (projDepClosure_correct_iff chain hac "app").2.2.mpr htree⟩

/-- Two libraries that depend on a third one. -/
def diamond : ProjMap :=
  [("app", ⟨[("left", "left"), ("right", "right")]⟩), ("left", ⟨[("base", "base")]⟩),
    ("right", ⟨[("base", "base")]⟩)]

/-- The shared library is listed once for each project that depends on it. -/
theorem projDepClosure_lists_twice : Acyclic (depsOf diamond) ∧
      projDepClosure diamond "app" = ["base", "left", "base", "right", "app"] ∧
      ¬ DependencyOrder diamond "app" (projDepClosure diamond "app") := by
  have heq : projDepClosure diamond "app" = ["base", "left", "base", "right", "app"] := by
    simp [projDepClosure, dfs, dfsAll, diamond]
  refine ⟨?_, heq, fun h => absurd (heq ▸ h.nodup) (by decide)⟩
  refine acyclic_of_rank
    (fun p => if p = "app" then 2 else if p = "left" ∨ p = "right" then 1 else 0) ?_
  intro p d hd
  by_cases happ : p = "app"
  · have hd' : d = "left" ∨ d = "right" := by
      simpa [diamond, happ] using hd
    rcases hd' with rfl | rfl <;> simp [happ]
  · by_cases hside : p = "left" ∨ p = "right"
    · have hd' : d = "base" := by
        rcases hside with rfl | rfl <;> simpa [diamond] using hd
      simp [hd', hside, happ]
    · rw [not_or] at hside
      simp [diamond, happ, hside] at hd

end Correctness
end Acton.Compile.DepClosure
