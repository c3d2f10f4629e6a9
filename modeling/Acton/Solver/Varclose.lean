import Acton.ToMathlib.Fuel

/-!
# The transitive closure of bounds between variables

The solver closes the relation "is below" between unification variables with a worklist: `clos`
keeps the pairs found so far in `cl` and puts the new consequences of a pair in front of the pending
ones. It stops when a pair `(x, y)` closes a cycle through the pairs in `cl`.

`varclose_correct`: the loop terminates; without a cycle the result is the transitive closure, and
with one it is a variable and some others on a common cycle. Pairs of equal variables do not occur
in the input. They come up only when both directions of a pair were found, so that the test for a
cycle succeeds on them.
-/

namespace Acton.Solver
open Relation List
variable {α : Type} [DecidableEq α]

def below (x : α) (cl : List (α × α)) : List α := (cl.filter fun p => p.2 = x).map Prod.fst
def above (y : α) (cl : List (α × α)) : List α := (cl.filter fun p => p.1 = y).map Prod.snd

/-- The loop of `varclose`. The answer is the closure, or a variable and others on a cycle. -/
def clos : ℕ → List (α × α) → List (α × α) → Option (Except (α × List α) (List (α × α)))
  | 0, _, _ => none
  | _ + 1, cl, [] => some (.ok cl)
  | n + 1, cl, (x, y) :: xys =>
      if (x, y) ∈ cl then clos n cl xys
      else
        let below_x := below x cl
        let above_y := above y cl
        let common := below_x.filter (· ∈ above_y)
        if common ≠ [] then some (.error (x, y :: common))
        else clos n ((x, y) :: cl) (below_x.map (·, y) ++ (above_y.map (x, ·) ++ xys))

def varclose (n : ℕ) (xys : List (α × α)) : Option (Except (α × List α) (List (α × α))) :=
  clos n [] xys

/-- The relation that a list of pairs stands for. -/
def Pairs (xys : List (α × α)) (a b : α) : Prop := (a, b) ∈ xys

/-- There is a cycle through `x` and all of `ys`. -/
def OnCycle (R : α → α → Prop) (x : α) (ys : List α) : Prop :=
  ∃ c, List.IsChain R (x :: (c ++ [x])) ∧ ∀ y ∈ ys, y ∈ x :: c

variable {R : α → α → Prop} {cl xys : List (α × α)} {a b x y v : α}

lemma mem_below : v ∈ below x cl ↔ (v, x) ∈ cl := by
  simp [below]

lemma mem_above : v ∈ above y cl ↔ (y, v) ∈ cl := by
  simp [above]

/-! ### Cycles -/

section Cycles
omit [DecidableEq α]

lemma exists_isChain_of_transGen (h : TransGen R a b) : ∃ c, List.IsChain R (a :: (c ++ [b])) := by
  induction h using TransGen.head_induction_on with
  | single hab => exact ⟨[], by simpa using hab⟩
  | @head a c hac _ ih =>
    obtain ⟨l, hl⟩ := ih
    exact ⟨c :: l, isChain_cons_cons.mpr ⟨hac, hl⟩⟩

lemma transGen_of_isChain {c : List α} (h : List.IsChain R (a :: (c ++ [b]))) : TransGen R a b := by
  induction c generalizing a with
  | nil => exact .single (by simpa using h)
  | cons x c ih =>
    obtain ⟨hax, hc⟩ := isChain_cons_cons.mp h
    exact .head hax (ih hc)

lemma isChain_join {l l' : List α} (h : List.IsChain R (a :: (l ++ [b])))
    (h' : List.IsChain R (b :: l')) : List.IsChain R (a :: (l ++ b :: l')) := by
  have : List.IsChain R ((a :: l) ++ b :: l') := isChain_split.mpr ⟨h, h'⟩
  exact this

/-- Variables that are reached from `x` and from which `x` is reached are on one cycle. -/
theorem onCycle_of_forall {ys : List α} (hx : TransGen R x x)
    (hys : ∀ y ∈ ys, TransGen R x y ∧ TransGen R y x) : OnCycle R x ys := by
  induction ys with
  | nil =>
    obtain ⟨c, hc⟩ := exists_isChain_of_transGen hx
    exact ⟨c, hc, by simp⟩
  | cons y ys ih =>
    obtain ⟨c, hc, hmem⟩ := ih fun z hz => hys z (by simp [hz])
    obtain ⟨l1, h1⟩ := exists_isChain_of_transGen (hys y (by simp)).1
    obtain ⟨l2, h2⟩ := exists_isChain_of_transGen (hys y (by simp)).2
    -- go to `y` and back, and then along the cycle of the others
    refine ⟨l1 ++ y :: (l2 ++ x :: c), ?_, fun z hz => ?_⟩
    · have := isChain_join h1 (isChain_join h2 hc)
      simpa using this
    · rcases mem_cons.mp hz with rfl | hz
      · simp
      · have := hmem z hz
        simp only [mem_cons, mem_append] at this ⊢
        tauto

end Cycles

/-! ### The invariant -/

/-- What the pairs in `cl` and the pending ones have to do with the relation. -/
structure Closing (R : α → α → Prop) (cl xys : List (α × α)) : Prop where
  /-- All pairs are in the transitive closure. -/
  sound : ∀ a b, (a, b) ∈ cl ∨ (a, b) ∈ xys → TransGen R a b
  /-- No pair of the relation is lost. -/
  complete : ∀ a b, R a b → (a, b) ∈ cl ∨ (a, b) ∈ xys
  /-- The consequences of two pairs in `cl` are there or pending. -/
  trans : ∀ a b c, (a, b) ∈ cl → (b, c) ∈ cl → (a, c) ∈ cl ∨ (a, c) ∈ xys
  /-- A pair of equal variables is pending only if `cl` has a cycle of two for it. -/
  loop : ∀ a, (a, a) ∈ xys → ∃ v, (v, a) ∈ cl ∧ (a, v) ∈ cl
  irrefl : ∀ a, (a, a) ∉ cl

namespace Closing
omit [DecidableEq α] in
lemma init (h : ∀ p ∈ xys, p.1 ≠ p.2) : Closing (Pairs xys) [] xys where
  sound a b hab := .single (by simpa [Pairs] using hab)
  complete a b hab := .inr hab
  trans a b c hab := by cases hab
  loop a ha := absurd rfl (h _ ha)
  irrefl a ha := by cases ha

omit [DecidableEq α] in
/-- A pair that was found already is dropped. -/
theorem skip (h : Closing R cl ((x, y) :: xys)) (hmem : (x, y) ∈ cl) : Closing R cl xys := by
  have hdrop : ∀ {a b}, (a, b) ∈ cl ∨ (a, b) ∈ (x, y) :: xys → (a, b) ∈ cl ∨ (a, b) ∈ xys := by
    rintro a b (hab | hab)
    · exact .inl hab
    · rcases mem_cons.mp hab with heq | hab
      · exact .inl (heq ▸ hmem)
      · exact .inr hab
  exact {
    sound := fun a b hab => h.sound a b (hab.imp_right (mem_cons_of_mem _))
    complete := fun a b hab => hdrop (h.complete a b hab)
    trans := fun a b c hab hbc => hdrop (h.trans a b c hab hbc)
    loop := fun a ha => h.loop a (mem_cons_of_mem _ ha)
    irrefl := h.irrefl }

/-- A new pair that closes no cycle is added with its consequences. -/
theorem add (h : Closing R cl ((x, y) :: xys)) (hcommon : ∀ v, (v, x) ∈ cl → (y, v) ∉ cl) :
    Closing R ((x, y) :: cl)
      ((below x cl).map (·, y) ++ ((above y cl).map (x, ·) ++ xys)) := by
  have hmem : ∀ {a b}, (a, b) ∈ (below x cl).map (·, y) ++ ((above y cl).map (x, ·) ++ xys) ↔
      (a, x) ∈ cl ∧ b = y ∨ (y, b) ∈ cl ∧ a = x ∨ (a, b) ∈ xys := by
    intro a b
    simp only [mem_append, mem_map, mem_below, mem_above, Prod.mk.injEq]
    constructor
    · rintro (⟨w, hw, rfl, rfl⟩ | ⟨w, hw, rfl, rfl⟩ | hab)
      · exact .inl ⟨hw, rfl⟩
      · exact .inr (.inl ⟨hw, rfl⟩)
      · exact .inr (.inr hab)
    · rintro (⟨hw, rfl⟩ | ⟨hw, rfl⟩ | hab)
      · exact .inl ⟨a, hw, rfl, rfl⟩
      · exact .inr (.inl ⟨b, hw, rfl, rfl⟩)
      · exact .inr (.inr hab)
  have hxy : TransGen R x y := h.sound x y (.inr mem_cons_self)
  have hcl : ∀ {a b}, (a, b) ∈ cl → TransGen R a b := fun hab => h.sound _ _ (.inl hab)
  refine ⟨?_, ?_, ?_, ?_, ?_⟩
  · rintro a b (hab | hab)
    · rcases mem_cons.mp hab with heq | hab
      · cases heq
        exact hxy
      · exact hcl hab
    · rcases hmem.mp hab with ⟨hax, rfl⟩ | ⟨hyb, rfl⟩ | hab
      · exact (hcl hax).trans hxy
      · exact hxy.trans (hcl hyb)
      · exact h.sound a b (.inr (mem_cons_of_mem _ hab))
  · intro a b hab
    rcases h.complete a b hab with hab | hab
    · exact .inl (mem_cons_of_mem _ hab)
    · rcases mem_cons.mp hab with heq | hab
      · exact .inl (heq ▸ mem_cons_self)
      · exact .inr (hmem.mpr (.inr (.inr hab)))
  · intro a b c hab hbc
    rcases mem_cons.mp hab with heq | hab <;> rcases mem_cons.mp hbc with heq' | hbc
    · cases heq
      cases heq'
      exact .inl mem_cons_self
    · cases heq
      exact .inr (hmem.mpr (.inr (.inl ⟨hbc, rfl⟩)))
    · cases heq'
      exact .inr (hmem.mpr (.inl ⟨hab, rfl⟩))
    · rcases h.trans a b c hab hbc with hac | hac
      · exact .inl (mem_cons_of_mem _ hac)
      · rcases mem_cons.mp hac with heq | hac
        · exact .inl (heq ▸ mem_cons_self)
        · exact .inr (hmem.mpr (.inr (.inr hac)))
  · intro a ha
    rcases hmem.mp ha with ⟨hax, rfl⟩ | ⟨hya, rfl⟩ | ha
    · exact ⟨x, mem_cons_self, mem_cons_of_mem _ hax⟩
    · exact ⟨y, mem_cons_of_mem _ hya, mem_cons_self⟩
    · obtain ⟨v, hva, hav⟩ := h.loop a (mem_cons_of_mem _ ha)
      exact ⟨v, mem_cons_of_mem _ hva, mem_cons_of_mem _ hav⟩
  · intro a ha
    rcases mem_cons.mp ha with heq | ha
    · -- the pair was pending, so the test for a cycle would have succeeded
      obtain ⟨rfl, rfl⟩ := Prod.mk.inj heq
      obtain ⟨v, hva, hav⟩ := h.loop a mem_cons_self
      exact hcommon v hva hav
    · exact h.irrefl a ha

omit [DecidableEq α] in
lemma mem_iff (h : Closing R cl []) : (a, b) ∈ cl ↔ TransGen R a b := by
  have hmem : ∀ {a b}, (a, b) ∈ cl ∨ (a, b) ∈ ([] : List (α × α)) → (a, b) ∈ cl := by simp
  refine ⟨fun hab => h.sound a b (.inl hab), fun hab => ?_⟩
  induction hab with
  | single hab => exact hmem (h.complete _ _ hab)
  | tail _ hbc ih => exact hmem (h.trans _ _ _ ih (hmem (h.complete _ _ hbc)))

end Closing

/-! ### The loop -/

/-- What the answer says about the relation. -/
def Answers (R : α → α → Prop) : Except (α × List α) (List (α × α)) → Prop
  | .ok cl => (∀ a b, (a, b) ∈ cl ↔ TransGen R a b) ∧ ∀ a, ¬ TransGen R a a
  | .error (x, ys) => ys ≠ [] ∧ OnCycle R x ys

lemma forall_of_common (h : (below x cl).filter (· ∈ above y cl) = []) (v : α)
    (hvx : (v, x) ∈ cl) : (y, v) ∉ cl := by
  have := filter_eq_nil_iff.mp h v (mem_below.mpr hvx)
  simpa [mem_above] using this

/-- The common variables are on a cycle with the new pair. -/
theorem onCycle_of_common (h : Closing R cl ((x, y) :: xys))
    (hcommon : (below x cl).filter (· ∈ above y cl) ≠ []) :
    OnCycle R x (y :: (below x cl).filter (· ∈ above y cl)) := by
  have hxy : TransGen R x y := h.sound x y (.inr mem_cons_self)
  have hmem : ∀ v ∈ (below x cl).filter (· ∈ above y cl), TransGen R v x ∧ TransGen R y v := by
    intro v hv
    simp only [mem_filter, mem_below, mem_above, decide_eq_true_iff] at hv
    exact ⟨h.sound v x (.inl hv.1), h.sound y v (.inl hv.2)⟩
  obtain ⟨v, hv⟩ := exists_mem_of_ne_nil _ hcommon
  have hyx : TransGen R y x := (hmem v hv).2.trans (hmem v hv).1
  refine onCycle_of_forall (hxy.trans hyx) fun z hz => ?_
  rcases mem_cons.mp hz with rfl | hz
  · exact ⟨hxy, hyx⟩
  · exact ⟨hxy.trans (hmem z hz).2, (hmem z hz).1⟩

lemma mem_pending {U : Finset α} (hp : (x, y) ∈ U ×ˢ U) (hcl : ∀ p ∈ cl, p ∈ U ×ˢ U)
    (hxys : ∀ p ∈ (x, y) :: xys, p ∈ U ×ˢ U) :
    ∀ p ∈ (below x cl).map (·, y) ++ ((above y cl).map (x, ·) ++ xys), p ∈ U ×ˢ U := by
  intro p hmem
  simp only [mem_append, mem_map, mem_below, mem_above] at hmem
  simp only [Finset.mem_product] at hp hcl ⊢
  obtain ⟨w, hw, rfl⟩ | ⟨w, hw, rfl⟩ | hmem := hmem
  · exact ⟨(hcl _ hw).1, hp.2⟩
  · exact ⟨hp.1, (hcl _ hw).2⟩
  · exact Finset.mem_product.mp (hxys p (mem_cons_of_mem _ hmem))

/-- The loop terminates: a round makes the pending pairs fewer, or the pairs over the variables `U`
that are still missing in `cl`. -/
theorem exists_converges_clos (U : Finset α) {k : ℕ}
    (hk : (U ×ˢ U).card - cl.toFinset.card ≤ k) (hcl : ∀ p ∈ cl, p ∈ U ×ˢ U)
    (hxys : ∀ p ∈ xys, p ∈ U ×ˢ U) (h : Closing R cl xys) :
    ∃ r, Fuel.Converges (clos · cl xys) r ∧ Answers R r := by
  induction k using Nat.strong_induction_on generalizing cl xys with
  | h k ihk =>
  induction xys with
  | nil =>
    refine ⟨.ok cl, ⟨1, fun n hn => ?_⟩, fun a b => h.mem_iff, fun a ha => ?_⟩
    · obtain ⟨m, rfl⟩ := Nat.exists_eq_add_of_le' hn
      rfl
    · exact h.irrefl a (h.mem_iff.mpr ha)
  | cons p xys ih =>
    obtain ⟨x, y⟩ := p
    have hpU : (x, y) ∈ U ×ˢ U := hxys _ mem_cons_self
    by_cases hmem : (x, y) ∈ cl
    · obtain ⟨r, hr, hans⟩ := ih (fun p hp => hxys p (mem_cons_of_mem _ hp)) (h.skip hmem)
      exact ⟨r, hr.of_succ fun n => by rw [clos, if_pos hmem], hans⟩
    have hstep : ∀ n, clos (n + 1) cl ((x, y) :: xys) =
        if (below x cl).filter (· ∈ above y cl) ≠ [] then
          some (.error (x, y :: (below x cl).filter (· ∈ above y cl)))
        else clos n ((x, y) :: cl)
          ((below x cl).map (·, y) ++ ((above y cl).map (x, ·) ++ xys)) := by
      intro n
      rw [clos, if_neg hmem]
    by_cases hcommon : (below x cl).filter (· ∈ above y cl) = []
    · -- one pair less is missing
      have hcard : ((x, y) :: cl).toFinset.card = cl.toFinset.card + 1 := by
        rw [toFinset_cons, Finset.card_insert_of_notMem (by simpa using hmem)]
      have hsub : ((x, y) :: cl).toFinset ⊆ U ×ˢ U := by
        intro p hp
        rcases mem_cons.mp (mem_toFinset.mp hp) with rfl | hp
        · exact hpU
        · exact hcl p hp
      have hle := Finset.card_le_card hsub
      obtain ⟨r, hr, hans⟩ := ihk (k - 1) (by omega) (by omega)
        (fun p hp => hsub (mem_toFinset.mpr hp)) (mem_pending hpU hcl hxys)
        (h.add (forall_of_common hcommon))
      exact ⟨r, hr.of_succ fun n => by rw [hstep, if_neg (by simp [hcommon])], hans⟩
    · refine ⟨.error (x, y :: (below x cl).filter (· ∈ above y cl)), ⟨1, fun n hn => ?_⟩,
        cons_ne_nil _ _, onCycle_of_common h hcommon⟩
      obtain ⟨m, rfl⟩ := Nat.exists_eq_add_of_le' hn
      exact (hstep m).trans (if_pos hcommon)

/-- `varclose` computes the transitive closure, or finds a cycle if there is one. -/
theorem varclose_correct (h : ∀ p ∈ xys, p.1 ≠ p.2) : ∃ r, Fuel.Converges (varclose · xys) r ∧
      ((∀ a, ¬ TransGen (Pairs xys) a a) →
        ∃ cl, r = .ok cl ∧ ∀ a b, (a, b) ∈ cl ↔ TransGen (Pairs xys) a b) ∧
      ((∃ a, TransGen (Pairs xys) a a) →
        ∃ x ys, r = .error (x, ys) ∧ ys ≠ [] ∧ OnCycle (Pairs xys) x ys) := by
  have hU : ∀ p ∈ xys, p ∈ (xys.map Prod.fst ++ xys.map Prod.snd).toFinset ×ˢ
      (xys.map Prod.fst ++ xys.map Prod.snd).toFinset := by
    intro p hp
    simp only [Finset.mem_product, mem_toFinset, mem_append]
    exact ⟨.inl (mem_map_of_mem hp), .inr (mem_map_of_mem hp)⟩
  obtain ⟨r, hr, hans⟩ := exists_converges_clos _ le_rfl (by simp) hU (Closing.init h)
  refine ⟨r, hr, fun hacyclic => ?_, fun ⟨a, ha⟩ => ?_⟩
  · cases r with
    | ok cl => exact ⟨cl, rfl, hans.1⟩
    | error e =>
      -- there is a cycle through `e.1`
      obtain ⟨-, c, hc, -⟩ := hans
      exact absurd (transGen_of_isChain hc) (hacyclic e.1)
  · cases r with
    | ok cl => exact absurd ha (hans.2 a)
    | error e => exact ⟨e.1, e.2, rfl, hans⟩

theorem varclose_correct_chain : ∃ r, Fuel.Converges (varclose · [(1, 2), (2, 3)]) r ∧
    ((∀ a, ¬ TransGen (Pairs [(1, 2), (2, 3)]) a a) →
      ∃ cl, r = .ok cl ∧ ∀ a b, (a, b) ∈ cl ↔ TransGen (Pairs [(1, 2), (2, 3)]) a b) ∧
    ((∃ a, TransGen (Pairs [(1, 2), (2, 3)]) a a) →
      ∃ x ys, r = .error (x, ys) ∧ ys ≠ [] ∧ OnCycle (Pairs [(1, 2), (2, 3)]) x ys) :=
  varclose_correct (by decide)

end Acton.Solver
