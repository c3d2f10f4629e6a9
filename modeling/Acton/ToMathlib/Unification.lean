import Acton.ToMathlib.Triangular

/-!
# Unification with a triangular substitution

A unification algorithm keeps a triangular substitution in its state. A call brings two terms up to
date and compares their heads; then it goes on with subproblems, binds a variable, or fails. `Step`
says so of one call. If all calls are such steps, they terminate and compute most general unifiers
(`computes_of_step`). The induction is on the number of variables that can still be bound, and for
an unchanged substitution on the size of the two terms.

Terms may be classified into sorts (`Sorting`); bindings then respect the sorts.
-/

namespace TermAlgebra
open List

/-- Sorts of terms that substitution preserves. -/
structure Sorting (κ V T : Type) [TermAlgebra V T] where
  has : κ → T → Prop
  /-- The sort of a variable. -/
  sort : V → κ
  has_var : ∀ k v, has k (var v) ↔ k = sort v
  has_bind : ∀ k t θ, has k t → (∀ v ∈ vars t, has (sort v) (θ v)) → has k (bind t θ)

variable {κ V T S : Type} [TermAlgebra V T] {A : Sorting κ V T}
namespace Sorting

/-- Each variable is bound to a term of its sort. -/
def Sorted (A : Sorting κ V T) (σ : V → Option T) : Prop := ∀ v t, σ v = some t → A.has (A.sort v) t

variable {σ : V → Option T} {k : κ} {t : T}

lemma Sorted.has_bind_resolve (hσ : A.Sorted σ) (h : WellFounded (Dep σ)) (ht : A.has k t) :
    A.has k (bind t (resolve h)) := by
  refine A.has_bind k t _ ht fun v hv => ?_
  clear hv
  induction v using h.induction with
  | _ v ih =>
    cases hv : σ v with
    | none => exact resolve_of_none h hv ▸ (A.has_var _ v).mpr rfl
    | some t =>
      rw [resolve_of_some h hv]
      exact A.has_bind _ t _ (hσ v t hv) fun w hw => ih w ⟨t, hv, hw⟩

lemma Sorted.update [DecidableEq V] (hσ : A.Sorted σ) {u : V} (ht : A.has (A.sort u) t) :
    A.Sorted (Function.update σ u (some t)) := by
  intro v t' hv
  by_cases hvu : v = u
  · subst hvu
    obtain rfl : t = t' := by simpa using hv
    exact ht
  · rw [Function.update_of_ne hvu] at hv
    exact hσ v t' hv

end Sorting

/-- `ps` are the subproblems of unifying `t₁` and `t₂`: solving them is solving the problem, and
they are smaller and over the same variables. -/
structure Decomposes [SizeOf T] (t₁ t₂ : T) (ps : List (T × T)) : Prop where
  eq_iff : ∀ θ, bind t₁ θ = bind t₂ θ ↔ ∀ p ∈ ps, bind p.1 θ = bind p.2 θ
  size_lt : ∀ p ∈ ps, sizeOf p.1 + sizeOf p.2 < sizeOf t₁ + sizeOf t₂
  vars_subset : ∀ p ∈ ps, ∀ v, v ∈ vars p.1 ∨ v ∈ vars p.2 → v ∈ vars t₁ ∨ v ∈ vars t₂

lemma map_bind_eq_iff {ts1 ts2 : List T} (hlen : ts1.length = ts2.length) (θ : V → T) :
    (ts1.map fun t => bind t θ) = (ts2.map fun t => bind t θ) ↔
      ∀ p ∈ ts1.zip ts2, bind p.1 θ = bind p.2 θ := by
  induction ts1 generalizing ts2 with
  | nil =>
    obtain rfl : ts2 = [] := length_eq_zero_iff.mp hlen.symm
    simp
  | cons t ts ih =>
    cases ts2 with
    | nil => simp at hlen
    | cons t₂ ts2 => simp [ih (by simpa using hlen)]

variable (σ : S → V → Option T) (run : T → T → S → Option S → Prop)

/-- Problems solved one after the other, up to the first that fails. -/
inductive Seq : List (T × T) → S → Option S → Prop
  | nil (s : S) : Seq [] s (some s)
  | ok {p : T × T} {ps : List (T × T)} {s s₁ : S} {r : Option S} :
      run p.1 p.2 s (some s₁) → Seq ps s₁ r → Seq (p :: ps) s r
  | error {p : T × T} {ps : List (T × T)} {s : S} : run p.1 p.2 s none → Seq (p :: ps) s none

/-- What the call on `t₁` and `t₂` can do from `s`, if `t₁'` and `t₂'` are the terms brought up to
date. -/
inductive Step [DecidableEq V] [SizeOf T] (A : Sorting κ V T) (s : S) (t₁ t₂ t₁' t₂' : T) : Prop
  | decompose (ps : List (T × T)) (hps : Decomposes t₁' t₂' ps)
      (hsort : ∀ p ∈ ps, ∃ k, A.has k p.1 ∧ A.has k p.2)
      (hrun : ∀ r, Seq run ps s r → run t₁ t₂ s r)
  | bind (u : V) (t : T) (s' : S) (hvar : t₁' = var u ∧ t₂' = t ∨ t₂' = var u ∧ t₁' = t)
      (hu : u ∉ vars t) (hs' : σ s' = Function.update (σ s) u (some t))
      (hrun : run t₁ t₂ s (some s'))
  | fail (hno : ∀ θ, TermAlgebra.bind t₁' θ ≠ TermAlgebra.bind t₂' θ) (hrun : run t₁ t₂ s none)

variable (A) in
/-- The results `R` of a run from `s`: it succeeds with a substitution whose solutions are the
solutions of `s` that satisfy `E`, or it fails and there are none. What the run leaves extends `σ₀`
over `W`. -/
def Computes (R : Option S → Prop) (s : S) (W : Finset V) (σ₀ : V → Option T)
    (E : (V → T) → Prop) : Prop :=
  (∃ s', R (some s') ∧ Extends W σ₀ (σ s') ∧ A.Sorted (σ s') ∧
      ∀ θ, Solves θ (σ s') ↔ Solves θ (σ s) ∧ E θ) ∨
    R none ∧ ∀ θ, Solves θ (σ s) → ¬ E θ

variable {σ run} {R R' : Option S → Prop} {s : S} {W : Finset V} {σ₀ : V → Option T}
  {E E' : (V → T) → Prop}

/-- Only the solutions of `s` matter for the system solved. -/
theorem Computes.congr (h : Computes A σ R s W σ₀ E) (hR : ∀ r, R r → R' r)
    (hE : ∀ θ, Solves θ (σ s) → (E θ ↔ E' θ)) : Computes A σ R' s W σ₀ E' := by
  rcases h with ⟨s', hrun, hext, hsort, hsol⟩ | ⟨hrun, hno⟩
  · exact .inl ⟨s', hR _ hrun, hext, hsort, fun θ => (hsol θ).trans (and_congr_right (hE θ))⟩
  · exact .inr ⟨hR _ hrun, fun θ hθ h' => hno θ hθ ((hE θ hθ).mpr h')⟩

/-- A list of problems solved one after the other, each from the substitution that its
predecessors leave, solves all of them at once. -/
theorem computes_seq {ps : List (T × T)} (hext : Extends W σ₀ (σ s)) (hsort : A.Sorted (σ s))
    (h : ∀ p ∈ ps, ∀ s1, Extends W σ₀ (σ s1) → A.Sorted (σ s1) →
      Computes A σ (run p.1 p.2 s1) s1 (unbound (σ s1) W) (σ s1) fun θ => bind p.1 θ = bind p.2 θ) :
    Computes A σ (Seq run ps s) s W σ₀ fun θ => ∀ p ∈ ps, bind p.1 θ = bind p.2 θ := by
  induction ps generalizing s with
  | nil => exact .inl ⟨s, .nil s, hext, hsort, by simp⟩
  | cons p ps ih =>
    simp only [forall_mem_cons] at h ⊢
    rcases h.1 s hext hsort with ⟨s1, hrun, hext1, hsort1, hsol⟩ | ⟨hrun, hno⟩
    · rcases ih (hext.trans hext1) hsort1 h.2 with ⟨s2, hrun', hext2, hsort2, hsol'⟩ | ⟨hrun', hno⟩
      · exact .inl ⟨s2, .ok hrun hrun', hext2, hsort2, fun θ => by rw [hsol', hsol, and_assoc]⟩
      · exact .inr ⟨.ok hrun hrun', fun θ hθ hE => hno θ ((hsol θ).mpr ⟨hθ, hE.1⟩) hE.2⟩
    · exact .inr ⟨.error hrun, fun θ hθ hE => hno θ hθ hE.1⟩

section
variable [DecidableEq V] [SizeOf T] (hσ : Function.Injective σ)
  (hstep : ∀ s t₁ t₂ k (h : WellFounded (Dep (σ s))), A.has k (bind t₁ (resolve h)) →
    A.has k (bind t₂ (resolve h)) →
    Step σ run A s t₁ t₂ (bind t₁ (resolve h)) (bind t₂ (resolve h)))
include hσ hstep

lemma computes_of_mem {k : κ} {t₁ t₂ : T} (h : WellFounded (Dep (σ s))) (hs : A.Sorted (σ s))
    (h1 : A.has k t₁) (h2 : A.has k t₂) (hW : ∀ u ∈ W, σ s u = none)
    (hW1 : ∀ u ∈ vars (bind t₁ (resolve h)), u ∈ W)
    (hW2 : ∀ u ∈ vars (bind t₂ (resolve h)), u ∈ W) :
    Computes A σ (run t₁ t₂ s) s W (σ s) fun θ => bind t₁ θ = bind t₂ θ := by
  induction hc : W.card using Nat.strong_induction_on generalizing W s t₁ t₂ k with
  | _ c ihc =>
  induction hm : sizeOf (bind t₁ (resolve h)) + sizeOf (bind t₂ (resolve h))
    using Nat.strong_induction_on generalizing t₁ t₂ k with
  | _ m ihm =>
  have hsort1 := hs.has_bind_resolve h h1
  have hsort2 := hs.has_bind_resolve h h2
  have hdo := hstep s t₁ t₂ k h hsort1 hsort2
  have heq : ∀ θ, Solves θ (σ s) → (bind (bind t₁ (resolve h)) θ = bind (bind t₂ (resolve h)) θ ↔
      bind t₁ θ = bind t₂ θ) := fun θ hθ => by
    rw [hθ.bind_bind_resolve h, hθ.bind_bind_resolve h]
  generalize bind t₁ (resolve h) = t₁' at *
  generalize bind t₂ (resolve h) = t₂' at *
  rcases hdo with ⟨ps, hps, hsort, hrun⟩ | ⟨u, t, s', hvar, hu, hs', hrun⟩ | ⟨hno, hrun⟩
  · refine (computes_seq (.refl h) hs fun p hp s1 hext hs1 => ?_).congr hrun
      fun θ hθ => (hps.eq_iff θ).symm.trans (heq θ hθ)
    have hp1 : ∀ u ∈ vars p.1, u ∈ W := fun u hu =>
      (hps.vars_subset p hp u (.inl hu)).elim (hW1 u) (hW2 u)
    have hp2 : ∀ u ∈ vars p.2, u ∈ W := fun u hu =>
      (hps.vars_subset p hp u (.inr hu)).elim (hW1 u) (hW2 u)
    obtain ⟨k', hk1, hk2⟩ := hsort p hp
    have hW1' := hext.mem_unbound_of_mem_vars hW hp1
    have hW2' := hext.mem_unbound_of_mem_vars hW hp2
    by_cases hsame : unbound (σ s1) W = W
    · -- nothing bound so far: the subproblem is a part of the two terms
      obtain rfl := hσ (hext.eq_of_unbound_eq hsame)
      rw [hsame] at hW1' hW2' ⊢
      have e1 := bind_resolve_of_none h fun u hu => hW u (hp1 u hu)
      have e2 := bind_resolve_of_none h fun u hu => hW u (hp2 u hu)
      have hlt := hps.size_lt p hp
      exact ihm _ (by rw [e1, e2]; omega) hk1 hk2 hW1' hW2' rfl
    · -- some variable of `W` is bound by now
      have hlt : (unbound (σ s1) W).card < c := by
        rw [← hc]
        exact Finset.card_lt_card ((Finset.filter_subset _ _).ssubset_of_ne hsame)
      exact ihc _ hlt hext.wellFounded hs1 hk1 hk2 (fun u hu => (mem_unbound.mp hu).2) hW1' hW2' rfl
  · -- `u` is one of the two terms and `t` is the other
    have hvar' : u ∈ W ∧ (∀ x ∈ vars t, x ∈ W) ∧ A.has (A.sort u) t ∧
        ∀ θ, bind t₁' θ = bind t₂' θ ↔ θ u = bind t θ := by
      have hmem : u ∈ vars (var u : T) := (mem_vars_var u u).mpr rfl
      rcases hvar with ⟨rfl, rfl⟩ | ⟨rfl, rfl⟩
      · exact ⟨hW1 u hmem, hW2, (A.has_var k u).mp hsort1 ▸ hsort2, fun θ => by rw [bind_var]⟩
      · exact ⟨hW2 u hmem, hW1, (A.has_var k u).mp hsort2 ▸ hsort1,
          fun θ => by rw [bind_var, eq_comm]⟩
    obtain ⟨huW, htW, ht, hbind⟩ := hvar'
    refine .inl ⟨s', hrun, hs' ▸ .update h hW huW htW hu, hs' ▸ hs.update ht, fun θ => ?_⟩
    rw [hs', solves_update_iff (hW u huW)]
    exact and_congr_right fun hθ => (hbind θ).symm.trans (heq θ hθ)
  · exact .inr ⟨hrun, fun θ hθ h' => hno θ ((heq θ hθ).mpr h')⟩

/-- Calls that are steps compute most general unifiers. -/
theorem computes_of_step {k : κ} {t₁ t₂ : T} (h : WellFounded (Dep (σ s))) (hs : A.Sorted (σ s))
    (h1 : A.has k t₁) (h2 : A.has k t₂) :
    (∃ s', run t₁ t₂ s (some s') ∧ WellFounded (Dep (σ s')) ∧ A.Sorted (σ s') ∧
      ∀ θ, Solves θ (σ s') ↔ Solves θ (σ s) ∧ bind t₁ θ = bind t₂ θ) ∨
    run t₁ t₂ s none ∧ ∀ θ, Solves θ (σ s) → bind t₁ θ ≠ bind t₂ θ := by
  let W := (vars (bind t₁ (resolve h)) ++ vars (bind t₂ (resolve h))).toFinset
  have hW : ∀ u ∈ W, σ s u = none := fun u hu =>
    (mem_append.mp (mem_toFinset.mp hu)).elim (eq_none_of_mem_vars_bind_resolve h)
      (eq_none_of_mem_vars_bind_resolve h)
  exact (computes_of_mem hσ hstep h hs h1 h2 hW
    (fun u hu => mem_toFinset.mpr (mem_append_left _ hu))
    fun u hu => mem_toFinset.mpr (mem_append_right _ hu)).imp_left
    fun ⟨s', hrun, hext, hrest⟩ => ⟨s', hrun, hext.wellFounded, hrest⟩

end
end TermAlgebra
