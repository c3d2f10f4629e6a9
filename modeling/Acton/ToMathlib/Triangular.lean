import Mathlib.Tactic

/-!
# Triangular substitutions

A *triangular* substitution is a partial map `σ : V → Option T` from variables to terms whose
right-hand sides may again mention variables bound by `σ`, as long as no variable depends on
itself. Applying it means looking variables up until only unbound ones are left.

The terms are an arbitrary `TermAlgebra`.

* `Solves θ σ`: `θ` satisfies every equation `x = σ x`. `resolve` is such a solution and every
  other one factors through it (`Solves.bind_resolve`).
* `wellFounded_dep_update`: binding an unbound variable to a resolved term in which it does not
  occur keeps the map triangular; this is what the occurs check of unification buys.
-/

/-- Terms `T` over variables `V`: simultaneous substitution `bind`, and the list `vars` of the
variables that occur in a term. -/
class TermAlgebra (V : outParam Type) (T : Type) where
  /-- A variable as a term. -/
  var : V → T
  /-- Simultaneous substitution. -/
  bind : T → (V → T) → T
  /-- The variables of a term. -/
  vars : T → List V
  bind_var : ∀ v f, bind (var v) f = f v
  bind_pure : ∀ t, bind t var = t
  bind_bind : ∀ t f g, bind (bind t f) g = bind t fun v => bind (f v) g
  bind_congr : ∀ t f g, (∀ v ∈ vars t, f v = g v) → bind t f = bind t g
  mem_vars_var : ∀ v w, w ∈ vars (var v) ↔ w = v
  mem_vars_bind : ∀ t f w, w ∈ vars (bind t f) ↔ ∃ v ∈ vars t, w ∈ vars (f v)

namespace TermAlgebra
open Option Function
variable {V T : Type} [TermAlgebra V T]

/-- `x` occurs in the term that `σ` binds to `y`. -/
def Dep (σ : V → Option T) (x y : V) : Prop := ∃ t, σ y = some t ∧ x ∈ vars t

/-- No variable depends on itself through `σ`. -/
def Acyclic (σ : V → Option T) : Prop := ∀ x, ¬ Relation.TransGen (Dep σ) x x

/-- `θ` satisfies each equation `x = t` recorded in `σ`. -/
def Solves (θ : V → T) (σ : V → Option T) : Prop := ∀ x t, σ x = some t → θ x = bind t θ

variable {σ : V → Option T} {x : V}

lemma acc_dep_of_none (hx : σ x = none) : Acc (Dep σ) x :=
  Acc.intro x fun y ⟨t, ht, _⟩ => by simp [hx] at ht

/-- On a map that binds finitely many variables, acyclicity is well-foundedness. -/
theorem Acyclic.wellFounded (h : Acyclic σ) (hfin : {x | σ x ≠ none}.Finite) :
    WellFounded (Dep σ) := by
  have : Finite {x // σ x ≠ none} := hfin
  -- on the bound variables the transitive closure is a strict order over a finite type
  let r : {x // σ x ≠ none} → {x // σ x ≠ none} → Prop :=
    fun x y => Relation.TransGen (Dep σ) x.1 y.1
  have : IsTrans _ r := ⟨fun x y z => Relation.TransGen.trans⟩
  have : Std.Irrefl r := ⟨fun x => h x.1⟩
  have hr : WellFounded r := Finite.wellFounded_of_trans_of_irrefl r
  have hbound : ∀ x : {x // σ x ≠ none}, Acc (Dep σ) x.1 := by
    intro x
    induction x using hr.induction with
    | _ x ih =>
      refine Acc.intro _ fun y hy => ?_
      by_cases hσ : σ y = none
      · exact acc_dep_of_none hσ
      · exact ih ⟨y, hσ⟩ (Relation.TransGen.single hy)
  refine ⟨fun x => ?_⟩
  by_cases hσ : σ x = none
  · exact acc_dep_of_none hσ
  · exact hbound ⟨x, hσ⟩

lemma acyclic_of_wellFounded (h : WellFounded (Dep σ)) : Acyclic σ := by
  intro x hx
  exact h.transGen.irrefl.irrefl x hx

section Resolve
variable {σ : V → Option T} (h : WellFounded (Dep σ))
open Classical in
/-- The substitution that `σ` stands for: look variables up until only unbound ones remain. -/
noncomputable def resolve : V → T := h.fix fun x ih =>
    match hσ : σ x with
    | none => var x
    | some t => bind t fun y => if hy : y ∈ vars t then ih y ⟨t, hσ, hy⟩ else var y

lemma resolve_of_none (hx : σ x = none) : resolve h x = var x := by
  rw [resolve, WellFounded.fix_eq]
  split
  · rfl
  · rename_i t ht
    simp [hx] at ht

lemma resolve_of_some {t : T} (hx : σ x = some t) : resolve h x = bind t (resolve h) := by
  rw [resolve, WellFounded.fix_eq]
  split
  · rename_i ht
    simp [hx] at ht
  · rename_i t' ht
    obtain rfl : t' = t := mem_unique ht hx
    refine bind_congr _ _ _ fun y hy => ?_
    simp [hy]

lemma solves_resolve : Solves (resolve h) σ :=
  fun _ _ hx => resolve_of_some h hx

/-- Only unbound variables are left after `resolve`. -/
theorem eq_none_of_mem_vars_resolve {x y : V} (hy : y ∈ vars (resolve h x)) : σ y = none := by
  induction x using h.induction with
  | _ x ih =>
    cases hx : σ x with
    | none =>
      rw [resolve_of_none h hx, mem_vars_var] at hy
      rwa [hy]
    | some t =>
      rw [resolve_of_some h hx, mem_vars_bind] at hy
      obtain ⟨z, hz, hyz⟩ := hy
      exact ih z ⟨t, hx, hz⟩ hyz

/-- Only unbound variables are left in a resolved term. -/
theorem eq_none_of_mem_vars_bind_resolve {t : T} {y : V}
    (hy : y ∈ vars (bind t (resolve h))) : σ y = none := by
  obtain ⟨x, _, hx⟩ := (mem_vars_bind _ _ _).mp hy
  exact eq_none_of_mem_vars_resolve h hx

/-- A term without bound variables is left alone. -/
theorem bind_resolve_of_none {t : T} (ht : ∀ x ∈ vars t, σ x = none) : bind t (resolve h) = t := by
  calc bind t (resolve h) = bind t var :=
        bind_congr _ _ _ fun x hx => resolve_of_none h (ht x hx)
    _ = t := bind_pure t

/-- Every solution of `σ` factors through `resolve`. -/
theorem Solves.bind_resolve {θ : V → T} (hθ : Solves θ σ) (x : V) : bind (resolve h x) θ = θ x := by
  induction x using h.induction with
  | _ x ih =>
    cases hx : σ x with
    | none => rw [resolve_of_none h hx, bind_var]
    | some t =>
      rw [resolve_of_some h hx, bind_bind, hθ x t hx]
      exact bind_congr _ _ _ fun y hy => ih y ⟨t, hx, hy⟩

/-- A solution of `σ` gives a term and its resolved form the same value. -/
theorem Solves.bind_bind_resolve {θ : V → T} (hθ : Solves θ σ) (t : T) :
    bind (bind t (resolve h)) θ = bind t θ := by
  rw [bind_bind]
  exact bind_congr _ _ _ fun x _ => hθ.bind_resolve h x

/-- `resolve` maps the variables of `W` to terms over `W`, if `σ` binds variables of `W` only to
terms over `W`. -/
theorem mem_of_mem_vars_resolve {W : Set V} (hW : ∀ x ∈ W, ∀ t, σ x = some t → ∀ y ∈ vars t, y ∈ W)
    (hx : x ∈ W) : ∀ y ∈ vars (resolve h x), y ∈ W := by
  induction x using h.induction with
  | _ x ih =>
    intro y hy
    cases hσ : σ x with
    | none =>
      rw [resolve_of_none h hσ, mem_vars_var] at hy
      rwa [hy]
    | some t =>
      rw [resolve_of_some h hσ, mem_vars_bind] at hy
      obtain ⟨z, hz, hyz⟩ := hy
      exact ih z ⟨t, hσ, hz⟩ (hW x hx t hσ z hz) y hyz

end Resolve
section Update
variable [DecidableEq V] {σ : V → Option T} {u : V} {t : T}

/-- Binding `u` to a term over unbound variables other than `u` keeps the dependency relation
well founded. -/
theorem wellFounded_dep_update (h : WellFounded (Dep σ)) (ht : ∀ x ∈ vars t, σ x = none)
    (hu : u ∉ vars t) : WellFounded (Dep (update σ u (some t))) := by
  have hvars : ∀ x ∈ vars t, update σ u (some t) x = none := by
    intro x hx
    have hxu : x ≠ u := fun h => hu (h ▸ hx)
    rw [update_of_ne hxu]
    exact ht x hx
  have hacc : Acc (Dep (update σ u (some t))) u := by
    refine Acc.intro _ fun y ⟨t', ht', hy⟩ => ?_
    obtain rfl : t = t' := by simpa using ht'
    exact acc_dep_of_none (hvars y hy)
  refine ⟨fun x => ?_⟩
  induction x using h.induction with
  | _ x ih =>
    by_cases hx : x = u
    · exact hx ▸ hacc
    · refine Acc.intro _ fun y ⟨t', ht', hy⟩ => ih y ⟨t', ?_, hy⟩
      rwa [update_of_ne hx] at ht'

/-- The solutions of an extended substitution are the solutions of the old one that also satisfy
the new equation. -/
theorem solves_update_iff (hu : σ u = none) {θ : V → T} :
    Solves θ (update σ u (some t)) ↔ Solves θ σ ∧ θ u = bind t θ := by
  constructor
  · intro h
    refine ⟨fun x t' hx => h x t' ?_, h u t (by simp)⟩
    have hxu : x ≠ u := by
      rintro rfl
      simp [hu] at hx
    rwa [update_of_ne hxu]
  · rintro ⟨h, heq⟩ x t' hx
    by_cases hxu : x = u
    · subst hxu
      obtain rfl : t = t' := by simpa using hx
      exact heq
    · rw [update_of_ne hxu] at hx
      exact h x t' hx

end Update
section Extends
variable {σ σ₁ σ2 : V → Option T} {W : Finset V} {u : V} {t : T}

/-- The variables of `W` that `σ` leaves unbound. -/
def unbound (σ : V → Option T) (W : Finset V) : Finset V := W.filter fun u => (σ u).isNone

omit [TermAlgebra V T] in
lemma mem_unbound : u ∈ unbound σ W ↔ u ∈ W ∧ σ u = none := by
  rw [unbound, Finset.mem_filter, isNone_iff_eq_none]

/-- `σ₁` extends `σ` by bindings of variables of `W` to terms over `W`. -/
structure Extends (W : Finset V) (σ σ₁ : V → Option T) : Prop where
  wellFounded : WellFounded (Dep σ₁)
  new : ∀ u, σ₁ u ≠ σ u → u ∈ W ∧ ∃ t, σ₁ u = some t ∧ ∀ x ∈ vars t, x ∈ W

namespace Extends

lemma refl (h : WellFounded (Dep σ)) : Extends W σ σ := ⟨h, fun _ hu => absurd rfl hu⟩

/-- Extensions compose; the second one works on the variables that the first one left. -/
theorem trans (h1 : Extends W σ σ₁) (h2 : Extends (unbound σ₁ W) σ₁ σ2) : Extends W σ σ2 := by
  refine ⟨h2.wellFounded, fun u hu => ?_⟩
  by_cases heq : σ2 u = σ₁ u
  · rw [heq] at hu ⊢
    exact h1.new u hu
  · obtain ⟨hW, t, ht, hvars⟩ := h2.new u heq
    exact ⟨(mem_unbound.mp hW).1, t, ht, fun x hx => (mem_unbound.mp (hvars x hx)).1⟩

/-- Terms over `W` stay over `W`, without the variables bound meanwhile. -/
theorem mem_unbound_of_mem_vars (h : Extends W σ σ₁) (hW : ∀ u ∈ W, σ u = none)
    (ht : ∀ u ∈ vars t, u ∈ W) : ∀ u ∈ vars (bind t (resolve h.wellFounded)), u ∈ unbound σ₁ W := by
  intro u hu
  refine mem_unbound.mpr ⟨?_, eq_none_of_mem_vars_bind_resolve h.wellFounded hu⟩
  obtain ⟨v, hv, huv⟩ := (mem_vars_bind _ _ _).mp hu
  refine mem_of_mem_vars_resolve h.wellFounded (W := fun u => u ∈ W) ?_ (ht v hv) u huv
  intro x hx t' hxt y hy
  obtain ⟨_, t'', ht'', hvars⟩ := h.new x (by rw [hW x hx, hxt]; simp)
  obtain rfl : t' = t'' := mem_unique hxt ht''
  exact hvars y hy

/-- A run that leaves all of `W` unbound has bound nothing. -/
theorem eq_of_unbound_eq (h : Extends W σ σ₁) (heq : unbound σ₁ W = W) : σ₁ = σ := by
  funext u
  by_contra hne
  obtain ⟨hu, t, ht, _⟩ := h.new u hne
  rw [← heq] at hu
  rw [(mem_unbound.mp hu).2] at ht
  cases ht

lemma update [DecidableEq V] (h : WellFounded (Dep σ)) (hW : ∀ u ∈ W, σ u = none) (hu : u ∈ W)
    (ht : ∀ x ∈ vars t, x ∈ W) (hut : u ∉ vars t) : Extends W σ (update σ u (some t)) := by
  refine ⟨wellFounded_dep_update h (fun x hx => hW x (ht x hx)) hut, fun v hv => ?_⟩
  have hvu : v = u := by
    by_contra hne
    exact hv (update_of_ne hne _ _)
  subst hvu
  exact ⟨hu, t, update_self _ _ _, ht⟩

end Extends
end Extends
section Identifies
variable {σ σ₁ σ2 : V → Option T}

/-- `σ₁` extends `σ` by making variables equal: what `σ` leaves unbound is a variable under `σ₁`. -/
structure Identifies (σ σ₁ : V → Option T) : Prop where
  wellFounded : WellFounded (Dep σ₁)
  solves : Solves (resolve wellFounded) σ
  isVar : ∀ x, σ x = none → ∃ y, resolve wellFounded x = var y

namespace Identifies

lemma refl (h : WellFounded (Dep σ)) : Identifies σ σ where
  wellFounded := h
  solves := solves_resolve h
  isVar x hx := ⟨x, resolve_of_none h hx⟩

/-- A variable under `σ` is a variable under `σ₁`. -/
theorem isVar_of_isVar (h : Identifies σ σ₁) (hσ : WellFounded (Dep σ))
    (hx : ∃ y, resolve hσ x = var y) : ∃ y, resolve h.wellFounded x = var y := by
  obtain ⟨y, hy⟩ := hx
  have hnone : σ y = none :=
    eq_none_of_mem_vars_resolve hσ (x := x) (hy ▸ (mem_vars_var y y).mpr rfl)
  obtain ⟨z, hz⟩ := h.isVar y hnone
  refine ⟨z, ?_⟩
  rw [← h.solves.bind_resolve hσ, hy, bind_var, hz]

lemma resolve_eq (h : Identifies σ σ₁) (hσ : WellFounded (Dep σ)) {x y : V}
    (hxy : resolve hσ x = resolve hσ y) : resolve h.wellFounded x = resolve h.wellFounded y := by
  rw [← h.solves.bind_resolve hσ, hxy, h.solves.bind_resolve hσ]

lemma trans (h1 : Identifies σ σ₁) (h2 : Identifies σ₁ σ2) : Identifies σ σ2 where
  wellFounded := h2.wellFounded
  solves x t hx := by
    have hsol := h2.solves
    rw [← hsol.bind_resolve h1.wellFounded, h1.solves x t hx, hsol.bind_bind_resolve h1.wellFounded]
  isVar x hx := h2.isVar_of_isVar h1.wellFounded (h1.isVar x hx)

/-- The variables of a term under `σ` become the variables of the term under `σ₁`. -/
theorem mem_vars_bind_resolve (h : Identifies σ σ₁) (hσ : WellFounded (Dep σ)) {t : T}
    (hx : x ∈ vars (bind t (resolve hσ))) :
    ∃ y ∈ vars (bind t (resolve h.wellFounded)), resolve h.wellFounded x = var y := by
  obtain ⟨y, hy⟩ := h.isVar x (eq_none_of_mem_vars_bind_resolve hσ hx)
  refine ⟨y, ?_, hy⟩
  rw [← h.solves.bind_bind_resolve hσ, mem_vars_bind]
  exact ⟨x, hx, hy ▸ (mem_vars_var y y).mpr rfl⟩

/-- Each variable of the term under `σ₁` comes from a variable of the term under `σ`. -/
theorem exists_of_mem_vars (h : Identifies σ σ₁) (hσ : WellFounded (Dep σ)) {t : T} {y : V}
    (hy : y ∈ vars (bind t (resolve h.wellFounded))) :
    ∃ x ∈ vars (bind t (resolve hσ)), resolve h.wellFounded x = var y := by
  rw [← h.solves.bind_bind_resolve hσ, mem_vars_bind] at hy
  obtain ⟨x, hx, hyx⟩ := hy
  obtain ⟨z, hz⟩ := h.isVar x (eq_none_of_mem_vars_bind_resolve hσ hx)
  rw [hz, mem_vars_var] at hyx
  exact ⟨x, hx, hyx ▸ hz⟩

lemma update [DecidableEq V] (h : WellFounded (Dep σ)) {u v : V} (hu : σ u = none)
    (hv : σ v = none) (huv : u ≠ v) :
    ∃ h' : Identifies σ (update σ u (some (var v : T))),
      resolve h'.wellFounded u = resolve h'.wellFounded v := by
  have hvars : ∀ x ∈ vars (var v : T), σ x = none := by
    intro x hx
    rw [mem_vars_var] at hx
    rwa [hx]
  have hwf := wellFounded_dep_update h hvars fun hmem => huv ((mem_vars_var v u).mp hmem)
  obtain ⟨hsol, hsame⟩ := (solves_update_iff hu).mp (solves_resolve hwf)
  rw [bind_var] at hsame
  refine ⟨⟨hwf, hsol, fun x hx => ?_⟩, hsame⟩
  by_cases hxu : x = u
  · refine ⟨v, ?_⟩
    rw [hxu, hsame, resolve_of_none]
    rwa [update_of_ne huv.symm]
  · refine ⟨x, resolve_of_none _ ?_⟩
    rwa [update_of_ne hxu]

end Identifies
end Identifies
end TermAlgebra
