import Acton.TypeM
import Acton.ToMathlib.Triangular

/-!
# Substitution

## Unification variables

`ufree` lists the unification variables of a type and `usubst` replaces the ones that the current
substitution binds, again and again until none is left. The source's `usubst` calls itself on
what it finds in the map, so it loops on a cyclic substitution; here it takes fuel.

Over them stands the term algebra of types: `Ty.bind` substitutes simultaneously, and `ufree` are
its variables. For an acyclic substitution `usubst` computes `resolve`, the substitution that the
map stands for (`runs_usubst`).

## Type variables

`vsubst` replaces the type variables that a declaration quantifies over, by a list of pairs in
which the first match counts.
-/

namespace Acton
open TermAlgebra List TypeM.Runs

mutual
/-- The unification variables of a type, in order and with repetitions. -/
def ufree : Ty → List TUni
  | .tUni u => [u]
  | .tVar _ => []
  | .tCon _ ts => ufreeList ts
  | .tFun fx p k t => ufree fx ++ ufree p ++ ufree k ++ ufree t
  | .tTuple p k => ufree p ++ ufree k
  | .tOpt t => ufree t
  | .tNone => []
  | .tWild => []
  | .tNil _ => []
  | .tRow _ _ t r => ufree t ++ ufree r
  | .tStar _ r => ufree r
  | .tFX _ => []

/-- `concat . map ufree`. -/
def ufreeList : List Ty → List TUni
  | [] => []
  | t :: ts => ufree t ++ ufreeList ts
end

lemma mem_ufreeList {u : TUni} {ts : List Ty} : u ∈ ufreeList ts ↔ ∃ t ∈ ts, u ∈ ufree t := by
  induction ts with
  | nil => simp [ufreeList]
  | cons t ts ih => simp [ufreeList, ih]

/-- Replace the unification variables of a type by what the current substitution records for
them, also inside the replacements. -/
def usubst {ι : Type} : ℕ → Ty → TypeM ι Ty
  | 0, _ => TypeM.outOfFuel
  | n + 1, .tUni u => do
      let s ← TypeM.usubstitution
      match s.lookup u with
      | some t => usubst n t
      | none => return .tUni u
  | _ + 1, .tVar v => return .tVar v
  | n + 1, .tCon c ts => do
      let ts' ← ts.mapM (usubst n)
      return .tCon c ts'
  | n + 1, .tFun fx p k t => do
      let fx' ← usubst n fx
      let p' ← usubst n p
      let k' ← usubst n k
      let t' ← usubst n t
      return .tFun fx' p' k' t'
  | n + 1, .tTuple p k => do
      let p' ← usubst n p
      let k' ← usubst n k
      return .tTuple p' k'
  | n + 1, .tOpt t => do
      let t' ← usubst n t
      return .tOpt t'
  | _ + 1, .tNone => return .tNone
  | _ + 1, .tWild => return .tWild
  | _ + 1, .tNil k => return .tNil k
  | n + 1, .tRow k l t r => do
      let t' ← usubst n t
      let r' ← usubst n r
      return .tRow k l t' r'
  | n + 1, .tStar k r => do
      let r' ← usubst n r
      return .tStar k r'
  | _ + 1, .tFX fx => return .tFX fx

/-! ### Types as a term algebra -/

namespace Ty

mutual
/-- Simultaneous substitution of types for unification variables. -/
def bind : Ty → (TUni → Ty) → Ty
  | tUni u, θ => θ u
  | tVar v, _ => tVar v
  | tCon c ts, θ => tCon c (bindList ts θ)
  | tFun fx p k t, θ => tFun (bind fx θ) (bind p θ) (bind k θ) (bind t θ)
  | tTuple p k, θ => tTuple (bind p θ) (bind k θ)
  | tOpt t, θ => tOpt (bind t θ)
  | tNone, _ => tNone
  | tWild, _ => tWild
  | tNil k, _ => tNil k
  | tRow k l t r, θ => tRow k l (bind t θ) (bind r θ)
  | tStar k r, θ => tStar k (bind r θ)
  | tFX fx, _ => tFX fx

/-- `bind` on each type of a list. -/
def bindList : List Ty → (TUni → Ty) → List Ty
  | [], _ => []
  | t :: ts, θ => bind t θ :: bindList ts θ
end

@[simp]
lemma bindList_eq_map (ts : List Ty) (θ : TUni → Ty) :
    bindList ts θ = ts.map fun t => bind t θ := by
  induction ts with
  | nil => simp [bindList]
  | cons t ts ih => simp [bindList, ih]

lemma bind_pure (t : Ty) : bind t tUni = t := by
  induction t with
  | tCon c ts ih =>
    simp only [bind, bindList_eq_map, tCon.injEq, true_and]
    calc ts.map (fun t => bind t tUni) = ts.map id := map_congr_left ih
      _ = ts := map_id ts
  | _ => simp [bind, *]

lemma bind_bind (t : Ty) (f g : TUni → Ty) : bind (bind t f) g = bind t fun u => bind (f u) g := by
  induction t with
  | tCon c ts ih =>
    simp only [bind, bindList_eq_map, map_map, tCon.injEq, true_and]
    exact map_congr_left ih
  | _ => simp [bind, *]

lemma bind_congr (t : Ty) (f g : TUni → Ty) (h : ∀ u ∈ ufree t, f u = g u) :
    bind t f = bind t g := by
  induction t with
  | tUni u => exact h u (by simp [ufree])
  | tCon c ts ih =>
    simp only [bind, bindList_eq_map, tCon.injEq, true_and]
    exact map_congr_left fun t ht =>
      ih t ht fun u hu => h u (by simpa [ufree, mem_ufreeList] using ⟨t, ht, hu⟩)
  | tFun fx p k t hfx hp hk ht =>
    simp only [ufree, forall_mem_append] at h
    rw [bind, bind, hfx h.1.1.1, hp h.1.1.2, hk h.1.2, ht h.2]
  | tTuple p k hp hk =>
    rw [ufree, forall_mem_append] at h
    rw [bind, bind, hp h.1, hk h.2]
  | tRow k n t r ht hr =>
    rw [ufree, forall_mem_append] at h
    rw [bind, bind, ht h.1, hr h.2]
  | tOpt t ht => rw [bind, bind, ht h]
  | tStar k r hr => rw [bind, bind, hr h]
  | _ => rfl

lemma mem_ufree_bind (t : Ty) (f : TUni → Ty) (w : TUni) :
    w ∈ ufree (bind t f) ↔ ∃ u ∈ ufree t, w ∈ ufree (f u) := by
  induction t with
  | tCon c ts ih =>
    simp only [bind, ufree, bindList_eq_map, mem_ufreeList, mem_map, exists_exists_and_eq_and]
    constructor
    · rintro ⟨t, ht, hw⟩
      obtain ⟨u, hu, hwu⟩ := (ih t ht).mp hw
      exact ⟨u, ⟨t, ht, hu⟩, hwu⟩
    · rintro ⟨u, ⟨t, ht, hu⟩, hwu⟩
      exact ⟨t, ht, (ih t ht).mpr ⟨u, hu, hwu⟩⟩
  | _ => simp [bind, ufree, or_and_right, exists_or, *]

instance : TermAlgebra TUni Ty where
  var := tUni
  bind := bind
  vars := ufree
  bind_var _ _ := rfl
  bind_pure := bind_pure
  bind_bind := bind_bind
  bind_congr := bind_congr
  mem_vars_var v w := by simp [ufree]
  mem_vars_bind := mem_ufree_bind

end Ty
namespace UniSubst

/-- No unification variable depends on itself through the map. -/
def Acyclic (s : UniSubst) : Prop := TermAlgebra.Acyclic (T := Ty) fun u => s.lookup u
abbrev Founded (s : UniSubst) : Prop := WellFounded (Dep (T := Ty) fun u => s.lookup u)

lemma finite_bound (s : UniSubst) : {u | s.lookup u ≠ none}.Finite := by
  refine s.keys.finite_toSet.subset fun u hu => ?_
  rw [Finset.mem_coe, Finmap.mem_keys]
  by_contra hn
  exact hu (Finmap.lookup_eq_none.mpr hn)

lemma Acyclic.wellFounded {s : UniSubst} (h : s.Acyclic) : s.Founded :=
  TermAlgebra.Acyclic.wellFounded h s.finite_bound

lemma lookup_insert_eq_update (s : UniSubst) (u : TUni) (t : Ty) :
    (fun v => (s.insert u t).lookup v) = Function.update (fun v => s.lookup v) u (some t) := by
  funext v
  by_cases h : v = u
  · subst h
    simp
  · rw [Function.update_of_ne h, Finmap.lookup_insert_of_ne _ h]

end UniSubst

/-! ### `usubst` terminates on acyclic substitutions -/

section Usubst
variable {ι : Type} {s : UniSubst}

/-- `mapM` answers the list of the elements' answers, when they all leave the substitution as it
is. -/
theorem runs_mapM {α β : Type} {f : ℕ → α → TypeM ι β} {g : α → β} {xs : List α}
    (h : ∀ x ∈ xs, TypeM.Runs (fun n => f n x) s (.ok (g x)) s) :
    TypeM.Runs (fun n => xs.mapM (f n)) s (.ok (xs.map g)) s := by
  induction xs with
  | nil => exact pure _
  | cons x xs ih =>
    simp only [mapM_cons, map_cons]
    refine bind_ok (h x (by simp)) ?_
    exact bind_ok (ih fun x hx => h x (by simp [hx])) (pure _)

/-- One level of `usubst`: it terminates on a type if it does on the variables of the type. -/
theorem runs_usubst_of_vars {θ : TUni → Ty} (t : Ty)
    (h : ∀ u ∈ ufree t, TypeM.Runs (ι := ι) (fun n => usubst n (.tUni u)) s (.ok (θ u)) s) :
    TypeM.Runs (ι := ι) (fun n => usubst n t) s (.ok (t.bind θ)) s := by
  induction t with
  | tUni u => exact h u (by simp [ufree])
  | tCon c ts ih =>
    have hts := runs_mapM fun t ht =>
      ih t ht fun u hu => h u (by simpa [ufree, mem_ufreeList] using ⟨t, ht, hu⟩)
    rw [Ty.bind, Ty.bindList_eq_map]
    refine (hts.bind_ok ?_).of_succ fun n => rfl
    exact pure _
  | tFun fx p k t hfx hp hk ht =>
    simp only [ufree, forall_mem_append] at h
    refine ((hfx h.1.1.1).bind_ok ?_).of_succ fun n => rfl
    refine (hp h.1.1.2).bind_ok ?_
    refine (hk h.1.2).bind_ok ?_
    exact (ht h.2).bind_ok (pure _)
  | tTuple p k hp hk =>
    rw [ufree, forall_mem_append] at h
    refine ((hp h.1).bind_ok ?_).of_succ fun n => rfl
    exact (hk h.2).bind_ok (pure _)
  | tRow k n t r ht hr =>
    rw [ufree, forall_mem_append] at h
    refine ((ht h.1).bind_ok ?_).of_succ fun n => rfl
    exact (hr h.2).bind_ok (pure _)
  | tOpt t ht =>
    refine ((ht h).bind_ok ?_).of_succ fun n => rfl
    exact pure _
  | tStar k r hr =>
    refine ((hr h).bind_ok ?_).of_succ fun n => rfl
    exact pure _
  | _ => exact (pure _).of_succ fun n => rfl

lemma runs_usubst_tUni_none {u : TUni} (hu : s.lookup u = none) :
    TypeM.Runs (ι := ι) (fun n => usubst n (.tUni u)) s (.ok (.tUni u)) s := by
  refine Fuel.Converges.of_succ (Fuel.Converges.const _) fun n => ?_
  simp [usubst, TypeM.runWith_bind, TypeM.andThen, hu]

lemma runs_usubst_tUni_some {u : TUni} {t t' : Ty} (hu : s.lookup u = some t)
    (ht : TypeM.Runs (ι := ι) (fun n => usubst n t) s (.ok t') s) :
    TypeM.Runs (ι := ι) (fun n => usubst n (.tUni u)) s (.ok t') s := by
  refine Fuel.Converges.of_succ ht fun n => ?_
  simp [usubst, TypeM.runWith_bind, TypeM.andThen, hu]

/-- On an acyclic substitution `usubst` terminates on every type and computes the substitution
that the map stands for. -/
theorem runs_usubst (h : s.Founded) (t : Ty) :
    TypeM.Runs (ι := ι) (fun n => usubst n t) s (.ok (t.bind (resolve h))) s := by
  -- well-founded induction along the dependencies of the map
  have hvar : ∀ u, TypeM.Runs (ι := ι) (fun n => usubst n (.tUni u)) s (.ok (resolve h u)) s := by
    intro u
    induction u using h.induction with
    | _ u ih =>
      cases hu : s.lookup u with
      | none =>
        rw [resolve_of_none h hu]
        exact runs_usubst_tUni_none hu
      | some t =>
        rw [resolve_of_some h hu]
        exact runs_usubst_tUni_some hu
          (runs_usubst_of_vars t fun v hv => ih v ⟨t, hu, hv⟩)
  exact runs_usubst_of_vars t fun u _ => hvar u

/-- `usubst` leaves only unbound variables, so that it changes nothing when it is used again. -/
theorem usubst_usubst (s : {s : UniSubst // s.Acyclic}) (t : Ty) : ∃ t',
    TypeM.Runs (ι := ι) (fun n => usubst n t) s (.ok t') s ∧ (∀ u ∈ ufree t', s.1.lookup u = none) ∧
      TypeM.Runs (ι := ι) (fun n => usubst n t') s (.ok t') s := by
  have h := s.2.wellFounded
  have hnone := fun u => eq_none_of_mem_vars_bind_resolve h (t := t) (y := u)
  have heq : (t.bind (resolve h)).bind (resolve h) = t.bind (resolve h) :=
    bind_resolve_of_none h hnone
  have hrun := runs_usubst (ι := ι) h (t.bind (resolve h))
  rw [heq] at hrun
  exact ⟨_, runs_usubst h t, hnone, hrun⟩

lemma acyclic_insert_tUni : UniSubst.Acyclic (Finmap.insert ⟨1⟩ (.tUni ⟨2⟩) ∅) := by
  have hempty : WellFounded (Dep (T := Ty) fun u => (∅ : UniSubst).lookup u) :=
    ⟨fun u => acc_dep_of_none rfl⟩
  refine acyclic_of_wellFounded ?_
  rw [UniSubst.lookup_insert_eq_update]
  exact wellFounded_dep_update hempty (fun x _ => Finmap.lookup_empty x) (by decide)

/-- Variable `1` is bound to variable `2`. -/
theorem usubst_usubst_bound : ∃ t', TypeM.Runs (ι := Unit) (fun n => usubst n (.tUni ⟨1⟩))
      (Finmap.insert ⟨1⟩ (.tUni ⟨2⟩) ∅) (.ok t') (Finmap.insert ⟨1⟩ (.tUni ⟨2⟩) ∅) ∧
    ⟨1⟩ ∉ ufree t' := by
  obtain ⟨t', hrun, hfree, -⟩ :=
    usubst_usubst (ι := Unit) ⟨Finmap.insert ⟨1⟩ (.tUni ⟨2⟩) ∅, acyclic_insert_tUni⟩ (.tUni ⟨1⟩)
  refine ⟨t', hrun, fun hmem => ?_⟩
  have hnone := hfree ⟨1⟩ hmem
  rw [Finmap.lookup_insert] at hnone
  cases hnone

end Usubst

/-! ### Type variables -/

mutual
/-- The type variables of a type. -/
def vfree : Ty → List TVar
  | .tVar v => [v]
  | .tCon _ ts => vfreeList ts
  | .tFun fx p k t => vfree fx ++ vfree p ++ vfree k ++ vfree t
  | .tTuple p k => vfree p ++ vfree k
  | .tOpt t => vfree t
  | .tRow _ _ t r => vfree t ++ vfree r
  | .tStar _ r => vfree r
  | _ => []

/-- `concatMap vfree`. -/
def vfreeList : List Ty → List TVar
  | [] => []
  | t :: ts => vfree t ++ vfreeList ts
end

lemma mem_vfreeList {v : TVar} {ts : List Ty} : v ∈ vfreeList ts ↔ ∃ t ∈ ts, v ∈ vfree t := by
  induction ts with
  | nil => simp [vfreeList]
  | cons t ts ih => simp [vfreeList, ih]

/-- A substitution of types for type variables. -/
abbrev Substitution := List (TVar × Ty)

namespace Ty

mutual
/-- Replace type variables. -/
def vsubst (s : Substitution) : Ty → Ty
  | tVar v => (s.lookup v).getD (tVar v)
  | tUni u => tUni u
  | tCon c ts => tCon c (vsubstList s ts)
  | tFun fx p k t => tFun (vsubst s fx) (vsubst s p) (vsubst s k) (vsubst s t)
  | tTuple p k => tTuple (vsubst s p) (vsubst s k)
  | tOpt t => tOpt (vsubst s t)
  | tRow k n t r => tRow k n (vsubst s t) (vsubst s r)
  | tStar k r => tStar k (vsubst s r)
  | tNone => tNone
  | tWild => tWild
  | tNil k => tNil k
  | tFX fx => tFX fx

/-- `map (vsubst s)`. -/
def vsubstList (s : Substitution) : List Ty → List Ty
  | [] => []
  | t :: ts => vsubst s t :: vsubstList s ts
end

@[simp]
lemma vsubstList_eq_map (s : Substitution) (ts : List Ty) :
    vsubstList s ts = ts.map (vsubst s) := by
  induction ts with
  | nil => simp [vsubstList]
  | cons t ts ih => simp [vsubstList, ih]

/-! ### Types as a term algebra over type variables -/

mutual
/-- Simultaneous substitution of types for type variables. -/
def vbind : Ty → (TVar → Ty) → Ty
  | tVar v, θ => θ v
  | tUni u, _ => tUni u
  | tCon c ts, θ => tCon c (vbindList ts θ)
  | tFun fx p k t, θ => tFun (vbind fx θ) (vbind p θ) (vbind k θ) (vbind t θ)
  | tTuple p k, θ => tTuple (vbind p θ) (vbind k θ)
  | tOpt t, θ => tOpt (vbind t θ)
  | tRow k n t r, θ => tRow k n (vbind t θ) (vbind r θ)
  | tStar k r, θ => tStar k (vbind r θ)
  | tNone, _ => tNone
  | tWild, _ => tWild
  | tNil k, _ => tNil k
  | tFX fx, _ => tFX fx

/-- `vbind` on each type of a list. -/
def vbindList : List Ty → (TVar → Ty) → List Ty
  | [], _ => []
  | t :: ts, θ => vbind t θ :: vbindList ts θ
end

@[simp]
lemma vbindList_eq_map (ts : List Ty) (θ : TVar → Ty) :
    vbindList ts θ = ts.map fun t => vbind t θ := by
  induction ts with
  | nil => simp [vbindList]
  | cons t ts ih => simp [vbindList, ih]

lemma vsubst_eq_vbind (s : Substitution) (t : Ty) :
    vsubst s t = vbind t fun v => vsubst s (tVar v) := by
  induction t with
  | tCon c ts ih =>
    simp only [vsubst, vsubstList_eq_map, vbind, vbindList_eq_map, tCon.injEq, true_and]
    exact map_congr_left ih
  | _ => simp [vsubst, vbind, *]

lemma vbind_tVar (t : Ty) : vbind t tVar = t := by
  induction t with
  | tCon c ts ih =>
    simp only [vbind, vbindList_eq_map, tCon.injEq, true_and]
    calc ts.map (fun t => vbind t tVar) = ts.map id := map_congr_left ih
      _ = ts := map_id ts
  | _ => simp [vbind, *]

lemma vbind_vbind (t : Ty) (f g : TVar → Ty) :
    vbind (vbind t f) g = vbind t fun v => vbind (f v) g := by
  induction t with
  | tCon c ts ih =>
    simp only [vbind, vbindList_eq_map, map_map, tCon.injEq, true_and]
    exact map_congr_left ih
  | _ => simp [vbind, *]

/-- The result determines the substitution on the variables of the type, and depends on nothing
else. -/
theorem vbind_eq_vbind_iff {t : Ty} {f g : TVar → Ty} :
    vbind t f = vbind t g ↔ ∀ v ∈ vfree t, f v = g v := by
  induction t with
  | tVar v => simp [vbind, vfree]
  | tCon c ts ih =>
    simp only [vbind, vbindList_eq_map, tCon.injEq, true_and, map_inj_left, vfree, mem_vfreeList]
    constructor
    · rintro h v ⟨t, ht, hv⟩
      exact (ih t ht).mp (h t ht) v hv
    · exact fun h t ht => (ih t ht).mpr fun v hv => h v ⟨t, ht, hv⟩
  | _ => simp [vbind, vfree, or_imp, forall_and, *]

lemma mem_vfree_vbind (t : Ty) (f : TVar → Ty) (w : TVar) :
    w ∈ vfree (vbind t f) ↔ ∃ v ∈ vfree t, w ∈ vfree (f v) := by
  induction t with
  | tCon c ts ih =>
    simp only [vbind, vfree, vbindList_eq_map, mem_vfreeList, mem_map, exists_exists_and_eq_and]
    constructor
    · rintro ⟨t, ht, hw⟩
      obtain ⟨v, hv, hwv⟩ := (ih t ht).mp hw
      exact ⟨v, ⟨t, ht, hv⟩, hwv⟩
    · rintro ⟨v, ⟨t, ht, hv⟩, hwv⟩
      exact ⟨t, ht, (ih t ht).mpr ⟨v, hv, hwv⟩⟩
  | _ => simp [vbind, vfree, or_and_right, exists_or, *]

/-- `vsubst s` after `vsubst s₁` is `vsubst s₂` on a type, if it is on the type's variables. -/
theorem vsubst_vsubst {s s1 s2 : Substitution} {t : Ty}
    (h : ∀ v ∈ vfree t, vsubst s (vsubst s1 (tVar v)) = vsubst s2 (tVar v)) :
    vsubst s (vsubst s1 t) = vsubst s2 t := by
  rw [vsubst_eq_vbind s, vsubst_eq_vbind s1, vsubst_eq_vbind s2, vbind_vbind]
  refine vbind_eq_vbind_iff.mpr fun v hv => ?_
  rw [← vsubst_eq_vbind, h v hv]

lemma vsubst_congr {s1 s2 : Substitution} {t : Ty}
    (h : ∀ v ∈ vfree t, vsubst s1 (tVar v) = vsubst s2 (tVar v)) : vsubst s1 t = vsubst s2 t := by
  rw [vsubst_eq_vbind s1, vsubst_eq_vbind s2]
  exact vbind_eq_vbind_iff.mpr h

lemma vsubst_eq_self {s : Substitution} (h : ∀ v, vsubst s (tVar v) = tVar v) (t : Ty) :
    vsubst s t = t := by
  rw [vsubst_eq_vbind]
  simp only [h, vbind_tVar]

end Ty

/-- Looking a parameter up in an instantiation whose arguments have been mapped. -/
theorem lookup_zip_map {α β : Type} (vs : List TVar) (ts : List α) (f : α → β) (v : TVar) :
    (vs.zip (ts.map f)).lookup v = ((vs.zip ts).lookup v).map f := by
  induction vs generalizing ts with
  | nil => simp
  | cons w vs ih =>
    cases ts with
    | nil => simp
    | cons t ts =>
      simp only [map_cons, zip_cons_cons, lookup_cons]
      cases v == w
      · exact ih ts
      · rfl

/-- The parameters are the variables that an instantiation binds. -/
theorem lookup_zip_eq_none_iff {α : Type} {vs : List TVar} {ts : List α}
    (hlen : ts.length = vs.length) {v : TVar} : (vs.zip ts).lookup v = none ↔ v ∉ vs := by
  rw [lookup_eq_none_iff]
  constructor
  · intro h hv
    have hmap : (vs.zip ts).map Prod.fst = vs := map_fst_zip hlen.ge
    rw [← hmap] at hv
    obtain ⟨p, hp, rfl⟩ := mem_map.mp hv
    simpa using h p hp
  · rintro h ⟨w, t⟩ hp
    have : v ≠ w := fun e => h (e ▸ (of_mem_zip hp).1)
    simpa using this

namespace TCon

/-- Replace type variables in the arguments. -/
def vsubst (s : Substitution) (u : TCon) : TCon := ⟨u.tcname, u.tcargs.map (Ty.vsubst s)⟩

@[simp]
lemma vsubst_tcname (s : Substitution) (u : TCon) : (u.vsubst s).tcname = u.tcname := rfl

@[simp]
lemma vsubst_tcargs (s : Substitution) (u : TCon) :
    (u.vsubst s).tcargs = u.tcargs.map (Ty.vsubst s) := rfl

end TCon
end Acton
