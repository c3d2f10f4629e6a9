import Acton.Kinds
import Acton.ToMathlib.Unification

/-!
# Unification

`unify` brings both types up to date with `usubst`, compares their heads in `unify'`, and calls
itself on the components. A unification variable is bound by an insertion into the current
substitution, after an occurs check.

The function `unify'` is the source's case table with the recursive call as an argument;
`unify'_cases` says once what it can do to two well-formed types: go on with a list of
subproblems, bind a variable, or fail on types that no substitution makes equal.
-/

namespace Acton
open TermAlgebra List
variable {ι : Type}

/-- Unify two argument lists position by position. -/
def unifyM (unify : Ty → Ty → TypeM ι Unit) (ts₁ ts₂ : List Ty) : TypeM ι Unit :=
  (ts₁.zip ts₂).forM fun p => unify p.1 p.2

/-- The case table of unification, for types on which the substitution has been applied. -/
def unify' (unify : Ty → Ty → TypeM ι Unit) (info : ι) : Ty → Ty → TypeM ι Unit
  | .tWild, _ => return ()
  | _, .tWild => return ()
  | .tCon n₁ ts₁, .tCon n₂ ts₂ =>
      if n₁ = n₂ then unifyM unify ts₁ ts₂
      else TypeM.noUnify info (.tCon n₁ ts₁) (.tCon n₂ ts₂)
  | .tFun fx₁ p₁ k₁ t₁, .tFun fx₂ p₂ k₂ t₂ => do
      unify fx₁ fx₂
      unify p₂ p₁
      unify k₂ k₁
      unify t₁ t₂
  | .tTuple p₁ k₁, .tTuple p₂ k₂ => do
      unify p₁ p₂
      unify k₁ k₂
  | .tOpt t₁, .tOpt t₂ => unify t₁ t₂
  | .tNone, .tNone => return ()
  | .tFX fx₁, .tFX fx₂ =>
      if fx₁ = fx₂ then return () else TypeM.noUnify info (.tFX fx₁) (.tFX fx₂)
  | .tNil k₁, .tNil k₂ =>
      if k₁ = k₂ then return () else TypeM.noUnify info (.tNil k₁) (.tNil k₂)
  | .tRow k₁ n₁ t₁ r₁, .tRow k₂ n₂ t₂ r₂ =>
      if k₁ = k₂ ∧ n₁ = n₂ then do
        unify t₁ t₂
        unify r₁ r₂
      else TypeM.noUnify info (.tRow k₁ n₁ t₁ r₁) (.tRow k₂ n₂ t₂ r₂)
  | .tStar k₁ r₁, .tStar k₂ r₂ =>
      if k₁ = k₂ then unify r₁ r₂ else TypeM.noUnify info (.tStar k₁ r₁) (.tStar k₂ r₂)
  | .tVar tv₁, .tVar tv₂ =>
      if tv₁ = tv₂ then return () else TypeM.noUnify info (.tVar tv₁) (.tVar tv₂)
  | .tUni uv, t₂ =>
      -- equal variables succeed before the occurs check
      if t₂ = .tUni uv then return ()
      else do
        if uv ∈ ufree t₂ then TypeM.infiniteType uv t₂
        TypeM.usubstitute uv t₂
  | t₁, .tUni uv => do
      if uv ∈ ufree t₁ then TypeM.infiniteType uv t₁
      TypeM.usubstitute uv t₁
  | t₁, t₂ => TypeM.noUnify info t₁ t₂

/-- Make two types equal by extending the current substitution. -/
def unify (info : ι) : ℕ → Ty → Ty → TypeM ι Unit
  | 0, _, _ => TypeM.outOfFuel
  | n + 1, t₁, t₂ => do
      let t₁' ← usubst n t₁
      let t₂' ← usubst n t₂
      unify' (unify info n) info t₁' t₂'

/-! ### What `unify'` does -/

namespace Ty

/-- A substituted variable is no larger than the whole, and smaller if the type is not just the
variable: the fact behind the occurs check. -/
theorem sizeOf_le_of_mem_ufree {θ : TUni → Ty} {u : TUni} {t : Ty} (hu : u ∈ ufree t) :
    sizeOf (θ u) ≤ sizeOf (t.bind θ) ∧ (t ≠ tUni u → sizeOf (θ u) < sizeOf (t.bind θ)) := by
  induction t with
  | tUni v =>
    obtain rfl : u = v := by simpa [ufree] using hu
    simp [Ty.bind]
  | tCon n ts ih =>
    obtain ⟨t, ht, hut⟩ := mem_ufreeList.mp hu
    have hle := (ih t ht hut).1
    have hlt := sizeOf_lt_of_mem (mem_map_of_mem (f := fun t => t.bind θ) ht)
    simp only [Ty.bind, bindList_eq_map, tCon.sizeOf_spec]
    omega
  | tFun fx p k t hfx hp hk ht =>
    simp only [ufree, mem_append] at hu
    simp only [Ty.bind, tFun.sizeOf_spec]
    rcases hu with ((hu | hu) | hu) | hu
    · have := (hfx hu).1; omega
    · have := (hp hu).1; omega
    · have := (hk hu).1; omega
    · have := (ht hu).1; omega
  | tTuple p k hp hk =>
    simp only [ufree, mem_append] at hu
    simp only [Ty.bind, tTuple.sizeOf_spec]
    rcases hu with hu | hu
    · have := (hp hu).1; omega
    · have := (hk hu).1; omega
  | tRow k n t r ht hr =>
    simp only [ufree, mem_append] at hu
    simp only [Ty.bind, tRow.sizeOf_spec]
    rcases hu with hu | hu
    · have := (ht hu).1; omega
    · have := (hr hu).1; omega
  | tOpt t ht =>
    simp only [Ty.bind, tOpt.sizeOf_spec]
    have := (ht hu).1; omega
  | tStar k r hr =>
    simp only [Ty.bind, tStar.sizeOf_spec]
    have := (hr hu).1; omega
  | _ => simp [ufree] at hu

/-- A type in which a variable occurs properly is different from the variable under every
substitution. -/
theorem bind_ne_of_mem_ufree {u : TUni} {t : Ty} (hu : u ∈ ufree t) (ht : t ≠ tUni u)
    (θ : TUni → Ty) : θ u ≠ t.bind θ := by
  intro h
  have := (sizeOf_le_of_mem_ufree (θ := θ) hu).2 ht
  rw [h] at this
  exact lt_irrefl _ this

end Ty

/-- `ps` are the subproblems of unifying `t₁` and `t₂`: solving them is solving the problem, and
they are smaller, over the same variables, well formed, and of the same kind pairwise if `t₁` and
`t₂` are. -/
structure Decomposes (arity : QName → ℕ) (t₁ t₂ : Ty) (ps : List (Ty × Ty)) : Prop where
  eq_iff : ∀ θ, t₁.bind θ = t₂.bind θ ↔ ∀ p ∈ ps, p.1.bind θ = p.2.bind θ
  size_lt : ∀ p ∈ ps, sizeOf p.1 + sizeOf p.2 < sizeOf t₁ + sizeOf t₂
  ufree_subset : ∀ p ∈ ps, ∀ u, u ∈ ufree p.1 ∨ u ∈ ufree p.2 → u ∈ ufree t₁ ∨ u ∈ ufree t₂
  wellFormed : ∀ p ∈ ps, p.1.WellFormed arity ∧ p.2.WellFormed arity
  hasKind : ∀ Γ κ, t₁.HasKind Γ κ → t₂.HasKind Γ κ →
    ∀ p ∈ ps, ∃ κ', p.1.HasKind Γ κ' ∧ p.2.HasKind Γ κ'

variable {arity : QName → ℕ}

lemma decomposes_tCon {n : QName} {ts1 ts2 : List Ty} (h1 : (Ty.tCon n ts1).WellFormed arity)
    (h2 : (Ty.tCon n ts2).WellFormed arity) :
    Decomposes arity (.tCon n ts1) (.tCon n ts2) (ts1.zip ts2) := by
  simp only [Ty.WellFormed, Ty.wellFormedList_iff] at h1 h2
  refine ⟨fun θ => ?_, fun p hp => ?_, fun p hp u hu => ?_, fun p hp => ?_, fun Γ κ hκ1 hκ2 => ?_⟩
  · simp only [Ty.bind, Ty.bindList_eq_map, Ty.tCon.injEq, true_and]
    exact map_bind_eq_iff (h1.1.trans h2.1.symm) θ
  · have hlt1 := sizeOf_lt_of_mem (of_mem_zip hp).1
    have hlt2 := sizeOf_lt_of_mem (of_mem_zip hp).2
    simp only [Ty.tCon.sizeOf_spec]
    omega
  · simp only [ufree, mem_ufreeList]
    exact hu.imp (fun hu => ⟨p.1, (of_mem_zip hp).1, hu⟩)
      fun hu => ⟨p.2, (of_mem_zip hp).2, hu⟩
  · exact ⟨h1.2 _ (of_mem_zip hp).1, h2.2 _ (of_mem_zip hp).2⟩
  · rcases hκ1.2 with ⟨rfl, _⟩ | ⟨ks, hn, hks⟩
    · simp
    · rcases hκ2.2 with ⟨rfl, _⟩ | ⟨ks', hn', hks'⟩
      · simp
      · obtain rfl : ks = ks' := by simpa [hn] using hn'
        exact hks.exists_hasKind_zip hks'

lemma Decomposes.refl (t : Ty) : Decomposes arity t t [] := by
  constructor <;> simp

/-- The binding step of `unify'`. -/
def bindUni (uv : TUni) (t : Ty) : TypeM ι Unit := do
  if uv ∈ ufree t then TypeM.infiniteType uv t
  TypeM.usubstitute uv t

/-- Two types with no variable at the head: `unify'` goes on with subproblems, or the heads clash
under every substitution. -/
theorem unify'_cases_rigid (info : ι) {t1 t2 : Ty} (h1 : t1.WellFormed arity)
    (h2 : t2.WellFormed arity) (hu1 : ∀ u, t1 ≠ .tUni u) (hu2 : ∀ u, t2 ≠ .tUni u) :
    (∃ ps, Decomposes arity t1 t2 ps ∧
        ∀ unify, unify' unify info t1 t2 = ps.forM fun p => unify p.1 p.2) ∨
      ((∀ θ, t1.bind θ ≠ t2.bind θ) ∧
        ∀ unify, unify' unify info t1 t2 = TypeM.noUnify info t1 t2) := by
  -- different heads clash
  cases t1 <;> cases t2 <;>
    first
    | exact absurd rfl (hu1 _)
    | exact absurd rfl (hu2 _)
    | exact h1.elim
    | exact h2.elim
    | exact .inr ⟨by simp [Ty.bind], fun unify => rfl⟩
    | skip
  case tCon.tCon n1 ts1 n2 ts2 =>
    by_cases hn : n1 = n2
    · subst hn
      exact .inl ⟨_, decomposes_tCon h1 h2, fun unify => by simp [unify', unifyM]⟩
    · exact .inr ⟨by simp [Ty.bind, hn], fun unify => by simp [unify', hn]⟩
  case tFun.tFun fx1 p1 k1 t1 fx2 p2 k2 t2 =>
    -- rows of parameters are unified the other way round
    refine .inl ⟨[(fx1, fx2), (p2, p1), (k2, k1), (t1, t2)], ?_, fun unify => by simp [unify']⟩
    simp only [Ty.WellFormed] at h1 h2
    refine ⟨fun θ => ?_, ?_, ?_, ?_, ?_⟩
    · simp only [Ty.bind, Ty.tFun.injEq, forall_mem_cons, not_mem_nil, false_implies,
        implies_true, and_true]
      rw [eq_comm (a := p1.bind θ), eq_comm (a := k1.bind θ)]
    · simp
      omega
    · simp [ufree]
      grind
    · simp [h1, h2]
    · rintro Γ κ ⟨-, a1, a2, a3, a4⟩ ⟨-, b1, b2, b3, b4⟩
      simpa using ⟨⟨_, a1, b1⟩, ⟨_, b2, a2⟩, ⟨_, b3, a3⟩, ⟨_, a4, b4⟩⟩
  case tTuple.tTuple p1 k1 p2 k2 =>
    refine .inl ⟨[(p1, p2), (k1, k2)], ?_, fun unify => by simp [unify']⟩
    simp only [Ty.WellFormed] at h1 h2
    refine ⟨by simp [Ty.bind], ?_, ?_, by simp [h1, h2], ?_⟩
    · simp
      omega
    · simp [ufree]
      grind
    · rintro Γ κ ⟨-, a1, a2⟩ ⟨-, b1, b2⟩
      simpa using ⟨⟨_, a1, b1⟩, ⟨_, a2, b2⟩⟩
  case tRow.tRow k1 n1 t1 r1 k2 n2 t2 r2 =>
    by_cases hkn : k1 = k2 ∧ n1 = n2
    · obtain ⟨rfl, rfl⟩ := hkn
      refine .inl ⟨[(t1, t2), (r1, r2)], ?_, fun unify => by simp [unify']⟩
      simp only [Ty.WellFormed] at h1 h2
      refine ⟨by simp [Ty.bind], ?_, ?_, by simp [h1, h2], ?_⟩
      · simp
        omega
      · simp [ufree]
        grind
      · rintro Γ κ ⟨-, a1, a2⟩ ⟨-, b1, b2⟩
        simpa using ⟨⟨_, a1, b1⟩, ⟨_, a2, b2⟩⟩
    · refine .inr ⟨fun θ h => hkn ?_, fun unify => by simp [unify', hkn]⟩
      simp only [Ty.bind, Ty.tRow.injEq] at h
      exact ⟨h.1, h.2.1⟩
  case tOpt.tOpt t1 t2 =>
    refine .inl ⟨[(t1, t2)], ?_, fun unify => by simp [unify']⟩
    refine ⟨by simp [Ty.bind], ?_, by simp [ufree], by simpa using ⟨h1, h2⟩, ?_⟩
    · simp
      omega
    · rintro Γ κ ⟨-, a⟩ ⟨-, b⟩
      simpa using ⟨_, a, b⟩
  case tStar.tStar k1 r1 k2 r2 =>
    by_cases hk : k1 = k2
    · subst hk
      refine .inl ⟨[(r1, r2)], ?_, fun unify => by simp [unify']⟩
      refine ⟨by simp [Ty.bind], ?_, by simp [ufree], by simpa using ⟨h1, h2⟩, ?_⟩
      · simp
        omega
      · rintro Γ κ ⟨-, a⟩ ⟨-, b⟩
        simpa using ⟨_, a, b⟩
    · exact .inr ⟨by simp [Ty.bind, hk], fun unify => by simp [unify', hk]⟩
  case tNone.tNone => exact .inl ⟨[], .refl _, fun unify => rfl⟩
  case tVar.tVar v1 v2 | tNil.tNil v1 v2 | tFX.tFX v1 v2 =>
    by_cases hv : v1 = v2
    · subst hv
      exact .inl ⟨[], .refl _, fun unify => by simp [unify']⟩
    · exact .inr ⟨by simp [Ty.bind, hv], fun unify => by simp [unify', hv]⟩

/-- What `unify'` can do with two well-formed types. -/
theorem unify'_cases (info : ι) {t1 t2 : Ty} (h1 : t1.WellFormed arity) (h2 : t2.WellFormed arity) :
    (∃ ps, Decomposes arity t1 t2 ps ∧
        ∀ unify, unify' unify info t1 t2 = ps.forM fun p => unify p.1 p.2) ∨
      (∃ u, t1 = .tUni u ∧ t2 ≠ .tUni u ∧ ∀ unify, unify' unify info t1 t2 = bindUni u t2) ∨
      (∃ u, t2 = .tUni u ∧ t1 ≠ .tUni u ∧ ∀ unify, unify' unify info t1 t2 = bindUni u t1) ∨
      ((∀ θ, t1.bind θ ≠ t2.bind θ) ∧
        ∀ unify, unify' unify info t1 t2 = TypeM.noUnify info t1 t2) := by
  by_cases hu1 : ∃ u, t1 = .tUni u
  · obtain ⟨u, rfl⟩ := hu1
    by_cases ht : t2 = .tUni u
    · subst ht
      exact .inl ⟨[], .refl _, fun unify => by simp [unify']⟩
    · refine .inr (.inl ⟨u, rfl, ht, fun unify => ?_⟩)
      cases t2 with
      | tWild => exact h2.elim
      | _ => simp [unify', bindUni, ht]
  by_cases hu2 : ∃ u, t2 = .tUni u
  · obtain ⟨u, rfl⟩ := hu2
    refine .inr (.inr (.inl ⟨u, rfl, fun h => hu1 ⟨u, h⟩, fun unify => ?_⟩))
    cases t1 with
    | tWild => exact h1.elim
    | tUni v => exact absurd ⟨v, rfl⟩ hu1
    | _ => rfl
  push Not at hu1 hu2
  rcases unify'_cases_rigid info h1 h2 hu1 hu2 with h | h
  · exact .inl h
  · exact .inr (.inr (.inr h))

end Acton
