import Acton.Unify

/-!
# Unification computes most general unifiers

A call of `unify` brings both types up to date and follows the case table of `unify'`, which makes
it a step of unification with a triangular substitution (`step_unify`). Soundness, completeness and
most-generality are then results of the library.

Kinds play no part in a run, but a run on types of one kind records only kind-respecting bindings:
well-formed types, and well-formed types of a kind, are both a `Sorting`.
-/

namespace Acton
open TermAlgebra
variable {ι : Type} {arity : QName → ℕ} {t : Ty} {s : UniSubst}
namespace UniSubst

/-- The equations of a substitution hold under `θ`, that is, `θ` extends the substitution. -/
def Solves (θ : TUni → Ty) (s : UniSubst) : Prop := TermAlgebra.Solves θ fun u => s.lookup u

/-- Each variable is bound to a type of its own kind. -/
def Kinded (Γ : KindEnv) (s : UniSubst) : Prop :=
  ∀ u t, s.lookup u = some t → t.HasKind Γ (Γ.uvKind u)

/-- An acyclic substitution of well-formed types. -/
structure Valid (arity : QName → ℕ) (s : UniSubst) : Prop where
  acyclic : s.Acyclic
  wellFormed : ∀ u t, s.lookup u = some t → t.WellFormed arity

lemma valid_empty : (∅ : UniSubst).Valid arity := by
  refine ⟨acyclic_of_wellFounded ⟨fun u => acc_dep_of_none rfl⟩, fun u t hu => ?_⟩
  simp at hu

lemma Valid.insert (h : s.Valid arity) {u : TUni} (ht : ∀ x ∈ ufree t, s.lookup x = none)
    (hu : u ∉ ufree t) (hwf : t.WellFormed arity) : Valid arity (s.insert u t) := by
  refine ⟨?_, fun v t' hv => ?_⟩
  · rw [Acyclic, lookup_insert_eq_update]
    exact acyclic_of_wellFounded (wellFounded_dep_update h.acyclic.wellFounded ht hu)
  · by_cases hvu : v = u
    · subst hvu
      obtain rfl : t = t' := by simpa using hv
      exact hwf
    · rw [Finmap.lookup_insert_of_ne _ hvu] at hv
      exact h.wellFormed v t' hv

lemma Valid.wellFounded (h : s.Valid arity) : s.Founded := h.acyclic.wellFounded

lemma solves_insert_iff {u : TUni} (hu : s.lookup u = none) {θ : TUni → Ty} :
    Solves θ (s.insert u t) ↔ Solves θ s ∧ θ u = t.bind θ := by
  rw [Solves, lookup_insert_eq_update]
  exact solves_update_iff (σ := fun v => s.lookup v) hu

end UniSubst
open UniSubst

/-! ### A call of `unify` -/

/-- Well-formed types. -/
def wellFormedTypes (arity : QName → ℕ) : Sorting Unit TUni Ty where
  has _ t := t.WellFormed arity
  sort _ := ()
  has_var _ _ := ⟨fun _ => rfl, fun _ => trivial⟩
  has_bind _ _ _ h hθ := h.bind hθ

/-- Well-formed types of a kind. -/
def kindedTypes (arity : QName → ℕ) (Γ : KindEnv) : Sorting Kind TUni Ty where
  has κ t := t.WellFormed arity ∧ t.HasKind Γ κ
  sort := Γ.uvKind
  has_var _ _ := ⟨fun h => h.2.symm, fun h => ⟨trivial, h.symm⟩⟩
  has_bind _ _ _ h hθ := ⟨h.1.bind fun u hu => (hθ u hu).1, h.2.bind fun u hu => (hθ u hu).2⟩

/-- `m` terminates from `s`, with a substitution or with an error. -/
def Outcome (m : ℕ → TypeM ι Unit) (s : UniSubst) : Option UniSubst → Prop
  | some s' => TypeM.Runs m s (.ok ()) s'
  | none => ∃ e s', TypeM.Runs m s (.error e) s'

lemma Outcome.mono {m m' : ℕ → TypeM ι Unit} {s1 : UniSubst} {o : Option UniSubst}
    (hm : ∀ r s', TypeM.Runs m s1 r s' → TypeM.Runs m' s r s') (h : Outcome m s1 o) :
    Outcome m' s o := by
  cases o with
  | some s' => exact hm _ _ h
  | none =>
    obtain ⟨e, s', h⟩ := h
    exact ⟨e, s', hm _ _ h⟩

lemma outcome_forM {f : ℕ → Ty → Ty → TypeM ι Unit} {ps : List (Ty × Ty)}
    {o : Option UniSubst} (h : Seq (fun t₁ t₂ => Outcome fun n => f n t₁ t₂) ps s o) :
    Outcome (fun n => ps.forM fun p => f n p.1 p.2) s o := by
  induction h with
  | nil s => exact TypeM.Runs.pure _
  | ok hp _ ih => exact ih.mono fun r s' hrun => TypeM.Runs.bind_ok hp hrun
  | error hp =>
    obtain ⟨e, s', hp⟩ := hp
    exact ⟨e, s', hp.bind_error⟩

variable {κ : Type} {A : Sorting κ TUni Ty} {t₁ t₂ t₁' t₂' : Ty}

/-- The binding step: an occurs check, then an insertion. -/
theorem step_bindUni {run : Ty → Ty → UniSubst → Option UniSubst → Prop} {u : TUni}
    (hvar : t₁' = .tUni u ∧ t₂' = t ∨ t₂' = .tUni u ∧ t₁' = t) (hne : t ≠ .tUni u)
    (hrun : ∀ o, Outcome (ι := ι) (fun _ => bindUni u t) s o → run t₁ t₂ s o) :
    Step (fun (s : UniSubst) u => s.lookup u) run A s t₁ t₂ t₁' t₂' := by
  by_cases hocc : u ∈ ufree t
  · have hbind := Ty.bind_ne_of_mem_ufree hocc hne
    refine .fail ?_ (hrun none ⟨.infiniteType u t, s, 0, fun n _ => ?_⟩)
    · rcases hvar with ⟨rfl, rfl⟩ | ⟨rfl, rfl⟩
      · exact hbind
      · exact fun θ => (hbind θ).symm
    · simp only [bindUni, hocc, if_true]
      rw [TypeM.runWith_bind]
      rfl
  · refine .bind u t (s.insert u t) hvar hocc (lookup_insert_eq_update s u t)
      (hrun (some _) ⟨0, fun n _ => ?_⟩)
    simp only [bindUni, hocc, if_false]
    rfl

lemma step_unify (info : ι) (hwf : ∀ k t, A.has k t → t.WellFormed arity)
    (hdec : ∀ k t₁ t₂ ps, Decomposes arity t₁ t₂ ps → A.has k t₁ → A.has k t₂ →
      ∀ p ∈ ps, ∃ k', A.has k' p.1 ∧ A.has k' p.2)
    (s : UniSubst) (t₁ t₂ : Ty) (k : κ) (h : s.Founded)
    (h1 : A.has k (t₁.bind (resolve h))) (h2 : A.has k (t₂.bind (resolve h))) :
    Step (fun (s : UniSubst) u => s.lookup u) (fun t₁ t₂ => Outcome fun n => unify info n t₁ t₂) A
      s t₁ t₂ (t₁.bind (resolve h)) (t₂.bind (resolve h)) := by
  -- it is enough to follow `unify'` on the types brought up to date
  have hcall : ∀ o, Outcome (fun n => unify' (unify info n) info (t₁.bind (resolve h))
      (t₂.bind (resolve h))) s o → Outcome (fun n => unify info n t₁ t₂) s o := fun o =>
    .mono fun r s' hrun =>
      ((runs_usubst h t₁).bind_ok ((runs_usubst h t₂).bind_ok hrun)).of_succ fun n => rfl
  rcases unify'_cases info (hwf _ _ h1) (hwf _ _ h2) with
    ⟨ps, hps, hdo⟩ | ⟨u, hu, hne, hdo⟩ | ⟨u, hu, hne, hdo⟩ | ⟨hno, hdo⟩ <;>
    simp only [hdo] at hcall
  · exact .decompose ps ⟨hps.eq_iff, hps.size_lt, hps.ufree_subset⟩ (hdec k _ _ ps hps h1 h2)
      fun o ho => hcall o (outcome_forM ho)
  · exact step_bindUni (.inl ⟨hu, rfl⟩) hne hcall
  · exact step_bindUni (.inr ⟨hu, rfl⟩) hne hcall
  · exact .fail hno (hcall none ⟨_, s, Fuel.Converges.const _⟩)

lemma lookup_injective : Function.Injective fun (s : UniSubst) u => s.lookup u :=
  fun _ _ h => Finmap.ext_lookup (congrFun h)

/-- Unification is correct. From an acyclic substitution `s` it terminates on all well-formed
types, and it succeeds exactly when some `θ` that extends `s` makes them equal. The substitution
`s'` that a successful run leaves is acyclic, so that `usubst` terminates on every type; it makes
the two types equal; every unifier that extends `s` factors through it; and it binds variables
to types of their own kind if `s` does and the two types are of one kind. -/
theorem unify_correct (arity : QName → ℕ) (info : ι) (s : UniSubst) (t₁ t₂ : Ty)
    (hs : s.Valid arity) (h₁ : t₁.WellFormed arity) (h₂ : t₂.WellFormed arity) :
    ∃ r s', TypeM.Runs (fun n => unify info n t₁ t₂) s r s' ∧
      (r = .ok () ↔ ∃ θ, Solves θ s ∧ t₁.bind θ = t₂.bind θ) ∧
      (r = .ok () → s'.Acyclic ∧ (∃ ρ : TUni → Ty,
          (∀ t, TypeM.Runs (ι := ι) (fun n => usubst n t) s' (.ok (t.bind ρ)) s') ∧
          t₁.bind ρ = t₂.bind ρ ∧ Solves ρ s ∧
          ∀ θ, Solves θ s → t₁.bind θ = t₂.bind θ → ∃ τ : TUni → Ty, ∀ u, θ u = (ρ u).bind τ) ∧
        ∀ Γ κ, s.Kinded Γ → t₁.HasKind Γ κ → t₂.HasKind Γ κ → s'.Kinded Γ) := by
  have hwell := computes_of_step (A := wellFormedTypes arity) lookup_injective
    (step_unify info (fun _ _ h => h) fun _ _ _ _ hps _ _ p hp => ⟨(), hps.wellFormed p hp⟩)
    (k := ()) hs.wellFounded hs.wellFormed h₁ h₂
  rcases hwell with ⟨s', hrun, hwf, -, hsol⟩ | ⟨⟨e, s', hrun⟩, hno⟩
  · have hρ := (hsol _).mp (solves_resolve hwf)
    refine ⟨.ok (), s', hrun, ⟨fun _ => ⟨_, hρ⟩, fun _ => rfl⟩,
      fun _ => ⟨acyclic_of_wellFounded hwf, ?_, fun Γ κ hΓ hκ1 hκ2 u t hu => ?_⟩⟩
    · refine ⟨resolve hwf, runs_usubst hwf, hρ.2, hρ.1, fun θ hθ heq => ⟨θ, fun u => ?_⟩⟩
      exact ((hsol θ).mpr ⟨hθ, heq⟩ |>.bind_resolve hwf u).symm
    · -- the same run, for types of a kind
      have hkind := computes_of_step (A := kindedTypes arity Γ) lookup_injective
        (step_unify info (fun _ _ h => h.1) fun κ _ _ _ hps h₁ h₂ p hp => by
          obtain ⟨κ', hκ1, hκ2⟩ := hps.hasKind Γ κ h₁.2 h₂.2 p hp
          exact ⟨κ', ⟨(hps.wellFormed p hp).1, hκ1⟩, (hps.wellFormed p hp).2, hκ2⟩)
        hs.wellFounded (fun u t hu => ⟨hs.wellFormed u t hu, hΓ u t hu⟩) ⟨h₁, hκ1⟩ ⟨h₂, hκ2⟩
      rcases hkind with ⟨s'', hrun', -, hsorted, -⟩ | ⟨⟨e, s'', hrun'⟩, -⟩
      · cases hrun.unique hrun'
        exact (hsorted u t hu).2
      · cases hrun.unique hrun'
  · refine ⟨.error e, s', hrun, ⟨fun h => by simp at h, ?_⟩, fun h => by simp at h⟩
    rintro ⟨θ, hθ, heq⟩
    exact absurd heq (hno θ hθ)

/-- With `0` bound to `?1`, unifying variable `0` with `None?` succeeds by binding variable `1`. -/
theorem unify_correct_opt : ∃ s', TypeM.Runs (fun n => unify () n (.tUni ⟨0⟩) (.tOpt .tNone))
        ((∅ : UniSubst).insert ⟨0⟩ (.tOpt (.tUni ⟨1⟩))) (.ok ()) s' ∧
      s'.Acyclic ∧ ∃ ρ : TUni → Ty,
        TypeM.Runs (ι := Unit) (fun n => usubst n (.tUni ⟨0⟩)) s' (.ok (ρ ⟨0⟩)) s' ∧
        ρ ⟨0⟩ = .tOpt .tNone := by
  have hs : UniSubst.Valid (fun _ => 0) ((∅ : UniSubst).insert ⟨0⟩ (.tOpt (.tUni ⟨1⟩))) :=
    valid_empty.insert (t := .tOpt (.tUni ⟨1⟩)) (by simp) (by simp [ufree]) trivial
  obtain ⟨r, s', hrun, hiff, hok⟩ :=
    unify_correct (fun _ => 0) () _ (.tUni ⟨0⟩) (.tOpt .tNone) hs trivial trivial
  -- the unifier maps variable `0` to `None?` and all others to `None`
  obtain rfl : r = .ok () := by
    refine hiff.mpr ⟨fun u => if u = ⟨0⟩ then .tOpt .tNone else .tNone, ?_, rfl⟩
    rw [solves_insert_iff (Finmap.lookup_empty _)]
    exact ⟨fun u t hu => by simp at hu, rfl⟩
  obtain ⟨hacyc, ⟨ρ, husubst, heq, _⟩, _⟩ := hok rfl
  exact ⟨s', hrun, hacyc, ρ, husubst _, heq⟩

end Acton
