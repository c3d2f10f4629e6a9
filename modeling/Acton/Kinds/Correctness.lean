import Acton.Kinds.Unify
import Acton.ToMathlib.Unification

/-!
# Correctness of kind unification

`kunifyWith_vars_correct`: with an occurs check a call succeeds exactly when the two kinds have a
unifier under the current substitution, and keeps the substitution acyclic. The source's `kunify`
does the same where the check would not fire. `kunify_correct`: a sequence of calls from the empty
substitution is correct if the check would not fire in any of them. Otherwise a variable is bound to
a kind in which it occurs (`kunify_diverges`).
-/

namespace Acton
open TermAlgebra Fuel List Option Function Converges Kind

/-! ## Applying the substitution -/

section Ksubst
variable {s : KindSubst}

lemma converges_mapM {f : ℕ → Kind → Option Kind} {g : Kind → Kind} {ks : List Kind}
    (h : ∀ k ∈ ks, Converges (fun n => f n k) (g k)) :
    Converges (fun n => ks.mapM (f n)) (ks.map g) := by
  induction ks with
  | nil => exact const _
  | cons k ks ih =>
    have hks := ih fun k hk => h k (by simp [hk])
    have hbind :=
      (h k (by simp)).bind (k := fun a n => (ks.mapM (f n)).bind fun as => some (a :: as))
      (hks.bind (k := fun as _ => some (g k :: as)) (const _))
    refine hbind.congr fun n => ?_
    simp only [mapM_cons]
    rfl

/-- One level of `ksubst`: it terminates on a kind if it does on the variables of the kind. -/
theorem converges_ksubst_of_vars {g : Bool} {θ : ℤ → Kind} (k : Kind)
    (h : ∀ v ∈ k.vars, Converges (fun n => ksubst s g n (.kUni v)) (θ v)) :
    Converges (fun n => ksubst s g n k) (k.bind θ) := by
  induction k with
  | kUni i => exact h i (by simp [Kind.vars])
  | kFun ks k ihs ih =>
    simp only [mem_vars_kFun] at h
    have hks := converges_mapM fun k' hk' => ihs k' hk' fun v hv => h v (.inr ⟨k', hk', hv⟩)
    have hk := ih fun v hv => h v (.inl hv)
    rw [Kind.bind, Kind.bindList_eq_map]
    refine of_succ (hks.bind (k := fun ks' n => (ksubst s g n k).bind fun k' =>
      some (.kFun ks' k')) (hk.bind (k := fun k' _ => some (Kind.kFun _ k')) (Converges.const _)))
      fun n => rfl
  | _ => exact (Converges.const _).of_succ fun n => rfl

/-- What is left of a variable that is not bound. -/
def ungen (g : Bool) (v : ℤ) : Kind := if g then .kType else .kUni v

lemma converges_ksubst (h : WellFounded (Dep (T := Kind) s)) (g : Bool) (k : Kind) :
    Converges (fun n => ksubst s g n k) (k.bind fun v => (resolve h v).bind (ungen g)) := by
  suffices hvar :
    ∀ v, Converges (fun n => ksubst s g n (.kUni v)) ((resolve h v).bind (ungen g)) from
    converges_ksubst_of_vars k fun v _ => hvar v
  -- well-founded induction along the dependencies of the map
  intro v
  induction v using h.induction with
  | _ v ih =>
    cases hv : s v with
    | none =>
      have hres : resolve h v = .kUni v := resolve_of_none h hv
      rw [hres]
      refine (Converges.const _).of_succ fun n => ?_
      rw [ksubst, hv]
      rfl
    | some k' =>
      have hres : resolve h v = k'.bind (resolve h) := resolve_of_some h hv
      rw [hres, Kind.bind_bind]
      refine of_succ
        (converges_ksubst_of_vars k' fun w hw => ih w ⟨k', hv, hw⟩) fun n => ?_
      rw [ksubst, hv]

lemma converges_ksubst_false (h : WellFounded (Dep (T := Kind) s)) (k : Kind) :
    Converges (fun n => ksubst s false n k) (k.bind (resolve h)) := by
  have hpure : (fun v => (resolve h v).bind (ungen false)) = resolve h := by
    funext v
    exact Kind.bind_pure _
  have := converges_ksubst h false k
  rwa [hpure] at this

end Ksubst

/-! ## Infinite kinds -/

/-- Two kinds whose outermost constructors differ. -/
def Kind.Clash (k₁ k₂ : Kind) : Prop := (∀ v, k₁ ≠ .kUni v) ∧ (∀ v, k₂ ≠ .kUni v) ∧
    match k₁, k₂ with
    | .kFun ks₁ _, .kFun ks₂ _ => ks₁.length ≠ ks₂.length
    | k₁, k₂ => k₁ ≠ k₂

variable {k₁ k₂ : Kind}

lemma Kind.Clash.bind_ne (h : k₁.Clash k₂) (θ : ℤ → Kind) : k₁.bind θ ≠ k₂.bind θ := by
  obtain ⟨h1, h2, hne⟩ := h
  cases k₁ with
  | kUni v => exact absurd rfl (h1 v)
  | kFun ks1 k₁ =>
    cases k₂ with
    | kUni v => exact absurd rfl (h2 v)
    | kFun ks2 k₂ =>
      intro heq
      rw [bind, bind, bindList_eq_map, bindList_eq_map, kFun.injEq] at heq
      exact hne (by simpa using congrArg length heq.1)
    | _ => simp [bind]
  | _ =>
    cases k₂ with
    | kUni v => exact absurd rfl (h2 v)
    | _ => simp_all [bind]

/-- A relation that can be the equality of kinds that may be infinite: an equivalence that goes
into and out of function kinds and does not relate different constructors. -/
structure Compatible (R : Kind → Kind → Prop) : Prop where
  equiv : Equivalence R
  fun_iff : ∀ ks₁ k₁ ks₂ k₂, R (.kFun ks₁ k₁) (.kFun ks₂ k₂) ↔ List.Forall₂ R ks₁ ks₂ ∧ R k₁ k₂
  not_clash : ∀ k₁ k₂, R k₁ k₂ → ¬ k₁.Clash k₂

/-- The equations of the substitution hold. -/
def Respects (R : Kind → Kind → Prop) (s : KindSubst) : Prop := ∀ v k, s v = some k → R (.kUni v) k

/-! ## Decomposition -/

/-- `ps` are the subproblems of unifying `k₁` and `k₂`. -/
structure KDecomposes (k₁ k₂ : Kind) (ps : List (Kind × Kind)) : Prop where
  eq_iff : ∀ θ, k₁.bind θ = k₂.bind θ ↔ ∀ p ∈ ps, p.1.bind θ = p.2.bind θ
  size_lt : ∀ p ∈ ps, sizeOf p.1 + sizeOf p.2 < sizeOf k₁ + sizeOf k₂
  vars_subset : ∀ p ∈ ps, ∀ v, v ∈ p.1.vars ∨ v ∈ p.2.vars → v ∈ k₁.vars ∨ v ∈ k₂.vars
  rel : ∀ R, Compatible R → R k₁ k₂ → ∀ p ∈ ps, R p.1 p.2

lemma kDecomposes_kFun {ks1 ks2 : List Kind} (k₁ k₂ : Kind) (hlen : ks1.length = ks2.length) :
    KDecomposes (.kFun ks1 k₁) (.kFun ks2 k₂) (ks1.zip ks2 ++ [(k₁, k₂)]) := by
  have hmem : ∀ p ∈ ks1.zip ks2 ++ [(k₁, k₂)], (p.1 ∈ ks1 ∧ p.2 ∈ ks2) ∨ p = (k₁, k₂) := by
    intro p hp
    rcases mem_append.mp hp with hp | hp
    · exact .inl (of_mem_zip hp)
    · exact .inr (mem_singleton.mp hp)
  refine ⟨fun θ => ?_, fun p hp => ?_, fun p hp v hv => ?_, fun R hR h p hp => ?_⟩
  · rw [Kind.bind, Kind.bind, Kind.bindList_eq_map, Kind.bindList_eq_map, Kind.kFun.injEq]
    simp only [mem_append, mem_singleton, or_imp, forall_and, forall_eq]
    exact and_congr_left' (map_bind_eq_iff hlen θ)
  · rw [kFun.sizeOf_spec, kFun.sizeOf_spec]
    rcases hmem p hp with ⟨h1, h2⟩ | rfl
    · have := sizeOf_lt_of_mem h1
      have := sizeOf_lt_of_mem h2
      omega
    · simp only
      omega
  · rw [mem_vars_kFun, mem_vars_kFun]
    rcases hmem p hp with ⟨h1, h2⟩ | rfl
    · exact hv.imp (fun hv => .inr ⟨_, h1, hv⟩) fun hv => .inr ⟨_, h2, hv⟩
    · exact hv.imp .inl .inl
  · obtain ⟨hks, hk⟩ := (hR.fun_iff _ _ _ _).mp h
    rcases mem_append.mp hp with hp | hp
    · exact (forall₂_iff_zip.mp hks).2 hp
    · rw [mem_singleton.mp hp]
      exact hk

lemma kDecomposes_refl (k : Kind) : KDecomposes k k [] := ⟨by simp, by simp, by simp, by simp⟩

/-- What `kunify'` does: go on with subproblems, bind a variable, or fail. -/
theorem kunifyWith'_cases (k₁ k₂ : Kind) : (∃ ps, KDecomposes k₁ k₂ ps ∧
      ∀ free unify s, kunifyWith' free unify s k₁ k₂ = kunifyM unify s ps) ∨
    (∃ v, k₁ = .kUni v ∧ k₂ ≠ .kUni v ∧
      ∀ free unify s, kunifyWith' free unify s k₁ k₂ = some (bindKUni free s v k₂)) ∨
    (∃ v, k₂ = .kUni v ∧ k₁ ≠ .kUni v ∧
      ∀ free unify s, kunifyWith' free unify s k₁ k₂ = some (bindKUni free s v k₁)) ∨ (k₁.Clash k₂ ∧
      ∀ free unify s, kunifyWith' free unify s k₁ k₂ = some (.error (.noKUnify k₁ k₂))) := by
  cases k₁ with
  | kUni v =>
    by_cases hv : k₂ = .kUni v
    · subst hv
      exact .inl ⟨[], kDecomposes_refl _, fun _ _ _ => by simp [kunifyWith', kunifyM]⟩
    · refine .inr (.inl ⟨v, rfl, hv, fun _ _ _ => ?_⟩)
      cases k₂ with
      | kUni w => rw [kunifyWith', if_neg fun heq => hv (by rw [heq])]
      | _ => rfl
  | kFun ks1 k₁ =>
    cases k₂ with
    | kUni v => exact .inr (.inr (.inl ⟨v, rfl, by simp, fun _ _ _ => rfl⟩))
    | kFun ks2 k₂ =>
      by_cases hlen : ks1.length = ks2.length
      · exact .inl ⟨_, kDecomposes_kFun k₁ k₂ hlen, fun _ _ _ => by rw [kunifyWith', if_pos hlen]⟩
      · refine .inr (.inr (.inr ⟨⟨by simp, by simp, hlen⟩, fun _ _ _ => ?_⟩))
        rw [kunifyWith', if_neg hlen]
    | _ => exact .inr (.inr (.inr ⟨⟨by simp, by simp, by simp⟩, fun _ _ _ => rfl⟩))
  | _ =>
    cases k₂ with
    | kUni v => exact .inr (.inr (.inl ⟨v, rfl, by simp, fun _ _ _ => rfl⟩))
    | _ =>
      first
      | exact .inl ⟨[], kDecomposes_refl _, fun _ _ _ => rfl⟩
      | exact .inr (.inr (.inr ⟨⟨by simp, by simp, by simp⟩, fun _ _ _ => rfl⟩))

/-! ## Unification with the occurs check -/

/-- All kinds are of one sort. -/
def kinds : Sorting Unit ℤ Kind where
  has _ _ := True
  sort _ := ()
  has_var _ _ := ⟨fun _ => rfl, fun _ => trivial⟩
  has_bind _ _ _ _ _ := trivial

/-- `m` terminates, with a substitution or with an error. -/
def KOutcome (m : ℕ → Option (Except KindError KindSubst)) : Option KindSubst → Prop
  | some s' => Converges m (.ok s')
  | none => ∃ e, Converges m (.error e)

lemma KOutcome.mono {m m' : ℕ → Option (Except KindError KindSubst)} {o : Option KindSubst}
    (hm : ∀ r, Converges m r → Converges m' r) (h : KOutcome m o) : KOutcome m' o := by
  cases o with
  | some s' => exact hm _ h
  | none =>
    obtain ⟨e, h⟩ := h
    exact ⟨e, hm _ h⟩

section
variable {f : ℕ → KindSubst → Kind → Kind → Option (Except KindError KindSubst)}
  {ps : List (Kind × Kind)} {s : KindSubst}

lemma converges_kunifyM_cons {p : Kind × Kind} {r r' : Except KindError KindSubst}
    (hr : Converges (fun n => f n s p.1 p.2) r)
    (hr' : Converges (fun n => match r with
      | .ok s' => kunifyM (f n) s' ps
      | .error e => some (.error e)) r') :
    Converges (fun n => kunifyM (f n) s (p :: ps)) r' := (hr.bind hr').congr fun _ => rfl

lemma kOutcome_kunifyM {o : Option KindSubst}
    (h : Seq (fun k₁ k₂ s => KOutcome fun n => f n s k₁ k₂) ps s o) :
    KOutcome (fun n => kunifyM (f n) s ps) o := by
  induction h with
  | nil s => exact const _
  | ok hp _ ih => exact ih.mono fun r hrun => converges_kunifyM_cons hp hrun
  | error hp =>
    obtain ⟨e, hp⟩ := hp
    exact ⟨e, converges_kunifyM_cons hp (const _)⟩

end

/-- The binding step with an occurs check. -/
theorem step_bindKUni {run : Kind → Kind → KindSubst → Option KindSubst → Prop} {s : KindSubst}
    {k₁ k₂ k₁' k₂' k : Kind} {v : ℤ} (hvar : k₁' = .kUni v ∧ k₂' = k ∨ k₂' = .kUni v ∧ k₁' = k)
    (hne : k ≠ .kUni v)
    (hrun : ∀ o, KOutcome (fun _ => some (bindKUni Kind.vars s v k)) o → run k₁ k₂ s o) :
    Step id run kinds s k₁ k₂ k₁' k₂' := by
  rw [bindKUni] at hrun
  split at hrun
  · next hocc =>
    have hbind := bind_ne_of_mem_vars hocc hne
    refine .fail ?_ (hrun none ⟨_, const _⟩)
    rcases hvar with ⟨rfl, rfl⟩ | ⟨rfl, rfl⟩
    · exact hbind
    · exact fun θ => (hbind θ).symm
  · next hocc => exact .bind v k _ hvar hocc rfl (hrun (some _) (const _))

lemma step_kunifyWith (s : KindSubst) (k₁ k₂ : Kind) (h : WellFounded (Dep (T := Kind) s)) :
    Step id (fun k₁ k₂ s => KOutcome fun n => kunifyWith Kind.vars n s k₁ k₂) kinds s k₁ k₂
      (k₁.bind (resolve h)) (k₂.bind (resolve h)) := by
  have hrun1 := converges_ksubst_false h k₁
  have hrun2 := converges_ksubst_false h k₂
  generalize k₁.bind (resolve h) = k₁' at *
  generalize k₂.bind (resolve h) = k₂' at *
  -- it is enough to follow `kunify'` on the kinds brought up to date
  have hcall : ∀ o, KOutcome (fun n => kunifyWith' Kind.vars (kunifyWith Kind.vars n) s k₁' k₂') o →
      KOutcome (fun n => kunifyWith Kind.vars n s k₁ k₂) o := fun o => .mono fun r hr =>
    .of_succ (hrun1.bind (k := fun a n => (ksubst s false n k₂).bind fun b =>
      kunifyWith' Kind.vars (kunifyWith Kind.vars n) s a b) (hrun2.bind
        (k := fun b n => kunifyWith' Kind.vars (kunifyWith Kind.vars n) s k₁' b) hr)) fun n => rfl
  rcases kunifyWith'_cases k₁' k₂' with
    ⟨ps, hps, hdo⟩ | ⟨v, hv, hne, hdo⟩ | ⟨v, hv, hne, hdo⟩ | ⟨hclash, hdo⟩ <;>
    simp only [hdo] at hcall
  · exact .decompose ps ⟨hps.eq_iff, hps.size_lt, hps.vars_subset⟩
      (fun _ _ => ⟨(), trivial, trivial⟩) fun o ho => hcall o (kOutcome_kunifyM ho)
  · exact step_bindKUni (.inl ⟨hv, rfl⟩) hne hcall
  · exact step_bindKUni (.inr ⟨hv, rfl⟩) hne hcall
  · exact .fail hclash.bind_ne (hcall none ⟨_, const _⟩)

/-- The two kinds have a unifier under the substitution. -/
def Unifiable (s : KindSubst) (k₁ k₂ : Kind) : Prop :=
  ∃ θ : ℤ → Kind, Solves θ s ∧ k₁.bind θ = k₂.bind θ

/-- A call with an occurs check succeeds exactly when there is a unifier, and keeps the substitution
acyclic. -/
theorem kunifyWith_vars_correct {s : KindSubst} (hs : WellFounded (Dep (T := Kind) s))
    (k₁ k₂ : Kind) :
    (∃ s', Converges (fun n => kunifyWith Kind.vars n s k₁ k₂) (.ok s') ∧
      WellFounded (Dep (T := Kind) s') ∧ Unifiable s k₁ k₂) ∨
    ∃ e, Converges (fun n => kunifyWith Kind.vars n s k₁ k₂) (.error e) ∧ ¬ Unifiable s k₁ k₂ := by
  rcases computes_of_step injective_id (fun s k₁ k₂ _ h _ _ => step_kunifyWith s k₁ k₂ h)
    (k := ()) hs (fun _ _ _ => trivial) trivial trivial with
    ⟨s', hrun, hwf, -, hsol⟩ | ⟨⟨e, hrun⟩, hno⟩
  · exact .inl ⟨s', hrun, hwf, _, (hsol _).mp (solves_resolve hwf)⟩
  · exact .inr ⟨e, hrun, fun ⟨θ, hθ, heq⟩ => hno θ hθ heq⟩

/-! ## Unification without the occurs check -/

lemma kfree_eq_nil (k : Kind) : kfree k = [] := by
  induction k with
  | kFun ks k ihs ih =>
    have hks : kfreeList ks = [] := by
      induction ks with
      | nil => rfl
      | cons k' ks ihks =>
        rw [kfreeList, ihs k' (by simp), ihks fun k hk => ihs k (by simp [hk])]
        rfl
    rw [kfree, ih, hks]
    rfl
  | _ => rfl

/-- The check never fires. -/
theorem bindKUni_kfree (s : KindSubst) (v : ℤ) (k : Kind) :
    bindKUni kfree s v k = .ok (update s v (some k)) := by
  rw [bindKUni, kfree_eq_nil, if_neg not_mem_nil]

/-- The error says that a variable would occur in its own kind. -/
def KindError.IsInfinite : KindError → Prop
  | .infiniteKind _ _ => True
  | .noKUnify _ _ => False

/-- A result that is not an infinite kind. -/
def FiniteResult (r : Except KindError KindSubst) : Prop := ∀ e, r = .error e → ¬ e.IsInfinite

variable {r : Except KindError KindSubst} {n : ℕ}

/-- What a call does that returns. -/
theorem kunifyWith_succ_cases {free : Kind → List ℤ} {s : KindSubst}
    (h : kunifyWith free (n + 1) s k₁ k₂ = some r) :
    ∃ k₁' k₂', ksubst s false n k₁ = some k₁' ∧ ksubst s false n k₂ = some k₂' ∧
      kunifyWith' free (kunifyWith free n) s k₁' k₂' = some r := by
  simp only [kunifyWith, bind_eq_bind, bind_eq_some_iff] at h
  obtain ⟨k₁', h1, k₂', h2, h⟩ := h
  exact ⟨k₁', k₂', h1, h2, h⟩

/-- A list of problems that returns: its first call returned and was followed by the others, or
failed. -/
theorem kunifyM_cons_eq_some {f : KindSubst → Kind → Kind → Option (Except KindError KindSubst)}
    {s : KindSubst} {p : Kind × Kind} {ps : List (Kind × Kind)} :
    kunifyM f s (p :: ps) = some r ↔
      (∃ s', f s p.1 p.2 = some (.ok s') ∧ kunifyM f s' ps = some r) ∨
        ∃ e, f s p.1 p.2 = some (.error e) ∧ r = .error e := by
  rw [kunifyM]
  rcases f s p.1 p.2 with _ | _ | _ <;> simp [eq_comm]

/-- The source does the same as with an occurs check, unless that fires. -/
theorem kunify_eq_of_finite {s : KindSubst} (h : kunifyWith Kind.vars n s k₁ k₂ = some r)
    (hr : FiniteResult r) : kunify n s k₁ k₂ = some r := by
  induction n generalizing s k₁ k₂ r with
  | zero => cases h
  | succ n ih =>
    obtain ⟨k₁', k₂', h1, h2, h⟩ := kunifyWith_succ_cases h
    have hbind (v : ℤ) (k : Kind) (hbind : some (bindKUni Kind.vars s v k) = some r) :
        some (bindKUni kfree s v k) = some r := by
      rw [← hbind, bindKUni_kfree]
      rw [bindKUni] at hbind ⊢
      split at hbind
      · cases hbind
        exact absurd trivial (hr _ rfl)
      · next hnot => rw [if_neg hnot]
    have hM (ps : List (Kind × Kind)) (s : KindSubst)
        (h : kunifyM (kunifyWith Kind.vars n) s ps = some r) :
          kunifyM (kunify n) s ps = some r := by
      induction ps generalizing s with
      | nil => exact h
      | cons p ps ihps =>
        rw [kunifyM_cons_eq_some] at h ⊢
        rcases h with ⟨s', hp, h⟩ | ⟨e, hp, rfl⟩
        · exact .inl ⟨s', ih hp (by simp [FiniteResult]), ihps s' h⟩
        · exact .inr ⟨e, ih hp hr, rfl⟩
    change kunifyWith kfree (n + 1) s k₁ k₂ = some r
    rw [kunifyWith, h1, h2]
    simp only [bind_eq_bind, bind_some]
    rcases kunifyWith'_cases k₁' k₂' with
      ⟨ps, -, hdo⟩ | ⟨v, -, -, hdo⟩ | ⟨v, -, -, hdo⟩ | ⟨-, hdo⟩ <;> rw [hdo] at h ⊢
    · exact hM ps s h
    · exact hbind v _ h
    · exact hbind v _ h
    · exact h

lemma finite_of_kunify {s : KindSubst} (h : kunify n s k₁ k₂ = some r) : FiniteResult r := by
  induction n generalizing s k₁ k₂ r with
  | zero => cases h
  | succ n ih =>
    obtain ⟨k₁', k₂', -, -, h⟩ := kunifyWith_succ_cases h
    have hM (ps : List (Kind × Kind)) (s : KindSubst)
        (h : kunifyM (kunify n) s ps = some r) : FiniteResult r := by
      induction ps generalizing s with
      | nil =>
        cases h
        simp [FiniteResult]
      | cons p ps ihps =>
        rcases kunifyM_cons_eq_some.mp h with ⟨s', -, h⟩ | ⟨e, hp, rfl⟩
        · exact ihps s' h
        · exact ih hp
    rcases kunifyWith'_cases k₁' k₂' with
      ⟨ps, -, hdo⟩ | ⟨v, -, -, hdo⟩ | ⟨v, -, -, hdo⟩ | ⟨-, hdo⟩ <;> rw [hdo] at h
    · exact hM ps s h
    · rw [bindKUni_kfree] at h
      cases h
      simp [FiniteResult]
    · rw [bindKUni_kfree] at h
      cases h
      simp [FiniteResult]
    · cases h
      rintro e ⟨⟩
      exact id

/-- The two kinds can be made equal by infinite kinds. -/
def InfinitelyUnifiable (s : KindSubst) (k₁ k₂ : Kind) : Prop :=
  ∃ R, Compatible R ∧ Respects R s ∧ R k₁ k₂

section Respects
variable {R : Kind → Kind → Prop} {s : KindSubst}

lemma forall₂_of_mapM {f : Kind → Option Kind} {ks ks' : List Kind} (h : ks.mapM f = some ks') :
    List.Forall₂ (fun k k' => f k = some k') ks ks' := by
  induction ks generalizing ks' with
  | nil =>
    cases h
    exact .nil
  | cons k ks ih =>
    simp only [mapM_cons, bind_eq_bind, bind_eq_some_iff] at h
    obtain ⟨k', hk, ks1, hks, h⟩ := h
    cases h
    exact .cons hk (ih hks)

lemma Compatible.ksubst (hR : Compatible R) (hs : Respects R s) {k k' : Kind}
    (h : ksubst s false n k = some k') : R k k' := by
  induction n generalizing k k' with
  | zero => cases h
  | succ n ih =>
    cases k with
    | kUni v =>
      rw [Acton.ksubst] at h
      cases hv : s v with
      | none =>
        rw [hv] at h
        cases h
        exact hR.equiv.refl _
      | some k0 =>
        rw [hv] at h
        exact hR.equiv.trans (hs v k0 hv) (ih h)
    | kFun ks k =>
      simp only [Acton.ksubst, bind_eq_bind, bind_eq_some_iff] at h
      obtain ⟨ks', hks, k₁, hk, h⟩ := h
      cases h
      refine (hR.fun_iff _ _ _ _).mpr ⟨?_, ih hk⟩
      exact (forall₂_of_mapM hks).imp fun _ _ h => ih h
    | _ =>
      cases h
      exact hR.equiv.refl _

/-- A call does not run into a mismatch if infinite kinds make the two kinds equal. -/
theorem Compatible.kunifyWith (hR : Compatible R) (hs : Respects R s) {free : Kind → List ℤ}
    (hk : R k₁ k₂) (h : kunifyWith free n s k₁ k₂ = some r) :
    (∃ s', r = .ok s' ∧ Respects R s') ∨ ∃ e, r = .error e ∧ e.IsInfinite := by
  induction n generalizing s k₁ k₂ r with
  | zero => cases h
  | succ n ih =>
    obtain ⟨k₁', k₂', h1, h2, h⟩ := kunifyWith_succ_cases h
    have hk' : R k₁' k₂' :=
      hR.equiv.trans (hR.equiv.symm (hR.ksubst hs h1)) (hR.equiv.trans hk (hR.ksubst hs h2))
    have hM (ps : List (Kind × Kind)) (hps : ∀ p ∈ ps, R p.1 p.2) (s : KindSubst)
        (hs : Respects R s) (h : kunifyM (Acton.kunifyWith free n) s ps = some r) :
        (∃ s', r = .ok s' ∧ Respects R s') ∨ ∃ e, r = .error e ∧ e.IsInfinite := by
      induction ps generalizing s with
      | nil =>
        cases h
        exact .inl ⟨s, rfl, hs⟩
      | cons p ps ihps =>
        rcases kunifyM_cons_eq_some.mp h with ⟨s', hp, h⟩ | ⟨e, hp, rfl⟩
        · rcases ih hs (hps p (by simp)) hp with ⟨s1, heq, hs1⟩ | ⟨e, heq, -⟩
          · cases heq
            exact ihps (fun p hp => hps p (by simp [hp])) s' hs1 h
          · cases heq
        · exact ih hs (hps p (by simp)) hp
    have hbind (v : ℤ) (k : Kind) (hvk : R (.kUni v) k)
        (h : some (bindKUni free s v k) = some r) :
        (∃ s', r = .ok s' ∧ Respects R s') ∨ ∃ e, r = .error e ∧ e.IsInfinite := by
      rw [bindKUni] at h
      split at h
      · cases h
        exact .inr ⟨_, rfl, trivial⟩
      · cases h
        refine .inl ⟨_, rfl, fun w k' hw => ?_⟩
        by_cases hwv : w = v
        · subst hwv
          rw [update_self] at hw
          cases hw
          exact hvk
        · rw [update_of_ne hwv] at hw
          exact hs w k' hw
    rcases kunifyWith'_cases k₁' k₂' with
      ⟨ps, hps, hdo⟩ | ⟨v, rfl, -, hdo⟩ | ⟨v, rfl, -, hdo⟩ | ⟨hclash, hdo⟩ <;> rw [hdo] at h
    · exact hM ps (hps.rel R hR hk') s hs h
    · exact hbind v _ hk' h
    · exact hbind v _ (hR.equiv.symm hk') h
    · exact absurd hclash (hR.not_clash _ _ hk')

end Respects

/-! ## Sequences of calls -/

/-- Each call succeeds if the two kinds have a unifier under the current substitution, and `ksubst`
terminates after it. Otherwise the call reports an error, and an infinite kind if infinite kinds
would make the two equal. -/
def CallsCorrect : KindSubst → List (Kind × Kind) → Prop
  | _, [] => True
  | s, p :: ps => (∃ s', Converges (fun n => kunify n s p.1 p.2) (.ok s') ∧ Unifiable s p.1 p.2 ∧
      (∀ g k, ∃ k', Converges (fun n => ksubst s' g n k) k') ∧ CallsCorrect s' ps) ∨
    ∃ e, Converges (fun n => kunify n s p.1 p.2) (.error e) ∧ ¬ Unifiable s p.1 p.2 ∧
      (InfinitelyUnifiable s p.1 p.2 → e.IsInfinite)

/-- An occurs check over the real variables of a kind would not fire in any of the calls. -/
def NoInfiniteKind : KindSubst → List (Kind × Kind) → Prop
  | _, [] => True
  | s, p :: ps =>
    (∀ e, Converges (fun n => kunifyWith Kind.vars n s p.1 p.2) (.error e) → ¬ e.IsInfinite) ∧
    ∀ s', Converges (fun n => kunify n s p.1 p.2) (.ok s') → NoInfiniteKind s' ps

lemma converges_kunify_of_finite {s : KindSubst}
    (h : Converges (fun n => kunifyWith Kind.vars n s k₁ k₂) r) (hr : FiniteResult r) :
    Converges (fun n => kunify n s k₁ k₂) r := by
  obtain ⟨N, hN⟩ := h
  exact ⟨N, fun n hn => kunify_eq_of_finite (hN n hn) hr⟩

/-- A mismatch that is reported cannot be solved by infinite kinds. -/
theorem not_infinitelyUnifiable_of_kunify {s : KindSubst} {e : KindError}
    (h : Converges (fun n => kunify n s k₁ k₂) (.error e)) : ¬ InfinitelyUnifiable s k₁ k₂ := by
  rintro ⟨R, hR, hs, hk⟩
  obtain ⟨n, hN⟩ := h
  have hn := hN n le_rfl
  rcases hR.kunifyWith hs hk hn with ⟨s', heq, -⟩ | ⟨e', heq, he'⟩
  · cases heq
  · cases heq
    exact finite_of_kunify hn e rfl he'

/-- One call keeps the substitution acyclic, so the calls after it can be treated in the same
way. -/
lemma callsCorrect_of_noInfiniteKind {s : KindSubst} (hs : WellFounded (Dep (T := Kind) s))
    {ps : List (Kind × Kind)} (h : NoInfiniteKind s ps) : CallsCorrect s ps := by
  induction ps generalizing s with
  | nil => trivial
  | cons p ps ih =>
    obtain ⟨hcheck, hps⟩ := h
    rcases kunifyWith_vars_correct hs p.1 p.2 with ⟨s', hrun, hwf, huni⟩ | ⟨e, hrun, hno⟩
    · have hsource := converges_kunify_of_finite hrun (by simp [FiniteResult])
      exact .inl ⟨s', hsource, huni, fun g k => ⟨_, converges_ksubst hwf g k⟩,
        ih hwf (hps s' hsource)⟩
    · have hfin : FiniteResult (.error e : Except KindError KindSubst) := by
        rintro _ ⟨⟩
        exact hcheck e hrun
      have hsource := converges_kunify_of_finite hrun hfin
      exact .inr ⟨e, hsource, hno, fun h => absurd h (not_infinitelyUnifiable_of_kunify hsource)⟩

/-- Calls of `kunify` from the empty substitution are correct if none of them needs the occurs
check. -/
theorem kunify_correct {ps : List (Kind × Kind)} (h : NoInfiniteKind (fun _ => none) ps) :
    CallsCorrect (fun _ => none) ps :=
  callsCorrect_of_noInfiniteKind ⟨fun _ => acc_dep_of_none rfl⟩ h

/-- A function kind is unified with a variable in it, and then with a kind of another shape. -/
theorem kunify_correct_mismatch : CallsCorrect (fun _ => none)
    [(.kFun [.kUni 1] .kType, .kFun [.kProto] .kType), (.kUni 1, .kType)] := by
  have hfirst : Converges (fun n => kunifyWith Kind.vars n (fun _ => none)
      (.kFun [.kUni 1] .kType) (.kFun [.kProto] .kType))
      (.ok (update (fun _ => none) 1 (some .kProto))) := ⟨4, fun n hn => by
    obtain ⟨n, rfl⟩ := Nat.exists_eq_add_of_le hn
    rw [Nat.add_comm]
    rfl⟩
  have hsecond : Converges (fun n => kunifyWith Kind.vars n
      (update (fun _ => none) 1 (some .kProto)) (.kUni 1) .kType)
      (.error (.noKUnify .kProto .kType)) := ⟨4, fun n hn => by
    obtain ⟨n, rfl⟩ := Nat.exists_eq_add_of_le hn
    rw [Nat.add_comm]
    rfl⟩
  refine kunify_correct ⟨fun e he => absurd (he.unique hfirst) (by simp), fun s hs => ?_⟩
  obtain rfl := Except.ok.inj
    (hs.unique (converges_kunify_of_finite hfirst (by simp [FiniteResult])))
  refine ⟨fun e he => ?_, fun _ _ => trivial⟩
  obtain rfl := Except.error.inj (he.unique hsecond)
  simp [KindError.IsInfinite]

/-- A variable is bound to a function kind in which it occurs. There is no unifier, and `ksubst`
does not terminate after it. -/
theorem kunify_diverges : ∃ s',
    Converges (fun n => kunify n (fun _ => none) (.kUni 1) (.kFun [.kUni 1] .kType)) (.ok s') ∧
    ¬ Unifiable (fun _ => none) (.kUni 1) (.kFun [.kUni 1] .kType) ∧
    ∀ g n, ksubst s' g n (.kUni 1) = none := by
  refine ⟨update (fun _ => none) 1 (some (.kFun [.kUni 1] .kType)), ⟨3, fun n hn => ?_⟩,
    ?_, fun g n => ?_⟩
  · obtain ⟨n, rfl⟩ := Nat.exists_eq_add_of_le hn
    rw [Nat.add_comm]
    rfl
  · rintro ⟨θ, -, heq⟩
    exact Kind.bind_ne_of_mem_vars (by simp [Kind.vars, Kind.varsList]) (by simp) θ heq
  · suffices h : ksubst (update (fun _ => none) 1 (some (.kFun [.kUni 1] .kType))) g n
        (.kUni 1) = none ∧ ksubst (update (fun _ => none) 1
        (some (.kFun [.kUni 1] .kType))) g n (.kFun [.kUni 1] .kType) = none from h.1
    induction n with
    | zero => exact ⟨rfl, rfl⟩
    | succ n ih => simp [ksubst, ih]

end Acton
