import Acton.Env.Hierarchy
import Acton.Kinds

/-!
# The cast predicate

`castable` decides whether a value of one type can be used at another. Its equations overlap and
are tried in order: wildcards first, then type constructors, then the rules for optional types,
effects and rows, and only then type variables, which stand for the class that bounds them.

The bound of a variable may mention the variable itself, so the recursion need not end; the model
takes fuel, and `Castable` says that the answer is `True` from some amount of fuel on. A missing
class or type variable is an error in the source, and no answer here.

`castable_succ_iff` says once what each equation can do (`CastRule`); later proofs use it instead of
the equations.
-/

namespace Acton

/-- What `castable` reads of an environment: its classes, and the bounds of the type variables in
scope. -/
structure CastEnv where
  cons : ConEnv
  findTVBound : TVar → Option TCon

/-- Names that the `__builtin__` module exports. -/
def gBuiltin (n : String) : QName := .gName [.name "__builtin__"] (.name n)

/-- The classes whose arguments are compared instead of equated; the source's comment is "Ignore
mutation for now!". -/
def covariant : List QName := [gBuiltin "set", gBuiltin "dict", gBuiltin "list"]

/-- The first class of that name among a class and its ancestors. The class itself comes first, so
its ancestors are not looked up when the name is its own. -/
def findAncestor (env : ConEnv) (p : TCon) (qn : QName) : Except MroError (Option TCon) :=
  if p.tcname = qn then .ok (some p)
  else do
    let us ← findCon env p
    return (us.map Prod.snd).find? fun u => u.tcname = qn

/-- The cast order on effects. -/
def FX.castable : FX → FX → Bool
  | fxPure, fxPure => true
  | fxPure, fxMut => true
  | fxPure, fxProc => true
  | fxMut, fxMut => true
  | fxMut, fxProc => true
  | fxProc, fxProc => true
  | fxAction, fxAction => true
  | fxAction, fxProc => true
  | _, _ => false

namespace Castable

/-- `x && y`, where `y` is only run if `x` is true. -/
def both (x y : Option Bool) : Option Bool := x.bind fun b => if b then y else some false

/-- `all (uncurry f)`. -/
def all (f : Ty → Ty → Option Bool) : List (Ty × Ty) → Option Bool
  | [] => some true
  | p :: ps => both (f p.1 p.2) (all f ps)

end Castable
open Castable in
/-- Whether a value of the first type can be used at the second. -/
def castable (env : CastEnv) : ℕ → Ty → Ty → Option Bool
  | 0, _, _ => none
  | _ + 1, .tWild, _ => some true
  | _ + 1, _, .tWild => some true
  | n + 1, .tCon c₁ ts₁, .tCon c₂ ts₂ =>
      if c₁ = c₂ ∧ c₁ ∈ covariant then all (castable env n) (ts₁.zip ts₂)
      else
        match findAncestor env.cons ⟨c₁, ts₁⟩ c₂ with
        | .ok (some c') => some (decide (ts₂ = c'.tcargs))
        | .ok none => some false
        | .error _ => none
  | n + 1, .tFun fx₁ p₁ k₁ t₁, .tFun fx₂ p₂ k₂ t₂ =>
      both (castable env n fx₁ fx₂) <| both (castable env n p₂ p₁) <|
        both (castable env n k₂ k₁) (castable env n t₁ t₂)
  | n + 1, .tTuple p₁ k₁, .tTuple p₂ k₂ => both (castable env n p₁ p₂) (castable env n k₁ k₂)
  | n + 1, .tOpt t₁, .tOpt t₂ => castable env n t₁ t₂
  | _ + 1, .tNone, .tOpt _ => some true
  | _ + 1, .tNone, .tNone => some true
  | _ + 1, .tFX fx₁, .tFX fx₂ => some (fx₁.castable fx₂)
  | _ + 1, .tNil k₁, .tNil k₂ => some (decide (k₁ = k₂))
  | n + 1, .tRow k₁ n₁ t₁ r₁, .tRow k₂ n₂ t₂ r₂ =>
      if k₁ = k₂ ∧ n₁ = n₂ then both (castable env n t₁ t₂) (castable env n r₁ r₂)
      else some false
  | n + 1, .tStar k₁ r₁, .tStar k₂ r₂ =>
      if k₁ = k₂ then castable env n r₁ r₂ else some false
  | n + 1, .tVar v, t₂ =>
      if t₂ = .tVar v then some true
      else
        match env.findTVBound v with
        | some c => castable env n (.tCon c.tcname c.tcargs) t₂
        | none => none
  | _ + 1, _, .tVar _ => some false
  | n + 1, t₁, .tOpt t₂ => castable env n t₁ t₂
  | _ + 1, _, _ => some false

/-- `castable` terminates and answers `True`. -/
def Castable (env : CastEnv) (t₁ t₂ : Ty) : Prop :=
  Fuel.Converges (fun n => castable env n t₁ t₂) true

namespace Castable

lemma both_eq_true_iff {x y : Option Bool} :
    both x y = some true ↔ x = some true ∧ y = some true := by
  rcases x with _ | _ | _ <;> simp [both]

lemma all_eq_true_iff {f : Ty → Ty → Option Bool} {ps : List (Ty × Ty)} :
    all f ps = some true ↔ ∀ p ∈ ps, f p.1 p.2 = some true := by
  induction ps with
  | nil => simp [all]
  | cons p ps ih => rw [all, both_eq_true_iff, ih, List.forall_mem_cons]

end Castable

/-- The types that the equation for an optional type on the right applies to: those that none of
the equations before it takes. -/
def Ty.Solid : Ty → Prop
  | tVar _ | tOpt _ | tNone | tWild => False
  | _ => True

/-- The ways in which `castable` answers `True`, with `R` for its recursive calls. -/
inductive CastRule (env : CastEnv) (R : Ty → Ty → Prop) : Ty → Ty → Prop
  | wildLeft {t : Ty} : CastRule env R .tWild t
  | wildRight {t : Ty} : CastRule env R t .tWild
  | covariant {n : QName} {ts₁ ts₂ : List Ty} : n ∈ covariant →
      (∀ p ∈ ts₁.zip ts₂, R p.1 p.2) → CastRule env R (.tCon n ts₁) (.tCon n ts₂)
  | ancestor {n₁ n₂ : QName} {ts₁ : List Ty} {c : TCon} : ¬ (n₁ = n₂ ∧ n₁ ∈ Acton.covariant) →
      findAncestor env.cons ⟨n₁, ts₁⟩ n₂ = .ok (some c) →
      CastRule env R (.tCon n₁ ts₁) (.tCon n₂ c.tcargs)
  | tFun {fx₁ p₁ k₁ t₁ fx₂ p₂ k₂ t₂ : Ty} : R fx₁ fx₂ → R p₂ p₁ → R k₂ k₁ → R t₁ t₂ →
      CastRule env R (.tFun fx₁ p₁ k₁ t₁) (.tFun fx₂ p₂ k₂ t₂)
  | tTuple {p₁ k₁ p₂ k₂ : Ty} : R p₁ p₂ → R k₁ k₂ → CastRule env R (.tTuple p₁ k₁) (.tTuple p₂ k₂)
  | tOpt {t₁ t₂ : Ty} : R t₁ t₂ → CastRule env R (.tOpt t₁) (.tOpt t₂)
  | noneOpt {t : Ty} : CastRule env R .tNone (.tOpt t)
  | tNone : CastRule env R .tNone .tNone
  | tFX {fx₁ fx₂ : FX} : fx₁.castable fx₂ = true → CastRule env R (.tFX fx₁) (.tFX fx₂)
  | tNil {k : Kind} : CastRule env R (.tNil k) (.tNil k)
  | tRow {k : Kind} {n : Name} {t₁ r₁ t₂ r₂ : Ty} : R t₁ t₂ → R r₁ r₂ →
      CastRule env R (.tRow k n t₁ r₁) (.tRow k n t₂ r₂)
  | tStar {k : Kind} {r₁ r₂ : Ty} : R r₁ r₂ → CastRule env R (.tStar k r₁) (.tStar k r₂)
  | tVar {v : TVar} : CastRule env R (.tVar v) (.tVar v)
  | bound {v : TVar} {c : TCon} {t : Ty} : env.findTVBound v = some c →
      R (.tCon c.tcname c.tcargs) t → CastRule env R (.tVar v) t
  | opt {t₁ t₂ : Ty} : t₁.Solid → R t₁ t₂ → CastRule env R t₁ (.tOpt t₂)

variable {env : CastEnv} {R R' : Ty → Ty → Prop} {t₁ t₂ : Ty}

lemma CastRule.mono (hR : ∀ s t, R s t → R' s t) (h : CastRule env R t₁ t₂) :
    CastRule env R' t₁ t₂ := by
  cases h with
  | wildLeft => exact wildLeft
  | wildRight => exact wildRight
  | covariant hn hts => exact covariant hn fun p hp => hR _ _ (hts p hp)
  | ancestor hn hc => exact ancestor hn hc
  | tFun hfx hp hk ht => exact tFun (hR _ _ hfx) (hR _ _ hp) (hR _ _ hk) (hR _ _ ht)
  | tTuple hp hk => exact tTuple (hR _ _ hp) (hR _ _ hk)
  | tOpt ht => exact tOpt (hR _ _ ht)
  | noneOpt => exact noneOpt
  | tNone => exact tNone
  | tFX h => exact tFX h
  | tNil => exact tNil
  | tRow ht hr => exact tRow (hR _ _ ht) (hR _ _ hr)
  | tStar hr => exact tStar (hR _ _ hr)
  | tVar => exact tVar
  | bound hc ht => exact bound hc (hR _ _ ht)
  | opt hs ht => exact opt hs (hR _ _ ht)

/-- If an equation answers `True`, its rule applies. -/
theorem castRule_of_castable {n : ℕ} (h : castable env (n + 1) t₁ t₂ = some true) :
    CastRule env (fun s t => castable env n s t = some true) t₁ t₂ := by
  revert h
  generalize hm : n + 1 = m
  fun_cases castable env m t₁ t₂ <;> intro h <;> cases hm <;>
    try (simp only [reduceCtorEq, Option.some.injEq] at h; done)
  case case2 => exact .wildLeft
  case case3 => exact .wildRight
  case case4 hn =>
    obtain ⟨rfl, hn⟩ := hn
    exact .covariant hn (Castable.all_eq_true_iff.mp h)
  case case5 hn c' hc =>
    rw [of_decide_eq_true (Option.some.inj h)]
    exact .ancestor hn hc
  case case8 =>
    simp only [Castable.both_eq_true_iff] at h
    exact .tFun h.1 h.2.1 h.2.2.1 h.2.2.2
  case case9 =>
    obtain ⟨hp, hk⟩ := Castable.both_eq_true_iff.mp h
    exact .tTuple hp hk
  case case10 => exact .tOpt h
  case case11 => exact .noneOpt
  case case12 => exact .tNone
  case case13 => exact .tFX (Option.some.inj h)
  case case14 =>
    rw [of_decide_eq_true (Option.some.inj h)]
    exact .tNil
  case case15 hkn =>
    obtain ⟨rfl, rfl⟩ := hkn
    obtain ⟨ht, hr⟩ := Castable.both_eq_true_iff.mp h
    exact .tRow ht hr
  case case17 => exact .tStar h
  case case19 => exact .tVar
  case case20 hc _ _ => exact .bound hc h
  case case23 hwild hopt hnone hvar =>
    refine .opt ?_ h
    cases t₁ <;> simp_all [Ty.Solid]

/-- Conversely, the equations find every rule. -/
theorem castable_of_castRule {n : ℕ}
    (h : CastRule env (fun s t => castable env n s t = some true) t₁ t₂) :
    castable env (n + 1) t₁ t₂ = some true := by
  cases h with
  | wildRight => cases t₁ <;> rfl
  | covariant hn hts => simpa [castable, hn] using Castable.all_eq_true_iff.mpr hts
  | ancestor hn hc => simp [castable, hn, hc]
  | tFun hfx hp hk ht | tTuple hp hk | tRow ht hr => simp [castable, Castable.both_eq_true_iff, *]
  | bound hc ht =>
    -- the equation comes after the ones for a wildcard and for the variable itself
    cases t₂ <;> simp [castable, hc, ht]
  | opt hs ht => cases t₁ <;> first | exact hs.elim | simpa [castable] using ht
  | _ => simp [castable, *]

lemma castable_succ_iff {n : ℕ} : castable env (n + 1) t₁ t₂ = some true ↔
      CastRule env (fun s t => castable env n s t = some true) t₁ t₂ :=
  ⟨castRule_of_castable, castable_of_castRule⟩

lemma castable_succ {n : ℕ} (h : castable env n t₁ t₂ = some true) :
    castable env (n + 1) t₁ t₂ = some true := by
  induction n generalizing t₁ t₂ with
  | zero => simp [castable] at h
  | succ n ih => exact castable_succ_iff.mpr ((castable_succ_iff.mp h).mono fun _ _ => ih)

lemma castable_iff : Castable env t₁ t₂ ↔ ∃ n, castable env n t₁ t₂ = some true :=
  Fuel.converges_iff_exists fun _ => castable_succ

/-- A rule makes finitely many recursive calls, so some amount of fuel is enough for all. -/
theorem CastRule.exists_fuel (h : CastRule env (Castable env) t₁ t₂) :
    ∃ N, ∀ n, N ≤ n → CastRule env (fun s t => castable env n s t = some true) t₁ t₂ := by
  cases h with
  | covariant hn hts =>
    obtain ⟨N, hN⟩ := Fuel.exists_forall_mem hts
    exact ⟨N, fun n hle => covariant hn (hN n hle)⟩
  | tFun hfx hp hk ht =>
    obtain ⟨N1, h1⟩ := hfx
    obtain ⟨N2, h2⟩ := hp
    obtain ⟨N3, h3⟩ := hk
    obtain ⟨N4, h4⟩ := ht
    exact ⟨N1 + N2 + N3 + N4, fun n hn => tFun (h1 n (by omega)) (h2 n (by omega))
      (h3 n (by omega)) (h4 n (by omega))⟩
  | tTuple hp hk =>
    obtain ⟨N1, h1⟩ := hp
    obtain ⟨N2, h2⟩ := hk
    exact ⟨N1 + N2, fun n hn => tTuple (h1 n (by omega)) (h2 n (by omega))⟩
  | tRow ht hr =>
    obtain ⟨N1, h1⟩ := ht
    obtain ⟨N2, h2⟩ := hr
    exact ⟨N1 + N2, fun n hn => tRow (h1 n (by omega)) (h2 n (by omega))⟩
  | tOpt ht => exact ht.imp fun N hN n hn => tOpt (hN n hn)
  | tStar hr => exact hr.imp fun N hN n hn => tStar (hN n hn)
  | bound hc ht => exact ht.imp fun N hN n hn => bound hc (hN n hn)
  | opt hs ht => exact ht.imp fun N hN n hn => opt hs (hN n hn)
  | wildLeft => exact ⟨0, fun _ _ => wildLeft⟩
  | wildRight => exact ⟨0, fun _ _ => wildRight⟩
  | ancestor hn hc => exact ⟨0, fun _ _ => ancestor hn hc⟩
  | noneOpt => exact ⟨0, fun _ _ => noneOpt⟩
  | tNone => exact ⟨0, fun _ _ => tNone⟩
  | tFX h => exact ⟨0, fun _ _ => tFX h⟩
  | tNil => exact ⟨0, fun _ _ => tNil⟩
  | tVar => exact ⟨0, fun _ _ => tVar⟩

/-- The rules hold of `Castable` itself. -/
theorem castable_iff_castRule : Castable env t₁ t₂ ↔ CastRule env (Castable env) t₁ t₂ := by
  constructor
  · rintro h
    obtain ⟨n, hn⟩ := castable_iff.mp h
    exact (castable_succ_iff.mp (castable_succ hn)).mono fun _ _ h => castable_iff.mpr ⟨n, h⟩
  · intro h
    obtain ⟨N, hN⟩ := h.exists_fuel
    refine ⟨N + 1, fun n hn => ?_⟩
    obtain ⟨m, rfl⟩ := Nat.exists_eq_succ_of_ne_zero (show n ≠ 0 by omega)
    exact castable_of_castRule (hN m (by omega))

end Acton
