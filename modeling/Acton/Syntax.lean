import Mathlib.Tactic

/-!
# Names, kinds and types

The part of the compiler's abstract syntax that the type level works on: `Name`, `QName`,
`Kind`, `Ty` (the source's `Type`) and `TCon`. Source locations are left out everywhere. Type
variables `TVar` and unification variables `TUni` are compared by name and by number alone, so
the kind that the source stores beside them is left out too.

`Ty` is nested through lists, so equality is the Boolean test `Ty.beq` that follows the source's
`Eq` instance case by case, with a proof that it decides equality (`Ty.beq_iff`).
-/

namespace Acton

/-- The compiler pass or purpose an internal name was made for. -/
inductive Prefix
  | globvar | xistvar | tempvar | witness | normPass | cpsPass | lliftPass | boxPass
  deriving DecidableEq, Repr

/-- Identifiers: written in the source, derived from two names, or made by a pass. -/
inductive Name
  | name (s : String)
  | derived (n s : Name)
  | internal (p : Prefix) (s : String) (i : ℤ)
  deriving DecidableEq, Repr

/-- Module names are paths. -/
abbrev ModName := List Name

/-- Possibly qualified names. -/
inductive QName
  | qName (m : ModName) (n : Name)
  | noQ (n : Name)
  | gName (m : ModName) (n : Name)
  deriving DecidableEq, Repr

/-- Kinds. -/
inductive Kind
  | kType | kProto | kFX | pRow | kRow
  | kFun (ks : List Kind) (k : Kind)
  | kUni (i : ℤ)
  | kWild
  deriving Repr

namespace Kind

mutual
/-- The derived equality test on kinds. -/
def beq : Kind → Kind → Bool
  | kType, kType => true
  | kProto, kProto => true
  | kFX, kFX => true
  | pRow, pRow => true
  | kRow, kRow => true
  | kFun ks₁ k₁, kFun ks₂ k₂ => beqList ks₁ ks₂ && beq k₁ k₂
  | kUni i, kUni j => i == j
  | kWild, kWild => true
  | _, _ => false

/-- `beq` on lists of kinds. -/
def beqList : List Kind → List Kind → Bool
  | [], [] => true
  | k₁ :: ks₁, k₂ :: ks₂ => beq k₁ k₂ && beqList ks₁ ks₂
  | _, _ => false
end

mutual
lemma beq_iff : ∀ k1 k2 : Kind, beq k1 k2 = true ↔ k1 = k2
  | kFun ks1 k1, k2 => by
      cases k2 <;> simp [beq, beqList_iff, beq_iff k1]
  | kUni i, k2 => by cases k2 <;> simp [beq]
  | kType, k2 | kProto, k2 | kFX, k2 | pRow, k2 | kRow, k2 | kWild, k2 => by
      cases k2 <;> simp [beq]

lemma beqList_iff : ∀ ks1 ks2 : List Kind, beqList ks1 ks2 = true ↔ ks1 = ks2
  | [], ks2 => by cases ks2 <;> simp [beqList]
  | k1 :: ks1, ks2 => by
      cases ks2 <;> simp [beqList, beq_iff k1, beqList_iff ks1]
end

instance : DecidableEq Kind := fun k₁ k₂ => decidable_of_iff _ (beq_iff k₁ k₂)

end Kind

/-- Type variables bound by a signature; `TV k1 v1 == TV k2 v2` is `v1 == v2`. -/
structure TVar where
  tvname : Name
  deriving DecidableEq, Repr

/-- Unification variables; `UV k1 i1 == UV k2 i2` is `i1 == i2`. -/
structure TUni where
  uvid : ℤ
  deriving DecidableEq, Repr

/-- Effects. -/
inductive FX
  | fxPure | fxMut | fxProc | fxAction
  deriving DecidableEq, Repr

/-- The source's `Type`: types, effects and argument rows share one syntax and are told apart by
their kind. A `TCon` of the source is its name and its arguments. -/
inductive Ty
  | tUni (u : TUni)
  | tVar (v : TVar)
  | tCon (tcname : QName) (tcargs : List Ty)
  | tFun (effect posrow kwdrow restype : Ty)
  | tTuple (posrow kwdrow : Ty)
  | tOpt (opttype : Ty)
  | tNone
  | tWild
  | tNil (rkind : Kind)
  | tRow (rkind : Kind) (label : Name) (rtype rtail : Ty)
  | tStar (rkind : Kind) (rtail : Ty)
  | tFX (fx : FX)
  deriving Repr

namespace Ty

/-- Induction over types, with a hypothesis for each argument of a constructor application. -/
@[elab_as_elim, induction_eliminator]
theorem induction {P : Ty → Prop} (tUni : ∀ u, P (tUni u)) (tVar : ∀ v, P (tVar v))
    (tCon : ∀ n ts, (∀ t ∈ ts, P t) → P (tCon n ts))
    (tFun : ∀ fx p k t, P fx → P p → P k → P t → P (tFun fx p k t))
    (tTuple : ∀ p k, P p → P k → P (tTuple p k)) (tOpt : ∀ t, P t → P (tOpt t))
    (tNone : P tNone) (tWild : P tWild) (tNil : ∀ k, P (tNil k))
    (tRow : ∀ k n t r, P t → P r → P (tRow k n t r)) (tStar : ∀ k r, P r → P (tStar k r))
    (tFX : ∀ fx, P (tFX fx)) (t : Ty) : P t :=
  @Ty.rec P (fun ts => ∀ t ∈ ts, P t) tUni tVar tCon tFun tTuple tOpt tNone tWild tNil tRow
    tStar tFX (by simp) (fun t ts ht hts => by simpa using ⟨ht, hts⟩) t

mutual
/-- The source's `Eq` instance for types. -/
def beq : Ty → Ty → Bool
  | tUni u₁, tUni u₂ => u₁ == u₂
  | tVar v₁, tVar v₂ => v₁ == v₂
  | tCon n₁ ts₁, tCon n₂ ts₂ => n₁ == n₂ && beqList ts₁ ts₂
  | tFun e₁ p₁ r₁ t₁, tFun e₂ p₂ r₂ t₂ => beq e₁ e₂ && beq p₁ p₂ && beq r₁ r₂ && beq t₁ t₂
  | tTuple p₁ r₁, tTuple p₂ r₂ => beq p₁ p₂ && beq r₁ r₂
  | tOpt t₁, tOpt t₂ => beq t₁ t₂
  | tNone, tNone => true
  | tWild, tWild => true
  | tNil k₁, tNil k₂ => k₁ == k₂
  | tRow k₁ n₁ t₁ r₁, tRow k₂ n₂ t₂ r₂ => k₁ == k₂ && n₁ == n₂ && beq t₁ t₂ && beq r₁ r₂
  | tStar k₁ r₁, tStar k₂ r₂ => k₁ == k₂ && beq r₁ r₂
  | tFX fx₁, tFX fx₂ => fx₁ == fx₂
  | _, _ => false

/-- `beq` on argument lists. -/
def beqList : List Ty → List Ty → Bool
  | [], [] => true
  | t₁ :: ts₁, t₂ :: ts₂ => beq t₁ t₂ && beqList ts₁ ts₂
  | _, _ => false
end

lemma beqList_iff_of {ts1 : List Ty} (h : ∀ t1 ∈ ts1, ∀ t2, beq t1 t2 = true ↔ t1 = t2)
    (ts2 : List Ty) : beqList ts1 ts2 = true ↔ ts1 = ts2 := by
  induction ts1 generalizing ts2 with
  | nil => cases ts2 <;> simp [beqList]
  | cons t ts ih =>
    cases ts2 with
    | nil => simp [beqList]
    | cons t2 ts2 =>
      rw [beqList, Bool.and_eq_true, h t (by simp), ih (fun t ht => h t (by simp [ht]))]
      simp

lemma beq_iff (t1 t2 : Ty) : beq t1 t2 = true ↔ t1 = t2 := by
  induction t1 generalizing t2 with
  | tCon n ts ih => cases t2 <;> simp [beq, beqList_iff_of ih]
  | tFun fx p k t hfx hp hk ht => cases t2 <;> simp [beq, hfx, hp, hk, ht, and_assoc]
  | tTuple p k hp hk => cases t2 <;> simp [beq, hp, hk]
  | tOpt t ht => cases t2 <;> simp [beq, ht]
  | tRow k n t r ht hr => cases t2 <;> simp [beq, ht, hr, and_assoc]
  | tStar k r hr => cases t2 <;> simp [beq, hr]
  | _ => cases t2 <;> simp [beq]

instance : DecidableEq Ty := fun t₁ t₂ => decidable_of_iff _ (beq_iff t₁ t₂)

end Ty

/-- A class, protocol or actor applied to type arguments. -/
structure TCon where
  tcname : QName
  tcargs : List Ty
  deriving DecidableEq, Repr

end Acton
