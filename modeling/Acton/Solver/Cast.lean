import Acton.Env.Castable
import Acton.Solver.Rows
import Acton.Unify

/-!
# Casts between tuple and function types

A cast uses a value at another type as it is: the witness is the identity function. For tuple and
function types `cast'` aligns the rows of components with `castpos` and `castkwd0`, and goes on with
a cast for each pair of components. Here the rows are closed; the answers of `castpos` and `castkwd`
are the pairs of types of the new `Cast` constraints.

* `castkwd` accepts two keyword rows only if they have the same labels in the same order.
* `castpos` opens a starred rest where the other row goes on with single components, accepts an
  optional component of the target that the source does not have, and hands on the components of
  the source that the target does not have. `castkwd0` lets these stand for the first keyword
  components of the target.

The rules of `castpos` are those of the conversions, but here nothing is converted. `cast` is the
whole procedure on types without unification variables.
-/

namespace Acton.Solver
open List Option Except Row

/-! ### The source -/

def castpos : Row → Row → Except RowError (List (Ty × Ty) × List Ty)
  | .row _ t1 r1, .row _ t2 r2 => do
      let (cs, ts) ← castpos r1 r2
      return ((t1, t2) :: cs, ts)
  | .star r1, .star r2 => return ([(tTupleP r1, tTupleP r2)], [])
  | .nil, .nil => return ([], [])
  | .star r1, r2 => castpos r1 r2
  | r1, .star r2 => castpos r1 r2
  | .nil, .row _ t2 r2 =>
      if isOpt t2 then castpos .nil r2 else throw (.posElemNotFound true)
  | .row _ t1 r1, .nil => do
      let (cs, ts) ← castpos r1 .nil
      return (cs, t1 :: ts)
termination_by r1 r2 => sizeOf r1 + sizeOf r2

def castkwd : Row → Row → Except RowError (List (Ty × Ty))
  | .row n t1 r1, .row n2 t2 r2 =>
      if n = n2 then do
        let cs ← castkwd r1 r2
        return (t1, t2) :: cs
      else throw (.kwdNotFound n2)
  | .star _, .row n2 _ _ => throw (.kwdNotFound n2)
  | .nil, .row n2 _ _ => throw (.kwdNotFound n2)
  | .row n _ _, .star _ => throw (.kwdUnexpected n)
  | .star r, .star r2 => castkwd r r2
  | .nil, .star _ => throw .noRed
  | .nil, .nil => return []
  | .row n _ _, .nil => throw (.kwdUnexpected n)
  | .star _, .nil => throw .noRed

def castkwd0 : List Ty → Row → Row → Except RowError (List (Ty × Ty))
  | [], r1, r2 => castkwd r1 r2
  | t1 :: ts, r1, .row _ t2 r2 => do
      let cs ← castkwd0 ts r1 r2
      return (t1, t2) :: cs
  | _ :: _, _, _ => throw (.posElemNotFound false)

/-- The common part of the cases for tuples and functions: the new constraints, and the positional
components that were left over. -/
def castRows (p1 k1 p2 k2 : Row) : Except RowError (List (Ty × Ty) × List Ty) := do
  let (cs1, ts) ← castpos p1 p2
  let cs2 ← castkwd0 ts k1 k2
  return (cs1 ++ cs2, ts)

/-- A type as a closed row. -/
def rowOf : Ty → Option Row
  | .tNil _ => some .nil
  | .tRow _ n t r => (rowOf r).map (.row n t)
  | .tStar _ r => (rowOf r).map .star
  | _ => none

/-- Whether the arguments of two class types can be unified. -/
def unifiable (info : ErrInfo) (n : ℕ) (ts1 ts2 : List Ty) : Option Bool :=
  ((unifyM (unify info n) ts1 ts2).runWith ∅).map fun r => r.1.isOk

open Castable in
/-- Whether the solver accepts the cast, for types without unification variables. -/
def cast (env : CastEnv) (info : ErrInfo) : ℕ → Ty → Ty → Option Bool
  | 0, _, _ => none
  | _ + 1, .tWild, _ => some true
  | _ + 1, _, .tWild => some true
  | n + 1, .tCon c1 ts1, .tCon c2 ts2 =>
      match findAncestor env.cons ⟨c1, ts1⟩ c2 with
      | .ok (some c') =>
          if c1 = c2 ∧ c1 ∈ covariant then all (cast env info n) (c'.tcargs.zip ts2)
          else unifiable info n c'.tcargs ts2
      | .ok none => some false
      | .error _ => none
  | n + 1, .tFun fx1 p1 k1 t1, .tFun fx2 p2 k2 t2 => do
      -- the arguments that the second type is called with go to the parameters of the first
      match castRows (← rowOf p2) (← rowOf k2) (← rowOf p1) (← rowOf k1) with
      | .ok (cs, _) => all (cast env info n) ((fx1, fx2) :: (t1, t2) :: cs)
      | .error _ => some false
  | n + 1, .tTuple p1 k1, .tTuple p2 k2 => do
      match castRows (← rowOf p1) (← rowOf k1) (← rowOf p2) (← rowOf k2) with
      | .ok (cs, _) => all (cast env info n) cs
      | .error _ => some false
  | n + 1, .tOpt (.tOpt t1), t2 => cast env info n (.tOpt t1) t2
  | n + 1, t1, .tOpt (.tOpt t2) => cast env info n t1 (.tOpt t2)
  | n + 1, .tOpt t1, .tOpt t2 => cast env info n t1 t2
  | _ + 1, .tUni _, _ => none
  | _ + 1, _, .tUni _ => none
  | _ + 1, .tNone, .tOpt _ => some true
  | _ + 1, .tNone, .tNone => some true
  | _ + 1, .tFX fx1, .tFX fx2 => some (fx1.castable fx2)
  | n + 1, .tVar v, t2 =>
      if t2 = .tVar v ∨ t2 = .tOpt (.tVar v) then some true
      else
        match env.findTVBound v with
        | some c => cast env info n (.tCon c.tcname c.tcargs) t2
        | none => none
  | n + 1, t1, .tOpt t2 => if t1 = t2 then some true else cast env info n t1 t2
  | _ + 1, _, _ => some false

/-! ### The shape of values -/

namespace Row

/-- The number of components. A starred rest is one, as the source's `nargs` has it. -/
def width : Row → ℕ
  | nil => 0
  | row _ _ r => r.width + 1
  | star _ => 1

/-- The names of the components in order, with `attrKW` for a starred rest. -/
def fields : Row → List Name
  | nil => []
  | row n _ r => n :: r.fields
  | star _ => [attrKW]

def StarFree : Row → Prop
  | nil => True
  | row _ _ r => r.StarFree
  | star _ => False

/-- A starred rest of one row stands beside a starred rest of the other. -/
def StarsMatch : Row → Row → Prop
  | row _ _ r1, row _ _ r2 => r1.StarsMatch r2
  | star _, star _ => True
  | r1, r2 => r1.StarFree ∧ r2.StarFree

lemma length_fields (r : Row) : r.fields.length = r.width := by
  induction r with
  | nil => rfl
  | row n t r ih => simp [fields, width, ih]
  | star r => rfl

end Row

/-- Tuples with these rows have the same number of positional and of keyword components. -/
def SameTuple (p1 k1 p2 k2 : Row) : Prop := p1.width = p2.width ∧ k1.width = k2.width

/-- A list of arguments with the rows `p1` and `k1` has as many entries as a function with the rows
`p2` and `k2` has parameters, with the keywords at the places of the parameters of these names. -/
def SameParams (p1 k1 p2 k2 : Row) : Prop :=
  p1.width + k1.width = p2.width + k2.width ∧ k1.fields <:+ k2.fields

section Shape
variable {p1 k1 p2 k2 r1 r2 : Row} {ts : List Ty} {cs : List (Ty × Ty)}

/-- Keyword rows that are accepted have the same labels in the same order. -/
theorem fields_eq_of_castkwd (h : castkwd r1 r2 = .ok cs) : r1.fields = r2.fields := by
  fun_induction castkwd r1 r2 generalizing cs with
  | case1 t1 r1 n2 t2 r2 ih =>
    obtain ⟨cs', hrec, -⟩ := bind_eq_ok_iff.mp h
    rw [fields, fields, ih hrec]
  | case6 r r2 ih => rfl
  | case8 => rfl
  | _ => cases h

/-- The keyword components for what was left over come before the others. -/
theorem fields_of_castkwd0 (h : castkwd0 ts r1 r2 = .ok cs) :
    ∃ ns, r2.fields = ns ++ r1.fields ∧ ns.length = ts.length := by
  induction ts generalizing r2 cs with
  | nil => exact ⟨[], (fields_eq_of_castkwd h).symm, rfl⟩
  | cons t1 ts ih =>
    cases r2 with
    | nil => cases h
    | star r2 => cases h
    | row n t2 r2 =>
      obtain ⟨cs', hrec, -⟩ := bind_eq_ok_iff.mp h
      obtain ⟨ns, hns, hlen⟩ := ih hrec
      exact ⟨n :: ns, by rw [fields, hns, cons_append], by simp [hlen]⟩

/-- Without starred rests that are opened, what is left over are the components that the other row
does not have. -/
theorem length_of_castpos {res : List (Ty × Ty) × List Ty} (hstars : r1.StarsMatch r2)
    (h : castpos r1 r2 = .ok res) : res.2.length = r1.width - r2.width := by
  fun_induction castpos r1 r2 generalizing res with
  | case1 n1 t1 r1 n2 t2 r2 ih =>
    obtain ⟨⟨cs, ts⟩, hrec, hres⟩ := bind_eq_ok_iff.mp h
    cases hres
    have := ih hstars hrec
    simp only [width] at this ⊢
    omega
  | case2 =>
    cases h
    rfl
  | case3 =>
    cases h
    rfl
  | case4 r1 r2 hne =>
    cases r2 with
    | star r2 => exact absurd rfl (hne r2)
    | nil | row _ _ _ => exact hstars.1.elim
  | case5 r1 r2 hne =>
    cases r1 with
    | star r1 => exact absurd rfl (hne r1)
    | nil | row _ _ _ => exact hstars.2.elim
  | case6 n2 t2 r2 hopt ih =>
    have hfree : r2.StarFree := hstars.2
    have := ih (by cases r2 <;> exact ⟨trivial, hfree⟩) h
    simp only [width] at this ⊢
    omega
  | case7 => cases h
  | case8 n1 t1 r1 ih =>
    obtain ⟨⟨cs, ts⟩, hrec, hres⟩ := bind_eq_ok_iff.mp h
    cases hres
    have hfree : r1.StarFree := hstars.1
    have := ih (by cases r1 <;> exact ⟨hfree, trivial⟩) hrec
    simp only [width, length_cons] at this ⊢
    omega

end Shape

end Acton.Solver
