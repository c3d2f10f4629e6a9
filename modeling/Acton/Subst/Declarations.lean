import Acton.Subst
import Acton.ToMathlib.Binding

/-!
# Type variables in declarations

`vfree` and `vsubst` on schemas, declarations, statements and expressions. Most equations of the two
functions apply them to all parts of a constructor, so the syntax is a tree here: a `node` stands
for a constructor and its parts, a `leaf` for a type, and a `binder` for a schema or a declaration
with the type variables that it quantifies. Names, operators and literals are left out.

The constructors that are treated otherwise are
* the default values of parameters (`dflt`), `Data`, `Box` and `UnBox`, which `vsubst` copies,
* `TSchema`, `Def` and `Actor`, whose type variables are renamed by `quantsubst`,
* `Class`, `Protocol` and `Extension`, where the substitution is used as it is.

There is no equation for the pattern `PData`, which the parser does not make.
-/

namespace Acton

/-- The constructors of statements, expressions, patterns and declarations. -/
inductive Con
  -- `Stmt`
  | expr | assign | mutAssign | augAssign | assert | pass | delete | return_ | raise | break_
  | continue_ | if_ | while_ | for_ | try_ | with_ | data | varAssign | after | signature | decl
  -- `Expr`
  | var | int | float | imaginary | bool | none | notImplemented | ellipsis | strings | bStrings
  | call | tApp | async | await | index | slice | cond | isInstance | binOp | compOp | unOp | dot
  | rest | dotI | restI | lambda | yield | yieldFrom | tuple | list | listComp | dict | dictComp
  | set | setComp | paren | box | unBox
  -- parts of statements and expressions
  | branch | handler | withItem | posArg | posStar | posNil | kwdArg | kwdStar | kwdNil | elem
  | star | assoc | starStar | compFor | compIf | noComp | sliz | opArg
  -- patterns
  | pWild | pVar | pParen | pTuple | pList | posPat | posPatStar | posPatNil | kwdPat | kwdPatStar
  | kwdPatNil
  -- parameters and quantified variables
  | posPar | posSTAR | posNIL | kwdPar | kwdSTAR | kwdNIL | dflt | quant
  -- schemas and declarations
  | tSchema | def_ | actor | class_ | protocol | extension_
  deriving DecidableEq, Repr

/-- The constructors that `vfree` and `vsubst` do not look into. -/
def Con.copied (k : Con) : Bool := k ∈ [dflt, data, box, unBox]

/-- The constructors whose type variables are renamed. -/
def Con.renamed (k : Con) : Bool := k ∈ [tSchema, def_, actor]

/-- Types as terms over type variables. -/
def VTy : Type := Ty

instance : TermAlgebra TVar VTy where
  var := Ty.tVar
  bind := Ty.vbind
  vars := vfree
  bind_var _ _ := rfl
  bind_pure := Ty.vbind_tVar
  bind_bind := Ty.vbind_vbind
  bind_congr _ _ _ h := Ty.vbind_eq_vbind_iff.mpr h
  mem_vars_var v w := by simp [vfree]
  mem_vars_bind := Ty.mem_vfree_vbind

instance : Binding.Rigid TVar VTy where
  bind_inj _ _ _ h := Ty.vbind_eq_vbind_iff.mp h

abbrev Syn : Type := Binding.Tree Con TVar VTy

namespace Syn
open Binding

/-! ### The shape of schemas and declarations -/

abbrev QBinds : Type := List (TVar × List TCon)
def qbound (q : QBinds) : List TVar := q.map Prod.fst
def ofTCon (c : TCon) : Syn := .leaf (Ty.tCon c.tcname c.tcargs)
def ofQBind (b : TVar × List TCon) : Syn := .node .quant (b.2.map ofTCon)
def tSchema (q : QBinds) (t : Ty) : Syn := .binder .tSchema (qbound q) (q.map ofQBind ++ [.leaf t])

def def_ (q : QBinds) (p k : Syn) (a : Option Ty) (ss : List Syn) (fx : Ty) : Syn :=
  .binder .def_ (qbound q) (q.map ofQBind ++ p :: k :: a.toList.map .leaf ++ ss ++ [.leaf fx])

def actor (q : QBinds) (p k : Syn) (ss : List Syn) : Syn :=
  .binder .actor (qbound q) (q.map ofQBind ++ p :: k :: ss)

def class_ (q : QBinds) (bs : List TCon) (ss : List Syn) : Syn :=
  .binder .class_ (qbound q) (q.map ofQBind ++ bs.map ofTCon ++ ss)

def protocol (q : QBinds) (bs : List TCon) (ss : List Syn) : Syn :=
  .binder .protocol (qbound q) (q.map ofQBind ++ bs.map ofTCon ++ ss)

def extension_ (q : QBinds) (c : TCon) (bs : List TCon) (ss : List Syn) : Syn :=
  .binder .extension_ (qbound q) (q.map ofQBind ++ ofTCon c :: bs.map ofTCon ++ ss)

/-- A parameter with its type and its default value, and the parameters after it. -/
def posPar (t : Option Ty) (e : Option Syn) (p : Syn) : Syn :=
  .node .posPar (t.toList.map .leaf ++ [.node .dflt e.toList, p])

/-! ### Free variables -/

mutual
/-- The source's `vfree`; bound variables are left in for declarations. -/
def vfree : Syn → List TVar
  | .leaf t => Acton.vfree t
  | .node k ts => if k.copied then [] else vfreeList ts
  | .binder k bs ts => if k = .tSchema then (vfreeList ts).filter (· ∉ bs) else vfreeList ts

def vfreeList : List Syn → List TVar
  | [] => []
  | t :: ts => vfree t ++ vfreeList ts
end
end Syn

/-! ### Substitution -/

/-- `xs \\ ys` -/
def without (xs ys : List TVar) : List TVar := xs.filter (· ∉ ys)

/-- The type variables `A`, …, `W`, `A1`, …, `W1`, `A2`, …; this is the one at place `i`. -/
def tvarSupply (i : ℕ) : TVar :=
  let tl := if i / 23 = 0 then "" else toString (i / 23)
  ⟨.name (String.ofList ("ABCDEFGHIJKLMNOPQRSTUVW".toList.getD (i % 23) 'A' :: tl.toList))⟩

/-- The first `n` variables of `tvarSupply \\ avoid`. Among any `avoid.length + n` different
variables there are `n` that are not in `avoid`. -/
def freshTVars (avoid : List TVar) (n : ℕ) : List TVar :=
  (without ((List.range (avoid.length + n)).map tvarSupply) avoid).take n

/-- `vsubst` on a type variable. -/
def TVar.vsubst (s : Substitution) (v : TVar) : TVar :=
  match s.lookup v with
  | some (.tVar v') => v'
  | _ => v

section Quantsubst
variable (s : Substitution) (bs vs : List TVar)

/-- ``s `exclude` qbound q`` -/
def pruned : Substitution := s.filter fun p => p.1 ∉ bs

/-- The free variables of the substituted types. -/
def new : List TVar := ((pruned s bs).flatMap fun p => vfree p.2).eraseDups
def clash : List TVar := (new s bs).filter (· ∈ bs)

/-- The variables that the ones in `clash` are renamed to. -/
def fresh : List TVar := freshTVars (new s bs ++ vs) (clash s bs).length

/-- The substitution for the scope of the type variables `bs`; `vs` has the free variables of their
bounds too. -/
def quantsubst : Substitution :=
  if bs = [] then s else ((clash s bs).zip ((fresh s bs vs).map Ty.tVar)) ++ pruned s bs

end Quantsubst
namespace Syn

/-- The substitution for the parts of a binder. -/
def scope (k : Con) (s : Substitution) (bs : List TVar) (ts : List Syn) : Substitution :=
  if k.renamed then quantsubst s bs (vfreeList ts) else s

mutual
def vsubst : Syn → Substitution → Syn
  | .leaf t, s => .leaf (Ty.vsubst s t)
  | .node k ts, s => if k.copied then .node k ts else .node k (vsubstList ts s)
  | .binder k bs ts, s =>
      .binder k (bs.map (TVar.vsubst (scope k s bs ts))) (vsubstList ts (scope k s bs ts))

def vsubstList : List Syn → Substitution → List Syn
  | [], _ => []
  | t :: ts, s => vsubst t s :: vsubstList ts s
end

@[simp]
lemma vsubstList_eq_map (ts : List Syn) (s : Substitution) :
    vsubstList ts s = ts.map fun t => vsubst t s := by
  induction ts with
  | nil => simp [vsubstList]
  | cons t ts ih => simp [vsubstList, ih]

end Syn
end Acton
