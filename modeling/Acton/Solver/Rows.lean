import Acton.Solver.Constraints

/-!
# Closed rows and argument lists

The rows of positional and of keyword components that the solver aligns when it relates two tuple or
function types. `Row` are the closed ones: a row ends in `nil`, or in a `star` that holds the rest
as a tuple, and no unification variable stands for a part of it. The types of the components are
arbitrary.

Aligning two rows can fail, and it makes fresh witness names; `AlignM` has both.
-/

namespace Acton.Solver

/-- The source's `TNil`, `TRow` and `TStar`. -/
inductive Row
  | nil
  | row (label : Name) (rtype : Ty) (rtail : Row)
  | star (rtail : Row)

namespace Row

/-- The row as a type, of kind `k`. -/
def toTy (k : Kind) : Row → Ty
  | nil => .tNil k
  | row n t r => .tRow k n t (toTy k r)
  | star r => .tStar k (toTy k r)

end Row

def tTupleP (p : Row) : Ty := .tTuple (p.toTy .pRow) (.tNil .kRow)

def isOpt : Ty → Bool
  | .tOpt _ => true
  | _ => false

mutual
/-- The expressions that a conversion is made of. -/
inductive Expr
  | var (n : Name)
  | dotI (e : Expr) (i : ℕ)
  | dot (e : Expr) (n : Name)
  | callVar (w : Name) (e : Expr)
  | none
  | tuple (pos : PosArg) (kwd : KwdArg)

inductive PosArg
  | posArg (e : Expr) (as : PosArg)
  | posStar (e : Expr)
  | posNil

inductive KwdArg
  | kwdArg (n : Name) (e : Expr) (as : KwdArg)
  | kwdStar (e : Expr)
  | kwdNil
end

def eTupleP (as : PosArg) : Expr := .tuple as .kwdNil
def eTupleK (as : KwdArg) : Expr := .tuple .posNil as

/-- The name of the component that holds the starred rest of a keyword row. -/
def attrKW : Name := .internal .globvar "kw" 0

inductive RowError
  /-- The flag tells a missing component from one too many. -/
  | posElemNotFound (b : Bool)
  | kwdNotFound (n : Name)
  | kwdUnexpected (n : Name)
  | noRed
  deriving DecidableEq, Repr

abbrev AlignM : Type → Type := StateT ℤ (Except RowError)

namespace AlignM
variable {α β : Type} {n n' : ℤ}

def newWitness : AlignM Name := fun n => .ok (.internal .witness "" n, n + 1)
def fail (e : RowError) : AlignM α := fun _ => .error e

/-- `m` succeeds with the answer `a`. -/
def Gives (m : AlignM α) (a : α) : Prop := ∃ n n', m n = .ok (a, n')

lemma bind_eq_ok {m : AlignM α} {k : α → AlignM β} {b : β} :
    (m >>= k) n = .ok (b, n') ↔ ∃ a n1, m n = .ok (a, n1) ∧ k a n1 = .ok (b, n') := by
  show (m n >>= fun p => k p.1 p.2) = .ok (b, n') ↔ _
  cases h : m n with
  | error e => simp [bind, Except.bind]
  | ok p =>
    obtain ⟨a, n1⟩ := p
    simp [bind, Except.bind]

lemma pure_eq_ok {a b : α} : (pure a : AlignM α) n = .ok (b, n') ↔ a = b ∧ n = n' := by
  show Except.ok (a, n) = .ok (b, n') ↔ _
  simp

@[simp]
lemma fail_ne_ok {e : RowError} {b : α} : (fail e : AlignM α) n ≠ .ok (b, n') := by
  simp [fail]

namespace Gives

lemma pure_iff {a b : α} : Gives (pure a) b ↔ a = b := by
  simp [Gives, pure_eq_ok]

lemma of_bind {m : AlignM α} {k : α → AlignM β} {b : β} (h : Gives (m >>= k) b) :
    ∃ a, Gives m a ∧ Gives (k a) b := by
  obtain ⟨n, n', h⟩ := h
  obtain ⟨a, n1, hm, hk⟩ := bind_eq_ok.mp h
  exact ⟨a, ⟨n, n1, hm⟩, n1, n', hk⟩

lemma not_fail {e : RowError} {b : α} : ¬ Gives (fail e) b := by
  simp [Gives]

end Gives
end AlignM
end Acton.Solver
