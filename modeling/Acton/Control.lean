import Mathlib.Tactic

/-!
# Statements and their execution

The statements of Acton, as far as control flow is concerned. What single expressions, assignments,
iterators, except clauses and context managers do is left open (`Prims`), so that what is proved
here holds whatever they do. Statements without suites in them that only fall through or raise an
exception are all `simple`.

Executions are given by a big-step relation (`Exec`). It follows the code that the normalizer
writes for a statement. A break leaves the innermost loop and skips its else part. The else part of
a `while` loop is put inside the loop, so that a break there leaves the same loop, and a continue
tests its condition again. A `for` loop is put into a `try` statement, whose handler for
`StopIteration` is the else part: it belongs to the suite around the loop, and it is also executed
if the body raises this exception. The else part of a `try` is not guarded by its handlers; a
`finally` suite overrides the outcome of the rest if it does not fall through. A context manager can
swallow an exception. `NotImplemented` as a statement does nothing: the code generator writes a
comment for it.
-/

namespace Acton.Control

/-! ### Syntax -/

section Syntax
variable (E A P C W : Type)

mutual
inductive Stmt
  | simple (a : A)
  | notImpl
  /-- A call of the primitive that raises an exception. -/
  | primRaise (e : E)
  | raise (e : E)
  | return_ (e : Option E)
  | break_
  | continue_
  | if_ (bs : List Branch) (els : List Stmt)
  | while_ (e : E) (b els : List Stmt)
  | for_ (p : P) (e : E) (b els : List Stmt)
  | try_ (b : List Stmt) (hs : List Handler) (els fin : List Stmt)
  | with_ (is : List W) (b : List Stmt)

inductive Branch
  | mk (e : E) (b : List Stmt)

inductive Handler
  | mk (c : C) (b : List Stmt)
end

abbrev Suite := List (Stmt E A P C W)

end Syntax

/-! ### Semantics -/

/-- What expressions, simple statements and so on can do to the state. -/
structure Prims (σ X V E A P C W : Type) where
  eval : E → σ → Except X V → σ → Prop
  truth : V → Bool
  none : V
  act : A → σ → Except X Unit → σ → Prop
  toExn : V → X
  /-- The next value of an iterator, or an exception. -/
  next : V → σ → Except X V → σ → Prop
  isStop : X → Bool
  bind : P → V → σ → Except X Unit → σ → Prop
  catches : C → X → Bool
  bindExn : C → X → σ → σ
  enter : W → σ → Except X V → σ → Prop
  /-- Leaving a context, possibly with an exception. The result says whether it is swallowed. -/
  exit : W → V → Option X → σ → Except X Bool → σ → Prop

inductive Outcome (V X : Type)
  | seq
  | brk
  | cnt
  | ret (v : V)
  | exn (x : X)
  deriving DecidableEq

namespace Outcome
variable {V X : Type}

/-- The body of a loop ended in such a way that the loop goes on. -/
def Latch (o : Outcome V X) : Prop := o = seq ∨ o = cnt

/-- The outcome of a loop that is left. -/
def leave : Outcome V X → Outcome V X
  | brk => seq
  | o => o

/-- The outcome of a `try` statement from that of its `finally` suite and that of the rest. -/
def after (o : Outcome V X) : Outcome V X → Outcome V X
  | seq => o
  | o' => o'

def isExn : Outcome V X → Bool
  | exn _ => true
  | _ => false

end Outcome
section Semantics
variable {σ X V E A P C W : Type}

/-- The pieces of a program that are executed. -/
inductive Code (X V E A P C W : Type)
  | stmt (s : Stmt E A P C W)
  | suite (ss : Suite E A P C W)
  | branches (bs : List (Branch E A P C W)) (els : Suite E A P C W)
  /-- A for loop with its iterator. -/
  | loop (p : P) (i : V) (b els : Suite E A P C W)
  /-- A `try` statement without its `finally` suite. -/
  | guarded (b : Suite E A P C W) (hs : List (Handler E A P C W)) (els : Suite E A P C W)
  /-- The handlers for an exception. -/
  | handlers (hs : List (Handler E A P C W)) (x : X)

inductive Exec (R : Prims σ X V E A P C W) :
    Code X V E A P C W → σ → Outcome V X → σ → Prop
  | nil {s} : Exec R (.suite []) s .seq s
  | cons {c ss s s' s'' o} : Exec R (.stmt c) s .seq s' → Exec R (.suite ss) s' o s'' →
      Exec R (.suite (c :: ss)) s o s''
  | stop {c ss s s' o} : Exec R (.stmt c) s o s' → o ≠ .seq → Exec R (.suite (c :: ss)) s o s'
  | simple {a s s'} : R.act a s (.ok ()) s' → Exec R (.stmt (.simple a)) s .seq s'
  | simple_exn {a s x s'} : R.act a s (.error x) s' → Exec R (.stmt (.simple a)) s (.exn x) s'
  | notImpl {s} : Exec R (.stmt .notImpl) s .seq s
  | primRaise {e s v s'} : R.eval e s (.ok v) s' →
      Exec R (.stmt (.primRaise e)) s (.exn (R.toExn v)) s'
  | primRaise_exn {e s x s'} : R.eval e s (.error x) s' →
      Exec R (.stmt (.primRaise e)) s (.exn x) s'
  | raise {e s v s'} : R.eval e s (.ok v) s' → Exec R (.stmt (.raise e)) s (.exn (R.toExn v)) s'
  | raise_exn {e s x s'} : R.eval e s (.error x) s' → Exec R (.stmt (.raise e)) s (.exn x) s'
  | return_none {s} : Exec R (.stmt (.return_ .none)) s (.ret R.none) s
  | return_some {e s v s'} : R.eval e s (.ok v) s' →
      Exec R (.stmt (.return_ (some e))) s (.ret v) s'
  | return_exn {e s x s'} : R.eval e s (.error x) s' →
      Exec R (.stmt (.return_ (some e))) s (.exn x) s'
  | break_ {s} : Exec R (.stmt .break_) s .brk s
  | continue_ {s} : Exec R (.stmt .continue_) s .cnt s
  | if_ {bs els s o s'} : Exec R (.branches bs els) s o s' → Exec R (.stmt (.if_ bs els)) s o s'
  | branches_nil {els s o s'} : Exec R (.suite els) s o s' → Exec R (.branches [] els) s o s'
  | branches_exn {e b bs els s x s'} : R.eval e s (.error x) s' →
      Exec R (.branches (.mk e b :: bs) els) s (.exn x) s'
  | branches_true {e b bs els s v s' o s''} : R.eval e s (.ok v) s' → R.truth v = true →
      Exec R (.suite b) s' o s'' → Exec R (.branches (.mk e b :: bs) els) s o s''
  | branches_false {e b bs els s v s' o s''} : R.eval e s (.ok v) s' → R.truth v = false →
      Exec R (.branches bs els) s' o s'' → Exec R (.branches (.mk e b :: bs) els) s o s''
  | while_exn {e b els s x s'} : R.eval e s (.error x) s' →
      Exec R (.stmt (.while_ e b els)) s (.exn x) s'
  | while_else {e b els s v s' o s''} : R.eval e s (.ok v) s' → R.truth v = false →
      Exec R (.suite els) s' o s'' → o ≠ .cnt → Exec R (.stmt (.while_ e b els)) s o.leave s''
  | while_again {e b els s v s' s'' o s'''} : R.eval e s (.ok v) s' → R.truth v = false →
      Exec R (.suite els) s' .cnt s'' → Exec R (.stmt (.while_ e b els)) s'' o s''' →
      Exec R (.stmt (.while_ e b els)) s o s'''
  | while_next {e b els s v s' o' s'' o s'''} : R.eval e s (.ok v) s' → R.truth v = true →
      Exec R (.suite b) s' o' s'' → o'.Latch → Exec R (.stmt (.while_ e b els)) s'' o s''' →
      Exec R (.stmt (.while_ e b els)) s o s'''
  | while_leave {e b els s v s' o s''} : R.eval e s (.ok v) s' → R.truth v = true →
      Exec R (.suite b) s' o s'' → ¬o.Latch → Exec R (.stmt (.while_ e b els)) s o.leave s''
  | for_exn {p e b els s x s'} : R.eval e s (.error x) s' →
      Exec R (.stmt (.for_ p e b els)) s (.exn x) s'
  | for_ {p e b els s v s' o s''} : R.eval e s (.ok v) s' → Exec R (.loop p v b els) s' o s'' →
      Exec R (.stmt (.for_ p e b els)) s o s''
  | loop_stop {p i b els s x s' o s''} : R.next i s (.error x) s' → R.isStop x = true →
      Exec R (.suite els) s' o s'' → Exec R (.loop p i b els) s o s''
  | loop_exn {p i b els s x s'} : R.next i s (.error x) s' → R.isStop x = false →
      Exec R (.loop p i b els) s (.exn x) s'
  | loop_bind {p i b els s v s' x s''} : R.next i s (.ok v) s' → R.bind p v s' (.error x) s'' →
      R.isStop x = false → Exec R (.loop p i b els) s (.exn x) s''
  | loop_bind_stop {p i b els s v s' x s'' o s'''} : R.next i s (.ok v) s' →
      R.bind p v s' (.error x) s'' → R.isStop x = true → Exec R (.suite els) s'' o s''' →
      Exec R (.loop p i b els) s o s'''
  | loop_next {p i b els s v s' s₁ o' s'' o s'''} : R.next i s (.ok v) s' →
      R.bind p v s' (.ok ()) s₁ → Exec R (.suite b) s₁ o' s'' → o'.Latch →
      Exec R (.loop p i b els) s'' o s''' → Exec R (.loop p i b els) s o s'''
  | loop_leave {p i b els s v s' s₁ o s''} : R.next i s (.ok v) s' → R.bind p v s' (.ok ()) s₁ →
      Exec R (.suite b) s₁ o s'' → ¬o.Latch → (∀ x, o = .exn x → R.isStop x = false) →
      Exec R (.loop p i b els) s o.leave s''
  | loop_body_stop {p i b els s v s' s₁ x s'' o s'''} : R.next i s (.ok v) s' →
      R.bind p v s' (.ok ()) s₁ → Exec R (.suite b) s₁ (.exn x) s'' → R.isStop x = true →
      Exec R (.suite els) s'' o s''' → Exec R (.loop p i b els) s o s'''
  | try_ {b hs els fin s o s' o' s''} : Exec R (.guarded b hs els) s o s' →
      Exec R (.suite fin) s' o' s'' → Exec R (.stmt (.try_ b hs els fin)) s (o.after o') s''
  | guarded_else {b hs els s s' o s''} : Exec R (.suite b) s .seq s' →
      Exec R (.suite els) s' o s'' → Exec R (.guarded b hs els) s o s''
  | guarded_exn {b hs els s x s' o s''} : Exec R (.suite b) s (.exn x) s' →
      Exec R (.handlers hs x) s' o s'' → Exec R (.guarded b hs els) s o s''
  | guarded_stop {b hs els s o s'} : Exec R (.suite b) s o s' → o ≠ .seq → o.isExn = false →
      Exec R (.guarded b hs els) s o s'
  | handlers_nil {x s} : Exec R (.handlers [] x) s (.exn x) s
  | handlers_hit {c b hs x s o s'} : R.catches c x = true →
      Exec R (.suite b) (R.bindExn c x s) o s' → Exec R (.handlers (.mk c b :: hs) x) s o s'
  | handlers_miss {c b hs x s o s'} : R.catches c x = false → Exec R (.handlers hs x) s o s' →
      Exec R (.handlers (.mk c b :: hs) x) s o s'
  | with_nil {b s o s'} : Exec R (.suite b) s o s' → Exec R (.stmt (.with_ [] b)) s o s'
  | with_enter {i is b s x s'} : R.enter i s (.error x) s' →
      Exec R (.stmt (.with_ (i :: is) b)) s (.exn x) s'
  | with_exit {i is b s m s' o s'' r s'''} : R.enter i s (.ok m) s' →
      Exec R (.stmt (.with_ is b)) s' o s'' → o.isExn = false → R.exit i m .none s'' (.ok r) s''' →
      Exec R (.stmt (.with_ (i :: is) b)) s o s'''
  | with_exit_exn {i is b s m s' o s'' x s'''} : R.enter i s (.ok m) s' →
      Exec R (.stmt (.with_ is b)) s' o s'' → o.isExn = false →
      R.exit i m .none s'' (.error x) s''' →
      Exec R (.stmt (.with_ (i :: is) b)) s (.exn x) s'''
  | with_pass {i is b s m s' x s'' s'''} : R.enter i s (.ok m) s' →
      Exec R (.stmt (.with_ is b)) s' (.exn x) s'' → R.exit i m (some x) s'' (.ok false) s''' →
      Exec R (.stmt (.with_ (i :: is) b)) s (.exn x) s'''
  | with_swallow {i is b s m s' x s'' s'''} : R.enter i s (.ok m) s' →
      Exec R (.stmt (.with_ is b)) s' (.exn x) s'' → R.exit i m (some x) s'' (.ok true) s''' →
      Exec R (.stmt (.with_ (i :: is) b)) s .seq s'''
  | with_replace {i is b s m s' x s'' y s'''} : R.enter i s (.ok m) s' →
      Exec R (.stmt (.with_ is b)) s' (.exn x) s'' → R.exit i m (some x) s'' (.error y) s''' →
      Exec R (.stmt (.with_ (i :: is) b)) s (.exn y) s'''

end Semantics
end Acton.Control
