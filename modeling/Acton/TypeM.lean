import Acton.Syntax
import Acton.ToMathlib.Fuel
import Mathlib.Data.Finmap

/-!
# The type inference monad

`TypeM` is the source's `ExceptT TypeError (State TypeState)`, over `Option` so that a
computation can also run out of fuel. As in the source, an error leaves the state changes made
before it in place. Of `TypeState` only the unification substitution `unisubst` is modelled, and
of `TypeError` only the errors that unification raises; `ι` stands for the source's `ErrInfo`,
which unification passes through untouched.
-/

namespace Acton

/-- The unification substitution, a finite map from unification variables to types. -/
abbrev UniSubst := Finmap fun _ : TUni => Ty

/-- The state of type inference. -/
structure TypeState where
  unisubst : UniSubst

/-- The errors raised by unification. -/
inductive TypeError (ι : Type)
  | infiniteType (uv : TUni) (t : Ty)
  | noUnify (info : ι) (t₁ t₂ : Ty)
  deriving DecidableEq, Repr

/-- The type inference monad; `none` is "out of fuel". -/
abbrev TypeM (ι : Type) := ExceptT (TypeError ι) (StateT TypeState Option)

namespace TypeM
variable {ι α β : Type}

/-- The computation that has used up its fuel. -/
def outOfFuel : TypeM ι α := ExceptT.mk fun _ => none

/-- Record that `uv` stands for `t`. -/
def usubstitute (uv : TUni) (t : Ty) : TypeM ι Unit :=
  ExceptT.mk fun st => some (.ok (), { st with unisubst := st.unisubst.insert uv t })

/-- The current substitution. -/
def usubstitution : TypeM ι UniSubst := ExceptT.mk fun st => some (.ok st.unisubst, st)

/-- The whole state, to come back to. -/
def currentState : TypeM ι TypeState := ExceptT.mk fun st => some (.ok st, st)
def rollbackState (st : TypeState) : TypeM ι Unit := ExceptT.mk fun _ => some (.ok (), st)
def infiniteType (uv : TUni) (t : Ty) : TypeM ι α := throw (.infiniteType uv t)
def noUnify (info : ι) (t₁ t₂ : Ty) : TypeM ι α := throw (.noUnify info t₁ t₂)

/-- Run a computation from the substitution `s`: the answer or the error, and the substitution
that it leaves. -/
def runWith (m : TypeM ι α) (s : UniSubst) : Option (Except (TypeError ι) α × UniSubst) :=
  (m ⟨s⟩).map fun r => (r.1, r.2.unisubst)

section Run
variable (s : UniSubst)

@[simp]
lemma runWith_pure (a : α) : (pure a : TypeM ι α).runWith s = some (.ok a, s) := rfl

@[simp]
lemma runWith_usubstitute (uv : TUni) (t : Ty) :
    (usubstitute uv t : TypeM ι Unit).runWith s = some (.ok (), s.insert uv t) := rfl

@[simp]
lemma runWith_usubstitution : (usubstitution : TypeM ι UniSubst).runWith s = some (.ok s, s) := rfl

/-- What follows an outcome: an answer goes to the next computation, an error skips it. -/
def andThen (k : α → TypeM ι β) :
    Except (TypeError ι) α × UniSubst → Option (Except (TypeError ι) β × UniSubst)
  | (.ok a, s') => (k a).runWith s'
  | (.error e, s') => some (.error e, s')

/-- Sequencing stops at the first error and keeps the substitution reached there. -/
theorem runWith_bind (m : TypeM ι α) (k : α → TypeM ι β) :
    (m >>= k).runWith s = (m.runWith s).bind (andThen k) := by
  simp only [runWith, bind, ExceptT.bind, ExceptT.mk, StateT.bind]
  cases m ⟨s⟩ with
  | none => rfl
  | some r =>
    obtain ⟨a | a, s'⟩ := r <;> rfl

end Run

/-- With enough fuel, `m` run from `s` gives the answer or error `r` and leaves `s'`. -/
def Runs (m : ℕ → TypeM ι α) (s : UniSubst) (r : Except (TypeError ι) α) (s' : UniSubst) : Prop :=
  Fuel.Converges (fun n => (m n).runWith s) (r, s')

namespace Runs
variable {m m' : ℕ → TypeM ι α} {k : ℕ → α → TypeM ι β} {s s1 s2 : UniSubst}

lemma pure (a : α) : Runs (fun _ => (Pure.pure a : TypeM ι α)) s (.ok a) s := Fuel.Converges.const _

lemma currentState : Runs (fun _ => (TypeM.currentState : TypeM ι TypeState)) s (.ok ⟨s⟩) s :=
  Fuel.Converges.const _

lemma rollbackState (s' : UniSubst) :
    Runs (fun _ => (TypeM.rollbackState ⟨s'⟩ : TypeM ι Unit)) s (.ok ()) s' :=
  Fuel.Converges.const _

lemma bind_ok {a : α} {r : Except (TypeError ι) β} (hm : Runs m s (.ok a) s1)
    (hk : Runs (fun n => k n a) s1 r s2) : Runs (fun n => m n >>= k n) s r s2 := by
  exact (Fuel.Converges.bind (k := fun r n => andThen (k n) r) hm hk).congr
    fun n => runWith_bind s (m n) (k n)

lemma bind_error {e : TypeError ι} (hm : Runs m s (.error e) s1) :
    Runs (fun n => m n >>= k n) s (.error e) s1 := by
  exact (Fuel.Converges.bind (k := fun r n => andThen (k n) r) hm (Fuel.Converges.const _)).congr
    fun n => runWith_bind s (m n) (k n)

/-- One unfolding of a recursive definition costs one unit of fuel. -/
theorem of_succ {r : Except (TypeError ι) α} (h : Runs m s r s1)
    (hm : ∀ n, m' (n + 1) = m n) : Runs m' s r s1 :=
  Fuel.Converges.of_succ h fun n => by rw [hm]

end Runs
end TypeM
end Acton
