import Mathlib.Tactic

/-!
# Hashable witnesses

The witness of the protocol `Hashable` that the operations on dicts and sets get: an equality and a
64-bit hash of the keys. The equality is an equivalence, and equal keys have equal hashes; different
keys may have the same hash, and any hash may occur.
-/

namespace Acton.Builtin

structure Hashable (K : Type) where
  eq : K → K → Bool
  hash : K → UInt64
  eq_refl : ∀ a, eq a a
  eq_symm : ∀ {a b}, eq a b → eq b a
  eq_trans : ∀ {a b c}, eq a b → eq b c → eq a c
  hash_eq : ∀ {a b}, eq a b → hash a = hash b

namespace Hashable

lemma eq_of_eq {K : Type} (hw : Hashable K) {a b c : K} (ha : hw.eq c a) (hb : hw.eq c b) :
    hw.eq a b :=
  hw.eq_trans (hw.eq_symm ha) hb

/-- The witness of a type whose equality is the equality of objects. -/
def ofDecidableEq (K : Type) [DecidableEq K] (hash : K → UInt64) : Hashable K where
  eq a b := a = b
  hash := hash
  eq_refl a := decide_eq_true rfl
  eq_symm h := by simpa using (of_decide_eq_true h).symm
  eq_trans h h' := by simpa using (of_decide_eq_true h).trans (of_decide_eq_true h')
  hash_eq h := congrArg hash (of_decide_eq_true h)

end Hashable

/-- The conversion of a `long` to an `int`. -/
def toInt (n : ℤ) : ℤ := n.bmod (2 ^ 32)

lemma toInt_of_lt {n : ℤ} (h0 : 0 ≤ n) (h : n < 2 ^ 31) : toInt n = n := by
  rw [toInt, Int.bmod_def]
  omega

end Acton.Builtin
