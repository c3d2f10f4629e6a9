/-!
# Inversion of `Except` computations
-/

namespace Except
variable {ε α β : Type _}

theorem bind_eq_ok_iff {x : Except ε α} {f : α → Except ε β} {b : β} :
    (x >>= f) = .ok b ↔ ∃ a, x = .ok a ∧ f a = .ok b := by
  cases x with
  | error e => simp [bind, Except.bind]
  | ok a => simp [bind, Except.bind]

theorem pure_eq_ok_iff {a b : α} : (pure a : Except ε α) = .ok b ↔ a = b := by
  simp [pure, Except.pure]

theorem exists_error_iff {x : Except ε α} : (∃ e, x = .error e) ↔ ¬ ∃ a, x = .ok a := by
  cases x <;> simp

/-- Every result has `Q`, and every error has `E`. -/
def Meets (E : ε → Prop) (Q : α → Prop) : Except ε α → Prop
  | .ok a => Q a
  | .error e => E e

section Meets
variable {E : ε → Prop} {Q Q' : α → Prop} {R : β → Prop} {x : Except ε α}

theorem Meets.mono (h : x.Meets E Q) (hQ : ∀ a, x = .ok a → Q a → Q' a) : x.Meets E Q' := by
  cases x with
  | error e => exact h
  | ok a => exact hQ a rfl h

theorem Meets.bind {f : α → Except ε β} (h : x.Meets E Q) (hf : ∀ a, Q a → (f a).Meets E R) :
    (x >>= f).Meets E R := by
  cases x with
  | error e => exact h
  | ok a => exact hf a h

end Meets

theorem mapM_eq_ok_map {f : α → Except ε β} {g : α → β} {xs : List α}
    (h : ∀ x ∈ xs, f x = .ok (g x)) : xs.mapM f = .ok (xs.map g) := by
  induction xs with
  | nil => rfl
  | cons x xs ih =>
    rw [List.mapM_cons, h x (by simp), ih fun x hx => h x (by simp [hx])]
    rfl

end Except
