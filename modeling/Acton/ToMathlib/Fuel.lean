import Mathlib.Tactic

/-!
# Convergence of fuel-bounded computations

A partial function is modelled by a family `f : ℕ → Option α` that runs the function with a
bounded number of recursive calls and answers `none` when the bound is used up. `Converges f a`
says that every large enough bound gives the answer `a`; this is the statement "the function
terminates with result `a`".

* `Converges.unique`: a family converges to at most one value.
* `Converges.bind`: convergence is compositional.
* `Converges.of_succ`: one unfolding of a recursive definition costs one unit of fuel.
-/

namespace Fuel
variable {α β : Type*}

/-- Every large enough amount of fuel gives the answer `a`. -/
def Converges (f : ℕ → Option α) (a : α) : Prop := ∃ N, ∀ n, N ≤ n → f n = some a

namespace Converges
variable {f g : ℕ → Option α} {a b : α}

lemma unique (ha : Converges f a) (hb : Converges f b) : a = b := by
  obtain ⟨N, hN⟩ := ha
  obtain ⟨M, hM⟩ := hb
  have h := (hN (max N M) (le_max_left N M)).symm.trans (hM (max N M) (le_max_right N M))
  exact Option.some.inj h

/-- A family that does not look at its fuel converges at once. -/
theorem const (a : α) : Converges (fun _ => some a) a := ⟨0, fun _ _ => rfl⟩

lemma congr (h : Converges f a) (hfg : ∀ n, g n = f n) : Converges g a := by
  obtain ⟨N, hN⟩ := h
  exact ⟨N, fun n hn => (hfg n).trans (hN n hn)⟩

/-- A definition that spends one unit of fuel and then runs `f` converges with `f`. -/
theorem of_succ (h : Converges f a) (hg : ∀ n, g (n + 1) = f n) : Converges g a := by
  obtain ⟨N, hN⟩ := h
  refine ⟨N + 1, fun n hn => ?_⟩
  obtain ⟨m, rfl⟩ := Nat.exists_eq_succ_of_ne_zero (show n ≠ 0 by omega)
  exact (hg m).trans (hN m (by omega))

/-- Sequential composition: run `f`, then continue with its answer under the same bound. -/
theorem bind {k : α → ℕ → Option β} {b : β} (hf : Converges f a)
    (hk : Converges (k a) b) : Converges (fun n => (f n).bind fun x => k x n) b := by
  obtain ⟨N, hN⟩ := hf
  obtain ⟨M, hM⟩ := hk
  refine ⟨max N M, fun n hn => ?_⟩
  simp only [hN n (le_trans (le_max_left N M) hn), Option.bind_some]
  exact hM n (le_trans (le_max_right N M) hn)

end Converges

/-- If more fuel keeps an answer, finding the answer once is enough. -/
theorem converges_iff_exists {f : ℕ → Option α} {a : α}
    (hf : ∀ n, f n = some a → f (n + 1) = some a) : Converges f a ↔ ∃ n, f n = some a := by
  constructor
  · rintro ⟨N, hN⟩
    exact ⟨N, hN N (Nat.le_refl N)⟩
  · rintro ⟨N, hN⟩
    refine ⟨N, fun n hn => ?_⟩
    induction n, hn using Nat.le_induction with
    | base => exact hN
    | succ n _ ih => exact hf n ih

/-- What holds for each entry of a list with enough fuel holds for all of them at once. -/
theorem exists_forall_mem {P : α → ℕ → Prop} {l : List α}
    (h : ∀ x ∈ l, ∃ N, ∀ n, N ≤ n → P x n) : ∃ N, ∀ n, N ≤ n → ∀ x ∈ l, P x n := by
  induction l with
  | nil => exact ⟨0, by simp⟩
  | cons x l ih =>
    obtain ⟨N, hN⟩ := h x (by simp)
    obtain ⟨M, hM⟩ := ih fun y hy => h y (by simp [hy])
    refine ⟨N + M, fun n hn => ?_⟩
    rw [List.forall_mem_cons]
    exact ⟨hN n (by omega), hM n (by omega)⟩

end Fuel
