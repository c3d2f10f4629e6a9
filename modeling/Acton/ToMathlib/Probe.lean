import Mathlib.Tactic

/-!
# Open addressing with a perturbed probe sequence

A table of `size` slots is searched from the slot `h % size` on; slot `i` is followed by
`5 * i + p + 1`, where the perturbation `p` starts as the hash and loses five bits at every step.
Once the perturbation is used up, the sequence is the congruential generator `i ↦ 5 * i + 1`, which
runs through all slots if their number is a power of two.

* `slot size h n`: the slot that is looked at in step `n`.
* `exists_slot_eq`: for a table of `2 ^ k` slots and a hash of 64 bits, every slot is looked at
  within `2 ^ k + 13` steps.
* `Reach`: the search for a hash comes to a slot through used slots only.
* `growSize`: the number of slots is doubled until it is large enough.
* `search`: a loop that runs from one state to the next until a state has an answer;
  `search_eq` and `exists_search_eq` say what it finds.
-/

namespace Probe
open Function Nat

/-! ## The congruential generator -/

/-- One step of the generator. -/
def lcg (x : ℤ) : ℤ := 5 * x + 1

/-- After `2 ^ k` steps the generator has moved by an odd multiple of `2 ^ k`. -/
theorem exists_iterate_lcg (k : ℕ) : ∃ a b : ℤ, ∀ x,
    lcg^[2 ^ k] x = (4 * 2 ^ k * a + 1) * x + 2 ^ k * (2 * b + 1) := by
  induction k with
  | zero => exact ⟨1, 0, fun x => by simp [lcg]⟩
  | succ k ih =>
    obtain ⟨a, b, h⟩ := ih
    refine ⟨a * (2 * 2 ^ k * a + 1), b + 2 ^ k * a * (2 * b + 1), fun x => ?_⟩
    rw [pow_succ, mul_two, iterate_add_apply, h, h]
    ring

lemma iterate_lcg_modEq (k : ℕ) (x : ℤ) : lcg^[2 ^ k] x ≡ x + 2 ^ k [ZMOD 2 ^ (k + 1)] := by
  obtain ⟨a, b, h⟩ := exists_iterate_lcg k
  refine Int.modEq_iff_dvd.mpr ⟨-(2 * a * x + b), ?_⟩
  rw [h]
  ring

/-- The generator has full period: it reaches every residue of `2 ^ k`. -/
theorem exists_iterate_lcg_modEq (k : ℕ) (x y : ℤ) : ∃ n < 2 ^ k, lcg^[n] x ≡ y [ZMOD 2 ^ k] := by
  induction k with
  | zero => exact ⟨0, by decide, by simpa using Int.modEq_one⟩
  | succ k ih =>
    obtain ⟨n, hn, h⟩ := ih
    -- the residue is right up to the last bit, which another `2 ^ k` steps turn
    obtain ⟨c, hc⟩ := Int.modEq_iff_dvd.mp h
    rcases Int.even_or_odd' c with ⟨d, rfl | rfl⟩
    · refine ⟨n, ?_, Int.modEq_iff_dvd.mpr ⟨d, ?_⟩⟩
      · rw [pow_succ]
        omega
      · rw [hc]
        ring
    · refine ⟨2 ^ k + n, ?_, ?_⟩
      · rw [pow_succ]
        omega
      · rw [iterate_add_apply]
        refine (iterate_lcg_modEq k _).trans (Int.modEq_iff_dvd.mpr ⟨d, ?_⟩)
        rw [← sub_sub, hc]
        ring

/-! ## The probe sequence -/

/-- The step from one slot and perturbation to the next. -/
def next (size : ℕ) (x : ℕ × ℕ) : ℕ × ℕ := ((x.1 * 5 + x.2 / 32 + 1) % size, x.2 / 32)

/-- The slot that is looked at in step `n`. -/
def slot (size h n : ℕ) : ℕ := ((next size)^[n] (h % size, h)).1

lemma iterate_next_snd (size : ℕ) (x : ℕ × ℕ) (n : ℕ) : ((next size)^[n] x).2 = x.2 / 32 ^ n := by
  induction n generalizing x with
  | zero => simp
  | succ n ih =>
    rw [iterate_succ_apply, ih, next, Nat.div_div_eq_div_mul, pow_succ, Nat.mul_comm]

lemma slot_lt {size : ℕ} (hsize : 0 < size) (h n : ℕ) : slot size h n < size := by
  cases n with
  | zero => exact mod_lt h hsize
  | succ n =>
    rw [slot, iterate_succ_apply']
    exact mod_lt _ hsize

/-- Without perturbation, the sequence follows the generator. -/
theorem iterate_next_zero (size i n : ℕ) :
    (((next size)^[n] (i % size, 0)).1 : ℤ) ≡ lcg^[n] i [ZMOD size] := by
  induction n generalizing i with
  | zero => simpa using Int.mod_modEq i size
  | succ n ih =>
    have hnext : next size (i % size, 0) = ((5 * i + 1) % size, 0) := by
      simp only [next, Nat.zero_div, Nat.add_zero]
      congr 1
      rw [mul_comm 5 i]
      exact (((mod_modEq i size).mul_right 5).add_right 1)
    rw [iterate_succ_apply, hnext, iterate_succ_apply]
    simpa [lcg] using ih (5 * i + 1)

lemma exists_slot_eq {k h s : ℕ} (hh : h < 2 ^ 64) (hs : s < 2 ^ k) :
    ∃ n < 2 ^ k + 13, slot (2 ^ k) h n = s := by
  -- thirteen steps use up the perturbation
  obtain ⟨i, hi⟩ : ∃ i, (next (2 ^ k))^[13] (h % 2 ^ k, h) = (i % 2 ^ k, 0) := by
    refine ⟨slot (2 ^ k) h 13, Prod.ext (mod_eq_of_lt (slot_lt (by positivity) h 13)).symm ?_⟩
    rw [iterate_next_snd]
    exact div_eq_of_lt (lt_trans hh (by norm_num))
  obtain ⟨n, hn, hmod⟩ := exists_iterate_lcg_modEq k i s
  refine ⟨n + 13, by omega, ?_⟩
  have h1 : (slot (2 ^ k) h (n + 13) : ℤ) ≡ s [ZMOD (2 ^ k : ℕ)] := by
    rw [slot, iterate_add_apply, hi]
    exact (iterate_next_zero (2 ^ k) i n).trans (by exact_mod_cast hmod)
  have h2 := (Int.natCast_modEq_iff.mp h1)
  rwa [Nat.ModEq, mod_eq_of_lt hs, mod_eq_of_lt (slot_lt (by positivity) h _)] at h2

/-- The search for a hash comes to slot `s`, and all slots before are used. -/
def Reach (size h : ℕ) (used : ℕ → Prop) (s : ℕ) : Prop :=
  ∃ n, slot size h n = s ∧ ∀ m < n, used (slot size h m)

/-- The path to a slot stays as long as no used slot becomes free. -/
theorem Reach.mono {size h s : ℕ} {used used' : ℕ → Prop} (hreach : Reach size h used s)
    (hused : ∀ i, used i → used' i) : Reach size h used' s := by
  obtain ⟨n, hn, hgo⟩ := hreach
  exact ⟨n, hn, fun m hm => hused _ (hgo m hm)⟩

/-! ## Table sizes -/

/-- The loop that doubles `newsize` until it is at least `minsize`. -/
def growSize (minsize : ℕ) : ℕ → ℕ → ℕ
  | 0, newsize => newsize
  | fuel + 1, newsize =>
    if newsize < minsize then growSize minsize fuel (newsize * 2) else newsize

lemma exists_growSize {minsize fuel j : ℕ} (h : minsize ≤ 2 ^ j * 2 ^ fuel) :
    ∃ k, j ≤ k ∧ growSize minsize fuel (2 ^ j) = 2 ^ k ∧ minsize ≤ 2 ^ k ∧
      (k = j ∨ 2 ^ k < 2 * minsize) := by
  induction fuel generalizing j with
  | zero => exact ⟨j, le_rfl, rfl, by simpa using h, .inl rfl⟩
  | succ fuel ih =>
    rw [growSize]
    split_ifs with hlt
    · obtain ⟨k, hjk, heq, hle, hk⟩ := ih (j := j + 1) (by rwa [Nat.pow_succ, Nat.mul_assoc,
        ← Nat.pow_succ'])
      refine ⟨k, by omega, by rwa [← Nat.pow_succ], hle, .inr ?_⟩
      rcases hk with rfl | hk
      · rw [Nat.pow_succ]
        omega
      · exact hk
    · exact ⟨j, le_rfl, rfl, Nat.le_of_not_lt hlt, .inl rfl⟩

/-- As many steps as the size that is asked for are enough. -/
theorem exists_growSize_self (minsize j : ℕ) :
    ∃ k, j ≤ k ∧ growSize minsize minsize (2 ^ j) = 2 ^ k ∧ minsize ≤ 2 ^ k ∧
      (k = j ∨ 2 ^ k < 2 * minsize) := by
  refine exists_growSize ?_
  calc minsize ≤ 2 ^ minsize := Nat.le_of_lt Nat.lt_two_pow_self
    _ ≤ 2 ^ j * 2 ^ minsize := Nat.le_mul_of_pos_left _ (Nat.two_pow_pos j)

/-! ## Searching -/

section Search
variable {σ β : Type*} {step : σ → σ} {f : σ → Option β} {fuel n : ℕ} {x : σ}

/-- Runs from state to state until one has an answer; `none` if the bound is used up first. -/
def search (step : σ → σ) (f : σ → Option β) : ℕ → σ → Option β
  | 0, _ => none
  | fuel + 1, x =>
    match f x with
    | some r => some r
    | none => search step f fuel (step x)

/-- The search stops at the first state that has an answer. -/
theorem search_eq (hn : n < fuel) (hgo : ∀ m < n, f (step^[m] x) = none) {r : β}
    (hstop : f (step^[n] x) = some r) : search step f fuel x = some r := by
  induction n generalizing fuel x with
  | zero =>
    obtain ⟨fuel, rfl⟩ := exists_eq_succ_of_ne_zero (ne_zero_of_lt hn)
    rw [iterate_zero_apply] at hstop
    rw [search, hstop]
  | succ n ih =>
    obtain ⟨fuel, rfl⟩ := exists_eq_succ_of_ne_zero (ne_zero_of_lt hn)
    have h0 : f x = none := hgo 0 n.succ_pos
    rw [search, h0]
    exact ih (lt_of_succ_lt_succ hn) (fun m hm => hgo (m + 1) (by omega)) hstop

/-- If some state within the bound has an answer, the search stops at one that is not behind it. -/
theorem exists_search_eq (step : σ → σ) (f : σ → Option β) (x : σ) (hn : n < fuel)
    (hstop : (f (step^[n] x)).isSome) :
    ∃ m ≤ n, ∃ r, search step f fuel x = some r ∧ f (step^[m] x) = some r ∧
      ∀ j < m, f (step^[j] x) = none := by
  have hex : ∃ m, (f (step^[m] x)).isSome := ⟨n, hstop⟩
  obtain ⟨r, hr⟩ := Option.isSome_iff_exists.mp (Nat.find_spec hex)
  have hgo : ∀ j < Nat.find hex, f (step^[j] x) = none := fun j hj => by
    simpa using Nat.find_min hex hj
  have hle : Nat.find hex ≤ n := Nat.find_min' hex hstop
  exact ⟨Nat.find hex, hle, r, search_eq (lt_of_le_of_lt hle hn) hgo hr, hr, hgo⟩

end Search
end Probe
