import Mathlib.Tactic

/-!
# Linked lists

`next x` reads the link of a cell: it is `none` if the cell cannot be read, `some none` for the null
pointer and `some (some y)` for a pointer to `y`. `Links next x l` says that the cells after `x` are
those of `l`, in this order, and that the last one has a null link. The lemmas cut such a list, put
a cell into it and take one out of it, given what is written to the links, and say where a loop that
follows the links stops (`advance`).
-/

variable {α : Type}

/-- The cells after `x` are those of the list, and the last one has a null link. -/
def Links (next : α → Option (Option α)) : α → List α → Prop
  | x, [] => next x = some none
  | x, y :: l => next x = some (some y) ∧ Links next y l

/-- Follow the links for as long as the next cell satisfies `p`, for less than `n` steps. -/
def advance (next : α → Option (Option α)) (p : α → Option Bool) : ℕ → α → Option α
  | 0, _ => none
  | n + 1, x => do
    match ← next x with
    | none => some x
    | some y => if ← p y then advance next p n y else some x

namespace Links
open List
variable {next next' : α → Option (Option α)} {x y : α} {l l1 l2 : List α}

lemma next_eq (h : Links next x l) : next x = some l.head? := by
  cases l with
  | nil => exact h
  | cons y l => exact h.1

/-- Only the links of the cells on the way matter, that of the first cell included. -/
theorem congr (h : Links next x l) (heq : ∀ y ∈ x :: l, next' y = next y) : Links next' x l := by
  induction l generalizing x with
  | nil => exact (heq x (by simp)).trans h
  | cons y l ih =>
    refine ⟨(heq x (by simp)).trans h.1, ih h.2 fun z hz => heq z ?_⟩
    exact mem_cons_of_mem x hz

/-- Cut a list: the second part starts at the last cell of the first. -/
theorem of_append (h : Links next x (l1 ++ l2)) : Links next (l1.getLastD x) l2 := by
  induction l1 generalizing x with
  | nil => exact h
  | cons y l ih =>
    rw [getLastD_cons]
    exact ih h.2

/-- A cell with the link of `x` stands before the same cells, if their links are as before. -/
theorem replace_first (h : Links next x l) (hy : next' y = next x)
    (heq : ∀ z ∈ l, next' z = next z) : Links next' y l := by
  cases l with
  | nil => exact hy.trans h
  | cons z l => exact ⟨hy.trans h.1, h.2.congr heq⟩

/-- Put a cell into the list: it gets the link of the cell before it, which then points to it. -/
theorem insert (h : Links next x (l1 ++ l2)) (hnodup : (x :: (l1 ++ l2)).Nodup)
    (hy : y ∉ x :: (l1 ++ l2)) (hnew : next' y = next (l1.getLastD x))
    (hprev : next' (l1.getLastD x) = some (some y))
    (heq : ∀ z, z ≠ y → z ≠ l1.getLastD x → next' z = next z) : Links next' x (l1 ++ y :: l2) := by
  induction l1 generalizing x with
  | nil =>
    refine ⟨hprev, h.replace_first hnew fun z hz => heq z ?_ ?_⟩
    · rintro rfl
      exact hy (mem_cons_of_mem x hz)
    · rintro rfl
      exact (nodup_cons.mp hnodup).1 hz
  | cons z l ih =>
    rw [getLastD_cons] at hnew hprev heq
    have hx : x ≠ l.getLastD z := by
      intro hx
      refine (nodup_cons.mp hnodup).1 (mem_append_left l2 ?_)
      exact hx ▸ getLastD_mem_cons
    refine ⟨(heq x ?_ hx).trans h.1, ih h.2 hnodup.of_cons ?_ hnew hprev heq⟩
    · rintro rfl
      exact hy (by simp)
    · exact fun hmem => hy (mem_cons_of_mem x hmem)

/-- Take a cell out of the list: the cell before it gets its link. -/
theorem remove (h : Links next x (l1 ++ y :: l2)) (hnodup : (x :: (l1 ++ y :: l2)).Nodup)
    (hprev : next' (l1.getLastD x) = next y)
    (heq : ∀ z, z ≠ y → z ≠ l1.getLastD x → next' z = next z) : Links next' x (l1 ++ l2) := by
  induction l1 generalizing x with
  | nil =>
    refine h.2.replace_first hprev fun z hz => heq z ?_ ?_
    · rintro rfl
      exact (nodup_cons.mp hnodup.of_cons).1 hz
    · rintro rfl
      exact (nodup_cons.mp hnodup).1 (mem_cons_of_mem y hz)
  | cons z l ih =>
    rw [getLastD_cons] at hprev heq
    have hx : x ∉ z :: (l ++ y :: l2) := (nodup_cons.mp hnodup).1
    have hlast : x ≠ l.getLastD z := by
      intro hx'
      rw [← cons_append] at hx
      refine hx (mem_append_left (y :: l2) ?_)
      exact hx' ▸ getLastD_mem_cons
    refine ⟨(heq x ?_ hlast).trans h.1, ih h.2 hnodup.of_cons hprev heq⟩
    rintro rfl
    exact hx (by simp)

/-- The loop stops at the last cell of the part that satisfies `p`. -/
theorem advance_eq {p : α → Option Bool} {n : ℕ} (h : Links next x (l1 ++ l2))
    (htrue : ∀ y ∈ l1, p y = some true) (hfalse : ∀ y ∈ l2.head?, p y = some false)
    (hn : l1.length < n) : advance next p n x = some (l1.getLastD x) := by
  induction l1 generalizing x n with
  | nil =>
    obtain ⟨n, rfl⟩ := Nat.exists_eq_add_one_of_ne_zero (Nat.ne_zero_of_lt hn)
    have hx : next x = some l2.head? := Links.next_eq h
    cases hhead : l2.head? with
    | none => simp [advance, hx, hhead]
    | some y => simp [advance, hx, hhead, hfalse y hhead]
  | cons y l ih =>
    obtain ⟨n, rfl⟩ := Nat.exists_eq_add_one_of_ne_zero (Nat.ne_zero_of_lt hn)
    have hy : p y = some true := htrue y (by simp)
    rw [getLastD_cons, ← ih h.2 (fun z hz => htrue z (by simp [hz])) (Nat.lt_of_succ_lt_succ hn)]
    simp [advance, h.1, hy]

end Links
