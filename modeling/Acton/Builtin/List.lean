import Mathlib.Tactic

/-!
# Comparing lists

A comparison answers with a pointer to a boolean. The loops of `<` and `<=` on lists take this
pointer itself as the condition, which no comparison of two elements makes false, so they run to
the end of the shorter list and only the lengths are compared.
-/

namespace Acton.Builtin

/-- A pointer to a boolean, never null. -/
structure BBool where
  val : Bool
  deriving DecidableEq

/-- The pointer as a condition in C: it is not null. -/
def BBool.isSet (_ : BBool) : Bool := true

/-- The comparisons of the elements that lists use. -/
structure OrdWitness (α : Type*) where
  eq : α → α → BBool
  ne : α → α → BBool
  lt : α → α → BBool

namespace BList
variable {α : Type*} (w : OrdWitness α)

/-- `i` when the loop stops, with the elements of both lists from `i` on. -/
def compareLoop : List α → List α → ℕ → ℕ
  | x :: xs, y :: ys, i => if (w.eq x y).isSet then compareLoop xs ys (i + 1) else i
  | _, _, i => i

/-- `<` and `<=`, which differ in `atEnd`: the comparison of the lengths at the end of `a`. -/
def compareWith (atEnd : ℕ → ℕ → Bool) (a b : List α) : BBool :=
  let i := compareLoop w a b 0
  if i = a.length then ⟨atEnd i b.length⟩
  else if i = b.length then ⟨false⟩
  else match a[i]?, b[i]? with
    | some x, some y => w.lt x y
    | _, _ => ⟨false⟩ -- `i` is less than both lengths

def lt : List α → List α → BBool := compareWith w fun i n => i < n
def le : List α → List α → BBool := compareWith w fun i n => i ≤ n
def gt (a b : List α) : BBool := lt w b a
def ge (a b : List α) : BBool := le w b a

def eq (a b : List α) : BBool :=
  ⟨a.length = b.length && (a.zip b).all fun (x, y) => !(w.ne x y).val⟩

variable {w}

lemma compareLoop_eq (a b : List α) (i : ℕ) : compareLoop w a b i = i + min a.length b.length := by
  induction a generalizing b i with
  | nil => simp [compareLoop]
  | cons x a ih =>
    cases b with
    | nil => simp [compareLoop]
    | cons y b =>
      have hset : (w.eq x y).isSet = true := rfl
      rw [compareLoop, if_pos hset, ih, List.length_cons, List.length_cons]
      omega

lemma compareWith_val {atEnd : ℕ → ℕ → Bool} (a b : List α) :
    (compareWith w atEnd a b).val = (atEnd a.length b.length && a.length ≤ b.length) := by
  rw [compareWith, compareLoop_eq, Nat.zero_add]
  rcases le_or_gt a.length b.length with h | h
  · simp [h]
  · simp [min_eq_right h.le, h.ne, h.not_ge]

lemma eq_val [DecidableEq α] (hne : ∀ x y, (w.ne x y).val = decide (x ≠ y)) (a b : List α) :
    (eq w a b).val = decide (a = b) := by
  induction a generalizing b with
  | nil => cases b <;> simp [eq]
  | cons x a ih =>
    cases b with
    | nil => simp [eq]
    | cons y b =>
      have := ih b
      simp only [eq, List.length_cons, List.zip_cons_cons, List.all_cons, hne] at this ⊢
      by_cases hxy : x = y <;> simp_all

/-- The comparisons are lexicographic exactly if the order of the lengths is the lexicographic one,
and exactly one of `<`, `==` and `>` holds if the lists are equal or of different lengths. -/
theorem list_compare [LinearOrder α] (hne : ∀ x y, (w.ne x y).val = decide (x ≠ y)) (a b : List α) :
    ((lt w a b).val = decide (a < b) ∧ (le w a b).val = decide (a ≤ b) ∧
        (gt w a b).val = decide (a > b) ∧ (ge w a b).val = decide (a ≥ b) ↔
      (a < b ↔ a.length < b.length) ∧ (a > b ↔ a.length > b.length)) ∧
    ([(lt w a b).val, (eq w a b).val, (gt w a b).val].count true = 1 ↔
      a = b ∨ a.length ≠ b.length) := by
  have hlt : ∀ a b, (lt w a b).val = decide (a.length < b.length) := by
    intro a b
    rw [lt, compareWith_val, ← Bool.decide_and]
    exact decide_eq_decide.mpr (and_iff_left_of_imp le_of_lt)
  have hle : ∀ a b, (le w a b).val = decide (a.length ≤ b.length) := by
    simp [le, compareWith_val]
  simp only [gt, ge, hlt, hle, eq_val hne, decide_eq_decide, gt_iff_lt, ge_iff_le]
  constructor
  · simp only [← not_lt]
    tauto
  · rcases lt_trichotomy a.length b.length with h | h | h
    · have hab : a ≠ b := fun heq => h.ne (congrArg _ heq)
      simp [h, h.not_gt, h.ne, hab]
    · by_cases hab : a = b <;> simp [h, hab]
    · have hab : a ≠ b := fun heq => h.ne' (congrArg _ heq)
      simp [h, h.not_gt, h.ne', hab]

/-- The witness of integers. -/
def intWitness : OrdWitness ℤ where
  eq x y := ⟨x = y⟩
  ne x y := ⟨x ≠ y⟩
  lt x y := ⟨x < y⟩

theorem list_compare_one_one_two :
    (lt intWitness [1] [1, 2]).val = decide (([1] : List ℤ) < [1, 2]) ∧
    (le intWitness [1] [1, 2]).val = decide (([1] : List ℤ) ≤ [1, 2]) := by
  obtain ⟨hlt, hle, -⟩ :=
    (@list_compare _ intWitness _ (fun _ _ => rfl) [1] [1, 2]).1.mpr (by decide)
  exact ⟨hlt, hle⟩

/-- `[1]` is neither less than `[2]`, nor equal, nor greater. -/
theorem list_not_lt : (lt intWitness [1] [2]).val = false ∧ (eq intWitness [1] [2]).val = false ∧
    (gt intWitness [1] [2]).val = false ∧ ([1] : List ℤ) < [2] := by
  decide

end BList
end Acton.Builtin
