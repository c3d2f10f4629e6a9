import Mathlib.Tactic

/-!
# Merging lists that share an order

`exists_good_head` is what makes greedy merging complete: when some lists are all sublists of one
list without repetitions, and not all of them are empty, then one of them starts with an element
that occurs in no other list except at the front.
-/

namespace List
variable {α : Type*}

/-- Among sublists of one duplicate-free list, one has a head that is in no tail. -/
theorem exists_good_head {L : List α} (hL : L.Nodup) {ls : List (List α)}
    (hsub : ∀ l ∈ ls, l <+ L) (hne : ∃ l ∈ ls, l ≠ []) :
    ∃ h tl, h :: tl ∈ ls ∧ ∀ l ∈ ls, h ∉ l.tail := by
  induction L with
  | nil =>
    obtain ⟨l, hl, hl'⟩ := hne
    exact absurd (sublist_nil.mp (hsub l hl)) hl'
  | cons a L ih =>
    obtain ⟨ha, hL'⟩ := nodup_cons.mp hL
    by_cases hmem : ∃ l ∈ ls, a ∈ l
    · -- the first element of the common order, if it is used, is used at the front only
      obtain ⟨l, hl, hal⟩ := hmem
      have htail : ∀ l ∈ ls, a ∉ l.tail := fun l hl hal =>
        ha ((hsub l hl).tail.subset hal)
      cases l with
      | nil => simp at hal
      | cons b tl =>
        rcases mem_cons.mp hal with rfl | hal'
        · exact ⟨a, tl, hl, htail⟩
        · exact absurd hal' (htail _ hl)
    · push Not at hmem
      refine ih hL' fun l hl => ?_
      have h := hsub l hl
      cases h with
      | cons _ h => exact h
      | cons_cons _ h => exact absurd (mem_cons_self ..) (hmem _ hl)

end List
