import Mathlib.Tactic

/-!
# Closing a set under a successor function with a worklist

`closure succ fuel seen work` takes nodes from the worklist, adds their unseen successors both to
the result and to the worklist, and stops when the worklist is empty. The start nodes belong to
the result only when they are met again along an edge.

`mem_closure` is the specification: with enough fuel the result holds the nodes that are reached
from the worklist along one or more edges. Every turn takes one node off the worklist and every
node is put there at most once, so the number of unseen nodes plus the length of the worklist is
enough fuel.
-/

lemma List.nodup_eraseDups {α : Type*} [BEq α] [LawfulBEq α] (l : List α) : l.eraseDups.Nodup := by
  -- each step drops the later copies of the head, so the recursion is on a shorter list
  induction hn : l.length using Nat.strongRecOn generalizing l with
  | ind n ih =>
    cases l with
    | nil => simp
    | cons a as =>
      rw [List.eraseDups_cons, List.nodup_cons]
      refine ⟨by simp [List.mem_eraseDups], ih _ ?_ _ rfl⟩
      have := List.length_filter_le (fun b => !b == a) as
      rw [← hn, List.length_cons]
      omega

namespace Worklist
open Relation List
variable {α : Type*} [DecidableEq α]

/-- Process the worklist, collecting in `seen` the nodes met along an edge. -/
def closure (succ : α → List α) : ℕ → List α → List α → List α
  | 0, seen, _ => seen
  | _ + 1, seen, [] => seen
  | n + 1, seen, x :: xs =>
    let new := (succ x).filter (· ∉ seen)
    closure succ n (new ++ seen) (new ++ xs)

/-- There is an edge from `a` to each of its successors. -/
def Edge (succ : α → List α) (a b : α) : Prop := b ∈ succ a

variable {succ : α → List α} {univ seen work : List α} {n : ℕ} {y : α}

lemma subset_closure : seen ⊆ closure succ n seen work := by
  induction n generalizing seen work with
  | zero => exact fun _ h => h
  | succ n ih =>
    cases work with
    | nil => exact fun _ h => h
    | cons x xs => exact fun y hy => ih (mem_append_right _ hy)

/-- Only nodes that are reached along an edge are added. -/
theorem reached_of_mem_closure (h : y ∈ closure succ n seen work) :
    y ∈ seen ∨ ∃ x ∈ work, TransGen (Edge succ) x y := by
  induction n generalizing seen work with
  | zero => exact .inl h
  | succ n ih =>
    cases work with
    | nil => exact .inl h
    | cons x xs =>
      rcases ih h with hseen | ⟨z, hz, hzy⟩
      · rcases mem_append.mp hseen with hnew | hold
        · exact .inr ⟨x, by simp, .single (mem_filter.mp hnew).1⟩
        · exact .inl hold
      · rcases mem_append.mp hz with hnew | hold
        · exact .inr ⟨x, by simp, .head (mem_filter.mp hnew).1 hzy⟩
        · exact .inr ⟨z, by simp [hold], hzy⟩

/-- Marking new nodes as seen takes that many nodes from the unseen ones. -/
theorem length_unseen_append {new : List α} (hnodup : new.Nodup) (huniv : new ⊆ univ)
    (hnew : ∀ y ∈ new, y ∉ seen) :
    (univ.filter (· ∉ new ++ seen)).length + new.length ≤ (univ.filter (· ∉ seen)).length := by
  -- the unseen nodes split into the new ones and those that stay unseen
  have hsub : new ⊆ (univ.filter (· ∉ seen)).filter (· ∈ new) := by
    intro y hy
    simp [hy, huniv hy, hnew y hy]
  have hle := (subperm_of_subset hnodup hsub).length_le
  have hsplit := length_eq_length_filter_add (l := univ.filter (· ∉ seen))
    fun y => decide (y ∈ new)
  have hrest : (univ.filter (· ∉ seen)).filter (fun y => !decide (y ∈ new))
      = univ.filter (· ∉ new ++ seen) := by
    rw [filter_filter]
    congr 1
    funext y
    simp
  rw [hrest] at hsplit
  omega

/-- With enough fuel the result is closed under successors, and holds those of the worklist. -/
theorem succ_subset_closure (huniv : ∀ x, succ x ⊆ univ) (hnodup : ∀ x, (succ x).Nodup)
    (hfuel : (univ.filter (· ∉ seen)).length + work.length ≤ n)
    (hseen : ∀ y ∈ seen, y ∈ work ∨ succ y ⊆ seen) :
    (∀ x ∈ work, succ x ⊆ closure succ n seen work) ∧
      ∀ y ∈ closure succ n seen work, succ y ⊆ closure succ n seen work := by
  induction n generalizing seen work with
  | zero =>
    obtain rfl : work = [] := length_eq_zero_iff.mp (by omega)
    exact ⟨by simp, fun y hy => (hseen y hy).resolve_left (by simp)⟩
  | succ n ih =>
    cases work with
    | nil => exact ⟨by simp, fun y hy => (hseen y hy).resolve_left (by simp)⟩
    | cons x xs =>
      set new := (succ x).filter (· ∉ seen) with hnew
      have hmem : ∀ y ∈ new, y ∈ succ x ∧ y ∉ seen := by simp [hnew]
      -- every successor of `x` was seen before or is new
      have hx : succ x ⊆ new ++ seen := by
        intro y hy
        by_cases h : y ∈ seen <;> simp [hnew, h, hy]
      have hfuel' : (univ.filter (· ∉ new ++ seen)).length + (new ++ xs).length ≤ n := by
        have hlen : (univ.filter (· ∉ new ++ seen)).length + new.length
            ≤ (univ.filter (· ∉ seen)).length :=
          length_unseen_append ((hnodup x).filter _) (fun y hy => huniv x (hmem y hy).1)
            fun y hy => (hmem y hy).2
        simp only [length_append, length_cons] at hfuel ⊢
        omega
      obtain ⟨hwork, hclosed⟩ := ih hfuel' (by
        intro y hy
        rcases mem_append.mp hy with hy | hy
        · exact .inl (mem_append_left _ hy)
        · rcases hseen y hy with hmem | hsub
          · rcases mem_cons.mp hmem with rfl | hmem
            · exact .inr hx
            · exact .inl (mem_append_right _ hmem)
          · exact .inr fun z hz => mem_append_right _ (hsub hz))
      refine ⟨fun z hz => ?_, hclosed⟩
      rcases mem_cons.mp hz with rfl | hz
      · intro y hy
        rw [closure]
        exact subset_closure (hx hy)
      · exact hwork z (mem_append_right _ hz)

/-- With enough fuel the result holds the nodes reached from `start` along one or more edges. -/
theorem mem_closure (huniv : ∀ x, succ x ⊆ univ) (hnodup : ∀ x, (succ x).Nodup) {start : α}
    (hfuel : univ.length + 1 ≤ n) :
    y ∈ closure succ n [] [start] ↔ TransGen (Edge succ) start y := by
  have hfuel' : (univ.filter (· ∉ ([] : List α))).length + [start].length ≤ n := by
    simpa using hfuel
  obtain ⟨hwork, hclosed⟩ := succ_subset_closure huniv hnodup hfuel' (by simp)
  constructor
  · intro h
    rcases reached_of_mem_closure h with h | ⟨x, hx, hxy⟩
    · simp at h
    · rwa [mem_singleton.mp hx] at hxy
  · intro h
    induction h with
    | single h => exact hwork start (by simp) h
    | tail _ h ih => exact hclosed _ ih h

end Worklist
