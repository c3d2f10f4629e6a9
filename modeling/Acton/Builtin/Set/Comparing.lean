import Acton.Builtin.Set.Correctness

/-!
# Comparing sets

The comparisons of `builtin/set.c`. `==`, `<` and `>` are those of finite sets. `<=` and `>=` answer
`False` for a set and itself, and are right for all other objects (`set_compare`).
-/

namespace Acton.Builtin
open List Option BSet
variable {K : Type} [DecidableEq K]
namespace BSet
variable (hw : Hashable K)

/-- The loop of the comparisons: `n` entries of `other` are looked up in `set`. -/
def containsLoop (set other : BSet K) : ℕ → ℤ → Option Bool
  | 0, _ => some true
  | n + 1, nxt => do
    match ← other.nextEntry nxt with
    | none => none
    | some (entry, nxt) =>
      let k ← entry.elem?
      if ← containsEntry hw set k entry.hash then containsLoop set other n nxt else some false

/-- The argument `same` says whether the two sets are the same object. -/
def eq (same : Bool) (set other : BSet K) : Option Bool :=
  if same then some true
  else if set.numelements ≠ other.numelements then some false
  else containsLoop hw set other set.numelements 0

def gt (same : Bool) (set other : BSet K) : Option Bool :=
  if same then some false
  else if set.numelements ≤ other.numelements then some false
  else containsLoop hw set other other.numelements 0

def ge (same : Bool) (set other : BSet K) : Option Bool :=
  if same then some false
  else if set.numelements < other.numelements then some false
  else containsLoop hw set other other.numelements 0

def lt (same : Bool) (set other : BSet K) : Option Bool := gt hw same other set
def le (same : Bool) (set other : BSet K) : Option Bool := ge hw same other set

end BSet
section
variable {hw : Hashable K} {P : K → Prop} {set other : BSet K} {A B : Finset hw.Elem}

/-- The loop goes through the entries that an iterator yields, up to one that is not found. -/
theorem SetInv.containsLoop_eq_toFinset (h : SetInv hw P set) (hgood : GoodKeys hw P)
    (hA : Content hw set A) {n : ℕ} {nxt : ℤ} {entries : List (SetEntry K)} {ks : List K}
    (hentries : other.takeEntries n nxt = some entries) (hks : Forall₂ (EntryOk hw P) entries ks) :
    set.containsLoop hw other n nxt = some (decide (hw.toFinset ks ⊆ A)) := by
  induction n generalizing nxt entries ks with
  | zero =>
    obtain rfl : [] = entries := Option.some.inj hentries
    cases hks
    rfl
  | succ n ih =>
    rw [takeEntries] at hentries
    rw [containsLoop]
    cases hnext : other.nextEntry nxt with
    | none => simp [hnext] at hentries
    | some r =>
      cases r with
      | none => simp [hnext] at hentries
      | some r =>
        obtain ⟨entry, nxt'⟩ := r
        obtain ⟨rest, hrest, rfl⟩ : ∃ rest, other.takeEntries n nxt' = some rest ∧
            entry :: rest = entries := by simpa [hnext] using hentries
        obtain ⟨k, ks, ⟨rfl, hk⟩, hrest', rfl⟩ := forall₂_cons_left_iff.mp hks
        simp only [bind_eq_bind, bind_some, SetEntry.elem?, h.containsEntry_eq_mem hgood hA hk,
          Hashable.toFinset, map_cons, toFinset_cons, Finset.insert_subset_iff, ih hrest hrest']
        by_cases hmem : hw.toElem k ∈ A
        · simp only [hmem, decide_true, if_true, true_and]
          congr
        · simp [hmem]

variable (h : SetInv hw P set) (hother : SetInv hw P other) (hgood : GoodKeys hw P)
  (hA : Content hw set A) (hB : Content hw other B)
include h hother hgood hA hB

lemma SetInv.containsLoop_eq :
    set.containsLoop hw other other.numelements 0 = some (decide (B ⊆ A)) := by
  rw [hB.eq_toFinset]
  exact h.containsLoop_eq_toFinset hgood hA hother.entries_eq hother.table.listed.entries_ok

lemma SetInv.eq_eq : set.eq hw false other = some (decide (A = B)) := by
  rw [eq, if_neg Bool.false_ne_true]
  split_ifs with hne
  · rw [decide_eq_false fun heq : A = B => hne (by rw [← h.card_eq hA, ← hother.card_eq hB, heq])]
  · have hcard : A.card = B.card := by rw [h.card_eq hA, hother.card_eq hB, not_not.mp hne]
    rw [not_not.mp hne, h.containsLoop_eq hother hgood hA hB, decide_eq_decide.mpr
      ⟨fun hsub => (Finset.eq_of_subset_of_card_le hsub hcard.le).symm, fun heq => heq.ge⟩]

lemma SetInv.gt_eq : set.gt hw false other = some (decide (B ⊂ A)) := by
  rw [gt, if_neg Bool.false_ne_true, h.containsLoop_eq hother hgood hA hB, ← h.card_eq hA,
    ← hother.card_eq hB]
  split_ifs with hle
  · rw [decide_eq_false fun hlt => (Finset.card_lt_card hlt).not_ge hle]
  · rw [decide_eq_decide.mpr ⟨fun hsub => hsub.ssubset_of_ne fun heq => hle (by rw [heq]),
      fun hlt => hlt.subset⟩]

lemma SetInv.ge_eq : set.ge hw false other = some (decide (B ⊆ A)) := by
  rw [ge, if_neg Bool.false_ne_true, h.containsLoop_eq hother hgood hA hB, ← h.card_eq hA,
    ← hother.card_eq hB]
  split_ifs with hlt
  · rw [decide_eq_false fun hsub => (Finset.card_le_card hsub).not_gt hlt]
  · rfl

end

/-- After a history as in `set_correct`, the comparisons of any two objects are those of the finite
sets that they stand for, except that `<=` and `>=` of an object and itself are `False`. -/
theorem set_compare (hw : Hashable K) (ops : List (SetOp K))
    (hhash : ∀ k ∈ ops.flatMap SetOp.elems, (hw.hash k).toNat < 2 ^ 63)
    (heq : ∀ a ∈ ops.flatMap SetOp.elems, ∀ b ∈ ops.flatMap SetOp.elems,
      hw.hash a = hw.hash b → hw.eq a b) (hsafe : SafeRun hw (fun _ => ∅) ops) :
    ∃ rs σ A, runSet hw (fun _ => .empty) ops = some (rs, σ) ∧ SpecRun hw (fun _ => ∅) ops rs A ∧
      ∀ x y, (σ x).eq hw (x = y) (σ y) = some (decide (A x = A y)) ∧
        (σ x).lt hw (x = y) (σ y) = some (decide (A x ⊂ A y)) ∧
        (σ x).gt hw (x = y) (σ y) = some (decide (A y ⊂ A x)) ∧
        ((σ x).le hw (x = y) (σ y) = some (decide (A x ⊆ A y)) ↔ x ≠ y) ∧
        ((σ x).ge hw (x = y) (σ y) = some (decide (A y ⊆ A x)) ↔ x ≠ y) := by
  have hgood : GoodKeys hw (· ∈ ops.flatMap SetOp.elems) :=
    ⟨fun ha => hhash _ ha, fun ha hb h => heq _ ha _ hb h⟩
  obtain ⟨rs, σ, A, hrun, hspec, hheap⟩ := HeapOk.init.exists_runSet hgood ops
    (fun op hop k hk => mem_flatMap.mpr ⟨op, hop, hk⟩) hsafe
  refine ⟨rs, σ, A, hrun, hspec, fun x y => ?_⟩
  obtain ⟨hx, hA, -⟩ := hheap x
  obtain ⟨hy, hB, -⟩ := hheap y
  by_cases hxy : x = y
  · subst hxy
    simp [eq, lt, le, gt, ge]
  · simp [hxy, lt, le, hx.eq_eq hy hgood hA hB, hx.gt_eq hy hgood hA hB,
      hy.gt_eq hx hgood hB hA, hx.ge_eq hy hgood hA hB, hy.ge_eq hx hgood hB hA]

theorem set_compare_one_two : ∃ rs σ A, runSet (.ofDecidableEq ℕ UInt64.ofNat) (fun _ => .empty)
      [.add 0 1, .update 1 [1, 2]] = some (rs, σ) ∧
    SpecRun (.ofDecidableEq ℕ UInt64.ofNat) (fun _ => ∅) [.add 0 1, .update 1 [1, 2]] rs A ∧
    (σ 0).le (.ofDecidableEq ℕ UInt64.ofNat) false (σ 1) = some (decide (A 0 ⊆ A 1)) := by
  have hempty (x : ℕ) : ((fun _ => ∅ : SetModel (.ofDecidableEq ℕ UInt64.ofNat)) x).card < 2 ^ 28 :=
    Nat.two_pow_pos 28
  have hsafe : SafeRun (.ofDecidableEq ℕ UInt64.ofNat) (fun _ => ∅)
      [.add 0 1, .update 1 [1, 2]] := by
    refine ⟨trivial, ?_⟩
    rintro _ _ ⟨rfl, rfl⟩
    refine ⟨card_update_lt hempty (by decide), trivial, ?_⟩
    rintro _ _ ⟨rfl, rfl⟩
    exact ⟨card_update_lt (card_update_lt hempty (by decide)) (by decide), trivial⟩
  obtain ⟨rs, σ, A, hrun, hspec, hcompare⟩ := set_compare _ _ (by decide) (by decide) hsafe
  exact ⟨rs, σ, A, hrun, hspec, (hcompare 0 1).2.2.2.1.mpr (by decide)⟩

/-- A set is not less than or equal to itself. -/
theorem set_not_le_self : ∃ rs σ, runSet (.ofDecidableEq ℕ UInt64.ofNat) (fun _ => .empty)
      [.add 0 1] = some (rs, σ) ∧
    (σ 0).le (.ofDecidableEq ℕ UInt64.ofNat) true (σ 0) = some false ∧
    (σ 0).ge (.ofDecidableEq ℕ UInt64.ofNat) true (σ 0) = some false ∧
    (σ 0).eq (.ofDecidableEq ℕ UInt64.ofNat) true (σ 0) = some true :=
  ⟨_, _, rfl, rfl, rfl, rfl⟩

end Acton.Builtin
