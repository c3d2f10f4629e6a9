import Mathlib.Tactic

/-!
# Linked lists with one link per cell

Many lists whose cells are linked through the same field. As long as no cell is in two lists, an
operation on one list leaves all others as they are. There may be places for cells that are not
linked lists, so that a cell that is taken out of a list is at another place.

`Separate` tells that no cell is at two places; it has rules for cells that come to a place
(`Separate.update`) and cells that go from one place to another (`Separate.move`,
`Separate.transfer`). `Chains` tells that links and heads form the lists; it has a rule for each
operation: `Chains.push`, `Chains.pop`, `Chains.insertAfter`, `Chains.append`, `Chains.single` and
`Chains.transfer`.
-/

namespace LinkedLists
open List Function
variable {α ι : Type*}

/-- The cells from `h` on are those of the list. -/
def Chain (next : α → Option α) : Option α → List α → Prop
  | h, [] => h = none
  | h, x :: l => h = some x ∧ Chain next (next x) l

namespace Chain
variable {next next' : α → Option α} {h : Option α} {l l1 l2 : List α} {x t : α}

lemma head_eq (hc : Chain next h l) : h = l.head? := by
  cases l with
  | nil => exact hc
  | cons x l => exact hc.1

lemma congr (hc : Chain next h l) (heq : ∀ x ∈ l, next' x = next x) : Chain next' h l := by
  induction l generalizing h with
  | nil => exact hc
  | cons x l ih =>
    refine ⟨hc.1, ?_⟩
    rw [heq x mem_cons_self]
    exact ih hc.2 fun y hy => heq y (mem_cons_of_mem x hy)

lemma of_append (hc : Chain next h (l1 ++ t :: l2)) : Chain next (next t) l2 := by
  induction l1 generalizing h with
  | nil => exact hc.2
  | cons x l1 ih => exact ih hc.2

lemma insertAfter (hc : Chain next h (l1 ++ t :: l2)) (ht : next' t = some x)
    (hx : next' x = next t) (heq : ∀ y ∈ l1 ++ l2, next' y = next y) :
    Chain next' h (l1 ++ t :: x :: l2) := by
  induction l1 generalizing h with
  | nil =>
    refine ⟨hc.1, ?_⟩
    rw [ht]
    refine ⟨rfl, ?_⟩
    rw [hx]
    exact hc.2.congr heq
  | cons y l1 ih =>
    refine ⟨hc.1, ?_⟩
    rw [heq y mem_cons_self]
    exact ih hc.2 fun z hz => heq z (mem_cons_of_mem y hz)

end Chain

/-! ## Cells at places -/

/-- No cell is twice at a place, or at two places. -/
structure Separate (L : ι → List α) : Prop where
  nodup : ∀ i, (L i).Nodup
  disjoint : ∀ i j x, x ∈ L i → x ∈ L j → i = j

/-- A cell that is nowhere. -/
def Free (L : ι → List α) (x : α) : Prop := ∀ i, x ∉ L i

namespace Separate
variable {L : ι → List α} {i j : ι} {l l' : List α} {x : α}

lemma empty : Separate fun _ : ι => ([] : List α) :=
  ⟨fun _ => nodup_nil, fun _ _ _ h => absurd h not_mem_nil⟩

variable [DecidableEq ι]
section
variable (h : Separate L)
include h

lemma update (hl : l.Nodup) (hmem : ∀ x ∈ l, x ∈ L i ∨ Free L x) :
    Separate (Function.update L i l) where
  nodup j := by
    by_cases hji : j = i
    · subst hji
      rwa [update_self]
    · rw [update_of_ne hji]
      exact h.nodup j
  disjoint j k x hj hk := by
    have hout {j : ι} (hji : j ≠ i) (hxj : x ∈ L j) (hxl : x ∈ l) : False := by
      rcases hmem x hxl with hxi | hfree
      · exact hji (h.disjoint j i x hxj hxi)
      · exact hfree j hxj
    by_cases hji : j = i
    · by_cases hki : k = i
      · rw [hji, hki]
      · rw [hji, update_self] at hj
        rw [update_of_ne hki] at hk
        exact (hout hki hk hj).elim
    · rw [update_of_ne hji] at hj
      by_cases hki : k = i
      · rw [hki, update_self] at hk
        exact (hout hji hj hk).elim
      · rw [update_of_ne hki] at hk
        exact h.disjoint j k x hj hk

lemma insert (hx : Free L x) (hl : l.Perm (x :: L i)) : Separate (Function.update L i l) := by
  refine h.update (hl.nodup_iff.mpr (nodup_cons.mpr ⟨hx i, h.nodup i⟩)) fun y hy => ?_
  rcases mem_cons.mp (hl.mem_iff.mp hy) with rfl | hy
  · exact .inr hx
  · exact .inl hy

lemma remove (hi : L i = x :: l) : Separate (Function.update L i l) := by
  have hnodup := h.nodup i
  rw [hi] at hnodup
  exact h.update hnodup.of_cons fun y hy => .inl (hi ▸ mem_cons_of_mem x hy)

lemma free_of_remove (hi : L i = x :: l) : Free (Function.update L i l) x := by
  intro j
  by_cases hji : j = i
  · subst hji
    have hnodup := h.nodup j
    rw [hi] at hnodup
    rw [update_self]
    exact (nodup_cons.mp hnodup).1
  · rw [update_of_ne hji]
    exact fun hj => hji (h.disjoint j i x hj (hi ▸ mem_cons_self))

lemma move (hij : j ≠ i) (hi : L i = x :: l) (hl : l'.Perm (x :: L j)) :
    Separate (Function.update (Function.update L i l) j l') := by
  refine (h.remove hi).insert (h.free_of_remove hi) ?_
  rwa [update_of_ne hij]

lemma transfer : Separate (Function.update (Function.update L i []) j (L i)) := by
  refine (h.update nodup_nil fun x hx => absurd hx not_mem_nil).update (h.nodup i)
    fun x hx => .inr fun k hk => ?_
  by_cases hki : k = i
  · subst hki
    rw [update_self] at hk
    cases hk
  · rw [update_of_ne hki] at hk
    exact hki (h.disjoint k i x hk hx)

end
end Separate
namespace Free
variable [DecidableEq ι] {L : ι → List α} {i j : ι} {l l' : List α} {x y : α}

/-- A cell is nowhere else, and not at the place that changes. -/
theorem update_iff : Free (Function.update L i l) y ↔ y ∉ l ∧ ∀ j, j ≠ i → y ∉ L j := by
  constructor
  · intro h
    refine ⟨?_, fun j hj => ?_⟩
    · have := h i
      rwa [update_self] at this
    · have := h j
      rwa [update_of_ne hj] at this
  · rintro ⟨hl, hL⟩ j
    by_cases hji : j = i
    · rwa [hji, update_self]
    · rw [update_of_ne hji]
      exact hL j hji

lemma insert_iff (hl : l.Perm (x :: L i)) : Free (Function.update L i l) y ↔ y ≠ x ∧ Free L y := by
  rw [update_iff, hl.mem_iff, mem_cons, not_or, and_assoc]
  refine and_congr_right fun _ => ⟨fun h j => ?_, fun h => ⟨h i, fun j _ => h j⟩⟩
  by_cases hji : j = i
  · exact hji ▸ h.1
  · exact h.2 j hji

lemma remove_iff (h : Separate L) (hi : L i = x :: l) :
    Free (Function.update L i l) y ↔ y = x ∨ Free L y := by
  constructor
  · intro hy
    by_cases hyx : y = x
    · exact .inl hyx
    · refine .inr fun j => ?_
      by_cases hji : j = i
      · subst hji
        have := hy j
        rw [update_self] at this
        rw [hi, mem_cons, not_or]
        exact ⟨hyx, this⟩
      · have := hy j
        rwa [update_of_ne hji] at this
  · rintro (rfl | hy)
    · exact h.free_of_remove hi
    · refine update_iff.mpr ⟨fun hl => hy i ?_, fun j _ => hy j⟩
      rw [hi]
      exact mem_cons_of_mem x hl

lemma move_iff (h : Separate L) (hij : j ≠ i) (hi : L i = x :: l) (hl : l'.Perm (x :: L j)) :
    Free (Function.update (Function.update L i l) j l') y ↔ Free L y := by
  rw [insert_iff (by rwa [update_of_ne hij]), remove_iff h hi]
  constructor
  · rintro ⟨hne, heq | hy⟩
    · exact absurd heq hne
    · exact hy
  · intro hy
    refine ⟨fun heq => hy i ?_, .inr hy⟩
    rw [heq, hi]
    exact mem_cons_self

lemma transfer_iff (hj : L j = []) :
    Free (Function.update (Function.update L i []) j (L i)) y ↔ Free L y := by
  rw [update_iff]
  constructor
  · rintro ⟨hi, hy⟩ k
    by_cases hki : k = i
    · exact hki ▸ hi
    · by_cases hkj : k = j
      · rw [hkj, hj]
        exact not_mem_nil
      · have := hy k hkj
        rwa [update_of_ne hki] at this
  · intro hy
    refine ⟨hy i, fun k _ => ?_⟩
    by_cases hki : k = i
    · rw [hki, update_self]
      exact not_mem_nil
    · rw [update_of_ne hki]
      exact hy k

end Free

/-! ## Links -/

/-- The places of `linked` are lists. -/
def Chains (linked : ι → Prop) (next : α → Option α) (head : ι → Option α) (L : ι → List α) :
    Prop :=
  ∀ i, linked i → Chain next (head i) (L i)

/-- A cell that is in no list. -/
def Unlinked (linked : ι → Prop) (L : ι → List α) (x : α) : Prop := ∀ i, linked i → x ∉ L i

lemma Free.unlinked {L : ι → List α} {x : α} (h : Free L x) (linked : ι → Prop) :
    Unlinked linked L x :=
  fun i _ => h i

namespace Chains
variable {linked : ι → Prop} {next next' : α → Option α} {head head' : ι → Option α}
  {L : ι → List α} {i j : ι} {l l1 l2 : List α} {x t : α}

lemma head_eq (h : Chains linked next head L) (hi : linked i) : head i = (L i).head? :=
  (h i hi).head_eq

lemma empty (linked : ι → Prop) (next : α → Option α) :
    Chains linked next (fun _ => none) fun _ : ι => [] :=
  fun _ _ => rfl

/-- The link of a cell that is in no list may change. -/
theorem setNext [DecidableEq α] (h : Chains linked next head L) (hx : Unlinked linked L x)
    (v : Option α) : Chains linked (Function.update next x v) head L :=
  fun i hi => (h i hi).congr fun _ hy =>
    update_of_ne (ne_of_mem_of_not_mem hy (hx i hi)) v next

variable [DecidableEq ι]

lemma update (h : Chains linked next head L) (hhead : ∀ j, j ≠ i → head' j = head j)
    (hchain : linked i → Chain next' (head' i) l)
    (hnext : ∀ j, j ≠ i → linked j → ∀ x ∈ L j, next' x = next x) :
    Chains linked next' head' (Function.update L i l) := by
  intro j hj
  by_cases hji : j = i
  · subst hji
    rw [update_self]
    exact hchain hj
  · rw [update_of_ne hji, hhead j hji]
    exact (h j hj).congr (hnext j hji hj)

/-- A place that is not a list changes. -/
theorem setUnlinked (h : Chains linked next head L) (hi : ¬ linked i) :
    Chains linked next head (Function.update L i l) :=
  h.update (fun _ _ => rfl) (fun hl => absurd hl hi) fun _ _ _ _ _ => rfl

lemma pop (h : Chains linked next head L) (hL : L i = x :: l) :
    Chains linked next (Function.update head i (next x)) (Function.update L i l) := by
  refine h.update (fun j hj => update_of_ne hj _ _) (fun hi => ?_) fun _ _ _ _ _ => rfl
  have hchain := h i hi
  rw [hL] at hchain
  rw [update_self]
  exact hchain.2

lemma transfer (h : Chains linked next head L) (hi : linked i) :
    Chains linked next (Function.update (Function.update head i none) j (head i))
      (Function.update (Function.update L i []) j (L i)) := by
  intro k hk
  by_cases hkj : k = j
  · subst hkj
    simpa using h i hi
  · rw [update_of_ne hkj, update_of_ne hkj]
    by_cases hki : k = i
    · subst hki
      simp [Chain]
    · rw [update_of_ne hki, update_of_ne hki]
      exact h k hk

variable [DecidableEq α]
section
variable (h : Chains linked next head L)
include h

lemma push (hx : Unlinked linked L x) :
    Chains linked (Function.update next x (head i)) (Function.update head i (some x))
      (Function.update L i (x :: L i)) := by
  refine h.update (fun j hj => update_of_ne hj _ _) (fun hi => ?_) fun j _ hj y hy => ?_
  · rw [update_self]
    refine ⟨rfl, ?_⟩
    rw [update_self]
    exact (h i hi).congr fun y hy =>
      update_of_ne (ne_of_mem_of_not_mem hy (hx i hi)) _ _
  · exact update_of_ne (ne_of_mem_of_not_mem hy (hx j hj)) _ _

lemma single (hx : Unlinked linked L x) :
    Chains linked (Function.update next x none) (Function.update head i (some x))
      (Function.update L i [x]) := by
  refine h.update (fun j hj => update_of_ne hj _ _) (fun _ => ?_) fun j _ hj y hy => ?_
  · rw [update_self]
    exact ⟨rfl, update_self _ _ _⟩
  · exact update_of_ne (ne_of_mem_of_not_mem hy (hx j hj)) _ _

lemma insertAfter (hs : Separate L) (hi : linked i) (hL : L i = l1 ++ t :: l2)
    (hx : Unlinked linked L x) :
    Chains linked (Function.update (Function.update next t (some x)) x (next t)) head
      (Function.update L i (l1 ++ t :: x :: l2)) := by
  have hnodup := hs.nodup i
  have hchain := h i hi
  rw [hL] at hnodup hchain
  have hne {y : α} {j : ι} (hj : linked j) (hy : y ∈ L j) : y ≠ x := fun heq => hx j hj (heq ▸ hy)
  have hti : t ∈ L i := by rw [hL]; simp
  refine h.update (fun _ _ => rfl) (fun _ => ?_) fun j hj hlj y hy => ?_
  · refine hchain.insertAfter ?_ (update_self _ _ _) fun y hy => ?_
    · rw [update_of_ne (hne hi hti), update_self]
    · have hyi : y ∈ L i := by
        rw [hL]
        simp only [mem_append, mem_cons] at hy ⊢
        tauto
      have hyt : y ≠ t := by grind
      rw [update_of_ne (hne hi hyi), update_of_ne hyt]
  · rw [update_of_ne (hne hlj hy), update_of_ne]
    exact fun heq => hj (hs.disjoint j i t (heq ▸ hy) hti)

lemma append (hs : Separate L) (hi : linked i) (ht : (L i).getLast? = some t)
    (hx : Unlinked linked L x) :
    Chains linked (Function.update (Function.update next t (some x)) x none) head
      (Function.update L i (L i ++ [x])) := by
  obtain ⟨l, hL⟩ := getLast?_eq_some_iff.mp ht
  have hchain := h i hi
  rw [hL] at hchain
  have hnext : next t = none := hchain.of_append
  have := h.insertAfter hs hi hL hx
  rw [hnext] at this
  rwa [hL, append_assoc]

end
end Chains
end LinkedLists
