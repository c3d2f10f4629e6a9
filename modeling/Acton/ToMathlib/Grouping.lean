import Mathlib.Tactic

/-!
# Groups under ordered keys

A finite map from ordered keys to lists, as the list of its bindings in ascending order of the
keys. `insertWith k v` puts the elements of `v` before those that the map has under `k`.

`Groups P m` says that `m` is such a map, that no group is empty, and that all elements of the group
under `k` satisfy `P k`.
-/

namespace Grouping
open List
open scoped List
variable {K α : Type*} [LinearOrder K]

def insertWith (k : K) (v : List α) : List (K × List α) → List (K × List α)
  | [] => [(k, v)]
  | (k', v') :: m =>
      if k < k' then (k, v) :: (k', v') :: m
      else if k = k' then (k, v ++ v') :: m
      else (k', v') :: insertWith k v m

variable {P : K → α → Prop} {k : K} {v : List α} {m : List (K × List α)}

/-- Nothing is lost and nothing is invented. -/
theorem perm_insertWith : (insertWith k v m).flatMap Prod.snd ~ v ++ m.flatMap Prod.snd := by
  induction m with
  | nil => simp [insertWith]
  | cons p m ih =>
    obtain ⟨k', v'⟩ := p
    unfold insertWith
    split_ifs
    · simp
    · simp
    · simp only [flatMap_cons]
      calc v' ++ (insertWith k v m).flatMap Prod.snd
          ~ v' ++ (v ++ m.flatMap Prod.snd) := ih.append_left v'
        _ = (v' ++ v) ++ m.flatMap Prod.snd := (append_assoc ..).symm
        _ ~ (v ++ v') ++ m.flatMap Prod.snd := perm_append_comm.append_right _
        _ = v ++ (v' ++ m.flatMap Prod.snd) := append_assoc ..

/-- A binding of the new map is an old one, or has the key `k` and the new elements, before the
old ones if there were any. -/
theorem mem_insertWith {p : K × List α} (hp : p ∈ insertWith k v m) :
    p ∈ m ∨ p.1 = k ∧ (p.2 = v ∨ ∃ v', (k, v') ∈ m ∧ p.2 = v ++ v') := by
  induction m with
  | nil => exact .inr (by simp_all [insertWith])
  | cons q m ih =>
    obtain ⟨k', v'⟩ := q
    unfold insertWith at hp
    split_ifs at hp with hlt heq
    · rcases mem_cons.mp hp with rfl | hp
      · exact .inr ⟨rfl, .inl rfl⟩
      · exact .inl hp
    · subst heq
      rcases mem_cons.mp hp with rfl | hp
      · exact .inr ⟨rfl, .inr ⟨v', by simp, rfl⟩⟩
      · exact .inl (mem_cons_of_mem _ hp)
    · rcases mem_cons.mp hp with rfl | hp
      · exact .inl (by simp)
      · rcases ih hp with hmem | ⟨hk, hv | ⟨w, hw, hv⟩⟩
        · exact .inl (mem_cons_of_mem _ hmem)
        · exact .inr ⟨hk, .inl hv⟩
        · exact .inr ⟨hk, .inr ⟨w, mem_cons_of_mem _ hw, hv⟩⟩

structure Groups (P : K → α → Prop) (m : List (K × List α)) : Prop where
  ascending : m.Pairwise fun p q => p.1 < q.1
  ne_nil : ∀ p ∈ m, p.2 ≠ []
  mem : ∀ p ∈ m, ∀ a ∈ p.2, P p.1 a

namespace Groups

lemma nil : Groups P [] := ⟨.nil, by simp, by simp⟩

lemma insertWith (h : Groups P m) (hv : v ≠ []) (hP : ∀ a ∈ v, P k a) :
    Groups P (insertWith k v m) where
  ascending := by
    have hasc := h.ascending
    clear h
    induction m with
    | nil => simp [Grouping.insertWith]
    | cons q m ih =>
      obtain ⟨k', v'⟩ := q
      obtain ⟨hq, hm⟩ := pairwise_cons.mp hasc
      unfold Grouping.insertWith
      split_ifs with hlt heq
      · refine pairwise_cons.mpr ⟨fun p hp => ?_, hasc⟩
        rcases mem_cons.mp hp with rfl | hp
        · exact hlt
        · exact hlt.trans (hq p hp)
      · subst heq
        exact pairwise_cons.mpr ⟨hq, hm⟩
      · refine pairwise_cons.mpr ⟨fun p hp => ?_, ih hm⟩
        rcases mem_insertWith hp with hp | ⟨hk, -⟩
        · exact hq p hp
        · rw [hk]
          exact lt_of_le_of_ne (not_lt.mp hlt) (Ne.symm heq)
  ne_nil p hp := by
    rcases mem_insertWith hp with hp | ⟨-, hp | ⟨w, -, hp⟩⟩
    · exact h.ne_nil p hp
    · rwa [hp]
    · simp [hp, hv]
  mem p hp a ha := by
    rcases mem_insertWith hp with hp | ⟨hk, hp | ⟨w, hw, hp⟩⟩
    · exact h.mem p hp a ha
    · rw [hk]
      exact hP a (hp ▸ ha)
    · rw [hk]
      rw [hp] at ha
      rcases mem_append.mp ha with ha | ha
      · exact hP a ha
      · exact h.mem _ hw a ha

/-- The groups of elements that determine their key have nothing to do with each other. -/
theorem pairwise (h : Groups P m) :
    (m.map Prod.snd).Pairwise fun g g' => ∃ k k', k ≠ k' ∧ (∀ a ∈ g, P k a) ∧ ∀ a ∈ g', P k' a := by
  rw [pairwise_map]
  refine h.ascending.imp_of_mem fun {p q} hp hq hlt => ?_
  exact ⟨p.1, q.1, hlt.ne, h.mem p hp, h.mem q hq⟩

end Groups
end Grouping
