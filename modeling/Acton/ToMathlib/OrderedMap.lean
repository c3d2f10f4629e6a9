import Mathlib.Tactic

/-!
# Insertion-ordered finite maps

A finite map whose keys are compared by `eq`, as the list of its items in the order in which their
keys came in. A key that is stored again keeps its place and its first representative.
-/

namespace OrderedMap
open List Option
variable {K V : Type*} (eq : K → K → Bool)

def lookup (m : List (K × V)) (k : K) : Option V := (m.find? fun p => eq k p.1).map Prod.snd

def insert (m : List (K × V)) (k : K) (v : V) : List (K × V) :=
  if m.any fun p => eq k p.1 then m.map fun p => if eq k p.1 then (p.1, v) else p
  else m ++ [(k, v)]

def erase (m : List (K × V)) (k : K) : List (K × V) := m.filter fun p => !eq k p.1

variable {eq} {m l r : List (K × V)} {k k' : K} {v v' : V}
section Absent
variable (h : ∀ p ∈ m, ¬ eq k p.1)
include h

lemma lookup_absent : lookup eq m k = none := by
  rw [lookup, find?_eq_none.mpr h, map_none]

lemma insert_absent : insert eq m k v = m ++ [(k, v)] := by
  rw [insert, if_neg]
  simpa using h

lemma erase_absent : erase eq m k = m := filter_eq_self.mpr fun p hp => by simpa using h p hp

end Absent
section Present
variable (hl : ∀ p ∈ l, ¬ eq k p.1) (hk : eq k k')
include hl hk

lemma lookup_present : lookup eq (l ++ (k', v) :: r) k = some v := by
  simp [lookup, find?_append, find?_eq_none.mpr hl, hk]

variable (hr : ∀ p ∈ r, ¬ eq k p.1)
include hr

lemma insert_present : insert eq (l ++ (k', v) :: r) k v' = l ++ (k', v') :: r := by
  have hmap {m : List (K × V)} (hm : ∀ p ∈ m, ¬ eq k p.1) :
      (m.map fun p => if eq k p.1 then (p.1, v') else p) = m :=
    (map_congr_left fun p hp => if_neg (hm p hp)).trans (map_id m)
  rw [insert, if_pos (by simp [hk]), map_append, map_cons, hmap hl, hmap hr, if_pos hk]

lemma erase_present : erase eq (l ++ (k', v) :: r) k = l ++ r := by
  have hcons : erase eq ((k', v) :: r) k = erase eq r k := filter_cons_of_neg (by simp [hk])
  rw [erase, filter_append]
  exact congrArg₂ (· ++ ·) (erase_absent hl) (hcons.trans (erase_absent hr))

end Present

/-! ## Keys with decidable equality -/

section DecidableEq
variable [DecidableEq K]

lemma lookup_cons (p : K × V) (m : List (K × V)) (k : K) :
    lookup (· == ·) (p :: m) k = if k = p.1 then some p.2 else lookup (· == ·) m k := by
  unfold lookup
  by_cases h : k = p.1 <;> simp [h]

lemma mem_of_lookup {m : List (K × V)} {k : K} {v : V} (h : lookup (· == ·) m k = some v) :
    (k, v) ∈ m := by
  induction m with
  | nil => simp [lookup] at h
  | cons p m ih =>
    rw [lookup_cons] at h
    split_ifs at h with hk
    · rw [hk, ← Option.some.inj h]
      exact mem_cons_self
    · exact mem_cons_of_mem p (ih h)

section
variable (m : List (K × V)) (k k' : K) (v : V)

lemma lookup_append_singleton (h : ∀ p ∈ m, k ≠ p.1) :
    lookup (· == ·) (m ++ [(k, v)]) k' = if k' = k then some v else lookup (· == ·) m k' := by
  induction m with
  | nil => rw [nil_append, lookup_cons]
  | cons p m ih =>
    rw [cons_append, lookup_cons, lookup_cons, ih fun q hq => h q (mem_cons_of_mem p hq)]
    have := h p mem_cons_self
    grind

lemma lookup_map : lookup (· == ·) (m.map fun p => if k == p.1 then (p.1, v) else p) k' =
      if k' = k then (lookup (· == ·) m k).map fun _ => v else lookup (· == ·) m k' := by
  induction m with
  | nil => simp [lookup]
  | cons p m ih =>
    rw [map_cons, lookup_cons, ih, lookup_cons, lookup_cons]
    by_cases h : k = p.1 <;> by_cases h' : k' = k <;> grind

lemma lookup_insert : lookup (· == ·) (insert (· == ·) m k v) k' =
      if k' = k then some v else lookup (· == ·) m k' := by
  unfold insert
  split_ifs with hany h h
  · obtain ⟨p, hp, hk⟩ := any_eq_true.mp hany
    have hsome : (lookup (· == ·) m k).isSome := by
      rw [lookup, isSome_map, find?_isSome]
      exact ⟨p, hp, hk⟩
    obtain ⟨w, hw⟩ := isSome_iff_exists.mp hsome
    rw [lookup_map, if_pos h, hw, map_some]
  · rw [lookup_map, if_neg h]
  all_goals
    rw [lookup_append_singleton m k k' v fun p hp hk =>
      hany (any_eq_true.mpr ⟨p, hp, by simp [hk]⟩)]
    simp [h]

end
end DecidableEq
end OrderedMap
