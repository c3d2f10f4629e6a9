import Mathlib.Tactic

/-!
# Finite maps as partial functions

The operations of a finite-map library on functions `K → Option V`, with the value that a fold of
each of them leaves at a key.
-/

namespace List
open List
variable {K V : Type*}
section Lookup
variable [BEq K] [LawfulBEq K]

/-- In a list of bindings of distinct keys, each binding is the one that is looked up. -/
theorem lookup_of_mem {l : List (K × V)} (hl : (l.map Prod.fst).Nodup) {k : K} {v : V}
    (h : (k, v) ∈ l) : l.lookup k = some v := by
  induction l with
  | nil => simp at h
  | cons p l ih =>
    obtain ⟨hp, hl⟩ := nodup_cons.mp hl
    rcases mem_cons.mp h with rfl | h
    · simp
    · have hne : k ≠ p.1 := fun heq => hp (heq ▸ mem_map_of_mem h)
      rw [lookup_cons, beq_false_of_ne hne]
      exact ih hl h

lemma mem_of_lookup_eq_some {l : List (K × V)} {k : K} {v : V} (h : l.lookup k = some v) :
    (k, v) ∈ l := by
  obtain ⟨l1, l2, rfl, -⟩ := lookup_eq_some_iff.mp h
  exact mem_append_right l1 mem_cons_self

/-- Filtering a list of bindings by their keys. -/
theorem lookup_filter_fst (q : K → Bool) (l : List (K × V)) (k : K) :
    (l.filter fun p => q p.1).lookup k = if q k then l.lookup k else none := by
  induction l with
  | nil => simp
  | cons p l ih =>
    obtain ⟨j, v⟩ := p
    by_cases hk : k = j
    · subst hk
      cases hq : q k <;> simp [hq, ih]
    · cases hq : q j <;> simp [hq, ih, lookup_cons, beq_false_of_ne hk]

end Lookup
variable [DecidableEq K]

/-- Bind a key in a list of bindings, replacing an old binding. -/
def insertKey (k : K) (v : V) (l : List (K × V)) : List (K × V) :=
  (k, v) :: l.filter fun p => p.1 ≠ k

lemma lookup_insertKey [BEq K] [LawfulBEq K] (k j : K) (v : V) (l : List (K × V)) :
    (l.insertKey k v).lookup j = if j = k then some v else l.lookup j := by
  by_cases hj : j = k
  · simp [insertKey, hj]
  · rw [insertKey, lookup_cons, beq_false_of_ne hj, if_neg hj]
    refine (lookup_filter_fst (fun x => decide (x ≠ k)) l j).trans ?_
    simp [hj]

lemma nodup_map_fst_insertKey (k : K) (v : V) {l : List (K × V)}
    (hl : (l.map Prod.fst).Nodup) : ((l.insertKey k v).map Prod.fst).Nodup := by
  rw [insertKey, map_cons, nodup_cons]
  exact ⟨by simp, hl.sublist (filter_sublist.map _)⟩

end List

/-- A map from keys to values. -/
abbrev Map (K V : Type*) := K → Option V

namespace Map
variable {K V : Type*} [DecidableEq K]

/-- The map with no entry. -/
def empty : Map K V := fun _ => none

/-- Bind a key, replacing an old value. -/
def insert (k : K) (v : V) (m : Map K V) : Map K V := Function.update m k (some v)

/-- Remove a key. -/
def erase (k : K) (m : Map K V) : Map K V := Function.update m k none

/-- Bind a key, combining the new value with an old one. -/
def insertWith (f : V → V → V) (k : K) (v : V) (m : Map K V) : Map K V :=
  Function.update m k (some (match m k with | none => v | some old => f v old))

/-- Change the value at a key that is bound. -/
def adjust (f : V → V) (k : K) (m : Map K V) : Map K V := Function.update m k ((m k).map f)

/-- The value at a key, or a default. -/
def findWithDefault (d : V) (k : K) (m : Map K V) : V := (m k).getD d

/-- The map that a list of bindings describes, the last one of a key counting. -/
def fromList (l : List (K × V)) : Map K V := l.foldl (fun m p => m.insert p.1 p.2) empty

@[simp]
lemma insert_self (k : K) (v : V) (m : Map K V) : m.insert k v k = some v := by
  simp [insert]

lemma insert_of_ne {k j : K} (h : j ≠ k) (v : V) (m : Map K V) : m.insert k v j = m j := by
  simp [insert, h]

@[simp]
lemma erase_self (k : K) (m : Map K V) : m.erase k k = none := by
  simp [erase]

lemma erase_of_ne {k j : K} (h : j ≠ k) (m : Map K V) : m.erase k j = m j := by
  simp [erase, h]

lemma isSome_insert (k j : K) (v : V) (m : Map K V) :
    (m.insert k v j).isSome ↔ j = k ∨ (m j).isSome := by
  by_cases h : j = k
  · simp [h]
  · simp [insert_of_ne h, h]

lemma adjust_apply (f : V → V) (k j : K) (m : Map K V) :
    m.adjust f k j = if j = k then (m j).map f else m j := by
  by_cases h : j = k
  · subst h
    simp [adjust]
  · simp [adjust, h]

/-- Adjusting a list of distinct keys changes the value at each of them once. -/
theorem foldl_adjust_apply (f : V → V) {ks : List K} (hks : ks.Nodup) (m : Map K V) (j : K) :
    ks.foldl (fun m k => m.adjust f k) m j = if j ∈ ks then (m j).map f else m j := by
  induction ks generalizing m with
  | nil => simp
  | cons k ks ih =>
    obtain ⟨hk, hks⟩ := List.nodup_cons.mp hks
    rw [List.foldl_cons, ih hks, adjust_apply]
    by_cases hjk : j = k
    · subst hjk
      simp [hk]
    · simp [hjk]

lemma foldl_insert_of_notMem {l : List (K × V)} {k : K} (h : k ∉ l.map Prod.fst)
    (m : Map K V) : l.foldl (fun m p => m.insert p.1 p.2) m k = m k := by
  induction l generalizing m with
  | nil => rfl
  | cons p l ih =>
    rw [List.map_cons, List.mem_cons, not_or] at h
    rw [List.foldl_cons, ih h.2, insert_of_ne h.1]

lemma fromList_of_mem {l : List (K × V)} (hl : (l.map Prod.fst).Nodup) {k : K} {v : V}
    (h : (k, v) ∈ l) : fromList l k = some v := by
  obtain ⟨l1, l2, rfl⟩ := List.append_of_mem h
  have hk : k ∉ l2.map Prod.fst := by
    rw [List.map_append, List.map_cons, List.nodup_middle, List.nodup_cons] at hl
    exact fun hk => hl.1 (List.mem_append_right _ hk)
  rw [fromList, List.foldl_append, List.foldl_cons, foldl_insert_of_notMem hk, insert_self]

section Reverse
variable {W : Type*}

/-- Prepending one value at each of a list of distinct keys. -/
theorem foldl_insertWith_append {ks : List K} (hks : ks.Nodup) (v : W) (m : Map K (List W))
    (j : K) :
    (ks.foldl (fun m k => m.insertWith (· ++ ·) k [v]) m).findWithDefault [] j
      = if j ∈ ks then v :: m.findWithDefault [] j else m.findWithDefault [] j := by
  induction ks generalizing m with
  | nil => simp
  | cons k ks ih =>
    obtain ⟨hk, hks⟩ := List.nodup_cons.mp hks
    rw [List.foldl_cons, ih hks]
    by_cases hjk : j = k
    · subst hjk
      cases hm : m j <;> simp [hk, findWithDefault, insertWith, hm]
    · simp [hjk, findWithDefault, insertWith]

/-- Reversing a list of adjacency lists: the entry of `j` holds the nodes whose list has `j`. -/
theorem foldl_foldl_insertWith {l : List (W × List K)} (hl : ∀ p ∈ l, p.2.Nodup)
    (m : Map K (List W)) (j : K) :
    (l.foldl (fun m p => p.2.foldl (fun m k => m.insertWith (· ++ ·) k [p.1]) m) m).findWithDefault
        [] j
      = ((l.filter (j ∈ ·.2)).map Prod.fst).reverse ++ m.findWithDefault [] j := by
  induction l generalizing m with
  | nil => simp
  | cons p l ih =>
    rw [List.foldl_cons, ih fun q hq => hl q (by simp [hq]),
      foldl_insertWith_append (hl p (by simp))]
    by_cases hj : j ∈ p.2 <;> simp [hj]

end Reverse
end Map
