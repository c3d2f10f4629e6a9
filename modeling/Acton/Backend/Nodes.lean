import Acton.Backend.Skiplist
import Acton.ToMathlib.SortedNodes

/-!
# Skiplists with integer keys

The rest of the backend sees a skiplist through its functions, as the chain of its nodes at level 0.
The skiplists of `create_skiplist_long` compare keys with `longCmp`, which cuts the difference of
the keys to 32 bits. So it orders keys correctly only if they are less than `2 ^ 31` apart
(`Close`). For such keys a chain is a finite map, from keys to what is found (`find`), which the
functions search and change (`Chain`).
-/

namespace Acton.Backend
open SortedNodes List Option

/-- A word as a signed number, the cast to `int64_t`. -/
def toInt64 (w : WORD) : ℤ := w.toBitVec.toInt

/-- The cast of an `int64_t` to a word. -/
def ofInt64 (z : ℤ) : WORD := ⟨BitVec.ofInt 64 z⟩
def longCmp (a b : WORD) : ℤ := (toInt64 a - toInt64 b).bmod (2 ^ 32)

/-- The comparator for the functions of chains. It can always be called. -/
abbrev longCmp' (a b : WORD) : Option ℤ := some (longCmp a b)

section Functions
variable {V : Type}

/-- The node with the key. A node whose key is that of the header is never found. -/
def longSearch (key : WORD) (l : List (WORD × V)) : Option (Option ℕ) := do
  match ← search longCmp' key l with
  | none => some none
  | some p => some (if l[p]?.map Prod.fst = some longMax then none else some p)

def longSearchHigher (key : WORD) (l : List (WORD × V)) : Option (Option ℕ) :=
  searchHigher longCmp' key l

def longInsert (key : WORD) (value : V) (l : List (WORD × V)) : Option (List (WORD × V)) :=
  insert longCmp' key value l

/-- In an empty list the header is compared with the key, and freed if it has the same key. The list
cannot be used after that. -/
def longDelete (key : WORD) (l : List (WORD × V)) : Option (List (WORD × V) × Option V) :=
  if l.isEmpty ∧ longCmp longMax key = 0 then none else delete longCmp' key l

end Functions

lemma exists_longSearch {V : Type} (k : WORD) (l : List (WORD × V)) :
    ∃ r, longSearch k l = some r := by
  suffices h : ∃ r, search longCmp' k l = some r by
    obtain ⟨r, hr⟩ := h
    rw [longSearch, hr]
    cases r with
    | none => exact ⟨_, rfl⟩
    | some p => exact ⟨_, rfl⟩
  rw [search]
  simp only [longCmp', map_some, skip_some, bind_eq_bind, bind_some]
  have hle : (l.takeWhile fun n => decide (longCmp n.1 k ≤ 0)).length ≤ l.length :=
    (List.takeWhile_prefix _).length_le
  generalize (l.takeWhile fun n => decide (longCmp n.1 k ≤ 0)).length = i at hle
  cases i with
  | zero => exact ⟨_, rfl⟩
  | succ i =>
    simp only [getElem?_eq_getElem (Nat.lt_of_succ_le hle), bind_some]
    split <;> exact ⟨_, rfl⟩

lemma longSearchHigher_eq {V : Type} (k : WORD) (l : List (WORD × V)) : longSearchHigher k l = some
      (if (l.takeWhile fun n => longCmp n.1 k < 0).length < l.length then
        some (l.takeWhile fun n => longCmp n.1 k < 0).length else none) := by
  rw [longSearchHigher, SortedNodes.searchHigher]
  simp only [longCmp', map_some, skip_some, bind_eq_bind, bind_some]

lemma toInt64_injective : Function.Injective toInt64 := fun _ _ h =>
  UInt64.toBitVec_inj.mp (BitVec.toInt_inj.mp h)

lemma toInt64_ofInt64 {z : ℤ} (h1 : -2 ^ 63 ≤ z) (h2 : z < 2 ^ 63) : toInt64 (ofInt64 z) = z := by
  rw [toInt64, ofInt64, BitVec.toInt_ofInt]
  exact Int.bmod_eq_of_le (by omega) (by omega)

/-- Keys that are less than `2 ^ 31` apart, and of which none is the key of the header. -/
structure Close (S : Set WORD) : Prop where
  ne_longMax : ∀ k ∈ S, k ≠ longMax
  sub_lt : ∀ a ∈ S, ∀ b ∈ S, toInt64 a - toInt64 b < 2 ^ 31

lemma Close.ranked {S : Set WORD} (h : Close S) : Ranked longCmp' toInt64 S := by
  intro a ha b hb
  have := h.sub_lt a ha b hb
  have := h.sub_lt b hb a ha
  have hcmp : longCmp a b = toInt64 a - toInt64 b := Int.bmod_eq_of_le (by omega) (by omega)
  exact ⟨toInt64 a - toInt64 b, congrArg some hcmp, by omega, by omega⟩

/-- The nodes are in the order of their keys, which are in `S`. -/
structure Chain {V : Type} (S : Set WORD) (l : List (WORD × V)) : Prop where
  sorted : Sorted toInt64 l
  mem : ∀ n ∈ l, n.1 ∈ S

/-- The value at a key. -/
def find {V : Type} (l : List (WORD × V)) (k : WORD) : Option V := lookup toInt64 l (toInt64 k)

namespace Chain
variable {S : Set WORD} {V : Type} {l : List (WORD × V)} {k : WORD} {v v' : V} {p : ℕ}

lemma nil : Chain S ([] : List (WORD × V)) := ⟨List.Pairwise.nil, by simp⟩
lemma singleton (hk : k ∈ S) : Chain S [(k, v)] := ⟨pairwise_singleton _ _, by simpa using hk⟩

/-- Put a node with the key in the middle of a cut, or none. -/
theorem of_cut {as bs : List (WORD × V)} {m m' : Option (WORD × V)} (h : Chain S l)
    (hcut : Cut toInt64 (toInt64 k) l as m bs) (hk : k ∈ S) (hm : ∀ n ∈ m', n.1 = k) :
    Chain S (as ++ m'.toList ++ bs) := by
  refine ⟨h.sorted.of_cut hcut fun n hn => by rw [hm n hn], fun n hn => ?_⟩
  have hmem : ∀ n ∈ as ++ bs, n.1 ∈ S := fun n hn => h.mem n (by
    rw [hcut.eq]
    rcases mem_append.mp hn with hn | hn <;> simp [hn])
  simp only [mem_append, mem_toList] at hn hmem
  rcases hn with (hn | hn) | hn
  · exact hmem n (.inl hn)
  · rw [hm n hn]
    exact hk
  · exact hmem n (.inr hn)

lemma find_of_cut {as bs : List (WORD × V)} {m m' : Option (WORD × V)}
    (hcut : Cut toInt64 (toInt64 k) l as m bs) (hm : ∀ n ∈ m', n.1 = k) (k' : WORD) :
    find (as ++ m'.toList ++ bs) k' = if k' = k then m'.map Prod.snd else find l k' := by
  have hm' : ∀ n ∈ m', toInt64 n.1 = toInt64 k := fun n hn => by rw [hm n hn]
  split
  · next heq =>
    have hcut' : Cut toInt64 (toInt64 k) (as ++ m'.toList ++ bs) as m' bs :=
      ⟨rfl, hcut.lt, hm', hcut.gt⟩
    rw [heq, find, hcut'.lookup]
  · next hne => exact hcut.lookup_of_ne hm' fun h => hne (toInt64_injective h)

section
variable (h : Chain S l) (hS : Close S) (hk : k ∈ S)
include h hS hk

lemma search_cases : (find l k = none ∧ longSearch k l = some none) ∨
      ∃ p v, find l k = some v ∧ longSearch k l = some (some p) ∧ l[p]? = some (k, v) := by
  obtain ⟨as, m, bs, hcut⟩ := h.sorted.exists_cut (toInt64 k)
  have hfind : find l k = m.map Prod.snd := hcut.lookup
  have hsearch := hcut.search hS.ranked h.mem hk
  cases m with
  | none =>
    refine .inl ⟨hfind, ?_⟩
    rw [longSearch, hsearch]
    rfl
  | some n =>
    have hn : l[as.length]? = some n := by simp [hcut.eq]
    have hkey : n.1 = k := toInt64_injective (hcut.mid n rfl)
    refine .inr ⟨as.length, n.2, hfind, ?_, by rw [hn, ← hkey]⟩
    rw [longSearch, hsearch]
    simp [hn, hkey, hS.ne_longMax k hk]

lemma search_of_find (hfind : find l k = some v) :
    ∃ p, longSearch k l = some (some p) ∧ l[p]? = some (k, v) := by
  obtain ⟨p, v', hsome, hp⟩ := (h.search_cases hS hk).resolve_left (by simp [hfind])
  rw [hfind] at hsome
  cases hsome
  exact ⟨p, hp⟩

/-- The nodes from the first key on that is not less. -/
theorem searchHigher :
    ∃ start, longSearchHigher k l = some start ∧ Sorted toInt64 (start.elim [] l.drop) ∧
      ∀ n, n ∈ start.elim [] l.drop ↔ n ∈ l ∧ toInt64 k ≤ toInt64 n.1 := by
  obtain ⟨as, m, bs, hcut⟩ := h.sorted.exists_cut (toInt64 k)
  refine ⟨_, hcut.searchHigher hS.ranked h.mem hk, ?_⟩
  have hnodes :
    (if m.toList ++ bs = [] then none else some as.length).elim [] l.drop = m.toList ++ bs := by
    split
    · next hnil => rw [hnil, elim_none]
    · rw [elim_some, hcut.eq, append_assoc, drop_left]
  have hsorted := h.sorted
  rw [hcut.eq, append_assoc] at hsorted
  rw [hnodes]
  refine ⟨(pairwise_append.mp hsorted).2.1, fun n => ?_⟩
  rw [hcut.eq, append_assoc, mem_append (s := as)]
  constructor
  · intro hn
    exact ⟨.inr hn, hcut.le_of_mem hn⟩
  · rintro ⟨hn | hn, hle⟩
    · exact absurd (hcut.lt n hn) (not_lt.mpr hle)
    · exact hn

lemma insert (v : V) : ∃ l', longInsert k v l = some l' ∧ Chain S l' ∧
      ∀ k', find l' k' = if k' = k then some v else find l k' := by
  obtain ⟨as, m, bs, hcut⟩ := h.sorted.exists_cut (toInt64 k)
  have hkey : (m.map Prod.fst).getD k = k := by
    cases m with
    | none => rfl
    | some n => exact toInt64_injective (hcut.mid n rfl)
  have heq : as ++ (k, v) :: bs = as ++ (some (k, v)).toList ++ bs := by simp
  have hm : ∀ n ∈ some (k, v), n.1 = k := by simp
  refine ⟨as ++ (k, v) :: bs, ?_, ?_, fun k' => ?_⟩
  · rw [longInsert, hcut.insert hS.ranked h.mem hk, hkey]
  · rw [heq]
    exact h.of_cut hcut hk hm
  · rw [heq, find_of_cut hcut hm]
    rfl

end

lemma set (h : Chain S l) (hp : l[p]? = some (k, v)) (v' : V) :
    Chain S (l.set p (k, v')) ∧ ∀ k', find (l.set p (k, v')) k' = if k' =
      k then some v' else find l k' := by
  obtain ⟨hlt, hget⟩ := List.getElem?_eq_some_iff.mp hp
  -- the node at `p` cuts the chain
  have hl : l = l.take p ++ (some (k, v)).toList ++ l.drop (p + 1) := by
    rw [toList_some, append_assoc, singleton_append, ← hget,
      ← drop_eq_getElem_cons hlt, take_append_drop]
  have hset : l.set p (k, v') = l.take p ++ (some (k, v')).toList ++ l.drop (p + 1) := by
    rw [set_eq_take_append_cons_drop, if_pos hlt]
    simp
  have hsorted := h.sorted
  rw [hl] at hsorted
  obtain ⟨h1, -, h2⟩ := pairwise_append.mp hsorted
  obtain ⟨-, -, h3⟩ := pairwise_append.mp h1
  have hcut : Cut toInt64 (toInt64 k) l (l.take p) (some (k, v)) (l.drop (p + 1)) :=
    ⟨hl, fun n hn => h3 n hn (k, v) (by simp), by simp, fun n hn => h2 (k, v) (by simp) n hn⟩
  have hm : ∀ n ∈ some (k, v'), n.1 = k := by simp
  rw [hset]
  exact ⟨h.of_cut hcut (h.mem _ (mem_of_getElem? hp)) hm, fun k' => find_of_cut hcut hm k'⟩

lemma find_set_self (h : Chain S l) (hp : l[p]? = some (k, v)) (v' : V) :
    find (l.set p (k, v')) k = some v' :=
  ((h.set hp v').2 k).trans (if_pos rfl)

lemma set_self (hp : l[p]? = some (k, v)) : l.set p (k, v) = l := by
  obtain ⟨hlt, hget⟩ := List.getElem?_eq_some_iff.mp hp
  rw [← hget, set_getElem_self]

lemma find_of_mem (h : Chain S l) (hmem : (k, v) ∈ l) : find l k = some v := by
  obtain ⟨p, hp⟩ := mem_iff_getElem?.mp hmem
  have hset := h.find_set_self hp v
  rwa [set_self hp] at hset

lemma mem_of_find (hfind : find l k = some v) : (k, v) ∈ l := by
  obtain ⟨n, hn, rfl⟩ := map_eq_some_iff.mp hfind
  have hkey : n.1 = k := toInt64_injective (by simpa using find?_some hn)
  rw [← hkey]
  exact mem_of_find?_eq_some hn

lemma forall_of_find {P : V → Prop} {l' : List (WORD × V)} {o : Option V} (h : Chain S l')
    (hfind : ∀ k', find l' k' = if k' = k then o else find l k') (ho : ∀ v ∈ o, P v)
    (hl : ∀ n ∈ l, P n.2) : ∀ n ∈ l', P n.2 := by
  intro n hn
  have hn' := h.find_of_mem hn
  rw [hfind] at hn'
  split at hn'
  · exact ho _ hn'
  · exact hl _ (mem_of_find hn')

lemma delete (h : Chain S l) (hS : Close S) (hk : k ∈ S) (hne : l = [] → longCmp longMax k ≠ 0) :
    ∃ l', longDelete k l = some (l', find l k) ∧ Chain S l' ∧
      ∀ k', find l' k' = if k' = k then none else find l k' := by
  obtain ⟨as, m, bs, hcut⟩ := h.sorted.exists_cut (toInt64 k)
  have heq : as ++ bs = as ++ (none : Option (WORD × V)).toList ++ bs := by simp
  have hm : ∀ n ∈ (none : Option (WORD × V)), n.1 = k := by simp
  refine ⟨as ++ bs, ?_, ?_, fun k' => ?_⟩
  · have hfind : find l k = m.map Prod.snd := hcut.lookup
    rw [longDelete, if_neg (fun hc => hne (isEmpty_iff.mp hc.1) hc.2), hfind]
    exact hcut.delete hS.ranked h.mem hk
  · rw [heq]
    exact h.of_cut hcut hk hm
  · rw [heq, find_of_cut hcut hm]
    rfl

end Chain

/-- The keys from 0 to 15. -/
def smallKeys : Set WORD := {k | 0 ≤ toInt64 k ∧ toInt64 k < 16}

instance : DecidablePred (· ∈ smallKeys) := fun k =>
  inferInstanceAs (Decidable (0 ≤ toInt64 k ∧ toInt64 k < 16))

lemma forall_mem_smallKeys {l : List WORD} (h : l.all (fun k => decide (k ∈ smallKeys)) = true) :
    ∀ k ∈ l, k ∈ smallKeys := by
  simpa using h

lemma close_smallKeys : Close smallKeys where
  ne_longMax := by
    rintro k ⟨-, hk⟩ rfl
    exact absurd hk (by decide)
  sub_lt a ha b hb := by
    obtain ⟨-, ha⟩ := ha
    obtain ⟨hb, -⟩ := hb
    omega

end Acton.Backend
