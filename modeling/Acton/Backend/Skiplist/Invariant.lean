import Acton.Backend.Skiplist

/-!
# The invariant of skiplists

The nodes of a list are towers of some height, in the order of their keys. `Inv cmp s ts` says that
the heap holds the towers `ts`: at each level the links go, from the header, through the towers that
are high enough (`levelList`). The lemmas about the loops say what they do to the links of each
level and that they leave everything else as it is (`Frame`).
-/

namespace Acton.Backend
open Skiplist List Option

/-- The keys that are not the sentinel of the header. -/
def IsKey (k : WORD) : Prop := k ≠ longMax

/-- The comparator is a total order on the keys, up to keys that it takes to be equal. Nothing is
said about the sentinel. -/
structure TotalCmp (cmp : WORD → WORD → ℤ) : Prop where
  symm : ∀ a b, IsKey a → IsKey b → (cmp a b < 0 ↔ 0 < cmp b a)
  trans : ∀ a b c, IsKey a → IsKey b → IsKey c → cmp a b ≤ 0 → cmp b c ≤ 0 → cmp a c ≤ 0

namespace TotalCmp
variable {cmp : WORD → WORD → ℤ} (h : TotalCmp cmp) {a b c : WORD} (ha : IsKey a) (hb : IsKey b)
  (hc : IsKey c)
include h ha hb

lemma eq_zero_comm : cmp a b = 0 ↔ cmp b a = 0 := by
  have := h.symm a b ha hb
  have := h.symm b a hb ha
  omega

lemma le_zero_iff : cmp a b ≤ 0 ↔ 0 ≤ cmp b a := by
  have := h.symm a b ha hb
  have := h.symm b a hb ha
  omega

omit hb in
lemma self : cmp a a = 0 := by
  have := h.symm a a ha ha
  omega

include hc

lemma eq_zero_trans (hab : cmp a b = 0) (hbc : cmp b c = 0) : cmp a c = 0 := by
  have hba := (h.eq_zero_comm ha hb).mp hab
  have hcb := (h.eq_zero_comm hb hc).mp hbc
  have := h.trans a b c ha hb hc (by omega) (by omega)
  have := h.trans c b a hc hb ha (by omega) (by omega)
  have := h.le_zero_iff hc ha
  omega

lemma lt_of_lt_of_le (hab : cmp a b < 0) (hbc : cmp b c ≤ 0) : cmp a c < 0 := by
  by_contra hac
  have hca : cmp c a ≤ 0 := (h.le_zero_iff hc ha).mpr (Int.not_lt.mp hac)
  have hba := h.trans b c a hb hc ha hbc hca
  have := (h.symm a b ha hb).mp hab
  omega

lemma lt_of_le_of_lt (hab : cmp a b ≤ 0) (hbc : cmp b c < 0) : cmp a c < 0 := by
  by_contra hac
  have hca : cmp c a ≤ 0 := (h.le_zero_iff hc ha).mpr (Int.not_lt.mp hac)
  have hcb := h.trans c a b hc ha hb hca hab
  have := (h.symm b c hb hc).mp hbc
  omega

end TotalCmp

/-! ## Reading and writing links -/

namespace Skiplist
variable {s s' s'' : Skiplist} {i j : ℕ} {x y : Addr}

/-- The key and the value of a node. -/
def data (s : Skiplist) (x : Addr) : Option (WORD × WORD) :=
  (s.heap x).map fun nd => (nd.key, nd.value)

lemma key_eq_map_data (s : Skiplist) (x : Addr) : s.key x = (s.data x).map Prod.fst := by
  simp [key, data, Function.comp_def]

lemma key_eq_of_data {k v : WORD} (h : s.data x = some (k, v)) : s.key x = some k := by
  rw [key_eq_map_data, h, map_some]

/-- Only links differ. -/
structure Frame (s s' : Skiplist) : Prop where
  level : s'.level = s.level
  header : s'.header = s.header
  noItems : s'.noItems = s.noItems
  brk : s'.brk = s.brk
  data : ∀ y, s'.data y = s.data y

lemma Frame.refl (s : Skiplist) : Frame s s := ⟨rfl, rfl, rfl, rfl, fun _ => rfl⟩

lemma Frame.trans (h : Frame s s') (h' : Frame s' s'') : Frame s s'' :=
  ⟨h'.level.trans h.level, h'.header.trans h.header, h'.noItems.trans h.noItems,
    h'.brk.trans h.brk, fun y => (h'.data y).trans (h.data y)⟩

/-- A link that can be read can be written, and no other link changes. -/
theorem exists_setFwd (h : (s.fwd i x).isSome) (q : Option Addr) :
    ∃ s', s.setFwd x i q = some s' ∧ Frame s s' ∧
      ∀ j y, s'.fwd j y = if j = i ∧ y = x then some q else s.fwd j y := by
  obtain ⟨p, hp⟩ := isSome_iff_exists.mp h
  simp only [fwd, bind_eq_bind, bind_eq_some_iff] at hp
  obtain ⟨nd, hnd, hnp⟩ := hp
  have hlt : i < nd.forward.length := (List.getElem?_eq_some_iff.mp hnp).1
  refine ⟨s.setNode x { nd with forward := nd.forward.set i q }, by simp [setFwd, hnd, hlt],
    ⟨rfl, rfl, rfl, rfl, fun y => ?_⟩, fun j y => ?_⟩
  · by_cases hy : y = x
    · subst hy
      simp [Skiplist.data, setNode, hnd]
    · simp [Skiplist.data, setNode, hy]
  · by_cases hy : y = x
    · subst hy
      by_cases hj : j = i
      · subst hj
        simp [fwd, setNode, hlt]
      · simp [fwd, setNode, hnd, hj, getElem?_set_ne (Ne.symm hj)]
    · simp [fwd, setNode, hy]

/-- From level `i` on, the links `f` of one level after the other become `G f u`, with the nodes `u`
of `us`. -/
structure Relinked (G : (Addr → Option (Option Addr)) → Addr → Addr → Option (Option Addr)) (i : ℕ)
    (us : List Addr) (s s' : Skiplist) : Prop where
  frame : Frame s s'
  same : ∀ j y, j < i ∨ i + us.length ≤ j → s'.fwd j y = s.fwd j y
  linked : ∀ j u, us[j]? = some u → ∀ y, s'.fwd (i + j) y = G (s.fwd (i + j)) u y

lemma Relinked.cons {G : (Addr → Option (Option Addr)) → Addr → Addr → Option (Option Addr)}
    {u : Addr} {us : List Addr} (h : Relinked G (i + 1) us s' s'') (hframe : Frame s s')
    (habove : ∀ j, j ≠ i → s'.fwd j = s.fwd j) (hi : ∀ y, s'.fwd i y = G (s.fwd i) u y) :
    Relinked G i (u :: us) s s'' where
  frame := hframe.trans h.frame
  same j y hj := by
    rw [length_cons] at hj
    rw [h.same j y (by omega), habove j (by omega)]
  linked j u' hu' y := by
    cases j with
    | zero =>
      obtain rfl : u = u' := by simpa using hu'
      rw [Nat.add_zero, h.same i y (by omega), hi]
    | succ j =>
      have := h.linked j u' (by simpa using hu') y
      rwa [show i + 1 + j = i + (j + 1) by omega, habove _ (by omega)] at this

lemma exists_linkLevels (us : List Addr) (hx : ∀ j < us.length, (s.fwd (i + j) x).isSome)
    (hus : ∀ j u, us[j]? = some u → u ≠ x ∧ (s.fwd (i + j) u).isSome) :
    ∃ s', linkLevels x i us s = some s' ∧ Relinked (fun f u y =>
      if y = x then f u else if y = u then some (some x) else f y) i us s s' := by
  induction us generalizing i s with
  | nil => exact ⟨s, rfl, .refl s, fun _ _ _ => rfl, by simp⟩
  | cons u us ih =>
    obtain ⟨hux, hu⟩ : u ≠ x ∧ (s.fwd i u).isSome := hus 0 u rfl
    obtain ⟨q, hq⟩ := isSome_iff_exists.mp hu
    have hx0 : (s.fwd i x).isSome := hx 0 (by simp)
    obtain ⟨s1, hs1, hframe1, hfwd1⟩ := exists_setFwd hx0 q
    have hu1 : (s1.fwd i u).isSome := by
      rw [hfwd1, if_neg fun h => hux h.2]
      exact hu
    obtain ⟨s2, hs2, hframe2, hfwd2⟩ := exists_setFwd hu1 (some x)
    -- the links of the levels above have not changed yet
    have habove (j : ℕ) (hj : j ≠ i) : s2.fwd j = s.fwd j := by
      funext y
      rw [hfwd2, if_neg fun h => hj h.1, hfwd1, if_neg fun h => hj h.1]
    obtain ⟨s', hs', h⟩ := ih (i := i + 1) (s := s2)
      (fun j hj => by
        rw [habove _ (by omega), Nat.add_assoc, Nat.add_comm 1]
        exact hx (j + 1) (by simpa using hj))
      (fun j u' hu' => by
        rw [habove _ (by omega), Nat.add_assoc, Nat.add_comm 1]
        exact hus (j + 1) u' (by simpa using hu'))
    refine ⟨s', by simp [linkLevels, hq, hs1, hs2, hs'],
      h.cons (hframe1.trans hframe2) habove fun y => ?_⟩
    rw [hfwd2, hfwd1]
    by_cases hy : y = x
    · subst hy
      rw [if_neg fun h => hux h.2.symm, if_pos ⟨rfl, rfl⟩, if_pos rfl, hq]
    · by_cases hyu : y = u <;> simp [hy, hyu, hux]

/-- Taking a node out of the levels from `i` on: `us` has the nodes before it, and `vs` starts with
a node that it does not follow. -/
theorem exists_unlinkLevels (us vs : List Addr) (hus : ∀ j u, us[j]? = some u →
      u ≠ x ∧ s.fwd (i + j) u = some (some x) ∧ (s.fwd (i + j) x).isSome)
    (hvs : ∀ v ∈ vs.head?, ∃ q, s.fwd (i + us.length) v = some q ∧ q ≠ some x) :
    ∃ s', unlinkLevels x i (us ++ vs) s = some s' ∧
      Relinked (fun f u y => if y = u then f x else f y) i us s s' := by
  induction us generalizing i s with
  | nil =>
    refine ⟨s, ?_, .refl s, fun _ _ _ => rfl, by simp⟩
    cases vs with
    | nil => rfl
    | cons v vs =>
      obtain ⟨q, hq, hne⟩ : ∃ q, s.fwd i v = some q ∧ q ≠ some x := hvs v rfl
      simp [unlinkLevels, hq, hne]
  | cons u us ih =>
    obtain ⟨hux, hu, hx⟩ : u ≠ x ∧ s.fwd i u = some (some x) ∧ (s.fwd i x).isSome := hus 0 u rfl
    obtain ⟨q, hq⟩ := isSome_iff_exists.mp hx
    have hu0 : (s.fwd i u).isSome := by simp [hu]
    obtain ⟨s1, hs1, hframe1, hfwd1⟩ := exists_setFwd hu0 q
    have habove (j : ℕ) (hj : j ≠ i) : s1.fwd j = s.fwd j := by
      funext y
      rw [hfwd1, if_neg fun h => hj h.1]
    obtain ⟨s', hs', h⟩ := ih (i := i + 1) (s := s1)
      (fun j u' hu' => by
        rw [habove _ (by omega), Nat.add_assoc, Nat.add_comm 1]
        exact hus (j + 1) u' (by simpa using hu'))
      (fun v hv => by
        rw [habove _ (by omega), Nat.add_assoc, Nat.add_comm 1]
        exact hvs v hv)
    refine ⟨s', by simp [unlinkLevels, hu, hq, hs1, hs'], h.cons hframe1 habove fun y => ?_⟩
    rw [hfwd1, hq]
    simp

end Skiplist

/-! ## Towers -/

/-- A node with its height, the highest level that it is at. -/
structure Tower where
  addr : Addr
  key : WORD
  value : WORD
  height : ℕ

/-- The addresses of the towers that reach a level. -/
def levelList (ts : List Tower) (i : ℕ) : List Addr :=
  (ts.filter fun t => i ≤ t.height).map Tower.addr

@[simp]
lemma levelList_nil (i : ℕ) : levelList [] i = [] := rfl

@[simp]
lemma levelList_append (ts us : List Tower) (i : ℕ) :
    levelList (ts ++ us) i = levelList ts i ++ levelList us i := by
  simp [levelList]

variable {i : ℕ} {ts : List Tower}

lemma levelList_cons_of_le {t : Tower} (h : i ≤ t.height) :
    levelList (t :: ts) i = t.addr :: levelList ts i := by
  simp [levelList, h]

lemma levelList_cons_of_lt {t : Tower} (h : t.height < i) :
    levelList (t :: ts) i = levelList ts i := by
  simp [levelList, h]

lemma levelList_sublist (ts : List Tower) {i j : ℕ} (h : i ≤ j) :
    (levelList ts j).Sublist (levelList ts i) := by
  refine List.Sublist.map _ (monotone_filter_right _ fun t ht => ?_)
  simp only [decide_eq_true_eq] at ht ⊢
  omega

lemma levelList_zero (ts : List Tower) : levelList ts 0 = ts.map Tower.addr := by
  simp [levelList]

lemma cons_levelList_sublist (a : Addr) (as bs : List Tower) (i : ℕ) :
    (a :: levelList as i).Sublist (a :: (as ++ bs).map Tower.addr) := by
  refine ((levelList_sublist as (Nat.zero_le i)).trans ?_).cons_cons a
  rw [levelList_zero, map_append]
  exact sublist_append_left _ _

lemma exists_of_mem_levelList {a : Addr} (h : a ∈ levelList ts i) :
    ∃ t ∈ ts, i ≤ t.height ∧ t.addr = a := by
  simpa [levelList, and_assoc] using h

/-- The heap holds the towers. -/
structure Inv (cmp : WORD → WORD → ℤ) (s : Skiplist) (ts : List Tower) : Prop where
  header : s.key s.header = some longMax
  node : ∀ t ∈ ts, s.data t.addr = some (t.key, t.value)
  links : ∀ i < skiplistMaxLevel, Links (s.fwd i) s.header (levelList ts i)
  sorted : ts.Pairwise fun t u => cmp t.key u.key < 0
  isKey : ∀ t ∈ ts, IsKey t.key
  nodup : (s.header :: ts.map Tower.addr).Nodup
  lt_brk : ∀ a ∈ s.header :: ts.map Tower.addr, a < s.brk
  height_le : ∀ t ∈ ts, t.height ≤ s.level
  level_lt : s.level < skiplistMaxLevel
  noItems : s.noItems = ts.length

lemma inv_skiplistInit (cmp : WORD → WORD → ℤ) : Inv cmp skiplistInit [] where
  header := rfl
  node := by simp
  links i hi := by
    show (List.replicate skiplistMaxLevel (none : Option Addr))[i]? = some none
    exact getElem?_replicate_of_lt hi
  sorted := .nil
  isKey := by simp
  nodup := by simp
  lt_brk := by simp [skiplistInit]
  height_le := by simp
  level_lt := by decide
  noItems := rfl

/-! ## The search loop -/

section Descend
variable {cmp : WORD → WORD → ℤ} {s : Skiplist} {as bs : List Tower} {p : WORD → Bool}

/-- The last node before the rest of a level, which is the header if there is none. -/
def lastNode (s : Skiplist) (as : List Tower) (i : ℕ) : Addr := (levelList as i).getLastD s.header

lemma exists_getLastD_eq {α : Type*} {a x : α} {l : List α} (h : x ∈ a :: l) :
    ∃ l1 l2, l = l1 ++ l2 ∧ l1.getLastD a = x := by
  rcases mem_cons.mp h with rfl | h
  · exact ⟨[], l, rfl, rfl⟩
  · obtain ⟨l1, l2, rfl⟩ := append_of_mem h
    exact ⟨l1 ++ [x], l2, by simp, by simp⟩

/-- At one level: from a node among the towers that satisfy `p`, the loop goes to the last of
them. -/
theorem Inv.advance_eq (h : Inv cmp s (as ++ bs)) (has : ∀ t ∈ as, p t.key)
    (hbs : ∀ t ∈ bs, ¬ p t.key) (hi : i < skiplistMaxLevel) {x : Addr}
    (hx : x ∈ s.header :: levelList as i) :
    advance (s.fwd i) (fun a => (s.key a).map p) s.brk x = some (lastNode s as i) := by
  obtain ⟨l1, l2, hl, rfl⟩ := exists_getLastD_eq hx
  have hlinks := h.links i hi
  rw [levelList_append, hl, append_assoc] at hlinks
  have hkey {t : Tower} (ht : t ∈ as ++ bs) : s.key t.addr = some t.key :=
    key_eq_of_data (h.node t ht)
  -- there are fewer nodes than addresses below the break
  have hlength : (levelList as i).length < s.brk := by
    have hsub := cons_levelList_sublist s.header as bs i
    have hrange : s.header :: levelList as i ⊆ List.range s.brk := fun a ha =>
      mem_range.mpr (h.lt_brk a (hsub.subset ha))
    have := (List.Nodup.subperm (h.nodup.sublist hsub) hrange).length_le
    rwa [length_cons, length_range] at this
  rw [(hlinks.of_append : Links _ _ (l2 ++ levelList bs i)).advance_eq]
  · rw [lastNode, hl]
    simp [getLastD_eq_getLast?, getLast?_append]
  · intro a ha
    obtain ⟨t, ht, -, rfl⟩ := exists_of_mem_levelList (hl ▸ mem_append_right l1 ha)
    rw [hkey (mem_append_left bs ht), map_some, has t ht]
  · intro a ha
    obtain ⟨t, ht, -, rfl⟩ := exists_of_mem_levelList (mem_of_mem_head? ha)
    rw [hkey (mem_append_right as ht), map_some, Bool.eq_false_iff.mpr (hbs t ht)]
  · rw [hl, length_append] at hlength
    omega

/-- The loop stops at each level after the last tower that satisfies `p`. -/
theorem Inv.descend_eq (h : Inv cmp s (as ++ bs)) (has : ∀ t ∈ as, p t.key)
    (hbs : ∀ t ∈ bs, ¬ p t.key) (hi : i < skiplistMaxLevel) {x : Addr}
    (hx : x ∈ s.header :: levelList as i) :
    descend s p i x = some ((List.range (i + 1)).map (lastNode s as)) := by
  induction i generalizing x with
  | zero => simp [descend, h.advance_eq has hbs hi hx]
  | succ i ih =>
    have hstart : lastNode s as (i + 1) ∈ s.header :: levelList as i := by
      have hsub := (levelList_sublist as (Nat.le_succ i)).cons_cons s.header
      exact hsub.subset getLastD_mem_cons
    simp [descend, h.advance_eq has hbs hi hx, ih (Nat.lt_of_succ_lt hi) hstart,
      range_succ (n := i + 1)]

end Descend
end Acton.Backend
