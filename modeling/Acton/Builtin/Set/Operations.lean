import Acton.Builtin.Set.Invariant

/-!
# What the operations on sets do

For each function: from sets with the invariant it gets to a set with the invariant, whose elements
are those of the operation. `Holds` says which elements a table has.
-/

namespace Acton.Builtin
open List Probe Nat
open Option hiding or_assoc
variable {K : Type} {hw : Hashable K} {P : K → Prop} {table : List (SetEntry K)} {set : BSet K}

/-! ## Changing a slot -/

section Slot
variable {i : ℕ} {e : SetEntry K} {k : K}

lemma holds_setElem (hw : Hashable K) (hi : table[i]? = some e) (he : e.key.isElem = false)
    (h : ℤ) (k' : K) : Holds hw (table.set i ⟨.elem k, h⟩) k' ↔ Holds hw table k' ∨ hw.eq k k' := by
  have hlt : i < table.length := (List.getElem?_eq_some_iff.mp hi).1
  constructor
  · rintro ⟨j, a, hj, heq⟩
    rcases (hasElem_set hlt).mp hj with ⟨-, hk⟩ | ⟨-, hj⟩
    · obtain rfl : k = a := by simpa using hk
      exact .inr heq
    · exact .inl ⟨j, a, hj, heq⟩
  · rintro (⟨j, a, hj, heq⟩ | heq)
    · refine ⟨j, a, (hasElem_set hlt).mpr (.inr ⟨?_, hj⟩), heq⟩
      rintro rfl
      obtain ⟨h', hj⟩ := hj
      obtain rfl := mem_unique hi hj
      simp at he
    · exact ⟨i, k, (hasElem_set hlt).mpr (.inl ⟨rfl, rfl⟩), heq⟩

lemma TableOk.holds_setDummy (h : TableOk hw P table) (hi : HasElem table i k) (k' : K) :
    Holds hw (table.set i ⟨.dummy, -1⟩) k' ↔ Holds hw table k' ∧ ¬ hw.eq k k' := by
  obtain ⟨h', hi'⟩ := hi
  have hlt : i < table.length := (List.getElem?_eq_some_iff.mp hi').1
  constructor
  · rintro ⟨j, a, hj, heq⟩
    rcases (hasElem_set hlt).mp hj with ⟨-, hk⟩ | ⟨hne, hj⟩
    · simp at hk
    · refine ⟨⟨j, a, hj, heq⟩, fun hkk' => hne ?_⟩
      exact h.distinct hj ⟨h', hi'⟩ (hw.eq_trans heq (hw.eq_symm hkk'))
  · rintro ⟨⟨j, a, hj, heq⟩, hne⟩
    refine ⟨j, a, (hasElem_set hlt).mpr (.inr ⟨?_, hj⟩), heq⟩
    rintro rfl
    obtain ⟨h'', hj⟩ := hj
    obtain ⟨⟩ := mem_unique hi' hj
    exact hne heq

lemma countElem_setElem (hi : table[i]? = some e) (he : e.key.isElem = false) (h : ℤ) :
    countElem (table.set i ⟨.elem k, h⟩) = countElem table + 1 := by
  have := countP_set (p := fun e => e.key.isElem) hi ⟨.elem k, h⟩
  simpa [countElem, he] using this

lemma countElem_setDummy (hi : HasElem table i k) :
    countElem (table.set i ⟨.dummy, -1⟩) + 1 = countElem table := by
  obtain ⟨h, hi⟩ := hi
  have := countP_set (p := fun e => e.key.isElem) hi ⟨.dummy, -1⟩
  simpa [countElem] using this

lemma countUsed_set_of_null (hi : table[i]? = some e) (he : e.key.isNull) {a : SetEntry K}
    (ha : a.key.isNull = false) : countUsed (table.set i a) = countUsed table + 1 := by
  have := countP_set (p := fun e => !e.key.isNull) hi a
  simpa [countUsed, he, ha] using this

lemma countUsed_set_of_used (hi : table[i]? = some e) (he : e.key.isNull = false)
    {a : SetEntry K} (ha : a.key.isNull = false) : countUsed (table.set i a) = countUsed table := by
  have := countP_set (p := fun e => !e.key.isNull) hi a
  simpa [countUsed, he, ha] using this

end Slot

/-! ## Resizing -/

/-- The slot that `insertClean` finds. -/
theorem exists_insertClean {mask l : ℕ} (hmask : mask + 1 = 2 ^ l)
    (hlen : table.length = mask + 1) (hfree : countUsed table < table.length)
      (h : TableOk hw P table)
    {k : K} (hk : P k) (hnew : ¬ Holds hw table k) :
    ∃ table', insertClean table mask ⟨.elem k, (hw.hash k).toNat⟩ = some table' ∧
      TableOk hw P table' ∧ table'.length = mask + 1 ∧
      countElem table' = countElem table + 1 ∧ countUsed table' = countUsed table + 1 ∧
      ∀ k', Holds hw table' k' ↔ Holds hw table k' ∨ hw.eq k k' := by
  obtain ⟨s, e0, hs, hnull⟩ := exists_free hfree
  have hlt : s < mask + 1 := hlen ▸ (List.getElem?_eq_some_iff.mp hs).1
  obtain ⟨m, r, hsearch, hr, hgo⟩ := exists_setSearch_eq hmask (hw.hash k).toNat_lt
    (cleanSlot table) hlt (by simp [cleanSlot, hs, hnull])
  rw [← hlen] at hr hgo
  have hread (j : ℕ) : ∃ e, table[slot table.length (hw.hash k).toNat j]? = some e :=
    ⟨_, getElem?_eq_getElem (slot_lt (by rw [hlen]; omega) _ _)⟩
  obtain ⟨e, he⟩ := hread m
  simp only [cleanSlot, he] at hr
  split_ifs at hr with hfree
  obtain ⟨⟩ := hr
  -- the slots before are not free
  have hreach : Probe.Reach table.length (hw.hash k).toNat (Used table)
      (slot table.length (hw.hash k).toNat m) := by
    refine ⟨m, rfl, fun j hj => ?_⟩
    obtain ⟨a, ha⟩ := hread j
    have := hgo j hj
    simp only [cleanSlot, ha] at this
    split_ifs at this with hanull
    exact ⟨a, ha, by simpa using hanull⟩
  have hne : e.key.isElem = false := by
    revert hfree
    cases e.key <;> simp
  refine ⟨_, by rw [insertClean, hsearch]; rfl, h.setElem (List.getElem?_eq_some_iff.mp he).1 hk
    hreach hnew, by rw [length_set, hlen], countElem_setElem he hne _,
    countUsed_set_of_null he hfree rfl, holds_setElem hw he hne _⟩

/-- An entry holds an element in `P` and its hash. -/
def EntryOk (hw : Hashable K) (P : K → Prop) (e : SetEntry K) (k : K) : Prop :=
  e = ⟨.elem k, (hw.hash k).toNat⟩ ∧ P k

/-- The entries of a list hold these elements, which are not equal to each other. -/
structure Listed (hw : Hashable K) (P : K → Prop) (entries : List (SetEntry K)) (ks : List K) :
    Prop where
  entries_ok : List.Forall₂ (EntryOk hw P) entries ks
  distinct : ks.Pairwise fun a b => ¬ hw.eq a b

lemma exists_foldlM_insertClean {mask l : ℕ} (hmask : mask + 1 = 2 ^ l)
    {entries : List (SetEntry K)} {ks : List K} (hlist : List.Forall₂ (EntryOk hw P) entries ks) :
    ∀ {table : List (SetEntry K)}, TableOk hw P table → table.length = mask + 1 →
    countUsed table + ks.length < mask + 1 → ks.Pairwise (fun a b => ¬ hw.eq a b) →
    (∀ k ∈ ks, ¬ Holds hw table k) →
    ∃ table', entries.foldlM (fun table e => insertClean table mask e) table = some table' ∧
      TableOk hw P table' ∧ table'.length = mask + 1 ∧
      countElem table' = countElem table + ks.length ∧
      countUsed table' = countUsed table + ks.length ∧
      ∀ k', Holds hw table' k' ↔ Holds hw table k' ∨ ∃ k ∈ ks, hw.eq k k' := by
  induction hlist with
  | nil =>
    intro table h hlen _ _ _
    exact ⟨table, rfl, h, hlen, rfl, rfl, by simp⟩
  | @cons e k entries ks he _ ih =>
    intro table h hlen hroom hdistinct hnew
    obtain ⟨rfl, hk⟩ := he
    rw [length_cons] at hroom ⊢
    obtain ⟨hkks, hdistinct⟩ := pairwise_cons.mp hdistinct
    obtain ⟨t1, hclean, h1, hlen1, helem1, hused1, hholds1⟩ :=
      exists_insertClean hmask hlen (by omega) h hk (hnew k mem_cons_self)
    obtain ⟨t2, hfold, h2, hlen2, helem2, hused2, hholds2⟩ := ih h1 hlen1 (by omega) hdistinct
      (fun a ha hholds => by
        rcases (hholds1 a).mp hholds with hold | heq
        · exact hnew a (mem_cons_of_mem k ha) hold
        · exact hkks a ha heq)
    refine ⟨t2, ?_, h2, hlen2, by omega, by omega, fun k' => ?_⟩
    · rw [foldlM_cons, hclean]
      exact hfold
    · rw [hholds2, hholds1]
      simp [or_assoc]

/-- The elements of a table. -/
def elems (table : List (SetEntry K)) : List K := table.filterMap SetEntry.elem?

lemma elem?_eq_some_iff {e : SetEntry K} {k : K} : e.elem? = some k ↔ e.key = .elem k := by
  rcases e with ⟨_ | _ | a, h⟩ <;> simp [SetEntry.elem?]

lemma mem_elems {k : K} : k ∈ elems table ↔ ∃ i, HasElem table i k := by
  rw [elems, mem_filterMap]
  constructor
  · rintro ⟨⟨key, h⟩, he, hk⟩
    obtain rfl : key = .elem k := elem?_eq_some_iff.mp hk
    obtain ⟨i, hi⟩ := getElem?_of_mem he
    exact ⟨i, h, hi⟩
  · rintro ⟨i, h, hi⟩
    exact ⟨_, mem_of_getElem? hi, rfl⟩

lemma length_elems (table : List (SetEntry K)) : (elems table).length = countElem table := by
  rw [elems, length_filterMap_eq_countP]
  refine countP_congr fun e _ => ?_
  rcases e with ⟨_ | _ | k, h⟩ <;> simp [SetEntry.elem?]

lemma holds_iff_mem_elems {k : K} : Holds hw table k ↔ ∃ k' ∈ elems table, hw.eq k' k := by
  simp only [mem_elems]
  exact ⟨fun ⟨i, a, hi, heq⟩ => ⟨a, ⟨i, hi⟩, heq⟩, fun ⟨a, ⟨i, hi⟩, heq⟩ => ⟨i, a, hi, heq⟩⟩

lemma TableOk.entryOk (h : TableOk hw P table) {e : SetEntry K} (he : e ∈ table) {k : K}
    (hk : e.key = .elem k) : EntryOk hw P e k := by
  rcases e with ⟨key, h'⟩
  obtain rfl : key = .elem k := hk
  obtain ⟨i, hi⟩ := getElem?_of_mem he
  obtain ⟨hk, rfl⟩ := h.good hi
  exact ⟨rfl, hk⟩

lemma TableOk.listed (h : TableOk hw P table) :
    Listed hw P (table.filter fun e => e.key.isElem) (elems table) := by
  constructor
  · have hok : ∀ e ∈ table, ∀ k, e.key = .elem k → EntryOk hw P e k := fun e he k => h.entryOk he
    clear h
    induction table with
    | nil => exact .nil
    | cons e t ih =>
      have ih := ih fun a ha => hok a (mem_cons_of_mem e ha)
      have he := hok e mem_cons_self
      rcases e with ⟨_ | _ | k, h'⟩
      · exact ih
      · exact ih
      · exact .cons (he k rfl) ih
  · rw [elems, pairwise_filterMap, pairwise_iff_getElem]
    intro i j hi hj hij k hk k' hk' heq
    have helem {i : ℕ} (hi : i < table.length) {k : K} (hk : table[i].elem? = some k) :
        HasElem table i k :=
      ⟨table[i].hash, by rw [getElem?_eq_getElem hi, ← elem?_eq_some_iff.mp hk]⟩
    have := h.distinct (helem hi hk) (helem hj hk') heq
    omega

lemma not_holds_replicate (n : ℕ) (k : K) :
    ¬ Holds hw (List.replicate n (⟨.null, 0⟩ : SetEntry K)) k := by
  rintro ⟨i, k', ⟨h, hi⟩, -⟩
  have := (mem_replicate.mp (mem_of_getElem? hi)).2
  simp at this

lemma countElem_le_countUsed (table : List (SetEntry K)) : countElem table ≤ countUsed table := by
  refine countP_mono_left fun e _ => ?_
  rcases e with ⟨_ | _ | k, h⟩ <;> simp

/-- If the two counters are equal, no slot holds a mark. -/
theorem isElem_eq_of_count_eq {table : List (SetEntry K)}
    (h : countUsed table = countElem table) : ∀ e ∈ table, (!e.key.isNull) = e.key.isElem := by
  induction table with
  | nil => simp
  | cons e t ih =>
    have hle := countElem_le_countUsed t
    simp only [countUsed, countElem, countP_cons] at h hle ih
    rcases e with ⟨_ | _ | k, h'⟩
    · exact forall_mem_cons.mpr ⟨rfl, ih (by simpa using h)⟩
    · simp at h
      omega
    · exact forall_mem_cons.mpr ⟨rfl, ih (by simpa using h)⟩

/-- The new table of a resize has the elements of the old one. -/
theorem exists_tableResize (set : BSet K) (minsize : ℤ) (h : TableOk hw P set.table)
    (hnum : set.numelements = countElem set.table) (hfill : set.fill = countUsed set.table)
    (hmin : 2 * set.numelements ≤ minsize) (hpos : 0 < set.numelements) (hmax : minsize < 2 ^ 30) :
    ∃ set', tableResize set minsize = some set' ∧ SetInv hw P set' ∧
      ∀ k, Holds hw set'.table k ↔ Holds hw set.table k := by
  obtain ⟨l, hl3, hgrow, hle, hlt⟩ := exists_growSize_self (minsize + 1).toNat 3
  have hl : l ≤ 30 := by
    rcases hlt with rfl | hlt
    · decide
    · refine Nat.le_of_lt_succ ((Nat.pow_lt_pow_iff_right (a := 2) (by decide)).mp ?_)
      omega
  have hmask : 2 ^ l - 1 + 1 = 2 ^ l := by omega
  -- both loops copy the entries that hold an element
  have hentries : (if set.fill = set.numelements then set.table.filter fun e => !e.key.isNull
      else set.table.filter fun e => e.key.isElem) = set.table.filter fun e => e.key.isElem := by
    split_ifs with heq
    · exact filter_congr (isElem_eq_of_count_eq (by omega))
    · rfl
  have hlisted := h.listed
  obtain ⟨table, hfold, htable, hlen, helem, hused, hholds⟩ :=
    exists_foldlM_insertClean hmask hlisted.entries_ok (TableOk.replicate hw P (2 ^ l))
      (by rw [length_replicate, hmask]) (by
        rw [length_elems, ← hnum]
        simp [countUsed, countP_replicate]
        omega) hlisted.distinct
      fun k _ => not_holds_replicate _ k
  have hzero : countElem (replicate (2 ^ l) (⟨.null, 0⟩ : SetEntry K)) = 0 := by
    simp [countElem, countP_replicate]
  have hzero' : countUsed (replicate (2 ^ l) (⟨.null, 0⟩ : SetEntry K)) = 0 := by
    simp [countUsed, countP_replicate]
  rw [hzero, length_elems, ← hnum, zero_add] at helem
  rw [hzero', length_elems, ← hnum, zero_add] at hused
  refine ⟨{ set with fill := set.numelements, mask := 2 ^ l - 1, table := table }, ?_,
    ⟨⟨l, hl3, hl, hmask⟩, hlen, htable, helem.symm, hused.symm, ?_⟩, fun k => ?_⟩
  · rw [tableResize, show minSize = 2 ^ 3 from rfl, hgrow, hentries, hfold]
    rfl
  · dsimp only
    omega
  · rw [hholds]
    exact (or_iff_right (not_holds_replicate _ k)).trans holds_iff_mem_elems.symm

/-! ## Adding -/

/-- The search of `add` goes through the slots of the probe sequence, and remembers a slot with a
mark that it has seen. -/
theorem iterate_addStep (set : BSet K) (h n : ℕ) :
    let x := (addStep set h)^[n] ⟨(setStart set.mask h).1, (setStart set.mask h).2, none⟩
    (x.i, x.perturb) = (setProbe set.mask)^[n] (setStart set.mask h) ∧
      ∀ j, x.freeslot = some j → ∃ m < n, Probe.slot (set.mask + 1) h m = j ∧
        ∃ e, set.table[j]? = some e ∧ e.hash = -1 := by
  induction n with
  | zero => exact ⟨rfl, by simp⟩
  | succ n ih =>
    simp only [Function.iterate_succ_apply'] at ih ⊢
    obtain ⟨hslot, hfree⟩ := ih
    generalize (addStep set h)^[n] _ = x at hslot hfree ⊢
    refine ⟨by rw [← hslot]; rfl, fun j hj => ?_⟩
    have hi : x.i = slot (set.mask + 1) h n := by
      rw [iterate_setProbe] at hslot
      exact congrArg Prod.fst hslot
    -- the slot is the last one, or an earlier one
    have hold (hj : x.freeslot = some j) : ∃ m < n + 1, slot (set.mask + 1) h m = j ∧
        ∃ e, set.table[j]? = some e ∧ e.hash = -1 := by
      obtain ⟨m, hm, hj⟩ := hfree j hj
      exact ⟨m, by omega, hj⟩
    simp only [addStep] at hj
    cases he : set.table[x.i]? with
    | none =>
      rw [he] at hj
      exact hold hj
    | some e =>
      rw [he] at hj
      simp only at hj
      split_ifs at hj with hmark
      · obtain ⟨⟩ := hj
        exact ⟨n, by omega, hi.symm, e, he, hmark.2⟩
      · exact hold hj

/-- How the search of `add` may end. -/
def AddOk (hw : Hashable K) (table : List (SetEntry K)) (k : K) : AddResult → Prop
  | .active => Holds hw table k
  | .unused i => ¬ Holds hw table k ∧
      Probe.Reach table.length (hw.hash k).toNat (Used table) i ∧
      ∃ e, table[i]? = some e ∧ e.key = .null
  | .free i => ¬ Holds hw table k ∧
      Probe.Reach table.length (hw.hash k).toNat (Used table) i ∧
      ∃ e, table[i]? = some e ∧ e.key = .dummy

variable [DecidableEq K]

lemma SetInv.exists_addSearch (h : SetInv hw P set) (hgood : GoodKeys hw P) {k : K} (hk : P k) :
    ∃ r, addSearch hw set k (hw.hash k).toNat = some r ∧ AddOk hw set.table k r := by
  obtain ⟨l, -, -, hmask⟩ := h.size
  obtain ⟨s, e0, hs, hnull⟩ := h.exists_free
  have hlt : s < 2 ^ l := hmask ▸ h.length_table ▸ (List.getElem?_eq_some_iff.mp hs).1
  obtain ⟨n, hn, hslot⟩ := exists_slot_eq (hw.hash k).toNat_lt hlt
  rw [← hmask] at hn hslot
  have hi (j : ℕ) : ((addStep set (hw.hash k).toNat)^[j]
      ⟨(setStart set.mask (hw.hash k).toNat).1, (setStart set.mask (hw.hash k).toNat).2, none⟩).i
        = slot set.table.length (hw.hash k).toNat j := by
    have := (iterate_addStep set (hw.hash k).toNat j).1
    rw [iterate_setProbe, ← h.length_table] at this
    exact congrArg Prod.fst this
  obtain ⟨m, -, r, hsearch, hr, hgo⟩ := exists_search_eq (addStep set (hw.hash k).toNat)
    (addSlot hw set k (hw.hash k).toNat)
    ⟨(setStart set.mask (hw.hash k).toNat).1, (setStart set.mask (hw.hash k).toNat).2, none⟩
    (show n < set.mask + 14 from hn) (by
      rw [addSlot, hi, h.length_table, hslot, hs]
      simp only [hnull, if_true]
      split <;> rfl)
  have hread (j : ℕ) : ∃ e, set.table[slot set.table.length (hw.hash k).toNat j]? = some e :=
    ⟨_, getElem?_eq_getElem (slot_lt (by rw [h.length_table]; omega) _ _)⟩
  -- the slots before the last one are used, and have other hashes
  have hbefore (j : ℕ) (hj : j < m) (a : SetEntry K)
      (ha : set.table[slot set.table.length (hw.hash k).toNat j]? = some a) :
      a.key.isNull = false ∧ a.hash ≠ (hw.hash k).toNat := by
    have hj' := hgo j hj
    rw [addSlot, hi, ha] at hj'
    simp only at hj'
    split_ifs at hj' with hanull hah
    · split at hj' <;> simp at hj'
    · obtain ⟨k', hk', -⟩ := h.table.eq_of_hash hgood ha (by simpa using hanull) hk hah
      simp [hk', testKey, eqPtr] at hj'
    · exact ⟨by simpa using hanull, hah⟩
  have hreach (j : ℕ) (hj : j ≤ m) : Probe.Reach set.table.length (hw.hash k).toNat
      (Used set.table) (slot set.table.length (hw.hash k).toNat j) := by
    refine ⟨j, rfl, fun j' hj' => ?_⟩
    obtain ⟨a, ha⟩ := hread j'
    exact ⟨a, ha, (hbefore j' (by omega) a ha).1⟩
  obtain ⟨e, he⟩ := hread m
  have hsearch' : addSearch hw set k (hw.hash k).toNat = r := by
    rw [addSearch]
    exact congrArg join hsearch
  rw [hsearch']
  rw [addSlot, hi, he] at hr
  simp only at hr
  split_ifs at hr with hfree hhash
  · have hnot := h.table.not_holds he hfree fun j hj a ha => (hbefore j hj a ha).2
    split at hr
    · obtain ⟨⟩ := hr
      refine ⟨_, rfl, hnot, hreach m le_rfl, e, he, ?_⟩
      revert hfree
      cases e.key <;> simp
    · rename_i j hj
      obtain ⟨⟩ := hr
      obtain ⟨m', hm', hslot', a, ha, hah⟩ := (iterate_addStep set (hw.hash k).toNat m).2 j hj
      rw [← h.length_table] at hslot'
      subst hslot'
      refine ⟨_, rfl, hnot, hreach m' hm'.le, a, ha, ?_⟩
      -- an element has another hash than a mark
      have hanull := (hbefore m' hm' a ha).1
      rcases a with ⟨_ | _ | k', h'⟩
      · simp at hanull
      · rfl
      · have := (h.table.good ha).2
        dsimp only at hah
        omega
  · obtain ⟨k', hk', heq⟩ := h.table.eq_of_hash hgood he (by simpa using hfree) hk hhash
    simp only [hk', testKey, eqPtr, isSome_some, or_true, decide_true] at hr
    obtain ⟨⟩ := hr
    rcases e with ⟨key, h'⟩
    obtain rfl : key = .elem k' := hk'
    exact ⟨_, rfl, _, k', ⟨h', he⟩, heq⟩

lemma SetInv.exists_addEntry (h : SetInv hw P set) (hgood : GoodKeys hw P) {k : K} (hk : P k)
    (hmax : ¬ Holds hw set.table k → set.numelements + 1 < 2 ^ 29) :
    ∃ set', addEntry hw set k (hw.hash k).toNat = some set' ∧ SetInv hw P set' ∧
      ∀ k', Holds hw set'.table k' ↔ Holds hw set.table k' ∨ hw.eq k k' := by
  obtain ⟨r, hsearch, hr⟩ := h.exists_addSearch hgood hk
  simp only [addEntry, hsearch, bind_eq_bind, bind_some]
  cases r with
  | active =>
    refine ⟨set, rfl, h, fun k' => (or_iff_left_of_imp fun heq => ?_).symm⟩
    obtain ⟨i, a, hi, ha⟩ := hr
    exact ⟨i, a, hi, hw.eq_trans ha heq⟩
  | free i =>
    obtain ⟨hnew, hreach, e, he, hdummy⟩ := hr
    have hne : e.key.isElem = false := by rw [hdummy]; rfl
    have hlt := (List.getElem?_eq_some_iff.mp he).1
    refine ⟨_, rfl, ⟨h.size, ?_, h.table.setElem hlt hk hreach hnew, ?_, ?_, h.load⟩,
      holds_setElem hw he hne _⟩
    · rw [length_set, h.length_table]
    · rw [countElem_setElem he hne, ← h.numelements_eq]
    · rw [countUsed_set_of_used he (by rw [hdummy]; rfl) rfl, ← h.fill_eq]
  | unused i =>
    obtain ⟨hnew, hreach, e, he, hnull⟩ := hr
    have hne : e.key.isElem = false := by rw [hnull]; rfl
    have hlt := (List.getElem?_eq_some_iff.mp he).1
    have htable := h.table.setElem hlt hk hreach hnew
    have helem := countElem_setElem (k := k) he hne (hw.hash k).toNat
    have hused := countUsed_set_of_null he (by rw [hnull]; rfl)
      (a := ⟨.elem k, (hw.hash k).toNat⟩) rfl
    have hholds (k' : K) := holds_setElem (k := k) hw he hne (hw.hash k).toNat k'
    rw [← h.numelements_eq] at helem
    rw [← h.fill_eq] at hused
    have hmax := hmax hnew
    dsimp only
    by_cases hload : (set.fill + 1) * 5 < set.mask * 3
    · rw [if_pos hload]
      refine ⟨_, rfl, ⟨h.size, ?_, htable, helem.symm, hused.symm, hload⟩, hholds⟩
      rw [length_set, h.length_table]
    · -- the argument of the resize fits into an `int`
      rw [if_neg hload]
      obtain ⟨set', hresize, hinv, hholds'⟩ := exists_tableResize
        { set with
          fill := set.fill + 1
          numelements := set.numelements + 1
          table := set.table.set i ⟨.elem k, (hw.hash k).toNat⟩ }
        (toInt (if ((set.numelements + 1 : ℕ) : ℤ) > 50000
          then ((set.numelements + 1 : ℕ) : ℤ) * 2 else ((set.numelements + 1 : ℕ) : ℤ) * 4))
        htable helem.symm hused.symm
        (by dsimp only; split_ifs <;> rw [toInt_of_lt] <;> omega) (succ_pos _)
        (by split_ifs <;> rw [toInt_of_lt] <;> omega)
      exact ⟨set', hresize, hinv, fun k' => (hholds' k').trans (hholds k')⟩

/-! ## Looking up and removing -/

lemma SetInv.containsEntry_eq (h : SetInv hw P set) (hgood : GoodKeys hw P) {k : K} (hk : P k) :
    ∃ b, containsEntry hw set k (hw.hash k).toNat = some b ∧ (b ↔ Holds hw set.table k) := by
  obtain ⟨i, ⟨key, h'⟩, hlook, he, hcases⟩ := h.exists_lookkey hgood hk
  simp only [containsEntry, hlook, he, bind_eq_bind, bind_some]
  rcases hcases with ⟨k', hk', heq⟩ | ⟨hnull, hnot⟩
  · obtain rfl : key = .elem k' := hk'
    exact ⟨true, rfl, iff_of_true rfl ⟨i, k', ⟨h', he⟩, heq⟩⟩
  · refine ⟨false, ?_, iff_of_false (by simp) hnot⟩
    rw [hnull]
    rfl

omit [DecidableEq K] in
lemma SetInv.removeSlot (h : SetInv hw P set) {i : ℕ} {k : K} (hi : HasElem set.table i k)
    (finger : ℕ) : SetInv hw P { set with
      numelements := set.numelements - 1
      finger := finger
      table := set.table.set i ⟨.dummy, -1⟩ } := by
  have hcount := countElem_setDummy hi
  obtain ⟨h', hi⟩ := hi
  refine ⟨h.size, ?_, h.table.setDummy (List.getElem?_eq_some_iff.mp hi).1, ?_, ?_, h.load⟩
  · rw [length_set, h.length_table]
  · have := h.numelements_eq
    dsimp only
    omega
  · exact h.fill_eq.trans (countUsed_set_of_used hi rfl rfl).symm

lemma SetInv.exists_discardEntry (h : SetInv hw P set) (hgood : GoodKeys hw P) {k : K}
    (hk : P k) : ∃ b set', discardEntry hw set k (hw.hash k).toNat = some (b, set') ∧
      SetInv hw P set' ∧ (b ↔ Holds hw set.table k) ∧
      ∀ k', Holds hw set'.table k' ↔ Holds hw set.table k' ∧ ¬ hw.eq k k' := by
  obtain ⟨i, ⟨key, h'⟩, hlook, he, hcases⟩ := h.exists_lookkey hgood hk
  simp only [discardEntry, hlook, he, bind_eq_bind, bind_some]
  rcases hcases with ⟨a, ha, heq⟩ | ⟨hnull, hnot⟩
  · obtain rfl : key = .elem a := ha
    refine ⟨true, _, rfl, h.removeSlot ⟨h', he⟩ set.finger,
      iff_of_true rfl ⟨i, a, ⟨h', he⟩, heq⟩, fun k' => ?_⟩
    rw [h.table.holds_setDummy ⟨h', he⟩]
    -- being equal to one of the two elements is being equal to the other
    exact and_congr_right' (not_congr ⟨fun h => hw.eq_of_eq heq h, hw.eq_trans heq⟩)
  · dsimp only at hnull
    rw [hnull]
    refine ⟨false, set, rfl, h, iff_of_false (by simp) hnot, fun k' => ?_⟩
    refine (and_iff_left_of_imp fun hk' heq => hnot ?_).symm
    obtain ⟨j, a, hj, ha⟩ := hk'
    exact ⟨j, a, hj, hw.eq_trans ha (hw.eq_symm heq)⟩

omit [DecidableEq K] in
lemma exists_popSlot {n d f i : ℕ} (hlen : set.table.length = n) (hmask : set.mask + 1 = n)
    (hi : i < n) (hd : d < f) {k : K} (hk : HasElem set.table ((i + d) % n) k) :
    ∃ j a, set.popSlot f i = some (j, a) ∧ HasElem set.table j a := by
  induction d generalizing i f with
  | zero =>
    obtain ⟨f, rfl⟩ := exists_eq_succ_of_ne_zero (ne_zero_of_lt hd)
    rw [add_zero, mod_eq_of_lt hi] at hk
    obtain ⟨h', hk⟩ := hk
    exact ⟨i, k, by simp [BSet.popSlot, hk], h', hk⟩
  | succ d ih =>
    obtain ⟨f, rfl⟩ := exists_eq_succ_of_ne_zero (ne_zero_of_lt hd)
    -- the next slot, round the table
    have hnext : (if i + 1 > set.mask then 0 else i + 1) = (i + 1) % n := by
      split_ifs with hwrap
      · rw [show i + 1 = n by omega, mod_self]
      · rw [mod_eq_of_lt (by omega)]
    have hgo := ih (i := (i + 1) % n) (f := f) (mod_lt _ (by omega)) (by omega)
      (by rwa [mod_add_mod, add_right_comm, add_assoc])
    obtain ⟨⟨key, h'⟩, he⟩ : ∃ e, set.table[i]? = some e := ⟨_, getElem?_eq_getElem (by omega)⟩
    simp only [BSet.popSlot, he, hnext]
    cases key with
    | elem a => exact ⟨i, a, rfl, h', he⟩
    | null => exact hgo
    | dummy => exact hgo

omit [DecidableEq K] in
lemma SetInv.exists_pop (h : SetInv hw P set) : ∃ r set', set.pop = some (r, set') ∧
    SetInv hw P set' ∧
    match r with
    | none => set' = set ∧ ∀ k, ¬ Holds hw set.table k
    | some a => P a ∧ Holds hw set.table a ∧
        ∀ k, Holds hw set'.table k ↔ Holds hw set.table k ∧ ¬ hw.eq a k := by
  by_cases hzero : set.numelements = 0
  · refine ⟨none, set, if_pos hzero, h, rfl, fun k hk => ?_⟩
    obtain ⟨a, ha, -⟩ := holds_iff_mem_elems.mp hk
    have hpos := length_pos_of_mem ha
    rw [length_elems, ← h.numelements_eq, hzero] at hpos
    exact absurd hpos (lt_irrefl 0)
  · obtain ⟨k, hk⟩ : ∃ k, k ∈ elems set.table := by
      refine exists_mem_of_length_pos ?_
      rw [length_elems, ← h.numelements_eq]
      exact pos_of_ne_zero hzero
    obtain ⟨s, hs⟩ := mem_elems.mp hk
    have hslt : s < set.mask + 1 := by
      obtain ⟨h', hs⟩ := hs
      exact h.length_table ▸ (List.getElem?_eq_some_iff.mp hs).1
    -- from the finger on, the slot is reached in one round
    have hround : ∃ d < set.mask + 1, (set.finger % (set.mask + 1) + d) % (set.mask + 1) = s := by
      have hf : set.finger % (set.mask + 1) < set.mask + 1 := mod_lt _ (succ_pos _)
      rcases lt_or_ge s (set.finger % (set.mask + 1)) with hlt | hge
      · refine ⟨set.mask + 1 - set.finger % (set.mask + 1) + s, by omega, ?_⟩
        rw [show set.finger % (set.mask + 1) + (set.mask + 1 - set.finger % (set.mask + 1) + s)
          = s + (set.mask + 1) by omega, add_mod_right, mod_eq_of_lt hslt]
      · refine ⟨s - set.finger % (set.mask + 1), by omega, ?_⟩
        rw [Nat.add_sub_cancel' hge, Nat.mod_eq_of_lt hslt]
    obtain ⟨d, hd, hslot⟩ := hround
    obtain ⟨j, a, hpop, hj⟩ := exists_popSlot h.length_table rfl
      (mod_lt set.finger (succ_pos set.mask)) hd (hslot.symm ▸ hs)
    refine ⟨some a, _, ?_, h.removeSlot hj (j + 1), ?_, ⟨j, a, hj, hw.eq_refl a⟩,
      h.table.holds_setDummy hj⟩
    · rw [BSet.pop, if_neg hzero, hpop]
      rfl
    · obtain ⟨h', hj⟩ := hj
      exact (h.table.good hj).1

/-! ## Iterating -/

omit [DecidableEq K] in
/-- One call of `__next__`, for the slots that are left. -/
theorem exists_nextSlot (as bs : List (SetEntry K)) (hlen : as.length + bs.length ≤ 2 ^ 30) :
    (bs.filter fun e => e.key.isElem) = [] ∧ nextSlot (as ++ bs) bs.length as.length = some none ∨
    ∃ cs e ds, bs = cs ++ e :: ds ∧
      (bs.filter fun e => e.key.isElem) = e :: (ds.filter fun e => e.key.isElem) ∧
      nextSlot (as ++ bs) bs.length as.length
        = some (some (e, ((as.length + cs.length + 1 : ℕ) : ℤ))) := by
  induction bs generalizing as with
  | nil => exact .inl ⟨rfl, rfl⟩
  | cons b bs ih =>
    rw [length_cons] at hlen
    have hread : (as ++ b :: bs)[as.length]? = some b := by simp
    have hunfold : nextSlot (as ++ b :: bs) (bs.length + 1) as.length
        = if b.key.isElem then some (some (b, toInt (as.length + 1)))
          else nextSlot (as ++ b :: bs) bs.length (as.length + 1) := by
      rw [nextSlot, if_neg (by omega), Int.toNat_natCast, hread]
    rw [length_cons, hunfold]
    by_cases hb : b.key.isElem
    · refine .inr ⟨[], b, bs, rfl, filter_cons_of_pos hb, ?_⟩
      rw [if_pos hb, toInt_of_lt (by omega) (by omega)]
      rfl
    · have hfilter : ((b :: bs).filter fun e => e.key.isElem) = bs.filter fun e => e.key.isElem :=
        filter_cons_of_neg hb
      rw [if_neg hb, hfilter]
      have := ih (as ++ [b]) (by rw [length_append, length_singleton]; omega)
      simp only [append_assoc, singleton_append, length_append, length_singleton] at this
      push_cast at this
      rcases this with ⟨hnil, hnext⟩ | ⟨cs, e, ds, rfl, hlive, hnext⟩
      · exact .inl ⟨hnil, hnext⟩
      · refine .inr ⟨b :: cs, e, ds, rfl, hlive, ?_⟩
        rw [hnext, length_cons]
        congr 3
        omega

omit [DecidableEq K] in
lemma nextEntry_eq {as bs : List (SetEntry K)} (hlen : set.table.length = set.mask + 1)
    (htable : set.table = as ++ bs) :
    set.nextEntry as.length = nextSlot (as ++ bs) bs.length as.length := by
  have hcount : ((set.mask : ℤ) + 1 - as.length).toNat = bs.length := by
    rw [htable, length_append] at hlen
    omega
  rw [BSet.nextEntry, hcount, htable]

omit [DecidableEq K] in
lemma takeEntries_eq (hlen : set.table.length = set.mask + 1) (hmax : set.table.length ≤ 2 ^ 30)
    (n : ℕ) (as bs : List (SetEntry K)) (htable : set.table = as ++ bs)
    (hn : (bs.filter fun e => e.key.isElem).length = n) :
    set.takeEntries n as.length = some (bs.filter fun e => e.key.isElem) := by
  induction n generalizing as bs with
  | zero =>
    rw [length_eq_zero_iff.mp hn]
    rfl
  | succ n ih =>
    have hle : as.length + bs.length ≤ 2 ^ 30 := by
      rw [htable, length_append] at hmax
      exact hmax
    rw [BSet.takeEntries, nextEntry_eq hlen htable]
    rcases exists_nextSlot as bs hle with ⟨hnil, -⟩ | ⟨cs, e, ds, rfl, hlive, hnext⟩
    · simp [hnil] at hn
    · rw [hlive, length_cons] at hn
      have := ih (as ++ cs ++ [e]) ds (by simp [htable]) (by omega)
      rw [length_append, length_append, length_singleton] at this
      rw [hnext, hlive]
      simp only [bind_eq_bind, bind_some, this, map_some]

omit [DecidableEq K] in
/-- The loops with a counter go through the elements. -/
theorem SetInv.entries_eq (h : SetInv hw P set) :
    set.entries = some (set.table.filter fun e => e.key.isElem) := by
  obtain ⟨l, -, hl, hmask⟩ := h.size
  have hmax : set.table.length ≤ 2 ^ 30 := by
    rw [h.length_table, hmask]
    exact Nat.pow_le_pow_right (by decide) hl
  refine takeEntries_eq h.length_table hmax _ [] set.table rfl ?_
  rw [h.numelements_eq, countElem, countP_eq_length_filter]

end Acton.Builtin
