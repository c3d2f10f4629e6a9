import Acton.Builtin.Set

/-!
# The invariant of a set

For sets whose elements have hashes that fit into a `long` and tell the elements apart
(`GoodKeys`):

* `TableOk`: every element is in one slot, and the search for its hash comes to this slot before it
  meets a free one.
* `SetInv`: the invariant of a set, with its counters.

`exists_lookkey` says what a search finds.
-/

namespace Acton.Builtin
open List Function Probe
variable {K β : Type}

@[simp]
lemma SetKey.isNull_eq : (SetKey.null : SetKey K).isNull ∧
    (SetKey.dummy : SetKey K).isNull = false ∧
    ∀ k : K, (SetKey.elem k).isNull = false := ⟨rfl, rfl, fun _ => rfl⟩

@[simp]
lemma SetKey.isElem_eq : (SetKey.null : SetKey K).isElem = false ∧
    (SetKey.dummy : SetKey K).isElem = false ∧ ∀ k : K, (SetKey.elem k).isElem :=
      ⟨rfl, rfl, fun _ => rfl⟩

/-! ## Hashes -/

/-- The elements in `P` have hashes that are not negative as a `long`, and that are different for
elements that are not equal. -/
structure GoodKeys (hw : Hashable K) (P : K → Prop) : Prop where
  lt : ∀ {a}, P a → (hw.hash a).toNat < 2 ^ 63
  eq : ∀ {a b}, P a → P b → hw.hash a = hw.hash b → hw.eq a b

lemma toLong_eq {h : UInt64} (hh : h.toNat < 2 ^ 63) : toLong h = h.toNat := by
  rw [toLong, BitVec.toInt_eq_toNat_of_lt]
  · rfl
  · change 2 * h.toNat < 2 ^ 64
    omega

/-! ## Probing -/

section Probing
variable {k h : ℕ}

/-- For a hash that is not negative, the code goes through the slots of the probe sequence. -/
theorem iterate_setProbe (mask h n : ℕ) : (setProbe mask)^[n] (setStart mask h)
    = (Probe.slot (mask + 1) h n, (((Probe.next (mask + 1))^[n] (h % (mask + 1), h)).2 : ℤ)) := by
  have hstep (x : ℕ × ℕ) : setProbe mask (x.1, (x.2 : ℤ))
      = ((Probe.next (mask + 1) x).1, ((Probe.next (mask + 1) x).2 : ℤ)) := by
    have hsum : ((x.1 : ℤ) * 5 + 1 + (x.2 : ℤ) / 32) % ((mask : ℤ) + 1)
        = ((x.1 * 5 + x.2 / 32 + 1) % (mask + 1) : ℕ) := by
      push_cast
      congr 1
      ring
    simp only [setProbe, Probe.next, hsum, Int.toNat_natCast]
    simp
  induction n with
  | zero =>
    have hmod : (h : ℤ) % ((mask : ℤ) + 1) = (h % (mask + 1) : ℕ) := by
      push_cast
      rfl
    simp only [setStart, slot, iterate_zero_apply, hmod, Int.toNat_natCast]
  | succ n ih => rw [iterate_succ_apply', ih, slot, hstep, slot,
      iterate_succ_apply']

/-- A search stops at the first slot that has an answer. -/
theorem exists_setSearch_eq {mask : ℕ} (hmask : mask + 1 = 2 ^ k) (hh : h < 2 ^ 64)
    (f : ℕ → Option (Option β)) {s : ℕ} (hs : s < mask + 1) (hf : (f s).isSome) :
    ∃ m r, setSearch mask h f = r ∧ f (Probe.slot (mask + 1) h m) = some r ∧
      ∀ j < m, f (Probe.slot (mask + 1) h j) = none := by
  obtain ⟨n, hn, hslot⟩ := exists_slot_eq hh (hmask ▸ hs)
  rw [← hmask] at hn hslot
  obtain ⟨m, -, r, hsearch, hr, hgo⟩ := exists_search_eq
    (setProbe mask) (fun x => f x.1) (setStart mask h) (show n < mask + 14 from hn)
    (by rwa [iterate_setProbe, hslot])
  simp only [iterate_setProbe] at hr hgo
  exact ⟨m, r, by rw [setSearch, hsearch, Option.join_some], hr, hgo⟩

end Probing

/-! ## Tables -/

/-- A slot is not free. -/
def Used (table : List (SetEntry K)) (i : ℕ) : Prop :=
  ∃ e, table[i]? = some e ∧ e.key.isNull = false

/-- A slot holds an element. -/
def HasElem (table : List (SetEntry K)) (i : ℕ) (k : K) : Prop := ∃ h, table[i]? = some ⟨.elem k, h⟩

/-- The table has an element that is equal to `k`. -/
def Holds (hw : Hashable K) (table : List (SetEntry K)) (k : K) : Prop :=
  ∃ i k', HasElem table i k' ∧ hw.eq k' k

structure TableOk (hw : Hashable K) (P : K → Prop) (table : List (SetEntry K)) : Prop where
  good : ∀ {i : ℕ} {k h}, table[i]? = some ⟨.elem k, h⟩ → P k ∧ h = (hw.hash k).toNat
  dummy : ∀ {i : ℕ} {h}, table[i]? = some ⟨.dummy, h⟩ → h = -1
  reach : ∀ {i : ℕ} {k}, HasElem table i k →
    Probe.Reach table.length (hw.hash k).toNat (Used table) i
  distinct : ∀ {i j : ℕ} {k k'}, HasElem table i k → HasElem table j k' → hw.eq k k' → i = j

variable {table : List (SetEntry K)} {e : SetEntry K}

/-- Two lists of entries have the same used slots and elements but for slot `i`. -/
theorem hasElem_set {i j : ℕ} {k : K} (hi : i < table.length) : HasElem (table.set i e) j k ↔
      (j = i ∧ e.key = .elem k) ∨ (j ≠ i ∧ HasElem table j k) := by
  rcases e with ⟨key, hash⟩
  rw [HasElem, HasElem]
  by_cases hij : i = j
  · subst hij
    simp [getElem?_set_self hi]
  · simp [getElem?_set_ne hij, Ne.symm hij]

lemma Used.set {i j : ℕ} (h : Used table j) (he : e.key.isNull = false) :
    Used (table.set i e) j := by
  obtain ⟨a, ha, hnull⟩ := h
  by_cases hij : i = j
  · subst hij
    exact ⟨e, getElem?_set_self (List.getElem?_eq_some_iff.mp ha).1, he⟩
  · exact ⟨a, by rwa [getElem?_set_ne hij], hnull⟩

namespace TableOk
variable {hw : Hashable K} {P : K → Prop} {table : List (SetEntry K)} {i : ℕ}

lemma replicate (hw : Hashable K) (P : K → Prop) (n : ℕ) :
    TableOk hw P (List.replicate n ⟨.null, 0⟩) := by
  have hnull {i : ℕ} {e : SetEntry K}
      (h : (List.replicate n (⟨.null, 0⟩ : SetEntry K))[i]? = some e) : e = ⟨.null, 0⟩ :=
    (mem_replicate.mp (mem_of_getElem? h)).2
  have hnone {i : ℕ} {k : K} (h : HasElem (List.replicate n ⟨.null, 0⟩) i k) : False := by
    obtain ⟨h, hi⟩ := h
    simpa using hnull hi
  exact ⟨fun h => by simpa using hnull h, fun h => by simpa using hnull h,
    fun h => (hnone h).elim, fun h _ _ => (hnone h).elim⟩

/-- A slot gets an element that the table does not have, or a mark. -/
theorem set (h : TableOk hw P table) (hi : i < table.length) (hnull : e.key.isNull = false)
    (helem : ∀ k, e.key = .elem k → P k ∧ e.hash = (hw.hash k).toNat ∧
      Probe.Reach table.length (hw.hash k).toNat (Used table) i ∧ ¬ Holds hw table k)
    (hdummy : e.key = .dummy → e.hash = -1) : TableOk hw P (table.set i e) := by
  have hget {j : ℕ} {a : SetEntry K} (hj : (table.set i e)[j]? = some a) :
      a = e ∨ table[j]? = some a := by
    rw [getElem?_set] at hj
    split_ifs at hj
    · exact .inl (Option.some.inj hj).symm
    · exact .inr hj
  refine ⟨fun hj => ?_, fun hj => ?_, fun {j k} hj => ?_, fun h1 h2 heq => ?_⟩
  · rcases hget hj with rfl | hj
    · exact ⟨(helem _ rfl).1, (helem _ rfl).2.1⟩
    · exact h.good hj
  · rcases hget hj with rfl | hj
    · exact hdummy rfl
    · exact h.dummy hj
  · rw [length_set]
    refine Probe.Reach.mono ?_ fun m (hm : Used table m) => hm.set hnull
    rcases (hasElem_set hi).mp hj with ⟨rfl, hk⟩ | ⟨-, hj⟩
    · exact (helem k hk).2.2.1
    · exact h.reach hj
  · rcases (hasElem_set hi).mp h1 with ⟨rfl, hk1⟩ | ⟨-, h1⟩ <;>
      rcases (hasElem_set hi).mp h2 with ⟨hj2, hk2⟩ | ⟨-, h2⟩
    · exact hj2.symm
    · exact absurd ⟨_, _, h2, hw.eq_symm heq⟩ (helem _ hk1).2.2.2
    · exact absurd ⟨_, _, h1, heq⟩ (helem _ hk2).2.2.2
    · exact h.distinct h1 h2 heq

lemma setElem (h : TableOk hw P table) (hi : i < table.length) {k : K} (hk : P k)
    (hreach : Probe.Reach table.length (hw.hash k).toNat (Used table) i)
    (hnew : ¬ Holds hw table k) : TableOk hw P (table.set i ⟨.elem k, (hw.hash k).toNat⟩) :=
  h.set hi rfl (by rintro _ ⟨⟩; exact ⟨hk, rfl, hreach, hnew⟩) nofun

lemma setDummy (h : TableOk hw P table) (hi : i < table.length) :
    TableOk hw P (table.set i ⟨.dummy, -1⟩) :=
  h.set hi rfl nofun fun _ => rfl

end TableOk

/-! ## Counting -/

/-- Slots with an element. -/
def countElem (table : List (SetEntry K)) : ℕ := table.countP fun e => e.key.isElem

/-- Slots that are not free. -/
def countUsed (table : List (SetEntry K)) : ℕ := table.countP fun e => !e.key.isNull

lemma countP_set {α : Type*} {p : α → Bool} {l : List α} {i : ℕ} {a : α} (hi : l[i]? = some a)
    (b : α) : (l.set i b).countP p + (if p a then 1 else 0)
      = l.countP p + (if p b then 1 else 0) := by
  obtain ⟨hlt, rfl⟩ := List.getElem?_eq_some_iff.mp hi
  have := boole_getElem_le_countP (p := p) hlt
  rw [List.countP_set hlt]
  omega

lemma exists_free (h : countUsed table < table.length) :
    ∃ (i : ℕ) (e : SetEntry K), table[i]? = some e ∧ e.key.isNull := by
  obtain ⟨e, he, hnull⟩ := countP_lt_length_iff.mp h
  obtain ⟨i, hi⟩ := getElem?_of_mem he
  exact ⟨i, e, hi, by simpa using hnull⟩

/-! ## Sets -/

structure SetInv (hw : Hashable K) (P : K → Prop) (set : BSet K) : Prop where
  size : ∃ k, 3 ≤ k ∧ k ≤ 30 ∧ set.mask + 1 = 2 ^ k
  length_table : set.table.length = set.mask + 1
  table : TableOk hw P set.table
  numelements_eq : set.numelements = countElem set.table
  fill_eq : set.fill = countUsed set.table
  load : set.fill * 5 < set.mask * 3

lemma SetInv.empty (hw : Hashable K) (P : K → Prop) : SetInv hw P BSet.empty where
  size := ⟨3, le_rfl, by decide, rfl⟩
  length_table := rfl
  table := .replicate hw P minSize
  numelements_eq := rfl
  fill_eq := rfl
  load := show 0 * 5 < 7 * 3 by decide

lemma SetInv.exists_free {hw : Hashable K} {P : K → Prop} {set : BSet K} (h : SetInv hw P set) :
    ∃ (i : ℕ) (e : SetEntry K), set.table[i]? = some e ∧ e.key.isNull := by
  refine Acton.Builtin.exists_free ?_
  have := h.load
  rw [← h.fill_eq, h.length_table]
  omega

/-! ## What a search finds -/

section Search
variable {hw : Hashable K} {P : K → Prop} {table : List (SetEntry K)}

/-- A slot that is not free and has the hash of an element holds an element that is equal to it. -/
theorem TableOk.eq_of_hash (h : TableOk hw P table) (hgood : GoodKeys hw P) {i : ℕ}
    (hi : table[i]? = some e) (hnull : e.key.isNull = false) {k : K} (hk : P k)
    (hhash : e.hash = (hw.hash k).toNat) : ∃ k', e.key = .elem k' ∧ hw.eq k' k := by
  rcases e with ⟨_ | _ | k', h'⟩
  · simp at hnull
  · have := h.dummy hi
    dsimp only at hhash
    omega
  · obtain ⟨hk', hh'⟩ := h.good hi
    refine ⟨k', rfl, hgood.eq hk' hk (UInt64.toNat_inj.mp ?_)⟩
    dsimp only at hhash
    omega

/-- If a search goes over used slots without the hash and ends at a free slot, the element is not
in the table. -/
theorem TableOk.not_holds (h : TableOk hw P table) {k : K} {m : ℕ}
    (hm : table[Probe.slot table.length (hw.hash k).toNat m]? = some e) (hnull : e.key.isNull)
    (hgo : ∀ j < m, ∀ e, table[Probe.slot table.length (hw.hash k).toNat j]? = some e →
      e.hash ≠ (hw.hash k).toNat) : ¬ Holds hw table k := by
  rintro ⟨i, k', hi, heq⟩
  obtain ⟨n, hn, hused⟩ := h.reach hi
  obtain ⟨h', hi⟩ := hi
  rw [hw.hash_eq heq] at hn hused
  have hh' : h' = (hw.hash k).toNat := by rw [(h.good hi).2, hw.hash_eq heq]
  rcases lt_trichotomy m n with hmn | rfl | hmn
  · obtain ⟨a, ha, hanull⟩ := hused m hmn
    rw [hm] at ha
    obtain ⟨⟩ := ha
    simp [hnull] at hanull
  · rw [hn, hi] at hm
    obtain ⟨⟩ := hm
    simp at hnull
  · exact hgo n hmn _ (hn ▸ hi) hh'

variable [DecidableEq K]

/-- A search ends at the slot of the element, or at a free slot if it is not in the table. -/
theorem SetInv.exists_lookkey {set : BSet K} (h : SetInv hw P set) (hgood : GoodKeys hw P) {k : K}
    (hk : P k) : ∃ (i : ℕ) (e : SetEntry K), lookkey hw set k (hw.hash k).toNat = some i ∧
      set.table[i]? = some e ∧
      ((∃ k', e.key = .elem k' ∧ hw.eq k' k) ∨ (e.key.isNull ∧ ¬ Holds hw set.table k)) := by
  obtain ⟨l, -, -, hmask⟩ := h.size
  obtain ⟨s, e0, hs, hnull⟩ := h.exists_free
  have hlt : s < set.mask + 1 := h.length_table ▸ (List.getElem?_eq_some_iff.mp hs).1
  obtain ⟨m, r, hsearch, hr, hgo⟩ := exists_setSearch_eq hmask (hw.hash k).toNat_lt
    (lookSlot hw set k (hw.hash k).toNat) hlt (by simp [lookSlot, hs, hnull])
  rw [← h.length_table] at hr hgo
  rw [lookkey, hsearch]
  obtain ⟨e, he⟩ : ∃ e, set.table[slot set.table.length (hw.hash k).toNat m]? = some e :=
    ⟨_, getElem?_eq_getElem (slot_lt (by rw [h.length_table]; omega) _ _)⟩
  simp only [lookSlot, he] at hr
  split_ifs at hr with hfree hhash
  · obtain ⟨⟩ := hr
    refine ⟨_, e, rfl, he, .inr ⟨hfree, h.table.not_holds he hfree fun j hj a ha hah => ?_⟩⟩
    have hj' := hgo j hj
    simp only [lookSlot, ha] at hj'
    split_ifs at hj' with hanull
    -- a slot with the hash ends the search
    obtain ⟨k', hk', -⟩ := h.table.eq_of_hash hgood ha (by simpa using hanull) hk hah
    simp [hk', testKey, eqPtr] at hj'
  · obtain ⟨k', hk', heq⟩ := h.table.eq_of_hash hgood he (by simpa using hfree) hk hhash
    simp only [hk', testKey, eqPtr, Option.isSome_some, or_true, decide_true] at hr
    obtain ⟨⟩ := hr
    exact ⟨_, e, rfl, he, .inl ⟨k', hk', heq⟩⟩

end Search
end Acton.Builtin
