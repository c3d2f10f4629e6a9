import Acton.Builtin.Set.Operations

/-!
# Sets are finite sets

A sequence of operations on sets does what the same operations on finite sets of elements modulo
equality do (`set_correct`), under the following conditions, of which none can be left out
altogether (`set_diverges`):

* elements that are not equal have different hashes: the code takes elements with the same hash to
  be equal, because it uses the pointer that `__eq__` returns as a truth value;
* the hash is not negative as a `long`: with a negative perturbation, the probe sequence need not
  come to every slot, and `-1` is the hash of removed elements;
* `isdisjoint` is not called for two objects without a common element: the `StopIteration` of the
  iterator is not caught.

Sets have less than `2 ^ 28` elements here, so that slots fit into an `int`.
-/

namespace Acton.Builtin
open List Function Builtin.Hashable BSet
open Option hiding or_assoc
variable {K : Type}

/-! ## Elements modulo equality -/

/-- The equality of a witness. -/
def Hashable.setoid (hw : Hashable K) : Setoid K where
  r a b := hw.eq a b
  iseqv := ⟨hw.eq_refl, hw.eq_symm, hw.eq_trans⟩

/-- Elements modulo equality. -/
abbrev Hashable.Elem (hw : Hashable K) : Type := Quotient hw.setoid
def Hashable.toElem (hw : Hashable K) (k : K) : hw.Elem := Quotient.mk hw.setoid k

instance (hw : Hashable K) : DecidableEq hw.Elem :=
  @Quotient.decidableEq K hw.setoid fun a b => inferInstanceAs (Decidable (hw.eq a b = true))

@[simp]
lemma Hashable.toElem_eq_toElem {hw : Hashable K} {a b : K} : hw.toElem a = hw.toElem b ↔
    hw.eq a b :=
  Quotient.eq (r := hw.setoid)

lemma Hashable.exists_toElem {hw : Hashable K} (q : hw.Elem) : ∃ k, hw.toElem k = q :=
  Quotient.exists_rep q

/-- The finite set of the elements of a list. -/
def Hashable.toFinset (hw : Hashable K) (ks : List K) : Finset hw.Elem :=
    (ks.map hw.toElem).toFinset

variable {k : K}

/-! ## The operations on finite sets -/

/-- The finite sets that the objects stand for. -/
abbrev SetModel (hw : Hashable K) := ℕ → Finset hw.Elem

/-- What an operation on finite sets returns, and what it changes. `pop` may take any element. -/
def SetOp.Spec (hw : Hashable K) (A : SetModel hw) : SetOp K → SetResult K → SetModel hw → Prop
  | .new dst elems, r, A' => r = .unit ∧ A' = Function.update A dst (hw.toFinset elems)
  | .add x k, r, A' => r = .unit ∧ A' = Function.update A x (insert (hw.toElem k) (A x))
  | .discard x k, r, A' => r = .unit ∧ A' = Function.update A x ((A x).erase (hw.toElem k))
  | .pop x, r, A' => A x = ∅ ∧ r = .valueError "pop from an empty set" ∧ A' = A ∨
      ∃ k, hw.toElem k ∈ A x ∧ r = .elem k ∧ A' = Function.update A x ((A x).erase (hw.toElem k))
  | .update x elems, r, A' => r = .unit ∧ A' = Function.update A x (A x ∪ hw.toFinset elems)
  | .updateSet x y, r, A' => r = .unit ∧ A' = Function.update A x (A x ∪ A y)
  | .or dst x y, r, A' => r = .unit ∧ A' = Function.update A dst (A x ∪ A y)
  | .and dst x y, r, A' => r = .unit ∧ A' = Function.update A dst (A x ∩ A y)
  | .sub dst x y, r, A' => r = .unit ∧ A' = Function.update A dst (A x \ A y)
  | .xor dst x y, r, A' => r = .unit ∧ A' = Function.update A dst (symmDiff (A x) (A y))
  | .isdisjoint x y, r, A' => r = .bool (Disjoint (A x) (A y)) ∧ A' = A
  | .contains x k, r, A' => r = .bool (hw.toElem k ∈ A x) ∧ A' = A
  | .containsnot x k, r, A' => r = .bool (hw.toElem k ∉ A x) ∧ A' = A
  | .len x, r, A' => r = .int (A x).card ∧ A' = A

/-- A sequence of operations on finite sets with these results. -/
def SpecRun (hw : Hashable K) :
    SetModel hw → List (SetOp K) → List (SetResult K) → SetModel hw → Prop
  | A, [], rs, A' => rs = [] ∧ A' = A
  | A, op :: ops, rs, A' => ∃ r rs' A₁, rs = r :: rs' ∧ op.Spec hw A r A₁ ∧ SpecRun hw A₁ ops rs' A'

/-! ## What a set stands for -/

/-- The finite set of the elements of a set. -/
def Content (hw : Hashable K) (set : BSet K) (A : Finset hw.Elem) : Prop :=
  ∀ k, hw.toElem k ∈ A ↔ Holds hw set.table k

section Content
variable {hw : Hashable K} {P : K → Prop} {set : BSet K} {A : Finset hw.Elem}

lemma Content.eq_toFinset (h : Content hw set A) : A = hw.toFinset (elems set.table) := by
  ext q
  obtain ⟨k, rfl⟩ := Hashable.exists_toElem q
  rw [h, holds_iff_mem_elems]
  simp [Hashable.toFinset]

lemma SetInv.nodup (h : SetInv hw P set) : ((elems set.table).map hw.toElem).Nodup :=
  pairwise_map.mpr (h.table.listed.distinct.imp fun hne heq =>
    hne (toElem_eq_toElem.mp heq))

lemma SetInv.card_eq (h : SetInv hw P set) (hA : Content hw set A) : A.card = set.numelements := by
  rw [hA.eq_toFinset, Hashable.toFinset, toFinset_card_of_nodup h.nodup, length_map,
    length_elems, h.numelements_eq]

lemma Content.empty : Content hw BSet.empty ∅ := fun k =>
  iff_of_false (Finset.notMem_empty _) (not_holds_replicate minSize k)

lemma Content.erase {set' : BSet K} (hA : Content hw set A)
    (h : ∀ k', Holds hw set'.table k' ↔ Holds hw set.table k' ∧ ¬ hw.eq k k') :
    Content hw set' (A.erase (hw.toElem k)) := by
  intro k'
  rw [h, Finset.mem_erase, hA, and_comm, Ne, toElem_eq_toElem]
  exact and_congr_right' (not_congr ⟨hw.eq_symm, hw.eq_symm⟩)

end Content

/-! ## Adding the elements of a list -/

section Update
variable [DecidableEq K] {hw : Hashable K} {P : K → Prop} {set : BSet K} {A : Finset hw.Elem}
section Entry
variable (h : SetInv hw P set) (hgood : GoodKeys hw P) (hA : Content hw set A) (hk : P k)
include h hgood hA hk

lemma SetInv.exists_insertEntry (hmax : (insert (hw.toElem k) A).card < 2 ^ 29) :
    ∃ set', addEntry hw set k (hw.hash k).toNat = some set' ∧ SetInv hw P set' ∧
      Content hw set' (insert (hw.toElem k) A) := by
  obtain ⟨set', hadd, hinv, hholds⟩ := h.exists_addEntry hgood hk fun hnew => by
    have hnotMem : hw.toElem k ∉ A := fun hmem => hnew ((hA k).mp hmem)
    rwa [Finset.card_insert_of_notMem hnotMem, h.card_eq hA] at hmax
  refine ⟨set', hadd, hinv, fun k' => ?_⟩
  rw [hholds, ← hA k', Finset.mem_insert, toElem_eq_toElem]
  exact ⟨fun h => h.elim (fun h => .inr (hw.eq_symm h)) .inl,
    fun h => h.elim .inr fun h => .inl (hw.eq_symm h)⟩

lemma SetInv.exists_eraseEntry : ∃ set', discardEntry hw set k (hw.hash k).toNat =
      some ((hw.toElem k ∈ A : Bool), set') ∧
      SetInv hw P set' ∧ Content hw set' (A.erase (hw.toElem k)) := by
  obtain ⟨b, set', hdiscard, hinv, hb, hholds⟩ := h.exists_discardEntry hgood hk
  refine ⟨set', ?_, hinv, hA.erase hholds⟩
  rw [hdiscard, Bool.eq_iff_iff.mpr (hb.trans ((hA k).symm.trans decide_eq_true_iff.symm))]

lemma SetInv.containsEntry_eq_mem :
    containsEntry hw set k (hw.hash k).toNat = some (hw.toElem k ∈ A : Bool) := by
  obtain ⟨b, hcontains, hb⟩ := h.containsEntry_eq hgood hk
  rw [hcontains, Bool.eq_iff_iff.mpr (hb.trans ((hA k).symm.trans decide_eq_true_iff.symm))]

lemma SetInv.exists_add (hmax : (insert (hw.toElem k) A).card < 2 ^ 28) :
    ∃ set', set.add hw k = some set' ∧ SetInv hw P set' ∧
      Content hw set' (insert (hw.toElem k) A) := by
  rw [add, toLong_eq (hgood.lt hk)]
  exact h.exists_insertEntry hgood hA hk (hmax.trans (by decide))

end Entry
omit [DecidableEq K] in
lemma Hashable.union_toFinset_cons (A : Finset hw.Elem) (k : K) (ks : List K) :
    A ∪ hw.toFinset (k :: ks) = insert (hw.toElem k) A ∪ hw.toFinset ks := by
  ext q
  simp only [toFinset, map_cons, toFinset_cons, Finset.mem_union, Finset.mem_insert]
  tauto

lemma SetInv.exists_update (h : SetInv hw P set) (hgood : GoodKeys hw P)
    (hA : Content hw set A) (ks : List K) (hks : ∀ k ∈ ks, P k)
    (hmax : (A ∪ hw.toFinset ks).card < 2 ^ 28) :
    ∃ set', set.update hw ks = some set' ∧ SetInv hw P set' ∧
      Content hw set' (A ∪ hw.toFinset ks) := by
  induction ks generalizing set A with
  | nil => exact ⟨set, rfl, h, by simpa [Hashable.toFinset] using hA⟩
  | cons k ks ih =>
    rw [Hashable.union_toFinset_cons] at hmax ⊢
    obtain ⟨s1, hadd, h1, hA1⟩ := h.exists_add hgood hA (hks k mem_cons_self)
      (lt_of_le_of_lt (Finset.card_le_card Finset.subset_union_left) hmax)
    obtain ⟨s2, hupdate, h2⟩ := ih h1 hA1 (fun a ha => hks a (mem_cons_of_mem k ha)) hmax
    refine ⟨s2, ?_, h2⟩
    rw [BSet.update, foldlM_cons, hadd]
    exact hupdate

lemma SetInv.exists_new (hgood : GoodKeys hw P) (ks : List K) (hks : ∀ k ∈ ks, P k)
    (hmax : (hw.toFinset ks).card < 2 ^ 28) :
    ∃ set', BSet.new hw ks = some set' ∧ SetInv hw P set' ∧ Content hw set' (hw.toFinset ks) := by
  have := (SetInv.empty hw P).exists_update hgood Content.empty ks hks
    (by rwa [Finset.empty_union])
  rwa [Finset.empty_union] at this

omit [DecidableEq K] in
lemma SetInv.good_of_mem (h : SetInv hw P set) (hk : k ∈ elems set.table) : P k := by
  obtain ⟨i, h', hi⟩ := mem_elems.mp hk
  exact (h.table.good hi).1

omit [DecidableEq K] in
lemma mapM_elem? {entries : List (SetEntry K)} {ks : List K}
    (h : List.Forall₂ (EntryOk hw P) entries ks) : entries.mapM SetEntry.elem? = some ks := by
  induction h with
  | nil => rfl
  | cons he _ ih =>
    obtain ⟨rfl, -⟩ := he
    rw [mapM_cons, ih]
    rfl

lemma SetInv.exists_updateSet {other : BSet K} {B : Finset hw.Elem} (h : SetInv hw P set)
    (hother : SetInv hw P other) (hgood : GoodKeys hw P) (hA : Content hw set A)
    (hB : Content hw other B) (hmax : (A ∪ B).card < 2 ^ 28) :
    ∃ set', set.updateSet hw other = some set' ∧ SetInv hw P set' ∧ Content hw set' (A ∪ B) := by
  obtain rfl := hB.eq_toFinset
  obtain ⟨set', hupdate, h'⟩ := h.exists_update hgood hA (elems other.table)
    (fun k hk => hother.good_of_mem hk) hmax
  refine ⟨set', ?_, h'⟩
  simp only [updateSet, hother.entries_eq, mapM_elem? hother.table.listed.entries_ok,
    bind_eq_bind, bind_some, hupdate]

end Update

/-! ## The operators -/

section Operators
variable [DecidableEq K] {hw : Hashable K} {P : K → Prop} {set other : BSet K}
  {A B : Finset hw.Elem}
omit [DecidableEq K] in
/-- The rule for the loops of the operators: every step goes on from what the operator gives for
the elements `D` that came before to what it gives for one more. -/
theorem SetInv.exists_forEntries (h : SetInv hw P other) (hB : Content hw other B)
    {f : BSet K → K → ℤ → Option (BSet K)} (F : Finset hw.Elem → Finset hw.Elem) {res : BSet K}
    (hres : SetInv hw P res) (hinit : Content hw res (F ∅))
    (hstep : ∀ D k res, insert (hw.toElem k) D ⊆ B → hw.toElem k ∉ D → P k → SetInv hw P res →
      Content hw res (F D) → ∃ res', f res k (hw.hash k).toNat = some res' ∧ SetInv hw P res' ∧
        Content hw res' (F (insert (hw.toElem k) D))) :
    ∃ res', other.forEntries res f = some res' ∧ SetInv hw P res' ∧ Content hw res' (F B) := by
  have hloop {entries : List (SetEntry K)} {ks : List K}
      (hlist : List.Forall₂ (EntryOk hw P) entries ks) : ∀ {D res}, D ∪ hw.toFinset ks = B →
      (ks.map hw.toElem).Nodup → (∀ q ∈ ks.map hw.toElem, q ∉ D) → SetInv hw P res →
      Content hw res (F D) → ∃ res', entries.foldlM (fun res entry => do
          let k ← entry.elem?
          f res k entry.hash) res = some res' ∧ SetInv hw P res' ∧ Content hw res' (F B) := by
    induction hlist with
    | nil =>
      intro D res hD _ _ hres hcontent
      obtain rfl : D = B := by simpa [Hashable.toFinset] using hD
      exact ⟨res, rfl, hres, hcontent⟩
    | @cons e k entries ks he _ ih =>
      intro D res hD hnodup hnew hres hcontent
      obtain ⟨rfl, hk⟩ := he
      rw [Hashable.union_toFinset_cons] at hD
      obtain ⟨r1, hf, hres1, hcontent1⟩ := hstep D k res (hD ▸ Finset.subset_union_left)
        (hnew _ mem_cons_self) hk hres hcontent
      obtain ⟨r2, hfold, hr2⟩ := ih hD hnodup.of_cons (by grind) hres1 hcontent1
      refine ⟨r2, ?_, hr2⟩
      rw [foldlM_cons]
      simp only [SetEntry.elem?, bind_eq_bind, bind_some, hf]
      exact hfold
  rw [BSet.forEntries, h.entries_eq]
  exact hloop h.table.listed.entries_ok (by rw [hB.eq_toFinset, Finset.empty_union]) h.nodup
    (fun q _ => Finset.notMem_empty q) hres hinit

variable (h : SetInv hw P set) (hother : SetInv hw P other) (hgood : GoodKeys hw P)
  (hA : Content hw set A) (hB : Content hw other B)
include h hother hgood hA hB

lemma SetInv.exists_sub : ∃ set', set.sub hw other = some set' ∧ SetInv hw P set' ∧
    Content hw set' (A \ B) := by
  refine hother.exists_forEntries hB (A \ ·) h (by rwa [Finset.sdiff_empty])
    fun D k res _ _ hk hres hcontent => ?_
  obtain ⟨res', hdiscard, hres'⟩ := hres.exists_eraseEntry hgood hcontent hk
  rw [Finset.sdiff_insert, hdiscard]
  exact ⟨res', rfl, hres'⟩

lemma SetInv.exists_or_of_le (hmax : A.card + B.card < 2 ^ 29) :
    ∃ set', (other.forEntries set fun res k hash => addEntry hw res k hash) = some set' ∧
      SetInv hw P set' ∧ Content hw set' (A ∪ B) := by
  refine hother.exists_forEntries hB (A ∪ ·) h (by rwa [Finset.union_empty])
    fun D k res hD _ hk hres hcontent => ?_
  have hcard := (Finset.card_le_card (Finset.union_subset_union_right hD)).trans
    (Finset.card_union_le A B)
  rw [Finset.union_insert] at hcard ⊢
  exact hres.exists_insertEntry hgood hcontent hk (by omega)

lemma SetInv.exists_and_of_le (hmax : A.card < 2 ^ 29) :
    ∃ set', (set.forEntries BSet.empty fun res k hash => do
        if ← containsEntry hw other k hash then addEntry hw res k hash else some res)
        = some set' ∧ SetInv hw P set' ∧ Content hw set' (A ∩ B) := by
  refine h.exists_forEntries hA (· ∩ B) (.empty hw P) (by rw [Finset.empty_inter]; exact .empty)
    fun D k res hD _ hk hres hcontent => ?_
  simp only [hother.containsEntry_eq_mem hgood hB hk, bind_eq_bind, bind_some, decide_eq_true_eq]
  split_ifs with hmem
  · have hsub : insert (hw.toElem k) D ∩ B ⊆ A := Finset.inter_subset_left.trans hD
    have hcard := Finset.card_le_card hsub
    rw [Finset.insert_inter_of_mem hmem] at hcard ⊢
    exact hres.exists_insertEntry hgood hcontent hk (by omega)
  · rw [Finset.insert_inter_of_notMem hmem]
    exact ⟨res, rfl, hres, hcontent⟩

lemma SetInv.exists_xor (hmax : A.card + B.card < 2 ^ 29) :
    ∃ set', set.xor hw other = some set' ∧ SetInv hw P set' ∧ Content hw set' (symmDiff A B) := by
  refine hother.exists_forEntries hB (symmDiff A ·) h (by rwa [← Finset.bot_eq_empty, symmDiff_bot])
    fun D k res hD hnew hk hres hcontent => ?_
  obtain ⟨r1, hdiscard, hr1, hcontent1⟩ := hres.exists_eraseEntry hgood hcontent hk
  simp only [hdiscard, bind_eq_bind, bind_some, decide_eq_true_eq]
  split_ifs with hmem
  · have heq : symmDiff A (insert (hw.toElem k) D) = (symmDiff A D).erase (hw.toElem k) := by
      grind [Finset.mem_symmDiff]
    rw [heq]
    exact ⟨r1, rfl, hr1, hcontent1⟩
  · have heq : symmDiff A (insert (hw.toElem k) D) =
        insert (hw.toElem k) ((symmDiff A D).erase (hw.toElem k)) := by
      grind [Finset.mem_symmDiff]
    have hsub : symmDiff A (insert (hw.toElem k) D) ⊆ A ∪ B :=
      symmDiff_le_sup.trans (Finset.union_subset_union_right hD)
    have hcard := (Finset.card_le_card hsub).trans (Finset.card_union_le A B)
    rw [heq] at hcard ⊢
    exact hr1.exists_insertEntry hgood hcontent1 hk (by omega)

lemma SetInv.exists_or (hmax : A.card + B.card < 2 ^ 29) :
    ∃ set', set.or hw other = some set' ∧ SetInv hw P set' ∧ Content hw set' (A ∪ B) := by
  rw [BSet.or]
  split_ifs with hlt
  · rw [Finset.union_comm]
    exact hother.exists_or_of_le h hgood hB hA (by omega)
  · exact h.exists_or_of_le hother hgood hA hB hmax

lemma SetInv.exists_and (hmax : A.card + B.card < 2 ^ 29) :
    ∃ set', set.and hw other = some set' ∧ SetInv hw P set' ∧ Content hw set' (A ∩ B) := by
  rw [BSet.and]
  split_ifs with hlt
  · rw [Finset.inter_comm]
    exact hother.exists_and_of_le h hgood hB hA (by omega)
  · exact h.exists_and_of_le hother hgood hA hB (by omega)

end Operators

/-! ## `isdisjoint` -/

section Disjoint
variable [DecidableEq K] {hw : Hashable K} {P : K → Prop} {set other : BSet K}
  {A B : Finset hw.Elem}

/-- The loop stops at an element that the other set has too. -/
theorem SetInv.disjointLoop_eq (h : SetInv hw P set) (hother : SetInv hw P other)
    (hgood : GoodKeys hw P) {f : ℕ} (as bs : List (SetEntry K)) (htable : other.table = as ++ bs)
    (hf : bs.length < f) {e : SetEntry K} (he : e ∈ bs) (hk : e.key = .elem k)
    (hholds : Holds hw set.table k) :
    BSet.disjointLoop hw set other f as.length = some (some false) := by
  induction f generalizing as bs with
  | zero => exact absurd hf (Nat.not_lt_zero _)
  | succ f ih =>
    have hmax : as.length + bs.length ≤ 2 ^ 30 := by
      obtain ⟨l, -, hl, hmask⟩ := hother.size
      rw [← length_append, ← htable, hother.length_table, hmask]
      exact Nat.pow_le_pow_right (by decide) hl
    rw [disjointLoop, nextEntry_eq hother.length_table htable]
    rcases exists_nextSlot as bs hmax with ⟨hnil, -⟩ | ⟨cs, a, ds, rfl, hfilter, hnext⟩
    · have : e ∈ bs.filter fun e => e.key.isElem := mem_filter.mpr ⟨he, by simp [hk]⟩
      simp [hnil] at this
    · -- the next entry holds an element, with its hash
      have hmem : a ∈ cs ++ a :: ds := by simp
      have ha : a.key.isElem := by
        have : a ∈ (cs ++ a :: ds).filter fun e => e.key.isElem := by simp [hfilter]
        exact (mem_filter.mp this).2
      obtain ⟨k', hk'⟩ : ∃ k', a.key = .elem k' := by
        revert ha
        cases a.key <;> simp
      obtain ⟨rfl, hP⟩ := hother.table.entryOk (htable ▸ mem_append_right as hmem) hk'
      obtain ⟨b, hcontains, hb⟩ := h.containsEntry_eq hgood hP
      simp only [hnext, bind_eq_bind, bind_some, SetEntry.elem?, hcontains]
      cases b with
      | true => rfl
      | false =>
        have hne : Holds hw set.table k' → False := fun hk' => Bool.false_ne_true (hb.mpr hk')
        have := ih (as ++ cs ++ [⟨.elem k', (hw.hash k').toNat⟩]) ds
          (by simp [htable]) (by simp at hf; omega) ?_
        · rw [length_append, length_append, length_singleton] at this
          exact this
        · -- the common element is one of those that are left
          have hef : e ∈ (cs ++ ⟨.elem k', (hw.hash k').toNat⟩ :: ds).filter
              fun e => e.key.isElem := mem_filter.mpr ⟨he, by simp [hk]⟩
          rw [hfilter] at hef
          rcases mem_cons.mp hef with rfl | hef
          · obtain rfl : k' = k := by simpa using hk
            exact (hne hholds).elim
          · exact (mem_filter.mp hef).1

lemma SetInv.isdisjoint_eq (h : SetInv hw P set) (hother : SetInv hw P other)
    (hgood : GoodKeys hw P) (hA : Content hw set A) (hB : Content hw other B)
    (hnot : ¬ Disjoint A B) : set.isdisjoint hw false other = some (some false) := by
  obtain ⟨q, hqA, hqB⟩ := Finset.not_disjoint_iff.mp hnot
  obtain ⟨k, rfl⟩ := exists_toElem q
  -- a common element is in both tables, up to equality
  have hcommon {s t : BSet K} {S T : Finset hw.Elem} (hS : Content hw s S) (hT : Content hw t T)
      (hkS : hw.toElem k ∈ S) (hkT : hw.toElem k ∈ T) :
      ∃ e ∈ t.table, ∃ k', e.key = .elem k' ∧ Holds hw s.table k' := by
    obtain ⟨i, k', ⟨h', hi⟩, heq⟩ := (hT k).mp hkT
    refine ⟨_, mem_of_getElem? hi, k', rfl, (hS k').mp ?_⟩
    rwa [toElem_eq_toElem.mpr heq]
  rw [isdisjoint]
  simp only [Bool.false_eq_true, if_false]
  split_ifs with hlt
  · obtain ⟨e, he, k', hk', hholds⟩ := hcommon hB hA hqB hqA
    exact hother.disjointLoop_eq h hgood [] _ rfl (by rw [h.length_table]; omega) he hk' hholds
  · obtain ⟨e, he, k', hk', hholds⟩ := hcommon hA hB hqA hqB
    exact h.disjointLoop_eq hother hgood [] _ rfl (by rw [hother.length_table]; omega) he hk' hholds

end Disjoint

/-! ## Sequences of operations -/

/-- The elements that an operation gets. -/
def SetOp.elems : SetOp K → List K
  | .new _ elems => elems
  | .add _ k => [k]
  | .discard _ k => [k]
  | .update _ elems => elems
  | .contains _ k => [k]
  | .containsnot _ k => [k]
  | _ => []

/-- `isdisjoint` of two objects is asked only if they have a common element. -/
def SetOp.Safe {hw : Hashable K} (A : SetModel hw) : SetOp K → Prop
  | .isdisjoint x y => x = y ∨ ¬ Disjoint (A x) (A y)
  | _ => True

section Run
variable [DecidableEq K] {hw : Hashable K} {P : K → Prop} {σ : SetHeap K} {A : SetModel hw}

/-- All objects have the invariant, and stand for these finite sets. -/
def HeapOk (hw : Hashable K) (P : K → Prop) (σ : SetHeap K) (A : SetModel hw) : Prop :=
  ∀ x, SetInv hw P (σ x) ∧ Content hw (σ x) (A x) ∧ (A x).card < 2 ^ 28

omit [DecidableEq K] in
lemma HeapOk.init : HeapOk hw P (fun _ => .empty) (fun _ => ∅) := fun _ =>
  ⟨.empty hw _, Content.empty, by simp⟩

omit [DecidableEq K] in
lemma HeapOk.update (h : HeapOk hw P σ A) {x : ℕ} {set : BSet K} {B : Finset hw.Elem}
    (hset : SetInv hw P set ∧ Content hw set B) (hmax : B.card < 2 ^ 28) :
    HeapOk hw P (Function.update σ x set) (Function.update A x B) := by
  intro y
  by_cases hy : y = x
  · subst hy
    simpa using ⟨hset.1, hset.2, hmax⟩
  · simpa [update_of_ne hy] using h y

omit [DecidableEq K] in
lemma HeapOk.card_add_card_lt (h : HeapOk hw P σ A) (x y : ℕ) :
    (A x).card + (A y).card < 2 ^ 29 := by
  have hx := (h x).2.2
  have hy := (h y).2.2
  omega

/-- One operation does what it does on the finite sets. -/
theorem HeapOk.exists_run (h : HeapOk hw P σ A) (hgood : GoodKeys hw P) (op : SetOp K)
    (helems : ∀ k ∈ op.elems, P k) (hsafe : op.Safe A)
    (hmax : ∀ r A', op.Spec hw A r A' → ∀ x, (A' x).card < 2 ^ 28) :
    ∃ r σ' A', op.run hw σ = some (r, σ') ∧ op.Spec hw A r A' ∧ HeapOk hw P σ' A' := by
  -- an operation that puts a set somewhere
  have hput {dst : ℕ} {B : Finset hw.Elem} {res : Option (BSet K)}
      (hspec : op.Spec hw A .unit (Function.update A dst B))
      (hrun : op.run hw σ = res.map fun s => (.unit, Function.update σ dst s))
      (hres : B.card < 2 ^ 28 → ∃ s, res = some s ∧ SetInv hw P s ∧ Content hw s B) :
      ∃ r σ' A', op.run hw σ = some (r, σ') ∧ op.Spec hw A r A' ∧ HeapOk hw P σ' A' := by
    have hB : B.card < 2 ^ 28 := by simpa using hmax _ _ hspec dst
    obtain ⟨s, rfl, hs⟩ := hres hB
    exact ⟨.unit, _, _, hrun, hspec, h.update hs hB⟩
  cases op with
  | new dst ks =>
    exact hput ⟨rfl, rfl⟩ rfl fun hB => SetInv.exists_new hgood ks helems hB
  | add x k =>
    exact hput ⟨rfl, rfl⟩ rfl fun hB =>
      (h x).1.exists_add hgood (h x).2.1 (helems k mem_cons_self) hB
  | discard x k =>
    have hk := helems k mem_cons_self
    refine hput ⟨rfl, rfl⟩ rfl fun _ => ?_
    obtain ⟨s, hdiscard, hs⟩ := (h x).1.exists_eraseEntry hgood (h x).2.1 hk
    exact ⟨s, by rw [BSet.discard, toLong_eq (hgood.lt hk), hdiscard]; rfl, hs⟩
  | pop x =>
    obtain ⟨r, s, hpop, hinv, hr⟩ := (h x).1.exists_pop
    rw [SetOp.run, hpop]
    cases r with
    | none =>
      obtain ⟨rfl, hempty⟩ := hr
      refine ⟨_, _, A, rfl, .inl ⟨?_, rfl, rfl⟩, by rwa [update_eq_self]⟩
      refine Finset.eq_empty_of_forall_notMem fun q hq => ?_
      obtain ⟨k, rfl⟩ := Hashable.exists_toElem q
      exact hempty k (((h x).2.1 k).mp hq)
    | some a =>
      obtain ⟨-, ha, hholds⟩ := hr
      refine ⟨_, _, _, rfl, .inr ⟨a, ((h x).2.1 a).mpr ha, rfl, rfl⟩,
        h.update ⟨hinv, (h x).2.1.erase hholds⟩ ?_⟩
      exact lt_of_le_of_lt (Finset.card_le_card (Finset.erase_subset _ _)) (h x).2.2
  | update x ks =>
    exact hput ⟨rfl, rfl⟩ rfl fun hB => (h x).1.exists_update hgood (h x).2.1 ks helems hB
  | updateSet x y =>
    by_cases hxy : x = y
    · subst hxy
      refine ⟨.unit, σ, A, if_pos rfl, ⟨rfl, ?_⟩, h⟩
      rw [Finset.union_self, update_eq_self]
    · exact hput ⟨rfl, rfl⟩ (if_neg hxy) fun hB =>
        (h x).1.exists_updateSet (h y).1 hgood (h x).2.1 (h y).2.1 hB
  | or dst x y =>
    exact hput ⟨rfl, rfl⟩ rfl fun _ => (h x).1.exists_or (h y).1 hgood (h x).2.1 (h y).2.1
      (h.card_add_card_lt x y)
  | and dst x y =>
    exact hput ⟨rfl, rfl⟩ rfl fun _ => (h x).1.exists_and (h y).1 hgood (h x).2.1 (h y).2.1
      (h.card_add_card_lt x y)
  | sub dst x y =>
    exact hput ⟨rfl, rfl⟩ rfl fun _ => (h x).1.exists_sub (h y).1 hgood (h x).2.1 (h y).2.1
  | xor dst x y =>
    exact hput ⟨rfl, rfl⟩ rfl fun _ => (h x).1.exists_xor (h y).1 hgood (h x).2.1 (h y).2.1
      (h.card_add_card_lt x y)
  | isdisjoint x y =>
    rw [SetOp.run]
    by_cases heq : x = y
    · subst heq
      refine ⟨_, σ, A, by simp [BSet.isdisjoint]; rfl, ⟨?_, rfl⟩, h⟩
      rw [← (h x).1.card_eq (h x).2.1]
      simp [Finset.card_eq_zero]
    · have hnot := hsafe.resolve_left heq
      rw [decide_eq_false heq, (h x).1.isdisjoint_eq (h y).1 hgood (h x).2.1 (h y).2.1 hnot]
      exact ⟨_, σ, A, rfl, ⟨by simp [hnot], rfl⟩, h⟩
  | contains x k =>
    have hk := helems k mem_cons_self
    refine ⟨_, σ, A, ?_, ⟨rfl, rfl⟩, h⟩
    rw [SetOp.run, BSet.contains, toLong_eq (hgood.lt hk),
      (h x).1.containsEntry_eq_mem hgood (h x).2.1 hk]
    rfl
  | containsnot x k =>
    have hk := helems k mem_cons_self
    refine ⟨_, σ, A, ?_, ⟨rfl, rfl⟩, h⟩
    rw [SetOp.run, BSet.containsnot, BSet.contains, toLong_eq (hgood.lt hk),
      (h x).1.containsEntry_eq_mem hgood (h x).2.1 hk]
    simp
  | len x =>
    refine ⟨_, σ, A, rfl, ⟨?_, rfl⟩, h⟩
    rw [(h x).1.card_eq (h x).2.1]

/-- The results of the sequence are those of the operations on finite sets. -/
def Refines (hw : Hashable K) (ops : List (SetOp K)) : Prop :=
  ∃ rs σ A, runSet hw (fun _ => .empty) ops = some (rs, σ) ∧ SpecRun hw (fun _ => ∅) ops rs A

/-- However the sequence goes, all operations are safe, and no set gets `2 ^ 28` elements. -/
def SafeRun (hw : Hashable K) : SetModel hw → List (SetOp K) → Prop
  | _, [] => True
  | A, op :: ops => op.Safe A ∧
      ∀ r A', op.Spec hw A r A' → (∀ x, (A' x).card < 2 ^ 28) ∧ SafeRun hw A' ops

lemma HeapOk.exists_runSet (h : HeapOk hw P σ A) (hgood : GoodKeys hw P) (ops : List (SetOp K))
    (helems : ∀ op ∈ ops, ∀ k ∈ op.elems, P k) (hsafe : SafeRun hw A ops) :
    ∃ rs σ' A', runSet hw σ ops = some (rs, σ') ∧ SpecRun hw A ops rs A' ∧ HeapOk hw P σ' A' := by
  induction ops generalizing σ A with
  | nil => exact ⟨[], σ, A, rfl, ⟨rfl, rfl⟩, h⟩
  | cons op ops ih =>
    obtain ⟨hop, hnext⟩ := hsafe
    obtain ⟨r, σ1, A1, hrun, hspec, h1⟩ := h.exists_run hgood op (helems op mem_cons_self) hop
      fun r A' hspec => (hnext r A' hspec).1
    obtain ⟨rs, σ2, A2, hrun2, hspec2, h2⟩ := ih h1
      (fun op' hop' => helems op' (mem_cons_of_mem op hop')) (hnext r A1 hspec).2
    refine ⟨r :: rs, σ2, A2, ?_, ⟨r, rs, A1, rfl, hspec, hspec2⟩, h2⟩
    simp only [runSet, hrun, hrun2, bind_eq_bind, bind_some]

/-- If the elements that occur have hashes below `2 ^ 63`, which are different for elements that are
not equal, every safe sequence of operations does what it does on finite sets. -/
theorem set_correct (hw : Hashable K) (ops : List (SetOp K))
    (hhash : ∀ k ∈ ops.flatMap SetOp.elems, (hw.hash k).toNat < 2 ^ 63)
    (heq : ∀ a ∈ ops.flatMap SetOp.elems, ∀ b ∈ ops.flatMap SetOp.elems,
      hw.hash a = hw.hash b → hw.eq a b)
    (hsafe : SafeRun hw (fun _ => ∅) ops) : Refines hw ops := by
  obtain ⟨rs, σ, A, hrun, hspec, -⟩ := HeapOk.init.exists_runSet
    (P := (· ∈ ops.flatMap SetOp.elems)) ⟨fun ha => hhash _ ha, fun ha hb h => heq _ ha _ hb h⟩
    ops (fun op hop k hk => mem_flatMap.mpr ⟨op, hop, hk⟩) hsafe
  exact ⟨rs, σ, A, hrun, hspec⟩

omit [DecidableEq K] in
lemma card_update_lt {n x : ℕ} {B : Finset hw.Elem} (hA : ∀ y, (A y).card < n) (hB : B.card < n)
    (y : ℕ) : (Function.update A x B y).card < n := by
  rw [update_apply]
  split_ifs
  · exact hB
  · exact hA y

/-- Two sets with a common element, and their intersection. -/
theorem set_correct_example : Refines (.ofDecidableEq ℕ UInt64.ofNat)
    [.add 0 1, .update 1 [1, 2], .isdisjoint 0 1, .and 2 0 1] := by
  have hempty : ∀ x : ℕ, ((fun _ => ∅ : SetModel (.ofDecidableEq ℕ UInt64.ofNat)) x).card < 2 ^
    28 :=
    fun _ => Nat.two_pow_pos 28
  refine set_correct _ _ (by decide) (by decide) ⟨trivial, ?_⟩
  rintro _ _ ⟨rfl, rfl⟩
  refine ⟨card_update_lt hempty (by decide), trivial, ?_⟩
  rintro _ _ ⟨rfl, rfl⟩
  refine ⟨card_update_lt (card_update_lt hempty (by decide)) (by decide), .inr (by decide), ?_⟩
  rintro _ _ ⟨rfl, rfl⟩
  refine ⟨card_update_lt (card_update_lt hempty (by decide)) (by decide), trivial, ?_⟩
  rintro _ _ ⟨rfl, rfl⟩
  exact ⟨card_update_lt (card_update_lt (card_update_lt hempty (by decide)) (by decide))
    (by decide),
    trivial⟩

end Run
section Divergence

lemma not_refines [DecidableEq K] {hw : Hashable K} {ops : List (SetOp K)}
    (out : Option (List (SetResult K)))
    (hrun : (runSet hw (fun _ => .empty) ops).map Prod.fst = out)
    (hspec : ∀ rs A, SpecRun hw (fun _ => ∅) ops rs A → some rs ≠ out) : ¬ Refines hw ops := by
  rintro ⟨rs, σ, A, hrun', hspec'⟩
  refine hspec rs A hspec' ?_
  rw [← hrun, hrun']
  rfl

/-- A search for hash `-8` in a table of 8 slots stays at slot 0. -/
theorem search_setProbe_eq_none {β : Type} (f : ℕ → Option β) (hf : f 0 = none) (fuel : ℕ) :
    Probe.search (setProbe 7) (fun x => f x.1) fuel (setStart 7 (-8)) = none := by
  -- the perturbation is `-1` from the first step on
  have hstuck : ∀ n, Probe.search (setProbe 7) (fun x => f x.1) n (0, -1) = none := by
    intro n
    induction n with
    | zero => rfl
    | succ n ih =>
      rw [Probe.search, hf]
      exact ih
  cases fuel with
  | zero => rfl
  | succ n =>
    rw [Probe.search, show setStart 7 (-8) = (0, -8) from rfl, hf]
    exact hstuck n

/-- Objects `0` and `1` with hashes `a` and `b`. -/
def twoHashes (a b : UInt64) : Hashable (Fin 2) :=
  .ofDecidableEq (Fin 2) fun k => if k = 0 then a else b

/-- Two elements with the same hash are one element. An element with hash `-1` is overwritten. The
search for an element with hash `-8` need not end, whatever the bound. `isdisjoint` raises
`StopIteration` for sets that are disjoint. -/
theorem set_diverges : ¬ Refines (twoHashes 0 0) [.add 0 0, .add 0 1, .len 0] ∧
    ¬ Refines (twoHashes (-1) 7) [.add 0 0, .add 0 1, .contains 0 0] ∧
    (¬ Refines (twoHashes 0 (-8)) [.add 0 0, .contains 0 1] ∧
      ∃ s, BSet.empty.add (twoHashes 0 (-8)) 0 = some s ∧ ∀ fuel,
        Probe.search (setProbe s.mask) (fun x => lookSlot (twoHashes 0 (-8)) s 1 (-8) x.1) fuel
          (setStart s.mask (-8)) = none) ∧
    ¬ Refines (twoHashes 0 1) [.add 0 0, .isdisjoint 0 1] := by
  refine ⟨?_, ?_, ⟨?_, ?_⟩, ?_⟩
  · refine not_refines (some [.unit, .unit, .int 1]) (by decide) ?_
    rintro _ _ ⟨_, _, _, rfl, ⟨rfl, rfl⟩, _, _, _, rfl, ⟨rfl, rfl⟩, _, _, _, rfl,
      ⟨rfl, rfl⟩, rfl, rfl⟩
    decide
  · refine not_refines (some [.unit, .unit, .bool false]) (by decide) ?_
    rintro _ _ ⟨_, _, _, rfl, ⟨rfl, rfl⟩, _, _, _, rfl, ⟨rfl, rfl⟩, _, _, _, rfl,
      ⟨rfl, rfl⟩, rfl, rfl⟩
    decide
  · exact not_refines none (by decide) fun _ _ _ => some_ne_none _
  · exact ⟨_, rfl, search_setProbe_eq_none _ (by decide)⟩
  · refine not_refines (some [.unit, .stopIteration "set iterator terminated"]) (by decide) ?_
    rintro _ _ ⟨_, _, _, rfl, ⟨rfl, rfl⟩, _, _, _, rfl, ⟨rfl, rfl⟩, rfl, rfl⟩
    decide

end Divergence
end Acton.Builtin
