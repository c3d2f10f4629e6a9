import Acton.Builtin.Dict.Invariant

/-!
# Resizing a dictionary

A resize gives a table that keeps the items in their order and has room for the next one,
whatever kinds the old and the new table are of.
-/

namespace Acton.Builtin
open List Option
variable {K V : Type} {hw : Hashable K}

/-! ## The entries of the new table -/

/-- The entries that are not deleted. -/
def liveEntries (entries : List (Entry K V)) : List (Entry K V) :=
  entries.filter fun e => e.value.isSome

lemma length_liveEntries (es : List (Entry K V)) :
    (liveEntries es).length = (liveItems es).length := by
  induction es with
  | nil => rfl
  | cons e es ih => cases hv : e.value <;> simp_all [liveEntries, liveItems]

@[simp]
lemma liveItems_liveEntries (es : List (Entry K V)) :
    liveItems (liveEntries es) = liveItems es := by
  induction es with
  | nil => rfl
  | cons e es ih => cases hv : e.value <;> simp_all [liveEntries, liveItems]

lemma copyEntries_eq (es : List (Entry K V)) :
    copyEntries (liveItems es).length es = some (liveEntries es) := by
  induction es with
  | nil => rfl
  | cons e es ih =>
    cases hv : e.value with
    | none =>
      rw [liveItems_cons_none hv,
        show liveEntries (e :: es) = liveEntries es from filter_cons_of_neg (by simp [hv])]
      cases hn : (liveItems es).length with
      | zero => rwa [hn, copyEntries.eq_def] at ih
      | succ n =>
        rw [hn] at ih
        simpa only [copyEntries, hv] using ih
    | some v =>
      rw [liveItems_cons_some hv, length_cons, liveEntries, filter_cons_of_pos (by simp [hv])]
      simp only [copyEntries, hv, ih, map_some, liveEntries]

/-- What a resize needs of a table with `n` keys. -/
structure Copyable (hw : Hashable K) (t : Table K V) (n : ℕ) : Prop where
  length_live : (liveItems t.entries).length = n
  distinct : Distinct hw t.entries
  length_eq : t.nentries = n → t.entries.length = n
  hash_eq : initSize < t.size → ∀ e ∈ t.entries, e.hash = hw.hash e.key

lemma TableInv.copyable {t : Table K V} {n : ℕ} (h : TableInv hw t n) : Copyable hw t n where
  length_live := h.length_live
  distinct := h.distinct
  length_eq heq := by
    have hle := h.usable_le
    have hpos := h.usable_nonneg
    by_cases hsmall : t.size = initSize
    · rw [hsmall] at hle
      simp only [initSize] at hle
      rcases h.nentries_cases with hn | hn <;> omega
    · have := (h.hashed hsmall).2.2
      omega
  hash_eq hlt := (h.hashed (Ne.symm hlt.ne)).1.hash_eq

lemma Copyable.newEntries_eq {t : Table K V} {n : ℕ} (h : Copyable hw t n) (hn : n < 2 ^ 31) :
    t.newEntries n = some (liveEntries t.entries) := by
  rw [Table.newEntries]
  split_ifs with heq hle
  · -- no entry is deleted
    have hall : liveEntries t.entries = t.entries := by
      refine filter_eq_self.mpr (length_filter_eq_length_iff.mp ?_)
      exact (length_liveEntries t.entries).trans (h.length_live.trans (h.length_eq heq).symm)
    rw [hall, take_of_length_le (h.length_eq heq).le]
  · exact absurd (h.length_eq heq).ge hle
  · rw [← h.length_live]
    exact copyEntries_eq t.entries

/-! ## The indices of the new table -/

/-- An entry with the hash of its key. -/
def rehash (hw : Hashable K) (e : Entry K V) : Entry K V := { e with hash := hw.hash e.key }

lemma liveItems_map_rehash (es : List (Entry K V)) :
    liveItems (es.map (rehash hw)) = liveItems es := by
  rw [liveItems, filterMap_map]
  rfl

lemma usedSlots_set_le (indices : List ℤ) (s : ℕ) (x : ℤ) :
    usedSlots (indices.set s x) ≤ usedSlots indices + 1 := by
  by_cases hs : s < indices.length
  · rw [usedSlots, usedSlots, countP_set hs]
    split_ifs <;> omega
  · rw [set_eq_of_length_le (Nat.le_of_not_lt hs)]
    omega

lemma exists_buildIndices {k : ℕ} (hk : k < 64) (oldsize : ℕ) (es : List (Entry K V)) :
    ∀ {pre : List (Entry K V)} {indices : List ℤ}, Indexed hw indices pre →
    indices.length = 2 ^ k → usedSlots indices ≤ pre.length →
    (∀ e ∈ es, e.value.isSome ∧ (initSize < oldsize → e.hash = hw.hash e.key)) →
    pre.length + es.length < 2 ^ 31 → pre.length + es.length ≤ 2 ^ k →
    ∃ indices', buildIndices hw oldsize (2 ^ k) pre.length es indices
        = some (es.map (rehash hw), indices') ∧
      Indexed hw indices' (pre ++ es.map (rehash hw)) ∧ indices'.length = 2 ^ k ∧
      usedSlots indices' ≤ pre.length + es.length := by
  induction es with
  | nil =>
    intro pre indices h hlen hused _ _ _
    exact ⟨indices, rfl, by simpa using h, hlen, hused⟩
  | cons e es ih =>
    intro pre indices h hlen hused hes hint hfit
    obtain ⟨⟨v, hv⟩, hhash⟩ := (hes e mem_cons_self).imp_left isSome_iff_exists.mp
    rw [length_cons] at hint hfit
    have hhash' : (if oldsize > initSize then e.hash else hw.hash e.key) = hw.hash e.key := by
      split_ifs with hlt
      · exact hhash hlt
      · rfl
    -- the search stops at an empty slot, and the slots before are not empty
    obtain ⟨s, hs⟩ := exists_empty_of_usedSlots_lt
      (show usedSlots indices < indices.length by omega)
    obtain ⟨m, x, r, hprobe, hx, hr, hgo⟩ := exists_probe_atSlot hk hlen (hw.hash e.key)
      (fun i x => if x = dkixEmpty then some (some i) else none) hs (by simp)
    split_ifs at hr with hempty
    obtain ⟨⟩ := hr
    have hreach : Reach indices (hw.hash e.key) (Probe.slot (2 ^ k) (hw.hash e.key).toNat m) := by
      refine ⟨m, by rw [hlen], fun j hj hj' => ?_⟩
      rw [hlen] at hj'
      have := hgo j hj _ hj'
      simp at this
    have hadd := h.add hx (by rw [hempty]; decide) v hreach
    rw [show (⟨hw.hash e.key, e.key, some v⟩ : Entry K V) = rehash hw e by rw [rehash, hv]] at hadd
    obtain ⟨indices', hbuild, hindexed, hlen', hused'⟩ := ih hadd (by rwa [length_set])
      ((usedSlots_set_le _ _ _).trans (by simpa using hused))
      (fun a ha => hes a (mem_cons_of_mem e ha)) (by simp; omega) (by simp; omega)
    refine ⟨indices', ?_, by simpa using hindexed, hlen', by simp at hused' ⊢; omega⟩
    rw [length_append, length_singleton] at hbuild
    simp only [buildIndices, hhash', hprobe, bind_eq_bind, bind_some]
    rw [if_neg (by omega), hbuild]
    rfl

/-! ## The new table -/

/-- What a resize to `n` keys makes: a table without deleted entries, of the least size that
fits. -/
structure Fresh (t : Table K V) (n : ℕ) : Prop where
  usable_add : t.usable + n = 2 * t.size / 3
  length_entries : t.entries.length = n
  le_size : 3 * n ≤ t.size
  size_lt : t.size = initSize ∨ t.size < 6 * n

lemma Fresh.usable_pos {t : Table K V} {n : ℕ} (h : Fresh t n) (hsize : initSize ≤ t.size) :
    0 < t.usable := by
  have h1 := h.usable_add
  have h2 := h.le_size
  simp only [initSize] at hsize
  omega

lemma TableInv.new {k n : ℕ} {indices : List ℤ} {entries : List (Entry K V)} (hk2 : 2 ≤ k)
    (hk : k < 64) (hle : 3 * n ≤ 2 ^ k) (hindices : indices.length = 2 ^ k)
    (hentries : entries.length = n) (hlive : (liveItems entries).length = n)
    (hdistinct : Distinct hw entries) (hsmall : 2 ^ k = initSize → indices[2]? = some dkixEmpty)
    (hhashed : 2 ^ k ≠ initSize → Indexed hw indices entries ∧ usedSlots indices ≤ n) :
    TableInv hw ⟨2 ^ k, 2 * (2 ^ k : ℕ) / 3 - n, n, indices, entries⟩ n where
  size := ⟨k, hk2, hk, rfl⟩
  length_indices := hindices
  usable_nonneg := by dsimp only; omega
  usable_le := by dsimp only; omega
  length_live := hlive
  distinct := hdistinct
  small h := ⟨hsmall h, .inl (by rw [hentries])⟩
  hashed h := ⟨(hhashed h).1, by have := (hhashed h).2; dsimp only; omega, by rw [hentries]⟩

lemma exists_dictresize {d : Dict K V} (hn : d.numelements < 2 ^ 31)
    (hlen : d.content.length = d.numelements)
    (h : d.numelements ≠ 0 → ∃ t, d.table = some t ∧ Copyable hw t d.numelements) :
    ∃ t, dictresize hw d = some ⟨d.numelements, some t⟩ ∧ TableInv hw t d.numelements ∧
      Fresh t d.numelements ∧ liveItems t.entries = d.content := by
  obtain ⟨k, hk2, hgrow, hle, hlt⟩ := Probe.exists_growSize_self (3 * d.numelements) 2
  have hk : k < 64 := by
    rcases hlt with rfl | hlt
    · decide
    · refine (Nat.pow_lt_pow_iff_right (a := 2) (by decide)).mp (hlt.trans ?_)
      omega
  have h4 : 2 ^ 2 ≤ 2 ^ k := Nat.pow_le_pow_right (by decide) hk2
  have hsize : (2 ^ k : ℕ) = initSize ∨ 2 ^ k < 6 * d.numelements :=
    hlt.imp (fun h => by rw [h]; rfl) fun h => by omega
  have hfresh {indices : List ℤ} {entries : List (Entry K V)}
      (hentries : entries.length = d.numelements) :
      Fresh ⟨2 ^ k, 2 * (2 ^ k : ℕ) / 3 - d.numelements, d.numelements, indices, entries⟩
        d.numelements :=
    ⟨by dsimp only; omega, hentries, hle, hsize⟩
  have htwo : (List.replicate (2 ^ k) dkixEmpty)[2]? = some dkixEmpty :=
    getElem?_replicate_of_lt (by omega)
  have hnone : usedSlots (List.replicate (2 ^ k) dkixEmpty) = 0 := by
    simp [usedSlots, countP_replicate]
  rw [dictresize, show initSize = 2 ^ 2 from rfl, hgrow]
  by_cases hzero : d.numelements = 0
  · rw [if_pos hzero]
    refine ⟨_, rfl, .new hk2 hk hle (by simp) (by simp [hzero]) (by simp [hzero]) .nil
      (fun _ => htwo)
      fun _ => ⟨.replicate hw _, by omega⟩, hfresh (by simp [hzero]), ?_⟩
    exact (length_eq_zero_iff.mp (hlen.trans hzero)).symm
  · obtain ⟨t, ht, hcopy⟩ := h hzero
    have hcontent : d.content = liveItems t.entries := by rw [Dict.content, ht]
    have hlive : (liveEntries t.entries).length = d.numelements :=
      (length_liveEntries _).trans hcopy.length_live
    have hdistinct : Distinct hw (liveEntries t.entries) := hcopy.distinct.sublist filter_sublist
    simp only [if_neg hzero, ht, hcopy.newEntries_eq hn, bind_eq_bind, bind_some]
    split_ifs with hbig
    · obtain ⟨indices, hbuild, hindexed, hlen', hused⟩ := exists_buildIndices hk
        t.size (liveEntries t.entries) (Indexed.replicate hw (2 ^ k))
        (length_replicate) (by simp [hnone]) (fun e he => by
          obtain ⟨he, hlive⟩ := mem_filter.mp he
          exact ⟨hlive, fun hlt => hcopy.hash_eq hlt e he⟩)
        (by simpa [hlive] using hn) (by simp only [hlive, length_nil]; omega)
      rw [length_nil] at hbuild
      rw [hbuild]
      refine ⟨_, rfl, .new hk2 hk hle hlen' (by simpa using hlive) ?_ (pairwise_map.mpr hdistinct)
        (fun h => absurd h (Nat.ne_of_gt hbig)) fun _ => ⟨by simpa using hindexed, ?_⟩,
        hfresh (by simpa using hlive), ?_⟩
      · rw [liveItems_map_rehash, liveItems_liveEntries, hcopy.length_live]
      · simpa [hlive] using hused
      · rw [liveItems_map_rehash, liveItems_liveEntries, hcontent]
    · refine ⟨_, rfl, .new hk2 hk hle (by simp) hlive ?_ hdistinct (fun _ => htwo) ?_, hfresh hlive,
        ?_⟩
      · rw [liveItems_liveEntries, hcopy.length_live]
      · intro hne
        simp only [initSize] at hne hbig
        omega
      · rw [liveItems_liveEntries, hcontent]

end Acton.Builtin
