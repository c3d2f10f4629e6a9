import Acton.Builtin.Dict
import Mathlib.Data.List.GetD

/-!
# The invariant of a dictionary

What the operations keep:

* `Indexed`: in a hash table, every entry that is not deleted has a slot, and the search for its
  hash comes to this slot before it meets an empty one. Slots hold indices of such entries only.
* `TableInv`: the invariant of a table, scanned or hashed, with `n` keys.
* `DictInv`: the invariant of a dict.

`TableInv.exists_lookdict` says what a search finds: in both kinds of tables the entry with the key,
if there is one.
-/

namespace Acton.Builtin
open List Option Probe Table
variable {K V β : Type}

/-! ## Probing -/

variable {indices : List ℤ}
section Probing
variable {k : ℕ}

lemma toNat_and_mask (hk : k < 64) (x : UInt64) :
    (x &&& UInt64.ofNat (2 ^ k - 1)).toNat = x.toNat % 2 ^ k := by
  have hlt : 2 ^ k - 1 < 2 ^ 64 := by
    have := Nat.pow_lt_pow_right (a := 2) (by decide) hk
    omega
  rw [UInt64.toNat_and, UInt64.toNat_ofNat_of_lt' hlt, Nat.and_two_pow_sub_one_eq_mod]

/-- The search of the code goes through the slots of the probe sequence. -/
theorem iterate_nextProbe (hk : k < 64) (hash : UInt64) (n : ℕ) :
    let x := (nextProbe (2 ^ k))^[n] (firstProbe (2 ^ k) hash)
    (x.1.toNat, x.2.toNat) = (Probe.next (2 ^ k))^[n] (hash.toNat % 2 ^ k, hash.toNat) := by
  induction n with
  | zero => simp [firstProbe, toNat_and_mask hk]
  | succ n ih =>
    simp only [Function.iterate_succ_apply'] at ih ⊢
    rw [← ih]
    generalize (nextProbe (2 ^ k))^[n] (firstProbe (2 ^ k) hash) = x
    have hshift : (x.2 >>> 5).toNat = x.2.toNat / 32 := by
      rw [UInt64.toNat_shiftRight, Nat.shiftRight_eq_div_pow]
      rfl
    have hsum : (x.1 * (5 : UInt64) + (x.2 >>> (5 : UInt64)) + 1).toNat
        = (x.1.toNat * 5 + x.2.toNat / 32 + 1) % 2 ^ 64 := by
      simp [UInt64.toNat_add, UInt64.toNat_mul, hshift]
    simp only [nextProbe, Probe.next, toNat_and_mask hk, hshift, hsum]
    rw [Nat.mod_mod_of_dvd _ (Nat.pow_dvd_pow 2 (Nat.le_of_lt hk))]

/-- A search stops at the first slot that has an answer. -/
theorem exists_probe_eq (hk : k < 64) (hash : UInt64) (f : ℕ → Option (Option β)) {s : ℕ}
    (hs : s < 2 ^ k) (hf : (f s).isSome) : ∃ m r, probe (2 ^ k) hash f = r ∧
      f (Probe.slot (2 ^ k) hash.toNat m) = some r ∧
      ∀ j < m, f (Probe.slot (2 ^ k) hash.toNat j) = none := by
  have hslot (j : ℕ) : ((nextProbe (2 ^ k))^[j] (firstProbe (2 ^ k) hash)).1.toNat
      = slot (2 ^ k) hash.toNat j := congrArg Prod.fst (iterate_nextProbe hk hash j)
  obtain ⟨n, hn, rfl⟩ := exists_slot_eq hash.toNat_lt hs
  obtain ⟨m, -, r, hsearch, hr, hgo⟩ := exists_search_eq
    (nextProbe (2 ^ k)) (fun x => f x.1.toNat) (firstProbe (2 ^ k) hash) hn (by rwa [hslot])
  refine ⟨m, r, by rw [probe, hsearch, join_some], by rwa [hslot] at hr, fun j hj => ?_⟩
  rw [← hslot]
  exact hgo j hj

lemma exists_probe_atSlot (hk : k < 64) (hlen : indices.length = 2 ^ k) (hash : UInt64)
    (f : ℕ → ℤ → Option (Option β)) {s : ℕ} {ix : ℤ} (hs : indices[s]? = some ix)
    (hf : (f s ix).isSome) : ∃ m ix r, probe (2 ^ k) hash (atSlot indices f) = r ∧
      indices[Probe.slot (2 ^ k) hash.toNat m]? = some ix ∧
      f (Probe.slot (2 ^ k) hash.toNat m) ix = some r ∧
      ∀ j < m, ∀ x, indices[Probe.slot (2 ^ k) hash.toNat j]? = some x →
        f (Probe.slot (2 ^ k) hash.toNat j) x = none := by
  obtain ⟨hlt, -⟩ := List.getElem?_eq_some_iff.mp hs
  obtain ⟨m, r, hprobe, hr, hgo⟩ := exists_probe_eq hk hash (atSlot indices f)
    (hlen ▸ hlt) (by rwa [atSlot, hs])
  have hread (j : ℕ) : ∃ x, indices[slot (2 ^ k) hash.toNat j]? = some x :=
    ⟨_, getElem?_eq_getElem (hlen ▸ slot_lt (Nat.two_pow_pos k) _ _)⟩
  obtain ⟨ix, hix⟩ := hread m
  refine ⟨m, ix, r, hprobe, hix, by rwa [atSlot, hix] at hr, fun j hj x hx => ?_⟩
  have := hgo j hj
  rwa [atSlot, hx] at this

end Probing

/-! ## Entries -/

/-- The items of the entries that are not deleted. -/
def liveItems (entries : List (Entry K V)) : List (K × V) :=
  entries.filterMap fun e => e.value.map (e.key, ·)

@[simp]
lemma liveItems_nil : liveItems ([] : List (Entry K V)) = [] := rfl

@[simp]
lemma liveItems_append (as bs : List (Entry K V)) :
    liveItems (as ++ bs) = liveItems as ++ liveItems bs :=
  filterMap_append

variable {e : Entry K V}

lemma liveItems_cons_some {v : V} (h : e.value = some v) (es : List (Entry K V)) :
    liveItems (e :: es) = (e.key, v) :: liveItems es := by
  simp [liveItems, h]

lemma liveItems_cons_none (h : e.value = none) (es : List (Entry K V)) :
    liveItems (e :: es) = liveItems es := by
  simp [liveItems, h]

lemma mem_liveItems {es : List (Entry K V)} {p : K × V} :
    p ∈ liveItems es ↔ ∃ e ∈ es, e.value = some p.2 ∧ e.key = p.1 := by
  rw [liveItems, mem_filterMap]
  refine exists_congr fun e => and_congr_right fun _ => ?_
  cases e.value <;> simp [Prod.ext_iff, and_comm]

lemma length_liveItems_le (es : List (Entry K V)) : (liveItems es).length ≤ es.length :=
  length_filterMap_le _ es

/-- No two entries that are not deleted have equal keys. -/
def Distinct (hw : Hashable K) (entries : List (Entry K V)) : Prop :=
  entries.Pairwise fun a b => a.value.isSome → b.value.isSome → ¬ hw.eq a.key b.key

/-- What a search for a key has to return. -/
def Found (hw : Hashable K) (key : K) (entries : List (Entry K V)) : Option (ℕ × V) → Prop
  | none => ∀ e ∈ entries, e.value.isSome → ¬ hw.eq key e.key
  | some (ix, v) => ∃ as e bs, entries = as ++ e :: bs ∧ as.length = ix ∧ e.value = some v ∧
      hw.eq key e.key

lemma Distinct.ne_of_eq {hw : Hashable K} {key : K} {as bs : List (Entry K V)}
    (h : Distinct hw (as ++ e :: bs)) (hlive : e.value.isSome) (he : hw.eq key e.key) :
    ∀ a ∈ as ++ bs, a.value.isSome → ¬ hw.eq key a.key := by
  intro a ha hal heq
  obtain ⟨-, hbs, has⟩ := pairwise_append.mp h
  rcases mem_append.mp ha with ha | ha
  · exact has a ha e mem_cons_self hal hlive (hw.eq_of_eq heq he)
  · exact rel_of_pairwise_cons hbs ha hlive hal (hw.eq_of_eq he heq)

lemma append_of_getElem? {α : Type*} {l : List α} {i : ℕ} {a : α} (h : l[i]? = some a) :
    ∃ as bs, l = as ++ a :: bs ∧ as.length = i := by
  obtain ⟨hi, rfl⟩ := List.getElem?_eq_some_iff.mp h
  refine ⟨l.take i, l.drop (i + 1), ?_, by simp [Nat.le_of_lt hi]⟩
  rw [← drop_eq_getElem_cons hi, take_append_drop]

/-! ## Hash tables -/

/-- The search for a hash comes to a slot before it meets an empty one. -/
def Reach (indices : List ℤ) (hash : UInt64) (s : ℕ) : Prop :=
  Probe.Reach indices.length hash.toNat (fun i => indices[i]? ≠ some dkixEmpty) s

/-- The path to a slot stays as long as no slot gets empty. -/
theorem Reach.set {hash : UInt64} {s s' : ℕ} {x : ℤ} (h : Reach indices hash s)
    (hx : x ≠ dkixEmpty) : Reach (indices.set s' x) hash s := by
  rw [Reach, length_set]
  refine h.mono fun i hi => ?_
  rw [getElem?_set]
  split_ifs
  · simpa using hx
  · simp
  · exact hi

structure Indexed (hw : Hashable K) (indices : List ℤ) (entries : List (Entry K V)) : Prop where
  hash_eq : ∀ e ∈ entries, e.hash = hw.hash e.key
  entry : ∀ {s : ℕ} {ix : ℤ}, indices[s]? = some ix → 0 ≤ ix →
    ∃ e v, entries[ix.toNat]? = some e ∧ e.value = some v
  injective : ∀ {s s' : ℕ} {ix : ℤ}, indices[s]? = some ix → indices[s']? = some ix →
    0 ≤ ix → s = s'
  reach : ∀ {i : ℕ} {e v}, entries[i]? = some e → e.value = some v →
    ∃ s, indices[s]? = some (i : ℤ) ∧ Reach indices e.hash s

namespace Indexed
variable {hw : Hashable K} {indices : List ℤ} {entries : List (Entry K V)} {s i : ℕ} {x : ℤ}

lemma replicate (hw : Hashable K) (n : ℕ) :
    Indexed hw (List.replicate n dkixEmpty) ([] : List (Entry K V)) where
  hash_eq := by simp
  entry hs hix := by
    obtain ⟨-, rfl⟩ := mem_replicate.mp (mem_of_getElem? hs)
    exact absurd hix (by decide)
  injective hs _ hix := by
    obtain ⟨-, rfl⟩ := mem_replicate.mp (mem_of_getElem? hs)
    exact absurd hix (by decide)
  reach h := by simp at h

section
variable (h : Indexed hw indices entries)
include h

lemma add (hs : indices[s]? = some x) (hx : x < 0) {key : K} (v : V)
    (hreach : Reach indices (hw.hash key) s) :
    Indexed hw (indices.set s entries.length) (entries ++ [⟨hw.hash key, key, some v⟩]) := by
  have hlt : s < indices.length := (List.getElem?_eq_some_iff.mp hs).1
  -- a slot that holds an index is not the new one, unless it holds the new index
  have hslot {s' : ℕ} {ix : ℤ} (h' : (indices.set s entries.length)[s']? = some ix) :
      s' = s ∧ ix = entries.length ∨ s' ≠ s ∧ indices[s']? = some ix := by
    rw [getElem?_set] at h'
    split_ifs at h' with heq
    · exact .inl ⟨heq.symm, by simpa using h'.symm⟩
    · exact .inr ⟨Ne.symm heq, h'⟩
  have hbound {s' : ℕ} {ix : ℤ} (h' : indices[s']? = some ix) (hix : 0 ≤ ix) :
      ix < entries.length := by
    obtain ⟨e, v, he, -⟩ := h.entry h' hix
    have := (List.getElem?_eq_some_iff.mp he).1
    omega
  refine ⟨fun e he => ?_, fun {s' ix} h' hix => ?_, fun {s1 s2 ix} h1 h2 hix => ?_,
    fun {j e w} he hw' => ?_⟩
  · rcases mem_append.mp he with he | he
    · exact h.hash_eq e he
    · rw [mem_singleton.mp he]
  · rcases hslot h' with ⟨-, rfl⟩ | ⟨-, h'⟩
    · exact ⟨⟨hw.hash key, key, some v⟩, v, by simp, rfl⟩
    · obtain ⟨e, w, he, hw'⟩ := h.entry h' hix
      refine ⟨e, w, ?_, hw'⟩
      rwa [getElem?_append_left (List.getElem?_eq_some_iff.mp he).1]
  · rcases hslot h1 with ⟨hs1, hi1⟩ | ⟨-, h1⟩ <;> rcases hslot h2 with ⟨hs2, hi2⟩ | ⟨-, h2⟩
    · exact hs1.trans hs2.symm
    · exact absurd hi1 (hbound h2 hix).ne
    · exact absurd hi2 (hbound h1 hix).ne
    · exact h.injective h1 h2 hix
  · have hne : (entries.length : ℤ) ≠ dkixEmpty := by simp only [dkixEmpty]; omega
    rcases lt_or_ge j entries.length with hj | hj
    · rw [getElem?_append_left hj] at he
      obtain ⟨s', hs', hreach'⟩ := h.reach he hw'
      refine ⟨s', ?_, hreach'.set hne⟩
      rw [getElem?_set_ne, hs']
      rintro rfl
      rw [hs] at hs'
      have := Option.some.inj hs'
      omega
    · obtain rfl : j = entries.length := by
        have := (List.getElem?_eq_some_iff.mp he).1
        rw [length_append, length_singleton] at this
        omega
      obtain rfl : _ = e := by simpa using he
      exact ⟨s, getElem?_set_self hlt, hreach.set hne⟩

lemma setValue {v : V} (he : entries[i]? = some e) (hv : e.value = some v) (w : V) :
    Indexed hw indices (entries.modify i fun entry => { entry with value := some w }) := by
  -- the entries keep their hashes and keys, and whether they are deleted
  have hentry {j : ℕ} {a : Entry K V}
      (ha : (entries.modify i fun entry => { entry with value := some w })[j]? = some a) :
      ∃ b, entries[j]? = some b ∧ a.hash = b.hash ∧ a.key = b.key ∧
        (a.value.isSome → b.value.isSome) := by
    rw [getElem?_modify] at ha
    obtain ⟨b, hb, rfl⟩ := map_eq_some_iff.mp ha
    refine ⟨b, hb, ?_⟩
    split_ifs with hij
    · subst hij
      obtain rfl := mem_unique he hb
      simp [hv]
    · simp
  refine ⟨fun a ha => ?_, fun {s ix} hs hix => ?_, h.injective, fun {j a u} ha hu => ?_⟩
  · obtain ⟨j, hj⟩ := getElem?_of_mem ha
    obtain ⟨b, hb, hhash, hkey, -⟩ := hentry hj
    rw [hhash, hkey]
    exact h.hash_eq b (mem_of_getElem? hb)
  · obtain ⟨b, u, hb, hu⟩ := h.entry hs hix
    rw [getElem?_modify, hb]
    by_cases hij : i = ix.toNat
    · exact ⟨{ b with value := some w }, w, by simp [hij], rfl⟩
    · exact ⟨b, u, by simp [hij], hu⟩
  · obtain ⟨b, hb, hhash, -, hlive⟩ := hentry ha
    obtain ⟨u', hu'⟩ := isSome_iff_exists.mp (hlive (by simp [hu]))
    rw [hhash]
    exact h.reach hb hu'

lemma remove (hs : indices[s]? = some (i : ℤ)) : Indexed hw (indices.set s dkixDummy)
      (entries.modify i fun entry => { entry with value := none }) := by
  have hlt : s < indices.length := (List.getElem?_eq_some_iff.mp hs).1
  have hslot {s' : ℕ} {ix : ℤ} (h' : (indices.set s dkixDummy)[s']? = some ix) (hix : 0 ≤ ix) :
      s' ≠ s ∧ indices[s']? = some ix := by
    rw [getElem?_set] at h'
    split_ifs at h' with heq
    · obtain ⟨⟩ := h'
      exact absurd hix (by decide)
    · exact ⟨Ne.symm heq, h'⟩
  refine ⟨fun a ha => ?_, fun {s' ix} h' hix => ?_, fun {s1 s2 ix} h1 h2 hix => ?_,
    fun {j a u} ha hu => ?_⟩
  · obtain ⟨j, hj⟩ := getElem?_of_mem ha
    rw [getElem?_modify] at hj
    obtain ⟨b, hb, rfl⟩ := map_eq_some_iff.mp hj
    have := h.hash_eq b (mem_of_getElem? hb)
    split_ifs <;> exact this
  · obtain ⟨hne, h'⟩ := hslot h' hix
    obtain ⟨b, u, hb, hu⟩ := h.entry h' hix
    refine ⟨b, u, ?_, hu⟩
    -- the slot of the deleted entry is the one that was given up
    have hij : i ≠ ix.toNat := by
      rintro rfl
      rw [Int.toNat_of_nonneg hix] at hs
      exact hne (h.injective h' hs hix)
    simp [hb, hij]
  · exact h.injective (hslot h1 hix).2 (hslot h2 hix).2 hix
  · rw [getElem?_modify] at ha
    obtain ⟨b, hb, rfl⟩ := map_eq_some_iff.mp ha
    split_ifs at hu ⊢ with hij
    obtain ⟨s', hs', hreach⟩ := h.reach hb hu
    refine ⟨s', ?_, hreach.set (by decide)⟩
    rw [getElem?_set_ne, hs']
    rintro rfl
    rw [hs] at hs'
    have := Option.some.inj hs'
    omega

/-- The last entries may go if they are deleted. -/
theorem take (hdead : ∀ j e, i ≤ j → entries[j]? = some e → e.value = none) :
    Indexed hw indices (entries.take i) := by
  refine ⟨fun e he => h.hash_eq e (mem_of_mem_take he), fun {s ix} hs hix => ?_, h.injective,
    fun {j e v} he hv => ?_⟩
  · obtain ⟨e, v, he, hv⟩ := h.entry hs hix
    refine ⟨e, v, ?_, hv⟩
    rw [getElem?_take, if_pos, he]
    by_contra hle
    rw [hdead _ e (Nat.le_of_not_lt hle) he] at hv
    simp at hv
  · rw [getElem?_take] at he
    split_ifs at he
    exact h.reach he hv

end
end Indexed

/-! ## Tables -/

/-- Slots that are not empty, whether they hold an index or not. -/
def usedSlots (indices : List ℤ) : ℕ := indices.countP (· ≠ dkixEmpty)

lemma exists_empty_of_usedSlots_lt (h : usedSlots indices < indices.length) :
    ∃ s : ℕ, indices[s]? = some dkixEmpty := by
  obtain ⟨x, hx, hempty⟩ := countP_lt_length_iff.mp h
  obtain rfl : x = dkixEmpty := by simpa using hempty
  exact getElem?_of_mem hx

structure TableInv (hw : Hashable K) (t : Table K V) (n : ℕ) : Prop where
  size : ∃ k, 2 ≤ k ∧ k < 64 ∧ t.size = 2 ^ k
  length_indices : t.indices.length = t.size
  usable_nonneg : 0 ≤ t.usable
  usable_le : t.usable + t.entries.length ≤ 2 * t.size / 3
  length_live : (liveItems t.entries).length = n
  distinct : Distinct hw t.entries
  -- where the entries are scanned, two slots are never used; the upper half of `nentries` may be
  -- overwritten, but then the next insertion makes a new table
  small : t.size = initSize → t.indices[2]? = some dkixEmpty ∧
    (t.nentries = t.entries.length ∨ t.nentries = t.entries.length - 2 ^ 33 ∧ t.usable = 0)
  hashed : t.size ≠ initSize → Indexed hw t.indices t.entries ∧
    t.usable + usedSlots t.indices ≤ 2 * t.size / 3 ∧ t.nentries = t.entries.length

namespace TableInv
variable {hw : Hashable K} {t : Table K V} {n : ℕ}
section
variable (h : TableInv hw t n)
include h

lemma exists_empty : ∃ s : ℕ, t.indices[s]? = some dkixEmpty := by
  by_cases hsmall : t.size = initSize
  · exact ⟨2, (h.small hsmall).1⟩
  · have hused := (h.hashed hsmall).2.1
    have husable := h.usable_nonneg
    obtain ⟨k, -, -, hk⟩ := h.size
    have hpos : 0 < 2 ^ k := by positivity
    refine exists_empty_of_usedSlots_lt ?_
    rw [h.length_indices]
    omega

lemma nentries_cases : t.nentries = t.entries.length ∨ t.nentries = t.entries.length - 2 ^ 33 := by
  by_cases hsmall : t.size = initSize
  · exact (h.small hsmall).2.imp_right And.left
  · exact .inl (h.hashed hsmall).2.2

lemma toInt_nentries (hlen : t.entries.length < 2 ^ 31) : toInt t.nentries = t.entries.length := by
  rcases h.nentries_cases with heq | heq <;> rw [heq, toInt, Int.bmod_def] <;> omega

lemma toInt_nentries_sub_one (hlen : t.entries.length < 2 ^ 31) :
    toInt (t.nentries - 1) = t.entries.length - 1 := by
  rcases h.nentries_cases with heq | heq <;> rw [heq, toInt, Int.bmod_def] <;> omega

lemma nentries_eq (husable : 0 < t.usable) : t.nentries = t.entries.length := by
  by_cases hsmall : t.size = initSize
  · rcases (h.small hsmall).2 with heq | ⟨-, hzero⟩
    · exact heq
    · omega
  · exact (h.hashed hsmall).2.2

lemma initSize_le : initSize ≤ t.size := by
  obtain ⟨k, hk2, -, hsize⟩ := h.size
  have : 2 ^ 2 ≤ 2 ^ k := Nat.pow_le_pow_right (by decide) hk2
  rw [hsize]
  exact this

end
end TableInv

/-! ## What a search finds -/

section Lookdict
variable [DecidableEq K] {hw : Hashable K} {key : K} {entries : List (Entry K V)}
omit [DecidableEq K] in
lemma eq_or_eq_iff (hw : Hashable K) {key a : K} {p : Prop} (h : hw.eq key a → p) :
    a = key ∨ (p ∧ hw.eq key a) ↔ hw.eq key a := by
  constructor
  · rintro (rfl | ⟨-, h⟩)
    · exact hw.eq_refl a
    · exact h
  · exact fun h' => .inr ⟨h h', h'⟩

lemma exists_linearSearch (as bs : List (Entry K V))
    (has : ∀ a ∈ as, a.value.isSome → ¬ hw.eq key a.key) :
    ∃ r, Table.linearSearch hw (as ++ bs) key bs.length as.length = some r ∧
      Found hw key (as ++ bs) r := by
  induction bs generalizing as with
  | nil => exact ⟨none, rfl, by simpa [Found] using has⟩
  | cons b bs ih =>
    have hread : (as ++ b :: bs)[as.length]? = some b := by simp
    have hrest (hb : b.value.isSome → ¬ hw.eq key b.key) :
        ∃ r, linearSearch hw (as ++ b :: bs) key bs.length (as.length + 1) = some r ∧
          Found hw key (as ++ b :: bs) r := by
      have := ih (as ++ [b]) (by
        intro a ha
        rcases mem_append.mp ha with ha | ha
        · exact has a ha
        · rwa [mem_singleton.mp ha])
      simpa using this
    rw [length_cons, linearSearch, hread]
    cases hv : b.value with
    | none =>
      simp only [hv]
      exact hrest (by simp [hv])
    | some v =>
      simp only [hv]
      have hiff := eq_or_eq_iff hw fun (_ : hw.eq key b.key) => trivial
      simp only [true_and] at hiff
      by_cases heq : hw.eq key b.key
      · exact ⟨some (as.length, v), if_pos (hiff.mpr heq), as, b, bs, rfl, rfl, hv, heq⟩
      · rw [if_neg (fun h => heq (hiff.mp h))]
        exact hrest fun _ => heq

/-- In a hash table, the slots before the first answer hold no entry with the key. -/
theorem Indexed.exists_probe (h : Indexed hw indices entries) {k : ℕ} (hk : k < 64)
    (hlen : indices.length = 2 ^ k) {s : ℕ} (hs : indices[s]? = some dkixEmpty) :
    ∃ r, probe (2 ^ k) (hw.hash key) (atSlot indices
      (Table.atIndex hw entries (hw.hash key) key)) = some r ∧ Found hw key entries r := by
  obtain ⟨m, ix, r, hprobe, hix, hr, hgo⟩ := exists_probe_atSlot hk hlen
    (hw.hash key) (atIndex hw entries (hw.hash key) key) hs
    (by simp [atIndex])
  rw [hprobe]
  have hiff {e : Entry K V} (he : e ∈ entries) :
      e.key = key ∨ e.hash = hw.hash key ∧ hw.eq key e.key ↔ hw.eq key e.key :=
    eq_or_eq_iff hw fun heq => (h.hash_eq e he).trans (hw.hash_eq heq).symm
  rw [atIndex] at hr
  split_ifs at hr with hempty hpos
  · -- an empty slot: the entry with the key would have been met before
    obtain ⟨⟩ := hr
    refine ⟨none, rfl, fun e he hlive heq => ?_⟩
    obtain ⟨i, hi⟩ := getElem?_of_mem he
    obtain ⟨v, hv⟩ := isSome_iff_exists.mp hlive
    obtain ⟨s', hs', n, rfl, hn⟩ := h.reach hi hv
    rw [h.hash_eq e he, ← hw.hash_eq heq, hlen] at hs' hn
    have hstop : atIndex hw entries (hw.hash key) key
        (slot (2 ^ k) (hw.hash key).toNat n) i = some (some (some (i, v))) := by
      rw [atIndex, if_neg (by simp only [dkixEmpty]; omega), if_pos (by omega),
        Int.toNat_natCast, hi]
      simp only [hv]
      rw [if_pos ((hiff he).mpr heq)]
    rcases lt_trichotomy m n with hmn | rfl | hmn
    · exact hn m hmn (hempty ▸ hix)
    · have := mem_unique hix hs'
      simp only [dkixEmpty] at hempty
      omega
    · have := hgo n hmn _ hs'
      rw [hstop] at this
      simp at this
  · -- a slot with an index
    obtain ⟨e, v, he, hv⟩ := h.entry hix hpos
    simp only [he, hv] at hr
    split_ifs at hr with heq
    obtain ⟨⟩ := hr
    obtain ⟨as, bs, rfl, has⟩ := append_of_getElem? he
    exact ⟨_, rfl, as, e, bs, rfl, has, hv, (hiff (by simp)).mp heq⟩

/-- In both kinds of tables, a search finds the entry with the key. -/
theorem TableInv.exists_lookdict {t : Table K V} {n : ℕ} (h : TableInv hw t n) {hash : UInt64}
    (key : K) (hhash : initSize < t.size → hash = hw.hash key) :
    ∃ r, t.lookdict hw hash key = some r ∧ Found hw key t.entries r := by
  obtain ⟨k, -, hk, hsize⟩ := h.size
  have hpos := h.usable_nonneg
  have hle := h.usable_le
  rw [lookdict]
  split_ifs with hsmall
  · rw [h.toInt_nentries (by rw [hsmall] at hle; simp only [initSize] at hle; omega),
      Int.toNat_natCast]
    exact exists_linearSearch [] t.entries (by simp)
  · obtain ⟨s, hs⟩ := h.exists_empty
    rw [hhash (lt_of_le_of_ne h.initSize_le (Ne.symm hsmall)), hsize]
    exact (h.hashed hsmall).1.exists_probe hk (h.length_indices.trans hsize) hs

end Lookdict

/-! ## Dicts -/

/-- The items of a dict, in the order of its entries. -/
def Dict.content (d : Dict K V) : List (K × V) :=
  match d.table with
  | none => []
  | some t => liveItems t.entries

def DictInv (hw : Hashable K) (d : Dict K V) : Prop :=
  match d.table with
  | none => d.numelements = 0
  | some t => TableInv hw t d.numelements

lemma DictInv.length_content {hw : Hashable K} {d : Dict K V} (h : DictInv hw d) :
    d.content.length = d.numelements := by
  rcases d with ⟨n, _ | t⟩
  · exact Eq.symm h
  · exact TableInv.length_live h

end Acton.Builtin
