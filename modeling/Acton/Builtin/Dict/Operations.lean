import Acton.Builtin.Dict.Resize
import Acton.ToMathlib.OrderedMap

/-!
# What the operations on dictionaries do

For each operation: from a dict with the invariant it gets to a dict with the invariant, and it
returns and changes what the operation on the insertion-ordered map of its items does.

An operation that stores needs that the indices fit into an `int`, one that removes needs that the
slots do.
-/

namespace Acton.Builtin
open List Option OrderedMap Table Dict
open OrderedMap (insert erase)
variable {K V : Type} {hw : Hashable K} {key : K}

/-! ## Found entries and items -/

lemma not_eq_of_mem_liveItems {es : List (Entry K V)}
    (h : ∀ e ∈ es, e.value.isSome → ¬ hw.eq key e.key) : ∀ p ∈ liveItems es, ¬ hw.eq key p.1 := by
  intro p hp
  obtain ⟨e, he, hv, hk⟩ := mem_liveItems.mp hp
  exact hk ▸ h e he (by simp [hv])

/-- The search in the items has the result of the search in the entries. -/
theorem Found.lookup_eq {es : List (Entry K V)} (hdistinct : Distinct hw es) {r : Option (ℕ × V)}
    (h : Found hw key es r) : OrderedMap.lookup hw.eq (liveItems es) key = r.map Prod.snd := by
  rcases r with _ | ⟨ix, v⟩
  · exact lookup_absent (not_eq_of_mem_liveItems h)
  · obtain ⟨as, e, bs, rfl, -, hv, he⟩ := h
    have hne := hdistinct.ne_of_eq (by simp [hv]) he
    rw [liveItems_append, liveItems_cons_some hv]
    exact lookup_present (not_eq_of_mem_liveItems fun a ha => hne a (by simp [ha])) he

section Modify
variable {as bs : List (Entry K V)} {e : Entry K V} {v : V}

lemma modify_append_cons (f : Entry K V → Entry K V) :
    (as ++ e :: bs).modify as.length f = as ++ f e :: bs := by
  induction as with
  | nil => simp
  | cons a as ih => simpa using ih

variable (hdistinct : Distinct hw (as ++ e :: bs)) (hv : e.value = some v) (he : hw.eq key e.key)
include hdistinct

lemma Distinct.setValue (w : Option V) (hw' : w.isSome → e.value.isSome) :
    Distinct hw (as ++ { e with value := w } :: bs) := by
  obtain ⟨has, hbs, hab⟩ := pairwise_append.mp hdistinct
  obtain ⟨heb, hbs⟩ := pairwise_cons.mp hbs
  refine pairwise_append.mpr ⟨has, pairwise_cons.mpr ⟨?_, hbs⟩, ?_⟩
  · exact fun b hb hw1 hb' => heb b hb (hw' hw1) hb'
  · intro a ha b hb ha' hb'
    rcases mem_cons.mp hb with rfl | hb
    · exact hab a ha e mem_cons_self ha' (hw' hb')
    · exact hab a ha b (mem_cons_of_mem e hb) ha' hb'

include hv he

lemma liveItems_insert (w : V) : liveItems (as ++ { e with value := some w } :: bs)
    = insert hw.eq (liveItems (as ++ e :: bs)) key w := by
  have hne := hdistinct.ne_of_eq (by simp [hv]) he
  simp only [liveItems_append, liveItems_cons_some hv]
  rw [insert_present (not_eq_of_mem_liveItems fun a ha => hne a (by simp [ha])) he
    (not_eq_of_mem_liveItems fun a ha => hne a (by simp [ha])), liveItems_cons_some rfl]

lemma liveItems_erase : liveItems (as ++ { e with value := none } :: bs)
    = erase hw.eq (liveItems (as ++ e :: bs)) key := by
  have hne := hdistinct.ne_of_eq (by simp [hv]) he
  simp only [liveItems_append, liveItems_cons_some hv]
  rw [erase_present (not_eq_of_mem_liveItems fun a ha => hne a (by simp [ha])) he
    (not_eq_of_mem_liveItems fun a ha => hne a (by simp [ha])), liveItems_cons_none rfl]

end Modify

/-! ## Writing a slot -/

variable {n : ℕ}
variable {t : Table K V}

lemma Table.setIndex_natCast {s : ℕ} (hs : s < t.size) (x : ℤ) :
    t.setIndex s x = some { t with indices := t.indices.set s x } := by
  rw [setIndex, if_pos (by omega), Int.toNat_natCast]

lemma Table.setIndex_toInt {s : ℕ} (hs : s < t.size) (hs' : s < 2 ^ 31) (x : ℤ) :
    t.setIndex (toInt s) x = some { t with indices := t.indices.set s x } := by
  rw [toInt_of_lt (by omega) (by omega), setIndex_natCast hs]

lemma Table.setIndex_empty (t : Table K V) (x : ℤ) :
    t.setIndex dkixEmpty x = some { t with nentries := t.nentries % 2 ^ 32 + 2 ^ 32 * x } := by
  simp [setIndex, dkixEmpty]

/-! ## Storing -/

lemma TableInv.exists_findEmptySlot (h : TableInv hw t n) (hsize : t.size ≠ initSize)
    (hash : UInt64) : ∃ (s : ℕ) (x : ℤ),
      t.findEmptySlot hash = some (s : ℤ) ∧ t.indices[s]? = some x ∧ x < 0 ∧
      Reach t.indices hash s := by
  obtain ⟨k, -, hk, hpow⟩ := h.size
  have hlength := h.length_indices.trans hpow
  obtain ⟨s, hs⟩ := h.exists_empty
  obtain ⟨m, x, r, hprobe, hx, hr, hgo⟩ := exists_probe_atSlot hk hlength hash
    (fun i ix => if ix ≥ 0 then none else some (some (i : ℤ))) hs (by simp [dkixEmpty])
  split_ifs at hr with hneg
  obtain ⟨⟩ := hr
  refine ⟨_, x, by rw [findEmptySlot, if_neg hsize, hpow, hprobe], hx, by omega,
    m, by rw [hlength], fun j hj hj' => ?_⟩
  rw [hlength] at hj'
  have := hgo j hj _ hj'
  simp [dkixEmpty] at this

section Store
variable {t : Table K V} {n : ℕ} {hash : UInt64} (h : TableInv hw t n) (husable : 0 < t.usable)
  (hlen : t.entries.length < 2 ^ 31) (hhash : initSize < t.size → hash = hw.hash key)
include h husable hlen hhash

lemma TableInv.exists_addEntry (v : V)
    (hfound : ∀ e ∈ t.entries, e.value.isSome → ¬ hw.eq key e.key) :
    ∃ newpos t1 t2, t.findEmptySlot hash = some newpos ∧
      t.setIndex newpos (toInt t.nentries) = some t1 ∧
      t1.addEntry ⟨hash, key, some v⟩ = some t2 ∧ TableInv hw t2 (n + 1) ∧ t2.size = t.size ∧
      t2.usable = t.usable - 1 ∧ t2.entries = t.entries ++ [⟨hash, key, some v⟩] := by
  have hnentries := h.nentries_eq husable
  have hle := h.usable_le
  have hroom : t.entries.length < 2 * t.size / 3 := by omega
  have hlive : (liveItems (t.entries ++ [⟨hash, key, some v⟩])).length = n + 1 := by
    rw [liveItems_append, liveItems_cons_some rfl, length_append, h.length_live]
    rfl
  have hdistinct : Distinct hw (t.entries ++ [⟨hash, key, some v⟩]) := by
    refine pairwise_append.mpr ⟨h.distinct, pairwise_singleton _ _, ?_⟩
    intro a ha b hb hal _ heq
    rw [mem_singleton.mp hb] at heq
    exact hfound a ha hal (hw.eq_symm heq)
  rw [h.toInt_nentries hlen]
  by_cases hsmall : t.size = initSize
  · -- the entries are scanned: the slot is not looked at
    have h4 : t.size = 4 := hsmall
    refine ⟨t.entries.length, _, _, by rw [findEmptySlot, if_pos hsmall, hnentries],
      setIndex_natCast (by omega) _,
      if_pos ⟨hnentries, hroom⟩, ?_, rfl, rfl, rfl⟩
    exact {
      size := h.size
      length_indices := (length_set ..).trans h.length_indices
      usable_nonneg := by dsimp only; omega
      usable_le := by simp; omega
      length_live := hlive
      distinct := hdistinct
      small := fun _ => ⟨by
          rw [getElem?_set_ne (by omega)]
          exact (h.small hsmall).1, .inl (by simp [hnentries])⟩
      hashed := fun hne => absurd hsmall hne }
  · obtain ⟨hindexed, hused, -⟩ := h.hashed hsmall
    have hhash : hash = hw.hash key := hhash (lt_of_le_of_ne h.initSize_le (Ne.symm hsmall))
    obtain ⟨s, x, hslot, hx, hneg, hreach⟩ := h.exists_findEmptySlot hsmall hash
    have hlt : s < t.size := h.length_indices ▸ (List.getElem?_eq_some_iff.mp hx).1
    refine ⟨s, _, _, hslot, setIndex_natCast hlt _, if_pos ⟨hnentries, hroom⟩, ?_, rfl, rfl, rfl⟩
    exact {
      size := h.size
      length_indices := (length_set ..).trans h.length_indices
      usable_nonneg := by dsimp only; omega
      usable_le := by simp; omega
      length_live := hlive
      distinct := hdistinct
      small := fun h4 => absurd h4 hsmall
      hashed := fun _ => ⟨by
          subst hhash
          exact hindexed.add hx hneg v hreach, by
          have := usedSlots_set_le t.indices s t.entries.length
          dsimp only
          omega, by simp [hnentries]⟩ }

omit husable hlen hhash in
lemma TableInv.setValue {as bs : List (Entry K V)} {e : Entry K V} {v : V}
    (hentries : t.entries = as ++ e :: bs) (hv : e.value = some v) (w : V) :
    TableInv hw (t.setValue as.length (some w)) n := by
  have hlive : (liveItems (as ++ { e with value := some w } :: bs)).length = n := by
    rw [← h.length_live, hentries]
    simp [liveItems_cons_some hv, liveItems_cons_some]
  have hmodify : (t.setValue as.length (some w)).entries
      = as ++ { e with value := some w } :: bs := by
    rw [Table.setValue, hentries, modify_append_cons]
  have hlength : (t.setValue as.length (some w)).entries.length = t.entries.length := by
    rw [hmodify, hentries]
    simp
  exact {
    size := h.size
    length_indices := h.length_indices
    usable_nonneg := h.usable_nonneg
    usable_le := by rw [hlength]; exact h.usable_le
    length_live := by rw [hmodify]; exact hlive
    distinct := by
      rw [hmodify]
      exact Distinct.setValue (hentries ▸ h.distinct) (some w) (by simp [hv])
    small := by rw [hlength]; exact h.small
    hashed := fun hne => by
      obtain ⟨hindexed, hused, hnentries⟩ := h.hashed hne
      exact ⟨hindexed.setValue (e := e) (by simp [hentries]) hv w, hused, by rwa [hlength]⟩ }

end Store

lemma TableInv.two_mul_initSize_le (h : TableInv hw t n) (hlt : initSize < t.size) :
    2 * initSize ≤ t.size := by
  obtain ⟨k, -, -, hsize⟩ := h.size
  rw [hsize] at hlt ⊢
  have hk : 2 < k := (Nat.pow_lt_pow_iff_right (a := 2) (by decide)).mp hlt
  exact Nat.pow_le_pow_right (n := 2) (by decide) hk

/-- The hash of the key, which `insertdict` computes again in a table of twice the initial size. -/
theorem TableInv.hash_of_size {hash : UInt64} (h : TableInv hw t n)
    (hhash : 2 * initSize < t.size → hash = hw.hash key) (hlt : initSize < t.size) :
    (if t.size = 2 * initSize then hw.hash key else hash) = hw.hash key := by
  split_ifs with heq
  · rfl
  · exact hhash (lt_of_le_of_ne (h.two_mul_initSize_le hlt) (Ne.symm heq))

/-- A table that is scanned has at most two keys. -/
theorem TableInv.le_two (h : TableInv hw t n) (hsize : t.size = initSize) : n ≤ 2 := by
  have h1 := h.usable_le
  have h2 := h.usable_nonneg
  have h3 := h.length_live
  have h4 := length_liveItems_le t.entries
  rw [hsize] at h1
  simp only [initSize] at h1
  omega

/-- The slots of the table fit into an `int`. -/
def Dict.Fits (d : Dict K V) : Prop := ∀ t ∈ d.table, t.size ≤ 2 ^ 31

variable {d : Dict K V}
section Insert
variable [DecidableEq K] [DecidableEq V] {hash : UInt64}
section
variable (h : TableInv hw t n) (husable : 0 < t.usable) (hlen : t.entries.length < 2 ^ 31)
  (hhash : 2 * initSize < t.size → hash = hw.hash key) (v : V)
include h husable hlen hhash v

lemma TableInv.insertTable_absent (hfound : ∀ e ∈ t.entries, e.value.isSome → ¬ hw.eq key e.key) :
    ∃ t', Dict.insertTable hw ⟨n, some t⟩ hash key v = some ⟨n + 1, some t'⟩ ∧
      TableInv hw t' (n + 1) ∧ t'.size = t.size ∧ t'.usable = t.usable - 1 ∧
      ∃ hash', t'.entries = t.entries ++ [⟨hash', key, some v⟩] := by
  have hhash' := h.hash_of_size hhash
  obtain ⟨newpos, t1, t2, hslot, hset, hadd, hinv, hsize, husable', hentries⟩ :=
    h.exists_addEntry husable hlen hhash' v hfound
  obtain ⟨r, hlook, hr⟩ := h.exists_lookdict key hhash'
  -- the search agrees that the key is not there
  obtain rfl : r = none := by
    rcases r with _ | ⟨ix, w⟩
    · rfl
    · obtain ⟨as, e, bs, heq, -, hw', he⟩ := hr
      exact absurd he (hfound e (by simp [heq]) (by simp [hw']))
  refine ⟨t2, ?_, hinv, hsize, husable', _, hentries⟩
  simp only [insertTable, bind_eq_bind, bind_some, hlook, hslot, hset, hadd]

lemma TableInv.exists_insertTable :
    ∃ n' t', Dict.insertTable hw ⟨n, some t⟩ hash key v = some ⟨n', some t'⟩ ∧
      TableInv hw t' n' ∧ t'.size = t.size ∧
      liveItems t'.entries = insert hw.eq (liveItems t.entries) key v := by
  have hhash' := h.hash_of_size hhash
  obtain ⟨r, hlook, hr⟩ := h.exists_lookdict key hhash'
  rcases r with _ | ⟨ix, w⟩
  · obtain ⟨t', hinsert, hinv, hsize, -, hash', hentries⟩ :=
      h.insertTable_absent husable hlen hhash v hr
    refine ⟨n + 1, t', hinsert, hinv, hsize, ?_⟩
    rw [hentries, insert_absent (not_eq_of_mem_liveItems hr), liveItems_append,
      liveItems_cons_some rfl, liveItems_nil]
  · obtain ⟨as, e, bs, hentries, rfl, hw', he⟩ := hr
    have hitems := liveItems_insert (hentries ▸ h.distinct) hw' he v
    simp only [insertTable, bind_eq_bind, bind_some, hlook]
    split_ifs with hne
    · refine ⟨n, _, rfl, h.setValue hentries hw' v, rfl, ?_⟩
      rw [Table.setValue, hentries, modify_append_cons, hitems]
    · -- the same value is not written again
      rw [not_not] at hne
      subst hne
      refine ⟨n, t, rfl, h, rfl, ?_⟩
      rw [hentries, ← hitems, ← hw']

end

/-- The table that `insertdict` goes on with: it has the items of the dict, and room for one
more. -/
structure Room (hw : Hashable K) (d : Dict K V) (hash : UInt64) (key : K) (t : Table K V) :
    Prop where
  insertdict_eq : ∀ v, d.insertdict hw hash key v
    = Dict.insertTable hw ⟨d.numelements, some t⟩ hash key v
  inv : TableInv hw t d.numelements
  usable_pos : 0 < t.usable
  hash_eq : 2 * initSize < t.size → hash = hw.hash key
  content_eq : liveItems t.entries = d.content
  origin : d.table = some t ∨ Fresh t d.numelements

lemma DictInv.exists_room_of_resize (h : DictInv hw d) (hn : d.numelements < 2 ^ 31)
    (hinsert : ∀ v, d.insertdict hw hash key v
      = (dictresize hw d).bind fun d => d.insertTable hw hash key v)
    (hcopy : d.numelements ≠ 0 → ∃ t, d.table = some t ∧ Copyable hw t d.numelements)
    (hbig : 2 < d.numelements → hash = hw.hash key) : ∃ t, Room hw d hash key t := by
  obtain ⟨t, heq, hinv, hfresh, hcontent⟩ := exists_dictresize hn h.length_content hcopy
  refine ⟨t, fun v => by rw [hinsert, heq, bind_some], hinv,
    hfresh.usable_pos hinv.initSize_le, fun hlt => hbig ?_, hcontent, .inr hfresh⟩
  -- a table with more than eight slots has at least sixteen
  have hlt' := hfresh.size_lt
  obtain ⟨k, -, -, hsize⟩ := hinv.size
  rw [hsize] at hlt hlt'
  have hk : 3 < k := (Nat.pow_lt_pow_iff_right (a := 2) (by decide)).mp hlt
  have : 2 ^ 4 ≤ 2 ^ k := Nat.pow_le_pow_right (by decide) hk
  omega

lemma DictInv.exists_room (h : DictInv hw d) (hn : d.numelements < 2 ^ 31) (key : K)
    (hhash : ∀ t ∈ d.table, initSize < t.size → hash = hw.hash key) :
    ∃ t, Room hw d hash key t := by
  rcases d with ⟨n, _ | t⟩
  · have hzero : n = 0 := h
    exact h.exists_room_of_resize hn (fun _ => rfl) (fun hne => absurd hzero hne)
      (by simp only; omega)
  · have hinv : TableInv hw t n := h
    by_cases husable : t.usable ≤ 0
    · refine h.exists_room_of_resize hn (fun v => ?_) (fun _ => ⟨t, rfl, hinv.copyable⟩)
        fun hlt => hhash t rfl ?_
      · simp only [insertdict, decide_eq_true husable, if_true, bind_eq_bind]
      · refine lt_of_le_of_ne hinv.initSize_le fun heq => ?_
        have := hinv.le_two heq.symm
        dsimp only at hlt
        omega
    · refine ⟨t, fun v => ?_, hinv, Int.not_le.mp husable,
        fun hlt => hhash t rfl (lt_trans (by decide) hlt), rfl, .inl rfl⟩
      simp only [insertdict, decide_eq_false husable, Bool.false_eq_true, if_false,
        bind_eq_bind, bind_some]

lemma DictInv.exists_insertdict (h : DictInv hw d) (hfits : d.Fits)
    (hn : d.numelements ≤ 2 ^ 31 / 3)
    (hhash : ∀ t ∈ d.table, initSize < t.size → hash = hw.hash key) (v : V) :
    ∃ d', d.insertdict hw hash key v = some d' ∧ DictInv hw d' ∧ d'.Fits ∧
      d'.content = insert hw.eq d.content key v := by
  obtain ⟨t, hinsert, hinv, husable, hhash', hcontent, hcases⟩ := h.exists_room (by omega) key hhash
  -- a new table has less than `2 ^ 32` slots
  have hsize : t.size ≤ 2 ^ 31 := by
    rcases hcases with ht | hfresh
    · exact hfits t ht
    · have hlt := hfresh.size_lt
      obtain ⟨k, -, -, hpow⟩ := hinv.size
      rw [hpow]
      refine Nat.pow_le_pow_right (by decide) (Nat.le_of_lt_succ ?_)
      refine (Nat.pow_lt_pow_iff_right (a := 2) (by decide)).mp ?_
      rw [← hpow]
      simp only [initSize] at hlt
      omega
  have hlen : t.entries.length < 2 ^ 31 := by
    have := hinv.usable_le
    omega
  obtain ⟨n', t', heq, hinv', hsize', hitems⟩ := hinv.exists_insertTable husable hlen hhash' v
  refine ⟨_, (hinsert v).trans heq, hinv', fun t'' ht'' => ?_, hcontent ▸ hitems⟩
  obtain ⟨⟩ := ht''
  rwa [hsize']

omit [DecidableEq K] [DecidableEq V] in
lemma setitem_hash (t : Table K V) (ht : t ∈ d.table) (hlt : initSize < t.size) :
    (match d.table with
    | none => 0
    | some table => table.hashFor hw key) = hw.hash key := by
  simp only [show d.table = some t from ht, hashFor, if_pos hlt]

lemma DictInv.exists_setitem (h : DictInv hw d) (hfits : d.Fits) (hn : d.numelements ≤ 2 ^ 31 / 3)
    (key : K) (v : V) :
    ∃ d', d.setitem hw key v = some d' ∧ DictInv hw d' ∧ d'.Fits ∧
      d'.content = insert hw.eq d.content key v :=
  h.exists_insertdict hfits hn setitem_hash v

end Insert

/-! ## Looking up -/

section Lookup
variable [DecidableEq K]

lemma TableInv.exists_lookdict_hashFor (h : TableInv hw t n) (key : K) :
    ∃ r, t.lookdict hw (t.hashFor hw key) key = some r ∧ Found hw key t.entries r :=
  h.exists_lookdict key fun hlt => if_pos hlt

lemma TableInv.lookup_eq (h : TableInv hw t n) (key : K) : (⟨n, some t⟩ : Dict K V).lookup hw key
      = some (OrderedMap.lookup hw.eq (liveItems t.entries) key) := by
  obtain ⟨r, hlook, hr⟩ := h.exists_lookdict_hashFor key
  simp only [Dict.lookup, bind_eq_bind, bind_some, hlook, hr.lookup_eq h.distinct]

lemma DictInv.exists_lookdict (h : DictInv hw d) (key : K) {hash : UInt64}
    (hhash : ∀ t ∈ d.table, initSize < t.size → hash = hw.hash key) :
    ∃ r, d.lookdict hw hash key = some r ∧
      OrderedMap.lookup hw.eq d.content key = r.map Prod.snd := by
  rcases d with ⟨n, _ | t⟩
  · exact ⟨none, rfl, rfl⟩
  · have hinv : TableInv hw t n := h
    obtain ⟨r, hlook, hr⟩ := hinv.exists_lookdict key (hhash t rfl)
    exact ⟨r, hlook, hr.lookup_eq hinv.distinct⟩

lemma DictInv.getDef_eq (h : DictInv hw d) (key : K) (deflt : V) :
    d.getDef hw key deflt = some ((OrderedMap.lookup hw.eq d.content key).getD deflt) := by
  rcases d with ⟨n, _ | t⟩
  · rfl
  · rw [getDef, TableInv.lookup_eq h]
    rfl

/-- In a dict without keys, a search may be left out. -/
theorem DictInv.ite_lookup {β : Type} (h : DictInv hw d) (key : K) (f : Option V → β) (b : β)
    (hb : d.content = [] → f none = b) :
    (if d.numelements = 0 then some b else (d.lookup hw key).map f)
      = some (f (OrderedMap.lookup hw.eq d.content key)) := by
  split_ifs with hzero
  · have hnil : d.content = [] := length_eq_zero_iff.mp (h.length_content.trans hzero)
    rw [hnil, ← hb hnil]
    rfl
  · rcases d with ⟨n, _ | t⟩
    · exact absurd h hzero
    · rw [TableInv.lookup_eq h]
      rfl

end Lookup

/-! ## Removing -/

section Remove
variable {t : Table K V} {n : ℕ} {as bs : List (Entry K V)} {e : Entry K V} {v : V}

/-- The search for an index ends at its slot or at an empty one, whichever comes first. -/
theorem Table.exists_lookdictIndex {k s ix : ℕ} {x : ℤ} (hk : k < 64) (hsize : t.size = 2 ^ k)
    (hlen : t.indices.length = t.size) (hash : UInt64) (hs : t.indices[s]? = some x)
    (hx : x = ix ∨ x = dkixEmpty) :
    ∃ m x, t.indices[Probe.slot (2 ^ k) hash.toNat m]? = some x ∧
      (x = ix ∧ t.lookdictIndex hash ix = some (toInt (Probe.slot (2 ^ k) hash.toNat m)) ∨
        x = dkixEmpty ∧ t.lookdictIndex hash ix = some dkixEmpty) ∧
      ∀ j < m, t.indices[Probe.slot (2 ^ k) hash.toNat j]? ≠ some (ix : ℤ) := by
  obtain ⟨m, x, r, hprobe, hx, hr, hgo⟩ := exists_probe_atSlot hk (hlen.trans hsize) hash
    (fun i x => if x = ix then some (some (toInt i))
      else if x = dkixEmpty then some (some dkixEmpty) else none) hs (by
        rcases hx with rfl | rfl
        · simp
        · simp only
          split_ifs <;> rfl)
  refine ⟨m, x, hx, ?_, fun j hj hslot => ?_⟩
  · rw [lookdictIndex, hsize, hprobe]
    split_ifs at hr with hfound hempty
    · exact .inl ⟨hfound, (some.inj hr).symm⟩
    · exact .inr ⟨hempty, (some.inj hr).symm⟩
  · have := hgo j hj _ hslot
    simp at this

/-- The table after an entry has been found and its slot been given up. -/
structure Vacated (t t' : Table K V) (ix : ℕ) : Prop where
  size_eq : t'.size = t.size
  usable_eq : t'.usable = t.usable
  entries_eq : t'.entries = t.entries
  length_indices : t'.indices.length = t.indices.length
  small : t.size = initSize → t'.indices[2]? = some dkixEmpty ∧
    (t'.nentries = t.entries.length ∨ t'.nentries = t.entries.length - 2 ^ 33)
  hashed : t.size ≠ initSize → t'.nentries = t.nentries ∧
    ∃ s : ℕ, t.indices[s]? = some (ix : ℤ) ∧ t'.indices = t.indices.set s dkixDummy

/-- Where the entries are scanned, the slot of an entry may not be found; then the upper half of
`nentries` is overwritten. -/
theorem TableInv.exists_vacated_small (h : TableInv hw t n) (hsmall : t.size = initSize)
    (hash : UInt64) (ix : ℕ) : ∃ t', t.giveUp hash ix = some t' ∧ Vacated t t' ix := by
  obtain ⟨k, -, hk, hsize⟩ := h.size
  have h4 : (2 : ℕ) ^ k = 4 := hsize.symm.trans hsmall
  obtain ⟨htwo, hnentries⟩ := h.small hsmall
  have hcap := h.usable_le
  have hnonneg := h.usable_nonneg
  obtain ⟨m, x, hx, hcases, -⟩ :=
    exists_lookdictIndex hk hsize h.length_indices hash htwo (.inr rfl : _ = (ix : ℤ) ∨ _)
  rw [giveUp]
  rcases hcases with ⟨hfound, hlook⟩ | ⟨-, hlook⟩
  · -- the slot of the entry is one of the first two
    have hlt : Probe.slot (2 ^ k) hash.toNat m < 4 := h4 ▸ Probe.slot_lt (Nat.two_pow_pos k) _ _
    have hne : Probe.slot (2 ^ k) hash.toNat m ≠ 2 := by
      intro heq
      rw [heq, htwo] at hx
      have := some.inj hx
      simp only [dkixEmpty] at this
      omega
    rw [hlook, bind_eq_bind, bind_some]
    refine ⟨_, setIndex_toInt (by omega) (by omega) _,
      ⟨rfl, rfl, rfl, length_set .., fun _ => ⟨?_, ?_⟩, fun hne => absurd hsmall hne⟩⟩
    · rw [getElem?_set_ne hne, htwo]
    · exact hnentries.imp_right And.left
  · rw [hlook, bind_eq_bind, bind_some]
    refine ⟨_, t.setIndex_empty _, ⟨rfl, rfl, rfl, rfl, fun _ => ⟨htwo, .inr ?_⟩,
      fun hne => absurd hsmall hne⟩⟩
    simp only [dkixDummy]
    rcases hnentries with heq | ⟨heq, -⟩ <;> rw [heq] <;> omega

/-- In a hash table, the slot of an entry is found. -/
theorem TableInv.exists_lookdictIndex (h : TableInv hw t n) (hsize : t.size ≠ initSize)
    (hentries : t.entries = as ++ e :: bs) (hv : e.value = some v) :
    ∃ s < t.size, t.indices[s]? = some (as.length : ℤ) ∧
      t.lookdictIndex (hw.hash e.key) as.length = some (toInt s) := by
  obtain ⟨k, -, hk, hpow⟩ := h.size
  obtain ⟨hindexed, -⟩ := h.hashed hsize
  obtain ⟨s, hs, l, hl, hpath⟩ := hindexed.reach (i := as.length) (e := e) (by simp [hentries]) hv
  rw [hindexed.hash_eq e (by simp [hentries]), h.length_indices, hpow] at hl hpath
  obtain ⟨m, x, hx, hcases, hgo⟩ :=
    Table.exists_lookdictIndex hk hpow h.length_indices (hw.hash e.key) hs (.inl rfl)
  rcases hcases with ⟨rfl, hlook⟩ | ⟨rfl, -⟩
  · exact ⟨_, hpow ▸ Probe.slot_lt (Nat.two_pow_pos k) _ _, hx, hlook⟩
  · -- no slot on the way is empty
    rcases lt_trichotomy m l with hml | rfl | hml
    · exact absurd hx (hpath m hml)
    · rw [hl, hs] at hx
      exact absurd (some.inj hx) (by simp only [dkixEmpty]; omega)
    · exact absurd (hl ▸ hs) (hgo l hml)

lemma TableInv.exists_vacated_hashed (h : TableInv hw t n) (hsize : t.size ≠ initSize)
    (hfits : t.size ≤ 2 ^ 31) (hentries : t.entries = as ++ e :: bs) (hv : e.value = some v) :
    ∃ t', t.giveUp (hw.hash e.key) as.length = some t' ∧ Vacated t t' as.length := by
  obtain ⟨s, hlt, hs, hlook⟩ := h.exists_lookdictIndex hsize hentries hv
  rw [giveUp, hlook, bind_eq_bind, bind_some]
  exact ⟨_, setIndex_toInt hlt (by omega) _, ⟨rfl, rfl, rfl, length_set ..,
    fun h4 => absurd h4 hsize, fun _ => ⟨rfl, s, hs, rfl⟩⟩⟩

lemma usedSlots_set_dummy {indices : List ℤ} {s : ℕ} {x : ℤ} (hs : indices[s]? = some x)
    (hx : x ≠ dkixEmpty) : usedSlots (indices.set s dkixDummy) = usedSlots indices := by
  obtain ⟨hlt, rfl⟩ := List.getElem?_eq_some_iff.mp hs
  have hle := boole_getElem_le_countP (p := (· ≠ dkixEmpty)) hlt
  rw [usedSlots, usedSlots, countP_set hlt]
  rw [if_pos (decide_eq_true hx)] at hle ⊢
  rw [if_pos (by decide), Nat.sub_add_cancel hle]

variable {t' : Table K V}
section
variable (h : TableInv hw t n) (hvac : Vacated t t' as.length)
  (hentries : t.entries = as ++ e :: bs) (hv : e.value = some v)
include h hvac hentries hv

/-- The table without the entry can be copied, -/
theorem TableInv.copyable_vacated : Copyable hw (t'.setValue as.length none) (n - 1) := by
  have hmodify : (t'.setValue as.length none).entries = as ++ { e with value := none } :: bs := by
    rw [Table.setValue, hvac.entries_eq, hentries, modify_append_cons]
  have hlive := h.length_live
  rw [hentries, liveItems_append, liveItems_cons_some hv, length_append, length_cons]
    at hlive
  have hcap := h.usable_le
  have hnonneg := h.usable_nonneg
  have hn := length_liveItems_le t.entries
  refine ⟨?_, ?_, fun heq => ?_, fun hlt a ha => ?_⟩
  · rw [hmodify, liveItems_append, liveItems_cons_none rfl, length_append]
    omega
  · rw [hmodify]
    exact Distinct.setValue (hentries ▸ h.distinct) none (by simp)
  · -- the entry is deleted, so there are more entries than keys
    have hlength : t.entries.length = (t'.setValue as.length none).entries.length := by
      rw [hmodify, hentries]
      simp
    have heq : t'.nentries = (n - 1 : ℕ) := heq
    by_cases hsize : t.size = initSize
    · rw [hsize] at hcap
      simp only [initSize] at hcap
      rcases (hvac.small hsize).2 with h' | h' <;> omega
    · have h1 := (hvac.hashed hsize).1
      have h2 := (h.hashed hsize).2.2
      omega
  · have hsize : t.size ≠ initSize := by
      rw [← hvac.size_eq]
      exact Ne.symm hlt.ne
    obtain ⟨hindexed, -⟩ := h.hashed hsize
    rw [hmodify] at ha
    rcases mem_append.mp ha with ha | ha
    · exact hindexed.hash_eq a (by simp [hentries, ha])
    · rcases mem_cons.mp ha with rfl | ha
      · exact hindexed.hash_eq e (by simp [hentries])
      · exact hindexed.hash_eq a (by simp [hentries, ha])

/-- and it has the invariant unless all keys are gone. -/
theorem TableInv.vacated (hn : n ≠ 1) : TableInv hw (t'.setValue as.length none) (n - 1) := by
  have hcopy := h.copyable_vacated hvac hentries hv
  have hmodify : (t'.setValue as.length none).entries = as ++ { e with value := none } :: bs := by
    rw [Table.setValue, hvac.entries_eq, hentries, modify_append_cons]
  have hlength : (t'.setValue as.length none).entries.length = t.entries.length := by
    rw [hmodify, hentries]
    simp
  have hcap := h.usable_le
  have hnonneg := h.usable_nonneg
  have hlive := length_liveItems_le t.entries
  rw [h.length_live] at hlive
  have hpos : 0 < n := by
    rw [← h.length_live, hentries, liveItems_append, liveItems_cons_some hv]
    simp
  refine ⟨hvac.size_eq ▸ h.size, ?_, hvac.usable_eq ▸ hnonneg, ?_, hcopy.length_live,
    hcopy.distinct, fun hsize => ?_, fun hsize => ?_⟩
  · exact hvac.length_indices.trans (h.length_indices.trans hvac.size_eq.symm)
  · rw [hlength]
    exact hvac.usable_eq ▸ hvac.size_eq ▸ hcap
  · have hsize : t.size = initSize := hvac.size_eq.symm.trans hsize
    obtain ⟨htwo, hnentries⟩ := hvac.small hsize
    rw [hlength]
    -- two keys fill the table
    refine ⟨htwo, hnentries.imp_right fun heq => ⟨heq, ?_⟩⟩
    rw [hsize] at hcap
    simp only [initSize] at hcap
    have : t'.usable = t.usable := hvac.usable_eq
    change t'.usable = 0
    omega
  · have hsize : t.size ≠ initSize := hvac.size_eq ▸ hsize
    obtain ⟨hnentries, s, hs, hindices⟩ := hvac.hashed hsize
    obtain ⟨hindexed, hused, hlen⟩ := h.hashed hsize
    rw [hlength]
    refine ⟨?_, ?_, hnentries.trans hlen⟩
    · change Indexed hw t'.indices (t'.entries.modify _ _)
      rw [hindices, hvac.entries_eq]
      exact hindexed.remove hs
    · change t'.usable + usedSlots t'.indices ≤ 2 * t'.size / 3
      rw [hindices, usedSlots_set_dummy hs (by simp only [dkixEmpty]; omega), hvac.usable_eq,
        hvac.size_eq]
      exact hused

end
end Remove

/-- What `pop` and `__delitem__` have in common. -/
theorem DictInv.exists_remove [DecidableEq K] (h : DictInv hw d) (hfits : d.Fits)
    (hn : d.numelements ≤ 2 ^ 31 / 3) (key : K) :
    ∃ d', d.remove hw key = some (OrderedMap.lookup hw.eq d.content key, d') ∧ DictInv hw d' ∧
      d'.Fits ∧ d'.content = erase hw.eq d.content key := by
  by_cases hzero : d.numelements = 0
  · have hnil : d.content = [] := length_eq_zero_iff.mp (h.length_content.trans hzero)
    refine ⟨d, ?_, h, hfits, by rw [hnil]; rfl⟩
    rw [remove, if_pos hzero, hnil]
    rfl
  · rcases d with ⟨n, _ | t⟩
    · exact absurd h hzero
    · have hinv : TableInv hw t n := h
      have hsize : t.size ≤ 2 ^ 31 := hfits t rfl
      obtain ⟨r, hlook, hr⟩ := hinv.exists_lookdict_hashFor key
      have hlookup : lookup hw.eq (liveItems t.entries) key = _ := hr.lookup_eq hinv.distinct
      simp only [remove, if_neg hzero, content, bind_eq_bind, bind_some, hlook, hlookup]
      rcases r with _ | ⟨ix, v⟩
      · exact ⟨_, rfl, h, hfits, (erase_absent (not_eq_of_mem_liveItems hr)).symm⟩
      · obtain ⟨as, e, bs, hentries, rfl, hv, he⟩ := hr
        obtain ⟨t', hgive, hvac⟩ : ∃ t',
            t.giveUp (t.hashFor hw key) as.length = some t' ∧ Vacated t t' as.length := by
          by_cases hsmall : t.size = initSize
          · exact hinv.exists_vacated_small hsmall _ _
          · have hlt := lt_of_le_of_ne hinv.initSize_le (Ne.symm hsmall)
            rw [hashFor, if_pos hlt, hw.hash_eq he]
            exact hinv.exists_vacated_hashed hsmall hsize hentries hv
        have hitems : liveItems (t'.setValue as.length none).entries
            = erase hw.eq (liveItems t.entries) key := by
          rw [setValue, hvac.entries_eq, hentries, modify_append_cons,
            liveItems_erase (hentries ▸ hinv.distinct) hv he]
        have hcopy := hinv.copyable_vacated hvac hentries hv
        simp only [hgive, bind_some]
        split_ifs with hresize
        · obtain ⟨t2, heq, hinv2, hfresh, hcontent⟩ := exists_dictresize
            (d := ⟨n - 1, some (t'.setValue as.length none)⟩) (by dsimp only at hn ⊢; omega)
            hcopy.length_live fun _ => ⟨_, rfl, hcopy⟩
          refine ⟨⟨n - 1, some t2⟩, by rw [heq]; rfl, hinv2, fun t3 ht3 => ?_,
            hcontent.trans hitems⟩
          obtain ⟨⟩ := ht3
          -- the new table is not larger than the old one
          have h1 := hfresh.size_lt
          have h2 : (t'.setValue as.length none).size = t.size := hvac.size_eq
          simp only [initSize] at h1
          omega
        · refine ⟨_, rfl, hinv.vacated hvac hentries hv ?_, fun t3 ht3 => ?_, hitems⟩
          · rintro rfl
            have h1 := hinv.initSize_le
            have h2 : (t'.setValue as.length none).size = t.size := hvac.size_eq
            simp only [initSize] at h1
            omega
          · obtain ⟨⟩ := ht3
            exact hvac.size_eq.trans_le hsize

end Acton.Builtin
