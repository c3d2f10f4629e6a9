import Acton.Builtin.Dict.Operations

/-!
# Dictionaries are insertion-ordered maps

A sequence of operations on a new dict returns what the same operations on an insertion-ordered
finite map return, as long as the map does not get more than `2 ^ 31 / 3` keys (`dict_correct`).
Then no table has more than `2 ^ 31` slots, and the slots and indices, which the code has in `int`
variables, fit.

With `2 ^ 31 + 1` keys, the index of the last entry does not fit, and a search does not find it
(`dict_diverges`). The accesses to the array of indices are in bounds as long as keys are removed
from hash tables only (`dict_in_bounds`).
-/

namespace Acton.Builtin
open List Option Dict OrderedMap DictOp
open OrderedMap (insert erase)
variable {K V : Type} {hw : Hashable K} {d : Dict K V}

/-! ## `popitem` -/

/-- What the loop of `popitem` has to return. -/
def Last (entries : List (Entry K V)) : Option (ℕ × K × V) → Prop
  | none => liveItems entries = []
  | some (ix, k, v) => ∃ as e bs, entries = as ++ e :: bs ∧ as.length = ix ∧ e.value = some v ∧
      e.key = k ∧ ∀ b ∈ bs, b.value = none

lemma exists_lastEntry (as bs : List (Entry K V)) :
    ∃ r, Dict.lastEntry (as ++ bs) as.length = some r ∧ Last as r := by
  -- from the end: the loop goes down
  induction as using List.reverseRecOn generalizing bs with
  | nil => exact ⟨none, rfl, rfl⟩
  | append_singleton as a ih =>
    have hread : (as ++ [a] ++ bs)[as.length]? = some a := by simp
    rw [length_append, length_singleton, lastEntry, hread]
    cases hv : a.value with
    | some v =>
      exact ⟨some (as.length, a.key, v), by simp only [hv], as, a, [], rfl, rfl, hv, rfl, by simp⟩
    | none =>
      obtain ⟨r, hr, hlast⟩ := ih (a :: bs)
      refine ⟨r, by simpa only [hv, append_assoc, singleton_append] using hr, ?_⟩
      rcases r with _ | ⟨ix, k, v⟩
      · rw [Last, liveItems_append, liveItems_cons_none hv, show liveItems as = [] from hlast]
        rfl
      · obtain ⟨cs, e, ds, rfl, hix, hv', hk, hds⟩ := hlast
        refine ⟨cs, e, ds ++ [a], by simp, hix, hv', hk, fun b hb => ?_⟩
        rcases mem_append.mp hb with hb | hb
        · exact hds b hb
        · rwa [mem_singleton.mp hb]

lemma liveItems_eq_nil {es : List (Entry K V)} (h : ∀ e ∈ es, e.value = none) :
    liveItems es = [] := by
  refine filterMap_eq_nil_iff.mpr fun e he => ?_
  rw [h e he]
  rfl

/-- The last entry goes, with the deleted ones behind it. -/
theorem TableInv.popitem {t t' : Table K V} {n : ℕ} (h : TableInv hw t n)
    {as bs : List (Entry K V)} {e : Entry K V} {v : V} (hentries : t.entries = as ++ e :: bs)
    (hv : e.value = some v) (hbs : ∀ b ∈ bs, b.value = none)
    (ht' : if initSize < t.size then Vacated t t' as.length else t' = t) :
    TableInv hw { t' with nentries := as.length, entries := t'.entries.take as.length }
      (n - 1) := by
  have hlive := h.length_live
  rw [hentries, liveItems_append, liveItems_cons_some hv, liveItems_eq_nil hbs,
    length_append, length_singleton] at hlive
  have hcap := h.usable_le
  rw [hentries, length_append, length_cons] at hcap
  have hdistinct : Distinct hw as :=
    List.Pairwise.sublist (sublist_append_left as (e :: bs)) (hentries ▸ h.distinct)
  have htake : t.entries.take as.length = as := by rw [hentries, take_left]
  split_ifs at ht' with hsize
  · have hne : t.size ≠ initSize := Ne.symm hsize.ne
    obtain ⟨-, s, hs, hindices⟩ := ht'.hashed hne
    obtain ⟨hindexed, hused, -⟩ := h.hashed hne
    -- no slot holds the index of an entry that goes
    have hindexed' : Indexed hw t'.indices as := by
      have hremove := hindexed.remove hs
      rw [hentries, modify_append_cons] at hremove
      have htake' : (as ++ { e with value := none } :: bs).take as.length = as := take_left
      rw [hindices, ← htake']
      refine hremove.take fun j b hj hb => ?_
      rw [getElem?_append_right hj] at hb
      rcases mem_cons.mp (mem_of_getElem? hb) with rfl | hb
      · rfl
      · exact hbs b hb
    rw [ht'.entries_eq, htake]
    exact {
      size := ht'.size_eq ▸ h.size
      length_indices := ht'.length_indices.trans (h.length_indices.trans ht'.size_eq.symm)
      usable_nonneg := ht'.usable_eq ▸ h.usable_nonneg
      usable_le := by
        rw [ht'.usable_eq, ht'.size_eq]
        dsimp only
        omega
      length_live := by
        dsimp only
        omega
      distinct := hdistinct
      small := fun h4 => absurd (ht'.size_eq.symm.trans h4) hne
      hashed := fun _ => ⟨hindexed', by
        rw [hindices, usedSlots_set_dummy hs (by simp only [dkixEmpty]; omega), ht'.usable_eq,
          ht'.size_eq]
        exact hused, rfl⟩ }
  · subst ht'
    have hsmall : t'.size = initSize := le_antisymm (Nat.le_of_not_lt hsize) h.initSize_le
    rw [htake]
    exact {
      size := h.size
      length_indices := h.length_indices
      usable_nonneg := h.usable_nonneg
      usable_le := by
        dsimp only
        omega
      length_live := by
        dsimp only
        omega
      distinct := hdistinct
      small := fun _ => ⟨(h.small hsmall).1, .inl rfl⟩
      hashed := fun hne => absurd hsmall hne }

lemma DictInv.exists_popitem (h : DictInv hw d) (hfits : d.Fits) :
    ∃ d', d.popitem hw = some (d.content.getLast?, d') ∧ DictInv hw d' ∧ d'.Fits ∧
      d'.content = d.content.dropLast := by
  by_cases hzero : d.numelements = 0
  · have hnil : d.content = [] := length_eq_zero_iff.mp (h.length_content.trans hzero)
    exact ⟨d, by rw [Dict.popitem, if_pos hzero, hnil]; rfl, h, hfits, by rw [hnil]; rfl⟩
  · rcases d with ⟨n, _ | t⟩
    · exact absurd h hzero
    · have hinv : TableInv hw t n := h
      have hsize : t.size ≤ 2 ^ 31 := hfits t rfl
      have hcap := hinv.usable_le
      have hnonneg := hinv.usable_nonneg
      have hcount : (toInt (t.nentries - 1) + 1).toNat = t.entries.length := by
        rw [hinv.toInt_nentries_sub_one (by omega)]
        omega
      obtain ⟨r, hlast, hr⟩ := exists_lastEntry t.entries []
      rw [append_nil] at hlast
      simp only [Dict.popitem, if_neg hzero, Dict.content, bind_eq_bind, bind_some, hcount, hlast]
      rcases r with _ | ⟨ix, k, v⟩
      · exact absurd (hinv.length_live.symm.trans (by rw [hr]; rfl)) hzero
      · obtain ⟨as, e, bs, hentries, rfl, hv, rfl, hbs⟩ := hr
        have hitems : liveItems t.entries = liveItems as ++ [(e.key, v)] := by
          rw [hentries, liveItems_append, liveItems_cons_some hv, liveItems_eq_nil hbs]
        obtain ⟨t', ht', hvac⟩ : ∃ t',
            (if t.size > initSize then t.giveUp (hw.hash e.key) as.length else some t) = some t' ∧
            if initSize < t.size then Vacated t t' as.length else t' = t := by
          split_ifs with hlt
          · exact hinv.exists_vacated_hashed (Ne.symm hlt.ne) hsize hentries hv
          · exact ⟨t, rfl, rfl⟩
        have hsame : t'.entries = t.entries ∧ t'.size = t.size := by
          split_ifs at hvac with hlt
          · exact ⟨hvac.entries_eq, hvac.size_eq⟩
          · rw [hvac]
            exact ⟨rfl, rfl⟩
        simp only [ht', bind_some]
        rw [hitems, getLast?_concat, dropLast_concat]
        refine ⟨_, rfl, hinv.popitem hentries hv hbs hvac, fun t1 ht1 => ?_, ?_⟩
        · obtain ⟨⟩ := ht1
          exact hsame.2.trans_le hsize
        · rw [hsame.1, hentries, take_left]

/-! ## Iterating -/

/-- What one call of `__next__` has to return, for the entries that are left. -/
theorem exists_nextEntry (as bs : List (Entry K V)) :
    liveItems bs = [] ∧ Dict.nextEntry (as ++ bs) bs.length as.length = some none ∨
    ∃ cs e ds v, bs = cs ++ e :: ds ∧ liveItems bs = (e.key, v) :: liveItems ds ∧
      Dict.nextEntry (as ++ bs) bs.length as.length
        = some (some ((e.key, v), as.length + cs.length + 1)) := by
  induction bs generalizing as with
  | nil => exact .inl ⟨rfl, rfl⟩
  | cons b bs ih =>
    have hread : (as ++ b :: bs)[as.length]? = some b := by simp
    rw [length_cons, nextEntry, hread]
    cases hv : b.value with
    | some v =>
      exact .inr ⟨[], b, bs, v, rfl, liveItems_cons_some hv bs, by simp [hv]⟩
    | none =>
      rw [liveItems_cons_none hv]
      have := ih (as ++ [b])
      simp only [append_assoc, singleton_append, length_append, length_singleton] at this
      rcases this with ⟨hnil, hnext⟩ | ⟨cs, e, ds, v, rfl, hlive, hnext⟩
      · exact .inl ⟨hnil, by simpa only [hv] using hnext⟩
      · refine .inr ⟨b :: cs, e, ds, v, rfl, hlive, ?_⟩
        simp only [hv, hnext, length_cons]
        congr 4
        omega

lemma yields_eq {t : Table K V} {n : ℕ} (hn : toInt t.nentries = t.entries.length) (fuel : ℕ)
    (as bs : List (Entry K V)) (hentries : t.entries = as ++ bs) (hfuel : bs.length < fuel) :
    (⟨n, some t⟩ : Dict K V).yields fuel as.length = some (liveItems bs) := by
  induction fuel generalizing as bs with
  | zero => exact absurd hfuel (Nat.not_lt_zero _)
  | succ fuel ih =>
    have hcount : (toInt t.nentries).toNat - as.length = bs.length := by
      rw [hn, hentries, length_append]
      omega
    have hnext : (⟨n, some t⟩ : Dict K V).next as.length
        = nextEntry (as ++ bs) bs.length as.length := by
      simp only [Dict.next, hcount, hentries]
    rw [yields, hnext]
    rcases exists_nextEntry as bs with ⟨hnil, heq⟩ | ⟨cs, e, ds, v, rfl, hlive, heq⟩
    · rw [heq, hnil]
      rfl
    · rw [heq, hlive]
      have := ih (as ++ cs ++ [e]) ds (by simp [hentries]) (by
        rw [length_append, length_cons] at hfuel
        omega)
      rw [length_append, length_append, length_singleton] at this
      simp only [bind_eq_bind, bind_some, this, map_some]

lemma DictInv.items_eq (h : DictInv hw d) (hfits : d.Fits) : d.items = some d.content := by
  rcases d with ⟨n, _ | t⟩
  · rfl
  · have hinv : TableInv hw t n := h
    have hsize : t.size ≤ 2 ^ 31 := hfits t rfl
    have hcap := hinv.usable_le
    have hnonneg := hinv.usable_nonneg
    have hn := hinv.toInt_nentries (by omega)
    refine yields_eq hn _ [] t.entries rfl ?_
    simp only [hn]
    omega

/-! ## Sequences of operations -/

/-- The operations on an insertion-ordered map. -/
def DictOp.apply (hw : Hashable K) (bNone : V) (m : List (K × V)) :
    DictOp K V → DictResult K V × List (K × V)
  | .setitem key value => (.unit, insert hw.eq m key value)
  | .setdefault key deflt =>
    match OrderedMap.lookup hw.eq m key with
    | some v => (.value v, m)
    | none => (.value (deflt.getD bNone), insert hw.eq m key (deflt.getD bNone))
  | .update other => (.unit, other.foldl (fun m p => insert hw.eq m p.1 p.2) m)
  | .delitem key => (.unit, erase hw.eq m key)
  | .pop key => (.value ((OrderedMap.lookup hw.eq m key).getD bNone), erase hw.eq m key)
  | .popDef key deflt => (.value ((OrderedMap.lookup hw.eq m key).getD deflt), erase hw.eq m key)
  | .popitem => (.item m.getLast?, m.dropLast)
  | .get key => (.value ((OrderedMap.lookup hw.eq m key).getD bNone), m)
  | .getDef key deflt => (.value ((OrderedMap.lookup hw.eq m key).getD deflt), m)
  | .dictGet key deflt => (.value ((OrderedMap.lookup hw.eq m key).getD deflt), m)
  | .getitem key =>
    match OrderedMap.lookup hw.eq m key with
    | some v => (.value v, m)
    | none => (.keyError key (if m.isEmpty then "getitem: empty dictionary"
        else "getitem: key not in dictionary"), m)
  | .contains key => (.bool (OrderedMap.lookup hw.eq m key).isSome, m)
  | .containsnot key => (.bool (OrderedMap.lookup hw.eq m key).isNone, m)
  | .len => (.int m.length, m)
  | .keys => (.keys (m.map Prod.fst), m)
  | .values => (.values (m.map Prod.snd), m)
  | .items => (.items m, m)

/-- The results of a sequence of operations on an insertion-ordered map, and the map at its end. -/
def applyAll (hw : Hashable K) (bNone : V) :
    List (K × V) → List (DictOp K V) → List (DictResult K V) × List (K × V)
  | m, [] => ([], m)
  | m, op :: ops =>
    let (r, m) := op.apply hw bNone m
    let (rs, m) := applyAll hw bNone m ops
    (r :: rs, m)

lemma length_le_length_insert (m : List (K × V)) (k : K) (v : V) :
    m.length ≤ (insert hw.eq m k v).length := by
  rw [OrderedMap.insert]
  split_ifs <;> simp

lemma length_le_length_foldl (hw : Hashable K) (other m : List (K × V)) :
    m.length ≤ (other.foldl (fun m p => insert hw.eq m p.1 p.2) m).length := by
  induction other generalizing m with
  | nil => exact le_rfl
  | cons p other ih => exact (length_le_length_insert m p.1 p.2).trans (ih _)

variable [DecidableEq K] [DecidableEq V]
section
variable (h : DictInv hw d) (hfits : d.Fits)
include h hfits

lemma DictInv.exists_update (other : List (K × V))
    (hn : (other.foldl (fun m p => insert hw.eq m p.1 p.2) d.content).length ≤ 2 ^ 31 / 3) :
    ∃ d', d.update hw other = some d' ∧ DictInv hw d' ∧ d'.Fits ∧
      d'.content = other.foldl (fun m p => insert hw.eq m p.1 p.2) d.content := by
  induction other generalizing d with
  | nil => exact ⟨d, rfl, h, hfits, rfl⟩
  | cons p other ih =>
    have hle := (length_le_length_foldl hw (p :: other) d.content).trans hn
    rw [h.length_content] at hle
    obtain ⟨d1, hset, h1, hfits1, hcontent⟩ := h.exists_setitem hfits hle p.1 p.2
    rw [foldl_cons, ← hcontent] at hn ⊢
    obtain ⟨d2, hupdate, h2⟩ := ih h1 hfits1 hn
    refine ⟨d2, ?_, h2⟩
    rw [Dict.update, foldlM_cons, hset]
    exact hupdate

/-- One operation does what it does on the map of the items. -/
theorem DictInv.exists_run {bNone : V} (op : DictOp K V) (hn : d.content.length ≤ 2 ^ 31 / 3)
    (hn' : (op.apply hw bNone d.content).2.length ≤ 2 ^ 31 / 3) :
    ∃ d', op.run hw bNone d = some ((op.apply hw bNone d.content).1, d') ∧ DictInv hw d' ∧
      d'.Fits ∧ d'.content = (op.apply hw bNone d.content).2 := by
  have hnum : d.numelements ≤ 2 ^ 31 / 3 := h.length_content ▸ hn
  cases op with
  | setitem key v =>
    obtain ⟨d', heq, h'⟩ := h.exists_setitem hfits hnum key v
    exact ⟨d', by rw [DictOp.run, heq]; rfl, h'⟩
  | setdefault key deflt =>
    obtain ⟨r, hlook, hr⟩ := h.exists_lookdict key fun _ _ _ => rfl
    rw [DictOp.run, Dict.setdefault, hlook]
    simp only [DictOp.apply, hr]
    rcases r with _ | ⟨ix, v⟩
    · obtain ⟨d', heq, h'⟩ := h.exists_insertdict hfits hnum (fun _ _ _ => rfl) (deflt.getD bNone)
      refine ⟨d', ?_, h'⟩
      simp only [bind_eq_bind, bind_some, heq]
      rfl
    · exact ⟨d, rfl, h, hfits, rfl⟩
  | update other =>
    obtain ⟨d', heq, h'⟩ := h.exists_update hfits other hn'
    exact ⟨d', by rw [DictOp.run, heq]; rfl, h'⟩
  | delitem key =>
    obtain ⟨d', heq, h'⟩ := h.exists_remove hfits hnum key
    exact ⟨d', by rw [DictOp.run, Dict.delitem, heq]; rfl, h'⟩
  | pop key =>
    obtain ⟨d', heq, h'⟩ := h.exists_remove hfits hnum key
    exact ⟨d', by rw [DictOp.run, Dict.pop, Dict.popDef, heq]; rfl, h'⟩
  | popDef key deflt =>
    obtain ⟨d', heq, h'⟩ := h.exists_remove hfits hnum key
    exact ⟨d', by rw [DictOp.run, Dict.popDef, heq]; rfl, h'⟩
  | popitem =>
    obtain ⟨d', heq, h'⟩ := h.exists_popitem hfits
    exact ⟨d', by rw [DictOp.run, heq]; rfl, h'⟩
  | get key => exact ⟨d, by rw [DictOp.run, Dict.get, h.getDef_eq]; rfl, h, hfits, rfl⟩
  | getDef key deflt => exact ⟨d, by rw [DictOp.run, h.getDef_eq]; rfl, h, hfits, rfl⟩
  | dictGet key deflt =>
    have heq := h.ite_lookup key (·.getD deflt) deflt fun _ => rfl
    exact ⟨d, by rw [DictOp.run, Dict.dictGet, heq]; rfl, h, hfits, rfl⟩
  | getitem key =>
    rw [DictOp.run, Dict.getitem]
    by_cases hzero : d.numelements = 0
    · have hnil : d.content = [] := length_eq_zero_iff.mp (h.length_content.trans hzero)
      rw [if_pos hzero, hnil]
      exact ⟨d, rfl, h, hfits, hnil⟩
    · have hne : d.content.isEmpty = false := by
        rw [isEmpty_eq_false_iff, ← length_pos_iff, h.length_content]
        exact Nat.pos_of_ne_zero hzero
      have heq := h.ite_lookup key id none fun hnil => by simp [hnil] at hne
      rw [if_neg hzero, Option.map_id, id] at heq
      rw [if_neg hzero, heq]
      simp only [DictOp.apply, hne]
      cases OrderedMap.lookup hw.eq d.content key with
      | none | some v => exact ⟨d, rfl, h, hfits, rfl⟩
  | contains key =>
    have heq := h.ite_lookup key Option.isSome false fun _ => rfl
    exact ⟨d, by rw [DictOp.run, Dict.contains, heq]; rfl, h, hfits, rfl⟩
  | containsnot key =>
    have heq := h.ite_lookup key Option.isSome false fun _ => rfl
    refine ⟨d, ?_, h, hfits, rfl⟩
    rw [DictOp.run, Dict.containsnot, Dict.contains, heq]
    simp [DictOp.apply]
  | len => exact ⟨d, by rw [DictOp.run, ← h.length_content]; rfl, h, hfits, rfl⟩
  | keys | values | items => exact ⟨d, by rw [DictOp.run, h.items_eq hfits]; rfl, h, hfits, rfl⟩

lemma DictInv.exists_runDict {bNone : V} (ops : List (DictOp K V))
    (hn : ∀ pre, pre <+: ops → (applyAll hw bNone d.content pre).2.length ≤ 2 ^ 31 / 3) :
    ∃ d', runDict hw bNone d ops = some ((applyAll hw bNone d.content ops).1, d') ∧
      DictInv hw d' ∧ d'.Fits := by
  induction ops generalizing d with
  | nil => exact ⟨d, rfl, h, hfits⟩
  | cons op ops ih =>
    obtain ⟨d1, hrun, h1, hfits1, hcontent⟩ := h.exists_run hfits op
      (hn [] nil_prefix) (hn [op] (prefix_append [op] ops))
    obtain ⟨d2, hrun2, h2⟩ := ih h1 hfits1 fun pre hpre => by
      rw [hcontent]
      exact hn (op :: pre) (cons_prefix_cons.mpr ⟨rfl, hpre⟩)
    rw [hcontent] at hrun2
    refine ⟨d2, ?_, h2⟩
    simp only [runDict, applyAll, hrun, hrun2, bind_eq_bind, bind_some]

end

lemma exists_runDict_empty (hw : Hashable K) (bNone : V) (ops : List (DictOp K V))
    (hn : ∀ pre, pre <+: ops → (applyAll hw bNone [] pre).2.length ≤ 2 ^ 31 / 3) :
    ∃ d, runDict hw bNone Dict.empty ops = some ((applyAll hw bNone [] ops).1, d) ∧
      DictInv hw d ∧ d.Fits :=
  DictInv.exists_runDict (d := empty) rfl (fun _ ht => by simp [empty] at ht) ops hn

/-- For every sequence of operations on a new dict in which there are never more than `2 ^ 31 / 3`
keys, the results are those of the same operations on an insertion-ordered finite map. -/
theorem dict_correct (hw : Hashable K) (bNone : V) (ops : List (DictOp K V))
    (hn : ∀ pre, pre <+: ops → (applyAll hw bNone [] pre).2.length ≤ 2 ^ 31 / 3) :
    (runDict hw bNone Dict.empty ops).map Prod.fst = some (applyAll hw bNone [] ops).1 := by
  obtain ⟨d, hrun, -⟩ := exists_runDict_empty hw bNone ops hn
  rw [hrun]
  rfl

/-! ## An example -/

/-- Integers that are their own hashes. -/
def natHashable : Hashable ℕ := .ofDecidableEq ℕ UInt64.ofNat

/-- The switch to a hash table and back, with deletions in both, and a key that comes back. -/
theorem dict_correct_example : (runDict natHashable 0 Dict.empty
    [.setitem 1 10, .setitem 2 20, .delitem 1, .setitem 3 30, .setitem 11 40, .setitem 1 50,
      .setitem 2 60, .keys, .pop 3, .popitem, .get 11, .get 1, .len, .items]).map Prod.fst
    = some [.unit, .unit, .unit, .unit, .unit, .unit, .unit, .keys [2, 3, 11, 1], .value 30,
      .item (some (1, 50)), .value 40, .value 0, .int 2, .items [(2, 60), (11, 40)]] := by
  refine dict_correct natHashable 0 _ fun pre hpre => ?_
  rw [← mem_inits] at hpre
  revert pre
  decide

/-! ## The array of indices -/

/-- All accesses to the array of indices, and to the entries through it, are in bounds: those of an
insertion, and those of a removal from a hash table. -/
structure Table.InBounds (hw : Hashable K) (t : Table K V) : Prop where
  length_indices : t.indices.length = t.size
  insert : 0 < t.usable → ∀ hash, ∃ i : ℕ, t.findEmptySlot hash = some (i : ℤ) ∧ i < t.size
  remove : initSize < t.size → ∀ {ix e v key}, t.entries[ix]? = some e → e.value = some v →
    hw.eq key e.key → ∃ i : ℕ, t.lookdictIndex (hw.hash key) ix = some (i : ℤ) ∧ i < t.size
  entry : initSize < t.size → ∀ x ∈ t.indices, x < t.nentries

omit [DecidableEq K] [DecidableEq V] in
lemma TableInv.inBounds {t : Table K V} {n : ℕ} (h : TableInv hw t n) (hfits : t.size ≤ 2 ^ 31) :
    t.InBounds hw where
  length_indices := h.length_indices
  insert hpos hash := by
    by_cases hsmall : t.size = initSize
    · refine ⟨t.entries.length, ?_, ?_⟩
      · rw [Table.findEmptySlot, if_pos hsmall, h.nentries_eq hpos]
      · have := h.usable_le
        omega
    · obtain ⟨s, x, hslot, hx, -⟩ := h.exists_findEmptySlot hsmall hash
      exact ⟨s, hslot, h.length_indices ▸ (List.getElem?_eq_some_iff.mp hx).1⟩
  remove hlt ix e v key he hv heq := by
    obtain ⟨as, bs, hentries, rfl⟩ := append_of_getElem? he
    obtain ⟨s, hs, -, hlook⟩ := h.exists_lookdictIndex (Ne.symm hlt.ne) hentries hv
    exact ⟨s, by rw [hw.hash_eq heq, hlook, toInt_of_lt (by omega) (by omega)], hs⟩
  entry hlt x hx := by
    obtain ⟨hindexed, -, hnum⟩ := h.hashed (Ne.symm hlt.ne)
    obtain ⟨s, hs⟩ := getElem?_of_mem hx
    rcases lt_or_ge x 0 with hneg | hpos
    · omega
    · obtain ⟨e, v, he, -⟩ := hindexed.entry hs hpos
      have := (List.getElem?_eq_some_iff.mp he).1
      omega

/-- As long as there are never more than `2 ^ 31 / 3` keys, insertions into all tables and removals
from hash tables stay within the array of indices. -/
theorem dict_in_bounds (hw : Hashable K) (bNone : V) (ops : List (DictOp K V))
    (hn : ∀ pre, pre <+: ops → (applyAll hw bNone [] pre).2.length ≤ 2 ^ 31 / 3) :
    ∃ rs d, runDict hw bNone Dict.empty ops = some (rs, d) ∧ ∀ t ∈ d.table, t.InBounds hw := by
  obtain ⟨d, hrun, hinv, hfits⟩ := exists_runDict_empty hw bNone ops hn
  refine ⟨_, d, hrun, fun t ht => ?_⟩
  rcases d with ⟨n, _ | t'⟩
  · simp at ht
  · obtain rfl := Option.some.inj ht
    exact TableInv.inBounds hinv (hfits t' rfl)

/-- A hash table with a deleted entry. -/
theorem dict_in_bounds_four_keys : ∃ rs d, runDict natHashable 0 Dict.empty
    [.setitem 1 1, .setitem 2 2, .setitem 3 3, .setitem 4 4, .delitem 2] = some (rs, d) ∧
      ∀ t ∈ d.table, t.InBounds natHashable := by
  refine dict_in_bounds natHashable 0 _ fun pre hpre => ?_
  rw [← mem_inits] at hpre
  revert pre
  decide

/-- A table of `INIT_SIZE` slots that a resize has made has no indices. The removal of a key that it
holds writes in front of the array. -/
theorem dict_out_of_bounds : ∃ rs d, ∃ t : Table ℕ ℕ, runDict natHashable 0 Dict.empty
    [.setitem 0 0, .setitem 1 1, .delitem 0, .setitem 2 2] = some (rs, d) ∧ d.table = some t ∧
      t.lookdict natHashable (t.hashFor natHashable 1) 1 = some (some (0, 1)) ∧
      t.lookdictIndex (t.hashFor natHashable 1) 0 = some (-1) :=
  ⟨_, _, _, rfl, rfl, by decide, by decide⟩

/-! ## Too many keys -/

/-- The first `n` integers are stored. -/
def fill (n : ℕ) : List (DictOp ℕ ℕ) := (List.range n).map fun i => .setitem i i
def filled (n : ℕ) : List (ℕ × ℕ) := (List.range n).map fun i => (i, i)

lemma not_eq_of_mem_filled {n : ℕ} : ∀ p ∈ filled n, ¬ natHashable.eq n p.1 := by
  intro p hp
  obtain ⟨i, hi, rfl⟩ := mem_map.mp hp
  have := mem_range.mp hi
  simp only [natHashable, Hashable.ofDecidableEq, decide_eq_true_eq]
  omega

lemma insert_filled (n : ℕ) : insert natHashable.eq (filled n) n n = filled (n + 1) := by
  rw [insert_absent not_eq_of_mem_filled, filled, filled, range_succ]
  simp

section Append
omit [DecidableEq K] [DecidableEq V] in
lemma applyAll_append (bNone : V) (ops ops' : List (DictOp K V)) (m : List (K × V)) :
    applyAll hw bNone m (ops ++ ops')
      = ((applyAll hw bNone m ops).1 ++ (applyAll hw bNone (applyAll hw bNone m ops).2 ops').1,
        (applyAll hw bNone (applyAll hw bNone m ops).2 ops').2) := by
  induction ops generalizing m with
  | nil => rfl
  | cons op ops ih => simp [applyAll, ih]

lemma runDict_append {bNone : V} {ops : List (DictOp K V)} {d' : Dict K V}
    {rs : List (DictResult K V)} (h : runDict hw bNone d ops = some (rs, d'))
    (ops' : List (DictOp K V)) : runDict hw bNone d (ops ++ ops')
      = (runDict hw bNone d' ops').map fun (rs', d'') => (rs ++ rs', d'') := by
  induction ops generalizing d rs with
  | nil =>
    obtain ⟨rfl, rfl⟩ := Prod.mk.inj (Option.some.inj h)
    cases hrun : runDict hw bNone d ops' <;> simp [hrun]
  | cons op ops ih =>
    simp only [runDict, bind_eq_bind, bind_eq_some_iff, Prod.exists] at h
    obtain ⟨r, d1, hrun, rs', d2, hrun', heq⟩ := h
    obtain ⟨rfl, rfl⟩ := Prod.mk.inj (Option.some.inj heq)
    simp only [cons_append, runDict, hrun, bind_eq_bind, bind_some, ih hrun']
    cases runDict hw bNone d2 ops' <;> rfl

end Append

lemma applyAll_fill (n : ℕ) : (applyAll natHashable 0 [] (fill n)).2 = filled n := by
  induction n with
  | zero => rfl
  | succ n ih =>
    rw [fill, range_succ, map_append, applyAll_append]
    rw [← insert_filled, ← ih]
    rfl

/-- The dict after `n` insertions. -/
structure Filled (d : Dict ℕ ℕ) (n : ℕ) : Prop where
  inv : DictInv natHashable d
  numelements_eq : d.numelements = n
  content_eq : d.content = filled n
  full : ∀ t ∈ d.table, t.entries.length = n ∧ t.usable + n = 2 * t.size / 3

lemma not_eq_of_filled {n : ℕ} {t : Table ℕ ℕ} (h : liveItems t.entries = filled n) :
    ∀ e ∈ t.entries, e.value.isSome → ¬ natHashable.eq n e.key := by
  intro e he hlive
  obtain ⟨v, hv⟩ := isSome_iff_exists.mp hlive
  refine not_eq_of_mem_filled (e.key, v) ?_
  rw [← h]
  exact mem_liveItems.mpr ⟨e, he, hv, rfl⟩

/-- Up to `2 ^ 31` insertions, nothing goes wrong. -/
theorem Filled.exists_setitem {d : Dict ℕ ℕ} {n : ℕ} (h : Filled d n) (hn : n < 2 ^ 31) :
    ∃ d', d.setitem natHashable n n = some d' ∧ Filled d' (n + 1) := by
  obtain ⟨hinv, rfl, hcontent, hfull⟩ := h
  obtain ⟨t, hroom⟩ := hinv.exists_room hn d.numelements setitem_hash
  obtain ⟨hlen, husable⟩ :
      t.entries.length = d.numelements ∧ t.usable + d.numelements = 2 * t.size / 3 := by
    rcases hroom.origin with ht | hfresh
    · exact hfull t ht
    · exact ⟨hfresh.length_entries, hfresh.usable_add⟩
  have hfound := not_eq_of_filled (hroom.content_eq.trans hcontent)
  obtain ⟨t', hinsert, hinv', hsize, husable', hash, hentries⟩ :=
    hroom.inv.insertTable_absent hroom.usable_pos (by omega) hroom.hash_eq d.numelements hfound
  refine ⟨_, (hroom.insertdict_eq d.numelements).trans hinsert, hinv', rfl, ?_, fun t1 ht1 => ?_⟩
  · change liveItems t'.entries = _
    rw [hentries, liveItems_append, hroom.content_eq, hcontent, ← insert_filled,
      insert_absent not_eq_of_mem_filled]
    rfl
  · obtain ⟨⟩ := ht1
    refine ⟨by rw [hentries, length_append, hlen]; rfl, ?_⟩
    rw [husable', hsize]
    omega

lemma exists_runDict_fill {n : ℕ} (hn : n ≤ 2 ^ 31) :
    ∃ rs d, runDict natHashable 0 Dict.empty (fill n) = some (rs, d) ∧ Filled d n := by
  induction n with
  | zero => exact ⟨[], empty, rfl, rfl, rfl, rfl, fun t ht => by simp [empty] at ht⟩
  | succ n ih =>
    obtain ⟨rs, d, hrun, h⟩ := ih (by omega)
    obtain ⟨d', hset, h'⟩ := h.exists_setitem (by omega)
    refine ⟨rs ++ [.unit], d', ?_, h'⟩
    rw [fill, range_succ, map_append]
    refine (runDict_append hrun _).trans ?_
    simp [runDict, run, hset]

/-- A table whose slots hold no index of an entry with the key does not find it. -/
theorem lookdict_eq_none {t : Table ℕ ℕ} (t' : Table ℕ ℕ) {n : ℕ} (h : TableInv natHashable t n)
    (hsize : t.size ≠ initSize) {key s : ℕ} {x : ℤ}
    (ht : ∀ e ∈ t.entries, e.value.isSome → ¬ natHashable.eq key e.key) (hsize' : t'.size = t.size)
    (hindices : t'.indices = t.indices.set s x) (hx : x < 0)
    (hentries : ∃ e, t'.entries = t.entries ++ [e]) (hroom : 0 < t.usable) :
    t'.lookdict natHashable (natHashable.hash key) key = some none := by
  obtain ⟨k, -, hk, hpow⟩ := h.size
  obtain ⟨hindexed, hused, -⟩ := h.hashed hsize
  obtain ⟨e, hentries⟩ := hentries
  -- there is still an empty slot
  obtain ⟨s', hs'⟩ : ∃ s' : ℕ, t'.indices[s']? = some dkixEmpty := by
    refine exists_empty_of_usedSlots_lt ?_
    rw [hindices, length_set, h.length_indices]
    have := usedSlots_set_le t.indices s x
    omega
  obtain ⟨m, ix, r, hprobe, hix, hr, -⟩ := exists_probe_atSlot hk
    (show t'.indices.length = 2 ^ k by rw [hindices, length_set, h.length_indices, hpow])
    (natHashable.hash key)
    (Table.atIndex natHashable t'.entries (natHashable.hash key) key) hs'
    (by simp [Table.atIndex])
  rw [Table.lookdict, if_neg (hsize' ▸ hsize), hsize', hpow, hprobe]
  rw [Table.atIndex] at hr
  split_ifs at hr with hempty hpos
  · exact (Option.some.inj hr).symm
  · -- a slot with an index is an old slot, whose entry has another key
    have hold : t.indices[Probe.slot (2 ^ k) (natHashable.hash key).toNat m]? = some ix := by
      rw [hindices, getElem?_set] at hix
      split_ifs at hix
      · have := Option.some.inj hix
        omega
      · exact hix
    obtain ⟨a, v, ha, hv⟩ := hindexed.entry hold hpos
    have hlt := (List.getElem?_eq_some_iff.mp ha).1
    have hmem := mem_of_getElem? ha
    rw [hentries, getElem?_append_left hlt, ha] at hr
    simp only [hv] at hr
    rw [if_neg] at hr
    · simp at hr
    · rintro (rfl | ⟨-, heq⟩)
      · exact ht a hmem (by simp [hv]) (natHashable.eq_refl a.key)
      · exact ht a hmem (by simp [hv]) heq

/-- The index `2 ^ 31` is negative as an `int`: the entry that gets it is lost. -/
theorem Filled.contains_eq_false {d : Dict ℕ ℕ} {n : ℕ} (h : Filled d n) (hn : n = 2 ^ 31) :
    ∃ d', d.setitem natHashable n n = some d' ∧ d'.contains natHashable n = some false := by
  obtain ⟨hinv, hnum, hcontent, hfull⟩ := h
  rcases d with ⟨l, _ | t⟩
  · have hzero : l = 0 := hinv
    have hnum : l = n := hnum
    omega
  obtain rfl : l = n := hnum
  have hinv : TableInv natHashable t l := hinv
  obtain ⟨hlen, hcap⟩ := hfull t rfl
  -- the table has at least `2 ^ 32` slots, so there is room
  obtain ⟨k, -, -, hpow⟩ := hinv.size
  have hsize : 2 ^ 32 ≤ t.size := by
    have := hinv.usable_nonneg
    rw [hpow] at hcap ⊢
    refine Nat.pow_le_pow_right (by decide) ?_
    refine (Nat.pow_lt_pow_iff_right (a := 2) (n := 31) (by decide)).mp ?_
    omega
  have husable : 0 < t.usable := by omega
  have hlt : initSize < t.size := by
    simp only [initSize]
    omega
  have hne : t.size ≠ initSize := Ne.symm hlt.ne
  have hhash : t.hashFor natHashable l = natHashable.hash l := if_pos hlt
  have hother := not_eq_of_filled hcontent
  have hnentries := hinv.nentries_eq husable
  -- `insertdict` does not find the key, and writes a negative number into its slot
  obtain ⟨s, x, hslot, hx, -, -⟩ := hinv.exists_findEmptySlot hne (natHashable.hash l)
  have hs : s < t.size := hinv.length_indices ▸ (List.getElem?_eq_some_iff.mp hx).1
  have hint : toInt t.nentries = -2 ^ 31 := by
    rw [hnentries, hlen, hn]
    decide
  obtain ⟨r, hlook, hr⟩ := hinv.exists_lookdict l (fun _ => rfl : _ → natHashable.hash l = _)
  obtain rfl : r = none := by
    rcases r with _ | ⟨ix, w⟩
    · rfl
    · obtain ⟨as, e, bs, heq, -, hw', he⟩ := hr
      exact absurd he (hother e (by simp [heq]) (by simp [hw']))
  have hset : (⟨l, some t⟩ : Dict ℕ ℕ).setitem natHashable l l = some ⟨l + 1, some
      { t with
        indices := t.indices.set s (-2 ^ 31)
        entries := t.entries ++ [⟨natHashable.hash l, l, some l⟩]
        usable := t.usable - 1
        nentries := t.nentries + 1 }⟩ := by
    have h8 : t.size ≠ 2 * initSize := by
      simp only [initSize]
      omega
    simp only [Dict.setitem, Dict.insertdict, decide_eq_false (Int.not_le.mpr husable),
      Bool.false_eq_true, if_false, bind_eq_bind, bind_some, Dict.insertTable,
      hhash, if_neg h8, hlook, hslot, hint, Table.setIndex_natCast hs, Table.addEntry]
    rw [if_pos ⟨hnentries, by omega⟩]
    rfl
  refine ⟨_, hset, ?_⟩
  have hnone := lookdict_eq_none { t with
      indices := t.indices.set s (-2 ^ 31)
      entries := t.entries ++ [⟨natHashable.hash l, l, some l⟩]
      usable := t.usable - 1
      nentries := t.nentries + 1 } hinv hne hother rfl rfl (by decide) ⟨_, rfl⟩ husable
  rw [Dict.contains, if_neg (Nat.succ_ne_zero l), Dict.lookup]
  simp only [bind_eq_bind, bind_some, Table.hashFor, if_pos hlt, hnone]
  rfl

/-- The last of `n + 1` keys is not found if its index `n` does not fit. -/
theorem runDict_ne_of_fill {n : ℕ} (hn : n = 2 ^ 31) :
    (runDict natHashable 0 Dict.empty (fill (n + 1) ++ [.contains n])).map Prod.fst
      ≠ some (applyAll natHashable 0 [] (fill (n + 1) ++ [.contains n])).1 := by
  obtain ⟨rs, d, hrun, h⟩ := exists_runDict_fill hn.le
  obtain ⟨d', hset, hcontains⟩ := h.contains_eq_false hn
  have hfill : fill (n + 1) = fill n ++ [.setitem n n] := by
    rw [fill, fill, range_succ, map_append]
    rfl
  have hcode : (runDict natHashable 0 empty (fill (n + 1) ++ [.contains n])).map Prod.fst
      = some ((rs ++ [.unit]) ++ [.bool false]) := by
    rw [hfill, append_assoc, runDict_append hrun]
    simp [runDict, run, hset, hcontains]
  have hspec : (applyAll natHashable 0 [] (fill (n + 1) ++ [.contains n])).1
      = (applyAll natHashable 0 [] (fill (n + 1))).1 ++ [.bool true] := by
    rw [applyAll_append, applyAll_fill]
    simp only [applyAll, apply]
    rw [← insert_filled, insert_absent not_eq_of_mem_filled,
      lookup_present not_eq_of_mem_filled (natHashable.eq_refl n)]
    rfl
  rw [hcode, hspec]
  intro heq
  have := (append_inj' (Option.some.inj heq) rfl).2
  simp at this

/-- With `2 ^ 31 + 1` keys, the last one is not found. -/
theorem dict_diverges :
    (runDict natHashable 0 Dict.empty (fill (2 ^ 31 + 1) ++ [.contains (2 ^ 31)])).map Prod.fst
      ≠ some (applyAll natHashable 0 [] (fill (2 ^ 31 + 1) ++ [.contains (2 ^ 31)])).1 :=
  runDict_ne_of_fill rfl

end Acton.Builtin
