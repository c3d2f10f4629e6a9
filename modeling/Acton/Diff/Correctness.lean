import Acton.Diff

/-!
# Correctness of the diff algorithm

`myersDiff_correct`: `myers_diff` returns for every two lists, and the result is an edit script if
and only if every call that splits its lists at anchors is aligned (`Aligned`). A prefix, a suffix
and a match of the middle line are always right. With anchors two things can go wrong: the anchors
are sorted by their place in the old list only, so they can be in another order in the new list; and
the loops that sort them use the parameters `i` and `j` as their variables, so the positions are
right only if `i` is the number of anchors minus one, and `j` is 0 if there is more than one anchor.
-/

namespace Acton.Diff
open List Option
variable {α : Type}

/-! ## Edit scripts from parts -/

section Parts
variable {ops xs ys : List (Op α)} {e f l : List α} {i j k m : ℕ}

lemma mapIdx_eq_map_zipIdx {β : Type} (l : List α) (i : ℕ) (g : α → ℕ → β) :
    l.mapIdx (fun n a => g a (i + n)) = (l.zipIdx i).map fun p => g p.1 p.2 := by
  induction l generalizing i with
  | nil => rfl
  | cons a l ih =>
    rw [mapIdx_cons, zipIdx_cons, map_cons, ← ih (i + 1)]
    simp [Nat.add_assoc, Nat.add_comm 1]

lemma keeps_cons (a : α) (l : List α) (i j : ℕ) :
    keeps (a :: l) i j = .keep a i j :: keeps l (i + 1) (j + 1) := by
  simp [keeps, mapIdx_cons, Nat.add_assoc, Nat.add_comm 1]

lemma filterMap_old_keeps (l : List α) (i j : ℕ) : (keeps l i j).filterMap Op.old = l.zipIdx i := by
  induction l generalizing i j with
  | nil => rfl
  | cons a l ih => simp [keeps_cons, Op.old, ih, zipIdx_cons]

lemma filterMap_new_keeps (l : List α) (i j : ℕ) : (keeps l i j).filterMap Op.new = l.zipIdx j := by
  induction l generalizing i j with
  | nil => rfl
  | cons a l ih => simp [keeps_cons, Op.new, ih, zipIdx_cons]

lemma filterMap_old_deletes (l : List α) (i : ℕ) : (deletes l i).filterMap Op.old = l.zipIdx i := by
  rw [deletes, mapIdx_eq_map_zipIdx l i Op.delete, filterMap_map]
  exact filterMap_some

lemma filterMap_new_deletes (l : List α) (i : ℕ) : (deletes l i).filterMap Op.new = [] := by
  rw [deletes, mapIdx_eq_map_zipIdx l i Op.delete, filterMap_map]
  exact filterMap_eq_nil_iff.mpr fun _ _ => rfl

lemma filterMap_old_inserts (l : List α) (j : ℕ) : (inserts l j).filterMap Op.old = [] := by
  rw [inserts, mapIdx_eq_map_zipIdx l j Op.insert, filterMap_map]
  exact filterMap_eq_nil_iff.mpr fun _ _ => rfl

lemma filterMap_new_inserts (l : List α) (j : ℕ) : (inserts l j).filterMap Op.new = l.zipIdx j := by
  rw [inserts, mapIdx_eq_map_zipIdx l j Op.insert, filterMap_map]
  exact filterMap_some

lemma editScript_replace (e f : List α) (i j : ℕ) :
    EditScript (deletes e i ++ inserts f j) e f i j := by
  constructor
  · rw [filterMap_append, filterMap_old_deletes, filterMap_old_inserts, append_nil]
  · rw [filterMap_append, filterMap_new_deletes, filterMap_new_inserts, nil_append]

/-- Numbered lines in the middle of a numbered list are where their numbers say. -/
theorem append_zipIdx_append_iff {A B : List (α × ℕ)} (hne : l ≠ [])
    (hl : (e.drop k).take l.length = l) :
    A ++ l.zipIdx (i + k) ++ B = e.zipIdx i ↔
      A = (e.take k).zipIdx i ∧ B = (e.drop (k + l.length)).zipIdx (i + k + l.length) := by
  have hk : k + l.length ≤ e.length := by
    have hlen := congrArg List.length hl
    rw [length_take, length_drop] at hlen
    have := length_pos_iff.mpr hne
    omega
  have he : e = e.take k ++ l ++ e.drop (k + l.length) := by
    have hdrop : l ++ e.drop (k + l.length) = e.drop k := by
      calc l ++ e.drop (k + l.length)
          = (e.drop k).take l.length ++ (e.drop k).drop l.length := by rw [hl, drop_drop]
        _ = e.drop k := take_append_drop _ _
    rw [append_assoc, hdrop, take_append_drop]
  have hzip : e.zipIdx i = (e.take k).zipIdx i ++ l.zipIdx (i + k) ++
      (e.drop (k + l.length)).zipIdx (i + k + l.length) := by
    conv_lhs => rw [he]
    rw [zipIdx_append, zipIdx_append, length_append, length_take,
      Nat.min_eq_left (by omega), Nat.add_assoc]
  constructor
  · intro h
    -- the number of the first line of `l` is its place
    have hA : A.length = k := by
      obtain ⟨a, l', rfl⟩ := exists_cons_of_ne_nil hne
      have hget : (e.zipIdx i)[A.length]? = some (a, i + k) := by
        rw [← h, append_assoc, getElem?_append_right (Nat.le_refl _)]
        simp [zipIdx_cons]
      rw [getElem?_zipIdx, map_eq_some_iff] at hget
      obtain ⟨_, -, heq⟩ := hget
      have := congrArg Prod.snd heq
      omega
    rw [hzip] at h
    obtain ⟨h1, h2⟩ := append_inj h (by simp [hA]; omega)
    exact ⟨(append_inj h1 (by simp [hA]; omega)).1, h2⟩
  · rintro ⟨rfl, rfl⟩
    exact hzip.symm

lemma editScript_iff : EditScript ops e f i j ↔
    ops.filterMap Op.old = e.zipIdx i ∧ ops.filterMap Op.new = f.zipIdx j :=
  ⟨fun h => ⟨h.old, h.new⟩, fun h => ⟨h.1, h.2⟩⟩

/-- Kept lines cut an edit script in two. -/
theorem editScript_append_keeps_iff (xs ys : List (Op α)) (hne : l ≠ [])
    (he : (e.drop k).take l.length = l)
    (hf : (f.drop m).take l.length = l) :
    EditScript (xs ++ keeps l (i + k) (j + m) ++ ys) e f i j ↔
      EditScript xs (e.take k) (f.take m) i j ∧
        EditScript ys (e.drop (k + l.length)) (f.drop (m + l.length)) (i + k + l.length)
          (j + m + l.length) := by
  have hold := append_zipIdx_append_iff (A := xs.filterMap Op.old) (B := ys.filterMap Op.old)
    (i := i) hne he
  have hnew := append_zipIdx_append_iff (A := xs.filterMap Op.new) (B := ys.filterMap Op.new)
    (i := j) hne hf
  simp only [editScript_iff, filterMap_append, filterMap_old_keeps, filterMap_new_keeps, hold, hnew]
  tauto

/-- A common prefix and suffix are kept around an edit script. -/
theorem editScript_trim_iff {pre suf e' f' : List α} : EditScript (keeps pre i j ++ ops ++
        keeps suf (i + (pre ++ e').length) (j + (pre ++ f').length)) (pre ++ e' ++ suf)
        (pre ++ f' ++ suf) i j ↔
      EditScript ops e' f' (i + pre.length) (j + pre.length) := by
  simp only [editScript_iff, filterMap_append, filterMap_old_keeps, filterMap_new_keeps,
    zipIdx_append, append_cancel_left_eq, append_cancel_right_eq]

/-- The numbers in an edit script are positions. -/
theorem EditScript.getElem?_of_keep {line : α} {a b : ℕ} (h : EditScript ops e f i j)
    (hmem : .keep line a b ∈ ops) :
    (∃ k, a = i + k ∧ e[k]? = some line) ∧ ∃ k, b = j + k ∧ f[k]? = some line := by
  have hold : (line, a) ∈ e.zipIdx i := by
    rw [← h.old]
    exact mem_filterMap.mpr ⟨_, hmem, rfl⟩
  have hnew : (line, b) ∈ f.zipIdx j := by
    rw [← h.new]
    exact mem_filterMap.mpr ⟨_, hmem, rfl⟩
  rw [mem_zipIdx_iff_le_and_getElem?_sub] at hold hnew
  exact ⟨⟨a - i, by omega, hold.2⟩, b - j, by omega, hnew.2⟩

end Parts

/-! ## Lines and anchors -/

section Lines
variable [DecidableEq α] {e f : List α}

lemma prefixLen_le_left (e f : List α) : prefixLen e f ≤ e.length := by
  induction e, f using prefixLen.induct with
  | case1 x e f ih => simpa [prefixLen] using ih
  | case2 x e y f hne => simp [prefixLen, hne]
  | case3 e f h => simp [prefixLen]

lemma take_prefixLen (e f : List α) : e.take (prefixLen e f) = f.take (prefixLen e f) := by
  induction e, f using prefixLen.induct with
  | case1 x e f ih => simpa [prefixLen] using ih
  | case2 x e y f hne => simp [prefixLen, hne]
  | case3 e f h => simp [prefixLen]

/-- What is cut off is a common prefix and a common suffix. -/
theorem exists_trim (e f : List α) : ∃ pre suf e' f', e = pre ++ e' ++ suf ∧ f = pre ++ f' ++ suf ∧
    pre.length = prefixLen e f ∧ suf.length = suffixLen e f (prefixLen e f) := by
  have hp := prefixLen_le_left e f
  have htake := take_prefixLen e f
  have hs : suffixLen e f (prefixLen e f) ≤ (e.drop (prefixLen e f)).length := by
    simpa [suffixLen] using
      prefixLen_le_left (e.drop (prefixLen e f)).reverse (f.drop (prefixLen e f)).reverse
  have hdrop := take_prefixLen (e.drop (prefixLen e f)).reverse (f.drop (prefixLen e f)).reverse
  rw [← suffixLen, take_reverse, take_reverse, reverse_inj] at hdrop
  generalize suffixLen e f (prefixLen e f) = n at hs hdrop ⊢
  generalize prefixLen e f = p at *
  refine ⟨e.take p, (e.drop p).drop ((e.drop p).length - n),
    (e.drop p).take ((e.drop p).length - n), (f.drop p).take ((f.drop p).length - n), ?_, ?_, ?_,
      ?_⟩
  · rw [append_assoc, take_append_drop, take_append_drop]
  · rw [htake, hdrop, append_assoc, take_append_drop, take_append_drop]
  · rw [length_take]
    omega
  · rw [length_drop]
    omega

/-- The line is at this place and nowhere else. -/
def OccursOnce (lines : List α) (line : α) (k : ℕ) : Prop := ∀ n, lines[n]? = some line ↔ n = k

/-- The dict has all lines that occur, with the positions where they occur. -/
structure Indexed (l : List (α × ℕ)) (d : List (α × List ℕ)) : Prop where
  complete : ∀ q ∈ l, d.any (·.1 = q.1)
  indices : ∀ p ∈ d, p.2 = (l.filter (·.1 = p.1)).map Prod.snd

lemma Indexed.addIndex {l : List (α × ℕ)} {d : List (α × List ℕ)} (h : Indexed l d) (line : α)
    (idx : ℕ) : Indexed (l ++ [(line, idx)]) (addIndex d line idx) := by
  have hfilter (x : α) : ((l ++ [(line, idx)]).filter (·.1 = x)).map Prod.snd =
      (l.filter (·.1 = x)).map Prod.snd ++ if line = x then [idx] else [] := by
    rw [filter_append, map_append]
    split <;> simp [*]
  rw [Diff.addIndex]
  split
  · next hany =>
    constructor
    · intro q hq
      have hmap : (d.map fun p => if p.1 = line then (p.1, p.2 ++ [idx]) else p).any (·.1 = q.1) =
          d.any (·.1 = q.1) := by
        rw [List.any_map]
        congr 1
        funext p
        simp only [Function.comp_apply]
        split <;> rfl
      rw [hmap]
      rcases mem_append.mp hq with hq | hq
      · exact h.complete q hq
      · rw [mem_singleton.mp hq]
        exact hany
    · intro p hp
      obtain ⟨p0, hp0, rfl⟩ := mem_map.mp hp
      split
      · next heq => rw [hfilter, if_pos heq.symm, h.indices p0 hp0]
      · next hne => rw [hfilter, if_neg (Ne.symm hne), append_nil, ← h.indices p0 hp0]
  · next hany =>
    have hnot : ∀ p ∈ d, p.1 ≠ line := fun p hp heq =>
      hany (any_eq_true.mpr ⟨p, hp, decide_eq_true heq⟩)
    constructor
    · intro q hq
      rw [any_append, Bool.or_eq_true]
      rcases mem_append.mp hq with hq | hq
      · exact .inl (h.complete q hq)
      · rw [mem_singleton.mp hq]
        exact .inr (by simp)
    · intro p hp
      rcases mem_append.mp hp with hp | hp
      · rw [hfilter, if_neg (hnot p hp).symm, append_nil, ← h.indices p hp]
      · -- the line did not occur before
        have hnil : l.filter (·.1 = line) = [] := by
          refine filter_eq_nil_iff.mpr fun q hq heq => ?_
          have := h.complete q hq
          rw [of_decide_eq_true heq] at this
          exact hany this
        rw [mem_singleton.mp hp, hfilter, if_pos rfl, hnil]
        rfl

lemma indexed_uniqueLines (e : List α) : Indexed e.zipIdx (uniqueLines e) := by
  suffices h : ∀ (l l' : List (α × ℕ)) (d : List (α × List ℕ)), Indexed l d →
      Indexed (l ++ l') (l'.foldl (fun d p => addIndex d p.1 p.2) d) from
    h [] e.zipIdx [] ⟨by simp, by simp⟩
  intro l l'
  induction l' generalizing l with
  | nil => exact fun d h => by simpa using h
  | cons q l' ih =>
    intro d h
    have := ih (l ++ [q]) _ (h.addIndex q.1 q.2)
    rwa [append_assoc, singleton_append] at this

lemma occursOnce_of_indices {line : α} {k : ℕ}
    (h : [k] = (e.zipIdx.filter (·.1 = line)).map Prod.snd) : OccursOnce e line k := by
  intro n
  have hmem : n ∈ (e.zipIdx.filter (·.1 = line)).map Prod.snd ↔ e[n]? = some line := by
    simp [mem_zipIdx_iff_getElem?]
  rw [← hmem, ← h, mem_singleton]

lemma occursOnce_of_findAnchors {a : ℕ × ℕ} (ha : a ∈ findAnchors e f) :
    ∃ line, OccursOnce e line a.1 ∧ OccursOnce f line a.2 := by
  obtain ⟨⟨line, es⟩, hp, ha⟩ := mem_filterMap.mp ha
  have he := (indexed_uniqueLines e).indices _ hp
  split at ha
  · next eIdx _ fIdx hes hfind =>
    cases ha
    have hfmem := mem_of_find?_eq_some hfind
    have hfeq := find?_some hfind
    have hf := (indexed_uniqueLines f).indices _ hfmem
    simp only [decide_eq_true_eq] at hfeq
    subst hes hfeq
    exact ⟨_, occursOnce_of_indices he, occursOnce_of_indices hf⟩
  · cases ha

lemma mem_of_mem_swapAt {l : List (ℕ × ℕ)} {j : ℕ} {a : ℕ × ℕ} (ha : a ∈ swapAt l j) : a ∈ l := by
  rw [swapAt] at ha
  split at ha
  · next x y hx hy =>
    split at ha
    · rcases mem_or_eq_of_mem_set ha with ha | rfl
      · rcases mem_or_eq_of_mem_set ha with ha | rfl
        · exact ha
        · exact mem_of_getElem? hy
      · exact mem_of_getElem? hx
    · exact ha
  · exact ha

lemma length_swapAt (l : List (ℕ × ℕ)) (j : ℕ) : (swapAt l j).length = l.length := by
  rw [swapAt]
  split
  · split <;> simp
  · rfl

/-- The list is rearranged by the loops. -/
theorem sortAnchors_spec (anchors : List (ℕ × ℕ)) (i j : ℕ) :
    (sortAnchors anchors i j).1.length = anchors.length ∧
      ∀ a ∈ (sortAnchors anchors i j).1, a ∈ anchors := by
  have hinner (ns : List ℕ) (t : List (ℕ × ℕ) × ℕ) :
      (ns.foldl (fun t j => (swapAt t.1 j, j)) t).1.length = t.1.length ∧
        ∀ a ∈ (ns.foldl (fun t j => (swapAt t.1 j, j)) t).1, a ∈ t.1 := by
    induction ns generalizing t with
    | nil => exact ⟨rfl, fun a ha => ha⟩
    | cons n ns ih =>
      obtain ⟨hlen, hmem⟩ := ih (swapAt t.1 n, n)
      exact ⟨hlen.trans (length_swapAt t.1 n), fun a ha => mem_of_mem_swapAt (hmem a ha)⟩
  rw [sortAnchors]
  generalize List.range anchors.length = is
  suffices h : ∀ s : List (ℕ × ℕ) × ℕ × ℕ, (∀ a ∈ s.1, a ∈ anchors) ∧ s.1.length = anchors.length →
      ((is.foldl _ s).1.length = anchors.length ∧ ∀ a ∈ (is.foldl _ s).1, a ∈ anchors) from
    h (anchors, i, j) ⟨fun a ha => ha, rfl⟩
  induction is with
  | nil => exact fun s hs => ⟨hs.2, hs.1⟩
  | cons n is ih =>
    intro s hs
    obtain ⟨hlen, hmem⟩ := hinner (List.range (anchors.length - n - 1)) (s.1, s.2.2)
    exact ih _ ⟨fun a ha => hs.1 a (hmem a ha), hlen.trans hs.2⟩

/-- The values that the loops leave in their variables. -/
theorem sortAnchors_vars (anchors : List (ℕ × ℕ)) (i j : ℕ) (hne : anchors ≠ []) :
    (sortAnchors anchors i j).2 = (anchors.length - 1, if 1 < anchors.length then 0 else j) := by
  obtain ⟨n, hn⟩ : ∃ n, anchors.length = n + 1 := Nat.exists_eq_succ_of_ne_zero (by simpa using hne)
  rw [sortAnchors, hn, range_succ, foldl_append, foldl_cons, foldl_nil]
  simp only [Nat.add_sub_cancel_left, Nat.add_sub_cancel, Nat.sub_self, range_zero,
    foldl_nil, Prod.mk.injEq, true_and]
  cases n with
  | zero => simp
  | succ n =>
    -- the last round that does anything has one comparison
    rw [if_pos (by omega), range_succ, foldl_append, foldl_cons, foldl_nil]
    have hone : n + 1 + 1 - n - 1 = 1 := by omega
    simp only [hone]
    rfl

lemma bestMatch_spec (e f : List α) (middle : ℕ) : bestMatch e f middle = (-1, -1) ∨
    ∃ pos < f.length, bestMatch e f middle = (↑(prefixLen (e.drop middle) (f.drop pos)), ↑pos) := by
  rw [bestMatch]
  suffices h : ∀ (ns : List ℕ), (∀ n ∈ ns, n < f.length) → ∀ best : ℤ × ℤ, (best = (-1, -1) ∨
      ∃ pos < f.length, best = (↑(prefixLen (e.drop middle) (f.drop pos)), ↑pos)) →
      (ns.foldl _ best = (-1, -1) ∨ ∃ pos < f.length,
        ns.foldl _ best = (↑(prefixLen (e.drop middle) (f.drop pos)), ↑pos)) from
    h _ (fun n hn => mem_range.mp hn) (-1, -1) (.inl rfl)
  intro ns hns
  induction ns with
  | nil => exact fun best h => h
  | cons n ns ih =>
    intro best h
    refine ih (fun n hn => hns n (by simp [hn])) _ ?_
    simp only
    split
    · exact .inr ⟨n, hns n (by simp), rfl⟩
    · exact h

end Lines

/-! ## The plan of a call -/

section Plan
variable [DecidableEq α]

/-- The cases of a call: it returns an edit script, it cuts off a common prefix and suffix, it
splits at lines that are equal, or at lines that occur once. -/
theorem plan_cases (e f : List α) (i j : ℕ) :
    (∃ ops, plan e f i j = .done ops ∧ EditScript ops e f i j) ∨
    (∃ pre suf e' f', plan e f i j = .trim pre.length suf.length ∧ pre ++ suf ≠ [] ∧
      e = pre ++ e' ++ suf ∧ f = pre ++ f' ++ suf) ∨
    (∃ middle pos l, plan e f i j = .split middle pos l.length ∧ l ≠ [] ∧ middle < e.length ∧
      pos < f.length ∧ (e.drop middle).take l.length = l ∧ (f.drop pos).take l.length = l) ∨
    ∃ sorted, plan e f i j =
        .anchors sorted (sorted.length - 1) (if 1 < sorted.length then 0 else j) ∧ sorted ≠ [] ∧
      ∀ a ∈ sorted, ∃ line, OccursOnce e line a.1 ∧ OccursOnce f line a.2 := by
  generalize hplan : plan e f i j = pl
  rw [plan] at hplan
  split at hplan
  · next he =>
    obtain rfl := length_eq_zero_iff.mp he
    exact .inl ⟨_, hplan.symm, by simpa [deletes] using editScript_replace ([] : List α) f i j⟩
  split at hplan
  · next hf =>
    obtain rfl := length_eq_zero_iff.mp hf
    exact .inl ⟨_, hplan.symm, by simpa [inserts] using editScript_replace e ([] : List α) i j⟩
  dsimp only at hplan
  split at hplan
  · next hps =>
    obtain ⟨pre, suf, e', f', he, hf, hpre, hsuf⟩ := exists_trim e f
    refine .inr (.inl ⟨pre, suf, e', f', by rw [hpre, hsuf, hplan], fun hnil => ?_, he, hf⟩)
    rw [append_eq_nil_iff] at hnil
    rw [← hsuf, ← hpre, hnil.1, hnil.2] at hps
    simp at hps
  split at hplan
  · exact .inl ⟨_, hplan.symm, editScript_replace e f i j⟩
  split at hplan
  · exact .inl ⟨_, hplan.symm, editScript_replace e f i j⟩
  split at hplan
  · refine .inl ⟨_, hplan.symm, ?_⟩
    split
    · next heq => exact heq ▸ ⟨filterMap_old_keeps e i j, filterMap_new_keeps e i j⟩
    · exact editScript_replace e f i j
  split at hplan
  · next hpos =>
    rcases bestMatch_spec e f (e.length / 2) with hbest | ⟨pos, hlt, hbest⟩
    · rw [hbest] at hpos
      exact absurd hpos (by decide)
    · have hle := prefixLen_le_left (e.drop (e.length / 2)) (f.drop pos)
      have htake := take_prefixLen (e.drop (e.length / 2)) (f.drop pos)
      rw [hbest] at hpos hplan
      simp only [Int.toNat_natCast] at hpos hplan
      have hlen : ((e.drop (e.length / 2)).take
          (prefixLen (e.drop (e.length / 2)) (f.drop pos))).length =
          prefixLen (e.drop (e.length / 2)) (f.drop pos) := by
        rw [length_take]
        omega
      refine .inr (.inr (.inl ⟨e.length / 2, pos, _, by rw [hlen, hplan], fun hnil => ?_, by omega,
        hlt, by rw [hlen], by rw [hlen, htake]⟩))
      rw [hnil] at hlen
      simp only [length_nil] at hlen
      omega
  obtain ⟨hlen, hmem⟩ := sortAnchors_spec (findAnchors e f) i j
  split at hplan
  · next hsorted =>
    have hne : findAnchors e f ≠ [] := fun hnil => by
      rw [hlen, hnil] at hsorted
      exact absurd hsorted (by simp)
    have hvars := sortAnchors_vars (findAnchors e f) i j hne
    refine .inr (.inr (.inr ⟨(sortAnchors (findAnchors e f) i j).1, ?_, ?_, fun a ha =>
      occursOnce_of_findAnchors (hmem a ha)⟩))
    · rw [hlen, ← hplan, congrArg Prod.fst hvars, congrArg Prod.snd hvars]
    · exact length_pos_iff.mp hsorted
  · next hsorted =>
    -- without anchors the loops do not change their variables
    have hnil : findAnchors e f = [] := by
      exact length_eq_zero_iff.mp (by omega)
    rw [hnil] at hplan
    exact .inl ⟨_, hplan.symm, editScript_replace e f i j⟩

end Plan

/-! ## The loop over the anchors -/

section Loop
variable {rec : List α → List α → ℕ → ℕ → Option (List (Op α))}
  {A : List α → List α → ℕ → ℕ → Prop} {e f : List α} {i j : ℕ}

/-- The anchors are in the same order in both lists, and `A` holds for the lines between them. -/
def Segments (A : List α → List α → ℕ → ℕ → Prop) (e f : List α) (i j : ℕ) :
    List (ℕ × ℕ) → ℕ → ℕ → Prop
  | [], lastE, lastF => A (e.drop lastE) (f.drop lastF) (i + lastE) (j + lastF)
  | (eIdx, fIdx) :: anchors, lastE, lastF =>
    lastE ≤ eIdx ∧ lastF ≤ fIdx ∧
      A (slice e lastE eIdx) (slice f lastF fIdx) (i + lastE) (j + lastF) ∧
      Segments A e f i j anchors (eIdx + 1) (fIdx + 1)

/-- The call for some lines returns, and `A` says when its result is an edit script. -/
def Decides (rec : List α → List α → ℕ → ℕ → Option (List (Op α)))
    (A : List α → List α → ℕ → ℕ → Prop) (e f : List α) (i j : ℕ) : Prop :=
  ∃ ops, rec e f i j = some ops ∧ (EditScript ops e f i j ↔ A e f i j)

lemma slice_eq_nil {l : List α} {start stop : ℕ} (h : stop ≤ start) : slice l start stop = [] := by
  rw [slice, drop_eq_nil_iff, length_take]
  omega

lemma length_slice_le (l : List α) (start stop : ℕ) : (slice l start stop).length ≤ stop := by
  rw [slice, length_drop, length_take]
  omega

/-- An anchor cuts an edit script in two, if it is not before the lines. -/
theorem editScript_anchor_iff {line : α} {a b lastE lastF : ℕ} {xs ys : List (Op α)}
    (he : e[a]? = some line) (hf : f[b]? = some line) :
    EditScript (xs ++ .keep line (i + a) (j + b) :: ys) (e.drop lastE) (f.drop lastF) (i + lastE)
        (j + lastF) ↔
      lastE ≤ a ∧ lastF ≤ b ∧
        EditScript xs (slice e lastE a) (slice f lastF b) (i + lastE) (j + lastF) ∧
        EditScript ys (e.drop (a + 1)) (f.drop (b + 1)) (i + (a + 1)) (j + (b + 1)) := by
  by_cases hle : lastE ≤ a ∧ lastF ≤ b
  · obtain ⟨k, rfl⟩ := Nat.exists_eq_add_of_le hle.1
    obtain ⟨m, rfl⟩ := Nat.exists_eq_add_of_le hle.2
    have hone (l : List α) (n : ℕ) (hl : l[n]? = some line) : (l.drop n).take 1 = [line] := by
      obtain ⟨hlt, rfl⟩ := List.getElem?_eq_some_iff.mp hl
      rw [drop_eq_getElem_cons hlt]
      rfl
    have hcut := editScript_append_keeps_iff xs ys (l := [line])
      (e := e.drop lastE) (f := f.drop lastF) (i := i + lastE) (j := j + lastF) (k := k) (m := m)
      (by simp) (by rw [drop_drop]; exact hone e _ he)
      (by rw [drop_drop]; exact hone f _ hf)
    have hkeeps (i j : ℕ) : keeps [line] i j = [.keep line i j] := rfl
    have hslice (l : List α) (n k : ℕ) : (l.drop n).take k = slice l n (n + k) := by
      rw [slice, drop_take, Nat.add_sub_cancel_left]
    rw [hkeeps, append_assoc, singleton_append, length_singleton, hslice, hslice,
      drop_drop, drop_drop] at hcut
    simp only [← Nat.add_assoc] at hcut ⊢
    rw [hcut]
    simp
  · refine iff_of_false (fun h => hle ?_) fun h => hle ⟨h.1, h.2.1⟩
    obtain ⟨⟨k, hk, -⟩, m, hm, -⟩ := h.getElem?_of_keep (mem_append_right xs mem_cons_self)
    omega

/-- The loop appends an edit script to the result if and only if the anchors are in order and the
calls give edit scripts. -/
theorem anchorLoop_spec (hrec : ∀ e' f' i' j', e'.length + f'.length < e.length + f.length →
      Decides rec A e' f' i' j') (hnil : ∀ i j, A [] [] i j) {anchors : List (ℕ × ℕ)}
    (hanchors : ∀ a ∈ anchors, ∃ line, e[a.1]? = some line ∧ f[a.2]? = some line) (lastE lastF : ℕ)
    (hlast : anchors = [] → 0 < lastE ∧ lastE ≤ e.length) (result : List (Op α)) :
    ∃ tail, anchorLoop rec e f i j anchors lastE lastF result = some (result ++ tail) ∧
      (EditScript tail (e.drop lastE) (f.drop lastF) (i + lastE) (j + lastF) ↔
        Segments A e f i j anchors lastE lastF) ∧
      ∀ a ∈ anchors, ∃ line, e[a.1]? = some line ∧ .keep line (i + a.1) (j + a.2) ∈ tail := by
  induction anchors generalizing lastE lastF result with
  | nil =>
    obtain ⟨hpos, hle⟩ := hlast rfl
    rw [anchorLoop, Segments]
    split
    · obtain ⟨ops, hops, hiff⟩ := hrec (e.drop lastE) (f.drop lastF) (i + lastE) (j + lastF) (by
        rw [length_drop, length_drop]
        omega)
      exact ⟨ops, by rw [hops]; rfl, hiff, by simp⟩
    · next hend =>
      rw [drop_eq_nil_of_le (by omega), drop_eq_nil_of_le (by omega)]
      exact ⟨[], by simp, iff_of_true ⟨rfl, rfl⟩ (hnil _ _), by simp⟩
  | cons a anchors ih =>
    obtain ⟨eIdx, fIdx⟩ := a
    obtain ⟨line, heline, hfline⟩ := hanchors (eIdx, fIdx) (by simp)
    obtain ⟨helt, -⟩ := List.getElem?_eq_some_iff.mp heline
    obtain ⟨hflt, -⟩ := List.getElem?_eq_some_iff.mp hfline
    -- the operations for the lines before the anchor
    obtain ⟨seg, hseg, hiff⟩ : ∃ seg, (if lastE < eIdx ∨ lastF < fIdx then
          rec (slice e lastE eIdx) (slice f lastF fIdx) (i + lastE) (j + lastF)
        else some []) = some seg ∧
        (EditScript seg (slice e lastE eIdx) (slice f lastF fIdx) (i + lastE) (j + lastF) ↔
          A (slice e lastE eIdx) (slice f lastF fIdx) (i + lastE) (j + lastF)) := by
      split
      · obtain ⟨ops, hops, hiff⟩ := hrec (slice e lastE eIdx) (slice f lastF fIdx) (i + lastE)
          (j + lastF) (by
            have := length_slice_le e lastE eIdx
            have := length_slice_le f lastF fIdx
            omega)
        exact ⟨ops, hops, hiff⟩
      · next hend =>
        rw [slice_eq_nil (by omega), slice_eq_nil (by omega)]
        exact ⟨[], rfl, iff_of_true ⟨rfl, rfl⟩ (hnil _ _)⟩
    obtain ⟨tail, htail, htailiff, hkeep⟩ := ih (fun a ha => hanchors a (by simp [ha]))
      (eIdx + 1) (fIdx + 1) (fun _ => ⟨Nat.succ_pos _, helt⟩)
      (result ++ seg ++ [.keep line (i + eIdx) (j + fIdx)])
    refine ⟨seg ++ .keep line (i + eIdx) (j + fIdx) :: tail, ?_, ?_, ?_⟩
    · rw [anchorLoop, hseg]
      simp only [bind_eq_bind, bind_some, heline, htail]
      simp
    · rw [Segments, ← htailiff, ← hiff]
      exact editScript_anchor_iff heline hfline
    · intro a ha
      rcases mem_cons.mp ha with rfl | ha
      · exact ⟨line, heline, by simp⟩
      · obtain ⟨line', hline', hmem⟩ := hkeep a ha
        exact ⟨line', hline', by simp [hmem]⟩

end Loop

/-! ## The algorithm -/

section Main
variable [DecidableEq α]

/-- In every call that splits its lists at anchors, the anchors are in the same order in both lists,
and the loops that sort them leave `i` and `j` as they were: `i` is the number of anchors minus one,
and `j` is 0 if there is more than one. -/
def AlignedFuel : ℕ → List α → List α → ℕ → ℕ → Prop
  | 0, _, _, _, _ => True
  | n + 1, e, f, i, j =>
    match plan e f i j with
    | .done _ => True
    | .trim p s =>
      AlignedFuel n (slice e p (e.length - s)) (slice f p (f.length - s)) (i + p) (j + p)
    | .split middle pos len =>
      AlignedFuel n (slice e 0 middle) (slice f 0 pos) i j ∧
        AlignedFuel n (e.drop (middle + len)) (f.drop (pos + len)) (i + middle + len)
          (j + pos + len)
    | .anchors sorted _ _ => i = sorted.length - 1 ∧ (1 < sorted.length → j = 0) ∧
        Segments (AlignedFuel n) e f i j sorted 0 0

def Aligned (e f : List α) : Prop := AlignedFuel (e.length + f.length + 1) e f 0 0

lemma alignedFuel_nil (n i j : ℕ) : AlignedFuel n ([] : List α) [] i j := by
  cases n with
  | zero => trivial
  | succ n => simp [AlignedFuel, plan]

/-- With enough fuel `myers_diff` returns, and the result is an edit script if and only if the calls
are aligned. -/
theorem myersDiffFuel_spec {n : ℕ} {e f : List α} (hn : e.length + f.length < n) (i j : ℕ) :
    Decides (myersDiffFuel n) (AlignedFuel n) e f i j := by
  induction n generalizing e f i j with
  | zero => omega
  | succ n ih =>
    rcases plan_cases e f i j with ⟨ops, hplan, hscript⟩ | ⟨pre, suf, e', f', hplan, hne, he, hf⟩ |
      ⟨middle, pos, l, hplan, hne, hmiddle, hpos, hel, hfl⟩ | ⟨sorted, hplan, hne, honce⟩
    · refine ⟨ops, by rw [myersDiffFuel, hplan], ?_⟩
      rw [AlignedFuel, hplan]
      exact iff_of_true hscript trivial
    · have hlen (x y : List α) : (x ++ y ++ suf).length - suf.length = (x ++ y).length := by
        rw [length_append, Nat.add_sub_cancel]
      have hslice (x : List α) : slice (pre ++ x ++ suf) pre.length (pre ++ x).length = x := by
        rw [slice, take_left, drop_left]
      have hlt : e'.length + f'.length < n := by
        have := length_pos_iff.mpr hne
        rw [length_append] at this
        rw [he, hf] at hn
        simp only [length_append] at hn
        omega
      obtain ⟨ops, hops, hiff⟩ := ih hlt (i + pre.length) (j + pre.length)
      subst he hf
      refine ⟨_, by
        rw [myersDiffFuel, hplan]
        simp only [hlen, hslice, hops, bind_eq_bind, bind_some]
        rfl, ?_⟩
      rw [AlignedFuel, hplan]
      simp only [hlen, hslice, ← hiff, drop_left]
      rw [append_assoc pre e' suf, take_left, ← append_assoc]
      exact editScript_trim_iff
    · obtain ⟨xs, hxs, hxiff⟩ := ih (e := slice e 0 middle) (f := slice f 0 pos) (by
        have := length_slice_le e 0 middle
        have := length_slice_le f 0 pos
        omega) i j
      obtain ⟨ys, hys, hyiff⟩ :=
        ih (e := e.drop (middle + l.length)) (f := f.drop (pos + l.length)) (by
        have := length_pos_iff.mpr hne
        rw [length_drop, length_drop]
        omega) (i + middle + l.length) (j + pos + l.length)
      refine ⟨xs ++ keeps l (i + middle) (j + pos) ++ ys, ?_, ?_⟩
      · rw [myersDiffFuel, hplan]
        simp only [hxs, hys, hel, bind_eq_bind, bind_some]
      · rw [AlignedFuel, hplan]
        simp only [← hxiff, ← hyiff]
        exact editScript_append_keeps_iff _ _ hne hel hfl
    · have hanchors : ∀ a ∈ sorted, ∃ line, e[a.1]? = some line ∧ f[a.2]? = some line := by
        intro a ha
        obtain ⟨line, he, hf⟩ := honce a ha
        exact ⟨line, (he a.1).mpr rfl, (hf a.2).mpr rfl⟩
      have hrec : ∀ e' f' i' j', e'.length + f'.length < e.length + f.length →
          Decides (myersDiffFuel n) (AlignedFuel n) e' f' i' j' :=
        fun e' f' i' j' hlt => ih (by omega) i' j'
      obtain ⟨tail, htail, hiff, hkeep⟩ := anchorLoop_spec (i := sorted.length - 1)
        (j := if 1 < sorted.length then 0 else j) hrec (alignedFuel_nil n) hanchors 0 0
        (fun hnil => absurd hnil hne) []
      refine ⟨tail, by rw [myersDiffFuel, hplan]; exact htail, ?_⟩
      rw [AlignedFuel, hplan]
      obtain ⟨a, ha⟩ := exists_mem_of_ne_nil _ hne
      constructor
      · intro hscript
        -- an anchor tells the positions at which the lists start
        obtain ⟨hi, hj⟩ : i = sorted.length - 1 ∧ j = if 1 < sorted.length then 0 else j := by
          obtain ⟨line, he, hf⟩ := honce a ha
          obtain ⟨line', hline', hmem⟩ := hkeep a ha
          obtain rfl : line' = line := Option.some.inj (hline'.symm.trans ((he a.1).mpr rfl))
          obtain ⟨⟨k, hk, hek⟩, m, hm, hfm⟩ := hscript.getElem?_of_keep hmem
          have hka := (he k).mp hek
          have hma := (hf m).mp hfm
          constructor <;> omega
        refine ⟨hi, fun hone => by rw [if_pos hone] at hj; exact hj, ?_⟩
        rw [← hi, ← hj] at hiff
        exact hiff.mp hscript
      · rintro ⟨hi, hj, hseg⟩
        have hj' : j = if 1 < sorted.length then 0 else j := by
          split
          · next hone => exact hj hone
          · rfl
        rw [← hi, ← hj'] at hiff
        exact hiff.mpr hseg

/-- `myers_diff` returns for every two lists of lines. The result is an edit script if and only if
all calls that use anchors are aligned. -/
theorem myersDiff_correct (e f : List α) :
    ∃ ops, myersDiff e f = some ops ∧ (EditScript ops e f 0 0 ↔ Aligned e f) :=
  myersDiffFuel_spec (Nat.lt_succ_self _) 0 0

/-- The anchors 1 and 3 are in the same order in both lists, but the loops that sort them leave 1 in
`i`, so all positions in the old list are wrong. With the anchors in another order the lines 6 and 1
of the new list are inserted twice. -/
theorem myersDiff_diverges : (∃ ops, myersDiff [0, 1, 2, 3, 4] [5, 1, 6, 3, 7] = some ops ∧
      ops = [.delete 0 1, .insert 5 0, .keep 1 2 1, .delete 2 3, .insert 6 2, .keep 3 4 3,
        .delete 4 5, .insert 7 4] ∧ ¬ EditScript ops [0, 1, 2, 3, 4] [5, 1, 6, 3, 7] 0 0) ∧
    ∃ ops, myersDiff [0, 1, 2, 3, 4] [5, 3, 6, 1, 7] = some ops ∧
      ops = [.delete 0 1, .insert 5 0, .insert 3 1, .insert 6 2, .keep 1 2 3, .delete 2 3,
        .keep 3 4 1, .delete 4 5, .insert 6 2, .insert 1 3, .insert 7 4] ∧
      ¬ EditScript ops [0, 1, 2, 3, 4] [5, 3, 6, 1, 7] 0 0 := by
  refine ⟨⟨_, by decide, rfl, fun h => absurd h.old (by decide)⟩, _, by decide, rfl,
    fun h => absurd h.new (by decide)⟩

end Main
end Acton.Diff
