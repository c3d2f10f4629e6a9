import Acton.Backend.Skiplist.Invariant

/-!
# Skiplists against sorted maps

Insertions and deletions keep the invariant of the towers, and the towers hold the keys and values
of the map that the calls describe (`Models`). From that the searches find what they should.

There are two exceptions, and `skiplist_correct` shows that there are no others. A deletion from an
empty list compares the sentinel of the header with the key; it fails if the comparator cannot be
called on the sentinel, and frees the header if it takes the two to be equal. The search for a lower
key returns the header if there is no such key.
-/

namespace Acton.Backend
open Skiplist List Tower SkiplistOp
open Option hiding or_assoc
variable {cmp : WORD → WORD → ℤ} {cmpMax : WORD → Option ℤ} {s : Skiplist} {ts as bs : List Tower}
    {key value : WORD}

/-! ## Insertion -/

/-- Cut a sorted list where a condition ends that holds of all smaller elements. -/
theorem exists_split {α : Type*} {R : α → α → Prop} {p : α → Prop} {l : List α} (h : l.Pairwise R)
    (hp : ∀ a ∈ l, ∀ b ∈ l, R a b → p b → p a) :
    ∃ l1 l2, l = l1 ++ l2 ∧ (∀ a ∈ l1, p a) ∧ ∀ a ∈ l2, ¬ p a := by
  induction l with
  | nil => exact ⟨[], [], by simp⟩
  | cons a l ih =>
    by_cases ha : p a
    · obtain ⟨l1, l2, rfl, h1, h2⟩ := ih h.of_cons fun b hb c hc =>
        hp b (mem_cons_of_mem a hb) c (mem_cons_of_mem a hc)
      exact ⟨a :: l1, l2, rfl, by simpa using ⟨ha, h1⟩, h2⟩
    · refine ⟨[], a :: l, rfl, by simp, fun b hb hpb => ?_⟩
      rcases mem_cons.mp hb with rfl | hb
      · exact ha hpb
      · exact ha (hp a (by simp) b (by simp [hb]) (rel_of_pairwise_cons h hb) hpb)

/-- The levels above that of the list are empty, so the header is the last node there. -/
theorem Inv.lastNode_of_lt (h : Inv cmp s (as ++ bs)) {i : ℕ} (hi : s.level < i) :
    lastNode s as i = s.header := by
  have : levelList as i = [] := by
    rw [levelList, map_eq_nil_iff, filter_eq_nil_iff]
    intro t ht
    have := h.height_le t (mem_append_left bs ht)
    simp only [decide_eq_true_eq]
    omega
  rw [lastNode, this]
  rfl

/-- The entries of `update`, up to the level of the new node. -/
theorem Inv.take_update (h : Inv cmp s (as ++ bs)) (n : ℕ) :
    (((List.range (s.level + 1)).map (lastNode s as)) ++
        List.replicate (n - s.level) s.header).take (n + 1)
      = (List.range (n + 1)).map (lastNode s as) := by
  refine ext_getElem (by simp; omega) fun i h1 h2 => ?_
  rw [getElem_take, getElem_append]
  split
  · simp
  · next hlt =>
    simp only [length_map, length_range] at hlt
    simp [h.lastNode_of_lt (show s.level < i by omega)]

lemma lastNode_mem (s : Skiplist) (as bs : List Tower) (i : ℕ) :
    lastNode s as i ∈ s.header :: (as ++ bs).map Tower.addr :=
  (cons_levelList_sublist s.header as bs i).subset getLastD_mem_cons

/-- The links of the last node at a level go on with the towers behind it. -/
theorem Inv.links_lastNode (h : Inv cmp s (as ++ bs)) {i : ℕ} (hi : i < skiplistMaxLevel) :
    Links (s.fwd i) (lastNode s as i) (levelList bs i) := by
  have := h.links i hi
  rw [levelList_append] at this
  exact this.of_append

lemma Inv.nodup_levelList (h : Inv cmp s ts) (i : ℕ) : (s.header :: levelList ts i).Nodup := by
  have := cons_levelList_sublist s.header ts [] i
  rw [append_nil] at this
  exact h.nodup.sublist this

lemma Inv.brk_notMem (h : Inv cmp s ts) : s.brk ∉ s.header :: ts.map Tower.addr := fun hmem =>
  absurd (h.lt_brk _ hmem) (Nat.lt_irrefl _)

variable {t : Tower}

lemma mem_addrs (s : Skiplist) (ht : t ∈ ts) : t.addr ∈ s.header :: ts.map Tower.addr :=
  mem_cons_of_mem s.header (mem_map_of_mem ht)

lemma levelList_subset (s : Skiplist) (ts : List Tower) (i : ℕ) :
    s.header :: levelList ts i ⊆ s.header :: ts.map Tower.addr := by
  simpa using (cons_levelList_sublist s.header ts [] i).subset

lemma forall_mem_middle {P : Tower → Prop} :
    (∀ u ∈ as ++ t :: bs, P u) ↔ P t ∧ ∀ u ∈ as ++ bs, P u := by
  simp only [mem_append, mem_cons, or_imp, forall_and, forall_eq]
  tauto

lemma exists_mem_middle {P : Tower → Prop} :
    (∃ u ∈ as ++ t :: bs, P u) ↔ P t ∨ ∃ u ∈ as ++ bs, P u := by
  simp only [mem_append, mem_cons, or_and_right, exists_or, exists_eq_left]
  exact or_left_comm

lemma perm_addrs (a : Addr) (t : Tower) (as bs : List Tower) :
    (a :: (as ++ t :: bs).map Tower.addr).Perm (t.addr :: a :: (as ++ bs).map Tower.addr) := by
  simp only [map_append, map_cons]
  exact (perm_middle.cons a).trans (List.Perm.swap ..)

/-- A tower is added: the invariant holds if its links, those to it, and the data are as they should
be. -/
theorem Inv.insert (h : Inv cmp s (as ++ bs)) (has : ∀ t ∈ as, cmp t.key key < 0)
    (hbs : ∀ t ∈ bs, cmp key t.key < 0) (hkey : IsKey key) {n : ℕ} (hn : n < skiplistMaxLevel)
    {s' : Skiplist} (hheader : s'.header = s.header) (hlevel : s'.level = max s.level n)
    (hitems : s'.noItems = s.noItems + 1) (hbrk : s'.brk = s.brk + 1)
    (hdata : ∀ y, s'.data y = if y = s.brk then some (key, value) else s.data y)
    (hlow : ∀ j ≤ n, ∀ y, s'.fwd j y = if y = s.brk then s.fwd j (lastNode s as j)
      else if y = lastNode s as j then some (some s.brk) else s.fwd j y)
    (hhigh : ∀ j, n < j → ∀ y ≠ s.brk, s'.fwd j y = s.fwd j y) :
    Inv cmp s' (as ++ ⟨s.brk, key, value, n⟩ :: bs) := by
  have hfresh := h.brk_notMem
  have hne {y : Addr} (hy : y ∈ s.header :: (as ++ bs).map addr) : y ≠ s.brk :=
    fun heq => hfresh (heq ▸ hy)
  refine ⟨?_, forall_mem_middle.mpr ⟨?_, fun t ht => ?_⟩, fun i hi => ?_, ?_,
    forall_mem_middle.mpr ⟨hkey, h.isKey⟩, ?_, ?_, forall_mem_middle.mpr ⟨?_, fun t ht => ?_⟩, ?_,
    ?_⟩
  · rw [hheader, key_eq_map_data, hdata, if_neg (hne (by simp)), ← key_eq_map_data, h.header]
  · rw [hdata, if_pos rfl]
  · rw [hdata, if_neg (hne (mem_addrs s ht)), h.node t ht]
  · rw [hheader, levelList_append]
    have hlinks := h.links i hi
    rw [levelList_append] at hlinks
    rcases Nat.lt_or_ge n i with hni | hni
    · -- the tower does not reach the level
      rw [levelList_cons_of_lt hni]
      refine hlinks.congr fun y hy => hhigh i hni y (hne ?_)
      exact levelList_subset s (as ++ bs) i (by simpa using hy)
    · rw [levelList_cons_of_le hni]
      have hnodup := h.nodup_levelList i
      have hsub := levelList_subset s (as ++ bs) i
      rw [levelList_append] at hnodup hsub
      refine hlinks.insert hnodup (fun hmem => hfresh (hsub hmem)) ?_ ?_
        fun z hz (hz' : z ≠ lastNode s as i) => ?_
      · rw [hlow i hni, if_pos rfl]
        rfl
      · show s'.fwd i (lastNode s as i) = some (some s.brk)
        rw [hlow i hni, if_neg (hne (lastNode_mem s as bs i)), if_pos rfl]
      · rw [hlow i hni, if_neg hz, if_neg hz']
  · refine pairwise_append.mpr ⟨h.sorted.sublist (sublist_append_left as bs), ?_, ?_⟩
    · refine pairwise_cons.mpr ⟨hbs, h.sorted.sublist (sublist_append_right as bs)⟩
    · intro t ht u hu
      rcases mem_cons.mp hu with rfl | hu
      · exact has t ht
      · exact (pairwise_append.mp h.sorted).2.2 t ht u hu
  · rw [hheader, (perm_addrs ..).nodup_iff]
    exact nodup_cons.mpr ⟨hfresh, h.nodup⟩
  · rw [hheader, hbrk]
    intro a ha
    rcases mem_cons.mp ((perm_addrs ..).mem_iff.mp ha) with rfl | ha
    · exact Nat.lt_succ_self _
    · exact Nat.lt_succ_of_lt (h.lt_brk a ha)
  · rw [hlevel]
    exact Nat.le_max_right _ _
  · rw [hlevel]
    exact Nat.le_trans (h.height_le t ht) (Nat.le_max_left _ _)
  · rw [hlevel]
    exact Nat.max_lt.mpr ⟨h.level_lt, hn⟩
  · rw [hitems, h.noItems]
    simp
    omega

lemma Inv.exists_insertNode (h : Inv cmp s (as ++ bs)) (value : WORD)
    (has : ∀ t ∈ as, cmp t.key key < 0)
    (hbs : ∀ t ∈ bs, cmp key t.key < 0) (hkey : IsKey key) {n : ℕ} (hn : n < skiplistMaxLevel) :
    ∃ s', insertNode s key value n ((List.range (s.level + 1)).map (lastNode s as)) = some s' ∧
      Inv cmp s' (as ++ ⟨s.brk, key, value, n⟩ :: bs) := by
  have hne {y : Addr} (hy : y ∈ s.header :: (as ++ bs).map addr) : y ≠ s.brk :=
    fun heq => h.brk_notMem (heq ▸ hy)
  let s1 : Skiplist := { s.setNode s.brk ⟨key, value, List.replicate (n + 1) none⟩ with
    level := max s.level n
    brk := s.brk + 1 }
  have hold {j : ℕ} {y : Addr} (hy : y ≠ s.brk) : s1.fwd j y = s.fwd j y := by
    simp [s1, fwd, setNode, hy]
  have hnew {j : ℕ} (hj : j < n + 1) : s1.fwd j s.brk = some none := by
    simp only [s1, fwd, setNode, Function.update_self]
    exact getElem?_replicate_of_lt hj
  -- the loop chains the node after the last node of each level
  have hupdate {j : ℕ} {u : Addr}
      (hu : ((List.range (n + 1)).map (lastNode s as))[j]? = some u) :
      j < n + 1 ∧ u = lastNode s as j := by
    obtain ⟨hj, rfl⟩ := List.getElem?_eq_some_iff.mp hu
    simpa using hj
  have hlast (j : ℕ) : lastNode s as j ≠ s.brk := hne (lastNode_mem s as bs j)
  obtain ⟨s', hs', hframe, hsame, hlinked⟩ := exists_linkLevels (s := s1) (i := 0) (x := s.brk)
    ((List.range (n + 1)).map (lastNode s as))
    (fun j hj => by
      rw [Nat.zero_add, hnew (by simpa using hj)]
      rfl)
    (fun j u hu => by
      obtain ⟨hj, rfl⟩ := hupdate hu
      refine ⟨hlast j, ?_⟩
      rw [Nat.zero_add, hold (hlast j), (h.links_lastNode (by omega)).next_eq]
      rfl)
  refine ⟨{ s' with noItems := s'.noItems + 1 }, ?_, ?_⟩
  · simp only [insertNode, h.take_update n]
    rw [show linkLevels s.brk 0 _ _ = some s' from hs']
    rfl
  · refine h.insert has hbs hkey hn hframe.header hframe.level ?_ hframe.brk (fun y => ?_)
      (fun j hj y => ?_) fun j hj y hy => ?_
    · show s'.noItems + 1 = s.noItems + 1
      rw [hframe.noItems]
      rfl
    · refine (hframe.data y).trans ?_
      by_cases hy : y = s.brk
      · simp [s1, Skiplist.data, setNode, hy]
      · simp [s1, Skiplist.data, setNode, hy]
    · have := hlinked j (lastNode s as j) (by simp [Nat.lt_succ_of_le hj]) y
      rw [Nat.zero_add, hold (hlast j)] at this
      refine this.trans ?_
      split_ifs with h1 h2
      · rfl
      · rfl
      · exact hold h1
    · have hj' : 0 + ((List.range (n + 1)).map (lastNode s as)).length ≤ j := by
        simp only [length_map, length_range]
        omega
      exact (hsame j y (.inr hj')).trans (hold hy)

lemma Inv.addr_notMem (h : Inv cmp s (as ++ t :: bs)) :
    t.addr ∉ s.header :: (as ++ bs).map Tower.addr ∧
      (s.header :: (as ++ bs).map Tower.addr).Nodup :=
  nodup_cons.mp ((perm_addrs ..).nodup_iff.mp h.nodup)

lemma Inv.setValue (h : Inv cmp s (as ++ t :: bs)) {nd : Snode} (hnd : s.heap t.addr = some nd)
    (value : WORD) :
    Inv cmp (s.setNode t.addr { nd with value := value }) (as ++
    { t with value := value } :: bs) := by
  obtain ⟨hnot, -⟩ := h.addr_notMem
  have hfwd (i : ℕ) : (s.setNode t.addr { nd with value := value }).fwd i = s.fwd i := by
    funext y
    by_cases hy : y = t.addr
    · simp [fwd, setNode, hy, hnd]
    · simp [fwd, setNode, hy]
  have hdata {y : Addr} (hy : y ≠ t.addr) :
      (s.setNode t.addr { nd with value := value }).data y = s.data y := by
    simp [Skiplist.data, setNode, hy]
  have hkey : nd.key = t.key := by
    have := h.node t (by simp)
    simp only [Skiplist.data, hnd, map_some, Option.some.injEq, Prod.mk.injEq] at this
    exact this.1
  -- only the value of the tower differs, so most of the invariant is about the same addresses
  have haddr : (as ++ { t with value := value } :: bs).map addr
      = (as ++ t :: bs).map addr := by simp
  have hlevels (i : ℕ) : levelList (as ++ { t with value := value } :: bs) i
      = levelList (as ++ t :: bs) i := by
    simp [levelList, filter_cons, apply_ite (List.map addr)]
  refine ⟨?_, forall_mem_middle.mpr ⟨?_, fun u hu => ?_⟩, fun i hi => ?_, ?_, ?_, ?_, ?_, ?_, ?_,
    ?_⟩
  · show (s.setNode t.addr _).key s.header = some longMax
    rw [key_eq_map_data, hdata (ne_of_mem_of_not_mem mem_cons_self hnot), ← key_eq_map_data,
      h.header]
  · simp [Skiplist.data, setNode, hkey]
  · rw [hdata (ne_of_mem_of_not_mem (mem_addrs s hu) hnot)]
    exact (forall_mem_middle.mp h.node).2 u hu
  · rw [hfwd, hlevels]
    exact h.links i hi
  · have := h.sorted
    simpa [pairwise_append] using this
  · exact forall_mem_middle.mpr (forall_mem_middle.mp h.isKey)
  · rw [haddr]
    exact h.nodup
  · rw [haddr]
    exact h.lt_brk
  · exact forall_mem_middle.mpr (forall_mem_middle.mp h.height_le)
  · exact h.level_lt
  · refine h.noItems.trans ?_
    simp

/-! ## The map -/

/-- The calls as they change a map from keys to values. -/
def SkiplistOp.apply (cmp : WORD → WORD → ℤ) (m : WORD → Option WORD) : SkiplistOp → WORD →
    Option WORD
  | insert key value _, k => if cmp key k = 0 then some value else m k
  | delete key, k => if cmp key k = 0 then none else m k

/-- The live keys and their values after some calls. -/
def live (cmp : WORD → WORD → ℤ) (ops : List SkiplistOp) : WORD → Option WORD :=
  ops.foldl (SkiplistOp.apply cmp) fun _ => none

/-- The towers hold the keys and values of a map. -/
def Models (cmp : WORD → WORD → ℤ) (ts : List Tower) (m : WORD → Option WORD) : Prop :=
  ∀ k, IsKey k → ∀ v, m k = some v ↔ ∃ t ∈ ts, cmp t.key k = 0 ∧ t.value = v

section Models
variable {m : WORD → Option WORD} (hcmp : TotalCmp cmp) (hkey : IsKey key)
include hcmp hkey

/-- Keys equal to one that no tower has are not live. -/
theorem not_exists_of_ne (hts : ∀ t ∈ ts, IsKey t.key ∧ cmp t.key key ≠ 0) {k v : WORD}
    (hk : IsKey k) (hkk : cmp key k = 0) : ¬ ∃ t ∈ ts, cmp t.key k = 0 ∧ t.value = v := by
  rintro ⟨t, ht, htk, -⟩
  obtain ⟨htkey, hne⟩ := hts t ht
  exact hne (hcmp.eq_zero_trans htkey hk hkey htk ((hcmp.eq_zero_comm hkey hk).mp hkk))

lemma Models.delete (hts : ∀ t ∈ ts, IsKey t.key ∧ cmp t.key key ≠ 0)
    (hm : ∀ k, IsKey k → cmp key k ≠ 0 → ∀ v, m k = some v ↔ ∃ t ∈ ts, cmp t.key k = 0 ∧
      t.value = v) :
    Models cmp ts (SkiplistOp.apply cmp m (.delete key)) := by
  intro k hk v
  rw [apply]
  split_ifs with hkk
  · simpa using not_exists_of_ne hcmp hkey hts hk hkk
  · exact hm k hk hkk v

lemma Models.insert (ht : IsKey t.key) (htk : cmp t.key key = 0) (htv : t.value = value)
    (hts : ∀ u ∈ as ++ bs, IsKey u.key ∧ cmp u.key key ≠ 0) (hm : ∀ k, IsKey k → cmp key k ≠ 0 →
      ∀ v, m k = some v ↔ ∃ u ∈ as ++ bs, cmp u.key k = 0 ∧ u.value = v) (randno : ℕ) :
    Models cmp (as ++ t :: bs) (SkiplistOp.apply cmp m (.insert key value randno)) := by
  intro k hk v
  rw [apply, exists_mem_middle]
  split_ifs with hkk
  · have : cmp t.key k = 0 := hcmp.eq_zero_trans ht hkey hk htk hkk
    rw [or_iff_left (not_exists_of_ne hcmp hkey hts hk hkk)]
    simp [this, htv]
  · have : cmp t.key k ≠ 0 := fun h =>
      hkk (hcmp.eq_zero_trans hkey ht hk ((hcmp.eq_zero_comm ht hkey).mp htk) h)
    simp [this, hm k hk hkk]

/-- The tower with a key does not matter for the others. -/
theorem Models.without (hm : Models cmp (as ++ t :: bs) m) (ht : IsKey t.key)
    (htk : cmp t.key key = 0) : ∀ k, IsKey k → cmp key k ≠ 0 →
      ∀ v, m k = some v ↔ ∃ u ∈ as ++ bs, cmp u.key k = 0 ∧ u.value = v := by
  intro k hk hkk v
  have hne : cmp t.key k ≠ 0 := fun h =>
    hkk (hcmp.eq_zero_trans hkey ht hk ((hcmp.eq_zero_comm ht hkey).mp htk) h)
  rw [hm k hk v, exists_mem_middle, or_iff_right fun h' => hne h'.1]

end Models

/-! ## The operations -/

section Operations
variable {m : WORD → Option WORD} (hcmp : TotalCmp cmp) (hkey : IsKey key)
include hcmp hkey

/-- The towers with keys below one, and the others. -/
theorem Inv.exists_lt_split (h : Inv cmp s ts) :
    ∃ as bs, ts = as ++ bs ∧ (∀ t ∈ as, cmp t.key key < 0) ∧ ∀ t ∈ bs, ¬ cmp t.key key < 0 :=
  exists_split h.sorted fun t ht u hu htu hlt =>
    hcmp.lt_of_lt_of_le (h.isKey t ht) (h.isKey u hu) hkey htu (Int.le_of_lt hlt)

lemma Inv.exists_le_split (h : Inv cmp s ts) :
    ∃ as bs, ts = as ++ bs ∧ (∀ t ∈ as, cmp t.key key ≤ 0) ∧ ∀ t ∈ bs, ¬ cmp t.key key ≤ 0 :=
  exists_split h.sorted fun t ht u hu htu hle =>
    Int.le_of_lt (hcmp.lt_of_lt_of_le (h.isKey t ht) (h.isKey u hu) hkey htu hle)

omit hcmp hkey in
lemma Inv.descend_header (h : Inv cmp s (as ++ bs)) {p : WORD → Bool} (has : ∀ t ∈ as, p t.key)
    (hbs : ∀ t ∈ bs, ¬ p t.key) :
    descend s p s.level s.header = some ((List.range (s.level + 1)).map (lastNode s as)) :=
  h.descend_eq has hbs h.level_lt (by simp)

omit hcmp hkey in
lemma Inv.locate_eq (h : Inv cmp s (as ++ bs)) {p : WORD → Bool} (has : ∀ t ∈ as, p t.key)
    (hbs : ∀ t ∈ bs, ¬ p t.key) : locate s p = some (lastNode s as 0) := by
  rw [locate, h.descend_header has hbs]
  simp

omit hcmp hkey in
lemma Inv.lt_of_mem (h : Inv cmp s (as ++ t :: bs)) {u : Tower} (hu : u ∈ bs) :
    cmp t.key u.key < 0 :=
  rel_of_pairwise_cons (h.sorted.sublist (sublist_append_right as (t :: bs))) hu

/-- Behind a tower with the key there are only greater keys. -/
theorem Inv.pos_of_eq (h : Inv cmp s (as ++ t :: bs)) (ht : cmp t.key key = 0) :
    ∀ u ∈ bs, 0 < cmp u.key key := by
  intro u hu
  have htu := h.lt_of_mem hu
  have htkey := h.isKey t (by simp)
  have hukey := h.isKey u (by simp [hu])
  have hkt : cmp key t.key ≤ 0 := Int.le_of_eq ((hcmp.eq_zero_comm htkey hkey).mp ht)
  exact (hcmp.symm key u.key hkey hukey).mp (hcmp.lt_of_le_of_lt hkey htkey hukey hkt htu)

lemma Inv.lt_of_head_lt (h : Inv cmp s (as ++ t :: bs)) (ht : cmp key t.key < 0) :
    ∀ u ∈ t :: bs, cmp key u.key < 0 := by
  intro u hu
  rcases mem_cons.mp hu with rfl | hu
  · exact ht
  · exact hcmp.lt_of_lt_of_le hkey (h.isKey t (by simp)) (h.isKey u (by simp [hu])) ht
      (Int.le_of_lt (h.lt_of_mem hu))

/-- Where the loop stops: at a tower with the key, or between smaller and greater keys. -/
theorem Inv.exists_place (h : Inv cmp s ts) : ∃ as bs, (∀ t ∈ as, cmp t.key key < 0) ∧
    descend s (fun k => cmp k key < 0) s.level s.header =
      some ((List.range (s.level + 1)).map (lastNode s as)) ∧
    (∀ u ∈ as ++ bs, IsKey u.key ∧ cmp u.key key ≠ 0) ∧
    ((∃ t nd, ts = as ++ t :: bs ∧ s.fwd 0 (lastNode s as 0) = some (some t.addr) ∧
        s.heap t.addr = some nd ∧ nd.key = t.key ∧ IsKey t.key ∧ cmp t.key key = 0) ∨
      ts = as ++ bs ∧ s.fwd 0 (lastNode s as 0) = some (bs.head?.map Tower.addr) ∧
        ∀ u ∈ bs, cmp key u.key < 0) := by
  obtain ⟨as, bs, rfl, has, hbs⟩ := h.exists_lt_split hcmp hkey
  have hdescend := h.descend_header (p := fun k => cmp k key < 0) (by simpa using has)
    (by simpa using hbs)
  have hfirst : s.fwd 0 (lastNode s as 0) = some (bs.head?.map addr) := by
    rw [(h.links_lastNode (by decide)).next_eq, levelList_zero, head?_map]
  -- no tower of the second part has the key if all are above it
  have hother (hgt : ∀ u ∈ bs, cmp key u.key < 0) :
      ∀ u ∈ as ++ bs, IsKey u.key ∧ cmp u.key key ≠ 0 := by
    refine fun u hu => ⟨h.isKey u hu, ?_⟩
    rcases mem_append.mp hu with hu' | hu'
    · exact Int.ne_of_lt (has u hu')
    · exact Int.ne_of_gt ((hcmp.symm key u.key hkey (h.isKey u hu)).mp (hgt u hu'))
  cases bs with
  | nil => exact ⟨as, [], has, hdescend, hother (by simp), .inr ⟨rfl, hfirst, by simp⟩⟩
  | cons t bs =>
    have htkey := h.isKey t (by simp)
    by_cases heq : cmp t.key key = 0
    · obtain ⟨nd, hnd, hdata⟩ := map_eq_some_iff.mp (h.node t (by simp))
      refine ⟨as, bs, has, hdescend, fun u hu => ⟨(forall_mem_middle.mp h.isKey).2 u hu, ?_⟩,
        .inl ⟨t, nd, rfl, hfirst, hnd, (Prod.mk.inj hdata).1, htkey, heq⟩⟩
      rcases mem_append.mp hu with hu | hu
      · exact Int.ne_of_lt (has u hu)
      · exact Int.ne_of_gt (h.pos_of_eq hcmp hkey heq u hu)
    · have hkt : cmp key t.key < 0 := by
        have := (hcmp.le_zero_iff hkey htkey).mpr (Int.not_lt.mp (hbs t (by simp)))
        have := hcmp.eq_zero_comm hkey htkey
        omega
      have hgt := h.lt_of_head_lt hcmp hkey hkt
      exact ⟨as, t :: bs, has, hdescend, hother hgt, .inr ⟨rfl, hfirst, hgt⟩⟩

lemma Inv.exists_skiplistInsert (h : Inv cmp s ts) (hm : Models cmp ts m) (value : WORD)
    (randno : ℕ) :
    ∃ s' ts', skiplistInsert cmp s key value randno = some s' ∧ Inv cmp s' ts' ∧
      ts'.length ≤ ts.length + 1 ∧ Models cmp ts'
      (SkiplistOp.apply cmp m (.insert key value randno)) := by
  obtain ⟨as, bs, has, hdescend, hother, ⟨t, nd, rfl, hfirst, hnd, hndk, htkey, htk⟩ |
    ⟨rfl, hfirst, hbs⟩⟩ := h.exists_place hcmp hkey
  · -- the key is there, and gets the new value
    refine ⟨_, _, ?_, h.setValue hnd value, by simp, .insert (t :=
      { t with value := value }) hcmp hkey htkey
      htk rfl hother (hm.without hcmp hkey htkey htk) randno⟩
    simp [skiplistInsert, hdescend, hfirst, hnd, hndk, (hcmp.eq_zero_comm htkey hkey).mp htk]
  · have hn : randLevel randno < skiplistMaxLevel := Nat.mod_lt _ (by decide)
    obtain ⟨s', hs', hinv⟩ := h.exists_insertNode value has hbs hkey hn
    refine ⟨s', _, ?_, hinv, by simp [Nat.add_assoc], .insert hcmp hkey hkey (hcmp.self hkey) rfl
      hother (fun k hk _ v => hm k hk v) randno⟩
    cases bs with
    | nil => simp [skiplistInsert, hdescend, hfirst, hs']
    | cons t bs =>
      obtain ⟨nd, hnd, hdata⟩ := map_eq_some_iff.mp (h.node t (by simp))
      have hne : cmp key nd.key ≠ 0 := (Prod.mk.inj hdata).1 ▸ Int.ne_of_lt (hbs t (by simp))
      simp [skiplistInsert, hdescend, hfirst, hnd, hne, hs']

omit hcmp hkey in
/-- The level of the list goes down to the highest tower. -/
theorem exists_shrink (ts : List Tower)
    (hlinks : ∀ i < skiplistMaxLevel, Links (s.fwd i) s.header (levelList ts i))
    {l : ℕ} (hl : l < skiplistMaxLevel) (hheight : ∀ t ∈ ts, t.height ≤ l) :
    ∃ l', shrink s l = some l' ∧ l' < skiplistMaxLevel ∧ ∀ t ∈ ts, t.height ≤ l' := by
  induction l with
  | zero => exact ⟨0, rfl, hl, hheight⟩
  | succ l ih =>
    have hfirst := (hlinks (l + 1) hl).next_eq
    cases hhead : (levelList ts (l + 1)).head? with
    | none =>
      rw [hhead] at hfirst
      obtain ⟨l', hl', hlt, hle⟩ := ih (Nat.lt_of_succ_lt hl) fun t ht => by
        -- a tower of height `l + 1` would be in the list of that level
        have hnil : levelList ts (l + 1) = [] := head?_eq_none_iff.mp hhead
        rw [levelList, map_eq_nil_iff, filter_eq_nil_iff] at hnil
        have := hnil t ht
        simp only [decide_eq_true_eq] at this
        omega
      exact ⟨l', by simp [shrink, hfirst, hl'], hlt, hle⟩
    | some a =>
      rw [hhead] at hfirst
      exact ⟨l + 1, by simp [shrink, hfirst], hl, hheight⟩

omit hcmp hkey in
/-- The list of a level without a tower. -/
theorem Inv.links_remove (h : Inv cmp s (as ++ t :: bs)) {s' : Skiplist}
    (hlow : ∀ j ≤ t.height, ∀ y ≠ t.addr, s'.fwd j y =
      if y = lastNode s as j then s.fwd j t.addr else s.fwd j y)
    (hhigh : ∀ j, t.height < j → ∀ y ≠ t.addr, s'.fwd j y = s.fwd j y) {i : ℕ}
    (hi : i < skiplistMaxLevel) : Links (s'.fwd i) s.header (levelList (as ++ bs) i) := by
  have hne {y : Addr} (hy : y ∈ s.header :: (as ++ bs).map addr) : y ≠ t.addr :=
    ne_of_mem_of_not_mem hy h.addr_notMem.1
  have hlinks := h.links i hi
  rw [levelList_append] at hlinks ⊢
  rcases Nat.lt_or_ge t.height i with hti | hti
  · rw [levelList_cons_of_lt hti] at hlinks
    refine hlinks.congr fun y hy => hhigh i hti y (hne ?_)
    exact levelList_subset s (as ++ bs) i (by simpa using hy)
  · have hnodup := h.nodup_levelList i
    rw [levelList_append, levelList_cons_of_le hti] at hnodup
    rw [levelList_cons_of_le hti] at hlinks
    refine hlinks.remove hnodup ?_ fun z hz (hz' : z ≠ lastNode s as i) => ?_
    · show s'.fwd i (lastNode s as i) = s.fwd i t.addr
      rw [hlow i hti _ (hne (lastNode_mem s as bs i)), if_pos rfl]
    · rw [hlow i hti z hz, if_neg hz']

omit hcmp hkey in
lemma Inv.exists_remove (h : Inv cmp s (as ++ t :: bs)) :
    ∃ s' l, unlinkLevels t.addr 0 ((List.range (s.level + 1)).map (lastNode s as)) s = some s' ∧
      shrink (s'.free t.addr) s'.level = some l ∧
      Inv cmp { s'.free t.addr with level := l, noItems := s'.noItems - 1 } (as ++ bs) := by
  have hheight : t.height ≤ s.level := h.height_le t (by simp)
  obtain ⟨hnot, hnodup⟩ := h.addr_notMem
  have hother {u : Tower} (hu : u ∈ as ++ bs) : u.addr ≠ t.addr :=
    ne_of_mem_of_not_mem (mem_addrs s hu) hnot
  -- the levels that the tower reaches, and the others
  have hsplit : (List.range (s.level + 1)).map (lastNode s as)
      = (List.range (t.height + 1)).map (lastNode s as) ++
        (List.range (s.level - t.height)).map fun j => lastNode s as (t.height + 1 + j) := by
    rw [show s.level + 1 = t.height + 1 + (s.level - t.height) by omega, range_add]
    simp [Function.comp_def]
  have hlevel : s.level < skiplistMaxLevel := h.level_lt
  obtain ⟨s', hs', hframe, hsame, hunlinked⟩ := exists_unlinkLevels (s := s) (i := 0) (x := t.addr)
    ((List.range (t.height + 1)).map (lastNode s as))
    ((List.range (s.level - t.height)).map fun j => lastNode s as (t.height + 1 + j))
    (fun j u hu => by
      obtain ⟨hj, rfl⟩ := List.getElem?_eq_some_iff.mp hu
      simp only [length_map, length_range] at hj
      simp only [getElem_map, getElem_range, Nat.zero_add]
      have hlinks := h.links_lastNode (i := j) (by omega)
      rw [levelList_cons_of_le (by omega)] at hlinks
      exact ⟨ne_of_mem_of_not_mem (lastNode_mem s as bs j) hnot,
        hlinks.1, by simp [hlinks.2.next_eq]⟩)
    (fun v hv => by
      -- the first level above the tower goes on with another node
      obtain ⟨hlt, rfl⟩ : t.height < s.level ∧ lastNode s as (t.height + 1) = v := by
        cases hd : s.level - t.height with
        | zero => simp [hd] at hv
        | succ d =>
          refine ⟨by omega, ?_⟩
          simpa [hd, range_succ_eq_map] using hv
      have hlinks := h.links_lastNode (i := t.height + 1) (by omega)
      rw [levelList_cons_of_lt (Nat.lt_succ_self _)] at hlinks
      refine ⟨_, by simpa using hlinks.next_eq, fun heq => ?_⟩
      obtain ⟨u, hu, -, hut⟩ := exists_of_mem_levelList (mem_of_mem_head? heq)
      exact hother (mem_append_right as hu) hut)
  have hfree {j : ℕ} {y : Addr} (hy : y ≠ t.addr) : (s'.free t.addr).fwd j y = s'.fwd j y := by
    simp [fwd, free, hy]
  have hdata {y : Addr} (hy : y ≠ t.addr) : (s'.free t.addr).data y = s.data y := by
    rw [← hframe.data y]
    simp [Skiplist.data, free, hy]
  have hlinks {i : ℕ} (hi : i < skiplistMaxLevel) :
      Links ((s'.free t.addr).fwd i) s.header (levelList (as ++ bs) i) := by
    refine h.links_remove (fun j hj y hy => ?_) (fun j hj y hy => ?_) hi
    · have := hunlinked j (lastNode s as j) (by simp [Nat.lt_succ_of_le hj]) y
      rw [hfree hy]
      simpa using this
    · rw [hfree hy]
      refine hsame j y (.inr ?_)
      simp only [length_map, length_range]
      omega
  obtain ⟨l, hl, hlt, hle⟩ := exists_shrink (s := s'.free t.addr) (as ++ bs) (l := s'.level)
    (fun i hi => by
      rw [show (s'.free t.addr).header = s.header from hframe.header]
      exact hlinks hi)
    (by rwa [hframe.level]) (fun u hu => by
      rw [hframe.level]
      exact (forall_mem_middle.mp h.height_le).2 u hu)
  refine ⟨s', l, by rw [hsplit, hs'], hl, ?_⟩
  have hheader' : (s'.free t.addr).header = s.header := hframe.header
  refine ⟨?_, fun u hu => ?_, fun i hi => ?_, ?_, (forall_mem_middle.mp h.isKey).2, ?_, ?_, hle,
    hlt,
    ?_⟩
  · show (s'.free t.addr).key (s'.free t.addr).header = some longMax
    rw [hheader', key_eq_map_data, hdata (ne_of_mem_of_not_mem mem_cons_self hnot),
      ← key_eq_map_data, h.header]
  · exact (hdata (hother hu)).trans ((forall_mem_middle.mp h.node).2 u hu)
  · exact hheader' ▸ hlinks hi
  · exact h.sorted.sublist ((sublist_cons_self t bs).append_left as)
  · exact hheader' ▸ hnodup
  · show ∀ a ∈ s'.header :: (as ++ bs).map addr, a < s'.brk
    rw [hframe.header, hframe.brk]
    exact fun a ha => h.lt_brk a ((perm_addrs ..).mem_iff.mpr (mem_cons_of_mem _ ha))
  · show s'.noItems - 1 = ((as ++ bs).length : ℤ)
    rw [hframe.noItems, h.noItems]
    simp
    omega

/-- Deleting a key keeps the invariant. On an empty list, the comparator is applied to the
sentinel. -/
theorem Inv.exists_skiplistDelete (h : Inv cmp s ts) (hm : Models cmp ts m)
    (hsentinel : ts = [] → ∃ c, cmpMax key = some c ∧ c ≠ 0) :
    ∃ s' v ts', skiplistDelete cmp cmpMax s key = some (s', v) ∧ Inv cmp s' ts' ∧
      ts'.length ≤ ts.length ∧ Models cmp ts' (SkiplistOp.apply cmp m (.delete key)) := by
  obtain ⟨as, bs, has, hdescend, hother, ⟨t, nd, rfl, hfirst, hnd, hndk, htkey, htk⟩ |
    ⟨rfl, hfirst, hbs⟩⟩ := h.exists_place hcmp hkey
  · obtain ⟨s', l, hs', hl, hinv⟩ := h.exists_remove
    have hzero : cmpNode cmp cmpMax t.key key = some 0 := by
      rw [cmpNode, if_neg htkey, htk]
    refine ⟨_, some nd.value, as ++ bs, ?_, hinv, by simp,
      .delete hcmp hkey hother (hm.without hcmp hkey htkey htk)⟩
    have hlevel : (s'.free t.addr).level = s'.level := rfl
    simp [skiplistDelete, hdescend, hfirst, hnd, hndk, hzero, hs', hlevel, hl]
    rfl
  · refine ⟨s, none, as ++ bs, ?_, h, le_rfl,
      .delete hcmp hkey hother fun k hk _ v => hm k hk v⟩
    -- the loop ends at the header or at a tower with another key
    obtain ⟨k, c, hk, hc, hnk⟩ : ∃ k c,
        s.key ((bs.head?.map addr).getD (lastNode s as 0)) = some k ∧
          cmpNode cmp cmpMax k key = some c ∧ c ≠ 0 := by
      have htower {t : Tower} (ht : t ∈ as ++ bs) :
          cmpNode cmp cmpMax t.key key = some (cmp t.key key) := if_neg (h.isKey t ht)
      cases bs with
      | cons t bs => exact ⟨t.key, _, key_eq_of_data (h.node t (by simp)), htower (by simp),
          (hother t (by simp)).2⟩
      | nil =>
        rcases eq_nil_or_concat' as with rfl | ⟨as, t, rfl⟩
        · obtain ⟨c, hc, hne⟩ := hsentinel rfl
          exact ⟨longMax, c, h.header, by rw [cmpNode, if_pos rfl, hc], hne⟩
        · refine ⟨t.key, _, ?_, htower (by simp), (hother t (by simp)).2⟩
          simp only [head?_nil, map_none, getD_none, lastNode, levelList_zero,
            map_append, map_singleton, getLastD_concat]
          exact key_eq_of_data (h.node t (by simp))
    obtain ⟨nd, hnd, rfl⟩ := map_eq_some_iff.mp hk
    simp [skiplistDelete, hdescend, hfirst, hnd, hc, hnk]

end Operations

/-! ## Searches -/

section Searches
variable {m : WORD → Option WORD}

/-- A node of the list with the smallest key that is not below the argument. -/
def HigherOk (cmp : WORD → WORD → ℤ) (s : Skiplist) (m : WORD → Option WORD) (arg : WORD) : Prop :=
  ∃ r, skiplistSearchHigher cmp s arg = some r ∧
    (∀ a, r = some a → ∃ k v, s.data a = some (k, v) ∧ IsKey k ∧ m k = some v ∧ 0 ≤ cmp k arg ∧
      ∀ k', IsKey k' → (m k').isSome → 0 ≤ cmp k' arg → cmp k k' ≤ 0) ∧
    (r = none → ∀ k', IsKey k' → (m k').isSome → cmp k' arg < 0)

/-- A node of the list with the greatest key that is not above the argument. -/
def LowerOk (cmp : WORD → WORD → ℤ) (s : Skiplist) (m : WORD → Option WORD) (arg : WORD) : Prop :=
  ∃ r, skiplistSearchLower cmp s arg = some r ∧
    (∀ a, r = some a → ∃ k v, s.data a = some (k, v) ∧ IsKey k ∧ m k = some v ∧ cmp k arg ≤ 0 ∧
      ∀ k', IsKey k' → (m k').isSome → cmp k' arg ≤ 0 → cmp k' k ≤ 0) ∧
    (r = none → ∀ k', IsKey k' → (m k').isSome → 0 < cmp k' arg)

/-- The node with the key of the argument, if it is live. -/
def SearchOk (cmp : WORD → WORD → ℤ) (s : Skiplist) (m : WORD → Option WORD) (arg : WORD) : Prop :=
  ∃ r, skiplistSearch cmp s arg = some r ∧
    (∀ a, r = some a → ∃ k v, s.data a = some (k, v) ∧ cmp k arg = 0 ∧ m arg = some v) ∧
    (r = none → m arg = none)

lemma Inv.lastNode_cases (h : Inv cmp s (as ++ bs)) : (as = [] ∧ lastNode s as 0 = s.header) ∨
      ∃ cs t, as = cs ++ [t] ∧ lastNode s as 0 = t.addr ∧
        s.data (lastNode s as 0) = some (t.key, t.value) := by
  rcases eq_nil_or_concat' as with rfl | ⟨cs, t, rfl⟩
  · exact .inl ⟨rfl, rfl⟩
  · have hlast : lastNode s (cs ++ [t]) 0 = t.addr := by
      rw [lastNode, levelList_zero, map_append, map_singleton, getLastD_concat]
    exact .inr ⟨cs, t, rfl, hlast, hlast ▸ h.node t (by simp)⟩

lemma Inv.lt_last {u : Tower} (h : Inv cmp s ((as ++ [t]) ++ bs)) (hu : u ∈ as) :
    cmp u.key t.key < 0 := by
  have hsorted := h.sorted.sublist (sublist_append_left (as ++ [t]) bs)
  exact (pairwise_append.mp hsorted).2.2 u hu t (by simp)

variable {arg : WORD} (hcmp : TotalCmp cmp) (harg : IsKey arg) (hm : Models cmp ts m)
include hm in
lemma Models.exists_of_isSome {k : WORD} (hk : IsKey k) (hlive : (m k).isSome) :
    ∃ t ∈ ts, cmp t.key k = 0 := by
  obtain ⟨v, hv⟩ := isSome_iff_exists.mp hlive
  obtain ⟨t, ht, htk, -⟩ := (hm k hk v).mp hv
  exact ⟨t, ht, htk⟩

include hcmp hm in
lemma Models.live_of_mem (ht : t ∈ ts) (hkey : IsKey t.key) : m t.key = some t.value :=
  (hm t.key hkey t.value).mpr ⟨t, ht, hcmp.self hkey, rfl⟩

include hcmp harg hm in
lemma Inv.searchOk (h : Inv cmp s ts) : SearchOk cmp s m arg := by
  obtain ⟨as, bs, rfl, has, hbs⟩ := h.exists_le_split hcmp harg
  have hlocate := h.locate_eq (p := fun k => cmp k arg ≤ 0) (by simpa using has)
    (by simpa using hbs)
  have hnone (hne : ∀ t ∈ as, cmp t.key arg ≠ 0) : m arg = none := by
    by_contra hlive
    obtain ⟨t, ht, htk⟩ := hm.exists_of_isSome harg (isSome_iff_ne_none.mpr hlive)
    rcases mem_append.mp ht with ht | ht
    · exact hne t ht htk
    · exact hbs t ht (Int.le_of_eq htk)
  rcases h.lastNode_cases with ⟨rfl, hlast⟩ | ⟨cs, t, rfl, hlast, hdata⟩
  · refine ⟨none, ?_, by simp, fun _ => hnone (by simp)⟩
    simp [skiplistSearch, hlocate, hlast, h.header]
  · have htkey := h.isKey t (by simp)
    have hsearch : skiplistSearch cmp s arg
        = if cmp arg t.key = 0 then some (some t.addr) else some none := by
      rw [skiplistSearch, hlocate]
      simp [hlast, key_eq_of_data (hlast ▸ hdata), show t.key ≠ longMax from htkey]
    by_cases heq : cmp arg t.key = 0
    · have htk := (hcmp.eq_zero_comm harg htkey).mp heq
      refine ⟨some t.addr, hsearch.trans (if_pos heq), ?_, by simp⟩
      rintro a ⟨rfl⟩
      exact ⟨t.key, t.value, hlast ▸ hdata, htk, (hm arg harg _).mpr ⟨t, by simp, htk, rfl⟩⟩
    · refine ⟨none, hsearch.trans (if_neg heq), by simp, fun _ => hnone fun u hu hu0 => ?_⟩
      rcases mem_append.mp hu with hu' | hu'
      · have hut := h.lt_last hu'
        have hta : cmp t.key arg ≤ 0 := has t (by simp)
        have hukey := h.isKey u (mem_append_left bs hu)
        exact Int.ne_of_lt (hcmp.lt_of_lt_of_le hukey htkey harg hut hta) hu0
      · obtain rfl : u = t := by simpa using hu'
        exact heq ((hcmp.eq_zero_comm htkey harg).mp hu0)

include hcmp harg hm in
lemma Inv.higherOk (h : Inv cmp s ts) : HigherOk cmp s m arg := by
  obtain ⟨as, bs, rfl, has, hbs⟩ := h.exists_lt_split hcmp harg
  have hlocate := h.locate_eq (p := fun k => cmp k arg < 0) (by simpa using has)
    (by simpa using hbs)
  have hresult : skiplistSearchHigher cmp s arg = some (levelList bs 0).head? := by
    simp [skiplistSearchHigher, hlocate, (h.links_lastNode (i := 0) (by decide)).next_eq]
  -- a live key that is not below the argument is that of a tower in the second part
  have hlive {k : WORD} (hk : IsKey k) (hsome : (m k).isSome) :
      cmp k arg < 0 ∨ ∃ u ∈ bs, cmp u.key k = 0 := by
    obtain ⟨u, hu, huk⟩ := hm.exists_of_isSome hk hsome
    rcases mem_append.mp hu with hu' | hu'
    · have hukey := h.isKey u hu
      have hku : cmp k u.key ≤ 0 := Int.le_of_eq ((hcmp.eq_zero_comm hukey hk).mp huk)
      exact .inl (hcmp.lt_of_le_of_lt hk hukey harg hku (has u hu'))
    · exact .inr ⟨u, hu', huk⟩
  refine ⟨_, hresult, fun a ha => ?_, fun hnone k hk hsome => ?_⟩
  · cases bs with
    | nil => simp at ha
    | cons t bs =>
      obtain rfl : t.addr = a := by simpa [levelList_zero] using ha
      have htkey := h.isKey t (by simp)
      refine ⟨t.key, t.value, h.node t (by simp), htkey, hm.live_of_mem hcmp (by simp) htkey,
        Int.not_lt.mp (hbs t (by simp)), fun k hk hsome hle => ?_⟩
      obtain ⟨u, hu, huk⟩ := (hlive hk hsome).resolve_left (Int.not_lt.mpr hle)
      rcases mem_cons.mp hu with rfl | hu
      · exact Int.le_of_eq huk
      · have hukey := h.isKey u (by simp [hu])
        exact hcmp.trans _ _ _ htkey hukey hk (Int.le_of_lt (h.lt_of_mem hu)) (Int.le_of_eq huk)
  · obtain rfl : bs = [] := by simpa [levelList_zero] using hnone
    exact (hlive hk hsome).resolve_right (by simp)

include hcmp harg hm in
/-- The search for a lower key is right if there is one, and gives the header otherwise. -/
theorem Inv.lowerOk_iff (h : Inv cmp s ts) :
    LowerOk cmp s m arg ↔ ∃ k, IsKey k ∧ (m k).isSome ∧ cmp k arg ≤ 0 := by
  obtain ⟨as, bs, rfl, has, hbs⟩ := h.exists_le_split hcmp harg
  have hlocate := h.locate_eq (p := fun k => cmp k arg ≤ 0) (by simpa using has)
    (by simpa using hbs)
  have hresult : skiplistSearchLower cmp s arg = some (some (lastNode s as 0)) := by
    simp [skiplistSearchLower, hlocate]
  have hlive {k : WORD} (hk : IsKey k) (hsome : (m k).isSome) (hle : cmp k arg ≤ 0) :
      ∃ u ∈ as, cmp k u.key ≤ 0 := by
    obtain ⟨u, hu, huk⟩ := hm.exists_of_isSome hk hsome
    have hukey := h.isKey u hu
    have hku : cmp k u.key ≤ 0 := Int.le_of_eq ((hcmp.eq_zero_comm hukey hk).mp huk)
    rcases mem_append.mp hu with hu | hu
    · exact ⟨u, hu, hku⟩
    · exact absurd (hcmp.trans _ _ _ hukey hk harg (Int.le_of_eq huk) hle) (hbs u hu)
  constructor
  · rintro ⟨r, hr, hsome, -⟩
    obtain rfl : some (lastNode s as 0) = r := mem_unique hresult hr
    obtain ⟨k, v, -, hk, hkv, hle, -⟩ := hsome _ rfl
    exact ⟨k, hk, by simp [hkv], hle⟩
  · rintro ⟨k, hk, hsome, hle⟩
    obtain ⟨u, hu, -⟩ := hlive hk hsome hle
    rcases h.lastNode_cases with ⟨rfl, -⟩ | ⟨cs, t, rfl, -, hdata⟩
    · simp at hu
    · have htkey := h.isKey t (by simp)
      refine ⟨_, hresult, ?_, by simp⟩
      rintro a ⟨rfl⟩
      refine ⟨t.key, t.value, hdata, htkey, hm.live_of_mem hcmp (by simp) htkey, has t (by simp),
        fun k' hk' hsome' hle' => ?_⟩
      obtain ⟨u, hu, hku⟩ := hlive hk' hsome' hle'
      have hukey := h.isKey u (mem_append_left bs hu)
      rcases mem_append.mp hu with hu' | hu'
      · have hut := h.lt_last hu'
        exact hcmp.trans _ _ _ hk' hukey htkey hku (Int.le_of_lt hut)
      · obtain rfl : u = t := by simpa using hu'
        exact hku

end Searches

/-! ## Whole runs -/

/-- The levels of a list hold the live keys: each once and in increasing order at level 0, and some
of those of the level below at the others. -/
structure Refines (cmp : WORD → WORD → ℤ) (s : Skiplist) (m : WORD → Option WORD)
    (levels : ℕ → List Addr) : Prop where
  links : ∀ i < skiplistMaxLevel, Links (s.fwd i) s.header (levels i)
  sublist : ∀ i, (levels (i + 1)).Sublist (levels i)
  sorted : (levels 0).Pairwise fun a b =>
    ∃ k k', s.key a = some k ∧ s.key b = some k' ∧ cmp k k' < 0
  node : ∀ a ∈ levels 0, ∃ k v, s.data a = some (k, v) ∧ IsKey k ∧ m k = some v
  live : ∀ k, IsKey k → ∀ v, m k = some v → ∃ a ∈ levels 0, ∃ k', s.data a = some (k', v) ∧
  cmp k' k = 0
  noItems : s.noItems = (levels 0).length
  /-- The counter is an `int`. -/
  int : s.noItems < 2 ^ 31

lemma Inv.refines {m : WORD → Option WORD} (hcmp : TotalCmp cmp) (h : Inv cmp s ts)
    (hm : Models cmp ts m) (hlen : ts.length < 2 ^ 31) : Refines cmp s m (levelList ts) where
  links := h.links
  sublist i := levelList_sublist ts (Nat.le_succ i)
  sorted := by
    rw [levelList_zero, pairwise_map]
    refine h.sorted.imp_of_mem fun {t u} ht hu htu => ⟨t.key, u.key, ?_, ?_, htu⟩
    · exact key_eq_of_data (h.node t ht)
    · exact key_eq_of_data (h.node u hu)
  node a ha := by
    obtain ⟨t, ht, -, rfl⟩ := exists_of_mem_levelList ha
    exact ⟨t.key, t.value, h.node t ht, h.isKey t ht, hm.live_of_mem hcmp ht (h.isKey t ht)⟩
  live k hk v hv := by
    obtain ⟨t, ht, htk, rfl⟩ := (hm k hk v).mp hv
    rw [levelList_zero]
    exact ⟨t.addr, mem_map_of_mem ht, t.key, h.node t ht, htk⟩
  noItems := by
    rw [levelList_zero, length_map, h.noItems]
  int := by
    rw [h.noItems]
    omega

/-- A key is deleted from an empty list only if the comparator can be called on the sentinel and
takes the two to be different. -/
def SafeDeletes (cmp : WORD → WORD → ℤ) (cmpMax : WORD → Option ℤ) (ops : List SkiplistOp) : Prop :=
  ∀ pre key, pre ++ [.delete key] <+: ops → (∀ k, IsKey k → live cmp pre k = none) →
    ∃ c, cmpMax key = some c ∧ c ≠ 0

lemma live_concat (cmp : WORD → WORD → ℤ) (ops : List SkiplistOp) (op : SkiplistOp) :
    live cmp (ops ++ [op]) = op.apply cmp (live cmp ops) := by
  simp [live]

lemma runSkiplist_concat (cmp : WORD → WORD → ℤ) (cmpMax : WORD → Option ℤ) (ops : List SkiplistOp)
    (op : SkiplistOp) : runSkiplist cmp cmpMax (ops ++ [op]) =
      (runSkiplist cmp cmpMax ops).bind fun s => op.run cmp cmpMax s := by
  simp [runSkiplist]

variable {ops : List SkiplistOp}

lemma safeDeletes_concat {op : SkiplistOp} :
    SafeDeletes cmp cmpMax (ops ++ [op]) ↔ SafeDeletes cmp cmpMax ops ∧ ∀ key, op = .delete key →
      (∀ k, IsKey k → live cmp ops k = none) → ∃ c, cmpMax key = some c ∧ c ≠ 0 := by
  simp only [SafeDeletes, prefix_concat_iff]
  constructor
  · intro h
    refine ⟨fun pre key hpre => h pre key (.inr hpre), ?_⟩
    rintro key rfl
    exact h ops key (.inl rfl)
  · rintro ⟨h1, h2⟩ pre key (heq | hpre)
    · obtain ⟨rfl, hop⟩ := append_inj' heq rfl
      exact h2 key (by simpa using hop.symm)
    · exact h1 pre key hpre

section Runs
variable (hcmp : TotalCmp cmp)
include hcmp

lemma exists_inv_of_safeDeletes (hops : ∀ op ∈ ops, IsKey op.key)
    (hsafe : SafeDeletes cmp cmpMax ops) :
    ∃ s ts, runSkiplist cmp cmpMax ops = some s ∧ Inv cmp s ts ∧ ts.length ≤ ops.length ∧
      Models cmp ts (live cmp ops) := by
  induction ops using List.reverseRecOn with
  | nil => exact ⟨_, [], rfl, inv_skiplistInit cmp, le_rfl, fun k _ v => by simp [live]⟩
  | append_singleton ops op ih =>
    obtain ⟨hsafe, hop⟩ := safeDeletes_concat.mp hsafe
    obtain ⟨s, ts, hs, hinv, hlen, hm⟩ := ih (fun op hmem => hops op (by simp [hmem])) hsafe
    rw [runSkiplist_concat, hs, bind_some, live_concat, length_append, length_singleton]
    cases op with
    | insert key value randno =>
      have hkey : IsKey key := hops (.insert key value randno) (by simp)
      obtain ⟨s', ts', hs', hinv', hlen', hm'⟩ :=
        hinv.exists_skiplistInsert hcmp hkey hm value randno
      exact ⟨s', ts', hs', hinv', by omega, hm'⟩
    | delete key =>
      have hkey : IsKey key := hops (.delete key) (by simp)
      obtain ⟨s', v, ts', hs', hinv', hlen', hm'⟩ :=
        hinv.exists_skiplistDelete hcmp hkey hm fun hnil => by
          refine hop key rfl fun k hk => ?_
          subst hnil
          simpa using (eq_none_iff_forall_not_mem.mpr fun v hv => by simpa using (hm k hk v).mp hv)
      exact ⟨s', ts', by simp [run, hs'], hinv', by omega, hm'⟩

omit hcmp in
/-- Without a header, every call fails. -/
theorem run_eq_none (h : s.heap s.header = none) (op : SkiplistOp) :
    op.run cmp cmpMax s = none := by
  have hadvance (i : ℕ) (p : Addr → Option Bool) : advance (s.fwd i) p s.brk s.header = none :=
    by cases s.brk <;> simp [advance, fwd, h]
  have hdescend (p : WORD → Bool) : descend s p s.level s.header = none := by
    cases s.level <;> simp [descend, hadvance]
  cases op <;> simp [run, skiplistInsert, skiplistDelete, hdescend]

omit hcmp in
/-- On an empty list, a key that is taken to be equal to the sentinel makes a deletion free the
header, and one that cannot be compared with it makes the deletion fail. -/
theorem Inv.free_header (h : Inv cmp s []) (hkey : ¬ ∃ c, cmpMax key = some c ∧ c ≠ 0)
    {s' : Skiplist} {v : Option WORD} (hdelete : skiplistDelete cmp cmpMax s key = some (s', v)) :
    s'.heap s'.header = none := by
  have hdescend := Inv.descend_header (show Inv cmp s ([] ++ []) from h)
    (p := fun k => cmp k key < 0) (by simp) (by simp)
  have hfirst : s.fwd 0 s.header = some none := h.links 0 (by decide)
  obtain ⟨nd, hnd, hndk⟩ := map_eq_some_iff.mp h.header
  have hlast (i : ℕ) : lastNode s [] i = s.header := rfl
  have hunlink : unlinkLevels s.header 0 ((List.range (s.level + 1)).map (lastNode s [])) s
      = some s := by
    rw [range_succ_eq_map, map_cons, hlast]
    simp [unlinkLevels, hfirst]
  have hcmp : cmpNode cmp cmpMax nd.key key = cmpMax key := by rw [cmpNode, if_pos hndk]
  simp only [skiplistDelete, hdescend] at hdelete
  cases hc : cmpMax key with
  | none => simp [hlast, hfirst, hnd, hcmp, hc] at hdelete
  | some c =>
    obtain rfl : c = 0 := by
      by_contra hne
      exact hkey ⟨c, hc, hne⟩
    simp [hlast, hfirst, hnd, hcmp, hc, hunlink, bind_eq_some_iff] at hdelete
    obtain ⟨l, -, rfl, -⟩ := hdelete
    simp [free]

/-- Other runs fail or lose the header. -/
theorem ruined_of_not_safeDeletes (hops : ∀ op ∈ ops, IsKey op.key)
    (hsafe : ¬ SafeDeletes cmp cmpMax ops)
    (hs : runSkiplist cmp cmpMax ops = some s) : s.heap s.header = none := by
  induction ops using List.reverseRecOn generalizing s with
  | nil => exact absurd (fun pre key hpre => by simp at hpre) hsafe
  | append_singleton ops op ih =>
    rw [runSkiplist_concat, bind_eq_some_iff] at hs
    obtain ⟨s0, hs0, hop⟩ := hs
    have hops' : ∀ op ∈ ops, IsKey op.key := fun op hmem => hops op (by simp [hmem])
    by_cases hsafe0 : SafeDeletes cmp cmpMax ops
    · simp only [safeDeletes_concat, hsafe0, true_and, not_forall] at hsafe
      obtain ⟨key, rfl, hnone, hkey⟩ := hsafe
      obtain ⟨s1, ts, hs1, hinv, -, hm⟩ := exists_inv_of_safeDeletes hcmp hops' hsafe0
      obtain rfl : s0 = s1 := mem_unique hs0 hs1
      -- no key is live, so there is no tower
      obtain rfl : ts = [] := by
        rw [eq_nil_iff_forall_not_mem]
        intro t ht
        have := hm.live_of_mem hcmp ht (hinv.isKey t ht)
        rw [hnone t.key (hinv.isKey t ht)] at this
        simp at this
      obtain ⟨⟨s', v⟩, hdelete, rfl⟩ := map_eq_some_iff.mp hop
      exact hinv.free_header hkey hdelete
    · rw [run_eq_none (ih hops' hsafe0 hs0)] at hop
      simp at hop

/-- After every sequence of fewer than `2 ^ 31` calls, the list holds the live keys and the searches
find what they are for, if and only if no key was deleted from an empty list that the comparator
takes to be equal to the sentinel or cannot compare with it, and there is a live key that is not
above the argument of the search for a lower one. -/
theorem skiplist_correct {ops : List SkiplistOp} (hops : ∀ op ∈ ops, IsKey op.key)
    (hlen : ops.length < 2 ^ 31) {arg : WORD} (harg : IsKey arg) :
    (∃ s levels, runSkiplist cmp cmpMax ops = some s ∧ Refines cmp s (live cmp ops) levels ∧
      SearchOk cmp s (live cmp ops) arg ∧ HigherOk cmp s (live cmp ops) arg ∧
      LowerOk cmp s (live cmp ops) arg) ↔
    SafeDeletes cmp cmpMax ops ∧ ∃ k, IsKey k ∧ (live cmp ops k).isSome ∧ cmp k arg ≤ 0 := by
  constructor
  · rintro ⟨s, levels, hs, hrefines, -, -, hlower⟩
    have hsafe : SafeDeletes cmp cmpMax ops := by
      by_contra hsafe
      have hheader := ruined_of_not_safeDeletes hcmp hops hsafe hs
      have := (hrefines.links 0 (by decide)).next_eq
      simp [fwd, hheader] at this
    obtain ⟨s', ts, hs', hinv, -, hm⟩ := exists_inv_of_safeDeletes hcmp hops hsafe
    obtain rfl : s = s' := mem_unique hs hs'
    exact ⟨hsafe, (hinv.lowerOk_iff hcmp harg hm).mp hlower⟩
  · rintro ⟨hsafe, hlive⟩
    obtain ⟨s, ts, hs, hinv, hlen', hm⟩ := exists_inv_of_safeDeletes hcmp hops hsafe
    exact ⟨s, levelList ts, hs, hinv.refines hcmp hm (by omega), hinv.searchOk hcmp harg hm,
      hinv.higherOk hcmp harg hm, (hinv.lowerOk_iff hcmp harg hm).mpr hlive⟩

end Runs

/-! ## Examples -/

/-- A comparator that does not look at the key as a number but at what it stands for, which for the
sentinel happens to be that of the key 0. -/
def rankCmp (a b : WORD) : ℤ :=
  let rank (k : WORD) : ℤ := if k = longMax then 0 else k.toNat
  rank a - rank b

lemma totalCmp_rankCmp : TotalCmp rankCmp := by
  constructor
  · intro a b _ _
    simp only [rankCmp]
    omega
  · intro a b c _ _ _
    simp only [rankCmp]
    omega

/-- The calls of the example. The list is not empty when the key is deleted, so the comparator need
not know the sentinel. -/
def exampleSkiplistOps : List SkiplistOp := [.insert 5 50 3, .insert 2 20 0, .delete 5]

theorem skiplist_correct_example :
    ∃ s levels, runSkiplist rankCmp (fun _ => none) exampleSkiplistOps = some s ∧
      Refines rankCmp s (live rankCmp exampleSkiplistOps) levels ∧
      SearchOk rankCmp s (live rankCmp exampleSkiplistOps) 4 ∧
      HigherOk rankCmp s (live rankCmp exampleSkiplistOps) 4 ∧
      LowerOk rankCmp s (live rankCmp exampleSkiplistOps) 4 := by
  refine (skiplist_correct totalCmp_rankCmp ?_ (by decide) (by unfold IsKey; decide)).mpr
    ⟨fun pre key hpre hnone => ?_, 2, by unfold IsKey; decide, by decide, by decide⟩
  · simp only [exampleSkiplistOps, mem_cons, not_mem_nil, or_false, IsKey]
    rintro op (rfl | rfl | rfl) <;> decide
  · -- the key 2 is live before the deletion
    obtain ⟨post, hpost⟩ := hpre
    match pre with
    | [] | [_] | _ :: _ :: _ :: _ => simp [exampleSkiplistOps] at hpost
    | [op1, op2] =>
      obtain ⟨rfl, rfl, -⟩ : op1 = .insert 5 50 3 ∧ op2 = .insert 2 20 0 ∧ _ := by
        simpa [exampleSkiplistOps] using hpost
      exact absurd (hnone 2 (by unfold IsKey; decide)) (by decide)

/-- A deletion from an empty list frees the header and counts an item less than none, or fails if
the comparator cannot be called on the sentinel. A search for a lower key returns the header if
there is none. -/
theorem skiplist_diverges : TotalCmp rankCmp ∧
    ((runSkiplist rankCmp (fun key => some (rankCmp longMax key)) [.delete 0]).map fun s =>
      (s.noItems, s.heap s.header)) = some (-1, none) ∧
    (runSkiplist rankCmp (fun _ => none) [.delete 0]).isNone ∧
    ((runSkiplist rankCmp (fun _ => none) [.insert 5 50 0]).bind fun s =>
      (skiplistSearchLower rankCmp s 3).map fun r => r.bind s.key) = some (some longMax) :=
  ⟨totalCmp_rankCmp, by decide, by decide, by decide⟩

end Acton.Backend
