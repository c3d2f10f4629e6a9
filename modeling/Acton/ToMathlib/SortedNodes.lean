import Mathlib.Tactic

/-!
# Chains of nodes that are searched with a comparator

A chain is a list of nodes, each with a key and a value. The functions go along the chain for as
long as a comparator says so, the way C code does: the comparator returns a negative number, zero or
a positive number, or `none` if the keys cannot be read. A node is pointed to by its position.

Where the comparator compares the ranks of the keys in some linear order (`Ranked`) and the nodes
are in that order (`Sorted`), a chain is a finite map from ranks to values (`lookup`). The lemmas
cut it at the rank of the argument: `Cut rank r l as m bs` has the nodes before, the node with the
rank if there is one, and the nodes after.
-/

namespace SortedNodes
open List Option
variable {K V : Type} {R : Type*}

/-- The number of nodes that are passed: those in front whose keys satisfy `p`. -/
def skip (p : K → Option Bool) : List (K × V) → Option ℕ
  | [] => some 0
  | n :: l => do
    if ← p n.1 then (· + 1) <$> skip p l else some 0

section Functions
variable (cmp : K → K → Option ℤ) (key : K)

/-- The last node that is not greater than the key, if it is equal to it. -/
def search (l : List (K × V)) : Option (Option ℕ) := do
  match ← skip (fun k => (cmp k key).map (· ≤ 0)) l with
  | 0 => some none
  | p + 1 =>
    let n ← l[p]?
    if (← cmp key n.1) = 0 then some (some p) else some none

/-- The first node that is not less than the key. -/
def searchHigher (l : List (K × V)) : Option (Option ℕ) := do
  let p ← skip (fun k => (cmp k key).map (· < 0)) l
  some (if p < l.length then some p else none)

/-- Add a node, or change the value of the node with that key. The key of the node stays. -/
def insert (value : V) : List (K × V) → Option (List (K × V))
  | [] => some [(key, value)]
  | n :: l => do
    if (← cmp n.1 key) < 0 then (n :: ·) <$> insert value l
    else if (← cmp key n.1) = 0 then some ((n.1, value) :: l)
    else some ((key, value) :: n :: l)

/-- Take the node with the key out. -/
def delete : List (K × V) → Option (List (K × V) × Option V)
  | [] => some ([], none)
  | n :: l => do
    let c ← cmp n.1 key
    if c < 0 then do
      let (l', v) ← delete l
      some (n :: l', v)
    else if c = 0 then some (l, some n.2)
    else some (n :: l, none)

end Functions

/-! ## Facts that hold for every comparator -/

section General
variable {cmp : K → K → Option ℤ} {key : K} {l : List (K × V)} {n : K × V}

lemma skip_some (p : K → Bool) (l : List (K × V)) :
    skip (fun k => some (p k)) l = some (l.takeWhile (p ·.1)).length := by
  induction l with
  | nil => rfl
  | cons n l ih => cases hp : p n.1 <;> simp [skip, hp, ih]

lemma length_insert_le {v : V} {l' : List (K × V)} (h : insert cmp key v l = some l') :
    l'.length ≤ l.length + 1 := by
  induction l generalizing l' with
  | nil =>
    cases h
    exact le_rfl
  | cons n l ih =>
    simp only [insert, bind_eq_bind, bind_eq_some_iff] at h
    obtain ⟨c, -, h⟩ := h
    split at h
    · obtain ⟨l1, hl1, rfl⟩ := map_eq_some_iff.mp h
      exact Nat.succ_le_succ (ih hl1)
    · obtain ⟨c', -, h⟩ := bind_eq_some_iff.mp h
      split at h <;> cases h <;> simp

/-- A search points to a node that the comparator takes to be equal to the key. -/
theorem exists_of_search {p : ℕ} (h : search cmp key l = some (some p)) :
    ∃ n, l[p]? = some n ∧ cmp key n.1 = some 0 := by
  simp only [search, bind_eq_bind, bind_eq_some_iff] at h
  obtain ⟨i, -, h⟩ := h
  cases i with
  | zero => simp at h
  | succ i =>
    simp only [bind_eq_some_iff] at h
    obtain ⟨n, hn, c, hc, h⟩ := h
    split at h
    · next hz =>
      cases h
      exact ⟨n, hn, by rw [hc, hz]⟩
    · simp at h

end General

/-! ## Comparators that compare ranks -/

variable [LinearOrder R]

/-- On the keys in `S` the comparator compares the ranks. -/
def Ranked (cmp : K → K → Option ℤ) (rank : K → R) (S : Set K) : Prop :=
  ∀ a ∈ S, ∀ b ∈ S, ∃ z, cmp a b = some z ∧ (z < 0 ↔ rank a < rank b) ∧ (z = 0 ↔ rank a = rank b)

def Sorted (rank : K → R) (l : List (K × V)) : Prop := l.Pairwise fun m n => rank m.1 < rank n.1

/-- The value at a rank. -/
def lookup (rank : K → R) (l : List (K × V)) (r : R) : Option V :=
  (l.find? fun n => rank n.1 = r).map Prod.snd

/-- The nodes before a rank, the node with the rank, and the nodes after it. -/
structure Cut (rank : K → R) (r : R) (l as : List (K × V)) (m : Option (K × V))
    (bs : List (K × V)) : Prop where
  eq : l = as ++ m.toList ++ bs
  lt : ∀ n ∈ as, rank n.1 < r
  mid : ∀ n ∈ m, rank n.1 = r
  gt : ∀ n ∈ bs, r < rank n.1

section Ranks
variable {cmp : K → K → Option ℤ} {rank : K → R} {S : Set K} {key : K} {value : V} {r : R}
  {l as bs : List (K × V)} {m : Option (K × V)}

lemma Sorted.exists_cut (h : Sorted rank l) (r : R) : ∃ as m bs, Cut rank r l as m bs := by
  induction l with
  | nil => exact ⟨[], none, [], by constructor <;> simp⟩
  | cons n l ih =>
    obtain ⟨hn, hl⟩ := pairwise_cons.mp h
    rcases lt_trichotomy (rank n.1) r with hlt | heq | hgt
    · obtain ⟨as, m, bs, rfl, has, hm, hbs⟩ := ih hl
      exact ⟨n :: as, m, bs, rfl, by simpa using ⟨hlt, fun a b => has (a, b)⟩, hm, hbs⟩
    · exact ⟨[], some n, l, rfl, by simp, by simpa using heq, fun b hb => heq ▸ hn b hb⟩
    · refine ⟨[], none, n :: l, rfl, by simp, by simp, fun b hb => ?_⟩
      rcases mem_cons.mp hb with rfl | hb
      · exact hgt
      · exact hgt.trans (hn b hb)

/-- A chain whose nodes are in order on both sides of a rank, with at most one node at it. -/
theorem Sorted.of_cut (hsorted : Sorted rank l) (h : Cut rank r l as m bs) {m' : Option (K × V)}
    (hm : ∀ n ∈ m', rank n.1 = r) : Sorted rank (as ++ m'.toList ++ bs) := by
  rw [h.eq] at hsorted
  have hsub : (as ++ bs).Sublist (as ++ m.toList ++ bs) := by simp
  obtain ⟨has, hbs, hab⟩ := pairwise_append.mp (hsorted.sublist hsub)
  refine pairwise_append.mpr ⟨pairwise_append.mpr ⟨has, ?_, fun x hx y hy => ?_⟩, hbs,
    fun x hx y hy => ?_⟩
  · cases m' <;> simp
  · rw [hm y (by simpa using hy)]
    exact h.lt x hx
  · rcases mem_append.mp hx with hx | hx
    · exact hab x hx y hy
    · rw [hm x (by simpa using hx)]
      exact h.gt y hy

lemma Cut.lookup (h : Cut rank r l as m bs) : lookup rank l r = m.map Prod.snd := by
  have has : as.find? (fun n => rank n.1 = r) = none :=
    find?_eq_none.mpr fun n hn => by simpa using (h.lt n hn).ne
  have hbs : bs.find? (fun n => rank n.1 = r) = none :=
    find?_eq_none.mpr fun n hn => by simpa using (h.gt n hn).ne'
  rw [SortedNodes.lookup, h.eq, find?_append, find?_append, has, hbs]
  cases m with
  | none => simp
  | some n => simp [h.mid n rfl]

lemma Cut.le_of_mem (h : Cut rank r l as m bs) {n : K × V} (hn : n ∈ m.toList ++ bs) :
    r ≤ rank n.1 := by
  rcases mem_append.mp hn with hn | hn
  · exact (h.mid n (by simpa using hn)).ge
  · exact (h.gt n hn).le

/-- At the other ranks the node in the middle does not matter. -/
theorem Cut.lookup_of_ne (h : Cut rank r l as m bs) {m' : Option (K × V)}
    (hm : ∀ n ∈ m', rank n.1 = r) {r' : R} (hr : r' ≠ r) :
    SortedNodes.lookup rank (as ++ m'.toList ++ bs) r' = SortedNodes.lookup rank l r' := by
  have key (x : Option (K × V)) (hx : ∀ n ∈ x, rank n.1 = r) :
      x.toList.find? (fun n => decide (rank n.1 = r')) = none :=
    find?_eq_none.mpr fun n hn => by simpa [hx n (by simpa using hn)] using hr.symm
  rw [SortedNodes.lookup, SortedNodes.lookup, h.eq]
  simp only [find?_append, key m h.mid, key m' hm, or_none]

lemma skip_append {p : K → Option Bool} {as bs : List (K × V)} (has : ∀ n ∈ as, p n.1 = some true)
    (hbs : ∀ n ∈ bs, p n.1 = some false) : skip p (as ++ bs) = some as.length := by
  induction as with
  | nil =>
    cases bs with
    | nil => rfl
    | cons n bs => simp [skip, hbs n (by simp)]
  | cons n as ih =>
    rw [cons_append, skip, has n (by simp), ih fun n hn => has n (by simp [hn])]
    rfl

section Compare
variable (hr : Ranked cmp rank S) (hl : ∀ n ∈ l, n.1 ∈ S) (hkey : key ∈ S)
  (h : Cut rank (rank key) l as m bs)
include hr hl hkey h

/-- The loops stop where the keys are not less, or not less and not equal. -/
theorem Cut.skip_lt : skip (fun k => (cmp k key).map (· < 0)) l = some as.length := by
  have hcmp (n) (hn : n ∈ l) :
      (cmp n.1 key).map (fun z => decide (z < 0)) = some (decide (rank n.1 < rank key)) := by
    obtain ⟨z, hz, hlt, -⟩ := hr n.1 (hl n hn) key hkey
    simp [hz, hlt]
  rw [h.eq, append_assoc] at hcmp ⊢
  refine skip_append (fun n hn => ?_) fun n hn => ?_
  · rw [hcmp n (by simp [hn]), decide_eq_true (h.lt n hn)]
  · rw [hcmp n (mem_append_right _ hn), decide_eq_false (h.le_of_mem hn).not_gt]

lemma Cut.skip_le :
    skip (fun k => (cmp k key).map (· ≤ 0)) l = some (as.length + m.toList.length) := by
  rw [h.eq, ← length_append]
  have hcmp (n) (hn : n ∈ l) :
      (cmp n.1 key).map (fun z => decide (z ≤ 0)) = some (decide (rank n.1 ≤ rank key)) := by
    obtain ⟨z, hz, hlt, heq⟩ := hr n.1 (hl n hn) key hkey
    simp [hz, hlt, heq, le_iff_lt_or_eq]
  rw [h.eq] at hcmp
  refine skip_append (fun n hn => ?_) fun n hn => ?_
  · have hle : rank n.1 ≤ rank key := by
      rcases mem_append.mp hn with hn | hn
      · exact (h.lt n hn).le
      · exact (h.mid n (by simpa using hn)).le
    rw [hcmp n (mem_append_left _ hn), decide_eq_true hle]
  · rw [hcmp n (by simp [hn]), decide_eq_false (h.gt n hn).not_ge]

lemma Cut.search : search cmp key l = some (m.map fun _ => as.length) := by
  rw [SortedNodes.search, h.skip_le hr hl hkey]
  cases m with
  | none =>
    cases hlen : as.length with
    | zero => simp
    | succ i =>
      -- the node before is less than the key
      have hlt : i < as.length := by omega
      have hi : l[i]? = some as[i] := by
        rw [h.eq, append_assoc, getElem?_append_left hlt]
        exact getElem?_eq_getElem hlt
      obtain ⟨z, hz, -, hzero⟩ := hr key hkey _ (hl _ (mem_of_getElem? hi))
      have hne : z ≠ 0 := fun h0 => (h.lt _ (getElem_mem hlt)).ne (hzero.mp h0).symm
      simp [hi, hz, hne]
  | some n =>
    have hn : l[as.length]? = some n := by simp [h.eq]
    obtain ⟨z, hz, -, hzero⟩ := hr key hkey n.1 (hl n (mem_of_getElem? hn))
    simp [hn, hz, hzero.mpr (h.mid n rfl).symm]

lemma Cut.searchHigher :
    searchHigher cmp key l = some (if m.toList ++ bs = [] then none else some as.length) := by
  rw [SortedNodes.searchHigher, h.skip_lt hr hl hkey]
  have hlen : l.length = as.length + (m.toList ++ bs).length := by simp [h.eq]
  by_cases hnil : m.toList ++ bs = []
  · simp [hlen, hnil]
  · have : 0 < (m.toList ++ bs).length := length_pos_iff.mpr hnil
    simp only [bind_eq_bind, bind_some, hlen, if_neg hnil]
    rw [if_pos (by omega)]

lemma Cut.insert (value : V) :
    insert cmp key value l = some (as ++ (((m.map Prod.fst).getD key), value) :: bs) := by
  have hS : ∀ n ∈ as ++ m.toList ++ bs, n.1 ∈ S := fun n hn => hl n (by simpa [h.eq] using hn)
  rw [h.eq]
  have has := h.lt
  have hm := h.mid
  have hbs := h.gt
  clear h hl
  induction as with
  | nil =>
    cases m with
    | some n =>
      obtain ⟨z, hz, hlt, -⟩ := hr n.1 (hS n (by simp)) key hkey
      obtain ⟨z', hz', -, hzero⟩ := hr key hkey n.1 (hS n (by simp))
      have heq : rank n.1 = rank key := hm n rfl
      simp [SortedNodes.insert, hz, hz', hlt, hzero.mpr heq.symm, heq]
    | none =>
      cases bs with
      | nil => rfl
      | cons n bs =>
        obtain ⟨z, hz, hlt, -⟩ := hr n.1 (hS n (by simp)) key hkey
        obtain ⟨z', hz', -, hzero⟩ := hr key hkey n.1 (hS n (by simp))
        have hgt : rank key < rank n.1 := hbs n (by simp)
        simp [SortedNodes.insert, hz, hz', hlt, hzero, hgt.not_gt, hgt.ne]
  | cons n as ih =>
    obtain ⟨z, hz, hlt, -⟩ := hr n.1 (hS n (by simp)) key hkey
    simp only [cons_append, SortedNodes.insert, hz, bind_eq_bind, bind_some,
      hlt.mpr (has n (by simp)), if_true]
    rw [ih (fun k hk => hS k (by simp_all)) fun k hk => has k (by simp [hk])]
    rfl

lemma Cut.delete : delete cmp key l = some (as ++ bs, m.map Prod.snd) := by
  have hS : ∀ n ∈ as ++ m.toList ++ bs, n.1 ∈ S := fun n hn => hl n (by simpa [h.eq] using hn)
  rw [h.eq]
  have has := h.lt
  have hm := h.mid
  have hbs := h.gt
  clear h hl
  induction as with
  | nil =>
    cases m with
    | some n =>
      obtain ⟨z, hz, hlt, hzero⟩ := hr n.1 (hS n (by simp)) key hkey
      have heq : rank n.1 = rank key := hm n rfl
      simp [SortedNodes.delete, hz, hzero.mpr heq]
    | none =>
      cases bs with
      | nil => rfl
      | cons n bs =>
        obtain ⟨z, hz, hlt, hzero⟩ := hr n.1 (hS n (by simp)) key hkey
        have hgt : rank key < rank n.1 := hbs n (by simp)
        simp [SortedNodes.delete, hz, hlt, hzero, hgt.not_gt, hgt.ne']
  | cons n as ih =>
    obtain ⟨z, hz, hlt, -⟩ := hr n.1 (hS n (by simp)) key hkey
    simp only [cons_append, SortedNodes.delete, hz, bind_eq_bind, bind_some,
      hlt.mpr (has n (by simp)), if_true]
    rw [ih (fun k hk => hS k (by simp_all)) fun k hk => has k (by simp [hk])]
    rfl

end Compare
end Ranks
end SortedNodes
