import Acton.ToMathlib.SortedNodes
import Acton.ToMathlib.Trace
import Mathlib

/-!
# Merging vector clocks

The array of a vector clock: the components in the order of their node ids, and the capacity.
`updateVc_correct`: `update_vc` computes the pointwise maximum and keeps the array sorted, if and
only if the scan for a component never runs to the end of an array that is full, and no component
that is added has a counter of `2 ^ 31` or more. In the first case the scan reads the node after the
last one, outside of the array, before it compares the index; in the second the counter is cut to
the `int` that `add_component_vc` takes.
-/

namespace Acton.Backend
open SortedNodes Function Trace
open Option hiding guard

/-! ## The array -/

/-- The first nodes of the array, with a counter each. There is room for `capacity` nodes. -/
structure VcArray where
  nodeIds : List (ℤ × ℤ)
  capacity : ℕ
  deriving DecidableEq, Repr

/-- The loop of `BINARY_SEARCH_NODEID`. The result is the index of the node, or of the last node
with a smaller id, and whether the id was found. -/
def binarySearchNodeid (l : List (ℤ × ℤ)) (nodeId : ℤ) : ℕ → ℤ → ℤ → ℤ → Option (ℤ × Bool)
  | 0, _, _, _ => none
  | fuel + 1, first, last, foundIdx =>
    if first ≤ last then do
      let middle := (first + last) / 2
      let n ← l[middle.toNat]?
      if n.1 = nodeId then some (middle, true)
      else if n.1 < nodeId then binarySearchNodeid l nodeId fuel (middle + 1) last middle
      else binarySearchNodeid l nodeId fuel first (middle - 1) foundIdx
    else some (foundIdx, false)

namespace VcArray

/-- The search starts with the whole array. Each round leaves out a node. -/
def search (vc : VcArray) (nodeId : ℤ) : Option (ℤ × Bool) :=
  binarySearchNodeid vc.nodeIds nodeId (vc.nodeIds.length + 1) 0 (vc.nodeIds.length - 1) (-1)

def growVc (vc : VcArray) : VcArray := { vc with capacity := vc.nodeIds.length * 2 }

/-- Add a component. The counter is an `int`. -/
def addComponentVc (vc : VcArray) (nodeId initialCounter : ℤ) : Option (VcArray × ℤ) := do
  let (foundIdx, exactMatch) ← vc.search nodeId
  if exactMatch then some (vc, -1)
  else
    let vc := if vc.nodeIds.length = vc.capacity then vc.growVc else vc
    -- the nodes after the place are moved up
    guard (vc.nodeIds.length < vc.capacity)
    let p := (foundIdx + 1).toNat
    let counter := if 0 < initialCounter then initialCounter else 0
    some ({ vc with nodeIds := vc.nodeIds.take p ++ (nodeId, counter) :: vc.nodeIds.drop p }, 0)

/-- The first index whose node id is not less. The node is read before the index is compared with
the number of nodes. -/
def scan (capacity : ℕ) (nodeId : ℤ) : List (ℤ × ℤ) → ℕ → Option ℕ
  | [], i => if i < capacity then some i else none
  | n :: l, i => if n.1 < nodeId then scan capacity nodeId l (i + 1) else some i

/-- One round of the loop of `update_vc`, for one component of the source. -/
def updateComponent (vc : VcArray) (c : ℤ × ℤ) : Option VcArray := do
  let p ← scan vc.capacity c.1 vc.nodeIds 0
  match vc.nodeIds[p]?.filter (·.1 = c.1) with
  | some n => some (if n.2 < c.2 then { vc with nodeIds := vc.nodeIds.set p (n.1, c.2) } else vc)
  | none =>
    let (vc, status) ← vc.addComponentVc c.1 (c.2.bmod (2 ^ 32))
    guard (status = 0)
    some vc

def updateVc (dest src : VcArray) : Option VcArray := Trace.run updateComponent dest src.nodeIds

/-! ## What a clock stands for -/

/-- The ids are sorted and unique, the counters are not negative, and the nodes are in the array. -/
structure WellFormed (vc : VcArray) : Prop where
  sorted : Sorted id vc.nodeIds
  counter : ∀ n ∈ vc.nodeIds, 0 ≤ n.2 ∧ n.2 < 2 ^ 63
  length : vc.nodeIds.length ≤ vc.capacity
  pos : 0 < vc.capacity

/-- The counter of a node, if it has one. -/
def component (vc : VcArray) (nodeId : ℤ) : WithBot ℤ :=
  (lookup id vc.nodeIds nodeId).elim ⊥ (fun c => (c : WithBot ℤ))

/-- The scan for the node does not run to the end of an array that is full. -/
def Fits (vc : VcArray) (c : ℤ × ℤ) : Prop :=
  vc.nodeIds.length < vc.capacity ∨ ∃ n ∈ vc.nodeIds, c.1 ≤ n.1

/-! ## The binary search -/

variable {vc : VcArray}
section Search
variable {l as bs : List (ℤ × ℤ)} {m : Option (ℤ × ℤ)} {nodeId : ℤ}

/-- The invariant of the loop: nodes before `first` are smaller, nodes after `last` are greater, and
the index is that of the node before `first`. -/
theorem binarySearchNodeid_spec (h : Cut id nodeId l as m bs) {fuel : ℕ} {first last : ℤ}
    (hfuel : last + 1 - first < fuel) (h0 : 0 ≤ first) (h1 : first ≤ as.length)
    (h2 : as.length + m.toList.length ≤ last + 1) (h3 : last < l.length) :
    binarySearchNodeid l nodeId fuel first last (first - 1) =
      some (if m.isSome then ((as.length : ℤ), true) else ((as.length : ℤ) - 1, false)) := by
  induction fuel generalizing first last with
  | zero => omega
  | succ fuel ih =>
    rw [binarySearchNodeid]
    split
    · next hle =>
      have hlen : l.length = as.length + m.toList.length + bs.length := by rw [h.eq]; simp; omega
      obtain ⟨k, hk⟩ : ∃ k : ℕ, (first + last) / 2 = k := ⟨((first + last) / 2).toNat, by omega⟩
      simp only [hk, Int.toNat_natCast]
      rcases lt_or_ge k as.length with hlt | hge
      · -- the middle is before the place
        have hget : l[k]? = some as[k] := by
          rw [h.eq, List.append_assoc, List.getElem?_append_left hlt, List.getElem?_eq_getElem hlt]
        have hid : as[k].1 < nodeId := h.lt _ (List.getElem_mem hlt)
        simp only [hget, bind_eq_bind, bind_some, if_neg hid.ne, if_pos hid]
        have := @ih (k + 1) last (by omega) (by omega) (by omega) h2 h3
        rwa [Int.add_sub_cancel] at this
      · rcases lt_or_ge k (as.length + m.toList.length) with hlt' | hge'
        · cases m with
          | none =>
            simp only [toList_none, List.length_nil] at hlt'
            omega
          | some n =>
            have hk' : k = as.length := by
              simp only [toList_some, List.length_singleton] at hlt'
              omega
            have hget : l[k]? = some n := by rw [h.eq, hk']; simp
            have hid : n.1 = nodeId := h.mid n rfl
            simp only [hget, bind_eq_bind, bind_some, if_pos hid, isSome_some, if_true]
            rw [hk']
        · -- the middle is after the place
          obtain ⟨j, hj⟩ : ∃ j, k = as.length + m.toList.length + j :=
            ⟨_, (Nat.add_sub_cancel' hge').symm⟩
          have hjlt : j < bs.length := by omega
          have hget : l[k]? = some bs[j] := by
            rw [h.eq, List.getElem?_append_right (by simp; omega)]
            simp only [List.length_append, hj, Nat.add_sub_cancel_left]
            rw [List.getElem?_eq_getElem hjlt]
          have hid : nodeId < bs[j].1 := h.gt _ (List.getElem_mem hjlt)
          simp only [hget, bind_eq_bind, bind_some, if_neg hid.ne', if_neg hid.le.not_gt]
          exact ih (by omega) h0 h1 (by omega) (by omega)
    · next hgt =>
      cases m with
      | none =>
        simp only [toList_none, List.length_nil] at h2
        simp only [isSome_none, Bool.false_eq_true, if_false, Option.some.injEq,
          Prod.mk.injEq, and_true]
        omega
      | some n =>
        simp only [toList_some, List.length_singleton] at h2
        omega

lemma search_eq (h : Cut id nodeId vc.nodeIds as m bs) : vc.search nodeId =
      some (if m.isSome then ((as.length : ℤ), true) else ((as.length : ℤ) - 1, false)) := by
  have hlen : vc.nodeIds.length = as.length + m.toList.length + bs.length := by
    rw [h.eq]; simp; omega
  exact binarySearchNodeid_spec h (by omega) (le_refl 0) (by omega) (by omega) (by omega)

end Search

/-! ## One component -/

section Update
variable {vc : VcArray} {as bs : List (ℤ × ℤ)} {m : Option (ℤ × ℤ)} {nodeId : ℤ} {c : ℤ × ℤ}

lemma component_eq (h : Cut id nodeId vc.nodeIds as m bs) :
    vc.component nodeId = m.elim ⊥ (fun n => (n.2 : WithBot ℤ)) := by
  have hlookup : lookup id vc.nodeIds nodeId = m.map Prod.snd := h.lookup
  rw [component, hlookup]
  cases m <;> rfl

/-- A node in the middle of a cut keeps the array sorted and changes one component. -/
theorem WellFormed.of_cut (hvc : vc.WellFormed) (h : Cut id nodeId vc.nodeIds as m bs) {counter : ℤ}
    {vc' : VcArray} (hcounter : 0 ≤ counter ∧ counter < 2 ^ 63) (heq : vc'.nodeIds =
      as ++ (nodeId, counter) :: bs) (hlen : vc'.nodeIds.length ≤ vc'.capacity) :
    vc'.WellFormed ∧ vc'.component = Function.update vc.component nodeId (counter : WithBot ℤ) := by
  have hm : ∀ n ∈ some (nodeId, counter), id n.1 = nodeId := by simp
  have heq' : vc'.nodeIds = as ++ (some (nodeId, counter)).toList ++ bs := by simpa using heq
  refine ⟨⟨heq' ▸ hvc.sorted.of_cut h hm, fun n hn => ?_, hlen, ?_⟩, funext fun i => ?_⟩
  · rw [heq] at hn
    have hmem : ∀ n ∈ as ++ bs, n ∈ vc.nodeIds := by
      intro n hn
      rw [h.eq]
      rcases List.mem_append.mp hn with hn | hn <;> simp [hn]
    rcases List.mem_append.mp hn with hn | hn
    · exact hvc.counter n (hmem n (by simp [hn]))
    · rcases List.mem_cons.mp hn with rfl | hn
      · exact hcounter
      · exact hvc.counter n (hmem n (by simp [hn]))
  · refine lt_of_lt_of_le ?_ hlen
    rw [heq, List.length_append, List.length_cons]
    omega
  · by_cases hi : i = nodeId
    · subst hi
      have hcut : Cut id i vc'.nodeIds as (some (i, counter)) bs := ⟨heq', h.lt, hm, h.gt⟩
      rw [component_eq hcut, update_self]
      rfl
    · rw [update_of_ne hi, component, component, heq', h.lookup_of_ne hm hi]

lemma scan_eq (h : Cut id nodeId vc.nodeIds as m bs) : scan vc.capacity nodeId vc.nodeIds 0 =
      if m.toList ++ bs = [] ∧ ¬ vc.nodeIds.length < vc.capacity then none else some as.length := by
  -- the nodes before the place are passed over
  have hskip : ∀ (l : List (ℤ × ℤ)) (i : ℕ), (∀ n ∈ l, n.1 < nodeId) →
      scan vc.capacity nodeId (l ++ (m.toList ++ bs)) i =
        scan vc.capacity nodeId (m.toList ++ bs) (i + l.length) := by
    intro l
    induction l with
    | nil => intro i _; rfl
    | cons n l ih =>
      intro i hl
      rw [List.cons_append, scan, if_pos (hl n (by simp)),
        ih (i + 1) fun n hn => hl n (by simp [hn])]
      congr 1
      simp only [List.length_cons]
      omega
  rw [h.eq, List.append_assoc, hskip as 0 h.lt, Nat.zero_add]
  cases hrest : m.toList ++ bs with
  | nil => by_cases hlt : as.length < vc.capacity <;> simp [scan, hlt]
  | cons n l =>
    have hle : ¬ n.1 < nodeId := not_lt.mpr (h.le_of_mem (n := n) (by rw [hrest]; simp))
    simp [scan, hle]

lemma fits_iff (h : Cut id c.1 vc.nodeIds as m bs) :
    vc.Fits c ↔ ¬ (m.toList ++ bs = [] ∧ ¬ vc.nodeIds.length < vc.capacity) := by
  have hex : (∃ n ∈ vc.nodeIds, c.1 ≤ n.1) ↔ m.toList ++ bs ≠ [] := by
    constructor
    · rintro ⟨n, hn, hle⟩ hnil
      rw [h.eq, List.append_assoc, hnil, List.append_nil] at hn
      exact absurd (h.lt n hn) hle.not_gt
    · intro hne
      obtain ⟨n, hn⟩ := List.exists_mem_of_ne_nil _ hne
      exact ⟨n, by rw [h.eq, List.append_assoc]; simp [hn], h.le_of_mem hn⟩
  rw [Fits, hex]
  tauto

/-- The counter that a new component gets. -/
def store (counter : ℤ) : ℤ :=
  if 0 < counter.bmod (2 ^ 32) then counter.bmod (2 ^ 32) else 0

lemma store_mem (counter : ℤ) : 0 ≤ store counter ∧ store counter < 2 ^ 63 := by
  have := Int.bmod_lt (x := counter) (m := 2 ^ 32) (by decide)
  rw [store]
  split <;> omega

lemma store_eq_iff {counter : ℤ} (h : 0 ≤ counter) :
    store counter = counter ↔ counter < 2 ^ 31 := by
  rw [store]
  constructor
  · have := Int.bmod_lt (x := counter) (m := 2 ^ 32) (by decide)
    split <;> omega
  · intro hlt
    rw [Int.bmod_eq_of_le (by omega) (by omega)]
    split <;> omega

/-- The maximum, if there is a counter. -/
def merged (x : WithBot ℤ) (counter : ℤ) : WithBot ℤ := if x = ⊥ then store counter else x ⊔ counter

/-- A component that is missing is put into its place. The array grows if it is full. -/
theorem WellFormed.addComponentVc (hvc : vc.WellFormed) (h : Cut id nodeId vc.nodeIds as none bs)
    (counter : ℤ) :
    ∃ vc', vc.addComponentVc nodeId counter = some (vc', 0) ∧
      vc'.nodeIds = as ++ (nodeId, if 0 < counter then counter else 0) :: bs ∧
      vc'.nodeIds.length ≤ vc'.capacity := by
  have hp : (((as.length : ℤ) - 1 + 1)).toNat = as.length := by omega
  have htake : vc.nodeIds.take as.length = as := by rw [h.eq]; simp
  have hdrop : vc.nodeIds.drop as.length = bs := by rw [h.eq]; simp
  have hlen : vc.nodeIds.length = as.length + bs.length := by rw [h.eq]; simp
  have hle := hvc.length
  have hpos := hvc.pos
  set grown := if vc.nodeIds.length = vc.capacity then vc.growVc else vc with hgrown
  have hnodes : grown.nodeIds = vc.nodeIds := by rw [hgrown]; split <;> rfl
  have hroom : vc.nodeIds.length < grown.capacity := by
    rw [hgrown]
    split
    · simp only [growVc]
      omega
    · omega
  refine ⟨{ grown with nodeIds := as ++ (nodeId, if 0 < counter then counter else 0) :: bs }, ?_,
    rfl, ?_⟩
  · simp only [VcArray.addComponentVc, search_eq h, isSome_none, Bool.false_eq_true, if_false,
      bind_eq_bind, bind_some, hp, ← hgrown, hnodes, htake, hdrop, guard, if_pos hroom,
      pure_def]
  · simp only [List.length_append, List.length_cons]
    omega

lemma updateComponent_eq_none (hvc : vc.WellFormed) (h : ¬ vc.Fits c) :
    vc.updateComponent c = none := by
  obtain ⟨as, m, bs, hcut⟩ := hvc.sorted.exists_cut c.1
  rw [updateComponent, scan_eq hcut, if_pos (not_not.mp (mt (fits_iff hcut).mpr h))]
  rfl

lemma WellFormed.updateComponent (hvc : vc.WellFormed) (hc : 0 ≤ c.2 ∧ c.2 < 2 ^ 63)
    (hfits : vc.Fits c) :
    ∃ vc', vc.updateComponent c = some vc' ∧ vc'.WellFormed ∧
      vc'.component = Function.update vc.component c.1 (merged (vc.component c.1) c.2) := by
  obtain ⟨as, m, bs, hcut⟩ := hvc.sorted.exists_cut c.1
  have hscan := scan_eq hcut
  rw [if_neg ((fits_iff hcut).mp hfits)] at hscan
  rw [component_eq hcut]
  simp only [VcArray.updateComponent, hscan, bind_eq_bind, bind_some]
  cases m with
  | some n =>
    have hid : n.1 = c.1 := hcut.mid n rfl
    have hget : vc.nodeIds[as.length]? = some n := by rw [hcut.eq]; simp
    simp only [hget, filter_some, hid, decide_true, if_true, elim_some]
    have hbot : merged (n.2 : WithBot ℤ) c.2 = ((max n.2 c.2 : ℤ) : WithBot ℤ) := by
      rw [merged, if_neg WithBot.coe_ne_bot, WithBot.coe_max]
    rw [hbot]
    split
    · next hlt =>
      rw [max_eq_right hlt.le]
      have hset : vc.nodeIds.set as.length (c.1, c.2) = as ++ (c.1, c.2) :: bs := by
        rw [hcut.eq]; simp
      exact ⟨_, rfl, hvc.of_cut hcut hc hset (by simpa using hvc.length)⟩
    · next hge =>
      refine ⟨vc, rfl, hvc, ?_⟩
      have hself : vc.component c.1 = (n.2 : WithBot ℤ) := component_eq hcut
      rw [max_eq_left (not_lt.mp hge), ← hself, update_eq_self]
  | none =>
    -- the node after the place has another id
    have hfilter : vc.nodeIds[as.length]?.filter (·.1 = c.1) = none := by
      rw [hcut.eq]
      cases bs with
      | nil => simp
      | cons n bs =>
        have hgt : c.1 < n.1 := hcut.gt n (by simp)
        simp [hgt.ne']
    obtain ⟨vc', hvc', heq, hlen'⟩ := hvc.addComponentVc hcut (c.2.bmod (2 ^ 32))
    simp only [hfilter, hvc', bind_some, elim_none, merged, if_true, guard, pure_def]
    exact ⟨vc', rfl, hvc.of_cut hcut (store_mem c.2) heq hlen'⟩

end Update

/-! ## The merge -/

/-- The counters after the components were merged. -/
def mergeAll (f : ℤ → WithBot ℤ) (l : List (ℤ × ℤ)) : ℤ → WithBot ℤ :=
  l.foldl (fun f c => Function.update f c.1 (merged (f c.1) c.2)) f

variable {l : List (ℤ × ℤ)}

/-- Each id occurs once, so each counter is merged once. -/
theorem mergeAll_apply (h : Sorted id l) (f : ℤ → WithBot ℤ) (i : ℤ) :
    mergeAll f l i = (lookup id l i).elim (f i) (merged (f i)) := by
  induction l generalizing f with
  | nil => rfl
  | cons c l ih =>
    obtain ⟨hc, hl⟩ := List.pairwise_cons.mp h
    rw [mergeAll, List.foldl_cons, ← mergeAll, ih hl]
    by_cases hi : c.1 = i
    · subst hi
      -- the id does not occur again
      have hnone : lookup id l c.1 = none := by
        rw [lookup, List.find?_eq_none.mpr, map_none]
        exact fun n hn => by simpa using (hc n hn).ne'
      rw [hnone]
      simp [lookup]
    · have hcons : lookup id (c :: l) i = lookup id l i := by simp [lookup, hi]
      rw [hcons, update_of_ne (Ne.symm hi)]

lemma run_updateComponent (hvc : vc.WellFormed) (hl : ∀ c ∈ l, 0 ≤ c.2 ∧ c.2 < 2 ^ 63)
    (hfits : Trace.Guarded updateComponent Fits vc l) :
    ∃ vc', Trace.run updateComponent vc l = some vc' ∧ vc'.WellFormed ∧
      vc'.component = mergeAll vc.component l := by
  induction l generalizing vc with
  | nil => exact ⟨vc, rfl, hvc, rfl⟩
  | cons c l ih =>
    obtain ⟨vc1, hvc1, hwf, hcomp⟩ := hvc.updateComponent (hl c (by simp)) hfits.head
    obtain ⟨vc', hrun, hwf', hcomp'⟩ := ih hwf (fun c hc => hl c (by simp [hc])) (hfits.tail hvc1)
    exact ⟨vc', run_cons_eq_some.mpr ⟨vc1, hvc1, hrun⟩, hwf', by rw [hcomp', hcomp]; rfl⟩

lemma guarded_of_run {vc vc' : VcArray} (hvc : vc.WellFormed)
    (hl : ∀ c ∈ l, 0 ≤ c.2 ∧ c.2 < 2 ^ 63) (hrun : Trace.run updateComponent vc l = some vc') :
    Trace.Guarded updateComponent Fits vc l := by
  induction l generalizing vc with
  | nil => exact guarded_nil
  | cons c l ih =>
    obtain ⟨vc1, hvc1, hrun⟩ := run_cons_eq_some.mp hrun
    have hfits : vc.Fits c := by
      by_contra hnot
      rw [updateComponent_eq_none hvc hnot] at hvc1
      cases hvc1
    refine guarded_cons.mpr ⟨hfits, fun vc2 hvc2 => ?_⟩
    rw [hvc1] at hvc2
    cases hvc2
    obtain ⟨vc2, hvc2, hwf, -⟩ := hvc.updateComponent (hl c (by simp)) hfits
    rw [hvc1] at hvc2
    cases hvc2
    exact ih hwf (fun c hc => hl c (by simp [hc])) hrun

lemma lookup_eq_some_iff (h : Sorted id l) {i c : ℤ} : lookup id l i = some c ↔ (i, c) ∈ l := by
  obtain ⟨as, m, bs, hcut⟩ := h.exists_cut i
  have hlookup : lookup id l i = m.map Prod.snd := hcut.lookup
  rw [hlookup, map_eq_some_iff]
  constructor
  · rintro ⟨n, rfl, rfl⟩
    have hid : n.1 = i := hcut.mid n rfl
    rw [hcut.eq, ← hid]
    simp
  · intro hmem
    rw [hcut.eq, List.append_assoc] at hmem
    rcases List.mem_append.mp hmem with hmem | hmem
    · exact absurd (hcut.lt _ hmem) (lt_irrefl i)
    · rcases List.mem_append.mp hmem with hmem | hmem
      · exact ⟨_, by simpa using hmem, rfl⟩
      · exact absurd (hcut.gt _ hmem) (lt_irrefl i)

/-- The components that are merged have the maximum as their counter, unless one is cut. -/
theorem mergeAll_eq_sup_iff (a : VcArray) {b : VcArray} (hb : b.WellFormed) :
    mergeAll a.component b.nodeIds = a.component ⊔ b.component ↔
      ∀ c ∈ b.nodeIds, a.component c.1 = ⊥ → c.2 < 2 ^ 31 := by
  have key (i : ℤ) : mergeAll a.component b.nodeIds i = (a.component ⊔ b.component) i ↔
      ∀ c, (i, c) ∈ b.nodeIds → a.component i = ⊥ → c < 2 ^ 31 := by
    rw [mergeAll_apply hb.sorted, Pi.sup_apply]
    simp only [component, ← lookup_eq_some_iff hb.sorted]
    cases hlookup : lookup id b.nodeIds i with
    | none => simp
    | some c =>
      have hc := hb.counter (i, c) ((lookup_eq_some_iff hb.sorted).mp hlookup)
      simp only [elim_some, Option.some.injEq, forall_eq', merged]
      split
      · next hbot =>
        rw [hbot, bot_sup_eq, WithBot.coe_inj, store_eq_iff hc.1]
        simp
      · next hbot => simp [hbot]
  rw [funext_iff]
  constructor
  · intro h c hc
    exact (key c.1).mp (h c.1) c.2 hc
  · intro h i
    exact (key i).mpr fun c hc => h (i, c) hc

/-- The merge of two clocks is their pointwise maximum. -/
def Merges (a b ab : VcArray) : Prop :=
  updateVc a b = some ab ∧ ab.WellFormed ∧ ab.component = a.component ⊔ b.component

lemma merges_iff {a b : VcArray} (ha : a.WellFormed) (hb : b.WellFormed) :
    (∃ ab, Merges a b ab) ↔ Trace.Guarded updateComponent Fits a b.nodeIds ∧
      ∀ c ∈ b.nodeIds, a.component c.1 = ⊥ → c.2 < 2 ^ 31 := by
  have hcomp := mergeAll_eq_sup_iff a hb
  constructor
  · rintro ⟨ab, hrun, -, heq⟩
    have hguard := guarded_of_run ha hb.counter hrun
    obtain ⟨ab', hrun', -, heq'⟩ := run_updateComponent ha hb.counter hguard
    rw [updateVc, hrun'] at hrun
    cases hrun
    exact ⟨hguard, hcomp.mp (heq'.symm.trans heq)⟩
  · rintro ⟨hguard, hnarrow⟩
    obtain ⟨ab, hrun, hwf, heq⟩ := run_updateComponent ha hb.counter hguard
    exact ⟨ab, hrun, hwf, heq.trans (hcomp.mpr hnarrow)⟩

lemma fits_of_component_ne_bot (hvc : vc.WellFormed) {c : ℤ × ℤ} (h : vc.component c.1 ≠ ⊥) :
    vc.Fits c := by
  obtain ⟨as, m, bs, hcut⟩ := hvc.sorted.exists_cut c.1
  rw [component_eq hcut] at h
  cases m with
  | none => exact absurd rfl h
  | some n => exact (fits_iff hcut).mpr (by simp)

lemma guarded_of_component_ne_bot (hvc : vc.WellFormed)
    (hl : ∀ c ∈ l, (0 ≤ c.2 ∧ c.2 < 2 ^ 63) ∧ vc.component c.1 ≠ ⊥) :
    Trace.Guarded updateComponent Fits vc l := by
  induction l generalizing vc with
  | nil => exact guarded_nil
  | cons c l ih =>
    obtain ⟨hc, hne⟩ := hl c (by simp)
    have hfits := fits_of_component_ne_bot hvc hne
    refine guarded_cons.mpr ⟨hfits, fun vc1 hvc1 => ?_⟩
    obtain ⟨vc2, hvc2, hwf, hcomp⟩ := hvc.updateComponent hc hfits
    rw [hvc1] at hvc2
    cases hvc2
    refine ih hwf fun n hn => ⟨(hl n (by simp [hn])).1, ?_⟩
    rw [hcomp]
    by_cases hid : n.1 = c.1
    · rw [hid, update_self, merged, if_neg hne]
      exact fun hbot => hne (sup_eq_bot_iff.mp hbot).1
    · rw [update_of_ne hid]
      exact (hl n (by simp [hn])).2

lemma merges_self {a : VcArray} (ha : a.WellFormed) : ∃ aa, Merges a a aa := by
  have hne : ∀ c ∈ a.nodeIds, a.component c.1 ≠ ⊥ := by
    intro c hc
    rw [component, (lookup_eq_some_iff ha.sorted).mpr hc]
    exact WithBot.coe_ne_bot
  refine (merges_iff ha ha).mpr ⟨?_, fun c hc hbot => absurd hbot (hne c hc)⟩
  exact guarded_of_component_ne_bot ha fun c hc => ⟨ha.counter c hc, hne c hc⟩

/-- `updateVc` merges two clocks if and only if no scan runs to the end of a full array and no
counter is cut. A merge is an upper bound, and the result is the same in both orders and for both
groupings of three clocks. A clock merged with itself stays as it is. -/
theorem updateVc_correct {a b : VcArray} (ha : a.WellFormed) (hb : b.WellFormed) :
    ((∃ ab, Merges a b ab) ↔ Trace.Guarded updateComponent Fits a b.nodeIds ∧
      ∀ n ∈ b.nodeIds, a.component n.1 = ⊥ → n.2 < 2 ^ 31) ∧
    (∃ aa, Merges a a aa ∧ aa.component = a.component) ∧
    (∀ ab, Merges a b ab → a.component ≤ ab.component ∧ b.component ≤ ab.component) ∧
    (∀ ab ba, Merges a b ab → Merges b a ba → ab.component = ba.component) ∧
    ∀ c ab bc abc abc', Merges a b ab → Merges b c bc → Merges ab c abc → Merges a bc abc' →
      abc.component = abc'.component := by
  refine ⟨merges_iff ha hb, ?_, ?_, ?_, ?_⟩
  · obtain ⟨aa, haa⟩ := merges_self ha
    exact ⟨aa, haa, haa.2.2.trans (sup_idem _)⟩
  · rintro ab ⟨-, -, hab⟩
    rw [hab]
    exact ⟨le_sup_left, le_sup_right⟩
  · rintro ab ba ⟨-, -, hab⟩ ⟨-, -, hba⟩
    rw [hab, hba, sup_comm]
  · rintro c ab bc abc abc' ⟨-, -, hab⟩ ⟨-, -, hbc⟩ ⟨-, -, habc⟩ ⟨-, -, habc'⟩
    rw [habc, habc', hab, hbc, sup_assoc]

lemma WellFormed.singleton (nodeId : ℤ) {counter : ℤ} (h : 0 ≤ counter ∧ counter < 2 ^ 63) :
    (VcArray.mk [(nodeId, counter)] 1).WellFormed :=
  ⟨List.pairwise_singleton _ _, by simpa using h, le_refl _, Nat.one_pos⟩

/-- A component with a smaller id is added in front of a full array, which grows. -/
theorem updateVc_correct_grow :
    ∃ ab, Merges ⟨[(2, 5)], 1⟩ ⟨[(1, 7)], 1⟩ ab ∧ ab.nodeIds = [(1, 7), (2, 5)] := by
  have ha : (VcArray.mk [(2, 5)] 1).WellFormed := .singleton 2 (by decide)
  have hb : (VcArray.mk [(1, 7)] 1).WellFormed := .singleton 1 (by decide)
  obtain ⟨ab, hab⟩ := (updateVc_correct ha hb).1.mpr
    ⟨guarded_cons.mpr ⟨Or.inr ⟨(2, 5), by simp, by decide⟩, fun _ _ => guarded_nil⟩,
      by simp⟩
  refine ⟨ab, hab, ?_⟩
  have hrun : updateVc ⟨[(2, 5)], 1⟩ ⟨[(1, 7)], 1⟩ = some ⟨[(1, 7), (2, 5)], 2⟩ := by decide
  rw [hab.1] at hrun
  cases hrun
  rfl

/-- A counter of `2 ^ 31` that is new to the clock gets lost. The scan for an id that is greater
than all ids of a full array reads the node after the last one. -/
theorem updateVc_diverges : updateVc ⟨[], 16⟩ ⟨[(1, 2 ^ 31)], 16⟩ = some ⟨[(1, 0)], 16⟩ ∧
    updateVc ⟨[(1, 1)], 1⟩ ⟨[(2, 1)], 1⟩ = none := by
  decide

end VcArray
end Acton.Backend
