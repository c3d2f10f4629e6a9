import Acton.Builtin.Set.Correctness

/-!
# Searches in sets stop

The code never looks at the object that `__eq__` returns, so a set is a set of hashes: it has the
invariant for the equality of hashes (`Hashable.byHash`), whatever the elements are. As long as no
hash is negative as a `long`, all searches come to a free slot.
-/

namespace Acton.Builtin
open List Option
variable {K : Type} [DecidableEq K] {hw : Hashable K}

/-- Elements with the same hash are equal. -/
def Hashable.byHash {K : Type} (hw : Hashable K) : Hashable K where
  eq a b := hw.hash a = hw.hash b
  hash := hw.hash
  eq_refl _ := decide_eq_true rfl
  eq_symm h := decide_eq_true (of_decide_eq_true h).symm
  eq_trans h h' := decide_eq_true ((of_decide_eq_true h).trans (of_decide_eq_true h'))
  hash_eq h := of_decide_eq_true h

/-- The hash of an element is not negative as a `long`. -/
def Hashable.NonNeg {K : Type} (hw : Hashable K) (k : K) : Prop := (hw.hash k).toNat < 2 ^ 63

lemma goodKeys_byHash {K : Type} (hw : Hashable K) : GoodKeys hw.byHash hw.NonNeg :=
  ⟨fun h => h, fun _ _ h => decide_eq_true h⟩

/-- Additions, removals of an element, and removals of any element. -/
def SetOp.Basic : SetOp K → Prop
  | .add _ _ | .discard _ _ | .pop _ => True
  | _ => False

/-- The operation does not depend on the equality of the elements, and keeps the invariant. -/
theorem SetInv.exists_run {σ : SetHeap K} (h : ∀ x, SetInv hw.byHash hw.NonNeg (σ x))
    (hmax : ∀ x, (σ x).numelements + 1 < 2 ^ 29) {op : SetOp K} (hop : op.Basic)
    (helems : ∀ k ∈ op.elems, hw.NonNeg k) :
    ∃ r σ', op.run hw σ = some (r, σ') ∧ ∀ x, SetInv hw.byHash hw.NonNeg (σ' x) := by
  have hgood := goodKeys_byHash hw
  have hput {x : ℕ} {s : BSet K} (hs : SetInv hw.byHash hw.NonNeg s) (y : ℕ) :
      SetInv hw.byHash hw.NonNeg (Function.update σ x s y) := by
    rw [Function.update_apply]
    split_ifs
    · exact hs
    · exact h y
  cases op with
  | add x k =>
    have hk := helems k mem_cons_self
    obtain ⟨s, hadd, hs, -⟩ := (h x).exists_addEntry hgood hk fun _ => hmax x
    refine ⟨.unit, Function.update σ x s, ?_, hput hs⟩
    change ((σ x).add hw.byHash k).map _ = _
    rw [BSet.add, toLong_eq (hgood.lt hk)]
    rw [hadd]
    rfl
  | discard x k =>
    have hk := helems k mem_cons_self
    obtain ⟨b, s, hdiscard, hs, -⟩ := (h x).exists_discardEntry hgood hk
    refine ⟨.unit, Function.update σ x s, ?_, hput hs⟩
    change ((σ x).discard hw.byHash k).map _ = _
    rw [BSet.discard, toLong_eq (hgood.lt hk)]
    rw [hdiscard]
    rfl
  | pop x =>
    obtain ⟨r, s, hpop, hs, -⟩ := (h x).exists_pop
    rw [SetOp.run, hpop]
    cases r <;> exact ⟨_, _, rfl, hput hs⟩
  | _ => exact hop.elim

lemma SetInv.exists_runSet {σ : SetHeap K} (h : ∀ x, SetInv hw.byHash hw.NonNeg (σ x))
    (ops : List (SetOp K)) (hops : ∀ op ∈ ops, op.Basic)
    (helems : ∀ op ∈ ops, ∀ k ∈ op.elems, hw.NonNeg k)
    (hmax : ∀ pre rs σ', pre <+: ops → runSet hw σ pre = some (rs, σ') →
      ∀ x, (σ' x).numelements + 1 < 2 ^ 29) :
    ∃ rs σ', runSet hw σ ops = some (rs, σ') ∧ ∀ x, SetInv hw.byHash hw.NonNeg (σ' x) := by
  induction ops generalizing σ with
  | nil => exact ⟨[], σ, rfl, h⟩
  | cons op ops ih =>
    obtain ⟨r, σ1, hrun, h1⟩ := SetInv.exists_run h (hmax [] [] σ nil_prefix rfl)
      (hops op mem_cons_self) (helems op mem_cons_self)
    obtain ⟨rs, σ2, hrun2, h2⟩ := ih h1 (fun op' h' => hops op' (mem_cons_of_mem op h'))
      (fun op' h' => helems op' (mem_cons_of_mem op h')) fun pre rs σ' hpre hrun' =>
        hmax (op :: pre) (r :: rs) σ' (cons_prefix_cons.mpr ⟨rfl, hpre⟩) (by
          simp only [runSet, hrun, hrun', bind_eq_bind, bind_some])
    refine ⟨r :: rs, σ2, ?_, h2⟩
    simp only [runSet, hrun, hrun2, bind_eq_bind, bind_some]

/-- After additions and removals of elements whose hashes are not negative, while no set gets
`2 ^ 29` elements, every set has a free slot, and the searches of `lookkey` and `add` for a hash
that is not negative end. -/
theorem set_search_stops (hw : Hashable K) (ops : List (SetOp K)) (hops : ∀ op ∈ ops, op.Basic)
    (hhash : ∀ op ∈ ops, ∀ k ∈ op.elems, hw.NonNeg k)
    (hmax : ∀ pre rs σ, pre <+: ops → runSet hw (fun _ => .empty) pre = some (rs, σ) →
      ∀ x, (σ x).numelements + 1 < 2 ^ 29) :
    ∃ rs σ, runSet hw (fun _ => .empty) ops = some (rs, σ) ∧ ∀ x,
      (∃ (i : ℕ) (e : SetEntry K), (σ x).table[i]? = some e ∧ e.key.isNull) ∧
      ∀ k, hw.NonNeg k → (lookkey hw (σ x) k (toLong (hw.hash k))).isSome ∧
        (addSearch hw (σ x) k (toLong (hw.hash k))).isSome := by
  obtain ⟨rs, σ, hrun, h⟩ := SetInv.exists_runSet (fun _ => .empty _ _) ops hops hhash hmax
  refine ⟨rs, σ, hrun, fun x => ⟨(h x).exists_free, fun k hk => ?_⟩⟩
  obtain ⟨i, e, hlook, -⟩ := (h x).exists_lookkey (goodKeys_byHash hw) hk
  obtain ⟨r, hadd, -⟩ := (h x).exists_addSearch (goodKeys_byHash hw) hk
  rw [toLong_eq hk]
  exact ⟨isSome_of_eq_some hlook, isSome_of_eq_some hadd⟩

/-- Two elements whose searches start at one slot. -/
theorem set_search_stops_collision : ∃ rs σ, runSet (twoHashes 0 8) (fun _ => .empty)
    [.add 0 0, .add 0 1] = some (rs, σ) ∧ ∀ x,
      (∃ (i : ℕ) (e : SetEntry (Fin 2)), (σ x).table[i]? = some e ∧ e.key.isNull) ∧
      ∀ k, (twoHashes 0 8).NonNeg k →
        (lookkey (twoHashes 0 8) (σ x) k (toLong ((twoHashes 0 8).hash k))).isSome ∧
        (addSearch (twoHashes 0 8) (σ x) k (toLong ((twoHashes 0 8).hash k))).isSome := by
  have hempty : (BSet.empty : BSet (Fin 2)).numelements + 1 < 2 ^ 29 := by decide
  refine set_search_stops _ _ (by simp [SetOp.Basic]) (fun _ _ k _ => ?_)
    fun pre rs σ hpre hrun x => ?_
  · exact (by decide : ∀ k, ((twoHashes 0 8).hash k).toNat < 2 ^ 63) k
  · rw [← mem_inits] at hpre
    fin_cases hpre <;> cases hrun
    · exact hempty
    all_goals
      simp only [Function.update_apply]
      split_ifs
      · decide
      · exact hempty

/-- If an element has the hash `0`, the search for one with the hash `-8` stays at slot 0. -/
theorem set_search_runs_on : ∃ s, BSet.empty.add (twoHashes 0 (-8)) 0 = some s ∧ ∀ fuel,
    Probe.search (setProbe s.mask)
      (fun x => lookSlot (twoHashes 0 (-8)) s 1 (toLong ((twoHashes 0 (-8)).hash 1)) x.1) fuel
      (setStart s.mask (toLong ((twoHashes 0 (-8)).hash 1))) = none :=
  ⟨_, rfl, search_setProbe_eq_none _ (by decide)⟩

end Acton.Builtin
