import Acton.Subst.Declarations
import Acton.ToMathlib.Map
import Mathlib

/-!
# Capture-avoiding substitution

`SubstOf` from the library says what `vsubst` should do. It does so exactly if the substitution that
the code uses at each place is the right one: `Right s c D` runs through the tree with the
substitution `s` of the code and the map `c` of variables to what they should become. In schemas,
functions and actors this fails only if a new variable is one that is bound beside it; in classes,
protocols and extensions the bound variables are replaced (`Safe`).

## Main results

* `captureAvoiding_vsubst_iff`: `vsubst` avoids capture exactly if it is right at every place.
* `vsubst_correct`: it avoids capture in safe trees, and there the result does not depend on the
  names of bound variables.
* `vsubst_captures`: a class and a schema in which it does not.
-/

namespace Acton
open List
variable {s : Substitution} {c : TVar → VTy}
namespace Syn
open Binding TermAlgebra

/-- What a variable should become inside of a binder. -/
def rightScope (bs : List TVar) (r : Substitution) (c : TVar → VTy) (v : TVar) : VTy :=
  if v ∈ bs then var (TVar.vsubst r v) else c v

mutual
/-- The substitution of the code is right wherever it is used, different variables of a binder stay
different, and no variable of a replacement is bound. -/
def Right : Syn → Substitution → (TVar → VTy) → Prop
  | .leaf t, s, c => ∀ v ∈ Acton.vfree t, Ty.vsubst s (.tVar v) = c v
  | .node k ts, s, c =>
      if k.copied then ∀ v ∈ freeList ts, c v = .tVar v else RightList ts s c
  | .binder k bs ts, s, c =>
      (∀ v ∈ bs, ∀ w ∈ bs, TVar.vsubst (scope k s bs ts) v = TVar.vsubst (scope k s bs ts) w →
        v = w) ∧
      (∀ v ∈ free (.binder k bs ts : Syn), ∀ w ∈ Acton.vfree (c v),
        w ∉ bs.map (TVar.vsubst (scope k s bs ts))) ∧
      RightList ts (scope k s bs ts) (rightScope bs (scope k s bs ts) c)

def RightList : List Syn → Substitution → (TVar → VTy) → Prop
  | [], _, _ => True
  | t :: ts, s, c => Right t s c ∧ RightList ts s c
end

lemma rightList_iff {ts : List Syn} : RightList ts s c ↔ ∀ t ∈ ts, Right t s c := by
  induction ts with
  | nil => simp [RightList]
  | cons t ts ih => simp [RightList, ih]

variable {σ : TVar → VTy} {Γ Γ' : List (List TVar)}

/-- The invariant of the traversal: `c` says what the free variables of the tree become. -/
theorem substOf_vsubst_iff {D : Syn} (hc : ∀ v ∈ free D, ∀ u, Becomes σ Γ Γ' v u ↔ u = c v) :
    SubstOf σ D (D.vsubst s) Γ Γ' ↔ D.Right s c := by
  induction D using Tree.induction generalizing s c Γ Γ' with
  | leaf t =>
    simp only [vsubst, SubstOf, Right]
    constructor
    · rintro ⟨f, hf, h⟩ v hv
      have hf := Ty.vbind_eq_vbind_iff.mp ((Ty.vsubst_eq_vbind s t).symm.trans hf)
      rw [hf v hv]
      exact (hc v hv _).mp (h v hv)
    · intro h
      refine ⟨_, Ty.vsubst_eq_vbind s t, fun v hv => (hc v hv _).mpr (h v hv)⟩
  | node k ts ih =>
    simp only [vsubst, Right]
    split
    · rw [substOf_self_iff]
      exact forall₂_congr fun v hv => (hc v hv _).trans eq_comm
    · simp only [SubstOf, true_and, vsubstList_eq_map, substOfList_map_iff, rightList_iff]
      exact forall₂_congr fun t ht => ih t ht fun v hv => hc v (mem_freeList.mpr ⟨t, ht, hv⟩)
  | binder k bs ts ih =>
    simp only [vsubst, SubstOf, Right, true_and, samePattern_map_iff]
    generalize scope k s bs ts = r
    refine and_congr_right fun hren => ?_
    by_cases hcapture : ∀ v ∈ free (.binder k bs ts : Syn), ∀ w ∈ Acton.vfree (c v),
        w ∉ bs.map (TVar.vsubst r)
    · rw [and_iff_right hcapture, vsubstList_eq_map, substOfList_map_iff, rightList_iff]
      refine forall₂_congr fun t ht => ih t ht fun v hv u => ?_
      by_cases hbs : v ∈ bs
      · rw [becomes_cons_of_mem hren hbs, rightScope, if_pos hbs]
      · have hfree : v ∈ free (.binder k bs ts : Syn) := mem_free_binder.mpr ⟨hbs, t, ht, hv⟩
        rw [becomes_cons_of_notMem hbs, hc v hfree, rightScope, if_neg hbs]
        exact and_iff_left_of_imp fun hu => hu ▸ hcapture v hfree
    · refine iff_of_false (fun h => hcapture fun v hv => ?_) fun h => hcapture h.1
      obtain ⟨hbs, t, ht, hvt⟩ := mem_free_binder.mp hv
      rw [vsubstList_eq_map, substOfList_map_iff] at h
      obtain ⟨u, hu⟩ := (h t ht).exists_becomes hvt
      obtain ⟨hu, hnot⟩ := (becomes_cons_of_notMem hbs).mp hu
      exact (hc v hv u).mp hu ▸ hnot

/-- What `s` makes of a variable. -/
def image (s : Substitution) (v : TVar) : VTy := Ty.vsubst s (.tVar v)

/-- `D'` is the result of the substitution `s` in `D`, up to the names of bound variables. -/
def CaptureAvoiding (s : Substitution) (D D' : Syn) : Prop := SubstOf (image s) D D' [] []

lemma captureAvoiding_vsubst_iff (s : Substitution) (D : Syn) :
    CaptureAvoiding s D (D.vsubst s) ↔ D.Right s (image s) :=
  substOf_vsubst_iff fun v _ u => by simp [Becomes, Binding.resolve]

/-! ### Fresh variables -/

end Syn

lemma letters_inj : ∀ i < 23, ∀ j < 23,
    "ABCDEFGHIJKLMNOPQRSTUVW".toList.getD i 'A' = "ABCDEFGHIJKLMNOPQRSTUVW".toList.getD j 'A' →
      i = j := by
  decide +kernel

lemma tvarSupply_injective : Function.Injective tvarSupply := by
  intro i j h
  simp only [tvarSupply, TVar.mk.injEq, Name.name.injEq, String.ofList_inj, List.cons.injEq,
    String.toList_inj] at h
  obtain ⟨hletter, hdigits⟩ := h
  have hmod : i % 23 = j % 23 := by
    have hi := Nat.mod_lt i (by decide : 0 < 23)
    have hj := Nat.mod_lt j (by decide : 0 < 23)
    exact letters_inj _ hi _ hj hletter
  have hdiv : i / 23 = j / 23 := by
    split at hdigits <;> split at hdigits
    · omega
    · exact absurd hdigits.symm Nat.repr_ne_empty
    · exact absurd hdigits Nat.repr_ne_empty
    · exact Nat.repr_inj.mp hdigits
  omega

lemma nodup_freshTVars (avoid : List TVar) (n : ℕ) : (freshTVars avoid n).Nodup :=
  ((nodup_range.map tvarSupply_injective).filter _).sublist (take_sublist _ _)

lemma notMem_of_mem_freshTVars {avoid : List TVar} {n : ℕ} {v : TVar}
    (h : v ∈ freshTVars avoid n) : v ∉ avoid :=
  of_decide_eq_true (mem_filter.mp (mem_of_mem_take h)).2

lemma length_freshTVars (avoid : List TVar) (n : ℕ) : (freshTVars avoid n).length = n := by
  rw [freshTVars, length_take, without]
  refine min_eq_left ?_
  set l := (List.range (avoid.length + n)).map tvarSupply with hl
  have hnodup : l.Nodup := nodup_range.map tvarSupply_injective
  have hlen : l.length = avoid.length + n := by simp [hl]
  -- at most `avoid.length` of them are taken away
  have havoid : (l.filter (· ∈ avoid)).length ≤ avoid.length :=
    ((hnodup.filter _).subperm fun v hv => by simpa using (mem_filter.mp hv).2).length_le
  have hsplit := length_eq_length_filter_add (l := l) (· ∈ avoid)
  simp only [decide_not] at *
  omega

/-! ### The substitution for a scope -/

section Quantsubst
variable {s : Substitution} {bs vs : List TVar} {v w : TVar}

lemma mem_new (hv : v ∉ bs) {t : Ty} (ht : s.lookup v = some t) (hw : w ∈ vfree t) :
    w ∈ new s bs := by
  rw [new, mem_eraseDups, mem_flatMap]
  exact ⟨(v, t), mem_filter.mpr ⟨mem_of_lookup_eq_some ht, by simpa using hv⟩, hw⟩

lemma mem_clash : v ∈ clash s bs ↔ v ∈ new s bs ∧ v ∈ bs := by
  simp [clash]

lemma lookup_pruned : (pruned s bs).lookup v = if v ∈ bs then none else s.lookup v := by
  simpa [pruned] using lookup_filter_fst (fun w => decide (w ∉ bs)) s v

lemma length_fresh : (fresh s bs vs).length = (clash s bs).length := length_freshTVars _ _

lemma lookup_quantsubst : (quantsubst s bs vs).lookup v =
    ((((clash s bs).zip (fresh s bs vs)).lookup v).map Ty.tVar).or ((pruned s bs).lookup v) := by
  rw [quantsubst]
  split
  · rename_i hbs
    subst hbs
    have hclash : clash s [] = [] := by simp [clash]
    rw [hclash, lookup_pruned, if_neg not_mem_nil]
    rfl
  · rw [lookup_append, lookup_zip_map]

/-- The variables of the binder are at most renamed. -/
theorem vsubst_quantsubst_of_mem (hv : v ∈ bs) :
    Ty.vsubst (quantsubst s bs vs) (.tVar v) = .tVar (TVar.vsubst (quantsubst s bs vs) v) := by
  rw [Ty.vsubst, TVar.vsubst, lookup_quantsubst, lookup_pruned, if_pos hv, Option.or_none]
  cases ((clash s bs).zip (fresh s bs vs)).lookup v <;> rfl

/-- The other variables are treated as before. -/
theorem vsubst_quantsubst_of_notMem (hv : v ∉ bs) :
    Ty.vsubst (quantsubst s bs vs) (.tVar v) = Ty.vsubst s (.tVar v) := by
  have hnone : ((clash s bs).zip (fresh s bs vs)).lookup v = none :=
    (lookup_zip_eq_none_iff length_fresh).mpr fun h => hv (mem_clash.mp h).2
  rw [Ty.vsubst, Ty.vsubst, lookup_quantsubst, hnone, lookup_pruned, if_neg hv]
  rfl

/-- A variable of the binder in the result: it is kept, or it is a new one. -/
theorem tvarVsubst_quantsubst (hv : v ∈ bs) :
    v ∉ new s bs ∧ TVar.vsubst (quantsubst s bs vs) v = v ∨
      ((clash s bs).zip (fresh s bs vs)).lookup v = some (TVar.vsubst (quantsubst s bs vs) v) := by
  rw [TVar.vsubst, lookup_quantsubst, lookup_pruned, if_pos hv, Option.or_none]
  cases hx : ((clash s bs).zip (fresh s bs vs)).lookup v with
  | none =>
    have hclash := (lookup_zip_eq_none_iff length_fresh).mp hx
    exact .inl ⟨fun h => hclash (mem_clash.mpr ⟨h, hv⟩), rfl⟩
  | some x => exact .inr rfl

lemma mem_fresh_of_lookup {x : TVar}
    (hx : ((clash s bs).zip (fresh s bs vs)).lookup v = some x) : x ∈ fresh s bs vs :=
  (of_mem_zip (mem_of_lookup_eq_some hx)).2

lemma lookup_zip_inj {xs ys : List TVar} (hys : ys.Nodup) {y : TVar}
    (hv : (xs.zip ys).lookup v = some y) (hw : (xs.zip ys).lookup w = some y) : v = w := by
  obtain ⟨i, hi, hvi⟩ := getElem_of_mem (mem_of_lookup_eq_some hv)
  obtain ⟨j, hj, hwj⟩ := getElem_of_mem (mem_of_lookup_eq_some hw)
  rw [getElem_zip, Prod.mk.injEq] at hvi hwj
  obtain rfl : i = j := hys.getElem_inj_iff.mp (hvi.2.trans hwj.2.symm)
  exact hvi.1.symm.trans hwj.1

variable (hfresh : ∀ v ∈ fresh s bs vs, v ∉ bs)
include hfresh

/-- Different variables stay different, unless a new one is among them. -/
theorem tvarVsubst_quantsubst_inj (hv : v ∈ bs) (hw : w ∈ bs)
    (h : TVar.vsubst (quantsubst s bs vs) v = TVar.vsubst (quantsubst s bs vs) w) : v = w := by
  have hnodup : (fresh s bs vs).Nodup := nodup_freshTVars _ _
  obtain ⟨-, hv'⟩ | hv' := @tvarVsubst_quantsubst s bs vs v hv <;>
    obtain ⟨-, hw'⟩ | hw' := @tvarVsubst_quantsubst s bs vs w hw
  · rw [← hv', ← hw', h]
  · rw [← h, hv'] at hw'
    exact absurd hv (hfresh v (mem_fresh_of_lookup hw'))
  · rw [h, hw'] at hv'
    exact absurd hw (hfresh w (mem_fresh_of_lookup hv'))
  · exact lookup_zip_inj hnodup hv' (h ▸ hw')

omit hfresh in
/-- No variable of a replacement is bound. -/
theorem notMem_map_tvarVsubst (hv : v ∉ bs) (hvs : v ∈ vs)
    (hw : w ∈ vfree (Ty.vsubst s (.tVar v))) : w ∉ bs.map (TVar.vsubst (quantsubst s bs vs)) := by
  intro hmem
  obtain ⟨x, hx, rfl⟩ := mem_map.mp hmem
  -- the variable is one of a substituted type, or the one that is looked at
  have hcases : TVar.vsubst (quantsubst s bs vs) x ∈ new s bs ∨
      TVar.vsubst (quantsubst s bs vs) x = v := by
    rw [Ty.vsubst] at hw
    cases ht : s.lookup v with
    | none => exact .inr (by simpa [ht, vfree] using hw)
    | some t => exact .inl (mem_new hv ht (by simpa [ht] using hw))
  obtain ⟨hnew, hkeep⟩ | hlookup := @tvarVsubst_quantsubst s bs vs x hx
  · rw [hkeep] at hcases
    exact hcases.elim hnew fun h => hv (h ▸ hx)
  · have havoid := notMem_of_mem_freshTVars (mem_fresh_of_lookup hlookup)
    obtain h | h := hcases
    · exact havoid (mem_append_left _ h)
    · exact havoid (mem_append_right _ (h ▸ hvs))

end Quantsubst
namespace Syn
open Binding

/-! ### Where the substitution is right -/

mutual
/-- In schemas, functions and actors no new variable is bound already. In the other declarations the
substitution leaves the bound variables alone, and no variable of a substituted type is bound. What
is copied has no free type variables. -/
def Safe : Syn → Substitution → Prop
  | .leaf _, _ => True
  | .node k ts, s => if k.copied then freeList ts = [] else SafeList ts s
  | .binder k bs ts, s =>
      (if k.renamed then ∀ v ∈ fresh s bs (vfreeList ts), v ∉ bs
        else (∀ v ∈ bs, Ty.vsubst s (.tVar v) = .tVar v) ∧
          ∀ v ∈ free (.binder k bs ts : Syn), ∀ w ∈ Acton.vfree (Ty.vsubst s (.tVar v)), w ∉ bs) ∧
      SafeList ts (scope k s bs ts)

def SafeList : List Syn → Substitution → Prop
  | [], _ => True
  | t :: ts, s => Safe t s ∧ SafeList ts s
end

lemma safeList_iff {ts : List Syn} : SafeList ts s ↔ ∀ t ∈ ts, Safe t s := by
  induction ts with
  | nil => simp [SafeList]
  | cons t ts ih => simp [SafeList, ih]

lemma mem_vfreeList {v : TVar} {ts : List Syn} : v ∈ vfreeList ts ↔ ∃ t ∈ ts, v ∈ vfree t := by
  induction ts with
  | nil => simp [vfreeList]
  | cons t ts ih => simp [vfreeList, ih]

/-- `vfree` finds all free variables outside of what is copied. -/
theorem Safe.mem_vfree {D : Syn} (h : D.Safe s) {v : TVar} (hv : v ∈ free D) : v ∈ D.vfree := by
  induction D using Tree.induction generalizing s with
  | leaf t => exact hv
  | node k ts ih =>
    simp only [Safe, vfree, free] at h hv ⊢
    split at h
    · rw [h] at hv
      cases hv
    · rename_i hk
      obtain ⟨t, ht, hvt⟩ := Binding.mem_freeList.mp hv
      rw [if_neg hk]
      exact mem_vfreeList.mpr ⟨t, ht, ih t ht (safeList_iff.mp h t ht) hvt⟩
  | binder k bs ts ih =>
    obtain ⟨hbs, t, ht, hvt⟩ := mem_free_binder.mp hv
    have hmem := mem_vfreeList.mpr ⟨t, ht, ih t ht (safeList_iff.mp h.2 t ht) hvt⟩
    simp only [vfree]
    split
    · exact mem_filter.mpr ⟨hmem, by simpa using hbs⟩
    · exact hmem

lemma tvarVsubst_eq_self {v : TVar} (h : Ty.vsubst s (.tVar v) = .tVar v) :
    TVar.vsubst s v = v := by
  rw [Ty.vsubst] at h
  rw [TVar.vsubst]
  cases ht : s.lookup v with
  | none => rfl
  | some t =>
    rw [ht] at h
    cases h
    rfl

/-- The substitution of the code is the right one in safe trees. -/
theorem right_of_safe {D : Syn} (h : D.Safe s) (hc : ∀ v ∈ free D, c v = image s v) :
    D.Right s c := by
  induction D using Tree.induction generalizing s c with
  | leaf t => exact fun v hv => (hc v hv).symm
  | node k ts ih =>
    simp only [Safe, Right] at h ⊢
    split
    · rename_i hk
      rw [if_pos hk] at h
      simp [h]
    · rename_i hk
      rw [if_neg hk, safeList_iff] at h
      exact rightList_iff.mpr fun t ht =>
        ih t ht (h t ht) fun v hv => hc v (Binding.mem_freeList.mpr ⟨t, ht, hv⟩)
  | binder k bs ts ih =>
    simp only [Safe, Right] at h ⊢
    obtain ⟨hk, hts⟩ := h
    -- the free variables of the parts, with what they become inside
    have hrest : (∀ v ∈ bs, image (scope k s bs ts) v = .tVar (TVar.vsubst (scope k s bs ts) v)) →
        (∀ v, v ∉ bs → image (scope k s bs ts) v = image s v) →
        RightList ts (scope k s bs ts) (rightScope bs (scope k s bs ts) c) := by
      intro hin hout
      refine rightList_iff.mpr fun t ht => ih t ht (safeList_iff.mp hts t ht) fun v hv => ?_
      rw [rightScope]
      split
      · rename_i hbs
        exact (hin v hbs).symm
      · rename_i hbs
        rw [hout v hbs]
        exact hc v (mem_free_binder.mpr ⟨hbs, t, ht, hv⟩)
    have hmem : ∀ v ∈ free (.binder k bs ts : Syn), v ∉ bs ∧ v ∈ vfreeList ts := by
      intro v hv
      obtain ⟨hbs, t, ht, hvt⟩ := mem_free_binder.mp hv
      exact ⟨hbs, mem_vfreeList.mpr ⟨t, ht, (safeList_iff.mp hts t ht).mem_vfree hvt⟩⟩
    split at hk
    · rename_i hren
      have hscope : scope k s bs ts = quantsubst s bs (vfreeList ts) := if_pos hren
      rw [hscope] at hrest ⊢
      refine ⟨fun v hv w hw h => tvarVsubst_quantsubst_inj hk hv hw h, fun v hv w hw => ?_,
        hrest (fun v hv => vsubst_quantsubst_of_mem hv) fun v hv => vsubst_quantsubst_of_notMem hv⟩
      rw [hc v hv] at hw
      exact notMem_map_tvarVsubst (hmem v hv).1 (hmem v hv).2 hw
    · rename_i hren
      have hscope : scope k s bs ts = s := if_neg hren
      have hsame : ∀ v ∈ bs, TVar.vsubst s v = v := fun v hv => tvarVsubst_eq_self (hk.1 v hv)
      rw [hscope] at hrest ⊢
      refine ⟨fun v hv w hw h => by rwa [hsame v hv, hsame w hw] at h, fun v hv w hw => ?_,
        hrest (fun v hv => by rw [hsame v hv]; exact hk.1 v hv) fun _ _ => rfl⟩
      rw [map_congr_left hsame, map_id']
      rw [hc v hv] at hw
      exact hk.2 v hv w hw

/-- The substitution avoids capture in safe trees, and there its result does not depend on the names
of bound variables. -/
theorem vsubst_correct {D : Syn} (h : D.Safe s) :
    CaptureAvoiding s D (D.vsubst s) ∧
      ∀ D' : Syn, D'.Safe s → Alpha D D' [] [] → Alpha (D.vsubst s) (D'.vsubst s) [] [] := by
  have hsafe : ∀ {D : Syn}, D.Safe s → CaptureAvoiding s D (D.vsubst s) := fun h =>
    (captureAvoiding_vsubst_iff s _).mpr (right_of_safe h fun _ _ => rfl)
  exact ⟨hsafe h, fun D' h' halpha => SubstOf.alpha halpha (hsafe h) (hsafe h')⟩

/-- The substitution avoids capture in safe declarations. -/
theorem captureAvoiding_of_safe {D : Syn} (h : D.Safe s) : CaptureAvoiding s D (D.vsubst s) :=
  (captureAvoiding_vsubst_iff s D).mpr (right_of_safe h fun _ _ => rfl)

def tvA : TVar := ⟨.name "A"⟩
def tvB : TVar := ⟨.name "B"⟩
def tvC : TVar := ⟨.name "C"⟩
def tvX : TVar := ⟨.name "X"⟩
def tInt : Ty := .tCon (.noQ (.name "int")) []

/-- `[v] => M[v, w]` -/
def exampleSchema (v w : TVar) : Syn :=
  tSchema [(v, [])] (.tCon (.noQ (.name "M")) [.tVar v, .tVar w])

/-- `class C[A](P[A])` -/
def exampleClass (t : Ty) : Syn := class_ [(tvA, [])] [⟨.noQ (.name "P"), [t]⟩] []

/-- With `A` for `X` the schema `[A] => M[A, X]` becomes `[B] => M[B, A]`, and `[C] => M[C, X]`
becomes `[C] => M[C, A]`. -/
theorem vsubst_correct_schema :
    CaptureAvoiding [(tvX, .tVar tvA)] (exampleSchema tvA tvX) (exampleSchema tvB tvA) ∧
      Alpha (exampleSchema tvB tvA) (exampleSchema tvC tvA) [] [] := by
  have hsafe : ∀ v ∈ [tvA, tvC], (exampleSchema v tvX).Safe [(tvX, .tVar tvA)] := by
    simp only [mem_cons, not_mem_nil, or_false, forall_eq_or_imp, forall_eq]
    exact ⟨⟨by decide, trivial, trivial, trivial⟩, by decide, trivial, trivial, trivial⟩
  have halpha : Alpha (exampleSchema tvA tvX) (exampleSchema tvC tvX) [] [] := by
    have hpattern : SamePattern [tvA] ([tvA].map fun _ => tvC) :=
      samePattern_map_iff.mpr (by simp)
    refine ⟨rfl, hpattern, ⟨rfl, trivial⟩,
      ⟨fun v => .tVar (if v = tvA then tvC else v), rfl, fun v hv => ?_⟩, trivial⟩
    obtain rfl | rfl : v = tvA ∨ v = tvX := by
      simpa [TermAlgebra.vars, Acton.vfree, Acton.vfreeList] using hv
    · exact ⟨tvC, rfl, rfl⟩
    · exact ⟨rfl, fun w hw => by simp_all [TermAlgebra.vars, Acton.vfree]; rfl⟩
  obtain ⟨hcapture, hsame⟩ := vsubst_correct (hsafe tvA (by simp))
  exact ⟨hcapture, hsame _ (hsafe tvC (by simp)) halpha⟩

/-- With `A` for another variable the schema `[A] => A` becomes `[B] => B`. -/
theorem captureAvoiding_of_safe_schema : CaptureAvoiding [(⟨.name "X"⟩, .tVar tvA)]
    (tSchema [(tvA, [])] (.tVar tvA)) (tSchema [(tvB, [])] (.tVar tvB)) :=
  captureAvoiding_of_safe (D := tSchema [(tvA, [])] (.tVar tvA))
  ⟨by decide, trivial, trivial, trivial⟩

/-- With `int` for `A` the class `class C[A](P[A])` becomes `class C[A](P[int])`, and with `A` for
another variable the schema `[A, B] => A` becomes `[B, B] => B`. -/
theorem vsubst_captures : (exampleClass (.tVar tvA)).vsubst [(tvA, tInt)] = exampleClass tInt ∧
      ¬ CaptureAvoiding [(tvA, tInt)] (exampleClass (.tVar tvA)) (exampleClass tInt) ∧
      (tSchema [(tvA, []), (tvB, [])] (.tVar tvA)).vsubst [(⟨.name "X"⟩, .tVar tvA)] =
        tSchema [(tvB, []), (tvB, [])] (.tVar tvB) ∧
      ¬ CaptureAvoiding [(⟨.name "X"⟩, .tVar tvA)] (tSchema [(tvA, []), (tvB, [])] (.tVar tvA))
        (tSchema [(tvB, []), (tvB, [])] (.tVar tvB)) := by
  have hclass : (exampleClass (.tVar tvA)).vsubst [(tvA, tInt)] = exampleClass tInt := rfl
  have hschema : (tSchema [(tvA, []), (tvB, [])] (.tVar tvA)).vsubst [(⟨.name "X"⟩, .tVar tvA)] =
      tSchema [(tvB, []), (tvB, [])] (.tVar tvB) := by rfl
  refine ⟨hclass, fun h => ?_, hschema, fun h => ?_⟩
  · rw [← hclass, captureAvoiding_vsubst_iff] at h
    have hleaf : tInt = .tVar tvA := h.2.2.2.1 tvA (by decide)
    exact absurd hleaf (by decide)
  · -- the two variables have the same name in the result
    have hpattern : SamePattern [tvA, tvB] [tvB, tvB] := h.2.1
    have heq : some tvA = some tvB := (hpattern.2 0 1).mpr rfl
    exact absurd heq (by decide)

end Syn
end Acton
