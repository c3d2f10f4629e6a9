import Acton.ToMathlib.Triangular

/-!
# Trees with named binders

Trees whose leaves are terms with variables and whose inner nodes may bind names. A variable of a
leaf stands for the innermost binder of its name, found by `resolve`, or is free.

`SubstOf σ Γ Γ' D D'` says that `D'` is `D` with `σ` substituted for its free variables, up to the
names of the binders: each occurrence of a bound variable is one of the same binder in `D'`, each
free occurrence is replaced, and no variable of a replacement is bound in `D'`. `Γ` and `Γ'` are the
binders around the two trees. With `var` for `σ` this is equality up to renaming, `Alpha`, and the
results of substitutions in equal trees are equal (`SubstOf.alpha`).
-/

namespace Binding
open TermAlgebra List Option

/-- Terms in which a substitution can be read off from its result. -/
class Rigid (V : outParam Type) (T : Type) [TermAlgebra V T] : Prop where
  bind_inj : ∀ (t : T) (f g : V → T), bind t f = bind t g → ∀ v ∈ vars t, f v = g v

inductive Tree (κ V T : Type)
  | leaf (t : T)
  | node (k : κ) (ts : List (Tree κ V T))
  | binder (k : κ) (bs : List V) (ts : List (Tree κ V T))

variable {κ V T : Type}

@[elab_as_elim, induction_eliminator]
lemma Tree.induction {P : Tree κ V T → Prop} (leaf : ∀ t, P (leaf t))
    (node : ∀ k ts, (∀ t ∈ ts, P t) → P (node k ts))
    (binder : ∀ k bs ts, (∀ t ∈ ts, P t) → P (binder k bs ts)) (t : Tree κ V T) : P t :=
  @Tree.rec κ V T P (fun ts => ∀ t ∈ ts, P t) leaf node binder (by simp)
    (fun t ts ht hts => by simpa using ⟨ht, hts⟩) t

/-! ### Scopes -/

section Resolve
variable [DecidableEq V] {Γ : List (List V)} {bs : List V} {v w : V}

/-- The binder of a name, counted from the inside, and its place there. -/
def resolve : List (List V) → V → Option (ℕ × ℕ)
  | [], _ => none
  | bs :: Γ, v =>
      if v ∈ bs then some (0, bs.idxOf v) else (resolve Γ v).map fun p => (p.1 + 1, p.2)

lemma resolve_cons_of_mem (h : v ∈ bs) : resolve (bs :: Γ) v = some (0, bs.idxOf v) := by
  rw [resolve, if_pos h]

lemma resolve_cons_of_notMem (h : v ∉ bs) :
    resolve (bs :: Γ) v = (resolve Γ v).map fun p => (p.1 + 1, p.2) := by
  rw [resolve, if_neg h]

lemma resolve_cons_eq_none : resolve (bs :: Γ) v = none ↔ v ∉ bs ∧ resolve Γ v = none := by
  by_cases h : v ∈ bs
  · simp [resolve_cons_of_mem h, h]
  · simp [resolve_cons_of_notMem h, h]

lemma resolve_cons_eq_succ {p : ℕ × ℕ} :
    resolve (bs :: Γ) v = some (p.1 + 1, p.2) ↔ v ∉ bs ∧ resolve Γ v = some p := by
  by_cases h : v ∈ bs
  · simp [resolve_cons_of_mem h, h]
  · simp [resolve_cons_of_notMem h, h, Prod.ext_iff]

lemma resolve_inj {p : ℕ × ℕ} (hv : resolve Γ v = some p) (hw : resolve Γ w = some p) : v = w := by
  induction Γ generalizing p with
  | nil => cases hv
  | cons bs Γ ih =>
    by_cases h : v ∈ bs
    · rw [resolve_cons_of_mem h, Option.some.injEq] at hv
      subst hv
      by_cases h' : w ∈ bs
      · rw [resolve_cons_of_mem h', Option.some.injEq, Prod.mk.injEq] at hw
        exact ((idxOf_inj h').mp hw.2).symm
      · simp [resolve_cons_of_notMem h'] at hw
    · rw [resolve_cons_of_notMem h, map_eq_some_iff] at hv
      obtain ⟨q, hq, rfl⟩ := hv
      exact ih hq (resolve_cons_eq_succ.mp hw).2

end Resolve

/-! ### Substitution -/

section SubstOf
variable [DecidableEq V] [TermAlgebra V T] {σ : V → T} {Γ Γ' : List (List V)} {bs bs' : List V}
  {v : V} {u : T}

/-- What an occurrence of a variable becomes. -/
def Becomes (σ : V → T) (Γ Γ' : List (List V)) (v : V) (u : T) : Prop :=
  match resolve Γ v with
  | some p => ∃ w, u = var w ∧ resolve Γ' w = some p
  | none => u = σ v ∧ ∀ w ∈ vars u, resolve Γ' w = none

lemma becomes_cons_of_notMem (h : v ∉ bs) :
    Becomes σ (bs :: Γ) (bs' :: Γ') v u ↔ Becomes σ Γ Γ' v u ∧ ∀ w ∈ vars u, w ∉ bs' := by
  rw [Becomes, Becomes, resolve_cons_of_notMem h]
  cases resolve Γ v with
  | none =>
    simp only [map_none, resolve_cons_eq_none]
    exact ⟨fun ⟨hu, hw⟩ => ⟨⟨hu, fun w hm => (hw w hm).2⟩, fun w hm => (hw w hm).1⟩,
      fun ⟨⟨hu, hw⟩, hbs⟩ => ⟨hu, fun w hm => ⟨hbs w hm, hw w hm⟩⟩⟩
  | some p =>
    simp only [map_some, resolve_cons_eq_succ]
    constructor
    · rintro ⟨w, rfl, hw, hres⟩
      exact ⟨⟨w, rfl, hres⟩, by simpa [mem_vars_var] using hw⟩
    · rintro ⟨⟨w, rfl, hres⟩, hbs⟩
      exact ⟨w, rfl, hbs w ((mem_vars_var w w).mpr rfl), hres⟩

/-- The two lists have equal names at the same places. -/
def SamePattern (bs bs' : List V) : Prop :=
  bs.length = bs'.length ∧ ∀ i j : ℕ, bs[i]? = bs[j]? ↔ bs'[i]? = bs'[j]?

omit [DecidableEq V] [TermAlgebra V T] in
lemma samePattern_map_iff {ren : V → V} :
    SamePattern bs (bs.map ren) ↔ ∀ v ∈ bs, ∀ w ∈ bs, ren v = ren w → v = w := by
  constructor
  · rintro ⟨-, h⟩ v hv w hw heq
    obtain ⟨i, hi⟩ := getElem?_of_mem hv
    obtain ⟨j, hj⟩ := getElem?_of_mem hw
    have := (h i j).mpr (by simp [hi, hj, heq])
    rw [hi, hj] at this
    exact Option.some.inj this
  · intro h
    refine ⟨by simp, fun i j => ⟨fun heq => by simp [heq], fun heq => ?_⟩⟩
    rw [getElem?_map, getElem?_map] at heq
    cases hi : bs[i]? with
    | none =>
      rw [hi, map_none, eq_comm, map_eq_none_iff] at heq
      exact heq.symm
    | some v =>
      rw [hi, map_some, eq_comm, map_eq_some_iff] at heq
      obtain ⟨w, hj, hren⟩ := heq
      rw [hj, h w (mem_of_getElem? hj) v (mem_of_getElem? hi) hren]

omit [TermAlgebra V T] in
lemma idxOf_map {ren : V → V} (hren : ∀ v ∈ bs, ∀ w ∈ bs, ren v = ren w → v = w) (hv : v ∈ bs) :
    (bs.map ren).idxOf (ren v) = bs.idxOf v := by
  induction bs with
  | nil => cases hv
  | cons b bs ih =>
    rw [map_cons, idxOf_cons, idxOf_cons]
    by_cases hb : b = v
    · simp [hb]
    · have hne : ren b ≠ ren v := fun h => hb (hren b (by simp) v hv h)
      have hmem : v ∈ bs := (mem_cons.mp hv).resolve_left fun h => hb h.symm
      rw [beq_false_of_ne hb, beq_false_of_ne hne, cond_false, cond_false,
        ih (fun x hx y hy => hren x (by simp [hx]) y (by simp [hy])) hmem]

lemma becomes_cons_of_mem {ren : V → V} (hren : ∀ v ∈ bs, ∀ w ∈ bs, ren v = ren w → v = w)
    (hv : v ∈ bs) : Becomes σ (bs :: Γ) (bs.map ren :: Γ') v u ↔ u = var (ren v) := by
  have hres : resolve (bs.map ren :: Γ') (ren v) = some (0, bs.idxOf v) := by
    rw [resolve_cons_of_mem (mem_map_of_mem hv), idxOf_map hren hv]
  rw [Becomes, resolve_cons_of_mem hv]
  constructor
  · rintro ⟨w, rfl, hw⟩
    rw [resolve_inj hw hres]
  · rintro rfl
    exact ⟨ren v, rfl, hres⟩

mutual
def SubstOf (σ : V → T) : Tree κ V T → Tree κ V T → List (List V) → List (List V) → Prop
  | .leaf t, .leaf t', Γ, Γ' => ∃ f, t' = bind t f ∧ ∀ v ∈ vars t, Becomes σ Γ Γ' v (f v)
  | .node k ts, .node k' ts', Γ, Γ' => k = k' ∧ SubstOfList σ ts ts' Γ Γ'
  | .binder k bs ts, .binder k' bs' ts', Γ, Γ' =>
      k = k' ∧ SamePattern bs bs' ∧ SubstOfList σ ts ts' (bs :: Γ) (bs' :: Γ')
  | _, _, _, _ => False

def SubstOfList (σ : V → T) :
    List (Tree κ V T) → List (Tree κ V T) → List (List V) → List (List V) → Prop
  | [], [], _, _ => True
  | t :: ts, t' :: ts', Γ, Γ' => SubstOf σ t t' Γ Γ' ∧ SubstOfList σ ts ts' Γ Γ'
  | _, _, _, _ => False
end

lemma substOfList_iff {ts ts' : List (Tree κ V T)} :
    SubstOfList σ ts ts' Γ Γ' ↔ List.Forall₂ (fun t t' => SubstOf σ t t' Γ Γ') ts ts' := by
  induction ts generalizing ts' with
  | nil => cases ts' <;> simp [SubstOfList]
  | cons t ts ih => cases ts' <;> simp [SubstOfList, ih]

variable {ts : List (Tree κ V T)}

lemma substOfList_map_iff {f : Tree κ V T → Tree κ V T} :
    SubstOfList σ ts (ts.map f) Γ Γ' ↔ ∀ t ∈ ts, SubstOf σ t (f t) Γ Γ' := by
  rw [substOfList_iff, forall₂_map_right_iff, forall₂_same]

/-! ### Free variables -/

mutual
/-- The free occurrences of variables. -/
def free : Tree κ V T → List V
  | .leaf t => vars t
  | .node _ ts => freeList ts
  | .binder _ bs ts => (freeList ts).filter (· ∉ bs)

def freeList : List (Tree κ V T) → List V
  | [] => []
  | t :: ts => free t ++ freeList ts
end

lemma mem_freeList : v ∈ freeList ts ↔ ∃ t ∈ ts, v ∈ free t := by
  induction ts with
  | nil => simp [freeList]
  | cons t ts ih => simp [freeList, ih]

lemma mem_free_binder {k : κ} : v ∈ free (.binder k bs ts) ↔ v ∉ bs ∧ ∃ t ∈ ts, v ∈ free t := by
  simp [free, mem_freeList, and_comm]

lemma forall₂_square {α : Type} {R R1 R2 R' : α → α → Prop} {l l1 l2 l' : List α}
    (h : List.Forall₂ R l l2) (h1 : List.Forall₂ R1 l l1) (h2 : List.Forall₂ R2 l2 l')
    (himp : ∀ a ∈ l, ∀ b c d, R a b → R1 a c → R2 b d → R' c d) : List.Forall₂ R' l1 l' := by
  induction h generalizing l1 l' with
  | nil =>
    cases h1
    cases h2
    exact .nil
  | cons hab _ ih =>
    cases h1 with
    | cons hac h1 =>
      cases h2 with
      | cons hbd h2 =>
        exact .cons (himp _ (by simp) _ _ _ hab hac hbd)
          (ih h1 h2 fun a ha => himp a (by simp [ha]))

lemma exists_of_forall₂ {α β : Type} {R : α → β → Prop} {l : List α} {l' : List β}
    (h : List.Forall₂ R l l') {a : α} (ha : a ∈ l) : ∃ b ∈ l', R a b := by
  induction h with
  | nil => cases ha
  | cons hab _ ih =>
    rcases mem_cons.mp ha with rfl | ha
    · exact ⟨_, by simp, hab⟩
    · obtain ⟨b, hb, hR⟩ := ih ha
      exact ⟨b, by simp [hb], hR⟩

/-- Every free variable becomes something. -/
theorem SubstOf.exists_becomes {D D' : Tree κ V T} (h : SubstOf σ D D' Γ Γ') (hv : v ∈ free D) :
    ∃ u, Becomes σ Γ Γ' v u := by
  induction D generalizing D' Γ Γ' with
  | leaf t =>
    cases D' <;> simp only [SubstOf] at h
    obtain ⟨f, -, hf⟩ := h
    exact ⟨f v, hf v hv⟩
  | node k ts ih =>
    cases D' <;> simp only [SubstOf] at h
    obtain ⟨t, ht, hvt⟩ := mem_freeList.mp hv
    obtain ⟨t', -, htt'⟩ := exists_of_forall₂ (substOfList_iff.mp h.2) ht
    exact ih t ht htt' hvt
  | binder k bs ts ih =>
    cases D' <;> simp only [SubstOf] at h
    obtain ⟨hbs, t, ht, hvt⟩ := mem_free_binder.mp hv
    obtain ⟨t', -, htt'⟩ := exists_of_forall₂ (substOfList_iff.mp h.2.2) ht
    obtain ⟨u, hu⟩ := ih t ht htt' hvt
    exact ⟨u, ((becomes_cons_of_notMem hbs).mp hu).1⟩

lemma becomes_cons_self (h : v ∈ bs) : Becomes σ (bs :: Γ) (bs :: Γ') v (var v) := by
  rw [Becomes, resolve_cons_of_mem h]
  exact ⟨v, rfl, resolve_cons_of_mem h⟩

omit [DecidableEq V] in
lemma samePattern_refl (bs : List V) : SamePattern bs bs := ⟨rfl, fun _ _ => Iff.rfl⟩

/-- A tree that is copied as it is. -/
theorem substOf_self_iff [Rigid V T] {D : Tree κ V T} :
    SubstOf σ D D Γ Γ' ↔ ∀ v ∈ free D, Becomes σ Γ Γ' v (var v) := by
  induction D generalizing Γ Γ' with
  | leaf t =>
    simp only [SubstOf, free]
    constructor
    · rintro ⟨f, hf, h⟩ v hv
      have := Rigid.bind_inj t f var ((bind_pure t).trans hf).symm v hv
      rw [← this]
      exact h v hv
    · exact fun h => ⟨var, (bind_pure t).symm, h⟩
  | node k ts ih =>
    simp only [SubstOf, free, mem_freeList, true_and]
    rw [substOfList_iff, forall₂_same]
    constructor
    · rintro h v ⟨t, ht, hv⟩
      exact (ih t ht).mp (h t ht) v hv
    · exact fun h t ht => (ih t ht).mpr fun v hv => h v ⟨t, ht, hv⟩
  | binder k bs ts ih =>
    simp only [SubstOf, mem_free_binder, true_and, samePattern_refl]
    rw [substOfList_iff, forall₂_same]
    have hcons : ∀ {v}, v ∉ bs →
        (Becomes σ (bs :: Γ) (bs :: Γ') v (var v) ↔ Becomes σ Γ Γ' v (var v)) := by
      intro v hv
      rw [becomes_cons_of_notMem hv, and_iff_left]
      simpa [mem_vars_var] using hv
    constructor
    · rintro h v ⟨hbs, t, ht, hv⟩
      exact (hcons hbs).mp ((ih t ht).mp (h t ht) v hv)
    · intro h t ht
      refine (ih t ht).mpr fun v hv => ?_
      by_cases hbs : v ∈ bs
      · exact becomes_cons_self hbs
      · exact (hcons hbs).mpr (h v ⟨hbs, t, ht, hv⟩)

/-! ### Equality up to renaming -/

/-- The trees differ in the names of their binders only. -/
def Alpha (D D' : Tree κ V T) (Γ Γ' : List (List V)) : Prop := SubstOf var D D' Γ Γ'

omit [DecidableEq V] in
/-- From `bs₁` over `bs₁'` and `bs₂` to `bs₂'`. -/
theorem SamePattern.square {bs1 bs1' bs2 bs2' : List V} (h : SamePattern bs1 bs2)
    (h1 : SamePattern bs1 bs1') (h2 : SamePattern bs2 bs2') : SamePattern bs1' bs2' := by
  refine ⟨h1.1.symm.trans (h.1.trans h2.1), fun i j => ?_⟩
  rw [← h1.2, h.2, h2.2]

open Classical in
/-- The variable of `Γ'` at the place of a variable of `Γ`. -/
noncomputable def move (Γ Γ' : List (List V)) (w : V) : V :=
  if h : ∃ w' p, resolve Γ w = some p ∧ resolve Γ' w' = some p then h.choose else w

lemma move_eq_of_some {p : ℕ × ℕ} {w w' : V} (hw : resolve Γ w = some p)
    (hw' : resolve Γ' w' = some p) : move Γ Γ' w = w' := by
  have hex : ∃ w' p, resolve Γ w = some p ∧ resolve Γ' w' = some p := ⟨w', p, hw, hw'⟩
  rw [move, dif_pos hex]
  obtain ⟨q, hq, hchoose⟩ := hex.choose_spec
  obtain rfl : p = q := mem_unique hw hq
  exact resolve_inj hchoose hw'

lemma move_eq_of_none {w : V} (hw : resolve Γ w = none) : move Γ Γ' w = w := by
  rw [move, dif_neg]
  rintro ⟨_, p, h, -⟩
  rw [hw] at h
  cases h

section Square
variable {Γ1 Γ1' Γ2 Γ2' : List (List V)}

/-- The same for one occurrence of a variable `v`, where `r` is the variable of the second tree. -/
theorem Becomes.square {r : T} {f1 f2 : V → T} (h : Becomes var Γ1 Γ2 v r)
    (h1 : Becomes σ Γ1 Γ1' v (f1 v)) (h2 : ∀ w ∈ vars r, Becomes σ Γ2 Γ2' w (f2 w)) :
    bind r f2 = bind (f1 v) (fun w => var (move Γ1' Γ2' w)) ∧
      ∀ w ∈ vars (f1 v), Becomes var Γ1' Γ2' w (var (move Γ1' Γ2' w) : T) := by
  rw [Becomes] at h h1
  cases hres : resolve Γ1 v with
  | some p =>
    -- bound by the binder at `p` in all four trees
    rw [hres] at h h1
    obtain ⟨v2, rfl, hv2⟩ := h
    obtain ⟨w1, hf1, hw1⟩ := h1
    have hbecomes := h2 v2 ((mem_vars_var v2 v2).mpr rfl)
    rw [Becomes, hv2] at hbecomes
    obtain ⟨w2, hf2, hw2⟩ := hbecomes
    have hmove := move_eq_of_some hw1 hw2
    rw [bind_var, hf2, hf1, bind_var, hmove]
    refine ⟨rfl, fun w hw => ?_⟩
    obtain rfl := (mem_vars_var w1 w).mp hw
    rw [hmove, Becomes, hw1]
    exact ⟨w2, rfl, hw2⟩
  | none =>
    -- free, so it is replaced by the same term
    rw [hres] at h h1
    obtain ⟨rfl, hfree⟩ := h
    obtain ⟨hf1, hfree1⟩ := h1
    have hbecomes := h2 v ((mem_vars_var v v).mpr rfl)
    rw [Becomes, hfree v ((mem_vars_var v v).mpr rfl)] at hbecomes
    obtain ⟨hf2, hfree2⟩ := hbecomes
    have hsame : f2 v = f1 v := hf2.trans hf1.symm
    rw [bind_var, hsame]
    rw [hsame] at hfree2
    constructor
    · calc f1 v = bind (f1 v) var := (TermAlgebra.bind_pure _).symm
        _ = _ := bind_congr _ _ _ fun w hw => by rw [move_eq_of_none (hfree1 w hw)]
    · intro w hw
      rw [move_eq_of_none (hfree1 w hw), Becomes, hfree1 w hw]
      refine ⟨rfl, fun x hx => ?_⟩
      obtain rfl := (mem_vars_var w x).mp hx
      exact hfree2 x hw

/-- The results of a substitution in trees that are equal up to renaming are so, too. -/
theorem SubstOf.alpha {D1 D1' D2 D2' : Tree κ V T} (h : Alpha D1 D2 Γ1 Γ2)
    (h1 : SubstOf σ D1 D1' Γ1 Γ1') (h2 : SubstOf σ D2 D2' Γ2 Γ2') : Alpha D1' D2' Γ1' Γ2' := by
  induction D1 generalizing D1' D2 D2' Γ1 Γ1' Γ2 Γ2' with
  | leaf t =>
    cases D1' <;> simp only [SubstOf] at h1
    cases D2 <;> simp only [Alpha, SubstOf] at h
    cases D2' <;> simp only [SubstOf] at h2
    obtain ⟨r, rfl, hr⟩ := h
    obtain ⟨f1, rfl, hf1⟩ := h1
    obtain ⟨f2, rfl, hf2⟩ := h2
    have hsquare := fun v hv => Becomes.square (hr v hv) (hf1 v hv)
      fun w hw => hf2 w ((mem_vars_bind t r w).mpr ⟨v, hv, hw⟩)
    refine ⟨fun w => var (move Γ1' Γ2' w), ?_, fun w hw => ?_⟩
    · rw [bind_bind, bind_bind]
      exact bind_congr _ _ _ fun v hv => (hsquare v hv).1
    · obtain ⟨v, hv, hw⟩ := (mem_vars_bind t f1 w).mp hw
      exact (hsquare v hv).2 w hw
  | node k ts ih =>
    cases D1' <;> simp only [SubstOf] at h1
    cases D2 <;> simp only [Alpha, SubstOf] at h
    cases D2' <;> simp only [SubstOf] at h2
    refine ⟨h1.1.symm.trans (h.1.trans h2.1), substOfList_iff.mpr ?_⟩
    exact forall₂_square (substOfList_iff.mp h.2) (substOfList_iff.mp h1.2)
      (substOfList_iff.mp h2.2) fun t ht t2 t1' t₂' h h1 h2 => ih t ht h h1 h2
  | binder k bs ts ih =>
    cases D1' <;> simp only [SubstOf] at h1
    cases D2 <;> simp only [Alpha, SubstOf] at h
    cases D2' <;> simp only [SubstOf] at h2
    refine ⟨h1.1.symm.trans (h.1.trans h2.1), h.2.1.square h1.2.1 h2.2.1, substOfList_iff.mpr ?_⟩
    exact forall₂_square (substOfList_iff.mp h.2.2) (substOfList_iff.mp h1.2.2)
      (substOfList_iff.mp h2.2.2) fun t ht t2 t1' t₂' h h1 h2 => ih t ht h h1 h2

end Square
end SubstOf
end Binding
