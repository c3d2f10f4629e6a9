import Acton.Env.Castable

/-!
# The order of casts

Every well-kinded type without unification variables can be cast to itself, and `None` to every
optional type.

A type can be cast to its own option unless it is a type variable under options: the equation that
replaces a variable by its bound comes before the one for an option on the right, and the bound is
not below the variable.

Casts compose if the environment keeps the covariant classes `list`, `dict` and `set` apart from
inheritance (`CovariantApart`). A class that inherits from `list[A]` is below `list[A]` but, since
inherited arguments are equated, not below the lists that `list[A]` is below.
-/

namespace Acton
open List Function Except
variable {u v w : TCon}
section Ancestors
variable {decls : Decls} {env : ConEnv}

lemma Ancestor.trans {us : List TCon} {d : ConDecl} (hu : Ancestor decls us u)
    (hd : decls u.tcname = some d)
    (hv : Ancestor decls (d.parents.map (TCon.vsubst (d.qbound.zip u.tcargs))) v) :
    Ancestor decls us v := by
  induction hv with
  | parent hv =>
    obtain ⟨p, hp, rfl⟩ := mem_map.mp hv
    exact .step hu hd hp
  | step _ hd' hp ih => exact .step ih hd' hp

lemma Declared.map_vsubst {us : List TCon} (h : Declared decls us) (s : Substitution) :
    Declared decls (us.map (TCon.vsubst s)) := by
  intro u hu
  obtain ⟨p, hp, rfl⟩ := mem_map.mp hu
  simpa using h p hp

variable {i : ConInfo}

lemma Hierarchy.exists_decl (h : Hierarchy decls env) {n : QName} (hi : env n = some i) :
    ∃ d, decls n = some d ∧ i.qbound = d.qbound := by
  induction h with
  | empty => simp at hi
  | @declare decls env d as h hfresh hscope hmro ih =>
    by_cases hn : n = d.name
    · subst hn
      obtain rfl : _ = i := by simpa using hi
      exact ⟨d, by simp, rfl⟩
    · rw [update_of_ne hn] at hi ⊢
      exact ih hi

lemma Hierarchy.nodup (h : Hierarchy decls env) {n : QName} (hi : env n = some i) :
    (n :: i.ancestors.map fun p => p.2.tcname).Nodup := by
  induction h with
  | empty => simp at hi
  | @declare decls env d as h hfresh hscope hmro ih =>
    by_cases hn : n = d.name
    · subst hn
      obtain rfl : _ = i := by simpa using hi
      obtain ⟨hlin, hnodup⟩ := mro_sound h h.stored hscope.declared hmro
      rw [map_map] at hnodup
      refine nodup_cons.mpr ⟨fun hmem => ?_, hnodup⟩
      -- the ancestors have been declared before, and the name is new
      obtain ⟨p, hp, hname⟩ := mem_map.mp hmem
      have hanc := (hlin.mem_iff p.2).mp (mem_map_of_mem hp)
      obtain ⟨d', hd', -⟩ := hanc.declared h hscope.declared
      rw [hname, hfresh] at hd'
      simp at hd'
    · rw [update_of_ne hn] at hi
      exact ih hi

/-- The linearization of a class at given arguments. -/
theorem linearization_eq {u : TCon} (hi : env u.tcname = some i) : linearization env u =
      u :: i.ancestors.map fun p => p.2.vsubst (i.qbound.zip u.tcargs) := by
  simp [linearization, findCon_eq hi]

lemma Hierarchy.nodup_linearization (h : Hierarchy decls env) {u : TCon}
    (hi : env u.tcname = some i) : ((linearization env u).map TCon.tcname).Nodup := by
  rw [linearization_eq hi, map_cons, map_map]
  exact h.nodup hi

lemma findAncestor_eq_some_iff (h : Hierarchy decls env) {q : QName} (hi : env u.tcname = some i) :
    findAncestor env u q = .ok (some v) ↔ v ∈ linearization env u ∧ v.tcname = q := by
  have hfind : findAncestor env u q = .ok ((linearization env u).find? fun w => w.tcname = q) := by
    rw [linearization_eq hi, findAncestor, findCon_eq hi, find?_cons]
    by_cases hq : u.tcname = q
    · simp [hq]
    · simp [hq, bind, Except.bind, pure, Except.pure, comp_def]
  rw [hfind, Except.ok.injEq]
  constructor
  · intro hv
    exact ⟨mem_of_find?_eq_some hv, by simpa using find?_some hv⟩
  · rintro ⟨hv, hq⟩
    cases hw : (linearization env u).find? fun w => w.tcname = q with
    | none => simpa [hq] using find?_eq_none.mp hw v hv
    | some w =>
      have hwq : w.tcname = q := by simpa using find?_some hw
      have := inj_on_of_nodup_map (h.nodup_linearization hi) (mem_of_find?_eq_some hw) hv
        (hwq.trans hq.symm)
      rw [this]

lemma findAncestor_tcname {q : QName} (h : findAncestor env u q = .ok (some v)) : v.tcname = q := by
  rw [findAncestor] at h
  split at h
  · simp_all
  · obtain ⟨us, -, h⟩ := bind_eq_ok_iff.mp h
    simpa using find?_some (ok.inj h)

/-- An ancestor under another name is an instance of a stored ancestor. -/
theorem exists_of_findAncestor {q : QName} (hq : u.tcname ≠ q)
    (hv : findAncestor env u q = .ok (some v)) :
    ∃ i, env u.tcname = some i ∧ ∃ p ∈ i.ancestors, p.2.vsubst (i.qbound.zip u.tcargs) = v := by
  rw [findAncestor, if_neg hq] at hv
  obtain ⟨us, hus, hv⟩ := bind_eq_ok_iff.mp hv
  cases hi : env u.tcname with
  | none => simp [findCon, hi] at hus
  | some i =>
    rw [findCon_eq hi, ok.injEq] at hus
    subst hus
    have hmem := mem_of_find?_eq_some (ok.inj hv)
    simp only [map_map, mem_map, comp_apply] at hmem
    exact ⟨i, rfl, hmem⟩

/-- What is below in the hierarchy composes. -/
theorem mem_linearization_trans (h : Hierarchy decls env) {d : ConDecl}
    (hd : decls u.tcname = some d) (hlen : u.tcargs.length = d.qbound.length)
    (hv : v ∈ linearization env u) (hw : w ∈ linearization env v) : w ∈ linearization env u := by
  have hdecl := (h.wellScoped hd).2.declared.map_vsubst (d.qbound.zip u.tcargs)
  rw [mem_linearization_iff h h.stored hd hlen] at hv ⊢
  rcases hv with rfl | hv
  · rwa [mem_linearization_iff h h.stored hd hlen] at hw
  · obtain ⟨d', hd', hlen'⟩ := hv.declared h hdecl
    rw [mem_linearization_iff h h.stored hd' hlen'] at hw
    rcases hw with rfl | hw
    · exact .inr hv
    · exact .inr (hv.trans hd' hw)

lemma findAncestor_trans (h : Hierarchy decls env)
    (hlen : ∀ d, decls u.tcname = some d → u.tcargs.length = d.qbound.length)
    (hv : findAncestor env u v.tcname = .ok (some v))
    (hw : findAncestor env v w.tcname = .ok (some w)) :
    findAncestor env u w.tcname = .ok (some w) := by
  by_cases huv : u.tcname = v.tcname
  · rw [findAncestor, if_pos huv] at hv
    cases hv
    exact hw
  · by_cases hvw : v.tcname = w.tcname
    · rw [findAncestor, if_pos hvw] at hw
      cases hw
      exact hv
    · obtain ⟨i, hi, -⟩ := exists_of_findAncestor huv hv
      obtain ⟨j, hj, -⟩ := exists_of_findAncestor hvw hw
      obtain ⟨d, hd, -⟩ := h.exists_decl hi
      rw [findAncestor_eq_some_iff h hi] at hv ⊢
      rw [findAncestor_eq_some_iff h hj] at hw
      exact ⟨mem_linearization_trans h hd (hlen d hd) hv.1 hw.1, rfl⟩

end Ancestors

/-- An environment whose class hierarchy is consistent, with kinds for its names: classes have the
arity that they are declared with, and the bounds of type variables are well kinded. -/
structure CastEnv.Consistent (decls : Decls) (Γ : KindEnv) (env : CastEnv) : Prop where
  hierarchy : Hierarchy decls env.cons
  arity : ∀ n d, decls n = some d → d.qbound.length = Γ.arity n
  bound : ∀ v c, env.findTVBound v = some c → ∃ κ, (Ty.tCon c.tcname c.tcargs).HasKind Γ κ

/-- No class inherits from a covariant class, and what a covariant class inherits from does not
depend on its arguments. -/
structure CovariantApart (env : ConEnv) : Prop where
  not_ancestor : ∀ n i, env n = some i → ∀ p ∈ i.ancestors, p.2.tcname ∉ covariant
  not_param : ∀ n ∈ covariant, ∀ i, env n = some i → ∀ p ∈ i.ancestors, ∀ t ∈ p.2.tcargs,
    ∀ v ∈ vfree t, v ∉ i.qbound

/-- The type under its options. -/
def Ty.core : Ty → Ty
  | tOpt t => t.core
  | t => t

/-- An instance of a covariant class has the same ancestors as any other instance. -/
theorem CovariantApart.findAncestor_eq {decls : Decls} {env : ConEnv} (h : CovariantApart env)
    (henv : Hierarchy decls env) (huv : u.tcname = v.tcname) (hcov : v.tcname ∈ covariant)
    (hne : v.tcname ≠ w.tcname) (hw : findAncestor env v w.tcname = .ok (some w)) :
    findAncestor env u w.tcname = .ok (some w) := by
  obtain ⟨i, hi, p, hp, rfl⟩ := exists_of_findAncestor hne hw
  rw [findAncestor_eq_some_iff henv (huv ▸ hi), linearization_eq (huv ▸ hi)]
  have hinst : p.2.vsubst (i.qbound.zip u.tcargs) = p.2.vsubst (i.qbound.zip v.tcargs) := by
    rw [TCon.vsubst, TCon.vsubst, TCon.mk.injEq]
    refine ⟨rfl, map_congr_left fun t ht => Ty.vsubst_congr fun x hx => ?_⟩
    have hnone : ∀ ts : List Ty, (i.qbound.zip ts).lookup x = none := by
      intro ts
      rw [lookup_eq_none_iff]
      rintro ⟨y, s⟩ hy
      have hxy : x ≠ y := fun e => h.not_param _ hcov i hi p hp t ht x hx
        (e ▸ (of_mem_zip hy).1)
      simpa using hxy
    simp [Ty.vsubst, hnone]
  exact ⟨mem_cons_of_mem _ (mem_map.mpr ⟨p, hp, hinst⟩), rfl⟩

/-- No covariant class is found above another class. -/
theorem CovariantApart.tcname_not_mem {env : ConEnv} (h : CovariantApart env)
    (hne : u.tcname ≠ v.tcname) (hv : findAncestor env u v.tcname = .ok (some v)) :
    v.tcname ∉ covariant := by
  obtain ⟨i, hi, p, hp, rfl⟩ := exists_of_findAncestor hne hv
  exact h.not_ancestor _ i hi p hp

/-! ### Reflexivity -/

section Cast
variable {decls : Decls} {Γ : KindEnv} {env : CastEnv}

/-- A rule that holds of `Castable` gives a cast. -/
theorem CastRule.castable {t1 t2 : Ty} (h : CastRule env (Castable env) t1 t2) :
    Castable env t1 t2 :=
  castable_iff_castRule.mpr h

lemma castable_refl {t : Ty} (ht : ufree t = []) : Castable env t t := by
  induction t with
  | tUni u => simp [ufree] at ht
  | tVar v => exact CastRule.tVar.castable
  | tCon n ts ih =>
    have hts : ∀ t ∈ ts, ufree t = [] := by
      intro t hmem
      refine eq_nil_iff_forall_not_mem.mpr fun u hu => ?_
      have : u ∈ ufreeList ts := mem_ufreeList.mpr ⟨t, hmem, hu⟩
      simp [ufree] at ht
      simp [ht] at this
    by_cases hn : n ∈ covariant
    · refine (CastRule.covariant hn fun p hp => ?_).castable
      rw [show ts.zip ts = ts.map fun t => (t, t) by
        simpa using zip_map' (f := id) (g := id) (l := ts)] at hp
      obtain ⟨t, hmem, rfl⟩ := mem_map.mp hp
      exact ih t hmem (hts t hmem)
    · exact (CastRule.ancestor (fun h => hn h.2) (if_pos rfl)).castable
  | tFun fx p k t hfx hp hk ht' =>
    simp only [ufree, append_eq_nil_iff] at ht
    exact (CastRule.tFun (hfx ht.1.1.1) (hp ht.1.1.2) (hk ht.1.2) (ht' ht.2)).castable
  | tTuple p k hp hk =>
    simp only [ufree, append_eq_nil_iff] at ht
    exact (CastRule.tTuple (hp ht.1) (hk ht.2)).castable
  | tOpt t ih => exact (CastRule.tOpt (ih ht)).castable
  | tNone => exact CastRule.tNone.castable
  | tWild => exact CastRule.wildLeft.castable
  | tNil k => exact CastRule.tNil.castable
  | tRow k n t r hrt hr =>
    simp only [ufree, append_eq_nil_iff] at ht
    exact (CastRule.tRow (hrt ht.1) (hr ht.2)).castable
  | tStar k r hr => exact (CastRule.tStar (hr ht)).castable
  | tFX fx => exact (CastRule.tFX (by cases fx <;> rfl)).castable

/-! ### Options -/

/-- A type can be cast to its own option exactly if it is not a type variable under options. -/
theorem castable_tOpt_self_iff {t : Ty} (ht : ufree t = []) :
    Castable env t (.tOpt t) ↔ ∀ v, t.core ≠ .tVar v := by
  induction t with
  | tVar v =>
    simp only [Ty.core, ne_eq, Ty.tVar.injEq, forall_eq', iff_false]
    intro h
    cases castable_iff_castRule.mp h with
    | opt hs _ => exact hs
    | bound _ h =>
      cases castable_iff_castRule.mp h with
      | opt _ h => exact nomatch castable_iff_castRule.mp h
  | tOpt t ih =>
    refine Iff.trans ⟨fun h => ?_, fun h => (CastRule.tOpt h).castable⟩ (ih ht)
    cases castable_iff_castRule.mp h with
    | tOpt h => exact h
    | opt hs _ => exact hs.elim
  | tNone => exact iff_of_true CastRule.noneOpt.castable (by simp [Ty.core])
  | tWild => exact iff_of_true CastRule.wildLeft.castable (by simp [Ty.core])
  | _ =>
    refine iff_of_true (CastRule.castable (.opt ?_ (castable_refl ht))) (by simp [Ty.core])
    trivial

/-! ### Transitivity -/

lemma FX.castable_trans {fx1 fx2 fx3 : FX} (h12 : fx1.castable fx2 = true)
    (h23 : fx2.castable fx3 = true) : fx1.castable fx3 = true := by
  cases fx1 <;> cases fx2 <;> cases fx3 <;> simp_all [FX.castable]

/-- A cast of type constructors compares the arguments of a covariant class, and otherwise finds
the right-hand side among the ancestors of the left-hand side. -/
theorem castRule_tCon_iff {R : Ty → Ty → Prop} :
    CastRule env R (.tCon u.tcname u.tcargs) (.tCon v.tcname v.tcargs) ↔
      if u.tcname = v.tcname ∧ u.tcname ∈ covariant then
        ∀ p ∈ u.tcargs.zip v.tcargs, R p.1 p.2
      else findAncestor env.cons u v.tcname = .ok (some v) := by
  obtain ⟨n2, ts2⟩ := v
  constructor
  · intro h
    cases h with
    | covariant hn hts => rwa [if_pos ⟨rfl, hn⟩]
    | @ancestor _ _ _ c hn hc =>
      obtain ⟨n, ts⟩ := c
      obtain rfl : n = n2 := findAncestor_tcname hc
      rwa [if_neg hn]
  · split
    · rename_i hn
      obtain ⟨rfl, hn⟩ := hn
      exact .covariant hn
    · rename_i hn
      exact fun hc => .ancestor hn hc

/-- Position by position, what composes on the entries composes on lists of the same length. -/
theorem forall_zip_trans {R S T : Ty → Ty → Prop} {ts1 ts2 ts3 : List Ty}
    (h12 : ts1.length = ts2.length) (h23 : ts2.length = ts3.length)
    (hR : ∀ p ∈ ts1.zip ts2, R p.1 p.2) (hS : ∀ p ∈ ts2.zip ts3, S p.1 p.2)
    (hT : ∀ t1 ∈ ts1, ∀ t2 ∈ ts2, ∀ t3 ∈ ts3, R t1 t2 → S t2 t3 → T t1 t3) :
    ∀ p ∈ ts1.zip ts3, T p.1 p.2 := by
  intro p hp
  obtain ⟨i, hi, rfl⟩ := mem_iff_getElem.mp hp
  simp only [length_zip] at hi
  have h1 : i < ts1.length := by omega
  have h2 : i < ts2.length := by omega
  have h3 : i < ts3.length := by omega
  have hRi : R ts1[i] ts2[i] :=
    hR (ts1[i], ts2[i]) (mem_iff_getElem.mpr ⟨i, by simp; omega, by simp⟩)
  have hSi : S ts2[i] ts3[i] :=
    hS (ts2[i], ts3[i]) (mem_iff_getElem.mpr ⟨i, by simp; omega, by simp⟩)
  simpa using hT _ (getElem_mem h1) _ (getElem_mem h2) _ (getElem_mem h3) hRi hSi

section Transitivity
variable (henv : env.Consistent decls Γ) (hapart : CovariantApart env.cons)
include henv hapart

/-- Casts between type constructors compose, given that casts of their arguments do. -/
theorem castable_tCon_trans {R S : Ty → Ty → Prop}
    (hu : (Ty.tCon u.tcname u.tcargs).WellFormed Γ.arity)
    (hv : (Ty.tCon v.tcname v.tcargs).WellFormed Γ.arity)
    (hw : (Ty.tCon w.tcname w.tcargs).WellFormed Γ.arity)
    (hRS : ∀ t1 ∈ u.tcargs, ∀ t2 ∈ v.tcargs, ∀ t3 ∈ w.tcargs, R t1 t2 → S t2 t3 →
      Castable env t1 t3) (hR : CastRule env R (.tCon u.tcname u.tcargs) (.tCon v.tcname v.tcargs))
    (hS : CastRule env S (.tCon v.tcname v.tcargs) (.tCon w.tcname w.tcargs)) :
    Castable env (.tCon u.tcname u.tcargs) (.tCon w.tcname w.tcargs) := by
  refine CastRule.castable (castRule_tCon_iff.mpr ?_)
  rw [castRule_tCon_iff] at hR hS
  split at hR
  · rename_i huv
    split at hS
    · rename_i hvw
      rw [if_pos ⟨huv.1.trans hvw.1, huv.2⟩]
      refine forall_zip_trans ?_ ?_ hR hS hRS
      · rw [hu.1, hv.1, huv.1]
      · rw [hv.1, hw.1, hvw.1]
    · rename_i hvw
      have hcov : v.tcname ∈ covariant := huv.1 ▸ huv.2
      have hne : v.tcname ≠ w.tcname := fun h => hvw ⟨h, hcov⟩
      rw [if_neg fun h => hne (huv.1.symm.trans h.1)]
      exact hapart.findAncestor_eq henv.hierarchy huv.1 hcov hne hS
  · rename_i huv
    split at hS
    · rename_i hvw
      have hne : u.tcname ≠ v.tcname := fun h => huv ⟨h, h ▸ hvw.2⟩
      exact absurd hvw.2 (hapart.tcname_not_mem hne hR)
    · rename_i hvw
      have huw := findAncestor_trans henv.hierarchy
        (fun d hd => hu.1.trans (henv.arity _ d hd).symm) hR hS
      rw [if_neg, huw]
      -- a covariant class would be its own ancestor, through `v`
      rintro ⟨hn, hcov⟩
      rw [hn] at hcov
      refine hapart.tcname_not_mem (fun h => hvw ⟨h, h ▸ hcov⟩) hS hcov

/-- Casts compose. The induction is on the fuel of both casts together: each rule spends fuel of
one of them, while a bound may be larger than the variable that it replaces. -/
theorem castable_trans_of_fuel {k n m : ℕ} (hk : n + m ≤ k) {t1 t2 t3 : Ty}
    (h1 : t1.WellFormed Γ.arity) (h2 : t2.WellFormed Γ.arity) (h3 : t3.WellFormed Γ.arity)
    (h12 : castable env n t1 t2 = some true) (h23 : castable env m t2 t3 = some true) :
    Castable env t1 t3 := by
  induction k generalizing n m t1 t2 t3 with
  | zero =>
    obtain rfl : n = 0 := by omega
    simp [castable] at h12
  | succ k ih =>
    obtain _ | n := n
    · simp [castable] at h12
    obtain _ | m := m
    · simp [castable] at h23
    have hrule1 := castable_succ_iff.mp h12
    have hrule2 := castable_succ_iff.mp h23
    -- an option on the right is peeled off, whatever rule the first cast is by
    have hopt : ∀ {t : Ty}, t3 = .tOpt t → t1.Solid → castable env m t2 t = some true →
        Castable env t1 t3 := by
      rintro t rfl hs ht
      exact CastRule.castable (.opt hs (ih (by omega) h1 h2 h3 h12 ht))
    have hcon : ∀ {u v w : TCon}, t1 = .tCon u.tcname u.tcargs → t2 = .tCon v.tcname v.tcargs →
        t3 = .tCon w.tcname w.tcargs → Castable env t1 t3 := by
      rintro u v w rfl rfl rfl
      refine castable_tCon_trans henv hapart h1 h2 h3 ?_ hrule1 hrule2
      intro s1 hs1 s2 hs2 s3 hs3
      exact ih (by omega) (Ty.wellFormedList_iff.mp h1.2 s1 hs1)
        (Ty.wellFormedList_iff.mp h2.2 s2 hs2) (Ty.wellFormedList_iff.mp h3.2 s3 hs3)
    cases hrule1
    case wildLeft => exact h1.elim
    case wildRight => exact h2.elim
    case tVar => exact castable_iff.mpr ⟨_, h23⟩
    case bound hc ht =>
      obtain ⟨κ, hκ⟩ := henv.bound _ _ hc
      exact CastRule.castable (.bound hc (ih (by omega) hκ.wellFormed h2 h3 ht h23))
    all_goals
      cases hrule2 <;>
        first
        | exact h3.elim
        | exact hopt rfl trivial (by assumption)
        | exact hcon (u := ⟨_, _⟩) (v := ⟨_, _⟩) (w := ⟨_, _⟩) rfl rfl rfl
        | exact CastRule.noneOpt.castable
        | skip
    case opt.opt hs _ | tOpt.opt hs _ => exact hs.elim
    case opt.tOpt hs ht _ ht' =>
      simp only [Ty.WellFormed] at h2 h3
      exact CastRule.castable (.opt hs (ih (by omega) h1 h2 h3 ht ht'))
    case tOpt.tOpt ht _ ht' =>
      simp only [Ty.WellFormed] at h1 h2 h3
      exact CastRule.castable (.tOpt (ih (by omega) h1 h2 h3 ht ht'))
    case tNone.tNone => exact CastRule.tNone.castable
    case tFun.tFun hfx hp hk ht _ _ _ _ hfx' hp' hk' ht' =>
      obtain ⟨hf1, hp1, hk1, ht1⟩ := h1
      obtain ⟨hf2, hp2, hk2, ht2⟩ := h2
      obtain ⟨hf3, hp3, hk3, ht3⟩ := h3
      exact CastRule.castable (.tFun (ih (by omega) hf1 hf2 hf3 hfx hfx')
        (ih (by omega) hp3 hp2 hp1 hp' hp) (ih (by omega) hk3 hk2 hk1 hk' hk)
        (ih (by omega) ht1 ht2 ht3 ht ht'))
    case tTuple.tTuple hp hk _ _ hp' hk' =>
      exact CastRule.castable (.tTuple (ih (by omega) h1.1 h2.1 h3.1 hp hp')
        (ih (by omega) h1.2 h2.2 h3.2 hk hk'))
    case tFX.tFX h _ h' => exact CastRule.castable (.tFX (FX.castable_trans h h'))
    case tNil.tNil => exact CastRule.tNil.castable
    case tRow.tRow ht hr _ _ ht' hr' =>
      exact CastRule.castable (.tRow (ih (by omega) h1.1 h2.1 h3.1 ht ht')
        (ih (by omega) h1.2 h2.2 h3.2 hr hr'))
    case tStar.tStar hr _ hr' =>
      simp only [Ty.WellFormed] at h1 h2 h3
      exact CastRule.castable (.tStar (ih (by omega) h1 h2 h3 hr hr'))

end Transitivity
end Cast

/-! ### Correctness -/

/-- `class list[A]: ...`. -/
def listDecl : ConDecl := ⟨gBuiltin "list", [⟨.name "A"⟩], []⟩

/-- `class Names(list[None]): ...`. -/
def namesDecl : ConDecl := ⟨.noQ (.name "Names"), [], [⟨gBuiltin "list", [.tNone]⟩]⟩

/-- The environment with `list` alone, and a type variable `X` that `list[None]` bounds. -/
def listEnv : CastEnv where
  cons := update (fun _ => none) listDecl.name (some ⟨listDecl.qbound, []⟩)
  findTVBound v := if v = ⟨.name "X"⟩ then some ⟨gBuiltin "list", [.tNone]⟩ else none

/-- The same environment with the class `Names`. -/
def namesEnv : CastEnv where
  cons := update listEnv.cons namesDecl.name
    (some ⟨[], [([.inl (gBuiltin "list")], ⟨gBuiltin "list", [.tNone]⟩)]⟩)
  findTVBound := listEnv.findTVBound

/-- `list` takes a type, every other class no argument. -/
def listKinds : KindEnv where
  tcKind n := if n = gBuiltin "list" then .kFun [.kType] .kType else .kType
  tvKind _ := .kType
  uvKind _ := .kType

lemma hierarchy_listEnv :
    Hierarchy (update (fun _ => none) listDecl.name (some listDecl)) listEnv.cons :=
  .declare .empty rfl ⟨by simp [Declared, listDecl], by simp [listDecl], by decide⟩
    (Mro.merge_of_uncons_eq_nil [] rfl)

lemma consistent_listEnv : listEnv.Consistent
    (update (fun _ => none) listDecl.name (some listDecl)) listKinds := by
  refine ⟨hierarchy_listEnv, fun n d hd => ?_, fun v c hc => ?_⟩
  · obtain ⟨rfl, rfl⟩ : n = listDecl.name ∧ listDecl = d := by
      simpa [update_apply] using hd
    rfl
  · obtain ⟨-, rfl⟩ : v = ⟨.name "X"⟩ ∧ ⟨gBuiltin "list", [.tNone]⟩ = c := by
      simpa [listEnv] using hc
    exact ⟨.kType, rfl, .inr ⟨[.kType], rfl, rfl, trivial⟩⟩

lemma consistent_namesEnv : namesEnv.Consistent
    (update (update (fun _ => none) listDecl.name (some listDecl))
      namesDecl.name (some namesDecl)) listKinds := by
  refine ⟨.declare hierarchy_listEnv rfl ⟨?_, by simp [namesDecl, vfree], by simp [namesDecl]⟩
    ((Mro.merge_of_good_eq_cons [] rfl rfl).trans (Mro.merge_of_uncons_eq_nil _ rfl)),
    fun n d hd => ?_, consistent_listEnv.bound⟩
  · intro u hu
    obtain rfl : u = ⟨gBuiltin "list", [.tNone]⟩ := by simpa [namesDecl] using hu
    exact ⟨listDecl, rfl, rfl⟩
  · by_cases hn : n = namesDecl.name
    · obtain rfl : namesDecl = d := by simpa [hn] using hd
      subst hn
      rfl
    · rw [update_of_ne hn] at hd
      exact consistent_listEnv.arity n d hd

lemma covariantApart_listEnv : CovariantApart listEnv.cons := by
  have hnil : ∀ n i, listEnv.cons n = some i → i.ancestors = [] := by
    intro n i hi
    obtain ⟨-, rfl⟩ : n = listDecl.name ∧ ⟨listDecl.qbound, []⟩ = i := by
      simpa [listEnv, update_apply] using hi
    rfl
  constructor
  · intro n i hi
    simp [hnil n i hi]
  · intro n _ i hi
    simp [hnil n i hi]

/-- The type `list[t]`. -/
def tList (t : Ty) : Ty := .tCon (gBuiltin "list") [t]

end Acton
