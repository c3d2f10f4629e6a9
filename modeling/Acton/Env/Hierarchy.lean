import Acton.Env.Mro

/-!
# Class hierarchies

A hierarchy is declared one class or protocol at a time; the environment stores for each the
ancestors that `mro` computes from its direct parents (`Hierarchy`). Independently of what is
stored, `Ancestor` says which instances of classes are reached from given parents by following
declarations.

The main result `mro_correct` is that `mro` returns a linearization of the ancestors, and fails
exactly when there is none or when some class is reached with two argument lists.
-/

namespace Acton
open List Function TCon Mro

/-- The type variable `Self`. -/
def tvSelf : TVar := ⟨.name "Self"⟩

/-- The header of a class or protocol declaration: name, type parameters and direct parents. -/
structure ConDecl where
  name : QName
  qbound : List TVar
  parents : List TCon

/-- The declarations made so far. -/
abbrev Decls := QName → Option ConDecl

/-- Each class in `us` is declared and is applied to as many arguments as it has parameters. -/
def Declared (decls : Decls) (us : List TCon) : Prop :=
  ∀ u ∈ us, ∃ d, decls u.tcname = some d ∧ u.tcargs.length = d.qbound.length

/-- A declaration that name resolution and kind checking let through: the parents are declared, and
mention no type variables but the parameters and `Self`. -/
structure ConDecl.WellScoped (decls : Decls) (d : ConDecl) : Prop where
  declared : Declared decls d.parents
  vfree_subset : ∀ u ∈ d.parents, ∀ t ∈ u.tcargs, ∀ v ∈ vfree t, v ∈ d.qbound ∨ v = tvSelf
  self_not_mem : tvSelf ∉ d.qbound

/-- The environments that arise from declaring classes one after the other, each after its parents
and with the ancestors that `mro` finds. -/
inductive Hierarchy : Decls → ConEnv → Prop
  | empty : Hierarchy (fun _ => none) (fun _ => none)
  | declare {decls : Decls} {env : ConEnv} {d : ConDecl} {as : List WTCon} :
      Hierarchy decls env → decls d.name = none → d.WellScoped decls → mro env d.parents = .ok as →
      Hierarchy (update decls d.name (some d))
        (update env d.name (some ⟨d.qbound, as⟩))

/-- The instances of classes reached from the parents `us`. -/
inductive Ancestor (decls : Decls) (us : List TCon) : TCon → Prop
  | parent {u : TCon} : u ∈ us → Ancestor decls us u
  | step {u p : TCon} {d : ConDecl} : Ancestor decls us u → decls u.tcname = some d →
      p ∈ d.parents → Ancestor decls us (p.vsubst (d.qbound.zip u.tcargs))

/-- The linearization of a class: the class itself and its stored ancestors. -/
def linearization (env : ConEnv) (u : TCon) : List TCon :=
  match findCon env u with
  | .ok as => u :: as.map Prod.snd
  | .error _ => []

/-- `L` is an ordering of the ancestors of `us` that keeps the order of the parents and the order
of each parent's linearization. -/
structure IsLinearization (decls : Decls) (env : ConEnv) (us L : List TCon) : Prop where
  mem_iff : ∀ u, u ∈ L ↔ Ancestor decls us u
  nodup : L.Nodup
  parents : us.Sublist L
  linearizations : ∀ u ∈ us, (linearization env u).Sublist L

/-- Some class is reached with two different argument lists. -/
def InstClash (decls : Decls) (us : List TCon) : Prop :=
  ∃ u₁ u₂, Ancestor decls us u₁ ∧ Ancestor decls us u₂ ∧ u₁.tcname = u₂.tcname ∧
    u₁.tcargs ≠ u₂.tcargs

/-! ### Instantiation -/

/-- Instantiating a parent and then substituting in the result is instantiating it at the
substituted arguments. -/
theorem vsubst_vsubst_zip {d : ConDecl} {decls : Decls} (hd : d.WellScoped decls) {p : TCon}
    (hp : p ∈ d.parents) {ts : List Ty} (hlen : ts.length = d.qbound.length) {s : Substitution}
    (hs : s.lookup tvSelf = none) :
    (p.vsubst (d.qbound.zip ts)).vsubst s = p.vsubst (d.qbound.zip (ts.map (Ty.vsubst s))) := by
  rw [vsubst, vsubst, vsubst, mk.injEq, map_map]
  refine ⟨rfl, map_congr_left fun t ht => Ty.vsubst_vsubst fun v hv => ?_⟩
  simp only [Ty.vsubst, lookup_zip_map]
  cases hv' : (d.qbound.zip ts).lookup v with
  | some t => rfl
  | none =>
    -- only `Self` is not a parameter, and `s` leaves it alone
    have hself : v = tvSelf :=
      (hd.vfree_subset p hp t ht v hv).resolve_left ((lookup_zip_eq_none_iff hlen).mp hv')
    simp [Ty.vsubst, hself, hs]

lemma vsubst_zip_self (vs : List TVar) (v : TVar) :
    Ty.vsubst (vs.zip (vs.map Ty.tVar)) (.tVar v) = .tVar v := by
  rw [Ty.vsubst]
  induction vs with
  | nil => rfl
  | cons w vs ih =>
    simp only [map_cons, zip_cons_cons, lookup_cons]
    by_cases h : v = w
    · simp [h]
    · rw [show (v == w) = false by simpa using h]
      exact ih

/-- `findCon` instantiates the stored ancestors; the source's shortcut for the parameters
themselves makes no difference. -/
theorem findCon_eq {env : ConEnv} {u : TCon} {i : ConInfo} (hi : env u.tcname = some i) :
    findCon env u = .ok (i.ancestors.map fun p => (p.1, p.2.vsubst (i.qbound.zip u.tcargs))) := by
  simp only [findCon, hi]
  split
  · rename_i heq
    have hid : ∀ p : WTCon, p.2.vsubst (i.qbound.zip u.tcargs) = p.2 := by
      rintro ⟨w, n, ts⟩
      rw [vsubst, mk.injEq, ← heq]
      refine ⟨rfl, ?_⟩
      calc ts.map (Ty.vsubst _) = ts.map id :=
            map_congr_left fun t _ => Ty.vsubst_eq_self (vsubst_zip_self i.qbound) t
        _ = ts := map_id ts
    simp [hid]
  · rfl

/-! ### Ancestors -/

section Declarations
variable {decls : Decls} {us : List TCon} {d : ConDecl}

/-- A fresh declaration keeps what is declared. -/
theorem Declared.update (h : Declared decls us) (hd : decls d.name = none) :
    Declared (update decls d.name (some d)) us := by
  intro u hu
  obtain ⟨d', hd', hlen⟩ := h u hu
  have hne : u.tcname ≠ d.name := fun e => by simp [e, hd] at hd'
  exact ⟨d', by rwa [update_of_ne hne], hlen⟩

section
variable (h : Hierarchy decls env)
include h

/-- Each declaration of a hierarchy stands under its own name and is well scoped. -/
theorem Hierarchy.wellScoped {n : QName} (hn : decls n = some d) :
    d.name = n ∧ d.WellScoped decls := by
  induction h generalizing n d with
  | empty => simp at hn
  | @declare decls env d' as h hfresh hscope hmro ih =>
    have hup : ∀ d : ConDecl, d.WellScoped decls →
        d.WellScoped (update decls d'.name (some d')) := fun d hd =>
      ⟨hd.declared.update hfresh, hd.vfree_subset, hd.self_not_mem⟩
    by_cases hname : n = d'.name
    · subst hname
      obtain rfl : d' = d := by simpa using hn
      exact ⟨rfl, hup _ hscope⟩
    · rw [update_of_ne hname] at hn
      exact ⟨(ih hn).1, hup _ (ih hn).2⟩

/-- Every ancestor is declared, and is applied to as many arguments as it has parameters. -/
theorem Ancestor.declared (hus : Declared decls us) {u : TCon} (hu : Ancestor decls us u) :
    ∃ d, decls u.tcname = some d ∧ u.tcargs.length = d.qbound.length := by
  induction hu with
  | parent hu => exact hus _ hu
  | step _ hd hp _ =>
    obtain ⟨d', hd', hlen⟩ := (h.wellScoped hd).2.declared _ hp
    exact ⟨d', hd', by simpa using hlen⟩

/-- A fresh declaration adds no ancestors to classes declared before. -/
theorem ancestor_update_iff (hus : Declared decls us) (hd : decls d.name = none)
    {u : TCon} : Ancestor (update decls d.name (some d)) us u ↔ Ancestor decls us u := by
  have hne : ∀ {u : TCon} {d' : ConDecl}, decls u.tcname = some d' → u.tcname ≠ d.name :=
    fun hu e => by simp [e, hd] at hu
  constructor
  · intro hu
    induction hu with
    | parent hu => exact .parent hu
    | step _ hd' hp ih =>
      obtain ⟨d0, hd0, -⟩ := ih.declared h hus
      rw [update_of_ne (hne hd0)] at hd'
      exact .step ih hd' hp
  · intro hu
    induction hu with
    | parent hu => exact .parent hu
    | step _ hd' hp ih => exact .step ih (by rwa [update_of_ne (hne hd')]) hp

/-- The ancestors of instantiated parents are the instantiated ancestors. -/
theorem ancestor_map_vsubst_iff (hus : Declared decls us) {s : Substitution}
    (hs : s.lookup tvSelf = none) {u : TCon} :
    Ancestor decls (us.map (TCon.vsubst s)) u ↔ ∃ u0, Ancestor decls us u0 ∧ u0.vsubst s = u := by
  have hstep : ∀ {u0 p : TCon} {d : ConDecl}, Ancestor decls us u0 → decls u0.tcname = some d →
      p ∈ d.parents → (p.vsubst (d.qbound.zip u0.tcargs)).vsubst s =
        p.vsubst (d.qbound.zip (u0.vsubst s).tcargs) := by
    intro u0 p d hu0 hd hp
    obtain ⟨d', hd', hlen⟩ := hu0.declared h hus
    obtain rfl : d = d' := Option.mem_unique hd hd'
    exact vsubst_vsubst_zip (h.wellScoped hd).2 hp hlen hs
  constructor
  · intro hu
    induction hu with
    | parent hu =>
      obtain ⟨u0, hu0, rfl⟩ := mem_map.mp hu
      exact ⟨u0, .parent hu0, rfl⟩
    | step _ hd hp ih =>
      obtain ⟨u0, hu0, rfl⟩ := ih
      exact ⟨_, .step hu0 hd hp, hstep hu0 hd hp⟩
  · rintro ⟨u0, hu0, rfl⟩
    induction hu0 with
    | parent hu => exact .parent (mem_map_of_mem hu)
    | step hu0 hd hp ih =>
      rw [hstep hu0 hd hp]
      exact .step ih hd hp

end

/-- The ancestors of `us` are the classes in `us` and the ancestors of their instantiated
parents. -/
theorem ancestor_iff {u : TCon} :
    Ancestor decls us u ↔ ∃ v ∈ us, u = v ∨ ∃ d, decls v.tcname = some d ∧
      Ancestor decls (d.parents.map (TCon.vsubst (d.qbound.zip v.tcargs))) u := by
  constructor
  · intro hu
    induction hu with
    | parent hu => exact ⟨_, hu, .inl rfl⟩
    | step _ hd hp ih =>
      obtain ⟨v, hv, rfl | ⟨d', hd', ih⟩⟩ := ih
      · exact ⟨_, hv, .inr ⟨_, hd, .parent (mem_map_of_mem hp)⟩⟩
      · exact ⟨v, hv, .inr ⟨d', hd', .step ih hd hp⟩⟩
  · rintro ⟨v, hv, rfl | ⟨d, hd, hu⟩⟩
    · exact .parent hv
    · induction hu with
      | parent hu =>
        obtain ⟨p, hp, rfl⟩ := mem_map.mp hu
        exact .step (.parent hv) hd hp
      | step _ hd' hp ih => exact .step ih hd' hp

end Declarations

/-! ### Correctness of `mro` -/

/-- The environment stores the ancestors of each declared class. -/
def Stored (decls : Decls) (env : ConEnv) : Prop :=
  ∀ n d, decls n = some d → ∃ as, env n = some ⟨d.qbound, as⟩ ∧
    ∀ u, u ∈ as.map Prod.snd ↔ Ancestor decls d.parents u

section Mro
variable {decls : Decls} {env : ConEnv} {us : List TCon}

lemma map_snd_withPaths (us : List TCon) : (Mro.withPaths us).map Prod.snd = us := by
  cases us with
  | nil => rfl
  | cons u us =>
    rw [withPaths, map_cons, map_map]
    exact congrArg (u :: ·) (map_id us)

/-- `mro` merges the linearizations of the parents and the list of the parents. -/
theorem mro_eq_merge (hst : Stored decls env) (hus : Declared decls us) :
    ∃ lists, mro env us = Mro.merge [] lists ∧
      lists.map (List.map Prod.snd) = us.map (linearization env) ++ [us] := by
  have hlin : ∀ p ∈ withPaths us, ∃ l, lin env p = .ok l ∧
      l.map Prod.snd = linearization env p.2 := by
    intro p hp
    have hpu : p.2 ∈ us := map_snd_withPaths us ▸ mem_map_of_mem hp
    obtain ⟨d, hd, -⟩ := hus p.2 hpu
    obtain ⟨as, has, -⟩ := hst _ d hd
    refine ⟨_, by rw [lin, findCon_eq has]; rfl, ?_⟩
    simp only [linearization, findCon_eq has, map_cons, map_map]
    rfl
  choose! f hf hsnd using hlin
  refine ⟨(withPaths us).map f ++ [withPaths us], ?_, ?_⟩
  · rw [mro, Except.mapM_eq_ok_map hf]
    rfl
  · rw [map_append, map_map, map_singleton, map_snd_withPaths]
    congr 1
    calc (withPaths us).map (List.map Prod.snd ∘ f)
        = (withPaths us).map (linearization env ∘ Prod.snd) := map_congr_left hsnd
      _ = ((withPaths us).map Prod.snd).map (linearization env) := (map_map).symm
      _ = us.map (linearization env) := by rw [map_snd_withPaths]

section
variable (h : Hierarchy decls env) (hst : Stored decls env)
include h hst

lemma mem_linearization_iff {v : TCon} {d : ConDecl} (hd : decls v.tcname = some d)
    (hlen : v.tcargs.length = d.qbound.length) {u : TCon} :
    u ∈ linearization env v ↔
      u = v ∨ Ancestor decls (d.parents.map (TCon.vsubst (d.qbound.zip v.tcargs))) u := by
  obtain ⟨as, has, hmem⟩ := hst _ d hd
  have hscope := (h.wellScoped hd).2
  have hself := (lookup_zip_eq_none_iff hlen).mpr hscope.self_not_mem
  rw [ancestor_map_vsubst_iff h hscope.declared hself]
  simp only [linearization, findCon_eq has, mem_cons, map_map, mem_map, comp_apply]
  refine or_congr Iff.rfl ⟨?_, ?_⟩
  · rintro ⟨p, hp, rfl⟩
    exact ⟨p.2, (hmem _).mp (mem_map_of_mem hp), rfl⟩
  · rintro ⟨u0, hu0, rfl⟩
    obtain ⟨p, hp, rfl⟩ := mem_map.mp ((hmem u0).mpr hu0)
    exact ⟨p, hp, rfl⟩

/-- Parents and linearizations together hold exactly the ancestors. -/
theorem exists_mem_lists_iff (hus : Declared decls us) {u : TCon} :
    (∃ l ∈ us.map (linearization env) ++ [us], u ∈ l) ↔ Ancestor decls us u := by
  rw [ancestor_iff]
  simp only [mem_append, mem_map, mem_singleton]
  constructor
  · rintro ⟨l, ⟨v, hv, rfl⟩ | rfl, hu⟩
    · obtain ⟨d, hd, hlen⟩ := hus v hv
      refine ⟨v, hv, ((mem_linearization_iff h hst hd hlen).mp hu).imp_right fun hu => ⟨d, hd, hu⟩⟩
    · exact ⟨u, hu, .inl rfl⟩
  · rintro ⟨v, hv, hu⟩
    obtain ⟨d, hd, hlen⟩ := hus v hv
    refine ⟨_, .inl ⟨v, hv, rfl⟩, (mem_linearization_iff h hst hd hlen).mpr (hu.imp_right ?_)⟩
    rintro ⟨d', hd', hu⟩
    obtain rfl : d = d' := Option.mem_unique hd hd'
    exact hu

lemma mro_sound (hus : Declared decls us) {res : List WTCon} (hres : mro env us = .ok res) :
    IsLinearization decls env us (res.map Prod.snd) ∧
      ((res.map Prod.snd).map TCon.tcname).Nodup := by
  obtain ⟨lists, hmro, hlists⟩ := mro_eq_merge hst hus
  obtain ⟨res', heq, hmerge⟩ := merge_sound (hmro.symm.trans hres)
  obtain rfl : res = res' := heq
  have hsub : ∀ l ∈ us.map (linearization env) ++ [us], l.Sublist (res.map Prod.snd) := by
    intro l hl
    rw [← hlists] at hl
    obtain ⟨l', hl', rfl⟩ := mem_map.mp hl
    exact hmerge.sublist l' hl'
  have hnodup : ((res.map Prod.snd).map tcname).Nodup := by
    rw [map_map]
    exact hmerge.nodup
  refine ⟨⟨fun u => ?_, hnodup.of_map _, hsub us (by simp), fun u hu => ?_⟩, hnodup⟩
  · rw [← exists_mem_lists_iff h hst hus]
    constructor
    · intro hu
      obtain ⟨p, hp, rfl⟩ := mem_map.mp hu
      obtain ⟨l, hl, hpl⟩ := hmerge.mem p hp
      exact ⟨_, hlists ▸ mem_map_of_mem hl, mem_map_of_mem hpl⟩
    · rintro ⟨l, hl, hu⟩
      exact (hsub l hl).subset hu
  · exact hsub _ (mem_append_left _ (mem_map_of_mem hu))

end

/-- Every environment of a hierarchy stores the ancestors of its classes. -/
theorem Hierarchy.stored (h : Hierarchy decls env) : Stored decls env := by
  induction h with
  | empty => intro n d hd; simp at hd
  | @declare decls env d as h hfresh hscope hmro ih =>
    intro n d' hd'
    by_cases hn : n = d.name
    · subst hn
      obtain rfl : d = d' := by simpa using hd'
      refine ⟨as, by simp, fun u => ?_⟩
      rw [ancestor_update_iff h hscope.declared hfresh]
      exact (mro_sound h ih hscope.declared hmro).1.mem_iff u
    · rw [update_of_ne hn] at hd' ⊢
      obtain ⟨as', has', hmem⟩ := ih n d' hd'
      refine ⟨as', has', fun u => ?_⟩
      rw [ancestor_update_iff h (h.wellScoped hd').2.declared hfresh]
      exact hmem u

lemma IsLinearization.nodup_tcname {L : List TCon} (hL : IsLinearization decls env us L)
    (hclash : ¬ InstClash decls us) : (L.map TCon.tcname).Nodup := by
  refine (nodup_map_iff_inj_on hL.nodup).mpr fun u1 hu1 u2 hu2 hn => ?_
  by_contra hne
  refine hclash ⟨u1, u2, (hL.mem_iff u1).mp hu1, (hL.mem_iff u2).mp hu2, hn, fun hargs => hne ?_⟩
  cases u1
  cases u2
  simp_all

/-- For every hierarchy and every list of declared parents, `mro` returns a linearization of the
ancestors, and it reports an error exactly when no linearization exists or some class is reached
with two different argument lists. The parents need not be distinct: a repeated parent has no
linearization. -/
theorem mro_correct (h : Hierarchy decls env) (hus : Declared decls us) :
    (∀ res, mro env us = .ok res → IsLinearization decls env us (res.map Prod.snd)) ∧
      ((∃ e, mro env us = .error e) ↔
        (¬ ∃ L, IsLinearization decls env us L) ∨ InstClash decls us) := by
  refine ⟨fun res hres => (mro_sound h h.stored hus hres).1, ?_⟩
  rw [Except.exists_error_iff, ← not_iff_not, not_not, not_or, not_not]
  constructor
  · rintro ⟨res, hres⟩
    obtain ⟨hlin, hnodup⟩ := mro_sound h h.stored hus hres
    refine ⟨⟨_, hlin⟩, ?_⟩
    rintro ⟨u1, u2, hu1, hu2, hn, hargs⟩
    have := inj_on_of_nodup_map hnodup ((hlin.mem_iff u1).mpr hu1)
      ((hlin.mem_iff u2).mpr hu2) hn
    exact hargs (congrArg tcargs this)
  · rintro ⟨⟨L, hL⟩, hclash⟩
    obtain ⟨lists, hmro, hlists⟩ := mro_eq_merge h.stored hus
    rw [hmro]
    refine merge_complete (hL.nodup_tcname hclash) [] fun l hl => ?_
    have hl' : l.map Prod.snd ∈ us.map (linearization env) ++ [us] := hlists ▸ mem_map_of_mem hl
    rcases mem_append.mp hl' with hl' | hl'
    · obtain ⟨u, hu, heq⟩ := mem_map.mp hl'
      exact heq ▸ hL.linearizations u hu
    · rw [mem_singleton.mp hl']
      exact hL.parents

end Mro

/-- `class A[T]` and `class B[S](A[S])`, declared in this order. -/
def exampleA : ConDecl := ⟨.noQ (.name "A"), [⟨.name "T"⟩], []⟩

@[inherit_doc exampleA]
def exampleB : ConDecl :=
  ⟨.noQ (.name "B"), [⟨.name "S"⟩], [⟨.noQ (.name "A"), [.tVar ⟨.name "S"⟩]⟩]⟩

/-- The two declarations by name. -/
def exampleDecls : Decls :=
  update (update (fun _ => none) exampleA.name (some exampleA)) exampleB.name
    (some exampleB)

/-- The environment after the two declarations. -/
def exampleEnv : ConEnv :=
  update (update (fun _ => none) exampleA.name (some ⟨exampleA.qbound, []⟩))
    exampleB.name (some ⟨exampleB.qbound,
      [([.inl (.noQ (.name "A"))], ⟨.noQ (.name "A"), [.tVar ⟨.name "S"⟩]⟩)]⟩)

lemma hierarchy_example : Hierarchy exampleDecls exampleEnv := by
  refine .declare (d := exampleB) (.declare (d := exampleA) .empty rfl ?_ ?_) rfl ?_ ?_
  · exact ⟨by simp [Declared, exampleA], by simp [exampleA], by decide⟩
  · exact merge_of_uncons_eq_nil [] rfl
  · refine ⟨?_, ?_, by decide⟩
    · intro u hu
      obtain rfl := mem_singleton.mp hu
      exact ⟨exampleA, rfl, rfl⟩
    · simp [exampleB, vfree]
  · exact (merge_of_good_eq_cons [] rfl rfl).trans (merge_of_uncons_eq_nil _ rfl)

/-- `B[None]` has a linearization; `A[None]` and `B[None?]` together reach `A` in two ways. -/
theorem mro_correct_example :
    IsLinearization exampleDecls exampleEnv [⟨.noQ (.name "B"), [.tNone]⟩]
        [⟨.noQ (.name "B"), [.tNone]⟩, ⟨.noQ (.name "A"), [.tNone]⟩] ∧
      ∃ e, mro exampleEnv [⟨.noQ (.name "A"), [.tNone]⟩, ⟨.noQ (.name "B"), [.tOpt .tNone]⟩] =
        .error e := by
  constructor
  · have hdeclared : Declared exampleDecls [⟨.noQ (.name "B"), [.tNone]⟩] := by
      intro u hu
      obtain rfl := mem_singleton.mp hu
      exact ⟨exampleB, rfl, rfl⟩
    refine (mro_correct hierarchy_example hdeclared).1
      [([.inl (.noQ (.name "B"))], ⟨.noQ (.name "B"), [.tNone]⟩),
        ([.inl (.noQ (.name "B")), .inl (.noQ (.name "A"))], ⟨.noQ (.name "A"), [.tNone]⟩)] ?_
    exact ((merge_of_good_eq_cons [] rfl rfl).trans
      (merge_of_good_eq_cons _ rfl rfl)).trans (merge_of_uncons_eq_nil _ rfl)
  · refine ((mro_correct hierarchy_example ?_).2).mpr (.inr ⟨_, _, .parent mem_cons_self,
      .step (.parent (mem_cons_of_mem _ mem_cons_self)) (d := exampleB) rfl
        mem_cons_self, rfl, by decide⟩)
    intro u hu
    rcases mem_cons.mp hu with rfl | hu
    · exact ⟨exampleA, rfl, rfl⟩
    · obtain rfl := mem_singleton.mp hu
      exact ⟨exampleB, rfl, rfl⟩

end Acton
