import Acton.Subst
import Acton.ToMathlib.ListMerge
import Acton.ToMathlib.Except

/-!
# Method resolution order

`mro` computes the ancestors of a class or protocol from its direct parents, each with the path
of witnesses that leads to it. It merges the ancestor lists of the parents, as the environment
stores them, with the list of the parents itself: the next ancestor is a head that occurs in no
tail. The source raises its errors lazily, inside list elements; every element is inspected before
the next choice, so raising them at once is the same.
-/

namespace Acton
open List

/-- The parents followed to reach an ancestor; `inl` for the first parent, `inr` for the others. -/
abbrev WPath := List (QName ⊕ QName)

/-- An ancestor with its path. -/
abbrev WTCon := WPath × TCon

/-- What the environment knows about a class or protocol: its type parameters and its ancestors. -/
structure ConInfo where
  qbound : List TVar
  ancestors : List WTCon

/-- The classes and protocols of an environment. -/
abbrev ConEnv := QName → Option ConInfo

/-- The errors of `mro`. -/
inductive MroError
  | noCon (n : QName)
  | inconsistentOrder (heads : List TCon)
  | inconsistentInst (u₁ u₂ : TCon)
  deriving DecidableEq, Repr

/-- The ancestors of a class or protocol at given type arguments. -/
def findCon (env : ConEnv) (u : TCon) : Except MroError (List WTCon) :=
  match env u.tcname with
  | none => .error (.noCon u.tcname)
  | some i =>
      if i.qbound.map .tVar = u.tcargs then .ok i.ancestors
      else .ok (i.ancestors.map fun p => (p.1, p.2.vsubst (i.qbound.zip u.tcargs)))

variable {h : WTCon}
namespace Mro

/-- The direct parents with their paths. -/
def withPaths : List TCon → List WTCon
  | [] => []
  | u :: us => ([.inl u.tcname], u) :: us.map fun u => ([.inr u.tcname], u)

/-- The linearization of a parent: itself, then its ancestors. -/
def lin (env : ConEnv) (p : WTCon) : Except MroError (List WTCon) := do
  let us' ← findCon env p.2
  return p :: us'.map fun q => (p.1 ++ q.1, q.2)

/-- Whether two entries stand for the same class; an error if they differ in their arguments. -/
def equal (p₁ p₂ : WTCon) : Except MroError Bool :=
  if p₁.2.tcname = p₂.2.tcname then
    if p₁.2.tcargs = p₂.2.tcargs then .ok true else .error (.inconsistentInst p₁.2 p₂.2)
  else .ok false

/-- The class of `h` does not occur in `us`. -/
def absent (h : WTCon) (us : List WTCon) : Bool := decide (h.2.tcname ∉ us.map fun p => p.2.tcname)

/-- `[ (hd,tl) | hd:tl <- lists ]`. -/
def uncons : List (List WTCon) → List (WTCon × List WTCon)
  | [] => []
  | [] :: ls => uncons ls
  | (hd :: tl) :: ls => (hd, tl) :: uncons ls

/-- The heads that occur in no tail. -/
def good (lists : List (List WTCon)) : List WTCon :=
  ((uncons lists).map Prod.fst).filter fun h => ((uncons lists).map Prod.snd).all (absent h)

/-- `[ if equal hd h then tl else hd:tl | (hd,tl) <- zip heads tails ]`. -/
def advance (h : WTCon) : List (WTCon × List WTCon) → Except MroError (List (List WTCon))
  | [] => .ok []
  | (hd, tl) :: ps => do
      let b ← equal hd h
      let ls ← advance h ps
      return (if b then tl else hd :: tl) :: ls

/-- `equal` compares the classes, and insists on equal arguments when they are the same. -/
theorem equal_eq_ok_iff {p1 p2 : WTCon} {b : Bool} : equal p1 p2 = .ok b ↔
      (p1.2.tcname = p2.2.tcname → p1.2 = p2.2) ∧ b = decide (p1.2.tcname = p2.2.tcname) := by
  obtain ⟨w1, n1, ts1⟩ := p1
  obtain ⟨w2, n2, ts2⟩ := p2
  by_cases hn : n1 = n2
  · by_cases hts : ts1 = ts2
    · simp [equal, hn, hts, eq_comm]
    · simp [equal, hn, hts]
  · simp [equal, hn, eq_comm]

/-- `advance` removes the heads of the class of `h`, unless one of them differs from `h`. -/
theorem advance_eq_ok_iff {ps : List (WTCon × List WTCon)} {ls : List (List WTCon)} :
    advance h ps = .ok ls ↔ (∀ p ∈ ps, p.1.2.tcname = h.2.tcname → p.1.2 = h.2) ∧
        ls = ps.map fun p => if p.1.2.tcname = h.2.tcname then p.2 else p.1 :: p.2 := by
  induction ps generalizing ls with
  | nil => simp [advance, eq_comm]
  | cons p ps ih =>
    simp only [advance, Except.bind_eq_ok_iff, Except.pure_eq_ok_iff, equal_eq_ok_iff, ih,
      forall_mem_cons, map_cons]
    constructor
    · rintro ⟨b, ⟨hp, rfl⟩, ls', ⟨hps, rfl⟩, rfl⟩
      exact ⟨⟨hp, hps⟩, by simp⟩
    · rintro ⟨⟨hp, hps⟩, rfl⟩
      exact ⟨_, ⟨hp, rfl⟩, _, ⟨hps, rfl⟩, by simp⟩

/-- The number of entries that are left to merge. -/
def total (lists : List (List WTCon)) : ℕ := (lists.map List.length).sum

lemma total_uncons (lists : List (List WTCon)) :
    total ((uncons lists).map fun p => p.1 :: p.2) = total lists := by
  fun_induction uncons lists with
  | case1 => rfl
  | case2 ls ih => simpa [total] using ih
  | case3 hd tl ls ih => simpa [total] using ih

/-- Removing the heads of the class of `h` leaves fewer entries, if `h` is one of the heads. -/
theorem total_advance {ps : List (WTCon × List WTCon)} {ls : List (List WTCon)}
    (hadv : advance h ps = .ok ls) (hh : h ∈ ps.map Prod.fst) :
    total ls < total (ps.map fun p => p.1 :: p.2) := by
  obtain ⟨-, rfl⟩ := advance_eq_ok_iff.mp hadv
  obtain ⟨p, hp, rfl⟩ := mem_map.mp hh
  simp only [total, map_map]
  refine sum_lt_sum _ _ (fun q _ => ?_) ⟨p, hp, by simp⟩
  simp only [Function.comp_apply]
  split <;> simp

/-- Merge ancestor lists: take the first head that occurs in no tail, remove it from all lists,
and go on until the lists are empty. -/
def merge (out : List WTCon) (lists : List (List WTCon)) : Except MroError (List WTCon) :=
  if (uncons lists).isEmpty then .ok out.reverse
  else
    match _hg : good lists with
    | h :: _ =>
        match _hadv : advance h (uncons lists) with
        | .ok lists' => merge (h :: out) lists'
        | .error e => .error e
    | [] => .error (.inconsistentOrder ((uncons lists).map fun p => p.1.2))
termination_by total lists
decreasing_by
  have hh : h ∈ (uncons lists).map Prod.fst :=
    (mem_filter.mp (_hg ▸ mem_cons_self : h ∈ good lists)).1
  exact (total_advance _hadv hh).trans_eq (total_uncons lists)

end Mro
open Mro in
/-- The ancestors of a class or protocol with the direct parents `us`. -/
def mro (env : ConEnv) (us : List TCon) : Except MroError (List WTCon) := do
  let lists ← (withPaths us).mapM (lin env)
  merge [] (lists ++ [withPaths us])

namespace Mro

/-! ### Soundness and completeness of `merge` -/

variable {lists : List (List WTCon)}

lemma mem_uncons {p : WTCon × List WTCon} : p ∈ uncons lists ↔ p.1 :: p.2 ∈ lists := by
  obtain ⟨hd, tl⟩ := p
  fun_induction uncons lists with
  | case1 => simp
  | case2 ls ih => simpa using ih
  | case3 hd tl ls ih => simp [ih]

lemma mem_good : h ∈ good lists ↔
      (∃ tl, h :: tl ∈ lists) ∧ ∀ l ∈ lists, ∀ p ∈ l.tail, p.2.tcname ≠ h.2.tcname := by
  have htails : (∀ p ∈ uncons lists, absent h p.2) ↔
      ∀ l ∈ lists, ∀ p ∈ l.tail, p.2.tcname ≠ h.2.tcname := by
    constructor
    · intro H l hl p hp
      cases l with
      | nil => simp at hp
      | cons hd tl =>
        have := H (hd, tl) (mem_uncons.mpr hl)
        simp only [absent, mem_map, not_exists, not_and, decide_eq_true_eq] at this
        exact this p hp
    · intro H p hp
      simp only [absent, mem_map, not_exists, not_and, decide_eq_true_eq]
      exact H _ (mem_uncons.mp hp)
  rw [good, mem_filter, all_map, all_eq_true]
  refine and_congr ?_ htails
  simp [mem_uncons]

variable {lists lists' : List (List WTCon)}

/-- What remains of the lists after `h` has been chosen. -/
theorem mem_of_advance (hadv : advance h (uncons lists) = .ok lists') {l : List WTCon} :
    l ∈ lists' ↔ (∃ hd, hd :: l ∈ lists ∧ hd.2.tcname = h.2.tcname) ∨
        (∃ hd tl, l = hd :: tl ∧ l ∈ lists ∧ hd.2.tcname ≠ h.2.tcname) := by
  obtain ⟨-, rfl⟩ := advance_eq_ok_iff.mp hadv
  simp only [mem_map, mem_uncons]
  constructor
  · rintro ⟨p, hp, rfl⟩
    by_cases hn : p.1.2.tcname = h.2.tcname
    · rw [if_pos hn]
      exact .inl ⟨p.1, hp, hn⟩
    · rw [if_neg hn]
      exact .inr ⟨p.1, p.2, rfl, hp, hn⟩
  · rintro (⟨hd, hl, hn⟩ | ⟨hd, tl, rfl, hl, hn⟩)
    · exact ⟨(hd, l), hl, by simp [hn]⟩
    · exact ⟨(hd, tl), hl, by simp [hn]⟩

lemma merge_of_uncons_eq_nil (out : List WTCon) (h : uncons lists = []) :
    merge out lists = .ok out.reverse := by
  rw [merge, if_pos (by simp [h])]

lemma merge_of_good_eq_cons {hs : List WTCon} (out : List WTCon) (hg : good lists = h :: hs)
    (hadv : advance h (uncons lists) = .ok lists') : merge out lists = merge (h :: out) lists' := by
  have hne : ¬ (uncons lists).isEmpty = true := by
    intro hnil
    simp [good, isEmpty_iff.mp hnil] at hg
  rw [merge, if_neg hne]
  split
  · rename_i hg'
    obtain ⟨rfl, -⟩ := List.cons.inj (hg.symm.trans hg')
    split
    · rename_i hadv'
      rw [Except.ok.inj (hadv.symm.trans hadv')]
    · rename_i hadv'
      cases hadv.symm.trans hadv'
  · rename_i hg'
    simp [hg] at hg'

/-- `res` is a merge of `lists`: all lists are sublists of it, it has no class twice, and each
entry comes from one of the lists. -/
structure IsMerge (lists : List (List WTCon)) (res : List WTCon) : Prop where
  sublist : ∀ l ∈ lists, (l.map Prod.snd).Sublist (res.map Prod.snd)
  nodup : (res.map fun p => p.2.tcname).Nodup
  mem : ∀ p ∈ res, ∃ l ∈ lists, p ∈ l

/-- Choosing `h` first is right if the rest is merged right. -/
theorem IsMerge.cons {res : List WTCon} (hgood : h ∈ good lists)
    (hadv : advance h (uncons lists) = .ok lists') (hres : IsMerge lists' res) :
    IsMerge lists (h :: res) := by
  obtain ⟨⟨tl0, hl0⟩, habs⟩ := mem_good.mp hgood
  have hsame := (advance_eq_ok_iff.mp hadv).1
  have hmem := fun l => mem_of_advance hadv (l := l)
  refine ⟨fun l hl => ?_, ?_, fun p hp => ?_⟩
  · cases l with
    | nil => simp
    | cons hd tl =>
      by_cases hn : hd.2.tcname = h.2.tcname
      · rw [map_cons, map_cons, hsame (hd, tl) (mem_uncons.mpr hl) hn]
        exact (hres.sublist tl ((hmem tl).mpr (.inl ⟨hd, hl, hn⟩))).cons_cons _
      · exact (hres.sublist _ ((hmem _).mpr (.inr ⟨hd, tl, rfl, hl, hn⟩))).cons _
  · -- the class of `h` is gone from all lists: from the tails by choice, from the heads by removal
    rw [map_cons, nodup_cons]
    refine ⟨fun hp => ?_, hres.nodup⟩
    obtain ⟨p, hp, hn⟩ := mem_map.mp hp
    obtain ⟨l, hl, hpl⟩ := hres.mem p hp
    rcases (hmem l).mp hl with ⟨hd, hl', -⟩ | ⟨hd, tl, rfl, hl', hne⟩
    · exact habs _ hl' p hpl hn
    · rcases mem_cons.mp hpl with rfl | hpl
      · exact hne hn
      · exact habs _ hl' p hpl hn
  · rcases mem_cons.mp hp with rfl | hp
    · exact ⟨_, hl0, by simp⟩
    · obtain ⟨l, hl, hpl⟩ := hres.mem p hp
      rcases (hmem l).mp hl with ⟨hd, hl', -⟩ | ⟨hd, tl, rfl, hl', -⟩
      · exact ⟨_, hl', mem_cons_of_mem _ hpl⟩
      · exact ⟨_, hl', hpl⟩

/-- A successful `merge` adds a merge of the lists to what is already there. -/
theorem merge_sound {out res : List WTCon} (hres : merge out lists = .ok res) :
    ∃ res', res = out.reverse ++ res' ∧ IsMerge lists res' := by
  fun_induction merge out lists with
  | case1 out lists hnil =>
    obtain rfl : out.reverse = res := Except.ok.inj hres
    refine ⟨[], by simp, fun l hl => ?_, by simp, by simp⟩
    cases l with
    | nil => simp
    | cons hd tl =>
      have := mem_uncons (p := (hd, tl)).mpr hl
      simp [isEmpty_iff.mp hnil] at this
  | case2 out lists hne h _ hg lists' hadv ih =>
    obtain ⟨res', rfl, hmerge⟩ := ih hres
    have hgood : h ∈ good lists := hg ▸ mem_cons_self
    exact ⟨h :: res', by simp, hmerge.cons hgood hadv⟩
  | case3 => cases hres
  | case4 => cases hres

/-- Choosing `h` keeps the lists within an order that they all follow. -/
theorem sublist_of_advance {L : List TCon} (hsub : ∀ l ∈ lists, (l.map Prod.snd).Sublist L)
    (hadv : advance h (uncons lists) = .ok lists') : ∀ l ∈ lists', (l.map Prod.snd).Sublist L := by
  intro l hl
  rcases (mem_of_advance hadv).mp hl with ⟨hd, hl', -⟩ | ⟨hd, tl, rfl, hl', -⟩
  · exact (sublist_cons_self _ _).trans (hsub _ hl')
  · exact hsub _ hl'

/-- `merge` succeeds on lists that all follow one order without repeated classes. -/
theorem merge_complete {L : List TCon} (hL : (L.map TCon.tcname).Nodup) (out : List WTCon)
    (hsub : ∀ l ∈ lists, (l.map Prod.snd).Sublist L) : ∃ res, merge out lists = .ok res := by
  fun_induction merge out lists with
  | case1 => exact ⟨_, rfl⟩
  | case2 out lists hne h _ hg lists' hadv ih => exact ih (sublist_of_advance hsub hadv)
  | case3 out lists hne h _ hg e hadv =>
    -- two entries of one class are the same entry of `L`, so no instantiations clash
    obtain ⟨⟨tl, hl⟩, -⟩ := mem_good.mp (hg ▸ mem_cons_self : h ∈ good lists)
    have hsame : ∀ p ∈ uncons lists, p.1.2.tcname = h.2.tcname → p.1.2 = h.2 := fun p hp hn =>
      inj_on_of_nodup_map hL
        ((hsub _ (mem_uncons.mp hp)).subset (mem_map_of_mem mem_cons_self))
        ((hsub _ hl).subset (mem_map_of_mem mem_cons_self)) hn
    rw [advance_eq_ok_iff.mpr ⟨hsame, rfl⟩] at hadv
    cases hadv
  | case4 out lists hne hg =>
    -- the first class of `L` that is left is a good head
    have hnames : ∀ l ∈ lists.map (List.map fun p => p.2.tcname),
        l.Sublist (L.map TCon.tcname) := by
      intro ns hns
      obtain ⟨l, hl, rfl⟩ := mem_map.mp hns
      have := (hsub l hl).map TCon.tcname
      rw [map_map] at this
      exact this
    obtain ⟨p, hp⟩ := exists_mem_of_ne_nil _ (mt isEmpty_iff.mpr hne)
    obtain ⟨n, ns, hns, habs⟩ := exists_good_head hL hnames
      ⟨_, mem_map_of_mem (mem_uncons.mp hp), by simp⟩
    obtain ⟨l, hl, heq⟩ := mem_map.mp hns
    cases l with
    | nil => simp at heq
    | cons h tl =>
      obtain ⟨hn, -⟩ := List.cons.inj heq
      have hgood : h ∈ good lists := by
        refine mem_good.mpr ⟨⟨tl, hl⟩, fun l' hl' q hq hqn => ?_⟩
        refine habs _ (mem_map_of_mem hl') ?_
        rw [← map_tail, ← hn, show (fun p : WTCon => p.2.tcname) h = _ from hqn.symm]
        exact mem_map_of_mem hq
      simp [hg] at hgood

end Mro
end Acton
