import Mathlib.Tactic

/-!
# Listing what a node depends on

A graph is given by the list of dependencies of each node. `Lists deps a l` says that `l` has the
nodes below `a`, each one after its dependencies, with `a` at the head (so in reverse order), and
that it has duplicates exactly if the graph below `a` is no tree.

Such a list is made from lists for the dependencies, one after the other (`Lists.cons`).
-/

namespace Listing
open List
variable {α : Type*} (deps : α → List α)

/-- `b` is `a` or below `a`. -/
def Reach : α → α → Prop := Relation.ReflTransGen fun a b => b ∈ deps a

/-- No node is below itself. -/
def Acyclic : Prop := ∀ a b, b ∈ deps a → ¬ Reach deps b a

/-- Every node below `a` is a dependency of one node below `a` only, and once. -/
structure Tree (a : α) : Prop where
  nodup : ∀ b, Reach deps a b → (deps b).Nodup
  unique : ∀ b c x, Reach deps a b → Reach deps a c → x ∈ deps b → x ∈ deps c → b = c

variable {deps} {a b c x : α}

lemma reach_iff : Reach deps a b ↔ b = a ∨ ∃ d ∈ deps a, Reach deps d b := by
  constructor
  · intro h
    rcases Relation.ReflTransGen.cases_head h with h | ⟨d, hd, hb⟩
    · exact .inl h.symm
    · exact .inr ⟨d, hd, hb⟩
  · rintro (rfl | ⟨d, hd, hb⟩)
    · exact .refl
    · exact .head hd hb

/-- A graph whose steps go down has no cycle. -/
theorem acyclic_of_rank (f : α → ℕ) (h : ∀ a, ∀ b ∈ deps a, f b < f a) : Acyclic deps := by
  have hle : ∀ a b, Reach deps a b → f b ≤ f a := by
    intro a b hab
    induction hab with
    | refl => exact Nat.le_refl _
    | tail _ hstep ih => exact Nat.le_trans (Nat.le_of_lt (h _ _ hstep)) ih
  intro a b hb hba
  exact absurd (h a b hb) (Nat.not_lt.mpr (hle b a hba))

lemma Tree.of_reach (h : Tree deps a) (hab : Reach deps a b) : Tree deps b where
  nodup c hc := h.nodup c (hab.trans hc)
  unique c d x hc hd := h.unique c d x (hab.trans hc) (hab.trans hd)

/-- In a tree, what is above one node is in a line. -/
theorem Tree.reach_or_reach (h : Tree deps a) (hb : Reach deps a b) (hc : Reach deps a c)
    (hbx : Reach deps b x) (hcx : Reach deps c x) : Reach deps b c ∨ Reach deps c b := by
  -- follow the path from `b` backwards; the one from `c` must go the same way
  induction hbx with
  | refl => exact .inr hcx
  | @tail y z hby hyz ih =>
    rcases Relation.ReflTransGen.cases_tail hcx with hzc | ⟨y', hcy', hyz'⟩
    · exact .inl (hzc ▸ hby.tail hyz)
    · have hyy' : y = y' := h.unique y y' z (hb.trans hby) (hc.trans hcy') hyz hyz'
      exact ih (hyy' ▸ hcy')

/-- Different dependencies of a node have nothing in common below them. -/
theorem Tree.disjoint (h : Tree deps a) (hac : Acyclic deps) (hb : b ∈ deps a) (hc : c ∈ deps a)
    (hne : b ≠ c) (hbx : Reach deps b x) : ¬ Reach deps c x := by
  -- one dependency would be below the other, but the last step to it starts at `a`
  have hstep : ∀ d e, d ∈ deps a → e ∈ deps a → d ≠ e → ¬ Reach deps d e := by
    intro d e hd he hde hreach
    rcases Relation.ReflTransGen.cases_tail hreach with heq | ⟨y, hdy, hye⟩
    · exact hde heq.symm
    · have hya : y = a := h.unique y a e (.head hd hdy) .refl hye he
      exact hac a d hd (hya ▸ hdy)
  intro hcx
  rcases h.reach_or_reach (.single hb) (.single hc) hbx hcx with hbc | hcb
  · exact hstep b c hb hc hne hbc
  · exact hstep c b hc hb hne.symm hcb

variable (deps) in
/-- `l` lists what is below `a`, in reverse. -/
structure Lists (a : α) (l : List α) : Prop where
  mem_iff : ∀ b, b ∈ l ↔ Reach deps a b
  ordered : ∀ l₁ b l₂, l = l₁ ++ b :: l₂ → deps b ⊆ l₂
  nodup_iff : l.Nodup ↔ Tree deps a

variable (deps) in
/-- `l` is made of lists for the nodes `as`, the last one first. -/
inductive ListsAll : List α → List α → Prop
  | nil : ListsAll [] []
  | cons {a : α} {as l ls : List α} : Lists deps a l → ListsAll as ls → ListsAll (a :: as) (ls ++ l)

variable {as l : List α}

lemma ListsAll.mem_iff (h : ListsAll deps as l) : b ∈ l ↔ ∃ a ∈ as, Reach deps a b := by
  induction h with
  | nil => simp
  | cons ha _ ih => simp [ih, ha.mem_iff, or_comm]

/-- What is in front of a listing does not disturb its order. -/
theorem ordered_append {l l' : List α} (h : ∀ l1 b l2, l = l1 ++ b :: l2 → deps b ⊆ l2)
    (h' : ∀ l1 b l2, l' = l1 ++ b :: l2 → deps b ⊆ l2) :
    ∀ l1 b l2, l' ++ l = l1 ++ b :: l2 → deps b ⊆ l2 := by
  intro l1 b l2 heq
  rcases append_eq_append_iff.mp heq with ⟨m, rfl, hm⟩ | ⟨m, rfl, hm⟩
  · exact h m b l2 hm
  · cases m with
    | nil => exact h [] b l2 (by simpa using hm.symm)
    | cons c m =>
      obtain ⟨rfl, rfl⟩ := List.cons.inj hm
      exact subset_append_of_subset_left _ (h' l1 b m rfl)

lemma ListsAll.ordered (h : ListsAll deps as l) : ∀ l1 b l2, l = l1 ++ b :: l2 → deps b ⊆ l2 := by
  induction h with
  | nil => simp
  | cons ha _ ih => exact ordered_append ha.ordered ih

/-- The list has no duplicates if the parts have none and nothing in common. -/
theorem ListsAll.nodup_iff (h : ListsAll deps as l) : l.Nodup ↔ (∀ a ∈ as, Tree deps a) ∧
      as.Pairwise fun a b => ∀ x, Reach deps a x → ¬ Reach deps b x := by
  induction h with
  | nil => simp
  | @cons a as l ls ha has ih =>
    rw [nodup_append, ih, ha.nodup_iff, forall_mem_cons, pairwise_cons]
    have hdisj : (∀ x ∈ ls, ∀ y ∈ l, x ≠ y) ↔ ∀ b ∈ as, ∀ x, Reach deps a x → ¬ Reach deps b x := by
      simp only [has.mem_iff, ha.mem_iff]
      constructor
      · intro h b hb x hax hbx
        exact h x ⟨b, hb, hbx⟩ x hax rfl
      · rintro h x ⟨b, hb, hbx⟩ y hay rfl
        exact h b hb x hay hbx
    rw [hdisj]
    constructor
    · rintro ⟨⟨hrest, hpair⟩, hfirst, hapart⟩
      exact ⟨⟨hfirst, hrest⟩, hapart, hpair⟩
    · rintro ⟨⟨hfirst, hrest⟩, hapart, hpair⟩
      exact ⟨⟨hrest, hpair⟩, hfirst, hapart⟩

/-- If everything below the dependencies is a tree of its own, all is a tree. -/
theorem tree_of_deps (hac : Acyclic deps) (htree : ∀ d ∈ deps a, Tree deps d)
    (hdisj : (deps a).Pairwise fun b c => ∀ x, Reach deps b x → ¬ Reach deps c x) :
    Tree deps a := by
  have hnodup : (deps a).Nodup := by
    refine hdisj.imp ?_
    rintro b _ h rfl
    exact h b .refl .refl
  have heq : ∀ d ∈ deps a, ∀ e ∈ deps a, ∀ x, Reach deps d x → Reach deps e x → d = e := by
    intro d hd e he x hdx hex
    by_contra hne
    have : Std.Symm fun b c => ∀ x, Reach deps b x → ¬ Reach deps c x :=
      ⟨fun b c h x hc hb => h x hb hc⟩
    exact hdisj.forall hd he hne x hdx hex
  constructor
  · intro b hb
    rcases reach_iff.mp hb with rfl | ⟨d, hd, hdb⟩
    · exact hnodup
    · exact (htree d hd).nodup b hdb
  · intro b c x hb hc hxb hxc
    -- a node below a dependency that has `x`, and `a` itself has `x`: there would be a cycle
    have hroot : ∀ d ∈ deps a, ∀ y, Reach deps d y → x ∈ deps y → x ∉ deps a := by
      intro d hd y hdy hxy hxa
      have hdx : d = x := heq d hd x hxa x (hdy.tail hxy) .refl
      exact hac y x hxy (hdx ▸ hdy)
    rcases reach_iff.mp hb with rfl | ⟨d, hd, hdb⟩ <;>
      rcases reach_iff.mp hc with rfl | ⟨e, he, hec⟩
    · rfl
    · exact absurd hxb (hroot e he c hec hxc)
    · exact absurd hxc (hroot d hd b hdb hxb)
    · have hde : d = e := heq d hd e he x (hdb.tail hxb) (hec.tail hxc)
      subst hde
      exact (htree d hd).unique b c x hdb hec hxb hxc

/-- A node in front of the lists of its dependencies. -/
theorem Lists.cons (hac : Acyclic deps) (h : ListsAll deps (deps a) l) : Lists deps a (a :: l) where
  mem_iff b := by rw [mem_cons, h.mem_iff, reach_iff]
  ordered := by
    have hsingle : ∀ l1 b l2, [a] ++ l = l1 ++ b :: l2 → deps b ⊆ l2 := by
      intro l1 b l2 heq
      cases l1 with
      | nil =>
        obtain ⟨rfl, rfl⟩ := List.cons.inj heq
        exact fun d hd => h.mem_iff.mpr ⟨d, hd, .refl⟩
      | cons c l1 => exact h.ordered l1 b l2 (List.cons.inj heq).2
    exact hsingle
  nodup_iff := by
    have hnot : a ∉ l := by
      rw [h.mem_iff]
      rintro ⟨d, hd, hda⟩
      exact hac a d hd hda
    rw [nodup_cons, h.nodup_iff]
    constructor
    · rintro ⟨-, htree, hdisj⟩
      exact tree_of_deps hac htree hdisj
    · intro htree
      refine ⟨hnot, fun d hd => htree.of_reach (.single hd), ?_⟩
      refine (htree.nodup a .refl).imp_of_mem fun hb hc hne x hbx => ?_
      exact htree.disjoint hac hb hc hne hbx

end Listing
