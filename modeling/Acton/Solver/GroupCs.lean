import Acton.Solver.Constraints
import Acton.ToMathlib.Grouping
import Acton.Unify

/-!
# Independent groups of constraints

The solver works on groups of constraints that have no unification variable in common. `groupCs`
finds the groups by unification. `mark` makes all variables of the `n`-th plain constraint equal to
a token, so that the substitution then sends all of them to one variable; `group` puts each
constraint under the variable that it is left with. The substitution is rolled back at the end.

An `Imply` is taken apart. The constraints in it are marked one by one, and each group in which some
of them end up gets an `Imply` of its own, with the same binder around these. `leaves` lists the
plain constraints with the binders that they stand under, and `groupCs_correct` says that the groups
are a partition of the leaves.
-/

namespace Acton.Solver
open TermAlgebra Grouping List TypeM.Runs Identifies

/-! ### The source -/

/-- The variable that stands for the `i`-th constraint. -/
def unitoken (i : ℕ) : TUni := ⟨-(i * 2)⟩
def newUnivarToken (n : ℕ) : Ty := .tUni (unitoken n)

section Source

/- For an attribute, the unification variables in its types, over all classes of the environment
that have it. -/
variable (allConAttrUFree : Name → List TUni)

def attrfree : Plain → List TUni
  | .sel _ _ _ _ n _ => allConAttrUFree n
  | .mut_ _ _ _ n _ => allConAttrUFree n
  | _ => []

mutual
/-- Mark the constraints from the number `n` on; the answer is the next number. -/
def mark (fuel n : ℕ) : List Constraint → TypeM ErrInfo ℕ
  | [] => return n
  | c :: cs => do
      let n' ← markOne fuel n c
      mark fuel n' cs

def markOne (fuel n : ℕ) : Constraint → TypeM ErrInfo ℕ
  | .imply _ _ _ cs' => mark fuel n cs'
  | .plain c => do
      let tvs ← USubst.ufree <$> USubst.usubst fuel c
      let tvs' ← USubst.ufree <$> USubst.usubst fuel ((attrfree allConAttrUFree c).map Ty.tUni)
      (tvs ++ tvs').eraseDups.forM fun tv =>
        unify (.dfltInfo 1 [] []) fuel (newUnivarToken n) (.tUni tv)
      return n + 1
end

mutual
/-- Put the constraints into the map of groups, which is ordered by the numbers of the variables. -/
def group (fuel : ℕ) (m : List (ℤ × List Constraint)) :
    List Constraint → TypeM ErrInfo (List (ℤ × List Constraint))
  | [] => return m
  | c :: cs => do
      let m' ← groupOne fuel m c
      group fuel m' cs

def groupOne (fuel : ℕ) (m : List (ℤ × List Constraint)) :
    Constraint → TypeM ErrInfo (List (ℤ × List Constraint))
  | .imply i w q cs => do
      let m' ← group fuel [] cs
      return m'.foldr (fun p => insertWith p.1 [.imply i w q p.2]) m
  | .plain c => do
      let tvs ← USubst.ufree <$> USubst.usubst fuel c
      let tv := match tvs with
        | [] => unitoken 0
        | tv :: _ => tv
      return insertWith tv.uvid [.plain c] m
end

def groupCs (fuel : ℕ) (cs : List Constraint) : TypeM ErrInfo (List (List Constraint)) := do
  let st ← TypeM.currentState
  let _ ← mark allConAttrUFree fuel 1 cs
  let m ← group fuel [] cs
  TypeM.rollbackState st
  return m.map Prod.snd

end Source

/-! ### Leaves -/

/-- What an `Imply` puts around a constraint. -/
abbrev Binder : Type := ErrInfo × Name × Syn.QBinds

/-- A plain constraint under the binders of the `Imply`s around it. -/
abbrev Leaf : Type := List Binder × Plain

mutual
def leavesOf : Constraint → List Leaf
  | .plain c => [([], c)]
  | .imply i w q cs => (leaves cs).map fun l => ((i, w, q) :: l.1, l.2)

def leaves : List Constraint → List Leaf
  | [] => []
  | c :: cs => leavesOf c ++ leaves cs
end

lemma leaves_eq_flatMap (cs : List Constraint) : leaves cs = cs.flatMap leavesOf := by
  induction cs with
  | nil => simp [leaves]
  | cons c cs ih => simp [leaves, ih]

/-! ### Marking -/

/-- The variables of a constraint under the substitution. -/
noncomputable def uvars {s : UniSubst} (h : WellFounded (Dep (T := Ty) fun u => s.lookup u))
    (c : Plain) : List TUni :=
  ufreeList ((USubst.types c).map fun t => t.bind (resolve h))

/-- The substitution `s'` makes variables equal that `s` leaves unbound. -/
abbrev Merges (s s' : UniSubst) : Prop :=
  Identifies (T := Ty) (fun u => s.lookup u) fun u => s'.lookup u

/-- The substitution leaves a constraint with at most one variable. -/
def Joined {s : UniSubst} (h : WellFounded (Dep (T := Ty) fun u => s.lookup u)) (c : Plain) :
    Prop :=
  ∀ x ∈ uvars h c, ∀ y ∈ uvars h c, x = y

variable {c : Plain}
section Marking
variable {ι : Type} {s s' : UniSubst} {h : s.Founded}

lemma mem_uvars {x : TUni} :
    x ∈ uvars h c ↔ ∃ t ∈ USubst.types c, x ∈ ufree (t.bind (resolve h)) := by
  simp [uvars, mem_ufreeList]

/-- The variables that `usubst` leaves in data with the types `ts`. -/
theorem runs_ufree {α : Type} [USubst α] [USubst.Lawful α] (h : s.Founded) (a : α) :
    TypeM.Runs (ι := ι) (fun n => USubst.ufree <$> USubst.usubst n a) s
      (.ok (ufreeList ((USubst.types a).map fun t => t.bind (resolve h)))) s := by
  obtain ⟨a', hrun, ha'⟩ := USubst.Lawful.resolves (ι := ι) h a
  rw [← ha']
  simp only [map_eq_pure_bind]
  exact hrun.bind_ok (pure _)

lemma lookup_eq_none_of_mem_uvars {x : TUni} (hx : x ∈ uvars h c) : s.lookup x = none := by
  obtain ⟨t, -, hx⟩ := mem_uvars.mp hx
  exact eq_none_of_mem_vars_bind_resolve h hx

/-- A variable of a constraint becomes a variable of the constraint. -/
theorem Merges.mem_uvars (h' : Merges s s') {x : TUni} (hx : x ∈ uvars h c) :
    ∃ y ∈ uvars h'.wellFounded c, resolve h'.wellFounded x = .tUni y := by
  obtain ⟨t, ht, hx⟩ := Solver.mem_uvars.mp hx
  obtain ⟨y, hy, hxy⟩ := mem_vars_bind_resolve h' h hx
  exact ⟨y, Solver.mem_uvars.mpr ⟨t, ht, hy⟩, hxy⟩

lemma Merges.exists_of_mem_uvars (h' : Merges s s') {y : TUni} (hy : y ∈ uvars h'.wellFounded c) :
    ∃ x ∈ uvars h c, resolve h'.wellFounded x = .tUni y := by
  obtain ⟨t, ht, hy⟩ := Solver.mem_uvars.mp hy
  obtain ⟨x, hx, hxy⟩ := exists_of_mem_vars h' h hy
  exact ⟨x, Solver.mem_uvars.mpr ⟨t, ht, hx⟩, hxy⟩

lemma Joined.mono (hc : Joined h c) (h' : Merges s s') : Joined h'.wellFounded c := by
  intro y hy y' hy'
  obtain ⟨x, hx, hxy⟩ := Merges.exists_of_mem_uvars (h := h) h' hy
  obtain ⟨x', hx', hxy'⟩ := Merges.exists_of_mem_uvars (h := h) h' hy'
  rw [hc x hx x' hx', hxy'] at hxy
  exact (Ty.tUni.inj hxy).symm

/-- Unifying what the substitution sends to variables makes them equal. -/
theorem runs_unify_tUni (info : ι) {u v : TUni} (hu : ∃ x, resolve h u = .tUni x)
    (hv : ∃ y, resolve h v = .tUni y) :
    ∃ s', TypeM.Runs (fun n => unify info n (.tUni u) (.tUni v)) s (.ok ()) s' ∧
      ∃ h' : Merges s s', resolve h'.wellFounded u = resolve h'.wellFounded v := by
  obtain ⟨x, hx⟩ := hu
  obtain ⟨y, hy⟩ := hv
  have hrunu : TypeM.Runs (ι := ι) (fun n => usubst n (.tUni u)) s (.ok (.tUni x)) s :=
    hx ▸ runs_usubst h (.tUni u)
  have hrunv : TypeM.Runs (ι := ι) (fun n => usubst n (.tUni v)) s (.ok (.tUni y)) s :=
    hy ▸ runs_usubst h (.tUni v)
  have hnone : ∀ {w z : TUni}, resolve h w = .tUni z → s.lookup z = none := fun {w z} hw =>
    eq_none_of_mem_vars_resolve h (x := w) (hw ▸ (mem_vars_var z z).mpr rfl)
  by_cases hxy : x = y
  · subst hxy
    refine ⟨s, (hrunu.bind_ok (hrunv.bind_ok ?_)).of_succ fun n => rfl, refl h, ?_⟩
    · exact Fuel.Converges.const _ |>.congr fun n => by simp [unify']
    · rw [hx, hy]
  · refine ⟨s.insert x (.tUni y), (hrunu.bind_ok (hrunv.bind_ok ?_)).of_succ fun n => rfl, ?_⟩
    · refine Fuel.Converges.const _ |>.congr fun n => ?_
      simp [unify', ufree, Ne.symm hxy, hxy]
    · change ∃ h' : Identifies (T := Ty) (fun u => s.lookup u)
        (fun u => (s.insert x (.tUni y)).lookup u), resolve h'.wellFounded u = _
      rw [UniSubst.lookup_insert_eq_update]
      obtain ⟨h', heq⟩ := update h (hnone hx) (hnone hy) hxy
      refine ⟨h', ?_⟩
      rw [← h'.solves.bind_resolve h u, ← h'.solves.bind_resolve h v, hx, hy]
      exact heq

/-- The loop of `markOne` makes all variables of the list equal to the token. -/
theorem runs_forM_unify (info : ι) {u : TUni} (hu : ∃ x, resolve h u = .tUni x) {tvs : List TUni}
    (htvs : ∀ v ∈ tvs, ∃ y, resolve h v = .tUni y) :
    ∃ s', TypeM.Runs (fun n => tvs.forM fun v => unify info n (.tUni u) (.tUni v)) s (.ok ()) s' ∧
      ∃ h' : Merges s s', ∀ v ∈ tvs, resolve h'.wellFounded v = resolve h'.wellFounded u := by
  induction tvs generalizing s with
  | nil => exact ⟨s, pure (), refl h, by simp⟩
  | cons v tvs ih =>
    obtain ⟨s1, hrun1, h1, heq⟩ := runs_unify_tUni info hu (htvs v (by simp))
    obtain ⟨s2, hrun2, h2, htoken⟩ := ih (h := h1.wellFounded) (h1.isVar_of_isVar h hu)
      fun w hw => h1.isVar_of_isVar h (htvs w (by simp [hw]))
    refine ⟨s2, hrun1.bind_ok hrun2, h1.trans h2, fun w hw => ?_⟩
    rcases mem_cons.mp hw with rfl | hw
    · exact (h2.resolve_eq h1.wellFounded heq).symm
    · exact htoken w hw

variable (attrs : Name → List TUni)

lemma runs_markOne_plain (n : ℕ) (c : Plain) (htok : ∃ x, resolve h (unitoken n) = .tUni x) :
    ∃ s', TypeM.Runs (fun fuel => markOne attrs fuel n (.plain c)) s (.ok (n + 1)) s' ∧
      ∃ h' : Merges s s', Joined h'.wellFounded c := by
  have hvar : ∀ v, s.lookup v = none → ∃ y, resolve h v = .tUni y :=
    fun v hv => ⟨v, resolve_of_none h hv⟩
  have htvs : ∀ v ∈ (uvars h c ++ ufreeList ((USubst.types ((attrfree attrs c).map Ty.tUni)).map
      fun t => t.bind (resolve h))).eraseDups, ∃ y, resolve h v = .tUni y := by
    intro v hv
    rcases mem_append.mp (mem_eraseDups.mp hv) with hv | hv
    · exact hvar v (lookup_eq_none_of_mem_uvars hv)
    · obtain ⟨t, ht, hv⟩ := mem_ufreeList.mp hv
      obtain ⟨t, -, rfl⟩ := mem_map.mp ht
      exact hvar v (eq_none_of_mem_vars_bind_resolve h hv)
  obtain ⟨s', hrun, h', heq⟩ := runs_forM_unify (ErrInfo.dfltInfo 1 [] []) htok htvs
  refine ⟨s', ?_, h', fun y hy y' hy' => ?_⟩
  · simp only [markOne, newUnivarToken]
    refine (runs_ufree h c).bind_ok ?_
    refine (runs_ufree h _).bind_ok ?_
    exact hrun.bind_ok (pure (n + 1))
  -- both variables come from variables of the list, which are now the token
  · obtain ⟨x, hx, hxy⟩ := Merges.exists_of_mem_uvars (h := h) h' hy
    obtain ⟨x', hx', hxy'⟩ := Merges.exists_of_mem_uvars (h := h) h' hy'
    rw [heq x (mem_eraseDups.mpr (mem_append_left _ hx))] at hxy
    rw [heq x' (mem_eraseDups.mpr (mem_append_left _ hx')), hxy] at hxy'
    exact Ty.tUni.inj hxy'

mutual
/-- Marking always succeeds, and leaves each plain constraint with at most one variable. -/
theorem runs_mark {s : UniSubst} (h : s.Founded)
    (htok : ∀ n, ∃ x, resolve h (unitoken n) = .tUni x) (n : ℕ) :
    ∀ cs : List Constraint, ∃ n' s', TypeM.Runs (fun fuel => mark attrs fuel n cs) s (.ok n') s' ∧
      ∃ h' : Merges s s', ∀ l ∈ leaves cs, Joined h'.wellFounded l.2
  | [] => ⟨n, s, TypeM.Runs.pure n, Identifies.refl h, by simp [leaves]⟩
  | c :: cs => by
    obtain ⟨n1, s1, hrun1, h1, hc⟩ := runs_markOne h htok n c
    obtain ⟨n2, s2, hrun2, h2, hcs⟩ := runs_mark h1.wellFounded
      (fun n => h1.isVar_of_isVar h (htok n)) n1 cs
    refine ⟨n2, s2, hrun1.bind_ok hrun2, h1.trans h2, fun l hl => ?_⟩
    rw [leaves, mem_append] at hl
    rcases hl with hl | hl
    · exact (hc l hl).mono h2
    · exact hcs l hl

lemma runs_markOne {s : UniSubst} (h : s.Founded)
    (htok : ∀ n, ∃ x, resolve h (unitoken n) = .tUni x) (n : ℕ) :
    ∀ c : Constraint, ∃ n' s', TypeM.Runs (fun fuel => markOne attrs fuel n c) s (.ok n') s' ∧
      ∃ h' : Merges s s', ∀ l ∈ leavesOf c, Joined h'.wellFounded l.2
  | .plain c => by
    obtain ⟨s', hrun, h', hc⟩ := runs_markOne_plain attrs n c (htok n)
    refine ⟨n + 1, s', hrun, h', fun l hl => ?_⟩
    rw [leavesOf, mem_singleton] at hl
    rw [hl]
    exact hc
  | .imply i w q cs => by
    obtain ⟨n', s', hrun, h', hcs⟩ := runs_mark h htok n cs
    refine ⟨n', s', hrun, h', fun l hl => ?_⟩
    rw [leavesOf, mem_map] at hl
    obtain ⟨l, hl, rfl⟩ := hl
    exact hcs l hl
end
end Marking

/-! ### Putting constraints into groups -/

section Putting
variable {s : UniSubst} (h : s.Founded)

/-- The number of the variable under which `group` puts a constraint. -/
noncomputable def keyOf (c : Plain) : ℤ :=
  match uvars h c with
  | [] => (unitoken 0).uvid
  | tv :: _ => tv.uvid

variable {h} in
/-- A constraint with at most one variable is put under any variable that it has. -/
theorem Joined.keyOf_eq (hc : Joined h c) {x : TUni} (hx : x ∈ uvars h c) : keyOf h c = x.uvid := by
  unfold keyOf
  split
  · rename_i hnil
    simp [hnil] at hx
  · rename_i tv tvs hcons
    rw [hc tv (by simp [hcons]) x hx]

/-- There are plain constraints in `c`, and all of them belong under `k`. -/
def Under (k : ℤ) (c : Constraint) : Prop := leavesOf c ≠ [] ∧ ∀ l ∈ leavesOf c, keyOf h l.2 = k
def contents (m : List (ℤ × List Constraint)) : List Leaf := leaves (m.flatMap Prod.snd)

open scoped List

lemma leaves_append (cs cs' : List Constraint) : leaves (cs ++ cs') = leaves cs ++ leaves cs' := by
  simp [leaves_eq_flatMap]

lemma contents_insertWith (k : ℤ) (cs : List Constraint) (m : List (ℤ × List Constraint)) :
    contents (insertWith k cs m) ~ leaves cs ++ contents m := by
  rw [contents, contents, ← leaves_append, leaves_eq_flatMap, leaves_eq_flatMap]
  exact perm_insertWith.flatMap_right _

variable {h} in
/-- The groups of the constraints in an `Imply` go to the groups of the same keys outside. -/
theorem foldr_insertWith (i : ErrInfo) (w : Name) (q : Syn.QBinds)
    {m m' : List (ℤ × List Constraint)} (hm : Groups (Under h) m)
    (hne : ∀ p ∈ m', p.2 ≠ []) (hmem : ∀ p ∈ m', ∀ c ∈ p.2, Under h p.1 c) :
    Groups (Under h) (m'.foldr (fun p => insertWith p.1 [.imply i w q p.2]) m) ∧
      contents (m'.foldr (fun p => insertWith p.1 [.imply i w q p.2]) m) ~
        (contents m').map (fun l => ((i, w, q) :: l.1, l.2)) ++ contents m := by
  induction m' with
  | nil => exact ⟨hm, by simp [contents, leaves]⟩
  | cons p m' ih =>
    obtain ⟨hgroups, hperm⟩ := ih (fun p hp => hne p (by simp [hp]))
      fun p hp => hmem p (by simp [hp])
    have hp : Under h p.1 (.imply i w q p.2) := by
      obtain ⟨c, hc⟩ := exists_mem_of_ne_nil _ (hne p (by simp))
      constructor
      · obtain ⟨l, hl⟩ := exists_mem_of_ne_nil _ (hmem p (by simp) c hc).1
        simp only [leavesOf, leaves_eq_flatMap, ne_eq, map_eq_nil_iff]
        exact ne_nil_of_mem (mem_flatMap.mpr ⟨c, hc, hl⟩)
      · intro l hl
        rw [leavesOf, leaves_eq_flatMap, mem_map] at hl
        obtain ⟨l, hl, rfl⟩ := hl
        obtain ⟨c, hc, hl⟩ := mem_flatMap.mp hl
        exact (hmem p (by simp) c hc).2 l hl
    constructor
    · exact hgroups.insertWith (by simp) (by simpa using hp)
    · rw [foldr_cons]
      refine (contents_insertWith _ _ _).trans ?_
      have hcons : contents (p :: m') = leaves p.2 ++ contents m' := by
        rw [contents, flatMap_cons, leaves_append, contents]
      rw [hcons, map_append, append_assoc]
      have hleaf : leaves [.imply i w q p.2] =
          (leaves p.2).map fun l => ((i, w, q) :: l.1, l.2) := by
        simp [leaves, leavesOf]
      rw [hleaf]
      exact hperm.append_left _

mutual
/-- Grouping always succeeds. It keeps the map of groups in order and adds the leaves. -/
theorem runs_group (m : List (ℤ × List Constraint)) (hm : Groups (Under h) m) :
    ∀ cs : List Constraint, ∃ m', TypeM.Runs (fun fuel => group fuel m cs) s (.ok m') s ∧
      Groups (Under h) m' ∧ contents m' ~ leaves cs ++ contents m
  | [] => ⟨m, TypeM.Runs.pure m, hm, by simp [leaves]⟩
  | c :: cs => by
    obtain ⟨m1, hrun1, hm1, hperm1⟩ := runs_groupOne m hm c
    obtain ⟨m2, hrun2, hm2, hperm2⟩ := runs_group m1 hm1 cs
    refine ⟨m2, hrun1.bind_ok hrun2, hm2, ?_⟩
    calc contents m2
        ~ leaves cs ++ contents m1 := hperm2
      _ ~ leaves cs ++ (leavesOf c ++ contents m) := hperm1.append_left _
      _ ~ leavesOf c ++ (leaves cs ++ contents m) := perm_append_comm_assoc ..
      _ = leaves (c :: cs) ++ contents m := by rw [leaves, append_assoc]

lemma runs_groupOne (m : List (ℤ × List Constraint)) (hm : Groups (Under h) m) :
    ∀ c : Constraint, ∃ m', TypeM.Runs (fun fuel => groupOne fuel m c) s (.ok m') s ∧
      Groups (Under h) m' ∧ contents m' ~ leavesOf c ++ contents m
  | .plain c => by
    refine ⟨insertWith (keyOf h c) [.plain c] m, ?_, ?_, ?_⟩
    · simp only [groupOne]
      refine (runs_ufree h c).bind_ok ?_
      refine (TypeM.Runs.pure _).congr fun fuel => ?_
      unfold keyOf uvars
      split <;> rfl
    · refine hm.insertWith (by simp) fun c' hc' => ?_
      rw [mem_singleton] at hc'
      subst hc'
      exact ⟨by simp [leavesOf], by simp [leavesOf]⟩
    · simpa [leaves, leavesOf] using contents_insertWith (keyOf h c) [.plain c] m
  | .imply i w q cs => by
    obtain ⟨m', hrun, hm', hperm⟩ := runs_group [] .nil cs
    obtain ⟨hgroups, hcontents⟩ := foldr_insertWith i w q hm hm'.ne_nil hm'.mem
    refine ⟨_, hrun.bind_ok (TypeM.Runs.pure _), hgroups, hcontents.trans ?_⟩
    rw [leavesOf]
    have : contents [] = [] := by simp [contents, leaves]
    rw [this, append_nil] at hperm
    exact (hperm.map _).append_right _
end
end Putting

/-! ### The groups are a partition -/

/-- After substitution, `u` is a unification variable of `c`. -/
def HasVar (s : UniSubst) (c : Plain) (u : TUni) : Prop :=
  ∃ c', TypeM.Runs (ι := ErrInfo) (fun n => USubst.usubst n c) s (.ok c') s ∧ u ∈ USubst.ufree c'

/-- After substitution, the constraints have a unification variable in common. -/
def Shares (s : UniSubst) (c c' : Plain) : Prop := ∃ u, HasVar s c u ∧ HasVar s c' u

/-- There is a chain of leaves of `cs` from one to the other, each of which shares a variable with
the next. -/
def Connected (s : UniSubst) (cs : List Constraint) : Leaf → Leaf → Prop :=
  Relation.ReflTransGen fun l l' => l ∈ leaves cs ∧ l' ∈ leaves cs ∧ Shares s l.2 l'.2

section Partition
variable {s s' : UniSubst} {h : s.Founded}

lemma HasVar.mem_uvars {u : TUni} (hu : HasVar s c u) : u ∈ uvars h c := by
  obtain ⟨c', hrun, hu⟩ := hu
  obtain ⟨c'', hrun', htypes⟩ := USubst.Lawful.resolves (ι := ErrInfo) h c
  have heq : c' = c'' := by
    have := Fuel.Converges.unique hrun hrun'
    simpa using this
  rw [uvars, ← htypes, ← heq]
  exact hu

/-- Constraints that share a variable get the same key. -/
theorem Shares.keyOf_eq {c c' : Plain} (hshare : Shares s c c') (h : s.Founded) (h' : Merges s s')
    (hc : Joined h'.wellFounded c) (hc' : Joined h'.wellFounded c') :
    keyOf h'.wellFounded c = keyOf h'.wellFounded c' := by
  obtain ⟨u, hu, hu'⟩ := hshare
  obtain ⟨y, hy, huy⟩ := h'.mem_uvars (hu.mem_uvars (h := h))
  obtain ⟨y', hy', huy'⟩ := h'.mem_uvars (hu'.mem_uvars (h := h))
  obtain rfl : y = y' := Ty.tUni.inj (huy.symm.trans huy')
  rw [hc.keyOf_eq hy, hc'.keyOf_eq hy']

end Partition
open scoped List

/-- Grouping is correct. Under every acyclic substitution that binds none of the tokens, `groupCs`
returns and leaves the substitution as it was. Each plain constraint, under its binders, is in
exactly one group; no group is without one; those that are connected by a chain of plain constraints
that share variables are in the same group; and those in different groups share no variable. -/
theorem groupCs_correct (attrs : Name → List TUni) (s : UniSubst) (hs : s.Acyclic)
    (htok : ∀ n, s.lookup (unitoken n) = none) (cs : List Constraint) :
    ∃ css, TypeM.Runs (fun fuel => groupCs attrs fuel cs) s (.ok css) s ∧
      css.flatMap leaves ~ leaves cs ∧
      (∀ g ∈ css, leaves g ≠ []) ∧
      (css.Pairwise fun g g' => ∀ l ∈ leaves g, ∀ l' ∈ leaves g', ¬ Connected s cs l l') ∧
      css.Pairwise fun g g' => ∀ l ∈ leaves g, ∀ l' ∈ leaves g', ¬ Shares s l.2 l'.2 := by
  have h := hs.wellFounded
  obtain ⟨n, s', hmark, h', hjoined⟩ := runs_mark attrs h
    (fun n => ⟨_, resolve_of_none h (htok n)⟩) 1 cs
  obtain ⟨m, hgroup, hm, hperm⟩ := runs_group h'.wellFounded [] .nil cs
  have hnil : contents [] = [] := by simp [contents, leaves]
  rw [hnil, append_nil] at hperm
  have hflat : (m.map Prod.snd).flatMap leaves = contents m := by
    simp [contents, leaves_eq_flatMap, flatMap_map, flatMap_assoc]
  have hmem : ∀ g ∈ m.map Prod.snd, ∀ l ∈ leaves g, l ∈ leaves cs := by
    intro g hg l hl
    refine hperm.subset ?_
    rw [← hflat]
    exact mem_flatMap.mpr ⟨g, hg, hl⟩
  have hconn : ∀ l l', Connected s cs l l' →
      keyOf h'.wellFounded l.2 = keyOf h'.wellFounded l'.2 := by
    intro l l' hl
    induction hl with
    | refl => rfl
    | tail _ hstep ih =>
      obtain ⟨hl, hl', hshare⟩ := hstep
      exact ih.trans (hshare.keyOf_eq h h' (hjoined _ hl) (hjoined _ hl'))
  have hkeys : (m.map Prod.snd).Pairwise fun g g' => ∀ l ∈ leaves g, ∀ l' ∈ leaves g',
      keyOf h'.wellFounded l.2 ≠ keyOf h'.wellFounded l'.2 := by
    refine hm.pairwise.imp ?_
    rintro g g' ⟨k, k', hne, hg, hg'⟩ l hl l' hl'
    rw [leaves_eq_flatMap, mem_flatMap] at hl hl'
    obtain ⟨c, hc, hl⟩ := hl
    obtain ⟨c', hc', hl'⟩ := hl'
    rwa [(hg c hc).2 l hl, (hg' c' hc').2 l' hl']
  refine ⟨m.map Prod.snd, ?_, hflat ▸ hperm, ?_, ?_, ?_⟩
  · refine currentState.bind_ok (hmark.bind_ok (hgroup.bind_ok ?_))
    exact (rollbackState s).bind_ok (pure _)
  · intro g hg
    obtain ⟨p, hp, rfl⟩ := mem_map.mp hg
    obtain ⟨c, hc⟩ := exists_mem_of_ne_nil _ (hm.ne_nil p hp)
    obtain ⟨l, hl⟩ := exists_mem_of_ne_nil _ (hm.mem p hp c hc).1
    rw [leaves_eq_flatMap]
    exact ne_nil_of_mem (mem_flatMap.mpr ⟨c, hc, hl⟩)
  · exact hkeys.imp fun hne l hl l' hl' hcon => hne l hl l' hl' (hconn l l' hcon)
  · refine hkeys.imp_of_mem fun {g g'} hg hg' hne l hl l' hl' hshare => ?_
    refine hne l hl l' hl' (hconn l l' (.single ⟨?_, ?_, hshare⟩))
    · exact hmem g hg l hl
    · exact hmem g' hg' l' hl'

/-- With variable `1` bound to variable `2`, two constraints on them are connected. -/
theorem groupCs_correct_seal : ∃ css, TypeM.Runs (fun fuel => groupCs (fun _ => []) fuel
        [.plain (.seal_ (.simple "") [] (.tUni ⟨1⟩)), .plain (.seal_ (.simple "") [] (.tUni ⟨2⟩))])
          (Finmap.insert ⟨1⟩ (.tUni ⟨2⟩) ∅) (.ok css) (Finmap.insert ⟨1⟩ (.tUni ⟨2⟩) ∅) ∧
      css.flatMap leaves ~ [([], .seal_ (.simple "") [] (.tUni ⟨1⟩)),
        ([], .seal_ (.simple "") [] (.tUni ⟨2⟩))] := by
  have htok : ∀ n, (Finmap.insert ⟨1⟩ (.tUni ⟨2⟩) ∅ : UniSubst).lookup (unitoken n) = none := by
    intro n
    rw [Finmap.lookup_insert_of_ne]
    · exact Finmap.lookup_empty _
    · simp only [unitoken, ne_eq, TUni.mk.injEq]
      omega
  obtain ⟨css, hrun, hperm, -⟩ := groupCs_correct (fun _ => []) _ acyclic_insert_tUni htok
    [.plain (.seal_ (.simple "") [] (.tUni ⟨1⟩)), .plain (.seal_ (.simple "") [] (.tUni ⟨2⟩))]
  exact ⟨css, hrun, by simpa [leaves, leavesOf] using hperm⟩

/-- The constraints of the example below: an `Imply` around two constraints on different
variables. -/
def twoSeals : Constraint :=
  .imply (.simple "Implication") (.name "w") [] [.plain (.seal_ (.simple "") [] (.tUni ⟨1⟩)),
    .plain (.seal_ (.simple "") [] (.tUni ⟨2⟩))]

/-- An `Imply` whose constraints are independent of each other is in no group itself: each of the
two groups has a part of it. -/
theorem groupCs_splits_imply : TypeM.Runs (fun fuel => groupCs (fun _ => []) fuel [twoSeals]) ∅
        (.ok [[.imply (.simple "Implication") (.name "w") []
            [.plain (.seal_ (.simple "") [] (.tUni ⟨1⟩))]],
          [.imply (.simple "Implication") (.name "w") []
            [.plain (.seal_ (.simple "") [] (.tUni ⟨2⟩))]]]) ∅ ∧
      twoSeals ∉ [[Constraint.imply (.simple "Implication") (.name "w") []
            [.plain (.seal_ (.simple "") [] (.tUni ⟨1⟩))]],
          [.imply (.simple "Implication") (.name "w") []
            [.plain (.seal_ (.simple "") [] (.tUni ⟨2⟩))]]].flatten := by
  refine ⟨⟨5, fun n hn => ?_⟩, by simp [twoSeals]⟩
  obtain ⟨k, rfl⟩ : ∃ k, n = k + 5 := ⟨n - 5, by omega⟩
  rfl

end Acton.Solver
