import Acton.Solver.Rows

/-!
# Conversions between rows

When a tuple or function type is used where another one is expected, `sub'` builds a conversion:
`subpos` and `subkwd` go through the source and the target row and build the argument list for the
target, with one `Sub` constraint for each component that is converted. The types have been brought
up to date before, so that `usubst` on the closed rows does nothing.

* `subpos` takes components by position. A starred rest on one side is opened where the other side
  goes on with single components, missing components become `None`, and components that are left
  over go to the keyword row (`subkwd0`).
* `subkwd` takes components by name and keeps a list of the names that the target had so far. A
  source component with such a name has been used; it is skipped, and its name is removed from the
  list *wherever it occurs there*.

`PosAligned` and `KwdAligned` say how the components of the target are filled. For keyword rows this
needs labels of the source that are pairwise different: otherwise a component can be used twice.
-/

namespace Acton.Solver
open AlignM List Gives

/-! ### The source -/

def subpos (info : ErrInfo) (f : ℕ → Expr) (i : ℕ) :
    Row → Row → AlignM (List Plain × PosArg × List (Expr × Ty))
  | .row _ t1 r1, .row _ t2 r2 => do
      let (cs, as, es) ← subpos info f (i + 1) r1 r2
      let w ← newWitness
      return (.sub info w [] t1 t2 :: cs, .posArg (.callVar w (f i)) as, es)
  | .star r1, .star r2 => do
      let w ← newWitness
      return ([.sub info w [] (tTupleP r1) (tTupleP r2)], .posStar (.callVar w (f i)), [])
  | .nil, .nil => return ([], .posNil, [])
  | .star r1, r2 => subpos info (.dotI (f i)) 0 r1 r2
  | r1, .star r2 => do
      let (cs, as, es) ← subpos info f i r1 r2
      return (cs, .posStar (eTupleP as), es)
  | .nil, .row _ t2 r2 =>
      if isOpt t2 then do
        let (cs, as, es) ← subpos info f i .nil r2
        return (cs, .posArg .none as, es)
      else fail (.posElemNotFound true)
  | .row _ t1 r1, .nil => do
      let (cs, as, es) ← subpos info f (i + 1) r1 .nil
      return (cs, as, (f i, t1) :: es)
termination_by r1 r2 => sizeOf r1 + sizeOf r2

/-- The search of `subkwd` for the component `n2` of the target. -/
def pick (info : ErrInfo) (n2 : Name) (t2 : Ty) (f : Name → Expr) (seen : List Name) :
    Row → AlignM (List Plain × Expr)
  | .row n t r =>
      if n ∈ seen then pick info n2 t2 f (seen.filter (· ≠ n)) r
      else if n ≠ n2 then pick info n2 t2 f seen r
      else do
        let w ← newWitness
        return ([.sub info w [] t t2], .callVar w (f n))
  | .star r => pick info n2 t2 (.dot (f attrKW)) seen r
  | .nil => if isOpt t2 then return ([], .none) else fail (.kwdNotFound n2)

/-- For a starred rest of the target, skip what has been used and go on with `k`. -/
def match_ {α : Type} (k : (Name → Expr) → List Name → Row → AlignM α) (f : Name → Expr)
    (seen : List Name) : Row → AlignM α
  | .row n t r => if n ∈ seen then match_ k f (seen.filter (· ≠ n)) r else k f seen (.row n t r)
  | .star r => match_ k (.dot (f attrKW)) seen r
  | .nil => k f seen .nil

/-- At the end of the target, all of the source must have been used. -/
def term_ (f : Name → Expr) (seen : List Name) : Row → AlignM (List Plain × KwdArg)
  | .row n _ r => if n ∈ seen then term_ f (seen.filter (· ≠ n)) r else fail (.kwdUnexpected n)
  | .star r => term_ f seen r
  | .nil => return ([], .kwdNil)

def subkwd (info : ErrInfo) (f : Name → Expr) (seen : List Name) (r1 : Row) :
    Row → AlignM (List Plain × KwdArg)
  | .row n2 t2 r2 => do
      let (cs1, e) ← pick info n2 t2 f seen r1
      let (cs2, as) ← subkwd info f (n2 :: seen) r1 r2
      return (cs1 ++ cs2, .kwdArg n2 e as)
  | .star r2 => do
      let (cs, as) ← match_ (fun f seen r1 => subkwd info f seen r1 r2) f seen r1
      return (cs, .kwdStar (eTupleK as))
  | .nil => term_ f seen r1

/-- Positional components that are left over fill the first keyword components of the target. -/
def subkwd0 (info : ErrInfo) (f : Name → Expr) : List (Expr × Ty) → Row → Row →
    AlignM (List Plain × KwdArg)
  | [], r1, r2 => subkwd info f [] r1 r2
  | (e, t1) :: es, r1, .row n t2 r2 => do
      let (cs, as) ← subkwd0 info f es r1 r2
      let w ← newWitness
      return (.sub info w [] t1 t2 :: cs, .kwdArg n (.callVar w e) as)
  | _ :: _, _, _ => fail (.posElemNotFound false)

/-! ### Positional components -/

/-- The components of a source row, with the expressions that select them, where `f i` selects the
first one. A starred rest is one component, or it is opened. -/
inductive Selects : (ℕ → Expr) → ℕ → Row → List (Expr × Ty) → Prop
  | nil {f i} : Selects f i .nil []
  | row {f i n t r L} : Selects f (i + 1) r L → Selects f i (.row n t r) ((f i, t) :: L)
  | star {f i r} : Selects f i (.star r) [(f i, tTupleP r)]
  | opened {f i r L} : Selects (.dotI (f i)) 0 r L → Selects f i (.star r) L

/-- An argument list has exactly the components of the target row, in its order. The expression for
a starred rest is any one for the whole of it, or a tuple with the components of the rest. -/
inductive PosArg.For : Row → PosArg → List (Expr × Ty) → Prop
  | nil : PosArg.For .nil .posNil []
  | row {n t r e as L} : PosArg.For r as L → PosArg.For (.row n t r) (.posArg e as) ((e, t) :: L)
  | star {r e} : PosArg.For (.star r) (.posStar e) [(e, tTupleP r)]
  | opened {r as L} : PosArg.For r as L → PosArg.For (.star r) (.posStar (eTupleP as)) L

/-- The components of the target, one after the other, are filled from the source: from its first
component that is left, by a conversion, or with `None` if the target allows it and nothing is
left. The last list is what the target has not taken. -/
inductive FilledPos (info : ErrInfo) (cs : List Plain) :
    List (Expr × Ty) → List (Expr × Ty) → List (Expr × Ty) → Prop
  | done {A} : FilledPos info cs A [] A
  | take {e t1 A w t2 L R} : .sub info w [] t1 t2 ∈ cs → FilledPos info cs A L R →
      FilledPos info cs ((e, t1) :: A) ((.callVar w e, t2) :: L) R
  | none {t2 L R} : isOpt t2 → FilledPos info cs [] L R → FilledPos info cs [] ((.none, t2) :: L) R

section Positional
variable {info : ErrInfo} {cs cs' : List Plain}

lemma FilledPos.mono (hcs : cs ⊆ cs') {A L R : List (Expr × Ty)}
    (h : FilledPos info cs A L R) : FilledPos info cs' A L R := by
  induction h with
  | done => exact .done
  | take hmem _ ih => exact .take (hcs hmem) ih
  | none hopt _ ih => exact .none hopt ih

/-- What `subpos` builds, for a source that `f` and `i` select. -/
def PosAligned (info : ErrInfo) (f : ℕ → Expr) (i : ℕ) (r1 r2 : Row)
    (res : List Plain × PosArg × List (Expr × Ty)) : Prop :=
  ∃ A L, Selects f i r1 A ∧ PosArg.For r2 res.2.1 L ∧ FilledPos info res.1 A L res.2.2

lemma posAligned_subpos {f : ℕ → Expr} {i : ℕ} {r1 r2 : Row}
    {res : List Plain × PosArg × List (Expr × Ty)} (h : Gives (subpos info f i r1 r2) res) :
    PosAligned info f i r1 r2 res := by
  fun_induction subpos info f i r1 r2 generalizing res with
  | case1 f i n1 t1 r1 n2 t2 r2 ih =>
    obtain ⟨⟨cs, as, es⟩, hrec, h⟩ := h.of_bind
    obtain ⟨w, -, h⟩ := h.of_bind
    obtain rfl := pure_iff.mp h
    obtain ⟨A, L, hA, hL, hfill⟩ := ih hrec
    exact ⟨_, _, .row hA, .row hL, .take (by simp) (hfill.mono (subset_cons_self _ _))⟩
  | case2 f i r1 r2 =>
    obtain ⟨w, -, h⟩ := h.of_bind
    obtain rfl := pure_iff.mp h
    exact ⟨_, _, .star, .star, .take (by simp) .done⟩
  | case3 f i =>
    obtain rfl := pure_iff.mp h
    exact ⟨_, _, .nil, .nil, .done⟩
  | case4 f i r1 r2 hstar ih =>
    obtain ⟨A, L, hA, hL, hfill⟩ := ih h
    exact ⟨A, L, .opened hA, hL, hfill⟩
  | case5 f i r1 r2 hstar ih =>
    obtain ⟨⟨cs, as, es⟩, hrec, h⟩ := h.of_bind
    obtain rfl := pure_iff.mp h
    obtain ⟨A, L, hA, hL, hfill⟩ := ih hrec
    exact ⟨A, L, hA, .opened hL, hfill⟩
  | case6 f i n2 t2 r2 hopt ih =>
    obtain ⟨⟨cs, as, es⟩, hrec, h⟩ := h.of_bind
    obtain rfl := pure_iff.mp h
    obtain ⟨A, L, hA, hL, hfill⟩ := ih hrec
    cases hA
    exact ⟨[], _, .nil, .row hL, .none hopt hfill⟩
  | case7 => exact absurd h not_fail
  | case8 f i n1 t1 r1 ih =>
    obtain ⟨⟨cs, as, es⟩, hrec, h⟩ := h.of_bind
    obtain rfl := pure_iff.mp h
    obtain ⟨A, L, hA, hL, hfill⟩ := ih hrec
    cases hL
    cases hfill
    exact ⟨_, [], .row hA, .nil, .done⟩

end Positional

/-! ### Keyword components -/

/-- The components of a keyword row, with the expressions that select them. -/
def Row.comps (f : Name → Expr) : Row → List (Name × Expr × Ty)
  | .nil => []
  | .row n t r => (n, f n, t) :: Row.comps f r
  | .star r => Row.comps (.dot (f attrKW)) r

/-- An argument list has exactly the components of the target row, in its order. -/
inductive KwdArg.For : Row → KwdArg → List (Name × Expr × Ty) → Prop
  | nil : KwdArg.For .nil .kwdNil []
  | row {n t r e as L} :
      KwdArg.For r as L → KwdArg.For (.row n t r) (.kwdArg n e as) ((n, e, t) :: L)
  | opened {r as L} : KwdArg.For r as L → KwdArg.For (.star r) (.kwdStar (eTupleK as)) L

/-- The components of the target, one after the other, are filled from the source: from a component
of the same name among those that are left, by a conversion, or with `None` if the target allows it
and none of this name is left. In the end nothing is left. -/
inductive FilledKwd (info : ErrInfo) (cs : List Plain) :
    List (Name × Expr × Ty) → List (Name × Expr × Ty) → Prop
  | done : FilledKwd info cs [] []
  | take {n e t1 A₁ A₂ w t2 L} : .sub info w [] t1 t2 ∈ cs → FilledKwd info cs (A₁ ++ A₂) L →
      FilledKwd info cs (A₁ ++ (n, e, t1) :: A₂) ((n, .callVar w e, t2) :: L)
  | none {n A t2 L} : (∀ x ∈ A, x.1 ≠ n) → isOpt t2 → FilledKwd info cs A L →
      FilledKwd info cs A ((n, .none, t2) :: L)

section Keyword
variable {info : ErrInfo} {cs cs' : List Plain} {f : Name → Expr} {seen : List Name} {r1 r2 : Row}

lemma FilledKwd.mono (hcs : cs ⊆ cs') {A L : List (Name × Expr × Ty)}
    (h : FilledKwd info cs A L) : FilledKwd info cs' A L := by
  induction h with
  | done => exact .done
  | take hmem _ ih => exact .take (hcs hmem) ih
  | none hleft hopt _ ih => exact .none hleft hopt ih

/-- Without `None`, the target has as many components as the source. -/
theorem FilledKwd.length_eq {A L : List (Name × Expr × Ty)} (h : FilledKwd info cs A L)
    (hL : ∀ x ∈ L, x.2.1 ≠ .none) : A.length = L.length := by
  induction h with
  | done => rfl
  | take _ _ ih =>
    have := ih fun x hx => hL x (mem_cons_of_mem _ hx)
    simp only [length_append, length_cons] at this ⊢
    omega
  | none => exact absurd rfl (hL _ mem_cons_self)

/-- The labels of a row, those of a starred rest included. -/
def Row.labels : Row → List Name
  | .nil => []
  | .row n _ r => n :: r.labels
  | .star r => r.labels

lemma map_fst_comps (f : Name → Expr) (r : Row) : (r.comps f).map Prod.fst = r.labels := by
  induction r generalizing f with
  | nil => rfl
  | row n t r ih => simp [Row.comps, Row.labels, ih]
  | star r ih => exact ih _

variable {r : Row}

lemma mem_labels {x : Name × Expr × Ty} (hx : x ∈ r.comps f) : x.1 ∈ r.labels := by
  rw [← map_fst_comps f]
  exact mem_map_of_mem hx

/-- The components that are left when the target had the names in `seen`. -/
def left (f : Name → Expr) (seen : List Name) (r : Row) : List (Name × Expr × Ty) :=
  (r.comps f).filter fun x => x.1 ∉ seen

lemma left_congr {seen' : List Name} (h : ∀ n ∈ r.labels, n ∈ seen ↔ n ∈ seen') :
    left f seen r = left f seen' r :=
  filter_congr fun x hx => by simp [h x.1 (mem_labels hx)]

lemma left_row_of_mem {n : Name} {t : Ty} (hn : n ∈ seen) :
    left f seen (.row n t r) = left f seen r := by
  rw [left, Row.comps, filter_cons_of_neg (by simpa using hn), left]

lemma left_row_of_not_mem {n : Name} {t : Ty} (hn : n ∉ seen) :
    left f seen (.row n t r) = (n, f n, t) :: left f seen r := by
  rw [left, Row.comps, filter_cons_of_pos (by simpa using hn), left]

/-- A name that does not occur any more need not be remembered. -/
theorem left_filter_ne {n : Name} (hn : n ∉ r.labels) :
    left f (seen.filter (· ≠ n)) r = left f seen r := by
  refine left_congr fun x hx => ?_
  have hne : x ≠ n := fun heq => hn (heq ▸ hx)
  simp [hne]

lemma left_cons_filter_ne {n n2 : Name} (hn : n ∉ r.labels) :
    left f (n2 :: seen.filter (· ≠ n)) r = left f (n2 :: seen) r := by
  refine left_congr fun x hx => ?_
  have hne : x ≠ n := fun heq => hn (heq ▸ hx)
  simp [hne]

/-- `pick` finds the component with the name, or there is none left and the target allows `None`. -/
theorem of_gives_pick {n2 : Name} {t2 : Ty} {res : List Plain × Expr} (hnd : r1.labels.Nodup)
    (h : Gives (pick info n2 t2 f seen r1) res) :
    (∃ w e t A1 A2, left f seen r1 = A1 ++ (n2, e, t) :: A2 ∧
        left f (n2 :: seen) r1 = A1 ++ A2 ∧ res = ([.sub info w [] t t2], .callVar w e)) ∨
      (∀ x ∈ left f seen r1, x.1 ≠ n2) ∧ left f (n2 :: seen) r1 = left f seen r1 ∧ isOpt t2 ∧
        res = ([], .none) := by
  induction r1 generalizing f seen with
  | nil =>
    rw [pick] at h
    split_ifs at h with hopt
    · exact .inr ⟨by simp [left, Row.comps], rfl, hopt, (pure_iff.mp h).symm⟩
    · exact absurd h not_fail
  | star r ih =>
    rw [pick] at h
    exact ih hnd h
  | row n t r ih =>
    obtain ⟨hn, hr⟩ := nodup_cons.mp hnd
    rw [pick] at h
    split_ifs at h with hseen hne
    · rw [left_row_of_mem hseen, left_row_of_mem (mem_cons_of_mem n2 hseen)]
      simpa only [left_filter_ne hn, left_cons_filter_ne hn] using ih hr h
    · rw [left_row_of_not_mem hseen, left_row_of_not_mem (by simp [hne, hseen])]
      rcases ih hr h with ⟨w, e, t', A1, A2, hleft, hleft', hres⟩ | ⟨hleft, hleft', hopt, hres⟩
      · refine .inl ⟨w, e, t', (n, f n, t) :: A1, A2, ?_, ?_, hres⟩
        · rw [hleft, cons_append]
        · rw [hleft', cons_append]
      · refine .inr ⟨?_, by rw [hleft'], hopt, hres⟩
        intro x hx
        rcases mem_cons.mp hx with rfl | hx
        · exact hne
        · exact hleft x hx
    · obtain rfl : n = n2 := not_not.mp hne
      obtain ⟨w, -, h⟩ := h.of_bind
      refine .inl ⟨w, f n, t, [], left f seen r, ?_, ?_, (pure_iff.mp h).symm⟩
      · exact left_row_of_not_mem hseen
      · rw [left_row_of_mem (by simp)]
        -- the name of the component that is taken does not occur again
        refine left_congr fun x hx => ?_
        have hxn : x ≠ n := fun heq => hn (heq ▸ hx)
        simp [hxn]

/-- `match_` goes on with a part of the source that has everything that is left. -/
theorem of_gives_match {α : Type} {k : (Name → Expr) → List Name → Row → AlignM α} {a : α}
    (hnd : r1.labels.Nodup) (h : Gives (match_ k f seen r1) a) :
    ∃ f' seen' r1', Gives (k f' seen' r1') a ∧ r1'.labels.Nodup ∧
      left f' seen' r1' = left f seen r1 := by
  induction r1 generalizing f seen with
  | nil => exact ⟨f, seen, .nil, h, hnd, rfl⟩
  | star r ih =>
    rw [match_] at h
    exact ih hnd h
  | row n t r ih =>
    rw [match_] at h
    split_ifs at h with hseen
    · obtain ⟨hn, hr⟩ := nodup_cons.mp hnd
      obtain ⟨f', seen', r1', hk, hnd', hleft⟩ := ih hr h
      refine ⟨f', seen', r1', hk, hnd', ?_⟩
      rw [hleft, left_filter_ne hn, left_row_of_mem hseen]
    · exact ⟨f, seen, .row n t r, h, hnd, rfl⟩

variable {res : List Plain × KwdArg}

/-- `term_` makes sure that nothing is left. It selects nothing, and `f` can be any function. -/
theorem of_gives_term {f' : Name → Expr} (hnd : r1.labels.Nodup) (h : Gives (term_ f seen r1) res) :
    left f' seen r1 = [] ∧ res = ([], .kwdNil) := by
  induction r1 generalizing f f' seen with
  | nil => exact ⟨rfl, (pure_iff.mp h).symm⟩
  | star r ih =>
    rw [term_] at h
    exact ih hnd h
  | row n t r ih =>
    rw [term_] at h
    split_ifs at h with hseen
    · obtain ⟨hn, hr⟩ := nodup_cons.mp hnd
      rw [left_row_of_mem hseen, ← left_filter_ne hn]
      exact ih hr h
    · exact absurd h not_fail

/-- What `subkwd` builds, when the components `A` of the source are left. -/
def KwdAligned (info : ErrInfo) (A : List (Name × Expr × Ty)) (r2 : Row)
    (res : List Plain × KwdArg) : Prop :=
  ∃ L, KwdArg.For r2 res.2 L ∧ FilledKwd info res.1 A L

lemma kwdAligned_subkwd (hnd : r1.labels.Nodup) (h : Gives (subkwd info f seen r1 r2) res) :
    KwdAligned info (left f seen r1) r2 res := by
  induction r2 generalizing f seen r1 res with
  | nil =>
    obtain ⟨hleft, rfl⟩ := of_gives_term hnd h
    rw [hleft]
    exact ⟨[], .nil, .done⟩
  | row n2 t2 r2 ih =>
    obtain ⟨⟨cs1, e⟩, hpick, h⟩ := h.of_bind
    obtain ⟨⟨cs2, as⟩, hrec, h⟩ := h.of_bind
    obtain rfl := pure_iff.mp h
    obtain ⟨L, hL, hfill⟩ := ih hnd hrec
    rcases of_gives_pick hnd hpick with
      ⟨w, e', t, A1, A2, hleft, hleft', heq⟩ | ⟨hleft, hleft', hopt, heq⟩
    · obtain ⟨rfl, rfl⟩ := Prod.mk.inj heq
      rw [hleft'] at hfill
      rw [hleft]
      exact ⟨_, .row hL, .take (by simp) (hfill.mono (subset_append_right _ _))⟩
    · obtain ⟨rfl, rfl⟩ := Prod.mk.inj heq
      rw [hleft'] at hfill
      exact ⟨_, .row hL, .none hleft hopt hfill⟩
  | star r2 ih =>
    obtain ⟨⟨cs, as⟩, hmatch, h⟩ := h.of_bind
    obtain rfl := pure_iff.mp h
    obtain ⟨f', seen', r1', hrec, hnd', hleft⟩ := of_gives_match hnd hmatch
    obtain ⟨L, hL, hfill⟩ := ih hnd' hrec
    rw [← hleft]
    exact ⟨L, .opened hL, hfill⟩

lemma left_nil (f : Name → Expr) (r : Row) : left f [] r = r.comps f := by
  simp [left]

/-- The positional components that are left over come first, and then the keyword components. -/
theorem kwdAligned_subkwd0 {es : List (Expr × Ty)} (hnd : r1.labels.Nodup)
    (h : Gives (subkwd0 info f es r1 r2) res) :
    ∃ L1 L2, KwdArg.For r2 res.2 (L1 ++ L2) ∧ FilledPos info res.1 es (L1.map Prod.snd) [] ∧
      FilledKwd info res.1 (r1.comps f) L2 := by
  induction es generalizing r2 res with
  | nil =>
    obtain ⟨L, hL, hfill⟩ := kwdAligned_subkwd hnd h
    rw [left_nil] at hfill
    exact ⟨[], L, hL, .done, hfill⟩
  | cons p es ih =>
    obtain ⟨e, t1⟩ := p
    cases r2 with
    | nil | star r2 => exact absurd h not_fail
    | row n t2 r2 =>
      obtain ⟨⟨cs, as⟩, hrec, h⟩ := h.of_bind
      obtain ⟨w, -, h⟩ := h.of_bind
      obtain rfl := pure_iff.mp h
      obtain ⟨L1, L2, hL, hpos, hkwd⟩ := ih hrec
      refine ⟨(n, .callVar w e, t2) :: L1, L2, .row hL, ?_, ?_⟩
      · exact .take (by simp) (hpos.mono (subset_cons_self _ _))
      · exact hkwd.mono (subset_cons_self _ _)

end Keyword

/-! ### Results -/

end Acton.Solver
