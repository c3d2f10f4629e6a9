import Acton.Subst.Declarations

/-!
# Constraints

The constraints that the solver works on. `Plain` are the six forms that relate types; a constraint
is a plain one or an `Imply`, which holds constraints under quantified type variables.

`USubst` gathers what `ufree` and `usubst` do on the data that holds types: `types` lists these
types in order, `ufree` is `concat . map ufree` over them, and `usubst` replaces each of them.
`USubst.Lawful` says so. Of the expression in a `DfltInfo` only the types in it are kept.
-/

namespace Acton
open TermAlgebra Syn List

structure TSchema where
  scbind : QBinds
  sctype : Ty

/-- Where a constraint comes from. -/
inductive ErrInfo
  | dfltInfo (errno : ℕ) (errexpr : List Ty) (errinsts : List (QName × TSchema × Ty))
  | declInfo (errname : Name) (errschema : TSchema) (errmsg : String)
  | simple (errmsg : String)

inductive Plain
  | cast (info : ErrInfo) (qual : QBinds) (type1 type2 : Ty)
  | sub (info : ErrInfo) (wit : Name) (qual : QBinds) (type1 type2 : Ty)
  | proto (info : ErrInfo) (wit : Name) (qual : QBinds) (type1 : Ty) (proto1 : TCon)
  | sel (info : ErrInfo) (wit : Name) (qual : QBinds) (type1 : Ty) (name1 : Name) (type2 : Ty)
  | mut_ (info : ErrInfo) (qual : QBinds) (type1 : Ty) (name1 : Name) (type2 : Ty)
  | seal_ (info : ErrInfo) (qual : QBinds) (type1 : Ty)

inductive Constraint
  | plain (c : Plain)
  | imply (info : ErrInfo) (wit : Name) (binder : QBinds) (scope : List Constraint)

/-! ### Substitution in data that holds types -/

class USubst (α : Type) where
  types : α → List Ty
  usubst {ι : Type} : ℕ → α → TypeM ι α

namespace USubst

def ufree {α : Type} [USubst α] (a : α) : List TUni := ufreeList (types a)
instance : USubst Ty := ⟨fun t => [t], Acton.usubst⟩
instance : USubst QName := ⟨fun _ => [], fun _ n => return n⟩

/-- A rigid type variable is never replaced. -/
instance : USubst TVar := ⟨fun _ => [], fun _ v => return v⟩

instance {α : Type} [USubst α] : USubst (List α) :=
  ⟨fun as => as.flatMap types, fun n as => as.mapM (usubst n)⟩

instance {α β : Type} [USubst α] [USubst β] : USubst (α × β) where
  types p := types p.1 ++ types p.2
  usubst n p := do
    let a ← usubst n p.1
    let b ← usubst n p.2
    return (a, b)

instance : USubst TCon where
  types c := c.tcargs
  usubst n c := do
    let ts ← usubst n c.tcargs
    return ⟨c.tcname, ts⟩

instance : USubst TSchema where
  types sc := types sc.scbind ++ types sc.sctype
  usubst n sc := do
    let q ← usubst n sc.scbind
    let t ← usubst n sc.sctype
    return ⟨q, t⟩

instance : USubst ErrInfo where
  types
    | .dfltInfo _ mbe ts => types mbe ++ types ts
    | .declInfo _ t _ => types t
    | .simple _ => []
  usubst n
    | .dfltInfo no mbe ts => do
        let mbe ← usubst n mbe
        let ts ← usubst n ts
        return .dfltInfo no mbe ts
    | .declInfo name t msg => do
        let t ← usubst n t
        return .declInfo name t msg
    | .simple msg => return .simple msg

instance : USubst Plain where
  types
    | .cast info q t1 t2 => types info ++ types q ++ types t1 ++ types t2
    | .sub info _ q t1 t2 => types info ++ types q ++ types t1 ++ types t2
    | .proto info _ q t p => types info ++ types q ++ types t ++ types p
    | .sel info _ q t1 _ t2 => types info ++ types q ++ types t1 ++ types t2
    | .mut_ info q t1 _ t2 => types info ++ types q ++ types t1 ++ types t2
    | .seal_ info q t => types info ++ types q ++ types t
  usubst n
    | .cast info q t1 t2 => do
        return .cast (← usubst n info) (← usubst n q) (← usubst n t1) (← usubst n t2)
    | .sub info w q t1 t2 => do
        return .sub (← usubst n info) w (← usubst n q) (← usubst n t1) (← usubst n t2)
    | .proto info w q t p => do
        return .proto (← usubst n info) w (← usubst n q) (← usubst n t) (← usubst n p)
    | .sel info w q t1 name t2 => do
        return .sel (← usubst n info) w (← usubst n q) (← usubst n t1) name (← usubst n t2)
    | .mut_ info q t1 name t2 => do
        return .mut_ (← usubst n info) (← usubst n q) (← usubst n t1) name (← usubst n t2)
    | .seal_ info q t => do
        return .seal_ (← usubst n info) (← usubst n q) (← usubst n t)

/-- Under an acyclic substitution, `usubst` replaces each of the types and nothing else. -/
class Lawful (α : Type) [USubst α] : Prop where
  resolves {ι : Type} {s : UniSubst} (h : WellFounded (Dep (T := Ty) fun u => s.lookup u)) (a : α) :
    ∃ a', TypeM.Runs (ι := ι) (fun n => usubst n a) s (.ok a') s ∧
      types a' = (types a).map fun t => t.bind (resolve h)

namespace Lawful

instance : Lawful Ty := ⟨fun h t => ⟨_, runs_usubst h t, rfl⟩⟩
instance : Lawful QName := ⟨fun _ n => ⟨n, TypeM.Runs.pure n, rfl⟩⟩
instance : Lawful TVar := ⟨fun _ v => ⟨v, TypeM.Runs.pure v, rfl⟩⟩

instance {α : Type} [USubst α] [Lawful α] : Lawful (List α) where
  resolves h as := by
    induction as with
    | nil => exact ⟨[], TypeM.Runs.pure _, rfl⟩
    | cons a as ih =>
      obtain ⟨a', ha, hta⟩ := resolves h a
      obtain ⟨as', has, htas⟩ := ih
      refine ⟨a' :: as', ?_, ?_⟩
      · simp only [usubst, mapM_cons] at has ⊢
        exact ha.bind_ok (has.bind_ok (TypeM.Runs.pure _))
      · simp only [types, flatMap_cons, map_append, hta] at htas ⊢
        rw [htas]

instance {α β : Type} [USubst α] [Lawful α] [USubst β] [Lawful β] : Lawful (α × β) where
  resolves h p := by
    obtain ⟨a, ha, hta⟩ := resolves h p.1
    obtain ⟨b, hb, htb⟩ := resolves h p.2
    exact ⟨(a, b), ha.bind_ok (hb.bind_ok (TypeM.Runs.pure _)), by simp [types, hta, htb]⟩

instance : Lawful TCon where
  resolves h c := by
    obtain ⟨ts, hts, htts⟩ := resolves h c.tcargs
    refine ⟨⟨c.tcname, ts⟩, hts.bind_ok (TypeM.Runs.pure _), ?_⟩
    simpa [types, flatMap_singleton'] using htts

instance : Lawful TSchema where
  resolves h sc := by
    obtain ⟨q, hq, htq⟩ := resolves h sc.scbind
    obtain ⟨t, ht, htt⟩ := resolves h sc.sctype
    refine ⟨⟨q, t⟩, hq.bind_ok (ht.bind_ok (TypeM.Runs.pure _)), ?_⟩
    show types q ++ types t = (types sc.scbind ++ types sc.sctype).map _
    rw [htq, htt, map_append]

instance : Lawful ErrInfo where
  resolves h info := by
    cases info with
    | dfltInfo no mbe ts =>
      obtain ⟨mbe', hm, htm⟩ := resolves h mbe
      obtain ⟨ts', hts, htts⟩ := resolves h ts
      refine ⟨.dfltInfo no mbe' ts', hm.bind_ok (hts.bind_ok (TypeM.Runs.pure _)), ?_⟩
      show types mbe' ++ types ts' = (types mbe ++ types ts).map _
      rw [htm, htts, map_append]
    | declInfo name t msg =>
      obtain ⟨t', ht, htt⟩ := resolves h t
      exact ⟨.declInfo name t' msg, ht.bind_ok (TypeM.Runs.pure _), htt⟩
    | simple msg => exact ⟨.simple msg, TypeM.Runs.pure _, rfl⟩

/-- Four parts of a constraint, one after the other. -/
theorem resolves_four {α β γ δ ε ι : Type} [USubst α] [Lawful α] [USubst β] [Lawful β]
    [USubst γ] [Lawful γ] [USubst δ] [Lawful δ] {s : UniSubst}
    (h : s.Founded) (a : α) (b : β) (c : γ) (d : δ) (f : α → β → γ → δ → ε) :
    ∃ a' b' c' d', TypeM.Runs (ι := ι) (fun n => do
        return f (← usubst n a) (← usubst n b) (← usubst n c) (← usubst n d))
          s (.ok (f a' b' c' d')) s ∧
      types a' ++ types b' ++ types c' ++ types d' =
        (types a ++ types b ++ types c ++ types d).map fun t => t.bind (resolve h) := by
  obtain ⟨a', ha, hta⟩ := resolves h a
  obtain ⟨b', hb, htb⟩ := resolves h b
  obtain ⟨c', hc, htc⟩ := resolves h c
  obtain ⟨d', hd, htd⟩ := resolves h d
  refine ⟨a', b', c', d', ?_, by simp only [hta, htb, htc, htd, map_append]⟩
  exact ha.bind_ok (hb.bind_ok (hc.bind_ok (hd.bind_ok (TypeM.Runs.pure _))))

instance : Lawful Plain where
  resolves h c := by
    cases c with
    | cast info q t1 t2 =>
      obtain ⟨info', q', t1', t2', hrun, ht⟩ := resolves_four h info q t1 t2 Plain.cast
      exact ⟨_, hrun, ht⟩
    | sub info w q t1 t2 =>
      obtain ⟨info', q', t1', t2', hrun, ht⟩ := resolves_four h info q t1 t2 (Plain.sub · w)
      exact ⟨_, hrun, ht⟩
    | proto info w q t p =>
      obtain ⟨info', q', t', p', hrun, ht⟩ := resolves_four h info q t p (Plain.proto · w)
      exact ⟨_, hrun, ht⟩
    | sel info w q t1 name t2 =>
      obtain ⟨info', q', t1', t2', hrun, ht⟩ :=
        resolves_four h info q t1 t2 (Plain.sel · w · · name)
      exact ⟨_, hrun, ht⟩
    | mut_ info q t1 name t2 =>
      obtain ⟨info', q', t1', t2', hrun, ht⟩ := resolves_four h info q t1 t2 (Plain.mut_ · · · name)
      exact ⟨_, hrun, ht⟩
    | seal_ info q t =>
      obtain ⟨info', hi, hti⟩ := resolves h info
      obtain ⟨q', hq, htq⟩ := resolves h q
      obtain ⟨t', ht, htt⟩ := resolves h t
      refine ⟨.seal_ info' q' t', hi.bind_ok (hq.bind_ok (ht.bind_ok (TypeM.Runs.pure _))), ?_⟩
      show types info' ++ types q' ++ types t' = (types info ++ types q ++ types t).map _
      simp only [hti, htq, htt, map_append]

end Lawful
end USubst
end Acton
