import Acton.Subst

/-!
# Well-formed and well-kinded types

A type is well formed for an arity function if it has no wildcard and applies each constructor to
the right number of arguments.

The kinding rules that the source's `kinfer` checks, for kinds without kind variables: a type
constructor is applied to arguments of the kinds in its declaration, parameter rows have kind
`PRow` and `KRow`, effects kind `KFX`, and a row has the kind written on it.
-/

namespace Acton
open List
namespace Ty

mutual
/-- No wildcard occurs in the type, and each type constructor `n` has `arity n` arguments. -/
def WellFormed (arity : QName → ℕ) : Ty → Prop
  | tUni _ => True
  | tVar _ => True
  | tCon n ts => ts.length = arity n ∧ WellFormedList arity ts
  | tFun fx p k t => WellFormed arity fx ∧ WellFormed arity p ∧ WellFormed arity k ∧
      WellFormed arity t
  | tTuple p k => WellFormed arity p ∧ WellFormed arity k
  | tOpt t => WellFormed arity t
  | tNone => True
  | tWild => False
  | tNil _ => True
  | tRow _ _ t r => WellFormed arity t ∧ WellFormed arity r
  | tStar _ r => WellFormed arity r
  | tFX _ => True

/-- `WellFormed` on each type of a list. -/
def WellFormedList (arity : QName → ℕ) : List Ty → Prop
  | [] => True
  | t :: ts => WellFormed arity t ∧ WellFormedList arity ts
end
variable {arity : QName → ℕ}

lemma wellFormedList_iff {ts : List Ty} :
    WellFormedList arity ts ↔ ∀ t ∈ ts, WellFormed arity t := by
  induction ts with
  | nil => simp [WellFormedList]
  | cons t ts ih => simp [WellFormedList, ih]

lemma WellFormed.bind {θ : TUni → Ty} {t : Ty} (h : t.WellFormed arity)
    (hθ : ∀ u ∈ ufree t, (θ u).WellFormed arity) : (t.bind θ).WellFormed arity := by
  induction t with
  | tUni u => exact hθ u (by simp [ufree])
  | tCon n ts ih =>
    simp only [WellFormed, wellFormedList_iff] at h
    simp only [Ty.bind, bindList_eq_map, WellFormed, wellFormedList_iff, length_map, forall_mem_map]
    refine ⟨h.1, fun t ht => ih t ht (h.2 t ht) fun u hu => hθ u ?_⟩
    simpa [ufree, mem_ufreeList] using ⟨t, ht, hu⟩
  | tFun fx p k t hfx hp hk ht =>
    simp only [ufree, forall_mem_append] at hθ
    obtain ⟨h1, h2, h3, h4⟩ := h
    obtain ⟨⟨⟨hθ1, hθ2⟩, hθ3⟩, hθ4⟩ := hθ
    exact ⟨hfx h1 hθ1, hp h2 hθ2, hk h3 hθ3, ht h4 hθ4⟩
  | tTuple p k hp hk =>
    rw [ufree, forall_mem_append] at hθ
    exact ⟨hp h.1 hθ.1, hk h.2 hθ.2⟩
  | tRow k n t r ht hr =>
    rw [ufree, forall_mem_append] at hθ
    exact ⟨ht h.1 hθ.1, hr h.2 hθ.2⟩
  | tOpt t ht => exact ht h hθ
  | tStar k r hr => exact hr h hθ
  | _ => exact h

end Ty

/-- The kinds of the names in scope. -/
structure KindEnv where
  tcKind : QName → Kind
  tvKind : TVar → Kind
  uvKind : TUni → Kind

/-- The number of arguments that a constructor takes according to its kind. -/
def KindEnv.arity (Γ : KindEnv) (n : QName) : ℕ :=
  match Γ.tcKind n with
  | .kFun ks _ => ks.length
  | _ => 0

namespace Ty

mutual
/-- `t` has kind `κ`. A wildcard has none. -/
def HasKind (Γ : KindEnv) : Ty → Kind → Prop
  | tUni u, κ => Γ.uvKind u = κ
  | tVar v, κ => Γ.tvKind v = κ
  | tCon n ts, κ => κ = .kType ∧
      ((ts = [] ∧ Γ.tcKind n = .kType) ∨ ∃ ks, Γ.tcKind n = .kFun ks .kType ∧ HasKinds Γ ts ks)
  | tFun fx p k t, κ => κ = .kType ∧ HasKind Γ fx .kFX ∧ HasKind Γ p .pRow ∧ HasKind Γ k .kRow ∧
      HasKind Γ t .kType
  | tTuple p k, κ => κ = .kType ∧ HasKind Γ p .pRow ∧ HasKind Γ k .kRow
  | tOpt t, κ => κ = .kType ∧ HasKind Γ t .kType
  | tNone, κ => κ = .kType
  | tWild, _ => False
  | tNil k, κ => κ = k
  | tRow k _ t r, κ => κ = k ∧ HasKind Γ t .kType ∧ HasKind Γ r k
  | tStar k r, κ => κ = k ∧ HasKind Γ r k
  | tFX _, κ => κ = .kFX

/-- `HasKind` position by position. -/
def HasKinds (Γ : KindEnv) : List Ty → List Kind → Prop
  | [], [] => True
  | t :: ts, k :: ks => HasKind Γ t k ∧ HasKinds Γ ts ks
  | _, _ => False
end
variable {Γ : KindEnv}

lemma hasKinds_iff {ts : List Ty} {ks : List Kind} :
    HasKinds Γ ts ks ↔ List.Forall₂ (HasKind Γ) ts ks := by
  induction ts generalizing ks with
  | nil => cases ks <;> simp [HasKinds]
  | cons t ts ih => cases ks <;> simp [HasKinds, ih]

lemma HasKinds.exists_hasKind {ts : List Ty} {ks : List Kind} (h : HasKinds Γ ts ks) :
    ∀ t ∈ ts, ∃ κ, t.HasKind Γ κ := by
  induction ts generalizing ks with
  | nil => simp
  | cons t ts ih =>
    cases ks with
    | nil => exact h.elim
    | cons k ks => simpa using ⟨⟨k, h.1⟩, ih h.2⟩

/-- Lists of the same kinds have the same kinds position by position. -/
theorem HasKinds.exists_hasKind_zip {ts1 ts2 : List Ty} {ks : List Kind}
    (h1 : HasKinds Γ ts1 ks) (h2 : HasKinds Γ ts2 ks) :
    ∀ p ∈ ts1.zip ts2, ∃ κ, p.1.HasKind Γ κ ∧ p.2.HasKind Γ κ := by
  induction ks generalizing ts1 ts2 with
  | nil =>
    cases ts1 with
    | nil => simp
    | cons t1 ts1 => exact h1.elim
  | cons k ks ih =>
    cases ts1 with
    | nil => simp
    | cons t1 ts1 =>
      cases ts2 with
      | nil => simp
      | cons t2 ts2 => simpa using ⟨⟨k, h1.1, h2.1⟩, fun a b => ih h1.2 h2.2 (a, b)⟩

lemma HasKind.bind {θ : TUni → Ty} {t : Ty} {κ : Kind} (h : t.HasKind Γ κ)
    (hθ : ∀ u ∈ ufree t, (θ u).HasKind Γ (Γ.uvKind u)) : (t.bind θ).HasKind Γ κ := by
  induction t generalizing κ with
  | tUni u =>
    obtain rfl : Γ.uvKind u = κ := h
    exact hθ u (by simp [ufree])
  | tCon n ts ih =>
    rw [Ty.bind, bindList_eq_map]
    refine ⟨h.1, h.2.imp (fun h => ⟨by simp [h.1], h.2⟩) ?_⟩
    rintro ⟨ks, hn, hks⟩
    refine ⟨ks, hn, ?_⟩
    rw [hasKinds_iff] at hks ⊢
    rw [forall₂_map_left_iff]
    have hts : ∀ t ∈ ts, ∀ u ∈ ufree t, (θ u).HasKind Γ (Γ.uvKind u) := fun t ht u hu =>
      hθ u (by simpa [ufree, mem_ufreeList] using ⟨t, ht, hu⟩)
    refine ((forall₂_and_left (p := fun t => t ∈ ts) ts ks).mpr ⟨fun _ ht => ht, hks⟩).imp ?_
    exact fun t k htk => ih t htk.1 htk.2 (hts t htk.1)
  | tFun fx p k t hfx hp hk ht =>
    simp only [ufree, forall_mem_append] at hθ
    obtain ⟨hκ, h1, h2, h3, h4⟩ := h
    obtain ⟨⟨⟨hθ1, hθ2⟩, hθ3⟩, hθ4⟩ := hθ
    exact ⟨hκ, hfx h1 hθ1, hp h2 hθ2, hk h3 hθ3, ht h4 hθ4⟩
  | tTuple p k hp hk =>
    rw [ufree, forall_mem_append] at hθ
    exact ⟨h.1, hp h.2.1 hθ.1, hk h.2.2 hθ.2⟩
  | tRow k n t r ht hr =>
    rw [ufree, forall_mem_append] at hθ
    exact ⟨h.1, ht h.2.1 hθ.1, hr h.2.2 hθ.2⟩
  | tOpt t ht => exact ⟨h.1, ht h.2 hθ⟩
  | tStar k r hr => exact ⟨h.1, hr h.2 hθ⟩
  | _ => exact h

/-- A well-kinded type has no wildcards and uses each constructor at its arity. -/
theorem HasKind.wellFormed {t : Ty} {κ : Kind} (h : t.HasKind Γ κ) : t.WellFormed Γ.arity := by
  induction t generalizing κ with
  | tCon n ts ih =>
    rw [WellFormed, wellFormedList_iff]
    rcases h.2 with ⟨rfl, hn⟩ | ⟨ks, hn, hks⟩
    · simp [KindEnv.arity, hn]
    · refine ⟨by simp [KindEnv.arity, hn, (hasKinds_iff.mp hks).length_eq], fun t ht => ?_⟩
      obtain ⟨κ', hκ'⟩ := hks.exists_hasKind t ht
      exact ih t ht hκ'
  | tFun fx p k t hfx hp hk ht => exact ⟨hfx h.2.1, hp h.2.2.1, hk h.2.2.2.1, ht h.2.2.2.2⟩
  | tTuple p k hp hk => exact ⟨hp h.2.1, hk h.2.2⟩
  | tRow k n t r ht hr => exact ⟨ht h.2.1, hr h.2.2⟩
  | tOpt t ht => exact ht h.2
  | tStar k r hr => exact hr h.2
  | tWild => exact h
  | _ => trivial

end Ty
end Acton
