import Acton.Syntax
import Acton.ToMathlib.Fuel
import Acton.ToMathlib.Triangular

/-!
# Kind unification

`kunify` makes two kinds equal by binding kind variables in a map, which `ksubst` applies again and
again until no bound variable is left. As in the source both call themselves on what they find in
the map, so they take fuel. The occurs check of `kunify'` asks `kfree` for the variables of a kind;
`kfree` returns none. The check is a parameter here: `kunify` is the source's, and with `Kind.vars`
it is what the check is for.
-/

namespace Acton
open TermAlgebra List
namespace Kind

/-- Induction over kinds, with a hypothesis for each argument of a function kind. -/
@[elab_as_elim, induction_eliminator]
theorem induction {P : Kind → Prop} (kType : P kType) (kProto : P kProto) (kFX : P kFX)
    (pRow : P pRow) (kRow : P kRow) (kFun : ∀ ks k, (∀ k' ∈ ks, P k') → P k → P (kFun ks k))
    (kUni : ∀ i, P (kUni i)) (kWild : P kWild) (k : Kind) : P k :=
  @Kind.rec P (fun ks => ∀ k ∈ ks, P k) kType kProto kFX pRow kRow kFun kUni kWild (by simp)
    (fun k ks hk hks => by simpa using ⟨hk, hks⟩) k

mutual
/-- The variables of a kind. -/
def vars : Kind → List ℤ
  | kUni i => [i]
  | kFun ks k => vars k ++ varsList ks
  | _ => []

/-- The variables of a list of kinds. -/
def varsList : List Kind → List ℤ
  | [] => []
  | k :: ks => vars k ++ varsList ks

/-- Simultaneous substitution of kinds for variables. -/
def bind : Kind → (ℤ → Kind) → Kind
  | kUni i, θ => θ i
  | kFun ks k, θ => kFun (bindList ks θ) (bind k θ)
  | k, _ => k

/-- `bind` on each kind of a list. -/
def bindList : List Kind → (ℤ → Kind) → List Kind
  | [], _ => []
  | k :: ks, θ => bind k θ :: bindList ks θ
end
end Kind

mutual
/-- The source's list of the variables of a kind. It leaves out the variable itself. -/
def kfree : Kind → List ℤ
  | .kUni _ => []
  | .kFun ks k => kfree k ++ kfreeList ks
  | _ => []

/-- `concatMap kfree`. -/
def kfreeList : List Kind → List ℤ
  | [] => []
  | k :: ks => kfree k ++ kfreeList ks
end

/-- The substitution of the kind variables. -/
abbrev KindSubst := ℤ → Option Kind

inductive KindError
  | infiniteKind (v : ℤ) (k : Kind)
  | noKUnify (k₁ k₂ : Kind)
  deriving DecidableEq

/-- Replace the variables that the substitution binds, also inside the replacements. The flag says
whether the others become `KType`. -/
def ksubst (s : KindSubst) (g : Bool) : ℕ → Kind → Option Kind
  | 0, _ => none
  | _ + 1, .kWild => some .kWild
  | n + 1, .kUni i =>
    match s i with
    | some k => ksubst s g n k
    | none => some (if g then .kType else .kUni i)
  | n + 1, .kFun ks k => do
    let ks ← ks.mapM (ksubst s g n)
    let k ← ksubst s g n k
    some (.kFun ks k)
  | _ + 1, k => some k

/-- Bind a variable after the occurs check. -/
def bindKUni (free : Kind → List ℤ) (s : KindSubst) (v : ℤ) (k : Kind) :
    Except KindError KindSubst :=
  if v ∈ free k then .error (.infiniteKind v k) else .ok (Function.update s v (some k))

/-- Unify pairs of kinds one after the other, up to the first error. -/
def kunifyM (unify : KindSubst → Kind → Kind → Option (Except KindError KindSubst)) :
    KindSubst → List (Kind × Kind) → Option (Except KindError KindSubst)
  | s, [] => some (.ok s)
  | s, p :: ps => do
    match ← unify s p.1 p.2 with
    | .ok s => kunifyM unify s ps
    | .error e => some (.error e)

/-- `kunify'` for the variables that `free` gives to the occurs check. -/
def kunifyWith' (free : Kind → List ℤ)
    (unify : KindSubst → Kind → Kind → Option (Except KindError KindSubst)) (s : KindSubst)
    (k₁ k₂ : Kind) : Option (Except KindError KindSubst) :=
  match k₁, k₂ with
  | .kUni v₁, .kUni v₂ => if v₁ = v₂ then some (.ok s) else some (bindKUni free s v₁ (.kUni v₂))
  | .kUni v, k₂ => some (bindKUni free s v k₂)
  | k₁, .kUni v => some (bindKUni free s v k₁)
  | .kFun ks₁ k₁, .kFun ks₂ k₂ =>
    if ks₁.length = ks₂.length then kunifyM unify s (ks₁.zip ks₂ ++ [(k₁, k₂)])
    else some (.error (.noKUnify (.kFun ks₁ k₁) (.kFun ks₂ k₂)))
  | k₁, k₂ => if k₁ = k₂ then some (.ok s) else some (.error (.noKUnify k₁ k₂))

def kunifyWith (free : Kind → List ℤ) :
    ℕ → KindSubst → Kind → Kind → Option (Except KindError KindSubst)
  | 0, _, _, _ => none
  | n + 1, s, k₁, k₂ => do
    let k₁ ← ksubst s false n k₁
    let k₂ ← ksubst s false n k₂
    kunifyWith' free (kunifyWith free n) s k₁ k₂

/-- The source's function. -/
def kunify : ℕ → KindSubst → Kind → Kind → Option (Except KindError KindSubst) := kunifyWith kfree

/-! ## Kinds as a term algebra -/

namespace Kind

@[simp]
lemma bindList_eq_map (ks : List Kind) (θ : ℤ → Kind) :
    bindList ks θ = ks.map fun k => bind k θ := by
  induction ks with
  | nil => simp [bindList]
  | cons k ks ih => simp [bindList, ih]

lemma mem_varsList {v : ℤ} {ks : List Kind} : v ∈ varsList ks ↔ ∃ k ∈ ks, v ∈ vars k := by
  induction ks with
  | nil => simp [varsList]
  | cons k ks ih => simp [varsList, ih]

lemma mem_vars_kFun {v : ℤ} {ks : List Kind} {k : Kind} :
    v ∈ vars (kFun ks k) ↔ v ∈ vars k ∨ ∃ k' ∈ ks, v ∈ vars k' := by
  rw [vars, mem_append, mem_varsList]

lemma bind_pure (k : Kind) : bind k kUni = k := by
  induction k with
  | kFun ks k ihs ih =>
    rw [bind, bindList_eq_map, ih, map_congr_left ihs, map_id' ks]
  | _ => rfl

lemma bind_bind (k : Kind) (f g : ℤ → Kind) : bind (bind k f) g = bind k fun v => bind (f v) g := by
  induction k with
  | kFun ks k ihs ih =>
    simp only [bind, bindList_eq_map, map_map, ih, kFun.injEq, and_true]
    exact map_congr_left ihs
  | _ => rfl

lemma bind_congr (k : Kind) (f g : ℤ → Kind) (h : ∀ v ∈ vars k, f v = g v) :
    bind k f = bind k g := by
  induction k with
  | kUni i => exact h i (by simp [vars])
  | kFun ks k ihs ih =>
    simp only [mem_vars_kFun] at h
    rw [bind, bind, bindList_eq_map, bindList_eq_map, ih fun v hv => h v (.inl hv),
      map_congr_left fun k' hk' => ihs k' hk' fun v hv => h v (.inr ⟨k', hk', hv⟩)]
  | _ => rfl

lemma mem_vars_bind (k : Kind) (f : ℤ → Kind) (w : ℤ) :
    w ∈ vars (bind k f) ↔ ∃ v ∈ vars k, w ∈ vars (f v) := by
  induction k with
  | kUni i => simp [vars, bind]
  | kFun ks k ihs ih =>
    simp only [bind, bindList_eq_map, mem_vars_kFun, ih, mem_map]
    constructor
    · rintro (⟨v, hv, hw⟩ | ⟨_, ⟨k', hk', rfl⟩, hw⟩)
      · exact ⟨v, .inl hv, hw⟩
      · obtain ⟨v, hv, hw⟩ := (ihs k' hk').mp hw
        exact ⟨v, .inr ⟨k', hk', hv⟩, hw⟩
    · rintro ⟨v, hv | ⟨k', hk', hv⟩, hw⟩
      · exact .inl ⟨v, hv, hw⟩
      · exact .inr ⟨_, ⟨k', hk', rfl⟩, (ihs k' hk').mpr ⟨v, hv, hw⟩⟩
  | _ => simp [vars, bind]

instance : TermAlgebra ℤ Kind where
  var := kUni
  bind := bind
  vars := vars
  bind_var _ _ := rfl
  bind_pure := bind_pure
  bind_bind := bind_bind
  bind_congr := bind_congr
  mem_vars_var v w := by simp [vars]
  mem_vars_bind := mem_vars_bind

/-- A kind in which a variable occurs is larger than the variable under every substitution. -/
theorem sizeOf_le_of_mem_vars {θ : ℤ → Kind} {v : ℤ} {k : Kind} (hv : v ∈ vars k) :
    sizeOf (θ v) ≤ sizeOf (k.bind θ) ∧ (k ≠ kUni v → sizeOf (θ v) < sizeOf (k.bind θ)) := by
  induction k with
  | kUni i =>
    obtain rfl : v = i := by simpa [vars] using hv
    simp [bind]
  | kFun ks k ihs ih =>
    simp only [bind, bindList_eq_map, kFun.sizeOf_spec]
    rcases mem_vars_kFun.mp hv with hv | ⟨k', hk', hv⟩
    · have := (ih hv).1
      omega
    · have := (ihs k' hk' hv).1
      have := sizeOf_lt_of_mem (mem_map_of_mem (f := fun k => k.bind θ) hk')
      omega
  | _ => simp [vars] at hv

lemma bind_ne_of_mem_vars {v : ℤ} {k : Kind} (hv : v ∈ vars k) (hk : k ≠ kUni v)
    (θ : ℤ → Kind) : θ v ≠ k.bind θ := fun heq => by
  have := (sizeOf_le_of_mem_vars (θ := θ) hv).2 hk
  rw [heq] at this
  exact lt_irrefl _ this

end Kind
end Acton
