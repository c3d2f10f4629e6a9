import Mathlib.Tactic

/-!
# Runs of a transition system

The events of a system change its state; `none` means that an event cannot happen in a state. The
rules for invariants over whole runs: `run_invariant`, and `run_invariant_of` where the events obey
a condition. The `log` of a run is what an observer sees of it.
-/

namespace Trace
open List
variable {σ ε : Type*} {step : σ → ε → Option σ} {s s' : σ} {es es' : List ε}

/-- The state after the events. -/
def run (step : σ → ε → Option σ) : σ → List ε → Option σ
  | s, [] => some s
  | s, e :: es => (step s e).bind fun s' => run step s' es

variable {e : ε}

lemma run_cons_eq_some :
    run step s (e :: es) = some s' ↔ ∃ s1, step s e = some s1 ∧ run step s1 es = some s' := by
  rw [run, Option.bind_eq_some_iff]

lemma run_append_eq_some :
    run step s (es ++ es') = some s' ↔ ∃ s1, run step s es = some s1 ∧
    run step s1 es' = some s' := by
  induction es generalizing s with
  | nil => simp [run]
  | cons e es ih =>
    rw [cons_append, run_cons_eq_some]
    constructor
    · rintro ⟨s1, hstep, hrun⟩
      obtain ⟨s2, hrun1, hrun2⟩ := ih.mp hrun
      exact ⟨s2, run_cons_eq_some.mpr ⟨s1, hstep, hrun1⟩, hrun2⟩
    · rintro ⟨s2, hrun1, hrun2⟩
      obtain ⟨s1, hstep, hrun1⟩ := run_cons_eq_some.mp hrun1
      exact ⟨s1, hstep, ih.mpr ⟨s2, hrun1, hrun2⟩⟩

lemma run_concat_eq_some :
    run step s (es ++ [e]) = some s' ↔ ∃ s1, run step s es = some s1 ∧ step s1 e = some s' := by
  rw [run_append_eq_some]
  simp [run]

/-- `G` holds for every event in the state where it happens. -/
def Guarded (step : σ → ε → Option σ) (G : σ → ε → Prop) (s : σ) (es : List ε) : Prop :=
  ∀ pre e post s₁, es = pre ++ e :: post → run step s pre = some s₁ → G s₁ e

variable {G : σ → ε → Prop}

lemma Guarded.head (h : Guarded step G s (e :: es)) : G s e := h [] e es s rfl rfl

lemma Guarded.tail (h : Guarded step G s (e :: es)) (hstep : step s e = some s') :
    Guarded step G s' es := fun pre e' post s1 hes hrun =>
  h (e :: pre) e' post s1 (by rw [hes]; rfl) (run_cons_eq_some.mpr ⟨s', hstep, hrun⟩)

lemma guarded_nil : Guarded step G s [] := fun pre _ _ _ hes => by
  cases pre <;> cases hes

lemma guarded_cons :
    Guarded step G s (e :: es) ↔ G s e ∧ ∀ s', step s e = some s' → Guarded step G s' es := by
  refine ⟨fun h => ⟨h.head, fun s' hstep => h.tail hstep⟩, fun ⟨hhead, htail⟩ => ?_⟩
  intro pre e' post s1 hes hrun
  cases pre with
  | nil =>
    cases hes
    exact Option.some.inj hrun ▸ hhead
  | cons e1 pre =>
    cases hes
    obtain ⟨s', hstep, hrun⟩ := run_cons_eq_some.mp hrun
    exact htail s' hstep pre e' post s1 rfl hrun

/-- Every event can happen, and `P` holds in all states of the run. -/
def Always (step : σ → ε → Option σ) (P : σ → Prop) (s : σ) (es : List ε) : Prop :=
  ∀ pre post, es = pre ++ post → ∃ s', run step s pre = some s' ∧ P s'

variable {P : σ → Prop}

lemma Always.head (h : Always step P s es) : P s := by
  obtain ⟨s', hs', hP⟩ := h [] es rfl
  exact Option.some.inj hs' ▸ hP

lemma Always.next (h : Always step P s (e :: es)) : ∃ s', step s e = some s' ∧ P s' := by
  obtain ⟨s', hs', hP⟩ := h [e] es rfl
  obtain ⟨s1, hstep, hs1⟩ := run_cons_eq_some.mp hs'
  exact ⟨s', by rw [hstep, ← hs1, run], hP⟩

lemma always_nil : Always step P s [] ↔ P s := by
  refine ⟨Always.head, fun h pre post hes => ?_⟩
  obtain ⟨rfl, -⟩ := append_eq_nil_iff.mp hes.symm
  exact ⟨s, rfl, h⟩

lemma always_cons (hstep : step s e = some s') :
    Always step P s (e :: es) ↔ P s ∧ Always step P s' es := by
  constructor
  · intro h
    refine ⟨h.head, fun pre post hes => ?_⟩
    obtain ⟨s1, hrun, hP⟩ := h (e :: pre) post (by rw [hes]; rfl)
    rw [run, hstep] at hrun
    exact ⟨s1, hrun, hP⟩
  · rintro ⟨hs, h⟩ pre post hes
    cases pre with
    | nil => exact ⟨s, rfl, hs⟩
    | cons e' pre =>
      cases hes
      obtain ⟨s1, hrun, hP⟩ := h pre post rfl
      exact ⟨s1, run_cons_eq_some.mpr ⟨s', hstep, hrun⟩, hP⟩

/-- Two guards that agree where an invariant of the state and the events to come holds, if the
events that obey one of them keep it. -/
theorem guarded_congr {I : List ε → σ → Prop} {G G' : σ → ε → Prop}
    (hG : ∀ e es s, I (e :: es) s → (G s e ↔ G' s e))
    (hstep : ∀ e es s s', I (e :: es) s → G s e → step s e = some s' → I es s') (hs : I es s) :
    Guarded step G s es ↔ Guarded step G' s es := by
  induction es generalizing s with
  | nil => exact iff_of_true guarded_nil guarded_nil
  | cons e es ih =>
    rw [guarded_cons, guarded_cons, ← hG e es s hs]
    exact and_congr_right fun he => forall₂_congr fun s' hs' => ih (hstep e es s s' hs he hs')

/-- What every event keeps, if the events obey `G`, is kept by a run. -/
theorem run_invariant_of {I : σ → Prop} (hG : Guarded step G s es)
    (hstep : ∀ s e s', I s → G s e → step s e = some s' → I s') (hrun : run step s es = some s')
    (hs : I s) : I s' := by
  induction es generalizing s with
  | nil => exact Option.some.inj hrun ▸ hs
  | cons e es ih =>
    obtain ⟨s1, hs1, hrun⟩ := run_cons_eq_some.mp hrun
    exact ih (hG.tail hs1) hrun (hstep s e s1 hs hG.head hs1)

lemma run_invariant {I : σ → Prop} (hstep : ∀ s e s', I s → step s e = some s' → I s')
    (hrun : run step s es = some s') (hs : I s) : I s' :=
  run_invariant_of (G := fun _ _ => True) (fun _ _ _ _ _ _ => trivial)
    (fun s e s' h _ => hstep s e s' h) hrun hs

section Log
variable {ω : Type*}

/-- What is observed of the events of a run. -/
def log (step : σ → ε → Option σ) (obs : σ → ε → List ω) : σ → List ε → List ω
  | _, [] => []
  | s, e :: es => obs s e ++ ((step s e).elim [] fun s' => log step obs s' es)

/-- An invariant of the state and of what was observed so far. -/
theorem run_log_invariant (obs : σ → ε → List ω) {I : σ → List ω → Prop} {l : List ω}
    (hstep : ∀ s l e s', I s l → step s e = some s' → I s' (l ++ obs s e))
    (hrun : run step s es = some s') (hs : I s l) : I s' (l ++ log step obs s es) := by
  induction es generalizing s l with
  | nil =>
    rw [log, append_nil]
    exact Option.some.inj hrun ▸ hs
  | cons e es ih =>
    obtain ⟨s1, hs1, hrun⟩ := run_cons_eq_some.mp hrun
    rw [log, hs1, Option.elim_some, ← append_assoc]
    exact ih hrun (hstep s l e s1 hs hs1)

end Log
end Trace
