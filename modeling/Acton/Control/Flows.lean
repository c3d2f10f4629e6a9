import Acton.Control

/-!
# The ways in which a suite can end

`flows` lists the ways in which a suite can end, apart from exceptions. The type checker and the
normalizer use it to find out whether the end of a function body can be reached.

## Main results

* `flows_sound`: the list is complete for suites in which no `NotImplemented` stands as a statement
  and no `break` in the else part of a `while` loop, if no context manager swallows an exception.
* `flows_misses_notImpl`: without these conditions it is not. In all three cases `flows` assumes
  that the statement does not fall through, and it does.
-/

namespace Acton.Control
open List

inductive Flow
  | RET | BRK | CNT | SEQ
  deriving DecidableEq

/-- All occurrences are removed. -/
def minus (xs ys : List Flow) : List Flow := xs.filter (· ∉ ys)

def brkseq (flow : List Flow) : List Flow :=
  minus (if .BRK ∈ flow then .SEQ :: flow else flow) [.BRK, .CNT]

def seqFlow (f₁ f₂ : List Flow) : List Flow := if .SEQ ∈ f₁ then minus f₁ [.SEQ] ++ f₂ else f₁

section Flows
variable {σ X V E A P C W : Type}

mutual
def flows : Stmt E A P C W → List Flow
  | .simple _ => [.SEQ]
  | .notImpl => []
  | .primRaise _ => []
  | .raise _ => []
  | .return_ _ => [.RET]
  | .break_ => [.BRK]
  | .continue_ => [.CNT]
  | .if_ bs els => flowsBranches bs ++ flowsSuite els
  | .while_ _ b els => brkseq (flowsSuite b) ++ flowsSuite els
  | .for_ _ _ b els => brkseq (flowsSuite b) ++ flowsSuite els
  | .with_ _ b => flowsSuite b
  | .try_ b hs els fin =>
    -- the source applies `flows` to the suite `b ++ els`
    seqFlow (flowsSuite b) (flowsSuite els) ++ flowsHandlers hs ++ minus (flowsSuite fin) [.SEQ]

def flowsSuite : List (Stmt E A P C W) → List Flow
  | [] => [.SEQ]
  | s :: ss => seqFlow (flows s) (flowsSuite ss)

def flowsBranch : Branch E A P C W → List Flow
  | .mk _ b => flowsSuite b

def flowsBranches : List (Branch E A P C W) → List Flow
  | [] => []
  | b :: bs => flowsBranch b ++ flowsBranches bs

def flowsHandler : Handler E A P C W → List Flow
  | .mk _ b => flowsSuite b

def flowsHandlers : List (Handler E A P C W) → List Flow
  | [] => []
  | h :: hs => flowsHandler h ++ flowsHandlers hs
end

def fallsthru (ss : Suite E A P C W) : Prop := .SEQ ∈ flowsSuite ss
instance (ss : Suite E A P C W) : Decidable (fallsthru ss) := inferInstanceAs (Decidable (_ ∈ _))

mutual
/-- A `break` in it can leave it. -/
def Stmt.breaks : Stmt E A P C W → Bool
  | .break_ => true
  | .if_ bs els => breaksBranches bs || breaksSuite els
  -- a `break` in a loop leaves the loop
  | .while_ _ _ els => breaksSuite els
  | .for_ _ _ _ els => breaksSuite els
  | .try_ b hs els fin => breaksSuite b || breaksHandlers hs || breaksSuite els || breaksSuite fin
  | .with_ _ b => breaksSuite b
  | _ => false

def breaksSuite : List (Stmt E A P C W) → Bool
  | [] => false
  | s :: ss => s.breaks || breaksSuite ss

def Branch.breaks : Branch E A P C W → Bool
  | .mk _ b => breaksSuite b

def breaksBranches : List (Branch E A P C W) → Bool
  | [] => false
  | b :: bs => b.breaks || breaksBranches bs

def Handler.breaks : Handler E A P C W → Bool
  | .mk _ b => breaksSuite b

def breaksHandlers : List (Handler E A P C W) → Bool
  | [] => false
  | h :: hs => h.breaks || breaksHandlers hs
end

/-- What stands behind it in a suite is never executed. -/
def Stmt.leaves : Stmt E A P C W → Bool
  | .primRaise _ | .raise _ | .return_ _ | .break_ | .continue_ => true
  | _ => false

mutual
/-- No `NotImplemented` stands as a statement in it, apart from what stands behind a `return` and
the like, and no `break` in the else part of a `while` loop. -/
def Stmt.regular : Stmt E A P C W → Bool
  | .notImpl => false
  | .if_ bs els => regularBranches bs && regularSuite els
  | .while_ _ b els => regularSuite b && regularSuite els && !breaksSuite els
  | .for_ _ _ b els => regularSuite b && regularSuite els
  | .try_ b hs els fin =>
    regularSuite b && regularHandlers hs && regularSuite els && regularSuite fin
  | .with_ _ b => regularSuite b
  | _ => true

def regularSuite : List (Stmt E A P C W) → Bool
  | [] => true
  | s :: ss => s.regular && (s.leaves || regularSuite ss)

def Branch.regular : Branch E A P C W → Bool
  | .mk _ b => regularSuite b

def regularBranches : List (Branch E A P C W) → Bool
  | [] => true
  | b :: bs => b.regular && regularBranches bs

def Handler.regular : Handler E A P C W → Bool
  | .mk _ b => regularSuite b

def regularHandlers : List (Handler E A P C W) → Bool
  | [] => true
  | h :: hs => h.regular && regularHandlers hs
end

/-! ### Lists of flows -/

lemma mem_minus {f : Flow} {xs ys : List Flow} : f ∈ minus xs ys ↔ f ∈ xs ∧ f ∉ ys := by
  simp [minus]

lemma mem_seqFlow {f : Flow} {f1 f2 : List Flow} :
    f ∈ seqFlow f1 f2 ↔ (f ∈ f1 ∧ f ≠ .SEQ) ∨ (.SEQ ∈ f1 ∧ f ∈ f2) := by
  unfold seqFlow
  split_ifs with h
  · simp [mem_minus, h]
  · have hne : f ∈ f1 → f ≠ .SEQ := fun hf hs => h (hs ▸ hf)
    simp only [h, false_and, or_false]
    exact ⟨fun hf => ⟨hf, hne hf⟩, And.left⟩

lemma mem_brkseq {f : Flow} {fs : List Flow} :
    f ∈ brkseq fs ↔ (f ∈ fs ∧ f ≠ .BRK ∧ f ≠ .CNT) ∨ (f = .SEQ ∧ .BRK ∈ fs) := by
  unfold brkseq
  split_ifs with h
  · rw [mem_minus]
    cases f <;> simp [h]
  · rw [mem_minus]
    cases f <;> simp [h]

mutual
/-- A `break` is listed only for what has one. -/
lemma Stmt.breaks_of_mem : ∀ c : Stmt E A P C W, .BRK ∈ flows c → c.breaks
  | .simple _ | .notImpl | .primRaise _ | .raise _ | .return_ _ | .continue_ => by simp [flows]
  | .break_ => fun _ => rfl
  | .if_ bs els => fun h => by
    rw [flows, mem_append] at h
    rw [Stmt.breaks, Bool.or_eq_true]
    exact h.imp (breaksBranches_of_mem bs) (breaksSuite_of_mem els)
  | .while_ _ b els | .for_ _ _ b els => fun h => by
    rw [flows, mem_append, mem_brkseq] at h
    rw [Stmt.breaks]
    exact breaksSuite_of_mem els (by simpa using h)
  | .with_ _ b => fun h => by
    rw [flows] at h
    rw [Stmt.breaks]
    exact breaksSuite_of_mem b h
  | .try_ b hs els fin => fun h => by
    rw [flows, mem_append, mem_append, mem_seqFlow, mem_minus] at h
    rw [Stmt.breaks, Bool.or_eq_true, Bool.or_eq_true, Bool.or_eq_true]
    rcases h with ((⟨h, _⟩ | ⟨_, h⟩) | h) | ⟨h, _⟩
    · exact .inl (.inl (.inl (breaksSuite_of_mem b h)))
    · exact .inl (.inr (breaksSuite_of_mem els h))
    · exact .inl (.inl (.inr (breaksHandlers_of_mem hs h)))
    · exact .inr (breaksSuite_of_mem fin h)

lemma breaksSuite_of_mem : ∀ ss : List (Stmt E A P C W), .BRK ∈ flowsSuite ss → breaksSuite ss
  | [] => by simp [flowsSuite]
  | s :: ss => fun h => by
    rw [flowsSuite, mem_seqFlow] at h
    rw [breaksSuite, Bool.or_eq_true]
    exact h.imp (fun h => Stmt.breaks_of_mem s h.1) (fun h => breaksSuite_of_mem ss h.2)

lemma breaksBranches_of_mem :
    ∀ bs : List (Branch E A P C W), .BRK ∈ flowsBranches bs → breaksBranches bs
  | [] => by simp [flowsBranches]
  | .mk e b :: bs => fun h => by
    rw [flowsBranches, flowsBranch, mem_append] at h
    rw [breaksBranches, Branch.breaks, Bool.or_eq_true]
    exact h.imp (breaksSuite_of_mem b) (breaksBranches_of_mem bs)

lemma breaksHandlers_of_mem :
    ∀ hs : List (Handler E A P C W), .BRK ∈ flowsHandlers hs → breaksHandlers hs
  | [] => by simp [flowsHandlers]
  | .mk c b :: hs => fun h => by
    rw [flowsHandlers, flowsHandler, mem_append] at h
    rw [breaksHandlers, Handler.breaks, Bool.or_eq_true]
    exact h.imp (breaksSuite_of_mem b) (breaksHandlers_of_mem hs)
end

/-! ### Executions end in one of the listed ways -/

def Outcome.flow : Outcome V X → Option Flow
  | .seq => some .SEQ
  | .brk => some .BRK
  | .cnt => some .CNT
  | .ret _ => some .RET
  | .exn _ => none

def Code.flows : Code X V E A P C W → List Flow
  | .stmt s => Control.flows s
  | .suite ss => flowsSuite ss
  | .branches bs els => flowsBranches bs ++ flowsSuite els
  | .loop _ _ b els => brkseq (flowsSuite b) ++ flowsSuite els
  | .guarded b hs els => seqFlow (flowsSuite b) (flowsSuite els) ++ flowsHandlers hs
  | .handlers hs _ => flowsHandlers hs

def Code.regular : Code X V E A P C W → Bool
  | .stmt s => s.regular
  | .suite ss => regularSuite ss
  | .branches bs els => regularBranches bs && regularSuite els
  | .loop _ _ b els => regularSuite b && regularSuite els
  | .guarded b hs els => regularSuite b && regularHandlers hs && regularSuite els
  | .handlers hs _ => regularHandlers hs

/-- No context manager swallows an exception. -/
def Prims.Propagates (R : Prims σ X V E A P C W) : Prop :=
  ∀ i m x s s', ¬R.exit i m (some x) s (.ok true) s'

lemma flow_leave {o : Outcome V X} {f : Flow} {fs : List Flow} (ho : ¬o.Latch)
    (h : ∀ f, o.flow = some f → f ∈ fs) (hf : o.leave.flow = some f) : f ∈ brkseq fs := by
  rw [mem_brkseq]
  cases o with
  | seq => exact absurd (.inl rfl) ho
  | cnt => exact absurd (.inr rfl) ho
  | brk => exact .inr ⟨(Option.some.inj hf).symm, h _ rfl⟩
  | ret v =>
    obtain ⟨⟩ := hf
    exact .inl ⟨h _ rfl, by decide, by decide⟩
  | exn x => cases hf

/-- If no `break` is listed for the else part of a `while` loop, the loop ends as the else part
does. -/
lemma flow_leave_else {o : Outcome V X} {f : Flow} {fs : List Flow} (hbrk : .BRK ∉ fs)
    (h : ∀ f, o.flow = some f → f ∈ fs) (hf : o.leave.flow = some f) : f ∈ fs := by
  cases o with
  | brk => exact absurd (h _ rfl) hbrk
  | _ => exact h f hf

variable {R : Prims σ X V E A P C W} {c : Code X V E A P C W} {s s' : σ} {o : Outcome V X}

/-- A statement that leaves the suite does not fall through. -/
lemma Stmt.leaves_eq_false {c : Stmt E A P C W} (h : Exec R (.stmt c) s .seq s') :
    c.leaves = false := by
  cases c <;> first | rfl | cases h

attribute [local simp] Code.regular Stmt.regular regularSuite Branch.regular
  regularBranches Handler.regular regularHandlers Code.flows flows flowsSuite
  flowsBranch flowsBranches flowsHandler flowsHandlers

/-- Every way in which an execution ends is listed. -/
theorem mem_flows (hR : R.Propagates) (h : Exec R c s o s') (hc : c.regular) :
    ∀ f, o.flow = some f → f ∈ c.flows := by
  induction h with
  | nil | simple | break_ | continue_ | return_none | return_some =>
    rintro f ⟨⟩
    simp
  | simple_exn | primRaise | primRaise_exn | raise | raise_exn | return_exn | branches_exn |
    while_exn | for_exn | loop_exn | loop_bind | handlers_nil | with_enter | with_exit_exn |
    with_pass | with_replace => rintro f ⟨⟩
  | notImpl => simp at hc
  | with_swallow _ _ hexit => exact absurd hexit (hR _ _ _ _ _)
  | cons h1 _ ih1 ih2 =>
    simp only [Code.regular, regularSuite, Stmt.leaves_eq_false h1, Bool.false_or,
      Bool.and_eq_true] at hc
    intro f hf
    rw [Code.flows, flowsSuite, mem_seqFlow]
    exact .inr ⟨ih1 hc.1 _ rfl, ih2 hc.2 f hf⟩
  | @stop c ss s s' o _ ho ih =>
    simp only [Code.regular, regularSuite, Bool.and_eq_true] at hc
    intro f hf
    rw [Code.flows, flowsSuite, mem_seqFlow]
    refine .inl ⟨ih hc.1 f hf, ?_⟩
    rintro rfl
    cases o <;> simp [Outcome.flow] at hf ho
  | if_ _ ih | for_ _ _ ih | with_nil _ ih | with_exit _ _ _ _ ih => exact ih (by simpa using hc)
  | branches_nil _ ih => simpa using ih (by simpa using hc)
  | branches_true _ _ _ ih | branches_false _ _ _ ih | handlers_hit _ _ ih | handlers_miss _ _ ih =>
    intro f hf
    have hb := ih (by simp_all) f hf
    simp_all
  | loop_stop _ _ _ ih | guarded_exn _ _ _ ih | loop_bind_stop _ _ _ _ ih
  | loop_body_stop _ _ _ _ _ _ ih =>
    intro f hf
    exact mem_append_right _ (ih (by simp_all) f hf)
  | while_else _ _ _ _ ih =>
    simp only [Code.regular, Stmt.regular, Bool.and_eq_true, Bool.not_eq_true'] at hc
    intro f hf
    refine mem_append_right _ (flow_leave_else (fun hbrk => ?_) (ih hc.1.2) hf)
    simp [breaksSuite_of_mem _ hbrk] at hc
  | while_next _ _ _ _ _ _ ih | while_again _ _ _ _ _ ih => exact ih hc
  | while_leave _ _ _ ho ih | loop_leave _ _ _ ho _ ih =>
    intro f hf
    exact mem_append_left _ (flow_leave ho (ih (by simp_all)) hf)
  | loop_next _ _ _ _ _ _ ih => exact ih hc
  | @try_ b hs els fin s o s' o' s'' _ _ ih ihfin =>
    intro f hf
    have hguarded := ih (by simp_all)
    have hfin := ihfin (by simp_all)
    -- the `finally` suite decides unless it falls through
    cases o' with
    | seq => exact mem_append_left _ (hguarded f hf)
    | exn x => cases hf
    | _ =>
      obtain ⟨⟩ := hf
      exact mem_append_right _ (mem_minus.mpr ⟨hfin _ rfl, by decide⟩)
  | guarded_else _ _ ih1 ih2 =>
    intro f hf
    refine mem_append_left _ (mem_seqFlow.mpr (.inr ⟨ih1 (by simp_all) _ rfl, ?_⟩))
    exact ih2 (by simp_all) f hf
  | @guarded_stop b hs els s o s' _ ho _ ih =>
    intro f hf
    refine mem_append_left _ (mem_seqFlow.mpr (.inl ⟨ih (by simp_all) f hf, ?_⟩))
    rintro rfl
    cases o <;> simp [Outcome.flow] at hf ho

/-- Every execution of a suite that does not end in an exception ends in one of the ways that are
listed for the suite. So a suite without the entry for falling through never falls through. -/
theorem flows_sound {ss : Suite E A P C W} (hR : R.Propagates) (hss : regularSuite ss)
    (h : Exec R (.suite ss) s o s') :
    (∀ f, o.flow = some f → f ∈ flowsSuite ss) ∧ (¬fallsthru ss → o ≠ .seq) := by
  have hmem := mem_flows hR h hss
  refine ⟨hmem, ?_⟩
  rintro hnot rfl
  exact hnot (hmem _ rfl)

end Flows

/-! ### Examples -/

/-- Expressions are constants, and nothing raises an exception. -/
def constants : Prims Unit Unit Bool Bool Unit Unit Unit Unit where
  eval e _ r _ := r = .ok e
  truth v := v
  none := false
  act _ _ r _ := r = .ok ()
  toExn _ := ()
  next _ _ _ _ := False
  isStop _ := true
  bind _ _ _ _ _ := False
  catches _ _ := false
  bindExn _ _ s := s
  enter _ _ _ _ := False
  exit _ _ _ _ _ _ := False

theorem flows_sound_break : (∀ f, (Outcome.seq : Outcome Bool Unit).flow = some f →
      f ∈ flowsSuite ([.while_ true [.break_] []] : Suite Bool Unit Unit Unit Unit)) ∧
    (¬fallsthru ([.while_ true [.break_] []] : Suite Bool Unit Unit Unit Unit) →
      (Outcome.seq : Outcome Bool Unit) ≠ .seq) := by
  have hbody : Exec constants (.suite [.break_]) () .brk () := .stop .break_ (by decide)
  have hloop : Exec constants (.stmt (.while_ true [.break_] [])) () .seq () :=
    .while_leave rfl rfl hbody (by simp [Outcome.Latch])
  exact flows_sound (fun _ _ _ _ _ h => h) (by simp [regularSuite, Stmt.regular, breaksSuite])
    (.cons hloop .nil)

/-- A suite with an alternative that is not implemented: it falls through, and `flows` says that it
always returns. A loop with a `break` in its else part falls through, and `flows` says that it
returns or leaves the loop around it. -/
theorem flows_misses_notImpl :
    (Exec constants (.suite [.if_ [.mk true [.notImpl]] [.return_ none]]) () .seq () ∧
      flowsSuite ([.if_ [.mk true [.notImpl]] [.return_ none]] : Suite Bool Unit Unit Unit Unit) =
        [.RET]) ∧
    Exec constants (.suite [.while_ false [.return_ none] [.break_]]) () .seq () ∧
      flowsSuite ([.while_ false [.return_ none] [.break_]] : Suite Bool Unit Unit Unit Unit) =
        [.RET, .BRK] := by
  have hbreak : Exec constants (.suite [.break_]) () .brk () := .stop .break_ (by decide)
  refine ⟨⟨.cons (.if_ (.branches_true rfl rfl (.cons .notImpl .nil))) .nil, ?_⟩,
    .cons (.while_else rfl rfl hbreak (by decide)) .nil, ?_⟩
  · simp [flowsSuite, flows, flowsBranches, flowsBranch, seqFlow]
  · simp [flowsSuite, flows, seqFlow, brkseq, minus]

end Acton.Control
