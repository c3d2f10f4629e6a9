import Acton.Rts.Refinement

/-!
# Messages arrive in the order in which they are sent

The messages that an actor `a` sends to an actor `b` with `$ASYNC` are, at any time, those that were
taken from the queue of `b`, followed by those in the queue of `b`, followed by those on their way:
in the hand of the worker that runs `a`, in the list `$outgoing` of `a`, which has the last one
first, and in the list that the worker is to send. This is kept by every step (`Sends.step`), so
messages are taken in order and none is lost (`sent_in_order`).
-/

namespace Acton.Rts
open LinkedLists Queues List Option Function

/-! ## What was sent and what was taken -/

/-- The messages from `a` to `b`. -/
def sentTo (a b : ℕ) (H : List Obs) : List ℕ := H.filterMap fun
    | .sent a' b' x => if a' = a ∧ b' = b then some x else none
    | _ => none

/-- The messages that were taken from the queue of `b`. -/
def takenFrom (b : ℕ) (H : List Obs) : List ℕ := H.filterMap fun
    | .taken b' x => if b' = b then some x else none
    | _ => none

section Lists
variable {a b x : ℕ} {H o : List Obs}

lemma sentTo_append : sentTo a b (H ++ o) = sentTo a b H ++ sentTo a b o := filterMap_append
lemma takenFrom_append : takenFrom b (H ++ o) = takenFrom b H ++ takenFrom b o := filterMap_append

lemma mem_sentTo : x ∈ sentTo a b H ↔ .sent a b x ∈ H := by
  simp only [sentTo, mem_filterMap]
  constructor
  · rintro ⟨e, he, hx⟩
    cases e <;> simp at hx
    obtain ⟨⟨rfl, rfl⟩, rfl⟩ := hx
    exact he
  · intro h
    exact ⟨_, h, by simp⟩

lemma mem_takenFrom : x ∈ takenFrom b H ↔ .taken b x ∈ H := by
  simp only [takenFrom, mem_filterMap]
  constructor
  · rintro ⟨e, he, hx⟩
    cases e <;> simp at hx
    obtain ⟨rfl, rfl⟩ := hx
    exact he
  · intro h
    exact ⟨_, h, by simp⟩

end Lists
variable {a : ℕ}
namespace Pc

/-- The worker runs actor `a`. -/
def Runs (p : Pc) (a : ℕ) : Prop := ∃ m, p.runs = some (a, m)

/-- The actor all of whose messages are in the list that the worker is to send. -/
def sent : Pc → Option ℕ
  | .freeze a _ _ _ => some a
  | .dequeue a _ => some a
  | .loop l | .send l | .delay l | .ready _ l => l.runs.map Prod.fst
  | _ => none

lemma Runs.eq {p : Pc} {a c m : ℕ} (h : p.Runs a) (hr : p.runs = some (c, m)) : a = c := by
  obtain ⟨m', hm'⟩ := h
  exact (Prod.mk.inj (mem_unique hm' hr)).1

lemma runs_of_sent {p : Pc} (h : p.sent = some a) : p.Runs a := by
  have hloop (l : Loop) (hl : l.runs.map Prod.fst = some a) : ∃ m, l.runs = some (a, m) := by
    obtain ⟨⟨a', m⟩, hr, rfl⟩ := map_eq_some_iff.mp hl
    exact ⟨m, hr⟩
  cases p with
  | loop l | send l | delay l | ready _ l => exact hloop l h
  | freeze a m | dequeue a m =>
    cases h
    exact ⟨m, rfl⟩
  | _ => cases h

end Pc
namespace Queues

/-- The messages of an actor that are on their way. -/
inductive Way (Q : Queues) (a : ℕ) : List ℕ → Prop
  | running {w : ℕ} (h : (Q.pc w).Runs a) :
    Way Q a (Q.msgs (.hand w) ++ ((Q.msgs (.outgoing a)).reverse ++ Q.msgs (.flush w)))
  | resting (h : ∀ w, ¬ (Q.pc w).Runs a) : Way Q a (Q.msgs (.outgoing a)).reverse

end Queues

/-- What was sent is what was taken, what is in the queue, and what is on its way. -/
structure Sends (Q : Queues) (H : List Obs) : Prop where
  known : ∀ a b, ∀ x ∈ sentTo a b H, x < Q.fresh ∧ Q.dest x = b
  taken : ∀ b, ∀ x ∈ takenFrom b H, Free Q.msgs x ∧ x < Q.fresh
  nodup : ∀ b, (takenFrom b H).Nodup
  order : ∀ a b l, Q.Way a l →
    sentTo a b H = (takenFrom b H ++ Q.msgs (.queue b) ++ l).filter (· ∈ sentTo a b H)
  /-- Messages with the baseline of the current message are sent at once. -/
  baseline : ∀ a b, ∀ x ∈ sentTo a b H,
    (x ∈ Q.msgs (.outgoing a) ∨ ∃ w, (Q.pc w).Runs a ∧ x ∈ Q.msgs (.flush w)) →
      ∃ m l, Q.msgs (.queue a) = m :: l ∧ Q.baseline x = Q.baseline m
  delayed : ∀ w l, Q.pc w = .delay l → ∀ x ∈ Q.msgs (.hand w), ∀ a b, x ∉ sentTo a b H
  sent : ∀ w a, (Q.pc w).sent = some a → Q.msgs (.outgoing a) = []

namespace Sends
variable {Q Q' : Queues} {H o : List Obs} {w : ℕ}

lemma exists_way (Q : Queues) (a : ℕ) : ∃ l, Q.Way a l := by
  by_cases h : ∃ w, (Q.pc w).Runs a
  · obtain ⟨w, hw⟩ := h
    exact ⟨_, .running hw⟩
  · exact ⟨_, .resting (not_exists.mp h)⟩

/-- Where a message is that was sent. -/
theorem located (h : Sends Q H) {a b x : ℕ} (hx : x ∈ sentTo a b H) :
    x ∈ takenFrom b H ∨ x ∈ Q.msgs (.queue b) ∨ x ∈ Q.msgs (.outgoing a) ∨
      ∃ w, (Q.pc w).Runs a ∧ (x ∈ Q.msgs (.hand w) ∨ x ∈ Q.msgs (.flush w)) := by
  obtain ⟨l, hl⟩ := exists_way Q a
  have hmem := hx
  rw [h.order a b l hl, mem_filter] at hmem
  simp only [mem_append] at hmem
  rcases hmem.1 with (hx | hx) | hx
  · exact .inl hx
  · exact .inr (.inl hx)
  · refine .inr (.inr ?_)
    cases hl with
    | @running w hw =>
      simp only [mem_append, mem_reverse] at hx
      rcases hx with hx | hx | hx
      · exact .inr ⟨w, hw, .inl hx⟩
      · exact .inl hx
      · exact .inr ⟨w, hw, .inr hx⟩
    | resting => exact .inl (mem_reverse.mp hx)

/-! ## What is on its way -/

attribute [local simp] setPc setActors setMsgs Queues.modify Core.setPc Core.setCont Core.setValue
  Core.setMsg Core.newMsg

lemma runs_unique (hi : Q.Inv) {a w w' : ℕ} (h : (Q.pc w).Runs a) (h' : (Q.pc w').Runs a) :
    w = w' := by
  obtain ⟨m, hm⟩ := h
  obtain ⟨m', hm'⟩ := h'
  exact hi.holder (Pc.mem_holds_of_runs hm) (Pc.mem_holds_of_runs hm')

lemma hand_of_ne (hs : Queues.Step w Q o Q') {w' : ℕ} (hne : w' ≠ w) :
    Q'.msgs (.hand w') = Q.msgs (.hand w') ∧ Q'.msgs (.flush w') = Q.msgs (.flush w') := by
  cases hs <;> simp [hne]

/-- Only the worker that runs an actor changes its list. -/
theorem outgoing_eq (hs : Queues.Step w Q o Q') (ha : ¬ (Q.pc w).Runs a) :
    Q'.msgs (.outgoing a) = Q.msgs (.outgoing a) := by
  have hne {a' m : ℕ} (hr : (Q.pc w).runs = some (a', m)) : a ≠ a' := by
    rintro rfl
    exact ha ⟨m, hr⟩
  cases hs with
  | async _ _ hpc | after _ _ hpc | reverse hpc =>
    have := hne (by rw [hpc]; rfl)
    simp [this]
  | _ => simp

/-- Nothing else is in hand, or to be sent, while an actor does not send. -/
theorem nothing_to_send (hi : Q.Inv) (hhand : (Q.pc w).inHand = 0)
    (hflush : (Q.pc w).flushing = false) :
    Q.msgs (.hand w) = [] ∧ Q.msgs (.flush w) = [] := by
  refine ⟨eq_nil_of_length_eq_zero ((hi.hand w).trans hhand), ?_⟩
  by_contra hne
  rw [hi.flush w hne] at hflush
  cases hflush

variable {l : List ℕ}

/-- What other actors have on their way stays there. -/
theorem way_of_not_runs (hs : Queues.Step w Q o Q') (hl : Q'.Way a l) (ha : ¬ (Q.pc w).Runs a)
    (ha' : ¬ (Q'.pc w).Runs a) : Q.Way a l := by
  cases hl with
  | @running w' hw' =>
    have hne : w' ≠ w := fun heq => ha' (heq ▸ hw')
    obtain ⟨hhand, hflush⟩ := hand_of_ne hs hne
    rw [hs.pc_of_ne hne] at hw'
    rw [hhand, hflush, outgoing_eq hs ha]
    exact .running hw'
  | resting hno =>
    rw [outgoing_eq hs ha]
    refine .resting fun w' hw' => ?_
    by_cases hne : w' = w
    · exact ha (hne ▸ hw')
    · exact hno w' (by rwa [hs.pc_of_ne hne])

lemma way_eq (hi : Q.Inv) (hl : Q.Way a l) (ha : (Q.pc w).Runs a) :
    l = Q.msgs (.hand w) ++ ((Q.msgs (.outgoing a)).reverse ++ Q.msgs (.flush w)) := by
  cases hl with
  | running hw => rw [runs_unique hi ha hw]
  | resting hno => exact absurd ha (hno w)

/-- While an actor does not send, its list is what is on its way. -/
theorem way_outgoing (hi : Q.Inv) (ha : (Q.pc w).Runs a) (hhand : (Q.pc w).inHand = 0)
    (hflush : (Q.pc w).flushing = false) : Q.Way a (Q.msgs (.outgoing a)).reverse := by
  obtain ⟨hhand, hflush⟩ := nothing_to_send hi hhand hflush
  have hway := Way.running ha
  rw [hhand, hflush] at hway
  simpa using hway

/-- What is on its way stays there, except for a new message, and the one in hand. -/
theorem way_of_step (h : Sends Q H) (hi : Q.Inv) (hs : Queues.Step w Q o Q')
    (hsend : (Q.pc w).inHand = 0) (hfresh : Q'.fresh = Q.fresh) (hl : Q'.Way a l) : Q.Way a l := by
  have hi' := hi.step hs
  have hhand := eq_nil_of_length_eq_zero ((hi.hand w).trans hsend)
  by_cases ha' : (Q'.pc w).Runs a
  · obtain rfl := way_eq hi' hl ha'
    cases hs with
    | @resume c m _ hpc hq =>
      rw [setPc_pc_self] at ha'
      obtain rfl := ha'.eq rfl
      -- nobody has run the actor
      have hno (w' : ℕ) : ¬ (Q.pc w').Runs a := by
        rintro ⟨m', hm'⟩
        obtain rfl := hi.holder (Pc.mem_holds_of_runs hm')
          (by rw [hpc]; exact mem_singleton_self a)
        rw [hpc] at hm'
        cases hm'
      have hnil := (nothing_to_send (w := w) hi hsend (by rw [hpc]; rfl)).2
      simpa [hhand, hnil] using Way.resting hno
    | @reverse c m x k l hpc hq =>
      have hr : (Q.pc w).runs = some (c, m) := by rw [hpc]; rfl
      obtain rfl := Pc.Runs.eq ha' hr
      have hway := Way.running ⟨m, hr⟩
      rw [hq] at hway
      simpa using hway
    | @flushSend c m x k l hpc hq | @flushDelay c m x k l hpc hq =>
      rw [setPc_pc_self] at ha'
      obtain rfl := ha'.eq rfl
      have hsent := h.sent w a (by rw [hpc]; rfl)
      have hway := Way.running (Q := Q) (w := w) (a := a) ⟨m, by rw [hpc]; rfl⟩
      rw [hhand, hq, hsent] at hway
      simpa [hsent] using hway
    | send hpc | sendFirst hpc | delay hpc =>
      rw [hpc] at hsend
      cases hsend
    | post | async | after => simp at hfresh
    | expire =>
      rw [setPc_pc_self] at ha'
      obtain ⟨_, hm⟩ := ha'
      cases hm
    | _ =>
      -- the worker runs the actor as before, and the lists are the same
      have hruns : (Q.pc w).Runs a := by
        unfold Pc.Runs at ha' ⊢
        dsimp at ha'
        grind [Pc.runs, Loop.runs]
      simpa using Way.running hruns
  · by_cases ha : (Q.pc w).Runs a
    · -- the worker is done with the actor, and has sent its messages before
      have hflush : (Q.pc w).flushing = false ∧ Q'.msgs (.outgoing a) = Q.msgs (.outgoing a) := by
        cases hs with
        | yield _ _ _ hpc | dequeue hpc | wait hpc | deliver hpc =>
          rw [hpc]
          simp [Pc.flushing, Pc.loop?]
        | _ =>
          unfold Pc.Runs at ha ha'
          dsimp at ha'
          grind [Pc.runs, Loop.runs, Pc.inHand]
      cases hl with
      | @running w' hw' =>
        have hne : w' ≠ w := fun heq => ha' (heq ▸ hw')
        rw [hs.pc_of_ne hne] at hw'
        exact absurd (runs_unique hi hw' ha) hne
      | resting =>
        rw [hflush.2]
        exact way_outgoing hi ha hsend hflush.1
    · exact way_of_not_runs hs hl ha ha'

/-! ## Order -/

lemma taken_queue_eq (hs : Queues.Step w Q o Q') (hsend : (Q.pc w).inHand = 0) (b : ℕ) :
    takenFrom b (H ++ o) ++ Q'.msgs (.queue b) = takenFrom b H ++ Q.msgs (.queue b) := by
  rw [takenFrom_append, append_assoc]
  congr 1
  cases hs with
  | @dequeue a m x l hpc hq =>
    by_cases hb : a = b
    · subst hb
      simp [takenFrom, hq]
    · simp [takenFrom, hb, Ne.symm hb]
  | send hpc | sendFirst hpc | delay hpc =>
    rw [hpc] at hsend
    cases hsend
  | _ => simp [takenFrom]

lemma filter_snoc {L S : List ℕ} {x : ℕ} (hx : x ∉ L) (hS : S = L.filter (· ∈ S)) :
    S ++ [x] = (L ++ [x]).filter (· ∈ S ++ [x]) := by
  rw [filter_append]
  congr 1
  · rw [hS]
    refine filter_congr fun y hy => ?_
    have hyx : y ≠ x := ne_of_mem_of_not_mem hy hx
    simp [← hS, hyx]
  · simp

/-- A message in hand belongs to the actor that the worker runs, if it was sent at all. -/
theorem runs_of_hand (h : Sends Q H) (hi : Q.Inv) {a b x : ℕ} (hx : x ∈ sentTo a b H)
    (hp : x ∈ Q.msgs (.hand w) ∨ x ∈ Q.msgs (.flush w)) : (Q.pc w).Runs a := by
  have hin {p : MsgPlace} (hmem : x ∈ Q.msgs p) : p = .hand w ∨ p = .flush w :=
    hp.imp (hi.msgs.disjoint _ _ x hmem) (hi.msgs.disjoint _ _ x hmem)
  rcases h.located hx with ht | hq | ho | ⟨w', hw', hx'⟩
  · rcases hp with hp | hp
    · exact absurd hp ((h.taken b x ht).1 _)
    · exact absurd hp ((h.taken b x ht).1 _)
  · rcases hin hq with h | h <;> cases h
  · rcases hin ho with h | h <;> cases h
  · obtain rfl : w' = w := by
      rcases hx' with hx' | hx' <;> rcases hin hx' with h | h <;> cases h <;> rfl
    exact hw'

/-- The message in hand leaves what is on its way. -/
theorem way_of_send (hi : Q.Inv) (hs : Queues.Step w Q o Q') {a x : ℕ} {lp : Loop}
    (hpc : Q.pc w = .send lp ∨ Q.pc w = .delay lp) (hx : Q.msgs (.hand w) = [x]) (hl : Q'.Way a l) :
    ((Q.pc w).Runs a ∧ Q.Way a (x :: l)) ∨ (¬ (Q.pc w).Runs a ∧ Q.Way a l) := by
  have hi' := hi.step hs
  have hruns : (Q'.pc w).Runs a ↔ (Q.pc w).Runs a := by
    unfold Pc.Runs
    cases hs <;> dsimp <;> grind [Pc.runs]
  by_cases ha : (Q.pc w).Runs a
  · have hsame : Q'.msgs (.hand w) = [] ∧ Q'.msgs (.outgoing a) = Q.msgs (.outgoing a) ∧
        Q'.msgs (.flush w) = Q.msgs (.flush w) := by
      cases hs <;> dsimp <;> grind [update_apply]
    refine .inl ⟨ha, ?_⟩
    rw [way_eq hi' hl (hruns.mpr ha), hsame.1, hsame.2.1, hsame.2.2]
    simpa [hx] using Way.running ha
  · exact .inr ⟨ha, way_of_not_runs hs hl ha fun hr => ha (hruns.mp hr)⟩

/-- The message in hand goes to the end of the queue of the actor that it is for. -/
theorem order_of_send (h : Sends Q H) (hi : Q.Inv) {a b x : ℕ} {l q : List ℕ}
    (hx : Q.msgs (.hand w) = [x])
    (hl : ((Q.pc w).Runs a ∧ Q.Way a (x :: l)) ∨ (¬ (Q.pc w).Runs a ∧ Q.Way a l))
    (hq : q = if b = Q.dest x then Q.msgs (.queue b) ++ [x] else Q.msgs (.queue b)) :
    sentTo a b H = (takenFrom b H ++ q ++ l).filter (· ∈ sentTo a b H) := by
  rcases hl with ⟨-, hl⟩ | ⟨ha, hl⟩
  · refine (h.order a b _ hl).trans ?_
    by_cases hb : b = Q.dest x
    · simp [hq, hb]
    · -- the message is for another actor
      have hnot : x ∉ sentTo a b H := fun hmem => hb (h.known a b x hmem).2.symm
      simp [hq, hb, hnot]
  · refine (h.order a b _ hl).trans ?_
    by_cases hb : b = Q.dest x
    · -- the message is from another actor
      have hnot : x ∉ sentTo a b H := fun hmem =>
        ha (runs_of_hand h hi hmem (.inl (hx ▸ mem_cons_self)))
      rw [if_pos hb] at hq
      simp [hq, hnot]
    · simp [hq, hb]

/-- A new message is the last one on its way. -/
theorem way_of_new (hi : Q.Inv) (hs : Queues.Step w Q o Q') {a c m : ℕ} (hpc : Q.pc w = .run c m)
    (hpc' : Q'.pc w = Q.pc w) (hout : Q'.msgs (.outgoing c) = Q.fresh :: Q.msgs (.outgoing c))
    (hsame : Q'.msgs (.hand w) = Q.msgs (.hand w) ∧ Q'.msgs (.flush w) = Q.msgs (.flush w))
    (hl : Q'.Way a l) :
    (a = c ∧ ∃ l', l = l' ++ [Q.fresh] ∧ Q.fresh ∉ l' ∧ Q.Way a l') ∨ (a ≠ c ∧ Q.Way a l) := by
  have hi' := hi.step hs
  by_cases hac : a = c
  · subst hac
    have ha : (Q.pc w).Runs a := ⟨m, by rw [hpc]; rfl⟩
    have hnil := nothing_to_send (w := w) hi (by rw [hpc]; rfl) (by rw [hpc]; rfl)
    refine .inl ⟨rfl, (Q.msgs (.outgoing a)).reverse, ?_, ?_,
      way_outgoing hi ha (by rw [hpc]; rfl) (by rw [hpc]; rfl)⟩
    · rw [way_eq hi' hl (by rwa [hpc']), hout, hsame.1, hsame.2, hnil.1, hnil.2]
      simp
    · rw [mem_reverse]
      exact hi.free_fresh _
  · have hne : ¬ (Q.pc w).Runs a := fun hr => hac (hr.eq (by rw [hpc]; rfl))
    exact .inr ⟨hac, way_of_not_runs hs hl hne (by rwa [hpc'])⟩

lemma order_of_new (h : Sends Q H) (hi : Q.Inv) {a b : ℕ} {l S : List ℕ} (hl : Q.Way a l)
    (hfree : Q.fresh ∉ l) (hS : S = sentTo a b H ∨ S = sentTo a b H ++ [Q.fresh]) :
    S = (takenFrom b H ++ Q.msgs (.queue b) ++ (l ++ [Q.fresh])).filter (· ∈ S) := by
  have hnot : Q.fresh ∉ takenFrom b H ++ Q.msgs (.queue b) ++ l := by
    simp only [mem_append, not_or]
    exact ⟨⟨fun hmem => Nat.lt_irrefl _ (h.taken b _ hmem).2, hi.free_fresh _⟩, hfree⟩
  rw [← append_assoc]
  rcases hS with rfl | rfl
  · have hfresh : Q.fresh ∉ sentTo a b H := fun hmem => Nat.lt_irrefl _ (h.known a b _ hmem).1
    rw [filter_append, ← h.order a b l hl]
    simp [hfresh]
  · exact filter_snoc hnot (h.order a b l hl)

lemma step_order (h : Sends Q H) (hi : Q.Inv) (hs : Queues.Step w Q o Q') (a b : ℕ) (l : List ℕ)
    (hl : Q'.Way a l) : sentTo a b (H ++ o) =
      (takenFrom b (H ++ o) ++ Q'.msgs (.queue b) ++ l).filter (· ∈ sentTo a b (H ++ o)) := by
  have hi' := hi.step hs
  have hs' := hs
  cases hs with
  | @async c m b' k hpc =>
    rw [taken_queue_eq hs' (by rw [hpc]; rfl), sentTo_append]
    rcases way_of_new hi hs' hpc (by simp) (by simp) (by simp) hl with
      ⟨rfl, l', rfl, hfree, hway⟩ | ⟨hac, hway⟩
    · refine order_of_new h hi hway hfree ?_
      by_cases hb : b' = b
      · exact .inr (by simp [sentTo, hb])
      · exact .inl (by simp [sentTo, hb])
    · rw [show sentTo a b [.sent c b' Q.fresh] = [] by simp [sentTo, Ne.symm hac], append_nil]
      exact h.order a b l hway
  | @after c m delay k hpc =>
    rw [taken_queue_eq hs' (by rw [hpc]; rfl), append_nil]
    rcases way_of_new hi hs' hpc (by simp) (by simp) (by simp) hl with
      ⟨rfl, l', rfl, hfree, hway⟩ | ⟨-, hway⟩
    · exact order_of_new h hi hway hfree (.inl rfl)
    · exact h.order a b l hway
  | @send x lp hpc hx hq =>
    have hway := way_of_send hi hs' (.inl hpc) hx hl
    rw [append_nil]
    refine order_of_send h hi hx hway ?_
    by_cases hb : b = Q.dest x <;> simp [hb]
  | @sendFirst x lp hpc hx hq =>
    have hway := way_of_send hi hs' (.inl hpc) hx hl
    rw [append_nil]
    refine order_of_send h hi hx hway ?_
    by_cases hb : b = Q.dest x <;> simp [hb, hq]
  | @delay x lp l1 l2 hpc hx hq =>
    have hnot := h.delayed w lp hpc x (hx ▸ mem_cons_self) a b
    rw [append_nil]
    rcases way_of_send hi hs' (.inr hpc) hx hl with ⟨-, hway⟩ | ⟨-, hway⟩
    · refine (h.order a b _ hway).trans ?_
      simp [hnot]
    · refine (h.order a b _ hway).trans ?_
      simp
  | post b' k now hpc =>
    have hway := way_of_not_runs hs' hl (a := a) (by rw [hpc]; rintro ⟨m, hm⟩; cases hm)
      (by rw [setPc_pc_self]; rintro ⟨m, hm⟩; cases hm)
    rw [taken_queue_eq hs' (by rw [hpc]; rfl), append_nil]
    exact h.order a b l hway
  | _ =>
    rw [taken_queue_eq hs' (by grind [Pc.inHand]), sentTo_append]
    simp only [sentTo, filterMap_cons, filterMap_nil, append_nil]
    exact h.order a b l (way_of_step h hi hs' (by grind [Pc.inHand]) rfl hl)

/-! ## The other parts -/

lemma step_known (h : Sends Q H) (hs : Queues.Step w Q o Q') (a b : ℕ) :
    ∀ x ∈ sentTo a b (H ++ o), x < Q'.fresh ∧ Q'.dest x = b := by
  intro x hx
  rw [mem_sentTo, mem_append] at hx
  have hold : .sent a b x ∈ H → x < Q.fresh ∧ Q.dest x = b := fun hx =>
    h.known a b x (mem_sentTo.mpr hx)
  cases hs <;> dsimp <;> grind [update_apply]

lemma mem_msgs_of_step (hs : Queues.Step w Q o Q') {p : MsgPlace} {x : ℕ} (hx : x ∈ Q'.msgs p) :
    x = Q.fresh ∨ ∃ q, x ∈ Q.msgs q := by
  cases hs <;> dsimp at hx <;> grind [update_apply]

lemma step_taken (h : Sends Q H) (hi : Q.Inv) (hs : Queues.Step w Q o Q') (b : ℕ) :
    ∀ x ∈ takenFrom b (H ++ o), Free Q'.msgs x ∧ x < Q'.fresh := by
  intro x hx
  have hle : Q.fresh ≤ Q'.fresh := by cases hs <;> simp
  rw [takenFrom_append, mem_append] at hx
  rcases hx with hx | hx
  · obtain ⟨hfree, hlt⟩ := h.taken b x hx
    refine ⟨fun p hp => ?_, Nat.lt_of_lt_of_le hlt hle⟩
    rcases mem_msgs_of_step hs hp with rfl | ⟨q, hq⟩
    · exact Nat.lt_irrefl _ hlt
    · exact hfree q hq
  · rw [mem_takenFrom] at hx
    cases hs with
    | @dequeue a m y l hpc hq =>
      obtain ⟨rfl, rfl⟩ : b = a ∧ x = y := by simpa using hx
      exact ⟨hi.msgs.free_of_remove hq, hi.known _ x (hq ▸ mem_cons_self)⟩
    | _ => simp at hx

lemma step_nodup (h : Sends Q H) (hs : Queues.Step w Q o Q') (b : ℕ) :
    (takenFrom b (H ++ o)).Nodup := by
  have hold := h.nodup b
  rw [takenFrom_append]
  cases hs with
  | @dequeue a m y l hpc hq =>
    by_cases hab : a = b
    · subst hab
      have hy : y ∉ takenFrom a H := fun hmem => (h.taken a y hmem).1 _ (hq ▸ mem_cons_self)
      rw [show takenFrom a [.taken a y] = [y] by simp [takenFrom]]
      exact hold.append (nodup_singleton y) (disjoint_singleton.mpr hy)
    · simpa [takenFrom, hab] using hold
  | _ => simpa [takenFrom] using hold

lemma step_sent (h : Sends Q H) (hi : Q.Inv) (hs : Queues.Step w Q o Q') (w' a : ℕ)
    (hw' : (Q'.pc w').sent = some a) : Q'.msgs (.outgoing a) = [] := by
  by_cases hne : w' = w
  · subst hne
    have hold := h.sent w' a
    cases hs <;> dsimp at hw' ⊢ <;> grind [Pc.sent, Loop.runs, update_apply]
  · rw [hs.pc_of_ne hne] at hw'
    rw [outgoing_eq hs fun hr => hne (runs_unique hi (Pc.runs_of_sent hw') hr)]
    exact h.sent w' a hw'

lemma baseline_eq (hs : Queues.Step w Q o Q') {x : ℕ} (hx : x < Q.fresh) :
    Q'.baseline x = Q.baseline x := by
  cases hs <;> simp [Nat.ne_of_lt hx]

/-- A message that is yet to be sent was to be sent before, or is new. -/
theorem unsent_of_step (hi : Q.Inv) (hs : Queues.Step w Q o Q') {a x : ℕ} (hx : x < Q.fresh)
    (hp : x ∈ Q'.msgs (.outgoing a) ∨ ∃ w', (Q'.pc w').Runs a ∧ x ∈ Q'.msgs (.flush w')) :
    x ∈ Q.msgs (.outgoing a) ∨ ∃ w', (Q.pc w').Runs a ∧ x ∈ Q.msgs (.flush w') := by
  rcases hp with hp | ⟨w', hw', hp⟩
  · left
    cases hs <;> dsimp at hp <;> grind [update_apply]
  · by_cases hne : w' = w
    · subst hne
      have hflush := hi.flush w'
      unfold Pc.Runs at hw' ⊢
      cases hs with
      | @reverse c m y k l hpc hq =>
        have hr : (Q.pc w').runs = some (c, m) := by rw [hpc]; rfl
        obtain rfl := Pc.Runs.eq hw' hr
        rcases mem_cons.mp (by simpa using hp) with rfl | hp
        · exact .inl (hq ▸ mem_cons_self)
        · exact .inr ⟨w', hw', hp⟩
      | resume hpc =>
        have := hflush (ne_nil_of_mem hp)
        rw [hpc] at this
        cases this
      | _ =>
        right
        refine ⟨w', ?_⟩
        dsimp at hw' hp
        grind [Pc.runs, Loop.runs, Pc.flushing, update_apply]
    · rw [(hand_of_ne hs hne).2] at hp
      rw [hs.pc_of_ne hne] at hw'
      exact .inr ⟨w', hw', hp⟩

section
variable (h : Sends Q H) (hi : Q.Inv) (hs : Queues.Step w Q o Q')
include h hi hs

lemma step_baseline (a b : ℕ) : ∀ x ∈ sentTo a b (H ++ o),
      (x ∈ Q'.msgs (.outgoing a) ∨ ∃ w, (Q'.pc w).Runs a ∧ x ∈ Q'.msgs (.flush w)) →
        ∃ m l, Q'.msgs (.queue a) = m :: l ∧ Q'.baseline x = Q'.baseline m := by
  intro x hx hp
  have hs' := hs
  rw [sentTo_append, mem_append] at hx
  rcases hx with hx | hx
  · have hlt := (h.known a b x hx).1
    obtain ⟨m, l, hl, hbase⟩ := h.baseline a b x hx (unsent_of_step hi hs hlt hp)
    have hm := hi.known _ m (hl ▸ mem_cons_self)
    rw [baseline_eq hs hlt, hbase]
    -- the current message stays until all messages are sent
    have htaken : ∀ y, .taken a y ∉ o := by
      intro y hy
      cases hs with
      | @dequeue c m' z _ hpc hq =>
        obtain ⟨rfl, rfl⟩ : a = c ∧ y = z := by simpa using hy
        have ha : (Q.pc w).Runs a := ⟨m', by rw [hpc]; rfl⟩
        rcases hp with hp | ⟨w', hw', hp⟩
        · have hnil := h.sent w a (by rw [hpc]; rfl)
          simp [hnil] at hp
        · by_cases hne : w' = w
          · subst hne
            rw [setPc_pc_self] at hw'
            obtain ⟨_, hm⟩ := hw'
            split at hm <;> cases hm
          · rw [hs'.pc_of_ne hne] at hw'
            exact hne (runs_unique hi hw' ha)
      | _ => simp at hy
    obtain ⟨l', hl'⟩ := hs.queue_prefix (.inr htaken)
    exact ⟨m, l ++ l', by rw [← hl', hl]; rfl, (baseline_eq hs hm).symm⟩
  · rw [mem_sentTo] at hx
    cases hs with
    | @async c m b' k hpc =>
      obtain ⟨rfl, rfl, rfl⟩ : a = c ∧ b = b' ∧ x = Q.fresh := by simpa using hx
      obtain ⟨l, hl⟩ := hi.current w a m (by rw [hpc]; rfl)
      have hm := hi.known _ m (hl ▸ mem_cons_self)
      exact ⟨m, l, by simpa using hl, by simp [Nat.ne_of_lt hm]⟩
    | _ => simp at hx

lemma step_delayed (w' : ℕ) (lp : Loop) (hpc : Q'.pc w' = .delay lp) :
    ∀ x ∈ Q'.msgs (.hand w'), ∀ a b, x ∉ sentTo a b (H ++ o) := by
  intro x hx a b hmem
  rw [sentTo_append, mem_append] at hmem
  by_cases hne : w' = w
  · subst hne
    cases hs with
    | @flushDelay c m y k l hpcw hq hbase =>
      obtain rfl : x = y := by simpa using hx
      -- a message that was sent has the baseline of the current message
      have hmem : x ∈ sentTo a b H := by simpa [sentTo] using hmem
      have hruns := runs_of_hand h hi hmem (.inr (hq ▸ mem_cons_self))
      have hr : (Q.pc w').runs = some (c, m) := by rw [hpcw]; rfl
      obtain rfl := hruns.eq hr
      obtain ⟨m', l', hl', heq⟩ := h.baseline a b x hmem
        (.inr ⟨w', hruns, hq ▸ mem_cons_self⟩)
      obtain ⟨l'', hl''⟩ := hi.current w' a m hr
      obtain ⟨rfl, -⟩ := List.cons.inj (hl'.symm.trans hl'')
      exact hbase heq
    | _ =>
      dsimp at hpc
      grind
  · rw [(hand_of_ne hs hne).1] at hx
    rw [hs.pc_of_ne hne] at hpc
    rcases hmem with hmem | hmem
    · exact h.delayed w' lp hpc x hx a b hmem
    · rw [mem_sentTo] at hmem
      cases hs with
      | async =>
        obtain ⟨-, -, rfl⟩ : _ ∧ _ ∧ x = Q.fresh := by simpa using hmem
        exact hi.free_fresh _ hx
      | _ => simp at hmem

lemma step : Sends Q' (H ++ o) where
  known := h.step_known hs
  taken := h.step_taken hi hs
  nodup := h.step_nodup hs
  order := h.step_order hi hs
  baseline := h.step_baseline hi hs
  delayed := h.step_delayed hi hs
  sent := h.step_sent hi hs

end

lemma init : Sends {} [] where
  known _ _ _ h := absurd h not_mem_nil
  taken _ _ h := absurd h not_mem_nil
  nodup _ := nodup_nil
  order _ _ _ _ := by simp [sentTo]
  baseline _ _ _ h := absurd h not_mem_nil
  delayed _ _ h := by cases h
  sent _ _ _ := rfl

end Sends

/-! ## Whole runs -/

/-- The messages that `a` sends to `b` are taken from the queue of `b` in the order in which they
were sent, each once. Those that are not taken yet are in the queue, or on their way: in the hand of
the worker `w` that runs `a`, if there is one, in the list of `a` or in the list that the worker is
to send. -/
theorem sent_in_order {events : List (ℕ × Action)} {s : State} (h : run events = some s) (a b : ℕ) :
    let sent := sentTo a b (log events)
    let taken := takenFrom b (log events)
    taken.Nodup ∧ taken.filter (· ∈ sent) <+: sent ∧
      ∃ msgs, Chains (fun _ => True) s.mnext s.mhead msgs ∧ Separate msgs ∧
        ((∃ w, (s.pc w).Runs a ∧ sent = (taken ++ msgs (.queue b) ++ (msgs (.hand w) ++
            ((msgs (.outgoing a)).reverse ++ msgs (.flush w)))).filter (· ∈ sent)) ∨
          (∀ w, ¬ (s.pc w).Runs a) ∧
            sent = (taken ++ msgs (.queue b) ++ (msgs (.outgoing a)).reverse).filter
            (· ∈ sent)) := by
  obtain ⟨Q, hr, hi, hsends⟩ := exists_queues (I := Sends) .init
    (fun Q H w o Q' hi hsends hs => hsends.step hi hs) h
  dsimp only
  have hprefix {l : List ℕ} (hl : sentTo a b (log events) =
      (takenFrom b (log events) ++ Q.msgs (.queue b) ++ l).filter (· ∈ sentTo a b (log events))) :
      (takenFrom b (log events)).filter (· ∈ sentTo a b (log events)) <+:
        sentTo a b (log events) := by
    refine ⟨(Q.msgs (.queue b) ++ l).filter (· ∈ sentTo a b (log events)), ?_⟩
    rw [← filter_append, ← append_assoc]
    exact hl.symm
  obtain ⟨l, hl⟩ := Sends.exists_way Q a
  refine ⟨hsends.nodup b, hprefix (hsends.order a b l hl), Q.msgs, hr.msgs, hi.msgs, ?_⟩
  rw [hr.core]
  cases hl with
  | @running w hw => exact .inl ⟨w, hw, hsends.order a b _ (.running hw)⟩
  | resting hno => exact .inr ⟨hno, hsends.order a b _ (.resting hno)⟩

/-- Actor 5 sends two messages to actor 6, which another worker runs. -/
def sendRun : List (ℕ × Action) :=
  [(1, .post 5 0 0), (1, .go), (1, .go), (1, .dequeue), (1, .go), (1, .go), (1, .async 6 1),
    (1, .async 6 2), (1, .finish (.done 3))] ++ List.replicate 10 (1, .go) ++
  [(2, .dequeue), (2, .go), (2, .go), (2, .finish (.done 4))] ++ List.replicate 6 (2, .go) ++
  [(2, .dequeue), (2, .go), (2, .go), (2, .finish (.done 4))] ++ List.replicate 5 (2, .go)

theorem sent_in_order_sendRun : (∃ s, run sendRun = some s) ∧ sentTo 5 6 (log sendRun) = [1, 2] ∧
    takenFrom 6 (log sendRun) = [1, 2] ∧
      (takenFrom 6 (log sendRun)).filter (· ∈ sentTo 5 6 (log sendRun)) <+:
        sentTo 5 6 (log sendRun) := by
  have hrun : (run sendRun).isSome := by rfl
  obtain ⟨s, hs⟩ := isSome_iff_exists.mp hrun
  exact ⟨⟨s, hs⟩, by rfl, by rfl, (sent_in_order hs 5 6).2.1⟩

end Acton.Rts
