import Acton.Net

/-!
# One connection attempt

For every order of the events of one attempt, `on_connect` is called at most once, and it is called
if a connection is established before the timer expires. After that, the timer neither closes the
connection nor reports an error, if all answers of the name server come before the timer expires and
before `on_connect` is called (`attempt_correct`). A later answer sets the state of the attempt
back, and then the timer closes the connection that is in use (`attempt_diverges`).
-/

namespace Acton.Net
open Conn List Option Function
variable {s s' : Conn} {e : Event} {f : Family}

/-! ## The invariant -/

/-- At most one request for a family is outstanding, and none after it has connected. -/
structure FamilyOk (v : SockVars) (p : Pending) : Prop where
  lookup : p.lookup → ¬ p.retry
  connect : p.connect → v.state = .connecting ∧ ¬ p.lookup ∧ ¬ p.retry
  connected : v.state = .connected → ¬ p.connect ∧ ¬ p.lookup ∧ ¬ p.retry

structure Inv (s : Conn) : Prop where
  family : ∀ f, FamilyOk (s.vars f) (s.pending f)
  once : s.calls.count .onConnect ≤ 1
  winner : .onConnect ∈ s.calls → ∃ f, (s.vars f).state = .connected
  called : s.state = .connected → .onConnect ∈ s.calls
  running : s.timer → s.state ≠ .closed
  won : s.timer → ∀ f, (s.vars f).state = .connected → .onConnect ∈ s.calls
  connecting : s.timer → ∀ f, (s.pending f).connect → s.state = .connecting ∨ s.state = .connected

/-- A change for one family. -/
theorem forall_familyOk {vars : Family → SockVars} {pending : Family → Pending} {v : SockVars}
    {p : Pending} (h : ∀ g, FamilyOk (vars g) (pending g)) (hok : FamilyOk v p) (g : Family) :
    FamilyOk (update vars f v g) (update pending f p g) := by
  by_cases hg : g = f
  · subst hg
    simpa using hok
  · simpa [update_of_ne hg] using h g

section
variable (h : Inv s)
include h

/-- A change for one family that keeps its state and the state of the attempt, and no call of
`on_connect`. -/
theorem Inv.frame (f : Family) (v : SockVars) (p : Pending) (errs : List Call) (hok : FamilyOk v p)
    (hvars : s'.vars = update s.vars f v)
    (hpending : s'.pending = update s.pending f p) (hcalls : s'.calls = s.calls ++ errs)
    (herrs : .onConnect ∉ errs) (hv : v.state = (s.vars f).state)
    (hp : p.connect → (s.pending f).connect) (hstate : s'.state = s.state)
    (htimer : s'.timer = s.timer) : Inv s' := by
  have hconnected (g : Family) : (s'.vars g).state = (s.vars g).state := by
    rw [hvars, update_apply]
    split_ifs with hg
    · rw [hv, hg]
    · rfl
  have hconnect (g : Family) (hg : (s'.pending g).connect) : (s.pending g).connect := by
    rw [hpending, update_apply] at hg
    split_ifs at hg with heq
    · exact heq ▸ hp hg
    · exact hg
  have hmem : .onConnect ∈ s'.calls ↔ .onConnect ∈ s.calls := by
    rw [hcalls, mem_append, or_iff_left herrs]
  exact {
    family := by
      rw [hvars, hpending]
      exact forall_familyOk h.family hok
    once := by
      rw [hcalls, count_append, count_eq_zero.mpr herrs]
      exact h.once
    winner := fun hc => by
      obtain ⟨g, hg⟩ := h.winner (hmem.mp hc)
      exact ⟨g, (hconnected g).trans hg⟩
    called := fun hs => hmem.mpr (h.called (hstate ▸ hs))
    running := fun ht => hstate ▸ h.running (htimer ▸ ht)
    won := fun ht g hg => hmem.mpr (h.won (htimer ▸ ht) g ((hconnected g).symm.trans hg))
    connecting := fun ht g hg => hstate ▸ h.connecting (htimer ▸ ht) g (hconnect g hg) }

/-! ## Messages keep the invariant -/

lemma Inv.onDnsError (hl : (s.pending f).lookup) :
    Inv ((s.setPending f { s.pending f with lookup := false }).onDnsError f) := by
  have hf := h.family f
  unfold Conn.onDnsError
  split_ifs
  · exact h.frame f (s.vars f) { s.pending f with lookup := false, retry := true } []
      (by grind [FamilyOk]) (by simp) (by simp) (by simp) (by simp) rfl id rfl rfl
  · exact h.frame f (s.vars f) { s.pending f with lookup := false } []
      (by grind [FamilyOk]) (by simp) (by simp) (by simp) (by simp) rfl id rfl rfl

lemma Inv.retry (hr : (s.pending f).retry) :
    Inv ((s.setPending f { s.pending f with retry := false }).lookup f) := by
  have hf := h.family f
  exact h.frame f (s.vars f) { s.pending f with retry := false, lookup := true } []
    (by grind [FamilyOk]) (by simp) (by simp) (by simp) (by simp) rfl id rfl rfl

lemma Inv.onTcpError (errmsg : String) :
    Inv ((s.setPending f { s.pending f with connect := false }).onTcpError f errmsg) := by
  have hf := h.family f
  have hok : FamilyOk { s.vars f with error := errmsg } { s.pending f with connect := false } := by
    grind [FamilyOk]
  unfold Conn.onTcpError
  dsimp only
  split_ifs
  · exact h.frame f _ _ [.onError errmsg] hok (by simp) (by simp) (by simp) (by simp) rfl
      (fun h => nomatch h) rfl rfl
  · exact h.frame f _ _ [.onError _] hok (by simp) (by simp) (by simp; rfl) (by simp) rfl
      (fun h => nomatch h) rfl rfl
  · exact h.frame f _ _ [] hok (by simp) (by simp) (by simp) (by simp) rfl
      (fun h => nomatch h) rfl rfl

lemma Inv.onDnsResolve (hl : (s.pending f).lookup) (result : List String) :
    Inv ((s.setPending f { s.pending f with lookup := false }).onDnsResolve f result) := by
  obtain ⟨hfamily, honce, hwinner, hcalled, hrunning, hwon, hconnecting⟩ := h
  have hf := hfamily f
  -- the family has neither connected nor begun to
  have hnot : (s.vars f).state ≠ .connected := fun h => (hf.connected h).2.1 hl
  unfold Conn.onDnsResolve
  cases result with
  | nil | cons ip ips => constructor <;> simp [update_apply] <;> grind [FamilyOk]

lemma Inv.not_called (hc : (s.pending f).connect) (hother : (s.vars f.other).state ≠ .connected) :
    .onConnect ∉ s.calls := by
  intro hcall
  obtain ⟨g, hg⟩ := h.winner hcall
  have hf := ((h.family f).connect hc).1
  cases f <;> cases g <;> simp_all [Family.other]

lemma Inv.onConnectFamily (hc : (s.pending f).connect) (readError : Option String) :
    Inv ((s.setPending f { s.pending f with connect := false }).onConnectFamily f readError) := by
  have hf := h.family f
  have hne : f.other ≠ f := by cases f <;> decide
  have hnot := h.not_called hc
  obtain ⟨hfamily, honce, hwinner, hcalled, hrunning, hwon, hconnecting⟩ := h
  unfold Conn.onConnectFamily Conn.onConnect
  simp only [setPending, setVars, update_of_ne hne, update_self]
  split_ifs with hother hstate
  · -- the other family has won
    constructor <;> simp [update_apply] <;> grind [FamilyOk]
  · have hcount : s.calls.count .onConnect = 0 := count_eq_zero.mpr (hnot hother)
    cases readError <;> constructor <;> simp [update_apply] <;> grind [FamilyOk]
  · -- the timer has expired
    constructor <;> simp [update_apply] <;> grind [FamilyOk]

lemma Inv.connectTimeout : Inv { s with timer := false }.connectTimeout := by
  unfold Conn.connectTimeout
  split_ifs with hstate
  · exact ⟨h.family, h.once, h.winner, nofun, nofun, nofun, nofun⟩
  · exact ⟨h.family, h.once, h.winner, h.called, nofun, nofun, nofun⟩

lemma Inv.handleClose (n : ℕ) (ok : Bool) : Inv ({ s with close := n }.handleClose ok) := by
  obtain ⟨hfamily, honce, hwinner, hcalled, hrunning, hwon, hconnecting⟩ := h
  unfold Conn.handleClose
  -- sockets and errors do not matter
  cases hsock : s.sock with
  | none => exact ⟨hfamily, honce, hwinner, hcalled, hrunning, hwon, hconnecting⟩
  | some sock =>
    dsimp only
    cases ok <;> constructor <;> simp <;> grind [FamilyOk]

lemma Inv.handleOnClose (n : ℕ) : Inv { s with onClose := n }.handleOnClose := by
  have hf := h.family .v4
  exact h.frame .v4 (s.vars .v4) (s.pending .v4) [.onError timeoutMessage] hf
    (update_eq_self _ _).symm (update_eq_self _ _).symm rfl (by simp) rfl id rfl rfl

lemma Inv.step (he : step s e = some s') : Inv s' := by
  cases e <;> obtain ⟨hen, ⟨⟩⟩ := ite_none_right_eq_some.mp he
  case dnsResolve f result => exact h.onDnsResolve hen result
  case dnsError f => exact h.onDnsError hen
  case retry f => exact h.retry hen
  case tcpConnect f readError => exact h.onConnectFamily hen readError
  case tcpError f msg => exact h.onTcpError _
  case timeout => exact h.connectTimeout
  case close ok => exact h.handleClose _ ok
  case afterShutdown =>
    exact ⟨h.family, h.once, h.winner, h.called, h.running, h.won, h.connecting⟩
  case onClose => exact h.handleOnClose _

end

lemma Inv.start (address : Address) : Inv (start address) := by
  cases address <;> constructor <;> simp [Net.start, connect] <;> grind [FamilyOk]

variable {events : List Event} {address : Address}

lemma Inv.run (h : run address events = some s) : Inv s :=
  Trace.run_invariant (fun _ _ _ hs he => hs.step he) h (Inv.start address)

/-! ## The timer -/

lemma timer_step (he : step s e = some s') (hne : e ≠ .timeout) : s'.timer = s.timer := by
  cases e <;> obtain ⟨-, ⟨⟩⟩ := ite_none_right_eq_some.mp he
  case timeout => exact absurd rfl hne
  case dnsResolve f result => cases result <;> rfl
  case dnsError f =>
    unfold onDnsError
    split_ifs <;> rfl
  case tcpConnect f readError =>
    unfold onConnectFamily onConnect
    dsimp only
    split_ifs
    · rfl
    · cases readError <;> rfl
    · rfl
  case tcpError f msg =>
    unfold onTcpError
    dsimp only
    split_ifs <;> rfl
  case close ok =>
    unfold handleClose
    dsimp only
    cases s.sock with
    | none => rfl
    | some sock => cases ok <;> rfl
  case retry f | afterShutdown | onClose => rfl

lemma timer_run (h : run address events = some s) (hnot : .timeout ∉ events) : s.timer := by
  refine Trace.run_invariant_of (I := fun s => s.timer = true) (G := fun _ e => e ≠ .timeout)
    (fun pre e post _ hes _ he => hnot ?_) (fun s e s' ht hne he => ?_) h ?_
  · rw [hes, he]
    simp
  · rw [timer_step he hne, ht]
  · cases address <;> rfl

/-- What the timer does: it closes the connection, and reports an error. -/
def Call.ByTimer : Call → Prop
  | .shutdown _ => True
  | .onError msg => msg = timeoutMessage
  | .onConnect => False

lemma head?_append {a : String} {c : Char} (h : a.toList.head? = some c) (b : String) :
    (a ++ b).toList.head? = some c := by
  rw [String.toList_append, List.head?_append, h, some_or]

lemma head?_connectMessage (f : Family) (msg : String) :
    (connectMessage f msg).toList.head? = some 'E' :=
  have h : "Error in TCP connect over ".toList.head? = some 'E' := by decide +kernel
  head?_append (head?_append (head?_append h f.name) ": ") msg

lemma not_byTimer {msg : String} (h : msg.toList.head? = some 'E') :
    ¬ (Call.onError msg).ByTimer := by
  rintro rfl
  exact absurd h (by decide +kernel)

/-- An answer of the name server comes before the timer expires, and before `on_connect` is
called. -/
def InTime (s : Conn) : Event → Prop
  | .dnsResolve _ _ => s.timer ∧ .onConnect ∉ s.calls
  | _ => True

/-- As long as the attempt was not closed, the timer has nothing to do, and it was closed only if it
did not connect. -/
structure TimerOk (s : Conn) : Prop where
  nothing : s.state ≠ .closed → s.close = 0 ∧ s.shutdown = 0 ∧ s.onClose = 0
  connected : .onConnect ∈ s.calls → s.state = .connected

/-- The timer has something to do only after it closed the attempt. -/
theorem TimerOk.closed (h : TimerOk s) (hpos : 0 < s.close ∨ 0 < s.shutdown ∨ 0 < s.onClose) :
    s.state = .closed := by
  by_contra hne
  have := h.nothing hne
  omega

lemma TimerOk.step (h : TimerOk s) (hinv : Inv s) (htime : InTime s e)
    (he : step s e = some s') : TimerOk s' := by
  obtain ⟨hnothing, hconnected⟩ := id h
  cases e <;> obtain ⟨hen, ⟨⟩⟩ := ite_none_right_eq_some.mp he
  case dnsResolve f result =>
    obtain ⟨htimer, hnot⟩ := htime
    have hzero := hnothing (hinv.running htimer)
    cases result with
    | nil | cons ip ips => exact ⟨fun _ => hzero, fun hc => absurd hc hnot⟩
  case dnsError f =>
    unfold onDnsError
    split_ifs <;> exact ⟨hnothing, hconnected⟩
  case retry f => exact ⟨hnothing, hconnected⟩
  case tcpConnect f readError =>
    unfold onConnectFamily onConnect
    dsimp only
    split_ifs with _ hstate
    · exact ⟨hnothing, hconnected⟩
    · have hstate : s.state = .connecting := hstate
      have hzero := hnothing (by rw [hstate]; decide)
      cases readError <;> exact ⟨fun _ => hzero, fun _ => rfl⟩
    · exact ⟨hnothing, hconnected⟩
  case tcpError f msg =>
    have hconnected' {err : String} (hc : .onConnect ∈ s.calls ++ [.onError err]) :
        s.state = .connected := hconnected (by simpa using hc)
    unfold onTcpError
    dsimp only
    split_ifs
    · exact ⟨hnothing, hconnected'⟩
    · exact ⟨hnothing, hconnected'⟩
    · exact ⟨hnothing, hconnected⟩
  case timeout =>
    unfold connectTimeout
    split_ifs with hstate
    · -- the attempt has not connected
      have hstate : s.state = .connecting := hstate
      refine ⟨fun hne => absurd rfl hne, fun hc => ?_⟩
      cases hstate.symm.trans (hconnected hc)
    · exact ⟨hnothing, hconnected⟩
  case close ok =>
    have hclosed := h.closed (.inl hen)
    have hnot : .onConnect ∉ s.calls := fun hc => by cases hclosed.symm.trans (hconnected hc)
    unfold handleClose
    dsimp only
    cases s.sock with
    | none => exact ⟨fun hne => absurd hclosed hne, fun hc => absurd hc hnot⟩
    | some sock =>
      have hnot' : .onConnect ∉ s.calls ++ [.shutdown sock] := by simpa using hnot
      cases ok <;> exact ⟨fun hne => absurd hclosed hne, fun hc => absurd hc hnot'⟩
  case afterShutdown => exact ⟨fun hne => absurd (h.closed (.inr (.inl hen))) hne, hconnected⟩
  case onClose =>
    have hclosed := h.closed (.inr (.inr hen))
    refine ⟨fun hne => absurd hclosed hne, fun hc => hconnected ?_⟩
    simpa [handleOnClose] using hc

/-- After `on_connect`, an event does nothing of the timer. -/
theorem TimerOk.quiet (h : TimerOk s) (htime : InTime s e) (hcalled : .onConnect ∈ s.calls)
    (he : Net.step s e = some s') : ∃ new, s'.calls = s.calls ++ new ∧ ∀ c ∈ new, ¬ c.ByTimer := by
  have hstate := h.connected hcalled
  have hzero := h.nothing (by rw [hstate]; decide)
  have hquiet (hs : s'.calls = s.calls) :
      ∃ new, s'.calls = s.calls ++ new ∧ ∀ c ∈ new, ¬ c.ByTimer :=
    ⟨[], by rw [hs, append_nil], forall_mem_nil _⟩
  cases e <;> obtain ⟨hen, ⟨⟩⟩ := ite_none_right_eq_some.mp he
  case dnsResolve f result => exact absurd hcalled htime.2
  case dnsError f =>
    refine hquiet ?_
    unfold onDnsError
    split_ifs <;> rfl
  case retry f => exact hquiet rfl
  case tcpConnect f readError =>
    refine hquiet ?_
    unfold onConnectFamily onConnect
    dsimp only
    split_ifs with _ hconnecting
    · rfl
    · cases hstate.symm.trans hconnecting
    · rfl
  case tcpError f msg =>
    have hmsg := head?_connectMessage f msg
    unfold onTcpError at hquiet ⊢
    dsimp only at hquiet ⊢
    split_ifs at hquiet ⊢
    · exact ⟨_, rfl, forall_mem_singleton.mpr (not_byTimer hmsg)⟩
    · exact ⟨_, rfl, forall_mem_singleton.mpr
        (not_byTimer (head?_append (head?_append (head?_append (head?_append hmsg _) _) _) _))⟩
    · exact hquiet rfl
  case timeout =>
    refine hquiet ?_
    unfold connectTimeout
    split_ifs <;> rfl
  case close ok | afterShutdown | onClose => omega

/-! ## The attempt -/

/-- A connection before the timer expires makes the call. -/
theorem Inv.mem_calls {readError : Option String} (h : Inv s) (htimer : s.timer)
    (he : Net.step s (.tcpConnect f readError) = some s') : .onConnect ∈ s'.calls := by
  obtain ⟨hc, ⟨⟩⟩ := ite_none_right_eq_some.mp he
  have hne : f.other ≠ f := by cases f <;> decide
  unfold Conn.onConnectFamily Conn.onConnect
  dsimp only
  split_ifs with hother hstate
  · -- the other family has connected before
    exact h.won htimer f.other (by simpa [update_of_ne hne] using hother)
  · exact mem_append_right _ (mem_singleton_self _)
  · have hconnected := (h.connecting htimer f hc).resolve_left hstate
    exact h.called hconnected

lemma TimerOk.start (address : Address) : TimerOk (start address) := by
  cases address <;> exact ⟨fun _ => ⟨rfl, rfl, rfl⟩, nofun⟩

lemma quiet_run (hinv : Inv s) (h : TimerOk s) (htime : Trace.Guarded step InTime s events)
    (hcalled : .onConnect ∈ s.calls) (hrun : Trace.run step s events = some s') :
    ∃ new, s'.calls = s.calls ++ new ∧ ∀ c ∈ new, ¬ c.ByTimer := by
  induction events generalizing s with
  | nil =>
    obtain ⟨⟩ := hrun
    exact ⟨[], (append_nil _).symm, forall_mem_nil _⟩
  | cons e events ih =>
    obtain ⟨s1, he, hrun⟩ := Trace.run_cons_eq_some.mp hrun
    obtain ⟨new, hnew, hquiet⟩ := h.quiet htime.head hcalled he
    have hcalled1 : .onConnect ∈ s1.calls := hnew ▸ mem_append_left new hcalled
    obtain ⟨more, hmore, hquiet'⟩ := ih (hinv.step he) (h.step hinv htime.head he) (htime.tail he)
      hcalled1 hrun
    refine ⟨new ++ more, by rw [hmore, hnew, append_assoc], fun c hc => ?_⟩
    rcases mem_append.mp hc with hc | hc
    · exact hquiet c hc
    · exact hquiet' c hc

/-- Calls of `on_connect` during an attempt. -/
structure Connects (address : Address) (events : List Event) (s : Conn) : Prop where
  once : s.calls.count .onConnect ≤ 1
  /-- It is called if a connection is established before the timer expires. -/
  called : ∀ pre f readError post s₁, events = pre ++ .tcpConnect f readError :: post →
    .timeout ∉ pre → run address (pre ++ [.tcpConnect f readError]) = some s₁ →
    .onConnect ∈ s₁.calls

/-- After `on_connect` was called, the timer neither closes the connection nor reports an error. -/
def Quiet (address : Address) (events : List Event) (s : Conn) : Prop :=
  ∀ pre post s₁, events = pre ++ post → run address pre = some s₁ → .onConnect ∈ s₁.calls →
    ∃ new, s.calls = s₁.calls ++ new ∧ ∀ c ∈ new, ¬ c.ByTimer

/-- All answers of the name server come before the timer expires and before `on_connect` is
called. -/
def Early (address : Address) (events : List Event) : Prop :=
  ∀ pre f result post, events = pre ++ .dnsResolve f result :: post →
    .timeout ∉ pre ∧ ∀ s, run address pre = some s → .onConnect ∉ s.calls

lemma Early.guarded (h : Early address events) :
    Trace.Guarded step InTime (start address) events := by
  intro pre e post s1 hevents hrun
  cases e with
  | dnsResolve f result =>
    obtain ⟨htimeout, hnot⟩ := h pre f result post hevents
    exact ⟨timer_run hrun htimeout, hnot s1 hrun⟩
  | _ => trivial

/-- The guard holds for what comes after a part of the run. -/
theorem quiet_of_guarded (h : Trace.Guarded step InTime (start address) events)
    (hrun : run address events = some s) : Quiet address events s := by
  rintro pre post s1 rfl hpre hcalled
  obtain ⟨s2, hpre', hpost⟩ := Trace.run_append_eq_some.mp hrun
  obtain rfl := mem_unique hpre hpre'
  have hguard : Trace.Guarded step InTime (start address) pre := fun as e bs s2 has hs2 =>
    h as e (bs ++ post) s2 (by rw [has]; simp) hs2
  have hguard' : Trace.Guarded step InTime s1 post := fun as e bs s2 has hs2 =>
    h (pre ++ as) e bs s2 (by rw [has]; simp) (Trace.run_append_eq_some.mpr ⟨s1, hpre, hs2⟩)
  have hok := Trace.run_invariant_of (I := fun s => Inv s ∧ TimerOk s) hguard
    (fun s e s' hs ht he => ⟨hs.1.step he, hs.2.step hs.1 ht he⟩) hpre
    ⟨Inv.start address, TimerOk.start address⟩
  exact quiet_run hok.1 hok.2 hguard' hcalled hpost

/-- In every order of the events, `on_connect` is called once, if a connection is established in
time. If the answers of the name server are early, the timer does nothing after that. -/
theorem attempt_correct (address : Address) (events : List Event) (s : Conn)
    (hrun : run address events = some s) :
    Connects address events s ∧ (Early address events → Quiet address events s) := by
  refine ⟨⟨(Inv.run hrun).once, ?_⟩, fun h => quiet_of_guarded h.guarded hrun⟩
  intro pre f readError post s1 _ htimeout hpre
  obtain ⟨s2, hpre, hstep⟩ := Trace.run_concat_eq_some.mp hpre
  exact (Inv.run hpre).mem_calls (timer_run hpre htimeout) hstep

/-- Both names are resolved before IPv6 connects. -/
def race : List Event :=
  [.dnsResolve .v6 ["::1"], .dnsResolve .v4 ["127.0.0.1"], .tcpConnect .v6 none,
    .tcpConnect .v4 none,
    .timeout]

lemma early_race : Early .hostname race := by
  intro pre f result post h
  match pre, h with
  | [], _ => exact ⟨not_mem_nil, fun s hs => by obtain rfl := some.inj hs; decide⟩
  | [_], h =>
    obtain ⟨rfl, -⟩ := cons.inj h
    exact ⟨by decide, fun s hs => by obtain rfl := some.inj hs; decide⟩
  | _ :: _ :: pre, h =>
    -- no other event is an answer
    have hmem : .dnsResolve f result ∈ race.drop 2 := by
      rw [h]
      simp
    simp [race] at hmem

theorem attempt_correct_example : ∃ s, run .hostname race = some s ∧ Connects .hostname race s ∧
    Quiet .hostname race s :=
  ⟨_, rfl, (attempt_correct _ _ _ rfl).1, (attempt_correct _ _ _ rfl).2 early_race⟩

/-- IPv6 connects. The answer for IPv4 comes later, and then the timer shuts the connection down. -/
theorem attempt_diverges : ∃ s, run .hostname [.dnsResolve .v6 ["::1"], .tcpConnect .v6 none,
    .dnsResolve .v4 ["127.0.0.1"], .timeout, .close true, .afterShutdown, .onClose] = some s ∧
    s.calls = [.onConnect, .shutdown 0, .onError "Connection attempt failed due to timeout"] ∧
    ¬ Quiet .hostname [.dnsResolve .v6 ["::1"], .tcpConnect .v6 none,
      .dnsResolve .v4 ["127.0.0.1"], .timeout, .close true, .afterShutdown, .onClose] s := by
  refine ⟨_, rfl, rfl, fun h => ?_⟩
  obtain ⟨new, hnew, hquiet⟩ := h [.dnsResolve .v6 ["::1"], .tcpConnect .v6 none] _ _ rfl rfl
    mem_cons_self
  obtain rfl : new = [.shutdown 0, .onError timeoutMessage] := (cons.inj hnew).2.symm
  exact hquiet (.shutdown 0) mem_cons_self trivial

end Acton.Net
