import PingServer.Net.Pointers
import PingServer.Net.Deletion

/-!
# The handlers of a batch

`event_loop_run` calls the handlers of all events it was given, also when a
handler before has deleted their connection. A batch is safe when no call that
deletes its connection is followed by a call on one of its two contexts.
-/

namespace PingServer

open Machine

/-! ## Safe calls -/

/-- The context was not deleted in this batch, and the pointers a handler follows
from it are set. -/
structure CallSafe (parse : Parser) (s : TcpServer) (c : HandlerCall) : Prop where
  alive : c.context ∉ s.dead
  timeEvent : ∀ i, c.context = .tcp i → (s.eventTcpArray i).timeEvent ≠ none
  tcpEvent : ∀ j, c.context = .timer j → (s.eventTimerArray j).tcpEvent ≠ none
  protocolHandler : ∀ i j, Names s c i j → (s.connArray i).protocolHandler = true
  followed : ∀ f, dispatch parse s c = .error f → f ≠ .nullEvent ∧ f ≠ .nullHandler

/-- Every call of the batch is safe where it is made. -/
def BatchSafe (parse : Parser) : TcpServer → List HandlerCall → Prop
  | _, [] => True
  | s, c :: cs => CallSafe parse s c ∧ ∀ t, dispatch parse s c = .ok t → BatchSafe parse t cs

/-- The other context of the same connection. -/
def partner (s : TcpServer) : EventContext → Option EventContext
  | .listen => none
  | .tcp i => (s.eventTcpArray i).timeEvent.map .timer
  | .timer j => (s.eventTimerArray j).tcpEvent.map .tcp

/-- The context is one of the connection that the call is about. -/
def concerns (s : TcpServer) (c : HandlerCall) (x : EventContext) : Prop :=
  x = c.context ∨ partner s c.context = some x

/-- No call that deletes its connection is followed by a call on that connection. -/
def NoStaleCalls (parse : Parser) : TcpServer → List HandlerCall → Prop
  | _, [] => True
  | s, c :: cs =>
    (Ends parse s c → ∀ d ∈ cs, ¬ concerns s c d.context) ∧
      ∀ t, dispatch parse s c = .ok t → NoStaleCalls parse t cs

/-- The batch of `events`, as `event_loop_run` starts it. -/
def batchStart (s : TcpServer) : TcpServer := { s with dead := [] }

/-- The size that `fstat` stores is an `off_t`, in every call of the batch. -/
def SizedBatch (_ : TcpServer) (events : List EpollEvent) : Prop :=
  ∀ c ∈ events.flatMap EpollEvent.calls, c.env.fileSize < 2 ^ 63

/-! ## What a call deletes -/

theorem Names.concerns {s : TcpServer} {c : HandlerCall} {i j : Nat} (h : Names s c i j) :
    concerns s c (.tcp i) ∧ concerns s c (.timer j) := by
  unfold PingServer.concerns
  rcases h with ⟨hctx, hj⟩ | ⟨hctx, hi⟩ <;> rw [hctx]
  · exact ⟨.inl rfl, .inr (by rw [partner, hj]; rfl)⟩
  · exact ⟨.inr (by rw [partner, hi]; rfl), .inl rfl⟩

theorem OpenTurn.dead {now : Nat} {s t : TcpServer} (h : OpenTurn now s t) : t.dead = s.dead := by
  obtain ⟨i, j, fd, timeFd, s₁, s₂, htaken, hcreated, rfl⟩ := h
  have h₁ : s₁.dead = s.dead := by rw [htaken.rest]
  have h₂ : s₂.dead = s₁.dead := by rw [hcreated.rest]
  exact h₂.trans h₁

theorem LastTurn.dead {now : Nat} {outs : List AcceptOutcome} {s t : TcpServer}
    (h : LastTurn now outs s t) : t.dead = s.dead := by
  cases h with
  | limit newIdx newIdx2 _ hfull hclean => rw [(cleanIdx_ok hclean).2.2]
  | exhausted newIdx newIdx2 s₁ t hnot htcp htimer hrest hnone hclean =>
    rw [(cleanIdx_ok hclean).2.2, hrest]
  | returned i j s₁ t fd htaken hclean =>
    rw [(cleanIdx_ok hclean).2.2, closeAccepted_eq, htaken.rest]
  | noMemory i j fd s₁ a conn ret htaken hcreate hret => rw [htaken.rest]; rfl
  | halfOpen i j fd timer s₁ s₂ htaken hcreated htimer hfailed =>
    have h₁ : s₁.dead = s.dead := by rw [htaken.rest]
    have h₂ : s₂.dead = s₁.dead := by rw [hcreated.rest]
    exact h₂.trans h₁

theorem listenLoop_dead {now : Nat} {outs : List AcceptOutcome} {s t : TcpServer}
    (hloop : listenLoop now outs s none none = .ok t) : t.dead = s.dead := by
  rcases listenLoop_last hloop (P := fun u => u.dead = s.dead) rfl
    (fun hdead hturn => hturn.dead.trans hdead) with rfl | ⟨u, hdead, hlast, -⟩
  · rfl
  · exact hlast.dead.trans hdead

/-- A call deletes the two contexts it is about, or none. -/
theorem dispatch_dead {parse : Parser} {s t : TcpServer} {c : HandlerCall}
    (hdisp : dispatch parse s c = .ok t) :
    t.dead = s.dead ∨
      ∃ i j, Names s c i j ∧ closes parse s c = true ∧ t.dead = .tcp i :: .timer j :: s.dead := by
  cases dispatch_cases hdisp with
  | idle => exact .inl rfl
  | stopped => exact .inl rfl
  | listened t hctx hkind hrun hloop => exact .inl (listenLoop_dead hloop)
  | worked i h hctx hhandler hgains => exact .inl rfl
  | closed i j h cleared t hnames hcloses hwork hclear hdel =>
    exact .inr ⟨i, j, hnames, hcloses, hdel.dead⟩

/-! ## Every batch -/

/-- A call on a context that is in use is safe. -/
theorem callSafe_of_linked {parse : Parser} {s : TcpServer} {c : HandlerCall}
    {lost half : List (Nat × Nat)} (inv : SlotInv tidy s lost half) (halive : c.context ∉ s.dead)
    (hlinked : Linked s c.context) : CallSafe parse s c := by
  have hopened : ∀ i j, Names s c i j → (i, j) ∈ s.opened := fun i j =>
    inv.names_opened (.inl hlinked)
  refine ⟨halive, ?_, ?_, fun i j hnames => inv.handler i j (hopened i j hnames), ?_⟩
  · intro i hctx hnone
    rw [hctx] at hlinked
    obtain ⟨j, hij⟩ := hlinked
    rw [inv.timeEvent i j hij] at hnone
    cases hnone
  · intro j hctx hnone
    rw [hctx] at hlinked
    obtain ⟨i, -, hevent⟩ := hlinked
    rw [hevent] at hnone
    cases hnone
  · intro f hf
    rcases hctx : c.context with _ | i | j <;> rw [hctx] at hlinked
    · exact listen_fault hctx hf
    · obtain ⟨j, hij⟩ := hlinked
      have htime := inv.timeEvent i j hij
      exact dispatch_fault (.inl ⟨hctx, htime⟩) htime (inv.handler i j hij) hf
    · obtain ⟨i, hij, hevent⟩ := hlinked
      exact dispatch_fault (.inr ⟨hctx, hevent⟩) (inv.timeEvent i j hij) (inv.handler i j hij) hf

section

variable {parse : Parser} {s₀ s t : TcpServer} {returned : List EventContext}
  {events : List EpollEvent}

/-- The induction over the calls: the contexts still to be called stay in use. -/
theorem batch_of_noStaleCalls (hstart : Started s₀) (cs : List HandlerCall) : ∀ {s : TcpServer},
    Reaches (graph (loopStep parse)) Sized ⟨s₀, []⟩ ⟨s, returned⟩ →
      (∀ c ∈ cs, c.context ∈ returned ∧ c.env.fileSize < 2 ^ 63) →
        (∀ c ∈ cs, Linked s c.context ∧ c.context ∉ s.dead) → NoStaleCalls parse s cs →
          BatchSafe parse s cs := by
  induction cs with
  | nil =>
    intro s _ _ _ _
    trivial
  | cons c cs ih =>
    intro s hrun hcalls hlive hstale
    obtain ⟨hlast, hrest⟩ := hstale
    obtain ⟨hmem, hsize⟩ := hcalls c List.mem_cons_self
    obtain ⟨hlinked, halive⟩ := hlive c List.mem_cons_self
    obtain ⟨lost, half, inv⟩ := loop_slots hstart hrun
    refine ⟨callSafe_of_linked inv.slots halive hlinked, fun t hdisp => ?_⟩
    have hstep : loopStep parse ⟨s, returned⟩ (.call c) = some ⟨t, returned⟩ := by
      simp only [loopStep, if_pos hmem, hdisp]
    obtain ⟨-, hstays⟩ := dispatch_slots inv.slots (.inl hlinked) False.elim hdisp
    refine ih (.next (.call c) hrun hsize hstep) (fun d hd => hcalls d (List.mem_cons_of_mem c hd))
      (fun d hd => ?_) (hrest t hdisp)
    obtain ⟨hlinked', halive'⟩ := hlive d (List.mem_cons_of_mem c hd)
    have hdead : d.context ∉ t.dead := by
      rcases dispatch_dead hdisp with heq | ⟨i, j, hnames, hcloses, heq⟩
      · rw [heq]
        exact halive'
      · have hnot := hlast (closes_ends hstart.opened hrun hmem hsize hcloses) d hd
        have hi : d.context ≠ .tcp i := fun he => hnot (he ▸ hnames.concerns.1)
        have hj : d.context ≠ .timer j := fun he => hnot (he ▸ hnames.concerns.2)
        rw [heq, List.mem_cons, List.mem_cons, not_or, not_or]
        exact ⟨hi, hj, halive'⟩
    rcases hstays _ (.inl hlinked') with hlinked'' | ⟨hmem', -⟩
    · exact ⟨hlinked'', hdead⟩
    · exact absurd hmem' hdead

theorem allowedAlong_calls (cs : List HandlerCall) (hsize : ∀ c ∈ cs, c.env.fileSize < 2 ^ 63) :
    ∀ l, allowedAlong (loopStep parse) Sized l (cs.map .call) := by
  induction cs with
  | nil => exact fun _ => trivial
  | cons c cs ih =>
    intro l
    apply And.intro (hsize c List.mem_cons_self)
    intro l' _
    exact ih (fun d hd => hsize d (List.mem_cons_of_mem c hd)) l'

/-- What batches reach, handler calls reach one by one. -/
theorem reaches_calls (hrun : Reaches (graph (serverStep parse)) SizedBatch s₀ s) :
    ∃ returned, Reaches (graph (loopStep parse)) Sized ⟨s₀, []⟩ ⟨s, returned⟩ := by
  induction hrun with
  | start => exact ⟨[], .start⟩
  | next events _ hsize hstep ih =>
    obtain ⟨returned, hreach⟩ := ih
    refine ⟨_, reaches_of_run_from _ hreach ?_ (serverStep_run hstep)⟩
    exact And.intro trivial fun l _ => allowedAlong_calls _ hsize l

/-- `epoll_wait` names contexts that are in use. -/
theorem batchStart_linked {lost half : List (Nat × Nat)} (inv : SlotInv tidy s lost half) (hwait : s.running = true)
    (hlive : ∀ e ∈ events, s.live e.context = true) :
    ∀ c ∈ events.flatMap EpollEvent.calls,
      Linked (batchStart s) c.context ∧ c.context ∉ (batchStart s).dead := by
  intro c hc
  obtain ⟨e, he, hce⟩ := List.mem_flatMap.1 hc
  rw [EpollEvent.calls_context hce]
  refine ⟨?_, List.not_mem_nil⟩
  have hlinked := TcpServer.live_settled inv hwait (hlive e he)
  cases hctx : e.context <;> rw [hctx] at hlinked <;> exact hlinked

end

/-! ## Two batches -/

/-- An entry of `events` on a context, without a client waiting. -/
def event (x : EventContext) (err inn : Bool) (accepts : List AcceptOutcome) : EpollEvent :=
  ⟨x, err, inn, false, .opens, .opens, accepts⟩

/-- One client is accepted. -/
def oneAccept : List (List EpollEvent) := [[event .listen false true [oneClient]]]

instance (s : TcpServer) (events : List EpollEvent) : Decidable (SizedBatch s events) :=
  inferInstanceAs (Decidable (∀ c ∈ _, _))

/-- After that a hang-up leads to the deletion of both contexts. -/
theorem oneAccept_run : ∃ t, Machine.run (serverStep noRequest) (.fresh 2 12 (by decide))
    oneAccept = some t ∧ t.running = true ∧ t.opened = [(0, 0)] ∧
      ∃ u, dispatch noRequest (batchStart t) ⟨.tcp 0, .onError, .opens, []⟩ = .ok u ∧
        .timer 0 ∈ u.dead := by
  have hrun : (Machine.run (serverStep noRequest) (.fresh 2 12 (by decide)) oneAccept).any
      (fun t => decide (t.running = true ∧ t.opened = [(0, 0)]) &&
        (dispatch noRequest (batchStart t) ⟨.tcp 0, .onError, .opens, []⟩).toOption.any fun u =>
          decide (.timer 0 ∈ u.dead)) := by decide +kernel
  obtain ⟨t, hrun, hfacts⟩ := (Option.any_eq_true _ _).1 hrun
  rw [Bool.and_eq_true, decide_eq_true_eq] at hfacts
  refine ⟨t, hrun, hfacts.1.1, hfacts.1.2, ?_⟩
  obtain ⟨u, hu, hdead⟩ := (Option.any_eq_true _ _).1 hfacts.2
  refine ⟨u, ?_, of_decide_eq_true hdead⟩
  cases hdisp : dispatch noRequest (batchStart t) ⟨.tcp 0, .onError, .opens, []⟩ with
  | error f =>
    rw [hdisp] at hu
    cases hu
  | ok u' =>
    rw [hdisp] at hu
    cases hu
    rfl

theorem oneAccept_reaches {t : TcpServer}
    (hrun : Machine.run (serverStep noRequest) (.fresh 2 12 (by decide)) oneAccept = some t) :
    Reaches (graph (serverStep noRequest)) SizedBatch (.fresh 2 12 (by decide)) t :=
  reaches_of_run (by decide +kernel) hrun

end PingServer
