import PingServer.Net.Deletion

/-!
# Idle connections

`tcpserver_time_on_read` closes a connection only if its status is already
`CONN_ST_CLOSING`. No open connection has that status, since `connection_close` alone
sets it, so a connection is never closed for being idle.
-/

namespace PingServer

open Machine

/-- More than `out_time` has passed since the connection was last active. -/
def Overdue (s : TcpServer) (i j now : Nat) : Prop :=
  (s.eventTimerArray j).outTime < now - (s.connArray i).lastActivity

/-- The timer event of a connection deletes it if it is overdue, with both contexts and both
numbers, and does nothing otherwise. -/
structure TimesOut (parse : Parser) (s : TcpServer) (i j : Nat) (c : HandlerCall) : Prop where
  idle : Overdue s i j c.env.now →
    ∃ t cleared, dispatch parse s c = .ok t ∧ Deleted s t i j cleared
  active : ¬ Overdue s i j c.env.now → dispatch parse s c = .ok s

/-- While the status is another one, the timer does nothing. -/
theorem timer_ignores {parse : Parser} {s : TcpServer} {i j : Nat} {c : HandlerCall}
    (hcall : c.context = .timer j ∧ c.kind = .onRead)
    (hpair : (s.eventTimerArray j).tcpEvent = some i) (hst : (s.connArray i).connSt ≠ .closing) :
    dispatch parse s c = .ok s := by
  obtain ⟨context, kind, env, accepts⟩ := c
  obtain ⟨rfl, rfl⟩ := hcall
  have hopen : timedOut (s.connArray i) env.now (s.eventTimerArray j).outTime = false := by
    unfold timedOut
    simp only [hst, false_and, decide_false]
  unfold dispatch tcpserverTimeOnRead
  simp only [hpair, hopen, Bool.false_eq_true, ↓reduceIte]

/-- An event of the connection `(i, j)` itself, not of one that had its timer before. -/
structure OwnTimer (l : EventLoop) (i j : Nat) (c : HandlerCall) : Prop where
  opened : (i, j) ∈ l.server.opened
  context : c.context = .timer j
  named : c.context ∈ l.returned
  alive : c.context ∉ l.server.dead

/-- An open connection has its handler, and its timer leads to it. -/
theorem OwnTimer.paired {parse : Parser} {ok : EventLoop → LoopEvent → Prop} {s : TcpServer}
    {l : EventLoop} {i j : Nat} {c : HandlerCall} (hstart : Started s)
    (hrun : Reaches (graph (loopStep parse)) ok ⟨s, []⟩ l) (h : OwnTimer l i j c) :
    (l.server.connArray i).protocolHandler = true ∧
      (l.server.eventTimerArray j).tcpEvent = some i := by
  obtain ⟨lost, half, inv⟩ := loop_slots hstart hrun
  refine ⟨inv.slots.handler i j h.opened, ?_⟩
  rcases inv.settled _ h.named with hlinked | ⟨hdead, -⟩
  · rw [h.context] at hlinked
    obtain ⟨k, hk, hevent⟩ := hlinked
    rw [inv.slots.owner h.opened hk]
    exact hevent
  · exact absurd hdead h.alive

/-- In every run, the timer event of an open connection does what it should exactly if the
connection is not overdue. -/
theorem times_out_iff {parse : Parser} {s : TcpServer} {l : EventLoop} (hstart : Started s)
    (hrun : Reaches (graph (loopStep parse)) always ⟨s, []⟩ l) {i j : Nat} {c : HandlerCall}
    (htimer : OwnTimer l i j c) (hkind : c.kind = .onRead) :
    TimesOut parse l.server i j c ↔ ¬ Overdue l.server i j c.env.now := by
  obtain ⟨hset, hpair⟩ := htimer.paired hstart hrun
  have hst := notClosing_rule.loop hstart.opened hrun i (.inl ⟨j, htimer.opened⟩) hset
  have hnothing : dispatch parse l.server c = .ok l.server :=
    timer_ignores ⟨htimer.context, hkind⟩ hpair hst
  constructor
  · intro htimes hover
    obtain ⟨t, cleared, hdisp, hdeleted⟩ := htimes.idle hover
    rw [hnothing] at hdisp
    cases hdisp
    -- the connection would have to be gone
    have hopen := htimer.opened
    rw [hdeleted.opened, List.mem_filter] at hopen
    exact of_decide_eq_true hopen.2 rfl
  · intro hactive
    constructor
    · intro hover
      exact absurd hover hactive
    · intro _
      exact hnothing

/-! ## Two timer events -/

/-- The timer of connection 0 at time `now`. -/
def tick (now : Nat) : HandlerCall := ⟨.timer 0, .onRead, { Env.opens with now := now }, []⟩

/-- The client has connected at time 0, and its timer has fired. -/
theorem oneClient_ticks (now : Nat) : ∃ l,
    Reaches (graph (loopStep noRequest)) always ⟨.fresh 2 12 (by decide), []⟩ l ∧
      OwnTimer l 0 0 (tick now) ∧ (l.server.eventTimerArray 0).outTime = 1000 ∧
        (l.server.connArray 0).lastActivity = 0 := by
  have hstate : (Machine.run (loopStep noRequest) ⟨.fresh 2 12 (by decide), []⟩
      [.wait [.listen], acceptCall [oneClient], .wait [.timer 0]]).any (fun l =>
        decide ((0, 0) ∈ l.server.opened ∧ .timer 0 ∈ l.returned ∧ .timer 0 ∉ l.server.dead ∧
          (l.server.eventTimerArray 0).outTime = 1000 ∧
            (l.server.connArray 0).lastActivity = 0)) = true := by decide +kernel
  obtain ⟨l, hrun, hdone⟩ := (Option.any_eq_true _ _).1 hstate
  obtain ⟨hopened, hnamed, halive, hout, hlast⟩ := of_decide_eq_true hdone
  exact ⟨l, reaches_of_run (allowedAlong_always _ _ _) hrun, ⟨hopened, rfl, hnamed, halive⟩,
    hout, hlast⟩

theorem times_out_active : ∃ l,
    Reaches (graph (loopStep noRequest)) always ⟨.fresh 2 12 (by decide), []⟩ l ∧
      TimesOut noRequest l.server 0 0 (tick 1000) := by
  obtain ⟨l, hrun, htimer, hout, hlast⟩ := oneClient_ticks 1000
  refine ⟨l, hrun, (times_out_iff (TcpServer.fresh_started (by decide) (by decide)) hrun htimer
    rfl).2 ?_⟩
  unfold Overdue
  rw [hout, hlast]
  decide

/-- A client connects at time 0 and is silent; at time 5000 its timer leaves it open. -/
theorem idle_never_closed : ¬ ∀ (parse : Parser) (s : TcpServer) (l : EventLoop) (i j : Nat)
    (c : HandlerCall), Started s → Reaches (graph (loopStep parse)) always ⟨s, []⟩ l →
      OwnTimer l i j c → c.kind = .onRead → TimesOut parse l.server i j c := by
  intro hall
  obtain ⟨l, hrun, htimer, hout, hlast⟩ := oneClient_ticks 5000
  have hstart : Started (.fresh 2 12 (by decide)) :=
    TcpServer.fresh_started (by decide) (by decide)
  have htimes := hall noRequest _ l 0 0 (tick 5000) hstart hrun htimer rfl
  have hover : Overdue l.server 0 0 5000 := by
    unfold Overdue
    rw [hout, hlast]
    decide
  obtain ⟨t, cleared, hdisp, hdeleted⟩ := htimes.idle hover
  obtain ⟨hset, hpair⟩ := htimer.paired hstart hrun
  have hst := notClosing_rule.loop hstart.opened hrun 0 (.inl ⟨0, htimer.opened⟩) hset
  rw [timer_ignores ⟨rfl, rfl⟩ hpair hst] at hdisp
  cases hdisp
  have hopen := htimer.opened
  rw [hdeleted.opened, List.mem_filter] at hopen
  exact of_decide_eq_true hopen.2 rfl

end PingServer
