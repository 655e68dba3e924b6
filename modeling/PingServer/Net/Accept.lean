import PingServer.Net.TcpServer
import Mathlib.Logic.Relation

/-!
# The accept loop, turn by turn

`tcpserver_listen_on_read` opens connections until it runs out of something.
`OpenTurn` is a turn that opens one, `LastTurn` the turn that ends the loop.
`listenLoop_turns` splits every call into such turns.
-/

namespace PingServer

/-- Both descriptors of a connection were created. -/
def AcceptOutcome.succeeds (o : AcceptOutcome) : Bool := o.accepted.isSome && o.timerfd.isSome

theorem closeAccepted_eq (s : TcpServer) (fd : Option Nat) :
    closeAccepted s fd = { s with trace := (closeAccepted s fd).trace } := by
  unfold closeAccepted
  split
  · split <;> rfl
  · rfl

/-- The call does not reach the limit after it has opened a connection. -/
def RoomFor (s : TcpServer) (outs : List AcceptOutcome) : Prop :=
  (outs.takeWhile AcceptOutcome.succeeds).length + s.currentConnections < s.maxConnections

/-- Both numbers were taken from their pools, at a turn that is not at the limit. -/
structure Taken (s s₁ : TcpServer) (i j : Nat) : Prop where
  notFull : s.currentConnections ≠ s.maxConnections
  tcp : idListGet s.tcpIdList = (s₁.tcpIdList, some i)
  timer : idListGet s.timerIdList = (s₁.timerIdList, some j)
  rest : s₁ = { s with tcpIdList := s₁.tcpIdList, timerIdList := s₁.timerIdList }

/-- A connection was created on descriptor `fd`. -/
structure ConnCreated (now : Nat) (s₁ s₂ : TcpServer) (i j fd : Nat) : Prop where
  create : ∃ ret, connectionCreate (s₁.connArray i) fd s₁.memArena s₁.connectionId now =
    (s₂.memArena, s₂.connArray i, ret) ∧ ¬ ret < 0
  handler : (s₂.connArray i).protocolHandler = true
  others : ∀ k, k ≠ i → s₂.connArray k = s₁.connArray k
  timeEvent : ∀ k, (s₂.eventTcpArray k).timeEvent =
    if k = i then some j else (s₁.eventTcpArray k).timeEvent
  rest : s₂ = { s₁ with
    memArena := s₂.memArena, connArray := s₂.connArray, eventTcpArray := s₂.eventTcpArray
    connectionId := s₁.connectionId + 1
    opened := (i, j) :: s₁.opened }

/-- A turn that opens the connection `(i, j)`. -/
structure OpenTurn (now : Nat) (s t : TcpServer) : Prop where
  turn : ∃ i j fd timeFd s₁ s₂, Taken s s₁ i j ∧ ConnCreated now s₁ s₂ i j fd ∧
    t = { s₂.setTimer j ⟨timeFd, tcpServerDefaultOutTime, some i⟩ with
      currentConnections := inc64 s₂.currentConnections
      totalConnections := inc64 s₂.totalConnections }

/-- The end of the loop. At the limit it gives back the numbers of the turn before. -/
inductive LastTurn (now : Nat) (outs : List AcceptOutcome) (s : TcpServer) : TcpServer → Prop
  | limit (newIdx newIdx2 : Option Nat) (t : TcpServer) :
      s.currentConnections = s.maxConnections → cleanIdx s newIdx newIdx2 = .ok t →
      LastTurn now outs s t
  | exhausted (newIdx newIdx2 : Option Nat) (s₁ t : TcpServer) :
      s.currentConnections ≠ s.maxConnections →
      idListGet s.tcpIdList = (s₁.tcpIdList, newIdx) →
      idListGet s.timerIdList = (s₁.timerIdList, newIdx2) →
      s₁ = { s with tcpIdList := s₁.tcpIdList, timerIdList := s₁.timerIdList } →
      newIdx = none ∨ newIdx2 = none → cleanIdx s₁ newIdx newIdx2 = .ok t → LastTurn now outs s t
  | returned (i j : Nat) (s₁ t : TcpServer) (fd : Option Nat) : Taken s s₁ i j →
      cleanIdx (closeAccepted s₁ fd) (some i) (some j) = .ok t → LastTurn now outs s t
  | noMemory (i j fd : Nat) (s₁ : TcpServer) (a : MemoryArena) (conn : Connection) (ret : Int) :
      Taken s s₁ i j →
      connectionCreate (s₁.connArray i) fd s₁.memArena s₁.connectionId now = (a, conn, ret) →
      ret < 0 → LastTurn now outs s (tcpserverListenOnError { s₁ with memArena := a })
  | halfOpen (i j fd : Nat) (timer : EventTimerContext) (s₁ s₂ : TcpServer) : Taken s s₁ i j →
      ConnCreated now s₁ s₂ i j fd → (timer = s₂.eventTimerArray j ∨ timer.tcpEvent = some i) →
      (∃ o ∈ outs, o.tcpAdded = false ∨ o.timerAdded = false) →
      LastTurn now outs s (tcpserverListenOnError (s₂.setTimer j timer))

theorem connectionCreate_handler {conn conn' : Connection} {fd : Int} {a a' : MemoryArena}
    {connId now : Nat} {ret : Int}
    (hcreate : connectionCreate conn fd a connId now = (a', conn', ret)) (hret : ¬ ret < 0) :
    conn'.protocolHandler = true := by
  obtain ⟨mem, p, n, q, m, rfl⟩ := connectionCreate_conn hcreate hret
  rfl

/-- Adding a tcp context fails without memory, or creates the connection. -/
theorem tcpserverAddTcpEvent_cases (s : TcpServer) (i j fd : Nat) (added : Bool) (now : Nat) :
    (∃ a conn ret, connectionCreate (s.connArray i) fd s.memArena s.connectionId now =
      (a, conn, ret) ∧ ret < 0 ∧
        tcpserverAddTcpEvent s i j fd added now = ({ s with memArena := a }, -1)) ∨
      ∃ s₂, ConnCreated now s s₂ i j fd ∧
        tcpserverAddTcpEvent s i j fd added now = (s₂, if added then 0 else -1) := by
  unfold tcpserverAddTcpEvent
  generalize hcreate : connectionCreate (s.connArray i) fd s.memArena s.connectionId now = r
  obtain ⟨a, conn, ret⟩ := r
  simp only
  by_cases hret : ret < 0
  · exact .inl ⟨a, conn, ret, rfl, hret, by rw [if_pos hret]⟩
  · refine .inr ⟨_, ?_, by rw [if_neg hret]⟩
    refine ⟨⟨ret, ?_, hret⟩, ?_, ?_, ?_, rfl⟩
    · simp [TcpServer.setTcp, hcreate]
    · simp only [TcpServer.setTcp, ↓reduceIte]
      exact connectionCreate_handler hcreate hret
    · intro k hk
      simp [TcpServer.setTcp, hk]
    · intro k
      simp only [TcpServer.setTcp]
      split <;> rfl

theorem OpenTurn.max {now : Nat} {s t : TcpServer} (h : OpenTurn now s t) :
    t.maxConnections = s.maxConnections := by
  obtain ⟨i, j, fd, timeFd, s₁, s₂, htaken, hcreated, rfl⟩ := h
  have h₁ : s₁.maxConnections = s.maxConnections := by rw [htaken.rest]
  have h₂ : s₂.maxConnections = s₁.maxConnections := by rw [hcreated.rest]
  exact h₂.trans h₁

theorem OpenTurn.current {now : Nat} {s t : TcpServer} (h : OpenTurn now s t) :
    t.currentConnections = inc64 s.currentConnections := by
  obtain ⟨i, j, fd, timeFd, s₁, s₂, htaken, hcreated, rfl⟩ := h
  have h₁ : s₁.currentConnections = s.currentConnections := by rw [htaken.rest]
  have h₂ : s₂.currentConnections = s₁.currentConnections := by rw [hcreated.rest]
  exact congrArg inc64 (h₂.trans h₁)

/-- A connection less has to be opened after the turn. -/
theorem OpenTurn.roomFor {now : Nat} {s t : TcpServer} {o : AcceptOutcome}
    {outs : List AcceptOutcome} (h : OpenTurn now s t) (hmax : s.maxConnections < 2 ^ 32)
    (ho : o.succeeds = true) (hroom : RoomFor s (o :: outs)) : RoomFor t outs := by
  unfold RoomFor at hroom ⊢
  rw [List.takeWhile_cons_of_pos ho, List.length_cons] at hroom
  rw [h.current, h.max, inc64_eq (by omega)]
  omega

theorem setTimer_self (s : TcpServer) (j : Nat) : s.setTimer j (s.eventTimerArray j) = s := by
  have harray : (fun k => if k = j then s.eventTimerArray j else s.eventTimerArray k) =
      s.eventTimerArray := by
    funext k
    split
    · rename_i hk
      rw [hk]
    · rfl
  simp only [TcpServer.setTimer, harray]

theorem LastTurn.weaken {now : Nat} {outs outs' : List AcceptOutcome} {s t : TcpServer}
    (h : LastTurn now outs s t) (hsub : outs ⊆ outs') : LastTurn now outs' s t := by
  cases h with
  | limit newIdx newIdx2 _ hfull hclean => exact .limit newIdx newIdx2 t hfull hclean
  | exhausted newIdx newIdx2 s₁ t hnot htcp htimer hrest hnone hclean =>
    exact .exhausted newIdx newIdx2 s₁ t hnot htcp htimer hrest hnone hclean
  | returned i j s₁ t fd htaken hclean => exact .returned i j s₁ t fd htaken hclean
  | noMemory i j fd s₁ a conn ret htaken hcreate hret =>
    exact .noMemory i j fd s₁ a conn ret htaken hcreate hret
  | halfOpen i j fd timer s₁ s₂ htaken hcreated htimer hfailed =>
    obtain ⟨o, ho, hfailed⟩ := hfailed
    exact .halfOpen i j fd timer s₁ s₂ htaken hcreated htimer ⟨o, hsub ho, hfailed⟩

/-- A turn is the last one, or opens a connection. -/
inductive Turn (now : Nat) (s t : TcpServer) : List AcceptOutcome → Prop
  | last (outs : List AcceptOutcome) : LastTurn now outs s t → Turn now s t outs
  | opened (o : AcceptOutcome) (outs : List AcceptOutcome) (u : TcpServer) (i j : Nat) :
      o.succeeds = true → OpenTurn now s u → listenLoop now outs u (some i) (some j) = .ok t →
      Turn now s t (o :: outs)

theorem listenLoop_turn {now : Nat} {outs : List AcceptOutcome} {s t : TcpServer}
    {newIdx newIdx2 : Option Nat} (hloop : listenLoop now outs s newIdx newIdx2 = .ok t) :
    Turn now s t outs := by
  rw [listenLoop.eq_def] at hloop
  by_cases hfull : s.currentConnections = s.maxConnections
  · simp only [if_pos hfull] at hloop
    exact .last outs (.limit newIdx newIdx2 t hfull hloop)
  obtain ⟨tcpIds, idx, htcp⟩ : ∃ p i, idListGet s.tcpIdList = (p, i) := ⟨_, _, rfl⟩
  obtain ⟨timerIds, idx2, htimer⟩ : ∃ p i, idListGet s.timerIdList = (p, i) := ⟨_, _, rfl⟩
  simp only [if_neg hfull, htcp, htimer] at hloop
  cases idx with
  | none => exact .last outs (.exhausted none idx2 _ t hfull htcp htimer rfl (.inl rfl) hloop)
  | some i =>
    cases idx2 with
    | none => exact .last outs (.exhausted (some i) none _ t hfull htcp htimer rfl (.inr rfl) hloop)
    | some j =>
      have htaken : Taken s { s with tcpIdList := tcpIds, timerIdList := timerIds } i j :=
        ⟨hfull, htcp, htimer, rfl⟩
      generalize ({ s with tcpIdList := tcpIds, timerIdList := timerIds } : TcpServer) = s₁
        at htaken hloop
      obtain _ | ⟨⟨accepted, timerfd, tcpAdded, timerAdded⟩, outs⟩ := outs
      · exact .last [] (.returned i j s₁ t none htaken hloop)
      simp only at hloop
      cases accepted with
      | none => exact .last _ (.returned i j s₁ t none htaken hloop)
      | some fd =>
        cases timerfd with
        | none => exact .last _ (.returned i j s₁ t (some fd) htaken hloop)
        | some timeFd =>
          simp only at hloop
          split at hloop
          · cases hloop
          · rcases tcpserverAddTcpEvent_cases s₁ i j fd tcpAdded now with
              ⟨a, conn, ret, hcreate, hret, hadd⟩ | ⟨s₂, hcreated, hadd⟩
            · simp only [hadd] at hloop
              cases hloop
              exact .last _ (.noMemory i j fd s₁ a conn ret htaken hcreate hret)
            · simp only [hadd] at hloop
              cases tcpAdded with
              | false =>
                cases hloop
                have hfailed : ∃ o ∈ (⟨some fd, some timeFd, false, timerAdded⟩ :: outs :
                    List AcceptOutcome), o.tcpAdded = false ∨ o.timerAdded = false :=
                  ⟨_, List.mem_cons_self, .inl rfl⟩
                have hlast := LastTurn.halfOpen i j fd _ s₁ s₂ htaken hcreated (.inl rfl) hfailed
                rw [setTimer_self] at hlast
                exact .last _ hlast
              | true =>
                cases timerAdded with
                | false =>
                  cases hloop
                  exact .last _ (.halfOpen i j fd _ s₁ s₂ htaken hcreated (.inr rfl)
                    ⟨_, List.mem_cons_self, .inr rfl⟩)
                | true =>
                  exact .opened _ outs _ i j rfl ⟨i, j, fd, timeFd, s₁, s₂, htaken, hcreated, rfl⟩
                    hloop

/-- Every call opens connections until its last turn, which is below the limit if there is room
for all that come. -/
theorem listenLoop_turns {now : Nat} (outs : List AcceptOutcome) :
    ∀ {s t : TcpServer} {newIdx newIdx2 : Option Nat},
      listenLoop now outs s newIdx newIdx2 = .ok t →
      ∃ s', Relation.ReflTransGen (OpenTurn now) s s' ∧ LastTurn now outs s' t ∧
        (s.maxConnections < 2 ^ 32 → RoomFor s outs →
          s'.currentConnections ≠ s'.maxConnections) := by
  have hbelow : ∀ {s : TcpServer} {outs : List AcceptOutcome}, s.maxConnections < 2 ^ 32 →
      RoomFor s outs → s.currentConnections ≠ s.maxConnections := by
    intro s outs _ hroom
    unfold RoomFor at hroom
    omega
  induction outs with
  | nil =>
    intro s t newIdx newIdx2 hloop
    cases listenLoop_turn hloop with
    | last _ hlast => exact ⟨s, .refl, hlast, hbelow⟩
  | cons o outs ih =>
    intro s t newIdx newIdx2 hloop
    cases listenLoop_turn hloop with
    | last _ hlast => exact ⟨s, .refl, hlast, hbelow⟩
    | opened _ _ u i j ho hopen hrest =>
      obtain ⟨s', hturns, hlast, hroom⟩ := ih hrest
      refine ⟨s', .head hopen hturns, hlast.weaken (List.subset_cons_self _ _), fun hmax hs => ?_⟩
      exact hroom (by rw [hopen.max]; exact hmax) (hopen.roomFor hmax ho hs)

end PingServer
