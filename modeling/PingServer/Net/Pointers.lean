import PingServer.Net.Slots

/-!
# Which faults a handler can meet

The protocol handler follows neither an event pointer nor a handler pointer, so
a handler call that finds its pointers set does not fail on one of them.
-/

namespace PingServer

/-- The fault is not a `NULL` in `time_event`, `tcp_event` or `protocol_handler`. -/
def Fault.NotPointer (f : Fault) : Prop := f ≠ .nullEvent ∧ f ≠ .nullHandler

instance (f : Fault) : Decidable f.NotPointer := inferInstanceAs (Decidable (_ ∧ _))

theorem connectionSend_fault {conn : Connection} {sends : List SendOutcome} {now : Nat} {f : Fault}
    (hf : connectionSend conn sends now = .error f) : f = .assertion := by
  unfold connectionSend at hf
  simp only at hf
  split at hf
  · cases hf
  · split at hf
    · cases hf
      rfl
    · split at hf
      · split at hf <;> cases hf
      · split at hf <;> cases hf

namespace Handling

variable {h h' : Handling} {ctx : Nat} {f : Fault}

theorem send_fault (hf : h.send = .error f) : f = .assertion := by
  unfold send at hf
  split at hf
  · rename_i hsend
    cases hf
    exact connectionSend_fault hsend
  · cases hf

theorem sendBody_fault (hf : sendBody h ctx = .error f) : f = .assertion := by
  unfold sendBody at hf
  simp only at hf
  split at hf
  · split at hf
    · cases hf
    · split at hf <;> cases hf
  · split at hf
    · split at hf
      · rename_i hsend
        cases hf
        exact send_fault hsend
      · split at hf
        · cases hf
        · split at hf <;> cases hf
    · cases hf

theorem sendHead_fault (hf : sendHead h ctx = .error f) : f = .assertion := by
  unfold sendHead at hf
  split at hf
  · rename_i hsend
    cases hf
    exact send_fault hsend
  · simp only at hf
    split at hf
    · cases hf
    · split at hf
      · cases hf
      · split at hf
        · split at hf
          · cases hf
          · exact sendBody_fault hf
        · exact sendBody_fault hf

theorem startResponse_fault (hf : startResponse h ctx = .error f) : f.NotPointer := by
  unfold startResponse at hf
  split at hf
  · rename_i hlen
    cases hf
    unfold bodyLength at hlen
    split at hlen
    · cases hlen
    · split at hlen <;> cases hlen
      decide
  · rw [sendHead_fault hf]
    decide

theorem write_fault (hf : httpProtocolWrite h = .error f) : f.NotPointer := by
  unfold httpProtocolWrite at hf
  split at hf
  · cases hf
    decide
  · simp only at hf
    split at hf
    · exact startResponse_fault hf
    · rw [sendHead_fault hf]
      decide
    · rw [sendBody_fault hf]
      decide
    · exact startResponse_fault hf
    · exact startResponse_fault hf

theorem process_fault (hf : httpProtocolProcess h = .error f) : f.NotPointer := by
  unfold httpProtocolProcess at hf
  split at hf
  · cases hf
    decide
  · simp only at hf
    split at hf <;> cases hf

theorem closeLoop_fault (fuel : Nat) : ∀ {h : Handling}, closeLoop fuel h = .error f →
    f.NotPointer := by
  induction fuel with
  | zero =>
    intro h hf
    cases hf
    decide
  | succ fuel ih =>
    intro h hf
    rw [closeLoop] at hf
    split at hf
    · rename_i hsend
      cases hf
      rw [send_fault hsend]
      decide
    · split at hf
      · cases hf
      · split at hf
        · cases hf
        · exact ih hf

theorem close_fault (hf : httpProtocolClose h = .error f) : f.NotPointer := by
  unfold httpProtocolClose at hf
  split at hf
  · cases hf
  · simp only at hf
    split at hf
    · rename_i hloop
      cases hf
      exact closeLoop_fault _ hloop
    · cases hf

theorem clear_fault (hhandler : h.conn.protocolHandler = true)
    (hf : connectionClearProtocol h = .error f) : f.NotPointer := by
  unfold connectionClearProtocol at hf
  rw [if_pos hhandler] at hf
  split at hf
  · rename_i hclose
    cases hf
    exact close_fault hclose
  · cases hf

end Handling

/-! ## The handlers of a connection -/

theorem tcpOnRead_fault {parse : Parser} {current max : Nat} {h : Handling} {f : Fault}
    (hhandler : h.conn.protocolHandler = true) (hf : tcpOnRead parse current max h = .error f) :
    f.NotPointer := by
  have hhold := (connectionRecv_hold h.conn h.env.recvs h.env.now).handler
  unfold tcpOnRead at hf
  simp only at hf
  split at hf
  · cases hf
  · split at hf
    · rename_i hnone
      rw [hhold, hhandler] at hnone
      cases hnone
    · split at hf
      · cases hf
      · split at hf
        · rename_i hproc
          cases hf
          exact Handling.process_fault hproc
        · split at hf
          · cases hf
          · split at hf
            · split at hf <;> cases hf
              decide
            · split at hf
              · split at hf
                · rename_i hclose
                  cases hf
                  exact Handling.close_fault hclose
                · split at hf <;> cases hf
                  decide
              · cases hf
                decide

theorem tcpOnWrite_fault {current max : Nat} {h : Handling} {f : Fault}
    (hhandler : h.conn.protocolHandler = true) (hf : tcpOnWrite current max h = .error f) :
    f.NotPointer := by
  unfold tcpOnWrite at hf
  rw [if_neg (by rw [hhandler]; exact Bool.true_eq_false_eq_False)] at hf
  split at hf
  · rename_i hwrite
    cases hf
    exact Handling.write_fault hwrite
  · split at hf
    · cases hf
      decide
    · split at hf
      · split at hf <;> cases hf
        decide
      all_goals cases hf

/-- Deleting a connection whose handler is set. -/
theorem delete_fault {s : TcpServer} {i j : Nat} {env : Env} {f : Fault}
    (hhandler : (s.connArray i).protocolHandler = true)
    (hf : tcpserverDeleteTcpAndTimer s (some i) (some j) env = .error f) : f.NotPointer := by
  unfold tcpserverDeleteTcpAndTimer at hf
  simp only at hf
  split at hf
  · rename_i hclose
    cases hf
    unfold tcpServerCloseConnection at hclose
    split at hclose
    · rename_i hclear
      cases hclose
      exact Handling.clear_fault hhandler hclear
    · cases hclose
  · split at hf <;> cases hf
    decide

theorem settle_fault {s : TcpServer} {i j : Nat} {r : Handling × Verdict} {f : Fault}
    (htime : (s.eventTcpArray i).timeEvent = some j) (hhandler : r.1.conn.protocolHandler = true)
    (hf : settle s i r = .error f) : f.NotPointer := by
  unfold settle at hf
  split at hf
  · cases hf
  · unfold tcpserverTcpOnError at hf
    rw [TcpServer.absorb] at hf
    simp only [htime] at hf
    exact delete_fault (by simp only [↓reduceIte]; exact hhandler) hf

theorem tcpOnRead_keeps {parse : Parser} {current max : Nat} {h : Handling}
    {r : Handling × Verdict} (hread : tcpOnRead parse current max h = .ok r) :
    r.1.conn.protocolHandler = h.conn.protocolHandler := by
  rcases tcpOnRead_spec hread with hgains | ⟨-, -, h₁, hgains, hrec⟩
  · exact hgains.handler
  · exact hrec.handler.trans hgains.handler

/-- A call on a connection that has all its pointers follows no `NULL` among them. -/
theorem dispatch_fault {parse : Parser} {s : TcpServer} {c : HandlerCall} {i j : Nat} {f : Fault}
    (hnames : Names s c i j) (htime : (s.eventTcpArray i).timeEvent = some j)
    (hhandler : (s.connArray i).protocolHandler = true) (hf : dispatch parse s c = .error f) :
    f.NotPointer := by
  obtain ⟨context, kind, env, accepts⟩ := c
  rcases hnames with ⟨hctx, -⟩ | ⟨hctx, hevent⟩ <;> simp only at hctx <;> subst hctx
  · cases kind with
    | onRead =>
      simp only [dispatch, tcpserverTcpOnRead] at hf
      split at hf
      · rename_i hread
        cases hf
        exact tcpOnRead_fault hhandler hread
      · rename_i r hread
        split at hf
        · cases hf
          decide
        · exact settle_fault htime ((tcpOnRead_keeps hread).trans hhandler) hf
    | onWrite =>
      simp only [dispatch, tcpserverTcpOnWrite] at hf
      split at hf
      · rename_i hwrite
        cases hf
        exact tcpOnWrite_fault hhandler hwrite
      · rename_i r hwrite
        exact settle_fault htime ((tcpOnWrite_spec hwrite).hold.handler.trans hhandler) hf
    | onError =>
      simp only [dispatch, tcpserverTcpOnError, htime] at hf
      exact delete_fault hhandler hf
  · cases kind with
    | onRead =>
      simp only [dispatch, tcpserverTimeOnRead, hevent] at hf
      split at hf
      · simp only [tcpserverTimeOnError, hevent] at hf
        exact delete_fault hhandler hf
      · cases hf
    | onWrite => cases hf
    | onError =>
      simp only [dispatch, tcpserverTimeOnError, hevent] at hf
      exact delete_fault hhandler hf

/-! ## The handlers of the listen context -/

theorem cleanIdx_fault {s : TcpServer} {newIdx newIdx2 : Option Nat} {f : Fault}
    (hf : cleanIdx s newIdx newIdx2 = .error f) : f.NotPointer := by
  unfold cleanIdx at hf
  split at hf <;> cases hf
  decide

theorem listenLoop_fault {now : Nat} {f : Fault} (outs : List AcceptOutcome) :
    ∀ {s : TcpServer} {newIdx newIdx2 : Option Nat},
      listenLoop now outs s newIdx newIdx2 = .error f → f.NotPointer := by
  induction outs with
  | nil =>
    intro s newIdx newIdx2 hf
    rw [listenLoop] at hf
    split at hf
    · exact cleanIdx_fault hf
    · cases hidx : (idListGet s.tcpIdList).2 <;> cases hidx2 : (idListGet s.timerIdList).2 <;>
        simp only [hidx, hidx2] at hf <;> exact cleanIdx_fault hf
  | cons o outs ih =>
    intro s newIdx newIdx2 hf
    rw [listenLoop] at hf
    split at hf
    · exact cleanIdx_fault hf
    · cases hidx : (idListGet s.tcpIdList).2 with
      | none =>
        simp only [hidx] at hf
        exact cleanIdx_fault hf
      | some i =>
        cases hidx2 : (idListGet s.timerIdList).2 with
        | none =>
          simp only [hidx, hidx2] at hf
          exact cleanIdx_fault hf
        | some j =>
          simp only [hidx, hidx2] at hf
          split at hf
          · split at hf
            · cases hf
              decide
            · split at hf
              · exact cleanIdx_fault hf
              · split at hf
                · cases hf
                · split at hf
                  · cases hf
                  · exact ih hf
          · exact cleanIdx_fault hf

theorem listen_fault {parse : Parser} {s : TcpServer} {c : HandlerCall} {f : Fault}
    (hctx : c.context = .listen) (hf : dispatch parse s c = .error f) : f.NotPointer := by
  obtain ⟨context, kind, env, accepts⟩ := c
  simp only at hctx
  subst hctx
  cases kind with
  | onRead =>
    simp only [dispatch, tcpserverListenOnRead] at hf
    split at hf
    · exact listenLoop_fault accepts hf
    · cases hf
  | onWrite => cases hf
  | onError => cases hf

end PingServer
