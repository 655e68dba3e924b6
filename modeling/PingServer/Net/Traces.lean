import PingServer.Net.SendSafety

/-!
# A handler call adds to what it finds

The handlers of a connection do the same whatever was done before them: the actions they
find in front of their own are left as they are, and so is every context but the one of
the connection. This is what lets one connection be told apart from the rest of a run.
-/

namespace PingServer

open ByteMem

/-- The same handling, with the actions `t` done before. -/
def Handling.behind (t : List Action) (h : Handling) : Handling := { h with trace := t ++ h.trace }

section

variable (t : List Action) (h : Handling)

@[simp] theorem Handling.behind_conn : (h.behind t).conn = h.conn := rfl
@[simp] theorem Handling.behind_arena : (h.behind t).arena = h.arena := rfl
@[simp] theorem Handling.behind_ctxs : (h.behind t).ctxs = h.ctxs := rfl
@[simp] theorem Handling.behind_cache : (h.behind t).cache = h.cache := rfl
@[simp] theorem Handling.behind_env : (h.behind t).env = h.env := rfl
@[simp] theorem Handling.behind_trace : (h.behind t).trace = t ++ h.trace := rfl

@[simp] theorem Handling.behind_log (a : Action) : (h.behind t).log a = (h.log a).behind t := by
  simp only [Handling.log, Handling.behind, List.append_assoc]

@[simp] theorem Handling.behind_setReq (ctx : Nat) (req : HttpRequest) :
    (h.behind t).setReq ctx req = (h.setReq ctx req).behind t := rfl

@[simp] theorem Handling.behind_setRes (ctx : Nat) (res : HttpResponse) :
    (h.behind t).setRes ctx res = (h.setRes ctx res).behind t := rfl

@[simp] theorem Handling.behind_setSendBuf (b : Buffer) :
    (h.behind t).setSendBuf b = (h.setSendBuf b).behind t := rfl

@[simp] theorem Handling.behind_setKeepAlive (b : Bool) :
    (h.behind t).setKeepAlive b = (h.setKeepAlive b).behind t := rfl

end

/-- What a call returns where the actions `t` were done before. -/
def resultBehind {α : Type} (t : List Action) (r : Except Fault (Handling × α)) :
    Except Fault (Handling × α) :=
  r.map fun x => (x.1.behind t, x.2)

/-! ## The protocol handler -/

section

variable (t : List Action) (h : Handling) (ctx : Nat)

theorem httpInit_behind :
    httpInit (h.behind t) = (httpInit h).map fun x => (x.1.behind t, x.2) := by
  unfold httpInit
  rw [Handling.behind_arena]
  cases arenaAllocRefBlock h.arena sizeofHttpContext with
  | none => rfl
  | some r => simp only [Option.map_some, Handling.behind, Handling.log, Handling.setCtx,
      List.append_assoc]

theorem httpParse_behind (parse : Parser) : httpParse parse (h.behind t) ctx =
    ((httpParse parse h ctx).1.behind t, (httpParse parse h ctx).2) := by
  unfold httpParse
  simp only [Handling.behind_log, Handling.behind_ctxs, Handling.behind_conn,
    Handling.behind_setReq]
  split
  · split <;> rfl
  · rfl

theorem httpProtocolRead_behind (parse : Parser) : httpProtocolRead parse (h.behind t) =
    ((httpProtocolRead parse h).1.behind t, (httpProtocolRead parse h).2) := by
  unfold httpProtocolRead
  rw [Handling.behind_conn]
  split
  · exact httpParse_behind t h _ parse
  · rw [httpInit_behind]
    cases httpInit h with
    | none => rfl
    | some r => exact httpParse_behind t r.1 r.2 parse

theorem initResponse_behind : initResponse (h.behind t) ctx = (initResponse h ctx).behind t := by
  unfold initResponse
  simp only [Handling.behind_log, Handling.behind_ctxs, Handling.behind_setKeepAlive,
    Handling.behind_setRes]
  rfl

theorem cacheFile_behind (fd : Nat) (name : List Byte) :
    cacheFile (h.behind t) fd name = (cacheFile h fd name).behind t := by
  unfold cacheFile
  simp only [Handling.behind_cache, Handling.behind_log]
  split <;> rfl

theorem getFd_behind (name : List Byte) :
    getFd (h.behind t) name = ((getFd h name).1.behind t, (getFd h name).2) := by
  unfold getFd
  simp only [Handling.behind_cache, Handling.behind_env, Handling.behind_log]
  split
  · rfl
  · split
    · rfl
    · split
      · rfl
      · split
        · rw [cacheFile_behind]
        · rfl

theorem respondFile_behind (fd stCode : Int) (name : List Byte) :
    respondFile (h.behind t) ctx fd stCode name = (respondFile h ctx fd stCode name).behind t := by
  unfold respondFile
  simp only [Handling.behind_ctxs, Handling.behind_setRes]
  split <;> rfl

theorem mainStatic_behind : mainStatic (h.behind t) ctx = (mainStatic h ctx).behind t := by
  unfold mainStatic
  simp only [Handling.behind_ctxs, Handling.behind_setRes, getFd_behind, respondFile_behind]
  split
  · rfl
  · split <;> rfl

theorem call_behind (f : RouterFunction) : f.call (h.behind t) ctx = (f.call h ctx).behind t := by
  cases f with
  | mainStatic => exact mainStatic_behind t h ctx
  | mainHome =>
    simp only [RouterFunction.call, mainHome, getFd_behind, respondFile_behind]
  | mainNotFound => rfl

theorem httpProtocolProcess_behind :
    httpProtocolProcess (h.behind t) = resultBehind t (httpProtocolProcess h) := by
  unfold httpProtocolProcess
  rw [Handling.behind_conn]
  split
  · rfl
  · simp only [initResponse_behind, Handling.behind_ctxs, call_behind]
    split <;> rfl

theorem send_behind : (h.behind t).send = resultBehind t h.send := by
  unfold Handling.send
  rw [Handling.behind_conn, Handling.behind_env]
  split
  · rfl
  · simp only [resultBehind, Except.map, Handling.behind, Handling.log, List.append_assoc]

theorem sendFd_behind :
    (h.behind t).sendFd ctx = ((h.sendFd ctx).1.behind t, (h.sendFd ctx).2) := by
  unfold Handling.sendFd
  simp only [Handling.behind, Handling.log, Handling.setRes, Handling.setCtx, List.append_assoc]

theorem sendBody_behind : sendBody (h.behind t) ctx = resultBehind t (sendBody h ctx) := by
  unfold sendBody
  simp only [Handling.behind_ctxs, sendFd_behind, send_behind]
  split
  · split
    · rfl
    · split <;> rfl
  · split
    · cases h.send with
      | error f => rfl
      | ok r =>
        simp only [resultBehind, Except.map]
        split
        · rfl
        · split <;> rfl
    · rfl

theorem sendHead_behind : sendHead (h.behind t) ctx = resultBehind t (sendHead h ctx) := by
  unfold sendHead
  rw [send_behind]
  cases h.send with
  | error f => rfl
  | ok r =>
    simp only [resultBehind, Except.map]
    split
    · rfl
    · split
      · rfl
      · simp only [Handling.behind_ctxs, Handling.behind_setRes, Handling.behind_conn,
          Handling.behind_setSendBuf, sendBody_behind]
        split
        · split <;> rfl
        · rfl

theorem startResponse_behind : startResponse (h.behind t) ctx = resultBehind t (startResponse h ctx) := by
  have hlen : ∀ res, bodyLength (h.behind t) res = bodyLength h res := fun _ => rfl
  unfold startResponse
  rw [Handling.behind_ctxs, hlen]
  split
  · rfl
  · simp only [Handling.behind_setRes, Handling.behind_ctxs, Handling.behind_conn,
      Handling.behind_setSendBuf, sendHead_behind]
    rfl

theorem httpProtocolWrite_behind :
    httpProtocolWrite (h.behind t) = resultBehind t (httpProtocolWrite h) := by
  unfold httpProtocolWrite
  rw [Handling.behind_conn]
  split
  · rfl
  · simp only [Handling.behind_log, Handling.behind_ctxs, Handling.behind_conn,
      Handling.behind_setSendBuf, Handling.behind_setRes, startResponse_behind, sendHead_behind,
      sendBody_behind]
    split <;> rfl

theorem closeLoop_behind (fuel : Nat) : ∀ h : Handling,
    closeLoop fuel (h.behind t) = resultBehind t (closeLoop fuel h) := by
  induction fuel with
  | zero =>
    intro h
    rfl
  | succ fuel ih =>
    intro h
    rw [closeLoop, closeLoop, send_behind]
    cases h.send with
    | error f => rfl
    | ok r =>
      simp only [resultBehind, Except.map]
      split
      · rfl
      · split
        · rfl
        · exact ih r.1

theorem httpProtocolClose_behind :
    httpProtocolClose (h.behind t) = resultBehind t (httpProtocolClose h) := by
  unfold httpProtocolClose
  rw [Handling.behind_conn]
  split
  · rfl
  · simp only [Handling.behind_conn, Handling.behind_setSendBuf, closeLoop_behind]
    generalize closeLoop _ _ = r
    cases r with
    | error f => rfl
    | ok r => simp only [resultBehind, Except.map, Handling.behind, Handling.log, List.append_assoc]

end

/-! ## The handlers of a connection -/

section

variable (t : List Action) (current max : Nat) (h : Handling)

theorem verdict_behind :
    verdict current max (h.behind t) = ((verdict current max h).1.behind t, (verdict current max h).2) :=
  rfl

/-- A read event does the same behind other actions. -/
theorem tcpOnRead_behind (parse : Parser) :
    tcpOnRead parse current max (h.behind t) = resultBehind t (tcpOnRead parse current max h) := by
  have hrecv : Handling.mk (connectionRecv h.conn h.env.recvs h.env.now).1 h.arena h.ctxs h.cache
      h.env (t ++ h.trace) = h.received.behind t := rfl
  have hplain : Handling.mk (connectionRecv h.conn h.env.recvs h.env.now).1 h.arena h.ctxs h.cache
      h.env h.trace = h.received := rfl
  unfold tcpOnRead
  simp only [Handling.behind_conn, Handling.behind_arena, Handling.behind_ctxs,
    Handling.behind_cache, Handling.behind_env, Handling.behind_trace, hrecv,
    hplain, httpProtocolRead_behind, httpProtocolProcess_behind]
  split
  · rfl
  · split
    · rfl
    · split
      · rfl
      · generalize httpProtocolProcess _ = r
        cases r with
        | error f => rfl
        | ok r =>
          simp only [resultBehind, Except.map, Handling.behind_env, Handling.behind_conn,
            Handling.behind_log, verdict_behind, httpProtocolClose_behind]
          split
          · rfl
          · split
            · split <;> rfl
            · split
              · generalize httpProtocolClose r.1 = closed
                cases closed with
                | error f => rfl
                | ok closed =>
                  simp only
                  split <;> rfl
              · rfl

/-- A write event does the same behind other actions. -/
theorem tcpOnWrite_behind :
    tcpOnWrite current max (h.behind t) = resultBehind t (tcpOnWrite current max h) := by
  unfold tcpOnWrite
  rw [Handling.behind_conn, httpProtocolWrite_behind]
  split
  · rfl
  · cases httpProtocolWrite h with
    | error f => rfl
    | ok r =>
      simp only [resultBehind, Except.map, Handling.behind_conn]
      cases r.1.conn.protocolCtx with
      | none => rfl
      | some ctx =>
        simp only [Handling.behind_ctxs, Handling.behind_env, Handling.behind_log]
        cases (r.1.ctxs ctx).httpRes.sendSt with
        | done =>
          simp only
          split <;> rfl
        | wait | head | body | error => rfl

end

/-! ## The contexts of other connections -/

section

variable {h h' : Handling} {ctx : Nat}

theorem WriteSteps.others (hsteps : WriteSteps ctx h h') : ∀ p, p ≠ ctx → h'.ctxs p = h.ctxs p := by
  induction hsteps with
  | refl => exact fun _ _ => rfl
  | tail _ hstep ih =>
    intro p hp
    rw [← ih p hp]
    cases hstep with
    | use | buffer => rfl
    | response => exact Handling.setRes_others _ _ hp
    | send h₁ ret hsend =>
      unfold Handling.send at hsend
      split at hsend <;> cases hsend
      rfl
    | sendFd => exact Handling.setRes_others _ _ hp

theorem initResponse_others (h : Handling) {p : Nat} (hp : p ≠ ctx) :
    (initResponse h ctx).ctxs p = h.ctxs p := Handling.setRes_others _ _ hp

/-- A read event changes no context but the one that it leaves to its connection. -/
theorem tcpOnRead_others {parse : Parser} {current max : Nat} {v : Verdict}
    (hread : tcpOnRead parse current max h = .ok (h', v)) {p : Nat}
    (hp : h'.conn.protocolCtx ≠ some p) : h'.ctxs p = h.ctxs p := by
  have hcases := tcpOnRead_cases hread
  generalize hr : (h', v) = r at hcases
  cases hcases with
  | unread | unparsed =>
    cases hr
    rfl
  | incomplete ctx h₁ v' _ hparses =>
    cases hr
    refine hparses.others p fun he => hp ?_
    rw [hparses.conn, he]
  | refused ctx h₁ h₂ ret _ hparses _ _ _ hclose =>
    cases hr
    have hown : (initResponse h₁ ctx).conn.protocolCtx = some ctx :=
      congrArg Connection.protocolCtx hparses.conn
    have hkept : h'.conn.protocolCtx = some ctx := by
      obtain ⟨hnone, -⟩ | ⟨q, g, -, htouches, rfl⟩ := httpProtocolClose_spec hclose
      · rw [hown] at hnone
        cases hnone
      · exact htouches.hold.ctx.trans hown
    have hne : p ≠ ctx := fun he => hp (he ▸ hkept)
    rw [httpProtocolClose_ctxs hclose, initResponse_others h₁ hne, hparses.others p hne]
    rfl
  | accepted ctx h₁ g _ hparses _ _ _ hproc hanswered =>
    cases hr
    have hown : h₁.conn.protocolCtx = some ctx := by rw [hparses.conn]
    have hne : p ≠ ctx := by
      intro he
      apply hp
      have hkept : g.conn.protocolCtx = h₁.conn.protocolCtx := by
        rw [hanswered.conn]
      exact hkept.trans (he ▸ hown)
    exact (httpProtocolProcess_others hown hproc p hne).trans (hparses.others p hne)

/-- A write event changes no context but that of its connection. -/
theorem tcpOnWrite_others {current max : Nat} {v : Verdict}
    (hwrite : tcpOnWrite current max h = .ok (h', v)) {p : Nat}
    (hp : h.conn.protocolCtx ≠ some p) : h'.ctxs p = h.ctxs p := by
  obtain ⟨-, h₁, ret, ctx, hsent, hown, hcase⟩ := tcpOnWrite_cases hwrite
  have hctx : h.conn.protocolCtx = some ctx := (Touches.write hsent).hold.ctx.symm.trans hown
  have hsame : h₁.ctxs p = h.ctxs p :=
    (WriteSteps.write hctx hsent).others p fun he => hp (he ▸ hctx)
  cases hcase with
  | reset => exact hsame
  | going => exact hsame
  | failed => exact hsame

end

end PingServer
