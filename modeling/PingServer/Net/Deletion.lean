import PingServer.Net.ConnRule

/-!
# Which calls delete their connection

What a handler call is about to do to its connection can be read off the events and the
state before it: `ReadEnds` and `WriteEnds` say when a read or a write comes to `on_error`.
-/

namespace PingServer

open ByteMem

/-! ## Reading -/

/-- A read event ends its connection: no request is left or no room for bytes, no memory for a
context, bytes that are no request, a request that is refused, a loaded server, or a client
that does not want to keep the connection. -/
def ReadEnds (parse : Parser) (current max : Nat) (h : Handling) : Prop :=
  h.conn.requestCount = h.conn.maxRequestCount ∨ h.conn.readBuf.len = h.conn.readBuf.cap ∨
    (h.conn.protocolCtx = none ∧ (arenaAllocRefBlock h.arena sizeofHttpContext).isNone = true) ∨
      ((h.received.parsed parse).ret < 0 ∧ (h.received.parsed parse).ret ≠ -2) ∨
        0 ≤ (h.received.parsed parse).ret ∧ (h.received.check parse ≠ 0 ∨
          max / 10 * 9 ≤ current ∨ (h.received.complete parse).minorVersion = 0)

section

variable {parse : Parser} {current max : Nat} {h : Handling} {r : Handling × Verdict}

theorem connectionRecv_fails {conn : Connection} {recvs : List RecvOutcome} {now : Nat}
    (hfails : (connectionRecv conn recvs now).2 ≠ 0) :
    conn.requestCount = conn.maxRequestCount ∨ conn.readBuf.len = conn.readBuf.cap := by
  unfold connectionRecv at hfails
  split at hfails
  · rename_i hfull
    exact .inl hfull.symm
  · simp only at hfails
    split at hfails
    · exact .inr ‹_›
    · exact absurd rfl hfails

/-- What `http_protocol_read` returns. -/
theorem httpParse_ret {ctx : Nat} (hown : h.conn.protocolCtx = some ctx) :
    (httpParse parse h ctx).2 = if (h.parsed parse).ret < 0 then
      if (h.parsed parse).ret ≠ -2 then errorHttpParse else errorHttpNeedMore else 0 := by
  have hparsed : h.parsed parse = parse h.conn.readBuf.bytes (h.ctxs ctx).httpReq.lastLen := by
    simp only [Handling.parsed, Handling.partialRequest, hown]
  rw [hparsed]
  by_cases hneg : (parse h.conn.readBuf.bytes (h.ctxs ctx).httpReq.lastLen).ret < 0
  · by_cases htwo : (parse h.conn.readBuf.bytes (h.ctxs ctx).httpReq.lastLen).ret = -2
    · simp [httpParse, Handling.log, htwo]
    · simp [httpParse, Handling.log, hneg, htwo]
  · simp [httpParse, Handling.log, hneg]

theorem httpProtocolRead_ret (parse : Parser) (h : Handling) :
    (h.conn.protocolCtx = none ∧ (arenaAllocRefBlock h.arena sizeofHttpContext).isNone = true ∧
        (httpProtocolRead parse h).2 = errorMemFull) ∨
      ¬ (h.conn.protocolCtx = none ∧
          (arenaAllocRefBlock h.arena sizeofHttpContext).isNone = true) ∧
        (httpProtocolRead parse h).2 = if (h.parsed parse).ret < 0 then
          if (h.parsed parse).ret ≠ -2 then errorHttpParse else errorHttpNeedMore else 0 := by
  unfold httpProtocolRead
  cases hctx : h.conn.protocolCtx with
  | some ctx => exact .inr ⟨fun hnone => (by cases hnone.1), httpParse_ret hctx⟩
  | none =>
    unfold httpInit
    cases halloc : arenaAllocRefBlock h.arena sizeofHttpContext with
    | none => exact .inl ⟨rfl, rfl, rfl⟩
    | some p =>
      refine .inr ⟨fun hnone => (by cases hnone.2), ?_⟩
      have hret := @httpParse_ret parse ((({ h with
        arena := p.1, conn := { h.conn with protocolCtx := some p.2 } } : Handling).setCtx p.2
          HttpContext.zero).log (.allocCtx p.2)) p.2 rfl
      simp only [Handling.parsed, Handling.partialRequest, Handling.log, Handling.setCtx,
        ↓reduceIte, hctx] at hret ⊢
      exact hret

/-- A read event closes its connection exactly if it has a reason to. -/
theorem tcpOnRead_ends (hread : tcpOnRead parse current max h = .ok r) :
    r.2 = .close ↔ ReadEnds parse current max h := by
  unfold ReadEnds
  have hmemory : (h.received.conn.protocolCtx = none ∧
      (arenaAllocRefBlock h.received.arena sizeofHttpContext).isNone = true) ↔
        (h.conn.protocolCtx = none ∧
          (arenaAllocRefBlock h.arena sizeofHttpContext).isNone = true) := by
    rw [show h.received.conn.protocolCtx = h.conn.protocolCtx from
      (connectionRecv_hold h.conn h.env.recvs h.env.now).ctx]
    rfl
  cases tcpOnRead_runs hread with
  | unread hfailed =>
    refine iff_of_true rfl ?_
    obtain hfull | hfull := connectionRecv_fails hfailed.2
    · exact .inl hfull
    · exact .inr (.inl hfull)
  | unparsed h₁ ret v hrun hneg hkeep =>
    have hrecv := hrun.receives
    have hcalled := httpProtocolRead_ret parse h.received
    rw [hrun.read, hmemory] at hcalled
    obtain ⟨hnone, hfull, hret⟩ | ⟨hroom, hret⟩ := hcalled
    · rw [← hrecv.ctx]
      simp only at hret
      refine iff_of_true ?_ (.inr (.inr (.inl ⟨hnone, hfull⟩)))
      cases v with
      | close => rfl
      | keep =>
        rw [hkeep.1 rfl] at hret
        exact absurd hret (by decide)
    · simp only at hret
      have hparsed : (h.received.parsed parse).ret < 0 := by
        by_contra hpos
        rw [if_neg hpos] at hret
        omega
      rw [if_pos hparsed] at hret
      simp only [hrecv.room, hrecv.fits, hroom, hparsed, not_le.2 hparsed, false_or, true_and,
        false_and, or_false]
      cases v with
      | close =>
        refine iff_of_true rfl fun htwo => ?_
        rw [if_neg (not_not_intro htwo)] at hret
        cases hkeep.2 hret
      | keep =>
        refine iff_of_false Verdict.noConfusion fun hne => ?_
        rw [if_pos hne, hkeep.1 rfl] at hret
        exact absurd hret (by decide)
  | refused h₁ h₂ h₃ ret closeRet hrun hpos hproc hclose =>
    obtain ⟨ctx, a, hall, hreq⟩ := hrun.complete hpos
    refine iff_of_true rfl (.inr (.inr (.inr (.inr ⟨hall.parsed, .inl fun hzero => ?_⟩))))
    obtain ⟨-, hcheck⟩ | hsend := httpProtocolProcess_ret hproc
    · rw [a.conn, Option.map_some, check_complete hreq] at hcheck
      exact hcheck hzero
    · cases hsend
  | answered h₁ h₂ ret v hrun hpos hproc hv =>
    obtain ⟨ctx, a, hall, hreq⟩ := hrun.complete hpos
    have hrecv := hrun.receives
    have hown : h₁.conn.protocolCtx = some ctx := by rw [a.conn]
    have hsame := check_complete hreq
    by_cases hcheck : httpProtcolCheck (some (h₁.ctxs ctx)) = 0
    · obtain ⟨g, hsends, hanswered⟩ := httpProtocolProcess_answers_with hown hcheck
      obtain ⟨rfl, -⟩ := Prod.mk.inj (Except.ok.inj (hsends.symm.trans hproc))
      have hst : g.conn.connSt = .reading := by
        rw [hanswered.conn, a.conn]
        exact hrecv.status
      have honce : g.conn.isKeepAlive = false ↔ (h.received.complete parse).minorVersion = 0 := by
        rw [hanswered.conn, hreq]
        exact decide_eq_false_iff_not.trans not_not
      have hroom : ¬ (h.conn.protocolCtx = none ∧
          (arenaAllocRefBlock h.arena sizeofHttpContext).isNone = true) := by
        rintro ⟨hnone, hfull⟩
        have hsome := hall.memory (hrecv.ctx.trans hnone)
        rw [Option.isNone_iff_eq_none] at hfull
        have harena : h.received.arena = h.arena := rfl
        rw [harena, hfull] at hsome
        cases hsome
      have hclose : v = .close ↔ isCloseConnection current max g.conn = true := by
        rw [hv]
        exact verdict_close
      rw [hsame] at hcheck
      simp only [hclose, isCloseConnection_reading hst, honce, hrecv.room, hrecv.fits, hroom, hcheck,
        hall.parsed, not_lt.2 hall.parsed, false_or, false_and, true_and, ne_eq, not_true_eq_false]
    · rw [httpProtocolProcess_refuses hown hcheck] at hproc
      cases hproc

end

/-! ## Writing -/

/-- How long a body the head announces. -/
def lengthShown (res : HttpResponse) (env : Env) : Nat := if 0 < res.bodyFd then env.fileSize else 0

/-- A write has a head to send, and a request left for it. -/
def SendsHead (conn : Connection) (res : HttpResponse) : Prop :=
  res.sendSt ≠ .body ∧ conn.requestCount ≠ conn.maxRequestCount

/-- A write event ends its connection: a loaded server, a client that does not want to keep the
connection, a socket that does not take the whole head, or an idle connection whose requests
were few, which passes for one that is done. -/
def WriteEnds (current max : Nat) (conn : Connection) (res : HttpResponse) (env : Env) : Prop :=
  max / 10 * 9 ≤ current ∨ conn.isKeepAlive = false ∨
    (SendsHead conn res ∧ (conn.requestCount ≤ 1 ∨
      socketTakes env.sends (headOf conn res (lengthShown res env)).length = false)) ∨
        ¬ SendsHead conn res ∧ conn.requestCount ≤ 2 ∧ conn.connSt = .idle

/-- What a write leaves of its connection, and of the state of its response. -/
inductive WriteLeaves (conn : Connection) (res : HttpResponse) (env : Env) (conn' : Connection) :
    HttpSendRet → Prop
  | same : ¬ SendsHead conn res → conn'.isKeepAlive = conn.isKeepAlive →
      conn'.requestCount = conn.requestCount → conn'.connSt = conn.connSt →
      WriteLeaves conn res env conn' .body
  | taken : SendsHead conn res → conn'.isKeepAlive = conn.isKeepAlive →
      socketTakes env.sends (headOf conn res (lengthShown res env)).length = true →
      conn'.requestCount = conn.requestCount + 1 → conn'.connSt = .idle →
      WriteLeaves conn res env conn' .body
  | refused : SendsHead conn res →
      socketTakes env.sends (headOf conn res (lengthShown res env)).length = false →
      WriteLeaves conn res env conn' .error

section

variable {current max : Nat} {h h' : Handling} {ctx : Nat} {ret : Int}

theorem bodyLength_shown {res : HttpResponse} {len : Nat}
    (hlen : bodyLength h res = .ok len) (hne : res.bodyFd ≠ 0) : len = lengthShown res h.env := by
  unfold bodyLength at hlen
  unfold PingServer.lengthShown
  rw [if_pos hne] at hlen
  cases hlen
  split
  · rw [if_neg (by omega)]
  · rw [if_pos (by omega)]

theorem startResponse_leaves (hrouted : (h.ctxs ctx).httpRes.Routed) (hdrained : h.conn.Drained)
    (hsize : h.env.fileSize < 2 ^ 63) (hst : (h.ctxs ctx).httpRes.sendSt ≠ .body)
    (hstart : startResponse h ctx = .ok (h', ret)) :
    WriteLeaves h.conn (h.ctxs ctx).httpRes h.env h'.conn (h'.ctxs ctx).httpRes.sendSt := by
  obtain ⟨-, -, hlen⟩ | ⟨hne, len, hlen, htext, hfile⟩ := hrouted.bodyLength h
  · unfold startResponse at hstart
    rw [hlen] at hstart
    cases hstart
  have hsmall : (headOf h.conn (h.ctxs ctx).httpRes len).length < 256 :=
    headOf_length_lt hrouted.printable (by omega)
  have hannounced := bodyLength_shown hlen hne
  have hunsent : h.conn.requestCount ≠ h.conn.maxRequestCount →
      (h.printed ctx len).conn.sendBuf.len - (h.printed ctx len).conn.sendBuf.idx =
        (headOf h.conn (h.ctxs ctx).httpRes (lengthShown (h.ctxs ctx).httpRes h.env)).length := by
    intro hroom
    have hidx := hdrained.resolve_left hroom
    rw [Handling.printed_conn, ← hannounced]
    simp only [Buffer.print]
    omega
  have hcases := startResponse_cases hlen hdrained (by omega) htext
  rw [hstart] at hcases
  generalize hresult : (Except.ok (h', ret) : Except Fault (Handling × Int)) = r at hcases
  cases hcases with
  | passed conn rest bytes hpassed hsame hdrained' =>
    have hcase := sendBody_ok hdrained' hresult.symm
    obtain ⟨off, hres⟩ := hcase.httpRes
    have hconn : h'.conn = conn := hcase.conn
    have hkeep : conn.isKeepAlive = h.conn.isKeepAlive := by
      rw [hsame.keepAlive, Handling.printed_conn]
    rw [hres, hconn, Handling.sentHead_httpRes]
    cases hpassed with
    | full hfull hcount hidle =>
      rw [Handling.printed_conn] at hfull hcount hidle
      exact .same (fun hhead => hhead.2 hfull) hkeep hcount hidle
    | taken hroom htakes hcount hidle =>
      rw [Handling.printed_env, Buffer.unsent_length] at htakes
      rw [Handling.printed_conn] at hroom hcount
      rw [hunsent hroom] at htakes
      exact .taken ⟨hst, hroom⟩ hkeep htakes hcount hidle
  | refused k conn rest hroom htakes hk hsame hcount =>
    cases hresult
    rw [Handling.printed_conn] at hroom
    rw [Handling.printed_env, hunsent hroom] at htakes
    rw [Handling.sentHead_httpRes]
    exact .refused ⟨hst, hroom⟩ htakes

theorem httpProtocolWrite_leaves (hctx : h.conn.protocolCtx = some ctx)
    (hready : (h.ctxs ctx).httpRes.Ready) (hdrained : h.conn.Drained)
    (hsize : h.env.fileSize < 2 ^ 63) (hwrite : httpProtocolWrite h = .ok (h', ret)) :
    WriteLeaves h.conn (h.ctxs ctx).httpRes h.env h'.conn (h'.ctxs ctx).httpRes.sendSt := by
  have hagain : (h.ctxs ctx).httpRes.sendSt = .done ∨ (h.ctxs ctx).httpRes.sendSt = .error →
      WriteLeaves h.conn (h.ctxs ctx).httpRes h.env h'.conn (h'.ctxs ctx).httpRes.sendSt := by
    intro hst
    rw [httpProtocolWrite_again hctx hst] at hwrite
    have hbody : (h.ctxs ctx).httpRes.sendSt ≠ .body := by
      obtain hst | hst := hst <;> rw [hst] <;> exact HttpSendRet.noConfusion
    exact @startResponse_leaves (h.log (.useCtx ctx)) h' ctx ret hready.routed hdrained hsize hbody
      hwrite
  cases hst : (h.ctxs ctx).httpRes.sendSt with
  | head => exact absurd hst hready.whole
  | wait =>
    rw [httpProtocolWrite_wait hctx hst] at hwrite
    have hkind : (h.ctxs ctx).httpRes.SameKind ((h.begun ctx).ctxs ctx).httpRes := by
      rw [Handling.begun_httpRes]
      exact ⟨rfl, rfl, rfl, rfl⟩
    have hleaves := @startResponse_leaves (h.begun ctx) h' ctx ret (hready.routed.same hkind)
      (.inr rfl) hsize (by rw [Handling.begun_httpRes]; exact HttpSendRet.noConfusion) hwrite
    rw [Handling.begun_httpRes] at hleaves
    have hhead : ∀ conn : Connection, SendsHead conn { (h.ctxs ctx).httpRes with sendSt := .head } ↔
        SendsHead conn (h.ctxs ctx).httpRes := by
      intro conn
      simp [SendsHead, hst]
    generalize (h'.ctxs ctx).httpRes.sendSt = st at hleaves ⊢
    cases hleaves with
    | same hnot hkeep hcount hidle => exact .same (fun hs => hnot ((hhead _).2 hs)) hkeep hcount hidle
    | taken hs hkeep htakes hcount hidle => exact .taken ((hhead _).1 hs) hkeep htakes hcount hidle
    | refused hs htakes => exact .refused ((hhead _).1 hs) htakes
  | body =>
    rw [httpProtocolWrite_body hctx hst] at hwrite
    have hcase := @sendBody_ok (h.log (.useCtx ctx)) ctx _ hdrained hwrite
    obtain ⟨off, hres⟩ := hcase.httpRes
    have hconn : h'.conn = h.conn := hcase.conn
    rw [hres, hconn]
    have hbody : ((h.log (.useCtx ctx)).ctxs ctx).httpRes.sendSt = .body := hst
    rw [hbody]
    exact .same (fun hs => hs.1 hst) rfl rfl rfl
  | done => exact hagain (.inl hst)
  | error => exact hagain (.inr hst)

/-- A write event closes its connection exactly if it has a reason to. -/
theorem tcpOnWrite_ends {r : Handling × Verdict} (hctx : h.conn.protocolCtx = some ctx)
    (hready : (h.ctxs ctx).httpRes.Ready) (hdrained : h.conn.Drained)
    (hst : h.conn.connSt ≠ .closing) (hsize : h.env.fileSize < 2 ^ 63)
    (hwrite : tcpOnWrite current max h = .ok r) :
    r.2 = .close ↔ WriteEnds current max h.conn (h.ctxs ctx).httpRes h.env := by
  obtain ⟨-, h₁, ret, ctx₁, hw, hctx₁, hcase⟩ := tcpOnWrite_cases hwrite
  obtain rfl : ctx = ctx₁ :=
    Option.some.inj (hctx.symm.trans ((Touches.write hw).hold.ctx.symm.trans hctx₁))
  have hleaves := httpProtocolWrite_leaves hctx hready hdrained hsize hw
  have hgoing : (h₁.ctxs ctx).httpRes.sendSt = .body → r = verdict current max h₁ := by
    intro hbody
    cases hcase with
    | reset hdone =>
      rw [hbody] at hdone
      cases hdone
    | going => rfl
    | failed herror =>
      rw [hbody] at herror
      cases herror
  generalize hleft : (h₁.ctxs ctx).httpRes.sendSt = st at hleaves
  unfold WriteEnds
  cases hleaves with
  | same hnot hkeep hcount hidle =>
    rw [hgoing hleft, verdict_close]
    cases halive : h.conn.isKeepAlive with
    | false => exact iff_of_true (isCloseConnection_once (hkeep.trans halive)) (.inr (.inl rfl))
    | true =>
      rw [isCloseConnection_keepAlive (hkeep.trans halive) (hidle ▸ hst), hcount, hidle]
      simp [hnot]
  | taken hs hkeep htakes hcount hidle =>
    rw [hgoing hleft, verdict_close]
    cases halive : h.conn.isKeepAlive with
    | false => exact iff_of_true (isCloseConnection_once (hkeep.trans halive)) (.inr (.inl rfl))
    | true =>
      rw [isCloseConnection_keepAlive (hkeep.trans halive) (hidle ▸ ConnectionStatus.noConfusion),
        hcount, hidle]
      simp [hs, htakes]
  | refused hs htakes =>
    have hr : r = (h₁, .close) := by
      cases hcase with
      | reset hdone =>
        rw [hleft] at hdone
        cases hdone
      | going _ hne => exact absurd hleft hne
      | failed => rfl
    rw [hr]
    exact iff_of_true rfl (.inr (.inr (.inl ⟨hs, .inr htakes⟩)))

end

/-! ## All handler calls -/

/-- The call deletes its connection. -/
def Ends (parse : Parser) (s : TcpServer) (c : HandlerCall) : Prop :=
  match c.context, c.kind with
  | .tcp i, .onRead => ReadEnds parse s.currentConnections s.maxConnections (s.handling i c.env)
  | .tcp i, .onWrite =>
    match (s.connArray i).protocolCtx with
    | some ctx => WriteEnds s.currentConnections s.maxConnections (s.connArray i)
        (s.ctxs ctx).httpRes c.env
    | none => False
  | .timer j, .onRead =>
    match (s.eventTimerArray j).tcpEvent with
    | some i => timedOut (s.connArray i) c.env.now (s.eventTimerArray j).outTime = true
    | none => False
  | .tcp _, .onError | .timer _, .onError => True
  | _, _ => False

/-- No function of `connection.c` but `connection_close` sets the status. -/
theorem notClosing_rule : ConnRule fun c => c.connSt ≠ .closing := by
  constructor
  · intro c c' hne _ _ hst
    rw [hst]
    exact hne
  · intro c recvs now hne
    obtain heq | ⟨-, -, -, hst⟩ := connectionRecv_counts c recvs now
    · rw [heq]
      exact hne
    · rw [hst]
      exact ConnectionStatus.noConfusion
  · intro c sends now s hsend hne
    obtain heq | ⟨-, -, -, hst | hst⟩ := connectionSend_counts hsend
    · rw [heq]
      exact hne
    · rw [hst]
      exact ConnectionStatus.noConfusion
    · rw [hst]
      exact ConnectionStatus.noConfusion
  · intro c c' fd a a' connId now ret hcreate hret
    rw [(connectionCreate_counts hcreate hret).2.2]
    exact ConnectionStatus.noConfusion

/-- In every run, a call that takes a branch in which its connection is deleted is one that
`Ends` it. -/
theorem closes_ends {parse : Parser} {s₀ s : TcpServer} {returned : List EventContext}
    {c : HandlerCall} (hnone : s₀.opened = [])
    (hrun : Machine.Reaches (Machine.graph (loopStep parse)) Sized ⟨s₀, []⟩ ⟨s, returned⟩)
    (hmem : c.context ∈ returned) (hsize : c.env.fileSize < 2 ^ 63)
    (hcloses : closes parse s c = true) : Ends parse s c := by
  have hserves : AllServe s returned := loop_serves hnone hrun
  have hopen : AllConns (fun c => c.connSt ≠ .closing) s returned := notClosing_rule.loop hnone hrun
  obtain ⟨context, kind, env, accepts⟩ := c
  cases context with
  | listen => cases kind <;> cases hcloses
  | tcp i =>
    cases kind with
    | onRead =>
      simp only [closes] at hcloses
      split at hcloses
      · exact (tcpOnRead_ends ‹_›).1 rfl
      · cases hcloses
    | onWrite =>
      simp only [closes] at hcloses
      split at hcloses
      · rename_i h hwrite
        have huse : InUse s returned i := .inr hmem
        have hhandler : (s.connArray i).protocolHandler = true := tcpOnWrite_handler hwrite
        obtain ⟨hdrained, hready⟩ := hserves i huse hhandler
        obtain ⟨-, h₁, ret, ctx, hw, hctx, -⟩ := tcpOnWrite_cases hwrite
        have hown : (s.connArray i).protocolCtx = some ctx := (Touches.write hw).hold.ctx.symm.trans hctx
        have hends := (@tcpOnWrite_ends _ _ (s.handling i env) ctx _ hown (hready ctx hown) hdrained
          (hopen i huse hhandler) hsize hwrite).1 rfl
        simp only [Ends, hown]
        exact hends
      · cases hcloses
    | onError => trivial
  | timer j =>
    cases kind with
    | onRead =>
      cases hi : (s.eventTimerArray j).tcpEvent with
      | none =>
        simp only [closes, hi] at hcloses
        cases hcloses
      | some i =>
        simp only [closes, hi] at hcloses
        simp only [Ends, hi]
        exact hcloses
    | onWrite => cases hcloses
    | onError => trivial

end PingServer
