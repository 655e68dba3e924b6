import PingServer.Net.Event
import PingServer.Protocol.HttpFrame

/-!
# What one handler call can do

`tcpOnRead_runs` and `tcpOnWrite_cases` say once how far an event of a connection
comes, and `dispatch_cases` what a handler call does to the server: nothing, work on
one connection, the deletion of one connection, or a run of the accept loop. Every
invariant of the server is derived from these cases.
-/

namespace PingServer

/-! ## Handlers of a connection -/

/-- The request just read is one that `http_protcol_check` refuses. -/
def Rejects (parse : Parser) (h : Handling) : Prop :=
  let recv := connectionRecv h.conn h.env.recvs h.env.now
  let r := httpProtocolRead parse { h with conn := recv.1 }
  ¬ (recv.2 ≠ eagain ∧ recv.2 ≠ 0) ∧ ¬ recv.1.protocolHandler = false ∧ ¬ r.2 < 0 ∧
    httpProtcolCheck (r.1.conn.protocolCtx.map r.1.ctxs) ≠ 0

/-- `http_protocol_process` asks to close exactly for the requests it refuses. -/
theorem httpProtocolProcess_ret {h h' : Handling} {ret : Int}
    (hproc : httpProtocolProcess h = .ok (h', ret)) :
    ret = tcpProtoClose ∧ httpProtcolCheck (h.conn.protocolCtx.map h.ctxs) ≠ 0 ∨
      ret = tcpProtoSend := by
  unfold httpProtocolProcess at hproc
  split at hproc
  · cases hproc
  · rename_i ctx hctx
    simp only at hproc
    split at hproc <;> cases hproc
    · rename_i hcheck
      refine .inl ⟨rfl, ?_⟩
      -- the check reads the request alone, which the initialisation keeps
      have hreq : ((initResponse h ctx).ctxs ctx).httpReq = (h.ctxs ctx).httpReq := by
        simp [initResponse, Handling.setRes, Handling.setCtx, Handling.setKeepAlive, Handling.log]
      rw [hctx]
      simpa only [Option.map_some, httpProtcolCheck, hreq] using hcheck
    · exact .inr rfl

theorem httpProtocolProcess_ctx {h h' : Handling} {ret : Int}
    (hproc : httpProtocolProcess h = .ok (h', ret)) : ∃ ctx, h.conn.protocolCtx = some ctx := by
  unfold httpProtocolProcess at hproc
  split at hproc
  · cases hproc
  · rename_i ctx hctx
    exact ⟨ctx, hctx⟩

/-- The handling after `connection_recv`. -/
def Handling.received (h : Handling) : Handling :=
  { h with conn := (connectionRecv h.conn h.env.recvs h.env.now).1 }

/-- A read event has got bytes, or could have, and `on_read` of the protocol has run. -/
structure ProtocolRead (parse : Parser) (h h₁ : Handling) (ret : Int) : Prop where
  received : ¬ ((connectionRecv h.conn h.env.recvs h.env.now).2 ≠ eagain ∧
    (connectionRecv h.conn h.env.recvs h.env.now).2 ≠ 0)
  handler : h.received.conn.protocolHandler = true
  read : httpProtocolRead parse h.received = (h₁, ret)

/-- How far a read event comes. -/
inductive ReadRun (parse : Parser) (current max : Nat) (h : Handling) : Handling × Verdict → Prop
  | unread : (connectionRecv h.conn h.env.recvs h.env.now).2 ≠ eagain ∧
      (connectionRecv h.conn h.env.recvs h.env.now).2 ≠ 0 →
      ReadRun parse current max h (h.received, .close)
  | unparsed (h₁ : Handling) (ret : Int) (v : Verdict) : ProtocolRead parse h h₁ ret → ret < 0 →
      (v = .keep ↔ ret = errorHttpNeedMore) → ReadRun parse current max h (h₁, v)
  | refused (h₁ h₂ h₃ : Handling) (ret closeRet : Int) : ProtocolRead parse h h₁ ret → 0 ≤ ret →
      httpProtocolProcess h₁ = .ok (h₂, tcpProtoClose) →
      httpProtocolClose h₂ = .ok (h₃, closeRet) → ReadRun parse current max h (h₃, .close)
  | answered (h₁ h₂ : Handling) (ret : Int) (v : Verdict) : ProtocolRead parse h h₁ ret → 0 ≤ ret →
      httpProtocolProcess h₁ = .ok (h₂, tcpProtoSend) →
      v = (verdict current max (h₂.log (.epollMod h₂.conn.fd true))).2 →
      ReadRun parse current max h (h₂.log (.epollMod h₂.conn.fd true), v)

theorem tcpOnRead_runs {parse : Parser} {current max : Nat} {h : Handling} {r : Handling × Verdict}
    (hread : tcpOnRead parse current max h = .ok r) : ReadRun parse current max h r := by
  have hreceived : h.received = { h with conn := (connectionRecv h.conn h.env.recvs h.env.now).1 } :=
    rfl
  unfold tcpOnRead at hread
  simp only [← hreceived] at hread
  split at hread
  · rename_i hfailed
    cases hread
    exact .unread hfailed
  rename_i hok
  split at hread
  · cases hread
  rename_i hhandler
  generalize hcall : httpProtocolRead parse h.received = called at hread
  obtain ⟨h₁, ret⟩ := called
  have hrun : ProtocolRead parse h h₁ ret := ⟨hok, Bool.of_not_eq_false hhandler, hcall⟩
  simp only at hread
  split at hread
  · rename_i hneg
    cases hread
    refine .unparsed h₁ ret _ hrun hneg ?_
    by_cases hmore : ret = errorHttpNeedMore <;> simp [hmore]
  rename_i hpos
  split at hread
  · cases hread
  rename_i h₂ protoRet hproc
  obtain ⟨rfl, -⟩ | rfl := httpProtocolProcess_ret hproc
  · rw [if_neg (by decide), if_neg (by decide), if_pos rfl] at hread
    split at hread
    · cases hread
    · rename_i h₃ closeRet hclose
      split at hread <;> cases hread
      exact .refused h₁ h₂ h₃ ret closeRet hrun (not_lt.1 hpos) hproc hclose
  · rw [if_neg (by decide), if_pos rfl] at hread
    split at hread <;> cases hread
    exact .answered h₁ h₂ ret _ hrun (not_lt.1 hpos) hproc rfl

theorem ProtocolRead.gains {parse : Parser} {h h₁ : Handling} {ret : Int}
    (hrun : ProtocolRead parse h h₁ ret) : Gains h h₁ := by
  have hrecv : Touches h h.received := .of_eq (connectionRecv_hold _ _ _) rfl rfl
  have hgains := httpProtocolRead_gains (h := h.received) parse
  rw [hrun.read] at hgains
  rcases hgains with a | ⟨h₀, h₁, ctx, a, hrest⟩
  · exact .inl (hrecv.trans a)
  · exact .inr ⟨h₀, h₁, ctx, hrecv.trans a, hrest⟩

/-- A request that is answered with a close is one that is refused. -/
theorem ProtocolRead.rejects {parse : Parser} {h h₁ h₂ : Handling} {ret : Int}
    (hrun : ProtocolRead parse h h₁ ret) (hpos : 0 ≤ ret)
    (hproc : httpProtocolProcess h₁ = .ok (h₂, tcpProtoClose)) : Rejects parse h := by
  refine ⟨hrun.received, (Bool.not_eq_false _).mpr hrun.handler, ?_⟩
  change ¬ (httpProtocolRead parse h.received).2 < 0 ∧ httpProtcolCheck
    ((httpProtocolRead parse h.received).1.conn.protocolCtx.map
      (httpProtocolRead parse h.received).1.ctxs) ≠ 0
  rw [hrun.read]
  obtain ⟨-, hcheck⟩ | hsend := httpProtocolProcess_ret hproc
  · exact ⟨not_lt.2 hpos, hcheck⟩
  · cases hsend

/-- What `tcpserver_tcp_on_read` can do to its connection. -/
theorem tcpOnRead_spec {parse : Parser} {current max : Nat} {h h' : Handling} {v : Verdict}
    (hread : tcpOnRead parse current max h = .ok (h', v)) :
    Gains h h' ∨ v = .close ∧ Rejects parse h ∧ ∃ h₁, Gains h h₁ ∧ Recycles h₁ h' := by
  cases tcpOnRead_runs hread with
  | unread => exact .inl (.inl (.of_eq (connectionRecv_hold _ _ _) rfl rfl))
  | unparsed h₁ ret v hrun => exact .inl hrun.gains
  | refused h₁ h₂ h₃ ret closeRet hrun hpos hproc hclose =>
    refine .inr ⟨rfl, hrun.rejects hpos hproc, h₂, hrun.gains.touches (Touches.process hproc), ?_⟩
    obtain ⟨ctx, hctx⟩ := httpProtocolProcess_ctx hproc
    have hctx₂ := (Touches.process hproc).hold.ctx.trans hctx
    rcases httpProtocolClose_spec hclose with ⟨hnone, -⟩ | hrec
    · rw [hctx₂] at hnone
      cases hnone
    · exact hrec
  | answered h₁ h₂ ret v hrun hpos hproc =>
    have hprocessed := hrun.gains.touches (Touches.process hproc)
    exact .inl (hprocessed.touches ((Touches.refl _).log (by exact trivial)))

/-- What `tcpserver_tcp_on_write` makes of the response that a write leaves. -/
inductive WriteVerdict (current max : Nat) (h : Handling) (ctx : Nat) : Handling × Verdict → Prop
  | reset : (h.ctxs ctx).httpRes.sendSt = .done →
      WriteVerdict current max h ctx (verdict current max { h.log (.epollMod h.conn.fd false) with
        conn := { h.conn with
          sendBuf := bufferClean h.conn.sendBuf, readBuf := bufferClean h.conn.readBuf } })
  | going : (h.ctxs ctx).httpRes.sendSt ≠ .done → (h.ctxs ctx).httpRes.sendSt ≠ .error →
      WriteVerdict current max h ctx (verdict current max h)
  | failed : (h.ctxs ctx).httpRes.sendSt = .error → WriteVerdict current max h ctx (h, .close)

theorem tcpOnWrite_cases {current max : Nat} {h : Handling} {r : Handling × Verdict}
    (hwrite : tcpOnWrite current max h = .ok r) : h.conn.protocolHandler = true ∧
      ∃ h₁ ret ctx, httpProtocolWrite h = .ok (h₁, ret) ∧ h₁.conn.protocolCtx = some ctx ∧
        WriteVerdict current max h₁ ctx r := by
  unfold tcpOnWrite at hwrite
  split at hwrite
  · cases hwrite
  rename_i hhandler
  split at hwrite
  · cases hwrite
  rename_i h₁ ret hsent
  split at hwrite
  · cases hwrite
  rename_i ctx hctx
  refine ⟨Bool.of_not_eq_false hhandler, h₁, ret, ctx, hsent, hctx, ?_⟩
  cases hst : (h₁.ctxs ctx).httpRes.sendSt with
  | done =>
    simp only [hst] at hwrite
    split at hwrite
    · cases hwrite
      exact .reset hst
    · cases hwrite
  | error =>
    simp only [hst] at hwrite
    cases hwrite
    exact .failed hst
  | wait | head | body =>
    simp only [hst] at hwrite
    cases hwrite
    refine .going ?_ ?_ <;> (rw [hst]; exact HttpSendRet.noConfusion)

theorem tcpOnWrite_spec {current max : Nat} {h h' : Handling} {v : Verdict}
    (hwrite : tcpOnWrite current max h = .ok (h', v)) : Touches h h' := by
  obtain ⟨-, h₁, ret, ctx, hsent, -, hcase⟩ := tcpOnWrite_cases hwrite
  have a := Touches.write hsent
  cases hcase with
  | reset => exact (a.log (by exact trivial)).trans (.of_eq ⟨rfl, rfl, rfl, rfl, rfl⟩ rfl rfl)
  | going => exact a
  | failed => exact a

theorem Gains.handler {h h' : Handling} (g : Gains h h') :
    h'.conn.protocolHandler = h.conn.protocolHandler := by
  rcases g with a | ⟨h₀, h₁, ctx, a, -, hinit, b⟩
  · exact a.hold.handler
  · obtain ⟨_, -, -, hconn, -⟩ := httpInit_some hinit
    rw [b.hold.handler, hconn]
    exact a.hold.handler

theorem Recycles.handler {h h' : Handling} (r : Recycles h h') :
    h'.conn.protocolHandler = h.conn.protocolHandler := by
  obtain ⟨ctx, h₁, -, a, rfl⟩ := r
  exact a.hold.handler

/-! ## Deleting a connection -/

/-- What `tcpserver_delete_tcp_and_timer` has done to the pair `(i, j)`, where
`cleared` is the handling after `connection_clear_protocol`. -/
structure Deleted (s t : TcpServer) (i j : Nat) (cleared : Handling) : Prop where
  tcpIds : idListAdd s.tcpIdList i = some t.tcpIdList
  timerIds : idListAdd s.timerIdList j = some t.timerIdList
  opened : t.opened = s.opened.filter (· ≠ (i, j))
  dead : t.dead = .tcp i :: .timer j :: s.dead
  current : t.currentConnections = dec64 s.currentConnections
  max : t.maxConnections = s.maxConnections
  running : t.running = s.running
  timeEvent : ∀ k, (t.eventTcpArray k).timeEvent =
    if k = i then none else (s.eventTcpArray k).timeEvent
  tcpEvent : ∀ k, (t.eventTimerArray k).tcpEvent =
    if k = j then none else (s.eventTimerArray k).tcpEvent
  conn : t.connArray i = { cleared.conn with connSt := .closing }
  others : ∀ k, k ≠ i → t.connArray k = s.connArray k
  arena : t.memArena =
    arenaRecycle (arenaRecycle cleared.arena cleared.conn.readBuf.addr) cleared.conn.sendBuf.addr
  trace : t.trace = cleared.trace ++ [.send cleared.conn.fd (lastAck cleared.env.sends),
    .closeFd cleared.conn.fd, .closeFd cleared.conn.fd, .closeFd (s.eventTimerArray j).eFd]

theorem delete_spec {s t : TcpServer} {tcpEvent timeEvent : Option Nat} {env : Env}
    (hdel : tcpserverDeleteTcpAndTimer s tcpEvent timeEvent env = .ok t) :
    ∃ i j cleared, tcpEvent = some i ∧ timeEvent = some j ∧
      connectionClearProtocol (s.handling i env) = .ok cleared ∧ Deleted s t i j cleared := by
  unfold tcpserverDeleteTcpAndTimer at hdel
  split at hdel
  · rename_i i j
    split at hdel
    · cases hdel
    · rename_i s' hclose
      unfold tcpServerCloseConnection at hclose
      split at hclose
      · cases hclose
      · rename_i cleared hclear
        cases hclose
        split at hdel
        · rename_i tcpIds timerIds htcp htimer
          cases hdel
          refine ⟨i, j, cleared, rfl, rfl, hclear, htcp, htimer, rfl, rfl, rfl, rfl, rfl, ?_, ?_,
            ?_, ?_, rfl, ?_⟩
          · intro k
            simp only [TcpServer.setTcp, TcpServer.setTimer, TcpServer.log, TcpServer.absorb]
            split <;> rfl
          · intro k
            simp only [TcpServer.setTcp, TcpServer.setTimer, TcpServer.log, TcpServer.absorb]
            split <;> rfl
          · simp [TcpServer.setTcp, TcpServer.setTimer, TcpServer.log, TcpServer.absorb, Handling.log]
          · intro k hk
            simp [TcpServer.setTcp, TcpServer.setTimer, TcpServer.log, TcpServer.absorb, hk]
          · simp [TcpServer.setTcp, TcpServer.setTimer, TcpServer.log, TcpServer.absorb, Handling.log]
        · cases hdel
  · cases hdel

theorem TcpServer.absorb_handling (s : TcpServer) (i : Nat) (env : Env) :
    s.absorb i (s.handling i env) = s := by
  have hconn : (fun k => if k = i then s.connArray i else s.connArray k) = s.connArray := by
    funext k
    split
    · rename_i hk
      rw [hk]
    · rfl
  simp only [TcpServer.absorb, TcpServer.handling, hconn]

theorem TcpServer.handling_absorb (s : TcpServer) (i : Nat) (h : Handling) :
    (s.absorb i h).handling i h.env = h := by
  simp only [TcpServer.absorb, TcpServer.handling, ↓reduceIte]

/-! ## All cases -/

/-- The call takes the branch that ends in the deletion of its connection. -/
def closes (parse : Parser) (s : TcpServer) (c : HandlerCall) : Bool :=
  match c.context, c.kind with
  | .tcp _, .onError | .timer _, .onError => true
  | .tcp i, .onRead =>
    match tcpOnRead parse s.currentConnections s.maxConnections (s.handling i c.env) with
    | .ok (_, .close) => true
    | _ => false
  | .tcp i, .onWrite =>
    match tcpOnWrite s.currentConnections s.maxConnections (s.handling i c.env) with
    | .ok (_, .close) => true
    | _ => false
  | .timer j, .onRead =>
    match (s.eventTimerArray j).tcpEvent with
    | some i => timedOut (s.connArray i) c.env.now (s.eventTimerArray j).outTime
    | none => false
  | _, _ => false

/-- A handler has refused a request and closed the protocol before the deletion. -/
def Refused (parse : Parser) (s : TcpServer) (c : HandlerCall) (i : Nat) (h : Handling) : Prop :=
  c.context = .tcp i ∧ c.kind = .onRead ∧ Rejects parse (s.handling i c.env) ∧
    ∃ h₁, Gains (s.handling i c.env) h₁ ∧ Recycles h₁ h

/-- The contexts of the call: a tcp context, or a timer context and its partner. -/
def Names (s : TcpServer) (c : HandlerCall) (i j : Nat) : Prop :=
  c.context = .tcp i ∧ (s.eventTcpArray i).timeEvent = some j ∨
    c.context = .timer j ∧ (s.eventTimerArray j).tcpEvent = some i

/-- What the handler call `c` has done. -/
inductive Dispatched (parse : Parser) (s : TcpServer) (c : HandlerCall) : TcpServer → Prop
  | idle : Dispatched parse s c s
  | stopped : Dispatched parse s c (tcpserverListenOnError s)
  | listened (t : TcpServer) : c.context = .listen → c.kind = .onRead → s.running = true →
      listenLoop c.env.now c.accepts s none none = .ok t → Dispatched parse s c t
  | worked (i : Nat) (h : Handling) : c.context = .tcp i → (s.connArray i).protocolHandler = true →
      Gains (s.handling i c.env) h → Dispatched parse s c (s.absorb i h)
  | closed (i j : Nat) (h cleared : Handling) (t : TcpServer) : Names s c i j →
      closes parse s c = true →
      (Gains (s.handling i c.env) h ∨ Refused parse s c i h) →
      connectionClearProtocol h = .ok cleared → Deleted (s.absorb i h) t i j cleared →
      Dispatched parse s c t

theorem ProtocolRead.inUse {parse : Parser} {h h₁ : Handling} {ret : Int}
    (hrun : ProtocolRead parse h h₁ ret) : h.conn.protocolHandler = true :=
  (connectionRecv_hold h.conn h.env.recvs h.env.now).handler.symm.trans hrun.handler

theorem tcpOnRead_handler {parse : Parser} {current max : Nat} {h h' : Handling}
    (hread : tcpOnRead parse current max h = .ok (h', .keep)) : h.conn.protocolHandler = true := by
  cases tcpOnRead_runs hread with
  | unparsed _ _ _ hrun => exact hrun.inUse
  | answered _ _ _ _ hrun => exact hrun.inUse

theorem tcpOnWrite_handler {current max : Nat} {h h' : Handling} {v : Verdict}
    (hwrite : tcpOnWrite current max h = .ok (h', v)) : h.conn.protocolHandler = true :=
  (tcpOnWrite_cases hwrite).1

/-- Following a verdict keeps the work, or deletes the connection after it. -/
theorem settle_spec {s t : TcpServer} {i : Nat} {r : Handling × Verdict}
    (hsettle : settle s i r = .ok t) :
    r.2 = .keep ∧ t = s.absorb i r.1 ∨
      r.2 = .close ∧ ∃ j cleared, (s.eventTcpArray i).timeEvent = some j ∧
        connectionClearProtocol r.1 = .ok cleared ∧ Deleted (s.absorb i r.1) t i j cleared := by
  unfold settle at hsettle
  split at hsettle
  · rename_i hv
    cases hsettle
    exact .inl ⟨hv, rfl⟩
  · rename_i hv
    obtain ⟨i', j, cleared, hi, hj, hclear, hdel⟩ := delete_spec hsettle
    cases hi
    rw [TcpServer.handling_absorb] at hclear
    exact .inr ⟨hv, j, cleared, hj, hclear, hdel⟩

/-- An error handler deletes the pair it finds. -/
theorem delete_dispatched {parse : Parser} {s t : TcpServer} {c : HandlerCall}
    {tcpEvent timeEvent : Option Nat} (hcloses : closes parse s c = true)
    (hnames : ∀ i j, tcpEvent = some i → timeEvent = some j → Names s c i j)
    (hdel : tcpserverDeleteTcpAndTimer s tcpEvent timeEvent c.env = .ok t) :
    Dispatched parse s c t := by
  obtain ⟨i, j, cleared, hi, hj, hclear, hdeleted⟩ := delete_spec hdel
  refine .closed i j (s.handling i c.env) cleared t (hnames i j hi hj) hcloses
    (.inl (.inl (.refl _))) hclear ?_
  rw [TcpServer.absorb_handling]
  exact hdeleted

/-- What a handler call does first: it deletes a connection, or leaves that to a verdict. -/
inductive HandlerRun (parse : Parser) (s : TcpServer) (c : HandlerCall) : TcpServer → Prop
  | idle : HandlerRun parse s c s
  | stopped : HandlerRun parse s c (tcpserverListenOnError s)
  | listened (t : TcpServer) : c.context = .listen → c.kind = .onRead → s.running = true →
      listenLoop c.env.now c.accepts s none none = .ok t → HandlerRun parse s c t
  | read (i : Nat) (h : Handling) (v : Verdict) (t : TcpServer) : c.context = .tcp i →
      c.kind = .onRead → tcpOnRead parse s.currentConnections s.maxConnections (s.handling i c.env) =
        .ok (h, v) → settle s i (h, v) = .ok t → HandlerRun parse s c t
  | wrote (i : Nat) (h : Handling) (v : Verdict) (t : TcpServer) : c.context = .tcp i →
      c.kind = .onWrite → tcpOnWrite s.currentConnections s.maxConnections (s.handling i c.env) =
        .ok (h, v) → settle s i (h, v) = .ok t → HandlerRun parse s c t
  | deleted (tcpEvent timeEvent : Option Nat) (t : TcpServer) : closes parse s c = true →
      (∀ i j, tcpEvent = some i → timeEvent = some j → Names s c i j) →
      tcpserverDeleteTcpAndTimer s tcpEvent timeEvent c.env = .ok t → HandlerRun parse s c t

theorem dispatch_runs {parse : Parser} {s t : TcpServer} {c : HandlerCall}
    (hdisp : dispatch parse s c = .ok t) : HandlerRun parse s c t := by
  unfold dispatch at hdisp
  split at hdisp
  · rename_i hctx hkind
    unfold tcpserverListenOnRead at hdisp
    split at hdisp
    · rename_i hrun
      exact .listened t hctx hkind hrun hdisp
    · cases hdisp
      exact .idle
  · cases hdisp
    exact .idle
  · cases hdisp
    exact .stopped
  · rename_i i hctx hkind
    unfold tcpserverTcpOnRead at hdisp
    split at hdisp
    · cases hdisp
    · rename_i r hread
      split at hdisp
      · cases hdisp
      · exact .read i r.1 r.2 t hctx hkind hread hdisp
  · rename_i i hctx hkind
    unfold tcpserverTcpOnWrite at hdisp
    split at hdisp
    · cases hdisp
    · rename_i r hwrite
      exact .wrote i r.1 r.2 t hctx hkind hwrite hdisp
  · rename_i i hctx hkind
    refine .deleted _ _ t (by simp [closes, hctx, hkind]) ?_ hdisp
    rintro i' j hi hj
    cases hi
    exact .inl ⟨hctx, hj⟩
  · rename_i j hctx hkind
    unfold tcpserverTimeOnRead at hdisp
    split at hdisp
    · cases hdisp
    · rename_i i hi
      split at hdisp
      · rename_i htimeout
        refine .deleted _ _ t (by simp [closes, hctx, hkind, hi, htimeout]) ?_ hdisp
        rintro i' j' hi' hj'
        cases hj'
        exact .inr ⟨hctx, hi'⟩
      · cases hdisp
        exact .idle
  · cases hdisp
    exact .idle
  · rename_i j hctx hkind
    refine .deleted _ _ t (by simp [closes, hctx, hkind]) ?_ hdisp
    rintro i' j' hi' hj'
    cases hj'
    exact .inr ⟨hctx, hi'⟩

theorem dispatch_cases {parse : Parser} {s t : TcpServer} {c : HandlerCall}
    (hdisp : dispatch parse s c = .ok t) : Dispatched parse s c t := by
  cases dispatch_runs hdisp with
  | idle => exact .idle
  | stopped => exact .stopped
  | listened t hctx hkind hrun hloop => exact .listened t hctx hkind hrun hloop
  | read i h v t hctx hkind hread hsettle =>
    have hspec := tcpOnRead_spec hread
    rcases settle_spec hsettle with ⟨hkeep, rfl⟩ | ⟨hclose, j, cleared, hj, hclear, hdel⟩
    · cases hkeep
      exact .worked i h hctx (tcpOnRead_handler hread) (hspec.resolve_right (by simp))
    · cases hclose
      refine .closed i j h cleared t (.inl ⟨hctx, hj⟩) (by simp [closes, hctx, hkind, hread]) ?_
        hclear hdel
      rcases hspec with g | ⟨-, hrej, hrec⟩
      · exact .inl g
      · exact .inr ⟨hctx, hkind, hrej, hrec⟩
  | wrote i h v t hctx hkind hwrite hsettle =>
    have a := tcpOnWrite_spec hwrite
    rcases settle_spec hsettle with ⟨hkeep, rfl⟩ | ⟨hclose, j, cleared, hj, hclear, hdel⟩
    · exact .worked i h hctx (tcpOnWrite_handler hwrite) (.inl a)
    · cases hclose
      exact .closed i j h cleared t (.inl ⟨hctx, hj⟩) (by simp [closes, hctx, hkind, hwrite])
        (.inl (.inl a)) hclear hdel
  | deleted tcpEvent timeEvent t hcloses hnames hdel => exact delete_dispatched hcloses hnames hdel

end PingServer
