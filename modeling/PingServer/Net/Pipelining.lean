import PingServer.Lib.Machine
import PingServer.Net.Dispatch
import PingServer.Net.Reading
import PingServer.Net.RecvLayout

/-!
# The requests of one connection

What one connection hands to `http_protocol_process` while it stays open, for
every way in which the bytes of its requests are split into chunks and read
events. Nothing is taken out of the read buffer after a request, and it is only
cleaned behind `HTTP_SEND_DONE`, which no write sets.
-/

namespace PingServer

open ByteMem

/-! ## Sessions -/

def Action.request : Action → Option HttpRequest
  | .process req => some req
  | _ => none

/-- The requests that were handed to `http_protocol_process`. -/
def requests (trace : List Action) : List HttpRequest := trace.filterMap Action.request

/-- The server holds `current` connections when a handler is called. -/
inductive SessionEvent where
  | read (current : Nat) (env : Env)
  | write (current : Nat) (env : Env)
  /-- other connections are served -/
  | others (arena : MemoryArena) (ctxs : Nat → HttpContext) (cache : RouterCache)

/-- One event of a connection, as long as it stays open. What a receive stores behind the blocks
of the read buffer is not followed. -/
def sessionStep (parse : Parser) (max : Nat) (h : Handling) : SessionEvent → Option Handling
  | .read current env =>
    match tcpOnRead parse current max { h with env := env } with
    | .ok (h, .keep) => some h
    | _ => none
  | .write current env =>
    match tcpOnWrite current max { h with env := env } with
    | .ok (h, .keep) => some h
    | _ => none
  | .others arena ctxs cache =>
    some { h with
      arena := arena
      cache := cache
      ctxs := fun p => if h.conn.protocolCtx = some p then h.ctxs p else ctxs p }

/-- The connection has read nothing yet. -/
structure NewConnection (conn : Connection) : Prop where
  empty : conn.readBuf.len = 0
  ctx : conn.protocolCtx = none

theorem connectionCreate_new {conn conn' : Connection} {fd : Int} {a a' : MemoryArena}
    {connId now : Nat} (h : connectionCreate conn fd a connId now = (a', conn', 0)) :
    NewConnection conn' := by
  obtain ⟨mem, p, n, q, m, rfl⟩ := connectionCreate_conn h (by decide)
  exact ⟨rfl, rfl⟩

/-- A read event of the server that leaves its connection open is one of the session. -/
theorem tcpserverTcpOnRead_session {parse : Parser} {s t : TcpServer} {i : Nat} {env env' : Env}
    (hread : tcpserverTcpOnRead parse s i env = .ok t) (hopen : (t.connArray i).connSt ≠ .closing) :
    ∃ h, sessionStep parse s.maxConnections (s.handling i env') (.read s.currentConnections env) =
      some h ∧ t = s.absorb i h := by
  unfold tcpserverTcpOnRead at hread
  split at hread
  · cases hread
  · rename_i r hcall
    obtain ⟨h, v⟩ := r
    split at hread
    · cases hread
    · rcases settle_spec hread with ⟨hkeep, ht⟩ | ⟨-, j, cleared, -, -, hdel⟩
      · cases hkeep
        have hcall' : tcpOnRead parse s.currentConnections s.maxConnections
            { s.handling i env' with env := env } = .ok (h, .keep) := hcall
        exact ⟨h, by simp only [sessionStep, hcall'], ht⟩
      · exact absurd (congrArg Connection.connSt hdel.conn) hopen

theorem tcpserverTcpOnWrite_session {parse : Parser} {s t : TcpServer} {i : Nat} {env env' : Env}
    (hwrite : tcpserverTcpOnWrite s i env = .ok t) (hopen : (t.connArray i).connSt ≠ .closing) :
    ∃ h, sessionStep parse s.maxConnections (s.handling i env') (.write s.currentConnections env) =
      some h ∧ t = s.absorb i h := by
  unfold tcpserverTcpOnWrite at hwrite
  split at hwrite
  · cases hwrite
  · rename_i r hcall
    obtain ⟨h, v⟩ := r
    rcases settle_spec hwrite with ⟨hkeep, ht⟩ | ⟨-, j, cleared, -, -, hdel⟩
    · cases hkeep
      have hcall' : tcpOnWrite s.currentConnections s.maxConnections
          { s.handling i env' with env := env } = .ok (h, .keep) := hcall
      exact ⟨h, by simp only [sessionStep, hcall'], ht⟩
    · exact absurd (congrArg Connection.connSt hdel.conn) hopen

/-! ## What arrives -/

/-- The bytes that the loop of `connection_recv` takes where they fit. -/
def taken : List RecvOutcome → List Byte
  | .chunk bs :: rest => if bs = [] then [] else bs ++ taken rest
  | _ => []

def SessionEvent.bytes : SessionEvent → List Byte
  | .read _ env => taken env.recvs
  | _ => []

/-- The bytes that arrive over a session. -/
def stream (es : List SessionEvent) : List Byte := es.flatMap SessionEvent.bytes

/-- How many read events find `first` complete at the start of what has arrived,
when `got` had arrived before. -/
def completions (first : List Byte) : (got : List Byte) → List SessionEvent → Nat
  | _, [] => 0
  | got, .read _ env :: es =>
    let got := got ++ taken env.recvs
    (if first.isPrefixOf got then 1 else 0) + completions first got es
  | got, _ :: es => completions first got es

theorem received_eq_taken {cap : Nat} (os : List RecvOutcome) :
    ∀ len, len + (taken os).length ≤ cap → received cap len os = taken os := by
  induction os with
  | nil =>
    intro len _
    rfl
  | cons o os ih =>
    intro len hfit
    cases o with
    | wouldBlock | endOfStream | failed => rfl
    | chunk bs =>
      by_cases hbs : bs = []
      · simp [received, taken, hbs]
      · simp only [taken, if_neg hbs, List.length_append] at hfit
        have hwhole : bs.take (cap - len) = bs := List.take_of_length_le (by omega)
        simp only [received, taken, hwhole, if_neg hbs]
        rw [ih _ (by omega)]

theorem completions_eq_zero {first : List Byte} (es : List SessionEvent) :
    ∀ got, ¬ first <+: got ++ stream es → completions first got es = 0 := by
  induction es with
  | nil =>
    intro got _
    rfl
  | cons e es ih =>
    intro got hnot
    simp only [stream, List.flatMap_cons, ← List.append_assoc] at hnot
    cases e with
    | read current env =>
      have hnow : ¬ first <+: got ++ taken env.recvs :=
        fun h => hnot (h.trans (List.prefix_append _ _))
      simp only [completions, List.isPrefixOf_iff_prefix, if_neg hnow, Nat.zero_add]
      exact ih _ hnot
    | write | others =>
      simp only [SessionEvent.bytes, List.append_nil] at hnot
      exact ih got hnot

/-! ## The parser -/

/-- The request in the context, once the parser has returned `p`. -/
def Parsed.request (p : Parsed) : HttpRequest where
  method := p.method
  path := p.path
  bodyLen := 0
  headers := p.headers
  lastLen := 0
  minorVersion := p.minorVersion

/-- The request that a well-formed request is read as. -/
def Parser.request (parse : Parser) (w : List Byte) : HttpRequest := (parse w 0).request

/-- The values of `last_len` that `http_protocol_read` passes on. -/
def PassedLen (lastLen : Nat) : Prop := lastLen = 0 ∨ lastLen = 2 ^ 64 - 2

/-- `phr_parse_request` finds the first complete request of the buffer, where
`wellFormed` are the bytes of single requests. -/
structure FindsFirst (parse : Parser) (wellFormed : List Byte → Prop) : Prop where
  length : ∀ w, wellFormed w → (parse w 0).ret = w.length
  complete : ∀ w rest lastLen, wellFormed w → PassedLen lastLen →
    parse (w ++ rest) lastLen = parse w 0
  incomplete : ∀ buf lastLen, PassedLen lastLen →
    (buf = [] ∨ ∃ w, wellFormed w ∧ buf <+: w ∧ buf ≠ w) → (parse buf lastLen).ret = -2

/-! ## Answering -/

/-- The context between two events: no write has finished for it. -/
structure Resting (ctx : HttpContext) : Prop where
  bodyLen : ctx.httpReq.bodyLen = 0
  lastLen : PassedLen ctx.httpReq.lastLen
  unfinished : ctx.httpRes.sendSt ≠ .done

/-- A step that hands on no request, finishes no response and leaves what was
received alone. -/
structure Answers (h h' : Handling) : Prop where
  readBuf : h'.conn.readBuf = h.conn.readBuf
  ctx : h'.conn.protocolCtx = h.conn.protocolCtx
  trace : requests h'.trace = requests h.trace
  req : ∀ p, (h'.ctxs p).httpReq = (h.ctxs p).httpReq
  unfinished : ∀ p, (h.ctxs p).httpRes.sendSt ≠ .done → (h'.ctxs p).httpRes.sendSt ≠ .done

theorem requests_append (trace new : List Action) :
    requests (trace ++ new) = requests trace ++ requests new := List.filterMap_append

theorem Answers.resting {h h' : Handling} (a : Answers h h') {p : Nat} (hp : Resting (h.ctxs p)) :
    Resting (h'.ctxs p) :=
  ⟨by rw [a.req p]; exact hp.bodyLen, by rw [a.req p]; exact hp.lastLen,
    a.unfinished p hp.unfinished⟩

theorem connectionSend_readBuf {conn : Connection} {sends : List SendOutcome} {now : Nat} {s : Sent}
    (h : connectionSend conn sends now = .ok s) : s.conn.readBuf = conn.readBuf := by
  unfold connectionSend at h
  split at h
  · cases h
    rfl
  · simp only at h
    split at h
    · cases h
    · split at h
      · split at h <;> cases h <;> rfl
      · split at h <;> cases h <;> rfl

namespace Answers

variable {h h₁ h₂ : Handling}

theorem refl (h : Handling) : Answers h h := ⟨rfl, rfl, rfl, fun _ => rfl, fun _ => id⟩

theorem trans (a : Answers h h₁) (b : Answers h₁ h₂) : Answers h h₂ :=
  ⟨b.readBuf.trans a.readBuf, b.ctx.trans a.ctx, b.trace.trans a.trace,
    fun p => (b.req p).trans (a.req p), fun p => b.unfinished p ∘ a.unfinished p⟩

theorem log (a : Answers h h₁) {x : Action} (hx : x.request = none) : Answers h (h₁.log x) := by
  refine ⟨a.readBuf, a.ctx, ?_, a.req, a.unfinished⟩
  have hnone : requests [x] = [] := by simp [requests, hx]
  rw [Handling.log, requests_append, hnone, List.append_nil]
  exact a.trace

theorem setSendBuf (a : Answers h h₁) (b : Buffer) : Answers h (h₁.setSendBuf b) :=
  ⟨a.readBuf, a.ctx, a.trace, a.req, a.unfinished⟩

theorem setRes (a : Answers h h₁) (ctx : Nat) (res : HttpResponse)
    (hst : (h₁.ctxs ctx).httpRes.sendSt ≠ .done → res.sendSt ≠ .done) :
    Answers h (h₁.setRes ctx res) := by
  refine ⟨a.readBuf, a.ctx, a.trace, fun p => ?_, fun p hp => ?_⟩
  · rw [← a.req p]
    simp only [Handling.setRes, Handling.setCtx]
    split
    · rename_i heq
      rw [heq]
    · rfl
  · simp only [Handling.setRes, Handling.setCtx]
    split
    · rename_i heq
      exact hst (heq ▸ a.unfinished p hp)
    · exact a.unfinished p hp

theorem send (a : Answers h h₁) {ret : Int} (hsend : h₁.send = .ok (h₂, ret)) : Answers h h₂ := by
  unfold Handling.send at hsend
  split at hsend
  · cases hsend
  · rename_i s hs
    cases hsend
    have hread := (connectionSend_readBuf hs).trans a.readBuf
    have hctx := (connectionSend_hold hs).ctx.trans a.ctx
    have b : Answers h { h₁ with conn := s.conn, env := { h₁.env with sends := s.sends } } :=
      ⟨hread, hctx, a.trace, a.req, a.unfinished⟩
    exact b.log rfl

theorem sendFd (a : Answers h h₁) (ctx : Nat) : Answers h (h₁.sendFd ctx).1 := by
  have henv : ∀ env, Answers h { h₁ with env := env } := fun _ =>
    ⟨a.readBuf, a.ctx, a.trace, a.req, a.unfinished⟩
  refine Answers.log (Answers.setRes (henv _) ctx _ ?_) (by rfl)
  exact id

theorem writeSteps {ctx : Nat} (hsteps : WriteSteps ctx h h₁) : Answers h h₁ := by
  induction hsteps using Relation.ReflTransGen.trans_induction_on with
  | refl h => exact .refl h
  | single hstep =>
    cases hstep with
    | use => exact (Answers.refl _).log rfl
    | buffer b _ => exact (Answers.refl _).setSendBuf b
    | response res _ hst => exact (Answers.refl _).setRes ctx res hst
    | send _ ret hsend => exact (Answers.refl _).send hsend
    | sendFd => exact (Answers.refl _).sendFd ctx
  | trans _ _ a b => exact a.trans b

theorem routeSteps {ctx : Nat} (hsteps : RouteSteps ctx h h₁) : Answers h h₁ := by
  induction hsteps using Relation.ReflTransGen.trans_induction_on with
  | refl h => exact .refl h
  | single hstep =>
    cases hstep with
    | openFile name result => exact (Answers.refl _).log rfl
    | closeFd fd => exact (Answers.refl _).log rfl
    | cache cache => exact ⟨rfl, rfl, rfl, fun _ => rfl, fun _ => id⟩
    | response res hst => exact (Answers.refl _).setRes ctx res fun hdone => hst ▸ hdone
  | trans _ _ a b => exact a.trans b

end Answers

/-- `http_protocol_process` hands on the request of the context. -/
theorem httpProtocolProcess_answers {h h' : Handling} {ctx : Nat} {ret : Int}
    (hctx : h.conn.protocolCtx = some ctx) (hproc : httpProtocolProcess h = .ok (h', ret)) :
    Answers (h.log (.process (h.ctxs ctx).httpReq)) h' := by
  have hinit : Answers (h.log (.process (h.ctxs ctx).httpReq)) (initResponse h ctx) := by
    have hnew : requests [.useCtx ctx, .process (h.ctxs ctx).httpReq] =
        requests [.process (h.ctxs ctx).httpReq] := rfl
    have hkeep : Answers (h.log (.process (h.ctxs ctx).httpReq))
        (((h.log (.useCtx ctx)).log (.process (h.ctxs ctx).httpReq)).setKeepAlive
          ((h.ctxs ctx).httpReq.minorVersion ≠ 0)) := by
      refine ⟨rfl, rfl, ?_, fun _ => rfl, fun _ => id⟩
      simp [Handling.setKeepAlive, Handling.log, requests_append, hnew]
    exact hkeep.setRes ctx _ fun _ hdone => by cases hdone
  exact hinit.trans (.routeSteps (RouteSteps.process hctx hproc))

theorem httpProtocolWrite_answers {h h' : Handling} {ret : Int}
    (hwrite : httpProtocolWrite h = .ok (h', ret)) : Answers h h' := by
  cases hctx : h.conn.protocolCtx with
  | none =>
    rw [httpProtocolWrite, hctx] at hwrite
    cases hwrite
  | some ctx => exact .writeSteps (WriteSteps.write hctx hwrite)

/-! ## One event -/

/-- The connection has received `got` and waits for its next event. -/
structure SessionInv (cap : Nat) (got : List Byte) (h : Handling) : Prop where
  bytes : h.conn.readBuf.bytes = got
  cap : h.conn.readBuf.cap = cap
  resting : ∀ ctx, h.conn.protocolCtx = some ctx → Resting (h.ctxs ctx)

theorem SessionInv.answers {cap : Nat} {got : List Byte} {h h' : Handling}
    (inv : SessionInv cap got h) (a : Answers h h') : SessionInv cap got h' := by
  refine ⟨by rw [a.readBuf]; exact inv.bytes, by rw [a.readBuf]; exact inv.cap, ?_⟩
  intro ctx hctx
  exact a.resting (inv.resting ctx (a.ctx ▸ hctx))

/-- What a read by the protocol handler leaves: more is needed, or the request is in
the context. -/
inductive Read (parse : Parser) (cap : Nat) (got : List Byte) (h : Handling) :
    Handling → Int → Prop
  | needMore (h' : Handling) (ret : Int) (l : Nat) : ret = errorHttpNeedMore → PassedLen l →
      (parse got l).ret = -2 → SessionInv cap got h' → requests h'.trace = requests h.trace →
      Read parse cap got h h' ret
  | found (h' : Handling) (ret : Int) (ctx l : Nat) : ret = 0 → PassedLen l →
      0 ≤ (parse got l).ret → SessionInv cap got h' → requests h'.trace = requests h.trace →
      h'.conn.protocolCtx = some ctx → (h'.ctxs ctx).httpReq = (parse got l).request →
      Read parse cap got h h' ret
  | failed (h' : Handling) (ret : Int) : ret < 0 → ret ≠ errorHttpNeedMore →
      Read parse cap got h h' ret

theorem httpParse_read {parse : Parser} {cap : Nat} {got : List Byte} {h₀ h : Handling} {ctx : Nat}
    (inv : SessionInv cap got h) (hsame : requests h.trace = requests h₀.trace)
    (hctx : h.conn.protocolCtx = some ctx) :
    Read parse cap got h₀ (httpParse parse h ctx).1 (httpParse parse h ctx).2 := by
  have hrest := inv.resting ctx hctx
  have htrace : requests (h.trace ++ [.useCtx ctx]) = requests h₀.trace := by
    rw [requests_append]
    exact (List.append_nil _).trans hsame
  -- only the request of the own context is written
  have hset : ∀ req : HttpRequest, req.bodyLen = 0 → PassedLen req.lastLen →
      SessionInv cap got ((h.log (.useCtx ctx)).setReq ctx req) := by
    intro req hbody hlast
    refine ⟨inv.bytes, inv.cap, fun p hp => ?_⟩
    obtain rfl : ctx = p := Option.some.inj (hctx.symm.trans hp)
    simp only [Handling.setReq, Handling.setCtx, ↓reduceIte]
    exact ⟨hbody, hlast, hrest.unfinished⟩
  have hbytes : (h.log (.useCtx ctx)).conn.readBuf.bytes = got := inv.bytes
  unfold httpParse
  simp only [hbytes]
  split
  · split
    · exact .failed _ errorHttpParse (by decide) (by decide)
    · rename_i hneed
      exact .needMore _ _ _ rfl hrest.lastLen (not_not.1 hneed) (hset _ hrest.bodyLen (.inr rfl)) htrace
  · rename_i hret
    refine .found _ _ ctx _ rfl hrest.lastLen (not_lt.1 hret) (hset _ hrest.bodyLen (.inl rfl))
      htrace hctx ?_
    simp only [Handling.setReq, Handling.setCtx, ↓reduceIte, Parsed.request, HttpRequest.mk.injEq]
    exact ⟨rfl, rfl, hrest.bodyLen, rfl, trivial, rfl⟩

theorem httpProtocolRead_read (parse : Parser) {cap : Nat} {got : List Byte} {h : Handling}
    (inv : SessionInv cap got h) :
    Read parse cap got h (httpProtocolRead parse h).1 (httpProtocolRead parse h).2 := by
  unfold httpProtocolRead
  split
  · rename_i ctx hctx
    exact httpParse_read inv rfl hctx
  · split
    · exact .failed _ errorMemFull (by decide) (by decide)
    · rename_i h₁ ctx hinit
      obtain ⟨a, -, -, hconn, htrace⟩ := httpInit_some hinit
      have hctx : h₁.conn.protocolCtx = some ctx := by rw [hconn]
      have hsame : requests h₁.trace = requests h.trace := by
        rw [htrace, requests_append]
        exact List.append_nil _
      refine httpParse_read ⟨by rw [hconn]; exact inv.bytes, by rw [hconn]; exact inv.cap, ?_⟩
        hsame hctx
      intro p hp
      obtain rfl : ctx = p := Option.some.inj (hctx.symm.trans hp)
      rw [(httpInit_zero hinit).1]
      exact ⟨rfl, .inl rfl, nofun⟩

/-- `connection_recv` refuses, or goes through and appends what was taken. -/
theorem connectionRecv_cases {conn : Connection} {recvs : List RecvOutcome} {now : Nat}
    (hfit : conn.readBuf.len + (taken recvs).length ≤ conn.readBuf.cap) :
    (connectionRecv conn recvs now).2 = errorConnFull ∨
      (connectionRecv conn recvs now).2 = errorBufferFull ∨
      (connectionRecv conn recvs now).1.readBuf = conn.readBuf.append (taken recvs) := by
  unfold connectionRecv
  split
  · exact .inl rfl
  · simp only
    split
    · exact .inr (.inl rfl)
    · rw [recvLoop_eq, received_eq_taken recvs _ hfit]
      exact .inr (.inr rfl)

/-- One read event that keeps the connection. The parser is asked about all that has
arrived, and what it finds there is handed on. -/
theorem tcpOnRead_keep {parse : Parser} {current max cap : Nat} {got : List Byte} {h h' : Handling}
    (inv : SessionInv cap got h) (hfit : got.length + (taken h.env.recvs).length ≤ cap)
    (hread : tcpOnRead parse current max h = .ok (h', .keep)) :
    SessionInv cap (got ++ taken h.env.recvs) h' ∧ ∃ l, PassedLen l ∧
      requests h'.trace = requests h.trace ++
        (if 0 ≤ (parse (got ++ taken h.env.recvs) l).ret
          then [(parse (got ++ taken h.env.recvs) l).request] else []) := by
  have hhold := connectionRecv_hold h.conn h.env.recvs h.env.now
  rw [← inv.bytes, Buffer.bytes_length, ← inv.cap] at hfit
  have inv₁ : ∀ {h₁ ret}, ProtocolRead parse h h₁ ret →
      SessionInv cap (got ++ taken h.env.recvs) h.received := by
    intro h₁ ret hrun
    have happend : h.received.conn.readBuf = h.conn.readBuf.append (taken h.env.recvs) := by
      rcases @connectionRecv_cases h.conn h.env.recvs h.env.now hfit with hfull | hfull | happend
      · exact absurd (by rw [hfull]; decide) hrun.received
      · exact absurd (by rw [hfull]; decide) hrun.received
      · exact happend
    refine ⟨?_, ?_, fun p hp => inv.resting p (hhold.ctx ▸ hp)⟩
    · rw [happend, Buffer.bytes_append, inv.bytes]
    · rw [happend]
      exact inv.cap
  cases tcpOnRead_runs hread with
  | unparsed h₁ ret _ hrun _ hkeep =>
    have hcall := httpProtocolRead_read parse (inv₁ hrun)
    obtain rfl : ret = errorHttpNeedMore := hkeep.1 rfl
    rw [hrun.read] at hcall
    cases hcall with
    | failed _ hne => exact absurd rfl hne
    | needMore l _ hl hmore inv' htrace =>
      refine ⟨inv', l, hl, ?_⟩
      rw [hmore, if_neg (by decide), List.append_nil]
      exact htrace
    | found ctx l hret =>
      have hret : errorHttpNeedMore = 0 := hret
      exact absurd hret (by decide)
  | answered h₁ h₂ ret _ hrun hpos hproc =>
    have hcall := httpProtocolRead_read parse (inv₁ hrun)
    rw [hrun.read] at hcall
    cases hcall with
    | failed hneg => exact absurd hneg (not_lt.2 hpos)
    | needMore l hret =>
      obtain rfl : ret = errorHttpNeedMore := hret
      exact absurd hpos (by decide)
    | found ctx l _ hl hfound inv' htrace hctx hreq =>
      have a := httpProtocolProcess_answers hctx hproc
      have b := a.log (x := .epollMod h₂.conn.fd true) rfl
      have invLog : SessionInv cap (got ++ taken h.env.recvs)
          (h₁.log (.process (h₁.ctxs ctx).httpReq)) := ⟨inv'.bytes, inv'.cap, inv'.resting⟩
      refine ⟨invLog.answers b, l, hl, ?_⟩
      rw [if_pos hfound, b.trace, Handling.log, requests_append, htrace, hreq]
      rfl

/-- A write event that keeps the connection is the write, where that does not leave
`HTTP_SEND_DONE`: the buffers are not cleaned. -/
theorem tcpOnWrite_kept {current max : Nat} {h h' : Handling}
    (hwrite : tcpOnWrite current max h = .ok (h', .keep))
    (hnever : ∀ h₁ ret ctx, httpProtocolWrite h = .ok (h₁, ret) →
      h₁.conn.protocolCtx = some ctx → (h₁.ctxs ctx).httpRes.sendSt ≠ .done) :
    ∃ ret, httpProtocolWrite h = .ok (h', ret) := by
  obtain ⟨-, h₁, ret, ctx, hsent, hctx, hcase⟩ := tcpOnWrite_cases hwrite
  generalize hr : (h', Verdict.keep) = r at hcase
  cases hcase with
  | reset hdone => exact absurd hdone (hnever h₁ ret ctx hsent hctx)
  | going =>
    obtain rfl : h' = h₁ := congrArg Prod.fst hr
    exact ⟨ret, hsent⟩
  | failed => cases hr

/-- Such a write hands on nothing, and leaves everything in the read buffer. -/
theorem tcpOnWrite_keep {current max cap : Nat} {got : List Byte} {h h' : Handling}
    (inv : SessionInv cap got h) (hwrite : tcpOnWrite current max h = .ok (h', .keep)) :
    SessionInv cap got h' ∧ requests h'.trace = requests h.trace := by
  obtain ⟨ret, hsent⟩ := tcpOnWrite_kept hwrite fun h₁ ret ctx hsent hctx =>
    ((inv.answers (httpProtocolWrite_answers hsent)).resting ctx hctx).unfinished
  have a := httpProtocolWrite_answers hsent
  exact ⟨inv.answers a, a.trace⟩

/-! ## Whole sessions -/

/-- On the way to `total` the parser finds `first` or needs more. -/
structure OnlyFirst (parse : Parser) (first total : List Byte) : Prop where
  found : ∀ got l, got <+: total → first <+: got → PassedLen l →
    parse got l = parse first 0 ∧ 0 ≤ (parse first 0).ret
  needMore : ∀ got l, got <+: total → ¬ first <+: got → PassedLen l → (parse got l).ret = -2

theorem FindsFirst.onlyFirst {parse : Parser} {wellFormed : List Byte → Prop}
    (hparse : FindsFirst parse wellFormed) {first : List Byte} {rest : List (List Byte)}
    (hfirst : wellFormed first) : OnlyFirst parse first (first :: rest).flatten := by
  refine ⟨fun got l _ hpre hl => ?_, fun got l hgot hpre hl => ?_⟩
  · obtain ⟨more, rfl⟩ := hpre
    refine ⟨hparse.complete first more l hfirst hl, ?_⟩
    rw [hparse.length first hfirst]
    exact Int.natCast_nonneg _
  · have hwhole : first <+: (first :: rest).flatten := by
      rw [List.flatten_cons]
      exact List.prefix_append _ _
    refine hparse.incomplete got l hl (.inr ⟨first, hfirst, ?_, ?_⟩)
    · exact (List.prefix_or_prefix_of_prefix hgot hwhole).resolve_right hpre
    · rintro rfl
      exact hpre (List.prefix_rfl)

/-- What one event hands on: the first request, if a read finds it complete. -/
theorem sessionStep_requests {parse : Parser} {max cap : Nat} {first got total : List Byte}
    {h h' : Handling} {e : SessionEvent} (hfirst : OnlyFirst parse first total)
    (inv : SessionInv cap got h) (hgot : got ++ e.bytes <+: total) (hfit : total.length ≤ cap)
    (hstep : sessionStep parse max h e = some h') :
    SessionInv cap (got ++ e.bytes) h' ∧ requests h'.trace = requests h.trace ++
      List.replicate (completions first got [e]) (parse.request first) := by
  have hlen := hgot.length_le
  rw [List.length_append] at hlen
  cases e with
  | read current env =>
    simp only [sessionStep] at hstep
    split at hstep
    · rename_i h₁ hread
      cases hstep
      have hgot' : got ++ taken env.recvs <+: total := hgot
      have inv' : SessionInv cap got { h with env := env } := ⟨inv.bytes, inv.cap, inv.resting⟩
      obtain ⟨hinv, l, hl, hreqs⟩ := tcpOnRead_keep inv' (hlen.trans hfit) hread
      refine ⟨hinv, hreqs.trans ?_⟩
      simp only [completions, Nat.add_zero, List.isPrefixOf_iff_prefix]
      by_cases hpre : first <+: got ++ taken env.recvs
      · obtain ⟨hsame, hret⟩ := hfirst.found _ l hgot' hpre hl
        rw [if_pos hpre, hsame, if_pos hret]
        rfl
      · rw [if_neg hpre, hfirst.needMore _ l hgot' hpre hl]
        rfl
    · cases hstep
  | write current env =>
    simp only [sessionStep] at hstep
    split at hstep
    · rename_i h₁ hwrite
      cases hstep
      have inv' : SessionInv cap got { h with env := env } := ⟨inv.bytes, inv.cap, inv.resting⟩
      obtain ⟨hinv, hreqs⟩ := tcpOnWrite_keep inv' hwrite
      have hbytes : (SessionEvent.write current env).bytes = [] := rfl
      rw [hbytes, List.append_nil]
      exact ⟨hinv, hreqs.trans (List.append_nil _).symm⟩
    · cases hstep
  | others arena ctxs cache =>
    cases hstep
    have hbytes : (SessionEvent.others arena ctxs cache).bytes = [] := rfl
    rw [hbytes, List.append_nil]
    refine ⟨⟨inv.bytes, inv.cap, fun ctx hctx => ?_⟩, (List.append_nil _).symm⟩
    have hown : h.conn.protocolCtx = some ctx := hctx
    simp only [if_pos hown]
    exact inv.resting ctx hown

theorem completions_cons (first got : List Byte) (e : SessionEvent) (es : List SessionEvent) :
    completions first got (e :: es) =
      completions first got [e] + completions first (got ++ e.bytes) es := by
  cases e with
  | read current env => rfl
  | write current env =>
    simp only [completions, SessionEvent.bytes, List.append_nil, Nat.zero_add]
  | others arena ctxs cache =>
    simp only [completions, SessionEvent.bytes, List.append_nil, Nat.zero_add]

/-- A session hands on its first request, once for every read that finds it complete. -/
theorem session_requests {parse : Parser} {max cap : Nat} {first : List Byte}
    (es : List SessionEvent) : ∀ {got : List Byte} {h h' : Handling},
      OnlyFirst parse first (got ++ stream es) → SessionInv cap got h →
      (got ++ stream es).length ≤ cap → Machine.run (sessionStep parse max) h es = some h' →
      requests h'.trace = requests h.trace ++
        List.replicate (completions first got es) (parse.request first) := by
  induction es with
  | nil =>
    intro got h h' _ _ _ hrun
    cases hrun
    exact (List.append_nil _).symm
  | cons e es ih =>
    intro got h h' hfirst inv hfit hrun
    have hstream : got ++ stream (e :: es) = got ++ e.bytes ++ stream es := by
      simp only [stream, List.flatMap_cons, List.append_assoc]
    rw [hstream] at hfirst hfit
    simp only [Machine.run] at hrun
    split at hrun
    · rename_i h₁ hstep
      obtain ⟨inv₁, hreqs⟩ :=
        sessionStep_requests hfirst inv (List.prefix_append _ _) hfit hstep
      rw [ih hfirst inv₁ hfit hrun, hreqs, completions_cons first got e es, List.replicate_add, List.append_assoc]
    · cases hrun

/-- All the requests are the same one, and as many reads find it complete. -/
def Repeats (parse : Parser) (es : List SessionEvent) : List (List Byte) → Prop
  | [] => True
  | first :: rest =>
    completions first [] es = rest.length + 1 ∧ ∀ w ∈ rest, parse.request w = parse.request first

/-- The requests handed on are those that were sent just when they repeat one request,
once for every read. -/
theorem requests_once_iff {parse : Parser} {wellFormed : List Byte → Prop} {max : Nat}
    {ws : List (List Byte)} {h h' : Handling} {es : List SessionEvent}
    (hparse : FindsFirst parse wellFormed) (hws : ∀ w ∈ ws, wellFormed w)
    (hnew : NewConnection h.conn) (hsent : stream es = ws.flatten)
    (hfit : ws.flatten.length ≤ h.conn.readBuf.cap)
    (hrun : Machine.run (sessionStep parse max) h es = some h') :
    requests h'.trace = requests h.trace ++ ws.map parse.request ↔ Repeats parse es ws := by
  have hempty : h.conn.readBuf.bytes = [] :=
    List.eq_nil_of_length_eq_zero ((Buffer.bytes_length _).trans hnew.empty)
  have inv : SessionInv h.conn.readBuf.cap [] h :=
    ⟨hempty, rfl, fun ctx hctx => by rw [hnew.ctx] at hctx; cases hctx⟩
  rw [← hsent] at hfit
  cases ws with
  | nil =>
    -- nothing arrives, so no read finds anything complete
    have hnone : ¬ [0] <+: [] ++ stream es := by
      rw [hsent]
      exact fun hpre => absurd hpre.length_le (by decide)
    have hfirst : OnlyFirst parse [0] ([] ++ stream es) := by
      refine ⟨fun got l hgot hpre => absurd (hpre.trans hgot) hnone, fun got l hgot _ hl => ?_⟩
      rw [hsent] at hgot
      exact hparse.incomplete got l hl (.inl (List.prefix_nil.1 hgot))
    have hreqs := session_requests es hfirst inv hfit hrun
    rw [completions_eq_zero es [] hnone] at hreqs
    exact iff_of_true hreqs trivial
  | cons first rest =>
    have hfirst : OnlyFirst parse first ([] ++ stream es) := by
      rw [hsent]
      exact hparse.onlyFirst (hws first List.mem_cons_self)
    rw [session_requests es hfirst inv hfit hrun, List.append_cancel_left_eq, eq_comm,
      List.eq_replicate_iff, List.length_map, List.length_cons]
    constructor
    · rintro ⟨hcount, hsame⟩
      exact ⟨hcount.symm, fun w hw => hsame _ (List.mem_map_of_mem (List.mem_cons_of_mem _ hw))⟩
    · rintro ⟨hcount, hsame⟩
      refine ⟨hcount.symm, ?_⟩
      intro req hreq
      obtain ⟨w, hw, rfl⟩ := List.mem_map.1 hreq
      rcases List.mem_cons.1 hw with rfl | hrest
      · rfl
      · exact hsame w hrest

/-! ## Two sessions -/

def homeGet : List Byte := utf8 "GET / HTTP/1.1\r\nHost: h\r\n\r\n"

def sheetGet : List Byte := utf8 "GET /static/s.css HTTP/1.1\r\nHost: h\r\n\r\n"

/-- The request for `path` that is the first `n` bytes. -/
def getOf (n : Nat) (path : List Byte) : Parsed :=
  ⟨n, utf8 "GET", path, 1, [⟨utf8 "Host", utf8 "h"⟩]⟩

/-- A parser of these two requests. -/
def homeOrSheet : Parser := fun buf _ =>
  if homeGet.isPrefixOf buf then getOf homeGet.length (utf8 "/")
  else if sheetGet.isPrefixOf buf then getOf sheetGet.length (utf8 "/static/s.css")
  else ⟨-2, [], [], 0, []⟩

theorem homeOrSheet_findsFirst : FindsFirst homeOrSheet (· ∈ [homeGet, sheetGet]) := by
  have hhome : ∀ rest, ¬ homeGet <+: sheetGet ++ rest := by
    intro rest hpre
    have hlen : homeGet.length ≤ sheetGet.length := by decide
    exact absurd (List.prefix_of_prefix_length_le hpre (List.prefix_append _ _) hlen) (by decide)
  have hshort : ∀ buf w : List Byte, buf <+: w → buf ≠ w → ¬ w <+: buf :=
    fun buf w hpre hne hback => hne (hpre.eq_of_length_le hback.length_le)
  refine ⟨?_, ?_, ?_⟩
  · simp only [List.mem_cons, List.not_mem_nil, or_false]
    rintro w (rfl | rfl) <;> decide
  · simp only [List.mem_cons, List.not_mem_nil, or_false]
    rintro w rest l (rfl | rfl) -
    · simp only [homeOrSheet, List.isPrefixOf_iff_prefix, List.prefix_append, List.prefix_rfl,
        ↓reduceIte]
    · have hself := hhome []
      rw [List.append_nil] at hself
      simp only [homeOrSheet, List.isPrefixOf_iff_prefix, if_neg (hhome rest), if_neg hself,
        List.prefix_append, List.prefix_rfl, ↓reduceIte]
  · simp only [List.mem_cons, List.not_mem_nil, or_false]
    rintro buf l - (rfl | ⟨w, rfl | rfl, hpre, hne⟩)
    · rfl
    · have hstyle : ¬ sheetGet <+: buf := fun h => absurd (h.trans hpre) (by decide)
      simp only [homeOrSheet, List.isPrefixOf_iff_prefix, if_neg (hshort _ _ hpre hne),
        if_neg hstyle]
    · have hother : ¬ homeGet <+: buf := fun h =>
        hhome [] (by rw [List.append_nil]; exact h.trans hpre)
      simp only [homeOrSheet, List.isPrefixOf_iff_prefix, if_neg (hshort _ _ hpre hne),
        if_neg hother]

/-- A connection that was just accepted. -/
def acceptedSession : Handling :=
  let r := connectionCreate Connection.blank 5 (arenaCreate 12 (fun _ => 0) (by decide)) 0 0
  { conn := r.2.1
    arena := r.1
    ctxs := fun _ => HttpContext.zero
    cache := RouterCache.empty
    env := Env.opens
    trace := [] }

theorem acceptedSession_new : NewConnection acceptedSession.conn := by
  have hret : (connectionCreate Connection.blank 5 (arenaCreate 12 (fun _ => 0) (by decide)) 0 0).2.2
      = 0 := by decide +kernel
  exact connectionCreate_new (Prod.ext rfl (Prod.ext rfl hret))

/-- One chunk arrives. -/
def chunkRead (bs : List Byte) : SessionEvent := .read 1 { Env.opens with recvs := [.chunk bs] }

/-- The request for `/` in two chunks, and its response. -/
def splitHome : List SessionEvent :=
  [chunkRead (homeGet.take 10), chunkRead (homeGet.drop 10), .write 1 Env.opens]

theorem requests_once_splitHome : ∃ h,
    Machine.run (sessionStep homeOrSheet 20) acceptedSession splitHome = some h ∧
      requests h.trace = [homeOrSheet.request homeGet] := by
  have hsome : (Machine.run (sessionStep homeOrSheet 20) acceptedSession splitHome).isSome := by
    decide +kernel
  obtain ⟨h, hrun⟩ := Option.isSome_iff_exists.1 hsome
  have hrepeats : Repeats homeOrSheet splitHome [homeGet] := ⟨by decide, nofun⟩
  exact ⟨h, hrun, (requests_once_iff homeOrSheet_findsFirst (by decide) acceptedSession_new
    (by decide) (by decide +kernel) hrun).2 hrepeats⟩

/-- The first request is handed on again in the place of the second. -/
theorem second_request_replaced : ¬ ∀ (parse : Parser) (wellFormed : List Byte → Prop) (max : Nat)
    (ws : List (List Byte)) (h h' : Handling) (es : List SessionEvent),
    FindsFirst parse wellFormed → (∀ w ∈ ws, wellFormed w) → NewConnection h.conn →
    stream es = ws.flatten → ws.flatten.length ≤ h.conn.readBuf.cap →
    Machine.run (sessionStep parse max) h es = some h' →
      requests h'.trace = requests h.trace ++ ws.map parse.request := by
  intro hall
  have hrequests : (Machine.run (sessionStep homeOrSheet 20) acceptedSession
      (splitHome ++ [chunkRead sheetGet])).any (fun h => decide (requests h.trace =
        [homeOrSheet.request homeGet, homeOrSheet.request homeGet])) = true := by decide +kernel
  obtain ⟨h, hrun, hrequests⟩ := (Option.any_eq_true _ _).1 hrequests
  have hsent := hall homeOrSheet (· ∈ [homeGet, sheetGet]) 20 [homeGet, sheetGet] acceptedSession h
    _ homeOrSheet_findsFirst (by decide) acceptedSession_new (by decide) (by decide +kernel) hrun
  rw [of_decide_eq_true hrequests] at hsent
  exact absurd hsent (by decide)

end PingServer
