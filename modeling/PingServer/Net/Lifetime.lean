import PingServer.Net.Pipelining
import PingServer.Net.Reading
import PingServer.Protocol.HeaderFirst

/-!
# One connection from accept to close

The read and write events of a connection, its end for any of the reasons there are,
and the close path behind it. `Lifetime` keeps an account of what was asked and what
was answered.
-/

namespace PingServer

open ByteMem Machine

/-! ## The close path -/

/-- What `http_protocol_close` prints. -/
def closingHead : List Byte := headText 200 contentTxt 0 (utf8 "close")

section

variable {h h' : Handling} {ctx : Nat} {ret : Int}

/-- The loop of the close handler ends behind its first send; a connection whose requests
are used up never leaves it. -/
theorem closeLoop_ok (fuel : Nat) : ∀ {h : Handling}, h.conn.Sendable →
    closeLoop fuel h = .ok (h', ret) → h.conn.requestCount ≠ h.conn.maxRequestCount ∧
      SameSender h.conn h'.conn ∧ h'.trace = h.trace ++ [.send h.conn.fd
        (h.conn.sendBuf.unsent.take (socketTaken h.env.sends h.conn.sendBuf.unsent.length))] ∧
      (socketTaken h.env.sends h.conn.sendBuf.unsent.length = 0 → h'.env.sends = h.env.sends.tail) := by
  induction fuel with
  | zero =>
    intro h _ hclose
    cases hclose
  | succ fuel ih =>
    intro h hleft hclose
    rw [closeLoop] at hclose
    have hcases := @connectionSend_cases h.conn h.env.sends h.env.now hleft
    generalize hresult : connectionSend h.conn h.env.sends h.env.now = r at hcases
    cases hcases with
    | full hfull =>
      rw [Handling.send_eq hresult] at hclose
      have hnext : closeLoop fuel (h.log (.send h.conn.fd [])) = .ok (h', ret) := hclose
      exact absurd hfull (@ih (h.log (.send h.conn.fd [])) hleft hnext).1
    | taken rest hroom htakes =>
      rw [Handling.send_eq hresult] at hclose
      cases hclose
      obtain ⟨hidx, -⟩ := hleft.resolve_left hroom
      rw [Buffer.unsent_length, socketTaken_all _ _ htakes]
      refine ⟨hroom, ⟨⟨rfl, rfl, rfl, rfl, rfl⟩, rfl, rfl, rfl, rfl⟩, ?_, fun hnone => by omega⟩
      rw [← Buffer.unsent_length, List.take_length]
      rfl
    | refused k rest hroom htakes hk htail =>
      rw [Handling.send_eq hresult] at hclose
      cases hclose
      obtain ⟨hidx, -⟩ := hleft.resolve_left hroom
      have hle := socketTaken_le h.env.sends (h.conn.sendBuf.len - h.conn.sendBuf.idx)
      rw [Buffer.unsent_length, ← hk]
      refine ⟨hroom, ⟨⟨rfl, rfl, rfl, rfl, rfl⟩, rfl, rfl, rfl, rfl⟩, ?_, htail⟩
      rw [Buffer.unsent, Buffer.slice_take _ (by omega)]
      rfl

/-- The close handler sends a head once. -/
theorem httpProtocolClose_sends (hown : h.conn.protocolCtx = some ctx)
    (hcap : h.conn.sendBuf.cap = bufferRunSize) (hclose : httpProtocolClose h = .ok (h', ret)) :
    SameSender h.conn h'.conn ∧ h'.trace = h.trace ++ [.send h.conn.fd
      (closingHead.take (socketTaken h.env.sends closingHead.length)), .recycleCtx ctx] ∧
    (socketTaken h.env.sends closingHead.length = 0 → h'.env.sends = h.env.sends.tail) := by
  have hsmall : closingHead.length < bufferRunSize := by decide
  have hunsent := h.conn.sendBuf.unsent_print (hcap ▸ hsmall)
  have hlen := headText_pos 200 contentTxt 0 (utf8 "close")
  unfold httpProtocolClose at hclose
  simp only [hown] at hclose
  split at hclose
  · cases hclose
  · rename_i h₁ ret₁ hloop
    cases hclose
    have hleft : (h.setSendBuf ((bufferClean h.conn.sendBuf).print closingHead)).conn.Sendable := by
      right
      simp only [Handling.setSendBuf, Buffer.print, bufferClean]
      unfold closingHead at hsmall ⊢
      simp only [bufferRunSize, connectionBufferBlockSize, pingArenaBlockSize] at hsmall
      omega
    obtain ⟨-, hsame, htrace, htail⟩ := closeLoop_ok _ hleft hloop
    have hbuf : (h.setSendBuf ((bufferClean h.conn.sendBuf).print closingHead)).conn.sendBuf =
        (bufferClean h.conn.sendBuf).print closingHead := rfl
    rw [hbuf, hunsent] at htrace htail
    refine ⟨hsame.congr_sendBuf rfl rfl, ?_, htail⟩
    simp only [Handling.log, htrace, List.append_assoc]
    rfl

end

/-- `tcp_server_close_connection` up to the close of the descriptor. The last ack goes out as far
as the socket takes it. -/
def closePath (h : Handling) : Except Fault Handling :=
  match connectionClearProtocol h with
  | .error f => .error f
  | .ok h => .ok (h.log (.send h.conn.fd (lastAck h.env.sends)))

/-- The server closes a connection by this path. -/
theorem tcpServerCloseConnection_path {s t : TcpServer} {i : Nat} {env : Env}
    (hclose : tcpServerCloseConnection s i env = .ok t) :
    ∃ h, closePath (s.handling i env) = .ok h ∧
      t.trace = h.trace ++ [.closeFd h.conn.fd, .closeFd h.conn.fd] := by
  unfold tcpServerCloseConnection at hclose
  cases hclear : connectionClearProtocol (s.handling i env) with
  | error f =>
    rw [hclear] at hclose
    cases hclose
  | ok h =>
    rw [hclear] at hclose
    cases hclose
    refine ⟨h.log (.send h.conn.fd (lastAck h.env.sends)), ?_, ?_⟩
    · rw [closePath, hclear]
    · simp only [TcpServer.absorb, Handling.log, List.append_assoc, List.cons_append,
        List.nil_append]

/-- What the close path writes: the last head once more if there is a context, and one byte. A
socket that has taken nothing of the head has refused it once. -/
inductive ClosingWrites (h : Handling) : List Action → Prop
  | ack : h.conn.protocolCtx = none → ClosingWrites h [.send h.conn.fd (lastAck h.env.sends)]
  | head (ctx : Nat) (rest : List SendOutcome) : h.conn.protocolCtx = some ctx →
      (socketTaken h.env.sends closingHead.length = 0 → rest = h.env.sends.tail) →
      ClosingWrites h [.send h.conn.fd
        (closingHead.take (socketTaken h.env.sends closingHead.length)), .recycleCtx ctx,
        .send h.conn.fd (lastAck rest)]

theorem closePath_writes {h h' : Handling} (hcap : h.conn.sendBuf.cap = bufferRunSize)
    (hclose : closePath h = .ok h') :
    ∃ done, ClosingWrites h done ∧ h'.trace = h.trace ++ done := by
  unfold closePath connectionClearProtocol at hclose
  split at hclose
  · cases hclose
  · rename_i h₁ hclear
    cases hclose
    split at hclear
    · split at hclear
      · cases hclear
      · rename_i h₂ ret hhttp
        cases hclear
        cases hctx : h.conn.protocolCtx with
        | none =>
          unfold httpProtocolClose at hhttp
          rw [hctx] at hhttp
          cases hhttp
          exact ⟨_, .ack hctx, rfl⟩
        | some ctx =>
          obtain ⟨hsame, htrace, htail⟩ := httpProtocolClose_sends hctx hcap hhttp
          refine ⟨_, .head ctx h₂.env.sends hctx htail, ?_⟩
          simp only [Handling.log, htrace, hsame.hold.fd, List.append_assoc, List.cons_append,
            List.nil_append]
    · cases hclear

/-! ## The machine -/

/-- Why a connection comes to its end. -/
inductive Ending where
  /-- `is_close_connection` has returned true -/
  | hangUp
  /-- `http_protcol_check` has rejected a request -/
  | refused
  /-- an error of `connection_recv`, of the parser or of a send -/
  | dropped
  /-- `epoll_wait` has reported an error -/
  | peer
  deriving DecidableEq, Repr

/-- The response to an accepted request, as far as it has come. -/
structure Answering where
  handling : Handling
  out : List Action

structure Lifetime where
  handling : Handling
  /-- one for each request accepted so far, the latest first -/
  answers : List Answering
  /-- how many requests `http_protocol_read` has parsed -/
  parsed : Nat
  written : List Action
  ending : Option Ending
  /-- what the close path has done, once it was gone -/
  closing : Option (List Action)

inductive LifeEvent where
  | session (e : SessionEvent)
  | error (env : Env)
  | close

/-- A read event has asked for `EPOLLOUT`, and then `is_close_connection`. -/
def Handling.accepts (h : Handling) : Bool := h.trace.any fun a => a = .epollMod h.conn.fd true

/-- The response of the connection cannot be sent. -/
def Handling.unsendable (h : Handling) : Bool :=
  match h.conn.protocolCtx with
  | some ctx => (h.ctxs ctx).httpRes.sendSt = .error
  | none => false

/-- The last response goes on. -/
def resume (h : Handling) : List Answering → List Answering
  | a :: answers => ⟨h, a.out ++ h.trace⟩ :: answers
  | [] => []

/-- A read event has done its work. -/
def Lifetime.afterRead (l : Lifetime) (r : Handling × Verdict) : Lifetime where
  handling := r.1
  answers := if r.1.accepts then ⟨r.1, []⟩ :: l.answers else l.answers
  parsed := l.parsed + (requests r.1.trace).length
  written := l.written ++ r.1.trace
  ending := match r.2 with
    | .keep => none
    | .close => some (
        if r.1.accepts then .hangUp
        else if requests r.1.trace = [] then .dropped
        else .refused)
  closing := none

/-- A write event has done its work. -/
def Lifetime.afterWrite (l : Lifetime) (r : Handling × Verdict) : Lifetime where
  handling := r.1
  answers := resume r.1 l.answers
  parsed := l.parsed
  written := l.written ++ r.1.trace
  ending := match r.2 with
    | .keep => none
    | .close => some (if r.1.unsendable then .dropped else .hangUp)
  closing := none

/-- As in the server, a receive that goes past the blocks of the read buffer ends the run. -/
def lifeStep (parse : Parser) (max : Nat) (l : Lifetime) : LifeEvent → Option Lifetime
  | .session e =>
    if l.ending = none then
      match e with
      | .read current env =>
        match tcpOnRead parse current max (l.handling.atEvent env) with
        | .ok r => if dataInRun < r.1.conn.readBuf.len then none else some (l.afterRead r)
        | .error _ => none
      | .write current env =>
        match tcpOnWrite current max (l.handling.atEvent env) with
        | .ok r => some (l.afterWrite r)
        | .error _ => none
      | .others arena ctxs cache =>
        (sessionStep parse max l.handling (.others arena ctxs cache)).map fun h =>
          { l with handling := h }
    else none
  | .error env =>
    if l.ending = none then
      some { l with handling := l.handling.atEvent env, ending := some .peer }
    else none
  | .close =>
    if l.ending ≠ none ∧ l.closing = none then
      match closePath l.handling with
      | .ok h =>
        let done := h.trace.drop l.handling.trace.length
        some { l with handling := h, written := l.written ++ done, closing := some done }
      | .error _ => none
    else none

/-- A connection that `connection_create` has just made. -/
structure JustCreated (conn : Connection) : Prop where
  ctx : conn.protocolCtx = none
  count : conn.requestCount = 0
  max : conn.maxRequestCount = connectionRequestCount
  cap : conn.sendBuf.cap = bufferRunSize

theorem Created.justCreated {live : List Allocation} {a : MemoryArena} {conn : Connection}
    {r w : Nat} (h : Created live a conn r w) : JustCreated conn :=
  ⟨h.ctx, h.requests.1, h.requests.2, h.sendCap⟩

/-- Nothing has happened on the connection yet. -/
def Lifetime.start (h : Handling) : Lifetime := ⟨h, [], 0, [], none, none⟩

/-! ## Between two events -/

/-- No request was processed and nothing was sent. -/
def Action.plain : Action → Bool
  | .process _ | .send _ _ | .epollMod _ _ => false
  | _ => true

theorem Action.plain_of_inner {a : Action} (h : a.inner = true) : a.plain = true := by
  cases a <;> first | rfl | cases h

theorem RouteSteps.plain {ctx : Nat} {h h' : Handling} (hsteps : RouteSteps ctx h h') :
    ∃ new, h'.trace = h.trace ++ new ∧ ∀ a ∈ new, a.plain = true := by
  induction hsteps with
  | refl => exact ⟨[], (List.append_nil _).symm, fun a ha => by cases ha⟩
  | tail _ hstep ih =>
    obtain ⟨new, htrace, hnew⟩ := ih
    have hlast : ∀ x : Action, x.plain = true → ∀ a ∈ new ++ [x], a.plain = true := by
      intro x hx a ha
      obtain hold | hlast := List.mem_append.1 ha
      · exact hnew a hold
      · exact List.mem_singleton.1 hlast ▸ hx
    cases hstep with
    | openFile name result =>
      exact ⟨_, (congrArg (· ++ _) htrace).trans (List.append_assoc _ _ _), hlast _ rfl⟩
    | closeFd fd =>
      exact ⟨_, (congrArg (· ++ _) htrace).trans (List.append_assoc _ _ _), hlast _ rfl⟩
    | cache cache => exact ⟨new, htrace, hnew⟩
    | response res _ => exact ⟨new, htrace, hnew⟩

theorem requests_plain {trace : List Action} (h : ∀ a ∈ trace, a.plain = true) :
    requests trace = [] := by
  apply List.filterMap_eq_nil_iff.2
  intro a ha
  have hplain := h a ha
  cases a with
  | process req => cases hplain
  | _ => rfl

/-- The connection has the buffer and the requests that `connection_create` gave it. -/
structure Sender (conn : Connection) : Prop where
  cap : conn.sendBuf.cap = bufferRunSize
  max : conn.maxRequestCount = connectionRequestCount
  count : conn.requestCount ≤ conn.maxRequestCount

/-- Where an open connection stands: before any request, between a request and its answer,
or in the body of an answer. A connection is not open in its first answer, and not
without keep-alive. -/
inductive Standing (h : Handling) : List Answering → Prop
  | new : h.conn.protocolCtx = none → Standing h []
  | partway (ctx : Nat) : h.conn.protocolCtx = some ctx →
      (h.ctxs ctx).httpRes = HttpContext.zero.httpRes → 1 ≤ h.conn.requestCount → Standing h []
  | waiting (ctx : Nat) (g : Handling) (answers : List Answering) : h.conn.protocolCtx = some ctx →
      (h.ctxs ctx).httpRes.sendSt = .wait → (h.ctxs ctx).httpRes.Routed →
      1 ≤ h.conn.requestCount →
      (h.conn.requestCount ≤ 1 → answers = [] ∧ (h.ctxs ctx).httpRes.bodyOff = 0) →
      h.conn.isKeepAlive = true → h.conn.connSt ≠ .closing → Standing h (⟨g, []⟩ :: answers)
  | inBody (ctx : Nat) (a : Answering) (answers : List Answering) :
      h.conn.protocolCtx = some ctx → (h.ctxs ctx).httpRes.sendSt = .body → h.conn.Drained →
      3 ≤ h.conn.requestCount → h.conn.isKeepAlive = true → h.conn.connSt ≠ .closing →
      Standing h (a :: answers)

/-- Only the connection and the response in its context matter. -/
theorem Standing.same {h h' : Handling} {answers : List Answering} (hs : Standing h answers)
    (hconn : h'.conn = h.conn)
    (hres : ∀ ctx, h.conn.protocolCtx = some ctx → (h'.ctxs ctx).httpRes = (h.ctxs ctx).httpRes) :
    Standing h' answers := by
  cases hs with
  | new hctx => exact .new (hconn ▸ hctx)
  | partway ctx hctx hzero hcount =>
    apply Standing.partway ctx
    · rw [hconn, hctx]
    · rw [hres ctx hctx, hzero]
    · rw [hconn]
      exact hcount
  | waiting ctx g answers hctx hwait hrouted hcount hfirst hkeep hst =>
    have hsame := hres ctx hctx
    apply Standing.waiting ctx g answers
    · rw [hconn, hctx]
    · rw [hsame, hwait]
    · rw [hsame]
      exact hrouted
    · rw [hconn]
      exact hcount
    · rw [hconn, hsame]
      exact hfirst
    · rw [hconn, hkeep]
    · rw [hconn]
      exact hst
  | inBody ctx a answers hctx hbody hdrained hcount hkeep hst =>
    apply Standing.inBody ctx a answers
    · rw [hconn, hctx]
    · rw [hres ctx hctx, hbody]
    · rw [hconn]
      exact hdrained
    · rw [hconn]
      exact hcount
    · rw [hconn, hkeep]
    · rw [hconn]
      exact hst

/-- A connection that nothing was read from has no context. -/
theorem Standing.unused {h : Handling} {answers : List Answering} (hs : Standing h answers)
    (hcount : h.conn.requestCount = 0) : h.conn.protocolCtx = none ∧ answers = [] := by
  cases hs with
  | new hctx => exact ⟨hctx, rfl⟩
  | partway | waiting | inBody => omega

/-! ## Reading -/

section

variable {parse : Parser} {h h₁ g : Handling} {ctx : Nat} {answers : List Answering}

theorem Sender.received (hsender : Sender h.conn) (hrecv : Receives h.conn h.received.conn)
    (hparses : Parses h.received ctx h₁) : Sender h₁.conn := by
  have hcount := hsender.count
  have hroom := hrecv.room
  rw [hparses.conn]
  constructor
  · exact (congrArg Buffer.cap hrecv.sendBuf).trans hsender.cap
  · exact hrecv.max.trans hsender.max
  · show h.received.conn.requestCount ≤ h.received.conn.maxRequestCount
    rw [hrecv.count, hrecv.max]
    omega

/-- A request that is not complete changes nothing but the count. -/
theorem Standing.received (hs : Standing h answers) (hrecv : Receives h.conn h.received.conn)
    (hparses : Parses h.received ctx h₁) : Standing h₁ answers := by
  have hown : h₁.conn.protocolCtx = some ctx := by rw [hparses.conn]
  have hcount : h₁.conn.requestCount = h.conn.requestCount + 1 := by
    rw [hparses.conn]
    exact hrecv.count
  have hkeep : h₁.conn.isKeepAlive = h.conn.isKeepAlive := by
    rw [hparses.conn]
    exact hrecv.keepAlive
  have hst : h₁.conn.connSt ≠ .closing := by
    rw [hparses.conn]
    exact hrecv.status ▸ ConnectionStatus.noConfusion
  have hres : ∀ p, h.conn.protocolCtx = some p →
      p = ctx ∧ (h₁.ctxs ctx).httpRes = (h.ctxs ctx).httpRes := by
    intro p hp
    have hp' : h.received.conn.protocolCtx = some p := hrecv.ctx.trans hp
    refine ⟨hparses.own p hp', hparses.kept ?_⟩
    rw [hp']
    exact Option.some_ne_none p
  cases hs with
  | new hctx =>
    apply Standing.partway ctx hown
    · exact hparses.zero (hrecv.ctx.trans hctx)
    · omega
  | partway p hctx hzero =>
    obtain ⟨rfl, hsame⟩ := hres p hctx
    apply Standing.partway p hown
    · exact hsame.trans hzero
    · omega
  | waiting p g answers hctx hwait hrouted hcount' hfirst hkeep' hst' =>
    obtain ⟨rfl, hsame⟩ := hres p hctx
    apply Standing.waiting p g answers hown
    · rw [hsame, hwait]
    · rw [hsame]
      exact hrouted
    · omega
    · omega
    · rw [hkeep, hkeep']
    · exact hst
  | inBody p a answers hctx hbody hdrained hcount' hkeep' hst' =>
    obtain ⟨rfl, hsame⟩ := hres p hctx
    apply Standing.inBody p a answers hown
    · rw [hsame, hbody]
    · right
      rw [hparses.conn]
      exact hrecv.drained hdrained
    · omega
    · rw [hkeep, hkeep']
    · exact hst

/-- An accepted request waits for its answer. -/
theorem Standing.answered (hs : Standing h answers) (hrecv : Receives h.conn h.received.conn)
    (hparses : Parses h.received ctx h₁) (hanswered : Answered h₁ ctx g)
    (hversion : (h₁.ctxs ctx).httpReq.minorVersion ≠ 0) (g' : Handling) :
    Standing g (⟨g', []⟩ :: answers) := by
  have hreply := replyTo_reply (h₁.ctxs ctx).httpReq (fileOf h₁ (h₁.ctxs ctx).httpReq)
    (h₁.ctxs ctx).httpRes
  have hcount : g.conn.requestCount = h.conn.requestCount + 1 := by
    rw [hanswered.conn, hparses.conn]
    exact hrecv.count
  apply Standing.waiting ctx g' answers
  · rw [hanswered.conn, hparses.conn]
  · rw [hanswered.own]
    exact hreply.sendSt
  · rw [hanswered.own]
    exact hreply.routed
  · omega
  · intro hfirst
    obtain ⟨hnone, hnil⟩ := hs.unused (by omega)
    refine ⟨hnil, ?_⟩
    rw [hanswered.own]
    exact hreply.bodyOff.trans (congrArg HttpResponse.bodyOff (hparses.zero (hrecv.ctx.trans hnone)))
  · rw [hanswered.conn]
    exact decide_eq_true hversion
  · rw [hanswered.conn, hparses.conn]
    exact hrecv.status ▸ ConnectionStatus.noConfusion

end

/-- A response is there, and waits for its first write. -/
def Handling.Awaits (h : Handling) : Prop :=
  ∃ ctx, h.conn.protocolCtx = some ctx ∧ (h.ctxs ctx).httpRes.sendSt = .wait ∧
    0 < (h.ctxs ctx).httpRes.statusCode

/-- The latest answer was not begun. -/
def Unbegun (answers : List Answering) : Prop := ∃ g rest, answers = ⟨g, []⟩ :: rest

theorem Standing.unbegun {h : Handling} {answers : List Answering} (hs : Standing h answers)
    (hwaits : h.Awaits) : Unbegun answers := by
  obtain ⟨p, hown, hwait, hstatus⟩ := hwaits
  cases hs with
  | new hctx =>
    rw [hctx] at hown
    cases hown
  | partway ctx hctx hzero =>
    obtain rfl := Option.some.inj (hctx.symm.trans hown)
    rw [hzero] at hstatus
    cases hstatus
  | waiting ctx g rest => exact ⟨g, rest, rfl⟩
  | inBody ctx a rest hctx hbody =>
    obtain rfl := Option.some.inj (hctx.symm.trans hown)
    rw [hbody] at hwait
    cases hwait

theorem Handling.not_awaits {h : Handling} {ctx : Nat} (hown : h.conn.protocolCtx = some ctx)
    (hst : (h.ctxs ctx).httpRes.sendSt ≠ .wait) : ¬ h.Awaits := by
  rintro ⟨p, hp, hwait, -⟩
  obtain rfl := Option.some.inj (hown.symm.trans hp)
  exact hst hwait

/-- What holds of a connection as long as it is there. -/
structure Lifetime.Kept (l : Lifetime) : Prop where
  cap : l.closing = none → l.handling.conn.sendBuf.cap = bufferRunSize
  sender : l.ending = none → Sender l.handling.conn
  standing : l.ending = none → Standing l.handling l.answers
  unbegun : l.closing = none → l.ending ≠ some .refused → l.handling.Awaits → Unbegun l.answers

/-- Of a connection that has ended the buffer is left, and what waits in its context. -/
theorem Lifetime.kept_ended {h : Handling} {answers : List Answering} {parsed : Nat}
    {written : List Action} {ending : Ending} (hcap : h.conn.sendBuf.cap = bufferRunSize)
    (hunbegun : ending ≠ .refused → h.Awaits → Unbegun answers) :
    Lifetime.Kept ⟨h, answers, parsed, written, some ending, none⟩ := by
  refine ⟨fun _ => hcap, fun hnone => ?_, fun hnone => ?_, fun _ hnot => hunbegun fun hrefused => ?_⟩
  · cases hnone
  · cases hnone
  · exact hnot (congrArg some hrefused)

/-- Nothing was sent. -/
def Action.silent : Action → Bool
  | .send _ _ => false
  | _ => true

theorem Action.silent_of_plain {a : Action} (h : a.plain = true) : a.silent = true := by
  cases a <;> first | rfl | cases h

theorem Handling.accepts_plain {h : Handling} (hplain : ∀ a ∈ h.trace, a.plain = true) :
    h.accepts = false := by
  apply List.any_eq_false.2
  intro a ha hmod
  have hp := hplain a ha
  rw [of_decide_eq_true hmod] at hp
  cases hp

/-- What a read event makes of an open connection. -/
inductive ReadLife (parse : Parser) (current max : Nat) (env : Env) (l : Lifetime) : Lifetime → Prop
  | idle (h : Handling) (ending : Option Ending) : (∀ a ∈ h.trace, a.silent = true) →
      ending = none ∨ ending = some .dropped →
      ReadLife parse current max env l ⟨h, l.answers, l.parsed, l.written ++ h.trace, ending, none⟩
  | refused (h : Handling) (ctx : Nat) (fd : Int) (before : List Action) :
      (∀ a ∈ before, a.silent = true) → h.trace = before ++ [.send fd
        (closingHead.take (socketTaken env.sends closingHead.length)), .recycleCtx ctx] →
      Receives l.handling.conn (l.handling.atEvent env).received.conn →
      (l.handling.atEvent env).received.Completes parse →
      (l.handling.atEvent env).received.check parse ≠ 0 →
      ReadLife parse current max env l
        ⟨h, l.answers, l.parsed + 1, l.written ++ h.trace, some .refused, none⟩
  | accepted (h : Handling) (hung : Bool) : (∀ a ∈ h.trace, a.silent = true) →
      Receives l.handling.conn (l.handling.atEvent env).received.conn →
      (l.handling.atEvent env).received.Completes parse →
      (l.handling.atEvent env).received.check parse = 0 →
      (hung = true → max / 10 * 9 ≤ current ∨
        ((l.handling.atEvent env).received.complete parse).minorVersion = 0) →
      ReadLife parse current max env l
        ⟨h, ⟨h, []⟩ :: l.answers, l.parsed + 1, l.written ++ h.trace,
          if hung then some .hangUp else none, none⟩

section

variable {parse : Parser} {current max : Nat} {env : Env} {l : Lifetime} {r : Handling × Verdict}

theorem Lifetime.afterRead_plain (hplain : ∀ a ∈ r.1.trace, a.plain = true) :
    ∃ ending, (r.2 = .keep ∧ ending = none ∨ r.2 = .close ∧ ending = some .dropped) ∧
      l.afterRead r = ⟨r.1, l.answers, l.parsed, l.written ++ r.1.trace, ending, none⟩ := by
  obtain ⟨h, v⟩ := r
  unfold Lifetime.afterRead
  simp only [Handling.accepts_plain hplain, requests_plain hplain]
  cases v with
  | keep => exact ⟨none, .inl ⟨rfl, rfl⟩, rfl⟩
  | close => exact ⟨some .dropped, .inr ⟨rfl, rfl⟩, rfl⟩

/-- Up to the answer of the router nothing is sent. -/
theorem httpProtocolProcess_logs {h₁ g : Handling} {ctx : Nat} {ret : Int}
    (hparses : Parses (l.handling.atEvent env).received ctx h₁)
    (hproc : httpProtocolProcess h₁ = .ok (g, ret)) :
    (∀ a ∈ g.trace, a.silent = true ∧ ∀ fd writable, a ≠ .epollMod fd writable) ∧
      requests g.trace = [(h₁.ctxs ctx).httpReq] := by
  have hquiet : ∀ a : Action, a.plain = true →
      a.silent = true ∧ ∀ fd writable, a ≠ .epollMod fd writable := by
    intro a hplain
    refine ⟨Action.silent_of_plain hplain, fun fd writable heq => ?_⟩
    rw [heq] at hplain
    cases hplain
  obtain ⟨new, htrace, hnew⟩ := hparses.trace
  have hplain : ∀ a ∈ new, a.plain = true := fun a ha => Action.plain_of_inner (hnew a ha)
  have hown : h₁.conn.protocolCtx = some ctx := by rw [hparses.conn]
  obtain ⟨routed, hroute, hrouted⟩ := (RouteSteps.process hown hproc).plain
  have hlogged : g.trace = new ++ [.useCtx ctx, .process (h₁.ctxs ctx).httpReq] ++ routed := by
    have htrace' : h₁.trace = new := htrace
    rw [hroute, ← htrace']
    exact congrArg (· ++ routed) (List.append_assoc _ _ _)
  rw [hlogged]
  constructor
  · intro a ha
    obtain hbegun | hlast := List.mem_append.1 ha
    · obtain hold | hinit := List.mem_append.1 hbegun
      · exact hquiet a (hplain a hold)
      · simp only [List.mem_cons, List.not_mem_nil, or_false] at hinit
        obtain rfl | rfl := hinit
        · exact ⟨rfl, fun _ _ => Action.noConfusion⟩
        · exact ⟨rfl, fun _ _ => Action.noConfusion⟩
    · exact hquiet a (hrouted a hlast)
  · rw [requests_append, requests_append, requests_plain hplain, requests_plain hrouted]
    rfl

theorem Lifetime.afterRead_refused {h : Handling} {before : List Action} {req : HttpRequest}
    {fd : Int} {bytes : List Byte} {ctx : Nat}
    (hquiet : ∀ a ∈ before, ∀ fd writable, a ≠ .epollMod fd writable)
    (hreqs : requests before = [req]) (htrace : h.trace = before ++ [.send fd bytes, .recycleCtx ctx]) :
    l.afterRead (h, .close) =
      ⟨h, l.answers, l.parsed + 1, l.written ++ h.trace, some .refused, none⟩ := by
  have hone : requests h.trace = [req] := by
    rw [htrace, requests_append, hreqs]
    rfl
  have hnot : h.accepts = false := by
    apply List.any_eq_false.2
    intro a ha hmod
    rw [htrace, of_decide_eq_true hmod] at ha
    obtain hold | hnew := List.mem_append.1 ha
    · exact hquiet _ hold _ _ rfl
    · simp at hnew
  unfold Lifetime.afterRead
  simp only [hnot, hone, Bool.false_eq_true, ↓reduceIte, List.cons_ne_nil]
  rfl

theorem Lifetime.afterRead_accepted {g : Handling} {req : HttpRequest}
    (hreqs : requests g.trace = [req]) :
    l.afterRead (verdict current max (g.log (.epollMod g.conn.fd true))) =
      ⟨g.log (.epollMod g.conn.fd true), ⟨g.log (.epollMod g.conn.fd true), []⟩ :: l.answers,
        l.parsed + 1, l.written ++ (g.log (.epollMod g.conn.fd true)).trace,
        if isCloseConnection current max g.conn then some .hangUp else none, none⟩ := by
  have haccepts : (g.log (.epollMod g.conn.fd true)).accepts = true := by
    apply List.any_eq_true.2
    exact ⟨_, List.mem_append_right _ (List.mem_singleton.2 rfl), decide_eq_true rfl⟩
  have hone : requests (g.log (.epollMod g.conn.fd true)).trace = [req] := by
    rw [Handling.log, requests_append, hreqs]
    rfl
  have hconn : (g.log (.epollMod g.conn.fd true)).conn = g.conn := rfl
  unfold Lifetime.afterRead verdict
  simp only [haccepts, hone, hconn, ↓reduceIte]
  cases isCloseConnection current max g.conn <;> rfl

/-- A read event with no bytes, or no context for them. -/
theorem dropped_life (hl : l.Kept) (hopen : l.ending = none)
    (hrecv : Receiving l.handling.conn (l.handling.atEvent env).received.conn) :
    ReadLife parse current max env l (l.afterRead ((l.handling.atEvent env).received, .close)) ∧
      (l.afterRead ((l.handling.atEvent env).received, .close)).Kept := by
  have hplain : ∀ a ∈ (l.handling.atEvent env).received.trace, a.plain = true :=
    fun a ha => by cases ha
  obtain ⟨ending, ⟨hkeep, -⟩ | ⟨-, rfl⟩, hafter⟩ :=
    @Lifetime.afterRead_plain l ((l.handling.atEvent env).received, .close) hplain
  · cases hkeep
  rw [hafter]
  constructor
  · exact .idle _ _ (fun a ha => Action.silent_of_plain (hplain a ha)) (.inr rfl)
  · apply Lifetime.kept_ended ((congrArg Buffer.cap hrecv.sendBuf).trans (hl.sender hopen).cap)
    rintro - ⟨ctx, hown, hwaits⟩
    exact (hl.standing hopen).unbegun ⟨ctx, hrecv.ctx.symm.trans hown, hwaits⟩

theorem tcpOnRead_life (hl : l.Kept) (hopen : l.ending = none)
    (hread : tcpOnRead parse current max (l.handling.atEvent env) = .ok r) :
    ReadLife parse current max env l (l.afterRead r) ∧ (l.afterRead r).Kept := by
  have hsender := hl.sender hopen
  have hstanding : Standing (l.handling.atEvent env) l.answers :=
    (hl.standing hopen).same rfl fun _ _ => rfl
  have hcases := tcpOnRead_cases hread
  cases hcases with
  | unread hrecv => exact dropped_life hl hopen hrecv
  | unparsed hrecv hctx => exact dropped_life hl hopen hrecv.toReceiving
  | incomplete ctx h₁ v hrecv hparses =>
    obtain ⟨new, htrace, hnew⟩ := hparses.trace
    have htrace' : h₁.trace = new := htrace
    have hplain : ∀ a ∈ h₁.trace, a.plain = true := by
      rw [htrace']
      exact fun a ha => Action.plain_of_inner (hnew a ha)
    obtain ⟨ending, hending, hafter⟩ := @Lifetime.afterRead_plain l (h₁, v) hplain
    rw [hafter]
    have hkept := @Sender.received (l.handling.atEvent env) h₁ ctx hsender hrecv hparses
    constructor
    · exact .idle h₁ ending (fun a ha => Action.silent_of_plain (hplain a ha))
        (hending.imp And.right And.right)
    · have hstands := hstanding.received hrecv hparses
      exact ⟨fun _ => hkept.cap, fun _ => hkept, fun _ => hstands, fun _ _ => hstands.unbegun⟩
  | refused ctx h₁ h₂ ret hrecv hparses hall hcheck hproc hclose =>
    have hown : (initResponse h₁ ctx).conn.protocolCtx = some ctx := by
      show h₁.conn.protocolCtx = some ctx
      rw [hparses.conn]
    have hcap₁ : (initResponse h₁ ctx).conn.sendBuf.cap = bufferRunSize :=
      (@Sender.received (l.handling.atEvent env) h₁ ctx hsender hrecv hparses).cap
    obtain ⟨hsame, hsent, -⟩ := httpProtocolClose_sends hown hcap₁ hclose
    obtain ⟨hquiet, hreqs⟩ := httpProtocolProcess_logs hparses hproc
    have henv : (initResponse h₁ ctx).env = env := hparses.env
    rw [henv] at hsent
    rw [Lifetime.afterRead_refused (fun a ha => (hquiet a ha).2) hreqs hsent]
    constructor
    · exact .refused h₂ ctx _ _ (fun a ha => (hquiet a ha).1) hsent hrecv hall hcheck
    · exact Lifetime.kept_ended (hsame.cap.trans hcap₁) fun hnot => absurd rfl hnot
  | accepted ctx h₁ g hrecv hparses hall hcheck hreq hproc hanswered =>
    have hsender₁ := @Sender.received (l.handling.atEvent env) h₁ ctx hsender hrecv hparses
    have hsender' : Sender g.conn := by
      rw [hanswered.conn]
      exact ⟨hsender₁.cap, hsender₁.max, hsender₁.count⟩
    obtain ⟨hquiet, hreqs⟩ := httpProtocolProcess_logs hparses hproc
    have hst : g.conn.connSt = .reading := by
      rw [hanswered.conn, hparses.conn]
      exact hrecv.status
    have honce : g.conn.isKeepAlive = false ↔
        ((l.handling.atEvent env).received.complete parse).minorVersion = 0 := by
      rw [hanswered.conn, hreq]
      exact decide_eq_false_iff_not.trans not_not
    rw [Lifetime.afterRead_accepted hreqs]
    constructor
    · apply ReadLife.accepted
      · intro a ha
        obtain hold | hlast := List.mem_append.1 ha
        · exact (hquiet a hold).1
        · rw [List.mem_singleton.1 hlast]
          rfl
      · exact hrecv
      · exact hall
      · exact hcheck
      · exact fun hhung => ((isCloseConnection_reading hst).1 hhung).imp_right honce.1
    · refine ⟨fun _ => hsender'.cap, fun _ => hsender', fun hnone => ?_, fun _ _ _ => ⟨_, _, rfl⟩⟩
      have hversion : (h₁.ctxs ctx).httpReq.minorVersion ≠ 0 := by
        rw [hreq]
        intro hzero
        simp only [(isCloseConnection_reading hst).2 (.inr (honce.2 hzero)), ↓reduceIte] at hnone
        cases hnone
      exact (hstanding.answered hrecv hparses hanswered hversion _).same rfl fun _ _ => rfl

end

/-! ## Writing -/

theorem tcpOnWrite_ok {current max : Nat} {h : Handling} {r : Handling × Verdict}
    (hcall : tcpOnWrite current max h = .ok r) : ∃ h₁ ret ctx,
      httpProtocolWrite h = .ok (h₁, ret) ∧ h₁.conn.protocolCtx = some ctx ∧
      ((h₁.ctxs ctx).httpRes.sendSt = .body → r = verdict current max h₁) ∧
      ((h₁.ctxs ctx).httpRes.sendSt = .error → r = (h₁, .close)) := by
  obtain ⟨-, h₁, ret, ctx, hwrite, hctx, hcase⟩ := tcpOnWrite_cases hcall
  refine ⟨h₁, ret, ctx, hwrite, hctx, fun hbody => ?_, fun herror => ?_⟩
  · cases hcase with
    | reset hst =>
      rw [hbody] at hst
      cases hst
    | going => rfl
    | failed hst =>
      rw [hbody] at hst
      cases hst
  · cases hcase with
    | reset hst =>
      rw [herror] at hst
      cases hst
    | going _ hst => exact absurd herror hst
    | failed => rfl

/-- What a write event makes of an open connection. -/
inductive WriteLife (current max : Nat) (env : Env) (l : Lifetime) : Lifetime → Prop
  | refused (ctx : Nat) (head : List Byte) (k : Nat) (h g : Handling) (answers : List Answering) :
      l.answers = ⟨g, []⟩ :: answers → h.trace = [.useCtx ctx, .send l.handling.conn.fd (head.take k)] →
      WriteLife current max env l
        ⟨h, ⟨h, h.trace⟩ :: answers, l.parsed, l.written ++ h.trace, some .dropped, none⟩
  | passed (ctx len : Nat) (conn : Connection) (rest : List SendOutcome) (bytes : List Byte)
      (r : Handling × Int) (g : Handling) (answers : List Answering) (hung : Bool) :
      l.answers = ⟨g, []⟩ :: answers → l.handling.conn.protocolCtx = some ctx →
      (l.handling.ctxs ctx).httpRes.sendSt = .wait → (l.handling.ctxs ctx).httpRes.Routed →
      ((l.handling.ctxs ctx).httpRes.bodyFd ≤ 0 → len = 0) →
      (0 < (l.handling.ctxs ctx).httpRes.bodyFd → len = env.fileSize) →
      HeadPassed l.handling.conn env.sends
        (headOf l.handling.conn (l.handling.ctxs ctx).httpRes len) conn bytes →
      SameSender l.handling.conn conn →
      BodyCase ((l.handling.atEvent env).answering ctx len .body conn rest bytes) ctx r →
      (hung = true → max / 10 * 9 ≤ current ∨ l.handling.conn.requestCount ≤ 1 ∧ answers = [] ∧
        (l.handling.ctxs ctx).httpRes.bodyOff = 0) →
      WriteLife current max env l ⟨r.1, ⟨r.1, r.1.trace⟩ :: answers, l.parsed, l.written ++ r.1.trace,
        if hung then some .hangUp else none, none⟩
  | body (ctx : Nat) (r : Handling × Int) (a : Answering) (answers : List Answering) (hung : Bool) :
      l.answers = a :: answers → l.handling.conn.protocolCtx = some ctx →
      (l.handling.ctxs ctx).httpRes.sendSt = .body →
      BodyCase ((l.handling.atEvent env).log (.useCtx ctx)) ctx r →
      (hung = true → max / 10 * 9 ≤ current) →
      WriteLife current max env l ⟨r.1, ⟨r.1, a.out ++ r.1.trace⟩ :: answers, l.parsed,
        l.written ++ r.1.trace, if hung then some .hangUp else none, none⟩

section

variable {current max : Nat} {env : Env} {l : Lifetime} {r : Handling × Verdict} {h : Handling}
  {ctx : Nat}

theorem Lifetime.afterWrite_verdict (hown : h.conn.protocolCtx = some ctx)
    (hbody : (h.ctxs ctx).httpRes.sendSt = .body) : l.afterWrite (verdict current max h) =
      ⟨h, resume h l.answers, l.parsed, l.written ++ h.trace,
        if isCloseConnection current max h.conn then some .hangUp else none, none⟩ := by
  have hsend : h.unsendable = false := by
    unfold Handling.unsendable
    simp only [hown, hbody]
    rfl
  unfold Lifetime.afterWrite verdict
  simp only [hsend, Bool.false_eq_true, ↓reduceIte]
  cases isCloseConnection current max h.conn <;> rfl

theorem Lifetime.afterWrite_error (hown : h.conn.protocolCtx = some ctx)
    (herror : (h.ctxs ctx).httpRes.sendSt = .error) : l.afterWrite (h, .close) =
      ⟨h, resume h l.answers, l.parsed, l.written ++ h.trace, some .dropped, none⟩ := by
  have hsend : h.unsendable = true := by
    unfold Handling.unsendable
    simp only [hown, herror]
    rfl
  unfold Lifetime.afterWrite
  simp only [hsend, ↓reduceIte]

section

variable {conn conn' : Connection} {sends : List SendOutcome} {head bytes : List Byte}

theorem HeadPassed.sender (hpassed : HeadPassed conn sends head conn' bytes)
    (hsame : SameSender conn conn') (hsender : Sender conn) : Sender conn' := by
  have hcount := hsender.count
  refine ⟨hsame.cap.trans hsender.cap, hsame.max.trans hsender.max, ?_⟩
  rw [hsame.max]
  cases hpassed with
  | full hfull hcount' => omega
  | taken hroom htakes hcount' => omega

/-- A head that is not refused leaves the connection idle, or used up. -/
theorem HeadPassed.used (hpassed : HeadPassed conn sends head conn' bytes) (hsender : Sender conn) :
    conn'.connSt = .idle ∧ conn'.requestCount = conn.requestCount + 1 ∨
      conn'.connSt = conn.connSt ∧ 3 ≤ conn'.requestCount := by
  have hmax := hsender.max
  simp only [connectionRequestCount] at hmax
  cases hpassed with
  | full hfull hcount hst => exact .inr ⟨hst, by omega⟩
  | taken _ _ hcount hidle => exact .inl ⟨hidle, hcount⟩

end

/-- A connection in the body of an answer stays open if it has been used before. -/
theorem Lifetime.kept_inBody {a : Answering} {answers : List Answering} {parsed : Nat}
    {written : List Action} (hsender : Sender h.conn) (hown : h.conn.protocolCtx = some ctx)
    (hbody : (h.ctxs ctx).httpRes.sendSt = .body) (hdrained : h.conn.Drained)
    (hkeep : h.conn.isKeepAlive = true) (hst : h.conn.connSt ≠ .closing)
    (hused : h.conn.connSt = .idle ∨ 3 ≤ h.conn.requestCount) :
    Lifetime.Kept ⟨h, a :: answers, parsed, written,
      if isCloseConnection current max h.conn then some .hangUp else none, none⟩ := by
  have hnot : ¬ h.Awaits := Handling.not_awaits hown (by rw [hbody]; exact HttpSendRet.noConfusion)
  refine ⟨fun _ => hsender.cap, fun _ => hsender, fun hnone => ?_, fun _ _ hwaits => absurd hwaits hnot⟩
  have hstays : ¬ (max / 10 * 9 ≤ current ∨ h.conn.requestCount ≤ 2 ∧ h.conn.connSt = .idle) := by
    intro hclose
    simp only [isCloseConnection_keepAlive hkeep hst, hclose, decide_true, ↓reduceIte] at hnone
    cases hnone
  apply Standing.inBody ctx a answers hown hbody hdrained _ hkeep hst
  obtain hidle | hcount := hused
  · by_contra hfew
    exact hstays (.inr ⟨by omega, hidle⟩)
  · exact hcount

/-- The first write of an answer. -/
theorem tcpOnWrite_first {g h₁ : Handling} {ret : Int} {answers : List Answering}
    (hanswers : l.answers = ⟨g, []⟩ :: answers) (hresponding : Responding l.handling ctx)
    (hsender : Sender l.handling.conn) (hsize : env.fileSize < 2 ^ 63)
    (hfirst : l.handling.conn.requestCount ≤ 1 →
      answers = [] ∧ (l.handling.ctxs ctx).httpRes.bodyOff = 0)
    (hkeep : l.handling.conn.isKeepAlive = true) (hst : l.handling.conn.connSt ≠ .closing)
    (hwrite : httpProtocolWrite (l.handling.atEvent env) = .ok (h₁, ret))
    (hown : h₁.conn.protocolCtx = some ctx)
    (hverdict : (h₁.ctxs ctx).httpRes.sendSt = .body → r = verdict current max h₁)
    (herror : (h₁.ctxs ctx).httpRes.sendSt = .error → r = (h₁, .close)) :
    WriteLife current max env l (l.afterWrite r) ∧ (l.afterWrite r).Kept := by
  obtain ⟨-, hnull⟩ | ⟨-, len, htext, hfile, hcases⟩ := hresponding.begin hsize
  · rw [hnull] at hwrite
    cases hwrite
  generalize hmade : httpProtocolWrite (l.handling.atEvent env) = made at hcases
  rw [hmade] at hwrite
  cases hcases with
  | passed conn rest bytes hpassed hsame hdrained =>
    have hcase := sendBody_ok hdrained hwrite
    have hconn : h₁.conn = conn := hcase.conn
    have hsender' := hpassed.sender hsame hsender
    have hkeep' : conn.isKeepAlive = true := hsame.keepAlive.trans hkeep
    obtain ⟨off, hres⟩ := hcase.httpRes
    have hbody : (h₁.ctxs ctx).httpRes.sendSt = .body := by
      rw [hres, Handling.answering_httpRes]
    have hused : conn.connSt = .idle ∧ conn.requestCount = l.handling.conn.requestCount + 1 ∨
        conn.connSt = l.handling.conn.connSt ∧ 3 ≤ conn.requestCount := hpassed.used hsender
    have hst' : conn.connSt ≠ .closing := by
      obtain ⟨hidle, -⟩ | ⟨hsameSt, -⟩ := hused
      · exact hidle ▸ ConnectionStatus.noConfusion
      · exact hsameSt ▸ hst
    rw [hverdict hbody, Lifetime.afterWrite_verdict hown hbody, hanswers]
    constructor
    · apply WriteLife.passed ctx len conn rest bytes (h₁, ret) g answers
      · exact hanswers
      · exact hresponding.own
      · exact hresponding.waiting
      · exact hresponding.routed
      · exact htext
      · exact hfile
      · exact hpassed
      · exact hsame
      · exact hcase
      · intro hhung
        rw [hconn, isCloseConnection_keepAlive hkeep' hst'] at hhung
        obtain hload | ⟨hearly, -⟩ := of_decide_eq_true hhung
        · exact .inl hload
        · have hcount : l.handling.conn.requestCount ≤ 1 := by omega
          exact .inr ⟨hcount, hfirst hcount⟩
    · apply Lifetime.kept_inBody
      · exact hconn.symm ▸ hsender'
      · exact hown
      · exact hbody
      · exact hconn.symm ▸ hdrained
      · exact hconn.symm ▸ hkeep'
      · exact hconn.symm ▸ hst'
      · exact hconn.symm ▸ hused.imp And.left And.right
  | refused k conn rest hroom htakes hk hsame =>
    cases hwrite
    have hbody : ((((l.handling.atEvent env).answering ctx len .error conn rest
        ((headOf l.handling.conn (l.handling.ctxs ctx).httpRes len).take k)).ctxs ctx).httpRes).sendSt =
          .error := by
      rw [Handling.answering_httpRes]
    rw [herror hbody, Lifetime.afterWrite_error hown hbody, hanswers]
    constructor
    · exact .refused ctx _ k _ g answers hanswers rfl
    · apply Lifetime.kept_ended (hsame.cap.trans hsender.cap)
      intro _ hwaits
      exact absurd hwaits (Handling.not_awaits hown fun hwait => by cases hbody.symm.trans hwait)

theorem tcpOnWrite_life (hl : l.Kept) (hopen : l.ending = none) (hsize : env.fileSize < 2 ^ 63)
    (hcall : tcpOnWrite current max (l.handling.atEvent env) = .ok r) :
    WriteLife current max env l (l.afterWrite r) ∧ (l.afterWrite r).Kept := by
  have hsender := hl.sender hopen
  obtain ⟨h₁, ret, ctx₁, hwrite, hown₁, hverdict, herror⟩ := tcpOnWrite_ok hcall
  have hsameCtx : ∀ ctx, l.handling.conn.protocolCtx = some ctx → ctx = ctx₁ := by
    intro ctx hctx
    have hkept := (httpProtocolWrite_answers hwrite).ctx
    rw [hown₁] at hkept
    exact Option.some.inj (hctx.symm.trans hkept.symm)
  have hstands := hl.standing hopen
  generalize hanswers : l.answers = answers at hstands
  cases hstands with
  | new hctx =>
    unfold httpProtocolWrite at hwrite
    simp only [Handling.atEvent, hctx] at hwrite
    cases hwrite
  | partway ctx hctx hzero hcount =>
    -- the response of a new context has neither a file nor a string
    have hresponding : Responding l.handling ctx := by
      refine ⟨hctx, ?_, ?_, hsender.count, hsender.cap⟩
      · rw [hzero]
        rfl
      · rw [hzero]
        exact ⟨⟨by decide, by decide⟩, by decide⟩
    obtain ⟨-, hnull⟩ | ⟨hne, -⟩ := hresponding.begin hsize
    · rw [hnull] at hwrite
      cases hwrite
    · rw [hzero] at hne
      exact absurd rfl hne
  | waiting ctx g answers hctx hwait hrouted hcount hfirst hkeep hst =>
    have hresponding : Responding l.handling ctx :=
      ⟨hctx, hwait, hrouted, hsender.count, hsender.cap⟩
    obtain rfl := hsameCtx ctx hctx
    exact tcpOnWrite_first hanswers hresponding hsender hsize hfirst hkeep hst hwrite hown₁ hverdict
      herror
  | inBody ctx a answers hctx hbody hdrained hcount hkeep hst =>
    obtain rfl := hsameCtx ctx hctx
    have hdrained' : ((l.handling.atEvent env).log (.useCtx ctx)).conn.Drained := hdrained
    rw [@httpProtocolWrite_body (l.handling.atEvent env) ctx hctx hbody] at hwrite
    have hcase := sendBody_ok hdrained' hwrite
    have hconn : h₁.conn = l.handling.conn := hcase.conn
    obtain ⟨off, hres⟩ := hcase.httpRes
    have hbody' : (h₁.ctxs ctx).httpRes.sendSt = .body := by
      rw [hres]
      exact hbody
    rw [hverdict hbody', Lifetime.afterWrite_verdict hown₁ hbody', hanswers]
    constructor
    · apply WriteLife.body ctx (h₁, ret) a answers
      · exact hanswers
      · exact hctx
      · exact hbody
      · exact hcase
      · intro hhung
        rw [hconn, isCloseConnection_keepAlive hkeep hst] at hhung
        obtain hload | ⟨hearly, -⟩ := of_decide_eq_true hhung
        · exact hload
        · omega
    · apply Lifetime.kept_inBody
      · exact hconn.symm ▸ hsender
      · exact hown₁
      · exact hbody'
      · exact hconn.symm ▸ hdrained
      · exact hconn.symm ▸ hkeep
      · exact hconn.symm ▸ hst
      · exact hconn.symm ▸ .inr hcount

end

/-! ## One event -/

/-- What an event makes of a connection. -/
inductive LifeCase (parse : Parser) (max : Nat) (l : Lifetime) : LifeEvent → Lifetime → Prop
  | read (current : Nat) (env : Env) (l' : Lifetime) : l.ending = none →
      ReadLife parse current max env l l' →
      LifeCase parse max l (.session (.read current env)) l'
  | write (current : Nat) (env : Env) (l' : Lifetime) : l.ending = none →
      WriteLife current max env l l' → LifeCase parse max l (.session (.write current env)) l'
  | others (arena : MemoryArena) (ctxs : Nat → HttpContext) (cache : RouterCache) (h : Handling) :
      l.ending = none → h.conn = l.handling.conn → LifeCase parse max l
        (.session (.others arena ctxs cache)) { l with handling := h }
  | error (env : Env) : l.ending = none → LifeCase parse max l (.error env)
      { l with handling := l.handling.atEvent env, ending := some .peer }
  | close (h : Handling) (done : List Action) : l.ending ≠ none → l.closing = none →
      ClosingWrites l.handling done → h.trace = l.handling.trace ++ done →
      LifeCase parse max l .close
        { l with handling := h, written := l.written ++ done, closing := some done }

/-- `st_size` is an `off_t`. -/
def LifeEvent.Sized : LifeEvent → Prop
  | .session (.write _ env) => env.fileSize < 2 ^ 63
  | _ => True

section

variable {parse : Parser} {max : Nat} {l l' : Lifetime} {e : LifeEvent} {h : Handling}

theorem Lifetime.start_kept (hnew : JustCreated h.conn) : (Lifetime.start h).Kept := by
  refine ⟨fun _ => hnew.cap, fun _ => ⟨hnew.cap, hnew.max, ?_⟩, fun _ => .new hnew.ctx, ?_⟩
  · rw [Lifetime.start, hnew.count]
    exact Nat.zero_le _
  · exact fun _ _ => (Standing.new hnew.ctx).unbegun

theorem lifeStep_cases (hl : l.Kept) (hsize : e.Sized) (hstep : lifeStep parse max l e = some l') :
    LifeCase parse max l e l' ∧ l'.Kept := by
  cases e with
  | session e =>
    simp only [lifeStep] at hstep
    split at hstep
    · rename_i hopen
      cases e with
      | read current env =>
        simp only at hstep
        split at hstep
        · rename_i r hread
          split at hstep
          · cases hstep
          · cases hstep
            obtain ⟨hcase, hkept⟩ := tcpOnRead_life hl hopen hread
            exact ⟨.read current env _ hopen hcase, hkept⟩
        · cases hstep
      | write current env =>
        simp only at hstep
        split at hstep
        · rename_i r hwrite
          cases hstep
          obtain ⟨hcase, hkept⟩ := tcpOnWrite_life hl hopen hsize hwrite
          exact ⟨.write current env _ hopen hcase, hkept⟩
        · cases hstep
      | others arena ctxs cache =>
        cases hstep
        have hstands := @Standing.same l.handling { l.handling with
          arena := arena
          cache := cache
          ctxs := fun p => if l.handling.conn.protocolCtx = some p then l.handling.ctxs p else ctxs p }
          l.answers (hl.standing hopen) rfl (fun ctx hctx => by simp only [hctx, ↓reduceIte])
        exact ⟨.others arena ctxs cache _ hopen rfl, fun hnone => hl.cap hnone,
          fun hnone => hl.sender hnone, fun _ => hstands, fun _ _ => hstands.unbegun⟩
    · cases hstep
  | error env =>
    simp only [lifeStep] at hstep
    split at hstep
    · rename_i hopen
      cases hstep
      refine ⟨.error env hopen, fun hnone => hl.cap hnone, fun hnone => ?_, fun hnone => ?_, ?_⟩
      · cases hnone
      · cases hnone
      · exact fun _ _ => (hl.standing hopen).unbegun
    · cases hstep
  | close =>
    simp only [lifeStep] at hstep
    split at hstep
    · rename_i hready
      split at hstep
      · rename_i h hclose
        cases hstep
        obtain ⟨done, hwrites, htrace⟩ := closePath_writes (hl.cap hready.2) hclose
        rw [htrace, List.drop_left]
        refine ⟨.close h done hready.1 hready.2 hwrites htrace, fun hnone => ?_, fun hnone => ?_,
          fun hnone => ?_, fun hnone => ?_⟩
        · cases hnone
        · exact absurd hnone hready.1
        · exact absurd hnone hready.1
        · cases hnone
      · cases hstep
    · cases hstep

end

end PingServer
