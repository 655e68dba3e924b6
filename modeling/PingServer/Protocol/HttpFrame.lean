import PingServer.Protocol.Http
import Mathlib.Logic.Relation

/-!
# What the protocol handler does and leaves alone

A write, and the work of the router, are chains of small steps: `WriteStep` and
`RouteStep`. A relation that is reflexive, transitive and holds of these steps
holds of the whole call. The first such relation is `Touches h h'`: what a
connection owns in the arena (its context, its buffers and the arena itself) is
kept on the way from `h` to `h'`.
-/

namespace PingServer

open ByteMem Relation

/-! ## Steps of a write -/

/-- One step of `http_protocol_write` on the context at `ctx`. -/
inductive WriteStep (ctx : Nat) (h : Handling) : Handling → Prop
  | use : WriteStep ctx h (h.log (.useCtx ctx))
  | buffer (b : Buffer) : b.addr = h.conn.sendBuf.addr → WriteStep ctx h (h.setSendBuf b)
  | response (res : HttpResponse) : res.bodyFd = (h.ctxs ctx).httpRes.bodyFd →
      ((h.ctxs ctx).httpRes.sendSt ≠ .done → res.sendSt ≠ .done) →
      WriteStep ctx h (h.setRes ctx res)
  | send (h' : Handling) (ret : Int) : h.send = .ok (h', ret) → WriteStep ctx h h'
  | sendFd : WriteStep ctx h (h.sendFd ctx).1

abbrev WriteSteps (ctx : Nat) : Handling → Handling → Prop := ReflTransGen (WriteStep ctx)

namespace WriteSteps

variable {ctx : Nat} {h h₁ h₂ : Handling} {ret : Int}

theorem sendBody (hsend : sendBody h ctx = .ok (h₁, ret)) : WriteSteps ctx h h₁ := by
  unfold PingServer.sendBody at hsend
  simp only at hsend
  split at hsend
  · have hfile : WriteSteps ctx h (h.sendFd ctx).1 := .single .sendFd
    split at hsend
    · cases hsend
      exact hfile
    · split at hsend <;> cases hsend <;> exact hfile
  · split at hsend
    · split at hsend
      · cases hsend
      · rename_i h' ret' hs
        have hsent : WriteSteps ctx h h' := .single (.send h' ret' hs)
        split at hsend
        · cases hsend
          exact hsent
        · split at hsend <;> cases hsend
          · exact hsent.tail (.response _ rfl fun _ hdone => by cases hdone)
          · exact hsent
    · cases hsend
      exact .refl

theorem sendHead (hsend : sendHead h ctx = .ok (h₁, ret)) : WriteSteps ctx h h₁ := by
  unfold PingServer.sendHead at hsend
  split at hsend
  · cases hsend
  · rename_i h' ret' hs
    have hsent : WriteSteps ctx h h' := .single (.send h' ret' hs)
    split at hsend
    · cases hsend
      exact hsent
    · split at hsend
      · cases hsend
        exact hsent.tail (.response _ rfl fun _ hdone => by cases hdone)
      · have hbody := hsent.tail (.response { (h'.ctxs ctx).httpRes with sendSt := .body } rfl
          fun _ hdone => by cases hdone)
        simp only at hsend
        split at hsend
        · split at hsend
          · cases hsend
            exact hbody.tail (.buffer _ rfl)
          · exact (hbody.tail (.buffer _ (by rfl))).trans (sendBody hsend)
        · exact hbody.trans (sendBody hsend)

theorem startResponse (hstart : startResponse h ctx = .ok (h₁, ret)) : WriteSteps ctx h h₁ := by
  unfold PingServer.startResponse at hstart
  split at hstart
  · cases hstart
  · rename_i len hlen
    have hlength : WriteSteps ctx h (h.setRes ctx { (h.ctxs ctx).httpRes with bodyLen := len }) :=
      .single (.response _ rfl id)
    exact (hlength.tail (.buffer _ (by rfl))).trans (sendHead hstart)

theorem write (hctx : h.conn.protocolCtx = some ctx)
    (hwrite : httpProtocolWrite h = .ok (h₁, ret)) : WriteSteps ctx h h₁ := by
  have huse : WriteSteps ctx h (h.log (.useCtx ctx)) := .single .use
  unfold httpProtocolWrite at hwrite
  rw [hctx] at hwrite
  simp only at hwrite
  split at hwrite
  · have hclean := huse.tail (.buffer (bufferClean h.conn.sendBuf) rfl)
    have hhead := hclean.tail (.response { (h.ctxs ctx).httpRes with sendSt := .head } rfl
      fun _ hdone => by cases hdone)
    exact hhead.trans (startResponse hwrite)
  · exact huse.trans (sendHead hwrite)
  · exact huse.trans (sendBody hwrite)
  · exact huse.trans (startResponse hwrite)
  · exact huse.trans (startResponse hwrite)

end WriteSteps

/-! ## Steps of the router -/

/-- One step of a router function on the context at `ctx`. -/
inductive RouteStep (ctx : Nat) (h : Handling) : Handling → Prop
  | openFile (name : List Byte) (result : Option Nat) :
      RouteStep ctx h (h.log (.openFile name result))
  | closeFd (fd : Int) : RouteStep ctx h (h.log (.closeFd fd))
  | cache (cache : RouterCache) : RouteStep ctx h { h with cache := cache }
  | response (res : HttpResponse) : res.sendSt = (h.ctxs ctx).httpRes.sendSt →
      RouteStep ctx h (h.setRes ctx res)

abbrev RouteSteps (ctx : Nat) : Handling → Handling → Prop := ReflTransGen (RouteStep ctx)

namespace RouteSteps

variable {ctx : Nat}

theorem cacheFile (h : Handling) (fd : Nat) (name : List Byte) :
    RouteSteps ctx h (cacheFile h fd name) := by
  unfold PingServer.cacheFile
  simp only
  split
  · exact (ReflTransGen.single (.closeFd _)).tail (.cache _)
  · exact .single (.cache _)

theorem getFd (h : Handling) (name : List Byte) : RouteSteps ctx h (getFd h name).1 := by
  have hopen : RouteSteps ctx h (h.log (.openFile name h.env.opened)) := .single (.openFile _ _)
  unfold PingServer.getFd
  split
  · exact .refl
  · split
    · exact .refl
    · simp only
      split
      · exact hopen
      · split
        · exact hopen.trans (cacheFile _ _ _)
        · exact hopen.tail (.closeFd _)

theorem respondFile (h : Handling) (fd st : Int) (name : List Byte) :
    RouteSteps ctx h (respondFile h ctx fd st name) := by
  unfold PingServer.respondFile
  split <;> exact .single (.response _ rfl)

theorem route (h : Handling) (r : RouterFunction) : RouteSteps ctx h (r.call h ctx) := by
  have hrefuse : ∀ st, RouteSteps ctx h
      (h.setRes ctx (httpResponseSet (h.ctxs ctx).httpRes st none)) :=
    fun st => .single (.response _ rfl)
  have hfile : ∀ name st shown, RouteSteps ctx h
      (PingServer.respondFile (PingServer.getFd h name).1 ctx (PingServer.getFd h name).2 st shown) :=
    fun name st shown => (getFd h name).trans (respondFile _ _ st shown)
  cases r with
  | mainStatic =>
    simp only [RouterFunction.call, PingServer.mainStatic]
    split
    · exact hrefuse 400
    · split
      · exact hrefuse 400
      · exact hfile _ _ _
  | mainHome => exact hfile indexPath 500 indexPath
  | mainNotFound => exact hrefuse 404

/-- `http_protocol_process` initialises the response, and leaves the rest to the router. -/
theorem process {h h' : Handling} {ret : Int} (hctx : h.conn.protocolCtx = some ctx)
    (hproc : httpProtocolProcess h = .ok (h', ret)) : RouteSteps ctx (initResponse h ctx) h' := by
  unfold httpProtocolProcess at hproc
  rw [hctx] at hproc
  simp only at hproc
  split at hproc <;> cases hproc
  · exact .refl
  · exact route _ _

/-- The router leaves the connection alone. -/
theorem conn {h h' : Handling} (hsteps : RouteSteps ctx h h') : h'.conn = h.conn := by
  induction hsteps with
  | refl => rfl
  | tail _ hstep ih =>
    rw [← ih]
    cases hstep <;> rfl

end RouteSteps

/-! ## What is kept -/

/-- The action neither allocates nor recycles a context, and uses none but `ctx`. -/
def Neutral (ctx : Option Nat) : Action → Prop
  | .allocCtx _ | .recycleCtx _ => False
  | .useCtx p => ctx = some p
  | _ => True

/-- What a connection holds on to from one handler call to the next. -/
structure SameHold (conn conn' : Connection) : Prop where
  ctx : conn'.protocolCtx = conn.protocolCtx
  handler : conn'.protocolHandler = conn.protocolHandler
  readAddr : conn'.readBuf.addr = conn.readBuf.addr
  sendAddr : conn'.sendBuf.addr = conn.sendBuf.addr
  fd : conn'.fd = conn.fd

theorem SameHold.refl (conn : Connection) : SameHold conn conn := ⟨rfl, rfl, rfl, rfl, rfl⟩

theorem SameHold.trans {a b c : Connection} (h : SameHold a b) (h' : SameHold b c) : SameHold a c :=
  ⟨h'.ctx.trans h.ctx, h'.handler.trans h.handler, h'.readAddr.trans h.readAddr,
    h'.sendAddr.trans h.sendAddr, h'.fd.trans h.fd⟩

structure Touches (h h' : Handling) : Prop where
  hold : SameHold h.conn h'.conn
  arena : h'.arena = h.arena
  trace : Handling.Grows (Neutral h.conn.protocolCtx) h h'

namespace Touches

variable {h h₁ h₂ : Handling}

theorem refl (h : Handling) : Touches h h := ⟨.refl _, rfl, .of_eq rfl⟩

theorem trans (a : Touches h h₁) (b : Touches h₁ h₂) : Touches h h₂ := by
  refine ⟨a.hold.trans b.hold, b.arena.trans a.arena, ?_⟩
  obtain ⟨new, htrace, hnew⟩ := a.trace
  obtain ⟨new', htrace', hnew'⟩ := b.trace
  rw [a.hold.ctx] at hnew'
  refine ⟨new ++ new', by rw [htrace', htrace, List.append_assoc], fun x hx => ?_⟩
  exact (List.mem_append.1 hx).elim (hnew x) (hnew' x)

/-- Changing other fields of the connection and the contexts. -/
theorem of_eq (hold : SameHold h.conn h₁.conn) (arena : h₁.arena = h.arena)
    (trace : h₁.trace = h.trace) : Touches h h₁ := ⟨hold, arena, .of_eq trace⟩

theorem log (a : Touches h h₁) {x : Action} (hx : Neutral h.conn.protocolCtx x) :
    Touches h (h₁.log x) := ⟨a.hold, a.arena, a.trace.log hx⟩

theorem setReq (a : Touches h h₁) (ctx : Nat) (req : HttpRequest) : Touches h (h₁.setReq ctx req) :=
  a.trans (.of_eq (.refl _) rfl rfl)

theorem setRes (a : Touches h h₁) (ctx : Nat) (res : HttpResponse) : Touches h (h₁.setRes ctx res) :=
  a.trans (.of_eq (.refl _) rfl rfl)

theorem setSendBuf (a : Touches h h₁) {b : Buffer} (hb : b.addr = h₁.conn.sendBuf.addr) :
    Touches h (h₁.setSendBuf b) :=
  a.trans (.of_eq ⟨rfl, rfl, rfl, hb, rfl⟩ rfl rfl)

end Touches

/-! ## Receiving and sending -/

theorem recvLoop_addr (os : List RecvOutcome) : ∀ b : Buffer, (recvLoop b os).addr = b.addr := by
  induction os with
  | nil =>
    intro b
    rfl
  | cons o os ih =>
    intro b
    cases o with
    | chunk bs =>
      simp only [recvLoop]
      split
      · rfl
      · rw [ih]
        rfl
    | wouldBlock | endOfStream | failed => rfl

theorem connectionRecv_hold (conn : Connection) (recvs : List RecvOutcome) (now : Nat) :
    SameHold conn (connectionRecv conn recvs now).1 := by
  unfold connectionRecv
  split
  · exact .refl _
  · simp only
    split
    · exact ⟨rfl, rfl, rfl, rfl, rfl⟩
    · exact ⟨rfl, rfl, recvLoop_addr _ _, rfl, rfl⟩

theorem connectionSend_hold {conn : Connection} {sends : List SendOutcome} {now : Nat} {s : Sent}
    (h : connectionSend conn sends now = .ok s) : SameHold conn s.conn := by
  unfold connectionSend at h
  split at h
  · cases h
    exact .refl _
  · simp only at h
    split at h
    · cases h
    · split at h
      · split at h <;> cases h <;> exact ⟨rfl, rfl, rfl, rfl, rfl⟩
      · split at h <;> cases h <;> exact ⟨rfl, rfl, rfl, rfl, rfl⟩

namespace Touches

variable {h h₁ h₂ : Handling}

theorem send (a : Touches h h₁) {ret : Int} (hsend : h₁.send = .ok (h₂, ret)) : Touches h h₂ := by
  unfold Handling.send at hsend
  split at hsend
  · cases hsend
  · rename_i s hs
    cases hsend
    refine Touches.log (a.trans ?_) (by exact trivial)
    exact .of_eq (connectionSend_hold hs) rfl rfl

theorem sendFd (a : Touches h h₁) (ctx : Nat) : Touches h (h₁.sendFd ctx).1 := by
  refine Touches.log (a.trans ?_) (by exact trivial)
  exact .of_eq (.refl _) rfl rfl

/-! ## The protocol handler -/

theorem initResponse (a : Touches h h₁) {ctx : Nat} (hctx : h₁.conn.protocolCtx = some ctx) :
    Touches h (initResponse h₁ ctx) := by
  have hown : h.conn.protocolCtx = some ctx := a.hold.ctx.symm.trans hctx
  have hlog : Touches h ((h₁.log (.useCtx ctx)).log (.process (h₁.ctxs ctx).httpReq)) :=
    (a.log (by exact hown)).log (by exact trivial)
  exact hlog.trans (.of_eq ⟨rfl, rfl, rfl, rfl, rfl⟩ rfl rfl)

theorem routeSteps {ctx : Nat} (hsteps : RouteSteps ctx h h₁) : Touches h h₁ := by
  induction hsteps using ReflTransGen.trans_induction_on with
  | refl h => exact .refl h
  | single hstep =>
    cases hstep with
    | openFile name result => exact (Touches.refl _).log trivial
    | closeFd fd => exact (Touches.refl _).log trivial
    | cache cache => exact .of_eq (.refl _) rfl rfl
    | response res _ => exact (Touches.refl _).setRes ctx res
  | trans _ _ a b => exact a.trans b

theorem process {ret : Int} (hproc : httpProtocolProcess h = .ok (h₁, ret)) : Touches h h₁ := by
  cases hctx : h.conn.protocolCtx with
  | none =>
    rw [httpProtocolProcess, hctx] at hproc
    cases hproc
  | some ctx =>
    exact ((Touches.refl h).initResponse hctx).trans (routeSteps (RouteSteps.process hctx hproc))

theorem writeSteps {ctx : Nat} (hsteps : WriteSteps ctx h h₁) :
    h.conn.protocolCtx = some ctx → Touches h h₁ := by
  induction hsteps using ReflTransGen.trans_induction_on with
  | refl h => exact fun _ => .refl h
  | single hstep =>
    intro hctx
    cases hstep with
    | use => exact (Touches.refl _).log hctx
    | buffer b haddr => exact (Touches.refl _).setSendBuf haddr
    | response res _ _ => exact (Touches.refl _).setRes ctx res
    | send _ ret hsend => exact (Touches.refl _).send hsend
    | sendFd => exact (Touches.refl _).sendFd ctx
  | trans _ _ a b => exact fun hctx => (a hctx).trans (b ((a hctx).hold.ctx.trans hctx))

theorem write {ret : Int} (hwrite : httpProtocolWrite h = .ok (h₁, ret)) : Touches h h₁ := by
  cases hctx : h.conn.protocolCtx with
  | none =>
    rw [httpProtocolWrite, hctx] at hwrite
    cases hwrite
  | some ctx => exact writeSteps (WriteSteps.write hctx hwrite) hctx

/-! ## Closing -/

theorem closeLoop (fuel : Nat) : ∀ {h₁ : Handling} {ret : Int}, Touches h h₁ →
    closeLoop fuel h₁ = .ok (h₂, ret) → Touches h h₂ := by
  induction fuel with
  | zero =>
    intro h₁ ret _ hclose
    cases hclose
  | succ fuel ih =>
    intro h₁ ret a hclose
    simp only [PingServer.closeLoop] at hclose
    split at hclose
    · cases hclose
    · rename_i h' ret' hs
      have a' := a.send hs
      split at hclose
      · cases hclose
        exact a'
      · split at hclose
        · cases hclose
          exact a'
        · exact ih a' hclose

end Touches

/-- `http_protocol_close` has given the context back. -/
def Recycles (h h' : Handling) : Prop :=
  ∃ ctx h₁, h.conn.protocolCtx = some ctx ∧ Touches h h₁ ∧
    h' = ({ h₁ with arena := arenaRecycleRef h₁.arena ctx } : Handling).log (.recycleCtx ctx)

theorem httpProtocolClose_spec {h h' : Handling} {ret : Int}
    (hclose : httpProtocolClose h = .ok (h', ret)) :
    h.conn.protocolCtx = none ∧ h' = h ∨ Recycles h h' := by
  unfold httpProtocolClose at hclose
  split at hclose
  · rename_i hctx
    cases hclose
    exact .inl ⟨hctx, rfl⟩
  · rename_i ctx hctx
    simp only at hclose
    split at hclose
    · cases hclose
    · rename_i h₁ ret' hloop
      cases hclose
      exact .inr ⟨ctx, h₁, hctx, Touches.closeLoop _ ((Touches.refl h).setSendBuf (by rfl)) hloop, rfl⟩

/-! ## Reading -/

theorem Touches.parse {h h₁ : Handling} (a : Touches h h₁) {ctx : Nat}
    (hctx : h₁.conn.protocolCtx = some ctx) (parse : Parser) :
    Touches h (httpParse parse h₁ ctx).1 := by
  have a' : Touches h (h₁.log (.useCtx ctx)) := a.log (a.hold.ctx.symm.trans hctx)
  unfold httpParse
  simp only
  split
  · split <;> exact a'.setReq ctx _
  · exact a'.setReq ctx _

/-- A handler keeps what its connection holds, or adds the context it lacked. -/
def Gains (h h' : Handling) : Prop :=
  Touches h h' ∨ ∃ h₀ h₁ ctx, Touches h h₀ ∧ h₀.conn.protocolCtx = none ∧
    httpInit h₀ = some (h₁, ctx) ∧ Touches h₁ h'

theorem Gains.touches {h h₁ h₂ : Handling} (a : Gains h h₁) (b : Touches h₁ h₂) : Gains h h₂ := by
  rcases a with a | ⟨h₀, h₁', ctx, a, hnone, hinit, a'⟩
  · exact .inl (a.trans b)
  · exact .inr ⟨h₀, h₁', ctx, a, hnone, hinit, a'.trans b⟩

theorem httpInit_some {h h' : Handling} {ctx : Nat} (hinit : httpInit h = some (h', ctx)) :
    ∃ a, arenaAllocRefBlock h.arena sizeofHttpContext = some (a, ctx) ∧ h'.arena = a ∧
      h'.conn = { h.conn with protocolCtx := some ctx } ∧ h'.trace = h.trace ++ [.allocCtx ctx] := by
  unfold httpInit at hinit
  split at hinit
  · cases hinit
  · rename_i a p halloc
    cases hinit
    exact ⟨a, halloc, rfl, rfl, rfl⟩

theorem httpProtocolRead_gains {h : Handling} (parse : Parser) :
    Gains h (httpProtocolRead parse h).1 := by
  unfold httpProtocolRead
  split
  · rename_i ctx hctx
    exact .inl ((Touches.refl h).parse hctx parse)
  · rename_i hnone
    split
    · exact .inl (.refl h)
    · rename_i h₁ ctx hinit
      obtain ⟨a, -, -, hconn, -⟩ := httpInit_some hinit
      exact .inr ⟨h, h₁, ctx, .refl h, hnone, hinit, (Touches.refl h₁).parse (by rw [hconn]) parse⟩

end PingServer
