import PingServer.Net.Dispatch
import PingServer.Route.Reply

/-!
# What a read event does

A read event receives, parses, and hands a complete request to the router. It gives
up at each of these steps, and answers a request only at the last.
-/

namespace PingServer

open ByteMem

section

variable {parse : Parser} {h h₁ : Handling} {ctx : Nat} {ret : Int}

/-- An action that does no more than allocate or use a context. -/
def Action.inner : Action → Bool
  | .allocCtx _ | .useCtx _ => true
  | _ => false

/-- The bytes were received and parsed into the context at `ctx`, which is new if there
was none. -/
structure Parses (h : Handling) (ctx : Nat) (h₁ : Handling) : Prop where
  own : ∀ p, h.conn.protocolCtx = some p → p = ctx
  conn : h₁.conn = { h.conn with protocolCtx := some ctx }
  kept : h.conn.protocolCtx ≠ none → (h₁.ctxs ctx).httpRes = (h.ctxs ctx).httpRes
  zero : h.conn.protocolCtx = none → (h₁.ctxs ctx).httpRes = HttpContext.zero.httpRes
  others : ∀ p, p ≠ ctx → h₁.ctxs p = h.ctxs p
  env : h₁.env = h.env
  trace : ∃ new, h₁.trace = h.trace ++ new ∧ ∀ a ∈ new, a.inner = true

/-- The request that the context holds when the parser comes to an end. -/
def Handling.partialRequest (h : Handling) : HttpRequest :=
  match h.conn.protocolCtx with
  | some ctx => (h.ctxs ctx).httpReq
  | none => HttpContext.zero.httpReq

/-- The bytes received so far as the parser reads them. -/
def Handling.parsed (parse : Parser) (h : Handling) : Parsed :=
  parse h.conn.readBuf.bytes h.partialRequest.lastLen

/-- The request that is handed to `http_protocol_process`. -/
def Handling.complete (parse : Parser) (h : Handling) : HttpRequest :=
  let p := h.parsed parse
  { h.partialRequest with
    method := p.method, path := p.path, minorVersion := p.minorVersion, headers := p.headers
    lastLen := 0 }

/-- What `http_protcol_check` says about it. -/
def Handling.check (parse : Parser) (h : Handling) : Int :=
  httpProtcolCheck (some { HttpContext.zero with httpReq := h.complete parse })

/-- The bytes received so far are a whole request, and there is a context for it. -/
structure Handling.Completes (parse : Parser) (h : Handling) : Prop where
  memory : h.conn.protocolCtx = none → (arenaAllocRefBlock h.arena sizeofHttpContext).isSome = true
  parsed : 0 ≤ (h.parsed parse).ret

/-- What `http_protocol_read` does. -/
inductive HttpRead (parse : Parser) (h : Handling) : Handling × Int → Prop
  | full : h.conn.protocolCtx = none → HttpRead parse h (h, errorMemFull)
  | incomplete (ctx : Nat) (h₁ : Handling) (ret : Int) : Parses h ctx h₁ →
      (h.parsed parse).ret < 0 → ret = errorHttpParse ∨ ret = errorHttpNeedMore →
      HttpRead parse h (h₁, ret)
  | complete (ctx : Nat) (h₁ : Handling) : Parses h ctx h₁ → h.Completes parse →
      (h₁.ctxs ctx).httpReq = h.complete parse → HttpRead parse h (h₁, 0)

theorem httpParse_read_cases (hown : h.conn.protocolCtx = some ctx) :
    HttpRead parse h (httpParse parse h ctx) := by
  have hset : ∀ req, Parses h ctx ((h.log (.useCtx ctx)).setReq ctx req) := by
    intro req
    refine ⟨fun p hp => ?_, ?_, fun _ => ?_, fun hnone => ?_, fun p hp => ?_, rfl, [.useCtx ctx], rfl,
      by simp [Action.inner]⟩
    · rw [hown] at hp
      exact (Option.some.inj hp).symm
    · rw [← hown]
      rfl
    · simp only [Handling.setReq, Handling.setCtx, ↓reduceIte]
      rfl
    · rw [hown] at hnone
      cases hnone
    · simp only [Handling.setReq, Handling.setCtx, Handling.log, if_neg hp]
  have hpartial : h.partialRequest = (h.ctxs ctx).httpReq := by
    unfold Handling.partialRequest
    rw [hown]
  have hparsed : parse h.conn.readBuf.bytes (h.ctxs ctx).httpReq.lastLen = h.parsed parse := by
    rw [Handling.parsed, hpartial]
  unfold httpParse
  dsimp only
  split
  · rename_i hneg
    split
    · exact .incomplete ctx _ _ (hset _) (hparsed ▸ hneg) (.inl rfl)
    · exact .incomplete ctx _ _ (hset _) (hparsed ▸ hneg) (.inr rfl)
  · rename_i hpos
    have hmemory : h.conn.protocolCtx = none → (arenaAllocRefBlock h.arena sizeofHttpContext).isSome = true := by
      intro hnone
      rw [hown] at hnone
      cases hnone
    refine .complete ctx _ (hset _) ⟨hmemory, hparsed ▸ not_lt.1 hpos⟩ ?_
    simp only [Handling.setReq, Handling.setCtx, ↓reduceIte, Handling.complete, hpartial, ← hparsed]
    rfl

theorem httpInit_zero (hinit : httpInit h = some (h₁, ctx)) : h₁.ctxs ctx = HttpContext.zero ∧
    (∀ p, p ≠ ctx → h₁.ctxs p = h.ctxs p) ∧ h₁.env = h.env := by
  unfold httpInit at hinit
  split at hinit
  · cases hinit
  · cases hinit
    simp only [Handling.log, Handling.setCtx, ↓reduceIte, true_and, and_true]
    exact fun p hp => if_neg hp

theorem httpInit_memory {r : Handling × Nat} (hinit : httpInit h = some r) :
    (arenaAllocRefBlock h.arena sizeofHttpContext).isSome = true := by
  unfold httpInit at hinit
  split at hinit
  · cases hinit
  · rename_i halloc
    rw [halloc]
    rfl

/-- A new context is zero, and the request is read as into one that was there. -/
theorem httpProtocolRead_cases (parse : Parser) (h : Handling) :
    HttpRead parse h (httpProtocolRead parse h) := by
  unfold httpProtocolRead
  split
  · exact httpParse_read_cases ‹_›
  · rename_i hnone
    split
    · exact .full hnone
    · rename_i h₁ ctx hinit
      obtain ⟨a, -, -, hconn, htrace⟩ := httpInit_some hinit
      obtain ⟨hzero, hothers, henv⟩ := httpInit_zero hinit
      have hown : h₁.conn.protocolCtx = some ctx := by rw [hconn]
      have hpartial : h₁.partialRequest = h.partialRequest := by
        simp only [Handling.partialRequest, hown, hnone, hzero]
      have hparsed : h₁.parsed parse = h.parsed parse := by
        rw [Handling.parsed, Handling.parsed, hpartial, hconn]
      have hcomplete : h₁.complete parse = h.complete parse := by
        rw [Handling.complete, Handling.complete, hpartial, hparsed]
      have hparses : ∀ g, Parses h₁ ctx g → Parses h ctx g := by
        rintro g ⟨-, hconn', hkept, -, hothers', henv', new, htrace', hnew⟩
        refine ⟨fun p hp => ?_, ?_, fun hsome => absurd hnone hsome, fun _ => ?_,
          fun p hp => (hothers' p hp).trans (hothers p hp), henv'.trans henv, .allocCtx ctx :: new, ?_, ?_⟩
        · rw [hnone] at hp
          cases hp
        · rw [hconn', hconn]
        · rw [hkept (by rw [hown]; exact Option.some_ne_none ctx), hzero]
        · rw [htrace', htrace, List.append_assoc]
          rfl
        · intro x hx
          obtain rfl | hx := List.mem_cons.1 hx
          · rfl
          · exact hnew x hx
      have hread := @httpParse_read_cases parse h₁ ctx hown
      generalize httpParse parse h₁ ctx = r at hread ⊢
      cases hread with
      | full hnone' =>
        rw [hown] at hnone'
        cases hnone'
      | incomplete p g ret a hneg hret =>
        obtain rfl := a.own ctx hown
        exact .incomplete _ g ret (hparses g a) (hparsed ▸ hneg) hret
      | complete p g a hall hreq =>
        obtain rfl := a.own ctx hown
        exact .complete _ g (hparses g a) ⟨fun _ => httpInit_memory hinit, hparsed ▸ hall.parsed⟩
          (hreq.trans hcomplete)

/-- What every receive leaves alone. -/
structure Receiving (conn conn' : Connection) : Prop where
  ctx : conn'.protocolCtx = conn.protocolCtx
  handler : conn'.protocolHandler = conn.protocolHandler
  sendBuf : conn'.sendBuf = conn.sendBuf
  max : conn'.maxRequestCount = conn.maxRequestCount
  keepAlive : conn'.isKeepAlive = conn.isKeepAlive
  fd : conn'.fd = conn.fd

/-- `connection_recv` has gone through. -/
structure Receives (conn conn' : Connection) : Prop extends Receiving conn conn' where
  room : conn.requestCount ≠ conn.maxRequestCount
  fits : conn.readBuf.len ≠ conn.readBuf.cap
  count : conn'.requestCount = conn.requestCount + 1
  status : conn'.connSt = .reading

/-- A receive that goes through leaves nothing unsent behind. -/
theorem Receives.drained {conn conn' : Connection} (hrecv : Receives conn conn')
    (hdrained : conn.Drained) : conn'.sendBuf.idx = conn'.sendBuf.len := by
  rw [hrecv.sendBuf]
  exact hdrained.resolve_left hrecv.room

/-- A receive goes through, or refuses with an error that is not `EAGAIN`. -/
theorem connectionRecv_result (conn : Connection) (recvs : List RecvOutcome) (now : Nat) :
    (connectionRecv conn recvs now).2 ≠ eagain ∧ (connectionRecv conn recvs now).2 ≠ 0 ∧
        Receiving conn (connectionRecv conn recvs now).1 ∨
      (connectionRecv conn recvs now).2 = 0 ∧ Receives conn (connectionRecv conn recvs now).1 := by
  unfold connectionRecv
  split
  · left
    exact ⟨show errorConnFull ≠ eagain by decide, show errorConnFull ≠ 0 by decide,
      rfl, rfl, rfl, rfl, rfl, rfl⟩
  · rename_i hroom
    simp only
    split
    · left
      exact ⟨show errorBufferFull ≠ eagain by decide, show errorBufferFull ≠ 0 by decide,
        rfl, rfl, rfl, rfl, rfl, rfl⟩
    · rename_i hfits
      exact .inr ⟨rfl, ⟨rfl, rfl, rfl, rfl, rfl, rfl⟩, Ne.symm hroom, hfits, rfl, rfl⟩

/-- What a read event does. -/
inductive ReadCase (parse : Parser) (current max : Nat) (h : Handling) : Handling × Verdict → Prop
  | unread : Receiving h.conn h.received.conn → ReadCase parse current max h (h.received, .close)
  | unparsed : Receives h.conn h.received.conn → h.conn.protocolCtx = none →
      ReadCase parse current max h (h.received, .close)
  | incomplete (ctx : Nat) (h₁ : Handling) (v : Verdict) : Receives h.conn h.received.conn →
      Parses h.received ctx h₁ → ReadCase parse current max h (h₁, v)
  | refused (ctx : Nat) (h₁ h₂ : Handling) (ret : Int) : Receives h.conn h.received.conn →
      Parses h.received ctx h₁ → h.received.Completes parse → h.received.check parse ≠ 0 →
      httpProtocolProcess h₁ = .ok (initResponse h₁ ctx, tcpProtoClose) →
      httpProtocolClose (initResponse h₁ ctx) = .ok (h₂, ret) →
      ReadCase parse current max h (h₂, .close)
  | accepted (ctx : Nat) (h₁ g : Handling) : Receives h.conn h.received.conn →
      Parses h.received ctx h₁ → h.received.Completes parse → h.received.check parse = 0 →
      (h₁.ctxs ctx).httpReq = h.received.complete parse →
      httpProtocolProcess h₁ = .ok (g, tcpProtoSend) → Answered h₁ ctx g →
      ReadCase parse current max h (verdict current max (g.log (.epollMod g.conn.fd true)))

theorem check_complete {h₁ : Handling} {ctx : Nat}
    (hreq : (h₁.ctxs ctx).httpReq = h.received.complete parse) :
    httpProtcolCheck (some (h₁.ctxs ctx)) = h.received.check parse := by
  unfold Handling.check
  simp only [httpProtcolCheck, hreq]

theorem ProtocolRead.receives {h₁ : Handling} {ret : Int} (hrun : ProtocolRead parse h h₁ ret) :
    Receives h.conn h.received.conn := by
  obtain ⟨hagain, hne, -⟩ | ⟨-, hrecv⟩ := connectionRecv_result h.conn h.env.recvs h.env.now
  · exact absurd ⟨hagain, hne⟩ hrun.received
  · exact hrecv

/-- A result that is not negative is 0, for a request that is complete. -/
theorem ProtocolRead.complete {h₁ : Handling} {ret : Int} (hrun : ProtocolRead parse h h₁ ret)
    (hpos : 0 ≤ ret) : ∃ ctx, Parses h.received ctx h₁ ∧ h.received.Completes parse ∧
      (h₁.ctxs ctx).httpReq = h.received.complete parse := by
  have hcalled := httpProtocolRead_cases parse h.received
  rw [hrun.read] at hcalled
  cases hcalled with
  | full => exact absurd hpos (by decide)
  | incomplete ctx h₁ ret _ _ hret => obtain rfl | rfl := hret <;> exact absurd hpos (by decide)
  | complete ctx h₁ a hall hreq => exact ⟨ctx, a, hall, hreq⟩

theorem tcpOnRead_cases {current max : Nat} {r : Handling × Verdict}
    (hread : tcpOnRead parse current max h = .ok r) : ReadCase parse current max h r := by
  cases tcpOnRead_runs hread with
  | unread hfailed =>
    obtain ⟨-, -, hrecv⟩ | ⟨hzero, -⟩ := connectionRecv_result h.conn h.env.recvs h.env.now
    · exact .unread hrecv
    · exact absurd hzero hfailed.2
  | unparsed h₁ ret v hrun hneg hkeep =>
    have hcalled := httpProtocolRead_cases parse h.received
    rw [hrun.read] at hcalled
    cases hcalled with
    | full hnone =>
      obtain rfl : v = .close := by
        cases v with
        | keep => exact absurd (hkeep.1 rfl) (by decide)
        | close => rfl
      exact .unparsed hrun.receives (hrun.receives.ctx ▸ hnone)
    | incomplete ctx h₁ ret a => exact .incomplete ctx h₁ v hrun.receives a
    | complete => exact absurd hneg (by decide)
  | refused h₁ h₂ h₃ ret closeRet hrun hpos hproc hclose =>
    obtain ⟨ctx, a, hall, hreq⟩ := hrun.complete hpos
    have hown : h₁.conn.protocolCtx = some ctx := by rw [a.conn]
    have hsame := check_complete hreq
    by_cases hcheck : httpProtcolCheck (some (h₁.ctxs ctx)) = 0
    · obtain ⟨g, hsends, -⟩ := httpProtocolProcess_answers_with hown hcheck
      rw [hsends] at hproc
      cases hproc
    · have hrefuses := httpProtocolProcess_refuses hown hcheck
      obtain ⟨rfl, -⟩ := Prod.mk.inj (Except.ok.inj (hrefuses.symm.trans hproc))
      exact .refused ctx h₁ h₃ closeRet hrun.receives a hall (hsame ▸ hcheck) hrefuses hclose
  | answered h₁ h₂ ret v hrun hpos hproc hv =>
    obtain ⟨ctx, a, hall, hreq⟩ := hrun.complete hpos
    have hown : h₁.conn.protocolCtx = some ctx := by rw [a.conn]
    have hsame := check_complete hreq
    by_cases hcheck : httpProtcolCheck (some (h₁.ctxs ctx)) = 0
    · obtain ⟨g, hsends, hanswered⟩ := httpProtocolProcess_answers_with hown hcheck
      obtain ⟨rfl, -⟩ := Prod.mk.inj (Except.ok.inj (hsends.symm.trans hproc))
      rw [hv]
      exact .accepted ctx h₁ g hrun.receives a hall (hsame ▸ hcheck) hreq hproc hanswered
    · rw [httpProtocolProcess_refuses hown hcheck] at hproc
      cases hproc

end

end PingServer
