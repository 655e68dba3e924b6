import PingServer.Net.Accounting
import PingServer.Net.Reading

/-!
# The check of a send

`connection_send` asserts that something is left in the buffer. The close handler
always prints a head first, and so does a write that begins a response; but behind
the head of a string body the buffer is cleaned and gets the length that `fstat` has
left at 0. Only a connection whose requests are used up escapes the next send.
-/

namespace PingServer

open ByteMem

/-! ## Closing -/

theorem closeLoop_checked (fuel : Nat) : ∀ {h : Handling}, h.conn.Sendable →
    closeLoop fuel h ≠ .error .assertion := by
  induction fuel with
  | zero =>
    intro h _ hassert
    cases hassert
  | succ fuel ih =>
    intro h hleft
    rw [closeLoop]
    have hcases := @connectionSend_cases h.conn h.env.sends h.env.now hleft
    generalize hresult : connectionSend h.conn h.env.sends h.env.now = r at hcases
    cases hcases with
    | full hfull =>
      rw [Handling.send_eq hresult]
      exact ih hleft
    | taken rest hroom htakes =>
      rw [Handling.send_eq hresult]
      intro hassert
      cases hassert
    | refused k rest hroom htakes hk =>
      rw [Handling.send_eq hresult]
      intro hassert
      cases hassert

/-- The last head is always there to be sent. -/
theorem httpProtocolClose_checked (h : Handling) : httpProtocolClose h ≠ .error .assertion := by
  unfold httpProtocolClose
  split
  · intro hassert
    cases hassert
  · have hpos := headText_pos 200 contentTxt 0 (utf8 "close")
    have hsmall : (headText 200 contentTxt 0 (utf8 "close")).length < 256 := by decide
    have hleft : (h.setSendBuf ((bufferClean h.conn.sendBuf).print
        (headText 200 contentTxt 0 (utf8 "close")))).conn.Sendable := by
      right
      simp only [Handling.setSendBuf, Buffer.print, bufferClean]
      omega
    simp only
    split
    · rename_i f hloop
      intro hassert
      cases hassert
      exact closeLoop_checked _ hleft hloop
    · intro hassert
      cases hassert

/-! ## What a response is like between two events -/

/-- No write has stopped inside the head of the response. -/
structure HttpResponse.Ready (res : HttpResponse) : Prop where
  routed : res.Routed
  whole : res.sendSt ≠ .head

theorem HttpContext.zero_ready : HttpContext.zero.httpRes.Ready :=
  ⟨⟨⟨by decide, by decide⟩, by decide⟩, by decide⟩

/-- Same description, state of sending aside. -/
structure HttpResponse.SameKind (res res' : HttpResponse) : Prop where
  status : res'.statusCode = res.statusCode
  contentType : res'.contentType = res.contentType
  body : res'.body = res.body
  bodyFd : res'.bodyFd = res.bodyFd

theorem HttpResponse.Routed.same {res res' : HttpResponse} (h : res.Routed)
    (hsame : res.SameKind res') : res'.Routed := by
  obtain ⟨hstatus, hct, hbody, hfd⟩ := hsame
  refine ⟨⟨?_, ?_⟩, ?_⟩
  · rw [hstatus]
    exact h.printable.status
  · rw [hct]
    exact h.printable.contentType
  · rw [hbody, hfd]
    exact h.text

theorem HttpResponse.SameKind.refl (res : HttpResponse) : res.SameKind res := ⟨rfl, rfl, rfl, rfl⟩

theorem HttpResponse.SameKind.trans {a b c : HttpResponse} (h : a.SameKind b) (h' : b.SameKind c) :
    a.SameKind c :=
  ⟨h'.status.trans h.status, h'.contentType.trans h.contentType, h'.body.trans h.body,
    h'.bodyFd.trans h.bodyFd⟩

/-- A step that sends for the response of `ctx`. -/
structure Replied (ctx : Nat) (h h' : Handling) : Prop where
  others : ∀ p, p ≠ ctx → h'.ctxs p = h.ctxs p
  kind : (h.ctxs ctx).httpRes.SameKind (h'.ctxs ctx).httpRes
  whole : (h'.ctxs ctx).httpRes.sendSt ≠ .head
  drained : (h'.ctxs ctx).httpRes.sendSt ≠ .error → h'.conn.Drained

section

variable {h h' : Handling} {ctx : Nat} {ret : Int}

theorem Handling.setRes_others (h : Handling) {ctx p : Nat} (res : HttpResponse) (hp : p ≠ ctx) :
    (h.setRes ctx res).ctxs p = h.ctxs p := by
  simp only [setRes, setCtx, if_neg hp]

theorem sendBody_replied (hdrained : h.conn.Drained) (hst : (h.ctxs ctx).httpRes.sendSt ≠ .head)
    (hbody : sendBody h ctx = .ok (h', ret)) : Replied ctx h h' := by
  have hcase := sendBody_ok hdrained hbody
  obtain ⟨off, hres⟩ := hcase.httpRes
  refine ⟨fun p hp => ?_, ?_, ?_, fun _ => ?_⟩
  · cases hcase with
    | file => exact Handling.setRes_others _ _ hp
    | text => rfl
    | none => rfl
  · rw [hres]
    exact ⟨rfl, rfl, rfl, rfl⟩
  · rw [hres]
    exact hst
  · rw [hcase.conn]
    exact hdrained

/-- The string body of the response is sent while the connection has requests left. -/
theorem sendBody_asserts_iff (hdrained : h.conn.Drained)
    (htext : (h.ctxs ctx).httpRes.body.isSome = true → (h.ctxs ctx).httpRes.bodyFd < 0) :
    sendBody h ctx = .error .assertion ↔
      (h.ctxs ctx).httpRes.body.isSome = true ∧
        h.conn.requestCount ≠ h.conn.maxRequestCount := by
  constructor
  · intro hassert
    obtain ⟨-, hsome, hroom, -⟩ | ⟨r, hok, -⟩ := @sendBody_cases h ctx hdrained
    · exact ⟨hsome, hroom⟩
    · rw [hok] at hassert
      cases hassert
  · rintro ⟨hsome, hroom⟩
    have hfd := htext hsome
    exact sendBody_asserts (by omega) hsome hroom (hdrained.resolve_left hroom)

theorem Handling.sentHead_httpRes (h : Handling) (ctx : Nat) (st : HttpSendRet) (conn : Connection)
    (rest : List SendOutcome) (bytes : List Byte) :
    ((h.sentHead ctx st conn rest bytes).ctxs ctx).httpRes =
      { (h.ctxs ctx).httpRes with sendSt := st } := Handling.setRes_httpRes _ _ _

/-- A head that has passed is a step towards what the body does. -/
theorem Replied.after {h₁ : Handling} (a : Replied ctx h₁ h')
    (hothers : ∀ p, p ≠ ctx → h₁.ctxs p = h.ctxs p)
    (hkind : (h.ctxs ctx).httpRes.SameKind (h₁.ctxs ctx).httpRes) : Replied ctx h h' :=
  ⟨fun p hp => (a.others p hp).trans (hothers p hp), hkind.trans a.kind, a.whole, a.drained⟩

theorem startResponse_replied {len : Nat} (hlen : bodyLength h (h.ctxs ctx).httpRes = .ok len)
    (hdrained : h.conn.Drained) (hsmall : (headOf h.conn (h.ctxs ctx).httpRes len).length < 2 ^ 31)
    (htext : (h.ctxs ctx).httpRes.bodyFd ≤ 0 → len = 0)
    (hstart : startResponse h ctx = .ok (h', ret)) : Replied ctx h h' := by
  have hcases := startResponse_cases hlen hdrained hsmall htext
  rw [hstart] at hcases
  have hothers : ∀ (st : HttpSendRet) (conn : Connection) (rest : List SendOutcome)
      (bytes : List Byte) (p : Nat), p ≠ ctx →
        ((h.printed ctx len).sentHead ctx st conn rest bytes).ctxs p = h.ctxs p :=
    fun st conn rest bytes p hp => (Handling.setRes_others _ _ hp).trans (Handling.setRes_others h _ hp)
  have hkind : ∀ (st : HttpSendRet) (conn : Connection) (rest : List SendOutcome)
      (bytes : List Byte), (h.ctxs ctx).httpRes.SameKind
        (((h.printed ctx len).sentHead ctx st conn rest bytes).ctxs ctx).httpRes := by
    intro st conn rest bytes
    rw [Handling.sentHead_httpRes, Handling.printed_httpRes]
    exact ⟨rfl, rfl, rfl, rfl⟩
  generalize hresult : (Except.ok (h', ret) : Except Fault (Handling × Int)) = r at hcases
  cases hcases with
  | passed conn rest bytes hpassed hsame hdrained' =>
    have hst : (((h.printed ctx len).sentHead ctx .body conn rest bytes).ctxs ctx).httpRes.sendSt ≠
        .head := by
      rw [Handling.sentHead_httpRes]
      exact HttpSendRet.noConfusion
    exact (sendBody_replied hdrained' hst hresult.symm).after (hothers _ _ _ _) (hkind _ _ _ _)
  | refused k conn rest hroom htakes hk hsame hcount =>
    cases hresult
    refine ⟨hothers _ _ _ _, hkind _ _ _ _, ?_, ?_⟩
    · rw [Handling.sentHead_httpRes]
      exact HttpSendRet.noConfusion
    · rw [Handling.sentHead_httpRes]
      intro hne
      exact absurd rfl hne

/-- A connection with `sends` ahead of it comes to a string body with requests left. -/
def ReachesText (conn : Connection) (res : HttpResponse) (sends : List SendOutcome) : Prop :=
  res.body.isSome = true ∧ conn.requestCount ≠ conn.maxRequestCount ∧
    (res.sendSt = .body ∨ conn.requestCount + 1 ≠ conn.maxRequestCount ∧
      socketTakes sends (headOf conn res 0).length = true)

theorem startResponse_asserts_iff {len : Nat} (hlen : bodyLength h (h.ctxs ctx).httpRes = .ok len)
    (hdrained : h.conn.Drained) (hsmall : (headOf h.conn (h.ctxs ctx).httpRes len).length < 2 ^ 31)
    (hready : (h.ctxs ctx).httpRes.body.isSome = true → (h.ctxs ctx).httpRes.bodyFd < 0)
    (htext : (h.ctxs ctx).httpRes.bodyFd ≤ 0 → len = 0) :
    startResponse h ctx = .error .assertion ↔ (h.ctxs ctx).httpRes.body.isSome = true ∧
      h.conn.requestCount ≠ h.conn.maxRequestCount ∧
        h.conn.requestCount + 1 ≠ h.conn.maxRequestCount ∧
          socketTakes h.env.sends (headOf h.conn (h.ctxs ctx).httpRes len).length = true := by
  have hcases := startResponse_cases hlen hdrained hsmall htext
  have hunsent : h.conn.requestCount ≠ h.conn.maxRequestCount →
      (h.printed ctx len).conn.sendBuf.unsent.length =
        (headOf h.conn (h.ctxs ctx).httpRes len).length := by
    intro hroom
    have hidx := hdrained.resolve_left hroom
    rw [Buffer.unsent_length, Handling.printed_conn]
    simp only [Buffer.print]
    omega
  generalize startResponse h ctx = r at hcases
  cases hcases with
  | passed conn rest bytes hpassed hsame hdrained' =>
    have hres : (((h.printed ctx len).sentHead ctx .body conn rest bytes).ctxs ctx).httpRes =
        { (h.ctxs ctx).httpRes with bodyLen := len, sendSt := .body } := by
      rw [Handling.sentHead_httpRes, Handling.printed_httpRes]
    rw [sendBody_asserts_iff hdrained' (by rw [hres]; exact hready), hres]
    have hmax := hsame.max
    rw [Handling.printed_conn] at hmax
    have hconn : ((h.printed ctx len).sentHead ctx .body conn rest bytes).conn = conn := rfl
    rw [hconn, hmax]
    cases hpassed with
    | full hfull hcount hidle =>
      rw [Handling.printed_conn] at hfull hcount
      rw [hcount, hfull]
      simp
    | taken hroom htakes hcount hidle =>
      rw [Handling.printed_env, hunsent (by rwa [Handling.printed_conn] at hroom)] at htakes
      rw [Handling.printed_conn] at hroom hcount
      rw [hcount, htakes]
      simp [hroom]
  | refused k conn rest hroom htakes hk hsame hcount =>
    rw [Handling.printed_conn] at hroom
    rw [Handling.printed_env, ← Buffer.unsent_length, hunsent hroom] at htakes
    rw [htakes]
    simp

/-- Every response of the router can be begun. -/
theorem startResponse_routed (hrouted : (h.ctxs ctx).httpRes.Routed) (hdrained : h.conn.Drained)
    (hsize : h.env.fileSize < 2 ^ 63) :
    (startResponse h ctx = .error .assertion ↔ (h.ctxs ctx).httpRes.body.isSome = true ∧
      h.conn.requestCount ≠ h.conn.maxRequestCount ∧
        h.conn.requestCount + 1 ≠ h.conn.maxRequestCount ∧
          socketTakes h.env.sends (headOf h.conn (h.ctxs ctx).httpRes 0).length = true) ∧
      (startResponse h ctx = .ok (h', ret) → Replied ctx h h') := by
  obtain ⟨hzero, hbody, hlen⟩ | ⟨-, len, hlen, htext, hfile⟩ := hrouted.bodyLength h
  · have hnull : startResponse h ctx = .error .nullPointer := by
      unfold startResponse
      rw [hlen]
    rw [hnull, hbody]
    simp
  · have hsmall : (headOf h.conn (h.ctxs ctx).httpRes len).length < 256 :=
      headOf_length_lt hrouted.printable (by omega)
    constructor
    · rw [startResponse_asserts_iff hlen hdrained (by omega) hrouted.text htext]
      -- the length is that of a file or 0
      constructor
      · rintro ⟨hsome, hrest⟩
        have hneg := hrouted.text hsome
        rw [htext (by omega)] at hrest
        exact ⟨hsome, hrest⟩
      · rintro ⟨hsome, hrest⟩
        have hneg := hrouted.text hsome
        rw [← htext (by omega)] at hrest
        exact ⟨hsome, hrest⟩
    · exact startResponse_replied hlen hdrained (by omega) htext

theorem httpProtocolWrite_routed (hctx : h.conn.protocolCtx = some ctx)
    (hready : (h.ctxs ctx).httpRes.Ready) (hdrained : h.conn.Drained)
    (hsize : h.env.fileSize < 2 ^ 63) :
    (httpProtocolWrite h = .error .assertion ↔
      ReachesText h.conn (h.ctxs ctx).httpRes h.env.sends) ∧
        (httpProtocolWrite h = .ok (h', ret) → Replied ctx h h') := by
  have hagain : (h.ctxs ctx).httpRes.sendSt = .done ∨ (h.ctxs ctx).httpRes.sendSt = .error →
      (httpProtocolWrite h = .error .assertion ↔
        ReachesText h.conn (h.ctxs ctx).httpRes h.env.sends) ∧
          (httpProtocolWrite h = .ok (h', ret) → Replied ctx h h') := by
    intro hst
    have hbody : (h.ctxs ctx).httpRes.sendSt ≠ .body := by
      obtain hst | hst := hst <;> rw [hst] <;> exact HttpSendRet.noConfusion
    obtain ⟨hassert, hkeep⟩ := @startResponse_routed (h.log (.useCtx ctx)) h' ctx ret hready.routed
      hdrained hsize
    rw [httpProtocolWrite_again hctx hst]
    refine ⟨?_, fun hwrite => (hkeep hwrite).after (fun _ _ => rfl) (.refl _)⟩
    rw [hassert, ReachesText, or_iff_right hbody]
    rfl
  cases hst : (h.ctxs ctx).httpRes.sendSt with
  | head => exact absurd hst hready.whole
  | wait =>
    have hbody : (h.ctxs ctx).httpRes.sendSt ≠ .body := by
      rw [hst]
      exact HttpSendRet.noConfusion
    have hkind : (h.ctxs ctx).httpRes.SameKind ((h.begun ctx).ctxs ctx).httpRes := by
      rw [Handling.begun_httpRes]
      exact ⟨rfl, rfl, rfl, rfl⟩
    obtain ⟨hassert, hkeep⟩ := @startResponse_routed (h.begun ctx) h' ctx ret
      (hready.routed.same hkind) (.inr rfl) hsize
    rw [httpProtocolWrite_wait hctx hst]
    refine ⟨?_, fun hwrite => (hkeep hwrite).after ?_ hkind⟩
    · rw [hassert, ReachesText, or_iff_right hbody, Handling.begun_httpRes]
      rfl
    · exact fun p hp => Handling.setRes_others _ _ hp
  | body =>
    rw [httpProtocolWrite_body hctx hst]
    constructor
    · rw [sendBody_asserts_iff (h := h.log (.useCtx ctx)) hdrained hready.routed.text, ReachesText]
      simp only [Handling.log, hst, true_or, and_true]
    · intro hwrite
      have hreplied := @sendBody_replied (h.log (.useCtx ctx)) h' ctx ret hdrained hready.whole hwrite
      exact hreplied.after (fun _ _ => rfl) (.refl _)
  | done => exact hagain (.inl hst)
  | error => exact hagain (.inr hst)

end

/-! ## Reading -/

section

variable {h h' : Handling} {ctx : Nat} {ret : Int}

theorem Reply.ready {fd : Int} {res reply : HttpResponse} (hreply : Reply fd res reply) :
    reply.Ready := by
  refine ⟨hreply.routed, ?_⟩
  rw [hreply.sendSt]
  exact HttpSendRet.noConfusion

/-- The responses stay ready: those of all contexts, and that of the connection. -/
structure Serves (h h' : Handling) : Prop where
  ctxs : ∀ p, (h.ctxs p).httpRes.Ready → (h'.ctxs p).httpRes.Ready
  own : (∀ p, h.conn.protocolCtx = some p → (h.ctxs p).httpRes.Ready) →
    ∀ p, h'.conn.protocolCtx = some p → (h'.ctxs p).httpRes.Ready

theorem Serves.trans {h₁ : Handling} (a : Serves h h₁) (b : Serves h₁ h') : Serves h h' :=
  ⟨fun p => b.ctxs p ∘ a.ctxs p, fun hown => b.own (a.own hown)⟩

theorem Serves.of_ctxs (hconn : h'.conn.protocolCtx = h.conn.protocolCtx)
    (hctxs : ∀ p, (h.ctxs p).httpRes.Ready → (h'.ctxs p).httpRes.Ready) : Serves h h' :=
  ⟨hctxs, fun hown p hp => hctxs p (hown p (hconn.symm.trans hp))⟩

/-- A context is new and zero, or has the response that it had. -/
theorem Parses.serves (hparses : Parses h ctx h') : Serves h h' := by
  constructor
  · intro p hp
    by_cases hpc : p = ctx
    · rw [hpc] at hp ⊢
      cases hctx : h.conn.protocolCtx with
      | none =>
        rw [hparses.zero hctx]
        exact HttpContext.zero_ready
      | some q =>
        rw [hparses.kept (by rw [hctx]; exact Option.some_ne_none q)]
        exact hp
    · rw [hparses.others p hpc]
      exact hp
  · intro hown p hp
    rw [hparses.conn] at hp
    obtain rfl : ctx = p := Option.some.inj hp
    cases hctx : h.conn.protocolCtx with
    | none =>
      rw [hparses.zero hctx]
      exact HttpContext.zero_ready
    | some q =>
      obtain rfl := hparses.own q hctx
      rw [hparses.kept (by rw [hctx]; exact Option.some_ne_none q)]
      exact hown q hctx

theorem httpProtocolProcess_serves (hproc : httpProtocolProcess h = .ok (h', ret)) : Serves h h' := by
  obtain ⟨ctx, hctx⟩ := httpProtocolProcess_ctx hproc
  apply Serves.of_ctxs
  · exact (Touches.process hproc).hold.ctx
  · intro p hp
    by_cases hpc : p = ctx
    · rw [hpc] at hp ⊢
      by_cases hcheck : httpProtcolCheck (some (h.ctxs ctx)) = 0
      · obtain ⟨g, hanswer, hanswered⟩ := httpProtocolProcess_answers_with hctx hcheck
        rw [hanswer] at hproc
        cases hproc
        rw [hanswered.own]
        exact (replyTo_reply _ _ _).ready
      · rw [httpProtocolProcess_refuses hctx hcheck] at hproc
        cases hproc
        rw [initResponse_ctx]
        refine ⟨⟨⟨hp.routed.printable.status, hp.routed.printable.contentType⟩, fun _ => ?_⟩, ?_⟩
        · exact show (-1 : Int) < 0 by decide
        · exact HttpSendRet.noConfusion
    · rw [httpProtocolProcess_others hctx hproc p hpc]
      exact hp

/-! ## Handler calls of a connection -/

theorem closeLoop_ctxs (fuel : Nat) : ∀ {h : Handling}, closeLoop fuel h = .ok (h', ret) →
    h'.ctxs = h.ctxs := by
  induction fuel with
  | zero =>
    intro h hclose
    cases hclose
  | succ fuel ih =>
    intro h hclose
    rw [closeLoop] at hclose
    split at hclose
    · cases hclose
    · rename_i h₁ ret₁ hsend
      have hctxs : h₁.ctxs = h.ctxs := by
        unfold Handling.send at hsend
        split at hsend <;> cases hsend
        rfl
      split at hclose
      · cases hclose
        exact hctxs
      · split at hclose
        · cases hclose
          exact hctxs
        · exact (ih hclose).trans hctxs

/-- Closing leaves all contexts as they are. -/
theorem httpProtocolClose_ctxs (hclose : httpProtocolClose h = .ok (h', ret)) :
    h'.ctxs = h.ctxs := by
  unfold httpProtocolClose at hclose
  split at hclose
  · cases hclose
    rfl
  · simp only at hclose
    split at hclose <;> cases hclose
    rename_i h₁ ret₁ hloop
    have hctxs := closeLoop_ctxs _ hloop
    exact hctxs

theorem httpProtocolClose_serves (hclose : httpProtocolClose h = .ok (h', ret)) : Serves h h' := by
  apply Serves.of_ctxs
  · obtain ⟨-, rfl⟩ | ⟨ctx, h₁, -, a, rfl⟩ := httpProtocolClose_spec hclose
    · rfl
    · exact a.hold.ctx
  · rw [httpProtocolClose_ctxs hclose]
    exact fun _ => id

theorem tcpOnRead_serves {parse : Parser} {current max : Nat} {r : Handling × Verdict}
    (hread : tcpOnRead parse current max h = .ok r) :
    Serves h r.1 ∧ (r.2 = .keep → h.conn.Drained → r.1.conn.Drained) := by
  have hreceived : Receiving h.conn h.received.conn → Serves h h.received :=
    fun hrecv => .of_ctxs hrecv.ctx fun _ => id
  have hcases := tcpOnRead_cases hread
  cases hcases with
  | unread hrecv => exact ⟨hreceived hrecv, fun hkeep => by cases hkeep⟩
  | unparsed hrecv hnone => exact ⟨hreceived hrecv.toReceiving, fun hkeep => by cases hkeep⟩
  | incomplete ctx h₁ v hrecv hparses =>
    constructor
    · exact (hreceived hrecv.toReceiving).trans hparses.serves
    · intro _ hdrained
      rw [hparses.conn]
      exact .inr (hrecv.drained hdrained)
  | refused ctx h₁ h₂ ret hrecv hparses hall hcheck hproc hclose =>
    have hprocessed := hparses.serves.trans (httpProtocolProcess_serves hproc)
    constructor
    · exact ((hreceived hrecv.toReceiving).trans hprocessed).trans (httpProtocolClose_serves hclose)
    · exact fun hkeep => by cases hkeep
  | accepted ctx h₁ g hrecv hparses hall hcheck hreq hproc hanswered =>
    have hprocessed := hparses.serves.trans (httpProtocolProcess_serves hproc)
    have hserves := (hreceived hrecv.toReceiving).trans hprocessed
    constructor
    · exact ⟨hserves.ctxs, hserves.own⟩
    · intro _ hdrained
      have hconn : (verdict current max (g.log (.epollMod g.conn.fd true))).1.conn = g.conn := rfl
      rw [hconn, hanswered.conn, hparses.conn]
      exact .inr (hrecv.drained hdrained)

theorem httpProtocolWrite_serves (hwrite : httpProtocolWrite h = .ok (h', ret))
    (hown : ∀ p, h.conn.protocolCtx = some p → (h.ctxs p).httpRes.Ready)
    (hdrained : h.conn.Drained) (hsize : h.env.fileSize < 2 ^ 63) :
    ∃ ctx, h'.conn.protocolCtx = some ctx ∧ Replied ctx h h' ∧ Serves h h' := by
  cases hctx : h.conn.protocolCtx with
  | none =>
    unfold httpProtocolWrite at hwrite
    rw [hctx] at hwrite
    cases hwrite
  | some ctx =>
    have hready := hown ctx hctx
    have hreplied := (httpProtocolWrite_routed hctx hready hdrained hsize).2 hwrite
    have hctx' : h'.conn.protocolCtx = h.conn.protocolCtx := (Touches.write hwrite).hold.ctx
    refine ⟨ctx, hctx'.trans hctx, hreplied, .of_ctxs hctx' fun p hp => ?_⟩
    by_cases hpc : p = ctx
    · rw [hpc]
      exact ⟨hready.routed.same hreplied.kind, hreplied.whole⟩
    · rw [hreplied.others p hpc]
      exact hp

theorem tcpOnWrite_serves {current max : Nat} {v : Verdict}
    (hwrite : tcpOnWrite current max h = .ok (h', v))
    (hown : ∀ p, h.conn.protocolCtx = some p → (h.ctxs p).httpRes.Ready)
    (hdrained : h.conn.Drained) (hsize : h.env.fileSize < 2 ^ 63) :
    Serves h h' ∧ (v = .keep → h'.conn.Drained) := by
  obtain ⟨-, h₁, ret₁, ctx₁, hw, hctx₁, hcase⟩ := tcpOnWrite_cases hwrite
  obtain ⟨ctx, hctx, hreplied, hserves⟩ := httpProtocolWrite_serves hw hown hdrained hsize
  obtain rfl : ctx = ctx₁ := Option.some.inj (hctx.symm.trans hctx₁)
  cases hcase with
  | reset => exact ⟨⟨hserves.ctxs, hserves.own⟩, fun _ => .inr rfl⟩
  | going _ hgoing => exact ⟨hserves, fun _ => hreplied.drained hgoing⟩
  | failed => exact ⟨hserves, fun hkeep => by cases hkeep⟩

end

/-! ## The server -/

/-- A connection that is in use has nothing unsent, and its response is ready. -/
def ConnServes (s : TcpServer) (i : Nat) : Prop :=
  (s.connArray i).protocolHandler = true → (s.connArray i).Drained ∧
    ∀ p, (s.connArray i).protocolCtx = some p → (s.ctxs p).httpRes.Ready

/-- The connection is open, or `epoll_wait` has named its context. -/
def InUse (s : TcpServer) (returned : List EventContext) (i : Nat) : Prop :=
  (∃ j, (i, j) ∈ s.opened) ∨ .tcp i ∈ returned

def AllServe (s : TcpServer) (returned : List EventContext) : Prop :=
  ∀ i, InUse s returned i → ConnServes s i

section

variable {s t : TcpServer} {returned : List EventContext} {i j : Nat}

theorem ConnServes.congr (h : ConnServes s i) (hconn : t.connArray i = s.connArray i)
    (hctxs : ∀ p, (s.ctxs p).httpRes.Ready → (t.ctxs p).httpRes.Ready) : ConnServes t i := by
  unfold ConnServes at h ⊢
  rw [hconn]
  intro hhandler
  obtain ⟨hdrained, hown⟩ := h hhandler
  exact ⟨hdrained, fun p hp => hctxs p (hown p hp)⟩

theorem delete_ctxs {tcpEvent timeEvent : Option Nat} {env : Env}
    (hdel : tcpserverDeleteTcpAndTimer s tcpEvent timeEvent env = .ok t) : t.ctxs = s.ctxs := by
  unfold tcpserverDeleteTcpAndTimer at hdel
  split at hdel
  · split at hdel
    · cases hdel
    · rename_i s₁ hclose
      have hctxs : s₁.ctxs = s.ctxs := by
        unfold tcpServerCloseConnection connectionClearProtocol at hclose
        split at hclose
        · cases hclose
        · rename_i h hclear
          cases hclose
          split at hclear
          · split at hclear <;> cases hclear
            rename_i h₁ ret hprotocol
            have hsame := httpProtocolClose_ctxs hprotocol
            exact hsame
          · cases hclear
      split at hdel
      · cases hdel
        exact hctxs
      · cases hdel
  · cases hdel

/-- A connection that is still in use behind a deletion is another one, and as before. -/
theorem delete_inUse {tcpEvent timeEvent : Option Nat} {env : Env} {k : Nat}
    (hdel : tcpserverDeleteTcpAndTimer s tcpEvent timeEvent env = .ok t) (huse : InUse t returned k)
    (hhandler : (t.connArray k).protocolHandler = true) :
    tcpEvent ≠ some k ∧ InUse s returned k ∧ t.connArray k = s.connArray k := by
  obtain ⟨i, j, cleared, rfl, rfl, hclear, hdeleted⟩ := delete_spec hdel
  by_cases hki : k = i
  · rw [hki, hdeleted.conn] at hhandler
    have hcleared : cleared.conn.protocolHandler = true := hhandler
    rw [(connectionClearProtocol_handler hclear).1] at hcleared
    cases hcleared
  · refine ⟨fun he => hki (Option.some.inj he).symm, ?_, hdeleted.others k hki⟩
    obtain ⟨l, hl⟩ | hreturned := huse
    · rw [hdeleted.opened] at hl
      exact .inl ⟨l, List.mem_of_mem_filter hl⟩
    · exact .inr hreturned

/-- The deletion of a connection leaves the others serving. -/
theorem delete_serves {tcpEvent timeEvent : Option Nat} {env : Env}
    (hdel : tcpserverDeleteTcpAndTimer s tcpEvent timeEvent env = .ok t)
    (hothers : ∀ k, tcpEvent ≠ some k → InUse s returned k → ConnServes s k) :
    AllServe t returned := by
  intro k huse hhandler
  obtain ⟨hk, huse', hconn⟩ := delete_inUse hdel huse hhandler
  refine (hothers k hk huse').congr hconn ?_ hhandler
  rw [delete_ctxs hdel]
  exact fun _ => id

/-- Following the verdict on a connection that serves leaves all serving. -/
theorem settle_serves {env : Env} {r : Handling × Verdict} (h : AllServe s returned)
    (hserves : Serves (s.handling i env) r.1)
    (hkeep : r.2 = .keep → r.1.conn.Drained ∧ ∀ p, (s.connArray i).protocolCtx = some p →
      (s.ctxs p).httpRes.Ready) (hsettle : settle s i r = .ok t) : AllServe t returned := by
  have hothers : ∀ k, k ≠ i → InUse s returned k → ConnServes (s.absorb i r.1) k := by
    intro k hk huse
    apply (h k huse).congr
    · simp only [TcpServer.absorb, if_neg hk]
    · exact hserves.ctxs
  unfold settle at hsettle
  split at hsettle
  · rename_i hv
    cases hsettle
    obtain ⟨hdrained, hown⟩ := hkeep hv
    intro k huse
    by_cases hk : k = i
    · intro _
      simp only [hk, TcpServer.absorb, ↓reduceIte]
      exact ⟨hdrained, hserves.own hown⟩
    · exact hothers k hk huse
  · exact delete_serves hsettle fun k hk huse => hothers k (fun he => hk (congrArg some he.symm)) huse

theorem connectionCreate_serves {conn conn' : Connection} {fd : Int} {a a' : MemoryArena}
    {connId now : Nat} {ret : Int}
    (hcreate : connectionCreate conn fd a connId now = (a', conn', ret)) (hret : ¬ ret < 0) :
    conn'.sendBuf.idx = conn'.sendBuf.len ∧ conn'.protocolCtx = none := by
  obtain ⟨mem, p, n, q, m, rfl⟩ := connectionCreate_conn hcreate hret
  exact ⟨rfl, rfl⟩

/-- A turn of the accept loop keeps a connection, or creates it. -/
structure Accepted (s t : TcpServer) : Prop where
  ctxs : t.ctxs = s.ctxs
  conns : ∀ k, ((t.connArray k).sendBuf.idx = (t.connArray k).sendBuf.len ∧
    (t.connArray k).protocolCtx = none) ∨
      t.connArray k = s.connArray k ∧ ∀ l, (k, l) ∈ t.opened → (k, l) ∈ s.opened

theorem Accepted.of_eq (hctxs : t.ctxs = s.ctxs) (hconns : t.connArray = s.connArray)
    (hopened : t.opened = s.opened) : Accepted s t := by
  refine ⟨hctxs, fun k => .inr ⟨by rw [hconns], ?_⟩⟩
  rw [hopened]
  exact fun _ => id

theorem Accepted.trans {u : TcpServer} (a : Accepted s t) (b : Accepted t u) : Accepted s u := by
  refine ⟨b.ctxs.trans a.ctxs, fun k => ?_⟩
  obtain hnew | ⟨hconn, hopened⟩ := b.conns k
  · exact .inl hnew
  · obtain hnew' | ⟨hconn', hopened'⟩ := a.conns k
    · rw [hconn]
      exact .inl hnew'
    · exact .inr ⟨hconn.trans hconn', fun l hl => hopened' l (hopened l hl)⟩

theorem ConnCreated.accepted {now fd : Nat} (h : ConnCreated now s t i j fd) : Accepted s t := by
  refine ⟨by rw [h.rest], fun k => ?_⟩
  by_cases hk : k = i
  · obtain ⟨ret, hcreate, hret⟩ := h.create
    rw [hk]
    exact .inl (connectionCreate_serves hcreate hret)
  · refine .inr ⟨h.others k hk, fun l hl => ?_⟩
    rw [h.rest] at hl
    obtain heq | hold := List.mem_cons.1 hl
    · exact absurd (congrArg Prod.fst heq) hk
    · exact hold

/-- What the turns of the accept loop do: leave the connections alone, or create one. -/
structure TurnRule (now : Nat) (R : TcpServer → TcpServer → Prop) : Prop where
  same : ∀ {s t : TcpServer}, t.ctxs = s.ctxs → t.connArray = s.connArray →
    t.opened = s.opened → R s t
  created : ∀ {s t : TcpServer} {i j fd : Nat}, ConnCreated now s t i j fd → R s t
  trans : ∀ {s t u : TcpServer}, R s t → R t u → R s u

section

variable {R : TcpServer → TcpServer → Prop} {now : Nat} (rule : TurnRule now R)
include rule

theorem TurnRule.clean {newIdx newIdx2 : Option Nat} (hclean : cleanIdx s newIdx newIdx2 = .ok t) :
    R s t := by
  rw [(cleanIdx_ok hclean).2.2]
  exact rule.same rfl rfl rfl

theorem TurnRule.taken (htaken : Taken s t i j) : R s t := by
  rw [htaken.rest]
  exact rule.same rfl rfl rfl

theorem TurnRule.lastTurn {outs : List AcceptOutcome} (h : LastTurn now outs s t) : R s t := by
  cases h with
  | limit newIdx newIdx2 _ _ hclean => exact rule.clean hclean
  | exhausted newIdx newIdx2 s₁ t _ _ _ hrest _ hclean =>
    have htaken : R s s₁ := by
      rw [hrest]
      exact rule.same rfl rfl rfl
    exact rule.trans htaken (rule.clean hclean)
  | returned i j s₁ t fd htaken hclean =>
    have hclosed : R s₁ (closeAccepted s₁ fd) := by
      rw [closeAccepted_eq]
      exact rule.same rfl rfl rfl
    exact rule.trans (rule.trans (rule.taken htaken) hclosed) (rule.clean hclean)
  | noMemory i j fd s₁ a conn ret htaken =>
    exact rule.trans (rule.taken htaken) (rule.same rfl rfl rfl)
  | halfOpen i j fd timer s₁ s₂ htaken hcreated =>
    have hmade := rule.trans (rule.taken htaken) (rule.created hcreated)
    exact rule.trans hmade (rule.same rfl rfl rfl)

theorem TurnRule.openTurn (h : OpenTurn now s t) : R s t := by
  obtain ⟨i, j, fd, timeFd, s₁, s₂, htaken, hcreated, rfl⟩ := h
  have hmade := rule.trans (rule.taken htaken) (rule.created hcreated)
  exact rule.trans hmade (rule.same rfl rfl rfl)

theorem TurnRule.run {outs : List AcceptOutcome} {newIdx newIdx2 : Option Nat}
    (hloop : listenLoop now outs s newIdx newIdx2 = .ok t) : R s t := by
  obtain ⟨u, hturns, hlast, -⟩ := listenLoop_turns outs hloop
  refine rule.trans ?_ (rule.lastTurn hlast)
  clear hlast
  induction hturns with
  | refl => exact rule.same rfl rfl rfl
  | tail _ hturn ih => exact rule.trans ih (rule.openTurn hturn)

end

theorem listenLoop_accepted {now : Nat} {outs : List AcceptOutcome} {newIdx newIdx2 : Option Nat}
    (hloop : listenLoop now outs s newIdx newIdx2 = .ok t) : Accepted s t :=
  TurnRule.run ⟨.of_eq, ConnCreated.accepted, Accepted.trans⟩ hloop

theorem AllServe.accepted (h : AllServe s returned) (ha : Accepted s t) : AllServe t returned := by
  intro k huse
  obtain ⟨hidx, hnone⟩ | ⟨hconn, hopened⟩ := ha.conns k
  · intro _
    refine ⟨.inr hidx, fun p hp => ?_⟩
    rw [hnone] at hp
    cases hp
  · apply (h k ?_).congr hconn
    · rw [ha.ctxs]
      exact fun _ => id
    · exact huse.imp (fun ⟨l, hl⟩ => ⟨l, hopened l hl⟩) id

theorem dispatch_serves {parse : Parser} {c : HandlerCall} (h : AllServe s returned)
    (hmem : c.context ∈ returned) (hsize : c.env.fileSize < 2 ^ 63)
    (hdisp : dispatch parse s c = .ok t) : AllServe t returned := by
  cases dispatch_runs hdisp with
  | idle => exact h
  | stopped => exact h
  | listened t _ _ _ hloop => exact h.accepted (listenLoop_accepted hloop)
  | read i h' v t hctx _ hread hsettle =>
    have huse : InUse s returned i := .inr (hctx ▸ hmem)
    obtain ⟨hserves, hdrained⟩ := tcpOnRead_serves hread
    apply settle_serves h hserves _ hsettle
    intro hkeep
    cases hkeep
    obtain ⟨hd, hown⟩ := h i huse (tcpOnRead_handler hread)
    exact ⟨hdrained rfl hd, hown⟩
  | wrote i h' v t hctx _ hwrite hsettle =>
    have huse : InUse s returned i := .inr (hctx ▸ hmem)
    obtain ⟨hd, hown⟩ := h i huse (tcpOnWrite_handler hwrite)
    obtain ⟨hserves, hdrained⟩ := tcpOnWrite_serves hwrite hown hd hsize
    exact settle_serves h hserves (fun hkeep => ⟨hdrained hkeep, hown⟩) hsettle
  | deleted _ _ t _ _ hdel => exact delete_serves hdel fun k _ huse => h k huse

end

/-! ## Every run -/

/-- The size that `fstat` stores is an `off_t`. -/
def Sized (_ : EventLoop) : LoopEvent → Prop
  | .call c => c.env.fileSize < 2 ^ 63
  | .wait _ => True

/-- What every call keeps of the connections in use holds of them in every run. -/
theorem loop_inUse {parse : Parser} {ok : EventLoop → LoopEvent → Prop} {Q : TcpServer → Nat → Prop}
    {s : TcpServer} {l : EventLoop} (hnone : s.opened = [])
    (hdead : ∀ s i, Q s i → Q { s with dead := [] } i)
    (hcall : ∀ s returned c t, (∀ i, InUse s returned i → Q s i) → c.context ∈ returned →
      ok ⟨s, returned⟩ (.call c) → dispatch parse s c = .ok t → ∀ i, InUse t returned i → Q t i)
    (hrun : Machine.Reaches (Machine.graph (loopStep parse)) ok ⟨s, []⟩ l) :
    ∀ i, InUse l.server l.returned i → Q l.server i := by
  apply hrun.invariant fun l => ∀ i, InUse l.server l.returned i → Q l.server i
  · rintro i (⟨j, hij⟩ | hmem)
    · simp only [hnone, List.not_mem_nil] at hij
    · exact absurd hmem List.not_mem_nil
  · intro a e b h hok hstep
    cases e with
    | wait returned =>
      simp only [Machine.graph, loopStep] at hstep
      split at hstep
      · rename_i hwait
        cases hstep
        rintro i (hopen | hmem)
        · exact hdead _ i (h i (.inl hopen))
        · -- `epoll_wait` names open connections only
          obtain ⟨⟨k, l⟩, hkl, hk⟩ := List.any_eq_true.1 (hwait.2 _ hmem)
          rw [beq_iff_eq] at hk
          exact hdead _ i (h i (.inl ⟨l, hk ▸ hkl⟩))
      · cases hstep
    | call c =>
      simp only [Machine.graph, loopStep] at hstep
      split at hstep
      · rename_i hmem
        split at hstep
        · rename_i t hdisp
          cases hstep
          exact hcall _ _ c t h hmem hok hdisp
        · cases hstep
      · cases hstep

/-- From a server without connections all that are opened serve. -/
theorem loop_serves {parse : Parser} {s : TcpServer} {l : EventLoop} (hnone : s.opened = [])
    (hrun : Machine.Reaches (Machine.graph (loopStep parse)) Sized ⟨s, []⟩ l) :
    AllServe l.server l.returned :=
  loop_inUse hnone (fun _ _ h => h)
    (fun _ _ _ _ h hmem hsize hdisp => dispatch_serves h hmem hsize hdisp) hrun

/-- No `ASSERT` of `connection_send` fails in the call. `http_protocol_write` and
`http_protocol_close` contain no other one; what the call closes is left open. -/
def SendsChecked (s : TcpServer) (c : HandlerCall) : Prop :=
  (∀ i, c.context = .tcp i → c.kind = .onWrite → (s.connArray i).protocolHandler = true →
    httpProtocolWrite (s.handling i c.env) ≠ .error .assertion) ∧
      ∀ h, httpProtocolClose h ≠ .error .assertion

/-- The call writes to a connection that comes to a string body with requests left. -/
def WritesText (s : TcpServer) (c : HandlerCall) : Prop :=
  ∃ i ctx, c.context = .tcp i ∧ c.kind = .onWrite ∧ (s.connArray i).protocolHandler = true ∧
    (s.connArray i).protocolCtx = some ctx ∧
      ReachesText (s.connArray i) (s.ctxs ctx).httpRes c.env.sends

/-- A parser that always finds a request for the start page. -/
def homeRequest : Parser := fun _ _ =>
  ⟨27, utf8 "GET", utf8 "/", 1, [⟨utf8 "Host", utf8 "a"⟩]⟩

/-- A client asks for the start page. -/
def homeRun (env : Env) : List LoopEvent :=
  [.wait [.listen], acceptCall [oneClient], .wait [.tcp 0], .call ⟨.tcp 0, .onRead, env, []⟩]

/-- The start page cannot be opened. -/
def Env.missing : Env := { Env.opens with opened := none }

instance (l : EventLoop) : (e : LoopEvent) → Decidable (Sized l e)
  | .call c => inferInstanceAs (Decidable (c.env.fileSize < 2 ^ 63))
  | .wait _ => .isTrue trivial

/-- An `ASSERT` has failed. -/
def failsAssert {α : Type} : Except Fault α → Bool
  | .error .assertion => true
  | _ => false

theorem eq_assertion {α : Type} {r : Except Fault α} (h : failsAssert r = true) :
    r = .error .assertion := by
  unfold failsAssert at h
  split at h
  · rfl
  · cases h

end PingServer
