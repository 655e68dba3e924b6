import PingServer.Net.Pipelining
import PingServer.Net.Receiving

/-!
# The contract of the incremental parser

`phr_parse_request` takes as `last_len` the length that its last call was incomplete
with. `http_protocol_read` keeps the result of that call instead, -2, which as a
`size_t` lies far behind every buffer. So a request is within the contract just as
long as it comes in one read event.
-/

namespace PingServer

/-- A call of `phr_parse_request`. -/
structure ParserCall where
  lastLen : Nat
  bufLen : Nat
  ret : Int
  deriving DecidableEq, Repr

/-- A read event gets as far as the parser. -/
def Handling.ReachesParser (h : Handling) : Prop :=
  isRecvError (connectionRecv h.conn h.env.recvs h.env.now).2 = false ∧
    h.conn.protocolHandler = true ∧
    (h.conn.protocolCtx = none → (arenaAllocRefBlock h.arena sizeofHttpContext).isSome = true)

instance (h : Handling) : Decidable h.ReachesParser := inferInstanceAs (Decidable (_ ∧ _))

/-- The call that a read event then makes. -/
def Handling.parserCall (parse : Parser) (h : Handling) : ParserCall :=
  ⟨h.partialRequest.lastLen, h.received.conn.readBuf.len, (h.received.parsed parse).ret⟩

def SessionEvent.parserCall (parse : Parser) (h : Handling) : SessionEvent → Option ParserCall
  | .read _ env =>
    let h := { h with env := env }
    if h.ReachesParser then some (h.parserCall parse) else none
  | .write _ _ | .others _ _ _ => none

/-- The calls of a session, whose last event may close the connection. -/
def parserCalls (parse : Parser) (max : Nat) : Handling → List SessionEvent → List ParserCall
  | _, [] => []
  | h, e :: es =>
    (e.parserCall parse h).toList ++
      match sessionStep parse max h e with
      | some h' => parserCalls parse max h' es
      | none => []

/-- `last_len` is what an incomplete call before it was given, and parsing resumes
within the received bytes. -/
structure ParserCall.InContract (before : Option ParserCall) (c : ParserCall) : Prop where
  resumes : c.lastLen = 0 ∨ ∃ p, before = some p ∧ p.ret = -2 ∧ c.lastLen = p.bufLen
  inside : c.lastLen ≤ c.bufLen

def WithinContract : Option ParserCall → List ParserCall → Prop
  | _, [] => True
  | before, c :: cs => c.InContract before ∧ WithinContract (some c) cs

/-- The read buffer holds an incomplete request. -/
def Handling.Waiting (parse : Parser) (h : Handling) : Prop :=
  h.conn.protocolCtx ≠ none ∧ (parse h.conn.readBuf.bytes 0).ret = -2

/-- The event does not call the parser for the rest of a request. -/
def TakesWhole (parse : Parser) (h : Handling) : SessionEvent → Prop
  | .read _ env => ({ h with env := env } : Handling).ReachesParser → ¬ h.Waiting parse
  | .write _ _ | .others _ _ _ => True

instance (parse : Parser) (h : Handling) : Decidable (h.Waiting parse) := inferInstanceAs (Decidable (_ ∧ _))

instance (parse : Parser) (h : Handling) : (e : SessionEvent) → Decidable (TakesWhole parse h e)
  | .read _ _ => inferInstanceAs (Decidable (_ → _))
  | .write _ _ | .others _ _ _ => .isTrue trivial

section

variable {parse : Parser} {h h₁ h' : Handling}

/-! ## One call -/

theorem partialRequest_own {ctx : Nat} (hctx : h.conn.protocolCtx = some ctx) :
    h.partialRequest = (h.ctxs ctx).httpReq := by
  unfold Handling.partialRequest
  rw [hctx]

/-- What a call leaves for the next one, where the connection stays open. -/
structure Asked (parse : Parser) (h h' : Handling) : Prop where
  readBuf : h'.conn.readBuf = h.conn.readBuf
  own : h'.conn.protocolCtx ≠ none
  lastLen : h'.partialRequest.lastLen = if (h.parsed parse).ret = -2 then 2 ^ 64 - 2 else 0
  unfinished : ∀ ctx, h'.conn.protocolCtx = some ctx → (h'.ctxs ctx).httpRes.sendSt ≠ .done

theorem Answers.partialRequest (a : Answers h h') : h'.partialRequest = h.partialRequest := by
  unfold Handling.partialRequest
  rw [a.ctx]
  split
  · exact a.req _
  · rfl

theorem Asked.answers (asked : Asked parse h h₁) (a : Answers h₁ h') : Asked parse h h' := by
  constructor
  · exact a.readBuf.trans asked.readBuf
  · rw [a.ctx]
    exact asked.own
  · rw [a.partialRequest]
    exact asked.lastLen
  · intro ctx hctx
    exact a.unfinished ctx (asked.unfinished ctx (a.ctx ▸ hctx))

theorem httpParse_asked {ctx : Nat} (hctx : h.conn.protocolCtx = some ctx)
    (hunfinished : (h.ctxs ctx).httpRes.sendSt ≠ .done)
    (hkept : 0 ≤ (httpParse parse h ctx).2 ∨ (httpParse parse h ctx).2 = errorHttpNeedMore) :
    Asked parse h (httpParse parse h ctx).1 := by
  have hset : ∀ req : HttpRequest,
      req.lastLen = (if (h.parsed parse).ret = -2 then 2 ^ 64 - 2 else 0) →
      Asked parse h ((h.log (.useCtx ctx)).setReq ctx req) := by
    intro req hlast
    have hown : ((h.log (.useCtx ctx)).setReq ctx req).conn.protocolCtx = some ctx := hctx
    constructor
    · rfl
    · rw [hown]
      exact Option.some_ne_none ctx
    · rw [partialRequest_own hown]
      simp only [Handling.setReq, Handling.setCtx, ↓reduceIte]
      exact hlast
    · intro p hp
      obtain rfl : ctx = p := Option.some.inj (hown.symm.trans hp)
      simp only [Handling.setReq, Handling.setCtx, ↓reduceIte]
      exact hunfinished
  have hparsed : parse (h.log (.useCtx ctx)).conn.readBuf.bytes
      ((h.log (.useCtx ctx)).ctxs ctx).httpReq.lastLen = h.parsed parse := by
    rw [Handling.parsed, partialRequest_own hctx]
    rfl
  revert hkept
  unfold httpParse
  simp only [hparsed]
  split
  · split
    · intro hkept
      rcases hkept with hkept | hkept
      · exact absurd hkept (show ¬ 0 ≤ errorHttpParse by decide)
      · cases hkept
    · rename_i hmore
      intro _
      exact hset _ (if_pos (not_not.1 hmore)).symm
  · rename_i hpos
    intro _
    exact hset _ (if_neg (by omega)).symm

theorem httpProtocolRead_asked
    (hunfinished : ∀ ctx, h.conn.protocolCtx = some ctx → (h.ctxs ctx).httpRes.sendSt ≠ .done)
    (hkept : 0 ≤ (httpProtocolRead parse h).2 ∨ (httpProtocolRead parse h).2 = errorHttpNeedMore) :
    Asked parse h (httpProtocolRead parse h).1 ∧ (h.conn.protocolCtx = none →
      (arenaAllocRefBlock h.arena sizeofHttpContext).isSome = true) := by
  revert hkept
  unfold httpProtocolRead
  split
  · rename_i ctx hctx
    intro hkept
    refine ⟨httpParse_asked hctx (hunfinished ctx hctx) hkept, ?_⟩
    intro hnone
    rw [hctx] at hnone
    cases hnone
  · rename_i hnone
    split
    · intro hkept
      rcases hkept with hkept | hkept
      · exact absurd hkept (show ¬ 0 ≤ errorMemFull by decide)
      · cases hkept
    · rename_i g ctx hinit
      intro hkept
      obtain ⟨a, halloc, -, hconn, -⟩ := httpInit_some hinit
      have hctx : g.conn.protocolCtx = some ctx := by rw [hconn]
      have hzero := (httpInit_zero hinit).1
      have asked := httpParse_asked hctx (by rw [hzero]; decide) hkept
      have hparsed : g.parsed parse = h.parsed parse := by
        rw [Handling.parsed, Handling.parsed, partialRequest_own hctx, Handling.partialRequest, hnone,
          hzero, hconn]
      constructor
      · constructor
        · rw [asked.readBuf, hconn]
        · exact asked.own
        · rw [asked.lastLen, hparsed]
        · exact asked.unfinished
      · intro _
        rw [halloc]
        rfl

/-! ## One event -/

theorem received_partialRequest (h : Handling) : h.received.partialRequest = h.partialRequest := by
  unfold Handling.partialRequest
  rw [show h.received.conn.protocolCtx = h.conn.protocolCtx from (connectionRecv_hold _ _ _).ctx]
  rfl

theorem connectionRecv_fits {conn : Connection} (hfits : conn.readBuf.len ≤ conn.readBuf.cap)
    (recvs : List RecvOutcome) (now : Nat) :
    (connectionRecv conn recvs now).1.readBuf.len ≤ conn.readBuf.cap ∧
      (connectionRecv conn recvs now).1.readBuf.cap = conn.readBuf.cap := by
  unfold connectionRecv
  split
  · exact ⟨hfits, rfl⟩
  · simp only
    split
    · exact ⟨hfits, rfl⟩
    · rw [recvLoop_eq]
      exact ⟨received_fits _ _ _ hfits, rfl⟩

/-- The last call of a read event that keeps the connection was incomplete, or has found
a request. -/
theorem tcpOnRead_asked {current max : Nat}
    (hunfinished : ∀ ctx, h.conn.protocolCtx = some ctx → (h.ctxs ctx).httpRes.sendSt ≠ .done)
    (hread : tcpOnRead parse current max h = .ok (h', .keep)) :
    h.ReachesParser ∧ Asked parse h.received h' := by
  have hhold := connectionRecv_hold h.conn h.env.recvs h.env.now
  have hasked := @httpProtocolRead_asked parse h.received fun ctx hctx =>
    hunfinished ctx (hhold.ctx ▸ hctx)
  have hreaches : ∀ {h₁ ret}, ProtocolRead parse h h₁ ret → (h.received.conn.protocolCtx = none →
      (arenaAllocRefBlock h.received.arena sizeofHttpContext).isSome = true) → h.ReachesParser :=
    fun hrun hmemory => ⟨decide_eq_false hrun.received, hrun.inUse,
      fun hnone => hmemory (hhold.ctx.trans hnone)⟩
  cases tcpOnRead_runs hread with
  | unparsed h₁ ret _ hrun _ hkeep =>
    rw [hrun.read] at hasked
    obtain ⟨asked, hmemory⟩ := hasked (.inr (hkeep.1 rfl))
    exact ⟨hreaches hrun hmemory, asked⟩
  | answered h₁ h₂ ret _ hrun hpos hproc =>
    rw [hrun.read] at hasked
    obtain ⟨asked, hmemory⟩ := hasked (.inl hpos)
    refine ⟨hreaches hrun hmemory, ?_⟩
    obtain ⟨ctx, hctx⟩ := httpProtocolProcess_ctx hproc
    have hlogged : Asked parse h.received (h₁.log (.process (h₁.ctxs ctx).httpReq)) :=
      ⟨asked.readBuf, asked.own, asked.lastLen, asked.unfinished⟩
    have a := httpProtocolProcess_answers hctx hproc
    exact hlogged.answers (a.log (x := .epollMod h₂.conn.fd true) rfl)

/-- What is kept between two events of a connection. -/
structure Remembers (parse : Parser) (h : Handling) : Prop where
  fits : h.conn.readBuf.len ≤ h.conn.readBuf.cap
  cap : h.conn.readBuf.cap < 2 ^ 32
  lastLen : h.partialRequest.lastLen = if h.Waiting parse then 2 ^ 64 - 2 else 0
  unfinished : ∀ ctx, h.conn.protocolCtx = some ctx → (h.ctxs ctx).httpRes.sendSt ≠ .done

theorem NewConnection.remembers (hnew : NewConnection h.conn) (hcap : h.conn.readBuf.cap < 2 ^ 32) :
    Remembers parse h := by
  constructor
  · rw [hnew.empty]
    exact Nat.zero_le _
  · exact hcap
  · have hnot : ¬ h.Waiting parse := fun hwaiting => hwaiting.1 hnew.ctx
    rw [if_neg hnot, Handling.partialRequest, hnew.ctx]
    rfl
  · intro ctx hctx
    rw [hnew.ctx] at hctx
    cases hctx

/-- A step that changes neither the connection nor its context. -/
theorem Remembers.frame (inv : Remembers parse h) (hconn : h'.conn = h.conn)
    (hown : ∀ ctx, h.conn.protocolCtx = some ctx → h'.ctxs ctx = h.ctxs ctx) :
    Remembers parse h' := by
  have hreq : h'.partialRequest = h.partialRequest := by
    unfold Handling.partialRequest
    rw [hconn]
    split
    · rename_i ctx hctx
      rw [hown ctx hctx]
    · rfl
  constructor
  · rw [hconn]
    exact inv.fits
  · rw [hconn]
    exact inv.cap
  · rw [hreq, inv.lastLen]
    apply if_congr _ rfl rfl
    unfold Handling.Waiting
    rw [hconn]
  · intro ctx hctx
    rw [hconn] at hctx
    rw [hown ctx hctx]
    exact inv.unfinished ctx hctx

theorem Remembers.answers (inv : Remembers parse h) (a : Answers h h') : Remembers parse h' := by
  have hwaiting : h'.Waiting parse ↔ h.Waiting parse := by
    unfold Handling.Waiting
    rw [a.ctx, a.readBuf]
  constructor
  · rw [a.readBuf]
    exact inv.fits
  · rw [a.readBuf]
    exact inv.cap
  · rw [a.partialRequest, inv.lastLen]
    exact if_congr hwaiting.symm rfl rfl
  · intro ctx hctx
    exact a.unfinished ctx (inv.unfinished ctx (a.ctx ▸ hctx))

theorem Remembers.asked (inv : Remembers parse h) (hwhole : ¬ h.Waiting parse)
    (asked : Asked parse h.received h') : Remembers parse h' := by
  obtain ⟨hlen, hcap⟩ := connectionRecv_fits inv.fits h.env.recvs h.env.now
  have hparsed : h.received.parsed parse = parse h'.conn.readBuf.bytes 0 := by
    rw [Handling.parsed, received_partialRequest, inv.lastLen, if_neg hwhole, asked.readBuf]
  constructor
  · rw [asked.readBuf]
    exact hlen.trans hcap.ge
  · rw [asked.readBuf]
    exact hcap.trans_lt inv.cap
  · rw [asked.lastLen, hparsed]
    apply if_congr _ rfl rfl
    exact (and_iff_right asked.own).symm
  · exact asked.unfinished

/-- A write event does not touch what the parser goes on with. -/
theorem tcpOnWrite_remembers {current max : Nat} (inv : Remembers parse h)
    (hwrite : tcpOnWrite current max h = .ok (h', .keep)) : Remembers parse h' := by
  obtain ⟨ret, hsent⟩ := tcpOnWrite_kept hwrite fun h₁ ret ctx hsent hctx =>
    (inv.answers (httpProtocolWrite_answers hsent)).unfinished ctx hctx
  exact inv.answers (httpProtocolWrite_answers hsent)

theorem sessionStep_remembers {max : Nat} {e : SessionEvent} (inv : Remembers parse h)
    (hwhole : TakesWhole parse h e) (hstep : sessionStep parse max h e = some h') :
    Remembers parse h' := by
  cases e with
  | read current env =>
    simp only [sessionStep] at hstep
    split at hstep
    · rename_i g hread
      cases hstep
      have inv' : Remembers parse { h with env := env } := inv.frame rfl fun _ _ => rfl
      obtain ⟨hreaches, asked⟩ := tcpOnRead_asked inv'.unfinished hread
      exact inv'.asked (hwhole hreaches) asked
    · cases hstep
  | write current env =>
    simp only [sessionStep] at hstep
    split at hstep
    · rename_i g hwrite
      cases hstep
      have inv' : Remembers parse { h with env := env } := inv.frame rfl fun _ _ => rfl
      exact tcpOnWrite_remembers inv' hwrite
    · cases hstep
  | others arena ctxs cache =>
    cases hstep
    exact inv.frame rfl fun ctx hctx => if_pos hctx

/-- A call is within its contract unless it goes on with a request: what is kept then
lies behind every buffer. -/
theorem Remembers.inContract_iff (inv : Remembers parse h) (before : Option ParserCall) :
    (h.parserCall parse).InContract before ↔ ¬ h.Waiting parse := by
  constructor
  · intro hin hwaiting
    have hinside : h.partialRequest.lastLen ≤ h.received.conn.readBuf.len := hin.inside
    have hfits := (connectionRecv_fits inv.fits h.env.recvs h.env.now).1
    have hlen : h.received.conn.readBuf.len < 2 ^ 32 := hfits.trans_lt inv.cap
    rw [inv.lastLen, if_pos hwaiting] at hinside
    omega
  · intro hwhole
    have hzero : (h.parserCall parse).lastLen = 0 := inv.lastLen.trans (if_neg hwhole)
    constructor
    · exact .inl hzero
    · rw [hzero]
      exact Nat.zero_le _

theorem takesWhole_of_none {e : SessionEvent} (hcall : e.parserCall parse h = none) :
    TakesWhole parse h e := by
  cases e with
  | read current env =>
    intro hreaches
    simp only [SessionEvent.parserCall, if_pos hreaches] at hcall
    cases hcall
  | write | others => trivial

theorem Remembers.inContract_iff_takesWhole (inv : Remembers parse h) {e : SessionEvent}
    {c : ParserCall} (hcall : e.parserCall parse h = some c) (before : Option ParserCall) :
    c.InContract before ↔ TakesWhole parse h e := by
  cases e with
  | read current env =>
    have inv' : Remembers parse { h with env := env } := inv.frame rfl fun _ _ => rfl
    simp only [SessionEvent.parserCall] at hcall
    split at hcall
    · rename_i hreaches
      cases hcall
      rw [inv'.inContract_iff before]
      exact ⟨fun hwhole _ => hwhole, fun hwhole => hwhole hreaches⟩
    · cases hcall
  | write | others => cases hcall

theorem calls_inContract_iff {max : Nat} (es : List SessionEvent) :
    ∀ {h : Handling} (before : Option ParserCall), Remembers parse h →
      (WithinContract before (parserCalls parse max h es) ↔
        Machine.allowedAlong (sessionStep parse max) (TakesWhole parse) h es) := by
  induction es with
  | nil =>
    intro h before _
    exact iff_of_true trivial trivial
  | cons e es ih =>
    intro h before inv
    have hrest : ∀ last, TakesWhole parse h e → (WithinContract last
        (match sessionStep parse max h e with
          | some h' => parserCalls parse max h' es
          | none => []) ↔
        ∀ t, sessionStep parse max h e = some t →
          Machine.allowedAlong (sessionStep parse max) (TakesWhole parse) t es) := by
      intro last hwhole
      cases hstep : sessionStep parse max h e with
      | none => exact iff_of_true trivial (fun t ht => by cases ht)
      | some h' =>
        have inv' := sessionStep_remembers inv hwhole hstep
        simp only [Option.some.injEq, forall_eq']
        exact ih last inv'
    simp only [parserCalls, Machine.allowedAlong]
    cases hcall : e.parserCall parse h with
    | none =>
      have hwhole := takesWhole_of_none hcall
      rw [and_iff_right hwhole]
      exact hrest before hwhole
    | some c =>
      have hin := inv.inContract_iff_takesWhole hcall before
      simp only [Option.toList_some, List.singleton_append, WithinContract, hin]
      exact and_congr_right fun hwhole => hrest (some c) hwhole

end

/-! ## Two sessions -/

end PingServer
