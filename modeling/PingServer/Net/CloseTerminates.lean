import PingServer.Net.ConnRule

/-!
# The end of the close handler

`http_protocol_close` sends until `connection_send` reports that it is done or has failed.
A connection whose requests are used up gets neither, and nothing it is in changes, so the
loop never ends; every other connection leaves it behind one send.
-/

namespace PingServer

open Machine

/-! ## Ending -/

/-- The connection when the loop of `http_protocol_close` begins. -/
def Handling.closing (h : Handling) : Handling :=
  h.setSendBuf ((bufferClean h.conn.sendBuf).print (headText 200 contentTxt 0 (ByteMem.utf8 "close")))

/-- The loop of `http_protocol_close` ends after some number of sends, or is not entered. -/
def CloseTerminates (h : Handling) : Prop :=
  h.conn.protocolCtx = none ∨ ∃ turns r, closeLoop turns h.closing = .ok r

/-- The states of connection `i` from which a handler called with `env` comes to its close, and
how often it calls `on_close` itself before the deletion does: `on_error` does not, a read or a
write that has decided to close does not, a read whose request is refused does so once. -/
inductive ClosedFrom (parse : Parser) (s : TcpServer) (i : Nat) (env : Env) : Handling → Nat → Prop
  | onError : ClosedFrom parse s i env (s.handling i env) 0
  | onRead (h : Handling) : ¬ Rejects parse (s.handling i env) →
      tcpOnRead parse s.currentConnections s.maxConnections (s.handling i env) = .ok (h, .close) →
      h.conn.readBuf.len ≤ dataInRun → ClosedFrom parse s i env h 0
  | onWrite (h : Handling) : tcpOnWrite s.currentConnections s.maxConnections (s.handling i env) =
      .ok (h, .close) → ClosedFrom parse s i env h 0
  | refused (h : Handling) : Rejects parse (s.handling i env) →
      httpProtocolProcess (httpProtocolRead parse (s.handling i env).received).1 =
        .ok (h, tcpProtoClose) →
      h.conn.readBuf.len ≤ dataInRun → ClosedFrom parse s i env h 1

/-- `on_close` ends each of the `calls` times the handler calls it, with the result that is
asserted, and the deletion behind it ends and returns. -/
def ClosesInTime (s : TcpServer) (i j : Nat) : (calls : Nat) → Handling → Prop
  | 0, h => CloseTerminates h ∧
      ∃ t, tcpserverDeleteTcpAndTimer (s.absorb i h) (some i) (some j) h.env = .ok t
  | calls + 1, h => CloseTerminates h ∧
      ∃ h' ret, httpProtocolClose h = .ok (h', ret) ∧ 0 ≤ ret ∧ ClosesInTime s i j calls h'

/-! ## The loop -/

section

variable {h : Handling}

/-- Once the requests are used up, no number of sends is enough. -/
theorem closeLoop_full (turns : Nat) : ∀ {h : Handling},
    h.conn.maxRequestCount = h.conn.requestCount → closeLoop turns h = .error .hang := by
  induction turns with
  | zero =>
    intro h _
    rfl
  | succ turns ih =>
    intro h hfull
    have hsend : connectionSend h.conn h.env.sends h.env.now =
        .ok ⟨h.conn, errorConnFull, h.env.sends, []⟩ := by rw [connectionSend, if_pos hfull]
    rw [closeLoop, Handling.send_eq hsend]
    exact @ih (h.log (.send h.conn.fd [])) hfull

/-- Before that one send ends the loop, whatever the socket does. -/
theorem closeLoop_once (turns : Nat) (hroom : h.conn.maxRequestCount ≠ h.conn.requestCount)
    (hleft : h.conn.Sendable) : ∃ h' ret, closeLoop (turns + 1) h = .ok (h', ret) ∧ 0 ≤ ret ∧
      SameSender h.conn h'.conn ∧ h'.conn.requestCount = h.conn.requestCount + 1 := by
  have hcases := @connectionSend_cases h.conn h.env.sends h.env.now hleft
  generalize hresult : connectionSend h.conn h.env.sends h.env.now = r at hcases
  cases hcases with
  | full hfull => exact absurd hfull.symm hroom
  | taken rest _ _ =>
    rw [closeLoop, Handling.send_eq hresult]
    exact ⟨_, _, rfl, by decide, ⟨⟨rfl, rfl, rfl, rfl, rfl⟩, rfl, rfl, rfl, rfl⟩, rfl⟩
  | refused k rest _ _ _ =>
    rw [closeLoop, Handling.send_eq hresult]
    exact ⟨_, _, rfl, by decide, ⟨⟨rfl, rfl, rfl, rfl, rfl⟩, rfl, rfl, rfl, rfl⟩, rfl⟩

theorem Handling.closing_sendable (h : Handling) : h.closing.conn.Sendable := by
  have hpos := headText_pos 200 contentTxt 0 (ByteMem.utf8 "close")
  have hsmall : (headText 200 contentTxt 0 (ByteMem.utf8 "close")).length < 256 := by decide
  right
  simp only [closing, setSendBuf, Buffer.print, bufferClean]
  omega

theorem closeTerminates_iff (h : Handling) : CloseTerminates h ↔
    (h.conn.protocolCtx = none ∨ h.conn.maxRequestCount ≠ h.conn.requestCount) := by
  constructor
  · rintro (hnone | ⟨turns, r, hloop⟩)
    · exact .inl hnone
    · right
      intro hfull
      rw [closeLoop_full turns (by exact hfull)] at hloop
      cases hloop
  · rintro (hnone | hroom)
    · exact .inl hnone
    · obtain ⟨h', ret, hloop, -⟩ := closeLoop_once 0 (by exact hroom) h.closing_sendable
      exact .inr ⟨1, (h', ret), hloop⟩

/-- What a close handler that ends leaves behind. -/
inductive CloseLeaves (h : Handling) : Handling × Int → Prop
  | nothing : h.conn.protocolCtx = none → CloseLeaves h (h, 0)
  | sent (ctx : Nat) (h' : Handling) (ret : Int) : h.conn.protocolCtx = some ctx → 0 ≤ ret →
      SameSender h.conn h'.conn → h'.conn.requestCount = h.conn.requestCount + 1 →
      CloseLeaves h (h', ret)

theorem httpProtocolClose_ends (hends : CloseTerminates h) :
    ∃ r, httpProtocolClose h = .ok r ∧ CloseLeaves h r := by
  unfold httpProtocolClose
  cases hctx : h.conn.protocolCtx with
  | none => exact ⟨_, rfl, .nothing hctx⟩
  | some ctx =>
    have hroom := ((closeTerminates_iff h).1 hends).resolve_left (by rw [hctx]; exact Option.some_ne_none ctx)
    obtain ⟨h', ret, hloop, hpos, hsame, hcount⟩ :=
      closeLoop_once (h.closing.conn.maxRequestCount - h.closing.conn.requestCount) (by exact hroom)
        h.closing_sendable
    have hloop' : closeLoop (h.conn.maxRequestCount - h.conn.requestCount + 1) h.closing =
      .ok (h', ret) := hloop
    unfold Handling.closing at hloop'
    simp only [Handling.setSendBuf] at hloop' ⊢
    rw [hloop']
    exact ⟨_, rfl, .sent ctx _ ret hctx hpos (hsame.congr_sendBuf rfl rfl) hcount⟩

end

/-! ## The deletion -/

/-- The deletion of an open connection returns if its close handler ends. -/
theorem SlotInv.delete_returns {tidy : Prop} {s : TcpServer} {lost half : List (Nat × Nat)} {i j : Nat}
    {env : Env} (inv : SlotInv tidy s lost half) (hopen : (i, j) ∈ s.opened)
    (hends : CloseTerminates (s.handling i env)) :
    ∃ t, tcpserverDeleteTcpAndTimer s (some i) (some j) env = .ok t := by
  have hset : (s.handling i env).conn.protocolHandler = true := inv.handler i j hopen
  have hperm := inv.perm_filter hopen
  obtain ⟨tcpIds, htcp, -⟩ := (inv.tcp.perm (hperm.map Prod.fst)).add
  obtain ⟨timerIds, htimer, -⟩ := (inv.timer.perm (hperm.map Prod.snd)).add
  obtain ⟨r, hclose, -⟩ := httpProtocolClose_ends hends
  unfold tcpserverDeleteTcpAndTimer tcpServerCloseConnection connectionClearProtocol
  simp only [hset, hclose, ↓reduceIte, TcpServer.absorb]
  rw [htcp, htimer]
  exact ⟨_, rfl⟩

/-- A connection is closed in time exactly if the requests last for every `on_close`. -/
theorem closesInTime_iff {tidy : Prop} {s : TcpServer} {lost half : List (Nat × Nat)} {i j : Nat}
    (inv : SlotInv tidy s lost half) (hopen : (i, j) ∈ s.opened) (calls : Nat) : ∀ {h : Handling},
    h.conn.protocolHandler = (s.connArray i).protocolHandler →
      h.conn.requestCount ≤ h.conn.maxRequestCount →
        (ClosesInTime s i j calls h ↔
          (h.conn.protocolCtx = none ∨ h.conn.requestCount + calls < h.conn.maxRequestCount)) := by
  induction calls with
  | zero =>
    intro h hsame hle
    have hiff := closeTerminates_iff h
    constructor
    · rintro ⟨hends, -⟩
      exact (hiff.1 hends).imp id fun hroom => by omega
    · intro hroom
      have hends : CloseTerminates h := hiff.2 (hroom.imp id fun hless => by omega)
      refine ⟨hends, (inv.absorb hsame).delete_returns hopen ?_⟩
      rw [TcpServer.handling_absorb]
      exact hends
  | succ calls ih =>
    intro h hsame hle
    have hiff := closeTerminates_iff h
    constructor
    · rintro ⟨hends, h', ret, hclose, -, hrest⟩
      obtain ⟨r, hclose', hleaves⟩ := httpProtocolClose_ends hends
      rw [hclose] at hclose'
      cases hclose'
      cases hleaves with
      | nothing hnone => exact .inl hnone
      | sent ctx h' ret hctx _ hsender hcount =>
        right
        have hroom := (hiff.1 hends).resolve_left (by rw [hctx]; exact Option.some_ne_none ctx)
        have hmax := hsender.max
        obtain hnone | hless := (ih (hsender.hold.handler.trans hsame) (by omega)).1 hrest
        · rw [hsender.hold.ctx, hctx] at hnone
          cases hnone
        · omega
    · intro hroom
      have hends : CloseTerminates h := hiff.2 (hroom.imp id fun hless => by omega)
      obtain ⟨⟨h', ret⟩, hclose, hleaves⟩ := httpProtocolClose_ends hends
      refine ⟨hends, h', ret, hclose, ?_⟩
      cases hleaves with
      | nothing hnone => exact ⟨le_refl 0, (ih hsame hle).2 (.inl hnone)⟩
      | sent ctx h' ret hctx hpos hsender hcount =>
        have hless := hroom.resolve_left (by rw [hctx]; exact Option.some_ne_none ctx)
        have hmax := hsender.max
        refine ⟨hpos, (ih (hsender.hold.handler.trans hsame) (by omega)).2 (.inr (by omega))⟩

/-! ## Every run -/

theorem withinLimit_rule : ConnRule fun c => c.requestCount ≤ c.maxRequestCount := by
  constructor
  · intro c c' hle hcount hmax _
    omega
  · intro c recvs now hle
    obtain heq | ⟨hroom, hcount, hmax, -⟩ := connectionRecv_counts c recvs now
    · rw [heq]
      exact hle
    · omega
  · intro c sends now s hsend hle
    obtain heq | ⟨hroom, hcount, hmax, -⟩ := connectionSend_counts hsend
    · rw [heq]
      exact hle
    · omega
  · intro c c' fd a a' connId now ret hcreate hret
    obtain ⟨hcount, -, -⟩ := connectionCreate_counts hcreate hret
    omega

namespace ClosedFrom

variable {parse : Parser} {s : TcpServer} {i : Nat} {env : Env} {h : Handling} {calls : Nat}

theorem rule {P : Connection → Prop} (rule : ConnRule P) (hclosed : ClosedFrom parse s i env h calls)
    (hP : P (s.connArray i)) : P h.conn := by
  cases hclosed with
  | onError => exact hP
  | onRead h _ hread => exact rule.tcpOnRead hread hP
  | onWrite h hwrite => exact rule.tcpOnWrite hwrite hP
  | refused h _ hproc => exact rule.process hproc (rule.read (rule.recv env.recvs env.now hP))

theorem handler (hclosed : ClosedFrom parse s i env h calls) :
    h.conn.protocolHandler = (s.connArray i).protocolHandler := by
  cases hclosed with
  | onError => rfl
  | onRead h haccepted hread =>
    obtain hgains | ⟨-, hrejects, -⟩ := tcpOnRead_spec hread
    · exact hgains.handler
    · exact absurd hrejects haccepted
  | onWrite h hwrite => exact (tcpOnWrite_spec hwrite).hold.handler
  | refused h _ hproc =>
    have hreceived := (connectionRecv_hold (s.connArray i) env.recvs env.now).handler
    have hgains := httpProtocolRead_gains (h := (s.handling i env).received) parse
    exact (Touches.process hproc).hold.handler.trans (hgains.handler.trans hreceived)

end ClosedFrom

/-- A client connects and sends `n` bytes of a request, one at a time. -/
def slowClient (n : Nat) : List LoopEvent :=
  [.wait [.listen], acceptCall [oneClient], .wait [.tcp 0]] ++
    List.replicate n (.call ⟨.tcp 0, .onRead, { Env.opens with recvs := [.chunk [65]] }, []⟩)

/-- The state of the slow client. -/
theorem slowClient_reaches {n : Nat} {p : TcpServer → Bool}
    (h : (Machine.run (loopStep noRequest) ⟨.fresh 20 12 (by decide), []⟩ (slowClient n)).any
      (fun l => p l.server) = true) : ∃ l,
    Reaches (graph (loopStep noRequest)) always ⟨.fresh 20 12 (by decide), []⟩ l ∧
      p l.server = true := by
  obtain ⟨l, hrun, hp⟩ := (Option.any_eq_true _ _).1 h
  exact ⟨l, reaches_of_run (allowedAlong_always _ _ _) hrun, hp⟩

end PingServer
