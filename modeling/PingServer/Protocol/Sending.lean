import PingServer.Protocol.HttpFrame
import Mathlib.Data.Nat.Digits.Defs

/-!
# What a write sends

A send hands over all that is left in the buffer, or ends in an error; it never
reports a partial transfer, since the result of `send` is compared with `EAGAIN`.
`HeadHanded` is the state of a response behind its head, from which the body is sent.
-/

namespace PingServer

open ByteMem

/-! ## One send -/

/-- The socket takes `n` bytes, and the empty send behind them does not fail. -/
def socketTakes : List SendOutcome → (n : Nat) → Bool
  | .failed :: _, _ => false
  | _, 0 => true
  | .accepted k :: os, n + 1 => socketTakes os (n - k)
  | _, _ + 1 => false

/-- How many of `n` bytes the socket takes before it refuses. -/
def socketTaken : List SendOutcome → (n : Nat) → Nat
  | .accepted k :: os, n + 1 => min (k + 1) (n + 1) + socketTaken os (n - k)
  | _, _ => 0

theorem socketTaken_le (os : List SendOutcome) : ∀ n, socketTaken os n ≤ n := by
  induction os with
  | nil =>
    intro n
    exact Nat.zero_le n
  | cons o os ih =>
    intro n
    cases o with
    | accepted k =>
      cases n with
      | zero => exact Nat.le_refl 0
      | succ n =>
        have hle := ih (n - k)
        rw [socketTaken]
        omega
    | wouldBlock | failed => exact Nat.zero_le n

theorem socketTaken_all (os : List SendOutcome) : ∀ n, socketTakes os n = true →
    socketTaken os n = n := by
  induction os with
  | nil =>
    intro n htakes
    cases n with
    | zero => rfl
    | succ n => cases htakes
  | cons o os ih =>
    intro n htakes
    cases n with
    | zero => cases o <;> rfl
    | succ n =>
      cases o with
      | accepted k =>
        have hrest := ih (n - k) htakes
        rw [socketTaken, hrest]
        omega
      | wouldBlock | failed => cases htakes

theorem sendLoop_accepted (k n idx : Nat) (os : List SendOutcome) :
    sendLoop (.accepted k :: os) idx (n + 1) = sendLoop os (idx + min (k + 1) (n + 1)) (n - k) := by
  have hsent : sendResult (n + 1) (some (.accepted k)) = (min (k + 1) (n + 1) : Nat) := by
    simp only [sendResult]
    omega
  have hleft : n + 1 - min (k + 1) (n + 1) = n - k := by omega
  rw [sendLoop, hsent, if_pos (by omega), Int.toNat_natCast, hleft]

theorem sendLoop_taken (os : List SendOutcome) : ∀ idx n, socketTakes os n = true →
    ∃ rest, sendLoop os idx n = (0, idx + n, rest) := by
  induction os with
  | nil =>
    intro idx n htakes
    cases n with
    | zero => exact ⟨[], rfl⟩
    | succ n => cases htakes
  | cons o os ih =>
    intro idx n htakes
    cases n with
    | zero =>
      cases o with
      | accepted k => exact ⟨os, by simp [sendLoop, sendResult]; omega⟩
      | wouldBlock => exact ⟨os, rfl⟩
      | failed => cases htakes
    | succ n =>
      cases o with
      | accepted k =>
        rw [sendLoop_accepted]
        obtain ⟨rest, hloop⟩ := ih (idx + min (k + 1) (n + 1)) (n - k) htakes
        have hidx : idx + min (k + 1) (n + 1) + (n - k) = idx + (n + 1) := by omega
        rw [hidx] at hloop
        exact ⟨rest, hloop⟩
      | wouldBlock => cases htakes
      | failed => cases htakes

theorem sendLoop_refused (os : List SendOutcome) : ∀ idx n, socketTakes os n = false →
    ∃ rest, sendLoop os idx n = (-1, idx + socketTaken os n, rest) ∧
      (socketTaken os n = 0 → rest = os.tail) := by
  induction os with
  | nil =>
    intro idx n htakes
    cases n with
    | zero => cases htakes
    | succ n => exact ⟨[], rfl, fun _ => rfl⟩
  | cons o os ih =>
    intro idx n htakes
    cases o with
    | accepted k =>
      cases n with
      | zero => cases htakes
      | succ n =>
        rw [sendLoop_accepted, socketTaken]
        obtain ⟨rest, hloop, -⟩ := ih (idx + min (k + 1) (n + 1)) (n - k) htakes
        rw [Nat.add_assoc] at hloop
        exact ⟨rest, hloop, fun hnone => by omega⟩
    | wouldBlock =>
      cases n with
      | zero => cases htakes
      | succ n => exact ⟨os, rfl, fun _ => rfl⟩
    | failed => exact ⟨os, rfl, fun _ => rfl⟩

/-- What one call of `connection_send` does, while something is left in the buffer or
all requests are used up. -/
inductive SendCase (conn : Connection) (sends : List SendOutcome) (now : Nat) :
    Except Fault Sent → Prop
  | full : conn.requestCount = conn.maxRequestCount →
      SendCase conn sends now (.ok ⟨conn, errorConnFull, sends, []⟩)
  | taken (rest : List SendOutcome) : conn.requestCount ≠ conn.maxRequestCount →
      socketTakes sends (conn.sendBuf.len - conn.sendBuf.idx) = true →
      SendCase conn sends now (.ok ⟨{ conn with
        connSt := .idle, lastActivity := now, requestCount := conn.requestCount + 1
        sendBuf := { conn.sendBuf with idx := conn.sendBuf.len } }, connSendDone, rest,
        conn.sendBuf.slice conn.sendBuf.idx conn.sendBuf.len⟩)
  | refused (k : Nat) (rest : List SendOutcome) : conn.requestCount ≠ conn.maxRequestCount →
      socketTakes sends (conn.sendBuf.len - conn.sendBuf.idx) = false →
      k = socketTaken sends (conn.sendBuf.len - conn.sendBuf.idx) →
      (k = 0 → rest = sends.tail) → SendCase conn sends now (.ok ⟨{ conn with
        connSt := .idle, lastActivity := now, requestCount := conn.requestCount + 1
        sendBuf := { conn.sendBuf with idx := conn.sendBuf.idx + k } }, connSendError, rest,
        conn.sendBuf.slice conn.sendBuf.idx (conn.sendBuf.idx + k)⟩)

theorem int32_eq {x : Int} (hlo : -2 ^ 31 ≤ x) (hhi : x < 2 ^ 31) : int32 x = x := by
  apply Int.bmod_eq_of_le
  · exact hlo
  · exact hhi

/-- A call of `connection_send` passes its `ASSERT`, or does not come to it. -/
def Connection.Sendable (conn : Connection) : Prop :=
  conn.requestCount = conn.maxRequestCount ∨
    conn.sendBuf.idx < conn.sendBuf.len ∧ conn.sendBuf.len - conn.sendBuf.idx < 2 ^ 31

theorem connectionSend_cases {conn : Connection} {sends : List SendOutcome} {now : Nat}
    (hleft : conn.Sendable) :
    SendCase conn sends now (connectionSend conn sends now) := by
  unfold connectionSend
  by_cases hfull : conn.requestCount = conn.maxRequestCount
  · rw [if_pos hfull.symm]
    exact .full hfull
  · obtain ⟨hidx, hlen⟩ := hleft.resolve_left hfull
    have hint : int32 ((conn.sendBuf.len : Int) - conn.sendBuf.idx) =
        (conn.sendBuf.len : Int) - conn.sendBuf.idx := int32_eq (by omega) (by omega)
    rw [if_neg (Ne.symm hfull)]
    simp only [hint]
    rw [if_neg (by omega)]
    cases htakes : socketTakes sends (conn.sendBuf.len - conn.sendBuf.idx) with
    | true =>
      obtain ⟨rest, hloop⟩ := sendLoop_taken sends conn.sendBuf.idx _ htakes
      have hend : conn.sendBuf.idx + (conn.sendBuf.len - conn.sendBuf.idx) = conn.sendBuf.len := by
        omega
      rw [hend] at hloop
      simp only [hloop]
      exact .taken rest hfull htakes
    | false =>
      obtain ⟨rest, hloop, htail⟩ := sendLoop_refused sends conn.sendBuf.idx _ htakes
      simp only [hloop]
      exact .refused _ rest hfull htakes rfl htail

/-- Without anything left to send the `ASSERT` fails. -/
theorem connectionSend_asserts {conn : Connection} {sends : List SendOutcome} {now : Nat}
    (hroom : conn.requestCount ≠ conn.maxRequestCount)
    (hidx : conn.sendBuf.idx = conn.sendBuf.len) :
    connectionSend conn sends now = .error .assertion := by
  have hzero : int32 ((conn.sendBuf.len : Int) - conn.sendBuf.idx) ≤ 0 := by
    rw [hidx, Int.sub_self]
    decide
  unfold connectionSend
  rw [if_neg (Ne.symm hroom)]
  simp only [if_pos hzero]

/-! ## The head of a response -/

/-- The head that `http_protocol_write` prints for a body of `len` bytes. -/
def headOf (conn : Connection) (res : HttpResponse) (len : Nat) : List Byte :=
  headText res.statusCode (res.contentType.getD contentTxt) len
    (if conn.isKeepAlive then utf8 "keep-alive" else utf8 "close")

/-- No send can find bytes that an earlier one has left. -/
def Connection.Drained (conn : Connection) : Prop :=
  conn.requestCount = conn.maxRequestCount ∨ conn.sendBuf.idx = conn.sendBuf.len

/-- What a send leaves of a connection. -/
structure SameSender (conn conn' : Connection) : Prop where
  hold : SameHold conn conn'
  keepAlive : conn'.isKeepAlive = conn.isKeepAlive
  max : conn'.maxRequestCount = conn.maxRequestCount
  cap : conn'.sendBuf.cap = conn.sendBuf.cap
  readBuf : conn'.readBuf = conn.readBuf

theorem SameSender.congr_sendBuf {conn conn' : Connection} {b : Buffer}
    (h : SameSender { conn with sendBuf := b } conn') (haddr : b.addr = conn.sendBuf.addr)
    (hcap : b.cap = conn.sendBuf.cap) : SameSender conn conn' :=
  ⟨⟨h.hold.ctx, h.hold.handler, h.hold.readAddr, h.hold.sendAddr.trans haddr, h.hold.fd⟩,
    h.keepAlive, h.max, h.cap.trans hcap, h.readBuf⟩

/-- The handling after `connection_send` was called for the head. -/
def Handling.sentHead (h : Handling) (ctx : Nat) (st : HttpSendRet) (conn : Connection)
    (rest : List SendOutcome) (bytes : List Byte) : Handling :=
  (({ h with conn := conn, env := { h.env with sends := rest } } : Handling).log
    (.send h.conn.fd bytes)).setRes ctx { (h.ctxs ctx).httpRes with sendSt := st }

/-- The head is out of the way: `connection_send` has handed it over, or has refused to
send any more. -/
inductive HeadPassed (conn : Connection) (sends : List SendOutcome) (head : List Byte)
    (conn' : Connection) : List Byte → Prop
  | full : conn.requestCount = conn.maxRequestCount → conn'.requestCount = conn.requestCount →
      conn'.connSt = conn.connSt → HeadPassed conn sends head conn' []
  | taken : conn.requestCount ≠ conn.maxRequestCount → socketTakes sends head.length = true →
      conn'.requestCount = conn.requestCount + 1 → conn'.connSt = .idle →
      HeadPassed conn sends head conn' head

/-- `data[idx..len)`. -/
def Buffer.unsent (b : Buffer) : List Byte := b.slice b.idx b.len

@[simp] theorem Buffer.unsent_length (b : Buffer) : b.unsent.length = b.len - b.idx := by
  simp [unsent, slice]

theorem Buffer.slice_take (b : Buffer) {i j k : Nat} (h : i + k ≤ j) :
    (b.slice i j).take k = b.slice i (i + k) := by
  have hk : min k (j - i) = k := by omega
  simp only [slice, ← List.map_take, List.take_range, hk, Nat.add_sub_cancel_left]

/-- What becomes of a printed head. -/
inductive HeadCase (h : Handling) (ctx : Nat) : Except Fault (Handling × Int) → Prop
  | passed (conn : Connection) (rest : List SendOutcome) (bytes : List Byte) :
      HeadPassed h.conn h.env.sends h.conn.sendBuf.unsent conn bytes → SameSender h.conn conn → conn.Drained →
      HeadCase h ctx (sendBody (h.sentHead ctx .body conn rest bytes) ctx)
  | refused (k : Nat) (conn : Connection) (rest : List SendOutcome) :
      h.conn.requestCount ≠ h.conn.maxRequestCount →
      socketTakes h.env.sends (h.conn.sendBuf.len - h.conn.sendBuf.idx) = false →
      k = socketTaken h.env.sends (h.conn.sendBuf.len - h.conn.sendBuf.idx) →
      SameSender h.conn conn → conn.requestCount = h.conn.requestCount + 1 →
      HeadCase h ctx (.ok (h.sentHead ctx .error conn rest
        (h.conn.sendBuf.slice h.conn.sendBuf.idx (h.conn.sendBuf.idx + k)), connSendError))

theorem Handling.setRes_httpRes (h : Handling) (ctx : Nat) (res : HttpResponse) :
    ((h.setRes ctx res).ctxs ctx).httpRes = res := by
  simp only [setRes, setCtx, ↓reduceIte]

theorem Handling.send_eq {h : Handling} {s : Sent}
    (hsend : connectionSend h.conn h.env.sends h.env.now = .ok s) :
    h.send = .ok (({ h with conn := s.conn, env := { h.env with sends := s.sends } } :
      Handling).log (.send h.conn.fd s.bytes), s.ret) := by
  simp only [send, hsend]

/-- Behind a head that has passed, the buffer is cleaned for a string body. -/
theorem sendHead_continues {h : Handling} {ctx : Nat} {conn : Connection} {rest : List SendOutcome}
    {bytes : List Byte} {ret : Int}
    (hsend : h.send = .ok (({ h with conn := conn, env := { h.env with sends := rest } } :
      Handling).log (.send h.conn.fd bytes), ret))
    (hnotPart : ret ≠ connSendPartial) (herror : ret ≠ connSendError)
    (htext : (h.ctxs ctx).httpRes.bodyFd ≤ 0 → (h.ctxs ctx).httpRes.bodyLen = 0) :
    ∃ buf, (buf = conn.sendBuf ∨ buf = bufferClean conn.sendBuf) ∧ sendHead h ctx =
      sendBody (h.sentHead ctx .body { conn with sendBuf := buf } rest bytes) ctx := by
  unfold sendHead
  simp only [hsend, if_neg hnotPart, if_neg herror, Handling.setRes_httpRes]
  by_cases hfile : (h.ctxs ctx).httpRes.bodyFd ≤ 0
  · refine ⟨bufferClean conn.sendBuf, .inr rfl, ?_⟩
    have hlen : (h.ctxs ctx).httpRes.bodyLen = 0 := htext hfile
    simp only [Handling.sentHead, Handling.log, hfile, hlen, ↓reduceIte, Nat.not_lt_zero,
      List.take_zero, storeBytes_nil]
    rfl
  · refine ⟨conn.sendBuf, .inl rfl, ?_⟩
    simp only [Handling.log, hfile, ↓reduceIte]
    rfl

theorem sendHead_cases {h : Handling} {ctx : Nat} (hleft : h.conn.Sendable)
    (htext : (h.ctxs ctx).httpRes.bodyFd ≤ 0 → (h.ctxs ctx).httpRes.bodyLen = 0) :
    HeadCase h ctx (sendHead h ctx) := by
  have hcases := @connectionSend_cases h.conn h.env.sends h.env.now hleft
  generalize hresult : connectionSend h.conn h.env.sends h.env.now = r at hcases
  cases hcases with
  | full hfull =>
    obtain ⟨buf, hbuf, heq⟩ := sendHead_continues (Handling.send_eq hresult)
      (show errorConnFull ≠ connSendPartial by decide)
      (show errorConnFull ≠ connSendError by decide) htext
    rw [heq]
    have haddr : buf.addr = h.conn.sendBuf.addr ∧ buf.cap = h.conn.sendBuf.cap := by
      obtain rfl | rfl := hbuf <;> exact ⟨rfl, rfl⟩
    apply HeadCase.passed
    · exact .full hfull rfl rfl
    · exact ⟨⟨rfl, rfl, rfl, haddr.1, rfl⟩, rfl, rfl, haddr.2, rfl⟩
    · exact .inl hfull
  | taken rest hroom htakes =>
    obtain ⟨buf, hbuf, heq⟩ := sendHead_continues (Handling.send_eq hresult)
      (show connSendDone ≠ connSendPartial by decide)
      (show connSendDone ≠ connSendError by decide) htext
    rw [heq]
    have haddr : buf.addr = h.conn.sendBuf.addr ∧ buf.cap = h.conn.sendBuf.cap ∧
        buf.idx = buf.len := by
      obtain rfl | rfl := hbuf <;> exact ⟨rfl, rfl, rfl⟩
    apply HeadCase.passed
    · exact .taken hroom (by rwa [Buffer.unsent_length]) rfl rfl
    · exact ⟨⟨rfl, rfl, rfl, haddr.1, rfl⟩, rfl, rfl, haddr.2.1, rfl⟩
    · exact .inr haddr.2.2
  | refused k rest hroom htakes hk =>
    have heq : sendHead h ctx = .ok (h.sentHead ctx .error { h.conn with
        connSt := .idle, lastActivity := h.env.now, requestCount := h.conn.requestCount + 1
        sendBuf := { h.conn.sendBuf with idx := h.conn.sendBuf.idx + k } } rest
        (h.conn.sendBuf.slice h.conn.sendBuf.idx (h.conn.sendBuf.idx + k)), connSendError) := by
      unfold sendHead
      rw [Handling.send_eq hresult]
      rfl
    rw [heq]
    exact .refused k _ rest hroom htakes hk ⟨⟨rfl, rfl, rfl, rfl, rfl⟩, rfl, rfl, rfl, rfl⟩ rfl

/-- A new response is begun: the buffer is cleaned. -/
def Handling.begun (h : Handling) (ctx : Nat) : Handling :=
  ((h.log (.useCtx ctx)).setSendBuf (bufferClean h.conn.sendBuf)).setRes ctx
    { (h.ctxs ctx).httpRes with sendSt := .head }

/-- The head for a body of `len` bytes is in the buffer. -/
def Handling.printed (h : Handling) (ctx len : Nat) : Handling :=
  (h.setRes ctx { (h.ctxs ctx).httpRes with bodyLen := len }).setSendBuf
    (h.conn.sendBuf.print (headOf h.conn (h.ctxs ctx).httpRes len))

theorem Handling.printed_conn (h : Handling) (ctx len : Nat) : (h.printed ctx len).conn =
    { h.conn with sendBuf := h.conn.sendBuf.print (headOf h.conn (h.ctxs ctx).httpRes len) } := by
  simp only [printed, setSendBuf, setRes, setCtx]

theorem Handling.printed_httpRes (h : Handling) (ctx len : Nat) :
    ((h.printed ctx len).ctxs ctx).httpRes = { (h.ctxs ctx).httpRes with bodyLen := len } := by
  simp only [printed, setSendBuf, setRes_httpRes]

@[simp] theorem Handling.printed_env (h : Handling) (ctx len : Nat) :
    (h.printed ctx len).env = h.env := by
  simp only [printed, setSendBuf, setRes, setCtx]

theorem headText_pos (status : Int) (contentType : List Byte) (length : Nat)
    (connection : List Byte) : 0 < (headText status contentType length connection).length := by
  have hversion : (utf8 "HTTP/1.1 ").length = 9 := by decide
  simp only [headText, List.length_append, hversion]
  omega

theorem startResponse_cases {h : Handling} {ctx len : Nat}
    (hlen : bodyLength h (h.ctxs ctx).httpRes = .ok len) (hdrained : h.conn.Drained)
    (hsmall : (headOf h.conn (h.ctxs ctx).httpRes len).length < 2 ^ 31)
    (htext : (h.ctxs ctx).httpRes.bodyFd ≤ 0 → len = 0) :
    HeadCase (h.printed ctx len) ctx (startResponse h ctx) := by
  have heq : startResponse h ctx = sendHead (h.printed ctx len) ctx := by
    unfold startResponse
    simp only [hlen, Handling.setRes_httpRes]
    rfl
  have hpos := headText_pos (h.ctxs ctx).httpRes.statusCode
    ((h.ctxs ctx).httpRes.contentType.getD contentTxt) len
    (if h.conn.isKeepAlive then utf8 "keep-alive" else utf8 "close")
  rw [heq]
  apply sendHead_cases
  · rw [Handling.printed_conn]
    obtain hfull | hidx := hdrained
    · exact .inl hfull
    · right
      simp only [Buffer.print]
      unfold headOf at hsmall ⊢
      omega
  · rw [Handling.printed_httpRes]
    exact htext

/-- The status and the content type of the response make a short head. -/
structure HttpResponse.Printable (res : HttpResponse) : Prop where
  status : res.statusCode.natAbs < 1000
  contentType : (res.contentType.getD contentTxt).length ≤ 64

theorem decimal_length_le (x : Int) {e : Nat} (he : 0 < e) (hx : x.natAbs < 10 ^ e) :
    (decimal x).length ≤ e + 1 := by
  have hdigits := Nat.toDigits_length 10 x.natAbs e he hx
  simp only [decimal, List.length_append, List.length_map]
  split
  · simp only [List.length_singleton]
    omega
  · simp only [List.length_nil]
    omega

theorem getReasonPhrase_length_le (status : Int) : (getReasonPhrase status).length ≤ 32 := by
  unfold getReasonPhrase
  repeat' split
  all_goals decide

/-- `st_size` is an `off_t`, so a head is short. -/
theorem headOf_length_lt {conn : Connection} {res : HttpResponse} {len : Nat}
    (hres : res.Printable) (hlen : len < 2 ^ 63) : (headOf conn res len).length < 256 := by
  have hstatus := decimal_length_le res.statusCode (show 0 < 3 by decide) hres.status
  have hlength := decimal_length_le (len : Int) (show 0 < 19 by decide) (by omega)
  have hreason := getReasonPhrase_length_le res.statusCode
  have hconnection : (if conn.isKeepAlive then utf8 "keep-alive" else utf8 "close").length ≤ 10 := by
    split <;> decide
  have hct := hres.contentType
  have hfixed : (utf8 "HTTP/1.1 ").length = 9 ∧ (utf8 " ").length = 1 ∧ (utf8 "\r\n").length = 2 ∧
      (utf8 "Content-Type: ").length = 14 ∧ (utf8 "Content-Length: ").length = 16 ∧
      (utf8 "Connection: ").length = 12 := by decide
  obtain ⟨h₁, h₂, h₃, h₄, h₅, h₆⟩ := hfixed
  simp only [headOf, headText, List.length_append, h₁, h₂, h₃, h₄, h₅, h₆]
  omega

/-- The response is one that the router makes. -/
structure HttpResponse.Routed (res : HttpResponse) : Prop where
  printable : res.Printable
  text : res.body.isSome = true → res.bodyFd < 0

/-- A text has no length for `connection_send` to count. -/
theorem HttpResponse.take_text {res : HttpResponse} (htext : res.body.isSome = true → res.bodyFd < 0)
    {len : Nat} (hlen : res.bodyFd ≤ 0 → len = 0) : (res.body.getD []).take len = [] := by
  cases hbody : res.body with
  | none => exact List.take_nil
  | some body =>
    have hneg := htext (by rw [hbody]; rfl)
    rw [hlen (Int.le_of_lt hneg)]
    exact List.take_zero

/-- The length that a write finds for the body of a response. -/
theorem HttpResponse.Routed.bodyLength {res : HttpResponse} (h : res.Routed) (g : Handling) :
    res.bodyFd = 0 ∧ res.body = none ∧ bodyLength g res = .error .nullPointer ∨
      res.bodyFd ≠ 0 ∧ ∃ len, bodyLength g res = .ok len ∧ (res.bodyFd ≤ 0 → len = 0) ∧
        (len = 0 ∨ len = g.env.fileSize) := by
  unfold PingServer.bodyLength
  by_cases hzero : res.bodyFd = 0
  · left
    rw [if_neg (not_not_intro hzero)]
    cases hbody : res.body with
    | none => exact ⟨hzero, rfl, rfl⟩
    | some body =>
      have hneg := h.text (by rw [hbody]; rfl)
      omega
  · right
    rw [if_pos hzero]
    refine ⟨hzero, ?_⟩
    by_cases hneg : res.bodyFd < 0
    · exact ⟨0, by rw [if_pos hneg], fun _ => rfl, .inl rfl⟩
    · exact ⟨g.env.fileSize, by rw [if_neg hneg], fun hle => by omega, .inr rfl⟩

/-! ## One write -/

/-- A response has been begun: its head was handed to `connection_send`. -/
def Handling.answering (h : Handling) (ctx len : Nat) (st : HttpSendRet) (conn : Connection)
    (rest : List SendOutcome) (bytes : List Byte) : Handling :=
  { h with
    conn := conn
    env := { h.env with sends := rest }
    ctxs := fun p => if p = ctx then { h.ctxs ctx with
      httpRes := { (h.ctxs ctx).httpRes with bodyLen := len, sendSt := st } } else h.ctxs p
    trace := h.trace ++ [.useCtx ctx, .send h.conn.fd bytes] }

@[simp] theorem Handling.answering_httpRes (h : Handling) (ctx len : Nat) (st : HttpSendRet)
    (conn : Connection) (rest : List SendOutcome) (bytes : List Byte) :
    ((h.answering ctx len st conn rest bytes).ctxs ctx).httpRes =
      { (h.ctxs ctx).httpRes with bodyLen := len, sendSt := st } := by
  simp only [answering, ↓reduceIte]

theorem Handling.answering_trace (h : Handling) (ctx len : Nat) (st : HttpSendRet)
    (conn : Connection) (rest : List SendOutcome) (bytes : List Byte) :
    (h.answering ctx len st conn rest bytes).trace =
      h.trace ++ [.useCtx ctx, .send h.conn.fd bytes] := rfl

@[simp] theorem Handling.begun_httpRes (h : Handling) (ctx : Nat) :
    ((h.begun ctx).ctxs ctx).httpRes = { (h.ctxs ctx).httpRes with sendSt := .head } :=
  setRes_httpRes _ _ _

theorem if_else_if {α : Type} {c : Prop} [Decidable c] (a b d : α) :
    (if c then a else if c then b else d) = if c then a else d := by
  split <;> rfl

theorem Handling.sentHead_printed_begun (h : Handling) (ctx len : Nat) (st : HttpSendRet)
    (conn : Connection) (rest : List SendOutcome) (bytes : List Byte) :
    ((h.begun ctx).printed ctx len).sentHead ctx st conn rest bytes =
      h.answering ctx len st conn rest bytes := by
  simp only [answering, sentHead, printed, begun, setSendBuf, setRes, setCtx, log, ↓reduceIte,
    List.append_assoc, List.singleton_append]
  simp only [if_else_if]

/-- What the first write of a response does. -/
inductive BeginCase (h : Handling) (ctx len : Nat) : Except Fault (Handling × Int) → Prop
  | passed (conn : Connection) (rest : List SendOutcome) (bytes : List Byte) :
      HeadPassed h.conn h.env.sends (headOf h.conn (h.ctxs ctx).httpRes len) conn bytes →
      SameSender h.conn conn → conn.Drained →
      BeginCase h ctx len (sendBody (h.answering ctx len .body conn rest bytes) ctx)
  | refused (k : Nat) (conn : Connection) (rest : List SendOutcome) :
      h.conn.requestCount ≠ h.conn.maxRequestCount →
      socketTakes h.env.sends (headOf h.conn (h.ctxs ctx).httpRes len).length = false →
      k = socketTaken h.env.sends (headOf h.conn (h.ctxs ctx).httpRes len).length →
      SameSender h.conn conn → conn.requestCount = h.conn.requestCount + 1 →
      BeginCase h ctx len (.ok (h.answering ctx len .error conn rest
        ((headOf h.conn (h.ctxs ctx).httpRes len).take k), connSendError))

/-- What was printed into an empty buffer is what it holds. -/
theorem Buffer.slice_print (b : Buffer) {text : List Byte} (hcap : text.length < b.cap) {k : Nat}
    (hk : k ≤ text.length) : ((bufferClean b).print text).slice 0 k = text.take k := by
  apply List.ext_getElem
  · simp only [slice, List.length_map, List.length_range, List.length_take]
    omega
  · intro i hi hi'
    simp only [slice, List.length_map, List.length_range] at hi
    have hwhole : text.take (b.cap - 1) = text := List.take_of_length_le (by omega)
    have hstored := storeBytes_at b.data 0 (text ++ [0]) i
      (by rw [List.length_append]; omega)
    rw [Nat.zero_add] at hstored
    simp only [slice, print, bufferClean, List.getElem_map, List.getElem_range, Nat.zero_add,
      if_neg (show ¬ b.cap = 0 by omega), hwhole, hstored, List.getElem_take]
    exact List.getElem_append_left (by omega)

theorem Buffer.unsent_print (b : Buffer) {text : List Byte} (hcap : text.length < b.cap) :
    ((bufferClean b).print text).unsent = text := by
  have hlen : ((bufferClean b).print text).len = text.length := Nat.zero_add _
  have hslice := b.slice_print hcap (Nat.le_refl _)
  rw [List.take_length] at hslice
  rw [unsent, hlen]
  exact hslice

theorem httpProtocolWrite_wait {h : Handling} {ctx : Nat} (hctx : h.conn.protocolCtx = some ctx)
    (hst : (h.ctxs ctx).httpRes.sendSt = .wait) :
    httpProtocolWrite h = startResponse (h.begun ctx) ctx := by
  unfold httpProtocolWrite
  simp only [hctx, Handling.log, hst]
  rfl

theorem httpProtocolWrite_body {h : Handling} {ctx : Nat} (hctx : h.conn.protocolCtx = some ctx)
    (hst : (h.ctxs ctx).httpRes.sendSt = .body) :
    httpProtocolWrite h = sendBody (h.log (.useCtx ctx)) ctx := by
  unfold httpProtocolWrite
  simp only [hctx, Handling.log, hst]

/-- There is no case for a response that is over: it is begun again. -/
theorem httpProtocolWrite_again {h : Handling} {ctx : Nat} (hctx : h.conn.protocolCtx = some ctx)
    (hst : (h.ctxs ctx).httpRes.sendSt = .done ∨ (h.ctxs ctx).httpRes.sendSt = .error) :
    httpProtocolWrite h = startResponse (h.log (.useCtx ctx)) ctx := by
  unfold httpProtocolWrite
  obtain hst | hst := hst <;> simp only [hctx, Handling.log, hst]

theorem httpProtocolWrite_begin {h : Handling} {ctx len : Nat} (hctx : h.conn.protocolCtx = some ctx)
    (hst : (h.ctxs ctx).httpRes.sendSt = .wait)
    (hlen : bodyLength h (h.ctxs ctx).httpRes = .ok len)
    (hcap : (headOf h.conn (h.ctxs ctx).httpRes len).length < h.conn.sendBuf.cap)
    (hsmall : (headOf h.conn (h.ctxs ctx).httpRes len).length < 2 ^ 31)
    (htext : (h.ctxs ctx).httpRes.bodyFd ≤ 0 → len = 0) :
    BeginCase h ctx len (httpProtocolWrite h) := by
  have hres := h.begun_httpRes ctx
  have hcases : HeadCase ((h.begun ctx).printed ctx len) ctx (startResponse (h.begun ctx) ctx) := by
    apply startResponse_cases
    · rw [hres]
      exact hlen
    · exact .inr rfl
    · rw [hres]
      exact hsmall
    · rw [hres]
      exact htext
  generalize hhead : headOf h.conn (h.ctxs ctx).httpRes len = head at hcap hsmall ⊢
  have hconn : ((h.begun ctx).printed ctx len).conn =
      { h.conn with sendBuf := (bufferClean h.conn.sendBuf).print head } := by
    rw [Handling.printed_conn, ← hhead, hres]
    simp only [Handling.begun, Handling.setSendBuf, Handling.setRes, Handling.setCtx, Handling.log,
      headOf]
    rfl
  have henv : ((h.begun ctx).printed ctx len).env = h.env := Handling.printed_env _ _ _
  rw [httpProtocolWrite_wait hctx hst]
  generalize startResponse (h.begun ctx) ctx = r at hcases
  cases hcases with
  | passed conn rest bytes hpassed hsame hdrained =>
    rw [hconn, henv, Buffer.unsent_print _ hcap] at hpassed
    rw [hconn] at hsame
    rw [Handling.sentHead_printed_begun]
    apply BeginCase.passed
    · rw [hhead]
      cases hpassed with
      | full hfull hcount hidle => exact .full hfull hcount hidle
      | taken hroom htakes hcount hidle => exact .taken hroom htakes hcount hidle
    · exact hsame.congr_sendBuf rfl rfl
    · exact hdrained
  | refused k conn rest hroom htakes hk hsame hcount =>
    rw [hconn] at hroom hsame hcount hk htakes ⊢
    rw [henv, ← Buffer.unsent_length, Buffer.unsent_print _ hcap] at htakes hk
    have hstart : ((bufferClean h.conn.sendBuf).print head).idx = 0 := rfl
    have hle : k ≤ head.length := hk ▸ socketTaken_le _ _
    rw [hstart, Nat.zero_add, h.conn.sendBuf.slice_print hcap hle, Handling.sentHead_printed_begun,
      ← hhead]
    rw [← hhead] at htakes hk
    exact .refused k conn rest hroom htakes hk (hsame.congr_sendBuf rfl rfl) hcount

/-! ## The body -/

/-- What `http_protocol_write` makes of the result of `connection_send_fd`. -/
def fileRet (ret : Int) : Int :=
  if ret = connSendError then httpSendError
  else if ret = connSendPartial then connSendPartial
  else connSendDone

section

variable {h : Handling} {ctx : Nat}

theorem sendBody_file (hfile : 0 < (h.ctxs ctx).httpRes.bodyFd) :
    sendBody h ctx = .ok ((h.sendFd ctx).1, fileRet (h.sendFd ctx).2) := by
  unfold sendBody fileRet
  simp only [gt_iff_lt, if_pos hfile]
  split
  · rfl
  · split <;> rfl

theorem sendBody_none (hfile : ¬ 0 < (h.ctxs ctx).httpRes.bodyFd)
    (hbody : (h.ctxs ctx).httpRes.body = none) : sendBody h ctx = .ok (h, connSendDone) := by
  unfold sendBody
  simp only [gt_iff_lt, if_neg hfile, hbody, Option.isSome_none, Bool.false_eq_true, ↓reduceIte]

/-- A string body is not sent once the requests are used up. -/
theorem sendBody_full (hfile : ¬ 0 < (h.ctxs ctx).httpRes.bodyFd)
    (hbody : (h.ctxs ctx).httpRes.body.isSome = true)
    (hfull : h.conn.requestCount = h.conn.maxRequestCount) :
    sendBody h ctx = .ok (h.log (.send h.conn.fd []), connSendDone) := by
  have hsend : h.send = .ok (h.log (.send h.conn.fd []), errorConnFull) := by
    unfold Handling.send connectionSend
    simp only [if_pos hfull.symm]
  unfold sendBody
  simp only [gt_iff_lt, if_neg hfile, hbody, hsend, ↓reduceIte]
  rfl

/-- A string body fails the `ASSERT` of `connection_send`: its length is 0. -/
theorem sendBody_asserts (hfile : ¬ 0 < (h.ctxs ctx).httpRes.bodyFd)
    (hbody : (h.ctxs ctx).httpRes.body.isSome = true)
    (hroom : h.conn.requestCount ≠ h.conn.maxRequestCount)
    (hidx : h.conn.sendBuf.idx = h.conn.sendBuf.len) :
    sendBody h ctx = .error .assertion := by
  unfold sendBody Handling.send
  simp only [gt_iff_lt, if_neg hfile, hbody, connectionSend_asserts hroom hidx, ↓reduceIte]

/-- What a write does from the label `send_body` on, unless an `ASSERT` fails. -/
inductive BodyCase (h : Handling) (ctx : Nat) : Handling × Int → Prop
  | file : 0 < (h.ctxs ctx).httpRes.bodyFd →
      BodyCase h ctx ((h.sendFd ctx).1, fileRet (h.sendFd ctx).2)
  | text : (h.ctxs ctx).httpRes.bodyFd ≤ 0 → (h.ctxs ctx).httpRes.body.isSome = true →
      h.conn.requestCount = h.conn.maxRequestCount →
      BodyCase h ctx (h.log (.send h.conn.fd []), connSendDone)
  | none : (h.ctxs ctx).httpRes.bodyFd ≤ 0 → (h.ctxs ctx).httpRes.body = none →
      BodyCase h ctx (h, connSendDone)

theorem sendBody_cases (hdrained : h.conn.Drained) :
    ((h.ctxs ctx).httpRes.bodyFd ≤ 0 ∧ (h.ctxs ctx).httpRes.body.isSome = true ∧
        h.conn.requestCount ≠ h.conn.maxRequestCount ∧ sendBody h ctx = .error .assertion) ∨
      ∃ r, sendBody h ctx = .ok r ∧ BodyCase h ctx r := by
  by_cases hfile : 0 < (h.ctxs ctx).httpRes.bodyFd
  · exact .inr ⟨_, sendBody_file hfile, .file hfile⟩
  · cases hbody : (h.ctxs ctx).httpRes.body with
    | none => exact .inr ⟨_, sendBody_none hfile hbody, .none (by omega) hbody⟩
    | some body =>
      have hsome : (h.ctxs ctx).httpRes.body.isSome = true := by rw [hbody]; rfl
      by_cases hfull : h.conn.requestCount = h.conn.maxRequestCount
      · exact .inr ⟨_, sendBody_full hfile hsome hfull, .text (by omega) hsome hfull⟩
      · exact .inl ⟨by omega, rfl, hfull,
          sendBody_asserts hfile hsome hfull (hdrained.resolve_left hfull)⟩

theorem sendBody_ok {r : Handling × Int} (hdrained : h.conn.Drained)
    (hbody : sendBody h ctx = .ok r) : BodyCase h ctx r := by
  obtain ⟨-, -, -, hassert⟩ | ⟨r', hok, hcase⟩ := @sendBody_cases h ctx hdrained
  · rw [hassert] at hbody
    cases hbody
  · rw [hok] at hbody
    cases hbody
    exact hcase

theorem Handling.sendFd_httpRes (h : Handling) (ctx : Nat) :
    ((h.sendFd ctx).1.ctxs ctx).httpRes = { (h.ctxs ctx).httpRes with
      bodyOff := (connectionSendFd h.env.fileSize h.env.sendfiles (h.ctxs ctx).httpRes.bodyOff
        ((h.ctxs ctx).httpRes.bodyLen % 2 ^ 32)).offset } :=
  setRes_httpRes _ _ _

theorem Handling.sendFd_trace (h : Handling) (ctx : Nat) : (h.sendFd ctx).1.trace = h.trace ++
    [.sendFile h.conn.fd (h.ctxs ctx).httpRes.bodyFd (connectionSendFd h.env.fileSize
      h.env.sendfiles (h.ctxs ctx).httpRes.bodyOff ((h.ctxs ctx).httpRes.bodyLen % 2 ^ 32)).moved] :=
  rfl

/-- The body is sent from the connection, but does not change it. -/
theorem BodyCase.conn {r : Handling × Int} (h' : BodyCase h ctx r) : r.1.conn = h.conn := by
  cases h' with
  | file => rfl
  | text => rfl
  | none => rfl

/-- Of the response only the offset into its file is changed. -/
theorem BodyCase.httpRes {r : Handling × Int} (h' : BodyCase h ctx r) :
    ∃ off, (r.1.ctxs ctx).httpRes = { (h.ctxs ctx).httpRes with bodyOff := off } := by
  cases h' with
  | file => exact ⟨_, h.sendFd_httpRes ctx⟩
  | text => exact ⟨_, rfl⟩
  | none => exact ⟨_, rfl⟩

end

end PingServer
