import PingServer.Lib.Machine
import PingServer.Net.BufferLayout
import PingServer.Protocol.Sending
import PingServer.Route.FileSteps

/-!
# The write events of one response

A response is written event by event until a send has failed, which the server
answers by closing the connection. `Writing` keeps what its writes have handed to
the socket and what the last of them has returned.
-/

namespace PingServer

open ByteMem

/-! ## The machine -/

structure Writing where
  handling : Handling
  /-- what `http_protocol_write` has returned last -/
  ret : Option Int
  /-- the actions of all writes, in order -/
  out : List Action

/-- The handling when an event comes: its system calls and its trace are new. -/
def Handling.atEvent (h : Handling) (env : Env) : Handling := { h with env := env, trace := [] }

/-- A write event finds the connection open. -/
def writeStep (w : Writing) (env : Env) : Option Writing :=
  match w.handling.conn.protocolCtx with
  | none => none
  | some ctx =>
    if (w.handling.ctxs ctx).httpRes.sendSt = .error then none
    else
      match httpProtocolWrite (w.handling.atEvent env) with
      | .ok (h, ret) => some ⟨h, some ret, w.out ++ h.trace⟩
      | .error _ => none

/-- The bytes that `connection_send` has handed over. -/
def sentBytes (out : List Action) : List Byte :=
  out.flatMap fun a => match a with
    | .send _ bytes => bytes
    | _ => []

/-- The ranges of files that `sendfile` has moved. -/
def movedRanges (out : List Action) : List (Nat × Nat) :=
  out.flatMap fun a => match a with
    | .sendFile _ _ moved => moved
    | _ => []

@[simp] theorem sentBytes_append (out out' : List Action) :
    sentBytes (out ++ out') = sentBytes out ++ sentBytes out' := List.flatMap_append

theorem sentBytes_head (ctx : Nat) (fd : Int) (bytes : List Byte) (rest : List Action) :
    sentBytes (.useCtx ctx :: .send fd bytes :: rest) = bytes ++ sentBytes rest := rfl

@[simp] theorem movedRanges_append (out out' : List Action) :
    movedRanges (out ++ out') = movedRanges out ++ movedRanges out' := List.flatMap_append

/-- The router has answered, and nothing was written yet. -/
structure Responding (h : Handling) (ctx : Nat) : Prop where
  own : h.conn.protocolCtx = some ctx
  waiting : (h.ctxs ctx).httpRes.sendSt = .wait
  routed : (h.ctxs ctx).httpRes.Routed
  count : h.conn.requestCount ≤ h.conn.maxRequestCount
  cap : h.conn.sendBuf.cap = bufferRunSize

section

variable {h : Handling} {ctx : Nat} {env : Env}

/-- The first write event of a response prints its head, unless it follows `NULL`. -/
theorem Responding.begin (hr : Responding h ctx) (hsize : env.fileSize < 2 ^ 63) :
    (h.ctxs ctx).httpRes.bodyFd = 0 ∧
        httpProtocolWrite (h.atEvent env) = .error .nullPointer ∨
      (h.ctxs ctx).httpRes.bodyFd ≠ 0 ∧ ∃ len, ((h.ctxs ctx).httpRes.bodyFd ≤ 0 → len = 0) ∧
        (0 < (h.ctxs ctx).httpRes.bodyFd → len = env.fileSize) ∧
          BeginCase (h.atEvent env) ctx len (httpProtocolWrite (h.atEvent env)) := by
  obtain ⟨hzero, -, hlen⟩ | ⟨hne, len, hlen, htext, hfile⟩ := hr.routed.bodyLength (h.atEvent env)
  · left
    refine ⟨hzero, ?_⟩
    have hbegun : bodyLength ((h.atEvent env).begun ctx)
        (((h.atEvent env).begun ctx).ctxs ctx).httpRes = .error .nullPointer := by
      rw [Handling.begun_httpRes]
      exact hlen
    rw [httpProtocolWrite_wait (h := h.atEvent env) hr.own hr.waiting]
    unfold startResponse
    rw [hbegun]
  · right
    have hlen63 : len < 2 ^ 63 := by
      obtain rfl | rfl := hfile
      · decide
      · exact hsize
    have hsmall := @headOf_length_lt h.conn (h.ctxs ctx).httpRes len hr.routed.printable hlen63
    have hcap : 256 ≤ h.conn.sendBuf.cap := by
      rw [hr.cap]
      decide
    refine ⟨hne, len, htext, fun hpos => ?_, ?_⟩
    · obtain hzero | hsame := hfile
      · rw [hzero] at hlen
        unfold bodyLength at hlen
        rw [if_pos (by omega), if_neg (by omega)] at hlen
        rw [hzero]
        exact (Except.ok.inj hlen).symm
      · exact hsame
    · apply httpProtocolWrite_begin
      · exact hr.own
      · exact hr.waiting
      · exact hlen
      · exact lt_of_lt_of_le hsmall hcap
      · exact lt_trans hsmall (by decide)
      · exact htext

end

/-! ## One write event -/

section

variable {w w' : Writing} {ctx : Nat} {env : Env}

/-- What the first write event of a response does. -/
inductive FirstWrite (w : Writing) (ctx len : Nat) (env : Env) : Option Writing → Prop
  | stopped (conn : Connection) (bytes : List Byte) :
      HeadPassed w.handling.conn env.sends
        (headOf w.handling.conn (w.handling.ctxs ctx).httpRes len) conn bytes →
      (w.handling.ctxs ctx).httpRes.bodyFd ≤ 0 → FirstWrite w ctx len env none
  | passed (conn : Connection) (rest : List SendOutcome) (bytes : List Byte) (r : Handling × Int) :
      HeadPassed w.handling.conn env.sends
        (headOf w.handling.conn (w.handling.ctxs ctx).httpRes len) conn bytes →
      SameSender w.handling.conn conn → conn.Drained →
      BodyCase ((w.handling.atEvent env).answering ctx len .body conn rest bytes) ctx r →
      FirstWrite w ctx len env (some ⟨r.1, some r.2, w.out ++ r.1.trace⟩)
  | refused (k : Nat) (conn : Connection) (rest : List SendOutcome) :
      w.handling.conn.requestCount ≠ w.handling.conn.maxRequestCount →
      socketTakes env.sends
        (headOf w.handling.conn (w.handling.ctxs ctx).httpRes len).length = false →
      k = socketTaken env.sends
        (headOf w.handling.conn (w.handling.ctxs ctx).httpRes len).length →
      SameSender w.handling.conn conn →
      FirstWrite w ctx len env (some
        ⟨(w.handling.atEvent env).answering ctx len .error conn rest
            ((headOf w.handling.conn (w.handling.ctxs ctx).httpRes len).take k),
          some connSendError, w.out ++ [.useCtx ctx, .send w.handling.conn.fd
            ((headOf w.handling.conn (w.handling.ctxs ctx).httpRes len).take k)]⟩)

theorem writeStep_open {w : Writing} (hctx : w.handling.conn.protocolCtx = some ctx)
    (hst : (w.handling.ctxs ctx).httpRes.sendSt ≠ .error) :
    writeStep w env = match httpProtocolWrite (w.handling.atEvent env) with
      | .ok (h, ret) => some ⟨h, some ret, w.out ++ h.trace⟩
      | .error _ => none := by
  simp only [writeStep, hctx, if_neg hst]

theorem Responding.first (hr : Responding w.handling ctx) (hsize : env.fileSize < 2 ^ 63) :
    (w.handling.ctxs ctx).httpRes.bodyFd = 0 ∧ writeStep w env = none ∨
      (w.handling.ctxs ctx).httpRes.bodyFd ≠ 0 ∧
        ∃ len, ((w.handling.ctxs ctx).httpRes.bodyFd ≤ 0 → len = 0) ∧
          (0 < (w.handling.ctxs ctx).httpRes.bodyFd → len = env.fileSize) ∧
            FirstWrite w ctx len env (writeStep w env) := by
  have hne : (w.handling.ctxs ctx).httpRes.sendSt ≠ .error := by
    rw [hr.waiting]
    exact HttpSendRet.noConfusion
  rw [writeStep_open hr.own hne]
  obtain ⟨hzero, hnull⟩ | ⟨hfd, len, htext, hfile, hcase⟩ := hr.begin hsize
  · exact .inl ⟨hzero, by rw [hnull]⟩
  · refine .inr ⟨hfd, len, htext, hfile, ?_⟩
    generalize httpProtocolWrite (w.handling.atEvent env) = result at hcase ⊢
    cases hcase with
    | passed conn rest bytes hpassed hsame hdrained =>
      have hbody := @sendBody_cases ((w.handling.atEvent env).answering ctx len .body conn rest bytes)
        ctx hdrained
      rw [Handling.answering_httpRes] at hbody
      obtain ⟨hnofile, -, -, hassert⟩ | ⟨r, hok, hbody⟩ := hbody
      · rw [hassert]
        exact .stopped conn bytes hpassed hnofile
      · rw [hok]
        exact .passed conn rest bytes r hpassed hsame hdrained hbody
    | refused k conn rest hroom htakes hk hsame hcount =>
      exact .refused k conn rest hroom htakes hk hsame

/-- Behind the head a write event goes on with the body. -/
theorem writeStep_body (hctx : w.handling.conn.protocolCtx = some ctx)
    (hst : (w.handling.ctxs ctx).httpRes.sendSt = .body) (hdrained : w.handling.conn.Drained) :
    (w.handling.ctxs ctx).httpRes.bodyFd ≤ 0 ∧ writeStep w env = none ∨
      ∃ r, BodyCase ((w.handling.atEvent env).log (.useCtx ctx)) ctx r ∧
        writeStep w env = some ⟨r.1, some r.2, w.out ++ r.1.trace⟩ := by
  have hne : (w.handling.ctxs ctx).httpRes.sendSt ≠ .error := by
    rw [hst]
    exact HttpSendRet.noConfusion
  have hbody := @sendBody_cases ((w.handling.atEvent env).log (.useCtx ctx)) ctx hdrained
  rw [writeStep_open hctx hne, @httpProtocolWrite_body (w.handling.atEvent env) ctx hctx hst]
  obtain ⟨hnofile, -, -, hassert⟩ | ⟨r, hok, hbody⟩ := hbody
  · exact .inl ⟨hnofile, by rw [hassert]⟩
  · exact .inr ⟨r, hbody, by rw [hok]⟩

end

end PingServer
