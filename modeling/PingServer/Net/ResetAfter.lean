import PingServer.Net.Dispatch
import PingServer.Protocol.HeaderFirst

/-!
# Behind a response

`tcpserver_tcp_on_write` cleans the buffers and gives up `EPOLLOUT` when it finds
`HTTP_SEND_DONE`. `http_protocol_write` returns `CONN_SEND_DONE` and never stores the
other, so a connection that is kept open is never made ready for its next request.
-/

namespace PingServer

open ByteMem Machine

/-! ## The write events of a response -/

/-- The write events of one response, as the server takes them. -/
structure Written where
  handling : Handling
  /-- what the last event has decided about the connection -/
  verdict : Verdict
  /-- the actions of the last event, and those of all events -/
  event : List Action
  out : List Action

/-- What the server is like when the event comes, and what the system calls will do. -/
structure WriteEvent where
  current : Nat
  max : Nat
  env : Env

/-- A write event finds the connection open. -/
def writtenStep (w : Written) (e : WriteEvent) : Option Written :=
  match w.verdict with
  | .close => none
  | .keep =>
    match tcpOnWrite e.current e.max (w.handling.atEvent e.env) with
    | .ok (h, v) => some ⟨h, v, h.trace, w.out ++ h.trace⟩
    | .error _ => none

/-- The head and the whole body that the router has selected are handed to the socket. -/
def HandedOver (ctx : Nat) (w : Written) : Prop :=
  let res := (w.handling.ctxs ctx).httpRes
  let head := headOf w.handling.conn res res.bodyLen
  if 0 < res.bodyFd then sentBytes w.out = head ∧ Covered (movedRanges w.out) res.bodyLen
  else sentBytes w.out = head ++ cString (res.body.getD [])

/-- The connection is ready for its next request. -/
structure WasReset (ctx : Nat) (w : Written) : Prop where
  status : (w.handling.ctxs ctx).httpRes.sendSt = .done
  interest : .epollMod w.handling.conn.fd false ∈ w.event
  sendBuf : w.handling.conn.sendBuf.len = 0 ∧ w.handling.conn.sendBuf.idx = 0
  readBuf : w.handling.conn.readBuf.len = 0 ∧ w.handling.conn.readBuf.idx = 0

/-- The last event has reset the connection if it has handed over the last byte and has kept
the connection open, and has not done so before the last byte. -/
structure ResetsOnTime (ctx : Nat) (w : Written) : Prop where
  finished : HandedOver ctx w → w.verdict = .keep → WasReset ctx w
  early : ¬ HandedOver ctx w →
    (w.handling.ctxs ctx).httpRes.sendSt ≠ .done ∧ ∀ fd, .epollMod fd false ∉ w.event

/-! ## One event -/

/-- No write changes what the connection waits for, or finishes the response. -/
structure Unfinished (ctx : Nat) (h h' : Handling) : Prop where
  own : h'.conn.protocolCtx = h.conn.protocolCtx
  status : (h.ctxs ctx).httpRes.sendSt ≠ .done → (h'.ctxs ctx).httpRes.sendSt ≠ .done
  trace : Handling.Grows (fun a => ∀ fd, a ≠ .epollMod fd false) h h'

section

variable {ctx : Nat} {h h' : Handling} {ret : Int}

theorem Unfinished.refl (ctx : Nat) (h : Handling) : Unfinished ctx h h :=
  ⟨rfl, id, .of_eq rfl⟩

theorem Unfinished.log (a : Unfinished ctx h h') {x : Action} (hx : ∀ fd, x ≠ .epollMod fd false) :
    Unfinished ctx h (h'.log x) := ⟨a.own, a.status, a.trace.log hx⟩

theorem Unfinished.setRes (a : Unfinished ctx h h') {res : HttpResponse}
    (hres : (h'.ctxs ctx).httpRes.sendSt ≠ .done → res.sendSt ≠ .done) :
    Unfinished ctx h (h'.setRes ctx res) := by
  refine ⟨a.own, ?_, a.trace.congr rfl⟩
  intro hst
  rw [Handling.setRes_httpRes]
  exact hres (a.status hst)

theorem Unfinished.trans {h₁ : Handling} (a : Unfinished ctx h h₁) (b : Unfinished ctx h₁ h') :
    Unfinished ctx h h' := by
  refine ⟨b.own.trans a.own, fun hst => b.status (a.status hst), ?_⟩
  obtain ⟨new, htrace, hnew⟩ := a.trace
  obtain ⟨new', htrace', hnew'⟩ := b.trace
  refine ⟨new ++ new', by rw [htrace', htrace, List.append_assoc], fun x hx => ?_⟩
  exact (List.mem_append.1 hx).elim (hnew x) (hnew' x)

theorem Unfinished.send (hsend : h.send = .ok (h', ret)) : Unfinished ctx h h' := by
  unfold Handling.send at hsend
  split at hsend
  · cases hsend
  · rename_i s hs
    cases hsend
    have hconn : Unfinished ctx h
        { h with conn := s.conn, env := { h.env with sends := s.sends } } :=
      ⟨(connectionSend_hold hs).ctx, id, .of_eq rfl⟩
    exact hconn.log fun fd => Action.noConfusion

theorem Unfinished.sendFd (ctx : Nat) (h : Handling) : Unfinished ctx h (h.sendFd ctx).1 := by
  have henv : ∀ env, Unfinished ctx h { h with env := env } := fun _ => ⟨rfl, id, .of_eq rfl⟩
  refine Unfinished.log (Unfinished.setRes (henv _) ?_) fun fd => Action.noConfusion
  exact id

theorem Unfinished.writeSteps (hsteps : WriteSteps ctx h h') : Unfinished ctx h h' := by
  induction hsteps using Relation.ReflTransGen.trans_induction_on with
  | refl h => exact .refl ctx h
  | single hstep =>
    cases hstep with
    | use => exact (Unfinished.refl _ _).log fun fd => Action.noConfusion
    | buffer b _ => exact ⟨rfl, id, .of_eq rfl⟩
    | response res _ hres => exact (Unfinished.refl _ _).setRes hres
    | send _ ret hsend => exact .send hsend
    | sendFd => exact .sendFd ctx _
  | trans _ _ a b => exact a.trans b

theorem tcpOnWrite_unfinished {current max : Nat} {v : Verdict} (hctx : h.conn.protocolCtx = some ctx)
    (hst : (h.ctxs ctx).httpRes.sendSt ≠ .done) (hwrite : tcpOnWrite current max h = .ok (h', v)) :
    Unfinished ctx h h' := by
  obtain ⟨-, h₁, ret₁, ctx₁, hsent, hctx₁, hcase⟩ := tcpOnWrite_cases hwrite
  have a := Unfinished.writeSteps (WriteSteps.write hctx hsent)
  obtain rfl : ctx = ctx₁ := Option.some.inj ((a.own.trans hctx).symm.trans hctx₁)
  cases hcase with
  | reset hdone => exact absurd hdone (a.status hst)
  | going => exact a
  | failed => exact a

end

/-! ## Every run -/

/-- What holds behind every write event. -/
structure NeverDone (ctx : Nat) (w : Written) : Prop where
  own : w.handling.conn.protocolCtx = some ctx
  status : (w.handling.ctxs ctx).httpRes.sendSt ≠ .done
  event : ∀ fd, .epollMod fd false ∉ w.event

theorem NeverDone.step {ctx : Nat} {w w' : Written} {e : WriteEvent} (h : NeverDone ctx w)
    (hstep : writtenStep w e = some w') : NeverDone ctx w' := by
  unfold writtenStep at hstep
  split at hstep
  · cases hstep
  · split at hstep
    · rename_i g v hwrite
      cases hstep
      have a := tcpOnWrite_unfinished (h := w.handling.atEvent e.env) h.own h.status hwrite
      constructor
      · exact a.own.trans h.own
      · exact a.status h.status
      · intro fd hmem
        obtain ⟨new, htrace, hnew⟩ := a.trace
        have hnew' : g.trace = new := htrace.trans (List.nil_append new)
        have hmem' : .epollMod fd false ∈ new := hnew' ▸ hmem
        exact hnew _ hmem' fd rfl
    · cases hstep

/-- Behind every write event of a response, the connection is reset when it should be, and
no earlier, exactly if the event has not finished a response on a connection that it keeps. -/
theorem resets_iff {ctx : Nat} {h : Handling} (hown : h.conn.protocolCtx = some ctx)
    (hst : (h.ctxs ctx).httpRes.sendSt = .wait) {w : Written}
    (hrun : Reaches (graph writtenStep) always ⟨h, .keep, [], []⟩ w) :
    ResetsOnTime ctx w ↔ ¬ (HandedOver ctx w ∧ w.verdict = .keep) := by
  have hnever : NeverDone ctx w := by
    apply hrun.invariant (NeverDone ctx)
    · refine ⟨hown, ?_, fun fd => List.not_mem_nil⟩
      have hwait : (h.ctxs ctx).httpRes.sendSt ≠ .done := by
        rw [hst]
        exact HttpSendRet.noConfusion
      exact hwait
    · exact fun _ _ _ hinv _ hstep => hinv.step hstep
  constructor
  · intro hresets hboth
    exact hnever.status (hresets.finished hboth.1 hboth.2).status
  · intro hnot
    constructor
    · intro hover hkeep
      exact absurd ⟨hover, hkeep⟩ hnot
    · intro _
      exact ⟨hnever.status, hnever.event⟩

/-! ## Two responses -/

/-- The file at descriptor 7 is to be sent to a client that keeps its connection alive. -/
def keptAliveFile (count : Nat) : Handling :=
  let h := respondingFile count
  { h with conn := { h.conn with isKeepAlive := true } }

/-- One event that sends all at once, on a server that is nearly empty. -/
def writesAll : WriteEvent := ⟨1, 20, .opens⟩

/-- Behind two uses of the connection, the same event closes it. -/
theorem resets_closed : ∃ w,
    Machine.run writtenStep ⟨keptAliveFile 1, .keep, [], []⟩ [writesAll] = some w ∧
      w.verdict = .close ∧ ResetsOnTime 0 w := by
  have hclosed : (Machine.run writtenStep ⟨keptAliveFile 1, .keep, [], []⟩ [writesAll]).any
      (fun w => decide (w.verdict = .close)) = true := by decide +kernel
  obtain ⟨w, hrun, hverdict⟩ := (Option.any_eq_true _ _).1 hclosed
  have hclose := of_decide_eq_true hverdict
  refine ⟨w, hrun, hclose, ?_⟩
  refine (resets_iff rfl rfl (reaches_of_run (allowedAlong_always _ _ _) hrun)).2 ?_
  rintro ⟨-, hkeep⟩
  rw [hclose] at hkeep
  cases hkeep

/-- The file is sent whole on the third use of the connection, which stays open without
being reset. -/
theorem finished_not_reset : ¬ ∀ (ctx : Nat) (h : Handling) (w : Written),
    h.conn.protocolCtx = some ctx → (h.ctxs ctx).httpRes.sendSt = .wait →
      Reaches (graph writtenStep) always ⟨h, .keep, [], []⟩ w → ResetsOnTime ctx w := by
  intro hall
  have hend : (Machine.run writtenStep ⟨keptAliveFile 2, .keep, [], []⟩ [writesAll]).any (fun w =>
      decide (w.verdict = .keep ∧ (w.handling.ctxs 0).httpRes.sendSt = .body ∧
        (w.handling.ctxs 0).httpRes.bodyFd = 7 ∧ (w.handling.ctxs 0).httpRes.bodyLen = 10 ∧
          sentBytes w.out = headOf w.handling.conn (w.handling.ctxs 0).httpRes 10 ∧
            movedRanges w.out = [(0, 10)])) = true := by decide +kernel
  obtain ⟨w, hrun, hw⟩ := (Option.any_eq_true _ _).1 hend
  obtain ⟨hkeep, hbody, hfd, hlen, hhead, hmoved⟩ := of_decide_eq_true hw
  have hresets := hall 0 _ w rfl rfl (reaches_of_run (allowedAlong_always _ _ _) hrun)
  have hover : HandedOver 0 w := by
    unfold HandedOver
    simp only
    rw [hfd, hlen, if_pos (by decide), hmoved]
    refine ⟨hhead, fun k hk => ⟨(0, 10), List.mem_singleton_self _, Nat.zero_le k, ?_⟩⟩
    omega
  have hdone := (hresets.finished hover hkeep).status
  rw [hbody] at hdone
  cases hdone

end PingServer
