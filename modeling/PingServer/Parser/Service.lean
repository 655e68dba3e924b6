import PingServer.Parser.Client
import PingServer.Parser.Exchange

/-!
# From a request to its answer

A connection that is asked for a file once, in every run of the server: the bytes of the
request go in, in any pieces, and out come the head and the file, whatever other
connections do in between. `Reached` is how far the connection has come.
-/

namespace PingServer

open ByteMem

/-! ## What a session reads and writes -/

def SessionEvent.readEnv : SessionEvent → Option Env
  | .read _ env => some env
  | _ => none

def SessionEvent.writeEnv : SessionEvent → Option Env
  | .write _ env => some env
  | _ => none

def readEnvs (es : List SessionEvent) : List Env := es.filterMap SessionEvent.readEnv

def writeEnvs (es : List SessionEvent) : List Env := es.filterMap SessionEvent.writeEnv

theorem Hears.envs_eq {es : List SessionEvent} {cs : List HandlerCall} (h : Hears es cs) :
    readEnvs es = readEnvs (sessionEvents cs) ∧ writeEnvs es = writeEnvs (sessionEvents cs) := by
  induction h with
  | none => exact ⟨rfl, rfl⟩
  | others arena ctxs cache _ ih =>
    simp only [readEnvs, writeEnvs, List.filterMap_append] at ih ⊢
    rw [ih.1, ih.2]
    exact ⟨List.append_nil _, List.append_nil _⟩
  | call c current _ ih =>
    have hsame : readEnvs (c.events current) = readEnvs (c.events 0) ∧
        writeEnvs (c.events current) = writeEnvs (c.events 0) := by
      unfold HandlerCall.events HandlerCall.event
      cases c.kind with
      | onRead => exact ⟨rfl, rfl⟩
      | onWrite => exact ⟨rfl, rfl⟩
      | onError => exact ⟨rfl, rfl⟩
    simp only [readEnvs, writeEnvs, List.filterMap_append, sessionEvents_append,
      sessionEvents_single] at ih hsame ⊢
    rw [ih.1, ih.2, hsame.1, hsame.2]
    exact ⟨rfl, rfl⟩

/-! ## Stages -/

/-- Nothing was answered yet: the connection has received `reads` times. -/
structure Listening (reads : Nat) (h : Handling) : Prop where
  count : h.conn.requestCount = reads
  max : h.conn.maxRequestCount = connectionRequestCount
  cap : h.conn.sendBuf.cap = bufferRunSize
  zero : ∀ ctx, h.conn.protocolCtx = some ctx →
    (h.ctxs ctx).httpRes = HttpContext.zero.httpRes

/-- The head of the answer to `req`, whose file of `size` bytes is open as `fd`. -/
def replyHead (req : HttpRequest) (fd : Int) (size : Nat) : List Byte :=
  let res := replyTo req fd HttpContext.zero.httpRes
  headText res.statusCode (res.contentType.getD contentTxt) (if 0 < fd then size else 0)
    (Pico.connectionValue req)

/-- The descriptor that `get_fd` finds for a request, and -1 if there is none. -/
def FileFor (req : HttpRequest) (fd : Int) : Prop := 0 < fd → ∃ name, requestedFile req = some name ∧
  ∀ size, replyHead req fd size =
    headText 200 (contentTypeByName name) size (Pico.connectionValue req)

/-- How far a connection has come that was sent the request `text`, read as `req`. -/
inductive Reached (content : Nat → Byte) (size : Nat) (text : List Byte) (req : HttpRequest)
    (es : List SessionEvent) (h : Handling) : Prop
  | listening : ¬ text <+: stream es → writeEnvs es = [] → Listening (readEnvs es).length h →
      emitted content h.trace = [] → Reached content size text req es h
  | answering (ctx : Nat) (fd : Int) (a : Answer) : 1 ≤ completions text [] es → FileFor req fd →
      Shows size (replyHead req fd size) fd.sign ctx ⟨h, none, []⟩ a → a ≠ .failed →
      h.conn.sendBuf.cap = bufferRunSize →
      (∀ envs, answerBytes content size (replyHead req fd size) fd.sign (.waiting 0)
        (writeEnvs es ++ envs) = (answerBytes content size (replyHead req fd size) fd.sign a envs).map
          (emitted content h.trace ++ ·)) →
      Reached content size text req es h

section

variable {content : Nat → Byte} {size current max : Nat} {head : List Byte} {fd : Int} {ctx : Nat}
  {w w' : Writing} {a : Answer} {h h' : Handling} {env : Env} {v : Verdict}

/-- Only the connection and its context show. -/
theorem Shows.same (hshows : Shows size head fd ctx w a) (hconn : w'.handling.conn = w.handling.conn)
    (hctx : w'.handling.ctxs ctx = w.handling.ctxs ctx) : Shows size head fd ctx w' a := by
  cases hshows with
  | waiting hr hroom htextRoom hfd htext hhead =>
    have hshows : Shows size head fd ctx w' (.waiting (w'.handling.ctxs ctx).httpRes.bodyOff) := by
      apply Shows.waiting
      · exact ⟨hconn ▸ hr.own, hctx ▸ hr.waiting, hctx ▸ hr.routed, hconn ▸ hr.count, hconn ▸ hr.cap⟩
      · rw [hconn]
        exact hroom
      · rw [hconn]
        exact htextRoom
      · rw [hctx]
        exact hfd
      · rw [hctx]
        exact htext
      · rw [hconn, hctx]
        exact hhead
    rw [hctx] at hshows
    exact hshows
  | inBody hown hst hdrained hfile hlen =>
    have hshows : Shows size head fd ctx w' (.inBody (w'.handling.ctxs ctx).httpRes.bodyOff) := by
      apply Shows.inBody
      · rw [hconn]
        exact hown
      · rw [hctx]
        exact hst
      · rw [hconn]
        exact hdrained
      · rw [hctx]
        exact hfile
      · rw [hctx]
        exact hlen
    rw [hctx] at hshows
    exact hshows
  | failed hown hst =>
    apply Shows.failed
    · rw [hconn]
      exact hown
    · rw [hctx]
      exact hst

theorem Shows.own (hshows : Shows size head fd ctx w a) :
    w.handling.conn.protocolCtx = some ctx := by
  cases hshows with
  | waiting hr => exact hr.own
  | inBody hown => exact hown
  | failed hown => exact hown

theorem Shows.unfinished (hshows : Shows size head fd ctx w a) :
    (w.handling.ctxs ctx).httpRes.sendSt ≠ .done := by
  cases hshows with
  | waiting hr =>
    rw [hr.waiting]
    exact HttpSendRet.noConfusion
  | inBody _ hst =>
    rw [hst]
    exact HttpSendRet.noConfusion
  | failed _ hst =>
    rw [hst]
    exact HttpSendRet.noConfusion

theorem Shows.open (hshows : Shows size head fd ctx w a) (hne : a ≠ .failed) :
    (w.handling.ctxs ctx).httpRes.sendSt ≠ .error := by
  cases hshows with
  | waiting hr =>
    rw [hr.waiting]
    exact HttpSendRet.noConfusion
  | inBody _ hst =>
    rw [hst]
    exact HttpSendRet.noConfusion
  | failed => exact absurd rfl hne

/-- A write event adds to what was done before it. -/
theorem httpProtocolWrite_added {ret : Int}
    (hwrite : httpProtocolWrite { h with env := env } = .ok (h', ret)) :
    ∃ g, httpProtocolWrite (h.atEvent env) = .ok (g, ret) ∧ h' = g.behind h.trace := by
  have hbehind : { h with env := env } = (h.atEvent env).behind h.trace := by
    simp only [Handling.atEvent, Handling.behind, List.append_nil]
  rw [hbehind, httpProtocolWrite_behind] at hwrite
  exact resultBehind_ok hwrite

/-- A write event keeps the send buffer. -/
theorem Shows.cap (hshows : Shows size head fd ctx w a) (hlarge : env.fileSize < 2 ^ 63)
    (hstep : writeStep w env = some w') :
    w'.handling.conn.sendBuf.cap = w.handling.conn.sendBuf.cap := by
  cases hshows with
  | waiting hr =>
    obtain ⟨-, hnone⟩ | ⟨-, len, -, -, hfirst⟩ := hr.first hlarge
    · rw [hnone] at hstep
      cases hstep
    · rw [hstep] at hfirst
      cases hfirst with
      | passed conn rest bytes r _ hsame _ hcase =>
        rw [hcase.conn]
        exact hsame.cap
      | refused k conn rest _ _ _ hsame => exact hsame.cap
  | inBody hown hst hdrained hfile =>
    obtain ⟨hnofile, -⟩ | ⟨r, hcase, hsome⟩ := @writeStep_body w ctx env hown hst hdrained
    · omega
    · rw [hsome] at hstep
      cases hstep
      rw [hcase.conn]
      rfl
  | failed hown hst =>
    simp only [writeStep, hown, if_pos hst] at hstep
    cases hstep

/-- A write event of an answer shows its next bytes. -/
theorem Shows.write (content : Nat → Byte) (hshows : Shows size head fd ctx ⟨h, none, []⟩ a)
    (hne : a ≠ .failed) (hsize : env.fileSize = size) (hlarge : size < 2 ^ 63)
    (hwrite : tcpOnWrite current max { h with env := env } = .ok (h', v)) :
    ∃ a' bytes, answerStep content size head fd a env = some (a', bytes) ∧
      Shows size head fd ctx ⟨h', none, []⟩ a' ∧ (v = .keep → a' ≠ .failed) ∧
        emitted content h'.trace = emitted content h.trace ++ bytes ∧
          h'.conn.sendBuf.cap = h.conn.sendBuf.cap := by
  obtain ⟨-, h₁, ret, ctx₁, hsent, hown, hcase⟩ := tcpOnWrite_cases hwrite
  have hkept : h₁.conn.protocolCtx = some ctx :=
    (httpProtocolWrite_answers hsent).ctx.trans hshows.own
  obtain rfl : ctx = ctx₁ := Option.some.inj (hkept.symm.trans hown)
  have hdone : (h₁.ctxs ctx).httpRes.sendSt ≠ .done :=
    (httpProtocolWrite_answers hsent).unfinished ctx hshows.unfinished
  have hh₁ : h' = h₁ := by
    generalize hr : (h', v) = r at hcase
    cases hcase with
    | reset hreset => exact absurd hreset hdone
    | going => exact congrArg Prod.fst hr
    | failed => exact congrArg Prod.fst hr
  obtain ⟨g, hg, rfl⟩ := httpProtocolWrite_added hsent
  have hstep : writeStep ⟨h, none, []⟩ env = some ⟨g, some ret, g.trace⟩ := by
    rw [@writeStep_open ctx env ⟨h, none, []⟩ hshows.own (hshows.open hne)]
    simp only [hg, List.nil_append]
  have hshown := hshows.step content hsize hlarge
  rw [hstep] at hshown
  generalize hanswer : answerStep content size head fd a env = answer at hshown
  cases hshown with
  | goes _ a' bytes hshows' hbytes =>
    have hbytes' : emitted content g.trace = bytes := hbytes
    refine ⟨a', bytes, rfl, ?_, ?_, ?_, ?_⟩
    · rw [hh₁]
      exact hshows'.same rfl rfl
    · rintro rfl rfl
      cases hshows' with
      | failed _ herror =>
        generalize hr : (h', Verdict.keep) = r at hcase
        cases hcase with
        | reset hreset => exact hdone hreset
        | going _ hgoing => exact hgoing herror
        | failed => cases hr
    · rw [hh₁, Handling.behind_trace, emitted_append, hbytes']
    · rw [hh₁]
      exact hshows.cap (hsize ▸ hlarge) hstep

end

/-! ## Nothing is sent but by a write -/

section

variable {content : Nat → Byte} {h h' : Handling} {ctx : Nat}

theorem emitted_inner (content : Nat → Byte) {new : List Action} (hnew : ∀ a ∈ new, a.inner = true) :
    emitted content new = [] := by
  apply List.flatMap_eq_nil_iff.2
  intro a ha
  have hinner := hnew a ha
  cases a with
  | allocCtx | useCtx => rfl
  | _ => cases hinner

theorem emitted_log (a : Action) (hsilent : emitted content [a] = []) :
    emitted content (h.log a).trace = emitted content h.trace := by
  rw [Handling.log, emitted_append, hsilent, List.append_nil]

theorem RouteSteps.emitted_eq (hsteps : RouteSteps ctx h h') :
    emitted content h'.trace = emitted content h.trace := by
  induction hsteps using Relation.ReflTransGen.trans_induction_on with
  | refl h => rfl
  | single hstep =>
    cases hstep with
    | openFile name result => exact emitted_log _ rfl
    | closeFd fd => exact emitted_log _ rfl
    | cache cache => rfl
    | response res hst => rfl
  | trans _ _ a b => exact b.trans a

theorem httpProtocolProcess_emitted {ret : Int} (hctx : h.conn.protocolCtx = some ctx)
    (hproc : httpProtocolProcess h = .ok (h', ret)) :
    emitted content h'.trace = emitted content h.trace := by
  rw [(RouteSteps.process hctx hproc).emitted_eq]
  have hinit : emitted content (initResponse h ctx).trace =
      emitted content (h.trace ++ [.useCtx ctx] ++ [.process (h.ctxs ctx).httpReq]) := rfl
  rw [hinit, emitted_append, emitted_append]
  simp only [emitted, List.flatMap_cons, List.flatMap_nil, List.append_nil]

end

/-! ## Sessions that ask once -/

/-- These events ask once for a file of `size` bytes, on the way to `total`. -/
structure AsksOnce (text total : List Byte) (size : Nat) (es : List SessionEvent) : Prop where
  within : stream es <+: total
  once : completions text [] es ≤ 1
  room : (readEnvs es).length + 1 < connectionRequestCount
  sizes : ∀ env ∈ writeEnvs es, env.fileSize = size

section

variable {parse : Parser} {content : Nat → Byte} {size current max cap : Nat}
  {text total : List Byte} {req : HttpRequest} {es : List SessionEvent} {h h' : Handling} {env : Env}

theorem AsksOnce.before {es' : List SessionEvent} (a : AsksOnce text total size (es ++ es')) :
    AsksOnce text total size es := by
  have hroom := a.room
  have honce := a.once
  rw [readEnvs, List.filterMap_append, List.length_append] at hroom
  rw [completions_append] at honce
  refine ⟨?_, by omega, ?_, fun env henv => a.sizes env ?_⟩
  · exact (stream_append es es' ▸ List.prefix_append _ _ : stream es <+: stream (es ++ es')).trans a.within
  · exact lt_of_le_of_lt (Nat.add_le_add_right (Nat.le_add_right _ _) 1) hroom
  · rw [writeEnvs, List.filterMap_append]
    exact List.mem_append_left _ henv

theorem requests_inner {new : List Action} (hnew : ∀ a ∈ new, a.inner = true) :
    requests new = [] := by
  apply List.filterMap_eq_nil_iff.2
  intro a ha
  have hinner := hnew a ha
  cases a with
  | allocCtx | useCtx => rfl
  | _ => cases hinner

/-- What was received is in the context, and nothing else has happened. -/
theorem Listening.parsed {reads ctx : Nat} {h₁ : Handling} (hlistening : Listening reads h)
    (hrecv : Receives h.conn h.received.conn) (hparses : Parses h.received ctx h₁) :
    Listening (reads + 1) h₁ ∧ h₁.conn.protocolCtx = some ctx ∧
      (h₁.ctxs ctx).httpRes = HttpContext.zero.httpRes ∧
      requests h₁.trace = requests h.trace ∧
      ∀ content, emitted content h₁.trace = emitted content h.trace := by
  obtain ⟨new, htrace, hinner⟩ := hparses.trace
  have hown : h₁.conn.protocolCtx = some ctx := by rw [hparses.conn]
  have hzero : (h₁.ctxs ctx).httpRes = HttpContext.zero.httpRes := by
    cases hctx : h.received.conn.protocolCtx with
    | none => exact hparses.zero hctx
    | some p =>
      obtain rfl := hparses.own p hctx
      rw [hparses.kept (hctx ▸ Option.some_ne_none p)]
      exact hlistening.zero p (hrecv.ctx ▸ hctx)
  refine ⟨⟨?_, ?_, ?_, ?_⟩, hown, hzero, ?_, fun content => ?_⟩
  · rw [hparses.conn]
    exact hrecv.count.trans (congrArg (· + 1) hlistening.count)
  · rw [hparses.conn]
    exact hrecv.max.trans hlistening.max
  · rw [hparses.conn]
    exact (congrArg Buffer.cap hrecv.sendBuf).trans hlistening.cap
  · intro p hp
    obtain rfl : ctx = p := Option.some.inj (hown.symm.trans hp)
    exact hzero
  · rw [htrace, requests_append, requests_inner hinner, List.append_nil]
    rfl
  · rw [htrace, emitted_append, emitted_inner content hinner, List.append_nil]
    rfl

/-- What a read does that keeps a connection which listens. -/
inductive Heard (reads : Nat) (h h' : Handling) : Prop
  | more : Listening (reads + 1) h' → requests h'.trace = requests h.trace →
      (∀ content, emitted content h'.trace = emitted content h.trace) → Heard reads h h'
  | request (ctx : Nat) (h₁ g : Handling) : Listening (reads + 1) h₁ →
      h₁.conn.protocolCtx = some ctx → (h₁.ctxs ctx).httpRes = HttpContext.zero.httpRes →
      httpProtcolCheck (some (h₁.ctxs ctx)) = 0 → Answered h₁ ctx g →
      h' = g.log (.epollMod g.conn.fd true) →
      requests h'.trace = requests h.trace ++ [(h₁.ctxs ctx).httpReq] →
      (∀ content, emitted content h'.trace = emitted content h.trace) → Heard reads h h'

theorem Listening.heard {reads : Nat} (hlistening : Listening reads h)
    (hread : tcpOnRead parse current max h = .ok (h', .keep)) : Heard reads h h' := by
  have hcases := tcpOnRead_cases hread
  generalize hr : (h', Verdict.keep) = r at hcases
  cases hcases with
  | unread | unparsed | refused => cases hr
  | incomplete ctx h₁ v hrecv hparses =>
    cases hr
    obtain ⟨hnext, -, -, hreqs, hsilent⟩ := hlistening.parsed hrecv hparses
    exact .more hnext hreqs hsilent
  | accepted ctx h₁ g hrecv hparses _ hcheck hreq hproc hanswered =>
    obtain ⟨hnext, hown, hzero, hreqs, hsilent⟩ := hlistening.parsed hrecv hparses
    have hlogged : h' = g.log (.epollMod g.conn.fd true) := congrArg Prod.fst hr
    refine .request ctx h₁ g hnext hown hzero ?_ hanswered hlogged ?_ fun content => ?_
    · rw [check_complete hreq]
      exact hcheck
    · have hgone := ((httpProtocolProcess_answers hown hproc).log
        (x := .epollMod g.conn.fd true) rfl).trace
      rw [hlogged, hgone, Handling.log, requests_append, hreqs]
      rfl
    · rw [hlogged, emitted_log _ rfl, httpProtocolProcess_emitted hown hproc]
      exact hsilent content

/-- The head of an answer from a context that has answered nothing before. -/
theorem headOf_answered {ctx : Nat} {g : Handling}
    (hzero : (h.ctxs ctx).httpRes = HttpContext.zero.httpRes) (hanswered : Answered h ctx g) :
    headOf g.conn (g.ctxs ctx).httpRes
      (if 0 < (fileOf h (h.ctxs ctx).httpReq).sign then size else 0) =
        replyHead (h.ctxs ctx).httpReq (fileOf h (h.ctxs ctx).httpReq) size := by
  rw [headOf, hanswered.own, hanswered.conn, hzero]
  simp only [replyHead, Pico.connectionValue, decide_eq_true_eq, Int.sign_pos_iff]

theorem fileFor_fileOf (hcheck : isSafePath req.path = true) : FileFor req (fileOf h req) := by
  intro hfile
  obtain ⟨name, hname, hstatus, htype⟩ :=
    @Pico.replyTo_file h req HttpContext.zero.httpRes hcheck hfile
  refine ⟨name, hname, fun size => ?_⟩
  simp only [replyHead, hstatus, htype, Option.getD_some, if_pos hfile]

/-- A read that keeps the connection listens on, or finds the request. -/
theorem Listening.read (hlistening : Listening (readEnvs es).length h)
    (hnothing : emitted content h.trace = []) (hnowrite : writeEnvs es = [])
    (inv : SessionInv cap (stream es) h)
    (hfirst : OnlyFirst parse text total) (hreq : parse.request text = req) (hfit : total.length ≤ cap)
    (a : AsksOnce text total size (es ++ [.read current env]))
    (hstep : sessionStep parse max h (.read current env) = some h') :
    Reached content size text req (es ++ [.read current env]) h' := by
  have hstream : stream (es ++ [.read current env]) = stream es ++ taken env.recvs := by
    rw [stream_append]
    exact congrArg _ (List.append_nil _)
  have hreads : (readEnvs (es ++ [.read current env])).length = (readEnvs es).length + 1 := by
    rw [readEnvs, List.filterMap_append, List.length_append]
    rfl
  have hwrites : writeEnvs (es ++ [.read current env]) = [] := by
    rw [writeEnvs, List.filterMap_append]
    exact (List.append_nil _).trans hnowrite
  obtain ⟨-, hreqs⟩ := sessionStep_requests hfirst inv (hstream ▸ a.within) hfit hstep
  simp only [sessionStep] at hstep
  split at hstep
  case h_2 => cases hstep
  rename_i h₂ hread
  cases hstep
  have hlistening' : Listening (readEnvs es).length { h with env := env } :=
    ⟨hlistening.count, hlistening.max, hlistening.cap, hlistening.zero⟩
  cases hlistening'.heard hread with
  | more hnext hsame hsilent =>
    have hnone : List.replicate (completions text (stream es) [.read current env])
        (parse.request text) = [] :=
      List.append_cancel_left (hreqs.symm.trans (hsame.trans (List.append_nil _).symm))
    refine .listening (fun hpre => ?_) hwrites (hreads ▸ hnext) ((hsilent content).trans hnothing)
    rw [hstream] at hpre
    simp only [completions, List.isPrefixOf_iff_prefix, if_pos hpre] at hnone
    cases hnone
  | request ctx h₁ g hnext hown hzero hcheck hanswered hlogged hgone hsilent =>
    have hone : List.replicate (completions text (stream es) [.read current env])
        (parse.request text) = [(h₁.ctxs ctx).httpReq] :=
      List.append_cancel_left (hreqs.symm.trans hgone)
    have hcount : completions text (stream es) [.read current env] = 1 := by
      rw [← List.length_replicate (n := completions text (stream es) [.read current env]), hone]
      rfl
    rw [hcount, hreq] at hone
    have hreq₁ : (h₁.ctxs ctx).httpReq = req := (List.cons.inj hone).1.symm
    have hroom : AtRequest h₁ ctx := by
      have hleft := a.room
      rw [hreads, ← hnext.count, ← hnext.max] at hleft
      exact ⟨hown, Nat.lt_of_succ_lt hleft, fun _ => hleft, hnext.cap⟩
    have hshows := @AtRequest.shows size _ _ _ hroom hcheck hanswered
    rw [headOf_answered hzero hanswered, hzero] at hshows
    refine .answering ctx (fileOf h₁ req) (.waiting 0) ?_ ?_ ?_ Answer.noConfusion ?_
      fun envs => ?_
    · rw [completions_append, List.nil_append, hcount]
      exact Nat.le_add_left 1 _
    · exact fileFor_fileOf (hreq₁ ▸ (httpProtcolCheck_eq_zero.1 hcheck).1.path)
    · rw [hreq₁] at hshows
      rw [hlogged]
      exact hshows.same rfl rfl
    · rw [hlogged, Handling.log, hanswered.conn]
      exact hnext.cap
    · have hbefore : emitted content { h with env := env }.trace = [] := hnothing
      rw [hwrites, hsilent content, hbefore]
      exact Option.map_id'.symm

/-- A write finds nothing to send. -/
theorem Listening.write {reads : Nat} {r : Handling × Verdict} (hlistening : Listening reads h) :
    tcpOnWrite current max h ≠ .ok r := by
  intro hwrite
  obtain ⟨-, h₁, ret, ctx₁, hsent, -⟩ := tcpOnWrite_cases hwrite
  cases hctx : h.conn.protocolCtx with
  | none =>
    rw [httpProtocolWrite, hctx] at hsent
    cases hsent
  | some ctx =>
    have hzero := hlistening.zero ctx hctx
    rw [httpProtocolWrite_wait hctx (by rw [hzero]; rfl)] at hsent
    have hbegun : bodyLength (h.begun ctx) ((h.begun ctx).ctxs ctx).httpRes = .error .nullPointer := by
      rw [Handling.begun_httpRes, hzero]
      rfl
    unfold startResponse at hsent
    rw [hbegun] at hsent
    cases hsent

theorem Reached.step {e : SessionEvent} (hreached : Reached content size text req es h)
    (inv : SessionInv cap (stream es) h) (hfirst : OnlyFirst parse text total)
    (hreq : parse.request text = req) (hfit : total.length ≤ cap) (hlarge : size < 2 ^ 63)
    (a : AsksOnce text total size (es ++ [e])) (hstep : sessionStep parse max h e = some h') :
    Reached content size text req (es ++ [e]) h' := by
  cases e with
  | read current env =>
    cases hreached with
    | listening _ hnowrite hlistening hnothing =>
      exact hlistening.read hnothing hnowrite inv hfirst hreq hfit a hstep
    | answering ctx fd ans hdone =>
      -- the request is found once more
      have hpre : text <+: stream es := by
        by_contra hnot
        rw [completions_eq_zero es [] hnot] at hdone
        cases hdone
      have honce := a.once
      have hagain : completions text (stream es) [.read current env] = 1 := by
        simp only [completions, List.isPrefixOf_iff_prefix,
          if_pos (hpre.trans (List.prefix_append _ (taken env.recvs)))]
      rw [completions_append, List.nil_append, hagain] at honce
      omega
  | write current env =>
    simp only [sessionStep] at hstep
    split at hstep
    case h_2 => cases hstep
    rename_i h₂ hwrite
    cases hstep
    cases hreached with
    | listening _ _ hlistening =>
      have hlistening' : Listening (readEnvs es).length { h with env := env } :=
        ⟨hlistening.count, hlistening.max, hlistening.cap, hlistening.zero⟩
      exact absurd hwrite hlistening'.write
    | answering ctx fd ans hdone hfile hshows hopen hcap hbytes =>
      have hwrites : writeEnvs (es ++ [.write current env]) = writeEnvs es ++ [env] := by
        rw [writeEnvs, List.filterMap_append]
        rfl
      have hsize : env.fileSize = size := a.sizes env (hwrites ▸ List.mem_append_right _ List.mem_cons_self)
      obtain ⟨ans', bytes, hanswer, hshows', hkept, hemitted, hsame⟩ :=
        hshows.write content hopen hsize hlarge hwrite
      refine .answering ctx fd ans' ?_ hfile hshows' (hkept rfl) (hsame.trans hcap) fun envs => ?_
      · rw [completions_append]
        exact hdone.trans (Nat.le_add_right _ _)
      · rw [hwrites, List.append_assoc, List.singleton_append, hbytes, answerBytes, hanswer, hemitted]
        simp only [Option.map_map, Function.comp_def, List.append_assoc]
  | others arena ctxs cache =>
    cases hstep
    have hstream : stream (es ++ [.others arena ctxs cache]) = stream es := by
      rw [stream_append]
      exact List.append_nil _
    have hreads : readEnvs (es ++ [.others arena ctxs cache]) = readEnvs es := by
      rw [readEnvs, List.filterMap_append]
      exact List.append_nil _
    have hwrites : writeEnvs (es ++ [.others arena ctxs cache]) = writeEnvs es := by
      rw [writeEnvs, List.filterMap_append]
      exact List.append_nil _
    cases hreached with
    | listening hnot hnowrite hlistening hnothing =>
      refine .listening (hstream ▸ hnot) (hwrites ▸ hnowrite) ?_ hnothing
      rw [hreads]
      refine ⟨hlistening.count, hlistening.max, hlistening.cap, fun ctx hctx => ?_⟩
      have hown : h.conn.protocolCtx = some ctx := hctx
      simp only [if_pos hown]
      exact hlistening.zero ctx hown
    | answering ctx fd ans hdone hfile hshows hopen hcap hbytes =>
      refine .answering ctx fd ans ?_ hfile (hshows.same rfl ?_) hopen hcap (hwrites ▸ hbytes)
      · rw [completions_append]
        exact hdone.trans (Nat.le_add_right _ _)
      · have hown : h.conn.protocolCtx = some ctx := hshows.own
        simp only [if_pos hown]

/-- However far a session has come that asks once. -/
theorem session_reached (content : Nat → Byte) {start : Handling} (hfresh : Fresh start.conn)
    (hidle : start.trace = []) (hne : text ≠ []) (hfirst : OnlyFirst parse text total) (hreq : parse.request text = req)
    (hfit : total.length ≤ bufferRunSize) (hlarge : size < 2 ^ 63)
    (hrun : Machine.run (sessionStep parse max) start es = some h) (a : AsksOnce text total size es) :
    Reached content size text req es h := by
  have hinv : AsksOnce text total size es →
      SessionInv bufferRunSize (stream es) h ∧ Reached content size text req es h := by
    refine Machine.run_induct (P := fun es h => AsksOnce text total size es →
      SessionInv bufferRunSize (stream es) h ∧ Reached content size text req es h)
      (fun _ => ⟨?_, ?_⟩) (fun es g e g' ih hstep a' => ?_) es hrun
    · refine ⟨?_, hfresh.readCap, fun ctx hctx => ?_⟩
      · exact List.eq_nil_of_length_eq_zero ((Buffer.bytes_length _).trans hfresh.empty)
      · rw [hfresh.toNewConnection.ctx] at hctx
        cases hctx
    · refine .listening (fun hpre => hne (List.prefix_nil.1 hpre)) rfl
        ⟨hfresh.count, hfresh.max, hfresh.cap, fun ctx hctx => ?_⟩ ?_
      · rw [hfresh.toNewConnection.ctx] at hctx
        cases hctx
      · rw [hidle]
        rfl
    · obtain ⟨inv, hreached⟩ := ih a'.before
      have hstream : stream (es ++ [e]) = stream es ++ e.bytes := by
        rw [stream_append]
        exact congrArg _ (List.append_nil _)
      rw [hstream]
      exact ⟨(sessionStep_requests hfirst inv (hstream ▸ a'.within) hfit hstep).1,
        hreached.step inv hfirst hreq hfit hlarge a' hstep⟩
  exact (hinv a).2

end

/-! ## What is sent of a file -/

/-- What these writes move of a file of `size` bytes, from `offset` on. -/
def fileBytes (content : Nat → Byte) (size : Nat) : Nat → List Env → List Byte
  | _, [] => []
  | offset, env :: envs =>
    let s := connectionSendFd size env.sendfiles offset (size % 2 ^ 32)
    rangeBytes content s.moved ++ fileBytes content size s.offset envs

/-- All of the file. -/
def wholeFile (content : Nat → Byte) (size : Nat) : List Byte := (List.range size).map content

/-- What is sent to a connection that asks for a file: the head as far as the socket takes it,
or all of it and then the file. -/
inductive AnswerSent (content : Nat → Byte) (size : Nat) (req : HttpRequest) (writes : List Env) :
    List Byte → Prop
  | broken (fd : Int) (env : Env) : writes = [env] →
      socketTakes env.sends (replyHead req fd size).length = false →
      AnswerSent content size req writes
        ((replyHead req fd size).take (socketTaken env.sends (replyHead req fd size).length))
  | file (name : List Byte) : requestedFile req = some name →
      AnswerSent content size req writes
        (headText 200 (contentTypeByName name) size (Pico.connectionValue req) ++
          fileBytes content size 0 writes)

section

variable {content : Nat → Byte} {size : Nat} {head bytes : List Byte} {fd : Int}
  {req : HttpRequest} {writes : List Env}

theorem answerBytes_inBody (envs : List Env) : ∀ offset,
    answerBytes content size head fd (.inBody offset) envs =
      some (fileBytes content size offset envs) := by
  induction envs with
  | nil =>
    intro offset
    rfl
  | cons env envs ih =>
    intro offset
    rw [answerBytes, answerStep]
    simp only [answerFile, ih, Option.map_some, fileBytes]

theorem answerBytes_sent (hfile : FileFor req fd) (hne : writes ≠ [])
    (hbytes : answerBytes content size (replyHead req fd size) fd.sign (.waiting 0) writes =
      some bytes) : AnswerSent content size req writes bytes := by
  obtain ⟨env, envs, rfl⟩ := List.exists_cons_of_ne_nil hne
  rw [answerBytes, answerStep] at hbytes
  by_cases hzero : fd.sign = 0
  · rw [if_pos hzero] at hbytes
    cases hbytes
  rw [if_neg hzero] at hbytes
  by_cases htakes : socketTakes env.sends (replyHead req fd size).length = true
  · rw [if_pos htakes] at hbytes
    by_cases hpos : 0 < fd.sign
    · rw [if_pos hpos] at hbytes
      obtain ⟨name, hname, hhead⟩ := hfile (Int.sign_pos_iff.1 hpos)
      simp only [answerFile, answerBytes_inBody, Option.map_some, Option.some.injEq] at hbytes
      rw [← hbytes, hhead size, List.append_assoc]
      exact .file name hname
    · rw [if_neg hpos] at hbytes
      cases hbytes
  · rw [if_neg htakes] at hbytes
    -- nothing is written behind a head that was refused
    cases envs with
    | nil =>
      simp only [answerBytes, Option.map_some, List.append_nil, Option.some.injEq] at hbytes
      rw [← hbytes]
      exact .broken fd env rfl (Bool.eq_false_iff.2 htakes)
    | cons env' envs =>
      simp only [answerBytes, answerStep, Option.map_none] at hbytes
      cases hbytes

theorem rangeBytes_whole : rangeBytes content [(0, size)] = wholeFile content size := by
  simp only [rangeBytes, List.flatMap_cons, List.flatMap_nil, List.append_nil, Nat.zero_add]
  rfl

theorem remain_whole (hsmall : size < 2 ^ 31) :
    int32 (((size % 2 ^ 32 : Nat) : Int) - (0 : Nat)) = (size : Nat) := by
  rw [int32_eq (by omega) (by omega)]
  omega

/-- A write that moves the file at once moves all of it, and stands behind its end. -/
theorem connectionSendFd_whole {os : List SendfileOutcome} (hpos : 0 < size) (hsmall : size < 2 ^ 31)
    (hmoves : movesAtOnce size 0 size os = true) :
    (connectionSendFd size os 0 (size % 2 ^ 32)).moved = [(0, size)] ∧
      (connectionSendFd size os 0 (size % 2 ^ 32)).offset = size + size := by
  obtain ⟨rest, hloop⟩ := @sendfileLoop_atOnce size 0 size hpos os hmoves
  rw [connectionSendFd, remain_whole hsmall, hloop]
  exact ⟨rfl, congrArg (· + size) (Nat.zero_add size)⟩

theorem fileBytes_still {offset : Nat} (hstill : ¬ MovesFrom size offset) (envs : List Env) :
    fileBytes content size offset envs = [] := by
  have hsame := @answerBytes_inBody content size [] 0 envs offset
  rw [answerBytes_still hstill] at hsame
  exact (Option.some.inj hsame).symm

/-- Writes that move the file at once or not at all move all of it, and once. -/
theorem fileBytes_whole (hsmall : size < 2 ^ 31) {envs : List Env}
    (hwhole : ∀ env ∈ envs, movesWhole size 0 size env.sendfiles = true)
    (hmoves : 0 < size → ∃ env ∈ envs, movesAtOnce size 0 size env.sendfiles = true) :
    fileBytes content size 0 envs = wholeFile content size := by
  obtain rfl | hpos := Nat.eq_zero_or_pos size
  · exact fileBytes_still (fun hmove => Nat.not_lt_zero 0 hmove.2) envs
  replace hmoves := hmoves hpos
  induction envs with
  | nil =>
    obtain ⟨env, hmem, -⟩ := hmoves
    cases hmem
  | cons env envs ih =>
    by_cases honce : movesAtOnce size 0 size env.sendfiles = true
    · obtain ⟨hmoved, hoffset⟩ := connectionSendFd_whole hpos hsmall honce
      have hbehind : ¬ MovesFrom size (size + size) := fun hmove => by
        have := hmove.2
        omega
      simp only [fileBytes, hmoved, hoffset, rangeBytes_whole, fileBytes_still hbehind,
        List.append_nil]
    · obtain ⟨ret, rest, hloop, -⟩ :=
        (sendfileLoop_whole hpos env.sendfiles (hwhole env List.mem_cons_self)).resolve_right honce
      have hnothing : connectionSendFd size env.sendfiles 0 (size % 2 ^ 32) = ⟨ret, 0, rest, []⟩ := by
        rw [connectionSendFd, remain_whole hsmall, hloop]
      have hrest := ih (fun e he => hwhole e (List.mem_cons_of_mem env he)) (by
        obtain ⟨e, hmem, he⟩ := hmoves
        obtain rfl | hmem := List.mem_cons.1 hmem
        · exact absurd he honce
        · exact ⟨e, hmem, he⟩)
      simp only [fileBytes, hnothing, hrest]
      rfl

end

/-! ## The last call -/

/-- What follows an answer: nothing as long as the connection is open, and at its end the closing
head as far as the socket takes it, and the last ack if it takes that. -/
inductive AnswerEnded (t : TcpServer) (i : Nat) : List Byte → Prop
  | open (j : Nat) : (i, j) ∈ t.opened → AnswerEnded t i []
  | closed (k : Nat) (ack : List Byte) : (∀ j, (i, j) ∉ t.opened) → ack <+: [0] →
      AnswerEnded t i (closingHead.take k ++ ack)

theorem lastAck_zero (sends : List SendOutcome) : lastAck sends <+: [0] := by
  unfold lastAck
  split
  · exact List.prefix_rfl
  · exact List.nil_prefix

section

variable {s t : TcpServer} {i j ctx : Nat} {lost half : List (Nat × Nat)}
  {h' : Handling} {v : Verdict}

/-- Following a verdict ends the answer of a connection with a context. -/
theorem settle_ends (content : Nat → Byte) (inv : SlotInv tidy s lost half) (hij : (i, j) ∈ s.opened)
    (hhandler : h'.conn.protocolHandler = (s.connArray i).protocolHandler)
    (hown : h'.conn.protocolCtx = some ctx) (hcap : h'.conn.sendBuf.cap = bufferRunSize)
    (hsettle : settle s i (h', v) = .ok t) : ∃ tail, AnswerEnded t i tail ∧
      ∃ new, t.trace = h'.trace ++ new ∧ emitted content new = tail := by
  obtain ⟨rfl, rfl⟩ | hremoved := settle_removed inv hhandler hij hsettle
  · exact ⟨[], .open j hij, [], (List.append_nil _).symm, rfl⟩
  · obtain ⟨-, rfl⟩ | ⟨-, j', cleared, -, hclear, hdeleted⟩ := settle_spec hsettle
    · exact absurd rfl (hremoved.opened i j hij).2
    · have hpath : closePath h' =
          .ok (cleared.log (.send cleared.conn.fd (lastAck cleared.env.sends))) := by
        rw [closePath, hclear]
      obtain ⟨done, hwrites, htrace⟩ := closePath_writes hcap hpath
      cases hwrites with
      | ack hnone =>
        rw [hown] at hnone
        cases hnone
      | head ctx' rest hctx' =>
        have hclosed : t.trace = h'.trace ++ ([.send h'.conn.fd
            (closingHead.take (socketTaken h'.env.sends closingHead.length)), .recycleCtx ctx',
            .send h'.conn.fd (lastAck rest)] ++ [.closeFd cleared.conn.fd, .closeFd cleared.conn.fd,
              .closeFd (s.eventTimerArray j').eFd]) := by
          rw [← List.append_assoc, ← htrace, hdeleted.trace, Handling.log, List.append_assoc]
          rfl
        refine ⟨_, .closed (socketTaken h'.env.sends closingHead.length) (lastAck rest)
          (fun j hopen => (hremoved.opened i j hopen).2 rfl) (lastAck_zero rest), _, hclosed, ?_⟩
        simp only [emitted, List.cons_append, List.nil_append, List.flatMap_cons, List.flatMap_nil,
          List.append_nil]

end

/-! ## Every run -/

/-- These calls ask once for a file of `size` bytes, with the request `text`, and leave the two
requests that an answer may use. -/
structure AskedOnce (text : List Byte) (size : Nat) (cs : List HandlerCall) : Prop where
  begins : text <+: stream (sessionEvents cs)
  once : completions text [] (sessionEvents cs) ≤ 1
  room : (readEnvs (sessionEvents cs)).length + 1 < connectionRequestCount
  sizes : ∀ env ∈ writeEnvs (sessionEvents cs), env.fileSize = size

instance (text : List Byte) (size : Nat) (cs : List HandlerCall) : Decidable (AskedOnce text size cs) :=
  decidable_of_iff (text <+: stream (sessionEvents cs) ∧ completions text [] (sessionEvents cs) ≤ 1 ∧
    (readEnvs (sessionEvents cs)).length + 1 < connectionRequestCount ∧
    ∀ env ∈ writeEnvs (sessionEvents cs), env.fileSize = size)
    ⟨fun ⟨hbegins, honce, hroom, hsizes⟩ => ⟨hbegins, honce, hroom, hsizes⟩,
      fun a => ⟨a.begins, a.once, a.room, a.sizes⟩⟩

/-- What a last write leaves to ask of the session before it. -/
theorem AskedOnce.session {text : List Byte} {size : Nat} {cs : List HandlerCall} {c : HandlerCall}
    {es : List SessionEvent} (a : AskedOnce text size (cs ++ [c])) (hkind : c.kind = .onWrite)
    (hheard : Hears es cs) : text <+: stream es ∧ AsksOnce text (stream es) size es ∧
      c.env.fileSize = size ∧ writeEnvs (sessionEvents (cs ++ [c])) = writeEnvs es ++ [c.env] := by
  have hevents : sessionEvents (cs ++ [c]) = sessionEvents cs ++ [.write 0 c.env] := by
    rw [sessionEvents_append, sessionEvents_single]
    unfold HandlerCall.events HandlerCall.event
    rw [hkind]
    rfl
  obtain ⟨hbegins, honce, hroom, hsizes⟩ := a
  rw [hevents] at hbegins honce hroom hsizes ⊢
  have hstream : stream (sessionEvents cs ++ [.write 0 c.env]) = stream es := by
    rw [stream_append, hheard.stream_eq]
    exact List.append_nil _
  have hreads : readEnvs (sessionEvents cs ++ [.write 0 c.env]) = readEnvs es := by
    rw [readEnvs, List.filterMap_append, hheard.envs_eq.1]
    exact List.append_nil _
  have hwrites : writeEnvs (sessionEvents cs ++ [.write 0 c.env]) = writeEnvs es ++ [c.env] := by
    rw [writeEnvs, List.filterMap_append, hheard.envs_eq.2]
    rfl
  rw [completions_append, ← hheard.completions_eq] at honce
  rw [hstream] at hbegins
  rw [hreads] at hroom
  rw [hwrites] at hsizes ⊢
  exact ⟨hbegins, ⟨List.prefix_rfl, (Nat.le_add_right _ _).trans honce, hroom,
    fun env henv => hsizes env (List.mem_append_left _ henv)⟩,
    hsizes c.env (List.mem_append_right _ List.mem_cons_self), rfl⟩

section

variable {size : Nat} {s : TcpServer} {l l' : EventLoop} {r r' : Record}
  {events : List LoopEvent} {c : HandlerCall} {i : Nat} {text : List Byte} {out : Pico.RequestOut}

/-- What a session has sent when a write of it is over. -/
theorem SessionOf.delivers (content : Nat → Byte) (b : Pico.Build) {heard : List HandlerCall} {done : List Action}
    {start h g : Handling} {es : List SessionEvent} {v : Verdict}
    (hs : SessionOf (Pico.serverParser b) s i heard done start es h) (hkind : c.kind = .onWrite)
    (htext : Pico.RequestText Pico.httpHeaderNumberLimit text out)
    (hasked : AskedOnce text size (heard ++ [c])) (hlarge : size < 2 ^ 63)
    (hwrite : tcpOnWrite s.currentConnections s.maxConnections (s.bare i c.env) = .ok (g, v)) :
    (∃ ctx, g.conn.protocolCtx = some ctx) ∧ g.conn.sendBuf.cap = bufferRunSize ∧
      AnswerSent content size out.request (writeEnvs (sessionEvents (heard ++ [c])))
        (emitted content (done ++ g.trace)) := by
  obtain ⟨hpre, hasks, hsize, hwrites⟩ := hasked.session hkind hs.heard
  have hsmall : Pico.SmallBuffer (stream es) := lt_of_le_of_lt hs.inside (by decide)
  -- the session goes on where the server stands
  have hcaught := hs.caught_up c.env
  have hnow : tcpOnWrite s.currentConnections s.maxConnections { h.meanwhile s with env := c.env } =
      .ok (g.behind done, v) := by
    rw [hcaught, tcpOnWrite_behind, hwrite]
    rfl
  have hne : text ≠ [] := by
    obtain ⟨front, nl, -, rfl⟩ := htext.ended
    exact List.append_ne_nil_of_right_ne_nil _ (List.cons_ne_nil _ _)
  cases session_reached content hs.fresh hs.idle hne
      (Pico.serverParser_onlyFirst b hsmall htext hpre)
      (Pico.serverParser_request b (lt_of_le_of_lt hpre.length_le hsmall) htext)
      (hs.inside.trans (by decide)) hlarge hs.run hasks with
  | listening hnot => exact absurd hpre hnot
  | answering ctx fd ans _ hfile hshows hopen hcap hbytes =>
    have hown : h.conn.protocolCtx = some ctx := hshows.own
    have hshows' : Shows size (replyHead out.request fd size) fd.sign ctx ⟨h.meanwhile s, none, []⟩ ans :=
      hshows.same rfl (if_pos hown)
    obtain ⟨ans', bytes, hanswer, hshown, -, hemitted, hsame⟩ :=
      hshows'.write content hopen hsize hlarge hnow
    refine ⟨⟨ctx, hshown.own⟩, hsame.trans hcap, ?_⟩
    have hsofar : emitted content (h.meanwhile s).trace = emitted content h.trace := rfl
    have htotal : emitted content (done ++ g.trace) = emitted content h.trace ++ bytes :=
      hemitted.trans (congrArg (· ++ bytes) hsofar)
    have hanswered := hbytes [c.env]
    simp only [answerBytes, hanswer, Option.map_some, List.append_nil] at hanswered
    rw [hwrites, htotal]
    exact answerBytes_sent hfile (List.append_ne_nil_of_right_ne_nil _ (List.cons_ne_nil _ _)) hanswered

/-- What a connection has been sent when a write of the server is over. -/
theorem write_delivers (content : Nat → Byte) (b : Pico.Build) (hstart : Started s)
    (hrun : Machine.Reaches (Machine.graph (recordStep (Pico.serverParser b)))
      (fun a e => Undisturbed (Pico.serverParser b) a.1 e) (⟨s, []⟩, .empty) (l, r))
    (hcall : recordStep (Pico.serverParser b) (l, r) (.call c) = some (l', r'))
    (hwrite : c.context = .tcp i ∧ c.kind = .onWrite)
    (htext : Pico.RequestText Pico.httpHeaderNumberLimit text out)
    (hasked : AskedOnce text size (r'.heard i)) (hlarge : size < 2 ^ 63) :
    ∃ bytes tail, emitted content (r'.done i) = bytes ++ tail ∧
      AnswerSent content size out.request (writeEnvs (sessionEvents (r'.heard i))) bytes ∧
        AnswerEnded l'.server i tail := by
  obtain ⟨⟨lost, half, inv⟩, -, hall⟩ := loop_invariants hstart hrun
  obtain ⟨l₁, hstep, heq⟩ := Option.map_eq_some_iff.1 hcall
  cases heq
  simp only [loopStep] at hstep
  split at hstep
  case isFalse => cases hstep
  rename_i hmem
  split at hstep <;> cases hstep
  rename_i t hdisp
  have hturn := dispatch_tcp hwrite.1 hdisp
  obtain ⟨j, hij⟩ := hturn.opened (hwrite.1 ▸ inv.settled _ hmem)
  obtain ⟨start, es, h, hs⟩ := hall i j hij
  obtain ⟨hheard, hdone⟩ := Record.next_own (r := r) (t := t) hij hwrite.1
  simp only [hheard, hdone] at hasked ⊢
  cases hturn with
  | failed t hkind =>
    rw [hwrite.2] at hkind
    cases hkind
  | worked h' v t hkind hcalled _ hsettle =>
    unfold HandlerCall.handle at hcalled
    rw [hwrite.2] at hcalled
    simp only [TcpServer.handling_bare, tcpOnWrite_behind] at hcalled
    obtain ⟨g, hbare, rfl⟩ := resultBehind_ok hcalled
    obtain ⟨⟨ctx, hown⟩, hcap, hsent⟩ :=
      SessionOf.delivers content b hs hwrite.2 htext hasked hlarge hbare
    have hhandler : (g.behind l.server.trace).conn.protocolHandler =
        (l.server.connArray i).protocolHandler :=
      (tcpOnWrite_spec hbare).hold.handler
    obtain ⟨tail, hended, new, htrace, hnew⟩ :=
      settle_ends content inv.slots hij hhandler hown hcap hsettle
    refine ⟨_, tail, ?_, hsent, hended⟩
    rw [htrace, Handling.behind_trace, List.append_assoc, List.drop_left, ← List.append_assoc,
      emitted_append, hnew]

end

/-- The head of an answer has less than 256 bytes. -/
theorem replyHead_length_lt (req : HttpRequest) (fd : Int) {size : Nat} (hlarge : size < 2 ^ 63) :
    (replyHead req fd size).length < 256 := by
  have hrouted := (replyTo_reply req fd HttpContext.zero.httpRes).routed
  have hlen : (if 0 < fd then size else 0) < 2 ^ 63 := by
    split
    · exact hlarge
    · decide
  have hhead := @headOf_length_lt { Connection.blank with isKeepAlive := decide (req.minorVersion ≠ 0) }
    (replyTo req fd HttpContext.zero.httpRes) _ hrouted.printable hlen
  simp only [headOf, decide_eq_true_eq] at hhead
  exact hhead

/-- The writes to the clients of `halvesInTurn`. -/
def writeTo (i : Nat) : HandlerCall := ⟨.tcp i, .onWrite, .opens, []⟩

/-- A file that counts its bytes. -/
def countingFile : Nat → Byte := BitVec.ofNat 8

theorem homeGet_request : ∃ out, Pico.RequestText Pico.httpHeaderNumberLimit homeGet out := by
  have hret : (Pico.serverParser .portable homeGet 0).ret = homeGet.length := by decide +kernel
  obtain ⟨text, out, hpre, htext, hfound⟩ := Pico.serverParser_sound .portable
    (show Pico.SmallBuffer homeGet by decide) (.inl rfl) (by rw [hret]; exact Int.natCast_nonneg _)
  have hlen : text.length = homeGet.length := by
    rw [hfound] at hret
    exact Int.ofNat.inj hret
  exact ⟨out, hpre.eq_of_length hlen ▸ htext⟩

theorem halvesInTurn_undisturbed :
    Machine.allowedAlong (recordStep (Pico.serverParser .portable))
      (fun a e => Undisturbed (Pico.serverParser .portable) a.1 e)
      (⟨.fresh 20 24 (by decide), []⟩, .empty) Pico.halvesInTurn := by
  decide +kernel

/-- The writes of an answer whose socket takes the head, and the file at once. -/
structure TakesAtOnce (size : Nat) (writes : List Env) : Prop where
  head : ∀ env ∈ writes.head?, ∀ n < 256, socketTakes env.sends n = true
  whole : ∀ env ∈ writes, movesWhole size 0 size env.sendfiles = true
  moves : 0 < size → ∃ env ∈ writes, movesAtOnce size 0 size env.sendfiles = true

instance (size : Nat) (writes : List Env) : Decidable (TakesAtOnce size writes) :=
  decidable_of_iff ((∀ env ∈ writes.head?, ∀ n < 256, socketTakes env.sends n = true) ∧
    (∀ env ∈ writes, movesWhole size 0 size env.sendfiles = true) ∧
    (0 < size → ∃ env ∈ writes, movesAtOnce size 0 size env.sendfiles = true))
    ⟨fun ⟨hhead, hwhole, hmoves⟩ => ⟨hhead, hwhole, hmoves⟩, fun t => ⟨t.head, t.whole, t.moves⟩⟩

/-- The answer is then the head and the file. -/
theorem AnswerSent.whole {content : Nat → Byte} {size : Nat} {req : HttpRequest}
    {writes : List Env} {bytes : List Byte} (hsent : AnswerSent content size req writes bytes)
    (htakes : TakesAtOnce size writes) (hsmall : size < 2 ^ 31) : ∃ name,
      requestedFile req = some name ∧ bytes =
        headText 200 (contentTypeByName name) size (Pico.connectionValue req) ++
          wholeFile content size := by
  cases hsent with
  | broken fd env hwrites hrefused =>
    rw [htakes.head env (by rw [hwrites]; rfl) _
      (replyHead_length_lt req fd (lt_trans hsmall (by decide)))] at hrefused
    cases hrefused
  | file name hname =>
    exact ⟨name, hname, by rw [fileBytes_whole hsmall htakes.whole htakes.moves]⟩

end PingServer
