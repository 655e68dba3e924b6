import PingServer.Protocol.WriteRun
import PingServer.Route.Reply

/-!
# What one response leaves to the next

All requests of a kept-alive connection are answered in one `httpResponse`. `Answer`
is a response as its client sees it, and shows what is left over from the one before:
the offset into a file, which nothing resets.
-/

namespace PingServer

open ByteMem

/-! ## The bytes of a response -/

/-- The bytes in these ranges of a file. -/
def rangeBytes (content : Nat → Byte) (moved : List (Nat × Nat)) : List Byte :=
  moved.flatMap fun r => (List.range r.2).map fun k => content (r.1 + k)

/-- The bytes that these actions hand to the socket, from a file that holds `content`. -/
def emitted (content : Nat → Byte) (out : List Action) : List Byte :=
  out.flatMap fun a => match a with
    | .send _ bytes => bytes
    | .sendFile _ _ moved => rangeBytes content moved
    | _ => []

@[simp] theorem emitted_append (content : Nat → Byte) (out out' : List Action) :
    emitted content (out ++ out') = emitted content out ++ emitted content out' :=
  List.flatMap_append

theorem emitted_head (content : Nat → Byte) (ctx : Nat) (fd : Int) (bytes : List Byte) :
    emitted content [.useCtx ctx, .send fd bytes] = bytes := List.append_nil _

/-- `http_protocol_process`, and then a write event for each of `envs`. No write follows a
request that is refused; a run that stops emits nothing. -/
def respond (h : Handling) (envs : List Env) : Option (List Action) :=
  match httpProtocolProcess h with
  | .error _ => none
  | .ok (h, ret) =>
    if ret = tcpProtoSend then (Machine.run writeStep ⟨h, none, []⟩ envs).map Writing.out
    else some []

/-! ## Answers -/

/-- A response as its client sees it. -/
inductive Answer where
  | waiting (offset : Nat)
  | inBody (offset : Nat)
  | failed

/-- What `connection_send_fd` hands over of a file of `size` bytes. -/
def answerFile (content : Nat → Byte) (size offset : Nat) (os : List SendfileOutcome) :
    Answer × List Byte :=
  let s := connectionSendFd size os offset (size % 2 ^ 32)
  (.inBody s.offset, rangeBytes content s.moved)

/-- One write event; `fd` is the sign of `body_fd`. -/
def answerStep (content : Nat → Byte) (size : Nat) (head : List Byte) (fd : Int) :
    Answer → Env → Option (Answer × List Byte)
  | .waiting offset, env =>
    if fd = 0 then none
    else if socketTakes env.sends head.length then
      if 0 < fd then
        let r := answerFile content size offset env.sendfiles
        some (r.1, head ++ r.2)
      else none
    else some (.failed, head.take (socketTaken env.sends head.length))
  | .inBody offset, env => some (answerFile content size offset env.sendfiles)
  | .failed, _ => none

def answerBytes (content : Nat → Byte) (size : Nat) (head : List Byte) (fd : Int) :
    Answer → List Env → Option (List Byte)
  | _, [] => some []
  | a, env :: envs =>
    match answerStep content size head fd a env with
    | none => none
    | some (a', bytes) => (answerBytes content size head fd a' envs).map (bytes ++ ·)

/-- The write events of `w` show the client the answer `a`. -/
inductive Shows (size : Nat) (head : List Byte) (fd : Int) (ctx : Nat) (w : Writing) : Answer → Prop
  | waiting : Responding w.handling ctx →
      w.handling.conn.requestCount < w.handling.conn.maxRequestCount →
      (¬ 0 < fd → w.handling.conn.requestCount + 1 < w.handling.conn.maxRequestCount) →
      (w.handling.ctxs ctx).httpRes.bodyFd.sign = fd →
      ((w.handling.ctxs ctx).httpRes.bodyFd < 0 →
        (w.handling.ctxs ctx).httpRes.body.isSome = true) →
      headOf w.handling.conn (w.handling.ctxs ctx).httpRes (if 0 < fd then size else 0) = head →
      Shows size head fd ctx w (.waiting (w.handling.ctxs ctx).httpRes.bodyOff)
  | inBody : w.handling.conn.protocolCtx = some ctx →
      (w.handling.ctxs ctx).httpRes.sendSt = .body → w.handling.conn.Drained →
      0 < (w.handling.ctxs ctx).httpRes.bodyFd → (w.handling.ctxs ctx).httpRes.bodyLen = size →
      Shows size head fd ctx w (.inBody (w.handling.ctxs ctx).httpRes.bodyOff)
  | failed : w.handling.conn.protocolCtx = some ctx →
      (w.handling.ctxs ctx).httpRes.sendSt = .error → Shows size head fd ctx w .failed

section

variable (content : Nat → Byte) {size : Nat} {head : List Byte} {fd : Int} {ctx : Nat}
  {w w' : Writing} {a : Answer} {env : Env}

/-- What one write event is shown as. -/
inductive Shown (content : Nat → Byte) (size : Nat) (head : List Byte) (fd : Int) (ctx : Nat)
    (w : Writing) : Option Writing → Option (Answer × List Byte) → Prop
  | stopped : Shown content size head fd ctx w none none
  | goes (w' : Writing) (a' : Answer) (bytes : List Byte) : Shows size head fd ctx w' a' →
      emitted content w'.out = emitted content w.out ++ bytes →
      Shown content size head fd ctx w (some w') (some (a', bytes))

/-- From the label `send_body` on a file shows what is moved of it. -/
theorem BodyCase.shows {g : Handling} {r : Handling × Int} (head : List Byte) (fd : Int)
    (before : List Action) (hcase : BodyCase g ctx r) (hctx : g.conn.protocolCtx = some ctx)
    (hst : (g.ctxs ctx).httpRes.sendSt = .body) (hdrained : g.conn.Drained)
    (hfile : 0 < (g.ctxs ctx).httpRes.bodyFd) (hlen : (g.ctxs ctx).httpRes.bodyLen = size)
    (hsize : g.env.fileSize = size) :
    let s := answerFile content size (g.ctxs ctx).httpRes.bodyOff g.env.sendfiles
    Shows size head fd ctx ⟨r.1, some r.2, before ++ r.1.trace⟩ s.1 ∧
      emitted content r.1.trace = emitted content g.trace ++ s.2 := by
  cases hcase with
  | file =>
    have hres := g.sendFd_httpRes ctx
    rw [hlen, hsize] at hres
    constructor
    · have hshows : Shows size head fd ctx ⟨(g.sendFd ctx).1, some (fileRet (g.sendFd ctx).2),
          before ++ (g.sendFd ctx).1.trace⟩
          (.inBody ((g.sendFd ctx).1.ctxs ctx).httpRes.bodyOff) := by
        apply Shows.inBody
        · exact hctx
        · rw [hres]
          exact hst
        · exact hdrained
        · rw [hres]
          exact hfile
        · rw [hres]
          exact hlen
      rw [hres] at hshows
      exact hshows
    · rw [Handling.sendFd_trace, hlen, hsize, emitted_append]
      exact congrArg _ (List.append_nil _)
  | text hnofile => omega
  | none hnofile => omega

/-- With room for a request left, a text stops the process. -/
theorem BodyCase.file_of_room {g : Handling} {r : Handling × Int} (hcase : BodyCase g ctx r)
    (htext : (g.ctxs ctx).httpRes.bodyFd ≤ 0 → (g.ctxs ctx).httpRes.body.isSome = true)
    (hroom : g.conn.requestCount ≠ g.conn.maxRequestCount) :
    0 < (g.ctxs ctx).httpRes.bodyFd := by
  cases hcase with
  | file hfile => exact hfile
  | text _ _ hfull => exact absurd hfull hroom
  | none hnofile hbody =>
    have hsome := htext hnofile
    rw [hbody] at hsome
    cases hsome

/-- The write event that begins with the head. -/
theorem FirstWrite.shown {len : Nat} {next : Option Writing}
    (hfirst : FirstWrite w ctx len env next) (hr : Responding w.handling ctx)
    (hroom : w.handling.conn.requestCount < w.handling.conn.maxRequestCount)
    (htextRoom : ¬ 0 < fd → w.handling.conn.requestCount + 1 < w.handling.conn.maxRequestCount)
    (hfd : ¬ fd = 0) (hpos : 0 < fd ↔ 0 < (w.handling.ctxs ctx).httpRes.bodyFd)
    (htext : (w.handling.ctxs ctx).httpRes.bodyFd ≤ 0 →
      (w.handling.ctxs ctx).httpRes.body.isSome = true)
    (hlen : 0 < (w.handling.ctxs ctx).httpRes.bodyFd → len = size) (hsize : env.fileSize = size)
    (hhead : headOf w.handling.conn (w.handling.ctxs ctx).httpRes len = head) :
    Shown content size head fd ctx w next
      (answerStep content size head fd (.waiting (w.handling.ctxs ctx).httpRes.bodyOff) env) := by
  rw [answerStep, if_neg hfd]
  cases hfirst with
  | stopped conn bytes hpassed hnofile =>
    cases hpassed with
    | full hfull => omega
    | taken _ htakes =>
      rw [hhead] at htakes
      rw [if_pos htakes, if_neg fun h => not_lt.2 hnofile (hpos.1 h)]
      exact .stopped
  | passed conn rest bytes r hpassed hsame hdrained hcase =>
    cases hpassed with
    | full hfull => omega
    | taken _ htakes hcount =>
      have hmax := hsame.max
      have hfile : 0 < (w.handling.ctxs ctx).httpRes.bodyFd := by
        by_contra hnofile
        have hleft := htextRoom fun h => hnofile (hpos.1 h)
        have hbody := hcase.file_of_room (by rwa [Handling.answering_httpRes])
          (by simp only [Handling.answering]; omega)
        rw [Handling.answering_httpRes] at hbody
        exact hnofile hbody
      rw [hhead] at htakes
      rw [if_pos htakes, if_pos (hpos.2 hfile)]
      have hafter := hcase.shows content head fd w.out (hsame.hold.ctx.trans hr.own)
        (by rw [Handling.answering_httpRes]) hdrained (by rwa [Handling.answering_httpRes])
        (by rw [Handling.answering_httpRes]; exact hlen hfile) hsize
      rw [Handling.answering_httpRes] at hafter
      obtain ⟨hshows, hbytes⟩ := hafter
      apply Shown.goes _ _ _ hshows
      have hnone : (w.handling.atEvent env).trace = [] := rfl
      rw [emitted_append, hbytes, Handling.answering_trace, hhead, hnone, List.nil_append,
        emitted_head]
      rfl
  | refused k conn rest _ htakes hk hsame =>
    rw [hhead] at htakes hk
    rw [if_neg (Bool.not_eq_true _ ▸ htakes), hhead, ← hk]
    apply Shown.goes
    · apply Shows.failed
      · exact hsame.hold.ctx.trans hr.own
      · rw [Handling.answering_httpRes]
    · rw [emitted_append]
      exact congrArg _ (List.append_nil _)

theorem Shows.step (hshows : Shows size head fd ctx w a) (hsize : env.fileSize = size)
    (hlarge : size < 2 ^ 63) :
    Shown content size head fd ctx w (writeStep w env) (answerStep content size head fd a env) := by
  cases hshows with
  | waiting hr hroom htextRoom hfd htext hhead =>
    obtain ⟨hzero, hnone⟩ | ⟨hnonzero, len, hempty, hlen, hfirst⟩ := hr.first (hsize ▸ hlarge)
    · have hfd0 : fd = 0 := by rw [← hfd, hzero]; rfl
      rw [hnone, answerStep, if_pos hfd0]
      exact .stopped
    · have hfd0 : ¬ fd = 0 := by
        rw [← hfd, Int.sign_eq_zero_iff_zero]
        exact hnonzero
      have hpos : 0 < fd ↔ 0 < (w.handling.ctxs ctx).httpRes.bodyFd := by
        rw [← hfd, Int.sign_pos_iff]
      have hlen' : (if 0 < fd then size else 0) = len := by
        split
        · rw [hlen (hpos.1 ‹_›), hsize]
        · rw [hempty (not_lt.1 fun h => ‹¬ 0 < fd› (hpos.2 h))]
      rw [hlen'] at hhead
      exact hfirst.shown content hr hroom htextRoom hfd0 hpos (fun h => htext (by omega))
        (fun hfile => (hlen hfile).trans hsize) hsize hhead
  | inBody hctx hst hdrained hfile hlen =>
    obtain ⟨hnofile, -⟩ | ⟨r, hcase, hsome⟩ := @writeStep_body w ctx env hctx hst hdrained
    · omega
    · rw [hsome]
      obtain ⟨hshows, hbytes⟩ :=
        hcase.shows content head fd w.out hctx hst hdrained hfile hlen hsize
      apply Shown.goes _ _ _ hshows
      rw [emitted_append, hbytes]
      rfl
  | failed hctx hst =>
    have hnone : writeStep w env = none := by simp only [writeStep, hctx, if_pos hst]
    rw [hnone]
    exact .stopped

theorem Shows.run (envs : List Env) : ∀ {w : Writing} {a : Answer}, Shows size head fd ctx w a →
    (∀ env ∈ envs, env.fileSize = size) → size < 2 ^ 63 →
    (Machine.run writeStep w envs).map (fun w' => emitted content w'.out) =
      (answerBytes content size head fd a envs).map (emitted content w.out ++ ·) := by
  induction envs with
  | nil =>
    intro w a _ _ _
    exact congrArg some (List.append_nil _).symm
  | cons env envs ih =>
    intro w a hshows hsizes hlarge
    have hshown := hshows.step content (hsizes env List.mem_cons_self) hlarge
    rw [Machine.run, answerBytes]
    generalize writeStep w env = next at hshown ⊢
    generalize answerStep content size head fd a env = answer at hshown ⊢
    cases hshown with
    | stopped => rfl
    | goes w' a' bytes hshows' hbytes =>
      have hrest := ih hshows' (fun e he => hsizes e (List.mem_cons_of_mem env he)) hlarge
      simp only [hrest, hbytes, Option.map_map]
      congr 1
      funext rest
      simp only [Function.comp_apply, List.append_assoc]

end

/-! ## What offsets show -/

/-- A write moves something of a file of `size` bytes, when it stands at `offset`. -/
def MovesFrom (size offset : Nat) : Prop :=
  0 < int32 (((size % 2 ^ 32 : Nat) : Int) - offset) ∧ offset < size

instance (size offset : Nat) : Decidable (MovesFrom size offset) :=
  inferInstanceAs (Decidable (_ ∧ _))

section

variable {content : Nat → Byte} {size : Nat} {head : List Byte} {fd : Int}

theorem sendfileLoop_behind {offset : Nat} {remain : Int} (hbehind : size ≤ offset)
    (hremain : 0 < remain) (os : List SendfileOutcome) :
    (sendfileLoop size os offset remain []).offset = offset ∧
      (sendfileLoop size os offset remain []).moved = [] := by
  have hleft : ¬ remain ≤ 0 := not_le.2 hremain
  induction os with
  | nil =>
    rw [sendfileLoop, if_neg hleft]
    exact ⟨rfl, rfl⟩
  | cons o os ih =>
    cases o with
    | moved k =>
      have hn : min (k + 1) (min remain.toNat (size - offset)) = 0 := by omega
      rw [sendfileLoop, if_neg hleft]
      simp only [hn, ↓reduceIte, and_self]
    | interrupted =>
      rw [sendfileLoop, if_neg hleft]
      exact ih
    | wouldBlock | failed =>
      rw [sendfileLoop, if_neg hleft]
      exact ⟨rfl, rfl⟩

/-- Where nothing is moved the offset stays. -/
theorem answerFile_still {offset : Nat} (hstill : ¬ MovesFrom size offset)
    (os : List SendfileOutcome) :
    answerFile content size offset os = (.inBody offset, []) := by
  have hcall : (connectionSendFd size os offset (size % 2 ^ 32)).offset = offset ∧
      (connectionSendFd size os offset (size % 2 ^ 32)).moved = [] := by
    by_cases hremain : 0 < int32 (((size % 2 ^ 32 : Nat) : Int) - offset)
    · have hbehind : size ≤ offset := not_lt.1 fun hlt => hstill ⟨hremain, hlt⟩
      exact sendfileLoop_behind hbehind hremain os
    · rw [connectionSendFd_done (not_lt.1 hremain)]
      exact ⟨rfl, rfl⟩
  unfold answerFile
  simp only [hcall]
  rfl

theorem answerBytes_still {offset : Nat} (hstill : ¬ MovesFrom size offset) (envs : List Env) :
    answerBytes content size head fd (.inBody offset) envs = some [] := by
  induction envs with
  | nil => rfl
  | cons env envs ih =>
    rw [answerBytes, answerStep, answerFile_still hstill]
    simp only [ih]
    rfl

theorem answerBytes_same {offset offset' : Nat}
    (h : offset = offset' ∨ ¬ 0 < fd ∨ ¬ MovesFrom size offset ∧ ¬ MovesFrom size offset')
    (envs : List Env) : answerBytes content size head fd (.waiting offset) envs =
      answerBytes content size head fd (.waiting offset') envs := by
  obtain rfl | hnofile | ⟨hstill, hstill'⟩ := h
  · rfl
  · cases envs with
    | nil => rfl
    | cons env envs =>
      rw [answerBytes, answerBytes, answerStep, answerStep, if_neg hnofile, if_neg hnofile]
  cases envs with
  | nil => rfl
  | cons env envs =>
    rw [answerBytes, answerBytes, answerStep, answerStep, answerFile_still hstill,
      answerFile_still hstill']
    by_cases hzero : fd = 0
    · simp only [if_pos hzero]
    · by_cases htakes : socketTakes env.sends head.length = true
      · by_cases hfile : 0 < fd
        · simp only [if_neg hzero, if_pos htakes, if_pos hfile, answerBytes_still hstill,
            answerBytes_still hstill']
        · simp only [if_neg hzero, if_pos htakes, if_neg hfile]
      · simp only [if_neg hzero, if_neg htakes]

/-- One byte is moved. -/
theorem answerFile_moves {offset : Nat} (hmoves : MovesFrom size offset) :
    (answerFile content size offset [.moved 0]).2 = [content offset] := by
  obtain ⟨hremain, hlt⟩ := hmoves
  have hcall : (connectionSendFd size [.moved 0] offset (size % 2 ^ 32)).moved = [(offset, 1)] := by
    rw [connectionSendFd]
    generalize int32 (((size % 2 ^ 32 : Nat) : Int) - offset) = remain at hremain
    have hn : min (0 + 1) (min remain.toNat (size - offset)) = 1 := by omega
    rw [sendfileLoop, if_neg (not_le.2 hremain)]
    simp only [hn, Nat.one_ne_zero, ↓reduceIte]
    rw [sendfileLoop]
    split <;> rfl
  unfold answerFile
  simp only [hcall]
  rfl

theorem socketTakes_all {k n : Nat} (h : n ≤ k + 1) : socketTakes [.accepted k] n = true := by
  cases n with
  | zero => rfl
  | succ n =>
    have hzero : n - k = 0 := by omega
    rw [socketTakes, hzero]
    rfl

/-- The socket takes the head, and one byte of the file behind it. -/
def oneByte (size : Nat) (head : List Byte) : Env :=
  { Env.opens with sends := [.accepted head.length], sendfiles := [.moved 0], fileSize := size }

theorem answerBytes_oneByte (hfd : 0 < fd) (offset : Nat) :
    answerBytes content size head fd (.waiting offset) [oneByte size head] =
      some (head ++ if MovesFrom size offset then [content offset] else []) := by
  have htakes : socketTakes (oneByte size head).sends head.length = true :=
    socketTakes_all (Nat.le_succ _)
  rw [answerBytes, answerStep, if_neg (by omega), if_pos htakes, if_pos hfd]
  simp only [answerBytes, Option.map_some, List.append_nil]
  split
  · rename_i hmoves
    rw [← answerFile_moves hmoves]
    rfl
  · rename_i hstill
    rw [answerFile_still hstill]

/-- Different offsets show, unless nothing is moved from either. -/
theorem answerBytes_differ {offset : Nat} (hfd : 0 < fd) (hne : offset ≠ 0)
    (hsame : ∀ content, answerBytes content size head fd (.waiting offset) [oneByte size head] =
      answerBytes content size head fd (.waiting 0) [oneByte size head]) :
    ¬ MovesFrom size 0 ∧ ¬ MovesFrom size offset := by
  have hbytes := hsame fun k => if k = 0 then 1 else 0
  rw [answerBytes_oneByte hfd, answerBytes_oneByte hfd, Option.some.injEq,
    List.append_cancel_left_eq, if_neg hne] at hbytes
  by_cases hzero : MovesFrom size 0
  · rw [if_pos hzero] at hbytes
    split at hbytes
    · exact absurd hbytes (by decide)
    · cases hbytes
  · rw [if_neg hzero] at hbytes
    split at hbytes
    · cases hbytes
    · exact ⟨hzero, ‹_›⟩

end

/-! ## Two connections -/

/-- A request was read, and there are requests enough left to answer it: one for the head, and
one for a text behind it. -/
structure AtRequest (h : Handling) (ctx : Nat) : Prop where
  own : h.conn.protocolCtx = some ctx
  room : h.conn.requestCount < h.conn.maxRequestCount
  textRoom : ¬ 0 < fileOf h (h.ctxs ctx).httpReq →
    h.conn.requestCount + 1 < h.conn.maxRequestCount
  cap : h.conn.sendBuf.cap = bufferRunSize

/-- The same request for the same file. -/
structure SameTask (h : Handling) (ctx : Nat) (h' : Handling) (ctx' : Nat) : Prop where
  request : (h'.ctxs ctx').httpReq = (h.ctxs ctx).httpReq
  file : (fileOf h' (h'.ctxs ctx').httpReq).sign = (fileOf h (h.ctxs ctx).httpReq).sign

/-- The head of the response with a body of `len` bytes. -/
def announced (h : Handling) (ctx len : Nat) : Option (List Byte) :=
  match httpProtocolProcess h with
  | .error _ => none
  | .ok (h, ret) =>
    if ret = tcpProtoSend then some (headOf h.conn (h.ctxs ctx).httpRes len) else none

/-- Both emit the same, whatever the file holds and the socket takes. -/
structure SameAnswer (size : Nat) (h : Handling) (ctx : Nat) (h' : Handling) (ctx' : Nat) : Prop where
  head : ∀ len, announced h ctx len = announced h' ctx' len
  bytes : ∀ (content : Nat → Byte) (envs : List Env), (∀ env ∈ envs, env.fileSize = size) →
    (respond h envs).map (emitted content) = (respond h' envs).map (emitted content)

/-- The request is accepted, and its file is open. -/
def AsksFile (h : Handling) (ctx : Nat) : Prop :=
  httpProtcolCheck (some (h.ctxs ctx)) = 0 ∧ 0 < fileOf h (h.ctxs ctx).httpReq

/-- The offset that the last response has left does not matter. -/
def StartsFresh (size : Nat) (h : Handling) (ctx : Nat) : Prop :=
  (h.ctxs ctx).httpRes.bodyOff = 0 ∨ ¬ AsksFile h ctx ∨
    ¬ MovesFrom size 0 ∧ ¬ MovesFrom size (h.ctxs ctx).httpRes.bodyOff

section

variable {size : Nat} {h h' h'' : Handling} {ctx ctx' ctx'' : Nat}

theorem SameAnswer.symm (s : SameAnswer size h ctx h' ctx') : SameAnswer size h' ctx' h ctx :=
  ⟨fun len => (s.head len).symm, fun content envs he => (s.bytes content envs he).symm⟩

theorem SameAnswer.trans (s : SameAnswer size h ctx h' ctx') (s' : SameAnswer size h' ctx' h'' ctx'') :
    SameAnswer size h ctx h'' ctx'' :=
  ⟨fun len => (s.head len).trans (s'.head len),
    fun content envs he => (s.bytes content envs he).trans (s'.bytes content envs he)⟩

/-- The answer to an accepted request is waiting to be written. -/
theorem AtRequest.shows {g : Handling} (a : AtRequest h ctx)
    (hcheck : httpProtcolCheck (some (h.ctxs ctx)) = 0) (hanswered : Answered h ctx g) :
    Shows size (headOf g.conn (g.ctxs ctx).httpRes
      (if 0 < (fileOf h (h.ctxs ctx).httpReq).sign then size else 0))
      (fileOf h (h.ctxs ctx).httpReq).sign ctx ⟨g, none, []⟩
      (.waiting (h.ctxs ctx).httpRes.bodyOff) := by
  have hreply := replyTo_reply (h.ctxs ctx).httpReq (fileOf h (h.ctxs ctx).httpReq)
    (h.ctxs ctx).httpRes
  have hres : (g.ctxs ctx).httpRes = replyTo (h.ctxs ctx).httpReq
      (fileOf h (h.ctxs ctx).httpReq) (h.ctxs ctx).httpRes := by rw [hanswered.own]
  have hfd : (g.ctxs ctx).httpRes.bodyFd = fileOf h (h.ctxs ctx).httpReq := by
    rw [hres]
    exact replyTo_fileOf (httpProtcolCheck_eq_zero.1 hcheck).1.path
  rw [← hres] at hreply
  have hshows : Shows size (headOf g.conn (g.ctxs ctx).httpRes
      (if 0 < (fileOf h (h.ctxs ctx).httpReq).sign then size else 0))
      (fileOf h (h.ctxs ctx).httpReq).sign ctx ⟨g, none, []⟩
      (.waiting (g.ctxs ctx).httpRes.bodyOff) := by
    have hroom := a.room
    apply Shows.waiting
    · constructor
      · rw [hanswered.conn]
        exact a.own
      · exact hreply.sendSt
      · exact hreply.routed
      · rw [hanswered.conn]
        exact Nat.le_of_lt hroom
      · rw [hanswered.conn]
        exact a.cap
    · simp only [hanswered.conn]
      exact hroom
    · simp only [hanswered.conn]
      exact fun hnofile => a.textRoom fun hfile => hnofile (Int.sign_pos_iff.2 hfile)
    · rw [hfd]
    · exact hreply.text
    · rfl
  rw [hreply.bodyOff] at hshows
  exact hshows

/-- An accepted request is answered from the offset that is there. -/
theorem AtRequest.respond (a : AtRequest h ctx) (hcheck : httpProtcolCheck (some (h.ctxs ctx)) = 0)
    (hlarge : size < 2 ^ 63) :
    ∃ g, httpProtocolProcess h = .ok (g, tcpProtoSend) ∧ Answered h ctx g ∧
      ∀ (content : Nat → Byte) (envs : List Env), (∀ env ∈ envs, env.fileSize = size) →
        (respond h envs).map (emitted content) =
          answerBytes content size (headOf g.conn (g.ctxs ctx).httpRes
            (if 0 < (fileOf h (h.ctxs ctx).httpReq).sign then size else 0))
            (fileOf h (h.ctxs ctx).httpReq).sign (.waiting (h.ctxs ctx).httpRes.bodyOff) envs := by
  obtain ⟨g, hproc, hanswered⟩ := httpProtocolProcess_answers_with a.own hcheck
  refine ⟨g, hproc, hanswered, fun content envs he => ?_⟩
  have hrun := (a.shows hcheck hanswered).run content envs he hlarge
  simp only [PingServer.respond, hproc, ↓reduceIte, Option.map_map]
  rw [Function.comp_def, hrun]
  exact Option.map_id'

theorem SameTask.check (t : SameTask h ctx h' ctx') :
    httpProtcolCheck (some (h'.ctxs ctx')) = httpProtcolCheck (some (h.ctxs ctx)) := by
  simp only [httpProtcolCheck, t.request]

theorem SameTask.headOf_eq {g g' : Handling} (t : SameTask h ctx h' ctx') (a : Answered h ctx g)
    (a' : Answered h' ctx' g') (len : Nat) :
    headOf g'.conn (g'.ctxs ctx').httpRes len = headOf g.conn (g.ctxs ctx).httpRes len := by
  have halike := @replyTo_alike (h.ctxs ctx).httpReq (fileOf h (h.ctxs ctx).httpReq)
    (fileOf h' (h'.ctxs ctx').httpReq) (h.ctxs ctx).httpRes (h'.ctxs ctx').httpRes t.file
  simp only [headOf, a.own, a'.own, a.conn, a'.conn, t.request]
  rw [← t.request] at halike ⊢
  rw [halike.status, halike.contentType]

/-- A request that is refused is not written to. -/
theorem AtRequest.refused (a : AtRequest h ctx)
    (hcheck : httpProtcolCheck (some (h.ctxs ctx)) ≠ 0) :
    (∀ envs, PingServer.respond h envs = some []) ∧ ∀ len, announced h ctx len = none := by
  have hne : tcpProtoClose ≠ tcpProtoSend := by decide
  have hproc := httpProtocolProcess_refuses a.own hcheck
  constructor
  · intro envs
    simp only [PingServer.respond, hproc, if_neg hne]
  · intro len
    simp only [announced, hproc, if_neg hne]

/-- A response is that of a fresh context just when the offset left over does not matter. -/
theorem sameAnswer_fresh_iff (a : AtRequest h ctx) (a' : AtRequest h' ctx')
    (t : SameTask h ctx h' ctx') (hfresh : (h'.ctxs ctx').httpRes.bodyOff = 0)
    (hlarge : size < 2 ^ 63) : SameAnswer size h ctx h' ctx' ↔ StartsFresh size h ctx := by
  by_cases hcheck : httpProtcolCheck (some (h.ctxs ctx)) = 0
  · obtain ⟨g, hproc, hanswered, hbytes⟩ := a.respond hcheck hlarge
    obtain ⟨g', hproc', hanswered', hbytes'⟩ := a'.respond (t.check.trans hcheck) hlarge
    have hhead := t.headOf_eq hanswered hanswered'
    rw [t.file, hfresh, hhead] at hbytes'
    constructor
    · intro hsame
      by_cases hzero : (h.ctxs ctx).httpRes.bodyOff = 0
      · exact .inl hzero
      by_cases hasks : AsksFile h ctx
      · right
        right
        apply answerBytes_differ (Int.sign_pos_iff.2 hasks.2) hzero
        intro content
        rw [← hbytes, ← hbytes']
        · apply hsame.bytes
          intro env henv
          rw [List.mem_singleton.1 henv]
          rfl
        · intro env henv
          rw [List.mem_singleton.1 henv]
          rfl
        · intro env henv
          rw [List.mem_singleton.1 henv]
          rfl
      · exact .inr (.inl hasks)
    · intro hstarts
      constructor
      · intro len
        simp only [announced, hproc, hproc', ↓reduceIte, hhead]
      · intro content envs henvs
        rw [hbytes content envs henvs, hbytes' content envs henvs]
        apply answerBytes_same
        obtain hzero | hasks | ⟨hstill, hstill'⟩ := hstarts
        · exact .inl hzero
        · exact .inr (.inl fun hpos => hasks ⟨hcheck, Int.sign_pos_iff.1 hpos⟩)
        · exact .inr (.inr ⟨hstill', hstill⟩)
  · obtain ⟨hnone, hhead⟩ := a.refused hcheck
    obtain ⟨hnone', hhead'⟩ := a'.refused (t.check ▸ hcheck)
    apply iff_of_true
    · exact ⟨fun len => (hhead len).trans (hhead' len).symm,
        fun content envs _ => by rw [hnone, hnone']⟩
    · exact .inr (.inl fun hasks => hcheck hasks.1)

end

/-- The responses of two connections to one request are the same, and that of a fresh
context, just when neither shows the offset left over. -/
theorem response_independent_iff {size : Nat} {h₁ h₂ fresh : Handling} {c₁ c₂ c : Nat}
    (a₁ : AtRequest h₁ c₁) (a₂ : AtRequest h₂ c₂) (a : AtRequest fresh c)
    (t₁ : SameTask h₁ c₁ fresh c) (t₂ : SameTask h₂ c₂ fresh c)
    (hfresh : (fresh.ctxs c).httpRes = HttpContext.zero.httpRes) (hsize : size < 2 ^ 63) :
    SameAnswer size h₁ c₁ h₂ c₂ ∧ SameAnswer size h₁ c₁ fresh c ↔
      StartsFresh size h₁ c₁ ∧ StartsFresh size h₂ c₂ := by
  have hoff : (fresh.ctxs c).httpRes.bodyOff = 0 := by
    rw [hfresh]
    rfl
  rw [← sameAnswer_fresh_iff a₁ a t₁ hoff hsize, ← sameAnswer_fresh_iff a₂ a t₂ hoff hsize]
  constructor
  · rintro ⟨hpair, hzero⟩
    exact ⟨hzero, hpair.symm.trans hzero⟩
  · rintro ⟨hzero, hzero'⟩
    exact ⟨hzero.trans hzero'.symm, hzero⟩

/-! ## Two requests for one file -/

def homeAsked : HttpRequest := ⟨utf8 "GET", utf8 "/", 0, [⟨utf8 "Host", utf8 "h"⟩], 0, 1⟩

/-- The request for `/` was read in two pieces, after `res`. Behind a first request that comes in
one piece the server hangs up. -/
def askingHome (res : HttpResponse) : Handling :=
  let h := Handling.fresh ⟨homeAsked, res⟩ Env.opens
  { h with conn := { h.conn with
    requestCount := 2, maxRequestCount := connectionRequestCount
    sendBuf := { h.conn.sendBuf with cap := bufferRunSize } } }

theorem askingHome_atRequest (res : HttpResponse) : AtRequest (askingHome res) 0 :=
  ⟨rfl, show 2 < connectionRequestCount by decide,
    fun _ => show 2 + 1 < connectionRequestCount by decide, rfl⟩

theorem askingHome_sameTask (res res' : HttpResponse) :
    SameTask (askingHome res) 0 (askingHome res') 0 := ⟨rfl, rfl⟩

/-- Behind an error page, and behind a response that was broken off in its head. -/
theorem response_independent_home :
    SameAnswer 10 (askingHome (httpResponseSet HttpContext.zero.httpRes 404 none)) 0
        (askingHome { HttpContext.zero.httpRes with bodyFd := 9, sendSt := .error }) 0 ∧
      SameAnswer 10 (askingHome (httpResponseSet HttpContext.zero.httpRes 404 none)) 0
        (askingHome HttpContext.zero.httpRes) 0 :=
  (response_independent_iff (askingHome_atRequest _) (askingHome_atRequest _)
    (askingHome_atRequest _) (askingHome_sameTask _ _) (askingHome_sameTask _ _) rfl
    (by decide)).2 ⟨.inl rfl, .inl rfl⟩

/-- The first response of a kept-alive connection is complete, and `req` was read behind it. -/
structure NextRequest (size : Nat) (first : Handling) (ctx : Nat) (req : HttpRequest)
    (h : Handling) : Prop where
  zero : (first.ctxs ctx).httpRes = HttpContext.zero.httpRes
  room : AtRequest first ctx
  reached : ∃ g w, httpProtocolProcess first = .ok (g, tcpProtoSend) ∧
    Machine.Reaches (Machine.graph writeStep) (fun _ env => env.fileSize = size) ⟨g, none, []⟩ w ∧
    w.ret = some connSendDone ∧ w.handling.conn.isKeepAlive = true ∧ h = w.handling.setReq ctx req

/-- The first response for `/`, in one write event. -/
def answeredHome : Option Writing :=
  match httpProtocolProcess (askingHome HttpContext.zero.httpRes) with
  | .error _ => none
  | .ok (g, _) => Machine.run writeStep ⟨g, none, []⟩ [Env.opens]

/-- The file of a second request for it is not sent, behind a first that came in two pieces. -/
theorem second_response_empty : ¬ ∀ (size : Nat) (first h fresh : Handling) (ctx c : Nat)
    (req : HttpRequest), size < 2 ^ 63 → NextRequest size first ctx req h → AtRequest h ctx →
    AtRequest fresh c → (fresh.ctxs c).httpRes = HttpContext.zero.httpRes →
    SameTask h ctx fresh c → SameAnswer size h ctx fresh c := by
  intro hall
  have hfirst := askingHome_atRequest HttpContext.zero.httpRes
  have hcheck : httpProtcolCheck (some ((askingHome HttpContext.zero.httpRes).ctxs 0)) = 0 := by
    decide +kernel
  obtain ⟨g, hproc, -⟩ := httpProtocolProcess_answers_with hfirst.own hcheck
  have hend : answeredHome.any (fun w => decide (w.ret = some connSendDone ∧
      w.handling.conn.isKeepAlive = true ∧ w.handling.conn.protocolCtx = some 0 ∧
      w.handling.conn.requestCount = 3 ∧ w.handling.conn.maxRequestCount = connectionRequestCount ∧
      w.handling.conn.sendBuf.cap = bufferRunSize ∧
      fileOf (w.handling.setReq 0 homeAsked) homeAsked = 7 ∧
      ((w.handling.setReq 0 homeAsked).ctxs 0).httpReq = homeAsked ∧
      ((w.handling.setReq 0 homeAsked).ctxs 0).httpRes.bodyOff = 20)) = true := by decide +kernel
  unfold answeredHome at hend
  rw [hproc] at hend
  obtain ⟨w, hrun, hfacts⟩ := (Option.any_eq_true _ _).1 hend
  obtain ⟨hdone, hkeep, hown, hcount, hmax, hcap, hfile, hreq, hoff⟩ := of_decide_eq_true hfacts
  have hallowed : Machine.allowedAlong writeStep (fun _ env => env.fileSize = 10) ⟨g, none, []⟩
      [Env.opens] := ⟨rfl, fun _ _ => trivial⟩
  have hnext : NextRequest 10 (askingHome HttpContext.zero.httpRes) 0 homeAsked
      (w.handling.setReq 0 homeAsked) :=
    ⟨rfl, hfirst, g, w, hproc, Machine.reaches_of_run hallowed hrun, hdone, hkeep, rfl⟩
  have hroom : AtRequest (w.handling.setReq 0 homeAsked) 0 := by
    have hleft : w.handling.conn.requestCount + 1 < w.handling.conn.maxRequestCount := by
      rw [hcount, hmax]
      decide
    exact ⟨hown, Nat.lt_of_succ_lt hleft, fun _ => hleft, hcap⟩
  have htask : SameTask (w.handling.setReq 0 homeAsked) 0 (askingHome HttpContext.zero.httpRes) 0 := by
    have hfresh : fileOf (askingHome HttpContext.zero.httpRes) homeAsked = 7 := by decide +kernel
    refine ⟨hreq.symm, ?_⟩
    rw [hreq, hfile, ← hfresh]
    rfl
  have hsame := hall 10 _ _ _ 0 0 _ (by decide) hnext hroom hfirst rfl htask
  obtain hzero | hasks | ⟨hstill, -⟩ := (sameAnswer_fresh_iff hroom hfirst htask rfl (by decide)).1 hsame
  · rw [hoff] at hzero
    cases hzero
  · apply hasks
    refine ⟨htask.check.symm.trans hcheck, ?_⟩
    rw [hreq, hfile]
    decide
  · exact hstill (by decide)

end PingServer
