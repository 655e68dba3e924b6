import PingServer.Protocol.WriteRun
import PingServer.Route.Reply

/-!
# The announced length

`http_protocol_write` takes the length of a body from `fstat` whenever `body_fd` is not 0.
The router leaves -1 there for a string, so an error page is announced with length 0, and
a file on descriptor 0 is measured as a string that is not there.
-/

namespace PingServer

open ByteMem

/-! ## The announced length -/

/-- The length of the body that the router has selected: of the string, or of the file. -/
def selectedLength (h : Handling) (res : HttpResponse) : Nat :=
  match res.body with
  | some body => (cString body).length
  | none => h.env.fileSize

/-- The head that `http_protocol_write` prints for a new response, and the `body_len` that
it stores. -/
def formatHead (h : Handling) (ctx : Nat) : Except Fault (List Byte × Nat) :=
  match bodyLength h (h.ctxs ctx).httpRes with
  | .error f => .error f
  | .ok len => .ok (headOf h.conn (h.ctxs ctx).httpRes len, len)

/-- The head announces a body of `n` bytes, `body_len` is `n`, and so is the 32-bit length
that the body is sent with. -/
structure BodyAnnounced (h : Handling) (ctx n : Nat) : Prop where
  formats : formatHead h ctx = .ok (headOf h.conn (h.ctxs ctx).httpRes n, n)
  sends : n % 2 ^ 32 = n

/-! ## The first write -/

section

variable {h : Handling} {ctx : Nat}

/-- The first write of a response sends what was formatted, and stops where that fails. -/
theorem httpProtocolWrite_formats (hctx : h.conn.protocolCtx = some ctx)
    (hst : (h.ctxs ctx).httpRes.sendSt = .wait) :
    (∃ f, formatHead h ctx = .error f ∧ httpProtocolWrite h = .error f) ∨
      ∃ text len g, formatHead h ctx = .ok (text, len) ∧ httpProtocolWrite h = sendHead g ctx ∧
        g.conn.sendBuf = (bufferClean h.conn.sendBuf).print text ∧
        (g.ctxs ctx).httpRes.bodyLen = len := by
  have hres := h.begun_httpRes ctx
  have hlength : bodyLength (h.begun ctx) ((h.begun ctx).ctxs ctx).httpRes =
      bodyLength h (h.ctxs ctx).httpRes := by
    rw [hres]
    rfl
  rw [httpProtocolWrite_wait hctx hst]
  unfold startResponse formatHead
  rw [hlength]
  cases bodyLength h (h.ctxs ctx).httpRes with
  | error f => exact .inl ⟨f, rfl, rfl⟩
  | ok len =>
    refine .inr ⟨_, len, (h.begun ctx).printed ctx len, rfl, ?_, ?_, ?_⟩
    · simp only [Handling.setRes_httpRes]
      rfl
    · rw [Handling.printed_conn, hres]
      rfl
    · rw [Handling.printed_httpRes]

/-! ## Every reply -/

theorem page404_pos : 0 < (cString page404).length := by decide +kernel

theorem bodyAnnounced_iff {n : Nat} : BodyAnnounced h ctx n ↔
    bodyLength h (h.ctxs ctx).httpRes = .ok n ∧ n < 2 ^ 32 := by
  have hword : n % 2 ^ 32 = n ↔ n < 2 ^ 32 := by omega
  constructor
  · rintro ⟨hformats, hsends⟩
    refine ⟨?_, hword.1 hsends⟩
    unfold formatHead at hformats
    split at hformats
    · cases hformats
    · rename_i len hlen
      have heq : len = n := congrArg Prod.snd (Except.ok.inj hformats)
      rw [hlen, heq]
  · rintro ⟨hlen, hless⟩
    refine ⟨?_, hword.2 hless⟩
    unfold formatHead
    rw [hlen]

theorem Reply.announced_iff {fd : Int} {res : HttpResponse}
    (hreply : Reply fd res (h.ctxs ctx).httpRes) :
    BodyAnnounced h ctx (selectedLength h (h.ctxs ctx).httpRes) ↔
      0 < (h.ctxs ctx).httpRes.bodyFd ∧ h.env.fileSize < 2 ^ 32 := by
  rw [bodyAnnounced_iff]
  generalize (h.ctxs ctx).httpRes = reply at hreply
  cases hreply with
  | page st _ =>
    constructor
    · rintro ⟨hlen, -⟩
      -- the page is measured as a file that is not open
      have hzero : 0 = (cString page404).length := Except.ok.inj hlen
      exact absurd hzero (Nat.ne_of_lt page404_pos)
    · rintro ⟨hfd, -⟩
      exact absurd hfd (by decide : ¬ (0 : Int) < -1)
  | file name hfd =>
    have hselected : selectedLength h
        (httpResponseSet { res with bodyFd := fd, sendSt := .wait } 200 (some name)) =
          h.env.fileSize := rfl
    have hfile : (httpResponseSet { res with bodyFd := fd, sendSt := .wait } 200 (some name)).bodyFd =
        fd := rfl
    rw [hselected, hfile]
    unfold bodyLength
    rw [hfile]
    obtain hpos | hzero := Int.lt_or_eq_of_le hfd
    · rw [if_pos (by omega), if_neg (by omega)]
      exact ⟨fun hboth => ⟨hpos, hboth.2⟩, fun hboth => ⟨rfl, hboth.2⟩⟩
    · rw [if_neg (by omega)]
      constructor
      · rintro ⟨hlen, -⟩
        cases hlen
      · rintro ⟨hless, -⟩
        exact absurd hless (by omega)

/-- The response to a request that passes the check announces the length of its body, and
sends it with that length, exactly if the body is a file below 2^32 bytes that is open on a
descriptor other than 0. -/
theorem content_length_iff {g : Handling} (hctx : h.conn.protocolCtx = some ctx)
    (hcheck : httpProtcolCheck (some (h.ctxs ctx)) = 0)
    (hproc : httpProtocolProcess h = .ok (g, tcpProtoSend)) (env : Env) :
    BodyAnnounced (g.atEvent env) ctx (selectedLength (g.atEvent env) (g.ctxs ctx).httpRes) ↔
      0 < fileOf h (h.ctxs ctx).httpReq ∧ env.fileSize < 2 ^ 32 := by
  obtain ⟨g', hproc', hanswered⟩ := httpProtocolProcess_answers_with hctx hcheck
  rw [hproc] at hproc'
  cases hproc'
  have hres : (g.ctxs ctx).httpRes =
      replyTo (h.ctxs ctx).httpReq (fileOf h (h.ctxs ctx).httpReq) (h.ctxs ctx).httpRes := by
    rw [hanswered.own]
  have hreply : Reply (fileOf h (h.ctxs ctx).httpReq) (h.ctxs ctx).httpRes
      ((g.atEvent env).ctxs ctx).httpRes := by
    have hsame : ((g.atEvent env).ctxs ctx).httpRes = (g.ctxs ctx).httpRes := rfl
    rw [hsame, hres]
    exact replyTo_reply _ _ _
  have hfd : (g.ctxs ctx).httpRes.bodyFd = fileOf h (h.ctxs ctx).httpReq := by
    rw [hres, replyTo_fileOf (httpProtcolCheck_eq_zero.1 hcheck).1.path]
  have hiff := hreply.announced_iff
  have hsame : ((g.atEvent env).ctxs ctx).httpRes = (g.ctxs ctx).httpRes := rfl
  rw [hsame, hfd] at hiff
  exact hiff

end

/-! ## Two requests -/

/-- A request for `path` has been read. -/
def asking (path : List Byte) : Handling :=
  .fresh { HttpContext.zero with
    httpReq := ⟨utf8 "GET", path, 0, [⟨utf8 "Host", utf8 "h"⟩], 0, 1⟩ } .opens

/-- The home page is there. -/
theorem content_length_home : ∃ g, httpProtocolProcess (asking (utf8 "/")) = .ok (g, tcpProtoSend) ∧
    BodyAnnounced (g.atEvent .opens) 0
      (selectedLength (g.atEvent .opens) (g.ctxs 0).httpRes) := by
  have hcheck : httpProtcolCheck (some ((asking (utf8 "/")).ctxs 0)) = 0 := by decide
  obtain ⟨g, hproc, -⟩ := httpProtocolProcess_answers_with (h := asking (utf8 "/")) rfl hcheck
  exact ⟨g, hproc, (content_length_iff rfl hcheck hproc .opens).2
    ⟨by decide +kernel, by decide⟩⟩

/-- A path without a route is answered with a page, and the page with length 0. -/
theorem page_announced_empty : ¬ ∀ (h g : Handling) (ctx : Nat) (env : Env),
    h.conn.protocolCtx = some ctx → httpProtcolCheck (some (h.ctxs ctx)) = 0 →
      httpProtocolProcess h = .ok (g, tcpProtoSend) → BodyAnnounced (g.atEvent env) ctx
        (selectedLength (g.atEvent env) (g.ctxs ctx).httpRes) := by
  intro hall
  have hcheck : httpProtcolCheck (some ((asking (utf8 "/x")).ctxs 0)) = 0 := by decide
  obtain ⟨g, hproc, hanswered⟩ :=
    httpProtocolProcess_answers_with (h := asking (utf8 "/x")) rfl hcheck
  have hreply : (g.ctxs 0).httpRes.body = some page404 ∧ (g.ctxs 0).httpRes.bodyFd = -1 := by
    rw [hanswered.own]
    decide +kernel
  obtain ⟨hlen, -⟩ := bodyAnnounced_iff.1 (hall _ g 0 .opens rfl hcheck hproc)
  have hsame : ((g.atEvent .opens).ctxs 0).httpRes = (g.ctxs 0).httpRes := rfl
  have hselected : selectedLength (g.atEvent .opens) (g.ctxs 0).httpRes =
      (cString page404).length := by
    unfold selectedLength
    rw [hreply.1]
  have hzero : bodyLength (g.atEvent .opens) (g.ctxs 0).httpRes = .ok 0 := by
    unfold bodyLength
    rw [hreply.2]
    rfl
  rw [hsame, hselected, hzero] at hlen
  exact absurd (Except.ok.inj hlen) (Nat.ne_of_lt page404_pos)

end PingServer
