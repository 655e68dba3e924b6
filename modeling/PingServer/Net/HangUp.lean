import PingServer.Net.Lifetime

/-!
# Hanging up

What was handed to the socket when `is_close_connection` ends a connection. It is asked
behind a read event too, where an answer was not even begun, and behind the first write
event it takes an idle connection for a finished one.
-/

namespace PingServer

open ByteMem Machine

/-! ## Whole answers -/

/-- Every byte of the answer was handed over: its head, and its text or its file. -/
def Answering.Delivered (a : Answering) : Prop :=
  ∃ ctx, a.handling.conn.protocolCtx = some ctx ∧
    sentBytes a.out = headOf a.handling.conn (a.handling.ctxs ctx).httpRes
      (a.handling.ctxs ctx).httpRes.bodyLen ++ (a.handling.ctxs ctx).httpRes.body.getD [] ∧
    (0 < (a.handling.ctxs ctx).httpRes.bodyFd →
      Covered (movedRanges a.out) (a.handling.ctxs ctx).httpRes.bodyLen)

/-- An answer has a head. -/
theorem Answering.unbegun {a : Answering} (hout : a.out = []) : ¬ a.Delivered := by
  rintro ⟨ctx, -, hsent, -⟩
  rw [hout] at hsent
  have hpos := headText_pos (a.handling.ctxs ctx).httpRes.statusCode
    ((a.handling.ctxs ctx).httpRes.contentType.getD contentTxt) (a.handling.ctxs ctx).httpRes.bodyLen
    (if a.handling.conn.isKeepAlive then utf8 "keep-alive" else utf8 "close")
  have hnone := (List.append_eq_nil_iff.1 hsent.symm).1
  unfold headOf at hnone
  rw [hnone] at hpos
  exact absurd hpos (by decide)

/-- A file of `len` bytes is moved by the first `sendfile` that is not interrupted. -/
def MovesFile (len : Nat) (env : Env) : Prop :=
  len = 0 ∨ len < 2 ^ 31 ∧ movesAtOnce len 0 len env.sendfiles = true

/-- The event leaves every answer time: no request is accepted by a loaded server or from a client
that does not keep its connection, and no write comes to a loaded server or hands the first file
of a connection over in part, unless its head fails. -/
def LeavesAnswered (parse : Parser) (max : Nat) (l : Lifetime) : LifeEvent → Prop
  | .session (.read current env) =>
    let h := l.handling.atEvent env
    h.conn.requestCount ≠ h.conn.maxRequestCount → h.conn.readBuf.len ≠ h.conn.readBuf.cap →
      h.received.Completes parse → h.received.check parse = 0 →
      current < max / 10 * 9 ∧ (h.received.complete parse).minorVersion ≠ 0
  | .session (.write current env) => env.fileSize < 2 ^ 63 ∧ current < max / 10 * 9 ∧
      ∀ ctx, l.handling.conn.protocolCtx = some ctx → l.handling.conn.requestCount ≤ 1 →
        0 < (l.handling.ctxs ctx).httpRes.bodyFd → MovesFile env.fileSize env ∨
          socketTakes env.sends
            (headOf l.handling.conn (l.handling.ctxs ctx).httpRes env.fileSize).length = false
  | _ => True

/-! ## The first write -/

theorem MovesFile.covers {len : Nat} {env : Env} (hmoves : MovesFile len env) (hsize : env.fileSize = len) :
    Covered (connectionSendFd env.fileSize env.sendfiles 0 (len % 2 ^ 32)).moved len := by
  obtain rfl | ⟨hlen, hmoves⟩ := hmoves
  · exact .zero _
  · by_cases hempty : len = 0
    · rw [hempty]
      exact .zero _
    · have hremain : int32 (((len % 2 ^ 32 : Nat) : Int) - (0 : Nat)) = len := by
        rw [int32_eq (by omega) (by omega)]
        omega
      obtain ⟨rest, hloop⟩ := sendfileLoop_atOnce (Nat.pos_of_ne_zero hempty) env.sendfiles hmoves
      rw [connectionSendFd, hremain, hsize, hloop]
      intro k hk
      exact ⟨(0, len), List.mem_cons_self, Nat.zero_le k, by omega⟩

theorem HeadPassed.whole {conn conn' : Connection} {sends : List SendOutcome}
    {head bytes : List Byte} (hpassed : HeadPassed conn sends head conn' bytes)
    (hroom : conn.requestCount ≠ conn.maxRequestCount) : socketTakes sends head.length = true ∧
      bytes = head ∧ conn'.requestCount = conn.requestCount + 1 := by
  cases hpassed with
  | full hfull => exact absurd hfull hroom
  | taken _ htakes hcount => exact ⟨htakes, rfl, hcount⟩

/-- Behind a whole head, a write that is not the last hands over a file that moves at once. -/
theorem BodyCase.delivers {h : Handling} {ctx : Nat} {r : Handling × Int} (hcase : BodyCase h ctx r)
    (hown : h.conn.protocolCtx = some ctx) (hroom : h.conn.requestCount ≠ h.conn.maxRequestCount)
    (htext : (h.ctxs ctx).httpRes.body.isSome = true → (h.ctxs ctx).httpRes.bodyFd < 0)
    (hoff : (h.ctxs ctx).httpRes.bodyOff = 0)
    (hsent : sentBytes h.trace = headOf h.conn (h.ctxs ctx).httpRes (h.ctxs ctx).httpRes.bodyLen)
    (hfile : 0 < (h.ctxs ctx).httpRes.bodyFd →
      h.env.fileSize = (h.ctxs ctx).httpRes.bodyLen ∧ MovesFile (h.ctxs ctx).httpRes.bodyLen h.env) :
    Answering.Delivered ⟨r.1, r.1.trace⟩ := by
  have hconn := hcase.conn
  obtain ⟨off, hres⟩ := hcase.httpRes
  have hhead : ∀ len, headOf r.1.conn (r.1.ctxs ctx).httpRes len =
      headOf h.conn (h.ctxs ctx).httpRes len := by
    intro len
    rw [hconn, hres]
    rfl
  refine ⟨ctx, hconn ▸ hown, ?_⟩
  simp only [hhead]
  rw [hres]
  cases hcase with
  | file hpos =>
    obtain ⟨hsize, hmoves⟩ := hfile hpos
    have hnone : (h.ctxs ctx).httpRes.body = Option.none := by
      by_contra hsome
      have hneg := htext (Option.isSome_iff_ne_none.2 hsome)
      omega
    rw [Handling.sendFd_trace, sentBytes_append, movedRanges_append, hnone, hoff]
    constructor
    · exact congrArg (· ++ []) hsent
    · intro _ k hk
      obtain ⟨range, hmem, hin⟩ := hmoves.covers hsize k hk
      exact ⟨range, List.mem_append_right _ (List.mem_append_left _ hmem), hin⟩
  | text _ _ hfull => exact absurd hfull hroom
  | none hnofile hnone =>
    simp only [hnone]
    exact ⟨hsent.trans (List.append_nil _).symm, fun hpos => by omega⟩

/-! ## Runs -/

/-- A connection that was hung up has answered everything. -/
structure AnsweredFirst (l : Lifetime) : Prop extends l.Kept where
  answered : l.ending = some .hangUp → ∀ a ∈ l.answers, a.Delivered

section

variable {parse : Parser} {current max : Nat} {env : Env} {l l' : Lifetime} {e : LifeEvent}

theorem ReadLife.answered (hcase : ReadLife parse current max env l l')
    (hok : LeavesAnswered parse max l (.session (.read current env))) : l'.ending ≠ some .hangUp := by
  cases hcase with
  | idle h ending _ hending =>
    rintro rfl
    obtain hnone | hdropped := hending
    · cases hnone
    · cases hdropped
  | refused h ctx fd before => exact fun hhung => by cases hhung
  | accepted h hung _ hrecv hall hcheck hwhy =>
    obtain ⟨hload, hversion⟩ := hok hrecv.room hrecv.fits hall hcheck
    cases hung with
    | false => exact fun hhung => by cases hhung
    | true =>
      obtain hloaded | hzero := hwhy rfl
      · omega
      · exact absurd hzero hversion

theorem WriteLife.answered (hsender : Sender l.handling.conn)
    (hcase : WriteLife current max env l l')
    (hok : LeavesAnswered parse max l (.session (.write current env)))
    (hhung : l'.ending = some .hangUp) : ∀ a ∈ l'.answers, a.Delivered := by
  obtain ⟨-, hload, hmoves⟩ := hok
  cases hcase with
  | refused => cases hhung
  | passed ctx len conn rest bytes r g answers hung hanswers hown hwait hrouted htext hlen hpassed
      hsame hbody hwhy =>
    -- below the load only a connection with its first answer is hung up
    obtain ⟨hfew, rfl, hoff⟩ : l.handling.conn.requestCount ≤ 1 ∧ answers = [] ∧
        (l.handling.ctxs ctx).httpRes.bodyOff = 0 := by
      cases hung with
      | false => cases hhung
      | true => exact (hwhy rfl).resolve_left (by omega)
    have hmax := hsender.max
    have hmax' := hsame.max
    simp only [connectionRequestCount] at hmax
    obtain ⟨htakes, rfl, hcount⟩ := hpassed.whole (by omega)
    have hfile : 0 < (l.handling.ctxs ctx).httpRes.bodyFd → env.fileSize = len ∧ MovesFile len env := by
      intro hpos
      obtain rfl := hlen hpos
      refine ⟨rfl, (hmoves ctx hown hfew hpos).resolve_right fun hrefused => ?_⟩
      rw [htakes] at hrefused
      cases hrefused
    intro a ha
    rw [List.mem_singleton.1 ha]
    apply hbody.delivers
    · exact hsame.hold.ctx.trans hown
    · show conn.requestCount ≠ conn.maxRequestCount
      omega
    · rw [Handling.answering_httpRes]
      exact hrouted.text
    · rw [Handling.answering_httpRes]
      exact hoff
    · rw [Handling.answering_httpRes]
      show _ ++ [] = headOf conn { (l.handling.ctxs ctx).httpRes with bodyLen := len, sendSt := .body } len
      rw [headOf_begun hsame, List.append_nil]
    · rw [Handling.answering_httpRes]
      exact hfile
  | body ctx r a answers hung _ _ _ _ hwhy =>
    cases hung with
    | false => cases hhung
    | true => exact absurd (hwhy rfl) (by omega)

theorem AnsweredFirst.step (hl : AnsweredFirst l) (hok : LeavesAnswered parse max l e)
    (hstep : lifeStep parse max l e = some l') : AnsweredFirst l' := by
  have hsize : e.Sized := by
    cases e with
    | session e =>
      cases e with
      | write current env => exact hok.1
      | read | others => trivial
    | error | close => trivial
  obtain ⟨hcase, hkept⟩ := lifeStep_cases hl.toKept hsize hstep
  refine ⟨hkept, fun hhung => ?_⟩
  cases hcase with
  | read current env _ hopen hread => exact absurd hhung (hread.answered hok)
  | write current env _ hopen hwrite => exact hwrite.answered (hl.sender hopen) hok hhung
  | others | close => exact hl.answered hhung
  | error => cases hhung

end

/-! ## Two connections -/

theorem acceptedSession_justCreated : JustCreated acceptedSession.conn := by
  constructor <;> decide +kernel

/-- The request for `/`, and the write that sends the whole file. -/
def homeAtOnce : List LifeEvent := [.session (chunkRead homeGet), .session (.write 1 Env.opens)]

/-- The server holds less than nine tenths of its connections. -/
def LifeEvent.LowLoad (max : Nat) : LifeEvent → Prop
  | .session (.read current _) | .session (.write current _) => 10 * current < 9 * max
  | _ => True

/-- A parser that takes everything for a request for `/` without keep-alive. -/
def homeOnce : Parser := fun buf _ => ⟨buf.length, utf8 "GET", utf8 "/", 0, []⟩

/-- A request without keep-alive. -/
def onceGet : List LifeEvent := [.session (chunkRead (utf8 "GET / HTTP/1.0\r\n\r\n"))]

end PingServer
