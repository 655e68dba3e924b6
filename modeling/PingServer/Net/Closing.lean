import PingServer.Net.HangUp

/-!
# What closing adds

Status lines on the socket of one connection, and what its close path writes. The path writes
the last ack, and a head in front of it once there is a context, whatever was answered before; a
rejected request gets that head twice.
-/

namespace PingServer

open ByteMem Machine

/-! ## Status lines -/

/-- The bytes start with a whole status line. -/
def startsResponse (bytes : List Byte) : Bool :=
  (utf8 "HTTP/1.").isPrefixOf bytes && bytes.contains (ch '\n')

def okStatusLine : List Byte := utf8 "HTTP/1.1 200 OK\r\n"

def Action.statusLine : Action → Bool
  | .send _ bytes => startsResponse bytes
  | _ => false

def Action.okLine : Action → Bool
  | .send _ bytes => okStatusLine.isPrefixOf bytes
  | _ => false

/-- Every request was accepted, and answered. -/
def Lifetime.AllAnswered (l : Lifetime) : Prop :=
  l.ending ≠ some .refused ∧ ∀ a ∈ l.answers, a.Delivered

/-- Closing adds nothing to the responses. -/
structure AddsNothing (l : Lifetime) : Prop where
  counted : l.written.countP Action.statusLine ≤ l.parsed
  refused : l.ending = some .refused → ∀ a ∈ l.handling.trace, a.okLine = false
  silent : ∀ done, l.closing = some done → l.AllAnswered → sentBytes done = []

/-- The socket takes the status line of the last head. -/
def TakesLastLine (sends : List SendOutcome) : Prop :=
  okStatusLine.length ≤ socketTaken sends closingHead.length

/-- The socket takes nothing of what the close path writes. -/
def ClosesSilently (h : Handling) : Prop :=
  match h.conn.protocolCtx with
  | none => lastAck h.env.sends = []
  | some _ => socketTaken h.env.sends closingHead.length = 0 ∧ lastAck h.env.sends.tail = []

/-- No request is rejected where the socket still takes a status line, and otherwise a connection
is closed only while a response waits for its first write, or where the socket takes nothing. -/
def ClosesShort (parse : Parser) (l : Lifetime) : LifeEvent → Prop
  | .session (.read _ env) =>
    let h := l.handling.atEvent env
    h.conn.requestCount ≠ h.conn.maxRequestCount → h.conn.readBuf.len ≠ h.conn.readBuf.cap →
      h.received.Completes parse → h.received.check parse ≠ 0 → ¬ TakesLastLine env.sends
  | .session (.write _ env) => env.fileSize < 2 ^ 63
  | .close => (l.ending = some .refused → ¬ TakesLastLine l.handling.env.sends) ∧
      (l.ending ≠ some .refused → l.handling.Awaits ∨ ClosesSilently l.handling)
  | _ => True

/-! ## Counting -/

theorem countP_silent {trace : List Action} (h : ∀ a ∈ trace, a.silent = true) :
    trace.countP Action.statusLine = 0 := by
  apply List.countP_eq_zero.2
  intro a ha hline
  have hsilent := h a ha
  cases a with
  | send => cases hsilent
  | _ => cases hline

/-- What is shorter than the status line shows nothing of it. -/
theorem closingHead_short {k : Nat} (hshort : k < okStatusLine.length) :
    startsResponse (closingHead.take k) = false ∧
      okStatusLine.isPrefixOf (closingHead.take k) = false := by
  have hall : ∀ k < okStatusLine.length, startsResponse (closingHead.take k) = false ∧
      okStatusLine.isPrefixOf (closingHead.take k) = false := by decide +kernel
  exact hall k hshort

/-- The body of a response shows no status line. -/
theorem BodyCase.noLine {h : Handling} {ctx : Nat} {r : Handling × Int} (hcase : BodyCase h ctx r) :
    r.1.trace.countP Action.statusLine = h.trace.countP Action.statusLine ∧
      (h.trace ≠ [] → r.1.trace ≠ []) := by
  cases hcase with
  | file =>
    rw [Handling.sendFd_trace, List.countP_append]
    exact ⟨rfl, fun _ => by simp⟩
  | text =>
    rw [Handling.log, List.countP_append]
    exact ⟨rfl, fun _ => by simp⟩
  | none => exact ⟨rfl, id⟩

def Answering.begun (a : Answering) : Bool := !a.out.isEmpty

/-! ## Runs -/

/-- No more status lines than responses, and no more responses than requests. -/
structure Counted (l : Lifetime) : Prop extends l.Kept where
  still : l.ending = none → l.closing = none
  lines : l.closing = none → l.written.countP Action.statusLine ≤ l.answers.countP Answering.begun
  parsed : l.answers.length ≤ l.parsed
  adds : AddsNothing l

section

variable {parse : Parser} {current max : Nat} {env : Env} {l l' : Lifetime} {e : LifeEvent}

/-- As long as nothing is closed, counting is all. -/
theorem Counted.of_lines (hkept : l.Kept)
    (hlines : l.written.countP Action.statusLine ≤ l.answers.countP Answering.begun)
    (hparsed : l.answers.length ≤ l.parsed) (hopen : l.closing = none)
    (hrefused : l.ending = some .refused → ∀ a ∈ l.handling.trace, a.okLine = false) :
    Counted l := by
  refine ⟨hkept, fun _ => hopen, fun _ => hlines, hparsed, ?_, hrefused, fun done hdone => ?_⟩
  · exact hlines.trans (List.countP_le_length.trans hparsed)
  · rw [hopen] at hdone
    cases hdone

theorem ReadLife.counted (hl : Counted l) (hclosing : l.closing = none) (hkept : l'.Kept)
    (hcase : ReadLife parse current max env l l')
    (hok : ClosesShort parse l (.session (.read current env))) : Counted l' := by
  have hlines := hl.lines hclosing
  have hparsed := hl.parsed
  cases hcase with
  | idle h ending hsilent hending =>
    apply Counted.of_lines hkept
    · rw [List.countP_append, countP_silent hsilent]
      exact hlines
    · exact hparsed
    · rfl
    · rintro rfl
      obtain hnone | hdropped := hending
      · cases hnone
      · cases hdropped
  | refused h ctx fd before hsilent htrace hrecv hall hcheck =>
    obtain ⟨hline, hok200⟩ := closingHead_short (not_le.1 (hok hrecv.room hrecv.fits hall hcheck))
    apply Counted.of_lines hkept
    · rw [List.countP_append, htrace, List.countP_append, countP_silent hsilent]
      simp only [List.countP_cons, Action.statusLine, hline, List.countP_nil]
      exact hlines
    · exact hparsed.trans (Nat.le_succ _)
    · rfl
    · intro _ a ha
      rw [htrace] at ha
      obtain hold | hnew := List.mem_append.1 ha
      · have hquiet := hsilent a hold
        cases a with
        | send => cases hquiet
        | _ => rfl
      · simp only [List.mem_cons, List.not_mem_nil, or_false] at hnew
        obtain rfl | rfl := hnew
        · exact hok200
        · rfl
  | accepted h hung hsilent =>
    apply Counted.of_lines hkept
    · rw [List.countP_append, countP_silent hsilent]
      exact hlines
    · exact Nat.succ_le_succ hparsed
    · rfl
    · cases hung with
      | false => exact fun hrefused => by cases hrefused
      | true => exact fun hrefused => by cases hrefused

/-- An answer that puts out something counts as begun. -/
theorem Counted.of_answer {h : Handling} {out : List Action} {answers : List Answering}
    {parsed : Nat} {written : List Action} {ending : Option Ending}
    (hkept : Lifetime.Kept ⟨h, ⟨h, out⟩ :: answers, parsed, written ++ h.trace, ending, none⟩)
    (hlines : written.countP Action.statusLine + h.trace.countP Action.statusLine ≤
      answers.countP Answering.begun + 1)
    (hout : out ≠ []) (hparsed : answers.length + 1 ≤ parsed) (hending : ending ≠ some .refused) :
    Counted ⟨h, ⟨h, out⟩ :: answers, parsed, written ++ h.trace, ending, none⟩ := by
  apply Counted.of_lines hkept
  · have hbegun : Answering.begun ⟨h, out⟩ = true := by
      unfold Answering.begun
      simp [hout]
    rw [List.countP_append, List.countP_cons_of_pos hbegun]
    exact hlines
  · exact hparsed
  · rfl
  · exact fun hrefused => absurd hrefused hending

/-- The head is one action. -/
theorem countP_head (ctx : Nat) (fd : Int) (bytes : List Byte) :
    [.useCtx ctx, .send fd bytes].countP Action.statusLine ≤ 1 := by
  rw [List.countP_cons_of_neg Bool.false_ne_true]
  exact List.countP_le_length

theorem WriteLife.counted (hl : Counted l) (hclosing : l.closing = none) (hkept : l'.Kept)
    (hcase : WriteLife current max env l l') : Counted l' := by
  have hlines := hl.lines hclosing
  have hparsed := hl.parsed
  have hhung : ∀ hung : Bool, (if hung then some Ending.hangUp else none) ≠ some .refused := by
    decide
  cases hcase with
  | refused ctx head k h g answers hanswers htrace =>
    have hone := countP_head ctx l.handling.conn.fd (head.take k)
    rw [hanswers] at hlines hparsed
    rw [← htrace] at hone
    apply Counted.of_answer hkept
    · exact Nat.add_le_add (hlines.trans (Nat.le_of_eq (List.countP_cons_of_neg Bool.false_ne_true))) hone
    · rw [htrace]
      exact List.cons_ne_nil _ _
    · exact hparsed
    · decide
  | passed ctx len conn rest bytes r g answers hung hanswers hown hwait hrouted htext hlen hpassed
      hsame hbody hwhy =>
    obtain ⟨hkeeps, hne⟩ := hbody.noLine
    have hone := countP_head ctx l.handling.conn.fd bytes
    have hhead : ((l.handling.atEvent env).answering ctx len .body conn rest bytes).trace =
        [.useCtx ctx, .send l.handling.conn.fd bytes] := rfl
    rw [hanswers] at hlines hparsed
    rw [← hhead, ← hkeeps] at hone
    apply Counted.of_answer hkept
    · exact Nat.add_le_add (hlines.trans (Nat.le_of_eq (List.countP_cons_of_neg Bool.false_ne_true))) hone
    · exact hne (List.cons_ne_nil _ _)
    · exact hparsed
    · exact hhung hung
  | body ctx r a answers hung hanswers hown hst hbody hwhy =>
    obtain ⟨hkeeps, hne⟩ := hbody.noLine
    have hnone : r.1.trace.countP Action.statusLine = 0 := by
      rw [hkeeps]
      rfl
    have hbegun := @List.countP_le_length _ Answering.begun [a]
    rw [hanswers] at hlines hparsed
    rw [← List.singleton_append, List.countP_append] at hlines
    apply Counted.of_answer hkept
    · rw [hnone]
      exact hlines.trans (by rw [List.length_singleton] at hbegun; omega)
    · intro hempty
      exact hne (List.cons_ne_nil _ _) (List.append_eq_nil_iff.1 hempty).2
    · exact hparsed
    · exact hhung hung

section

variable {h : Handling} {done : List Action}

theorem lastAck_noLine (sends : List SendOutcome) :
    startsResponse (lastAck sends) = false ∧ okStatusLine.isPrefixOf (lastAck sends) = false := by
  unfold lastAck
  split
  · decide
  · decide

/-- A close path shows the status line that the socket takes. -/
theorem ClosingWrites.lines_le (hwrites : ClosingWrites h done) :
    done.countP Action.statusLine ≤ 1 := by
  cases hwrites with
  | ack hctx =>
    simp only [List.countP_cons, Action.statusLine, (lastAck_noLine _).1, List.countP_nil]
    decide
  | head ctx rest hctx =>
    have hrest : [Action.recycleCtx ctx, .send h.conn.fd (lastAck rest)].countP Action.statusLine = 0 := by
      simp only [List.countP_cons, Action.statusLine, (lastAck_noLine _).1, List.countP_nil]
      rfl
    rw [← List.singleton_append, List.countP_append, hrest]
    exact List.countP_le_length

theorem ClosingWrites.short (hwrites : ClosingWrites h done) (hshort : ¬ TakesLastLine h.env.sends) :
    done.countP Action.statusLine = 0 ∧ ∀ a ∈ done, a.okLine = false := by
  obtain ⟨hline, hok⟩ := closingHead_short (not_le.1 hshort)
  cases hwrites with
  | ack hctx =>
    constructor
    · simp only [List.countP_cons, Action.statusLine, (lastAck_noLine _).1, List.countP_nil]
      rfl
    · intro a ha
      rw [List.mem_singleton.1 ha]
      exact (lastAck_noLine _).2
  | head ctx rest hctx =>
    constructor
    · simp only [List.countP_cons, Action.statusLine, (lastAck_noLine _).1, hline, List.countP_nil]
      rfl
    · intro a ha
      simp only [List.mem_cons, List.not_mem_nil, or_false] at ha
      obtain rfl | rfl | rfl := ha
      · exact hok
      · rfl
      · exact (lastAck_noLine _).2

/-- A close path that the socket takes nothing of is silent. -/
theorem ClosingWrites.silent (hwrites : ClosingWrites h done) (hsilent : ClosesSilently h) :
    sentBytes done = [] ∧ done.countP Action.statusLine = 0 := by
  unfold ClosesSilently at hsilent
  cases hwrites with
  | ack hctx =>
    rw [hctx] at hsilent
    have hack : lastAck h.env.sends = [] := hsilent
    rw [hack]
    exact ⟨rfl, rfl⟩
  | head ctx rest hctx hrest =>
    rw [hctx] at hsilent
    obtain ⟨hnone, hack⟩ := hsilent
    rw [hrest hnone, hack, hnone]
    exact ⟨rfl, rfl⟩

end

/-- Closing short of an answer adds nothing. -/
theorem close_adds (hl : Counted l) (hok : ClosesShort parse l .close)
    (hstep : lifeStep parse max l .close = some l') : AddsNothing l' := by
  obtain ⟨hcase, -⟩ := @lifeStep_cases parse max l l' .close hl.toKept trivial hstep
  obtain ⟨hrejected, haccepted⟩ := hok
  cases hcase with
  | close h done hending hclosing hwrites htrace =>
    have hlines := hl.lines hclosing
    have hparsed := hl.parsed
    by_cases hrefused : l.ending = some .refused
    · obtain ⟨hnone, hquiet⟩ := hwrites.short (hrejected hrefused)
      constructor
      · rw [List.countP_append, hnone]
        exact hlines.trans (List.countP_le_length.trans hparsed)
      · intro _ a ha
        rw [htrace] at ha
        obtain hold | hnew := List.mem_append.1 ha
        · exact hl.adds.refused hrefused a hold
        · exact hquiet a hnew
      · exact fun _ _ hanswered => absurd hrefused hanswered.1
    · obtain hawaits | hsilent := haccepted hrefused
      · obtain ⟨g, rest, hanswers⟩ := hl.unbegun hclosing hrefused hawaits
        have hone := hwrites.lines_le
        rw [hanswers] at hlines hparsed
        rw [List.countP_cons_of_neg Bool.false_ne_true] at hlines
        constructor
        · rw [List.countP_append]
          exact (Nat.add_le_add (hlines.trans List.countP_le_length) hone).trans hparsed
        · exact fun hcontra => absurd hcontra hrefused
        · intro _ _ hanswered
          have hfirst : Answering.Delivered ⟨g, []⟩ := hanswered.2 _ (by
            rw [hanswers]
            exact List.mem_cons_self)
          exact absurd hfirst (Answering.unbegun rfl)
      · obtain ⟨hnothing, hnone⟩ := hwrites.silent hsilent
        constructor
        · rw [List.countP_append, hnone]
          exact hlines.trans (List.countP_le_length.trans hparsed)
        · exact fun hcontra => absurd hcontra hrefused
        · rintro _ hdone -
          cases hdone
          exact hnothing

theorem Counted.step (hl : Counted l) (hok : ClosesShort parse l e)
    (hstep : lifeStep parse max l e = some l') : Counted l' := by
  have hsize : e.Sized := by
    cases e with
    | session e =>
      cases e with
      | write current env => exact hok
      | read | others => trivial
    | error | close => trivial
  obtain ⟨hcase, hkept⟩ := lifeStep_cases hl.toKept hsize hstep
  cases hcase with
  | read current env _ hopen hread => exact hread.counted hl (hl.still hopen) hkept hok
  | write current env _ hopen hwrite => exact hwrite.counted hl (hl.still hopen) hkept
  | others arena ctxs cache h hopen hconn =>
    apply Counted.of_lines hkept
    · exact hl.lines (hl.still hopen)
    · exact hl.parsed
    · exact hl.still hopen
    · intro hrefused
      rw [hopen] at hrefused
      cases hrefused
  | error env hopen =>
    apply Counted.of_lines hkept
    · exact hl.lines (hl.still hopen)
    · exact hl.parsed
    · exact hl.still hopen
    · intro hrefused
      cases hrefused
  | close h done hending hclosing hwrites htrace =>
    have hadds := close_adds hl hok hstep
    refine ⟨hkept, fun hnone => absurd hnone hending, fun hnone => ?_, hl.parsed, hadds⟩
    cases hnone

end

/-! ## Two connections -/

end PingServer
