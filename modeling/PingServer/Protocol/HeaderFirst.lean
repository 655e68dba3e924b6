import PingServer.Protocol.WriteRun

/-!
# Header before body

What one response hands to the socket, over any sequence of write events. Two things
break the order and the completeness: a connection whose requests are used up skips
its head, and a `sendfile` that moves a part of the file moves the offset twice.
-/

namespace PingServer

open ByteMem Machine

/-! ## Head first -/

/-- The head that announces the body of the response. -/
def Writing.head (w : Writing) (ctx : Nat) : List Byte :=
  headOf w.handling.conn (w.handling.ctxs ctx).httpRes (w.handling.ctxs ctx).httpRes.bodyLen

/-- All bytes of a file below `len` were moved. -/
def Covered (moved : List (Nat × Nat)) (len : Nat) : Prop :=
  ∀ k, k < len → ∃ r ∈ moved, r.1 ≤ k ∧ k < r.1 + r.2

/-- The whole response is handed over by `out`: its head, and its string or its file. -/
def Delivered (h : Handling) (ctx : Nat) (out : List Action) : Prop :=
  sentBytes out = headOf h.conn (h.ctxs ctx).httpRes (h.ctxs ctx).httpRes.bodyLen ++
      ((h.ctxs ctx).httpRes.body.getD []).take (h.ctxs ctx).httpRes.bodyLen ∧
    (0 < (h.ctxs ctx).httpRes.bodyFd → Covered (movedRanges out) (h.ctxs ctx).httpRes.bodyLen)

/-- No byte of the body is handed over before the whole head, and `CONN_SEND_DONE` means
that head and body are complete. -/
structure HeaderFirst (ctx : Nat) (w : Writing) : Prop where
  file : ∀ pre post fd file moved, w.out = pre ++ .sendFile fd file moved :: post → moved ≠ [] →
    sentBytes pre = w.head ctx
  string : sentBytes w.out <+: w.head ctx ++ (w.handling.ctxs ctx).httpRes.body.getD []
  done : w.ret = some connSendDone → Delivered w.handling ctx w.out

/-- The first `sendfile` moves all of the `remain` bytes. -/
def movesAtOnce (fileSize offset remain : Nat) : List SendfileOutcome → Bool
  | .interrupted :: os => movesAtOnce fileSize offset remain os
  | .moved k :: _ => decide (remain ≤ k + 1 ∧ offset + remain ≤ fileSize)
  | _ => false

/-- The first `sendfile` that moves anything of the `remain` bytes moves them all. -/
def movesWhole (fileSize offset remain : Nat) : List SendfileOutcome → Bool
  | .interrupted :: os => movesWhole fileSize offset remain os
  | .moved k :: _ => decide (remain ≤ k + 1 ∧ offset + remain ≤ fileSize)
  | _ => true

/-- The write does not come to one of the two defects. -/
def WritesWhole (ctx : Nat) (w : Writing) (env : Env) : Prop :=
  let conn := w.handling.conn
  let res := (w.handling.ctxs ctx).httpRes
  env.fileSize < 2 ^ 63 ∧
    match res.sendSt with
    | .wait =>
      conn.requestCount < conn.maxRequestCount ∧
        (0 < res.bodyFd → socketTakes env.sends (headOf conn res env.fileSize).length = true →
          env.fileSize = 0 ∨ env.fileSize < 2 ^ 31 ∧ res.bodyOff = 0 ∧
            movesWhole env.fileSize 0 env.fileSize env.sendfiles = true)
    | _ => 0 < res.bodyFd → 0 < res.remain → res.bodyLen = 0 ∨
        movesWhole env.fileSize res.bodyOff res.remain.toNat env.sendfiles = true

/-! ## One file -/

theorem Covered.zero (moved : List (Nat × Nat)) : Covered moved 0 := fun k hk => by omega

section

variable {fileSize offset remain : Nat}

/-- A loop that moves the whole rest of the file moves the offset behind its end. -/
theorem sendfileLoop_atOnce (hpos : 0 < remain) (os : List SendfileOutcome) :
    movesAtOnce fileSize offset remain os = true →
    ∃ rest, sendfileLoop fileSize os offset remain [] =
      ⟨connSendDone, offset + remain + remain, rest, [(offset, remain)]⟩ := by
  have hleft : ¬ (remain : Int) ≤ 0 := by omega
  induction os with
  | nil =>
    intro hmoves
    cases hmoves
  | cons o os ih =>
    intro hmoves
    cases o with
    | moved k =>
      have hall := of_decide_eq_true hmoves
      have hn : min (k + 1) (min ((remain : Int).toNat) (fileSize - offset)) = remain := by omega
      have hnone : (remain : Int) - (remain : Nat) ≤ 0 := by omega
      refine ⟨os, ?_⟩
      rw [sendfileLoop, if_neg hleft]
      simp only [hn, if_neg (show ¬ remain = 0 by omega), List.nil_append]
      cases os with
      | nil => rw [sendfileLoop, if_pos hnone]
      | cons o os => cases o <;> rw [sendfileLoop, if_pos hnone]
    | interrupted =>
      rw [sendfileLoop, if_neg hleft]
      exact ih hmoves
    | wouldBlock | failed => cases hmoves

/-- Otherwise it moves nothing, and does not report the end. -/
theorem sendfileLoop_whole (hpos : 0 < remain) (os : List SendfileOutcome) :
    movesWhole fileSize offset remain os = true →
    (∃ ret rest, sendfileLoop fileSize os offset remain [] = ⟨ret, offset, rest, []⟩ ∧
        fileRet ret ≠ connSendDone) ∨ movesAtOnce fileSize offset remain os = true := by
  have hleft : ¬ (remain : Int) ≤ 0 := by omega
  induction os with
  | nil =>
    intro _
    exact .inl ⟨connSendPartial, [], by rw [sendfileLoop, if_neg hleft], by decide⟩
  | cons o os ih =>
    intro hwhole
    cases o with
    | moved k => exact .inr hwhole
    | interrupted =>
      rw [sendfileLoop, if_neg hleft]
      exact ih hwhole
    | wouldBlock =>
      exact .inl ⟨connSendPartial, os, by rw [sendfileLoop, if_neg hleft], by decide⟩
    | failed =>
      exact .inl ⟨connSendError, os, by rw [sendfileLoop, if_neg hleft], by decide⟩

end

/-- Nothing of a short file is sent yet. -/
theorem HttpResponse.remain_start {res : HttpResponse} (hsmall : res.bodyLen < 2 ^ 31)
    (hoff : res.bodyOff = 0) : res.remain = res.bodyLen := by
  rw [remain, hoff, int32_eq (by omega) (by omega)]
  omega

/-- How far the file of a response is sent, when the ranges `moved` were moved. -/
inductive FileSent (res : HttpResponse) (moved : List (Nat × Nat)) : Prop
  | empty : res.bodyLen = 0 → FileSent res moved
  | ahead : res.bodyLen < 2 ^ 31 → res.bodyOff = 0 → FileSent res moved
  | whole : res.remain ≤ 0 → Covered moved res.bodyLen → FileSent res moved

theorem HttpResponse.starts {res : HttpResponse} {fileSize : Nat} {os : List SendfileOutcome}
    (h : res.bodyLen = 0 ∨ res.bodyLen < 2 ^ 31 ∧ res.bodyOff = 0 ∧
      movesWhole fileSize 0 res.bodyLen os = true) :
    FileSent res [] ∧ (0 < res.remain → res.bodyLen = 0 ∨
      movesWhole fileSize res.bodyOff res.remain.toNat os = true) := by
  obtain hzero | ⟨hsmall, hoff, hmoves⟩ := h
  · exact ⟨.empty hzero, fun _ => .inl hzero⟩
  · refine ⟨.ahead hsmall hoff, fun _ => ?_⟩
    right
    rw [remain_start hsmall hoff, Int.toNat_natCast, hoff]
    exact hmoves

/-- The file after one more write: if the write reports the end, all of it was moved. -/
theorem FileSent.sendFd {h : Handling} {ctx : Nat} {moved : List (Nat × Nat)}
    (hsent : FileSent (h.ctxs ctx).httpRes moved)
    (hwhole : 0 < (h.ctxs ctx).httpRes.remain → (h.ctxs ctx).httpRes.bodyLen = 0 ∨
      movesWhole h.env.fileSize (h.ctxs ctx).httpRes.bodyOff (h.ctxs ctx).httpRes.remain.toNat
        h.env.sendfiles = true) :
    ∃ ranges, (h.sendFd ctx).1.trace =
        h.trace ++ [.sendFile h.conn.fd (h.ctxs ctx).httpRes.bodyFd ranges] ∧
      FileSent ((h.sendFd ctx).1.ctxs ctx).httpRes (moved ++ ranges) ∧
      (fileRet (h.sendFd ctx).2 = connSendDone →
        Covered (moved ++ ranges) (h.ctxs ctx).httpRes.bodyLen) := by
  refine ⟨_, rfl, ?_⟩
  rw [Handling.sendFd_httpRes]
  by_cases hempty : (h.ctxs ctx).httpRes.bodyLen = 0
  · refine ⟨.empty hempty, fun _ => ?_⟩
    rw [hempty]
    exact .zero _
  cases hsent with
  | empty hzero => exact absurd hzero hempty
  | ahead hsmall hoff =>
    have hremain := HttpResponse.remain_start hsmall hoff
    generalize hlen : (h.ctxs ctx).httpRes.bodyLen = len at *
    rw [hremain] at hwhole
    have hmoves := (hwhole (by omega)).resolve_left hempty
    rw [hoff, Int.toNat_natCast] at hmoves
    have hpos : 0 < len := by omega
    have hcall : connectionSendFd h.env.fileSize h.env.sendfiles (h.ctxs ctx).httpRes.bodyOff
        (len % 2 ^ 32) = sendfileLoop h.env.fileSize h.env.sendfiles 0 len [] := by
      rw [HttpResponse.remain, hlen, hoff] at hremain
      rw [connectionSendFd, hoff, hremain]
    have hret : (h.sendFd ctx).2 =
        (sendfileLoop h.env.fileSize h.env.sendfiles 0 len []).ret := by
      rw [← hcall, ← hlen]
      rfl
    rw [hret, hcall]
    obtain ⟨ret, rest, hloop, hnot⟩ | honce := sendfileLoop_whole hpos h.env.sendfiles hmoves
    · rw [hloop]
      exact ⟨.ahead (by simpa only [hlen] using hsmall) rfl, fun hdone => absurd hdone hnot⟩
    · obtain ⟨rest, hloop⟩ := sendfileLoop_atOnce hpos h.env.sendfiles honce
      rw [hloop]
      have hcover : Covered (moved ++ [(0, len)]) len := fun k hk =>
        ⟨(0, len), List.mem_append_right _ (List.mem_singleton.2 rfl), Nat.zero_le k, by omega⟩
      refine ⟨.whole ?_ ?_, fun _ => hcover⟩
      · simp only [HttpResponse.remain, hlen]
        rw [int32_eq (by omega) (by omega)]
        omega
      · simpa only [hlen] using hcover
  | whole hdone hcover =>
    have hcall := @connectionSendFd_done h.env.fileSize _ _ h.env.sendfiles hdone
    rw [hcall, List.append_nil]
    exact ⟨.whole hdone hcover, fun _ => hcover⟩

/-- From the label `send_body` on no byte is handed to `connection_send`, and the file
goes on from where it stands. -/
theorem BodyCase.hands {h : Handling} {ctx : Nat} {r : Handling × Int}
    {moved : List (Nat × Nat)} (hcase : BodyCase h ctx r)
    (hsent : 0 < (h.ctxs ctx).httpRes.bodyFd → FileSent (h.ctxs ctx).httpRes moved)
    (hwhole : 0 < (h.ctxs ctx).httpRes.bodyFd → 0 < (h.ctxs ctx).httpRes.remain →
      (h.ctxs ctx).httpRes.bodyLen = 0 ∨ movesWhole h.env.fileSize (h.ctxs ctx).httpRes.bodyOff
        (h.ctxs ctx).httpRes.remain.toNat h.env.sendfiles = true) :
    ∃ new, r.1.trace = h.trace ++ new ∧ sentBytes new = [] ∧
      (0 < (h.ctxs ctx).httpRes.bodyFd →
        FileSent (r.1.ctxs ctx).httpRes (moved ++ movedRanges new) ∧
        (r.2 = connSendDone → Covered (moved ++ movedRanges new) (h.ctxs ctx).httpRes.bodyLen)) := by
  cases hcase with
  | file hfile =>
    obtain ⟨ranges, htrace, hafter, hdone⟩ := (hsent hfile).sendFd (hwhole hfile)
    refine ⟨_, htrace, rfl, fun _ => ?_⟩
    have hranges : movedRanges [.sendFile h.conn.fd (h.ctxs ctx).httpRes.bodyFd ranges] = ranges :=
      List.append_nil ranges
    rw [hranges]
    exact ⟨hafter, hdone⟩
  | text hfile => exact ⟨[.send h.conn.fd []], rfl, rfl, fun hpos => by omega⟩
  | none hfile => exact ⟨[], (List.append_nil _).symm, rfl, fun hpos => by omega⟩

/-! ## The stages of a response -/

/-- The head is handed over, and `rest` was done behind it. -/
structure Behind (ctx : Nat) (w : Writing) (fd : Int) (rest : List Action) : Prop where
  own : w.handling.conn.protocolCtx = some ctx
  body : (w.handling.ctxs ctx).httpRes.sendSt = .body
  drained : w.handling.conn.Drained
  text : (w.handling.ctxs ctx).httpRes.body.isSome = true → (w.handling.ctxs ctx).httpRes.bodyFd < 0
  empty : (w.handling.ctxs ctx).httpRes.bodyFd ≤ 0 → (w.handling.ctxs ctx).httpRes.bodyLen = 0
  out : w.out = .useCtx ctx :: .send fd (w.head ctx) :: rest
  silent : sentBytes rest = []
  file : 0 < (w.handling.ctxs ctx).httpRes.bodyFd →
    FileSent (w.handling.ctxs ctx).httpRes (movedRanges rest)
  done : 0 < (w.handling.ctxs ctx).httpRes.bodyFd → w.ret = some connSendDone →
    Covered (movedRanges rest) (w.handling.ctxs ctx).httpRes.bodyLen

/-- What a response comes to, as long as its writes stay clear of the two defects. -/
inductive Stage (ctx : Nat) (w : Writing) : Prop
  | unbegun : Responding w.handling ctx → w.out = [] → w.ret = none → Stage ctx w
  | failed (fd : Int) (k : Nat) : w.handling.conn.protocolCtx = some ctx →
      (w.handling.ctxs ctx).httpRes.sendSt = .error →
      w.out = [.useCtx ctx, .send fd ((w.head ctx).take k)] → w.ret = some connSendError →
      Stage ctx w
  | behind (fd : Int) (rest : List Action) : Behind ctx w fd rest → Stage ctx w

theorem Behind.sentHead {ctx : Nat} {w : Writing} {fd : Int} {rest : List Action}
    (h : Behind ctx w fd rest) : sentBytes w.out = w.head ctx := by
  rw [h.out, sentBytes_head, h.silent, List.append_nil]

theorem Stage.headerFirst {ctx : Nat} {w : Writing} (hstage : Stage ctx w) : HeaderFirst ctx w := by
  cases hstage with
  | unbegun hr hout hret =>
    constructor
    · intro pre post fd file moved heq _
      rw [hout] at heq
      exact absurd heq.symm (by simp)
    · rw [hout]
      exact List.nil_prefix
    · intro hdone
      rw [hret] at hdone
      cases hdone
  | failed fd k hctx hst hout hret =>
    have hsent : sentBytes w.out = (w.head ctx).take k := by
      rw [hout]
      exact List.append_nil _
    constructor
    · intro pre post fd' file moved heq _
      have hmem : Action.sendFile fd' file moved ∈ w.out := by
        rw [heq]
        exact List.mem_append_right _ List.mem_cons_self
      rw [hout] at hmem
      simp at hmem
    · rw [hsent]
      exact (List.take_prefix _ _).trans (List.prefix_append _ _)
    · intro hdone
      rw [hret] at hdone
      cases hdone
  | behind fd rest h =>
    constructor
    · intro pre post fd' file moved heq _
      rw [h.out] at heq
      cases pre with
      | nil => cases heq
      | cons a pre =>
        cases pre with
        | nil => cases heq
        | cons b pre =>
          simp only [List.cons_append, List.cons.injEq] at heq
          obtain ⟨rfl, rfl, hrest⟩ := heq
          have hsilent := h.silent
          rw [hrest, sentBytes_append] at hsilent
          rw [sentBytes_head, (List.append_eq_nil_iff.1 hsilent).1, List.append_nil]
    · rw [h.sentHead]
      exact List.prefix_append _ _
    · intro hdone
      have hranges : movedRanges w.out = movedRanges rest := by
        rw [h.out]
        rfl
      unfold Delivered
      rw [h.sentHead, hranges]
      unfold Writing.head
      constructor
      · have hnone := HttpResponse.take_text h.text h.empty
        rw [hnone, List.append_nil]
      · exact fun hfile => h.done hfile hdone

/-! ## Whole runs -/

section

variable {ctx : Nat} {w w' : Writing} {env : Env}

/-- The body is gone on with. -/
theorem Behind.hands {g : Handling} {r : Handling × Int} {ret : Option Int} {fd : Int}
    {before rest : List Action} (h : Behind ctx ⟨g, ret, before ++ g.trace⟩ fd rest)
    (hcase : BodyCase g ctx r)
    (hwhole : 0 < (g.ctxs ctx).httpRes.bodyFd → 0 < (g.ctxs ctx).httpRes.remain →
      (g.ctxs ctx).httpRes.bodyLen = 0 ∨ movesWhole g.env.fileSize (g.ctxs ctx).httpRes.bodyOff
        (g.ctxs ctx).httpRes.remain.toNat g.env.sendfiles = true) :
    ∃ rest', Behind ctx ⟨r.1, some r.2, before ++ r.1.trace⟩ fd rest' := by
  obtain ⟨new, htrace, hnew, hfile⟩ := hcase.hands h.file hwhole
  obtain ⟨off, hres⟩ := hcase.httpRes
  have hconn := hcase.conn
  refine ⟨rest ++ new, ?_, ?_, ?_, ?_, ?_, ?_, ?_, ?_, ?_⟩
  · exact (congrArg Connection.protocolCtx hconn).trans h.own
  · simp only [hres]
    exact h.body
  · simp only [hconn]
    exact h.drained
  · simp only [hres]
    exact h.text
  · simp only [hres]
    exact h.empty
  · have hout := h.out
    simp only [Writing.head] at hout
    simp only [Writing.head, hres, hconn, htrace]
    rw [← List.append_assoc, hout]
    rfl
  · rw [sentBytes_append, h.silent, hnew]
    rfl
  · simp only [hres]
    rw [movedRanges_append, ← hres]
    exact fun hpos => (hfile hpos).1
  · simp only [hres]
    rw [movedRanges_append]
    exact fun hpos hdone => (hfile hpos).2 (Option.some.inj hdone)

theorem headOf_begun {conn conn' : Connection} (hsame : SameSender conn conn') (res : HttpResponse)
    (len : Nat) (st : HttpSendRet) :
    headOf conn' { res with bodyLen := len, sendSt := st } len = headOf conn res len := by
  simp only [headOf, hsame.keepAlive]

/-- A head that passed stands in front of all else. -/
theorem Behind.begun {conn : Connection} {len : Nat} {rest : List SendOutcome}
    (hr : Responding w.handling ctx) (hsame : SameSender w.handling.conn conn)
    (hdrained : conn.Drained) (hempty : (w.handling.ctxs ctx).httpRes.bodyFd ≤ 0 → len = 0)
    (hstarts : 0 < (w.handling.ctxs ctx).httpRes.bodyFd →
      FileSent { (w.handling.ctxs ctx).httpRes with bodyLen := len, sendSt := .body } []) :
    Behind ctx ⟨(w.handling.atEvent env).answering ctx len .body conn rest
      (headOf w.handling.conn (w.handling.ctxs ctx).httpRes len), none, [] ++
        ((w.handling.atEvent env).answering ctx len .body conn rest
          (headOf w.handling.conn (w.handling.ctxs ctx).httpRes len)).trace⟩
      w.handling.conn.fd [] := by
  have hhead := headOf_begun hsame (w.handling.ctxs ctx).httpRes len .body
  constructor
  · exact hsame.hold.ctx.trans hr.own
  · rw [Handling.answering_httpRes]
  · exact hdrained
  · rw [Handling.answering_httpRes]
    exact hr.routed.text
  · rw [Handling.answering_httpRes]
    exact hempty
  · simp only [Writing.head, Handling.answering_httpRes]
    rw [← hhead]
    rfl
  · rfl
  · rw [Handling.answering_httpRes]
    exact hstarts
  · intro _ hdone
    cases hdone

/-- The next write begins with a look at the context. -/
theorem Behind.used {fd : Int} {rest : List Action} (h : Behind ctx w fd rest) :
    Behind ctx ⟨(w.handling.atEvent env).log (.useCtx ctx), w.ret,
      w.out ++ ((w.handling.atEvent env).log (.useCtx ctx)).trace⟩ fd (rest ++ [.useCtx ctx]) := by
  have hsilent : sentBytes [.useCtx ctx] = [] := rfl
  have hranges : movedRanges [.useCtx ctx] = [] := rfl
  refine ⟨h.own, h.body, h.drained, h.text, h.empty, ?_, ?_, ?_, ?_⟩
  · simp only [h.out]
    rfl
  · rw [sentBytes_append, h.silent, hsilent]
    rfl
  · rw [movedRanges_append, hranges, List.append_nil]
    exact h.file
  · rw [movedRanges_append, hranges, List.append_nil]
    exact h.done

theorem Stage.step (hstage : Stage ctx w) (hwhole : WritesWhole ctx w env)
    (hstep : writeStep w env = some w') : Stage ctx w' := by
  cases hstage with
  | unbegun hr hout hret =>
    obtain ⟨hsize, hbegin⟩ := hwhole
    rw [hr.waiting] at hbegin
    obtain ⟨hroom, hfile⟩ := hbegin
    obtain ⟨-, hnone⟩ | ⟨-, len, hempty, hlen, hfirst⟩ := hr.first hsize
    · rw [hnone] at hstep
      cases hstep
    rw [hstep] at hfirst
    cases hfirst with
    | passed conn rest bytes r hpassed hsame hdrained hcase =>
      cases hpassed with
      | full hfull => exact absurd hfull (Nat.ne_of_lt hroom)
      | taken _ htakes =>
        have hstarts := fun hpos : 0 < (w.handling.ctxs ctx).httpRes.bodyFd =>
          @HttpResponse.starts { (w.handling.ctxs ctx).httpRes with bodyLen := len, sendSt := .body }
            env.fileSize env.sendfiles (by
              rw [hlen hpos] at htakes ⊢
              exact hfile hpos htakes)
        have hbegun := @Behind.begun ctx w env conn len rest hr hsame hdrained hempty
          fun hpos => (hstarts hpos).1
        rw [hout]
        obtain ⟨rest', h⟩ := hbegun.hands hcase (by
          rw [Handling.answering_httpRes]
          exact fun hpos => (hstarts hpos).2)
        exact .behind _ rest' h
    | refused k conn rest hroom htakes hk hsame =>
      have hhead := headOf_begun hsame (w.handling.ctxs ctx).httpRes len .error
      apply Stage.failed w.handling.conn.fd k
      · exact hsame.hold.ctx.trans hr.own
      · rw [Handling.answering_httpRes]
      · simp only [Writing.head, Handling.answering_httpRes]
        rw [hout, ← hhead]
        rfl
      · rfl
  | failed fd k hctx hst =>
    simp only [writeStep, hctx, if_pos hst] at hstep
    cases hstep
  | behind fd rest h =>
    obtain ⟨-, hnone⟩ | ⟨r, hcase, hsome⟩ := @writeStep_body w ctx env h.own h.body h.drained
    · rw [hnone] at hstep
      cases hstep
    rw [hsome] at hstep
    cases hstep
    have hgoes := hwhole.2
    simp only [h.body] at hgoes
    obtain ⟨rest', h'⟩ := (@Behind.used ctx w env fd rest h).hands hcase hgoes
    exact .behind fd rest' h'

/-- A response that stays clear of the two defects hands over its head before its body, and
all of both before it is done. -/
theorem header_first {h : Handling} (hr : Responding h ctx)
    (hrun : Reaches (graph writeStep) (WritesWhole ctx) ⟨h, none, []⟩ w) : HeaderFirst ctx w := by
  apply Stage.headerFirst
  apply hrun.invariant (Stage ctx)
  · exact .unbegun hr rfl rfl
  · exact fun _ _ _ hstage hwhole hstep => hstage.step hwhole hstep

end

/-! ## Two responses -/

/-- The file at descriptor 7 is to be sent, after `count` uses of the connection. -/
def respondingFile (count : Nat) : Handling :=
  let h := Handling.fresh { HttpContext.zero with httpRes := { HttpContext.zero.httpRes with
    statusCode := 200, contentType := some contentHtml, bodyFd := 7 } } Env.opens
  { h with conn := { h.conn with
    requestCount := count, maxRequestCount := connectionRequestCount
    sendBuf := { h.conn.sendBuf with cap := bufferRunSize } } }

theorem respondingFile_responding {count : Nat} (hcount : count ≤ connectionRequestCount) :
    Responding (respondingFile count) 0 := by
  constructor
  · rfl
  · rfl
  · constructor
    · exact ⟨(by decide : (200 : Int).natAbs < 1000), (by decide : contentHtml.length ≤ 64)⟩
    · intro hsome
      cases hsome
  · exact hcount
  · rfl

theorem header_first_file : ∃ w, Machine.run writeStep ⟨respondingFile 1, none, []⟩ [Env.opens] = some w ∧
    HeaderFirst 0 w ∧ w.ret = some connSendDone := by
  have hdone : (Machine.run writeStep ⟨respondingFile 1, none, []⟩ [Env.opens]).any
      (fun w => decide (w.ret = some connSendDone)) = true := by decide +kernel
  obtain ⟨w, hrun, hret⟩ := (Option.any_eq_true _ _).1 hdone
  have hallowed : allowedAlong writeStep (WritesWhole 0) ⟨respondingFile 1, none, []⟩ [Env.opens] := by
    refine ⟨⟨by decide, by decide, fun _ _ => .inr ⟨by decide, rfl, by decide⟩⟩, fun _ _ => trivial⟩
  exact ⟨w, hrun, header_first (respondingFile_responding (by decide)) (reaches_of_run hallowed hrun),
    of_decide_eq_true hret⟩

/-- A connection whose requests are used up sends the file without its head. -/
theorem body_without_head : ¬ ∀ (h : Handling) (ctx : Nat) (w : Writing), Responding h ctx →
    Reaches (graph writeStep) (fun _ env => env.fileSize < 2 ^ 63) ⟨h, none, []⟩ w →
      HeaderFirst ctx w := by
  intro hall
  have hend : (Machine.run writeStep ⟨respondingFile 64, none, []⟩ [Env.opens]).any (fun w =>
      decide (w.out = [.useCtx 0, .send 0 [], .sendFile 0 7 [(0, 10)]])) = true := by decide +kernel
  obtain ⟨w, hrun, hout⟩ := (Option.any_eq_true _ _).1 hend
  have hallowed : allowedAlong writeStep (fun _ env => env.fileSize < 2 ^ 63)
      ⟨respondingFile 64, none, []⟩ [Env.opens] := ⟨by decide, fun _ _ => trivial⟩
  have hfirst := hall _ 0 w (respondingFile_responding (by decide)) (reaches_of_run hallowed hrun)
  have hhead := hfirst.file [.useCtx 0, .send 0 []] [] 0 7 [(0, 10)] (of_decide_eq_true hout) (by decide)
  have hpos := headText_pos (w.handling.ctxs 0).httpRes.statusCode
    ((w.handling.ctxs 0).httpRes.contentType.getD contentTxt) (w.handling.ctxs 0).httpRes.bodyLen
    (if w.handling.conn.isKeepAlive then utf8 "keep-alive" else utf8 "close")
  have hempty : sentBytes [.useCtx 0, .send 0 []] = [] := rfl
  rw [hempty] at hhead
  unfold Writing.head headOf at hhead
  rw [← hhead] at hpos
  exact absurd hpos (by decide)

end PingServer
