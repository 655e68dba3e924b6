import PingServer.Lib.Descriptors
import PingServer.Protocol.HttpFrame

/-!
# What requests and responses do to files

`http_protocol_process` opens at most one file and may close the one it pushes
out of the cache. `http_protocol_write` opens and closes nothing, and sends from
the file of its response.
-/

namespace PingServer

open Descriptors ByteMem

/-! ## The response of a connection -/

/-- The bytes that `connection_send_fd` still takes for unsent. -/
def HttpResponse.remain (res : HttpResponse) : Int :=
  int32 (((res.bodyLen % 2 ^ 32 : Nat) : Int) - res.bodyOff)

/-- The next write sends from the file of the response. -/
def HttpResponse.Unsent (res : HttpResponse) : Prop :=
  0 < res.bodyFd ∧ ¬ (res.sendSt = .body ∧ res.remain ≤ 0)

/-- The response has a file that is not all sent with the `sent` bytes of it that were moved,
or is not for `connection_send_fd`, whose offset moves twice as far. -/
def HttpResponse.Awaiting (res : HttpResponse) (sent : Nat) : Prop :=
  0 < res.bodyFd ∧ ¬ (res.sendSt = .body ∧ res.bodyLen ≤ sent ∧ res.remain ≤ 0)

theorem HttpResponse.Unsent.awaiting {res : HttpResponse} (h : res.Unsent) (sent : Nat) :
    res.Awaiting sent :=
  ⟨h.1, fun hsent => h.2 ⟨hsent.1, hsent.2.2⟩⟩

/-- The file a request asks for. -/
def requestedFile (req : HttpRequest) : Option (List Byte) :=
  match getRouterFunction req.path req.method with
  | .mainHome => some indexPath
  | .mainStatic => some (cString (staticName req.path ++ [0]))
  | .mainNotFound => none

/-! ## The table of descriptors -/

inductive FdUse where
  | file (name : List Byte)
  | other
  deriving DecidableEq, Repr

def Action.onTable (t : Table FdUse) : Action → Table FdUse
  | .openFile name (some fd) => assign t fd (.file name)
  | .closeFd fd => if 0 ≤ fd then release t fd.toNat else t
  | _ => t

def tableAfter (t : Table FdUse) (trace : List Action) : Table FdUse := trace.foldl Action.onTable t

/-- How many bytes of files are moved. -/
def movedSize (trace : List Action) : Nat :=
  (trace.map fun a => match a with
    | .sendFile _ _ moved => (moved.map Prod.snd).sum
    | _ => 0).sum

/-- The action opens and closes nothing. -/
def Quiet : Action → Prop
  | .openFile _ _ | .closeFd _ => False
  | _ => True

theorem tableAfter_append (t : Table FdUse) (trace new : List Action) :
    tableAfter t (trace ++ new) = tableAfter (tableAfter t trace) new := List.foldl_append

theorem tableAfter_quiet {new : List Action} (h : ∀ a ∈ new, Quiet a) (t : Table FdUse) :
    tableAfter t new = t := by
  induction new generalizing t with
  | nil => rfl
  | cons a new ih =>
    have hquiet := h a List.mem_cons_self
    have hstep : Action.onTable t a = t := by
      cases a with
      | openFile name result => exact absurd hquiet id
      | closeFd fd => exact absurd hquiet id
      | _ => rfl
    rw [tableAfter, List.foldl_cons, hstep]
    exact ih (fun b hb => h b (List.mem_cons_of_mem a hb)) t

/-! ## Writing -/

/-- The action belongs to a write of the response `res`. -/
def WriteAction (res : HttpResponse) : Action → Prop
  | .sendFile _ file moved => file = res.bodyFd ∧ (moved ≠ [] → res.Unsent)
  | a => Quiet a

theorem WriteAction.quiet {res : HttpResponse} {a : Action} (h : WriteAction res a) : Quiet a := by
  cases a with
  | sendFile fd file moved => trivial
  | _ => exact h

/-- A step of a write, whose actions satisfy `P`. -/
structure Writes (P : Action → Prop) (ctx : Nat) (h h' : Handling) : Prop where
  others : ∀ p, p ≠ ctx → h'.ctxs p = h.ctxs p
  bodyFd : (h'.ctxs ctx).httpRes.bodyFd = (h.ctxs ctx).httpRes.bodyFd
  cache : h'.cache = h.cache
  trace : Handling.Grows P h h'

namespace Writes

variable {P : Action → Prop} {ctx : Nat} {h h₁ h₂ : Handling} {res : HttpResponse}

theorem refl (P : Action → Prop) (ctx : Nat) (h : Handling) : Writes P ctx h h :=
  ⟨fun _ _ => rfl, rfl, rfl, .of_eq rfl⟩

theorem setEnv (a : Writes P ctx h h₁) (env : Env) : Writes P ctx h { h₁ with env := env } :=
  ⟨a.others, a.bodyFd, a.cache, a.trace.congr rfl⟩

theorem trans (a : Writes P ctx h h₁) (b : Writes P ctx h₁ h₂) : Writes P ctx h h₂ := by
  refine ⟨fun p hp => (b.others p hp).trans (a.others p hp), b.bodyFd.trans a.bodyFd,
    b.cache.trans a.cache, ?_⟩
  obtain ⟨new, htrace, hnew⟩ := a.trace
  obtain ⟨new', htrace', hnew'⟩ := b.trace
  refine ⟨new ++ new', by rw [htrace', htrace, List.append_assoc], fun x hx => ?_⟩
  exact (List.mem_append.1 hx).elim (hnew x) (hnew' x)

theorem log (a : Writes P ctx h h₁) {x : Action} (hx : P x) : Writes P ctx h (h₁.log x) :=
  ⟨a.others, a.bodyFd, a.cache, a.trace.log hx⟩

theorem setSendBuf (a : Writes P ctx h h₁) (b : Buffer) : Writes P ctx h (h₁.setSendBuf b) :=
  ⟨a.others, a.bodyFd, a.cache, a.trace.congr rfl⟩

/-- The response is changed, but not its file. -/
theorem setRes (a : Writes P ctx h h₁) (res : HttpResponse)
    (hfd : res.bodyFd = (h₁.ctxs ctx).httpRes.bodyFd) : Writes P ctx h (h₁.setRes ctx res) := by
  refine ⟨fun p hp => ?_, ?_, a.cache, a.trace.congr rfl⟩
  · simp only [Handling.setRes, Handling.setCtx, if_neg hp]
    exact a.others p hp
  · simp only [Handling.setRes, Handling.setCtx, ↓reduceIte]
    exact hfd.trans a.bodyFd

theorem send {ret : Int} (a : Writes (WriteAction res) ctx h h₁)
    (hsend : h₁.send = .ok (h₂, ret)) : Writes (WriteAction res) ctx h h₂ := by
  unfold Handling.send at hsend
  split at hsend
  · cases hsend
  · cases hsend
    exact ⟨a.others, a.bodyFd, a.cache, (a.trace.congr rfl).log trivial⟩

end Writes

/-- Nothing is moved when nothing remains. -/
theorem connectionSendFd_done {fileSize offset len : Nat} {os : List SendfileOutcome}
    (h : int32 ((len : Int) - offset) ≤ 0) :
    connectionSendFd fileSize os offset len = ⟨connSendDone, offset, os, []⟩ := by
  unfold connectionSendFd
  cases os with
  | nil => rw [sendfileLoop, if_pos h]
  | cons o os => cases o <;> rw [sendfileLoop, if_pos h]

theorem sendFd_writes {h : Handling} {ctx : Nat} {res : HttpResponse}
    (hfd : (h.ctxs ctx).httpRes.bodyFd = res.bodyFd)
    (hawait : 0 < (h.ctxs ctx).httpRes.remain → res.Unsent) :
    Writes (WriteAction res) ctx h (h.sendFd ctx).1 := by
  unfold Handling.sendFd
  refine (((Writes.refl _ ctx h).setEnv _).setRes _ ?_).log ⟨hfd, fun hmoved => hawait ?_⟩
  · rfl
  · by_contra hdone
    exact hmoved (by rw [connectionSendFd_done (not_lt.1 hdone)])

theorem sendBody_writes {h h' : Handling} {ctx : Nat} {ret : Int} {res : HttpResponse}
    (hfd : (h.ctxs ctx).httpRes.bodyFd = res.bodyFd)
    (hawait : 0 < res.bodyFd → 0 < (h.ctxs ctx).httpRes.remain → res.Unsent)
    (hbody : sendBody h ctx = .ok (h', ret)) : Writes (WriteAction res) ctx h h' := by
  unfold sendBody at hbody
  simp only at hbody
  split at hbody
  · rename_i hfile
    have a := sendFd_writes hfd (hawait (hfd ▸ hfile))
    split at hbody
    · cases hbody
      exact a
    · split at hbody <;> cases hbody <;> exact a
  · split at hbody
    · split at hbody
      · cases hbody
      · rename_i h₁ ret₁ hsend
        have a := (Writes.refl (WriteAction res) ctx h).send hsend
        split at hbody
        · cases hbody
          exact a
        · split at hbody <;> cases hbody
          · exact a.setRes _ rfl
          · exact a
    · cases hbody
      exact .refl _ _ _

theorem sendHead_writes {h h' : Handling} {ctx : Nat} {ret : Int} {res : HttpResponse}
    (hfd : (h.ctxs ctx).httpRes.bodyFd = res.bodyFd) (hawait : 0 < res.bodyFd → res.Unsent)
    (hhead : sendHead h ctx = .ok (h', ret)) : Writes (WriteAction res) ctx h h' := by
  unfold sendHead at hhead
  split at hhead
  · cases hhead
  · rename_i h₁ ret₁ hsend
    have a := (Writes.refl (WriteAction res) ctx h).send hsend
    split at hhead
    · cases hhead
      exact a
    · split at hhead
      · cases hhead
        exact a.setRes _ rfl
      · have b := a.setRes { (h₁.ctxs ctx).httpRes with sendSt := .body } rfl
        simp only at hhead
        split at hhead
        · split at hhead
          · cases hhead
            exact b.setSendBuf _
          · refine (b.setSendBuf _).trans (sendBody_writes ?_ (fun hf _ => hawait hf) hhead)
            exact b.bodyFd.trans hfd
        · exact b.trans (sendBody_writes (b.bodyFd.trans hfd) (fun hf _ => hawait hf) hhead)

theorem startResponse_writes {h h' : Handling} {ctx : Nat} {ret : Int} {res : HttpResponse}
    (hfd : (h.ctxs ctx).httpRes.bodyFd = res.bodyFd) (hawait : 0 < res.bodyFd → res.Unsent)
    (hstart : startResponse h ctx = .ok (h', ret)) : Writes (WriteAction res) ctx h h' := by
  unfold startResponse at hstart
  split at hstart
  · cases hstart
  · rename_i len hlen
    have a := (Writes.refl (WriteAction res) ctx h).setRes
      { (h.ctxs ctx).httpRes with bodyLen := len } rfl
    refine (a.setSendBuf _).trans (sendHead_writes ?_ hawait hstart)
    exact a.bodyFd.trans hfd

/-- A write sends from the file of its response, and only while something is unsent. -/
theorem httpProtocolWrite_writes {h h' : Handling} {ctx : Nat} {ret : Int}
    (hctx : h.conn.protocolCtx = some ctx) (hwrite : httpProtocolWrite h = .ok (h', ret)) :
    Writes (WriteAction (h.ctxs ctx).httpRes) ctx h h' := by
  have a := (Writes.refl (WriteAction (h.ctxs ctx).httpRes) ctx h).log (x := .useCtx ctx) trivial
  have hawait : (h.ctxs ctx).httpRes.sendSt ≠ .body → 0 < (h.ctxs ctx).httpRes.bodyFd →
      (h.ctxs ctx).httpRes.Unsent := fun hst hfd => ⟨hfd, fun hsent => hst hsent.1⟩
  unfold httpProtocolWrite at hwrite
  rw [hctx] at hwrite
  simp only at hwrite
  split at hwrite
  · rename_i hst
    have hst' : (h.ctxs ctx).httpRes.sendSt = .wait := hst
    have b := (a.setSendBuf (bufferClean (h.log (.useCtx ctx)).conn.sendBuf)).setRes
      { (h.ctxs ctx).httpRes with sendSt := .head } rfl
    exact b.trans (startResponse_writes b.bodyFd (hawait (by rw [hst']; nofun)) hwrite)
  · rename_i hst
    have hst' : (h.ctxs ctx).httpRes.sendSt = .head := hst
    exact a.trans (sendHead_writes rfl (hawait (by rw [hst']; nofun)) hwrite)
  · exact a.trans (sendBody_writes rfl (fun hfd hrem => ⟨hfd, fun hsent => not_lt.2 hsent.2 hrem⟩)
      hwrite)
  · rename_i hst
    have hst' : (h.ctxs ctx).httpRes.sendSt = .done := hst
    exact a.trans (startResponse_writes rfl (hawait (by rw [hst']; nofun)) hwrite)
  · rename_i hst
    have hst' : (h.ctxs ctx).httpRes.sendSt = .error := hst
    exact a.trans (startResponse_writes rfl (hawait (by rw [hst']; nofun)) hwrite)

theorem sendFd_done {h : Handling} {ctx : Nat} (hdone : (h.ctxs ctx).httpRes.remain ≤ 0) :
    (((h.sendFd ctx).1.ctxs ctx).httpRes) = (h.ctxs ctx).httpRes := by
  simp only [Handling.sendFd, connectionSendFd_done hdone, Handling.log, Handling.setRes,
    Handling.setCtx, ↓reduceIte]

theorem sendBody_done {h h' : Handling} {ctx : Nat} {ret : Int}
    (hfile : 0 < (h.ctxs ctx).httpRes.bodyFd) (hdone : (h.ctxs ctx).httpRes.remain ≤ 0)
    (hbody : sendBody h ctx = .ok (h', ret)) :
    (h'.ctxs ctx).httpRes = (h.ctxs ctx).httpRes := by
  unfold sendBody at hbody
  simp only [gt_iff_lt, hfile, ↓reduceIte] at hbody
  split at hbody
  · cases hbody
    exact sendFd_done hdone
  · split at hbody <;> cases hbody <;> exact sendFd_done hdone

/-- What has been sent stays sent. -/
theorem httpProtocolWrite_sent {h h' : Handling} {ctx sent sent' : Nat} {ret : Int}
    (hctx : h.conn.protocolCtx = some ctx) (hwrite : httpProtocolWrite h = .ok (h', ret))
    (hmore : sent ≤ sent') (hsent : ¬ (h.ctxs ctx).httpRes.Awaiting sent) :
    ¬ (h'.ctxs ctx).httpRes.Awaiting sent' := by
  have a := httpProtocolWrite_writes hctx hwrite
  by_cases hfile : 0 < (h.ctxs ctx).httpRes.bodyFd
  · obtain ⟨hst, hlen, hdone⟩ : (h.ctxs ctx).httpRes.sendSt = .body ∧
        (h.ctxs ctx).httpRes.bodyLen ≤ sent ∧ (h.ctxs ctx).httpRes.remain ≤ 0 := by
      by_contra hnot
      exact hsent ⟨hfile, hnot⟩
    have hsame : (h'.ctxs ctx).httpRes = (h.ctxs ctx).httpRes := by
      unfold httpProtocolWrite at hwrite
      rw [hctx] at hwrite
      simp only [Handling.log, hst] at hwrite
      exact sendBody_done (h := h.log (.useCtx ctx)) hfile hdone hwrite
    rw [hsame]
    rintro ⟨-, hleft⟩
    exact hleft ⟨hst, hlen.trans hmore, hdone⟩
  · rintro ⟨hfile', -⟩
    rw [a.bodyFd] at hfile'
    exact hfile hfile'

/-! ## Processing -/

/-- What `get_fd` does for a name: the handling after it, and what it returns. -/
inductive Got (h : Handling) (name : List Byte) : Handling → Int → Prop
  | unnamed : Got h name h (-1)
  | hit (k : Nat) : k < maxCacheCount → (h.cache.fileCache k).str = name → name ≠ [] →
      Got h name h (h.cache.fileCache k).fd
  | unopened : Got h name (h.log (.openFile name none)) (-1)
  | irregular (fd : Nat) : h.env.opened = some fd →
      Got h name ((h.log (.openFile name (some fd))).log (.closeFd fd)) (-1)
  | cached (fd : Nat) : h.env.opened = some fd → name ≠ [] → name.length < maxPathLen →
      h.env.regular = true → findCached h.cache name = none →
      Got h name (cacheFile (h.log (.openFile name (some fd))) fd name) fd

theorem getFd_got (h : Handling) (name : List Byte) : Got h name (getFd h name).1 (getFd h name).2 := by
  unfold getFd
  split
  · exact .unnamed
  · rename_i hname
    have hne : name ≠ [] := by
      rintro rfl
      exact hname (.inl rfl)
    split
    · rename_i k hfound
      have hk := List.mem_of_find?_eq_some hfound
      have hstr := List.find?_some hfound
      rw [decide_eq_true_eq] at hstr
      exact .hit k (List.mem_range.1 hk) hstr.2 hne
    · rename_i hfound
      have henv : ∀ a, (h.log a).env = h.env := fun _ => rfl
      simp only [henv]
      cases hopened : h.env.opened with
      | none => exact .unopened
      | some fd =>
        simp only
        split
        · rename_i hregular
          exact .cached fd hopened hne (by omega) hregular hfound
        · exact .irregular fd hopened

/-- What a request leaves of the files: nothing was asked for, or `get_fd` was. -/
inductive Processed (h : Handling) (ctx : Nat) (h' : Handling) : Prop
  | fileless : h'.cache = h.cache → (h'.ctxs ctx).httpRes.bodyFd = -1 → Handling.Grows Quiet h h' →
      Processed h ctx h'
  | asked (name : List Byte) (g : Handling) (r : Int) :
      httpProtcolCheck (some (h.ctxs ctx)) = 0 →
      requestedFile (h.ctxs ctx).httpReq = some name → Got (initResponse h ctx) name g r →
      h'.cache = g.cache → h'.trace = g.trace →
      (h'.ctxs ctx).httpRes.bodyFd = (if r < 0 then -1 else r) → Processed h ctx h'

theorem Got.ctxs {h g : Handling} {name : List Byte} {r : Int} (hgot : Got h name g r) :
    g.ctxs = h.ctxs := by
  cases hgot with
  | cached fd =>
    simp only [cacheFile]
    split <;> rfl
  | _ => rfl

theorem initResponse_check (h : Handling) (ctx : Nat) :
    httpProtcolCheck (some ((initResponse h ctx).ctxs ctx)) =
      httpProtcolCheck (some (h.ctxs ctx)) := by
  have hreq : ((initResponse h ctx).ctxs ctx).httpReq = (h.ctxs ctx).httpReq := by
    simp [initResponse, Handling.setRes, Handling.setCtx, Handling.setKeepAlive, Handling.log]
  simp only [httpProtcolCheck, hreq]

theorem respondFile_fd {g : Handling} {ctx : Nat} {r st : Int} {name : List Byte}
    (hfd : (g.ctxs ctx).httpRes.bodyFd = -1) :
    (((respondFile g ctx r st name).ctxs ctx).httpRes.bodyFd) = (if r < 0 then -1 else r) := by
  unfold respondFile
  simp only
  split <;> simp [Handling.setRes, Handling.setCtx, httpResponseSet, hfd]

theorem httpProtocolProcess_files {h h' : Handling} {ctx : Nat} {ret : Int}
    (hctx : h.conn.protocolCtx = some ctx) (hproc : httpProtocolProcess h = .ok (h', ret)) :
    Processed h ctx h' := by
  have hbody : ((initResponse h ctx).ctxs ctx).httpRes.bodyFd = -1 := by
    simp [initResponse, Handling.setRes, Handling.setCtx]
  have hreq : ((initResponse h ctx).ctxs ctx).httpReq = (h.ctxs ctx).httpReq := by
    simp [initResponse, Handling.setRes, Handling.setCtx, Handling.setKeepAlive, Handling.log]
  have hquiet : Handling.Grows Quiet h (initResponse h ctx) := by
    refine Handling.Grows.congr (((Handling.Grows.of_eq rfl).log (a := .useCtx ctx) trivial).log
      (a := .process (h.ctxs ctx).httpReq) trivial) rfl
  have hrefuse : ∀ st, Processed h ctx ((initResponse h ctx).setRes ctx
      (httpResponseSet ((initResponse h ctx).ctxs ctx).httpRes st none)) := by
    intro st
    refine .fileless rfl ?_ (hquiet.congr rfl)
    simp [Handling.setRes, Handling.setCtx, httpResponseSet, hbody]
  unfold httpProtocolProcess at hproc
  rw [hctx] at hproc
  simp only at hproc
  split at hproc
  · cases hproc
    exact .fileless rfl hbody hquiet
  · rename_i hcheck
    rw [initResponse_check, not_not] at hcheck
    cases hproc
    have hroute : requestedFile (h.ctxs ctx).httpReq =
        match getRouterFunction ((initResponse h ctx).ctxs ctx).httpReq.path
          ((initResponse h ctx).ctxs ctx).httpReq.method with
        | .mainHome => some indexPath
        | .mainStatic => some (cString (staticName (h.ctxs ctx).httpReq.path ++ [0]))
        | .mainNotFound => none := by
      rw [hreq]
      rfl
    generalize getRouterFunction ((initResponse h ctx).ctxs ctx).httpReq.path
      ((initResponse h ctx).ctxs ctx).httpReq.method = route at hroute ⊢
    have hasked : ∀ name st shown, requestedFile (h.ctxs ctx).httpReq = some name →
        Processed h ctx (respondFile (getFd (initResponse h ctx) name).1 ctx
          (getFd (initResponse h ctx) name).2 st shown) := by
      intro name st shown hname
      have hgot := getFd_got (initResponse h ctx) name
      obtain ⟨hcache, htrace⟩ := respondFile_same (getFd (initResponse h ctx) name).1 ctx
        (getFd (initResponse h ctx) name).2 st shown
      refine .asked name _ _ hcheck hname hgot hcache htrace (respondFile_fd ?_)
      rw [hgot.ctxs]
      exact hbody
    cases route with
    | mainHome => exact hasked _ _ _ hroute
    | mainStatic =>
      simp only [RouterFunction.call, mainStatic, hreq]
      split
      · exact hrefuse 400
      · split
        · exact hrefuse 400
        · exact hasked _ _ _ hroute
    | mainNotFound => exact hrefuse 404

theorem RouteSteps.others {ctx : Nat} {h h' : Handling} (hsteps : RouteSteps ctx h h') :
    ∀ p, p ≠ ctx → h'.ctxs p = h.ctxs p := by
  induction hsteps using Relation.ReflTransGen.trans_induction_on with
  | refl => exact fun _ _ => rfl
  | single hstep =>
    intro p hp
    cases hstep with
    | openFile | closeFd | cache => rfl
    | response => simp only [Handling.setRes, Handling.setCtx, if_neg hp]
  | trans _ _ a b => exact fun p hp => (b p hp).trans (a p hp)

/-- Only the response of its own connection is changed by a request. -/
theorem httpProtocolProcess_others {h h' : Handling} {ctx : Nat} {ret : Int}
    (hctx : h.conn.protocolCtx = some ctx) (hproc : httpProtocolProcess h = .ok (h', ret)) :
    ∀ p, p ≠ ctx → h'.ctxs p = h.ctxs p := by
  intro p hp
  rw [(RouteSteps.process hctx hproc).others p hp]
  simp [initResponse, Handling.setRes, Handling.setCtx, Handling.setKeepAlive, Handling.log, hp]

/-! ## Closing -/

/-- The step sends, and leaves the responses and the files alone. -/
structure SendsOnly (h h' : Handling) : Prop where
  ctxs : h'.ctxs = h.ctxs
  cache : h'.cache = h.cache
  fd : h'.conn.fd = h.conn.fd
  trace : Handling.Grows Quiet h h'

namespace SendsOnly

variable {h h₁ h₂ : Handling}

theorem send {ret : Int} (a : SendsOnly h h₁) (hsend : h₁.send = .ok (h₂, ret)) :
    SendsOnly h h₂ := by
  unfold Handling.send at hsend
  split at hsend
  · cases hsend
  · rename_i s hs
    cases hsend
    exact ⟨a.ctxs, a.cache, (connectionSend_hold hs).fd.trans a.fd, (a.trace.congr rfl).log trivial⟩

theorem closeLoop {ret : Int} (fuel : Nat) : ∀ {h₁ : Handling}, SendsOnly h h₁ →
    closeLoop fuel h₁ = .ok (h₂, ret) → SendsOnly h h₂ := by
  induction fuel with
  | zero =>
    intro h₁ _ hloop
    cases hloop
  | succ fuel ih =>
    intro h₁ a hloop
    rw [PingServer.closeLoop] at hloop
    split at hloop
    · cases hloop
    · rename_i h₃ ret₃ hsend
      have b := a.send hsend
      split at hloop
      · cases hloop
        exact b
      · split at hloop
        · cases hloop
          exact b
        · exact ih b hloop

theorem clear {h' : Handling} (hclear : connectionClearProtocol h = .ok h') : SendsOnly h h' := by
  have hrefl : SendsOnly h h := ⟨rfl, rfl, rfl, .of_eq rfl⟩
  unfold connectionClearProtocol at hclear
  split at hclear
  · split at hclear
    · cases hclear
    · rename_i h₁ ret hclose
      cases hclear
      have hclosed : SendsOnly h h₁ := by
        unfold httpProtocolClose at hclose
        split at hclose
        · cases hclose
          exact hrefl
        · simp only at hclose
          split at hclose
          · cases hclose
          · rename_i hloop
            cases hclose
            have hset : ∀ b, SendsOnly h (h.setSendBuf b) := fun _ => ⟨rfl, rfl, rfl, .of_eq rfl⟩
            have a := (hset _).closeLoop _ hloop
            exact ⟨a.ctxs, a.cache, a.fd, (a.trace.congr rfl).log trivial⟩
      exact ⟨hclosed.ctxs, hclosed.cache, hclosed.fd, hclosed.trace.congr rfl⟩
  · cases hclear

end SendsOnly

end PingServer
