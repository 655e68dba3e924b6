import PingServer.Protocol.Sending
import PingServer.Route.FileSteps
import PingServer.Route.StaticFiles

/-!
# What a request is answered with

The answer of `http_protocol_process` as a function of the request, of the file that
`get_fd` finds for it, and of the response that was there before.
-/

namespace PingServer

open ByteMem

/-- The descriptor for the file of a request, and -1 if there is none. -/
def fileOf (h : Handling) (req : HttpRequest) : Int :=
  match requestedFile req with
  | some name => if (getFd h name).2 < 0 then -1 else (getFd h name).2
  | none => -1

/-- The answer to a request whose file is open as `fd`, in the place of `res`. -/
def replyTo (req : HttpRequest) (fd : Int) (res : HttpResponse) : HttpResponse :=
  let res := { res with bodyFd := -1, sendSt := .wait }
  let file := fun st name =>
    if fd < 0 then httpResponseSet res st none
    else httpResponseSet { res with bodyFd := fd } 200 (some name)
  match getRouterFunction req.path req.method with
  | .mainHome => file 500 indexPath
  | .mainStatic =>
    let name := staticName req.path
    if name.length = 0 ∨ maxPathLen ≤ name.length then httpResponseSet res 400 none
    else file 404 name
  | .mainNotFound => httpResponseSet res 404 none

/-! ## The router answers -/

section

variable {h g : Handling} {ctx : Nat}

theorem getFd_result (name : List Byte) (hcache : g.cache = h.cache) (henv : g.env = h.env) :
    (getFd g name).2 = (getFd h name).2 := by
  obtain ⟨conn, arena, ctxs, cache, env, trace⟩ := h
  obtain ⟨conn', arena', ctxs', cache', env', trace'⟩ := g
  obtain rfl : cache' = cache := hcache
  obtain rfl : env' = env := henv
  obtain ⟨now, recvs, sends, sendfiles, opened, regular, fileSize, modOk⟩ := env'
  unfold getFd
  dsimp only
  split
  · rfl
  · split
    · rfl
    · cases opened with
      | none => rfl
      | some fd => cases regular <;> rfl

theorem getFd_unnamed {name : List Byte} (hname : name.length = 0 ∨ maxPathLen ≤ name.length) :
    (getFd h name).2 = -1 := by
  unfold getFd
  rw [if_pos hname]

theorem respondFile_reply {res : HttpResponse} (hres : (h.ctxs ctx).httpRes = res) (fd st : Int)
    (name : List Byte) : (respondFile h ctx fd st name).ctxs ctx = { h.ctxs ctx with
      httpRes := if fd < 0 then httpResponseSet res st none
        else httpResponseSet { res with bodyFd := fd } 200 (some name) } := by
  unfold respondFile
  simp only [hres]
  split <;> simp only [Handling.setRes, Handling.setCtx, ↓reduceIte]

theorem httpProtocolProcess_refuses (hctx : h.conn.protocolCtx = some ctx)
    (hcheck : httpProtcolCheck (some (h.ctxs ctx)) ≠ 0) :
    httpProtocolProcess h = .ok (initResponse h ctx, tcpProtoClose) := by
  unfold httpProtocolProcess
  simp only [hctx, initResponse_check, if_pos hcheck]

/-- The router has answered: the connection goes on with the reply in its context. -/
structure Answered (h : Handling) (ctx : Nat) (g : Handling) : Prop where
  conn : g.conn = { h.conn with isKeepAlive := decide ((h.ctxs ctx).httpReq.minorVersion ≠ 0) }
  own : g.ctxs ctx = { h.ctxs ctx with
    httpRes := replyTo (h.ctxs ctx).httpReq (fileOf h (h.ctxs ctx).httpReq) (h.ctxs ctx).httpRes }

theorem initResponse_ctx (h : Handling) (ctx : Nat) : (initResponse h ctx).ctxs ctx =
    { h.ctxs ctx with httpRes := { (h.ctxs ctx).httpRes with bodyFd := -1, sendSt := .wait } } := by
  simp only [initResponse, Handling.setRes, Handling.setCtx, Handling.setKeepAlive, Handling.log,
    ↓reduceIte]

theorem httpProtocolProcess_answers_with (hctx : h.conn.protocolCtx = some ctx)
    (hcheck : httpProtcolCheck (some (h.ctxs ctx)) = 0) :
    ∃ g, httpProtocolProcess h = .ok (g, tcpProtoSend) ∧ Answered h ctx g := by
  have hinit := initResponse_ctx h ctx
  have hproc : httpProtocolProcess h = .ok ((getRouterFunction (h.ctxs ctx).httpReq.path
      (h.ctxs ctx).httpReq.method).call (initResponse h ctx) ctx, tcpProtoSend) := by
    unfold httpProtocolProcess
    simp only [hctx, initResponse_check, hcheck, ne_eq, not_true_eq_false, ↓reduceIte]
    rw [hinit]
  refine ⟨_, hproc, (RouteSteps.process hctx hproc).conn, ?_⟩
  have hsafe := (httpProtcolCheck_eq_zero.1 hcheck).1.path
  have hfile : ∀ name st shown, requestedFile (h.ctxs ctx).httpReq = some name →
      (respondFile (getFd (initResponse h ctx) name).1 ctx (getFd (initResponse h ctx) name).2 st
        shown).ctxs ctx = { h.ctxs ctx with
          httpRes := if fileOf h (h.ctxs ctx).httpReq < 0 then
              httpResponseSet { (h.ctxs ctx).httpRes with bodyFd := -1, sendSt := .wait } st none
            else httpResponseSet { (h.ctxs ctx).httpRes with
              bodyFd := fileOf h (h.ctxs ctx).httpReq, sendSt := .wait } 200 (some shown) } := by
    intro name st shown hname
    have hctxs := (getFd_got (initResponse h ctx) name).ctxs
    have hresult := @getFd_result h (initResponse h ctx) name rfl rfl
    rw [respondFile_reply rfl, hctxs, hinit, hresult]
    unfold fileOf
    simp only [hname]
    by_cases hneg : (getFd h name).2 < 0
    · simp only [if_pos hneg, show (-1 : Int) < 0 by decide, ↓reduceIte]
    · simp only [if_neg hneg]
  unfold replyTo
  cases hroute : getRouterFunction (h.ctxs ctx).httpReq.path (h.ctxs ctx).httpReq.method with
  | mainHome =>
    have hname : requestedFile (h.ctxs ctx).httpReq = some indexPath := by
      unfold requestedFile
      rw [hroute]
    exact hfile indexPath 500 indexPath hname
  | mainNotFound =>
    simp only [RouterFunction.call, mainNotFound, Handling.setRes, Handling.setCtx, hinit, ↓reduceIte]
  | mainStatic =>
    obtain ⟨-, hhead, -, -⟩ := isSafePath_spec hsafe
    have hname : requestedFile (h.ctxs ctx).httpReq =
        some (staticName (h.ctxs ctx).httpReq.path) := by
      unfold requestedFile
      simp only [hroute, cString_eq (staticName_noNul hsafe)]
    simp only [RouterFunction.call, mainStatic, hinit, if_neg (starts_with_slash hhead)]
    split
    · simp only [Handling.setRes, Handling.setCtx, hinit, ↓reduceIte]
    · rw [cString_eq (staticName_noNul hsafe)]
      exact hfile _ 404 _ hname

end

/-! ## The kinds of replies -/

theorem contentTypeByName_length (name : List Byte) : (contentTypeByName name).length ≤ 64 := by
  have htable : ∀ entry ∈ contentTypeTable, entry.2.length ≤ 64 := by decide
  have htxt : contentTxt.length ≤ 64 := by decide
  unfold contentTypeByName
  simp only
  split
  · split
    · split
      · rename_i entry hfound
        exact htable entry (List.mem_of_find?_eq_some hfound)
      · exact htxt
    · exact htxt
  · exact htxt

/-- A reply is an error page, or an open file. -/
inductive Reply (fd : Int) (res : HttpResponse) : HttpResponse → Prop
  | page (st : Int) : st.natAbs < 1000 →
      Reply fd res (httpResponseSet { res with bodyFd := -1, sendSt := .wait } st none)
  | file (name : List Byte) : 0 ≤ fd →
      Reply fd res (httpResponseSet { res with bodyFd := fd, sendSt := .wait } 200 (some name))

section

variable {req : HttpRequest} {fd fd' : Int} {res res' reply : HttpResponse}

theorem replyTo_reply (req : HttpRequest) (fd : Int) (res : HttpResponse) :
    Reply fd res (replyTo req fd res) := by
  have hfile : ∀ (st : Int) (name : List Byte), st.natAbs < 1000 →
      Reply fd res (if fd < 0 then
          httpResponseSet { res with bodyFd := -1, sendSt := .wait } st none
        else httpResponseSet { res with bodyFd := fd, sendSt := .wait } 200 (some name)) := by
    intro st name hst
    split
    · exact .page st hst
    · exact .file name (by omega)
  unfold replyTo
  cases getRouterFunction req.path req.method with
  | mainStatic =>
    dsimp only
    split
    · exact .page 400 (by decide)
    · exact hfile 404 _ (by decide)
  | mainHome => exact hfile 500 _ (by decide)
  | mainNotFound => exact .page 404 (by decide)

theorem Reply.sendSt (h : Reply fd res reply) : reply.sendSt = .wait := by
  cases h <;> rfl

/-- The offset into the file of the response before is kept. -/
theorem Reply.bodyOff (h : Reply fd res reply) : reply.bodyOff = res.bodyOff := by
  cases h <;> rfl

theorem Reply.routed (h : Reply fd res reply) : reply.Routed := by
  cases h with
  | page st hst =>
    exact ⟨⟨hst, show contentTxt.length ≤ 64 by decide⟩, fun _ => show (-1 : Int) < 0 by decide⟩
  | file name hfd =>
    refine ⟨⟨show (200 : Int).natAbs < 1000 by decide, contentTypeByName_length name⟩, fun hbody => ?_⟩
    cases hbody

/-- What is not a file is a string. -/
theorem Reply.text (h : Reply fd res reply) (hfd : reply.bodyFd < 0) : reply.body.isSome = true := by
  cases h with
  | page => rfl
  | file name hpos => exact absurd hfd (not_lt.2 hpos)

/-- The same description up to the numbers of descriptors. -/
structure HttpResponse.Alike (res res' : HttpResponse) : Prop where
  status : res'.statusCode = res.statusCode
  contentType : res'.contentType = res.contentType
  body : res'.body = res.body
  bodyFd : res'.bodyFd.sign = res.bodyFd.sign

/-- Nothing that a response had before is seen in a reply. -/
theorem replyTo_alike (hfd : fd'.sign = fd.sign) : (replyTo req fd res).Alike (replyTo req fd' res') := by
  have hneg : fd' < 0 ↔ fd < 0 := by
    rw [← Int.sign_eq_neg_one_iff_neg, hfd, Int.sign_eq_neg_one_iff_neg]
  unfold replyTo
  simp only [hneg]
  cases getRouterFunction req.path req.method with
  | mainStatic =>
    dsimp only
    split
    · exact ⟨rfl, rfl, rfl, rfl⟩
    · split
      · exact ⟨rfl, rfl, rfl, rfl⟩
      · exact ⟨rfl, rfl, rfl, hfd⟩
  | mainHome =>
    dsimp only
    split
    · exact ⟨rfl, rfl, rfl, rfl⟩
    · exact ⟨rfl, rfl, rfl, hfd⟩
  | mainNotFound => exact ⟨rfl, rfl, rfl, rfl⟩

/-- A reply has the file of its request, if there is one. -/
theorem replyTo_fileOf {h : Handling} (hsafe : isSafePath req.path = true) :
    (replyTo req (fileOf h req) res).bodyFd = fileOf h req := by
  have hkept : fileOf h req < 0 → fileOf h req = -1 := by
    unfold fileOf
    split
    · split
      · exact fun _ => rfl
      · exact fun hneg => absurd hneg ‹_›
    · exact fun _ => rfl
  unfold replyTo
  cases hroute : getRouterFunction req.path req.method with
  | mainStatic =>
    dsimp only
    split
    · rename_i hlong
      have hname : requestedFile req = some (staticName req.path) := by
        unfold requestedFile
        simp only [hroute, cString_eq (staticName_noNul hsafe)]
      unfold fileOf
      rw [hname]
      simp only [getFd_unnamed hlong]
      rfl
    · split
      · rename_i hneg
        exact (hkept hneg).symm
      · rfl
  | mainHome =>
    dsimp only
    split
    · rename_i hneg
      exact (hkept hneg).symm
    · rfl
  | mainNotFound =>
    have hnone : requestedFile req = none := by
      unfold requestedFile
      rw [hroute]
    unfold fileOf
    rw [hnone]
    rfl

end

end PingServer
