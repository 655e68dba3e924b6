import PingServer.Route.Router

/-!
# The HTTP protocol handler

`http.c`. The parser is a parameter: a `Parser` gives what `phr_parse_request`
returns for the valid bytes of the read buffer and the `last_len` it is passed.
-/

namespace PingServer

open ByteMem

/-- What one call of `phr_parse_request` returns and stores. -/
structure Parsed where
  ret : Int
  method : List Byte
  path : List Byte
  minorVersion : Int
  headers : List PhrHeader
  deriving DecidableEq, Repr

abbrev Parser := (buf : List Byte) → (lastLen : Nat) → Parsed

/-! ## Reading -/

/-- The handling with a zeroed context, and its address; `ERROR_MEM_FULL` is `none`. -/
def httpInit (h : Handling) : Option (Handling × Nat) :=
  match arenaAllocRefBlock h.arena sizeofHttpContext with
  | none => none
  | some (a, ctx) =>
    let h := { h with arena := a, conn := { h.conn with protocolCtx := some ctx } }
    some ((h.setCtx ctx HttpContext.zero).log (.allocCtx ctx), ctx)

/-- `http_protocol_read` once there is a context. A negative result other than -2
is an error; -2 is kept in `last_len`, which is a `size_t`. -/
def httpParse (parse : Parser) (h : Handling) (ctx : Nat) : Handling × Int :=
  let h := h.log (.useCtx ctx)
  let req := (h.ctxs ctx).httpReq
  let p := parse h.conn.readBuf.bytes req.lastLen
  let req := { req with
    method := p.method, path := p.path, minorVersion := p.minorVersion, headers := p.headers }
  if p.ret < 0 then
    if p.ret ≠ -2 then (h.setReq ctx req, errorHttpParse)
    else (h.setReq ctx { req with lastLen := 2 ^ 64 - 2 }, errorHttpNeedMore)
  else (h.setReq ctx { req with lastLen := 0 }, 0)

def httpProtocolRead (parse : Parser) (h : Handling) : Handling × Int :=
  match h.conn.protocolCtx with
  | some ctx => httpParse parse h ctx
  | none =>
    match httpInit h with
    | none => (h, errorMemFull)
    | some (h, ctx) => httpParse parse h ctx

/-! ## Processing -/

def Handling.setKeepAlive (h : Handling) (b : Bool) : Handling :=
  { h with conn := { h.conn with isKeepAlive := b } }

/-- What `http_protocol_process` sets before it checks the request. -/
def initResponse (h : Handling) (ctx : Nat) : Handling :=
  let req := (h.ctxs ctx).httpReq
  let h := ((h.log (.useCtx ctx)).log (.process req)).setKeepAlive (req.minorVersion ≠ 0)
  h.setRes ctx { (h.ctxs ctx).httpRes with bodyFd := -1, sendSt := .wait }

def httpProtocolProcess (h : Handling) : Except Fault (Handling × Int) :=
  match h.conn.protocolCtx with
  | none => .error .nullContext
  | some ctx =>
    let h := initResponse h ctx
    let req := (h.ctxs ctx).httpReq
    if httpProtcolCheck (some (h.ctxs ctx)) ≠ 0 then .ok (h, tcpProtoClose)
    else .ok ((getRouterFunction req.path req.method).call h ctx, tcpProtoSend)

/-! ## Writing -/

/-- `%d` and `%lu`. -/
def decimal (x : Int) : List Byte :=
  (if x < 0 then [ch '-'] else []) ++ (Nat.toDigits 10 x.natAbs).map ch

def getReasonPhrase (status : Int) : List Byte :=
  if status = 200 then utf8 "OK"
  else if status = 201 then utf8 "Created"
  else if status = 204 then utf8 "No Content"
  else if status = 400 then utf8 "Bad Request"
  else if status = 403 then utf8 "Forbidden"
  else if status = 404 then utf8 "Not Found"
  else if status = 500 then utf8 "Internal Server Error"
  else if status = 501 then utf8 "Not Implemented"
  else utf8 "Unknown"

/-- The head that both the write and the close handler print. -/
def headText (status : Int) (contentType : List Byte) (length : Nat) (connection : List Byte) :
    List Byte :=
  utf8 "HTTP/1.1 " ++ decimal status ++ utf8 " " ++ getReasonPhrase status ++ utf8 "\r\n" ++
    utf8 "Content-Type: " ++ contentType ++ utf8 "\r\n" ++
    utf8 "Content-Length: " ++ decimal length ++ utf8 "\r\n" ++
    utf8 "Connection: " ++ connection ++ utf8 "\r\n" ++ utf8 "\r\n"

/-- `buf->len += snprintf(buf->data, buf->cap, ..)`. -/
def Buffer.print (b : Buffer) (text : List Byte) : Buffer :=
  { b with
    data := if b.cap = 0 then b.data else storeBytes b.data 0 (text.take (b.cap - 1) ++ [0])
    len := b.len + text.length }

def Handling.setSendBuf (h : Handling) (b : Buffer) : Handling :=
  { h with conn := { h.conn with sendBuf := b } }

/-- `connection_send` on the send buffer. -/
def Handling.send (h : Handling) : Except Fault (Handling × Int) :=
  match connectionSend h.conn h.env.sends h.env.now with
  | .error f => .error f
  | .ok s =>
    .ok (({ h with conn := s.conn, env := { h.env with sends := s.sends } } : Handling).log
      (.send h.conn.fd s.bytes), s.ret)

/-- `connection_send_fd` on the file of the response. -/
def Handling.sendFd (h : Handling) (ctx : Nat) : Handling × Int :=
  let res := (h.ctxs ctx).httpRes
  let s := connectionSendFd h.env.fileSize h.env.sendfiles res.bodyOff (res.bodyLen % 2 ^ 32)
  let h := { h with env := { h.env with sendfiles := s.outcomes } }
  ((h.setRes ctx { res with bodyOff := s.offset }).log (.sendFile h.conn.fd res.bodyFd s.moved),
    s.ret)

def httpSendHead : Int := 1
def httpSendError : Int := 4

/-- From the label `send_body` on. -/
def sendBody (h : Handling) (ctx : Nat) : Except Fault (Handling × Int) :=
  let res := (h.ctxs ctx).httpRes
  if res.bodyFd > 0 then
    let (h, ret) := h.sendFd ctx
    if ret = connSendError then .ok (h, httpSendError)
    else if ret = connSendPartial then .ok (h, connSendPartial)
    else .ok (h, connSendDone)
  else if res.body.isSome then
    match h.send with
    | .error f => .error f
    | .ok (h, ret) =>
      if ret = connSendPartial then .ok (h, httpSendHead)
      else if ret = connSendError then
        .ok (h.setRes ctx { (h.ctxs ctx).httpRes with sendSt := .error }, connSendError)
      else .ok (h, connSendDone)
  else .ok (h, connSendDone)

/-- From the label `send_head` on. -/
def sendHead (h : Handling) (ctx : Nat) : Except Fault (Handling × Int) :=
  match h.send with
  | .error f => .error f
  | .ok (h, ret) =>
    if ret = connSendPartial then .ok (h, httpSendHead)
    else if ret = connSendError then
      .ok (h.setRes ctx { (h.ctxs ctx).httpRes with sendSt := .error }, connSendError)
    else
      let h := h.setRes ctx { (h.ctxs ctx).httpRes with sendSt := .body }
      let res := (h.ctxs ctx).httpRes
      if res.bodyFd ≤ 0 then
        let buf := bufferClean h.conn.sendBuf
        if buf.cap < res.bodyLen then .ok (h.setSendBuf buf, httpSendError)
        else
          let data := storeBytes buf.data 0 ((res.body.getD []).take res.bodyLen)
          sendBody (h.setSendBuf { buf with data := data, len := res.bodyLen }) ctx
      else sendBody h ctx

/-- The size of the body: `fstat` gives 0 for a descriptor that is not open. -/
def bodyLength (h : Handling) (res : HttpResponse) : Except Fault Nat :=
  if res.bodyFd ≠ 0 then .ok (if res.bodyFd < 0 then 0 else h.env.fileSize)
  else
    match res.body with
    | some body => .ok (cString body).length
    | none => .error .nullPointer

/-- Print the head of a new response and start to send it. -/
def startResponse (h : Handling) (ctx : Nat) : Except Fault (Handling × Int) :=
  match bodyLength h (h.ctxs ctx).httpRes with
  | .error f => .error f
  | .ok len =>
    let h := h.setRes ctx { (h.ctxs ctx).httpRes with bodyLen := len }
    let res := (h.ctxs ctx).httpRes
    let connection := if h.conn.isKeepAlive then utf8 "keep-alive" else utf8 "close"
    let text := headText res.statusCode (res.contentType.getD contentTxt) res.bodyLen connection
    sendHead (h.setSendBuf (h.conn.sendBuf.print text)) ctx

def httpProtocolWrite (h : Handling) : Except Fault (Handling × Int) :=
  match h.conn.protocolCtx with
  | none => .error .nullContext
  | some ctx =>
    let h := h.log (.useCtx ctx)
    match (h.ctxs ctx).httpRes.sendSt with
    | .wait =>
      let h := h.setSendBuf (bufferClean h.conn.sendBuf)
      startResponse (h.setRes ctx { (h.ctxs ctx).httpRes with sendSt := .head }) ctx
    | .head => sendHead h ctx
    | .body => sendBody h ctx
    | .done | .error => startResponse h ctx

/-! ## Closing -/

/-- The loop of `http_protocol_close`. Each turn but the refused ones uses up one
request; once they are used up the loop repeats itself. -/
def closeLoop : (fuel : Nat) → Handling → Except Fault (Handling × Int)
  | 0, _ => .error .hang
  | fuel + 1, h =>
    match h.send with
    | .error f => .error f
    | .ok (h, ret) =>
      if ret = connSendDone then .ok (h, 0)
      else if ret = connSendError then .ok (h, httpSendError)
      else closeLoop fuel h

def httpProtocolClose (h : Handling) : Except Fault (Handling × Int) :=
  match h.conn.protocolCtx with
  | none => .ok (h, 0)
  | some ctx =>
    let text := headText 200 contentTxt 0 (utf8 "close")
    let h := h.setSendBuf ((bufferClean h.conn.sendBuf).print text)
    match closeLoop (h.conn.maxRequestCount - h.conn.requestCount + 1) h with
    | .error f => .error f
    | .ok (h, ret) =>
      .ok (({ h with arena := arenaRecycleRef h.arena ctx } : Handling).log (.recycleCtx ctx), ret)

/-- `connection_clear_protocol`. -/
def connectionClearProtocol (h : Handling) : Except Fault Handling :=
  if h.conn.protocolHandler then
    match httpProtocolClose h with
    | .error f => .error f
    | .ok (h, _) =>
      .ok { h with conn := { h.conn with protocolHandler := false, protocolCtx := none } }
  else .error .nullHandler

end PingServer
