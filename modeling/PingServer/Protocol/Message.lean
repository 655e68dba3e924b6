import PingServer.Lib.Bytes

/-!
# Requests, responses and their context

`http.h`. Pointers into the read buffer are the bytes they point at, which is
how they are used: a request is read by the parser and used up before the buffer
changes again.
-/

namespace PingServer

open ByteMem

/-! ## Codes of `def.h` and `errno.h` -/

def errorBufferFull : Int := -2
def errorConnFull : Int := -5
def errorHttpParse : Int := -8
def errorHttpNeedMore : Int := -9
def errorMemFull : Int := -12
def eagain : Int := 11

/-- `enum conn_send_ret`; `connection_send` also returns `ERROR_CONN_FULL`. -/
def connSendDone : Int := 0
def connSendPartial : Int := 1
def connSendError : Int := 2

/-- `enum tcp_proto_ret`. -/
def tcpProtoClose : Int := 0
def tcpProtoSend : Int := 1

/-! ## Messages -/

structure PhrHeader where
  name : List Byte
  value : List Byte
  deriving DecidableEq, Repr

/-- `headers` are the first `num_headers` entries of the table. -/
structure HttpRequest where
  method : List Byte
  path : List Byte
  bodyLen : Nat
  headers : List PhrHeader
  lastLen : Nat
  minorVersion : Int
  deriving DecidableEq, Repr

/-- `enum http_send_ret`. -/
inductive HttpSendRet where
  | wait | head | body | done | error
  deriving DecidableEq, Repr

structure HttpResponse where
  contentType : Option (List Byte)
  body : Option (List Byte)
  bodyLen : Nat
  statusCode : Int
  bodyFd : Int
  bodyOff : Nat
  sendSt : HttpSendRet
  deriving DecidableEq, Repr

structure HttpContext where
  httpReq : HttpRequest
  httpRes : HttpResponse
  deriving DecidableEq, Repr

/-- What `memset` leaves in a new context. -/
def HttpContext.zero : HttpContext where
  httpReq := ⟨[], [], 0, [], 0, 0⟩
  httpRes := ⟨none, none, 0, 0, 0, 0, .wait⟩

/-- `sizeof(HttpContext)`: 32 headers of four words, eight words and an `int` of
the request, and six words of the response. -/
abbrev sizeofHttpContext : Nat := 1144

end PingServer
