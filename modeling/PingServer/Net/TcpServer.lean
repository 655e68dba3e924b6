import PingServer.Protocol.Http
import PingServer.Ds.IdList

/-!
# The server

`tcp_server.c`. Connections, their tcp and their timer contexts lie in three
arrays; a connection has the index of its tcp context. `error_reason` is left
out, since it is only printed. `opened` and `dead` are not in the source: the
pairs of contexts of the connections that were created and not yet deleted, and
the contexts that handlers have deleted since `epoll_wait` returned.
-/

namespace PingServer

open ByteMem

inductive EventContext where
  | listen
  | tcp (idx : Nat)
  | timer (idx : Nat)
  deriving DecidableEq, Repr

structure EventTcpContext where
  eFd : Int
  timeEvent : Option Nat
  deriving DecidableEq, Repr

structure EventTimerContext where
  eFd : Int
  outTime : Nat
  tcpEvent : Option Nat
  deriving DecidableEq, Repr

structure TcpServer where
  connArray : Nat → Connection
  eventTcpArray : Nat → EventTcpContext
  eventTimerArray : Nat → EventTimerContext
  tcpIdList : IdList
  timerIdList : IdList
  memArena : MemoryArena
  ctxs : Nat → HttpContext
  cache : RouterCache
  totalConnections : Nat
  currentConnections : Nat
  maxConnections : Nat
  running : Bool
  connectionId : Nat
  trace : List Action
  opened : List (Nat × Nat)
  dead : List EventContext

abbrev tcpServerDefaultOutTime : Nat := 1000

namespace TcpServer

def log (s : TcpServer) (a : Action) : TcpServer := { s with trace := s.trace ++ [a] }

/-- What a handler of connection `i` works on. -/
def handling (s : TcpServer) (i : Nat) (env : Env) : Handling where
  conn := s.connArray i
  arena := s.memArena
  ctxs := s.ctxs
  cache := s.cache
  env := env
  trace := s.trace

/-- The server after that work. -/
def absorb (s : TcpServer) (i : Nat) (h : Handling) : TcpServer :=
  { s with
    connArray := fun k => if k = i then h.conn else s.connArray k
    memArena := h.arena
    ctxs := h.ctxs
    cache := h.cache
    trace := h.trace }

def setTcp (s : TcpServer) (i : Nat) (ctx : EventTcpContext) : TcpServer :=
  { s with eventTcpArray := fun k => if k = i then ctx else s.eventTcpArray k }

def setTimer (s : TcpServer) (j : Nat) (ctx : EventTimerContext) : TcpServer :=
  { s with eventTimerArray := fun k => if k = j then ctx else s.eventTimerArray k }

end TcpServer

/-! ## One connection -/

/-- What a handler decides about its connection. -/
inductive Verdict where
  | keep | close
  deriving DecidableEq, Repr

/-- `is_close_connection`, where the server holds `current` of at most `max`. -/
def isCloseConnection (current max : Nat) (conn : Connection) : Bool :=
  if current ≥ max / 10 * 9 then true
  else if conn.connSt = .closing then true
  else if conn.isKeepAlive then decide (conn.requestCount ≤ 2 ∧ conn.connSt = .idle)
  else true

/-- A connection with keep-alive is hung up for load, or when it idles early. -/
theorem isCloseConnection_keepAlive {current max : Nat} {conn : Connection}
    (hkeep : conn.isKeepAlive = true) (hst : conn.connSt ≠ .closing) :
    isCloseConnection current max conn =
      decide (max / 10 * 9 ≤ current ∨ conn.requestCount ≤ 2 ∧ conn.connSt = .idle) := by
  unfold isCloseConnection
  by_cases hload : max / 10 * 9 ≤ current
  · simp only [ge_iff_le, hload, ↓reduceIte, true_or, decide_true]
  · simp only [ge_iff_le, hload, hst, hkeep, ↓reduceIte, false_or]

theorem isCloseConnection_once {current max : Nat} {conn : Connection}
    (honce : conn.isKeepAlive = false) : isCloseConnection current max conn = true := by
  unfold isCloseConnection
  simp only [honce, Bool.false_eq_true, ↓reduceIte, ite_self]

/-- Behind a read event a connection is hung up for load, or without keep-alive. -/
theorem isCloseConnection_reading {current max : Nat} {conn : Connection}
    (hst : conn.connSt = .reading) : isCloseConnection current max conn = true ↔
      max / 10 * 9 ≤ current ∨ conn.isKeepAlive = false := by
  cases hkeep : conn.isKeepAlive with
  | false =>
    rw [isCloseConnection_once hkeep]
    exact iff_of_true rfl (.inr rfl)
  | true =>
    rw [isCloseConnection_keepAlive hkeep (hst ▸ ConnectionStatus.noConfusion), hst]
    simp

def verdict (current max : Nat) (h : Handling) : Handling × Verdict :=
  (h, if isCloseConnection current max h.conn then .close else .keep)

theorem verdict_close {current max : Nat} {h : Handling} :
    (verdict current max h).2 = .close ↔ isCloseConnection current max h.conn = true := by
  unfold verdict
  by_cases hclose : isCloseConnection current max h.conn = true <;> simp [hclose]

/-- `tcpserver_tcp_on_read` up to the call of `on_error`. -/
def tcpOnRead (parse : Parser) (current max : Nat) (h : Handling) :
    Except Fault (Handling × Verdict) :=
  let (conn, connRet) := connectionRecv h.conn h.env.recvs h.env.now
  let h := { h with conn := conn }
  if connRet ≠ eagain ∧ connRet ≠ 0 then .ok (h, .close)
  else if h.conn.protocolHandler = false then .error .nullHandler
  else
    let (h, parseRet) := httpProtocolRead parse h
    if parseRet < 0 then .ok (h, if parseRet ≠ errorHttpNeedMore then .close else .keep)
    else
      match httpProtocolProcess h with
      | .error f => .error f
      | .ok (h, protoRet) =>
        if protoRet < 0 then .ok (h, .close)
        else if protoRet = tcpProtoSend then
          if h.env.modOk then .ok (verdict current max (h.log (.epollMod h.conn.fd true)))
          else .error .assertion
        else if protoRet = tcpProtoClose then
          match httpProtocolClose h with
          | .error f => .error f
          | .ok (h, ret) => if ret ≥ 0 then .ok (h, .close) else .error .assertion
        else .error .assertion

/-- `tcpserver_tcp_on_write` up to the call of `on_error`. -/
def tcpOnWrite (current max : Nat) (h : Handling) : Except Fault (Handling × Verdict) :=
  if h.conn.protocolHandler = false then .error .nullHandler
  else
    match httpProtocolWrite h with
    | .error f => .error f
    | .ok (h, _) =>
      match h.conn.protocolCtx with
      | none => .error .nullContext
      | some ctx =>
        match (h.ctxs ctx).httpRes.sendSt with
        | .done =>
          if h.env.modOk then
            let h := h.log (.epollMod h.conn.fd false)
            let conn := { h.conn with
              sendBuf := bufferClean h.conn.sendBuf, readBuf := bufferClean h.conn.readBuf }
            .ok (verdict current max { h with conn := conn })
          else .error .assertion
        | .wait | .head | .body => .ok (verdict current max h)
        | .error => .ok (h, .close)

/-! ## Deleting a connection -/

/-- `write` of `temp_array`, one byte that stays 0; nobody asks whether it was written. -/
def lastAck : List SendOutcome → List Byte
  | .accepted _ :: _ => [0]
  | _ => []

def tcpServerCloseConnection (s : TcpServer) (i : Nat) (env : Env) : Except Fault TcpServer :=
  match connectionClearProtocol (s.handling i env) with
  | .error f => .error f
  | .ok h =>
    let h := (h.log (.send h.conn.fd (lastAck h.env.sends))).log (.closeFd h.conn.fd)
    let (a, conn) := connectionClose h.conn h.arena
    let h := ({ h with arena := a, conn := conn } : Handling).log (.closeFd h.conn.fd)
    .ok { s.absorb i h with currentConnections := dec64 s.currentConnections }

def tcpserverDeleteTcpAndTimer (s : TcpServer) (tcpEvent timeEvent : Option Nat) (env : Env) :
    Except Fault TcpServer :=
  match tcpEvent, timeEvent with
  | some i, some j =>
    match tcpServerCloseConnection s i env with
    | .error f => .error f
    | .ok s =>
      match idListAdd s.tcpIdList i, idListAdd s.timerIdList j with
      | some tcpIds, some timerIds =>
        let s := s.log (.closeFd (s.eventTimerArray j).eFd)
        let s := s.setTimer j { s.eventTimerArray j with tcpEvent := none }
        let s := s.setTcp i { s.eventTcpArray i with timeEvent := none }
        .ok { s with
          tcpIdList := tcpIds
          timerIdList := timerIds
          opened := s.opened.filter (· ≠ (i, j))
          dead := .tcp i :: .timer j :: s.dead }
      | _, _ => .error .nullPointer
  | _, _ => .error .assertion

/-! ## Handlers of a tcp context -/

def tcpserverTcpOnError (s : TcpServer) (i : Nat) (env : Env) : Except Fault TcpServer :=
  tcpserverDeleteTcpAndTimer s (some i) (s.eventTcpArray i).timeEvent env

/-- Follow the verdict on connection `i`. -/
def settle (s : TcpServer) (i : Nat) (r : Handling × Verdict) : Except Fault TcpServer :=
  match r.2 with
  | .keep => .ok (s.absorb i r.1)
  | .close => tcpserverTcpOnError (s.absorb i r.1) i r.1.env

/-- A receive that goes past the blocks of the read buffer ends the run. -/
def tcpserverTcpOnRead (parse : Parser) (s : TcpServer) (i : Nat) (env : Env) :
    Except Fault TcpServer :=
  match tcpOnRead parse s.currentConnections s.maxConnections (s.handling i env) with
  | .error f => .error f
  | .ok r => if dataInRun < r.1.conn.readBuf.len then .error .outOfBlock else settle s i r

def tcpserverTcpOnWrite (s : TcpServer) (i : Nat) (env : Env) : Except Fault TcpServer :=
  match tcpOnWrite s.currentConnections s.maxConnections (s.handling i env) with
  | .error f => .error f
  | .ok r => settle s i r

/-! ## Handlers of a timer context -/

def tcpserverTimeOnError (s : TcpServer) (j : Nat) (env : Env) : Except Fault TcpServer :=
  tcpserverDeleteTcpAndTimer s (s.eventTimerArray j).tcpEvent (some j) env

/-- The connection has long been closing; both times are 64-bit. -/
def timedOut (conn : Connection) (now outTime : Nat) : Bool :=
  decide (conn.connSt = .closing ∧ (now + 2 ^ 64 - conn.lastActivity) % 2 ^ 64 > outTime)

def tcpserverTimeOnRead (s : TcpServer) (j : Nat) (env : Env) : Except Fault TcpServer :=
  match (s.eventTimerArray j).tcpEvent with
  | none => .error .nullEvent
  | some i =>
    if timedOut (s.connArray i) env.now (s.eventTimerArray j).outTime then
      tcpserverTimeOnError s j env
    else .ok s

/-! ## Accepting -/

/-- What one turn of the accept loop gets from the system. -/
structure AcceptOutcome where
  accepted : Option Nat
  timerfd : Option Nat
  /-- `event_loop_add` of the tcp context, and of the timer context -/
  tcpAdded : Bool
  timerAdded : Bool
  deriving DecidableEq, Repr

def tcpserverAddTcpEvent (s : TcpServer) (i j fd : Nat) (added : Bool) (now : Nat) :
    TcpServer × Int :=
  let (a, conn, ret) := connectionCreate (s.connArray i) fd s.memArena s.connectionId now
  if ret < 0 then ({ s with memArena := a }, -1)
  else
    let s := { s with
      memArena := a
      connArray := fun k => if k = i then conn else s.connArray k
      connectionId := s.connectionId + 1
      opened := (i, j) :: s.opened }
    (s.setTcp i ⟨fd, some j⟩, if added then 0 else -1)

def tcpserverAddTimerEvent (s : TcpServer) (i j fd : Nat) (added : Bool) : TcpServer × Int :=
  (s.setTimer j ⟨fd, tcpServerDefaultOutTime, some i⟩, if added then 0 else -1)

/-- `close` a descriptor, unless it is 0. -/
def closeAccepted (s : TcpServer) : Option Nat → TcpServer
  | some fd => if fd > 0 then s.log (.closeFd fd) else s
  | none => s

/-- `id_list_add` of an index, unless it is -1. -/
def giveBack (pool : IdList) : Option Nat → Option IdList
  | some idx => idListAdd pool idx
  | none => some pool

/-- The label `clean_idx`. -/
def cleanIdx (s : TcpServer) (newIdx newIdx2 : Option Nat) : Except Fault TcpServer :=
  match giveBack s.tcpIdList newIdx, giveBack s.timerIdList newIdx2 with
  | some tcpIds, some timerIds => .ok { s with tcpIdList := tcpIds, timerIdList := timerIds }
  | _, _ => .error .nullPointer

def tcpserverListenOnError (s : TcpServer) : TcpServer := { s with running := false }

/-- The loop of `tcpserver_listen_on_read`; `newIdx` and `newIdx2` are kept from
the turn before. Without further outcomes nobody is waiting. -/
def listenLoop (now : Nat) : List AcceptOutcome → TcpServer → (newIdx newIdx2 : Option Nat) →
    Except Fault TcpServer
  | outs, s, newIdx, newIdx2 =>
    if s.currentConnections = s.maxConnections then cleanIdx s newIdx newIdx2
    else
      let (tcpIds, newIdx) := idListGet s.tcpIdList
      let (timerIds, newIdx2) := idListGet s.timerIdList
      let s := { s with tcpIdList := tcpIds, timerIdList := timerIds }
      match newIdx, newIdx2, outs with
      | some i, some j, o :: outs =>
        match o.accepted, o.timerfd with
        | some fd, some timeFd =>
          if s.memArena.cap < connectionBufferBlockSize then .error .assertion
          else
            let (s, ret) := tcpserverAddTcpEvent s i j fd o.tcpAdded now
            if ret = errorMemFull then
              cleanIdx (closeAccepted (closeAccepted s fd) timeFd) newIdx newIdx2
            else if ret < 0 then .ok (tcpserverListenOnError s)
            else
              let (s, ret) := tcpserverAddTimerEvent s i j timeFd o.timerAdded
              if ret < 0 then .ok (tcpserverListenOnError s)
              else
                listenLoop now outs
                  { s with
                    currentConnections := inc64 s.currentConnections
                    totalConnections := inc64 s.totalConnections }
                  (some i) (some j)
        | fd, _ => cleanIdx (closeAccepted s fd) newIdx newIdx2
      | _, _, _ => cleanIdx s newIdx newIdx2

def tcpserverListenOnRead (s : TcpServer) (outs : List AcceptOutcome) (now : Nat) :
    Except Fault TcpServer :=
  if s.running then listenLoop now outs s none none else .ok s

end PingServer
