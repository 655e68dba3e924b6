import PingServer.Ds.Buffer
import PingServer.Protocol.Message

/-!
# Connections

`connection.c`. The outcomes of system calls are arguments: each function takes
the outcomes its calls will have, in order, and gives back what it did not use.
An exhausted list means that the call would block.
-/

namespace PingServer

open ByteMem

/-! ## Data -/

/-- Why a run of the server stops where it is. -/
inductive Fault where
  /-- `time_event` or `tcp_event` is `NULL` where it is followed -/
  | nullEvent
  /-- `protocol_handler` is `NULL` where it is followed -/
  | nullHandler
  /-- `protocol_ctx` is `NULL` where it is followed -/
  | nullContext
  /-- any other `NULL` that is followed -/
  | nullPointer
  /-- an `ASSERT` fails, which the build scripts compile as `exit(1)` -/
  | assertion
  /-- a write goes past the blocks of its buffer -/
  | outOfBlock
  /-- a loop never ends -/
  | hang
  deriving DecidableEq, Repr

inductive ConnectionStatus where
  | idle | reading | writing | waiting | closing
  deriving DecidableEq, Repr

abbrev connectionBufferBlockSize : Nat := 3
abbrev connectionRequestCount : Nat := 64

/-- How many bytes of `data` lie in the blocks of the buffer. -/
abbrev dataInRun : Nat :=
  connectionBufferBlockSize * pingArenaBlockSize - sizeofWord - sizeofBuffer

/-- There is one protocol handler, so `protocol_handler` is whether it is set. The
context is known by its address in the arena. -/
structure Connection where
  protocolHandler : Bool
  protocolCtx : Option Nat
  lastActivity : Nat
  readBuf : Buffer
  sendBuf : Buffer
  requestCount : Nat
  maxRequestCount : Nat
  fd : Int
  connId : Nat
  isKeepAlive : Bool
  connSt : ConnectionStatus

/-- A connection before `connection_create` has filled it. -/
def Connection.blank : Connection where
  protocolHandler := false
  protocolCtx := none
  lastActivity := 0
  readBuf := ⟨0, 0, 0, 0, fun _ => 0⟩
  sendBuf := ⟨0, 0, 0, 0, fun _ => 0⟩
  requestCount := 0
  maxRequestCount := 0
  fd := 0
  connId := 0
  isKeepAlive := false
  connSt := .idle

/-- What one `recv` does. -/
inductive RecvOutcome where
  | chunk (bs : List Byte) | wouldBlock | endOfStream | failed
  deriving DecidableEq, Repr

/-- What one `send` does; `accepted k` takes up to `k + 1` bytes. `failed` is an error that `send`
returns: to a peer that has reset the connection it does not return, since `SIGPIPE`, which is
never ignored, ends the process. -/
inductive SendOutcome where
  | accepted (k : Nat) | wouldBlock | failed
  deriving DecidableEq, Repr

/-- What one `sendfile` does; `moved k` moves up to `k + 1` bytes. -/
inductive SendfileOutcome where
  | moved (k : Nat) | interrupted | wouldBlock | failed
  deriving DecidableEq, Repr

/-- The value of an `int` that is assigned `x`. -/
def int32 (x : Int) : Int := Int.bmod x (2 ^ 32)

/-! ## Creation -/

/-- The memory after both buffers of a new connection have been initialised. -/
def initBuffers (mem : Memory) (readBuf sendBuf : Nat) : Memory :=
  let mem := setBufLen (setBufIdx mem readBuf 0) readBuf 0
  setBufLen (setBufIdx mem sendBuf 0) sendBuf 0

/-- A fresh buffer at `p` of a memory. -/
def newBuffer (mem : Memory) (p cap : Nat) : Buffer where
  addr := p
  cap := cap
  len := 0
  idx := 0
  data := fun i => mem (bufData p i)

/-- After `ERROR_MEM_FULL` the caller reads nothing of `conn`, so it is left as
it was. `connId` is the next number to give out. -/
def connectionCreate (conn : Connection) (fd : Int) (a : MemoryArena) (connId now : Nat) :
    MemoryArena × Connection × Int :=
  match arenaAllocBlock a connectionBufferBlockSize with
  | none => (a, conn, errorMemFull)
  | some (a₁, readBuf, readSize) =>
    let a₁ := { a₁ with start := setBufCap a₁.start readBuf readSize }
    match arenaAllocBlock a₁ connectionBufferBlockSize with
    | none => (arenaRecycle a₁ readBuf, conn, errorMemFull)
    | some (a₂, sendBuf, sendSize) =>
      let mem := initBuffers (setBufCap a₂.start sendBuf sendSize) readBuf sendBuf
      ({ a₂ with start := mem },
        { conn with
          fd := fd
          connId := connId
          lastActivity := now
          maxRequestCount := connectionRequestCount
          requestCount := 0
          protocolCtx := none
          protocolHandler := true
          readBuf := newBuffer mem readBuf readSize
          sendBuf := newBuffer mem sendBuf sendSize
          connSt := .idle },
        0)

/-- What a new connection is made of. -/
theorem connectionCreate_conn {conn conn' : Connection} {fd : Int} {a a' : MemoryArena}
    {connId now : Nat} {ret : Int}
    (hcreate : connectionCreate conn fd a connId now = (a', conn', ret)) (hret : ¬ ret < 0) :
    ∃ mem p n q m, conn' = { conn with
      fd := fd
      connId := connId
      lastActivity := now
      maxRequestCount := connectionRequestCount
      requestCount := 0
      protocolCtx := none
      protocolHandler := true
      readBuf := newBuffer mem p n
      sendBuf := newBuffer mem q m
      connSt := .idle } := by
  unfold connectionCreate at hcreate
  split at hcreate
  · cases hcreate
    exact absurd (by decide) hret
  · simp only at hcreate
    split at hcreate <;> cases hcreate
    · exact absurd (by decide) hret
    · exact ⟨_, _, _, _, _, rfl⟩

/-! ## Receiving -/

/-- The loop of `connection_recv`; `recv` is asked for `cap - len` bytes. -/
def recvLoop (b : Buffer) : List RecvOutcome → Buffer
  | .chunk bs :: rest =>
    let got := bs.take (b.cap - b.len)
    if got = [] then b else recvLoop (b.append got) rest
  | _ => b

/-- The `n` of the loop hides the one returned, so what ended the loop is lost. -/
def connectionRecv (conn : Connection) (recvs : List RecvOutcome) (now : Nat) :
    Connection × Int :=
  if conn.maxRequestCount = conn.requestCount then (conn, errorConnFull)
  else
    let conn := { conn with connSt := .reading, requestCount := conn.requestCount + 1 }
    if conn.readBuf.len = conn.readBuf.cap then (conn, errorBufferFull)
    else ({ conn with readBuf := recvLoop conn.readBuf recvs, lastActivity := now }, 0)

/-! ## Sending -/

/-- What `send` returns for `remaining` bytes. Sending nothing never blocks. -/
def sendResult (remaining : Nat) : Option SendOutcome → Int
  | some (.accepted k) => min (k + 1) remaining
  | some .failed => -1
  | some .wouldBlock => if remaining = 0 then 0 else -1
  | none => if remaining = 0 then 0 else -1

/-- The loop of `connection_send`: the last result, the new `idx`, and the
outcomes that are left. -/
def sendLoop : List SendOutcome → (idx remaining : Nat) → Int × Nat × List SendOutcome
  | [], idx, remaining => (sendResult remaining none, idx, [])
  | o :: rest, idx, remaining =>
    let n := sendResult remaining (some o)
    if n > 0 then sendLoop rest (idx + n.toNat) (remaining - n.toNat) else (n, idx, rest)

/-- `data[i..j)`. -/
def Buffer.slice (b : Buffer) (i j : Nat) : List Byte :=
  (List.range (j - i)).map fun k => b.data (i + k)

structure Sent where
  conn : Connection
  ret : Int
  sends : List SendOutcome
  bytes : List Byte

/-- Every call passes `NULL` for the buffer, which selects `send_buf`. The test
against `EAGAIN` is made on the result of `send`, which is -1. -/
def connectionSend (conn : Connection) (sends : List SendOutcome) (now : Nat) :
    Except Fault Sent :=
  if conn.maxRequestCount = conn.requestCount then .ok ⟨conn, errorConnFull, sends, []⟩
  else
    let buf := conn.sendBuf
    let conn := { conn with
      connSt := .writing, lastActivity := now, requestCount := conn.requestCount + 1 }
    if int32 ((buf.len : Int) - buf.idx) ≤ 0 then .error .assertion
    else
      let (n, idx, rest) := sendLoop sends buf.idx (buf.len - buf.idx)
      let bytes := buf.slice buf.idx idx
      let conn := { conn with sendBuf := { buf with idx := idx } }
      if n < 0 then
        if n ≠ eagain then .ok ⟨{ conn with connSt := .idle }, connSendError, rest, bytes⟩
        else .ok ⟨{ conn with connSt := .waiting }, connSendPartial, rest, bytes⟩
      else if idx = buf.len then .ok ⟨{ conn with connSt := .idle }, connSendDone, rest, bytes⟩
      else .ok ⟨{ conn with connSt := .waiting }, connSendPartial, rest, bytes⟩

structure SentFile where
  ret : Int
  offset : Nat
  outcomes : List SendfileOutcome
  /-- the ranges moved: where each starts in the file and how long it is -/
  moved : List (Nat × Nat)

/-- `sendfile` moves `*offset_ptr` itself, and the loop moves it once more. -/
def sendfileLoop (fileSize : Nat) :
    List SendfileOutcome → (offset : Nat) → (remain : Int) → List (Nat × Nat) → SentFile
  | os, offset, remain, moved =>
    if remain ≤ 0 then ⟨connSendDone, offset, os, moved⟩
    else
      match os with
      | [] => ⟨connSendPartial, offset, [], moved⟩
      | .interrupted :: os => sendfileLoop fileSize os offset remain moved
      | .wouldBlock :: os => ⟨connSendPartial, offset, os, moved⟩
      | .failed :: os => ⟨connSendError, offset, os, moved⟩
      | .moved k :: os =>
        let n := min (k + 1) (min remain.toNat (fileSize - offset))
        if n = 0 then ⟨connSendDone, offset, os, moved⟩
        else sendfileLoop fileSize os (offset + n + n) (remain - n) (moved ++ [(offset, n)])

/-- `len` is the length the response promised and `fileSize` what the file has. -/
def connectionSendFd (fileSize : Nat) (outcomes : List SendfileOutcome) (offset len : Nat) :
    SentFile :=
  sendfileLoop fileSize outcomes offset (int32 ((len : Int) - offset)) []

/-! ## Closing -/

/-- Frees both buffers; the descriptor is closed by the caller's log. -/
def connectionClose (conn : Connection) (a : MemoryArena) : MemoryArena × Connection :=
  (arenaRecycle (arenaRecycle a conn.readBuf.addr) conn.sendBuf.addr,
    { conn with connSt := .closing })

end PingServer
