import PingServer.Net.Reading
import PingServer.Net.RecvLayout

/-!
# What a receive reports

The loop of `connection_recv` keeps the result of `recv` in an `n` of its own, so 0 is
returned whatever ended it. A stream that was closed or has failed is then parsed as if
the client had sent nothing.
-/

namespace PingServer

/-- What the loop learns of the stream, with `len` of `cap` bytes used. A `recv` with room
that returns nothing is the end of the stream; one without room tells nothing. -/
inductive StreamEnd where
  | stillOpen | closed | failed
  deriving DecidableEq, Repr

def streamEnd (cap len : Nat) : List RecvOutcome → StreamEnd
  | .chunk bs :: rest =>
    let got := bs.take (cap - len)
    if got = [] then if cap ≤ len then .stillOpen else .closed
    else streamEnd cap (len + got.length) rest
  | .endOfStream :: _ => .closed
  | .failed :: _ => .failed
  | .wouldBlock :: _ | [] => .stillOpen

/-- What `tcpserver_tcp_on_read` takes for an error of `connection_recv`. -/
def isRecvError (ret : Int) : Bool := decide (ret ≠ eagain ∧ ret ≠ 0)

/-- The chunks are behind the old content of the read buffer, and an end of the stream is
told from a stream that is still open. -/
structure Reported (conn : Connection) (recvs : List RecvOutcome) (r : Connection × Int) :
    Prop where
  bytes : r.1.readBuf.bytes =
    conn.readBuf.bytes ++ received conn.readBuf.cap conn.readBuf.len recvs
  fits : r.1.readBuf.len ≤ r.1.readBuf.cap
  stillOpen : r.2 = 0 ∨ r.2 = eagain →
    streamEnd conn.readBuf.cap conn.readBuf.len recvs = .stillOpen
  ended : streamEnd conn.readBuf.cap conn.readBuf.len recvs ≠ .stillOpen →
    isRecvError r.2 = true

/-- Behind such an error nothing is parsed, and the connection is closed. -/
theorem tcpOnRead_recvError (parse : Parser) (current max : Nat) {h : Handling}
    (herror : isRecvError (connectionRecv h.conn h.env.recvs h.env.now).2 = true) :
    tcpOnRead parse current max h = .ok (h.received, .close) := by
  have hboth := of_decide_eq_true herror
  unfold tcpOnRead
  simp only [if_pos hboth]
  rfl

theorem received_fits (cap : Nat) (os : List RecvOutcome) :
    ∀ len, len ≤ cap → len + (received cap len os).length ≤ cap := by
  induction os with
  | nil =>
    intro len hlen
    exact hlen
  | cons o os ih =>
    intro len hlen
    cases o with
    | chunk bs =>
      simp only [received]
      split
      · exact hlen
      · have hgot : (bs.take (cap - len)).length ≤ cap - len := List.length_take_le _ _
        have hrest := ih (len + (bs.take (cap - len)).length) (by omega)
        rw [List.length_append]
        omega
    | wouldBlock | endOfStream | failed => exact hlen

/-- Below its request limit and with room, a receive appends what the socket has, and
reports 0. -/
theorem connectionRecv_receives {conn : Connection} (hroom : conn.requestCount < conn.maxRequestCount)
    (hfits : conn.readBuf.len < conn.readBuf.cap) (recvs : List RecvOutcome) (now : Nat) :
    (connectionRecv conn recvs now).2 = 0 ∧ (connectionRecv conn recvs now).1.readBuf =
      conn.readBuf.append (received conn.readBuf.cap conn.readBuf.len recvs) := by
  unfold connectionRecv
  rw [if_neg (Nat.ne_of_gt hroom)]
  simp only [if_neg (Nat.ne_of_lt hfits), recvLoop_eq, and_self]

/-- A receive reports what has happened exactly if it finds the stream still open. -/
theorem recv_reports_iff {conn : Connection} (hroom : conn.requestCount < conn.maxRequestCount)
    (hfits : conn.readBuf.len < conn.readBuf.cap) (recvs : List RecvOutcome) (now : Nat) :
    Reported conn recvs (connectionRecv conn recvs now) ↔
      streamEnd conn.readBuf.cap conn.readBuf.len recvs = .stillOpen := by
  obtain ⟨hret, hbuf⟩ := connectionRecv_receives hroom hfits recvs now
  constructor
  · intro hreported
    exact hreported.stillOpen (.inl hret)
  · intro hopen
    constructor
    · rw [hbuf, Buffer.bytes_append]
    · rw [hbuf]
      exact received_fits _ _ _ (Nat.le_of_lt hfits)
    · intro _
      exact hopen
    · intro hended
      exact absurd hopen hended

/-- A connection with room for two more bytes behind the byte 7. -/
def roomForTwo : Connection :=
  { Connection.blank with
    readBuf := ⟨0, 3, 1, 0, fun _ => 7⟩, maxRequestCount := connectionRequestCount }

theorem recv_reports_chunk : roomForTwo.readBuf.len < roomForTwo.readBuf.cap ∧
    Reported roomForTwo [.chunk [8], .wouldBlock]
      (connectionRecv roomForTwo [.chunk [8], .wouldBlock] 5) :=
  ⟨by decide, (recv_reports_iff (by decide) (by decide) _ _).2 (by decide)⟩

/-- A reset by the peer is reported as 0. -/
theorem recv_error_lost : ¬ ∀ (conn : Connection) (recvs : List RecvOutcome) (now : Nat),
    conn.requestCount < conn.maxRequestCount → conn.readBuf.len < conn.readBuf.cap →
      Reported conn recvs (connectionRecv conn recvs now) := by
  intro hall
  have hreported := hall roomForTwo [.chunk [8], .failed] 5 (by decide) (by decide)
  have hend := hreported.stillOpen (.inl rfl)
  revert hend
  decide

end PingServer
