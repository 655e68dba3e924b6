import PingServer.Protocol.Sending

/-!
# Resuming a send

`connection_send` compares the result of `send`, which is -1, with `EAGAIN`. A socket
that would block is therefore reported as an error, and `CONN_SEND_PARTIAL` never is.
-/

namespace PingServer

/-! ## A message over several calls -/

/-- How the sends of one call end. -/
inductive SendEnd where
  | accepted
  /-- the socket would block, or a send fails, with bytes left -/
  | blocked | failed
  /-- the send of nothing behind the last byte fails -/
  | failedBehind
  deriving DecidableEq, Repr

def sendEnd : List SendOutcome → (n : Nat) → SendEnd
  | .failed :: _, 0 => .failedBehind
  | _, 0 => .accepted
  | .accepted k :: os, n + 1 => sendEnd os (n - k)
  | .failed :: _, _ + 1 => .failed
  | _, _ + 1 => .blocked

/-- What one call of `connection_send` meets. -/
structure SendCall where
  sends : List SendOutcome
  now : Nat

/-- Some calls on one buffer: the bytes accepted by all of them, and how the last one
ended and what it returned. -/
structure SendRun where
  conn : Connection
  bytes : List ByteMem.Byte
  last : Option (SendEnd × Int)

def SendRun.call (s : SendRun) (c : SendCall) : Except Fault SendRun :=
  match connectionSend s.conn c.sends c.now with
  | .error f => .error f
  | .ok r => .ok ⟨r.conn, s.bytes ++ r.bytes,
      some (sendEnd c.sends (s.conn.sendBuf.len - s.conn.sendBuf.idx), r.ret)⟩

/-- There is something left to send, and a request to send it with. -/
def Connection.Callable (conn : Connection) : Prop :=
  conn.requestCount < conn.maxRequestCount ∧ conn.sendBuf.idx < conn.sendBuf.len

/-- The bytes accepted are those from the start of `buf` on, the index has moved by as
many, and the result of the last call tells how it ended. -/
structure Resumed (buf : Buffer) (s : SendRun) : Prop where
  bytes : s.bytes = buf.slice buf.idx (buf.idx + s.bytes.length)
  sendBuf : s.conn.sendBuf = { buf with idx := buf.idx + s.bytes.length }
  done : ∀ e ret, s.last = some (e, ret) → (ret = connSendDone ↔ s.conn.sendBuf.idx = buf.len)
  blocked : ∀ e ret, s.last = some (e, ret) → (ret = connSendPartial ↔ e = .blocked)
  failed : ∀ e ret, s.last = some (e, ret) → ret = connSendError →
    e = .failed ∨ e = .failedBehind

/-- Every call that can be made returns, and leaves `Resumed`. -/
def Resumes (buf : Buffer) : SendRun → List SendCall → Prop
  | s, [] => Resumed buf s
  | s, c :: cs => Resumed buf s ∧ (s.conn.Callable → ∃ t, s.call c = .ok t ∧ Resumes buf t cs)

/-- With `n` bytes and `k` requests left, each call ends with all bytes accepted, or with a
send that fails in front of the last one. -/
def neverBlocks : (n k : Nat) → List SendCall → Bool
  | n + 1, k + 1, c :: cs =>
    match sendEnd c.sends (n + 1) with
    | .accepted => true
    | .failed => neverBlocks (n + 1 - socketTaken c.sends (n + 1)) k cs
    | .blocked | .failedBehind => false
  | _, _, _ => true

/-! ## How a call ends -/

theorem sendEnd_accepted (os : List SendOutcome) :
    ∀ n, socketTakes os n = true ↔ sendEnd os n = .accepted := by
  induction os with
  | nil =>
    intro n
    cases n <;> simp [socketTakes, sendEnd]
  | cons o os ih =>
    intro n
    cases n with
    | zero => cases o <;> simp [socketTakes, sendEnd]
    | succ n =>
      cases o with
      | accepted k => exact ih (n - k)
      | wouldBlock | failed => simp [socketTakes, sendEnd]

/-- A send that fails with bytes left has not accepted them. -/
theorem socketTaken_failed (os : List SendOutcome) :
    ∀ n, sendEnd os n = .failed → socketTaken os n < n := by
  induction os with
  | nil =>
    intro n hfailed
    cases n <;> cases hfailed
  | cons o os ih =>
    intro n hfailed
    cases n with
    | zero => cases o <;> cases hfailed
    | succ n =>
      cases o with
      | accepted k =>
        have hrest := ih (n - k) hfailed
        rw [socketTaken]
        omega
      | wouldBlock => cases hfailed
      | failed => exact Nat.succ_pos n

theorem socketTaken_failedBehind (os : List SendOutcome) :
    ∀ n, sendEnd os n = .failedBehind → socketTaken os n = n := by
  induction os with
  | nil =>
    intro n hfailed
    cases n <;> cases hfailed
  | cons o os ih =>
    intro n hfailed
    cases n with
    | zero => cases o <;> rfl
    | succ n =>
      cases o with
      | accepted k =>
        have hrest := ih (n - k) hfailed
        rw [socketTaken, hrest]
        omega
      | wouldBlock | failed => cases hfailed

theorem Buffer.slice_append (b : Buffer) {i j k : Nat} (hij : i ≤ j) (hjk : j ≤ k) :
    b.slice i j ++ b.slice j k = b.slice i k := by
  have hsplit : k - i = (j - i) + (k - j) := by omega
  simp only [slice, hsplit, List.range_add, List.map_append, List.map_map]
  congr 1
  apply List.map_congr_left
  intro m _
  simp only [Function.comp_apply]
  congr 1
  omega

theorem Buffer.slice_length (b : Buffer) (i j : Nat) : (b.slice i j).length = j - i := by
  simp [slice]

/-! ## The run -/

theorem Resumes.here {buf : Buffer} {s : SendRun} {calls : List SendCall}
    (h : Resumes buf s calls) : Resumed buf s := by
  cases calls with
  | nil => exact h
  | cons c cs => exact h.1

/-- Without anything to call, nothing more happens. -/
theorem Resumed.stays {buf : Buffer} {s : SendRun} (h : Resumed buf s)
    (hno : ¬ s.conn.Callable) (calls : List SendCall) : Resumes buf s calls := by
  cases calls with
  | nil => exact h
  | cons c cs => exact ⟨h, fun hcall => absurd hcall hno⟩

theorem neverBlocks_nil (n k : Nat) : neverBlocks n k [] = true := by
  cases n <;> cases k <;> rfl

theorem neverBlocks_stays {n k : Nat} (hno : n = 0 ∨ k = 0) (calls : List SendCall) :
    neverBlocks n k calls = true := by
  obtain rfl | rfl := hno
  · cases k <;> rfl
  · cases n <;> rfl

theorem neverBlocks_cons {n k : Nat} (hn : 0 < n) (hk : 0 < k) (c : SendCall)
    (cs : List SendCall) : neverBlocks n k (c :: cs) =
      match sendEnd c.sends n with
      | .accepted => true
      | .failed => neverBlocks (n - socketTaken c.sends n) (k - 1) cs
      | .blocked | .failedBehind => false := by
  obtain ⟨n, rfl⟩ := Nat.exists_eq_add_of_lt hn
  obtain ⟨k, rfl⟩ := Nat.exists_eq_add_of_lt hk
  rw [Nat.zero_add, Nat.zero_add, neverBlocks]
  rfl

/-- The bytes of one more call are those behind the ones accepted before. -/
theorem Resumed.extend {buf : Buffer} {s : SendRun} (h : Resumed buf s) {j : Nat}
    (hj : s.conn.sendBuf.idx ≤ j) :
    let bytes := s.bytes ++ s.conn.sendBuf.slice s.conn.sendBuf.idx j
    bytes = buf.slice buf.idx (buf.idx + bytes.length) ∧ buf.idx + bytes.length = j := by
  have hidx : s.conn.sendBuf.idx = buf.idx + s.bytes.length := by rw [h.sendBuf]
  have hslice : s.conn.sendBuf.slice s.conn.sendBuf.idx j = buf.slice s.conn.sendBuf.idx j := by
    rw [h.sendBuf]
    rfl
  have hlength : buf.idx + (s.bytes ++ buf.slice s.conn.sendBuf.idx j).length = j := by
    rw [List.length_append, Buffer.slice_length]
    omega
  intro bytes
  have hbytes : bytes = s.bytes ++ buf.slice s.conn.sendBuf.idx j := congrArg (s.bytes ++ ·) hslice
  rw [hbytes, hlength]
  refine ⟨?_, rfl⟩
  conv_lhs => rw [h.bytes, ← hidx]
  exact buf.slice_append (by omega) hj

/-- What a call leaves of the buffer and of the requests. -/
structure CallCase (s : SendRun) (c : SendCall) (t : SendRun) (j : Nat) (ret : Int) : Prop where
  bytes : t.bytes = s.bytes ++ s.conn.sendBuf.slice s.conn.sendBuf.idx j
  sendBuf : t.conn.sendBuf = { s.conn.sendBuf with idx := j }
  count : t.conn.requestCount = s.conn.requestCount + 1
  max : t.conn.maxRequestCount = s.conn.maxRequestCount
  last : t.last = some (sendEnd c.sends (s.conn.sendBuf.len - s.conn.sendBuf.idx), ret)

section

variable {s t : SendRun} {c : SendCall} {j : Nat} {ret : Int}

theorem CallCase.idx (h : CallCase s c t j ret) : t.conn.sendBuf.idx = j := by rw [h.sendBuf]

theorem CallCase.len (h : CallCase s c t j ret) : t.conn.sendBuf.len = s.conn.sendBuf.len := by
  rw [h.sendBuf]

theorem SendRun.call_cases (hcall : s.conn.Callable)
    (hsmall : s.conn.sendBuf.len - s.conn.sendBuf.idx < 2 ^ 31) :
    ∃ t, s.call c = .ok t ∧
      ((sendEnd c.sends (s.conn.sendBuf.len - s.conn.sendBuf.idx) = .accepted ∧
          CallCase s c t s.conn.sendBuf.len connSendDone) ∨
        (sendEnd c.sends (s.conn.sendBuf.len - s.conn.sendBuf.idx) ≠ .accepted ∧
          CallCase s c t (s.conn.sendBuf.idx +
            socketTaken c.sends (s.conn.sendBuf.len - s.conn.sendBuf.idx)) connSendError)) := by
  have hroom : s.conn.requestCount ≠ s.conn.maxRequestCount := Nat.ne_of_lt hcall.1
  have hcases := @connectionSend_cases s.conn c.sends c.now (.inr ⟨hcall.2, hsmall⟩)
  generalize hresult : connectionSend s.conn c.sends c.now = r at hcases
  cases hcases with
  | full hfull => exact absurd hfull hroom
  | taken rest _ htakes =>
    refine ⟨⟨_, _, _⟩, by rw [SendRun.call, hresult], .inl ⟨(sendEnd_accepted _ _).1 htakes, ?_⟩⟩
    exact ⟨rfl, rfl, rfl, rfl, rfl⟩
  | refused k rest _ htakes hk =>
    refine ⟨⟨_, _, _⟩, by rw [SendRun.call, hresult], .inr ⟨?_, ?_⟩⟩
    · intro haccepted
      rw [(sendEnd_accepted _ _).2 haccepted] at htakes
      cases htakes
    · subst hk
      exact ⟨rfl, rfl, rfl, rfl, rfl⟩

theorem CallCase.resumed {buf : Buffer} (hcase : CallCase s c t j ret) (h : Resumed buf s)
    (hj : s.conn.sendBuf.idx ≤ j) (hdone : ret = connSendDone ↔ j = buf.len)
    (hblocked : ret = connSendPartial ↔
      sendEnd c.sends (s.conn.sendBuf.len - s.conn.sendBuf.idx) = .blocked)
    (hfailed : ret = connSendError →
      sendEnd c.sends (s.conn.sendBuf.len - s.conn.sendBuf.idx) = .failed ∨
        sendEnd c.sends (s.conn.sendBuf.len - s.conn.sendBuf.idx) = .failedBehind) :
    Resumed buf t := by
  obtain ⟨hbytes, hidx⟩ := h.extend hj
  rw [← hcase.bytes] at hbytes hidx
  have hlast : ∀ e r, t.last = some (e, r) →
      e = sendEnd c.sends (s.conn.sendBuf.len - s.conn.sendBuf.idx) ∧ r = ret := by
    intro e r htlast
    rw [hcase.last] at htlast
    cases htlast
    exact ⟨rfl, rfl⟩
  constructor
  · exact hbytes
  · rw [hcase.sendBuf, h.sendBuf, hidx]
  · intro e r htlast
    obtain ⟨rfl, rfl⟩ := hlast e r htlast
    rw [hcase.idx]
    exact hdone
  · intro e r htlast
    obtain ⟨rfl, rfl⟩ := hlast e r htlast
    exact hblocked
  · intro e r htlast
    obtain ⟨rfl, rfl⟩ := hlast e r htlast
    exact hfailed

/-! ## One call, by how its sends end -/

variable {buf : Buffer}

theorem Resumed.call_accepted (h : Resumed buf s) (hcall : s.conn.Callable)
    (hsmall : s.conn.sendBuf.len - s.conn.sendBuf.idx < 2 ^ 31)
    (hend : sendEnd c.sends (s.conn.sendBuf.len - s.conn.sendBuf.idx) = .accepted) :
    ∃ t, s.call c = .ok t ∧ Resumed buf t ∧ ¬ t.conn.Callable := by
  obtain ⟨t, ht, hcase⟩ := SendRun.call_cases (c := c) hcall hsmall
  obtain ⟨-, hall⟩ := hcase.resolve_right fun hno => hno.1 hend
  refine ⟨t, ht, ?_, fun hmore => ?_⟩
  · apply hall.resumed h (Nat.le_of_lt hcall.2)
    · rw [h.sendBuf]
      exact ⟨fun _ => rfl, fun _ => rfl⟩
    · rw [hend]
      decide
    · intro herror
      cases herror
  · have hleft := hmore.2
    rw [hall.idx, hall.len] at hleft
    exact Nat.lt_irrefl _ hleft

/-- A call whose sends are not all accepted returns an error. -/
theorem SendRun.call_refused (hcall : s.conn.Callable)
    (hsmall : s.conn.sendBuf.len - s.conn.sendBuf.idx < 2 ^ 31)
    (hend : sendEnd c.sends (s.conn.sendBuf.len - s.conn.sendBuf.idx) ≠ .accepted) :
    ∃ t, s.call c = .ok t ∧ CallCase s c t (s.conn.sendBuf.idx +
      socketTaken c.sends (s.conn.sendBuf.len - s.conn.sendBuf.idx)) connSendError := by
  obtain ⟨t, ht, hcase⟩ := SendRun.call_cases (c := c) hcall hsmall
  exact ⟨t, ht, (hcase.resolve_left fun hyes => hend hyes.1).2⟩

/-- That is right where a send fails with bytes left. -/
theorem CallCase.resumed_failed (h : Resumed buf s) (hcase : CallCase s c t
      (s.conn.sendBuf.idx + socketTaken c.sends (s.conn.sendBuf.len - s.conn.sendBuf.idx))
      connSendError)
    (hend : sendEnd c.sends (s.conn.sendBuf.len - s.conn.sendBuf.idx) = .failed) :
    Resumed buf t := by
  have htaken := socketTaken_failed _ _ hend
  have hlen : s.conn.sendBuf.len = buf.len := by rw [h.sendBuf]
  apply hcase.resumed h (Nat.le_add_right _ _)
  · constructor
    · intro hdone
      cases hdone
    · omega
  · rw [hend]
    decide
  · intro _
    exact .inl hend

/-- It is wrong where the socket would block, and where all bytes are accepted. -/
theorem CallCase.not_resumed (h : Resumed buf s) (hcase : CallCase s c t
      (s.conn.sendBuf.idx + socketTaken c.sends (s.conn.sendBuf.len - s.conn.sendBuf.idx))
      connSendError)
    (hidx : s.conn.sendBuf.idx ≤ s.conn.sendBuf.len)
    (hend : sendEnd c.sends (s.conn.sendBuf.len - s.conn.sendBuf.idx) = .blocked ∨
      sendEnd c.sends (s.conn.sendBuf.len - s.conn.sendBuf.idx) = .failedBehind) :
    ¬ Resumed buf t := by
  intro hresumed
  obtain hblocked | hbehind := hend
  · have hpart := (hresumed.blocked _ _ hcase.last).2 hblocked
    cases hpart
  · have htaken := socketTaken_failedBehind _ _ hbehind
    have hat : t.conn.sendBuf.idx = buf.len := by
      have hlen : s.conn.sendBuf.len = buf.len := by rw [h.sendBuf]
      rw [hcase.idx]
      omega
    have hdone := (hresumed.done _ _ hcase.last).2 hat
    cases hdone

theorem Resumed.resumes_cons (h : Resumed buf s) (hcall : s.conn.Callable) (ht : s.call c = .ok t)
    (cs : List SendCall) : Resumes buf s (c :: cs) ↔ Resumes buf t cs := by
  constructor
  · intro hall
    obtain ⟨t', ht', hrest⟩ := hall.2 hcall
    rw [ht] at ht'
    cases ht'
    exact hrest
  · intro hrest
    exact ⟨h, fun _ => ⟨t, ht, hrest⟩⟩

end

theorem Resumed.steps {buf : Buffer} (calls : List SendCall) :
    ∀ {s : SendRun}, Resumed buf s → s.conn.sendBuf.len - s.conn.sendBuf.idx < 2 ^ 31 →
      s.conn.sendBuf.idx ≤ s.conn.sendBuf.len →
      (Resumes buf s calls ↔ neverBlocks (s.conn.sendBuf.len - s.conn.sendBuf.idx)
        (s.conn.maxRequestCount - s.conn.requestCount) calls = true) := by
  induction calls with
  | nil =>
    intro s h _ _
    exact ⟨fun _ => neverBlocks_nil _ _, fun _ => h⟩
  | cons c cs ih =>
    intro s h hsmall hidx
    by_cases hcall : s.conn.Callable
    · obtain ⟨hroom, hleft⟩ := hcall
      rw [neverBlocks_cons (by omega) (by omega)]
      cases hend : sendEnd c.sends (s.conn.sendBuf.len - s.conn.sendBuf.idx) with
      | accepted =>
        obtain ⟨t, ht, hresumed, hover⟩ := h.call_accepted ⟨hroom, hleft⟩ hsmall hend
        rw [h.resumes_cons ⟨hroom, hleft⟩ ht]
        exact ⟨fun _ => rfl, fun _ => hresumed.stays hover cs⟩
      | failed =>
        obtain ⟨t, ht, hcase⟩ := SendRun.call_refused ⟨hroom, hleft⟩ hsmall (by rw [hend]; decide)
        have htaken := socketTaken_failed _ _ hend
        have hleft' : t.conn.sendBuf.len - t.conn.sendBuf.idx =
            s.conn.sendBuf.len - s.conn.sendBuf.idx -
              socketTaken c.sends (s.conn.sendBuf.len - s.conn.sendBuf.idx) := by
          rw [hcase.len, hcase.idx]
          omega
        have hrequests : t.conn.maxRequestCount - t.conn.requestCount =
            s.conn.maxRequestCount - s.conn.requestCount - 1 := by
          rw [hcase.count, hcase.max]
          omega
        have hrest := ih (hcase.resumed_failed h hend) (by omega)
          (by rw [hcase.len, hcase.idx]; omega)
        rw [hleft', hrequests] at hrest
        rw [h.resumes_cons ⟨hroom, hleft⟩ ht]
        exact hrest
      | blocked =>
        obtain ⟨t, ht, hcase⟩ := SendRun.call_refused ⟨hroom, hleft⟩ hsmall (by rw [hend]; decide)
        rw [h.resumes_cons ⟨hroom, hleft⟩ ht]
        exact iff_of_false (fun hall => hcase.not_resumed h hidx (.inl hend) hall.here)
          Bool.false_ne_true
      | failedBehind =>
        obtain ⟨t, ht, hcase⟩ := SendRun.call_refused ⟨hroom, hleft⟩ hsmall (by rw [hend]; decide)
        rw [h.resumes_cons ⟨hroom, hleft⟩ ht]
        exact iff_of_false (fun hall => hcase.not_resumed h hidx (.inr hend) hall.here)
          Bool.false_ne_true
    · have hno : s.conn.sendBuf.len - s.conn.sendBuf.idx = 0 ∨
          s.conn.maxRequestCount - s.conn.requestCount = 0 := by
        unfold Connection.Callable at hcall
        omega
      exact ⟨fun _ => neverBlocks_stays hno _, fun _ => h.stays hcall _⟩

/-- With 2^31 bytes or more to send, the `ASSERT` on their `int` fails. -/
theorem connectionSend_overflows {conn : Connection} {sends : List SendOutcome} {now : Nat}
    (hroom : conn.requestCount ≠ conn.maxRequestCount)
    (hlarge : 2 ^ 31 ≤ conn.sendBuf.len - conn.sendBuf.idx) (hword : conn.sendBuf.len < 2 ^ 32) :
    connectionSend conn sends now = .error .assertion := by
  have hnegative : int32 ((conn.sendBuf.len : Int) - conn.sendBuf.idx) ≤ 0 := by
    have hmod : ((conn.sendBuf.len : Int) - conn.sendBuf.idx) % (2 ^ 32 : Nat) =
        (conn.sendBuf.len : Int) - conn.sendBuf.idx := by
      apply Int.emod_eq_of_lt <;> omega
    simp only [int32, Int.bmod, hmod]
    rw [if_neg (by omega)]
    omega
  unfold connectionSend
  rw [if_neg (Ne.symm hroom)]
  simp only [if_pos hnegative]

/-- The calls on one buffer resume and report correctly exactly if there are fewer than 2^31
bytes to send, the socket never blocks and the send behind the last byte does not fail. -/
theorem sends_resume_iff {conn : Connection} (hidx : conn.sendBuf.idx < conn.sendBuf.len)
    (hcap : conn.sendBuf.len ≤ conn.sendBuf.cap) (hword : conn.sendBuf.cap < 2 ^ 32)
    (hroom : conn.requestCount < conn.maxRequestCount) (calls : List SendCall) :
    Resumes conn.sendBuf ⟨conn, [], none⟩ calls ↔ calls = [] ∨
      conn.sendBuf.len - conn.sendBuf.idx < 2 ^ 31 ∧
        neverBlocks (conn.sendBuf.len - conn.sendBuf.idx)
          (conn.maxRequestCount - conn.requestCount) calls = true := by
  have hstart : Resumed conn.sendBuf ⟨conn, [], none⟩ := by
    constructor
    · simp [Buffer.slice]
    · rfl
    · intro e ret hlast
      cases hlast
    · intro e ret hlast
      cases hlast
    · intro e ret hlast
      cases hlast
  by_cases hsmall : conn.sendBuf.len - conn.sendBuf.idx < 2 ^ 31
  · have hsteps := hstart.steps calls hsmall (Nat.le_of_lt hidx)
    constructor
    · intro hall
      exact .inr ⟨hsmall, hsteps.1 hall⟩
    · rintro (rfl | ⟨-, hnever⟩)
      · exact hstart
      · exact hsteps.2 hnever
  · constructor
    · intro hall
      cases calls with
      | nil => exact .inl rfl
      | cons c cs =>
        obtain ⟨t, ht, -⟩ := hall.2 ⟨hroom, hidx⟩
        rw [SendRun.call, connectionSend_overflows (Nat.ne_of_lt hroom) (by omega) (by omega)] at ht
        cases ht
    · rintro (rfl | ⟨hless, -⟩)
      · exact hstart
      · exact absurd hless hsmall

/-- A connection with the bytes 1, 2, 3 to send. -/
def threeBytesLeft : Connection :=
  { Connection.blank with
    sendBuf := ⟨0, 8, 3, 0, fun i => BitVec.ofNat 8 (i + 1)⟩, maxRequestCount := connectionRequestCount }

theorem sends_resume_threeBytes : threeBytesLeft.sendBuf.idx < threeBytesLeft.sendBuf.len ∧
    Resumes threeBytesLeft.sendBuf ⟨threeBytesLeft, [], none⟩
      [⟨[.accepted 0, .failed], 5⟩, ⟨[.accepted 9], 6⟩] :=
  ⟨by decide, (sends_resume_iff (by decide) (by decide) (by decide) (by decide) _).2
    (.inr ⟨by decide, by decide⟩)⟩

/-- A socket that would block behind the first of three bytes is reported as an error. -/
theorem blocked_send_fails : ¬ ∀ (conn : Connection) (calls : List SendCall),
    conn.sendBuf.idx < conn.sendBuf.len → conn.sendBuf.len ≤ conn.sendBuf.cap →
      conn.sendBuf.cap < 2 ^ 32 → conn.requestCount < conn.maxRequestCount →
        Resumes conn.sendBuf ⟨conn, [], none⟩ calls := by
  intro hall
  have hresumes := hall threeBytesLeft [⟨[.accepted 0, .wouldBlock], 5⟩] (by decide) (by decide)
    (by decide) (by decide)
  obtain ⟨t, ht, hresumed⟩ := hresumes.2 ⟨by decide, by decide⟩
  have hlast : (SendRun.call ⟨threeBytesLeft, [], none⟩ ⟨[.accepted 0, .wouldBlock], 5⟩).map
      (·.last) = .ok (some (.blocked, connSendError)) := rfl
  rw [ht] at hlast
  have hpart := (hresumed.blocked _ _ (Except.ok.inj hlast)).2 rfl
  cases hpart

end PingServer
