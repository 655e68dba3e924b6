import PingServer.Net.Sessions
import PingServer.Parser.Incremental

/-!
# The parser in the server

`http_protocol_read` passes the whole read buffer each time, and as `last_len`
either 0 or the -2 of the last call. With -2 the parser starts five bytes before
the data, in the fields of the `Buffer`, which hold zeros there. So every connection of
the server hands on the first request of what it receives, whatever that is and however
it is split.
-/

namespace PingServer.Pico

open ByteMem Scanner

/-! ## The calls -/

/-- `HTTP_HEADER_NUMBER_LIMIT` -/
abbrev httpHeaderNumberLimit : Nat := 32

/-- The five bytes in front of the data: the last one of `len`, and `idx`. -/
def fieldsBefore (len : Nat) : List Byte := [BitVec.ofNat 8 (len / 2 ^ 24), 0, 0, 0, 0]

/-- What `http_protocol_read` takes over from a call. -/
def Result.parsed (r : Result RequestOut) : Parsed :=
  ⟨r.ret, r.out.method, r.out.path, r.out.minorVersion, r.out.headers⟩

/-- `phr_parse_request` as `http_protocol_read` calls it. For the `last_len` that are passed
it returns (`serverParser_returns`). -/
def serverParser (b : Build) : Parser := fun buf lastLen =>
  Result.parsed ((phrParseRequest b httpHeaderNumberLimit (fieldsBefore buf.length) buf
    lastLen).getD ⟨-1, .reset⟩)

theorem serverParser_returns (b : Build) (buf : List Byte) {lastLen : Nat} (h : PassedLen lastLen) :
    ∃ r, phrParseRequest b httpHeaderNumberLimit (fieldsBefore buf.length) buf lastLen = some r ∧
      serverParser b buf lastLen = r.parsed := by
  have hinside : ResumesInside (fieldsBefore buf.length) buf lastLen := by
    rcases h with rfl | rfl
    · exact .inl (by decide)
    · exact .inr (.inr (Nat.le_refl 5))
  have hsome : (phrParseRequest b httpHeaderNumberLimit (fieldsBefore buf.length) buf
      lastLen).isSome = true := (parseRequest_streams b httpHeaderNumberLimit).call_isSome.2 hinside
  obtain ⟨r, hr⟩ := Option.isSome_iff_exists.1 hsome
  refine ⟨r, hr, ?_⟩
  rw [serverParser, hr]
  rfl

/-- The bytes in front of the data of a read buffer are what the parser is given. -/
theorem fieldsBefore_eq {m : Memory} {buf : Buffer} (hat : BufferAt m buf) (hidx : buf.idx = 0) :
    (List.range 5).map (fun i => m (bufData buf.addr 0 - 5 + i)) = fieldsBefore buf.len := by
  have hlen := hat.len
  have hzero := hat.idx
  rw [hidx] at hzero
  simp only [bufLen, bufIdx, loadLE] at hlen hzero
  have hbyte : ∀ {x : Byte}, x.toNat = 0 → x = 0 := fun h => BitVec.eq_of_toNat_eq h
  have h₀ := (m (buf.addr + 4)).isLt
  have h₁ := (m (buf.addr + 4 + 1)).isLt
  have h₂ := (m (buf.addr + 4 + 1 + 1)).isLt
  have htop : m (buf.addr + 7) = BitVec.ofNat 8 (buf.len / 2 ^ 24) := by
    apply BitVec.eq_of_toNat_eq
    have h₃ := (m (buf.addr + 7)).isLt
    rw [BitVec.toNat_ofNat]
    simp only [Nat.add_assoc, Nat.reduceAdd] at hlen h₀ h₁ h₂
    omega
  have haddr : ∀ i, bufData buf.addr 0 - 5 + i = buf.addr + 7 + i := by
    intro i
    simp only [bufData, sizeofBuffer]
    omega
  simp only [haddr, List.range_succ, List.range_zero, List.nil_append, List.cons_append, List.map_cons,
    List.map_nil, fieldsBefore, Nat.add_zero, htop, Nat.add_assoc, Nat.reduceAdd]
  simp only [Nat.add_assoc, Nat.reduceAdd] at hzero
  rw [hbyte (x := m (buf.addr + 8)) (by omega), hbyte (x := m (buf.addr + 9)) (by omega),
    hbyte (x := m (buf.addr + 10)) (by omega), hbyte (x := m (buf.addr + 11)) (by omega)]

/-! ## What the server finds -/

/-- A buffer of the server is far smaller than the byte of `len` in front of it counts. -/
abbrev SmallBuffer (buf : List Byte) : Prop := buf.length < 2 ^ 24

theorem fieldsBefore_lines {buf : List Byte} (hlen : SmallBuffer buf) :
    Lines (fieldsBefore buf.length) := by
  have hzero : buf.length / 2 ^ 24 = 0 := Nat.div_eq_of_lt hlen
  rw [fieldsBefore, hzero]
  exact .of_no_cr (by decide)

/-- With -2 the check starts in the fields. -/
theorem resumeAt_minus_two {buf : List Byte} (hlen : SmallBuffer buf) :
    resumeAt (fieldsBefore buf.length) buf (2 ^ 64 - 2) = some (fieldsBefore buf.length ++ buf) := by
  have hfar : ¬ 2 ^ 64 - 2 - 3 ≤ buf.length := by
    have hlen' : buf.length < 2 ^ 24 := hlen
    omega
  unfold resumeAt
  rw [if_neg (by decide), if_neg hfar]
  rfl

/-- The result for a request of `n` bytes. -/
def RequestOut.found (out : RequestOut) (n : Nat) : Parsed := Result.parsed ⟨n, out⟩

theorem serverParser_complete (b : Build) {text : List Byte} (rest : List Byte) {out : RequestOut}
    {lastLen : Nat} (hlen : SmallBuffer (text ++ rest))
    (h : RequestText httpHeaderNumberLimit text out) (hpassed : PassedLen lastLen) :
    serverParser b (text ++ rest) lastLen = out.found text.length := by
  obtain ⟨r, hr, hparsed⟩ := serverParser_returns b (text ++ rest) hpassed
  have hshort : text.length < 2 ^ 31 := by
    have hsmall : (text ++ rest).length < 2 ^ 24 := hlen
    rw [List.length_append] at hsmall
    omega
  have hfound := (parseRequest_reads b httpHeaderNumberLimit).call_text
    (fieldsBefore (text ++ rest).length) rest hshort h
  have hsame : r = ⟨text.length, out⟩ := by
    apply Option.some.inj
    rw [← hr, ← hfound]
    rcases hpassed with rfl | rfl
    · rfl
    · -- two line ends come at the end of the request
      obtain ⟨front, nl, hnl, htext⟩ := h.ended
      have hcrlf : CrLf (fieldsBefore (text ++ rest).length ++ front ++ LF :: nl) := by
        rw [List.append_assoc, ← htext]
        exact ((fieldsBefore_lines hlen).append h.lines).crlf
      obtain ⟨left, hloop⟩ := isCompleteLoop_ended RequestOut.reset hnl rest _ 0 (by decide) hcrlf
      have hstart := resumeAt_minus_two hlen
      rw [phrParseRequest, call, guarded_of_done hstart, call_zero]
      rw [← hloop, htext]
      simp only [List.append_assoc]
  rw [hparsed, hsame]
  rfl

theorem serverParser_part (b : Build) {text got : List Byte} {out : RequestOut} {lastLen : Nat}
    (hlen : SmallBuffer text) (h : RequestText httpHeaderNumberLimit text out) (hgot : got <+: text)
    (hne : got ≠ text) (hpassed : PassedLen lastLen) : (serverParser b got lastLen).ret = -2 := by
  have hsmall : SmallBuffer got := lt_of_le_of_lt hgot.length_le hlen
  have hreads := parseRequest_reads b httpHeaderNumberLimit
  obtain ⟨r, hr, hparsed⟩ := serverParser_returns b got hpassed
  have hmore : ∃ u, r = ⟨-2, u⟩ := by
    rcases hpassed with rfl | rfl
    · obtain ⟨u, hu⟩ := hreads.call_part (fieldsBefore got.length) h hgot hne
      exact ⟨u, Option.some.inj (hr.symm.trans hu)⟩
    · obtain ⟨u, hmore⟩ := hreads.part_more (hreads.whole h) hgot hne
      have hcrlf : CrLf (fieldsBefore got.length ++ got) :=
        List.isChain_append.2 ⟨(fieldsBefore_lines hsmall).crlf, h.lines.crlf.part hgot,
          fun c hc _ _ heq => absurd heq ((fieldsBefore_lines hsmall).last c hc)⟩
      obtain ⟨v, hv⟩ := guarded_of_more (resumeAt_minus_two hsmall) hcrlf hmore
      rw [phrParseRequest, call, hv] at hr
      exact ⟨v, (Option.some.inj hr).symm⟩
  obtain ⟨u, rfl⟩ := hmore
  rw [hparsed]
  rfl

/-- Whatever the server finds is a request at the start of the buffer. -/
theorem serverParser_sound (b : Build) {buf : List Byte} {lastLen : Nat} (hlen : SmallBuffer buf)
    (hpassed : PassedLen lastLen) (hret : 0 ≤ (serverParser b buf lastLen).ret) :
    ∃ text out, text <+: buf ∧ RequestText httpHeaderNumberLimit text out ∧
      serverParser b buf lastLen = out.found text.length := by
  obtain ⟨r, hr, hparsed⟩ := serverParser_returns b buf hpassed
  rw [hparsed] at hret
  have hfound := found_of_resumed hr hret
  obtain ⟨text, rest, out, rfl, htext, rfl⟩ :=
    ((parseRequest_reads b httpHeaderNumberLimit).call_iff (lt_trans hlen (by decide))).1
      ⟨hfound, hret⟩
  exact ⟨text, out, List.prefix_append text rest, htext, hparsed⟩

/-- A buffer starts with at most one request. -/
theorem RequestText.unique {maxHeaders : Nat} {text text' whole : List Byte} {out out' : RequestOut}
    (h : RequestText maxHeaders text out) (h' : RequestText maxHeaders text' out')
    (hpre : text <+: whole) (hpre' : text' <+: whole) : text' = text ∧ out' = out := by
  obtain ⟨rest, rfl⟩ := hpre
  obtain ⟨rest', hwhole⟩ := hpre'
  have hrun : parseRequest .portable maxHeaders .reset (text ++ rest) = .done () out rest :=
    parseRequest_complete h
  rw [← hwhole, parseRequest_complete h', Outcome.done.injEq] at hrun
  obtain ⟨-, rfl, rfl⟩ := hrun
  exact ⟨List.append_cancel_right hwhole, rfl⟩

/-- The request in the context, once the parser has stored `out`. -/
def RequestOut.request (out : RequestOut) : HttpRequest := (out.found 0).request

theorem serverParser_request (b : Build) {text : List Byte} {out : RequestOut}
    (hlen : SmallBuffer text) (h : RequestText httpHeaderNumberLimit text out) :
    (serverParser b).request text = out.request := by
  have hwhole := serverParser_complete b [] (by rwa [List.append_nil]) h (.inl rfl)
  rw [List.append_nil] at hwhole
  rw [Parser.request, hwhole]
  rfl

/-! ## Sessions -/

theorem serverParser_onlyFirst (b : Build) {text total : List Byte} {out : RequestOut}
    (hlen : SmallBuffer total) (h : RequestText httpHeaderNumberLimit text out)
    (hpre : text <+: total) : OnlyFirst (serverParser b) text total := by
  have hwhole : serverParser b text 0 = out.found text.length := by
    have hfound := serverParser_complete b []
      (by rw [List.append_nil]; exact lt_of_le_of_lt hpre.length_le hlen) h (.inl rfl)
    rwa [List.append_nil] at hfound
  refine ⟨fun got l hgot hfirst hl => ?_, fun got l hgot hfirst hl => ?_⟩
  · obtain ⟨more, rfl⟩ := hfirst
    have hsmall : SmallBuffer (text ++ more) := lt_of_le_of_lt hgot.length_le hlen
    rw [serverParser_complete b more hsmall h hl, hwhole]
    exact ⟨rfl, Int.natCast_nonneg _⟩
  · have hpart := (List.prefix_or_prefix_of_prefix hgot hpre).resolve_right hfirst
    refine serverParser_part b (lt_of_le_of_lt hpre.length_le hlen) h hpart ?_ hl
    rintro rfl
    exact hfirst List.prefix_rfl

/-- One event hands on nothing while the parser finds nothing. -/
theorem sessionStep_silent {parse : Parser} {max cap : Nat} {got total : List Byte}
    {h h' : Handling} {e : SessionEvent}
    (hnone : ∀ buf l, buf <+: total → PassedLen l → (parse buf l).ret < 0)
    (inv : SessionInv cap got h) (hgot : got ++ e.bytes <+: total) (hfit : total.length ≤ cap)
    (hstep : sessionStep parse max h e = some h') :
    SessionInv cap (got ++ e.bytes) h' ∧ requests h'.trace = requests h.trace := by
  have hlen := hgot.length_le
  rw [List.length_append] at hlen
  cases e with
  | read current env =>
    simp only [sessionStep] at hstep
    split at hstep
    · rename_i h₁ hread
      cases hstep
      have inv' : SessionInv cap got { h with env := env } := ⟨inv.bytes, inv.cap, inv.resting⟩
      obtain ⟨hinv, l, hl, hreqs⟩ := tcpOnRead_keep inv' (hlen.trans hfit) hread
      have hnot : ¬ 0 ≤ (parse (got ++ taken env.recvs) l).ret := not_le.2 (hnone _ l hgot hl)
      rw [if_neg hnot, List.append_nil] at hreqs
      exact ⟨hinv, hreqs⟩
    · cases hstep
  | write current env =>
    simp only [sessionStep] at hstep
    split at hstep
    · rename_i h₁ hwrite
      cases hstep
      have inv' : SessionInv cap got { h with env := env } := ⟨inv.bytes, inv.cap, inv.resting⟩
      have hkept := tcpOnWrite_keep inv' hwrite
      have hbytes : (SessionEvent.write current env).bytes = [] := rfl
      rw [hbytes, List.append_nil]
      exact hkept
    · cases hstep
  | others arena ctxs cache =>
    cases hstep
    have hbytes : (SessionEvent.others arena ctxs cache).bytes = [] := rfl
    rw [hbytes, List.append_nil]
    refine ⟨⟨inv.bytes, inv.cap, fun ctx hctx => ?_⟩, rfl⟩
    have hown : h.conn.protocolCtx = some ctx := hctx
    simp only [if_pos hown]
    exact inv.resting ctx hown

theorem session_silent {parse : Parser} {max cap : Nat} (es : List SessionEvent) :
    ∀ {got : List Byte} {h h' : Handling},
      (∀ buf l, buf <+: got ++ stream es → PassedLen l → (parse buf l).ret < 0) →
      SessionInv cap got h → (got ++ stream es).length ≤ cap →
      Machine.run (sessionStep parse max) h es = some h' → requests h'.trace = requests h.trace := by
  induction es with
  | nil =>
    intro got h h' _ _ _ hrun
    cases hrun
    rfl
  | cons e es ih =>
    intro got h h' hnone inv hfit hrun
    have hstream : got ++ stream (e :: es) = got ++ e.bytes ++ stream es := by
      simp only [stream, List.flatMap_cons, List.append_assoc]
    rw [hstream] at hnone hfit
    simp only [Machine.run] at hrun
    split at hrun
    · rename_i h₁ hstep
      obtain ⟨inv₁, hsame⟩ := sessionStep_silent hnone inv (List.prefix_append _ _) hfit hstep
      rw [ih hnone inv₁ hfit hrun, hsame]
    · cases hrun

/-- A session hands on the first request it receives, whatever the bytes are and however
they are split: once for every read that finds it complete, and nothing else. -/
theorem session_hands_on_first (b : Build) {max : Nat} {h h' : Handling} {es : List SessionEvent}
    (hnew : NewConnection h.conn) (hsmall : h.conn.readBuf.cap < 2 ^ 24)
    (hfit : (stream es).length ≤ h.conn.readBuf.cap)
    (hrun : Machine.run (sessionStep (serverParser b) max) h es = some h') :
    (∃ text out, text <+: stream es ∧ RequestText httpHeaderNumberLimit text out ∧
      requests h'.trace = requests h.trace ++
        List.replicate (completions text [] es) out.request) ∨
    ((∀ text out, RequestText httpHeaderNumberLimit text out → ¬ text <+: stream es) ∧
      requests h'.trace = requests h.trace) := by
  have hempty : h.conn.readBuf.bytes = [] :=
    List.eq_nil_of_length_eq_zero ((Buffer.bytes_length _).trans hnew.empty)
  have inv : SessionInv h.conn.readBuf.cap [] h :=
    ⟨hempty, rfl, fun ctx hctx => by rw [hnew.ctx] at hctx; cases hctx⟩
  have hstream : SmallBuffer (stream es) := lt_of_le_of_lt hfit hsmall
  by_cases hfirst : ∃ text out, text <+: stream es ∧ RequestText httpHeaderNumberLimit text out
  · obtain ⟨text, out, hpre, htext⟩ := hfirst
    refine .inl ⟨text, out, hpre, htext, ?_⟩
    have hreqs := session_requests es (serverParser_onlyFirst b hstream htext hpre) inv hfit hrun
    rw [hreqs, serverParser_request b (lt_of_le_of_lt hpre.length_le hstream) htext]
  · have hnone : ∀ text out, RequestText httpHeaderNumberLimit text out → ¬ text <+: stream es :=
      fun text out htext hpre => hfirst ⟨text, out, hpre, htext⟩
    refine .inr ⟨hnone, session_silent es (fun buf l hbuf hl => ?_) inv hfit hrun⟩
    by_contra hret
    obtain ⟨text, out, hpre, htext, -⟩ := serverParser_sound b
      (lt_of_le_of_lt hbuf.length_le hstream) hl (not_lt.1 hret)
    exact hnone text out htext (hpre.trans hbuf)

/-! ## The connections of a server -/

/-- What a connection that has received the bytes of these calls hands on: the request at
their start, once for every read that finds it complete, or nothing. -/
def HandsOnFirst (cs : List HandlerCall) (handed : List HttpRequest) : Prop :=
  (∃ text out, text <+: stream (sessionEvents cs) ∧ RequestText httpHeaderNumberLimit text out ∧
    handed = List.replicate (completions text [] (sessionEvents cs)) out.request) ∨
  ((∀ text out, RequestText httpHeaderNumberLimit text out →
    ¬ text <+: stream (sessionEvents cs)) ∧ handed = [])

theorem handsOnFirst_of_session {b : Build} {s : TcpServer} {i : Nat} {heard : List HandlerCall}
    {done : List Action} {start h : Handling} {es : List SessionEvent}
    (hs : SessionOf (serverParser b) s i heard done start es h) :
    HandsOnFirst heard (requests done) := by
  have hcap : start.conn.readBuf.cap = bufferRunSize := hs.fresh.readCap
  have hfit : (stream es).length ≤ start.conn.readBuf.cap := by
    rw [hcap]
    exact hs.inside.trans (by decide)
  have hnothing : requests start.trace = [] := by
    rw [hs.idle]
    rfl
  unfold HandsOnFirst
  rw [← hs.heard.stream_eq, ← hs.done]
  rcases session_hands_on_first b hs.fresh.toNewConnection (by rw [hcap]; decide) hfit hs.run with
    ⟨text, out, hpre, htext, hreqs⟩ | ⟨hnone, hreqs⟩
  · refine .inl ⟨text, out, hpre, htext, ?_⟩
    rw [hreqs, hnothing, List.nil_append, hs.heard.completions_eq]
  · exact .inr ⟨hnone, hreqs.trans hnothing⟩

/-- **The server hands on the first request of each connection**, in every undisturbed run,
whatever bytes arrive, however they are split and whatever other connections do. -/
theorem server_hands_on_first (b : Build) {s : TcpServer} {l : EventLoop} {events : List LoopEvent}
    (hstart : Started s) (hallowed : Machine.allowedAlong (loopStep (serverParser b))
      (Undisturbed (serverParser b)) ⟨s, []⟩ events)
    (hrun : Machine.run (loopStep (serverParser b)) ⟨s, []⟩ events = some l) :
    ∃ r, Machine.run (recordStep (serverParser b)) (⟨s, []⟩, .empty) events = some (l, r) ∧
      ∀ i j, (i, j) ∈ l.server.opened → HandsOnFirst (r.heard i) (requests (r.done i)) := by
  obtain ⟨r, hrecord, hok⟩ := run_record (r := .empty) events hrun hallowed
  refine ⟨r, hrecord, fun i j hij => ?_⟩
  obtain ⟨start, es, h, hs⟩ := loop_sessions hstart (Machine.reaches_of_run hok hrecord) i j hij
  exact handsOnFirst_of_session hs

/-- Two clients send the request for `/`, one of them in two chunks. -/
def halvesInTurn : List LoopEvent :=
  let read := fun i bytes =>
    LoopEvent.call ⟨.tcp i, .onRead, { Env.opens with recvs := [.chunk bytes] }, []⟩
  [.wait [.listen], acceptCall [oneClient, oneClient], .wait [.tcp 0, .tcp 1],
    read 0 (homeGet.take 7), read 1 homeGet, read 0 (homeGet.drop 7)]

theorem server_hands_on_first_halves : ∃ l,
    Machine.run (loopStep (serverParser .portable)) ⟨.fresh 20 24 (by decide), []⟩ halvesInTurn =
      some l ∧
      ∃ r, Machine.run (recordStep (serverParser .portable)) (⟨.fresh 20 24 (by decide), []⟩, .empty)
        halvesInTurn = some (l, r) ∧
          ∀ i j, (i, j) ∈ l.server.opened → HandsOnFirst (r.heard i) (requests (r.done i)) := by
  have hsome : (Machine.run (loopStep (serverParser .portable)) ⟨.fresh 20 24 (by decide), []⟩
      halvesInTurn).isSome := by decide +kernel
  obtain ⟨l, hrun⟩ := Option.isSome_iff_exists.1 hsome
  have hallowed : Machine.allowedAlong (loopStep (serverParser .portable))
      (Undisturbed (serverParser .portable)) ⟨.fresh 20 24 (by decide), []⟩ halvesInTurn := by
    decide +kernel
  exact ⟨l, hrun, server_hands_on_first .portable (TcpServer.fresh_started (by decide) (by decide)) hallowed hrun⟩

end PingServer.Pico
