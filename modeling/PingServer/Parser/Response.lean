import PingServer.Parser.Grammar

/-!
# The responses that are accepted

The grammar of responses, which read what a server writes. `accepted_iff` says
for all three calls what they accept, and `found_from_last_byte` from when on.
-/

namespace PingServer.Pico

open ByteMem Scanner

/-! ## The grammar -/

/-- A message starts behind spaces; without any there is none. -/
structure Message (gap msg : List Byte) : Prop where
  spaces : ∀ c ∈ gap, c = SP
  text : ∀ c ∈ msg, isCtl c = false
  head : ∀ c ∈ msg.head?, c ≠ SP
  apart : gap = [] → msg = []

structure StatusLine (line : List Byte) (minor status : Nat) (msg : List Byte) : Prop where
  digit : minor < 10
  parts : ∃ sp d₁ d₂ d₃ gap nl, Spaces sp ∧ d₁ < 10 ∧ d₂ < 10 ∧ d₃ < 10 ∧
    status = 100 * d₁ + 10 * d₂ + d₃ ∧ Message gap msg ∧ LineEnd nl ∧
    line = utf8 "HTTP/1." ++ BitVec.ofNat 8 (0x30 + minor) :: (sp ++ BitVec.ofNat 8 (0x30 + d₁) ::
      BitVec.ofNat 8 (0x30 + d₂) :: BitVec.ofNat 8 (0x30 + d₃) :: (gap ++ msg ++ nl))

structure ResponseText (maxHeaders : Nat) (text : List Byte) (out : ResponseOut) : Prop where
  parts : ∃ line headers minor status, StatusLine line minor status out.msg ∧
    out.minorVersion = (minor : Nat) ∧ out.status = (status : Nat) ∧
    HeadersText true maxHeaders headers out.headers ∧ text = line ++ headers

theorem digit_ne_space {d : Nat} (h : d < 10) : BitVec.ofNat 8 (0x30 + d) ≠ SP := by
  intro heq
  have hnat := congrArg BitVec.toNat heq
  rw [BitVec.toNat_ofNat] at hnat
  have hsp : SP.toNat = 32 := rfl
  omega

theorem parseInt3_sound {out t : ResponseOut} {buf rest : List Byte} {u : Unit}
    (h : parseInt3 out buf = .done u t rest) : ∃ d₁ d₂ d₃, d₁ < 10 ∧ d₂ < 10 ∧ d₃ < 10 ∧
      buf = BitVec.ofNat 8 (0x30 + d₁) :: BitVec.ofNat 8 (0x30 + d₂) :: BitVec.ofNat 8 (0x30 + d₃) ::
        rest ∧ t = { out with status := ((100 * d₁ + 10 * d₂ + d₃ : Nat) : Int) } := by
  obtain ⟨_, _, _, hd, h₁⟩ := bind_done.1 h
  obtain ⟨rfl, d₁, hd₁, rfl, rfl⟩ := parseInt_done.1 hd
  obtain ⟨_, _, _, hset, h₂⟩ := bind_done.1 h₁
  cases hset
  obtain ⟨_, _, _, hd, h₃⟩ := bind_done.1 h₂
  obtain ⟨rfl, d₂, hd₂, rfl, rfl⟩ := parseInt_done.1 hd
  obtain ⟨_, _, _, hset, h₄⟩ := bind_done.1 h₃
  cases hset
  obtain ⟨_, _, _, hd, h₅⟩ := bind_done.1 h₄
  obtain ⟨rfl, d₃, hd₃, rfl, rfl⟩ := parseInt_done.1 hd
  cases h₅
  refine ⟨d₁, d₂, d₃, hd₁, hd₂, hd₃, rfl, ?_⟩
  simp only [ResponseOut.mk.injEq, true_and, and_true]
  omega

theorem parseInt3_complete (out : ResponseOut) {d₁ d₂ d₃ : Nat} (hd₁ : d₁ < 10) (hd₂ : d₂ < 10)
    (hd₃ : d₃ < 10) (rest : List Byte) :
    parseInt3 out (BitVec.ofNat 8 (0x30 + d₁) :: BitVec.ofNat 8 (0x30 + d₂) ::
      BitVec.ofNat 8 (0x30 + d₃) :: rest) =
        .done () { out with status := ((100 * d₁ + 10 * d₂ + d₃ : Nat) : Int) } rest := by
  rw [parseInt3, bind_of_done (parseInt_done.2 ⟨rfl, d₁, hd₁, rfl, rfl⟩), bind_of_done update_apply,
    bind_of_done (parseInt_done.2 ⟨rfl, d₂, hd₂, rfl, rfl⟩), bind_of_done update_apply,
    bind_of_done (parseInt_done.2 ⟨rfl, d₃, hd₃, rfl, rfl⟩), update_apply]
  simp only [Outcome.done.injEq, ResponseOut.mk.injEq, true_and, and_true]
  omega

theorem trimMessage_done {out t : ResponseOut} {buf rest : List Byte} {u : Unit} :
    trimMessage out buf = .done u t rest ↔ rest = buf ∧ ∃ gap msg, out.msg = gap ++ msg ∧
      (∀ c ∈ gap, c = SP) ∧ (∀ c ∈ msg.head?, c ≠ SP) ∧ (gap = [] → msg = []) ∧
      t = { out with msg := msg } := by
  have hrun : trimMessage out buf = if out.msg = [] then .done () out buf
      else if out.msg.head? = some SP then
        .done () { out with msg := out.msg.dropWhile (· == SP) } buf else .fail out := by
    rw [trimMessage, bind_of_done store_apply]
    simp only [ite_run, pure_apply, update_apply, fail_apply]
  rw [hrun]
  obtain ⟨minor, status, text, headers⟩ := out
  dsimp only
  constructor
  · intro h
    split at h
    · rename_i hnil
      cases h
      exact ⟨rfl, [], [], hnil, nofun, nofun, fun _ => rfl, by rw [hnil]⟩
    · split at h
      · rename_i hhead
        cases h
        obtain ⟨tail, rfl⟩ : ∃ tail, text = SP :: tail := ⟨_, (List.cons_head?_tail hhead).symm⟩
        refine ⟨rfl, (SP :: tail).takeWhile (· == SP), (SP :: tail).dropWhile (· == SP),
          List.takeWhile_append_dropWhile.symm, ?_, ?_, ?_, rfl⟩
        · exact fun c hc => by simpa using List.mem_takeWhile_imp hc
        · intro c hc
          have hne : (SP :: tail).dropWhile (· == SP) ≠ [] := by
            intro hnil
            rw [hnil] at hc
            cases hc
          have hnot := List.head_dropWhile_not (· == SP) hne
          rw [List.head?_eq_some_head hne, Option.mem_some_iff] at hc
          rw [hc] at hnot
          simpa using hnot
        · rw [List.takeWhile_cons_of_pos (by decide)]
          nofun
      · cases h
  · rintro ⟨rfl, gap, msg, rfl, hgap, hhead, hapart, rfl⟩
    cases gap with
    | nil =>
      obtain rfl := hapart rfl
      rfl
    | cons c gap =>
      obtain rfl := hgap c List.mem_cons_self
      have hdrop : (SP :: gap ++ msg).dropWhile (· == SP) = msg := by
        rw [List.dropWhile_append_of_pos fun c hc => beq_iff_eq.2 (hgap c hc)]
        cases msg with
        | nil => rfl
        | cons d msg => rw [List.dropWhile_cons_of_neg (by simpa using hhead d rfl)]
      have hspace : (SP :: gap ++ msg).head? = some SP := rfl
      rw [if_neg (by simp), if_pos hspace, hdrop]

theorem Message.ctl {gap msg : List Byte} (h : Message gap msg) :
    ∀ c ∈ gap ++ msg, isCtl c = false := by
  refine List.forall_mem_append.2 ⟨fun c hc => ?_, h.text⟩
  rw [h.spaces c hc]
  rfl

theorem statusLine_sound {b : Build} {out t : ResponseOut} {buf rest : List Byte} {u : Unit}
    (h : statusLine b out buf = .done u t rest) : ∃ line minor status msg, buf = line ++ rest ∧
      StatusLine line minor status msg ∧ t = ⟨(minor : Nat), (status : Nat), msg, out.headers⟩ := by
  rw [statusLine, getTokenToEol_eq] at h
  obtain ⟨v, _, _, hversion, h₁⟩ := bind_done.1 h
  obtain ⟨rfl, minor, hminor, rfl, rfl⟩ := parseHttpVersion_sound hversion
  obtain ⟨_, _, _, hset, h₂⟩ := bind_done.1 h₁
  cases hset
  obtain ⟨c, _, _, hpeek, h₃⟩ := bind_done.1 h₂
  obtain ⟨rfl, rfl, tail, rfl⟩ := peek_done.1 hpeek
  rw [ite_run] at h₃
  split at h₃
  · cases h₃
  · rename_i hc
    rw [not_not] at hc
    subst hc
    obtain ⟨_, _, _, hsp, h₄⟩ := bind_done.1 h₃
    obtain ⟨rfl, c, sps, hbuf, hsps⟩ := skipSpaces_sound hsp
    obtain ⟨rfl, rfl⟩ := List.cons.inj hbuf
    obtain ⟨_, _, _, hlen, h₅⟩ := bind_done.1 h₄
    obtain ⟨rfl, rfl, -⟩ := atLeast_done.1 hlen
    obtain ⟨_, _, _, hint, h₆⟩ := bind_done.1 h₅
    obtain ⟨d₁, d₂, d₃, hd₁, hd₂, hd₃, rfl, rfl⟩ := parseInt3_sound hint
    obtain ⟨text, _, _, htext, h₇⟩ := bind_done.1 h₆
    obtain ⟨rfl, nl, hnl, rfl, hctl⟩ := lineText_done.1 htext
    obtain ⟨_, _, _, hset, h₈⟩ := bind_done.1 h₇
    cases hset
    obtain ⟨rfl, gap, msg, hmsg, hgap, hhead, hapart, rfl⟩ := trimMessage_done.1 h₈
    obtain rfl : text = gap ++ msg := hmsg
    refine ⟨utf8 "HTTP/1." ++ BitVec.ofNat 8 (0x30 + minor) :: (SP :: sps ++
      BitVec.ofNat 8 (0x30 + d₁) :: BitVec.ofNat 8 (0x30 + d₂) :: BitVec.ofNat 8 (0x30 + d₃) ::
        (gap ++ msg ++ nl)), minor, _, msg, by simp, ⟨hminor, SP :: sps, d₁, d₂, d₃, gap, nl,
          ⟨List.cons_ne_nil _ _, List.forall_mem_cons.2 ⟨rfl, hsps⟩⟩, hd₁, hd₂, hd₃, rfl, ?_, hnl, rfl⟩, rfl⟩
    exact ⟨hgap, fun c hc => hctl c (List.mem_append_right gap hc), hhead, hapart⟩

theorem statusLine_complete {b : Build} {out : ResponseOut} {line msg rest : List Byte}
    {minor status : Nat} (h : StatusLine line minor status msg) : statusLine b out (line ++ rest) =
      .done () ⟨(minor : Nat), (status : Nat), msg, out.headers⟩ rest := by
  obtain ⟨hminor, sp, d₁, d₂, d₃, gap, nl, hsp, hd₁, hd₂, hd₃, rfl, hmsg, hnl, rfl⟩ := h
  rw [statusLine, getTokenToEol_eq]
  have hbuf : utf8 "HTTP/1." ++ BitVec.ofNat 8 (0x30 + minor) :: (sp ++ BitVec.ofNat 8 (0x30 + d₁) ::
      BitVec.ofNat 8 (0x30 + d₂) :: BitVec.ofNat 8 (0x30 + d₃) :: (gap ++ msg ++ nl)) ++ rest =
    utf8 "HTTP/1." ++ BitVec.ofNat 8 (0x30 + minor) :: (sp ++ (BitVec.ofNat 8 (0x30 + d₁) ::
      BitVec.ofNat 8 (0x30 + d₂) :: BitVec.ofNat 8 (0x30 + d₃) :: (gap ++ msg ++ nl ++ rest))) := by
    simp
  obtain ⟨hne, hall⟩ := hsp
  obtain ⟨c, sps, rfl⟩ := List.exists_cons_of_ne_nil hne
  obtain rfl := hall c List.mem_cons_self
  have hlen : 4 ≤ (BitVec.ofNat 8 (0x30 + d₁) :: BitVec.ofNat 8 (0x30 + d₂) ::
      BitVec.ofNat 8 (0x30 + d₃) :: (gap ++ msg ++ nl ++ rest)).length := by
    have hpos := List.length_pos_of_ne_nil hnl.ne_nil
    simp only [List.length_cons, List.length_append]
    omega
  rw [hbuf, bind_of_done (parseHttpVersion_complete _ hminor (by simp)), bind_of_done update_apply]
  simp only [List.cons_append]
  rw [bind_of_done (peek_cons (b := SP)), ite_run, if_neg (not_not.2 rfl), ← List.cons_append,
    bind_of_done (skipSpaces_complete _ ⟨hne, hall⟩ ⟨_, _, rfl, digit_ne_space hd₁⟩),
    bind_of_done (atLeast_done (u := ()).2 ⟨rfl, rfl, hlen⟩),
    bind_of_done (parseInt3_complete _ hd₁ hd₂ hd₃ _),
    bind_of_done (lineText_done.2 ⟨rfl, nl, hnl, rfl, hmsg.ctl⟩), bind_of_done update_apply]
  exact trimMessage_done.2 ⟨rfl, gap, msg, rfl, hmsg.spaces, hmsg.head, hmsg.apart, rfl⟩

theorem parseResponse_sound {b : Build} {maxHeaders : Nat} {out t : ResponseOut}
    {buf rest : List Byte} {u : Unit} (hnone : out.headers = [])
    (h : parseResponse b maxHeaders out buf = .done u t rest) :
    ∃ text, buf = text ++ rest ∧ ResponseText maxHeaders text t := by
  obtain ⟨_, _, _, hline, hzoom⟩ := bind_done.1 h
  obtain ⟨line, minor, status, msg, rfl, htext, rfl⟩ := statusLine_sound hline
  simp only [zoom, hnone] at hzoom
  split at hzoom <;> cases hzoom
  rename_i _ new hheaders
  obtain ⟨headers, new', rfl, hnew, rfl⟩ := parseHeaders_sound maxHeaders hheaders
  exact ⟨line ++ headers, (List.append_assoc ..).symm, line, headers, minor, status, htext, rfl, rfl,
    hnew, rfl⟩

theorem parseResponse_complete {b : Build} {maxHeaders : Nat} {out t : ResponseOut}
    {text rest : List Byte} (hnone : out.headers = []) (h : ResponseText maxHeaders text t) :
    parseResponse b maxHeaders out (text ++ rest) = .done () t rest := by
  obtain ⟨line, headers, minor, status, hline, hminor, hstatus, hheaders, rfl⟩ := h
  have hnew : parseHeaders b maxHeaders [] (headers ++ rest) = .done () t.headers rest :=
    parseHeaders_complete hheaders rfl
  rw [List.append_assoc, parseResponse, bind_of_done (statusLine_complete hline)]
  simp only [zoom, hnone, hnew, ← hminor, ← hstatus]

theorem parseResponse_reads (b : Build) (maxHeaders : Nat) :
    Reads (parseResponse b maxHeaders) .reset (ResponseText maxHeaders) where
  toStreams := parseResponse_streams b maxHeaders
  sound := parseResponse_sound rfl
  complete h _ := parseResponse_complete rfl h

/-! ## All three calls -/

/-- What is accepted is the grammar: a message of `n` bytes is found just when the first `n`
bytes are one, and what is stored are the values of its parts. -/
theorem accepted_iff (b : Build) (maxHeaders : Nat) (before buf : List Byte)
    (hlen : buf.length < 2 ^ 31) :
    (∀ r, phrParseRequest b maxHeaders before buf 0 = some r ∧ 0 ≤ r.ret ↔
      ∃ text rest out, buf = text ++ rest ∧ RequestText maxHeaders text out ∧
        r = ⟨text.length, out⟩) ∧
    (∀ r, phrParseResponse b maxHeaders before buf 0 = some r ∧ 0 ≤ r.ret ↔
      ∃ text rest out, buf = text ++ rest ∧ ResponseText maxHeaders text out ∧
        r = ⟨text.length, out⟩) ∧
    (∀ r, phrParseHeaders b maxHeaders before buf 0 = some r ∧ 0 ≤ r.ret ↔
      ∃ text rest headers, buf = text ++ rest ∧ HeadersText true maxHeaders text headers ∧
        r = ⟨text.length, headers⟩) :=
  ⟨fun _ => (parseRequest_reads b maxHeaders).call_iff hlen,
    fun _ => (parseResponse_reads b maxHeaders).call_iff hlen,
    fun _ => (parseHeaders_reads b maxHeaders).call_iff hlen⟩

/-- A request without headers, and one byte behind it. -/
def bareGet : List Byte := utf8 "GET / HTTP/1.1\r\n\r\nG"

def bareGetRead : Result RequestOut := ⟨18, ⟨utf8 "GET", utf8 "/", 1, []⟩⟩

theorem accepted_iff_bareGet : ∃ text rest out, bareGet = text ++ rest ∧ RequestText 0 text out ∧
    bareGetRead = ⟨text.length, out⟩ :=
  ((accepted_iff .sse42 0 [] bareGet (by decide +kernel)).1 bareGetRead).1 (by decide +kernel)

/-- A message is found from its last byte on: each shorter part of the buffer asks for more, and
each longer one gives the same result. -/
theorem found_from_last_byte (b : Build) (maxHeaders : Nat) (before whole : List Byte)
    (hlen : whole.length < 2 ^ 31) (k : Nat) :
    (∀ r, phrParseRequest b maxHeaders before whole 0 = some r → 0 ≤ r.ret →
      if (k : Int) < r.ret then
        ∃ out, phrParseRequest b maxHeaders before (whole.take k) 0 = some ⟨-2, out⟩
      else phrParseRequest b maxHeaders before (whole.take k) 0 = some r) ∧
    (∀ r, phrParseResponse b maxHeaders before whole 0 = some r → 0 ≤ r.ret →
      if (k : Int) < r.ret then
        ∃ out, phrParseResponse b maxHeaders before (whole.take k) 0 = some ⟨-2, out⟩
      else phrParseResponse b maxHeaders before (whole.take k) 0 = some r) ∧
    (∀ r, phrParseHeaders b maxHeaders before whole 0 = some r → 0 ≤ r.ret →
      if (k : Int) < r.ret then
        ∃ out, phrParseHeaders b maxHeaders before (whole.take k) 0 = some ⟨-2, out⟩
      else phrParseHeaders b maxHeaders before (whole.take k) 0 = some r) :=
  ⟨fun _ h hret => (parseRequest_reads b maxHeaders).call_take hlen h hret k,
    fun _ h hret => (parseResponse_reads b maxHeaders).call_take hlen h hret k,
    fun _ h hret => (parseHeaders_reads b maxHeaders).call_take hlen h hret k⟩

theorem found_from_last_byte_bareGet :
    if (17 : Int) < bareGetRead.ret then
      ∃ out, phrParseRequest .sse42 0 [] (bareGet.take 17) 0 = some ⟨-2, out⟩
    else phrParseRequest .sse42 0 [] (bareGet.take 17) 0 = some bareGetRead :=
  (found_from_last_byte .sse42 0 [] bareGet (by decide +kernel) 17).1 bareGetRead
    (by decide +kernel) (by decide)

end PingServer.Pico
