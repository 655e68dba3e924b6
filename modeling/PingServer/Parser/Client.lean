import PingServer.Parser.Response
import PingServer.Protocol.Independence

/-!
# Responses as a client reads them

The heads that the server prints are responses of the grammar, so a client with
the same parser reads back the status, the content type and the length that went
into them; and whatever the socket takes, it reads either that or an incomplete
response.
-/

namespace PingServer.Pico

open ByteMem Scanner

/-! ## Numbers -/

theorem ch_digitChar : ∀ d < 10, ch (Nat.digitChar d) = BitVec.ofNat 8 (0x30 + d) := by
  decide

theorem decimal_natCast (n : Nat) : decimal n = (Nat.toDigits 10 n).map ch := by
  have hpos : ¬ (n : Int) < 0 := by omega
  simp only [decimal, if_neg hpos, List.nil_append, Int.natAbs_natCast]

theorem mem_toDigits_digit {n : Nat} {c : Char} (h : c ∈ Nat.toDigits 10 n) :
    0x30 ≤ c.toNat ∧ c.toNat ≤ 0x39 := by
  have hdigit := Nat.isDigit_of_mem_toDigits (by decide) (by decide) h
  simp only [Char.isDigit, Bool.and_eq_true, decide_eq_true_eq, ge_iff_le] at hdigit
  exact hdigit

/-- Reading a printed number gives it back. -/
theorem decimalValue_decimal (n : Nat) : decimalValue (decimal n) = n := by
  have hfold : ∀ (cs : List Char) (v : Nat), (∀ c ∈ cs, 0x30 ≤ c.toNat ∧ c.toNat ≤ 0x39) →
      (cs.map ch).foldl (fun v c => v * 10 + (c.toNat - (ch '0').toNat)) v =
        cs.foldl (fun v c => 10 * v + (c.toNat - '0'.toNat)) v := by
    intro cs
    induction cs with
    | nil => exact fun _ _ => rfl
    | cons c cs ih =>
      intro v hcs
      obtain ⟨⟨-, hc⟩, hcs⟩ := List.forall_mem_cons.1 hcs
      have hbyte : (ch c).toNat = c.toNat := by
        rw [BitVec.toNat_ofNat]
        exact Nat.mod_eq_of_lt (by omega)
      have hzero : (ch '0').toNat = '0'.toNat := rfl
      simp only [List.map_cons, List.foldl_cons]
      rw [ih _ hcs, hbyte, hzero, Nat.mul_comm v 10]
  rw [decimal_natCast, ← foldl_decimal, hfold _ _ fun c hc => mem_toDigits_digit hc,
    ← Nat.ofDigitChars_eq_foldl]
  exact Nat.ofDigitChars_ten_toDigits

/-- The three digits of a status. -/
theorem decimal_status {n : Nat} (hlo : 100 ≤ n) (hhi : n < 1000) : decimal n =
    [BitVec.ofNat 8 (0x30 + n / 100), BitVec.ofNat 8 (0x30 + n / 10 % 10),
      BitVec.ofNat 8 (0x30 + n % 10)] := by
  have hdiv : n / 10 / 10 = n / 100 := by omega
  rw [decimal_natCast, Nat.toDigits_of_base_le (by decide) (by omega),
    Nat.toDigits_of_base_le (by decide) (by omega), hdiv, Nat.toDigits_of_lt_base (by omega)]
  simp only [List.map_cons, List.map_nil, List.cons_append, List.nil_append]
  rw [ch_digitChar _ (by omega), ch_digitChar _ (by omega), ch_digitChar _ (by omega)]

/-! ## The head -/

/-- A value that stands alone in its header. -/
structure HeaderValue (value : List Byte) : Prop where
  val : Value value
  head : ∀ c ∈ value.head?, isBlank c = false

def isHeaderValue (value : List Byte) : Bool :=
  value.all (!isCtl ·) && value.getLast?.all (!isBlank ·) && value.head?.all (!isBlank ·)

theorem isHeaderValue_iff {value : List Byte} : isHeaderValue value = true ↔ HeaderValue value := by
  simp only [isHeaderValue, Bool.and_eq_true, List.all_eq_true, Option.all_eq_true,
    Bool.not_eq_eq_eq_not, Bool.not_true, and_assoc]
  exact ⟨fun ⟨htext, hlast, hhead⟩ => ⟨⟨htext, hlast⟩, hhead⟩,
    fun h => ⟨h.val.text, h.val.last, h.head⟩⟩

instance (value : List Byte) : Decidable (HeaderValue value) :=
  decidable_of_iff (isHeaderValue value = true) isHeaderValue_iff

theorem digit_text : ∀ m < 0x3a, 0x30 ≤ m →
    isCtl (BitVec.ofNat 8 m) = false ∧ isBlank (BitVec.ofNat 8 m) = false := by
  decide

theorem headerValue_decimal (n : Nat) : HeaderValue (decimal n) := by
  have hall : ∀ c ∈ decimal n, isCtl c = false ∧ isBlank c = false := by
    rw [decimal_natCast]
    intro b hb
    obtain ⟨c, hc, rfl⟩ := List.mem_map.1 hb
    obtain ⟨hlo, hhi⟩ := mem_toDigits_digit hc
    exact digit_text c.toNat (by omega) hlo
  exact ⟨⟨fun c hc => (hall c hc).1, fun c hc => (hall c (List.mem_of_mem_getLast? hc)).2⟩,
    fun c hc => (hall c (List.mem_of_mem_head? hc)).2⟩

/-- `name: value\\r\\n` is a header. -/
theorem headerText_printed {first : Bool} {name value : List Byte} (hne : name ≠ [])
    (htok : ∀ c ∈ name, isToken c = true) (hvalue : HeaderValue value) :
    HeaderText first (name ++ utf8 ": " ++ value ++ utf8 "\r\n") ⟨name, value⟩ := by
  have hcolon : utf8 ": " = [ch ':', SP] := by decide
  have hcrlf : utf8 "\r\n" = [CR, LF] := by decide
  have hblank : Blanks [SP] := fun c hc => by rw [List.mem_singleton.1 hc]; rfl
  have hline : HeaderText first (name ++ ch ':' :: ([SP] ++ (value ++ [] ++ [CR, LF]))) ⟨name, value⟩ :=
    .field hne htok hblank hvalue.val hvalue.head nofun (.inl rfl)
  rw [hcolon, hcrlf]
  simpa only [List.append_assoc, List.cons_append, List.nil_append, List.append_nil] using hline

theorem message_reasonPhrase (status : Int) : Message [SP] (getReasonPhrase status) := by
  have hphrase : (∀ c ∈ getReasonPhrase status, isCtl c = false) ∧
      ∀ c ∈ (getReasonPhrase status).head?, c ≠ SP := by
    unfold getReasonPhrase
    split_ifs <;> decide +kernel
  exact ⟨fun c hc => List.mem_singleton.1 hc, hphrase.1, hphrase.2, nofun⟩

theorem headersText_cons {first : Bool} {left : Nat} {name value text : List Byte}
    {hs : List PhrHeader} (hne : name ≠ []) (htok : ∀ c ∈ name, isToken c = true)
    (hvalue : HeaderValue value) (hmore : HeadersText false left text hs) :
    HeadersText first (left + 1) (name ++ utf8 ": " ++ value ++ utf8 "\r\n" ++ text)
      (⟨name, value⟩ :: hs) :=
  .cons (headerText_printed hne htok hvalue) hmore

/-- What a client reads in a head. -/
def headRead (status : Nat) (contentType : List Byte) (length : Nat) (connection : List Byte) :
    ResponseOut where
  minorVersion := 1
  status := status
  msg := getReasonPhrase status
  headers := [⟨utf8 "Content-Type", contentType⟩, ⟨utf8 "Content-Length", decimal length⟩,
    ⟨utf8 "Connection", connection⟩]

/-- What was put into a head is there for the client: `length` as its digits. -/
structure Announces (status : Nat) (contentType : List Byte) (length : Nat)
    (connection : List Byte) (out : ResponseOut) : Prop where
  version : out.minorVersion = 1
  msg : out.msg = getReasonPhrase status
  status : out.status = status
  headers : ∃ digits, decimalValue digits = length ∧ out.headers =
    [⟨utf8 "Content-Type", contentType⟩, ⟨utf8 "Content-Length", digits⟩,
      ⟨utf8 "Connection", connection⟩]

theorem headRead_announces (status : Nat) (contentType : List Byte) (length : Nat)
    (connection : List Byte) : Announces status contentType length connection
      (headRead status contentType length connection) :=
  ⟨rfl, rfl, rfl, decimal length, decimalValue_decimal length, rfl⟩

/-- Every head that can be printed is a response, which carries what was put into it. -/
theorem headText_response {status length left : Nat} {contentType connection : List Byte}
    (hlo : 100 ≤ status) (hhi : status < 1000) (htype : HeaderValue contentType)
    (hconn : HeaderValue connection) :
    ResponseText (left + 3) (headText status contentType length connection)
      (headRead status contentType length connection) := by
  have hcrlf : utf8 "\r\n" = [CR, LF] := by decide
  have hend : HeadersText false left (utf8 "\r\n") [] := by
    rw [hcrlf]
    exact .nil (.inl rfl)
  have hheaders : HeadersText true (left + 3) _ (headRead status contentType length connection).headers :=
    headersText_cons (by decide) (by decide) htype
      (headersText_cons (by decide) (by decide) (headerValue_decimal length)
        (headersText_cons (by decide) (by decide) hconn hend))
  have hline : StatusLine (utf8 "HTTP/1." ++ BitVec.ofNat 8 (0x30 + 1) :: ([SP] ++
      BitVec.ofNat 8 (0x30 + status / 100) :: BitVec.ofNat 8 (0x30 + status / 10 % 10) ::
        BitVec.ofNat 8 (0x30 + status % 10) :: ([SP] ++ getReasonPhrase status ++ [CR, LF])))
      1 status (getReasonPhrase status) := by
    refine ⟨by decide, [SP], status / 100, status / 10 % 10, status % 10, [SP], [CR, LF], ?_, ?_, ?_, ?_,
      ?_, message_reasonPhrase status, .inl rfl, rfl⟩
    · exact ⟨List.cons_ne_nil _ _, fun c hc => List.mem_singleton.1 hc⟩
    all_goals omega
  refine ⟨_, _, 1, status, hline, rfl, rfl, hheaders, ?_⟩
  have hversion : utf8 "HTTP/1.1 " = utf8 "HTTP/1." ++ [BitVec.ofNat 8 (0x30 + 1), SP] := by decide
  have htypeName : utf8 "Content-Type: " = utf8 "Content-Type" ++ utf8 ": " := by decide
  have hlengthName : utf8 "Content-Length: " = utf8 "Content-Length" ++ utf8 ": " := by decide
  have hconnName : utf8 "Connection: " = utf8 "Connection" ++ utf8 ": " := by decide
  have hspace : utf8 " " = [SP] := by decide
  rw [headText, decimal_status hlo hhi, hversion, htypeName, hlengthName, hconnName, hspace, hcrlf]
  simp only [List.append_assoc, List.cons_append, List.nil_append]

/-- A printed head is read back, whatever follows it. -/
theorem head_read_back (b : Build) {status length left : Nat} {contentType connection : List Byte}
    (hlo : 100 ≤ status) (hhi : status < 1000) (htype : HeaderValue contentType)
    (hconn : HeaderValue connection) (before body : List Byte)
    (hlen : (headText status contentType length connection).length < 2 ^ 31) :
    ∃ out, Announces status contentType length connection out ∧
      phrParseResponse b (left + 3) before (headText status contentType length connection ++ body)
        0 = some ⟨(headText status contentType length connection).length, out⟩ :=
  ⟨_, headRead_announces .., (parseResponse_reads b (left + 3)).call_text before body hlen
    (headText_response hlo hhi htype hconn)⟩

/-- The head of an error page, in front of nothing. -/
theorem head_read_back_notFound : ∃ out,
    Announces 404 contentTxt 0 (utf8 "close") out ∧
      phrParseResponse .sse42 3 [] (headText 404 contentTxt 0 (utf8 "close") ++ []) 0 =
        some ⟨(headText 404 contentTxt 0 (utf8 "close")).length, out⟩ :=
  head_read_back .sse42 (by decide) (by decide) (by decide) (by decide) [] [] (by decide +kernel)

/-! ## The answer to a request for a file -/

theorem contentTypeByName_value (name : List Byte) : HeaderValue (contentTypeByName name) := by
  have htable : ∀ entry ∈ contentTypeTable, HeaderValue entry.2 := by decide +kernel
  have htxt : HeaderValue contentTxt := by decide +kernel
  unfold contentTypeByName
  simp only
  split
  · split
    · split
      · rename_i entry hfound
        exact htable entry (List.mem_of_find?_eq_some hfound)
      · exact htxt
    · exact htxt
  · exact htxt

/-- A file is answered with its content type. -/
theorem replyTo_file {h : Handling} {req : HttpRequest} {res : HttpResponse}
    (hsafe : isSafePath req.path = true) (hfile : 0 < fileOf h req) :
    ∃ name, requestedFile req = some name ∧ (replyTo req (fileOf h req) res).statusCode = 200 ∧
      (replyTo req (fileOf h req) res).contentType = some (contentTypeByName name) := by
  have hopen : ¬ fileOf h req < 0 := by omega
  unfold replyTo
  cases hroute : getRouterFunction req.path req.method with
  | mainHome =>
    have hname : requestedFile req = some indexPath := by
      unfold requestedFile
      rw [hroute]
    simp only [if_neg hopen]
    exact ⟨indexPath, hname, rfl, rfl⟩
  | mainStatic =>
    have hname : requestedFile req = some (staticName req.path) := by
      unfold requestedFile
      simp only [hroute, cString_eq (staticName_noNul hsafe)]
    have hnamed : ¬ ((staticName req.path).length = 0 ∨ maxPathLen ≤ (staticName req.path).length) := by
      intro hbad
      unfold fileOf at hfile
      rw [hname] at hfile
      simp only [getFd_unnamed hbad] at hfile
      exact absurd hfile (by decide)
    simp only [if_neg hnamed, if_neg hopen]
    exact ⟨staticName req.path, hname, rfl, rfl⟩
  | mainNotFound =>
    have hnone : requestedFile req = none := by
      unfold requestedFile
      rw [hroute]
    unfold fileOf at hfile
    rw [hnone] at hfile
    dsimp only at hfile
    exact absurd hfile (by decide)

/-- The bytes of an answer are a part of its head, or begin with all of it. -/
theorem answerBytes_head {content : Nat → Byte} {size offset : Nat} {head bytes : List Byte} {fd : Int}
    (hfd : 0 < fd) (envs : List Env)
    (h : answerBytes content size head fd (.waiting offset) envs = some bytes) :
    head <+: bytes ∨ bytes <+: head := by
  have hne : ¬ fd = 0 := by omega
  cases envs with
  | nil =>
    cases h
    exact .inr List.nil_prefix
  | cons env envs =>
    simp only [answerBytes, answerStep, if_neg hne, if_pos hfd] at h
    split at h
    · cases h
    · rename_i a' now hstep
      obtain ⟨later, hlater, rfl⟩ := Option.map_eq_some_iff.1 h
      split at hstep
      · cases hstep
        exact .inl (by rw [List.append_assoc]; exact List.prefix_append _ _)
      · cases hstep
        -- nothing follows a send that has failed
        cases envs with
        | nil =>
          cases hlater
          rw [List.append_nil]
          exact .inr (List.take_prefix _ _)
        | cons env' envs => cases hlater

def connectionValue (req : HttpRequest) : List Byte :=
  if req.minorVersion ≠ 0 then utf8 "keep-alive" else utf8 "close"

theorem connectionValue_value (req : HttpRequest) : HeaderValue (connectionValue req) := by
  unfold connectionValue
  split <;> decide +kernel

theorem fileHead_length_lt (name : List Byte) (req : HttpRequest) {size : Nat}
    (hlarge : size < 2 ^ 63) :
    (headText 200 (contentTypeByName name) size (connectionValue req)).length < 256 := by
  have hprintable : HttpResponse.Printable
      { HttpContext.zero.httpRes with statusCode := 200, contentType := some (contentTypeByName name) } :=
    ⟨show (200 : Int).natAbs < 1000 by decide, contentTypeByName_length name⟩
  have hhead := @headOf_length_lt { Connection.blank with isKeepAlive := decide (req.minorVersion ≠ 0) }
    _ size hprintable hlarge
  simp only [headOf, decide_eq_true_eq, Option.getD_some] at hhead
  exact hhead

/-- Whatever the socket takes of the answer to a request for a file, the client reads an
incomplete response, or one with status 200, the content type of the file and its size. -/
theorem client_reads_answer {h : Handling} {ctx size : Nat} (a : AtRequest h ctx)
    (hcheck : httpProtcolCheck (some (h.ctxs ctx)) = 0)
    (hfile : 0 < fileOf h (h.ctxs ctx).httpReq) (hlarge : size < 2 ^ 63) {content : Nat → Byte}
    {envs : List Env} (hsizes : ∀ env ∈ envs, env.fileSize = size) {bytes : List Byte}
    (hbytes : (respond h envs).map (emitted content) = some bytes) (b : Build) (left : Nat) (before : List Byte) :
    ∃ name out, requestedFile (h.ctxs ctx).httpReq = some name ∧
      (phrParseResponse b (left + 3) before bytes 0 = some ⟨-2, out⟩ ∨
        Announces 200 (contentTypeByName name) size (connectionValue (h.ctxs ctx).httpReq) out ∧
        phrParseResponse b (left + 3) before bytes 0 =
          some ⟨(headText 200 (contentTypeByName name) size
            (connectionValue (h.ctxs ctx).httpReq)).length, out⟩) := by
  obtain ⟨g, -, hanswered, hrespond⟩ := a.respond hcheck hlarge
  have hsign : (fileOf h (h.ctxs ctx).httpReq).sign = 1 := Int.sign_eq_one_of_pos hfile
  obtain ⟨name, hname, hstatus, htype⟩ := @replyTo_file h (h.ctxs ctx).httpReq (h.ctxs ctx).httpRes
    (httpProtcolCheck_eq_zero.1 hcheck).1.path hfile
  have hhead : headOf g.conn (g.ctxs ctx).httpRes size = headText 200 (contentTypeByName name) size
      (connectionValue (h.ctxs ctx).httpReq) := by
    rw [headOf, hanswered.own, hanswered.conn]
    simp only [hstatus, htype, Option.getD_some, connectionValue, decide_eq_true_eq]
  have hans := hrespond content envs hsizes
  rw [hbytes, hsign, if_pos (by decide), hhead] at hans
  have hreads := parseResponse_reads b (left + 3)
  have htext : ResponseText (left + 3) (headText 200 (contentTypeByName name) size
      (connectionValue (h.ctxs ctx).httpReq)) _ :=
    headText_response (by decide) (by decide) (contentTypeByName_value name)
      (connectionValue_value _)
  have hlen := (fileHead_length_lt name (h.ctxs ctx).httpReq hlarge).trans (by decide : 256 < 2 ^ 31)
  rcases answerBytes_head (by decide) envs hans.symm with hwhole | hpart
  · obtain ⟨body, rfl⟩ := hwhole
    exact ⟨name, _, hname, .inr ⟨headRead_announces .., hreads.call_text before body hlen htext⟩⟩
  · by_cases heq : bytes = headText 200 (contentTypeByName name) size
        (connectionValue (h.ctxs ctx).httpReq)
    · have hfound := hreads.call_text before [] hlen htext
      rw [List.append_nil, ← heq] at hfound
      refine ⟨name, _, hname, .inr ⟨headRead_announces .., hfound.trans ?_⟩⟩
      rw [heq]
    · obtain ⟨u, hu⟩ := hreads.call_part before htext hpart heq
      exact ⟨name, u, hname, .inl hu⟩

theorem client_reads_answer_home : ∃ bytes,
    (respond (askingHome HttpContext.zero.httpRes) [Env.opens]).map (emitted fun _ => 0) =
      some bytes ∧
    ∃ name out, requestedFile homeAsked = some name ∧
      (phrParseResponse .portable 3 [] bytes 0 = some ⟨-2, out⟩ ∨
        Announces 200 (contentTypeByName name) 10 (connectionValue homeAsked) out ∧
        phrParseResponse .portable 3 [] bytes 0 =
          some ⟨(headText 200 (contentTypeByName name) 10 (connectionValue homeAsked)).length,
            out⟩) := by
  have hsent : ((respond (askingHome HttpContext.zero.httpRes) [Env.opens]).map
      (emitted fun _ => 0)).isSome = true := by decide +kernel
  obtain ⟨bytes, hbytes⟩ := Option.isSome_iff_exists.1 hsent
  refine ⟨bytes, hbytes, ?_⟩
  exact client_reads_answer (askingHome_atRequest _) (by decide +kernel) (by decide +kernel)
    (by decide) (fun env henv => by rw [List.mem_singleton.1 henv]; rfl) hbytes .portable 0 []

end PingServer.Pico
