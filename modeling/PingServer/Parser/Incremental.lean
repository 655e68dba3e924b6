import Mathlib.Data.List.Chain
import PingServer.Parser.Response

/-!
# Messages that arrive in pieces

`is_complete` looks for two line ends in a row, from three bytes before the end
of what was there at the last call. In a message no other bytes look like these,
and each `\r` is followed by `\n`, so that the check delays no message and
refuses none. So reading a message in pieces, each call with the length of the
one before it, finds the same as reading it at once.
-/

namespace PingServer.Pico

open ByteMem Scanner

variable {σ : Type}

/-! ## Line ends in a message -/

/-- Only `\n` comes behind a `\r`. -/
def CrLf (bs : List Byte) : Prop := bs.IsChain fun c d => c = CR → d = LF

theorem CrLf.part {bs cs : List Byte} (h : CrLf bs) (hpre : cs <+: bs) : CrLf cs :=
  List.IsChain.prefix h hpre

/-- And no `\r` is left open at the end. -/
structure Lines (bs : List Byte) : Prop where
  crlf : CrLf bs
  last : ∀ c ∈ bs.getLast?, c ≠ CR

theorem Lines.append {bs cs : List Byte} (hb : Lines bs) (hc : Lines cs) : Lines (bs ++ cs) := by
  constructor
  · exact List.isChain_append.2 ⟨hb.crlf, hc.crlf, fun c hc _ _ heq => absurd heq (hb.last c hc)⟩
  · intro c hlast
    rw [List.getLast?_append, Option.mem_def, Option.or_eq_some_iff] at hlast
    rcases hlast with hlast | ⟨-, hlast⟩
    · exact hc.last c hlast
    · exact hb.last c hlast

theorem Lines.of_no_cr {bs : List Byte} (h : ∀ c ∈ bs, c ≠ CR) : Lines bs := by
  constructor
  · induction bs with
    | nil => exact .nil
    | cons c bs ih =>
      refine List.isChain_cons.2 ⟨fun _ _ heq => absurd heq (h c List.mem_cons_self), ?_⟩
      exact ih fun d hd => h d (List.mem_cons_of_mem c hd)
  · exact fun c hc => h c (List.mem_of_mem_getLast? hc)

theorem LineEnd.lines {nl : List Byte} (h : LineEnd nl) : Lines nl := by
  rcases h with rfl | rfl
  · exact ⟨List.isChain_pair.2 fun _ => rfl, fun c hc => by cases hc; decide⟩
  · exact .of_no_cr (by decide)

theorem Lines.of_text {bs : List Byte} (h : ∀ c ∈ bs, isCtl c = false) : Lines bs := by
  refine .of_no_cr fun c hc => ?_
  rintro rfl
  cases h CR hc

theorem HeaderText.lines {first : Bool} {line : List Byte} {header : PhrHeader}
    (h : HeaderText first line header) : Lines line := by
  cases h with
  | field _ htok hlead hvalue _ htrail hnl =>
    refine (Lines.of_no_cr fun c hc => (token_not_newline (htok c hc)).1).append ?_
    rw [← List.singleton_append]
    refine Lines.append (.of_no_cr (by decide)) ?_
    refine (Lines.of_text fun c hc => blank_not_ctl (hlead c hc)).append ?_
    exact (Lines.of_text (hvalue.blanks_text htrail)).append hnl.lines
  | folded hvalue htrail _ hnl => exact (Lines.of_text (hvalue.blanks_text htrail)).append hnl.lines

theorem pathChar_not_cr {c : Byte} : isPathChar c = true → c ≠ CR := by
  revert c
  decide +kernel

theorem digit_not_cr {d : Nat} (h : d < 10) : BitVec.ofNat 8 (0x30 + d) ≠ CR := by
  intro heq
  have hnat := congrArg BitVec.toNat heq
  rw [BitVec.toNat_ofNat] at hnat
  have hcr : CR.toNat = 13 := rfl
  omega

theorem Spaces.lines {sp : List Byte} (h : Spaces sp) : Lines sp :=
  .of_no_cr fun c hc => by rw [h.2 c hc]; decide

theorem RequestLine.lines {line method path : List Byte} {minor : Nat}
    (h : RequestLine line method path minor) : Lines line := by
  obtain ⟨⟨-, hmtok⟩, ⟨-, hpchars⟩, hminor, sp₁, sp₂, nl, hsp₁, hsp₂, hnl, rfl⟩ := h
  rw [← List.singleton_append]
  refine Lines.append ?_ (Lines.append (.of_no_cr fun c hc => ?_) hnl.lines)
  · refine Lines.append (Lines.append (Lines.append (Lines.append ?_ hsp₁.lines) ?_) hsp₂.lines)
      (.of_no_cr (by decide))
    · exact .of_no_cr fun c hc => (token_not_newline (hmtok c hc)).1
    · exact .of_no_cr fun c hc => pathChar_not_cr (hpchars c hc).1
  · rw [List.mem_singleton.1 hc]
    exact digit_not_cr hminor

theorem StatusLine.lines {line msg : List Byte} {minor status : Nat}
    (h : StatusLine line minor status msg) : Lines line := by
  obtain ⟨hminor, sp, d₁, d₂, d₃, gap, nl, hsp, hd₁, hd₂, hd₃, -, hmsg, hnl, rfl⟩ := h
  have hcode : Lines [BitVec.ofNat 8 (0x30 + d₁), BitVec.ofNat 8 (0x30 + d₂),
      BitVec.ofNat 8 (0x30 + d₃)] := by
    refine .of_no_cr fun c hc => ?_
    simp only [List.mem_cons, List.not_mem_nil, or_false] at hc
    rcases hc with rfl | rfl | rfl
    · exact digit_not_cr hd₁
    · exact digit_not_cr hd₂
    · exact digit_not_cr hd₃
  have hversion : Lines (utf8 "HTTP/1." ++ [BitVec.ofNat 8 (0x30 + minor)]) := by
    refine Lines.append (.of_no_cr (by decide)) (.of_no_cr fun c hc => ?_)
    rw [List.mem_singleton.1 hc]
    exact digit_not_cr hminor
  have hall := ((hversion.append hsp.lines).append hcode).append
    ((Lines.of_text hmsg.ctl).append hnl.lines)
  simpa only [List.append_assoc, List.cons_append, List.nil_append] using hall

theorem HeadersText.lines {first : Bool} {left : Nat} {text : List Byte} {hs : List PhrHeader}
    (h : HeadersText first left text hs) : Lines text := by
  induction h with
  | nil hnl => exact hnl.lines
  | cons hline _ ih => exact hline.lines.append ih

theorem RequestText.lines {maxHeaders : Nat} {text : List Byte} {out : RequestOut}
    (h : RequestText maxHeaders text out) : Lines text := by
  obtain ⟨lead, line, headers, minor, hlead, hline, -, hheaders, rfl⟩ := h
  refine Lines.append (Lines.append ?_ hline.lines) hheaders.lines
  rcases hlead with rfl | hlead
  · exact .of_no_cr nofun
  · exact hlead.lines

theorem ResponseText.lines {maxHeaders : Nat} {text : List Byte} {out : ResponseOut}
    (h : ResponseText maxHeaders text out) : Lines text := by
  obtain ⟨line, headers, minor, status, hline, -, -, hheaders, rfl⟩ := h
  exact hline.lines.append hheaders.lines

/-- Two line ends in a row: the first is over with its `\n`. -/
def Ended (bs : List Byte) : Prop := ∃ front nl, LineEnd nl ∧ bs = front ++ LF :: nl

theorem Ended.append {bs : List Byte} (h : Ended bs) (front : List Byte) : Ended (front ++ bs) := by
  obtain ⟨more, nl, hnl, rfl⟩ := h
  exact ⟨front ++ more, nl, hnl, (List.append_assoc ..).symm⟩

theorem LineEnd.ended {nl nl' : List Byte} (h : LineEnd nl) (h' : LineEnd nl') : Ended (nl ++ nl') := by
  rcases h with rfl | rfl
  · exact ⟨[CR], nl', h', rfl⟩
  · exact ⟨[], nl', h', rfl⟩

/-- Each header ends its line, and so does what stands in front of the headers. -/
theorem HeadersText.ended {first : Bool} {left : Nat} {text : List Byte} {hs : List PhrHeader}
    (h : HeadersText first left text hs) :
    ∀ {nl : List Byte}, LineEnd nl → Ended (nl ++ text) := by
  induction h with
  | nil hnl => exact fun hnl' => hnl'.ended hnl
  | @cons first left line text header hs hline _ ih =>
    intro nl _
    obtain ⟨front, nl', hnl', rfl⟩ : ∃ front nl', LineEnd nl' ∧ line = front ++ nl' := by
      cases hline with
      | field _ _ _ _ _ _ hnl =>
        rename_i name lead value trail nl' _ _ _ _ _ _
        exact ⟨name ++ ch ':' :: (lead ++ (value ++ trail)), nl', hnl, by simp⟩
      | folded _ _ _ hnl => exact ⟨_, _, hnl, rfl⟩
    have hall := (ih hnl').append (nl ++ front)
    simpa only [List.append_assoc] using hall

theorem RequestText.ended {maxHeaders : Nat} {text : List Byte} {out : RequestOut}
    (h : RequestText maxHeaders text out) : Ended text := by
  obtain ⟨lead, line, headers, minor, -, hline, -, hheaders, rfl⟩ := h
  obtain ⟨-, -, -, sp₁, sp₂, nl, -, -, hnl, rfl⟩ := hline
  have hall := (hheaders.ended hnl).append (lead ++ (out.method ++ sp₁ ++ out.path ++ sp₂ ++
    utf8 "HTTP/1." ++ [BitVec.ofNat 8 (0x30 + minor)]))
  simpa only [List.append_assoc, List.cons_append, List.nil_append] using hall

theorem ResponseText.ended {maxHeaders : Nat} {text : List Byte} {out : ResponseOut}
    (h : ResponseText maxHeaders text out) : Ended text := by
  obtain ⟨line, headers, minor, status, hline, -, -, hheaders, rfl⟩ := h
  obtain ⟨-, sp, d₁, d₂, d₃, gap, nl, -, -, -, -, -, -, hnl, rfl⟩ := hline
  have hall := (hheaders.ended hnl).append (utf8 "HTTP/1." ++ BitVec.ofNat 8 (0x30 + minor) ::
    (sp ++ [BitVec.ofNat 8 (0x30 + d₁), BitVec.ofNat 8 (0x30 + d₂), BitVec.ofNat 8 (0x30 + d₃)] ++
      (gap ++ out.msg)))
  simpa only [List.append_assoc, List.cons_append, List.nil_append] using hall

/-! ## The check for a complete message -/

/-- The check refuses nothing in which `\r` is only open at the end. -/
theorem isCompleteLoop_not_fail (s t : σ) (bs : List Byte) :
    ∀ retCnt, CrLf bs → isCompleteLoop retCnt s bs ≠ .fail t := by
  induction bs using List.twoStepInduction with
  | nil =>
    rintro retCnt - ⟨⟩
  | singleton c =>
    intro retCnt _
    simp only [isCompleteLoop]
    split_ifs <;> (intro h; cases h)
  | cons_cons c d bs ih ih' =>
    intro retCnt hcrlf
    obtain ⟨hcd, hrest⟩ := List.isChain_cons_cons.1 hcrlf
    rw [isCompleteLoop]
    split
    · rename_i hcr
      have hskip : CrLf bs := List.IsChain.tail hrest
      simp only [hcd hcr, ne_eq, not_true_eq_false, ↓reduceIte]
      split
      · intro h
        cases h
      · exact ih _ hskip
    · split
      · split
        · intro h
          cases h
        · exact ih' d _ hrest
      · exact ih' d _ hrest

theorem isCompleteLoop_lf (retCnt : Nat) (s : σ) (buf : List Byte) :
    isCompleteLoop retCnt s (LF :: buf) =
      if retCnt + 1 = 2 then .done () s buf else isCompleteLoop (retCnt + 1) s buf := by
  have hne : ¬ LF = CR := by decide
  rw [isCompleteLoop.eq_def]
  simp only [if_neg hne, ↓reduceIte]

theorem isCompleteLoop_crlf (retCnt : Nat) (s : σ) (buf : List Byte) :
    isCompleteLoop retCnt s (CR :: LF :: buf) =
      if retCnt + 1 = 2 then .done () s buf else isCompleteLoop (retCnt + 1) s buf := rfl

theorem isCompleteLoop_other {c : Byte} (hcr : c ≠ CR) (hlf : c ≠ LF) (retCnt : Nat) (s : σ)
    (buf : List Byte) : isCompleteLoop retCnt s (c :: buf) = isCompleteLoop 0 s buf := by
  rw [isCompleteLoop.eq_def]
  simp only [if_neg hcr, if_neg hlf]

/-- Behind the first of two line ends. -/
theorem isCompleteLoop_second (s : σ) {nl : List Byte} (hnl : LineEnd nl) (rest : List Byte)
    {retCnt : Nat} (h : retCnt < 2) : ∃ left,
      (if retCnt + 1 = 2 then .done () s (nl ++ rest) else isCompleteLoop (retCnt + 1) s (nl ++ rest) :
        Outcome Byte σ Unit) = .done () s left := by
  split
  · exact ⟨_, rfl⟩
  · obtain rfl : retCnt = 0 := by omega
    rcases hnl with rfl | rfl
    · exact ⟨rest, isCompleteLoop_crlf 1 s rest⟩
    · exact ⟨rest, isCompleteLoop_lf 1 s rest⟩

/-- Two line ends in a row are found whatever comes before them. -/
theorem isCompleteLoop_ended (s : σ) {nl : List Byte} (hnl : LineEnd nl) (rest : List Byte)
    (front : List Byte) : ∀ retCnt < 2, CrLf (front ++ LF :: nl) →
      ∃ left, isCompleteLoop retCnt s (front ++ LF :: nl ++ rest) = .done () s left := by
  have hend : ∀ retCnt < 2, ∃ left,
      isCompleteLoop retCnt s (LF :: (nl ++ rest)) = .done () s left := by
    intro retCnt hcnt
    rw [isCompleteLoop_lf]
    exact isCompleteLoop_second s hnl rest hcnt
  induction front using List.twoStepInduction with
  | nil => exact fun retCnt hcnt _ => hend retCnt hcnt
  | singleton c =>
    intro retCnt hcnt _
    change ∃ left, isCompleteLoop retCnt s (c :: LF :: (nl ++ rest)) = .done () s left
    by_cases hlf : c = LF
    · subst hlf
      rw [isCompleteLoop_lf]
      split
      · exact ⟨_, rfl⟩
      · exact hend _ (by omega)
    · by_cases hcr : c = CR
      · subst hcr
        rw [isCompleteLoop_crlf]
        exact isCompleteLoop_second s hnl rest hcnt
      · rw [isCompleteLoop_other hcr hlf]
        exact hend 0 (by decide)
  | cons_cons c d front ih ih' =>
    intro retCnt hcnt hcrlf
    obtain ⟨hcd, hrest⟩ := List.isChain_cons_cons.1 hcrlf
    change ∃ left, isCompleteLoop retCnt s (c :: (d :: front ++ LF :: nl ++ rest)) = .done () s left
    by_cases hlf : c = LF
    · subst hlf
      rw [isCompleteLoop_lf]
      split
      · exact ⟨_, rfl⟩
      · exact ih' d _ (by omega) hrest
    · by_cases hcr : c = CR
      · have hd := hcd hcr
        subst hcr hd
        change ∃ left, isCompleteLoop retCnt s (CR :: LF :: (front ++ LF :: nl ++ rest)) = .done () s left
        rw [isCompleteLoop_crlf]
        split
        · exact ⟨_, rfl⟩
        · exact ih _ (by omega) (List.IsChain.tail hrest)
      · rw [isCompleteLoop_other hcr hlf]
        exact ih' d 0 (by decide) hrest

/-! ## Resuming -/

theorem guarded_of_done {before buf start left : List Byte} {lastLen : Nat} {p : Scan Byte σ Unit}
    {s : σ} (hstart : resumeAt before buf lastLen = some start)
    (hloop : isCompleteLoop 0 s start = .done () s left) : guarded before lastLen p s buf = p s buf := by
  have hcomplete : isComplete before lastLen s buf = .done () s left := by
    rw [isComplete, hstart]
    exact hloop
  simp only [guarded, hcomplete, ite_self]

/-- The check has nothing against a message that is not over. -/
theorem guarded_of_more {before buf start : List Byte} {lastLen : Nat} {p : Scan Byte σ Unit}
    {s u : σ} (hstart : resumeAt before buf lastLen = some start) (hcrlf : CrLf start)
    (hp : p s buf = .more u) : ∃ v, guarded before lastLen p s buf = .more v := by
  simp only [guarded, isComplete, hstart, hp]
  split
  · exact ⟨u, rfl⟩
  · cases hloop : isCompleteLoop 0 s start with
    | done _ _ _ => exact ⟨u, rfl⟩
    | more v => exact ⟨v, rfl⟩
    | fail v => exact absurd hloop (isCompleteLoop_not_fail s v start 0 hcrlf)
    | overrun => exact absurd hloop (isCompleteLoop_inside s start 0)

/-- A message that is not over with the bytes of the last call. -/
theorem resumeAt_inside (before rest : List Byte) {text : List Byte} {lastLen : Nat} (hlen : lastLen < text.length)
    (hended : Ended text) (hlines : Lines text) : ∃ front nl, LineEnd nl ∧
      resumeAt before (text ++ rest) lastLen = some (front ++ LF :: nl ++ rest) ∧
        CrLf (front ++ LF :: nl) := by
  obtain ⟨front, nl, hnl, rfl⟩ := hended
  have hfront : lastLen - 3 ≤ front.length := by
    rcases hnl with rfl | rfl <;> simp only [List.length_append, List.length_cons,
      List.length_nil] at hlen <;> omega
  refine ⟨front.drop (lastLen - 3), nl, hnl, ?_, hlines.crlf.suffix ?_⟩
  · have hdrop : (front ++ LF :: nl ++ rest).drop (lastLen - 3) =
        front.drop (lastLen - 3) ++ LF :: nl ++ rest := by
      rw [List.append_assoc, List.drop_append_of_le_length hfront, List.append_assoc]
    unfold resumeAt
    split
    · rename_i hsmall
      obtain hzero : lastLen - 3 = 0 := by omega
      rw [hzero, List.drop_zero]
    · rw [if_pos (by simp only [List.length_append]; omega), hdrop]
  · exact (List.suffix_append_inj_of_length_eq rfl).2 ⟨List.drop_suffix _ _, rfl⟩

/-! ## Any message -/

/-- Messages that end with two line ends in a row. -/
structure Delimited {σ : Type} (T : List Byte → σ → Prop) : Prop where
  lines : ∀ {text out}, T text out → Lines text
  ended : ∀ {text out}, T text out → Ended text

/-- The calls for a message that arrives in pieces: each is told what the one before it was
given, until one has a result. -/
def feed (p : Scan Byte σ Unit) (start : σ) (before : List Byte) :
    (got : List Byte) → List (List Byte) → Option (Result σ)
  | _, [] => none
  | got, piece :: pieces =>
    match call p start before (got ++ piece) got.length with
    | none => none
    | some r => if r.ret = -2 then feed p start before (got ++ piece) pieces else some r

section

variable {p : Scan Byte σ Unit} {start out : σ} {T : List Byte → σ → Prop}
  {before buf got text rest : List Byte} {r : Result σ}

/-- What is found behind the check is there without it. -/
theorem found_of_resumed {lastLen : Nat} (h : call p start before buf lastLen = some r)
    (hret : 0 ≤ r.ret) : call p start before buf 0 = some r := by
  rw [call_zero, ← h, call]
  simp only [call, guarded] at h ⊢
  split
  · rfl
  · rename_i hne
    rw [if_neg hne] at h
    cases hcomplete : isComplete before lastLen start buf with
    | done _ _ _ => rfl
    | more v | fail v =>
      rw [hcomplete] at h
      cases h
      cases hret
    | overrun =>
      rw [hcomplete] at h
      cases h

/-- No message has been found in `got`. -/
def NotFound (p : Scan Byte σ Unit) (start : σ) (before got : List Byte) : Prop :=
  ∀ q, call p start before got 0 = some q → q.ret < 0

theorem notFound_prefix (hp : Reads p start T) (hlen : (text ++ rest).length < 2 ^ 31)
    (h : T text out) (hgot : got <+: text ++ rest) (hnot : NotFound p start before got) :
    got <+: text ∧ got ≠ text := by
  have hpre : ¬ text <+: got := by
    rintro ⟨more, rfl⟩
    have hshort : text.length < 2 ^ 31 := by
      rw [List.length_append] at hlen
      omega
    have hfound := hp.call_text before more hshort h
    exact absurd (hnot _ hfound) (not_lt.2 (Int.natCast_nonneg _))
  refine ⟨(List.prefix_or_prefix_of_prefix hgot (List.prefix_append text rest)).resolve_right hpre, ?_⟩
  rintro rfl
  exact hpre List.prefix_rfl

/-- With the length of a call that has found nothing, the next call finds what it would find
from the start. -/
theorem resumed_found (hp : Reads p start T) (hT : Delimited T) (hlen : buf.length < 2 ^ 31)
    (hgot : got <+: buf) (hnot : NotFound p start before got) :
    call p start before buf got.length = some r ∧ 0 ≤ r.ret ↔
      call p start before buf 0 = some r ∧ 0 ≤ r.ret := by
  constructor
  · rintro ⟨h, hret⟩
    exact ⟨found_of_resumed h hret, hret⟩
  · rintro ⟨h, hret⟩
    refine ⟨?_, hret⟩
    obtain ⟨text, rest, out, rfl, htext, rfl⟩ := (hp.call_iff hlen).1 ⟨h, hret⟩
    obtain ⟨hpre, hne⟩ := notFound_prefix hp hlen htext hgot hnot
    have hshort : got.length < text.length :=
      lt_of_le_of_ne hpre.length_le fun heq => hne (hpre.eq_of_length heq)
    obtain ⟨front, nl, hnl, hstart, hcrlf⟩ :=
      resumeAt_inside before rest hshort (hT.ended htext) (hT.lines htext)
    obtain ⟨left, hloop⟩ := isCompleteLoop_ended start hnl rest front 0 (by decide) hcrlf
    rw [← h, call, guarded_of_done hstart hloop, call_zero]

/-- A part of a message asks for more, whatever the last call has seen of it. -/
theorem resumed_part (hp : Reads p start T) (hT : Delimited T) (before : List Byte) (h : T text out)
    (hgot : got <+: buf) (hbuf : buf <+: text) (hne : buf ≠ text) :
    ∃ u, call p start before buf got.length = some ⟨-2, u⟩ := by
  obtain ⟨u, hmore⟩ := hp.part_more (hp.whole h) hbuf hne
  have hstart : ∃ first, resumeAt before buf got.length = some first ∧ first <:+ buf := by
    unfold resumeAt
    split
    · exact ⟨buf, rfl, List.suffix_rfl⟩
    · have hle := hgot.length_le
      rw [if_pos (by omega)]
      exact ⟨_, rfl, List.drop_suffix _ _⟩
  obtain ⟨first, hstart, hsuffix⟩ := hstart
  have hcrlf : CrLf first := List.IsChain.suffix ((hT.lines h).crlf.part hbuf) hsuffix
  obtain ⟨v, hv⟩ := guarded_of_more hstart hcrlf hmore
  exact ⟨v, by rw [call, hv]; rfl⟩

theorem feed_found (hp : Reads p start T) (hT : Delimited T) (pieces : List (List Byte)) :
    ∀ {got : List Byte}, (got ++ pieces.flatten).length < 2 ^ 31 → NotFound p start before got →
      (feed p start before got pieces = some r ∧ 0 ≤ r.ret ↔
        call p start before (got ++ pieces.flatten) 0 = some r ∧ 0 ≤ r.ret) := by
  induction pieces with
  | nil =>
    intro got _ hnot
    rw [List.flatten_nil, List.append_nil]
    refine iff_of_false nofun fun ⟨h, hret⟩ => absurd hret (not_le.2 (hnot r h))
  | cons piece pieces ih =>
    intro got hlen hnot
    rw [List.flatten_cons, ← List.append_assoc] at hlen ⊢
    have hgot : got <+: got ++ piece := List.prefix_append got piece
    have hlen' : (got ++ piece).length < 2 ^ 31 := by
      rw [List.length_append] at hlen
      omega
    have hsome : (call p start before (got ++ piece) got.length).isSome = true :=
      hp.call_isSome.2 (.inr (.inl (by rw [List.length_append]; omega)))
    obtain ⟨q, hq⟩ := Option.isSome_iff_exists.1 hsome
    rw [feed, hq]
    by_cases hret : 0 ≤ q.ret
    · -- the message is over with this piece
      have hplain := (resumed_found hp hT hlen' hgot hnot).1 ⟨hq, hret⟩
      have hstays := hp.call_stays hplain.1 (by omega) pieces.flatten
      simp only [if_neg (show ¬ q.ret = -2 by omega), hstays]
    · have hnot' : NotFound p start before (got ++ piece) := by
        intro q' hq'
        by_contra hpos
        have hsame := ((resumed_found hp hT hlen' hgot hnot).2 ⟨hq', not_lt.1 hpos⟩).1
        rw [hq, Option.some.injEq] at hsame
        exact hpos (hsame ▸ not_le.1 hret)
      simp only
      split
      · exact ih hlen hnot'
      · rename_i herror
        refine iff_of_false (fun ⟨hsame, hpos⟩ => hret (Option.some.inj hsame ▸ hpos)) fun hfound => ?_
        -- an error is no part of a message
        obtain ⟨text, rest, out, hwhole, htext, rfl⟩ := (hp.call_iff hlen).1 hfound
        rw [hwhole] at hlen
        obtain ⟨hpre, hne⟩ :=
          notFound_prefix hp hlen htext (hwhole ▸ List.prefix_append _ _) hnot'
        obtain ⟨u, hu⟩ := resumed_part hp hT before htext hgot hpre hne
        rw [hq, Option.some.injEq] at hu
        exact herror (congrArg Result.ret hu)

end

/-! ## Requests and responses -/

theorem requestText_delimited (maxHeaders : Nat) : Delimited (RequestText maxHeaders) :=
  ⟨RequestText.lines, RequestText.ended⟩

theorem responseText_delimited (maxHeaders : Nat) : Delimited (ResponseText maxHeaders) :=
  ⟨ResponseText.lines, ResponseText.ended⟩

/-- Reading in pieces is reading at once. Whatever the pieces in which a buffer fills, the
calls with the last length find the message that one call finds in all of it, and no other. -/
theorem pieces_read_as_whole (b : Build) (maxHeaders : Nat) (before : List Byte)
    (pieces : List (List Byte)) (hlen : pieces.flatten.length < 2 ^ 31) :
    (∀ r, feed (parseRequest b maxHeaders) .reset before [] pieces = some r ∧ 0 ≤ r.ret ↔
      phrParseRequest b maxHeaders before pieces.flatten 0 = some r ∧ 0 ≤ r.ret) ∧
    (∀ r, feed (parseResponse b maxHeaders) .reset before [] pieces = some r ∧ 0 ≤ r.ret ↔
      phrParseResponse b maxHeaders before pieces.flatten 0 = some r ∧ 0 ≤ r.ret) := by
  constructor
  · refine fun r => feed_found (parseRequest_reads b maxHeaders) (requestText_delimited maxHeaders)
      pieces hlen fun q hq => ?_
    obtain rfl : q = ⟨-2, .reset⟩ := (Option.some.inj hq).symm
    decide
  · refine fun r => feed_found (parseResponse_reads b maxHeaders) (responseText_delimited maxHeaders)
      pieces hlen fun q hq => ?_
    obtain rfl : q = ⟨-2, .reset⟩ := (Option.some.inj hq).symm
    decide

/-- Broken inside its last line end. -/
theorem pieces_read_as_whole_bareGet :
    feed (parseRequest .sse42 0) .reset [] [] [bareGet.take 17, bareGet.drop 17] =
      some bareGetRead ∧ 0 ≤ bareGetRead.ret :=
  ((pieces_read_as_whole .sse42 0 [] [bareGet.take 17, bareGet.drop 17] (by decide +kernel)).1 _).2
    (by decide +kernel)

end PingServer.Pico
