import PingServer.Parser.Calls

/-!
# The requests that are accepted

A grammar of requests, and that `phr_parse_request` reads just these: whatever
it accepts is made up of these parts, with the values that it stores, and every
text of the grammar is accepted, at most `max_headers` headers long.
-/

namespace PingServer.Pico

open ByteMem Scanner

variable {σ : Type}

/-! ## The grammar -/

def LineEnd (nl : List Byte) : Prop := nl = [CR, LF] ∨ nl = [LF]

def Blanks (bs : List Byte) : Prop := ∀ c ∈ bs, isBlank c = true

/-- At least one space. -/
def Spaces (bs : List Byte) : Prop := bs ≠ [] ∧ ∀ c ∈ bs, c = SP

/-- No control character, and no blank at the end. -/
structure Value (value : List Byte) : Prop where
  text : ∀ c ∈ value, isCtl c = false
  last : ∀ c ∈ value.getLast?, isBlank c = false

/-- One line of the headers; `first` when none came before it. -/
inductive HeaderText : (first : Bool) → List Byte → PhrHeader → Prop
  | field {first : Bool} {name lead value trail nl : List Byte} (named : name ≠ [])
      (tokens : ∀ c ∈ name, isToken c = true) (lead_blank : Blanks lead) (val : Value value)
      (head : ∀ c ∈ value.head?, isBlank c = false) (trail_blank : Blanks trail)
      (nl_end : LineEnd nl) :
      HeaderText first (name ++ ch ':' :: (lead ++ (value ++ trail ++ nl))) ⟨name, value⟩
  | folded {value trail nl : List Byte} (val : Value value) (trail_blank : Blanks trail)
      (head : ∃ c ∈ (value ++ trail).head?, isBlank c = true) (nl_end : LineEnd nl) :
      HeaderText false (value ++ trail ++ nl) ⟨[], value⟩

/-- At most `left` headers and the empty line behind them. -/
inductive HeadersText : (first : Bool) → (left : Nat) → List Byte → List PhrHeader → Prop
  | nil {first : Bool} {left : Nat} {nl : List Byte} (nl_end : LineEnd nl) :
      HeadersText first left nl []
  | cons {first : Bool} {left : Nat} {line text : List Byte} {h : PhrHeader}
      {hs : List PhrHeader} (header : HeaderText first line h)
      (headers : HeadersText false left text hs) :
      HeadersText first (left + 1) (line ++ text) (h :: hs)

structure RequestLine (line : List Byte) (method path : List Byte) (minor : Nat) : Prop where
  named : method ≠ [] ∧ ∀ c ∈ method, isToken c = true
  pathed : path ≠ [] ∧ ∀ c ∈ path, isPathChar c = true ∧ c ≠ SP
  digit : minor < 10
  parts : ∃ sp₁ sp₂ nl, Spaces sp₁ ∧ Spaces sp₂ ∧ LineEnd nl ∧
    line = method ++ sp₁ ++ path ++ sp₂ ++ utf8 "HTTP/1." ++ BitVec.ofNat 8 (0x30 + minor) :: nl

/-- A request: an empty line may come first. -/
structure RequestText (maxHeaders : Nat) (text : List Byte) (out : RequestOut) : Prop where
  parts : ∃ lead line headers minor, (lead = [] ∨ LineEnd lead) ∧
    RequestLine line out.method out.path minor ∧ out.minorVersion = minor ∧
    HeadersText true maxHeaders headers out.headers ∧ text = lead ++ line ++ headers

/-! ## Line ends -/

theorem LineEnd.ne_nil {nl : List Byte} (h : LineEnd nl) : nl ≠ [] := by
  rcases h with rfl | rfl <;> exact List.cons_ne_nil _ _

/-- A line end starts with a control character that is no blank. -/
theorem LineEnd.head {nl : List Byte} (h : LineEnd nl) :
    ∃ c tail, nl = c :: tail ∧ isCtl c = true ∧ isBlank c = false := by
  rcases h with rfl | rfl
  · exact ⟨CR, [LF], rfl, rfl, rfl⟩
  · exact ⟨LF, [], rfl, rfl, rfl⟩

theorem expectCharNoCheck_done {c : Byte} {s t : σ} {buf rest : List Byte} {u : Unit} :
    expectCharNoCheck c s buf = .done u t rest ↔ t = s ∧ buf = c :: rest := by
  cases buf with
  | nil => simp [expectCharNoCheck, bind_run, peek]
  | cons b buf =>
    by_cases h : b = c
    · subst h
      simp [expectCharNoCheck_self, eq_comm]
    · simp [expectCharNoCheck_ne h, h]

theorem lineEnd_true {s t : σ} {buf rest : List Byte} :
    lineEnd s buf = .done true t rest ↔ t = s ∧ ∃ nl, LineEnd nl ∧ buf = nl ++ rest := by
  constructor
  · intro h
    cases buf with
    | nil => cases h
    | cons c buf =>
      by_cases hcr : c = CR
      · subst hcr
        cases buf with
        | nil => cases h
        | cons d buf =>
          by_cases hlf : d = LF
          · subst hlf
            cases h
            exact ⟨rfl, [CR, LF], .inl rfl, rfl⟩
          · rw [lineEnd_cr_ne hlf] at h
            cases h
      · by_cases hlf : c = LF
        · subst hlf
          cases h
          exact ⟨rfl, [LF], .inr rfl, rfl⟩
        · rw [lineEnd_other hcr hlf] at h
          cases h
  · rintro ⟨rfl, nl, rfl | rfl, rfl⟩
    · exact lineEnd_crlf t rest
    · exact lineEnd_lf t rest

theorem lineEnd_false {s t : σ} {buf rest : List Byte} :
    lineEnd s buf = .done false t rest ↔
      t = s ∧ rest = buf ∧ ∃ c tail, buf = c :: tail ∧ c ≠ CR ∧ c ≠ LF := by
  constructor
  · intro h
    cases buf with
    | nil => cases h
    | cons c buf =>
      by_cases hcr : c = CR
      · subst hcr
        cases buf with
        | nil => cases h
        | cons d buf =>
          by_cases hlf : d = LF
          · subst hlf
            cases h
          · rw [lineEnd_cr_ne hlf] at h
            cases h
      · by_cases hlf : c = LF
        · subst hlf
          cases h
        · rw [lineEnd_other hcr hlf] at h
          cases h
          exact ⟨rfl, rfl, c, buf, rfl, hcr, hlf⟩
  · rintro ⟨rfl, rfl, c, tail, rfl, hcr, hlf⟩
    exact lineEnd_other hcr hlf

/-! ## Lines -/

theorem lineText_done {s t : σ} {text buf rest : List Byte} :
    lineText s buf = .done text t rest ↔ t = s ∧ ∃ nl, LineEnd nl ∧ buf = text ++ nl ++ rest ∧
      ∀ c ∈ text, isCtl c = false := by
  simp only [lineText, bind_done]
  constructor
  · rintro ⟨toks, u, mid, htoks, ended, u', mid', hend, hrest⟩
    obtain ⟨rfl, rfl, hctl, -⟩ := tokenUntil_done.1 htoks
    cases ended with
    | false => cases hrest
    | true =>
      cases hrest
      obtain ⟨rfl, nl, hnl, rfl⟩ := lineEnd_true.1 hend
      exact ⟨rfl, nl, hnl, (List.append_assoc ..).symm, fun c hc => (hctl c hc).1⟩
  · rintro ⟨rfl, nl, hnl, rfl, hctl⟩
    obtain ⟨c, tail, rfl, hc, -⟩ := hnl.head
    refine ⟨text, t, c :: tail ++ rest, tokenUntil_done.2 ⟨rfl, List.append_assoc .., ?_, ?_⟩,
      true, t, rest, lineEnd_true.2 ⟨rfl, c :: tail, hnl, rfl⟩, rfl⟩
    · exact fun c hc => ⟨hctl c hc, rfl⟩
    · exact ⟨c, tail ++ rest, rfl, hc⟩

theorem trimEnd_value (text : List Byte) :
    ∃ trail, text = trimEnd text ++ trail ∧ Blanks trail ∧
      ∀ c ∈ (trimEnd text).getLast?, isBlank c = false := by
  refine ⟨text.rtakeWhile isBlank, List.rdropWhile_append_rtakeWhile.symm,
    fun c hc => List.mem_rtakeWhile_imp hc, fun c hc => ?_⟩
  obtain ⟨hne, rfl⟩ := List.mem_getLast?_eq_getLast hc
  exact Bool.eq_false_iff.2 (List.rdropWhile_last_not isBlank text hne)

theorem trimEnd_append {value trail : List Byte} (htrail : Blanks trail)
    (hlast : ∀ c ∈ value.getLast?, isBlank c = false) : trimEnd (value ++ trail) = value := by
  unfold trimEnd List.rdropWhile
  rw [List.reverse_append, List.dropWhile_append_of_pos fun c hc => htrail c (List.mem_reverse.1 hc)]
  rw [← List.head?_reverse] at hlast
  cases hrev : value.reverse with
  | nil => rw [List.dropWhile_nil, ← hrev, List.reverse_reverse]
  | cons c tail =>
    rw [hrev] at hlast
    have hc := hlast c rfl
    rw [List.dropWhile_cons_of_neg (by rw [hc]; exact Bool.false_ne_true), ← hrev,
      List.reverse_reverse]

theorem blank_not_ctl {c : Byte} (h : isBlank c = true) : isCtl c = false := by
  simp only [isBlank, Bool.or_eq_true, beq_iff_eq] at h
  rcases h with rfl | rfl <;> rfl

theorem token_not_blank {c : Byte} : isToken c = true → isBlank c = false := by
  revert c
  decide +kernel

theorem colon_not_token : isToken (ch ':') = false := by decide

theorem headerName_folded {b : Build} {hs : List PhrHeader} {c : Byte} {buf : List Byte}
    (hs_ne : hs ≠ []) (hc : isBlank c = true) :
    headerName b hs (c :: buf) = .done [] hs (c :: buf) := by
  have hcond : hs.length ≠ 0 ∧ isBlank c = true := ⟨by simpa using hs_ne, hc⟩
  simp only [headerName, bind_run, store_apply, peek_cons, ite_run, if_pos hcond, pure_apply]

/-- A name, its colon and the blanks behind that. -/
def namedField (b : Build) : Scan Byte σ (List Byte) := do
  let name ← parseToken b (ch ':')
  if name = [] then fail
  else do
    advance
    scanUntil (fun c => !isBlank c) fun _ => true
    pure name

theorem headerName_field {b : Build} {hs : List PhrHeader} {buf : List Byte}
    (hnot : hs = [] ∨ ∀ c ∈ buf.head?, isBlank c = false) (hbuf : buf ≠ []) :
    headerName b hs buf = namedField b hs buf := by
  obtain ⟨d, buf, rfl⟩ := List.exists_cons_of_ne_nil hbuf
  have hcond : ¬ (hs.length ≠ 0 ∧ isBlank d = true) := by
    rintro ⟨hlen, hd⟩
    rcases hnot with rfl | hhead
    · exact hlen rfl
    · rw [hhead d rfl] at hd
      cases hd
  simp only [headerName, namedField, bind_run, store_apply, peek_cons, ite_run, if_neg hcond]

theorem namedField_done {b : Build} {s t : σ} {name buf rest : List Byte} :
    namedField b s buf = .done name t rest ↔ t = s ∧ name ≠ [] ∧ (∀ c ∈ name, isToken c = true) ∧
      ∃ lead, Blanks lead ∧ buf = name ++ ch ':' :: (lead ++ rest) ∧
        ∃ c tail, rest = c :: tail ∧ isBlank c = false := by
  rw [namedField, parseToken_eq b (.inl rfl), bind_done]
  constructor
  · rintro ⟨toks, u, mid, htoks, hrest⟩
    obtain ⟨rfl, rfl, htok, c, tail, rfl, hc⟩ := tokenUntil_done.1 htoks
    rw [ite_run] at hrest
    split at hrest
    · cases hrest
    · rename_i hne
      rw [advance_bind] at hrest
      obtain ⟨_, u, mid, hscan, hpure⟩ := bind_done.1 hrest
      obtain ⟨rfl, lead, rfl, hlead, d, tail', rfl, hd⟩ := scanUntil_done.1 hscan
      cases hpure
      rw [beq_iff_eq] at hc
      subst hc
      refine ⟨rfl, hne, fun c hc => (htok c hc).2, lead, ?_, rfl, d, tail', rfl, ?_⟩
      · exact fun c hc => by simpa using (hlead c hc).1
      · simpa using hd
  · rintro ⟨rfl, hne, htok, lead, hlead, rfl, d, tail, rfl, hd⟩
    refine ⟨name, t, ch ':' :: (lead ++ d :: tail), tokenUntil_done.2 ⟨rfl, rfl, ?_, ?_⟩, ?_⟩
    · refine fun c hc => ⟨beq_false_of_ne ?_, htok c hc⟩
      rintro rfl
      exact Bool.false_ne_true (colon_not_token.symm.trans (htok _ hc))
    · exact ⟨ch ':', _, rfl, rfl⟩
    · rw [ite_run, if_neg hne, advance_bind]
      refine bind_done.2 ⟨(), t, d :: tail, scanUntil_done.2 ⟨rfl, lead, rfl, ?_, d, tail, rfl, ?_⟩, rfl⟩
      · exact fun c hc => ⟨by rw [hlead c hc]; rfl, rfl⟩
      · rw [hd]
        rfl

/-! ## Headers -/

/-- What a line without its trailing blanks holds. -/
theorem lineText_value {text : List Byte} (htext : ∀ c ∈ text, isCtl c = false) :
    ∃ trail, text = trimEnd text ++ trail ∧ Blanks trail ∧ Value (trimEnd text) := by
  obtain ⟨trail, hsplit, htrail, hlast⟩ := trimEnd_value text
  refine ⟨trail, hsplit, htrail, fun c hc => htext c ?_, hlast⟩
  rw [hsplit]
  exact List.mem_append_left trail hc

theorem headerLine_sound {b : Build} {hs t : List PhrHeader} {buf rest : List Byte} {u : Unit}
    (h : headerLine b hs buf = .done u t rest) :
    ∃ line header, buf = line ++ rest ∧ HeaderText hs.isEmpty line header ∧ t = hs ++ [header] := by
  rw [headerLine, getTokenToEol_eq] at h
  obtain ⟨name, hs₁, mid, hname, h⟩ := bind_done.1 h
  obtain ⟨text, hs₂, rest₂, htext, h⟩ := bind_done.1 h
  cases h
  obtain ⟨rfl, nl, hnl, rfl, hctl⟩ := lineText_done.1 htext
  obtain ⟨trail, hsplit, htrail, hvalue⟩ := lineText_value hctl
  by_cases hfold : hs ≠ [] ∧ ∃ c ∈ buf.head?, isBlank c = true
  · obtain ⟨hne, c, hc, hblank⟩ := hfold
    obtain ⟨tail, rfl⟩ : ∃ tail, buf = c :: tail := ⟨buf.tail, (List.cons_head?_tail hc).symm⟩
    rw [headerName_folded hne hblank] at hname
    simp only [Outcome.done.injEq] at hname
    obtain ⟨rfl, rfl, hline⟩ := hname
    -- a line end is no blank, so that the blank is one of the text
    have hhead : ∃ d ∈ (trimEnd text ++ trail).head?, isBlank d = true := by
      rw [← hsplit]
      cases text with
      | nil =>
        obtain ⟨d, tail', rfl, -, hd⟩ := hnl.head
        obtain ⟨rfl, -⟩ := List.cons.inj hline
        rw [hd] at hblank
        cases hblank
      | cons d text =>
        obtain ⟨rfl, -⟩ := List.cons.inj hline
        exact ⟨c, rfl, hblank⟩
    refine ⟨text ++ nl, ⟨[], trimEnd text⟩, hline, ?_, rfl⟩
    rw [List.isEmpty_eq_false_iff.2 hne]
    nth_rewrite 1 [hsplit]
    exact .folded hvalue htrail hhead hnl
  · have hnot : hs = [] ∨ ∀ c ∈ buf.head?, isBlank c = false := by
      by_cases hne : hs = []
      · exact .inl hne
      · exact .inr fun c hc => Bool.eq_false_iff.2 fun hblank => hfold ⟨hne, c, hc, hblank⟩
    have hbuf : buf ≠ [] := by
      rintro rfl
      cases hname
    rw [headerName_field hnot hbuf] at hname
    obtain ⟨rfl, hne, htok, lead, hlead, rfl, c, tail, hrest, hc⟩ := namedField_done.1 hname
    have hhead : ∀ d ∈ (trimEnd text).head?, isBlank d = false := by
      intro d hd
      obtain ⟨tail', hvalue'⟩ : ∃ tail', trimEnd text = d :: tail' :=
        ⟨_, (List.cons_head?_tail hd).symm⟩
      rw [hvalue'] at hsplit
      rw [hsplit] at hrest
      obtain ⟨rfl, -⟩ := List.cons.inj hrest
      exact hc
    refine ⟨name ++ ch ':' :: (lead ++ (text ++ nl)), ⟨name, trimEnd text⟩, ?_, ?_, rfl⟩
    · simp only [List.append_assoc, List.cons_append]
    · nth_rewrite 1 [hsplit]
      exact .field hne htok hlead hvalue hhead htrail hnl

theorem Value.blanks_text {value trail : List Byte} (hvalue : Value value) (htrail : Blanks trail) :
    ∀ c ∈ value ++ trail, isCtl c = false :=
  List.forall_mem_append.2 ⟨hvalue.text, fun c hc => blank_not_ctl (htrail c hc)⟩

/-- From the text of a line on. -/
theorem headerLine_of_name {b : Build} {hs : List PhrHeader} {name buf value trail nl rest : List Byte}
    (hname : headerName b hs buf = .done name hs (value ++ trail ++ nl ++ rest)) (hvalue : Value value)
    (htrail : Blanks trail) (hnl : LineEnd nl) :
    headerLine b hs buf = .done () (hs ++ [⟨name, value⟩]) rest := by
  rw [headerLine, getTokenToEol_eq, bind_of_done hname, bind_of_done (lineText_done.2
    ⟨rfl, nl, hnl, rfl, hvalue.blanks_text htrail⟩), update_apply, trimEnd_append htrail hvalue.last]

theorem headerLine_complete {b : Build} {hs : List PhrHeader} {line rest : List Byte}
    {header : PhrHeader} (h : HeaderText hs.isEmpty line header) :
    headerLine b hs (line ++ rest) = .done () (hs ++ [header]) rest := by
  generalize hfirst : hs.isEmpty = first at h
  cases h with
  | folded hvalue htrail hhead hnl =>
    rename_i value trail nl
    refine headerLine_of_name ?_ hvalue htrail hnl
    obtain ⟨c, hc, hblank⟩ := hhead
    obtain ⟨tail, htail⟩ : ∃ tail, value ++ trail = c :: tail := ⟨_, (List.cons_head?_tail hc).symm⟩
    rw [htail]
    exact headerName_folded (List.isEmpty_eq_false_iff.1 hfirst) hblank
  | field hne htok hlead hvalue hhead htrail hnl =>
    rename_i name lead value trail nl
    have hnot : hs = [] ∨ ∀ c ∈ (name ++ ch ':' :: (lead ++ (value ++ trail ++ nl)) ++ rest).head?,
        isBlank c = false := by
      refine .inr fun c hc => token_not_blank ?_
      obtain ⟨d, name, rfl⟩ := List.exists_cons_of_ne_nil hne
      cases hc
      exact htok _ List.mem_cons_self
    have hbuf : name ++ ch ':' :: (lead ++ (value ++ trail ++ nl)) ++ rest ≠ [] := by
      simp [hne]
    cases value with
    | cons v value =>
      refine headerLine_of_name ?_ hvalue htrail hnl
      rw [headerName_field hnot hbuf]
      exact namedField_done.2 ⟨rfl, hne, htok, lead, hlead, by simp, v, _, rfl, hhead v rfl⟩
    | nil =>
      -- all blanks are read as leading ones
      have hline : headerName b hs (name ++ ch ':' :: (lead ++ ([] ++ trail ++ nl)) ++ rest) =
          .done name hs ([] ++ [] ++ nl ++ rest) := by
        rw [headerName_field hnot hbuf]
        obtain ⟨c, tail, rfl, -, hc⟩ := hnl.head
        refine namedField_done.2 ⟨rfl, hne, htok, lead ++ trail, ?_, by simp, c, _, rfl, hc⟩
        exact List.forall_mem_append.2 ⟨hlead, htrail⟩
      exact headerLine_of_name hline hvalue nofun hnl

theorem token_not_newline {c : Byte} : isToken c = true → c ≠ CR ∧ c ≠ LF := by
  revert c
  decide +kernel

theorem blank_not_newline {c : Byte} (h : isBlank c = true) : c ≠ CR ∧ c ≠ LF := by
  constructor <;> rintro rfl <;> cases h

theorem HeaderText.head {first : Bool} {line : List Byte} {header : PhrHeader}
    (h : HeaderText first line header) : ∃ c tail, line = c :: tail ∧ c ≠ CR ∧ c ≠ LF := by
  cases h with
  | field hne htok =>
    rename_i name lead value trail nl _ _ _ _ _
    obtain ⟨c, name, rfl⟩ := List.exists_cons_of_ne_nil hne
    exact ⟨c, _, rfl, token_not_newline (htok c List.mem_cons_self)⟩
  | folded _ _ hhead =>
    rename_i value trail nl _ _ _
    obtain ⟨c, hc, hblank⟩ := hhead
    obtain ⟨tail, htail⟩ : ∃ tail, value ++ trail = c :: tail := ⟨_, (List.cons_head?_tail hc).symm⟩
    exact ⟨c, tail ++ nl, by rw [htail]; rfl, blank_not_newline hblank⟩

/-- Either the headers end here, or `next` reads on. -/
theorem endOr_done {next : Scan Byte σ Unit} {s t : σ} {buf rest : List Byte} {u : Unit}
    (h : endOr next s buf = .done u t rest) :
    (t = s ∧ ∃ nl, LineEnd nl ∧ buf = nl ++ rest) ∨ next s buf = .done u t rest := by
  obtain ⟨_, s₁, buf₁, heof, hline⟩ := bind_done.1 h
  obtain ⟨rfl, rfl, -⟩ := checkEof_done.1 heof
  obtain ⟨ended, s₂, buf₂, hend, hlast⟩ := bind_done.1 hline
  cases ended with
  | true =>
    cases hlast
    exact .inl (lineEnd_true.1 hend)
  | false =>
    obtain ⟨rfl, rfl, -⟩ := lineEnd_false.1 hend
    exact .inr hlast

theorem endOr_end (next : Scan Byte σ Unit) (s : σ) {nl rest : List Byte} (h : LineEnd nl) :
    endOr next s (nl ++ rest) = .done () s rest := by
  rcases h with rfl | rfl <;> rfl

theorem endOr_next (next : Scan Byte σ Unit) (s : σ) {c : Byte} {buf : List Byte} (hcr : c ≠ CR)
    (hlf : c ≠ LF) : endOr next s (c :: buf) = next s (c :: buf) := by
  rw [endOr, bind_of_done (checkEof_cons (b := c)), bind_of_done (lineEnd_other hcr hlf)]
  rfl

theorem isEmpty_concat (hs : List PhrHeader) (header : PhrHeader) :
    (hs ++ [header]).isEmpty = false := by
  simp

theorem parseHeaders_sound {b : Build} (left : Nat) : ∀ {hs t : List PhrHeader}
    {buf rest : List Byte} {u : Unit}, parseHeaders b left hs buf = .done u t rest →
      ∃ text new, buf = text ++ rest ∧ HeadersText hs.isEmpty left text new ∧ t = hs ++ new := by
  induction left with
  | zero =>
    intro hs t buf rest u h
    rcases endOr_done h with ⟨rfl, nl, hnl, rfl⟩ | hnext
    · exact ⟨nl, [], rfl, .nil hnl, (List.append_nil t).symm⟩
    · cases hnext
  | succ left ih =>
    intro hs t buf rest u h
    rcases endOr_done h with ⟨rfl, nl, hnl, rfl⟩ | hnext
    · exact ⟨nl, [], rfl, .nil hnl, (List.append_nil t).symm⟩
    · obtain ⟨_, hs₁, mid, hline, hmore⟩ := bind_done.1 hnext
      obtain ⟨line, header, rfl, htext, rfl⟩ := headerLine_sound hline
      obtain ⟨text, new, rfl, hnew, rfl⟩ := ih hmore
      rw [isEmpty_concat] at hnew
      exact ⟨line ++ text, header :: new, (List.append_assoc ..).symm, .cons htext hnew,
        List.append_assoc ..⟩

theorem parseHeaders_complete {b : Build} {first : Bool} {left : Nat} {text rest : List Byte}
    {new : List PhrHeader} (h : HeadersText first left text new) :
    ∀ {hs : List PhrHeader}, hs.isEmpty = first →
      parseHeaders b left hs (text ++ rest) = .done () (hs ++ new) rest := by
  induction h with
  | @nil first left nl hnl =>
    intro hs _
    rw [List.append_nil]
    cases left with
    | zero => exact endOr_end _ hs hnl
    | succ left => exact endOr_end _ hs hnl
  | @cons first left line text header new hline hmore ih =>
    intro hs hfirst
    obtain ⟨c, tail, hcons, hcr, hlf⟩ := hline.head
    rw [parseHeaders, hcons, List.append_assoc, List.cons_append, endOr_next _ _ hcr hlf,
      ← List.cons_append, ← hcons, bind_of_done (headerLine_complete (hfirst ▸ hline)),
      ih (isEmpty_concat hs header), List.append_assoc]
    rfl

/-! ## Requests -/

theorem skipSpaces_sound {s t : σ} {buf rest : List Byte} {u : Unit}
    (h : skipSpaces s buf = .done u t rest) : t = s ∧ ∃ c sps, buf = c :: (sps ++ rest) ∧
      (∀ x ∈ sps, x = SP) := by
  rw [skipSpaces_eq] at h
  obtain ⟨_, s₁, mid, hadv, hscan⟩ := bind_done.1 h
  obtain ⟨rfl, c, rfl⟩ := advance_done.1 hadv
  obtain ⟨rfl, sps, rfl, hsps, -⟩ := scanUntil_done.1 hscan
  exact ⟨rfl, c, sps, rfl, fun x hx => by simpa using (hsps x hx).1⟩

theorem skipSpaces_complete (s : σ) {sps rest : List Byte} (hsps : Spaces sps)
    (hrest : ∃ c tail, rest = c :: tail ∧ c ≠ SP) :
    skipSpaces s (sps ++ rest) = .done () s rest := by
  obtain ⟨hne, hall⟩ := hsps
  obtain ⟨c, sps, rfl⟩ := List.exists_cons_of_ne_nil hne
  obtain ⟨d, tail, rfl, hd⟩ := hrest
  rw [skipSpaces_eq, List.cons_append, advance_bind]
  refine scanUntil_done.2 ⟨rfl, sps, rfl, fun x hx => ?_, d, tail, rfl, by simpa using hd⟩
  rw [hall x (List.mem_cons_of_mem _ hx)]
  exact ⟨rfl, rfl⟩

theorem parseInt_done {mul v : Int} {s t : σ} {buf rest : List Byte} :
    parseInt mul s buf = .done v t rest ↔
      t = s ∧ ∃ d < 10, buf = BitVec.ofNat 8 (0x30 + d) :: rest ∧ v = mul * (d : Nat) := by
  cases buf with
  | nil => simp [parseInt, bind_run, peek]
  | cons c buf =>
    have hrun : parseInt mul s (c :: buf) =
        if c.toInt < 0x30 ∨ 0x39 < c.toInt then .fail s
        else .done (mul * (c.toInt - 0x30)) s buf := by
      simp only [parseInt, bind_run, peek_cons, advance_cons, ite_run, fail_apply, pure_apply]
    have hlt := c.isLt
    rw [hrun]
    constructor
    · intro h
      split at h
      · cases h
      · rename_i hdigit
        cases h
        rw [BitVec.toInt_eq_toNat_cond] at hdigit ⊢
        refine ⟨rfl, c.toNat - 0x30, by split at hdigit <;> omega, ?_, ?_⟩
        · have hc : c = BitVec.ofNat 8 (0x30 + (c.toNat - 0x30)) := by
            apply BitVec.eq_of_toNat_eq
            rw [BitVec.toNat_ofNat]
            split at hdigit <;> omega
          rw [← hc]
        · split at hdigit
          · rename_i hsmall
            rw [if_pos hsmall]
            congr 1
            omega
          · omega
    · rintro ⟨rfl, d, hd, hbuf, rfl⟩
      obtain ⟨rfl, rfl⟩ := List.cons.inj hbuf
      have hint : (BitVec.ofNat 8 (0x30 + d)).toInt = 0x30 + d := by
        rw [BitVec.toInt_eq_toNat_cond, BitVec.toNat_ofNat]
        split <;> omega
      rw [hint, if_neg (by omega)]
      congr 2
      omega

theorem utf8_version : utf8 "HTTP/1." = [ch 'H', ch 'T', ch 'T', ch 'P', ch '/', ch '1', ch '.'] := by
  decide

theorem parseHttpVersion_sound {v : Int} {s t : σ} {buf rest : List Byte}
    (h : parseHttpVersion s buf = .done v t rest) : t = s ∧ ∃ minor < 10, v = (minor : Nat) ∧
      buf = utf8 "HTTP/1." ++ BitVec.ofNat 8 (0x30 + minor) :: rest := by
  rw [utf8_version]
  obtain ⟨_, _, _, hlen, h₀⟩ := bind_done.1 h
  obtain ⟨rfl, rfl, -⟩ := atLeast_done.1 hlen
  obtain ⟨_, _, _, hc, h₁⟩ := bind_done.1 h₀
  obtain ⟨rfl, rfl⟩ := expectCharNoCheck_done.1 hc
  obtain ⟨_, _, _, hc, h₂⟩ := bind_done.1 h₁
  obtain ⟨rfl, rfl⟩ := expectCharNoCheck_done.1 hc
  obtain ⟨_, _, _, hc, h₃⟩ := bind_done.1 h₂
  obtain ⟨rfl, rfl⟩ := expectCharNoCheck_done.1 hc
  obtain ⟨_, _, _, hc, h₄⟩ := bind_done.1 h₃
  obtain ⟨rfl, rfl⟩ := expectCharNoCheck_done.1 hc
  obtain ⟨_, _, _, hc, h₅⟩ := bind_done.1 h₄
  obtain ⟨rfl, rfl⟩ := expectCharNoCheck_done.1 hc
  obtain ⟨_, _, _, hc, h₆⟩ := bind_done.1 h₅
  obtain ⟨rfl, rfl⟩ := expectCharNoCheck_done.1 hc
  obtain ⟨_, _, _, hc, h₇⟩ := bind_done.1 h₆
  obtain ⟨rfl, rfl⟩ := expectCharNoCheck_done.1 hc
  obtain ⟨rfl, d, hd, rfl, rfl⟩ := parseInt_done.1 h₇
  exact ⟨rfl, d, hd, Int.one_mul _, rfl⟩

theorem parseHttpVersion_complete (s : σ) {minor : Nat} (hminor : minor < 10) {rest : List Byte}
    (hrest : rest ≠ []) :
    parseHttpVersion s (utf8 "HTTP/1." ++ BitVec.ofNat 8 (0x30 + minor) :: rest) =
      .done (minor : Nat) s rest := by
  have hlen : 9 ≤ (utf8 "HTTP/1." ++ BitVec.ofNat 8 (0x30 + minor) :: rest).length := by
    have hpos := List.length_pos_of_ne_nil hrest
    rw [utf8_version]
    simp only [List.length_append, List.length_cons, List.length_nil]
    omega
  rw [parseHttpVersion, bind_of_done (atLeast_done (u := ()).2 ⟨rfl, rfl, hlen⟩), utf8_version]
  simp only [List.cons_append, List.nil_append]
  iterate 7 rw [bind_of_done (expectCharNoCheck_self _ _ _)]
  exact parseInt_done.2 ⟨rfl, minor, hminor, rfl, (Int.one_mul _).symm⟩

theorem token_not_space {c : Byte} (h : isToken c = true) : c ≠ SP := by
  rintro rfl
  cases token_not_blank h

theorem requestLine_sound {b : Build} {out t : RequestOut} {buf rest : List Byte} {u : Unit}
    (h : requestLine b out buf = .done u t rest) : ∃ line method path minor, buf = line ++ rest ∧
      RequestLine line method path minor ∧ t = ⟨method, path, (minor : Nat), out.headers⟩ := by
  rw [requestLine, parseToken_eq b (.inr rfl), advanceToken_eq b] at h
  obtain ⟨method, _, _, hmethod, h₁⟩ := bind_done.1 h
  obtain ⟨rfl, rfl, hmtok, c, tail, rfl, hc⟩ := tokenUntil_done.1 hmethod
  obtain ⟨_, _, _, hset, h₂⟩ := bind_done.1 h₁
  cases hset
  obtain ⟨_, _, _, hsp, h₃⟩ := bind_done.1 h₂
  obtain ⟨rfl, c₁, sps₁, hbuf₁, hsps₁⟩ := skipSpaces_sound hsp
  obtain ⟨rfl, rfl⟩ := List.cons.inj hbuf₁
  obtain ⟨path, _, _, hpath, h₄⟩ := bind_done.1 h₃
  obtain ⟨rfl, rfl, hpchars, c₂, tail₂, rfl, hc₂⟩ := tokenUntil_done.1 hpath
  obtain ⟨_, _, _, hset, h₅⟩ := bind_done.1 h₄
  cases hset
  obtain ⟨_, _, _, hsp, h₆⟩ := bind_done.1 h₅
  obtain ⟨rfl, c₃, sps₂, hbuf₂, hsps₂⟩ := skipSpaces_sound hsp
  obtain ⟨rfl, rfl⟩ := List.cons.inj hbuf₂
  rw [ite_run] at h₆
  split at h₆
  · cases h₆
  · rename_i hne
    rw [not_or] at hne
    obtain ⟨v, _, _, hversion, h₇⟩ := bind_done.1 h₆
    obtain ⟨rfl, minor, hminor, rfl, rfl⟩ := parseHttpVersion_sound hversion
    obtain ⟨_, _, _, hset, h₈⟩ := bind_done.1 h₇
    cases hset
    obtain ⟨ended, _, _, hend, h₉⟩ := bind_done.1 h₈
    cases ended with
    | false => cases h₉
    | true =>
      cases h₉
      obtain ⟨rfl, nl, hnl, rfl⟩ := lineEnd_true.1 hend
      rw [beq_iff_eq] at hc hc₂
      subst hc hc₂
      refine ⟨method ++ (SP :: sps₁) ++ path ++ (SP :: sps₂) ++ utf8 "HTTP/1." ++
        BitVec.ofNat 8 (0x30 + minor) :: nl, method, path, minor, by simp, ?_, rfl⟩
      refine ⟨⟨hne.1, fun c hc => (hmtok c hc).2⟩, ⟨hne.2, fun c hc => ?_⟩, hminor,
        SP :: sps₁, SP :: sps₂, nl, ⟨List.cons_ne_nil _ _, ?_⟩, ⟨List.cons_ne_nil _ _, ?_⟩, hnl, rfl⟩
      · exact ⟨(hpchars c hc).2, by simpa using (hpchars c hc).1⟩
      · exact List.forall_mem_cons.2 ⟨rfl, hsps₁⟩
      · exact List.forall_mem_cons.2 ⟨rfl, hsps₂⟩

theorem requestLine_complete {b : Build} {out : RequestOut} {line method path rest : List Byte}
    {minor : Nat} (h : RequestLine line method path minor) : requestLine b out (line ++ rest) =
      .done () ⟨method, path, (minor : Nat), out.headers⟩ rest := by
  obtain ⟨⟨hm, hmtok⟩, ⟨hp, hpchars⟩, hminor, sp₁, sp₂, nl, hsp₁, hsp₂, hnl, rfl⟩ := h
  rw [requestLine, parseToken_eq b (.inr rfl), advanceToken_eq b]
  have hbuf : method ++ sp₁ ++ path ++ sp₂ ++ utf8 "HTTP/1." ++
      BitVec.ofNat 8 (0x30 + minor) :: nl ++ rest = method ++ (sp₁ ++ (path ++ (sp₂ ++
        (utf8 "HTTP/1." ++ BitVec.ofNat 8 (0x30 + minor) :: (nl ++ rest))))) := by
    simp
  -- spaces start with one
  have hspace : ∀ {sp : List Byte}, Spaces sp → ∀ more : List Byte,
      ∃ c tail, sp ++ more = c :: tail ∧ (c == SP) = true := by
    rintro sp ⟨hne, hall⟩ more
    obtain ⟨c, sp, rfl⟩ := List.exists_cons_of_ne_nil hne
    exact ⟨c, sp ++ more, rfl, beq_iff_eq.2 (hall c List.mem_cons_self)⟩
  have hmethod : ∀ more : List Byte, tokenUntil (· == SP) isToken out (method ++ (sp₁ ++ more)) =
      .done method out (sp₁ ++ more) := fun more =>
    tokenUntil_done.2 ⟨rfl, rfl, fun c hc =>
      ⟨beq_false_of_ne (token_not_space (hmtok c hc)), hmtok c hc⟩, hspace hsp₁ more⟩
  have hpath : ∀ (s : RequestOut) (more : List Byte),
      tokenUntil (· == SP) isPathChar s (path ++ (sp₂ ++ more)) = .done path s (sp₂ ++ more) :=
    fun s more => tokenUntil_done.2 ⟨rfl, rfl, fun c hc =>
      ⟨beq_false_of_ne (hpchars c hc).2, (hpchars c hc).1⟩, hspace hsp₂ more⟩
  have hstart : ∀ more : List Byte, ∃ c tail, path ++ more = c :: tail ∧ c ≠ SP := by
    intro more
    obtain ⟨c, path, rfl⟩ := List.exists_cons_of_ne_nil hp
    exact ⟨c, path ++ more, rfl, (hpchars c List.mem_cons_self).2⟩
  have hversion : ∀ more : List Byte, ∃ c tail, utf8 "HTTP/1." ++ more = c :: tail ∧ c ≠ SP := by
    rw [utf8_version]
    exact fun more => ⟨ch 'H', _, rfl, by decide⟩
  rw [hbuf, bind_of_done (hmethod _), bind_of_done update_apply,
    bind_of_done (skipSpaces_complete _ hsp₁ (hstart _)), bind_of_done (hpath _ _),
    bind_of_done update_apply, bind_of_done (skipSpaces_complete _ hsp₂ (hversion _)), ite_run,
    if_neg (not_or.2 ⟨hm, hp⟩), bind_of_done (parseHttpVersion_complete _ hminor
      (List.append_ne_nil_of_left_ne_nil hnl.ne_nil rest)), bind_of_done update_apply,
    bind_of_done (lineEnd_true.2 ⟨rfl, nl, hnl, rfl⟩)]
  rfl

theorem RequestLine.head {line method path : List Byte} {minor : Nat}
    (h : RequestLine line method path minor) : ∃ c tail, line = c :: tail ∧ c ≠ CR ∧ c ≠ LF := by
  obtain ⟨⟨hm, hmtok⟩, -, -, _, _, _, -, -, -, rfl⟩ := h
  obtain ⟨c, method, rfl⟩ := List.exists_cons_of_ne_nil hm
  simp only [List.append_assoc, List.cons_append]
  exact ⟨c, _, rfl, token_not_newline (hmtok c List.mem_cons_self)⟩

theorem parseRequest_sound {b : Build} {maxHeaders : Nat} {out : RequestOut} {buf rest : List Byte}
    {u : Unit} (h : parseRequest b maxHeaders .reset buf = .done u out rest) :
    ∃ text, buf = text ++ rest ∧ RequestText maxHeaders text out := by
  obtain ⟨_, s₀, buf₀, heof, h₁⟩ := bind_done.1 h
  obtain ⟨hs₀, hbuf₀, -⟩ := checkEof_done.1 heof
  subst hs₀ hbuf₀
  obtain ⟨ended, s, mid, hend, h₂⟩ := bind_done.1 h₁
  -- an empty line may come first
  obtain ⟨lead, hlead, rfl, rfl⟩ : ∃ lead, (lead = [] ∨ LineEnd lead) ∧ s = .reset ∧
      buf₀ = lead ++ mid := by
    cases ended with
    | true =>
      obtain ⟨rfl, nl, hnl, rfl⟩ := lineEnd_true.1 hend
      exact ⟨nl, .inr hnl, rfl, rfl⟩
    | false =>
      obtain ⟨rfl, rfl, -⟩ := lineEnd_false.1 hend
      exact ⟨[], .inl rfl, rfl, rfl⟩
  obtain ⟨_, _, _, hline, h₃⟩ := bind_done.1 h₂
  obtain ⟨line, method, path, minor, rfl, htext, rfl⟩ := requestLine_sound hline
  simp only [zoom] at h₃
  split at h₃ <;> cases h₃
  rename_i _ new hheaders
  obtain ⟨headers, new', rfl, hnew, rfl⟩ := parseHeaders_sound maxHeaders hheaders
  refine ⟨lead ++ line ++ headers, by simp, ⟨lead, line, headers, minor, hlead, htext, rfl, hnew, rfl⟩⟩

theorem parseRequest_complete {b : Build} {maxHeaders : Nat} {out : RequestOut}
    {text rest : List Byte} (h : RequestText maxHeaders text out) :
    parseRequest b maxHeaders .reset (text ++ rest) = .done () out rest := by
  obtain ⟨lead, line, headers, minor, hlead, hline, hminor, hheaders, rfl⟩ := h
  obtain ⟨c, tail, hcons, hcr, hlf⟩ := hline.head
  have hrest : (requestLine b >>= fun _ => zoom RequestOut.headers
      (fun headers out => { out with headers := headers }) (parseHeaders b maxHeaders))
        .reset (line ++ (headers ++ rest)) = .done () out rest := by
    have hnew : parseHeaders b maxHeaders [] (headers ++ rest) = .done () out.headers rest :=
      parseHeaders_complete hheaders rfl
    rw [bind_of_done (requestLine_complete hline)]
    simp only [zoom, RequestOut.reset, hnew, ← hminor]
  rcases hlead with rfl | hlead
  · rw [List.nil_append, List.append_assoc, ← hrest, hcons, List.cons_append, parseRequest,
      bind_of_done (checkEof_cons (b := c)), bind_of_done (lineEnd_other hcr hlf)]
  · rw [List.append_assoc, List.append_assoc, ← hrest, parseRequest]
    rcases hlead with rfl | rfl <;> rfl

theorem parseRequest_reads (b : Build) (maxHeaders : Nat) :
    Reads (parseRequest b maxHeaders) .reset (RequestText maxHeaders) where
  toStreams := parseRequest_streams b maxHeaders
  sound := parseRequest_sound
  complete h _ := parseRequest_complete h

theorem parseHeaders_reads (b : Build) (maxHeaders : Nat) :
    Reads (parseHeaders b maxHeaders) [] (HeadersText true maxHeaders) where
  toStreams := parseHeaders_streams b maxHeaders
  sound h := by
    obtain ⟨text, new, hbuf, htext, hnew⟩ := parseHeaders_sound maxHeaders h
    rw [hnew]
    exact ⟨text, hbuf, htext⟩
  complete h _ := parseHeaders_complete h rfl

end PingServer.Pico
