import PingServer.Parser.Pico

/-!
# The builds of the parser

With SSE 4.2 the parser looks at blocks of sixteen bytes first, and without it
`get_token_to_eol` runs an unrolled loop. Each of these only passes bytes that
the plain loop behind it would pass, so that the tokens are read as by
`tokenUntil`, and both builds parse alike.
-/

namespace PingServer.Pico

open ByteMem Scanner

variable {σ : Type}

/-! ## Single bytes -/

theorem expectCharNoCheck_self (c : Byte) (s : σ) (buf : List Byte) :
    expectCharNoCheck c s (c :: buf) = .done () s buf := by
  simp [expectCharNoCheck, bind_run, peek, advance]

theorem expectCharNoCheck_ne {b c : Byte} (h : b ≠ c) {s : σ} {buf : List Byte} :
    expectCharNoCheck c s (b :: buf) = .fail s := by
  simp [expectCharNoCheck, bind_run, peek, advance, h]

theorem expectChar_self (c : Byte) (s : σ) (buf : List Byte) :
    expectChar c s (c :: buf) = .done () s buf := expectCharNoCheck_self c s buf

theorem expectChar_ne {b c : Byte} (h : b ≠ c) {s : σ} {buf : List Byte} :
    expectChar c s (b :: buf) = .fail s := expectCharNoCheck_ne h

theorem lineEnd_lf (s : σ) (buf : List Byte) : lineEnd s (LF :: buf) = .done true s buf := rfl

theorem lineEnd_crlf (s : σ) (buf : List Byte) :
    lineEnd s (CR :: LF :: buf) = .done true s buf := rfl

theorem lineEnd_cr_ne {d : Byte} (h : d ≠ LF) {s : σ} {buf : List Byte} :
    lineEnd s (CR :: d :: buf) = .fail s := by
  change (expectChar LF >>= fun _ => pure true) s (d :: buf) = _
  simp only [bind_run, expectChar_ne h]

theorem lineEnd_other {c : Byte} (hcr : c ≠ CR) (hlf : c ≠ LF) {s : σ} {buf : List Byte} :
    lineEnd s (c :: buf) = .done false s (c :: buf) := by
  change (if c = CR then _ else if c = LF then _ else pure false : Scan Byte σ Bool) s (c :: buf) = _
  rw [if_neg hcr, if_neg hlf, pure_apply]

/-! ## Classes of bytes -/

theorem isPrintableAscii_iff (c : Byte) :
    isPrintableAscii c = true ↔ 0x20 ≤ c.toNat ∧ c.toNat < 0x7f := by
  have hlt := c.isLt
  simp only [isPrintableAscii, decide_eq_true_eq]
  omega

theorem isCtl_iff (c : Byte) : isCtl c = true ↔ c.toNat < 0x20 ∧ c ≠ HT ∨ c = DEL := by
  simp [isCtl]

theorem not_isPrintableAscii_of_isCtl {c : Byte} (h : isCtl c = true) :
    isPrintableAscii c = false := by
  rw [← Bool.not_eq_true, isPrintableAscii_iff]
  rcases (isCtl_iff c).1 h with ⟨hlow, -⟩ | rfl
  · omega
  · decide

theorem tokenRanges_sound (c : Byte) : tokenRanges.has c = false →
    isToken c = true ∧ c ≠ ch ':' ∧ c ≠ SP := by
  revert c
  decide +kernel

theorem ranges2_sound (c : Byte) : ranges2.has c = false → isPathChar c = true ∧ c ≠ SP := by
  revert c
  decide +kernel

theorem ranges1_has (c : Byte) : ranges1.has c = isCtl c := by
  revert c
  decide +kernel

/-! ## Passing bytes -/

/-- `p` passes bytes that are not in `stop`, and has found one that is where it says so. -/
def Passes (stop : Byte → Bool) (p : Scan Byte σ Bool) : Prop :=
  ∀ s buf, ∃ found toks rest, p s buf = .done found s rest ∧ buf = toks ++ rest ∧
    (∀ c ∈ toks, stop c = false) ∧ (found = true → ∃ c tail, rest = c :: tail ∧ stop c = true)

/-- The first byte of a block in a range, and what lies in front of it. -/
theorem cmpestri_split (ranges : Ranges) (b16 : List Byte) : ∃ toks rest, b16 = toks ++ rest ∧
    toks.length = cmpestri ranges b16 ∧ (∀ c ∈ toks, ranges.has c = false) ∧
      (rest ≠ [] → ∃ c tail, rest = c :: tail ∧ ranges.has c = true) := by
  refine ⟨b16.takeWhile (!ranges.has ·), b16.dropWhile (!ranges.has ·),
    List.takeWhile_append_dropWhile.symm, ?_, ?_, ?_⟩
  · simp [cmpestri, List.takeWhile_eq_take_findIdx_not, List.findIdx_le_length]
  · intro c hc
    simpa using List.mem_takeWhile_imp hc
  · intro hne
    obtain ⟨c, tail, hcons⟩ := List.exists_cons_of_ne_nil hne
    have hhead := List.head_dropWhile_not (!ranges.has ·) hne
    simp only [hcons, List.head_cons, Bool.not_eq_false'] at hhead
    exact ⟨c, tail, hcons, hhead⟩

theorem skip_append {n : Nat} {toks rest : List Byte} (s : σ) (h : toks.length = n) :
    skip n s (toks ++ rest) = .done () s rest := by
  subst h
  simp [skip]

theorem findcharBlocks_passes (ranges : Ranges) (s : σ) (n : Nat) :
    ∀ buf : List Byte, 16 * n ≤ buf.length → ∃ found toks rest,
      findcharBlocks ranges n s buf = .done found s rest ∧ buf = toks ++ rest ∧
        (∀ c ∈ toks, ranges.has c = false) ∧
          (found = true → ∃ c tail, rest = c :: tail ∧ ranges.has c = true) := by
  induction n with
  | zero => exact fun buf _ => ⟨false, [], buf, rfl, rfl, nofun, nofun⟩
  | succ n ih =>
    intro buf hlen
    obtain ⟨b16, tail, rfl, h16⟩ : ∃ b16 tail, buf = b16 ++ tail ∧ b16.length = 16 :=
      ⟨buf.take 16, buf.drop 16, (List.take_append_drop 16 buf).symm, by
        rw [List.length_take]; omega⟩
    have hahead : (ahead 16 : Scan Byte σ (List Byte)) s (b16 ++ tail) = .done b16 s (b16 ++ tail) := by
      simp [ahead, h16]
    rw [findcharBlocks, bind_of_done hahead]
    obtain ⟨toks, rest, rfl, hr, htoks, hrest⟩ := cmpestri_split ranges b16
    split
    · rename_i hne
      -- a byte of the block is in a range
      have hmore : rest ≠ [] := by
        rintro rfl
        rw [List.append_nil] at hr h16
        exact hne (by rw [List.append_nil, ← hr, h16])
      obtain ⟨c, left, rfl, hc⟩ := hrest hmore
      rw [List.append_assoc]
      exact ⟨true, toks, _, bind_of_done (skip_append s hr), rfl, htoks, fun _ => ⟨c, _, rfl, hc⟩⟩
    · rename_i heq
      rw [not_not] at heq
      have hnone : rest = [] := by
        rw [List.length_append] at h16
        exact List.eq_nil_of_length_eq_zero (by omega)
      subst hnone
      rw [List.append_nil] at h16 hlen ⊢
      rw [List.length_append] at hlen
      obtain ⟨found, more, rest, hrun, rfl, hmore, hfound⟩ := ih tail (by omega)
      refine ⟨found, toks ++ more, rest, ?_, (List.append_assoc ..).symm, ?_, hfound⟩
      · rw [bind_of_done (skip_append s h16), hrun]
      · exact List.forall_mem_append.2 ⟨htoks, hmore⟩

theorem findcharFast_passes (ranges : Ranges) (b : Build) :
    Passes ranges.has (findcharFast ranges b : Scan Byte σ Bool) := by
  intro s buf
  cases b with
  | portable => exact ⟨false, [], buf, rfl, rfl, nofun, nofun⟩
  | sse42 =>
    have hhere : (here : Scan Byte σ (List Byte)) s buf = .done buf s buf := rfl
    rw [findcharFast, bind_of_done hhere]
    split
    · exact findcharBlocks_passes ranges s _ buf (Nat.mul_div_le _ _)
    · exact ⟨false, [], buf, rfl, rfl, nofun, nofun⟩

/-! ## The plain loops -/

/-- Looking ahead changes nothing when the loop passes the same bytes. -/
theorem token_eq {ranges : Ranges} {stop ok : Byte → Bool} (b : Build)
    (hsound : ∀ c, ranges.has c = false → stop c = false ∧ ok c = true) :
    (token b ranges stop ok : Scan Byte σ (List Byte)) = tokenUntil stop ok := by
  funext s buf
  obtain ⟨found, toks, rest, hfast, rfl, htoks, hfound⟩ := findcharFast_passes ranges b s buf
  have hplain : ∀ k : Unit → Scan Byte σ (List Byte),
      (checkEofUnless found >>= fun _ => loopUntil stop ok >>= k) s rest =
        (scanUntil stop ok >>= k) s (toks ++ rest) := by
    intro k
    have hscan : (scanUntil stop ok : Scan Byte σ Unit) s (toks ++ rest) = scanUntil stop ok s rest :=
      scanUntil_append (fun c hc => hsound c (htoks c hc)) rest
    simp only [bind_run, hscan]
    cases rest with
    | nil =>
      cases found with
      | true =>
        obtain ⟨_, _, hcons, -⟩ := hfound rfl
        cases hcons
      | false => rfl
    | cons c rest =>
      rw [← loopUntil_eq_scanUntil (List.cons_ne_nil c rest)]
      cases found <;> rfl
  have hhere : (here : Scan Byte σ (List Byte)) s (toks ++ rest) =
      .done (toks ++ rest) s (toks ++ rest) := rfl
  rw [token, tokenUntil, bind_of_done hhere, bind_of_done hhere, bind_of_done hfast, hplain]

theorem parseToken_eq (b : Build) {nextChar : Byte} (h : nextChar = ch ':' ∨ nextChar = SP) :
    (parseToken b nextChar : Scan Byte σ (List Byte)) = tokenUntil (· == nextChar) isToken := by
  refine token_eq b fun c hc => ?_
  obtain ⟨htoken, hcolon, hspace⟩ := tokenRanges_sound c hc
  refine ⟨?_, htoken⟩
  rcases h with rfl | rfl
  · exact beq_false_of_ne hcolon
  · exact beq_false_of_ne hspace

theorem advanceToken_eq (b : Build) :
    (advanceToken b : Scan Byte σ (List Byte)) = tokenUntil (· == SP) isPathChar := by
  refine token_eq b fun c hc => ?_
  obtain ⟨hpath, hspace⟩ := ranges2_sound c hc
  exact ⟨beq_false_of_ne hspace, hpath⟩

theorem eolUnrolled_passes (s : σ) (buf : List Byte) : ∀ left, left ≤ buf.length →
    ∃ found toks rest, eolUnrolled left s buf = .done found s rest ∧ buf = toks ++ rest ∧
      (∀ c ∈ toks, isCtl c = false) ∧
        (found = true → ∃ c tail, rest = c :: tail ∧ isCtl c = true) := by
  induction buf with
  | nil =>
    intro left hleft
    obtain rfl : left = 0 := Nat.le_zero.1 hleft
    exact ⟨false, [], [], rfl, rfl, nofun, nofun⟩
  | cons c buf ih =>
    intro left hleft
    rw [List.length_cons] at hleft
    have hpass : isCtl c = false → ∀ next ≤ buf.length, ∃ found toks rest,
        eolUnrolled next s buf = .done found s rest ∧ c :: buf = toks ++ rest ∧
          (∀ d ∈ toks, isCtl d = false) ∧
            (found = true → ∃ d tail, rest = d :: tail ∧ isCtl d = true) := by
      intro hc next hnext
      obtain ⟨found, toks, rest, hrun, rfl, htoks, hfound⟩ := ih next hnext
      exact ⟨found, c :: toks, rest, hrun, rfl, List.forall_mem_cons.2 ⟨hc, htoks⟩, hfound⟩
    simp only [eolUnrolled]
    split
    · exact ⟨false, [], c :: buf, rfl, rfl, nofun, nofun⟩
    · rename_i hround
      split
      · rename_i hprint
        have hc : isCtl c = false := by
          rw [← Bool.not_eq_true]
          intro hctl
          rw [not_isPrintableAscii_of_isCtl hctl] at hprint
          cases hprint
        refine hpass hc _ ?_
        split <;> omega
      · split
        · rename_i hctl
          exact ⟨true, [], c :: buf, rfl, rfl, nofun, fun _ => ⟨c, buf, rfl, hctl⟩⟩
        · rename_i hctl
          exact hpass (by simpa using hctl) 0 (Nat.zero_le _)

theorem findCtl_passes (b : Build) : Passes isCtl (findCtl b : Scan Byte σ Bool) := by
  cases b with
  | portable => exact fun s buf => eolUnrolled_passes s buf 0 (Nat.zero_le _)
  | sse42 =>
    have hctl : ranges1.has = isCtl := funext ranges1_has
    rw [← hctl]
    exact findcharFast_passes ranges1 .sse42

/-- A line and its end. -/
def lineText : Scan Byte σ (List Byte) := do
  let text ← tokenUntil isCtl fun _ => true
  let ended ← lineEnd
  if ended then pure text else fail

/-- Both line ends are left out of the token. -/
theorem foundCtl_eq (s : σ) (toks rest : List Byte) :
    foundCtl (toks ++ rest) s rest =
      (lineEnd >>= fun ended => if ended then pure toks else fail : Scan Byte σ (List Byte)) s rest := by
  cases rest with
  | nil => rfl
  | cons c rest =>
    by_cases hcr : c = CR
    · subst hcr
      cases rest with
      | nil => rfl
      | cons d rest =>
        change (expectChar LF >>= _) s (d :: rest) = _
        by_cases hlf : d = LF
        · subst hlf
          have hlen : (toks ++ CR :: LF :: rest).length - rest.length - 2 = toks.length := by
            simp only [List.length_append, List.length_cons]
            omega
          rw [bind_of_done (lineEnd_crlf s rest), bind_of_done (expectChar_self LF s rest)]
          simp only [bind_run, here_apply, hlen, List.take_left]
          rfl
        · simp only [bind_run, expectChar_ne hlf, lineEnd_cr_ne hlf]
    · by_cases hlf : c = LF
      · subst hlf
        change Outcome.done (upTo (toks ++ LF :: rest) (LF :: rest)) s rest = _
        rw [upTo_append]
        rfl
      · rw [bind_of_done (lineEnd_other hcr hlf)]
        change (if c = CR then _ else if c = LF then _ else fail) s (c :: rest) = _
        rw [if_neg hcr, if_neg hlf]
        rfl

theorem getTokenToEol_eq (b : Build) :
    (getTokenToEol b : Scan Byte σ (List Byte)) = lineText := by
  funext s buf
  obtain ⟨found, toks, rest, hfast, rfl, htoks, hfound⟩ := findCtl_passes b s buf
  have hstops : (fun c => !isPrintableAscii c && isCtl c) = isCtl := by
    funext c
    cases hc : isCtl c with
    | false => rw [Bool.and_false]
    | true => rw [not_isPrintableAscii_of_isCtl hc, Bool.not_false, Bool.and_true]
  have hloop : (eolLoopUnless found : Scan Byte σ Unit) s rest =
      scanUntil isCtl (fun _ => true) s (toks ++ rest) := by
    rw [scanUntil_append fun c hc => ⟨htoks c hc, rfl⟩]
    cases found with
    | true =>
      obtain ⟨c, tail, rfl, hc⟩ := hfound rfl
      simp only [eolLoopUnless, scanUntil, if_pos hc, ↓reduceIte, pure_apply]
    | false => rw [eolLoopUnless, eolLoop, hstops]; rfl
  have hhere : (here : Scan Byte σ (List Byte)) s (toks ++ rest) =
      .done (toks ++ rest) s (toks ++ rest) := rfl
  rw [getTokenToEol, bind_of_done hhere, bind_of_done hfast]
  simp only [lineText, tokenUntil, bind_run, here_apply, hloop]
  cases hscan : (scanUntil isCtl (fun _ => true) : Scan Byte σ Unit) s (toks ++ rest) with
  | done u t last =>
    obtain ⟨rfl, line, hline, -⟩ := scanUntil_done.1 hscan
    simp only [hline, pure_apply, upTo_append]
    exact foundCtl_eq t line last
  | more t | fail t | overrun => rfl

/-! ## Whole messages -/

theorem headerLine_build (b : Build) : headerLine b = headerLine .portable := by
  simp only [headerLine, headerName, parseToken_eq _ (.inl rfl), getTokenToEol_eq]

theorem parseHeaders_build (b : Build) (left : Nat) :
    parseHeaders b left = parseHeaders .portable left := by
  induction left with
  | zero => rfl
  | succ left ih => rw [parseHeaders, parseHeaders, headerLine_build b, ih]

theorem parseRequest_build (b : Build) (maxHeaders : Nat) :
    parseRequest b maxHeaders = parseRequest .portable maxHeaders := by
  simp only [parseRequest, requestLine, parseToken_eq _ (.inr rfl), advanceToken_eq,
    parseHeaders_build b]

theorem parseResponse_build (b : Build) (maxHeaders : Nat) :
    parseResponse b maxHeaders = parseResponse .portable maxHeaders := by
  simp only [parseResponse, statusLine, getTokenToEol_eq, parseHeaders_build b]

/-- Both builds parse alike, whatever the buffer holds and however little of a message has
arrived. -/
theorem builds_parse_alike (b c : Build) (maxHeaders : Nat) (before buf : List Byte)
    (lastLen : Nat) :
    phrParseRequest b maxHeaders before buf lastLen =
        phrParseRequest c maxHeaders before buf lastLen ∧
      phrParseResponse b maxHeaders before buf lastLen =
        phrParseResponse c maxHeaders before buf lastLen ∧
      phrParseHeaders b maxHeaders before buf lastLen =
        phrParseHeaders c maxHeaders before buf lastLen := by
  refine ⟨?_, ?_, ?_⟩
  · simp only [phrParseRequest, parseRequest_build b, parseRequest_build c]
  · simp only [phrParseResponse, parseResponse_build b, parseResponse_build c]
  · simp only [phrParseHeaders, parseHeaders_build b, parseHeaders_build c]

end PingServer.Pico
