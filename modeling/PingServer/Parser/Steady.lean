import PingServer.Parser.Builds

/-!
# The laws of the parser

Every part of the parser, in either build, decides nothing that more input
could change, and reads nothing behind the end of the buffer.
-/

namespace PingServer.Pico

open ByteMem Scanner

variable {σ : Type}

/-! ## More input -/

theorem expectCharNoCheck_steady (c : Byte) : Steady (expectCharNoCheck c : Scan Byte σ Unit) :=
  Steady.peek.bind fun _ => Steady.advance.bind fun _ => (Steady.pure ()).ite .failing

theorem expectChar_steady (c : Byte) : Steady (expectChar c : Scan Byte σ Unit) :=
  Steady.checkEof.bind fun _ => expectCharNoCheck_steady c

theorem lineEnd_steady : Steady (lineEnd : Scan Byte σ Bool) := by
  refine Steady.peek.bind fun c => .ite ?_ (.ite ?_ (.pure false))
  · exact Steady.advance.bind fun _ => (expectChar_steady LF).bind fun _ => .pure true
  · exact Steady.advance.bind fun _ => .pure true

theorem lineText_steady : Steady (lineText : Scan Byte σ (List Byte)) :=
  (Steady.tokenUntil _ _).bind fun text => lineEnd_steady.bind fun _ =>
    (Steady.pure text).ite .failing

theorem parseToken_steady (b : Build) {c : Byte} (h : c = ch ':' ∨ c = SP) :
    Steady (parseToken b c : Scan Byte σ (List Byte)) := by
  rw [parseToken_eq b h]
  exact Steady.tokenUntil _ _

theorem getTokenToEol_steady (b : Build) : Steady (getTokenToEol b : Scan Byte σ (List Byte)) := by
  rw [getTokenToEol_eq]
  exact lineText_steady

theorem headerName_steady (b : Build) : Steady (headerName b) := by
  refine Steady.store.bind fun headers => Steady.peek.bind fun c => .ite (.pure []) ?_
  refine (parseToken_steady b (.inl rfl)).bind fun name => .ite .failing ?_
  exact Steady.advance.bind fun _ => (Steady.scanUntil _ _).bind fun _ => .pure name

theorem headerLine_steady (b : Build) : Steady (headerLine b) :=
  (headerName_steady b).bind fun _ => (getTokenToEol_steady b).bind fun _ => .update _

theorem endOr_steady {next : Scan Byte σ Unit} (h : Steady next) : Steady (endOr next) :=
  Steady.checkEof.bind fun _ => lineEnd_steady.bind fun _ => (Steady.pure ()).ite h

theorem parseHeaders_steady (b : Build) (left : Nat) : Steady (parseHeaders b left) := by
  induction left with
  | zero => exact endOr_steady .failing
  | succ left ih => exact endOr_steady ((headerLine_steady b).bind fun _ => ih)

theorem parseInt_steady (mul : Int) : Steady (parseInt mul : Scan Byte σ Int) :=
  Steady.peek.bind fun _ => Steady.advance.bind fun _ => Steady.failing.ite (.pure _)

theorem parseHttpVersion_steady : Steady (parseHttpVersion : Scan Byte σ Int) := by
  refine (Steady.atLeast 9).bind fun _ => ?_
  iterate 7 refine (expectCharNoCheck_steady _).bind fun _ => ?_
  exact parseInt_steady 1

/-- Behind an end that has just been looked for, a loop is the one that looks itself. -/
theorem checkEof_loopUntil (stop ok : Byte → Bool) :
    (checkEof >>= fun _ => loopUntil stop ok : Scan Byte σ Unit) = scanUntil stop ok := by
  funext s buf
  cases buf with
  | nil => rfl
  | cons c buf => exact loopUntil_eq_scanUntil (List.cons_ne_nil c buf)

theorem skipSpaces_eq : (skipSpaces : Scan Byte σ Unit) =
    (do advance; scanUntil (· != SP) fun _ => true) := by
  rw [← checkEof_loopUntil]
  rfl

theorem skipSpaces_steady : Steady (skipSpaces : Scan Byte σ Unit) := by
  rw [skipSpaces_eq]
  exact Steady.advance.bind fun _ => .scanUntil _ _

theorem requestLine_steady (b : Build) : Steady (requestLine b) := by
  refine (parseToken_steady b (.inr rfl)).bind fun method => (Steady.update _).bind fun _ => ?_
  refine skipSpaces_steady.bind fun _ => ?_
  rw [advanceToken_eq]
  refine (Steady.tokenUntil _ _).bind fun path => (Steady.update _).bind fun _ => ?_
  refine skipSpaces_steady.bind fun _ => .ite .failing ?_
  refine parseHttpVersion_steady.bind fun _ => (Steady.update _).bind fun _ => ?_
  exact lineEnd_steady.bind fun _ => (Steady.pure ()).ite .failing

theorem parseInt3_steady : Steady parseInt3 := by
  refine (parseInt_steady 100).bind fun _ => (Steady.update _).bind fun _ => ?_
  refine (parseInt_steady 10).bind fun _ => (Steady.update _).bind fun _ => ?_
  exact (parseInt_steady 1).bind fun _ => .update _

theorem trimMessage_steady : Steady trimMessage :=
  Steady.store.bind fun _ => .ite (.pure ()) (.ite (.update _) .failing)

theorem statusLine_steady (b : Build) : Steady (statusLine b) := by
  refine parseHttpVersion_steady.bind fun _ => (Steady.update _).bind fun _ => ?_
  refine Steady.peek.bind fun c => .ite .failing ?_
  refine skipSpaces_steady.bind fun _ => (Steady.atLeast 4).bind fun _ => ?_
  refine parseInt3_steady.bind fun _ => (getTokenToEol_steady b).bind fun _ => ?_
  exact (Steady.update _).bind fun _ => trimMessage_steady

/-! ## Reads inside the buffer -/

theorem expectCharNoCheck_within (c : Byte) {n : Nat} :
    Within (n + 1) (fun _ => n) (expectCharNoCheck c : Scan Byte σ Unit) :=
  Within.peek.bind fun _ => Within.advance.bind fun _ =>
    (Within.pure (Nat.le_refl n)).ite .failing

theorem expectChar_within (c : Byte) {n : Nat} :
    Within n (fun _ => 0) (expectChar c : Scan Byte σ Unit) :=
  Within.checkEof.bind fun _ => expectCharNoCheck_within c

/-- What is not a line end is still there. -/
theorem lineEnd_within :
    Within 1 (fun ended => if ended then 0 else 1) (lineEnd : Scan Byte σ Bool) := by
  refine Within.peek.bind fun c => .ite ?_ (.ite ?_ (.pure (Nat.le_refl 1)))
  · exact Within.advance.bind fun _ => (expectChar_within LF).bind fun _ => .pure (Nat.le_refl 0)
  · exact Within.advance.bind fun _ => .pure (Nat.le_refl 0)

theorem getTokenToEol_within (b : Build) {n : Nat} :
    Within n (fun _ => 0) (getTokenToEol b : Scan Byte σ (List Byte)) := by
  rw [getTokenToEol_eq]
  refine (Within.tokenUntil _ _).bind fun text => lineEnd_within.bind fun ended => ?_
  exact .ite (.pure (Nat.zero_le _)) .failing

theorem parseToken_within (b : Build) {c : Byte} (h : c = ch ':' ∨ c = SP) {n : Nat} :
    Within n (fun _ => 1) (parseToken b c : Scan Byte σ (List Byte)) := by
  rw [parseToken_eq b h]
  exact Within.tokenUntil _ _

theorem headerName_within (b : Build) : Within 1 (fun _ => 1) (headerName b) := by
  refine Within.store.bind fun headers => Within.peek.bind fun c => .ite (.pure (Nat.le_refl 1)) ?_
  refine (parseToken_within b (.inl rfl)).bind fun name => .ite .failing ?_
  exact Within.advance.bind fun _ => (Within.scanUntil _ _).bind fun _ => .pure (Nat.le_refl 1)

theorem headerLine_within (b : Build) : Within 1 (fun _ => 0) (headerLine b) :=
  (headerName_within b).bind fun _ => (getTokenToEol_within b).bind fun _ => .update _

theorem endOr_within {next : Scan Byte σ Unit} (h : Within 1 (fun _ => 0) next) {n : Nat} :
    Within n (fun _ => 0) (endOr next) := by
  refine Within.checkEof.bind fun _ => lineEnd_within.bind fun ended => ?_
  cases ended with
  | true => exact .pure (Nat.le_refl 0)
  | false => exact h

theorem parseHeaders_within (b : Build) (left : Nat) :
    ∀ {n : Nat}, Within n (fun _ => 0) (parseHeaders b left) := by
  induction left with
  | zero => exact endOr_within .failing
  | succ left ih => exact endOr_within ((headerLine_within b).bind fun _ => ih)

theorem parseInt_within (mul : Int) {n : Nat} :
    Within (n + 1) (fun _ => n) (parseInt mul : Scan Byte σ Int) :=
  Within.peek.bind fun _ => Within.advance.bind fun _ =>
    Within.failing.ite (.pure (Nat.le_refl n))

/-- The nine bytes that are asked for are one more than the version has. -/
theorem parseHttpVersion_within {n : Nat} :
    Within n (fun _ => 1) (parseHttpVersion : Scan Byte σ Int) := by
  refine (Within.atLeast 9).bind fun _ => ?_
  iterate 7 refine (expectCharNoCheck_within _).bind fun _ => ?_
  exact parseInt_within 1

theorem skipSpaces_within : Within 1 (fun _ => 1) (skipSpaces : Scan Byte σ Unit) := by
  rw [skipSpaces_eq]
  exact Within.advance.bind fun _ => .scanUntil _ _

theorem requestLine_within (b : Build) {n : Nat} : Within n (fun _ => 0) (requestLine b) := by
  refine (parseToken_within b (.inr rfl)).bind fun method => (Within.update _).bind fun _ => ?_
  refine skipSpaces_within.bind fun _ => ?_
  rw [advanceToken_eq]
  refine (Within.tokenUntil _ _).bind fun path => (Within.update _).bind fun _ => ?_
  refine skipSpaces_within.bind fun _ => .ite .failing ?_
  refine parseHttpVersion_within.bind fun _ => (Within.update _).bind fun _ => ?_
  exact lineEnd_within.bind fun _ => .ite (.pure (Nat.zero_le _)) .failing

theorem parseInt3_within : Within 4 (fun _ => 1) parseInt3 := by
  refine (parseInt_within 100).bind fun _ => (Within.update _).bind fun _ => ?_
  refine (parseInt_within 10).bind fun _ => (Within.update _).bind fun _ => ?_
  exact (parseInt_within 1).bind fun _ => .update _

theorem trimMessage_within : Within 0 (fun _ => 0) trimMessage :=
  Within.store.bind fun _ => .ite (.pure (Nat.le_refl 0)) (.ite (.update _) .failing)

theorem statusLine_within (b : Build) : Within 0 (fun _ => 0) (statusLine b) := by
  refine parseHttpVersion_within.bind fun _ => (Within.update _).bind fun _ => ?_
  refine Within.peek.bind fun c => .ite .failing ?_
  refine skipSpaces_within.bind fun _ => (Within.atLeast 4).bind fun _ => ?_
  refine parseInt3_within.bind fun _ => (getTokenToEol_within b).bind fun _ => ?_
  exact (Within.update _).bind fun _ => trimMessage_within

/-! ## Whole messages -/

/-- What the calls need of their parsers. -/
structure Streams (p : Scan Byte σ Unit) : Prop where
  steady : Steady p
  within : Within 0 (fun _ => 0) p

theorem parseRequest_streams (b : Build) (maxHeaders : Nat) :
    Streams (parseRequest b maxHeaders) := by
  constructor
  · exact Steady.checkEof.bind fun _ => lineEnd_steady.bind fun _ =>
      (requestLine_steady b).bind fun _ => (parseHeaders_steady b maxHeaders).zoom
  · exact Within.checkEof.bind fun _ => lineEnd_within.bind fun _ =>
      (requestLine_within b).bind fun _ => (parseHeaders_within b maxHeaders).zoom

theorem parseResponse_streams (b : Build) (maxHeaders : Nat) :
    Streams (parseResponse b maxHeaders) :=
  ⟨(statusLine_steady b).bind fun _ => (parseHeaders_steady b maxHeaders).zoom,
    (statusLine_within b).bind fun _ => (parseHeaders_within b maxHeaders).zoom⟩

theorem parseHeaders_streams (b : Build) (maxHeaders : Nat) :
    Streams (parseHeaders b maxHeaders) :=
  ⟨parseHeaders_steady b maxHeaders, parseHeaders_within b maxHeaders⟩

end PingServer.Pico
