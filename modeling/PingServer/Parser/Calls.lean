import PingServer.Parser.Steady
import PingServer.Protocol.Sending

/-!
# The calls on parts of a message

What a call has found in a buffer stays when more arrives, so that a message
that is used up to its last byte is not found before. And no build reads outside
the buffer, unless `last_len` sends `is_complete` there.
-/

namespace PingServer.Pico

open ByteMem Scanner

variable {σ : Type}

/-! ## Reads inside the buffer -/

theorem isCompleteLoop_inside (s : σ) (buf : List Byte) :
    ∀ retCnt, isCompleteLoop retCnt s buf ≠ .overrun := by
  induction buf using List.twoStepInduction with
  | nil =>
    rintro retCnt ⟨⟩
  | singleton c =>
    intro retCnt
    simp only [isCompleteLoop]
    grind
  | cons_cons c d buf ih ih' =>
    intro retCnt
    rw [isCompleteLoop]
    grind

/-- `last_len` is small, or it sends `is_complete` to a place in the buffer or to bytes that
are known to lie in front of it. -/
def ResumesInside (before buf : List Byte) (lastLen : Nat) : Prop :=
  lastLen < 3 ∨ lastLen - 3 ≤ buf.length ∨ 2 ^ 64 - (lastLen - 3) ≤ before.length

theorem resumeAt_isSome {before buf : List Byte} {lastLen : Nat} :
    (resumeAt before buf lastLen).isSome = true ↔ ResumesInside before buf lastLen := by
  unfold resumeAt ResumesInside
  split_ifs <;> simp_all

theorem isComplete_inside {before buf : List Byte} {lastLen : Nat} {s : σ} :
    isComplete before lastLen s buf ≠ .overrun ↔ ResumesInside before buf lastLen := by
  rw [← resumeAt_isSome]
  unfold isComplete
  cases resumeAt before buf lastLen with
  | none => simp
  | some start => simpa using isCompleteLoop_inside s start 0

theorem Result.ofOutcome_isSome (buf : List Byte) (o : Outcome Byte σ Unit) :
    (Result.ofOutcome buf o).isSome = true ↔ o ≠ .overrun := by
  cases o <;> simp [Result.ofOutcome]

theorem call_zero (p : Scan Byte σ Unit) (start : σ) (before buf : List Byte) :
    call p start before buf 0 = Result.ofOutcome buf (p start buf) := rfl

/-- The length of what was read, as an `int`. -/
theorem int32_read {text : List Byte} (rest : List Byte) (hlen : text.length < 2 ^ 31) :
    int32 (((text ++ rest).length : Int) - rest.length) = text.length := by
  rw [List.length_append]
  have hdiff : ((text.length + rest.length : Nat) : Int) - rest.length = text.length := by omega
  rw [hdiff, int32_eq (by omega) (by omega)]

/-! ## What a call finds -/

namespace Streams

variable {p : Scan Byte σ Unit} {start out : σ} {before buf text : List Byte} {lastLen : Nat}
  {r : Result σ}

theorem inside (hp : Streams p) : p start buf ≠ .overrun := hp.within.inside (Nat.zero_le _)

theorem call_isSome (hp : Streams p) : (call p start before buf lastLen).isSome = true ↔
    ResumesInside before buf lastLen := by
  rw [call, Result.ofOutcome_isSome, guarded]
  split
  · rename_i hzero
    exact iff_of_true hp.inside (.inl (by omega))
  · have hinside : p start buf ≠ .overrun := hp.inside
    rw [← isComplete_inside (s := start)]
    split <;> simp_all

/-- Neither a message nor an error is found differently when more has arrived. -/
theorem call_stays (hp : Streams p) (h : call p start before buf 0 = some r) (hret : r.ret ≠ -2)
    (ext : List Byte) : call p start before (buf ++ ext) 0 = some r := by
  rw [call_zero] at h ⊢
  cases hrun : p start buf with
  | done a out rest =>
    rw [hrun] at h
    rw [hp.steady.done hrun ext, ← h]
    simp only [Result.ofOutcome, List.length_append]
    rw [show ((buf.length + ext.length : Nat) : Int) - ((rest.length + ext.length : Nat) : Int) =
      (buf.length : Int) - rest.length by omega]
  | more out =>
    rw [hrun] at h
    cases h
    exact absurd rfl hret
  | fail out =>
    rw [hrun] at h
    rw [hp.steady.fail hrun ext, ← h]
    rfl
  | overrun => exact absurd hrun hp.inside

/-- A message has been found when it has been read to its end. -/
theorem call_found (hp : Streams p) (hlen : buf.length < 2 ^ 31) :
    call p start before buf 0 = some r ∧ 0 ≤ r.ret ↔ ∃ text out rest, buf = text ++ rest ∧
      p start buf = .done () out rest ∧ r = ⟨text.length, out⟩ := by
  rw [call_zero]
  constructor
  · rintro ⟨h, hret⟩
    cases hrun : p start buf with
    | done a out rest =>
      rw [hrun] at h
      obtain ⟨text, rfl⟩ := hp.steady.suffix hrun
      have hshort : text.length < 2 ^ 31 := by
        rw [List.length_append] at hlen
        omega
      simp only [Result.ofOutcome, int32_read rest hshort, Option.some.injEq] at h
      exact ⟨text, out, rest, rfl, rfl, h.symm⟩
    | more out | fail out =>
      rw [hrun] at h
      cases h
      cases hret
    | overrun => exact absurd hrun hp.inside
  · rintro ⟨text, out, rest, rfl, hrun, rfl⟩
    have hshort : text.length < 2 ^ 31 := by
      rw [List.length_append] at hlen
      omega
    rw [hrun]
    refine ⟨?_, Int.natCast_nonneg _⟩
    simp only [Result.ofOutcome, int32_read rest hshort]

/-- Every part of a message that ends too early asks for more. -/
theorem part_more (hp : Streams p) (hwhole : p start text = .done () out [])
    (hpre : buf <+: text) (hne : buf ≠ text) : ∃ u, p start buf = .more u :=
  (hp.steady.undecided hwhole hpre hne).resolve_left hp.inside

end Streams

/-- The parser reads the texts of `T`, with what they say, and nothing else. -/
structure Reads (p : Scan Byte σ Unit) (start : σ) (T : List Byte → σ → Prop) : Prop
    extends Streams p where
  sound : ∀ {buf rest out}, p start buf = .done () out rest → ∃ text, buf = text ++ rest ∧ T text out
  complete : ∀ {text out}, T text out → ∀ rest, p start (text ++ rest) = .done () out rest

namespace Reads

variable {p : Scan Byte σ Unit} {start out : σ} {T : List Byte → σ → Prop}
  {before buf text : List Byte} {r : Result σ}

theorem whole (hp : Reads p start T) (h : T text out) : p start text = .done () out [] := by
  have hrun := hp.complete h []
  rwa [List.append_nil] at hrun

/-- A message of `n` bytes is found just when the first `n` bytes are one. -/
theorem call_iff (hp : Reads p start T) (hlen : buf.length < 2 ^ 31) :
    call p start before buf 0 = some r ∧ 0 ≤ r.ret ↔
      ∃ text rest out, buf = text ++ rest ∧ T text out ∧ r = ⟨text.length, out⟩ := by
  rw [hp.call_found hlen]
  constructor
  · rintro ⟨text, out, rest, rfl, hrun, rfl⟩
    obtain ⟨text', hsame, htext⟩ := hp.sound hrun
    rw [List.append_cancel_right hsame]
    exact ⟨text', rest, out, rfl, htext, rfl⟩
  · rintro ⟨text, rest, out, rfl, htext, rfl⟩
    exact ⟨text, out, rest, rfl, hp.complete htext rest, rfl⟩

/-- A message is found, whatever follows it. -/
theorem call_text (hp : Reads p start T) (before rest : List Byte) (hlen : text.length < 2 ^ 31)
    (h : T text out) : call p start before (text ++ rest) 0 = some ⟨text.length, out⟩ := by
  rw [call_zero, hp.complete h rest]
  simp only [Result.ofOutcome, int32_read rest hlen]

theorem call_part (hp : Reads p start T) (before : List Byte) (h : T text out)
    (hpre : buf <+: text) (hne : buf ≠ text) : ∃ u, call p start before buf 0 = some ⟨-2, u⟩ := by
  obtain ⟨u, hmore⟩ := hp.part_more (hp.whole h) hpre hne
  exact ⟨u, by rw [call_zero, hmore]; rfl⟩

/-- A message is found from its last byte on, and not before. -/
theorem call_take (hp : Reads p start T) {whole : List Byte} (hlen : whole.length < 2 ^ 31)
    (h : call p start before whole 0 = some r) (hret : 0 ≤ r.ret) (k : Nat) :
    if (k : Int) < r.ret then ∃ u, call p start before (whole.take k) 0 = some ⟨-2, u⟩
    else call p start before (whole.take k) 0 = some r := by
  obtain ⟨text, rest, out, rfl, htext, rfl⟩ := (hp.call_iff hlen).1 ⟨h, hret⟩
  split
  · rename_i hk
    have hshort : k < text.length := Int.ofNat_lt.1 hk
    rw [List.take_append_of_le_length hshort.le]
    refine hp.call_part before htext (List.take_prefix k text) fun heq => ?_
    have hlen := congrArg List.length heq
    rw [List.length_take_of_le hshort.le] at hlen
    exact absurd hlen hshort.ne
  · rename_i hk
    have hlong : text.length ≤ k := by
      rw [Int.ofNat_lt, not_lt] at hk
      exact hk
    rw [List.take_append, List.take_of_length_le hlong]
    refine hp.call_text before _ ?_ htext
    rw [List.length_append] at hlen
    omega

end Reads

/-- No call reads outside the buffer, in either build, but where `last_len` sends
`is_complete` there. -/
theorem calls_read_inside_iff (b : Build) (maxHeaders : Nat) (before buf : List Byte)
    (lastLen : Nat) :
    ((phrParseRequest b maxHeaders before buf lastLen).isSome = true ↔
      ResumesInside before buf lastLen) ∧
    ((phrParseResponse b maxHeaders before buf lastLen).isSome = true ↔
      ResumesInside before buf lastLen) ∧
    ((phrParseHeaders b maxHeaders before buf lastLen).isSome = true ↔
      ResumesInside before buf lastLen) :=
  ⟨(parseRequest_streams b maxHeaders).call_isSome, (parseResponse_streams b maxHeaders).call_isSome,
    (parseHeaders_streams b maxHeaders).call_isSome⟩

end PingServer.Pico
