import PingServer.Protocol.Sending

/-!
# Sending a file over several calls

`connection_send_fd` is called again with the same offset until the file is sent.
`sendfile` moves that offset by what it sends, and the loop then moves it by as much
again, so the offset is right only as long as nothing has been sent.
-/

namespace PingServer

/-- How far the sending of one file has come: `*offset_ptr`, the positions of the
bytes that were moved, and what the last call returned. -/
structure FileTransfer where
  offset : Nat
  sent : List Nat
  ret : Option Int

def FileTransfer.start (offset : Nat) : FileTransfer := ⟨offset, [], none⟩

/-- The positions in some ranges of a file. -/
def positions (moved : List (Nat × Nat)) : List Nat :=
  moved.flatMap fun r => List.range' r.1 r.2

/-- One more call of `connection_send_fd` for a file of `len` bytes. -/
def FileTransfer.call (len : Nat) (t : FileTransfer) (os : List SendfileOutcome) : FileTransfer :=
  let s := connectionSendFd len os t.offset len
  ⟨s.offset, t.sent ++ positions s.moved, some s.ret⟩

/-- The transfer behind some calls from `offset` on, each with its outcomes. -/
def fileCalls (len offset : Nat) (calls : List (List SendfileOutcome)) : FileTransfer :=
  calls.foldl (FileTransfer.call len) (.start offset)

/-- From `o` on, the bytes of the file were moved one after the other, and the offset
has kept up with them. -/
structure InStep (len o : Nat) (t : FileTransfer) : Prop where
  order : t.sent = List.range' o t.sent.length
  offset : t.offset = o + t.sent.length
  done : t.ret = some connSendDone → t.offset = len

/-- The first `sendfile` that is not interrupted moves something. -/
def movesSome : List SendfileOutcome → Bool
  | .interrupted :: os => movesSome os
  | .moved _ :: _ => true
  | _ => false

/-! ## One call -/

@[simp] theorem positions_append (moved moved' : List (Nat × Nat)) :
    positions (moved ++ moved') = positions moved ++ positions moved' := List.flatMap_append

@[simp] theorem positions_single (a n : Nat) : positions [(a, n)] = List.range' a n :=
  List.append_nil _

theorem sendfileLoop_finished {fileSize offset : Nat} {remain : Int} {moved : List (Nat × Nat)}
    (hnone : remain ≤ 0) (os : List SendfileOutcome) :
    sendfileLoop fileSize os offset remain moved = ⟨connSendDone, offset, os, moved⟩ := by
  cases os with
  | nil => rw [sendfileLoop, if_pos hnone]
  | cons o os => cases o <;> rw [sendfileLoop, if_pos hnone]

/-- The loop leaves the offset two further for each byte it moves. -/
theorem sendfileLoop_offset (fileSize : Nat) (os : List SendfileOutcome) :
    ∀ (offset : Nat) (remain : Int) (moved : List (Nat × Nat)),
      (sendfileLoop fileSize os offset remain moved).offset + 2 * (positions moved).length =
        offset + 2 * (positions (sendfileLoop fileSize os offset remain moved).moved).length := by
  induction os with
  | nil =>
    intro offset remain moved
    rw [sendfileLoop]
    split <;> rfl
  | cons o os ih =>
    intro offset remain moved
    by_cases hnone : remain ≤ 0
    · rw [sendfileLoop_finished hnone]
    · cases o with
      | moved k =>
        rw [sendfileLoop, if_neg hnone]
        dsimp only
        split
        · rfl
        · have hrest := ih (offset + min (k + 1) (min remain.toNat (fileSize - offset)) +
            min (k + 1) (min remain.toNat (fileSize - offset)))
            (remain - (min (k + 1) (min remain.toNat (fileSize - offset)) : Nat))
            (moved ++ [(offset, min (k + 1) (min remain.toNat (fileSize - offset)))])
          rw [positions_append, List.length_append, positions_single, List.length_range'] at hrest
          omega
      | interrupted =>
        rw [sendfileLoop, if_neg hnone]
        exact ih offset remain moved
      | wouldBlock | failed => rw [sendfileLoop, if_neg hnone]

/-- What the loop has moved stays moved. -/
theorem sendfileLoop_keeps (fileSize : Nat) (os : List SendfileOutcome) :
    ∀ (offset : Nat) (remain : Int) (moved : List (Nat × Nat)),
      moved <+: (sendfileLoop fileSize os offset remain moved).moved := by
  induction os with
  | nil =>
    intro offset remain moved
    rw [sendfileLoop]
    split <;> exact List.prefix_refl moved
  | cons o os ih =>
    intro offset remain moved
    by_cases hnone : remain ≤ 0
    · simp only [sendfileLoop_finished hnone]
      exact List.prefix_refl moved
    · cases o with
      | moved k =>
        rw [sendfileLoop, if_neg hnone]
        dsimp only
        split
        · exact List.prefix_refl moved
        · exact (List.prefix_append moved _).trans (ih _ _ _)
      | interrupted =>
        rw [sendfileLoop, if_neg hnone]
        exact ih offset remain moved
      | wouldBlock | failed =>
        simp only [sendfileLoop, if_neg hnone]
        exact List.prefix_refl moved

section

variable {len o : Nat}

/-- While something is left, a loop that moves nothing leaves the offset alone and does
not report the end. -/
theorem sendfileLoop_still {remain : Int} (hleft : 0 < remain) (os : List SendfileOutcome) :
    movesSome os = false → ∃ ret rest, ret ≠ connSendDone ∧
      sendfileLoop len os o remain [] = ⟨ret, o, rest, []⟩ := by
  have hsome : ¬ remain ≤ 0 := by omega
  induction os with
  | nil =>
    intro _
    exact ⟨connSendPartial, [], by decide, by rw [sendfileLoop, if_neg hsome]⟩
  | cons out os ih =>
    intro hstill
    cases out with
    | moved k => cases hstill
    | interrupted =>
      rw [sendfileLoop, if_neg hsome]
      exact ih hstill
    | wouldBlock => exact ⟨connSendPartial, os, by decide, by rw [sendfileLoop, if_neg hsome]⟩
    | failed => exact ⟨connSendError, os, by decide, by rw [sendfileLoop, if_neg hsome]⟩

/-- In front of the end of the file, a loop that moves something moves a byte. -/
theorem sendfileLoop_moves {remain : Int} (hleft : 0 < remain) (ho : o < len)
    (os : List SendfileOutcome) : movesSome os = true →
    0 < (positions (sendfileLoop len os o remain []).moved).length := by
  have hsome : ¬ remain ≤ 0 := by omega
  induction os with
  | nil =>
    intro hmoves
    cases hmoves
  | cons out os ih =>
    intro hmoves
    cases out with
    | moved k =>
      have hn : ¬ min (k + 1) (min remain.toNat (len - o)) = 0 := by omega
      rw [sendfileLoop, if_neg hsome]
      simp only [if_neg hn, List.nil_append]
      have hkept := sendfileLoop_keeps len os
        (o + min (k + 1) (min remain.toNat (len - o)) + min (k + 1) (min remain.toNat (len - o)))
        (remain - (min (k + 1) (min remain.toNat (len - o)) : Nat))
        [(o, min (k + 1) (min remain.toNat (len - o)))]
      obtain ⟨rest, hrest⟩ := hkept
      rw [← hrest, positions_append, List.length_append, positions_single, List.length_range']
      omega
    | interrupted =>
      rw [sendfileLoop, if_neg hsome]
      exact ih hmoves
    | wouldBlock | failed => cases hmoves

/-! ## All calls -/

theorem FileTransfer.call_offset {t : FileTransfer} (h : t.offset = o + 2 * t.sent.length)
    (os : List SendfileOutcome) :
    (t.call len os).offset = o + 2 * (t.call len os).sent.length := by
  have hloop := sendfileLoop_offset len os t.offset (int32 ((len : Int) - t.offset)) []
  simp only [call, connectionSendFd, List.length_append]
  simp only [positions, List.flatMap_nil, List.length_nil] at hloop ⊢
  omega

/-- A transfer that has sent nothing yet. -/
structure Unsent (o : Nat) (t : FileTransfer) : Prop where
  offset : t.offset = o
  sent : t.sent = []

theorem Unsent.inStep {t : FileTransfer} (h : Unsent o t)
    (hdone : t.ret = some connSendDone → o = len) : InStep len o t := by
  constructor
  · rw [h.sent]
    rfl
  · rw [h.sent]
    exact h.offset
  · intro hret
    exact h.offset.trans (hdone hret)

theorem InStep.unsent {t : FileTransfer} (h : InStep len o t)
    (htwice : t.offset = o + 2 * t.sent.length) : Unsent o t := by
  have hnone : t.sent.length = 0 := by
    have hone := h.offset
    omega
  exact ⟨by omega, List.eq_nil_of_length_eq_zero hnone⟩

/-- At the end of the file a call does nothing. -/
theorem Unsent.call_end {t : FileTransfer} (h : Unsent len t) (os : List SendfileOutcome) :
    Unsent len (t.call len os) := by
  have hnone : int32 ((len : Int) - len) ≤ 0 := by
    rw [Int.sub_self]
    decide
  have hcall : connectionSendFd len os len len = ⟨connSendDone, len, os, []⟩ :=
    sendfileLoop_finished hnone os
  constructor
  · rw [FileTransfer.call, h.offset, hcall]
  · rw [FileTransfer.call, h.offset, hcall, h.sent]
    rfl

section

variable (hlen : len < 2 ^ 30) (ho : o < len)
include hlen ho

theorem int32_left : 0 < int32 ((len : Int) - o) := by
  rw [int32_eq (by omega) (by omega)]
  omega

theorem Unsent.call_still {t : FileTransfer} (h : Unsent o t) {os : List SendfileOutcome}
    (hstill : movesSome os = false) :
    Unsent o (t.call len os) ∧ (t.call len os).ret ≠ some connSendDone := by
  obtain ⟨ret, rest, hret, hloop⟩ := sendfileLoop_still (int32_left hlen ho) os hstill
  have hcall : connectionSendFd len os o len = ⟨ret, o, rest, []⟩ := hloop
  rw [FileTransfer.call, h.offset, hcall, h.sent]
  refine ⟨⟨rfl, rfl⟩, ?_⟩
  intro hdone
  exact hret (Option.some.inj hdone)

theorem Unsent.call_moves {t : FileTransfer} (h : Unsent o t) {os : List SendfileOutcome}
    (hmoves : movesSome os = true) : (t.call len os).sent ≠ [] := by
  intro hnone
  have hpos := sendfileLoop_moves (int32_left hlen ho) ho os hmoves
  rw [FileTransfer.call, h.offset, h.sent, List.nil_append] at hnone
  unfold connectionSendFd at hnone
  dsimp only at hnone
  rw [hnone] at hpos
  exact Nat.lt_irrefl 0 hpos

/-- In front of the end, a transfer that has sent nothing keeps in step as long as no
call moves anything. -/
theorem Unsent.steps {t : FileTransfer} (h : Unsent o t) (hret : t.ret ≠ some connSendDone)
    (calls : List (List SendfileOutcome)) :
    (∀ k, InStep len o ((calls.take k).foldl (FileTransfer.call len) t)) ↔
      ∀ os ∈ calls, movesSome os = false := by
  induction calls generalizing t with
  | nil =>
    constructor
    · intro _ os hos
      cases hos
    · intro _ k
      rw [List.take_nil]
      exact h.inStep fun hdone => absurd hdone hret
  | cons os calls ih =>
    constructor
    · intro hsteps
      have htwice : (t.call len os).offset = o + 2 * (t.call len os).sent.length :=
        FileTransfer.call_offset (by rw [h.sent]; exact h.offset) os
      have hunsent : Unsent o (t.call len os) := (hsteps 1).unsent htwice
      cases hmoves : movesSome os with
      | true => exact absurd hunsent.sent (h.call_moves hlen ho hmoves)
      | false =>
        have hnext := (ih hunsent (h.call_still hlen ho hmoves).2).1 fun k => hsteps (k + 1)
        exact List.forall_mem_cons.2 ⟨hmoves, hnext⟩
    · intro hstill k
      obtain ⟨hhead, hrest⟩ := List.forall_mem_cons.1 hstill
      obtain ⟨hunsent, hnext⟩ := h.call_still hlen ho hhead
      cases k with
      | zero => exact h.inStep fun hdone => absurd hdone hret
      | succ k => exact (ih hunsent hnext).2 hrest k

end

theorem Unsent.steps_end {t : FileTransfer} (h : Unsent len t)
    (calls : List (List SendfileOutcome)) : Unsent len (calls.foldl (FileTransfer.call len) t) := by
  induction calls generalizing t with
  | nil => exact h
  | cons os calls ih => exact ih (h.call_end os)

/-- A file is sent without gap or repetition, with the offset in step behind every call,
exactly if it is sent already or no call moves anything. -/
theorem file_in_step_iff (hlen : len < 2 ^ 30) (ho : o ≤ len)
    (calls : List (List SendfileOutcome)) :
    (∀ k, InStep len o (fileCalls len o (calls.take k))) ↔
      o = len ∨ ∀ os ∈ calls, movesSome os = false := by
  have hstart : Unsent o (.start o) := ⟨rfl, rfl⟩
  obtain rfl | hlt := Nat.eq_or_lt_of_le ho
  · constructor
    · intro _
      exact .inl rfl
    · intro _ k
      exact (hstart.steps_end (calls.take k)).inStep fun _ => rfl
  · have hunfinished : (FileTransfer.start o).ret ≠ some connSendDone := by
      intro hdone
      cases hdone
    have hsteps := hstart.steps hlen hlt hunfinished calls
    constructor
    · intro hall
      exact .inr (hsteps.1 hall)
    · intro hstill
      exact hsteps.2 (hstill.resolve_left (Nat.ne_of_lt hlt))

end

/-- A call that would block at once, for the rest of a file. -/
theorem file_in_step_blocked : (0 : Nat) ≤ 4 ∧
    ∀ k, InStep 4 0 (fileCalls 4 0 (([[.interrupted, .wouldBlock]] : List _).take k)) :=
  ⟨by decide, (file_in_step_iff (by decide) (by decide) _).2 (.inr (by decide))⟩

/-- Of four bytes the first is moved, and then what is left: the second is skipped, the
offset is behind the end of the file, and the call reports that it is done. -/
theorem file_byte_skipped : ¬ ∀ (len o : Nat) (calls : List (List SendfileOutcome)),
    len < 2 ^ 30 → o ≤ len → ∀ k, InStep len o (fileCalls len o (calls.take k)) := by
  intro hall
  have hend : (fileCalls 4 0 [[.moved 0, .moved 9, .moved 9]]).sent = [0, 2, 3] ∧
      (fileCalls 4 0 [[.moved 0, .moved 9, .moved 9]]).offset = 6 ∧
      (fileCalls 4 0 [[.moved 0, .moved 9, .moved 9]]).ret = some connSendDone := by decide
  have hstep := hall 4 0 [[.moved 0, .moved 9, .moved 9]] (by decide) (by decide) 1
  have horder : [0, 2, 3] = List.range' 0 3 := by
    have hsent := hstep.order
    rw [show ([[.moved 0, .moved 9, .moved 9]] : List (List SendfileOutcome)).take 1 =
      [[.moved 0, .moved 9, .moved 9]] from rfl, hend.1] at hsent
    exact hsent
  exact absurd horder (by decide)

end PingServer
