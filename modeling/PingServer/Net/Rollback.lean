import PingServer.Net.BufferLayout

/-!
# A failed creation

Where the second buffer of a connection finds no room, `connection_create` gives the first
one back. What that leaves is the arena as it was, but for `now` and free blocks.
-/

namespace PingServer

open ByteMem Allocation Machine

/-- What a failed creation may not touch. -/
structure Untouched (live : List Allocation) (a a' : MemoryArena) : Prop where
  bitmap : a'.bitmap = a.bitmap
  refCount : a'.refCount = a.refCount
  refLen : a'.refLen = a.refLen
  cap : a'.cap = a.cap
  bytes : ∀ x ∈ live, ∀ addr, x.lo ≤ addr → addr < x.hi → a'.start addr = a.start addr
  free : ∀ addr, a'.start addr ≠ a.start addr →
    addr / pingArenaBlockSize < a.cap ∧ bitGet a.bitmap (addr / pingArenaBlockSize) = 0

section

variable {a : MemoryArena} {live : List Allocation} {s n : Nat}

/-- The counts of free blocks are zero. -/
theorem ArenaInv.refCount_free (h : ArenaInv a live) {i : Nat} (hfree : bitAt a.bitmap i = false) :
    a.refCount i = 0 := by
  obtain ⟨hcov, hshare⟩ := h.unused hfree
  have hcount := h.smallCount i hcov
  rw [hshare] at hcount
  exact BitVec.eq_of_toNat_eq hcount

theorem fill_fill {α : Type} (f : Nat → α) {start n : Nat} (v w : α)
    (h : ∀ i, start ≤ i → i < start + n → f i = w) : fill (fill f start n v) start n w = f := by
  funext i
  by_cases hi : start ≤ i ∧ i < start + n
  · rw [fill_inside _ _ hi, h i hi.1 hi.2]
  · rw [fill_outside _ _ (by omega), fill_outside _ _ (by omega)]

/-- Recycling a run that has just been handed out takes back all of it, whatever its holder
has written behind the header word. -/
theorem recycle_takeBlocks (h : ArenaInv a live) (hn : 1 ≤ n) (hcap : s + n ≤ a.cap)
    (hfree : ∀ j, s ≤ j → j < s + n → bitAt a.bitmap j = false) {mem : Memory}
    (hmem : ∀ addr, addr < (large s n).ptr → mem addr = (takeBlocks a s n).start addr) :
    arenaRecycle { takeBlocks a s n with start := mem } (large s n).ptr =
      { a with now := (s + n) % a.cap, start := mem } := by
  have hblock : (large s n).ptr - sizeofWord = s * pingArenaBlockSize := by
    simp only [ptr, sizeofWord]
    omega
  have hidx : s * pingArenaBlockSize / pingArenaBlockSize = s := by
    simp only [pingArenaBlockSize]
    omega
  have hhead : loadLE mem (s * pingArenaBlockSize) sizeofWord = n := by
    have hword : loadLE mem (s * pingArenaBlockSize) sizeofWord =
        loadLE (takeBlocks a s n).start (s * pingArenaBlockSize) sizeofWord :=
      loadLE_congr _ _ fun addr _ hlt => hmem addr hlt
    rw [hword]
    exact (h.takeBlocks hn hcap hfree).header s n List.mem_cons_self
  have hbits : bitmapUnsetRange (takeBlocks a s n).bitmap s (s + n - 1) = a.bitmap :=
    bitmapUnsetRange_bitmapSetRange (by omega) fun i hlo hhi => hfree i hlo (by omega)
  have hcounts : fill (takeBlocks a s n).refCount s n 0 = a.refCount :=
    fill_fill _ _ _ fun i hlo hhi => h.refCount_free (hfree i hlo hhi)
  simp only [arenaRecycle, hblock, hidx, hhead, hbits, hcounts]
  rfl

/-- A byte of a live allocation lies in a block that is not free. -/
theorem ArenaInv.byte_in_use (h : ArenaInv a live) {x : Allocation} (hx : x ∈ live) {addr : Nat}
    (hlo : x.lo ≤ addr) (hhi : addr < x.hi) : bitGet a.bitmap (addr / pingArenaBlockSize) = 1 := by
  have hin := h.inside x hx
  have hused : x.covers (addr / pingArenaBlockSize) = true ∨
      x.shares (addr / pingArenaBlockSize) = true := by
    cases x with
    | large r m =>
      left
      rw [covers_large]
      simp only [lo, hi, pingArenaBlockSize] at hlo hhi ⊢
      omega
    | small p m =>
      right
      rw [shares_small]
      simp only [Inside, lo, hi, pingArenaBlockSize] at hin hlo hhi ⊢
      omega
  have hbit := h.bit (addr / pingArenaBlockSize)
  rw [bitGet_eq, hbit]
  rcases (ArenaInv.in_use_iff _).1 ⟨x, hx, hused⟩ with hcov | hshare
  · rw [hcov]
    rfl
  · simp [hshare]

/-- Only free blocks have new bytes. -/
theorem ArenaInv.untouched (h : ArenaInv a live) {mem : Memory} (now : Nat)
    (hmem : ∀ addr, mem addr ≠ a.start addr →
      addr / pingArenaBlockSize < a.cap ∧ bitGet a.bitmap (addr / pingArenaBlockSize) = 0) :
    Untouched live a { a with now := now, start := mem } := by
  refine ⟨rfl, rfl, rfl, rfl, fun x hx addr hlo hhi => ?_, hmem⟩
  by_contra hdiffer
  have hfree := (hmem addr hdiffer).2
  rw [h.byte_in_use hx hlo hhi] at hfree
  cases hfree

/-- `connection_create` gives back what it took. -/
theorem create_untouched (h : ArenaInv a live) {conn conn' : Connection} {fd : Int}
    {connId now : Nat} {a' : MemoryArena}
    (hcreate : connectionCreate conn fd a connId now = (a', conn', errorMemFull)) :
    Untouched live a a' := by
  unfold connectionCreate at hcreate
  split at hcreate
  · cases hcreate
    exact h.untouched a.now fun addr hdiffer => absurd rfl hdiffer
  · rename_i a₁ p readSize hfirst
    obtain ⟨r, rfl, hp, -, hcap, hfree⟩ := arenaAllocBlock_some hfirst
    simp only at hcreate
    split at hcreate
    · cases hcreate
      have hptr : p = (large r connectionBufferBlockSize).ptr := hp
      rw [hptr]
      have hmem : ∀ addr, addr < (large r connectionBufferBlockSize).ptr →
          setBufCap (takeBlocks a r connectionBufferBlockSize).start
              (large r connectionBufferBlockSize).ptr readSize addr =
            (takeBlocks a r connectionBufferBlockSize).start addr :=
        fun addr hlt => setBufCap_other _ _ _ _ (.inl hlt)
      rw [recycle_takeBlocks h (by decide) hcap hfree hmem]
      apply h.untouched
      intro addr hdiffer
      -- the header word and the capacity are all that was written
      have hwritten : r * pingArenaBlockSize ≤ addr ∧ addr < r * pingArenaBlockSize +
          sizeofWord + sizeofBuffer := by
        by_contra hout
        apply hdiffer
        rw [setBufCap_other _ _ _ _ (by simp only [ptr]; omega)]
        exact storeLE_other _ _ _ _ _ (by omega)
      have hblock : addr / pingArenaBlockSize = r := by
        simp only [pingArenaBlockSize, sizeofWord, sizeofBuffer] at hwritten ⊢
        omega
      have hthree : r < r + connectionBufferBlockSize := Nat.lt_add_of_pos_right (by decide)
      rw [hblock, bitGet_eq_zero_iff]
      exact ⟨by omega, hfree r (Nat.le_refl r) hthree⟩
    · cases hcreate

end

/-- In every arena that a run reaches, a creation that reports `ERROR_MEM_FULL` leaves no
trace. -/
theorem failed_create_untouched {size : Nat} {mem : Memory}
    {fits : arenaSize size * pingArenaBlockSize < 2 ^ 64} {s : ArenaState}
    (hreach : Reaches (graph arenaStep) always (arenaStart size mem fits) s)
    {conn conn' : Connection} {fd : Int} {connId now : Nat} {a' : MemoryArena}
    (hcreate : connectionCreate conn fd s.arena connId now = (a', conn', errorMemFull)) :
    Untouched s.live s.arena a' :=
  create_untouched (arenaRun_inv hreach) hcreate

/-- A small object and a run leave four blocks, which are enough for the first buffer only. -/
theorem failed_create_second : ∃ s,
    run arenaStep (arenaStart 6 (fun _ => 0) (by decide)) [.allocRef 100, .allocBlock 1] = some s ∧
      (arenaAllocBlock s.arena connectionBufferBlockSize).isSome = true ∧
      Untouched s.live s.arena (connectionCreate .blank 7 s.arena 0 0).1 := by
  have hrun : (run arenaStep (arenaStart 6 (fun _ => 0) (by decide))
      [.allocRef 100, .allocBlock 1]).any (fun s => decide (
        (arenaAllocBlock s.arena connectionBufferBlockSize).isSome = true ∧
        (connectionCreate .blank 7 s.arena 0 0).2.2 = errorMemFull)) = true := by
    decide +kernel
  obtain ⟨s, hs, hfacts⟩ := (Option.any_eq_true _ _).1 hrun
  obtain ⟨hfirst, hfull⟩ := of_decide_eq_true hfacts
  refine ⟨s, hs, hfirst, ?_⟩
  apply @failed_create_untouched 6 _ (by decide) s (reaches_of_run (allowedAlong_always _ _ _) hs)
    .blank (connectionCreate .blank 7 s.arena 0 0).2.1 7 0 0
  rw [← hfull]

end PingServer
