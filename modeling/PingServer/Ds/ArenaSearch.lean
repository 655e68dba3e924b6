import PingServer.Ds.ArenaSafety

/-!
# When block allocation fails

`arena_alloc_block` looks at every block once, from `now` on, and starts a new
run at the physical end. A free run that begins before `now` and ends after it is
therefore seen in two pieces, and the search finds the others only.
-/

namespace PingServer

open ByteMem Allocation Machine

/-- Blocks `i` to `i + n - 1` lie in the arena and are free. -/
def FreeRun (a : MemoryArena) (i n : Nat) : Prop :=
  i + n ≤ a.cap ∧ ∀ j, i ≤ j → j < i + n → bitGet a.bitmap j = 0

/-- The search starts inside the run. -/
def Straddles (now i n : Nat) : Prop := i < now ∧ now < i + n

/-- The block the search looks at in turn `k`. -/
theorem turn_block {now cap k : Nat} (hnow : now < cap) (hk : k < cap) :
    (now + k) % cap = if now + k < cap then now + k else now + k - cap := by
  split
  · exact Nat.mod_eq_of_lt ‹_›
  · rw [Nat.mod_eq_sub_mod (by omega), Nat.mod_eq_of_lt (by omega)]

/-- The run that the search finds ends with the block of some turn `k`, and its
blocks are those of the turns before. -/
theorem findBlocks_turn (a : MemoryArena) {n : Nat} (fuel : Nat) :
    ∀ {i c start s : Nat}, c ≤ i → (c = 0 ∨ start + c = (a.now + i) % a.cap) →
      findBlocks a n fuel i c start = some s →
      ∃ k, k < i + fuel ∧ n ≤ k + 1 ∧ s + n = (a.now + k) % a.cap + 1 := by
  induction fuel with
  | zero =>
    intro i c start s _ _ h
    cases h
  | succ fuel ih =>
    intro i c start s hc hrun h
    simp only [findBlocks] at h
    split at h
    · generalize hb : (if c = 0 then (a.now + i) % a.cap else start) = b at h
      have hend : b + c = (a.now + i) % a.cap := by
        split at hb <;> omega
      split at h
      · rename_i hcount
        cases h
        exact ⟨i, by omega, by omega, by omega⟩
      · have hnext : (if (a.now + i) % a.cap = a.cap - 1 then 0 else c + 1) = 0 ∨
            b + (if (a.now + i) % a.cap = a.cap - 1 then 0 else c + 1) =
              (a.now + (i + 1)) % a.cap := by
          split
          · exact .inl rfl
          · rename_i hlast
            have hlt : (a.now + i) % a.cap < a.cap := Nat.mod_lt _ a.cap_pos
            right
            rw [turn_next (by omega)]
            omega
        obtain ⟨k, hk, hle, heq⟩ := ih (by split <;> omega) hnext h
        exact ⟨k, by omega, hle, heq⟩
    · obtain ⟨k, hk, hle, heq⟩ := ih (Nat.zero_le _) (.inl rfl) h
      exact ⟨k, by omega, hle, heq⟩

/-- The search ends with a run once the turns from `t` on look at `n` free blocks
in a row. Until then the blocks of these turns that it has seen are all counted. -/
theorem findBlocks_finds (a : MemoryArena) {n t s : Nat} (hn : s + n ≤ a.cap)
    (hturn : ∀ k, t ≤ k → k < t + n → (a.now + k) % a.cap = s + (k - t))
    (hfree : ∀ j, s ≤ j → j < s + n → bitGet a.bitmap j = 0) (fuel : Nat) :
    ∀ {i c start : Nat}, c < n → i ≤ t + c → t + n ≤ i + fuel →
      findBlocks a n fuel i c start ≠ none := by
  induction fuel with
  | zero =>
    intro i c start hc hi hend
    omega
  | succ fuel ih =>
    intro i c start hc hi hend
    simp only [findBlocks]
    split
    · split
      · exact Option.some_ne_none _
      · rename_i hcount
        apply ih
        · split <;> omega
        · split
          · rename_i hlast
            -- the run does not reach past the end of the arena, so it has not begun
            have hbefore : ¬ t ≤ i := by
              intro hle
              have hblock := hturn i hle (by omega)
              omega
            omega
          · omega
        · omega
    · rename_i hused
      have hbefore : ¬ t ≤ i := by
        intro hle
        apply hused
        rw [hturn i hle (by omega)]
        exact hfree _ (by omega) (by omega)
      exact ih (by omega) (by omega) (by omega)

/-- The search fails exactly where every free run of the length straddles `now`. -/
theorem findBlocks_none_iff {a : MemoryArena} {n : Nat} (hnow : a.now < a.cap) (hn : 1 ≤ n) :
    findBlocks a n a.cap 0 0 0 = none ↔ ∀ i, FreeRun a i n → Straddles a.now i n := by
  constructor
  · intro hnone i hrun
    by_contra hside
    have hside' : a.now ≤ i ∨ i + n ≤ a.now := by
      unfold Straddles at hside
      omega
    have hcap := hrun.1
    obtain hafter | hbefore := hside'
    · -- all of the run is met before the search wraps
      have hturn : ∀ k, i - a.now ≤ k → k < i - a.now + n →
          (a.now + k) % a.cap = i + (k - (i - a.now)) := by
        intro k hlo hhi
        rw [turn_block hnow (by omega)]
        split <;> omega
      exact findBlocks_finds a hcap hturn hrun.2 a.cap (by omega) (by omega) (by omega) hnone
    · -- all of the run is met after it has wrapped
      have hturn : ∀ k, i + a.cap - a.now ≤ k → k < i + a.cap - a.now + n →
          (a.now + k) % a.cap = i + (k - (i + a.cap - a.now)) := by
        intro k hlo hhi
        rw [turn_block hnow (by omega)]
        split <;> omega
      exact findBlocks_finds a hcap hturn hrun.2 a.cap (by omega) (by omega) (by omega) hnone
  · intro hall
    cases hfind : findBlocks a n a.cap 0 0 0 with
    | none => rfl
    | some s =>
      obtain ⟨hcap, hfree⟩ := findBlocks_spec a a.cap (.inl rfl) (fun j _ _ => by omega) hfind
      obtain ⟨k, hk, hle, hend⟩ := findBlocks_turn a a.cap (Nat.le_refl 0) (.inl rfl) hfind
      obtain ⟨hlo, hhi⟩ := hall s ⟨hcap, fun j h₁ h₂ => (bitGet_eq_zero_iff _ _).2 (hfree j h₁ h₂)⟩
      rw [turn_block hnow (by omega)] at hend
      split at hend <;> omega

theorem arenaAllocBlock_none_iff {a : MemoryArena} {n : Nat} (hnow : a.now < a.cap) (hn : 1 ≤ n) :
    arenaAllocBlock a n = none ↔ ∀ i, FreeRun a i n → Straddles a.now i n := by
  rw [← findBlocks_none_iff hnow hn, arenaAllocBlock]
  split <;> simp_all

/-! ## Small objects -/

/-- A block that `arena_alloc_ref_block` can take `size` bytes from. -/
def RefRoom (a : MemoryArena) (size : Nat) : Prop :=
  ∃ b, b < a.cap ∧ (bitGet a.bitmap b = 0 ∨
    a.refCount b ≠ -1 ∧ ((a.refLen b).toNat + size) % 2 ^ 64 < pingArenaBlockSize)

instance (a : MemoryArena) (size : Nat) : Decidable (RefRoom a size) :=
  inferInstanceAs (Decidable (∃ b, b < a.cap ∧ (bitGet a.bitmap b = 0 ∨
    a.refCount b ≠ -1 ∧ ((a.refLen b).toNat + size) % 2 ^ 64 < pingArenaBlockSize)))

/-- A search that fails has found none of the blocks it has looked at usable. -/
theorem findRefBlock_none {a : MemoryArena} {size : Nat} (fuel : Nat) :
    ∀ {i : Nat}, findRefBlock a size fuel i = none → ∀ k, i ≤ k → k < i + fuel →
      ¬ (bitGet a.bitmap ((a.now + k) % a.cap) = 0 ∨
        a.refCount ((a.now + k) % a.cap) ≠ -1 ∧
          ((a.refLen ((a.now + k) % a.cap)).toNat + size) % 2 ^ 64 < pingArenaBlockSize) := by
  induction fuel with
  | zero =>
    intro i _ k hlo hhi
    omega
  | succ fuel ih =>
    intro i h k hlo hhi
    simp only [findRefBlock] at h
    split at h
    · cases h
    · rename_i hbit
      split at h
      · cases h
      · rename_i hroom
        by_cases hk : k = i
        · rw [hk, not_or]
          exact ⟨hbit, hroom⟩
        · exact ih h k (by omega) (by omega)

theorem refRoom_of_alloc {a a' : MemoryArena} {size p : Nat}
    (h : arenaAllocRefBlock a size = some (a', p)) : RefRoom a size := by
  obtain ⟨b, -, -, hb, hfree | ⟨-, hroom⟩⟩ := arenaAllocRefBlock_some h
  · exact ⟨b, hb, .inl ((bitGet_eq_zero_iff _ _).2 hfree)⟩
  · exact ⟨b, hb, .inr hroom⟩

/-- A small object is refused exactly where no block has room for it. -/
theorem arenaAllocRefBlock_none_iff {a : MemoryArena} {size : Nat} (hnow : a.now < a.cap) :
    arenaAllocRefBlock a size = none ↔ ¬ RefRoom a size := by
  constructor
  · rintro hnone ⟨b, hb, hroom⟩
    unfold arenaAllocRefBlock at hnone
    split at hnone
    · rename_i hfind
      -- the turn in which the search looks at the block
      have hturn : ∃ k, k < a.cap ∧ (a.now + k) % a.cap = b := by
        by_cases hlo : a.now ≤ b
        · exact ⟨b - a.now, by omega, by rw [turn_block hnow (by omega)]; split <;> omega⟩
        · exact ⟨b + a.cap - a.now, by omega, by rw [turn_block hnow (by omega)]; split <;> omega⟩
      obtain ⟨k, hk, rfl⟩ := hturn
      exact findRefBlock_none a.cap hfind k (Nat.zero_le k) (by omega) hroom
    · cases hnone
  · intro hfull
    cases halloc : arenaAllocRefBlock a size with
    | none => rfl
    | some r => exact absurd (refRoom_of_alloc halloc) hfull

/-! ## Every run -/

/-- `now` always points at a block. -/
theorem arenaStep_now {s t : ArenaState} {op : ArenaOp} (h : s.arena.now < s.arena.cap)
    (hstep : arenaStep s op = some t) : t.arena.now < t.arena.cap := by
  cases op with
  | allocBlock n =>
    simp only [arenaStep] at hstep
    split at hstep
    · split at hstep <;> cases hstep
      · rename_i halloc
        obtain ⟨b, rfl, -⟩ := arenaAllocBlock_some halloc
        exact Nat.mod_lt _ s.arena.cap_pos
      · exact h
    · cases hstep
  | allocRef size =>
    simp only [arenaStep] at hstep
    split at hstep
    · split at hstep <;> cases hstep
      · rename_i halloc
        obtain ⟨b, rfl, -⟩ := arenaAllocRefBlock_some halloc
        exact Nat.mod_lt _ s.arena.cap_pos
      · exact h
    · cases hstep
  | recycle i n =>
    simp only [arenaStep] at hstep
    split at hstep <;> cases hstep
    exact h
  | recycleRef p n =>
    simp only [arenaStep] at hstep
    split at hstep <;> cases hstep
    unfold arenaRecycleRef
    simp only
    split <;> exact h
  | write x addr v =>
    simp only [arenaStep] at hstep
    split at hstep <;> cases hstep
    exact h

theorem arenaRun_now {size : Nat} {mem : Memory}
    {fits : arenaSize size * pingArenaBlockSize < 2 ^ 64} {s : ArenaState}
    (h : Reaches (graph arenaStep) always (arenaStart size mem fits) s) :
    s.arena.now < s.arena.cap :=
  h.invariant (fun s => s.arena.now < s.arena.cap) (arenaSize_pos size)
    fun _ _ _ hnow _ hstep => arenaStep_now hnow hstep

/-- Allocation fails only for lack of a free run exactly where, if there are free
runs of the length at all, one of them does not straddle `now`. -/
theorem alloc_block_complete_iff (size : Nat) (mem : Memory)
    (fits : arenaSize size * pingArenaBlockSize < 2 ^ 64) (s : ArenaState) (n : Nat)
    (h : Reaches (graph arenaStep) always (arenaStart size mem fits) s)
    (hn : 1 ≤ n ∧ n ≤ s.arena.cap) :
    (arenaAllocBlock s.arena n = none → ¬ ∃ i, FreeRun s.arena i n) ↔
      ((∃ i, FreeRun s.arena i n) → ∃ i, FreeRun s.arena i n ∧ ¬ Straddles s.arena.now i n) := by
  rw [arenaAllocBlock_none_iff (arenaRun_now h) hn.1]
  constructor
  · intro hall hsome
    by_contra hnone
    apply hall _ hsome
    intro i hrun
    by_contra hside
    exact hnone ⟨i, hrun, hside⟩
  · intro hcond hall hsome
    obtain ⟨i, hrun, hside⟩ := hcond hsome
    exact hside (hall i hrun)

/-- Two blocks taken and given back again: all are free, and `now` is the third. -/
def rotatedOps : List ArenaOp := [.allocBlock 2, .recycle 0 2]

theorem rotatedOps_reaches : ∃ s,
    Reaches (graph arenaStep) always (arenaStart 4 (fun _ => 0) (by decide)) s ∧
      s.arena.cap = 4 ∧ s.arena.now = 2 ∧ ∀ j, j < 4 → bitGet s.arena.bitmap j = 0 := by
  have hrun : (run arenaStep (arenaStart 4 (fun _ => 0) (by decide)) rotatedOps).any
      (fun s => decide (s.arena.cap = 4 ∧ s.arena.now = 2 ∧
        ∀ j, j < 4 → bitGet s.arena.bitmap j = 0)) = true := by
    decide +kernel
  obtain ⟨s, hs, hfacts⟩ := (Option.any_eq_true _ _).1 hrun
  exact ⟨s, reaches_of_run (allowedAlong_always _ _ _) hs, of_decide_eq_true hfacts⟩

/-- There, two of the four free blocks are found. -/
theorem alloc_block_complete_iff_rotated : ∃ s,
    Reaches (graph arenaStep) always (arenaStart 4 (fun _ => 0) (by decide)) s ∧
      (arenaAllocBlock s.arena 2 = none → ¬ ∃ i, FreeRun s.arena i 2) := by
  obtain ⟨s, hs, hcap, hnow, hfree⟩ := rotatedOps_reaches
  have hiff := alloc_block_complete_iff 4 _ (by decide) s 2 hs (by omega)
  refine ⟨s, hs, hiff.2 fun _ => ⟨2, ?_, ?_⟩⟩
  · exact ⟨by omega, fun j _ hj => hfree j (by omega)⟩
  · unfold Straddles
    omega

/-- There, three free blocks are not found, although all four are free. -/
theorem alloc_block_misses_straddling :
    ¬ ∀ (size : Nat) (mem : Memory) (fits : arenaSize size * pingArenaBlockSize < 2 ^ 64)
      (s : ArenaState) (n : Nat),
      Reaches (graph arenaStep) always (arenaStart size mem fits) s →
      1 ≤ n ∧ n ≤ s.arena.cap →
      arenaAllocBlock s.arena n = none → ¬ ∃ i, FreeRun s.arena i n := by
  intro hall
  obtain ⟨s, hs, hcap, hnow, hfree⟩ := rotatedOps_reaches
  have hfail : arenaAllocBlock s.arena 3 = none := by
    rw [arenaAllocBlock_none_iff (by omega) (by omega)]
    intro i hrun
    have hend := hrun.1
    unfold Straddles
    omega
  exact hall 4 _ (by decide) s 3 hs (by omega) hfail
    ⟨0, by omega, fun j _ hj => hfree j (by omega)⟩

/-! ## Exact fits -/

/-- A block of small objects that can count one more. -/
def Shareable (s : ArenaState) (b : Nat) : Prop :=
  b < s.arena.cap ∧ 0 < sharers s.live b ∧ sharers s.live b < 255

def bytesLeft (a : MemoryArena) (b : Nat) : Nat := pingArenaBlockSize - (a.refLen b).toNat

/-- No block is free, and the blocks of small objects can count no more or are too full. -/
structure NoRoom (s : ArenaState) (size : Nat) : Prop where
  used : ∀ b, b < s.arena.cap → bitGet s.arena.bitmap b = 1
  full : ∀ b, b < s.arena.cap → 0 < sharers s.live b →
    sharers s.live b = 255 ∨ pingArenaBlockSize < (s.arena.refLen b).toNat + size

section

variable {s : ArenaState} {size b : Nat}

/-- A used block is one of small objects that can count one more, unless its count is -1. -/
theorem ArenaInv.shareable_iff (h : ArenaInv s.arena s.live) (hb : b < s.arena.cap)
    (hused : bitGet s.arena.bitmap b ≠ 0) : Shareable s b ↔ s.arena.refCount b ≠ -1 := by
  constructor
  · rintro ⟨-, hpos, hlt⟩ hlarge
    have hcount := h.smallCount b (h.not_covered_of_sharers hpos)
    rw [hlarge] at hcount
    exact absurd hcount (by change 255 ≠ _; omega)
  · intro hsmall
    have hcov : covered s.live b = false :=
      Bool.eq_false_iff.2 fun hcov => hsmall (h.largeCount b hcov)
    have hcount := h.smallCount b hcov
    have hne : (s.arena.refCount b).toNat ≠ 255 := fun heq => hsmall (BitVec.eq_of_toNat_eq heq)
    have hlt := (s.arena.refCount b).isLt
    have hbit := mt (bitGet_eq_zero_iff _ _).2 hused
    rw [h.bit b, hcov, Bool.false_or, decide_eq_false_iff_not, not_not] at hbit
    exact ⟨hb, hbit, by omega⟩

/-- A free block has room, and so has one of small objects with more bytes left. -/
theorem ArenaInv.refRoom_of_left (h : ArenaInv s.arena s.live)
    (hleft : (∃ b, b < s.arena.cap ∧ bitGet s.arena.bitmap b = 0) ∨
      ∃ b, Shareable s b ∧ size < bytesLeft s.arena b) : RefRoom s.arena size := by
  obtain ⟨b, hb, hfree⟩ | ⟨b, hshare, hlen⟩ := hleft
  · exact ⟨b, hb, .inl hfree⟩
  · by_cases hfree : bitGet s.arena.bitmap b = 0
    · exact ⟨b, hshare.1, .inl hfree⟩
    · have hblock : pingArenaBlockSize = 4096 := rfl
      unfold bytesLeft at hlen
      refine ⟨b, hshare.1, .inr ⟨(h.shareable_iff hshare.1 hfree).1 hshare, ?_⟩⟩
      rw [Nat.mod_eq_of_lt (by omega)]
      omega

/-- Any other room is for a size that wraps around. -/
theorem ArenaInv.left_of_refRoom (h : ArenaInv s.arena s.live) (hroom : RefRoom s.arena size) :
    (∃ b, b < s.arena.cap ∧ bitGet s.arena.bitmap b = 0) ∨
      (∃ b, Shareable s b ∧ size < bytesLeft s.arena b) ∨ pingArenaBlockSize < size := by
  obtain ⟨b, hb, hroom⟩ := hroom
  by_cases hfree : bitGet s.arena.bitmap b = 0
  · exact .inl ⟨b, hb, hfree⟩
  · obtain ⟨hcount, hlen⟩ := hroom.resolve_left hfree
    by_cases hsize : size ≤ pingArenaBlockSize
    · refine .inr (.inl ⟨b, (h.shareable_iff hb hfree).2 hcount, ?_⟩)
      have hblock : pingArenaBlockSize = 4096 := rfl
      have hlt := (s.arena.refLen b).isLt
      rw [Nat.mod_eq_of_lt (by omega)] at hlen
      unfold bytesLeft
      omega
    · exact .inr (.inr (not_le.1 hsize))

/-- Without room for one byte more there is no room exactly if no block fits. -/
theorem ArenaInv.noRoom_iff (h : ArenaInv s.arena s.live) (hfull : ¬ RefRoom s.arena size) :
    NoRoom s size ↔ ∀ b, Shareable s b → bytesLeft s.arena b ≠ size := by
  obtain ⟨hused, hless⟩ := not_or.1 (mt h.refRoom_of_left hfull)
  constructor
  · rintro hno b ⟨hb, hpos, hlt⟩ hfit
    have hle := h.lenLe b
    unfold bytesLeft at hfit
    rcases hno.full b hb hpos with hcount | hlen
    · omega
    · omega
  · intro hfit
    constructor
    · intro b hb
      rw [bitGet_eq, if_pos]
      by_contra hclear
      exact hused ⟨b, hb, (bitGet_eq_zero_iff _ _).2 (Bool.eq_false_of_not_eq_true hclear)⟩
    · intro b hb hpos
      by_contra hroom
      rw [not_or, Nat.not_lt] at hroom
      have hwrap := h.safe.noWrap b
      have hshare : Shareable s b := ⟨hb, hpos, by omega⟩
      have hne := hfit b hshare
      have hle : ¬ size < bytesLeft s.arena b := fun hlt => hless ⟨b, hshare, hlt⟩
      unfold bytesLeft at hne hle
      omega

end

/-- A small object is refused only for lack of room exactly where there is a free block or
one with more room than asked for, or no block that the object would fill. -/
theorem alloc_ref_complete_iff (size : Nat) (mem : Memory)
    (fits : arenaSize size * pingArenaBlockSize < 2 ^ 64) (s : ArenaState) (n : Nat)
    (h : Reaches (graph arenaStep) always (arenaStart size mem fits) s) :
    (arenaAllocRefBlock s.arena n = none → NoRoom s n) ↔
      (∃ b, b < s.arena.cap ∧ bitGet s.arena.bitmap b = 0) ∨
        (∃ b, Shareable s b ∧ n < bytesLeft s.arena b) ∨
        ∀ b, Shareable s b → bytesLeft s.arena b ≠ n := by
  have hinv := arenaRun_inv h
  rw [arenaAllocRefBlock_none_iff (arenaRun_now h), ← or_assoc]
  by_cases hroom : RefRoom s.arena n
  · refine iff_of_true (fun hno => absurd hroom hno) ?_
    obtain hfree | hless | hlarge := hinv.left_of_refRoom hroom
    · exact .inl (.inl hfree)
    · exact .inl (.inr hless)
    · refine .inr fun b _ => ?_
      unfold bytesLeft
      omega
  · rw [or_iff_right (mt hinv.refRoom_of_left hroom), ← hinv.noRoom_iff hroom]
    exact ⟨fun hno => hno hroom, fun hno _ => hno⟩

/-- A full block refuses one byte more. -/
theorem alloc_ref_complete_full : ∃ s,
    Reaches (graph arenaStep) always (arenaStart 1 (fun _ => 0) (by decide)) s ∧
      (arenaAllocRefBlock s.arena 1 = none → NoRoom s 1) := by
  have hrun : (run arenaStep (arenaStart 1 (fun _ => 0) (by decide)) [.allocRef 4096]).any
      (fun s => decide (s.arena.cap = 1 ∧ bytesLeft s.arena 0 = 0)) = true := by
    decide +kernel
  obtain ⟨s, hs, hfacts⟩ := (Option.any_eq_true _ _).1 hrun
  obtain ⟨hcap, hleft⟩ := of_decide_eq_true hfacts
  have hreach := reaches_of_run (allowedAlong_always _ _ _) hs
  refine ⟨s, hreach, (alloc_ref_complete_iff 1 _ (by decide) s 1 hreach).2 (.inr (.inr ?_))⟩
  rintro b ⟨hb, -⟩
  have hzero : b = 0 := by omega
  rw [hzero, hleft]
  decide

/-- The last byte of a block is never handed out. -/
theorem last_byte_refused :
    ¬ ∀ (size : Nat) (mem : Memory) (fits : arenaSize size * pingArenaBlockSize < 2 ^ 64)
      (s : ArenaState) (n : Nat),
      Reaches (graph arenaStep) always (arenaStart size mem fits) s →
      1 ≤ n ∧ n ≤ pingArenaBlockSize →
      arenaAllocRefBlock s.arena n = none → NoRoom s n := by
  intro hall
  have hrun : (run arenaStep (arenaStart 1 (fun _ => 0) (by decide)) [.allocRef 4095]).any
      (fun s => decide (s.arena.cap = 1 ∧ sharers s.live 0 = 1 ∧ (s.arena.refLen 0).toNat = 4095 ∧
        (arenaAllocRefBlock s.arena 1).isNone = true)) = true := by
    decide +kernel
  obtain ⟨s, hs, hfacts⟩ := (Option.any_eq_true _ _).1 hrun
  obtain ⟨hcap, hone, hlen, hrefused⟩ := of_decide_eq_true hfacts
  have hno := hall 1 _ (by decide) s 1 (reaches_of_run (allowedAlong_always _ _ _) hs) (by decide)
    (Option.isNone_iff_eq_none.1 hrefused)
  rcases hno.full 0 (by omega) (by omega) with hcount | hfull
  · omega
  · rw [hlen] at hfull
    exact absurd hfull (by decide)

end PingServer
