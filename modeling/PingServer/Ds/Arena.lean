import PingServer.Ds.Bitmap

/-!
# The memory arena

`ping_arena.c`. An arena hands out runs of whole blocks, marked in a bitmap and
headed by a word that holds the length of the run, and small objects, counted
per block. Addresses are counted from `arena->start`, so block `i` occupies the
bytes from `i * PING_ARENA_BLOCK_SIZE` on; `NULL` is `none`.
-/

namespace PingServer

open ByteMem

/-- `PING_ARENA_BLOCK_SIZE`. -/
abbrev pingArenaBlockSize : Nat := 4096

/-- `sizeof(uint64_t)`, the size of the word in front of a run of blocks. -/
abbrev sizeofWord : Nat := 8

/-- The blocks of an arena lie in one address space, so no index or byte count
below overflows the 64 bits the source computes it in. -/
structure MemoryArena where
  start : Memory
  bitmap : Memory
  refCount : Nat → BitVec 8
  refLen : Nat → BitVec 16
  now : Nat
  cap : Nat
  cap_pos : 0 < cap
  cap_fits : cap * pingArenaBlockSize < 2 ^ 64

/-- `size == 0` asks for the default number of blocks. -/
def arenaSize (size : Nat) : Nat := if size = 0 then pingArenaBlockSize else size

theorem arenaSize_pos (size : Nat) : 0 < arenaSize size := by
  unfold arenaSize
  split
  · decide
  · omega

/-- `mem` is what the aligned allocation happens to contain. -/
def arenaCreate (size : Nat) (mem : Memory)
    (fits : arenaSize size * pingArenaBlockSize < 2 ^ 64) : MemoryArena where
  start := mem
  bitmap := fun _ => 0
  refCount := fun _ => 0
  refLen := fun _ => 0
  now := 0
  cap := arenaSize size
  cap_pos := arenaSize_pos size
  cap_fits := fits

/-! ## Runs of blocks -/

/-- The search loop of `arena_alloc_block`, with `fuel` turns left and turn `i`
next. A run of free blocks is dropped at the physical end of the arena. -/
def findBlocks (a : MemoryArena) (blockCount : Nat) :
    (fuel i consecutive candidateStart : Nat) → Option Nat
  | 0, _, _, _ => none
  | fuel + 1, i, consecutive, candidateStart =>
    let idx := (a.now + i) % a.cap
    if bitGet a.bitmap idx = 0 then
      let candidateStart := if consecutive = 0 then idx else candidateStart
      let consecutive := consecutive + 1
      if consecutive = blockCount then some candidateStart
      else
        findBlocks a blockCount fuel (i + 1)
          (if idx = a.cap - 1 then 0 else consecutive) candidateStart
    else findBlocks a blockCount fuel (i + 1) 0 candidateStart

/-- What `arena_alloc_block` does once it has found its blocks. -/
def takeBlocks (a : MemoryArena) (foundIdx blockCount : Nat) : MemoryArena :=
  { a with
    bitmap := bitmapSetRange a.bitmap foundIdx (foundIdx + blockCount - 1)
    refCount := fill a.refCount foundIdx blockCount (-1)
    now := (foundIdx + blockCount) % a.cap
    start := storeLE a.start (foundIdx * pingArenaBlockSize) sizeofWord blockCount }

/-- The new arena, the user's pointer and `*return_size`. The source asserts
`block_count <= cap`, which is up to the caller. -/
def arenaAllocBlock (a : MemoryArena) (blockCount : Nat) : Option (MemoryArena × Nat × Nat) :=
  match findBlocks a blockCount a.cap 0 0 0 with
  | none => none
  | some foundIdx =>
    some (takeBlocks a foundIdx blockCount,
      foundIdx * pingArenaBlockSize + sizeofWord,
      blockCount * pingArenaBlockSize - sizeofWord)

/-- Frees the blocks that the word in front of `ptr` says there are. -/
def arenaRecycle (a : MemoryArena) (ptr : Nat) : MemoryArena :=
  let block := ptr - sizeofWord
  let blockCount := loadLE a.start block sizeofWord
  let startIdx := block / pingArenaBlockSize
  { a with
    bitmap := bitmapUnsetRange a.bitmap startIdx (startIdx + blockCount - 1)
    refCount := fill a.refCount startIdx blockCount 0 }

/-! ## Small objects -/

/-- The search loop of `arena_alloc_ref_block`: the first block from `now` on
that is free, or is shared by small objects and has room for `size` more bytes; the sum is one of
64-bit words. -/
def findRefBlock (a : MemoryArena) (size : Nat) : (fuel i : Nat) → Option Nat
  | 0, _ => none
  | fuel + 1, i =>
    let idx := (a.now + i) % a.cap
    if bitGet a.bitmap idx = 0 then some idx
    else if a.refCount idx ≠ -1 ∧ ((a.refLen idx).toNat + size) % 2 ^ 64 < pingArenaBlockSize then
      some idx
    else findRefBlock a size fuel (i + 1)

def takeRef (a : MemoryArena) (foundIdx size : Nat) : MemoryArena :=
  { a with
    bitmap := bitmapSetRange a.bitmap foundIdx foundIdx
    refLen := fun i => if i = foundIdx then a.refLen i + BitVec.ofNat 16 size else a.refLen i
    refCount := fun i => if i = foundIdx then a.refCount i + 1 else a.refCount i
    now := (foundIdx + 1) % a.cap }

def arenaAllocRefBlock (a : MemoryArena) (size : Nat) : Option (MemoryArena × Nat) :=
  match findRefBlock a size a.cap 0 with
  | none => none
  | some foundIdx =>
    some (takeRef a foundIdx size,
      foundIdx * pingArenaBlockSize + (a.refLen foundIdx).toNat)

/-- The block of `ptr` loses one reference and is freed with its last one. -/
def arenaRecycleRef (a : MemoryArena) (ptr : Nat) : MemoryArena :=
  let idx := ptr / pingArenaBlockSize
  let left := a.refCount idx - 1
  let refCount := fun i => if i = idx then left else a.refCount i
  if left = 0 then
    { a with
      refCount := refCount
      refLen := fun i => if i = idx then 0 else a.refLen i
      bitmap := bitmapUnsetRange a.bitmap idx idx }
  else { a with refCount := refCount }

/-! ## What the searches find -/

/-- The search looks at the blocks in order, up to the end of the arena. -/
theorem turn_next {now cap i : Nat} (h : (now + i) % cap + 1 < cap) :
    (now + (i + 1)) % cap = (now + i) % cap + 1 := by
  rw [← Nat.add_assoc, Nat.add_mod, Nat.mod_eq_of_lt (show 1 < cap by omega), Nat.mod_eq_of_lt h]

/-- A run found by the search is free and inside the arena. While the search
runs, `consecutive` free blocks end just before the block it looks at next. -/
theorem findBlocks_spec (a : MemoryArena) {blockCount : Nat} (fuel : Nat) :
    ∀ {i consecutive candidateStart s : Nat},
      (consecutive = 0 ∨ candidateStart + consecutive = (a.now + i) % a.cap) →
      (∀ j, candidateStart ≤ j → j < candidateStart + consecutive → bitAt a.bitmap j = false) →
      findBlocks a blockCount fuel i consecutive candidateStart = some s →
      s + blockCount ≤ a.cap ∧ ∀ j, s ≤ j → j < s + blockCount → bitAt a.bitmap j = false := by
  induction fuel with
  | zero =>
    intro i consecutive candidateStart s _ _ h
    cases h
  | succ fuel ih =>
    intro i consecutive candidateStart s hrun hfree h
    have hidx : (a.now + i) % a.cap < a.cap := Nat.mod_lt _ a.cap_pos
    simp only [findBlocks] at h
    split at h
    · rename_i hbit
      have hbit' := (bitGet_eq_zero_iff _ _).1 hbit
      -- the run now also holds the block just seen
      generalize hc : (if consecutive = 0 then (a.now + i) % a.cap else candidateStart) = c at h
      have hc' : c + consecutive = (a.now + i) % a.cap := by
        split at hc <;> omega
      have hfree' : ∀ j, c ≤ j → j < c + (consecutive + 1) → bitAt a.bitmap j = false := by
        intro j hlo hhi
        by_cases hj : j = (a.now + i) % a.cap
        · rw [hj]; exact hbit'
        · by_cases hz : consecutive = 0
          · omega
          · simp only [hz, ↓reduceIte] at hc
            exact hfree j (by omega) (by omega)
      split at h
      · rename_i hcount
        cases h
        exact ⟨by omega, fun j hlo hhi => hfree' j hlo (by omega)⟩
      · refine ih ?_ ?_ h
        · split
          · exact .inl rfl
          · rename_i hend
            right
            rw [turn_next (by omega)]
            omega
        · intro j hlo hhi
          split at hhi
          · omega
          · exact hfree' j hlo hhi
    · exact ih (.inl rfl) (fun j _ _ => by omega) h

/-- A block found for a small object is inside the arena, and is free or shared
with room to spare. -/
theorem findRefBlock_spec (a : MemoryArena) (size fuel : Nat) :
    ∀ {i b : Nat}, findRefBlock a size fuel i = some b →
      b < a.cap ∧ (bitAt a.bitmap b = false ∨
        bitAt a.bitmap b = true ∧ a.refCount b ≠ -1 ∧
          ((a.refLen b).toNat + size) % 2 ^ 64 < pingArenaBlockSize) := by
  induction fuel with
  | zero =>
    intro i b h
    cases h
  | succ fuel ih =>
    intro i b h
    have hidx : (a.now + i) % a.cap < a.cap := Nat.mod_lt _ a.cap_pos
    simp only [findRefBlock] at h
    split at h
    · rename_i hbit
      cases h
      exact ⟨hidx, .inl ((bitGet_eq_zero_iff _ _).1 hbit)⟩
    · rename_i hbit
      split at h
      · rename_i hroom
        cases h
        exact ⟨hidx, .inr ⟨Bool.of_not_eq_false (mt (bitGet_eq_zero_iff _ _).2 hbit), hroom⟩⟩
      · exact ih h

/-- Everything a successful `arena_alloc_block` has done. -/
theorem arenaAllocBlock_some {a a' : MemoryArena} {blockCount ptr size : Nat}
    (h : arenaAllocBlock a blockCount = some (a', ptr, size)) :
    ∃ s, a' = takeBlocks a s blockCount ∧ ptr = s * pingArenaBlockSize + sizeofWord ∧
      size = blockCount * pingArenaBlockSize - sizeofWord ∧ s + blockCount ≤ a.cap ∧
      ∀ j, s ≤ j → j < s + blockCount → bitAt a.bitmap j = false := by
  unfold arenaAllocBlock at h
  split at h
  · cases h
  · rename_i s hs
    cases h
    have hfound := findBlocks_spec a a.cap (.inl rfl) (fun j _ _ => by omega) hs
    exact ⟨s, rfl, rfl, rfl, hfound.1, hfound.2⟩

/-- Everything a successful `arena_alloc_ref_block` has done. -/
theorem arenaAllocRefBlock_some {a a' : MemoryArena} {size ptr : Nat}
    (h : arenaAllocRefBlock a size = some (a', ptr)) :
    ∃ b, a' = takeRef a b size ∧ ptr = b * pingArenaBlockSize + (a.refLen b).toNat ∧ b < a.cap ∧
      (bitAt a.bitmap b = false ∨
        bitAt a.bitmap b = true ∧ a.refCount b ≠ -1 ∧
          ((a.refLen b).toNat + size) % 2 ^ 64 < pingArenaBlockSize) := by
  unfold arenaAllocRefBlock at h
  split at h
  · cases h
  · rename_i b hb
    cases h
    have hfound := findRefBlock_spec a size a.cap hb
    exact ⟨b, rfl, rfl, hfound.1, hfound.2⟩

end PingServer
