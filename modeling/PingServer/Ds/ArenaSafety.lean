import PingServer.Ds.ArenaInvariant
import PingServer.Lib.Machine

/-!
# Arena safety over runs

A run mixes the four operations of the arena with writes by the holders of live
allocations, each inside the bytes it was given. `live` records who holds what;
the arena itself never reads it.
-/

namespace PingServer

open ByteMem Allocation Machine

structure ArenaState where
  arena : MemoryArena
  live : List Allocation

inductive ArenaOp where
  | allocBlock (blockCount : Nat)
  | allocRef (size : Nat)
  | recycle (startIdx blockCount : Nat)
  | recycleRef (addr size : Nat)
  | write (holder : Allocation) (addr : Nat) (v : Byte)
  deriving DecidableEq, Repr

/-- `none` where a caller would break its side: a size the allocator asserts
away, a pointer that is not live, a write outside the holder's bytes. -/
def arenaStep (s : ArenaState) : ArenaOp → Option ArenaState
  | .allocBlock n =>
    if 1 ≤ n ∧ n ≤ s.arena.cap then
      match arenaAllocBlock s.arena n with
      | some (a, p, _) => some ⟨a, large (p / pingArenaBlockSize) n :: s.live⟩
      | none => some s
    else none
  | .allocRef size =>
    if 1 ≤ size ∧ size ≤ pingArenaBlockSize then
      match arenaAllocRefBlock s.arena size with
      | some (a, p) => some ⟨a, small p size :: s.live⟩
      | none => some s
    else none
  | .recycle i n =>
    if large i n ∈ s.live then
      some ⟨arenaRecycle s.arena (large i n).ptr, s.live.erase (large i n)⟩
    else none
  | .recycleRef p n =>
    if small p n ∈ s.live then
      some ⟨arenaRecycleRef s.arena (small p n).ptr, s.live.erase (small p n)⟩
    else none
  | .write x addr v =>
    if x ∈ s.live ∧ x.ptr ≤ addr ∧ addr < x.hi then
      some { s with arena := { s.arena with start := setByte s.arena.start addr v } }
    else none

/-- A fresh arena, whatever its memory contains. -/
def arenaStart (size : Nat) (mem : Memory)
    (fits : arenaSize size * pingArenaBlockSize < 2 ^ 64) : ArenaState :=
  ⟨arenaCreate size mem fits, []⟩

theorem arenaCreate_inv (size : Nat) (mem : Memory)
    (fits : arenaSize size * pingArenaBlockSize < 2 ^ 64) :
    ArenaInv (arenaCreate size mem fits) [] := by
  constructor <;> simp [arenaCreate, covered, sharers, bitAt]

theorem ArenaInv.allocBlock {a a' : MemoryArena} {live : List Allocation} {n p size : Nat}
    (h : ArenaInv a live) (hn : 1 ≤ n) (halloc : arenaAllocBlock a n = some (a', p, size)) :
    ArenaInv a' (large (p / pingArenaBlockSize) n :: live) := by
  obtain ⟨s, rfl, rfl, -, hcap, hfree⟩ := arenaAllocBlock_some halloc
  have hdiv : (s * pingArenaBlockSize + sizeofWord) / pingArenaBlockSize = s := by
    simp only [pingArenaBlockSize, sizeofWord]
    omega
  rw [hdiv]
  exact h.takeBlocks hn hcap hfree

theorem ArenaInv.allocRef {a a' : MemoryArena} {live : List Allocation} {size p : Nat}
    (h : ArenaInv a live) (hpos : 1 ≤ size) (hsize : size ≤ pingArenaBlockSize)
    (halloc : arenaAllocRefBlock a size = some (a', p)) : ArenaInv a' (small p size :: live) := by
  obtain ⟨b, rfl, rfl, hb, hroom⟩ := arenaAllocRefBlock_some halloc
  have hblock : pingArenaBlockSize = 4096 := rfl
  have hlen := (a.refLen b).isLt
  rw [Nat.mod_eq_of_lt (by omega)] at hroom
  exact h.takeRef hpos hsize hb hroom

/-- Every operation keeps the invariant. -/
theorem arenaStep_inv {s t : ArenaState} {op : ArenaOp} (h : ArenaInv s.arena s.live)
    (hstep : arenaStep s op = some t) : ArenaInv t.arena t.live := by
  cases op with
  | allocBlock n =>
    simp only [arenaStep] at hstep
    split at hstep
    · rename_i hn
      split at hstep <;> cases hstep
      · rename_i halloc
        exact h.allocBlock hn.1 halloc
      · exact h
    · cases hstep
  | allocRef size =>
    simp only [arenaStep] at hstep
    split at hstep
    · rename_i hsize
      split at hstep <;> cases hstep
      · rename_i halloc
        exact h.allocRef hsize.1 hsize.2 halloc
      · exact h
    · cases hstep
  | recycle i n =>
    simp only [arenaStep] at hstep
    split at hstep <;> cases hstep
    rename_i hmem
    exact (h.perm (List.perm_cons_erase hmem)).recycle
  | recycleRef p n =>
    simp only [arenaStep] at hstep
    split at hstep <;> cases hstep
    rename_i hmem
    exact (h.perm (List.perm_cons_erase hmem)).recycleRef
  | write x addr v =>
    simp only [arenaStep] at hstep
    split at hstep <;> cases hstep
    rename_i hw
    have hp := List.perm_cons_erase hw.1
    refine ((h.perm hp).writes fun q hq => setByte_other _ _ ?_).perm hp.symm
    rintro rfl
    omega

theorem arenaRun_inv {size : Nat} {mem : Memory}
    {fits : arenaSize size * pingArenaBlockSize < 2 ^ 64} {s : ArenaState}
    (h : Reaches (graph arenaStep) always (arenaStart size mem fits) s) :
    ArenaInv s.arena s.live :=
  h.invariant _ (arenaCreate_inv size mem fits) fun _ _ _ hinv _ hstep => arenaStep_inv hinv hstep

/-- What the holders of the live allocations can rely on. -/
structure ArenaSafe (a : MemoryArena) (live : List Allocation) : Prop where
  inside : ∀ x ∈ live, x.hi ≤ a.cap * pingArenaBlockSize
  disjoint : live.Pairwise Apart
  bit_iff : ∀ i, i < a.cap →
    (bitGet a.bitmap i = 1 ↔ ∃ x ∈ live, x.covers i = true ∨ x.shares i = true)
  shared : ∀ i, (∃ x ∈ live, x.shares i = true) → (a.refCount i).toNat = sharers live i
  noWrap : ∀ i, sharers live i ≤ 255
  run : ∀ x ∈ live, ∀ i, x.covers i = true → a.refCount i = 255 ∧ a.refLen i = 0
  free : ∀ i, (¬ ∃ x ∈ live, x.covers i = true ∨ x.shares i = true) →
    a.refCount i = 0 ∧ a.refLen i = 0
  header : ∀ s n, large s n ∈ live → loadLE a.start (s * pingArenaBlockSize) sizeofWord = n
  drained : live = [] →
    (∀ k, a.bitmap k = 0) ∧ (∀ i, a.refCount i = 0) ∧ ∀ i, a.refLen i = 0

theorem bytes_zero {map : Memory} (h : ∀ i, bitAt map i = false) (k : Nat) : map k = 0 := by
  apply BitVec.eq_of_getLsbD_eq
  intro j hj
  have hbit := h (8 * k + j)
  have hdiv : (8 * k + j) / 8 = k := by omega
  have hmod : (8 * k + j) % 8 = j := by omega
  rw [bitAt, hdiv, hmod] at hbit
  simpa using hbit

namespace ArenaInv

variable {a : MemoryArena} {live : List Allocation}

/-- A block in use by a small object belongs to no run. -/
theorem run_or_shared (h : ArenaInv a live) {i : Nat} {x : Allocation} (hx : x ∈ live)
    (hc : x.covers i = true) : sharers live i = 0 := by
  have hp := List.perm_cons_erase hx
  have h' := h.perm hp
  have hz := (not_touched h'.inside h'.apart hc).2
  have hns : x.shares i = false := by cases x <;> simp_all [covers, shares]
  have he : sharers live i = sharers (x :: live.erase x) i := hp.countP_eq _
  rw [he, sharers_cons, hz, hns]
  rfl

theorem in_use_iff (i : Nat) : (∃ x ∈ live, x.covers i = true ∨ x.shares i = true) ↔
    covered live i = true ∨ 0 < sharers live i := by
  constructor
  · rintro ⟨x, hx, hc | hs⟩
    · exact .inl (covered_of_mem hx hc)
    · exact .inr (sharers_pos hx hs)
  · rintro (hc | hs)
    · obtain ⟨x, hx, hxc⟩ := List.any_eq_true.1 hc
      exact ⟨x, hx, .inl hxc⟩
    · obtain ⟨x, hx, hxs⟩ := List.countP_pos_iff.1 hs
      exact ⟨x, hx, .inr hxs⟩

theorem hi_le (h : ArenaInv a live) {x : Allocation} (hx : x ∈ live) :
    x.hi ≤ a.cap * pingArenaBlockSize := by
  have hin := h.inside x hx
  cases x with
  | large s n => exact Nat.mul_le_mul_right _ hin.2
  | small p n =>
    simp only [Inside, pingArenaBlockSize] at hin
    simp only [hi, pingArenaBlockSize]
    omega

theorem not_covered_of_sharers (h : ArenaInv a live) {i : Nat} (hs : 0 < sharers live i) :
    covered live i = false := by
  apply Bool.eq_false_iff.2
  intro hc
  obtain ⟨x, hx, hxc⟩ := List.any_eq_true.1 hc
  have hz := h.run_or_shared hx hxc
  omega

theorem safe (h : ArenaInv a live) : ArenaSafe a live where
  inside := fun _ hx => h.hi_le hx
  disjoint := h.apart
  bit_iff := by
    intro i _
    rw [in_use_iff, bitGet_eq, h.bit i]
    cases hc : covered live i <;> simp
  shared := by
    rintro i ⟨x, hx, hs⟩
    exact h.smallCount i (h.not_covered_of_sharers (sharers_pos hx hs))
  noWrap := by
    intro i
    rcases Nat.eq_zero_or_pos (sharers live i) with hz | hpos
    · omega
    · have hcount := h.smallCount i (h.not_covered_of_sharers hpos)
      have hlt := (a.refCount i).isLt
      omega
  run := by
    intro x hx i hc
    exact ⟨h.largeCount i (covered_of_mem hx hc), h.lenZero i (h.run_or_shared hx hc)⟩
  free := by
    intro i hfree
    rw [in_use_iff, not_or] at hfree
    have hz : sharers live i = 0 := by omega
    have hcount := h.smallCount i (Bool.eq_false_iff.2 hfree.1)
    exact ⟨BitVec.eq_of_toNat_eq (by rw [hcount, hz]; rfl), h.lenZero i hz⟩
  header := h.header
  drained := by
    rintro rfl
    refine ⟨bytes_zero fun i => ?_, fun i => ?_, fun i => h.lenZero i rfl⟩
    · simpa [covered, sharers] using h.bit i
    · exact BitVec.eq_of_toNat_eq (h.smallCount i rfl)

end ArenaInv

/-- In every state a run of the arena reaches, live allocations lie apart inside
it and its bitmap, counters and header words are exactly theirs. -/
theorem arena_safe (size : Nat) (mem : Memory)
    (fits : arenaSize size * pingArenaBlockSize < 2 ^ 64) (s : ArenaState)
    (h : Reaches (graph arenaStep) always (arenaStart size mem fits) s) :
    ArenaSafe s.arena s.live :=
  (arenaRun_inv h).safe

/-- Two runs, a small object between their lives, and a block reused. -/
def mixedOps : List ArenaOp :=
  [.allocBlock 2, .allocRef 100, .write (large 0 2) 8 7, .allocBlock 1, .recycle 0 2,
    .allocRef 200, .recycleRef (2 * pingArenaBlockSize) 100, .allocBlock 1]

theorem arena_safe_mixedOps : ∃ s,
    run arenaStep (arenaStart 4 (fun _ => 0) (by decide)) mixedOps = some s ∧
      ArenaSafe s.arena s.live := by
  have hrun : (run arenaStep (arenaStart 4 (fun _ => 0) (by decide)) mixedOps).isSome = true := by
    decide +kernel
  obtain ⟨s, hs⟩ := Option.isSome_iff_exists.1 hrun
  exact ⟨s, hs, arena_safe 4 _ (by decide) s
    (reaches_of_run (allowedAlong_always _ _ _) hs)⟩

end PingServer
