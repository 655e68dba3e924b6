import PingServer.Ds.Arena
import Mathlib.Data.List.Perm.Basic

/-!
# The arena invariant

`ArenaInv a live` ties an arena to the allocations that are live in it. The
bitmap, the counts and the header words of the arena are exactly those of
`live`, and the live ranges are apart. Each operation keeps it, with the
allocation it made added or the one it recycled removed.
-/

namespace PingServer

open ByteMem

/-- What a user of the arena holds: a run of blocks, or a small object. -/
inductive Allocation where
  | large (startIdx blockCount : Nat)
  | small (addr size : Nat)
  deriving DecidableEq, Repr

namespace Allocation

/-- The first byte, the header word of a run included. -/
def lo : Allocation → Nat
  | large s _ => s * pingArenaBlockSize
  | small p _ => p

/-- One past the last byte. -/
def hi : Allocation → Nat
  | large s n => (s + n) * pingArenaBlockSize
  | small p n => p + n

/-- The pointer the user got, which is also the first byte the user may write. -/
def ptr : Allocation → Nat
  | large s _ => s * pingArenaBlockSize + sizeofWord
  | small p _ => p

def Apart (x y : Allocation) : Prop := x.hi ≤ y.lo ∨ y.hi ≤ x.lo

/-- Within an arena of `cap` blocks; a small object within one block of it. -/
def Inside (cap : Nat) : Allocation → Prop
  | large s n => 1 ≤ n ∧ s + n ≤ cap
  | small p n => 1 ≤ n ∧ p / pingArenaBlockSize < cap ∧ p % pingArenaBlockSize + n ≤ pingArenaBlockSize

/-- Block `i` belongs to this run. -/
def covers (i : Nat) : Allocation → Bool
  | large s n => decide (s ≤ i ∧ i < s + n)
  | small _ _ => false

/-- Block `i` holds this small object. -/
def shares (i : Nat) : Allocation → Bool
  | large _ _ => false
  | small p _ => decide (p / pingArenaBlockSize = i)

theorem Apart.symm {x y : Allocation} (h : Apart x y) : Apart y x := Or.symm h

theorem Apart.runs {s n s' n' : Nat} (h : Apart (large s n) (large s' n')) :
    s + n ≤ s' ∨ s' + n' ≤ s :=
  h.imp (fun hle => Nat.le_of_mul_le_mul_right hle (by decide))
    (fun hle => Nat.le_of_mul_le_mul_right hle (by decide))

/-- The header word of a run ends before the next block. -/
theorem word_fits {s s' : Nat} (h : s < s') :
    s * pingArenaBlockSize + sizeofWord ≤ s' * pingArenaBlockSize := by
  simp only [pingArenaBlockSize, sizeofWord]
  omega

theorem covers_large {i s n : Nat} : (large s n).covers i = true ↔ s ≤ i ∧ i < s + n := by
  simp [covers]

theorem shares_small {i p n : Nat} : (small p n).shares i = true ↔ p / pingArenaBlockSize = i := by
  simp [shares]

/-- An allocation occupies every block it covers or shares. -/
theorem touches {x : Allocation} {cap i : Nat} (hx : x.Inside cap)
    (h : x.covers i = true ∨ x.shares i = true) :
    x.lo < (i + 1) * pingArenaBlockSize ∧ i * pingArenaBlockSize < x.hi := by
  cases x with
  | large s n =>
    simp only [covers_large, shares, Bool.false_eq_true, or_false] at h
    simp only [lo, hi, pingArenaBlockSize]
    omega
  | small p n =>
    simp only [shares_small, covers, Bool.false_eq_true, false_or] at h
    simp only [Inside, pingArenaBlockSize] at hx h
    simp only [lo, hi, pingArenaBlockSize]
    omega

/-- Two runs, or a run and a small object, that share no block are apart. -/
theorem apart_large {x : Allocation} {cap s n : Nat} (hx : x.Inside cap) (hn : 1 ≤ n)
    (h : ∀ i, s ≤ i → i < s + n → x.covers i = false ∧ x.shares i = false) :
    Apart (large s n) x := by
  cases x with
  | large s' n' =>
    have hx' : 1 ≤ n' := hx.1
    by_cases hs : s ≤ s'
    · by_cases hlt : s' < s + n
      · have hc := (h s' hs hlt).1
        simp [covers] at hc
        omega
      · left
        simp only [lo, hi, pingArenaBlockSize]
        omega
    · by_cases hlt : s < s' + n'
      · have hc := (h s (Nat.le_refl s) (by omega)).1
        simp [covers] at hc
        omega
      · right
        simp only [lo, hi, pingArenaBlockSize]
        omega
  | small p m =>
    have hout : ¬ (s ≤ p / pingArenaBlockSize ∧ p / pingArenaBlockSize < s + n) := by
      rintro ⟨hlo, hhi⟩
      have hc := (h _ hlo hhi).2
      simp [shares] at hc
    simp only [Inside, pingArenaBlockSize] at hx hout
    simp only [Apart, lo, hi, pingArenaBlockSize]
    omega

end Allocation

open Allocation

def covered (live : List Allocation) (i : Nat) : Bool := live.any (covers i)

/-- How many live small objects block `i` holds. -/
def sharers (live : List Allocation) (i : Nat) : Nat := live.countP (shares i)

structure ArenaInv (a : MemoryArena) (live : List Allocation) : Prop where
  inside : ∀ x ∈ live, x.Inside a.cap
  apart : live.Pairwise Apart
  bit : ∀ i, bitAt a.bitmap i = (covered live i || decide (0 < sharers live i))
  largeCount : ∀ i, covered live i = true → a.refCount i = -1
  smallCount : ∀ i, covered live i = false → (a.refCount i).toNat = sharers live i
  lenZero : ∀ i, sharers live i = 0 → a.refLen i = 0
  lenLe : ∀ i, (a.refLen i).toNat ≤ pingArenaBlockSize
  below : ∀ p n, small p n ∈ live →
    p % pingArenaBlockSize + n ≤ (a.refLen (p / pingArenaBlockSize)).toNat
  header : ∀ s n, large s n ∈ live →
    loadLE a.start (s * pingArenaBlockSize) sizeofWord = n

@[simp] theorem covered_cons (x : Allocation) (live : List Allocation) (i : Nat) :
    covered (x :: live) i = (x.covers i || covered live i) := rfl

@[simp] theorem sharers_cons (x : Allocation) (live : List Allocation) (i : Nat) :
    sharers (x :: live) i = sharers live i + if x.shares i = true then 1 else 0 :=
  List.countP_cons

theorem sharers_pos {live : List Allocation} {x : Allocation} {i : Nat} (hx : x ∈ live)
    (h : x.shares i = true) : 0 < sharers live i :=
  List.countP_pos_iff.2 ⟨x, hx, h⟩

theorem covered_of_mem {live : List Allocation} {x : Allocation} {i : Nat} (hx : x ∈ live)
    (h : x.covers i = true) : covered live i = true :=
  List.any_eq_true.2 ⟨x, hx, h⟩

/-- Apart allocations never use the same block, unless both are small objects. -/
theorem not_touched {x : Allocation} {live : List Allocation} {cap i : Nat}
    (hin : ∀ y ∈ x :: live, y.Inside cap) (hap : (x :: live).Pairwise Apart)
    (hx : x.covers i = true) : covered live i = false ∧ sharers live i = 0 := by
  have hrest := (List.pairwise_cons.1 hap).1
  have hboth : ∀ y ∈ live, ¬ (y.covers i = true ∨ y.shares i = true) := by
    intro y hy htouch
    have hyt := touches (hin y (List.mem_cons_of_mem x hy)) htouch
    cases x with
    | large s n =>
      have hc := covers_large.1 hx
      have happ := hrest y hy
      -- a run fills its blocks, so nothing else can reach into one
      simp only [Apart, lo, hi, pingArenaBlockSize] at happ hyt
      cases y <;> omega
    | small p n => simp [covers] at hx
  constructor
  · apply Bool.eq_false_iff.2
    intro hc
    obtain ⟨y, hy, hyc⟩ := List.any_eq_true.1 hc
    exact hboth y hy (.inl hyc)
  · exact List.countP_eq_zero.2 fun y hy hs => hboth y hy (.inr hs)

namespace ArenaInv

variable {a : MemoryArena} {live : List Allocation}

theorem perm {live' : List Allocation} (h : ArenaInv a live) (p : live.Perm live') :
    ArenaInv a live' := by
  have hc : ∀ i, covered live' i = covered live i := fun i => (p.any_eq).symm
  have hs : ∀ i, sharers live' i = sharers live i := fun i => (p.countP_eq _).symm
  refine ⟨fun x hx => h.inside x (p.mem_iff.2 hx), (p.pairwise_iff Apart.symm).1 h.apart,
    fun i => by rw [hc, hs]; exact h.bit i, fun i hi => h.largeCount i (hc i ▸ hi),
    fun i hi => by rw [hs]; exact h.smallCount i (hc i ▸ hi),
    fun i hi => h.lenZero i (hs i ▸ hi), h.lenLe,
    fun q n hq => h.below q n (p.mem_iff.2 hq), fun s n hs' => h.header s n (p.mem_iff.2 hs')⟩

/-- A block whose bit is clear is used by nobody. -/
theorem unused (h : ArenaInv a live) {i : Nat} (hbit : bitAt a.bitmap i = false) :
    covered live i = false ∧ sharers live i = 0 := by
  have hb := h.bit i
  rw [hbit] at hb
  have hb' := Bool.or_eq_false_iff.1 hb.symm
  exact ⟨hb'.1, by simpa using hb'.2⟩

theorem not_covers {i : Nat} (hc : covered live i = false) :
    ∀ x ∈ live, x.covers i = false := by
  intro x hx
  exact Bool.eq_false_iff.2 fun ht => by simp [covered_of_mem hx ht] at hc

theorem not_shares {i : Nat} (hs : sharers live i = 0) : ∀ x ∈ live, x.shares i = false := by
  intro x hx
  exact Bool.eq_false_iff.2 fun ht => by have := sharers_pos hx ht; omega

/-- Handing out a run of free blocks. -/
theorem takeBlocks (h : ArenaInv a live) {s n : Nat} (hn : 1 ≤ n) (hcap : s + n ≤ a.cap)
    (hfree : ∀ j, s ≤ j → j < s + n → bitAt a.bitmap j = false) :
    ArenaInv (takeBlocks a s n) (large s n :: live) := by
  have hin : ∀ x ∈ large s n :: live, x.Inside a.cap := by
    intro x hx
    rcases List.mem_cons.1 hx with rfl | hx
    · exact ⟨hn, hcap⟩
    · exact h.inside x hx
  have hnew : ∀ x ∈ live, Apart (large s n) x := by
    intro x hx
    refine apart_large (h.inside x hx) hn fun i hlo hhi => ?_
    obtain ⟨hc, hs⟩ := h.unused (hfree i hlo hhi)
    exact ⟨not_covers hc x hx, not_shares hs x hx⟩
  have hapart : (large s n :: live).Pairwise Apart := List.pairwise_cons.2 ⟨hnew, h.apart⟩
  have hrange : ∀ i, (s ≤ i ∧ i ≤ s + n - 1) ↔ (s ≤ i ∧ i < s + n) := by intro i; omega
  refine ⟨hin, hapart, ?_, ?_, ?_, ?_, h.lenLe, ?_, ?_⟩
  · intro i
    simp only [PingServer.takeBlocks, bitAt_bitmapSetRange _ (show s ≤ s + n - 1 by omega),
      covered_cons, covers, sharers_cons, shares, hrange, h.bit i, Bool.or_assoc]
    simp
  · intro i hi
    simp only [PingServer.takeBlocks]
    by_cases hr : s ≤ i ∧ i < s + n
    · exact fill_inside _ _ hr
    · rw [fill_outside _ _ (by omega)]
      exact h.largeCount i (by simpa [covers, hr] using hi)
  · intro i hi
    simp only [covered_cons, covers, Bool.or_eq_false_iff, decide_eq_false_iff_not] at hi
    simp only [PingServer.takeBlocks, sharers_cons, shares]
    rw [fill_outside _ _ (by omega)]
    simpa using h.smallCount i hi.2
  · intro i hi
    exact h.lenZero i (by simpa [shares] using hi)
  · intro p m hp
    exact h.below p m (by simpa using hp)
  · intro s' n' hm
    simp only [PingServer.takeBlocks]
    rcases List.mem_cons.1 hm with heq | hm
    · cases heq
      apply loadLE_storeLE_of_lt _ _ _ _
      have hfits := a.cap_fits
      simp only [pingArenaBlockSize, sizeofWord] at hfits ⊢
      omega
    · have hn' : 1 ≤ n' := (h.inside _ hm).1
      have hwords : s' * pingArenaBlockSize + sizeofWord ≤ s * pingArenaBlockSize ∨
          s * pingArenaBlockSize + sizeofWord ≤ s' * pingArenaBlockSize := by
        rcases (hnew _ hm).runs with hle | hle
        · exact .inr (word_fits (by omega))
        · exact .inl (word_fits (by omega))
      exact (loadLE_storeLE_other a.start (s * pingArenaBlockSize) sizeofWord n
        (s' * pingArenaBlockSize) sizeofWord hwords).trans (h.header s' n' hm)

/-- What the two kinds of block that can take a small object have in common. -/
theorem room (h : ArenaInv a live) {b size : Nat} (hsize : size ≤ pingArenaBlockSize)
    (hroom : bitAt a.bitmap b = false ∨ bitAt a.bitmap b = true ∧ a.refCount b ≠ -1 ∧
      (a.refLen b).toNat + size < pingArenaBlockSize) :
    covered live b = false ∧ (a.refLen b).toNat + size ≤ pingArenaBlockSize ∧
      (a.refLen b).toNat < pingArenaBlockSize ∧ (a.refCount b).toNat < 255 := by
  rcases hroom with hfree | ⟨hset, hcount, hlen⟩
  · obtain ⟨hc, hs⟩ := h.unused hfree
    have hz := h.lenZero b hs
    have hn := h.smallCount b hc
    rw [hz]
    refine ⟨hc, by simpa using hsize, by decide, by omega⟩
  · have hc : covered live b = false :=
      Bool.eq_false_iff.2 fun hc => hcount (h.largeCount b hc)
    refine ⟨hc, by omega, by omega, ?_⟩
    have hne : (a.refCount b).toNat ≠ 255 := fun he => hcount (BitVec.eq_of_toNat_eq he)
    have hlt := (a.refCount b).isLt
    omega

/-- A small object behind the used bytes of a block is apart from all that is live. -/
theorem apart_small (h : ArenaInv a live) {b p size : Nat} (hcov : covered live b = false)
    (hfit : (a.refLen b).toNat + size ≤ pingArenaBlockSize)
    (hoff : (a.refLen b).toNat < pingArenaBlockSize)
    (hp : b * pingArenaBlockSize + (a.refLen b).toNat = p) :
    ∀ x ∈ live, Apart (small p size) x := by
  intro x hx
  have hin := h.inside x hx
  cases x with
  | large s n =>
    have hnc := not_covers hcov _ hx
    simp only [covers, decide_eq_false_iff_not] at hnc
    simp only [pingArenaBlockSize] at hp hoff hfit
    simp only [Apart, lo, hi, pingArenaBlockSize]
    omega
  | small q m =>
    have hbelow := h.below q m hx
    simp only [Inside, pingArenaBlockSize] at hin
    by_cases hq : q / pingArenaBlockSize = b
    · rw [hq] at hbelow
      simp only [pingArenaBlockSize] at hq hbelow hp hfit
      simp only [Apart, lo, hi]
      omega
    · simp only [pingArenaBlockSize] at hq hp hoff hfit
      simp only [Apart, lo, hi]
      omega

theorem block_of_offset {b off p : Nat} (hoff : off < pingArenaBlockSize)
    (hp : b * pingArenaBlockSize + off = p) :
    p / pingArenaBlockSize = b ∧ p % pingArenaBlockSize = off := by
  simp only [pingArenaBlockSize] at hp hoff ⊢
  omega

/-- Placing a small object in a free block, or behind the others of its block. -/
theorem takeRef (h : ArenaInv a live) {b size : Nat} (hpos : 1 ≤ size)
    (hsize : size ≤ pingArenaBlockSize) (hb : b < a.cap)
    (hroom : bitAt a.bitmap b = false ∨ bitAt a.bitmap b = true ∧ a.refCount b ≠ -1 ∧
      (a.refLen b).toNat + size < pingArenaBlockSize) :
    ArenaInv (takeRef a b size)
      (small (b * pingArenaBlockSize + (a.refLen b).toNat) size :: live) := by
  obtain ⟨hcov, hfit, hoff, hcnt⟩ := h.room hsize hroom
  generalize hp : b * pingArenaBlockSize + (a.refLen b).toNat = p
  have hnew := h.apart_small hcov hfit hoff hp
  obtain ⟨hdiv, hmod⟩ := block_of_offset hoff hp
  have hlen : (a.refLen b + BitVec.ofNat 16 size).toNat = (a.refLen b).toNat + size := by
    simp only [pingArenaBlockSize] at hfit
    simp only [BitVec.toNat_add, BitVec.toNat_ofNat]
    omega
  refine ⟨?_, List.pairwise_cons.2 ⟨hnew, h.apart⟩, ?_, ?_, ?_, ?_, ?_, ?_, ?_⟩
  · intro x hx
    rcases List.mem_cons.1 hx with rfl | hx
    · exact ⟨hpos, by rw [hdiv]; exact hb, by rw [hmod]; exact hfit⟩
    · exact h.inside x hx
  · intro i
    have hone : (b ≤ i ∧ i ≤ b) ↔ b = i := by omega
    simp only [PingServer.takeRef, bitAt_bitmapSetRange _ (Nat.le_refl b), hone, covered_cons,
      covers, sharers_cons, shares, hdiv, h.bit i, Bool.false_or]
    by_cases hbi : b = i
    · simp [hbi]
    · simp [hbi]
  · intro i hi
    have hi' : covered live i = true := by simpa [covers] using hi
    have hbi : i ≠ b := by rintro rfl; simp [hcov] at hi'
    simpa [PingServer.takeRef, hbi] using h.largeCount i hi'
  · intro i hi
    have hi' : covered live i = false := by simpa [covers] using hi
    have hn := h.smallCount i hi'
    by_cases hbi : i = b
    · subst hbi
      simp only [PingServer.takeRef, ↓reduceIte, sharers_cons, shares, hdiv, decide_true]
      rw [← hn, BitVec.toNat_add]
      exact Nat.mod_eq_of_lt (by simpa using (show (a.refCount i).toNat + 1 < 256 by omega))
    · simp [PingServer.takeRef, hbi, shares, hdiv, Ne.symm hbi, hn]
  · intro i hi
    simp only [sharers_cons, shares, hdiv, decide_eq_true_eq] at hi
    have hbi : i ≠ b := by rintro rfl; simp at hi
    simpa [PingServer.takeRef, hbi] using h.lenZero i (by omega)
  · intro i
    by_cases hbi : i = b
    · subst hbi
      simp only [PingServer.takeRef, ↓reduceIte, hlen]
      exact hfit
    · simpa [PingServer.takeRef, hbi] using h.lenLe i
  · intro q m hq
    rcases List.mem_cons.1 hq with heq | hq
    · cases heq
      rw [hmod, hdiv]
      simp only [PingServer.takeRef, ↓reduceIte, hlen, Nat.le_refl]
    · have hbelow := h.below q m hq
      by_cases hbi : q / pingArenaBlockSize = b
      · rw [hbi] at hbelow ⊢
        simp only [PingServer.takeRef, ↓reduceIte, hlen]
        omega
      · simpa [PingServer.takeRef, hbi] using hbelow
  · intro s n hs
    exact h.header s n (by simpa using hs)

/-- Recycling a run frees exactly its own blocks. -/
theorem recycle {s n : Nat} (h : ArenaInv a (large s n :: live)) :
    ArenaInv (arenaRecycle a (large s n).ptr) live := by
  have hhead := h.header s n List.mem_cons_self
  have hs : 1 ≤ n ∧ s + n ≤ a.cap := h.inside _ List.mem_cons_self
  have halone : ∀ i, s ≤ i → i < s + n → covered live i = false ∧ sharers live i = 0 :=
    fun i hlo hhi => not_touched h.inside h.apart (covers_large.2 ⟨hlo, hhi⟩)
  have hblock : (large s n).ptr - sizeofWord = s * pingArenaBlockSize := by
    simp only [ptr, sizeofWord]; omega
  have hidx : s * pingArenaBlockSize / pingArenaBlockSize = s := by
    simp only [pingArenaBlockSize]; omega
  have hrange : ∀ i, (s ≤ i ∧ i ≤ s + n - 1) ↔ (s ≤ i ∧ i < s + n) := by intro i; omega
  have hrec : arenaRecycle a (large s n).ptr =
      { a with bitmap := bitmapUnsetRange a.bitmap s (s + n - 1)
               refCount := fill a.refCount s n 0 } := by
    simp only [arenaRecycle, hblock, hidx, hhead]
  rw [hrec]
  refine ⟨fun x hx => h.inside x (List.mem_cons_of_mem _ hx), (List.pairwise_cons.1 h.apart).2,
    ?_, ?_, ?_, ?_, h.lenLe, fun p m hp => h.below p m (List.mem_cons_of_mem _ hp),
    fun s' n' hs' => h.header s' n' (List.mem_cons_of_mem _ hs')⟩
  · intro i
    have hb := h.bit i
    simp only [covered_cons, covers, sharers_cons, shares] at hb
    simp only [bitAt_bitmapUnsetRange _ (show s ≤ s + n - 1 by omega), hrange, hb]
    by_cases hr : s ≤ i ∧ i < s + n
    · obtain ⟨hc, hz⟩ := halone i hr.1 hr.2
      simp [hr, hc, hz]
    · simp [hr]
  · intro i hi
    have hr : ¬ (s ≤ i ∧ i < s + n) := by
      intro hr
      simp [(halone i hr.1 hr.2).1] at hi
    simp only [fill_outside _ _ (show i < s ∨ s + n ≤ i by omega)]
    exact h.largeCount i (by simp [hi])
  · intro i hi
    by_cases hr : s ≤ i ∧ i < s + n
    · simp only [fill_inside _ _ hr, (halone i hr.1 hr.2).2]
      rfl
    · simp only [fill_outside _ _ (show i < s ∨ s + n ≤ i by omega)]
      simpa [shares] using h.smallCount i (by simp [covers, hr, hi])
  · intro i hi
    exact h.lenZero i (by simpa [shares] using hi)

/-- No run has the block of a small object. -/
theorem small_not_covered {p size : Nat} (h : ArenaInv a (small p size :: live)) :
    covered live (p / pingArenaBlockSize) = false := by
  apply Bool.eq_false_iff.2
  intro hc
  -- a run over this block would reach into the object
  obtain ⟨y, hy, hyc⟩ := List.any_eq_true.1 hc
  have hperm := List.Perm.trans (List.Perm.cons (small p size) (List.perm_cons_erase hy))
    (List.Perm.swap y (small p size) (live.erase y))
  have h' := h.perm hperm
  have hz := (not_touched h'.inside h'.apart hyc).2
  simp [shares] at hz

/-- One reference of the block is the object's. -/
theorem small_count {p size : Nat} (h : ArenaInv a (small p size :: live)) :
    (a.refCount (p / pingArenaBlockSize) - 1).toNat = sharers live (p / pingArenaBlockSize) := by
  have hcount := h.smallCount (p / pingArenaBlockSize) (by simp [covers, h.small_not_covered])
  have hlt := (a.refCount (p / pingArenaBlockSize)).isLt
  have hone : (1 : BitVec 8).toNat = 1 := rfl
  simp only [sharers_cons, shares, decide_true, ↓reduceIte] at hcount
  rw [BitVec.toNat_sub, hone]
  omega

/-- Recycling a small object drops its reference; the last one frees the block. -/
theorem recycleRef {p size : Nat} (h : ArenaInv a (small p size :: live)) :
    ArenaInv (arenaRecycleRef a (small p size).ptr) live := by
  generalize hb : p / pingArenaBlockSize = b
  have hcov : covered live b = false := hb ▸ h.small_not_covered
  have hleft : (a.refCount b - 1).toNat = sharers live b := hb ▸ h.small_count
  have hother : ∀ i, i ≠ b → (small p size).shares i = false := by
    intro i hi
    simp [shares, hb, Ne.symm hi]
  have hcounts : ∀ i, covered live i = false →
      (if i = b then a.refCount b - 1 else a.refCount i).toNat = sharers live i := by
    intro i hi
    by_cases hbi : i = b
    · rw [hbi]; simpa using hleft
    · simpa [hbi, hother i hbi] using h.smallCount i (by simp [covers, hi])
  have hlarge : ∀ i, covered live i = true →
      (if i = b then a.refCount b - 1 else a.refCount i) = -1 := by
    intro i hi
    have hbi : i ≠ b := by rintro rfl; simp [hcov] at hi
    simpa [hbi] using h.largeCount i (by simp [hi])
  have hzero : a.refCount b - 1 = 0 ↔ sharers live b = 0 := by
    rw [← hleft]
    exact ⟨fun he => by rw [he]; rfl, fun he => BitVec.eq_of_toNat_eq he⟩
  have hbits : ∀ i, i ≠ b → bitAt a.bitmap i = (covered live i || decide (0 < sharers live i)) := by
    intro i hi
    simpa [covers, hother i hi] using h.bit i
  have hinside := fun x hx => h.inside x (List.mem_cons_of_mem _ hx)
  have hapart := (List.pairwise_cons.1 h.apart).2
  have hheader := fun s' n' hs' => h.header s' n' (List.mem_cons_of_mem _ hs')
  unfold arenaRecycleRef
  simp only [ptr, hb]
  split
  · rename_i hlast
    have hnone := hzero.1 hlast
    refine ⟨hinside, hapart, ?_, hlarge, hcounts, ?_, ?_, ?_, hheader⟩
    · intro i
      have hone : (b ≤ i ∧ i ≤ b) ↔ i = b := by omega
      simp only [bitAt_bitmapUnsetRange _ (Nat.le_refl b), hone]
      by_cases hbi : i = b
      · simp [hbi, hcov, hnone]
      · simp [hbi, hbits i hbi]
    · intro i hi
      by_cases hbi : i = b
      · simp [hbi]
      · simpa [hbi] using h.lenZero i (by simp [hother i hbi, hi])
    · intro i
      by_cases hbi : i = b
      · simp [hbi]
      · simpa [hbi] using h.lenLe i
    · intro q m hq
      have hne : q / pingArenaBlockSize ≠ b := by
        intro hqb
        have hpos := sharers_pos hq (shares_small.2 hqb)
        omega
      simpa [hne] using h.below q m (List.mem_cons_of_mem _ hq)
  · rename_i hmore
    have hsome : sharers live b ≠ 0 := fun hz => hmore (hzero.2 hz)
    refine ⟨hinside, hapart, ?_, hlarge, hcounts, ?_, h.lenLe,
      fun q m hq => h.below q m (List.mem_cons_of_mem _ hq), hheader⟩
    · intro i
      by_cases hbi : i = b
      · have hset := h.bit b
        simp only [sharers_cons, shares, hb, decide_true, ↓reduceIte] at hset
        simp [hbi, hset, Nat.pos_of_ne_zero hsome]
      · exact hbits i hbi
    · intro i hi
      have hbi : i ≠ b := by rintro rfl; exact hsome hi
      exact h.lenZero i (by simp [hother i hbi, hi])

/-- Writes by the holder of `x` to bytes of its own leave every header word alone. -/
theorem writes {x : Allocation} {mem : Memory} (h : ArenaInv a (x :: live))
    (hout : ∀ addr, addr < x.ptr ∨ x.hi ≤ addr → mem addr = a.start addr) :
    ArenaInv { a with start := mem } (x :: live) := by
  refine ⟨h.inside, h.apart, h.bit, h.largeCount, h.smallCount, h.lenZero, h.lenLe, h.below, ?_⟩
  intro s n hs
  rw [← h.header s n hs]
  refine loadLE_congr _ _ fun q hq hq' => hout q ?_
  rcases List.mem_cons.1 hs with heq | hs
  · subst heq
    exact .inl hq'
  · have hin : 1 ≤ n := (h.inside _ (List.mem_cons_of_mem x hs)).1
    have hpl : x.lo ≤ x.ptr := by cases x <;> simp [lo, ptr]
    have happ : x.hi ≤ s * pingArenaBlockSize ∨ (s + n) * pingArenaBlockSize ≤ x.lo :=
      (List.pairwise_cons.1 h.apart).1 _ hs
    simp only [pingArenaBlockSize, sizeofWord] at happ hq hq'
    omega

/-- The same for the holder of two allocations. -/
theorem writes_two {x y : Allocation} {mem : Memory} (h : ArenaInv a (x :: y :: live))
    (hout : ∀ addr, addr < x.ptr ∨ x.hi ≤ addr → addr < y.ptr ∨ y.hi ≤ addr →
      mem addr = a.start addr) :
    ArenaInv { a with start := mem } (x :: y :: live) := by
  -- first the bytes of `x`, then those of `y`
  let first : Memory := fun addr =>
    if x.ptr ≤ addr ∧ addr < x.hi then mem addr else a.start addr
  have hfirst : ArenaInv { a with start := first } (x :: y :: live) :=
    h.writes fun addr hx => if_neg (by omega)
  have hboth : ArenaInv { a with start := mem } (y :: x :: live) := by
    refine (hfirst.perm (List.Perm.swap _ _ _)).writes fun addr hy => ?_
    simp only [first]
    split
    · rfl
    · exact hout addr (by omega) hy
  exact hboth.perm (List.Perm.swap _ _ _)

end ArenaInv

end PingServer
