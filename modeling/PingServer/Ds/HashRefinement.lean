import PingServer.Ds.HashTable
import PingServer.Lib.Machine
import Mathlib.Data.List.AList

/-!
# The hash table refines a map

Over any run that keeps at most half of the slots live, the table is a finite
map: every key is found with its value, once, and rehashing loses nothing.
-/

namespace PingServer

open ByteMem Probing Machine

/-- The slots of the table without their values. -/
def slots (h : HashTable) (i : Nat) : Slot Hash :=
  match (h.table i).status with
  | .empty => .empty
  | .alive => .alive (h.table i).key
  | .delete => .deleted

theorem slots_eq_empty {h : HashTable} {i : Nat} :
    slots h i = .empty ↔ (h.table i).status = .empty := by
  unfold slots
  split <;> simp_all

theorem slots_eq_deleted {h : HashTable} {i : Nat} :
    slots h i = .deleted ↔ (h.table i).status = .delete := by
  unfold slots
  split <;> simp_all

theorem slots_eq_alive {h : HashTable} {i : Nat} {k : Hash} :
    slots h i = .alive k ↔ (h.table i).status = .alive ∧ (h.table i).key = k := by
  unfold slots
  split <;> simp_all

theorem slots_putEntry (h : HashTable) (pos : Nat) (k : Hash) (v : List Byte) :
    slots (putEntry h pos k v) = put (slots h) pos (.alive k) := by
  funext i
  by_cases hi : i = pos <;> simp [slots, putEntry, put, hi]

theorem hashValGet_putEntry {h : HashTable} {pos : Nat} (k : Hash) {v : List Byte}
    (hv : v.length = h.valSize) : hashValGet (putEntry h pos k v) pos = v := by
  apply List.ext_getElem
  · simp [hashValGet, putEntry, hv]
  · intro i h₁ h₂
    simp [hashValGet, putEntry, storeBytes_at _ _ _ _ h₂]

/-- The value blocks of different slots do not overlap. -/
theorem hashValGet_putEntry_other {h : HashTable} {pos pos' : Nat} (k : Hash) {v : List Byte}
    (hv : v.length = h.valSize) (hne : pos' ≠ pos) :
    hashValGet (putEntry h pos k v) pos' = hashValGet h pos' := by
  refine List.map_congr_left fun i hi => ?_
  have hi : i < h.valSize := List.mem_range.1 hi
  apply storeBytes_other h.valArray (h.valSize * pos) v (h.valSize * pos' + i)
  rw [hv]
  rcases Nat.lt_or_gt_of_ne hne with hlt | hgt
  · left
    have hmul := Nat.mul_le_mul_left h.valSize hlt
    rw [Nat.mul_succ] at hmul
    omega
  · right
    have hmul := Nat.mul_le_mul_left h.valSize hgt
    rw [Nat.mul_succ] at hmul
    omega

theorem probeSlot_lt {size : Nat} (hsize : 0 < size) (k : Hash) (i : Nat) :
    probeSlot size k i < size := Nat.mod_lt _ hsize

/-- No square in a table overflows 64 bits. -/
theorem probeSlot_eq {size i : Nat} (hsize : size < 2 ^ 31) (k : Hash) (hi : i < size) :
    probeSlot size k i = quadratic size k.toNat i := by
  have hk := k.isLt
  have hsq : i * i ≤ 2 ^ 31 * 2 ^ 31 := Nat.mul_le_mul (by omega) (by omega)
  have hfits : k.toNat + i * i < 2 ^ 64 := by omega
  rw [probeSlot, Nat.mod_eq_of_lt hfits, quadratic]

/-! ## What the loops do -/

theorem queryLoop_eq (h : HashTable) (k : Hash) (fuel : Nat) :
    ∀ i, queryLoop h k fuel i = (find (probeSlot h.size) (slots h) k fuel i).map (hashValGet h) := by
  induction fuel with
  | zero =>
    intro i
    rfl
  | succ fuel ih =>
    intro i
    simp only [queryLoop, find, slots_eq_alive, slots_eq_empty, ih]
    split
    · rfl
    · split <;> rfl

/-- The outcomes of an insertion. -/
inductive Inserted (h : HashTable) (k : Hash) (v : List Byte) : Bool × HashTable → Prop
  | found (s : Nat) : s < h.size → slots h s = .alive k →
      Inserted h k v (hashValGet h s != v, h)
  | stored (i : Nat) (deleteCount : BitVec 32) : i < h.size → Crossed (probeSlot h.size) (slots h) k i →
      (∀ j, j < h.size → Crossed (probeSlot h.size) (slots h) k j →
        slots h (probeSlot h.size k j) ≠ .alive k) →
      (slots h (probeSlot h.size k i)).isAlive = false →
      Inserted h k v (true, { putEntry h (probeSlot h.size k i) k v with
        deleteCount := deleteCount, aliveCount := h.aliveCount + 1 })
  | full : (∀ j, j < h.size → (slots h (probeSlot h.size k j)).isAlive = true) →
      Inserted h k v (false, h)

/-- The insertion has walked past `i` slots; `firstDeleted` is the first tombstone of them. -/
structure Walked (h : HashTable) (k : Hash) (i : Nat) (firstDeleted : Option Nat) : Prop where
  crossed : Crossed (probeSlot h.size) (slots h) k i
  other : ∀ j, j < i → slots h (probeSlot h.size k j) ≠ .alive k
  deleted : ∀ d, firstDeleted = some d → ∃ j, j < i ∧ probeSlot h.size k j = d ∧ slots h d = .deleted
  none : firstDeleted = none → ∀ j, j < i → slots h (probeSlot h.size k j) ≠ .deleted

namespace Walked

variable {h : HashTable} {k : Hash} {v : List Byte} {i d : Nat} {firstDeleted : Option Nat}

theorem begin : Walked h k 0 .none where
  crossed _ hj := absurd hj (Nat.not_lt_zero _)
  other _ hj := absurd hj (Nat.not_lt_zero _)
  deleted _ hd := nomatch hd
  none _ _ hj := absurd hj (Nat.not_lt_zero _)

/-- No slot that the probe can reach holds the key once it meets an empty one. -/
theorem absent (hw : Walked h k i firstDeleted) (hempty : slots h (probeSlot h.size k i) = .empty)
    (j : Nat) (hj : Crossed (probeSlot h.size) (slots h) k j) :
    slots h (probeSlot h.size k j) ≠ .alive k := by
  rcases Nat.lt_trichotomy j i with hlt | rfl | hgt
  · exact hw.other j hlt
  · simp [hempty]
  · exact absurd hempty (hj i hgt)

theorem reuse (hw : Walked h k i (some d)) (hi : i ≤ h.size)
    (habsent : ∀ j, j < h.size → Crossed (probeSlot h.size) (slots h) k j →
      slots h (probeSlot h.size k j) ≠ .alive k) :
    Inserted h k v (true, { putEntry h d k v with
      deleteCount := h.deleteCount - 1, aliveCount := h.aliveCount + 1 }) := by
  obtain ⟨j, hj, rfl, hdel⟩ := hw.deleted d rfl
  refine .stored j _ (by omega) (fun j' hj' => hw.crossed j' (by omega)) habsent ?_
  rw [hdel]
  rfl

/-- All slots are taken, and no tombstone is among them. -/
theorem full (hw : Walked h k h.size .none) : Inserted h k v (false, h) := by
  refine .full fun j hj => ?_
  cases hslot : slots h (probeSlot h.size k j) with
  | empty => exact absurd hslot (hw.crossed j hj)
  | alive k' => rfl
  | deleted => exact absurd hslot (hw.none rfl j hj)

theorem step (hw : Walked h k i firstDeleted)
    (halive : slots h (probeSlot h.size k i) ≠ .alive k)
    (hempty : slots h (probeSlot h.size k i) ≠ .empty) :
    Walked h k (i + 1) (if firstDeleted = .none ∧
      (h.table (probeSlot h.size k i)).status = .delete then some (probeSlot h.size k i)
      else firstDeleted) := by
  refine ⟨hw.crossed.succ hempty, Nat.forall_lt_succ_right.2 ⟨hw.other, halive⟩, ?_, ?_⟩
  · intro d hd
    split at hd
    · rename_i hfirst
      cases hd
      exact ⟨i, Nat.lt_succ_self i, rfl, slots_eq_deleted.2 hfirst.2⟩
    · obtain ⟨j, hj, heq, hdel⟩ := hw.deleted d hd
      exact ⟨j, by omega, heq, hdel⟩
  · intro hd
    split at hd
    · cases hd
    · rename_i hlater
      refine Nat.forall_lt_succ_right.2 ⟨hw.none hd, ?_⟩
      exact fun hdel => hlater ⟨hd, slots_eq_deleted.1 hdel⟩

end Walked

theorem insertLoop_spec {h : HashTable} {k : Hash} {v : List Byte} (hsize : 0 < h.size)
    (fuel : Nat) : ∀ {i firstDeleted}, i + fuel = h.size → Walked h k i firstDeleted →
      Inserted h k v (insertLoop h k v fuel i firstDeleted) := by
  induction fuel with
  | zero =>
    intro i firstDeleted hi hw
    obtain rfl : i = h.size := hi
    cases firstDeleted with
    | some d => exact hw.reuse (Nat.le_refl _) fun j hj _ => hw.other j hj
    | none => exact hw.full
  | succ fuel ih =>
    intro i firstDeleted hi hw
    simp only [insertLoop]
    split
    · rename_i halive
      exact .found _ (probeSlot_lt hsize k i) (slots_eq_alive.2 halive)
    · rename_i halive
      have halive := mt slots_eq_alive.1 halive
      by_cases hempty : (h.table (probeSlot h.size k i)).status = .empty
      · have hslot := slots_eq_empty.2 hempty
        have habsent := hw.absent hslot
        simp only [hempty, reduceCtorEq, and_false, ↓reduceIte]
        cases firstDeleted with
        | some d => exact hw.reuse (by omega) fun j _ => habsent j
        | none => exact .stored i _ (by omega) hw.crossed (fun j _ => habsent j) (by rw [hslot]; rfl)
      · rw [if_neg hempty]
        exact ih (by omega) (hw.step halive (mt slots_eq_empty.1 hempty))

theorem insertLoop_init {h : HashTable} {k : Hash} {v : List Byte} (hsize : 0 < h.size) :
    Inserted h k v (insertLoop h k v h.size 0 none) :=
  insertLoop_spec hsize h.size (Nat.zero_add _) .begin

/-- The table with a tombstone in slot `s`. -/
def kill (h : HashTable) (s : Nat) : HashTable :=
  { h with
    table := fun j => if j = s then { h.table s with status := .delete } else h.table j
    deleteCount := h.deleteCount + 1 }

theorem slots_kill (h : HashTable) (s : Nat) : slots (kill h s) = put (slots h) s .deleted := by
  funext j
  by_cases hj : j = s <;> simp [slots, kill, put, hj]

/-- A deletion is a search in its own probe order. -/
theorem deleteLoop_eq (h : HashTable) (k : Hash) (fuel : Nat) : ∀ i, deleteLoop h k fuel i =
    match find (deleteSlot h.size) (slots h) k fuel i with
    | some s => (true, kill h s)
    | none => (false, h) := by
  induction fuel with
  | zero =>
    intro i
    rfl
  | succ fuel ih =>
    intro i
    simp only [deleteLoop, find, slots_eq_alive, slots_eq_empty, ih]
    split
    · rfl
    · split <;> rfl

/-! ## The invariant -/

/-- The table holds `v` under `k`. -/
def Stores (h : HashTable) (k : Hash) (v : List Byte) : Prop :=
  ∃ s, s < h.size ∧ slots h s = .alive k ∧ hashValGet h s = v

/-- A table of `p` slots of which at most half are in use. -/
structure HashInv (p valSize : Nat) (h : HashTable) : Prop where
  size : h.size = p
  valSize : h.valSize = valSize
  probed : WellProbed (probeSlot p) p (slots h)

section

variable {p valSize : Nat} {h : HashTable} {k : Hash} {v : List Byte}

theorem HashInv.query (hinv : HashInv p valSize h) (hpos : 0 < p) :
    hashQuery h k = some v ↔ Stores h k v := by
  obtain ⟨rfl, rfl, hprobed⟩ := hinv
  rw [hashQuery, queryLoop_eq, Option.map_eq_some_iff]
  simp only [hprobed.find_eq_some (probeSlot_lt hpos), Stores, and_assoc]

theorem HashInv.killed (hinv : HashInv p valSize h) (s : Nat) : HashInv p valSize (kill h s) := by
  refine ⟨hinv.size, hinv.valSize, ?_⟩
  rw [slots_kill]
  exact hinv.probed.kill s

/-- A tombstone takes away the key of its slot and no other. -/
theorem HashInv.stores_kill (hinv : HashInv p valSize h) {s : Nat} (hs : s < h.size)
    (halive : slots h s = .alive k) (k' : Hash) (v : List Byte) :
    Stores (kill h s) k' v ↔ k' ≠ k ∧ Stores h k' v := by
  have hunique := hinv.probed.unique
  rw [← hinv.size] at hunique
  constructor
  · rintro ⟨j, hj, hkj, hv⟩
    rw [slots_kill] at hkj
    have hjs : j ≠ s := by
      rintro rfl
      rw [put_self] at hkj
      cases hkj
    rw [put_other _ _ hjs] at hkj
    refine ⟨?_, j, hj, hkj, hv⟩
    rintro rfl
    exact hjs (hunique j s k' hj hs hkj halive)
  · rintro ⟨hne, j, hj, hkj, hv⟩
    have hjs : j ≠ s := by
      rintro rfl
      rw [halive] at hkj
      exact hne (Slot.alive.inj hkj).symm
    refine ⟨j, hj, ?_, hv⟩
    rw [slots_kill, put_other _ _ hjs]
    exact hkj

/-- Storing an absent key adds that key and no other. -/
theorem HashInv.stored (hinv : HashInv p valSize h) (hv : v.length = valSize) {i : Nat} (hi : i < p)
    (hpos : 0 < p) (hcross : Crossed (probeSlot p) (slots h) k i)
    (habsent : ∀ s, s < p → slots h s ≠ .alive k)
    (hfree : (slots h (probeSlot p k i)).isAlive = false) (deleteCount aliveCount : BitVec 32) :
    let h' := { putEntry h (probeSlot p k i) k v with
      deleteCount := deleteCount, aliveCount := aliveCount }
    HashInv p valSize h' ∧
      (∀ k' v', Stores h' k' v' ↔ k' = k ∧ v' = v ∨ Stores h k' v') ∧
      (aliveSlots p (slots h')).card = (aliveSlots p (slots h)).card + 1 := by
  obtain ⟨rfl, rfl, hprobed⟩ := hinv
  intro h'
  have hslots : slots h' = put (slots h) (probeSlot h.size k i) (.alive k) := slots_putEntry h _ k v
  have hlt : probeSlot h.size k i < h.size := probeSlot_lt hpos k i
  refine ⟨⟨rfl, rfl, ?_⟩, ?_, ?_⟩
  · rw [hslots]
    exact hprobed.store hi hcross habsent
  · intro k' v'
    constructor
    · rintro ⟨s, hs, hk', hv'⟩
      rw [hslots] at hk'
      by_cases heq : s = probeSlot h.size k i
      · subst heq
        rw [put_self] at hk'
        cases hk'
        exact .inl ⟨rfl, hv'.symm.trans (hashValGet_putEntry k hv)⟩
      · rw [put_other _ _ heq] at hk'
        exact .inr ⟨s, hs, hk', (hashValGet_putEntry_other k hv heq).symm.trans hv'⟩
    · rintro (⟨rfl, rfl⟩ | ⟨s, hs, hk', hv'⟩)
      · exact ⟨_, hlt, by rw [hslots, put_self], hashValGet_putEntry k' hv⟩
      · have heq : s ≠ probeSlot h.size k i := by
          rintro rfl
          rw [hk'] at hfree
          cases hfree
        exact ⟨s, hs, by rw [hslots, put_other _ _ heq]; exact hk',
          (hashValGet_putEntry_other k hv heq).trans hv'⟩
  · rw [hslots]
    exact card_aliveSlots_store hlt hfree

end

/-- An absent key is stored, or the probe has met only other keys. -/
theorem HashInv.insert_absent {p valSize : Nat} {h : HashTable} {k : Hash} {v : List Byte}
    (hinv : HashInv p valSize h) (hpos : 0 < p) (hv : v.length = valSize)
    (habsent : ∀ s, s < p → slots h s ≠ .alive k) :
    insertLoop h k v h.size 0 none = (false, h) ∧
        (∀ i, i < p → (slots h (probeSlot p k i)).isAlive = true) ∨
      ∃ h', insertLoop h k v h.size 0 none = (true, h') ∧ HashInv p valSize h' ∧
        (∀ k' v', Stores h' k' v' ↔ k' = k ∧ v' = v ∨ Stores h k' v') ∧
        (aliveSlots p (slots h')).card = (aliveSlots p (slots h)).card + 1 := by
  have hsize := hinv.size
  have hspec := insertLoop_init (k := k) (v := v) (h := h) (by rw [hsize]; exact hpos)
  generalize insertLoop h k v h.size 0 none = r at hspec
  cases hspec with
  | found s hs halive => exact absurd halive (habsent s (hsize ▸ hs))
  | stored i deleteCount hi hcross _ hfree =>
    rw [hsize] at hi hcross hfree
    have hstored := hinv.stored hv hi hpos hcross habsent hfree deleteCount (h.aliveCount + 1)
    rw [hsize]
    exact .inr ⟨_, rfl, hstored⟩
  | full hall =>
    rw [hsize] at hall
    exact .inl ⟨rfl, hall⟩

/-- With fewer keys than half the slots, an absent key is always stored. -/
theorem HashInv.insert {p valSize : Nat} {h : HashTable} {k : Hash} {v : List Byte}
    (hinv : HashInv p valSize h) (hp : p.Prime) (hmax : p < 2 ^ 31) (hv : v.length = valSize)
    (habsent : ∀ s, s < p → slots h s ≠ .alive k)
    (hfew : 2 * (aliveSlots p (slots h)).card < p) :
    ∃ h', insertLoop h k v h.size 0 none = (true, h') ∧ HashInv p valSize h' ∧
      (∀ k' v', Stores h' k' v' ↔ k' = k ∧ v' = v ∨ Stores h k' v') ∧
      (aliveSlots p (slots h')).card = (aliveSlots p (slots h)).card + 1 := by
  rcases hinv.insert_absent hp.pos hv habsent with ⟨_, hall⟩ | hstored
  · -- the first half of the turns would all meet keys
    have hp2 := hp.two_le
    have hinj : Set.InjOn (probeSlot p k) (Set.Iio ((p + 1) / 2)) := by
      intro i hi j hj heq
      rw [Set.mem_Iio] at hi hj
      rw [probeSlot_eq hmax k (by omega), probeSlot_eq hmax k (by omega)] at heq
      exact quadratic_injOn hp k.toNat hi hj heq
    obtain ⟨i, hi, hfree⟩ := exists_free (t := slots h) (fun i _ => probeSlot_lt hp.pos k i) hinj
      (by omega)
    rw [hall i (by omega)] at hfree
    cases hfree
  · exact hstored

/-- Inserting a key that is there already changes nothing. -/
theorem HashInv.insert_present {p valSize : Nat} {h : HashTable} {k : Hash} (v : List Byte)
    (hinv : HashInv p valSize h) {s : Nat} (hs : s < p) (halive : slots h s = .alive k) :
    (insertLoop h k v h.size 0 none).2 = h := by
  have hsize := hinv.size
  have hspec := insertLoop_init (k := k) (v := v) (h := h) (by rw [hsize]; omega)
  obtain ⟨i, hi, hprobe, hcross⟩ := hinv.probed.chain s hs k halive
  generalize insertLoop h k v h.size 0 none = r at hspec
  cases hspec with
  | found s' hs' halive' => rfl
  | stored _ _ _ _ habsent _ =>
    rw [hsize] at habsent
    exact absurd (hprobe.symm ▸ halive) (habsent i hi hcross)
  | full _ => rfl

/-! ## Rehashing -/

/-- The bytes that a rehash takes for the value of slot `i`. -/
def movedVal (h : HashTable) (i : Nat) : List Byte :=
  (List.range h.valSize).map fun j => h.valArray (i * h.valSize % 2 ^ 32 + j)

/-- What holds of the slots passed so far, whether they have a key or not, holds at the end. -/
theorem rehashLoop_induct {old : HashTable} {n : Nat} {P : Nat → HashTable → Prop}
    (hskip : ∀ i h, i < n → (slots old i).isAlive = false → P i h → P (i + 1) h)
    (hmove : ∀ i h k, i < n → slots old i = .alive k → P i h →
      P (i + 1) (insertLoop h k (movedVal old i) h.size 0 none).2) (fuel : Nat) :
    ∀ {i h}, i + fuel = n → P i h → P n (rehashLoop old fuel i h) := by
  induction fuel with
  | zero =>
    intro i h hi hP
    obtain rfl : i = n := hi
    exact hP
  | succ fuel ih =>
    intro i h hi hP
    simp only [rehashLoop]
    apply ih (by omega)
    split
    · rename_i halive
      exact hmove i h _ (by omega) (slots_eq_alive.2 ⟨halive, rfl⟩) hP
    · rename_i halive
      apply hskip i h (by omega) _ hP
      rw [← Bool.not_eq_true, Slot.isAlive_iff]
      rintro ⟨k, hk⟩
      exact halive (slots_eq_alive.1 hk).1

/-- The value is where the table has it, if no offset overflows 32 bits. -/
theorem movedVal_eq {p valSize i : Nat} {h : HashTable} (hinv : HashInv p valSize h)
    (hfit : p * valSize < 2 ^ 32) (hi : i < p) : movedVal h i = hashValGet h i := by
  have hle : i * valSize ≤ p * valSize := Nat.mul_le_mul_right _ (by omega)
  rw [movedVal, hashValGet, hinv.valSize, Nat.mod_eq_of_lt (by omega), Nat.mul_comm]

/-- What the new table holds once the first `i` slots of the old one were moved. -/
structure Moved (p valSize : Nat) (old : HashTable) (i : Nat) (h : HashTable) : Prop where
  inv : HashInv p valSize h
  stores : ∀ k v, Stores h k v ↔ ∃ s, s < i ∧ slots old s = .alive k ∧ hashValGet old s = v
  count : (aliveSlots p (slots h)).card = (aliveSlots i (slots old)).card

section

variable {p valSize : Nat} {old : HashTable}

theorem Moved.empty (old : HashTable) (vals : Memory) : Moved p valSize old 0 (emptyTable p valSize vals) where
  inv := ⟨rfl, rfl, WellProbed.empty⟩
  stores := by
    intro k v
    constructor
    · rintro ⟨s, -, halive, -⟩
      cases halive
    · rintro ⟨s, hs, -⟩
      omega
  count := by
    have hnone : aliveSlots p (slots (emptyTable p valSize vals)) = ∅ := by
      rw [Finset.eq_empty_iff_forall_notMem]
      intro s hs
      cases (mem_aliveSlots.1 hs).2
    rw [hnone]
    rfl

/-- A slot without a key adds nothing. -/
theorem Moved.skip {i : Nat} {h : HashTable} (hmoved : Moved p valSize old i h)
    (hnot : (slots old i).isAlive = false) : Moved p valSize old (i + 1) h := by
  refine ⟨hmoved.inv, fun k v => ?_, ?_⟩
  · rw [hmoved.stores]
    constructor
    · rintro ⟨s, hs, hrest⟩
      exact ⟨s, by omega, hrest⟩
    · rintro ⟨s, hs, hk, hv⟩
      rcases Nat.lt_succ_iff_lt_or_eq.1 hs with hlt | rfl
      · exact ⟨s, hlt, hk, hv⟩
      · rw [hk] at hnot
        cases hnot
  · rw [hmoved.count, card_aliveSlots_succ, hnot]
    rfl

/-- The key of the next slot is new to the table, and finds a place. -/
theorem Moved.move (hp : p.Prime) (hmax : p < 2 ^ 31) (hold : HashInv p valSize old)
    (hfew : 2 * (aliveSlots p (slots old)).card ≤ p) {i : Nat} {h : HashTable} {k : Hash}
    (hmoved : Moved p valSize old i h) (hi : i < p) (hkey : slots old i = .alive k) :
    Moved p valSize old (i + 1) (insertLoop h k (hashValGet old i) h.size 0 none).2 := by
  have hv : (hashValGet old i).length = valSize := by simp [hashValGet, hold.valSize]
  have hmore : (aliveSlots (i + 1) (slots old)).card = (aliveSlots i (slots old)).card + 1 := by
    rw [card_aliveSlots_succ, hkey]
    rfl
  have hlast : (aliveSlots (i + 1) (slots old)).card ≤ (aliveSlots p (slots old)).card := by
    refine Finset.card_le_card fun s hs => ?_
    have hs' := mem_aliveSlots.1 hs
    exact mem_aliveSlots.2 ⟨by omega, hs'.2⟩
  have habsent : ∀ s, s < p → slots h s ≠ .alive k := by
    intro s hs hk
    obtain ⟨s', hs', hk', -⟩ := (hmoved.stores k (hashValGet h s)).1
      ⟨s, by rw [hmoved.inv.size]; exact hs, hk, rfl⟩
    have hsame := hold.probed.unique s' i k (by omega) hi hk' hkey
    omega
  obtain ⟨h', heq, hinv, hstores, hcount⟩ := hmoved.inv.insert hp hmax hv habsent
    (by rw [hmoved.count]; omega)
  rw [heq]
  refine ⟨hinv, fun k' v' => ?_, by rw [hcount, hmoved.count, hmore]⟩
  rw [hstores, hmoved.stores]
  constructor
  · rintro (⟨rfl, rfl⟩ | ⟨s, hs, hrest⟩)
    · exact ⟨i, by omega, hkey, rfl⟩
    · exact ⟨s, by omega, hrest⟩
  · rintro ⟨s, hs, hk', hv'⟩
    rcases Nat.lt_succ_iff_lt_or_eq.1 hs with hlt | rfl
    · exact .inr ⟨s, hlt, hk', hv'⟩
    · rw [hkey] at hk'
      cases hk'
      exact .inl ⟨rfl, hv'.symm⟩

/-- A rehash, should it happen, keeps every key with its value. -/
theorem HashInv.check (hp : p.Prime) (hmax : p < 2 ^ 31) (hfit : p * valSize < 2 ^ 32)
    (hold : HashInv p valSize old) (hfew : 2 * (aliveSlots p (slots old)).card ≤ p)
    (alloc : Option Memory) :
    HashInv p valSize (hashCheck old alloc) ∧
      (∀ k v, Stores (hashCheck old alloc) k v ↔ Stores old k v) ∧
      (aliveSlots p (slots (hashCheck old alloc))).card = (aliveSlots p (slots old)).card := by
  unfold hashCheck
  simp only
  split
  · exact ⟨hold, fun _ _ => Iff.rfl, rfl⟩
  · cases alloc with
    | none => exact ⟨hold, fun _ _ => Iff.rfl, rfl⟩
    | some vals =>
      simp only
      rw [hold.size, hold.valSize]
      have hmoved : Moved p valSize old p (rehashLoop old p 0 (emptyTable p valSize vals)) := by
        refine rehashLoop_induct (fun i h _ hfree hmoved => hmoved.skip hfree)
          (fun i h k hi hkey hmoved => ?_) p (Nat.zero_add p) (Moved.empty _ vals)
        rw [movedVal_eq hold hfit hi]
        exact hmoved.move hp hmax hold hfew hi hkey
      refine ⟨hmoved.inv, fun k v => ?_, hmoved.count⟩
      rw [hmoved.stores, Stores, hold.size]

end

/-! ## Runs -/

abbrev HashMap := AList fun _ : Hash => List Byte

/-- The table, and the map it should be. -/
structure HashState where
  table : HashTable
  live : HashMap

inductive HashOp where
  | insert (hashKey : Hash) (val : List Byte) (alloc : Option Memory)
  | delete (hash : Hash) (alloc : Option Memory)
  | query (hash : Hash)

/-- `none` where the caller's value is not of the size of the table's values. -/
def hashStep (s : HashState) : HashOp → Option HashState
  | .insert k v alloc =>
    if v.length = s.table.valSize then
      let r := hashInsert s.table k v alloc
      some ⟨r.2, if k ∉ s.live ∧ r.1 = true then s.live.insert k v else s.live⟩
    else none
  | .delete k alloc =>
    let r := hashDelete s.table k alloc
    some ⟨r.2, if r.1 = true then s.live.erase k else s.live⟩
  | .query _ => some s

def hashStart (p valSize : Nat) (vals : Memory) : HashState := ⟨emptyTable p valSize vals, ∅⟩

/-- The operation leaves at most `number` keys live. -/
def withinNumber (number : Nat) (s : HashState) (op : HashOp) : Prop :=
  ∀ t, hashStep s op = some t → t.live.keys.length ≤ number

instance (number : Nat) (s : HashState) (op : HashOp) : Decidable (withinNumber number s op) :=
  inferInstanceAs (Decidable (∀ t, hashStep s op = some t → t.live.keys.length ≤ number))

/-- The table is the map. -/
structure Holds (p valSize : Nat) (s : HashState) : Prop where
  inv : HashInv p valSize s.table
  stores : ∀ k v, Stores s.table k v ↔ s.live.lookup k = some v
  count : (aliveSlots p (slots s.table)).card = s.live.keys.length

theorem Holds.absent {p valSize : Nat} {s : HashState} {k : Hash} (h : Holds p valSize s) :
    k ∉ s.live ↔ ∀ i, i < p → slots s.table i ≠ .alive k := by
  rw [← AList.lookup_eq_none, Option.eq_none_iff_forall_ne_some]
  constructor
  · intro hnone i hi halive
    exact hnone _ ((h.stores k _).1 ⟨i, by rw [h.inv.size]; exact hi, halive, rfl⟩)
  · intro hall v hv
    obtain ⟨i, hi, halive, -⟩ := (h.stores k v).2 hv
    exact hall i (by rw [← h.inv.size]; exact hi) halive

theorem Holds.check {p valSize : Nat} {s : HashState} (h : Holds p valSize s) (hp : p.Prime)
    (hmax : p < 2 ^ 31) (hfit : p * valSize < 2 ^ 32) (hfew : 2 * s.live.keys.length ≤ p)
    (alloc : Option Memory) : Holds p valSize ⟨hashCheck s.table alloc, s.live⟩ := by
  obtain ⟨hinv, hstores, hcount⟩ := h.inv.check hp hmax hfit (by rw [h.count]; exact hfew) alloc
  exact ⟨hinv, fun k v => (hstores k v).trans (h.stores k v), hcount.trans h.count⟩

theorem Holds.deleteLoop {p valSize : Nat} {s : HashState} (h : Holds p valSize s) (hpos : 0 < p)
    (k : Hash) : Holds p valSize ⟨(deleteLoop s.table k s.table.size 0).2,
      if (deleteLoop s.table k s.table.size 0).1 = true then s.live.erase k else s.live⟩ := by
  rw [deleteLoop_eq]
  cases hfind : find (deleteSlot s.table.size) (slots s.table) k s.table.size 0 with
  | none => exact h
  | some i =>
    obtain ⟨halive, j, -, -, hslot⟩ := find_some _ hfind
    have hi : i < s.table.size := by
      rw [← hslot, h.inv.size]
      exact Nat.mod_lt _ hpos
    have hmem : k ∈ s.live := by
      by_contra hno
      exact h.absent.1 hno i (by rw [← h.inv.size]; exact hi) halive
    refine ⟨h.inv.killed i, fun k' v => ?_, ?_⟩
    · rw [h.inv.stores_kill hi halive, h.stores]
      simp only [↓reduceIte]
      by_cases hk : k' = k
      · subst hk
        rw [AList.lookup_erase]
        exact iff_of_false (fun hboth => hboth.1 rfl) (by simp)
      · rw [AList.lookup_erase_ne hk, and_iff_right hk]
    · have hin : i ∈ aliveSlots p (slots s.table) := by
        rw [h.inv.size] at hi
        exact mem_aliveSlots.2 ⟨hi, by rw [halive]; rfl⟩
      simp only [slots_kill, aliveSlots_kill, ↓reduceIte]
      rw [Finset.card_erase_of_mem hin, AList.keys_erase, List.length_erase_of_mem hmem, h.count]

theorem Holds.insertLoop {p valSize : Nat} {s : HashState} (h : Holds p valSize s) (hpos : 0 < p)
    {k : Hash} {v : List Byte} (hv : v.length = valSize) :
    Holds p valSize ⟨(insertLoop s.table k v s.table.size 0 none).2,
      if k ∉ s.live ∧ (insertLoop s.table k v s.table.size 0 none).1 = true then s.live.insert k v
      else s.live⟩ := by
  by_cases hmem : k ∈ s.live
  · obtain ⟨v', hv'⟩ := Option.isSome_iff_exists.1 (AList.lookup_isSome.2 hmem)
    obtain ⟨i, hi, halive, -⟩ := (h.stores k v').2 hv'
    rw [h.inv.insert_present v (by rw [← h.inv.size]; exact hi) halive]
    simp only [hmem, not_true_eq_false, false_and, ↓reduceIte]
    exact h
  · rcases h.inv.insert_absent hpos hv (h.absent.1 hmem) with ⟨heq, -⟩ | ⟨h', heq, hinv, hstores, hcount⟩
    · rw [heq]
      simp only [Bool.false_eq_true, and_false, ↓reduceIte]
      exact h
    · rw [heq]
      simp only [hmem, not_false_eq_true, and_self, ↓reduceIte]
      refine ⟨hinv, ?_, ?_⟩
      · intro k' v'
        rw [hstores, h.stores]
        by_cases hk : k' = k
        · subst hk
          rw [AList.lookup_insert, AList.lookup_eq_none.2 hmem]
          simp [eq_comm]
        · simp [AList.lookup_insert_ne hk, hk]
      · rw [hcount, h.count, AList.insert_of_notMem hmem]
        rfl

theorem Holds.query {p valSize : Nat} {s : HashState} (h : Holds p valSize s) (hpos : 0 < p)
    (k : Hash) : hashQuery s.table k = s.live.lookup k :=
  Option.ext fun v => (h.inv.query hpos).trans (h.stores k v)

/-- One operation keeps table and map together. -/
theorem hashStep_holds {p valSize : Nat} {s t : HashState} {op : HashOp} (hp : p.Prime)
    (hmax : p < 2 ^ 31) (hfit : p * valSize < 2 ^ 32) (h : Holds p valSize s)
    (hfew : 2 * s.live.keys.length ≤ p) (hstep : hashStep s op = some t) : Holds p valSize t := by
  cases op with
  | insert k v alloc =>
    simp only [hashStep] at hstep
    split at hstep <;> cases hstep
    rename_i hv
    exact (h.check hp hmax hfit hfew alloc).insertLoop hp.pos (hv.trans h.inv.valSize)
  | delete k alloc =>
    cases hstep
    exact (h.check hp hmax hfit hfew alloc).deleteLoop hp.pos k
  | query k =>
    cases hstep
    exact h

theorem Holds.start (p valSize : Nat) (vals : Memory) : Holds p valSize (hashStart p valSize vals) where
  inv := (Moved.empty (emptyTable p valSize vals) vals).inv
  stores := by
    intro k v
    constructor
    · rintro ⟨s, -, halive, -⟩
      cases halive
    · intro hnone
      cases hnone
  count := (Moved.empty (emptyTable p valSize vals) vals).count

theorem hashRun_holds {p number valSize : Nat} {vals : Memory} {s : HashState} (hp : p.Prime)
    (hmax : p < 2 ^ 31) (hfit : p * valSize < 2 ^ 32) (hnumber : 2 * number ≤ p)
    (h : Reaches (graph hashStep) (withinNumber number) (hashStart p valSize vals) s) :
    Holds p valSize s ∧ s.live.keys.length ≤ number := by
  refine h.invariant (fun s => Holds p valSize s ∧ s.live.keys.length ≤ number)
    ⟨Holds.start p valSize vals, Nat.zero_le _⟩ fun a op b hinv hok hstep => ⟨?_, hok b hstep⟩
  exact hashStep_holds hp hmax hfit hinv.1 (by omega) hstep

/-- The table as its callers see it. -/
structure Refines (number : Nat) (h : HashTable) (live : HashMap) : Prop where
  query : ∀ k, hashQuery h k = live.lookup k
  once : ∀ i j, i < h.size → j < h.size → (h.table i).status = .alive →
    (h.table j).status = .alive → (h.table i).key = (h.table j).key → i = j
  accepts : ∀ k v alloc, v.length = h.valSize → k ∉ live → live.keys.length < number →
    (hashInsert h k v alloc).1 = true
  rehash : ∀ alloc k, hashQuery (hashCheck h alloc) k = hashQuery h k

/-- Over every run with at most `number` live keys the table is its map. -/
theorem hash_refines (p number valSize : Nat) (vals : Memory) (hp : p.Prime) (hmax : p < 2 ^ 31)
    (hnumber : 2 * number ≤ p) (hfit : p * valSize < 2 ^ 32) (s : HashState)
    (h : Reaches (graph hashStep) (withinNumber number) (hashStart p valSize vals) s) :
    Refines number s.table s.live := by
  obtain ⟨hholds, hlen⟩ := hashRun_holds hp hmax hfit hnumber h
  have hfew : 2 * s.live.keys.length ≤ p := by omega
  refine ⟨hholds.query hp.pos, ?_, ?_, ?_⟩
  · intro i j hi hj hai haj hkey
    rw [hholds.inv.size] at hi hj
    exact hholds.inv.probed.unique i j _ hi hj (slots_eq_alive.2 ⟨hai, rfl⟩)
      (slots_eq_alive.2 ⟨haj, hkey.symm⟩)
  · intro k v alloc hv hmem hroom
    have hcheck := hholds.check hp hmax hfit hfew alloc
    obtain ⟨h', heq, -⟩ := hcheck.inv.insert hp hmax (hv.trans hholds.inv.valSize)
      (hcheck.absent.1 hmem) (by rw [hcheck.count]; change 2 * s.live.keys.length < p; omega)
    exact congrArg Prod.fst heq
  · intro alloc k
    have hcheck := hholds.check hp hmax hfit hfew alloc
    exact (hcheck.query hp.pos k).trans (hholds.query hp.pos k).symm

/-- Two keys that share their probe order in seven slots, and a tombstone. -/
def collidingOps : List HashOp :=
  [.insert 3 [1, 1] none, .insert 10 [2, 2] none, .query 10, .delete 3 none, .insert 10 [7, 7] none,
    .insert 17 [4, 4] none]

theorem hash_refines_collidingOps : ∃ s,
    run hashStep (hashStart 7 2 fun _ => 0) collidingOps = some s ∧
      Refines 3 s.table s.live := by
  have hrun : (run hashStep (hashStart 7 2 fun _ => 0) collidingOps).isSome = true := by
    decide +kernel
  have hwithin : allowedAlong hashStep (withinNumber 3) (hashStart 7 2 fun _ => 0) collidingOps := by
    decide +kernel
  obtain ⟨s, hs⟩ := Option.isSome_iff_exists.1 hrun
  exact ⟨s, hs, hash_refines 7 3 2 _ (by decide) (by decide) (by decide) (by decide) s
    (reaches_of_run hwithin hs)⟩

end PingServer
