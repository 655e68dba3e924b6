import PingServer.Lib.Bytes

/-!
# Bitmap

`bitmap.c` and the bit macros of `bitmap.h`. A range operation writes its first
byte, the whole bytes between and its last byte with different masks, computed
in `unsigned int` and cut to eight bits when they are stored.
`bitAt_bitmapSetRange` and `bitAt_bitmapUnsetRange` say what that amounts to for
each single bit.
-/

namespace PingServer

open ByteMem

/-- `BIT_GET(map, index)`. -/
def bitGet (map : Memory) (index : Nat) : Byte :=
  (map (index >>> 3) >>> (index &&& 7)) &&& 1

/-- `map[index] = value`. -/
def setByte (map : Memory) (index : Nat) (value : Byte) : Memory :=
  fun i => if i = index then value else map i

/-- `(1U << n) - 1`. -/
def lowMask (n : Nat) : BitVec 32 := (1#32 <<< n) - 1#32

def bitmapSetRange (map : Memory) (start stop : Nat) : Memory :=
  let startByte := start >>> 3
  let endByte := stop >>> 3
  if startByte = endByte then
    let mask : Byte := (lowMask ((stop - start) + 1) <<< (start &&& 7)).setWidth 8
    setByte map startByte (map startByte ||| mask)
  else
    let map := setByte map startByte
      (map startByte ||| (0xFF#32 <<< (start &&& 7)).setWidth 8)
    let map :=
      if endByte > startByte + 1 then fill map (startByte + 1) (endByte - startByte - 1) 0xFF#8
      else map
    setByte map endByte (map endByte ||| (lowMask ((stop &&& 7) + 1)).setWidth 8)

def bitmapUnsetRange (map : Memory) (start stop : Nat) : Memory :=
  let startByte := start >>> 3
  let endByte := stop >>> 3
  if startByte = endByte then
    let mask : Byte := (~~~ (lowMask ((stop - start) + 1) <<< (start &&& 7))).setWidth 8
    setByte map startByte (map startByte &&& mask)
  else
    let map := setByte map startByte (map startByte &&& (lowMask (start &&& 7)).setWidth 8)
    let map :=
      if endByte > startByte + 1 then fill map (startByte + 1) (endByte - startByte - 1) 0x00#8
      else map
    setByte map endByte (map endByte &&& (~~~ lowMask ((stop &&& 7) + 1)).setWidth 8)

/-! ## Single bits -/

/-- Bit `i` of the map, as a truth value. -/
def bitAt (map : Memory) (i : Nat) : Bool := (map (i / 8)).getLsbD (i % 8)

theorem shiftRight_three (i : Nat) : i >>> 3 = i / 8 := by
  rw [Nat.shiftRight_eq_div_pow]

theorem and_seven (i : Nat) : i &&& 7 = i % 8 :=
  Nat.and_two_pow_sub_one_eq_mod i 3

theorem bitGet_eq (map : Memory) (i : Nat) : bitGet map i = if bitAt map i then 1 else 0 := by
  have h : ∀ (b : Byte) (k : Fin 8), (b >>> k.val) &&& 1 = if b.getLsbD k.val then 1 else 0 := by
    decide +kernel
  rw [bitGet, bitAt, shiftRight_three, and_seven]
  exact h (map (i / 8)) ⟨i % 8, Nat.mod_lt _ (by decide)⟩

theorem bitGet_eq_zero_iff (map : Memory) (i : Nat) : bitGet map i = 0 ↔ bitAt map i = false := by
  rw [bitGet_eq]
  cases bitAt map i <;> decide

theorem setByte_other (map : Memory) {k j : Nat} (v : Byte) (h : j ≠ k) :
    setByte map k v j = map j := by
  simp [setByte, h]

/-! ## The masks -/

theorem rangeMask_bit (s k j : Nat) (hs : s < 8) (hk : k ≤ 8) (hj : j < 8) :
    ((lowMask k <<< s).setWidth 8 : Byte).getLsbD j = decide (s ≤ j ∧ j < s + k) := by
  have h : ∀ (s : Fin 8) (k : Fin 9) (j : Fin 8),
      ((lowMask k.val <<< s.val).setWidth 8 : Byte).getLsbD j.val =
        decide (s.val ≤ j.val ∧ j.val < s.val + k.val) := by decide +kernel
  exact h ⟨s, hs⟩ ⟨k, by omega⟩ ⟨j, hj⟩

theorem lowMask_bit (k j : Nat) (hk : k ≤ 8) (hj : j < 8) :
    ((lowMask k).setWidth 8 : Byte).getLsbD j = decide (j < k) := by
  have h := rangeMask_bit 0 k j (by decide) hk hj
  simpa using h

theorem notRangeMask_bit (s k j : Nat) (hs : s < 8) (hk : k ≤ 8) (hj : j < 8) :
    ((~~~ (lowMask k <<< s)).setWidth 8 : Byte).getLsbD j = !decide (s ≤ j ∧ j < s + k) := by
  rw [← rangeMask_bit s k j hs hk hj]
  simp only [BitVec.getLsbD_setWidth, BitVec.getLsbD_not, hj, show j < 32 by omega,
    decide_true, Bool.true_and]

theorem notLowMask_bit (k j : Nat) (hk : k ≤ 8) (hj : j < 8) :
    ((~~~ lowMask k).setWidth 8 : Byte).getLsbD j = !decide (j < k) := by
  have h := notRangeMask_bit 0 k j (by decide) hk hj
  simpa using h

theorem highMask_bit (s j : Nat) (hs : s < 8) (hj : j < 8) :
    ((0xFF#32 <<< s).setWidth 8 : Byte).getLsbD j = decide (s ≤ j) := by
  have h : ∀ (s j : Fin 8), ((0xFF#32 <<< s.val).setWidth 8 : Byte).getLsbD j.val =
      decide (s.val ≤ j.val) := by decide +kernel
  exact h ⟨s, hs⟩ ⟨j, hj⟩

theorem allOnes_bit (j : Nat) (hj : j < 8) : (0xFF#8).getLsbD j = true := by
  have h : ∀ j : Fin 8, (0xFF#8).getLsbD j.val = true := by decide
  exact h ⟨j, hj⟩

/-! ## What the range operations do to each bit -/

theorem bitAt_setByte (map : Memory) (k : Nat) (v : Byte) (i : Nat) :
    bitAt (setByte map k v) i = if i / 8 = k then v.getLsbD (i % 8) else bitAt map i := by
  unfold bitAt setByte
  split <;> rfl

theorem bitAt_fill (map : Memory) (s n : Nat) (v : Byte) (i : Nat) :
    bitAt (fill map s n v) i =
      if s ≤ i / 8 ∧ i / 8 < s + n then v.getLsbD (i % 8) else bitAt map i := by
  unfold bitAt fill
  split <;> rfl

/-- The bytes strictly between the first and the last, filled when there are any. -/
theorem bitAt_fillBetween (map : Memory) (sb eb : Nat) (v : Byte) (i : Nat) :
    bitAt (if eb > sb + 1 then fill map (sb + 1) (eb - sb - 1) v else map) i =
      if sb < i / 8 ∧ i / 8 < eb then v.getLsbD (i % 8) else bitAt map i := by
  by_cases h : eb > sb + 1
  · have hiff : (sb + 1 ≤ i / 8 ∧ i / 8 < sb + 1 + (eb - sb - 1)) ↔ (sb < i / 8 ∧ i / 8 < eb) := by
      omega
    simp only [h, ↓reduceIte, bitAt_fill, hiff]
  · have hno : ¬ (sb < i / 8 ∧ i / 8 < eb) := by omega
    simp only [h, hno, ↓reduceIte]

/-- The last byte is written from what was there before the others were. -/
theorem fillBetween_last (map : Memory) {sb eb : Nat} (hlt : sb < eb) (first v : Byte) :
    (if eb > sb + 1 then fill (setByte map sb first) (sb + 1) (eb - sb - 1) v
      else setByte map sb first) eb = map eb := by
  split
  · rw [fill_outside _ _ (by omega), setByte_other _ _ (by omega)]
  · rw [setByte_other _ _ (by omega)]

/-- A range over more than one byte: the first byte, the whole bytes, the last byte. -/
theorem bitAt_writeRange (map : Memory) (sb eb : Nat) (first v last : Byte) (i : Nat) :
    bitAt (setByte (if eb > sb + 1 then fill (setByte map sb first) (sb + 1) (eb - sb - 1) v
        else setByte map sb first) eb last) i =
      if i / 8 = eb then last.getLsbD (i % 8)
      else if i / 8 = sb then first.getLsbD (i % 8)
      else if sb < i / 8 ∧ i / 8 < eb then v.getLsbD (i % 8) else bitAt map i := by
  rw [bitAt_setByte, bitAt_fillBetween, bitAt_setByte]
  by_cases hend : i / 8 = eb
  · rw [if_pos hend, if_pos hend]
  rw [if_neg hend, if_neg hend]
  by_cases hfirst : i / 8 = sb
  · rw [if_neg (by omega), if_pos hfirst, if_pos hfirst]
  · rw [if_neg hfirst, if_neg hfirst]

/-- `bitmap_set_range` sets the bits from `start` to `stop` and no others. -/
theorem bitAt_bitmapSetRange (map : Memory) {start stop : Nat} (h : start ≤ stop) (i : Nat) :
    bitAt (bitmapSetRange map start stop) i = (decide (start ≤ i ∧ i ≤ stop) || bitAt map i) := by
  have hi : i % 8 < 8 := Nat.mod_lt _ (by decide)
  have hs : start % 8 < 8 := Nat.mod_lt _ (by decide)
  have he : stop % 8 < 8 := Nat.mod_lt _ (by decide)
  unfold bitmapSetRange
  simp only [shiftRight_three, and_seven]
  split
  · rename_i same
    rw [bitAt_setByte]
    split
    · rename_i here
      rw [BitVec.getLsbD_or, rangeMask_bit _ _ _ hs (by omega) hi, Bool.or_comm]
      have hiff : (start % 8 ≤ i % 8 ∧ i % 8 < start % 8 + (stop - start + 1)) ↔
          (start ≤ i ∧ i ≤ stop) := by omega
      simp only [hiff, bitAt, here]
    · have hno : ¬ (start ≤ i ∧ i ≤ stop) := by omega
      simp [hno]
  · rename_i differ
    have hlt : start / 8 < stop / 8 := by omega
    rw [fillBetween_last map hlt, bitAt_writeRange]
    split
    · rename_i hend
      have hiff : i % 8 < stop % 8 + 1 ↔ (start ≤ i ∧ i ≤ stop) := by omega
      rw [BitVec.getLsbD_or, lowMask_bit _ _ (by omega) hi, Bool.or_comm, bitAt, hend]
      simp only [hiff]
    split
    · rename_i hfirst
      have hiff : start % 8 ≤ i % 8 ↔ (start ≤ i ∧ i ≤ stop) := by omega
      rw [BitVec.getLsbD_or, highMask_bit _ _ hs hi, Bool.or_comm, bitAt, hfirst]
      simp only [hiff]
    split
    · have hin : start ≤ i ∧ i ≤ stop := by omega
      rw [allOnes_bit _ hi, decide_eq_true hin, Bool.true_or]
    · have hno : ¬ (start ≤ i ∧ i ≤ stop) := by omega
      rw [decide_eq_false hno, Bool.false_or]

/-- `bitmap_unset_range` clears the bits from `start` to `stop` and no others. -/
theorem bitAt_bitmapUnsetRange (map : Memory) {start stop : Nat} (h : start ≤ stop) (i : Nat) :
    bitAt (bitmapUnsetRange map start stop) i =
      (!decide (start ≤ i ∧ i ≤ stop) && bitAt map i) := by
  have hi : i % 8 < 8 := Nat.mod_lt _ (by decide)
  have hs : start % 8 < 8 := Nat.mod_lt _ (by decide)
  have he : stop % 8 < 8 := Nat.mod_lt _ (by decide)
  unfold bitmapUnsetRange
  simp only [shiftRight_three, and_seven]
  split
  · rename_i same
    rw [bitAt_setByte]
    split
    · rename_i here
      rw [BitVec.getLsbD_and, notRangeMask_bit _ _ _ hs (by omega) hi, Bool.and_comm]
      have hiff : (start % 8 ≤ i % 8 ∧ i % 8 < start % 8 + (stop - start + 1)) ↔
          (start ≤ i ∧ i ≤ stop) := by omega
      simp only [hiff, bitAt, here]
    · have hno : ¬ (start ≤ i ∧ i ≤ stop) := by omega
      simp [hno]
  · rename_i differ
    have hlt : start / 8 < stop / 8 := by omega
    rw [fillBetween_last map hlt, bitAt_writeRange]
    split
    · rename_i hend
      have hiff : i % 8 < stop % 8 + 1 ↔ (start ≤ i ∧ i ≤ stop) := by omega
      rw [BitVec.getLsbD_and, notLowMask_bit _ _ (by omega) hi, Bool.and_comm, bitAt, hend]
      simp only [hiff]
    split
    · rename_i hfirst
      have hiff : i % 8 < start % 8 ↔ ¬ (start ≤ i ∧ i ≤ stop) := by omega
      rw [BitVec.getLsbD_and, lowMask_bit _ _ (by omega) hi, Bool.and_comm, bitAt, hfirst]
      simp only [hiff, decide_not]
    split
    · have hin : start ≤ i ∧ i ≤ stop := by omega
      rw [decide_eq_true hin, Bool.not_true, Bool.false_and]
      exact BitVec.getLsbD_zero
    · have hno : ¬ (start ≤ i ∧ i ≤ stop) := by omega
      rw [decide_eq_false hno, Bool.not_false, Bool.true_and]

/-! ## Bit by bit -/

/-- `BIT_SET(map, index)`. -/
def bitSet (map : Memory) (index : Nat) : Memory :=
  setByte map (index >>> 3) (map (index >>> 3) ||| (1#32 <<< (index &&& 7)).setWidth 8)

/-- `BIT_UNSET(map, index)`. -/
def bitUnset (map : Memory) (index : Nat) : Memory :=
  setByte map (index >>> 3) (map (index >>> 3) &&& (~~~ (1#32 <<< (index &&& 7))).setWidth 8)

/-- One bit is a range. -/
theorem bitSet_eq (map : Memory) (index : Nat) : bitSet map index = bitmapSetRange map index index := by
  unfold bitSet bitmapSetRange
  simp only [Nat.sub_self, ↓reduceIte]
  rfl

theorem bitUnset_eq (map : Memory) (index : Nat) :
    bitUnset map index = bitmapUnsetRange map index index := by
  unfold bitUnset bitmapUnsetRange
  simp only [Nat.sub_self, ↓reduceIte]
  rfl

theorem bitAt_bitSet (map : Memory) (index i : Nat) :
    bitAt (bitSet map index) i = (decide (i = index) || bitAt map i) := by
  have hiff : (index ≤ i ∧ i ≤ index) ↔ i = index := by omega
  rw [bitSet_eq, bitAt_bitmapSetRange map (Nat.le_refl index)]
  simp only [hiff]

theorem bitAt_bitUnset (map : Memory) (index i : Nat) :
    bitAt (bitUnset map index) i = (!decide (i = index) && bitAt map i) := by
  have hiff : (index ≤ i ∧ i ≤ index) ↔ i = index := by omega
  rw [bitUnset_eq, bitAt_bitmapUnsetRange map (Nat.le_refl index)]
  simp only [hiff]

/-- A map is its bits. -/
theorem bitAt_ext {map map' : Memory} (h : ∀ i, bitAt map i = bitAt map' i) : map = map' := by
  funext j
  apply BitVec.eq_of_getLsbD_eq
  intro k hk
  have hbit := h (8 * j + k)
  have hbyte : (8 * j + k) / 8 = j := by omega
  have hplace : (8 * j + k) % 8 = k := by omega
  simp only [bitAt, hbyte, hplace] at hbit
  exact hbit

theorem bitAt_foldl_bitSet (n : Nat) : ∀ (map : Memory) (start i : Nat),
    bitAt ((List.range' start n).foldl bitSet map) i =
      (decide (start ≤ i ∧ i < start + n) || bitAt map i) := by
  induction n with
  | zero =>
    intro map start i
    have hno : ¬ (start ≤ i ∧ i < start + 0) := by omega
    simp only [hno, decide_false, Bool.false_or]
    rfl
  | succ n ih =>
    intro map start i
    have hiff : (start ≤ i ∧ i < start + (n + 1)) ↔
        (start + 1 ≤ i ∧ i < start + 1 + n) ∨ i = start := by omega
    rw [List.range'_succ, List.foldl_cons, ih, bitAt_bitSet, ← Bool.or_assoc, ← Bool.decide_or]
    simp only [hiff]

theorem bitAt_foldl_bitUnset (n : Nat) : ∀ (map : Memory) (start i : Nat),
    bitAt ((List.range' start n).foldl bitUnset map) i =
      (!decide (start ≤ i ∧ i < start + n) && bitAt map i) := by
  induction n with
  | zero =>
    intro map start i
    have hno : ¬ (start ≤ i ∧ i < start + 0) := by omega
    simp only [hno, decide_false, Bool.not_false, Bool.true_and]
    rfl
  | succ n ih =>
    intro map start i
    have hiff : (start ≤ i ∧ i < start + (n + 1)) ↔
        (start + 1 ≤ i ∧ i < start + 1 + n) ∨ i = start := by omega
    rw [List.range'_succ, List.foldl_cons, ih, bitAt_bitUnset, ← Bool.and_assoc, ← Bool.not_or,
      ← Bool.decide_or]
    simp only [hiff]

section

variable {map : Memory} {start stop : Nat}

theorem bitmapSetRange_eq_foldl (map : Memory) (h : start ≤ stop) :
    bitmapSetRange map start stop = (List.range' start (stop - start + 1)).foldl bitSet map := by
  apply bitAt_ext
  intro i
  have hiff : (start ≤ i ∧ i ≤ stop) ↔ (start ≤ i ∧ i < start + (stop - start + 1)) := by omega
  rw [bitAt_bitmapSetRange map h, bitAt_foldl_bitSet]
  simp only [hiff]

theorem bitmapUnsetRange_eq_foldl (map : Memory) (h : start ≤ stop) :
    bitmapUnsetRange map start stop = (List.range' start (stop - start + 1)).foldl bitUnset map := by
  apply bitAt_ext
  intro i
  have hiff : (start ≤ i ∧ i ≤ stop) ↔ (start ≤ i ∧ i < start + (stop - start + 1)) := by omega
  rw [bitAt_bitmapUnsetRange map h, bitAt_foldl_bitUnset]
  simp only [hiff]

theorem bitGet_bitmapSetRange (map : Memory) (h : start ≤ stop) (i : Nat) :
    bitGet (bitmapSetRange map start stop) i =
      if start ≤ i ∧ i ≤ stop then 1 else bitGet map i := by
  rw [bitGet_eq, bitGet_eq, bitAt_bitmapSetRange map h]
  by_cases hin : start ≤ i ∧ i ≤ stop
  · simp [hin]
  · simp [hin]

theorem bitGet_bitmapUnsetRange (map : Memory) (h : start ≤ stop) (i : Nat) :
    bitGet (bitmapUnsetRange map start stop) i =
      if start ≤ i ∧ i ≤ stop then 0 else bitGet map i := by
  rw [bitGet_eq, bitGet_eq, bitAt_bitmapUnsetRange map h]
  by_cases hin : start ≤ i ∧ i ≤ stop
  · simp [hin]
  · simp [hin]

/-- Clearing a range undoes setting it, where it was clear before. -/
theorem bitmapUnsetRange_bitmapSetRange (h : start ≤ stop)
    (hclear : ∀ i, start ≤ i → i ≤ stop → bitAt map i = false) :
    bitmapUnsetRange (bitmapSetRange map start stop) start stop = map := by
  apply bitAt_ext
  intro i
  rw [bitAt_bitmapUnsetRange _ h, bitAt_bitmapSetRange _ h]
  by_cases hin : start ≤ i ∧ i ≤ stop
  · simp [hin, hclear i hin.1 hin.2]
  · simp [hin]

/-- What a range operation does is what its bits say. -/
theorem bitmap_ranges_exact (map : Memory) (h : start ≤ stop) :
    (∀ i, bitGet (bitmapSetRange map start stop) i =
        if start ≤ i ∧ i ≤ stop then 1 else bitGet map i) ∧
      (∀ i, bitGet (bitmapUnsetRange map start stop) i =
        if start ≤ i ∧ i ≤ stop then 0 else bitGet map i) ∧
      bitmapSetRange map start stop =
        (List.range' start (stop - start + 1)).foldl bitSet map ∧
      bitmapUnsetRange map start stop =
        (List.range' start (stop - start + 1)).foldl bitUnset map ∧
      ((∀ i, start ≤ i → i ≤ stop → bitGet map i = 0) →
        bitmapUnsetRange (bitmapSetRange map start stop) start stop = map) := by
  refine ⟨bitGet_bitmapSetRange map h, bitGet_bitmapUnsetRange map h, bitmapSetRange_eq_foldl map h,
    bitmapUnsetRange_eq_foldl map h, fun hzero => ?_⟩
  exact bitmapUnsetRange_bitmapSetRange h fun i hlo hhi =>
    (bitGet_eq_zero_iff map i).1 (hzero i hlo hhi)

end

/-- From the fourth bit of the first byte to the fifth of the third. -/
theorem bitmap_ranges_three_bytes :
    bitGet (bitmapSetRange (fun _ => 0) 3 20) 11 = 1 ∧
      bitmapUnsetRange (bitmapSetRange (fun _ => 0) 3 20) 3 20 = fun _ => 0 := by
  obtain ⟨hset, -, -, -, hback⟩ := @bitmap_ranges_exact 3 20 (fun _ => 0) (by decide)
  refine ⟨hset 11, hback fun i _ _ => ?_⟩
  rw [bitGet_eq_zero_iff, bitAt]
  exact BitVec.getLsbD_zero

end PingServer
