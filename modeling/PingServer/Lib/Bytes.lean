import Mathlib.Data.List.Basic
import Mathlib.Tactic.Ring

/-!
# Byte memories

A memory maps addresses to bytes. `loadLE` and `storeLE` read and write an
unsigned number of `n` bytes, least significant byte first; `storeBytes` writes
a run of bytes and `fill` repeats one value over a range, as `memset` does.
Each write has a lemma for what it reads back and one for what it leaves alone.
-/

namespace ByteMem

abbrev Byte := BitVec 8

abbrev Memory := Nat → Byte

/-- The bytes of a string literal. -/
def utf8 (s : String) : List Byte := s.toUTF8.data.toList.map (·.toBitVec)

/-- The number stored in the `n` bytes from `a`. -/
def loadLE (m : Memory) (a : Nat) : Nat → Nat
  | 0 => 0
  | n + 1 => (m a).toNat + 256 * loadLE m (a + 1) n

/-- Store the low `n` bytes of `v` from `a` on. -/
def storeLE (m : Memory) (a : Nat) : Nat → Nat → Memory
  | 0, _ => m
  | n + 1, v => storeLE (fun x => if x = a then BitVec.ofNat 8 v else m x) (a + 1) n (v / 256)

/-- Copy the bytes `bs` to the addresses from `a` on. -/
def storeBytes (m : Memory) (a : Nat) (bs : List Byte) : Memory :=
  fun x => if a ≤ x then (bs[x - a]?).getD (m x) else m x

/-- Set `n` entries from `start` on to `v`. -/
def fill {α : Type} (f : Nat → α) (start n : Nat) (v : α) : Nat → α :=
  fun i => if start ≤ i ∧ i < start + n then v else f i

theorem storeLE_other (m : Memory) (a n v x : Nat) (h : x < a ∨ a + n ≤ x) :
    storeLE m a n v x = m x := by
  induction n generalizing m a v with
  | zero => rfl
  | succ n ih =>
    rw [storeLE, ih _ _ _ (by omega)]
    have hx : x ≠ a := by omega
    simp [hx]

theorem loadLE_congr {m m' : Memory} (a n : Nat) (h : ∀ x, a ≤ x → x < a + n → m x = m' x) :
    loadLE m a n = loadLE m' a n := by
  induction n generalizing a with
  | zero => rfl
  | succ n ih =>
    rw [loadLE, loadLE, h a (by omega) (by omega), ih (a + 1) fun x _ _ => h x (by omega) (by omega)]

theorem loadLE_lt (m : Memory) (a n : Nat) : loadLE m a n < 256 ^ n := by
  induction n generalizing a with
  | zero => exact Nat.one_pos
  | succ n ih =>
    have hbyte := (m a).isLt
    have hrest := ih (a + 1)
    rw [loadLE, Nat.pow_succ]
    omega

theorem loadLE_storeLE (m : Memory) (a n v : Nat) :
    loadLE (storeLE m a n v) a n = v % 256 ^ n := by
  induction n generalizing m a v with
  | zero => simp [loadLE, Nat.mod_one]
  | succ n ih =>
    rw [loadLE, storeLE, ih, storeLE_other _ _ _ _ _ (by omega)]
    simp only [↓reduceIte, BitVec.toNat_ofNat]
    have hbyte : 2 ^ 8 = 256 := rfl
    rw [hbyte, Nat.pow_succ, Nat.mul_comm (256 ^ n) 256, Nat.mod_mul]

/-- A number that fits in the bytes is read back as it was stored. -/
theorem loadLE_storeLE_of_lt (m : Memory) (a n v : Nat) (h : v < 256 ^ n) :
    loadLE (storeLE m a n v) a n = v := by
  rw [loadLE_storeLE, Nat.mod_eq_of_lt h]

/-- Storing what is there already changes nothing. -/
theorem storeLE_loadLE (m : Memory) (a n : Nat) : storeLE m a n (loadLE m a n) = m := by
  induction n generalizing a with
  | zero => rfl
  | succ n ih =>
    have hbyte := (m a).isLt
    have hlow : BitVec.ofNat 8 (loadLE m a (n + 1)) = m a := by
      apply BitVec.eq_of_toNat_eq
      rw [BitVec.toNat_ofNat, loadLE]
      omega
    have hhigh : loadLE m a (n + 1) / 256 = loadLE m (a + 1) n := by
      rw [loadLE]
      omega
    have hsame : (fun x => if x = a then m a else m x) = m := by
      funext x
      split
      · rename_i hx
        rw [hx]
      · rfl
    rw [storeLE, hlow, hhigh, hsame, ih]

/-- A word apart from the one written keeps its value. -/
theorem loadLE_storeLE_other (m : Memory) (a n v b k : Nat) (h : b + k ≤ a ∨ a + n ≤ b) :
    loadLE (storeLE m a n v) b k = loadLE m b k :=
  loadLE_congr b k fun x _ _ => storeLE_other m a n v x (by omega)

theorem storeBytes_other (m : Memory) (a : Nat) (bs : List Byte) (x : Nat)
    (h : x < a ∨ a + bs.length ≤ x) : storeBytes m a bs x = m x := by
  unfold storeBytes
  split
  · rw [List.getElem?_eq_none (by omega)]; rfl
  · rfl

theorem storeBytes_at (m : Memory) (a : Nat) (bs : List Byte) (i : Nat) (h : i < bs.length) :
    storeBytes m a bs (a + i) = bs[i] := by
  simp [storeBytes, h]

@[simp] theorem storeBytes_nil (m : Memory) (a : Nat) : storeBytes m a [] = m := by
  funext x
  exact storeBytes_other m a [] x (by simp; omega)

theorem storeBytes_append (m : Memory) (a : Nat) (bs cs : List Byte) :
    storeBytes m a (bs ++ cs) = storeBytes (storeBytes m a bs) (a + bs.length) cs := by
  funext x
  by_cases hlo : x < a + bs.length
  · rw [storeBytes_other _ _ cs x (Or.inl hlo)]
    by_cases hx : a ≤ x
    · simp [storeBytes, hx, List.getElem?_append_left (show x - a < bs.length by omega)]
    · simp [storeBytes, hx]
  · have hx : a ≤ x := by omega
    have hoff : x - a - bs.length = x - (a + bs.length) := by omega
    have hend : a + bs.length ≤ x := by omega
    have hnone : bs[x - a]? = none := List.getElem?_eq_none (by omega)
    simp [storeBytes, hx, hend, List.getElem?_append_right (show bs.length ≤ x - a by omega),
      hoff, hnone]

theorem fill_inside {α : Type} (f : Nat → α) {start n i : Nat} (v : α)
    (h : start ≤ i ∧ i < start + n) : fill f start n v i = v := by
  simp [fill, h]

theorem fill_outside {α : Type} (f : Nat → α) {start n i : Nat} (v : α)
    (h : i < start ∨ start + n ≤ i) : fill f start n v i = f i := by
  have hn : ¬ (start ≤ i ∧ i < start + n) := by omega
  simp only [fill, hn, ↓reduceIte]

/-! ## Writes inside a range -/

/-- `m'` is `m` but for the bytes from `lo` to `hi - 1`. -/
def SameOutside (lo hi : Nat) (m m' : Memory) : Prop := ∀ x, x < lo ∨ hi ≤ x → m' x = m x

namespace SameOutside

variable {lo hi : Nat} {m m' : Memory}

theorem refl (lo hi : Nat) (m : Memory) : SameOutside lo hi m m := fun _ _ => rfl

theorem storeLE (h : SameOutside lo hi m m') {a n v : Nat} (hlo : lo ≤ a) (hhi : a + n ≤ hi) :
    SameOutside lo hi m (storeLE m' a n v) :=
  fun x hx => (storeLE_other m' a n v x (by omega)).trans (h x hx)

theorem storeBytes (h : SameOutside lo hi m m') {a : Nat} {bs : List Byte} (hlo : lo ≤ a)
    (hhi : a + bs.length ≤ hi) : SameOutside lo hi m (storeBytes m' a bs) :=
  fun x hx => (storeBytes_other m' a bs x (by omega)).trans (h x hx)

/-- A word outside the range keeps its value. -/
theorem loadLE (h : SameOutside lo hi m m') {a n : Nat} (ha : a + n ≤ lo ∨ hi ≤ a) :
    loadLE m' a n = loadLE m a n :=
  loadLE_congr a n fun x _ _ => h x (by omega)

end SameOutside

theorem loadLE_storeBytes_other (m : Memory) (a : Nat) (bs : List Byte) (b k : Nat)
    (h : b + k ≤ a ∨ a + bs.length ≤ b) : loadLE (storeBytes m a bs) b k = loadLE m b k :=
  loadLE_congr b k fun x _ _ => storeBytes_other m a bs x (by omega)

end ByteMem
