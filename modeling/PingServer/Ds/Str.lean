import PingServer.Ds.ArenaInvariant

/-!
# Strings

`str.c`: strings in the arena, each with two 32-bit fields in front of its bytes.
A string is known by its address. The functions leave `memcpy` to `storeBytes`,
and give `none` where the source returns `NULL`.
-/

namespace PingServer

open ByteMem Allocation

/-- `sizeof(String)`, which is also `sizeof(uint32_t) * 2`. -/
abbrev sizeofString : Nat := 8

def strLen (m : Memory) (p : Nat) : Nat := loadLE m p 4
def strCap (m : Memory) (p : Nat) : Nat := loadLE m (p + 4) 4

/-- `&str->data[i]`. -/
def strData (p i : Nat) : Nat := p + sizeofString + i

def setStrLen (m : Memory) (p v : Nat) : Memory := storeLE m p 4 v
def setStrCap (m : Memory) (p v : Nat) : Memory := storeLE m (p + 4) 4 v

/-- `data[0..len)`. -/
def strBytes (m : Memory) (p : Nat) : List Byte :=
  (List.range (strLen m p)).map fun i => m (strData p i)

/-- What a string of capacity `cap` asks the arena for, computed in a `size_t`. -/
def strRequest (cap : Nat) : Nat := (cap + sizeofString) % 2 ^ 64

def stringCreateFromArena (a : MemoryArena) (s : List Byte) (cap : Nat) :
    Option (MemoryArena × Nat) :=
  match arenaAllocRefBlock a (strRequest cap) with
  | none => none
  | some (a, res) =>
    let mem := setStrLen a.start res s.length
    let mem := setStrCap mem res cap
    some ({ a with start := storeBytes mem (strData res 0) s }, res)

def stringFree (a : MemoryArena) (s : Nat) : MemoryArena := arenaRecycleRef a s

def stringCopy (a : MemoryArena) (str : Nat) : Option (MemoryArena × Nat) :=
  match arenaAllocRefBlock a (strRequest (strCap a.start str)) with
  | none => none
  | some (a, res) =>
    let mem := setStrLen a.start res (strLen a.start str)
    let mem := setStrCap mem res (strCap mem str)
    let bytes := (List.range (strLen mem res)).map fun i => mem (strData str i)
    some ({ a with start := storeBytes mem (strData res 0) bytes }, res)

/-- The request is `new_size` alone, without the two fields. -/
def stringRecreateFromArena (a : MemoryArena) (str newSize : Nat) : Option (MemoryArena × Nat) :=
  match arenaAllocRefBlock a newSize with
  | none => none
  | some (a, res) =>
    let mem := storeBytes a.start (strData res 0) (strBytes a.start str)
    let mem := setStrLen mem res (strLen mem str)
    let mem := setStrCap mem res newSize
    some (arenaRecycleRef { a with start := mem } str, res)

/-- Both `cap - len` and `len - 1` are computed in a `uint32_t`. The bytes go over
a NUL that the string ends with. -/
def stringAppendChar (m : Memory) (str : Nat) (s : List Byte) : Memory × Bool :=
  if (strCap m str + 2 ^ 32 - strLen m str) % 2 ^ 32 < s.length then (m, false)
  else
    let last := m (strData str ((strLen m str + 2 ^ 32 - 1) % 2 ^ 32))
    let dest := strData str (strLen m str) - if last = 0 then 1 else 0
    let mem := storeBytes m dest s
    (setStrLen mem str (strLen mem str + s.length), true)

/-! ## What the functions write -/

variable {m : Memory} {p str : Nat} {s : List Byte}

theorem strLen_setStrCap (v : Nat) : strLen (setStrCap m p v) p = strLen m p :=
  loadLE_storeLE_other _ _ _ _ _ _ (by omega)

theorem strCap_setStrLen (v : Nat) : strCap (setStrLen m p v) p = strCap m p :=
  loadLE_storeLE_other _ _ _ _ _ _ (by omega)

theorem strLen_setStrLen {v : Nat} (hv : v < 2 ^ 32) : strLen (setStrLen m p v) p = v :=
  loadLE_storeLE_of_lt _ _ _ _ (by omega)

theorem strCap_setStrCap {v : Nat} (hv : v < 2 ^ 32) : strCap (setStrCap m p v) p = v :=
  loadLE_storeLE_of_lt _ _ _ _ (by omega)

theorem strCap_lt (m : Memory) (p : Nat) : strCap m p < 2 ^ 32 := loadLE_lt m (p + 4) 4

/-- The fields of a string lie in the range of any write apart from it. -/
theorem fields_same {m' : Memory} {lo hi : Nat} (h : SameOutside lo hi m m')
    (hp : p + sizeofString ≤ lo ∨ hi ≤ p) : strLen m' p = strLen m p ∧ strCap m' p = strCap m p := by
  have h8 : sizeofString = 8 := rfl
  exact ⟨h.loadLE (by omega), h.loadLE (by omega)⟩

/-- A string of capacity `cap` at `p`, with as many bytes as it says. -/
structure HoldsString (m : Memory) (p cap : Nat) : Prop where
  capField : strCap m p = cap
  lenField : strLen m p ≤ cap

/-- The fields and the bytes of a new string stay within what it asked for. -/
theorem init_string {cap len : Nat} {bs : List Byte} (hlen : len ≤ cap) (hcap : cap < 2 ^ 32)
    (hbs : bs.length ≤ cap) :
    SameOutside p (p + (cap + sizeofString)) m
        (storeBytes (setStrCap (setStrLen m p len) p cap) (strData p 0) bs) ∧
      HoldsString (storeBytes (setStrCap (setStrLen m p len) p cap) (strData p 0) bs) p cap := by
  have h8 : sizeofString = 8 := rfl
  have hfields : SameOutside p (p + (cap + sizeofString)) m (setStrCap (setStrLen m p len) p cap) :=
    ((SameOutside.refl _ _ m).storeLE (Nat.le_refl p) (by omega)).storeLE (by omega) (by omega)
  refine ⟨hfields.storeBytes (by unfold strData; omega) (by unfold strData; omega), ?_, ?_⟩
  · rw [strCap, loadLE_storeBytes_other _ _ _ _ _ (by unfold strData; omega)]
    exact strCap_setStrCap hcap
  · rw [strLen, loadLE_storeBytes_other _ _ _ _ _ (by unfold strData; omega)]
    change strLen (setStrCap (setStrLen m p len) p cap) p ≤ cap
    rw [strLen_setStrCap, strLen_setStrLen (by omega)]
    exact hlen

namespace HoldsString

variable {cap : Nat}

/-- The room that `string_append_char` computes. -/
theorem room (h : HoldsString m str cap) :
    (strCap m str + 2 ^ 32 - strLen m str) % 2 ^ 32 = cap - strLen m str := by
  have hcap := h.capField
  have hlen := h.lenField
  have hlt := strCap_lt m str
  omega

/-- Appending to a string that owns its storage writes nowhere else. -/
theorem append_same (h : HoldsString m str cap) (s : List Byte) :
    SameOutside str (str + (cap + sizeofString)) m (stringAppendChar m str s).1 := by
  have h8 : sizeofString = 8 := rfl
  have hlen := h.lenField
  unfold stringAppendChar
  rw [h.room]
  split
  · exact SameOutside.refl _ _ m
  · unfold strData
    simp only
    apply SameOutside.storeLE
    · apply (SameOutside.refl _ _ m).storeBytes
      · split <;> omega
      · split <;> omega
    · omega
    · omega

/-- It keeps its capacity, unless it was empty: then the byte in front of its data
may count as the NUL it ends with. -/
theorem append_holds (h : HoldsString m str cap) (hempty : 1 ≤ strLen m str ∨ cap < s.length) :
    HoldsString (stringAppendChar m str s).1 str cap := by
  have h8 : sizeofString = 8 := rfl
  have hcap := h.capField
  have hlen := h.lenField
  have hlt := strCap_lt m str
  unfold stringAppendChar
  rw [h.room]
  split
  · exact h
  · rename_i hfits
    have hlen' : 1 ≤ strLen m str := by omega
    simp only
    generalize hdest : strData str (strLen m str) -
      (if m (strData str ((strLen m str + 2 ^ 32 - 1) % 2 ^ 32)) = 0 then 1 else 0) = dest
    have hlo : str + sizeofString ≤ dest := by
      unfold strData at hdest
      split at hdest <;> omega
    have hkept : strLen (storeBytes m dest s) str = strLen m str :=
      loadLE_storeBytes_other _ _ _ _ _ (by omega)
    constructor
    · rw [strCap_setStrLen, strCap, loadLE_storeBytes_other _ _ _ _ _ (by omega)]
      exact hcap
    · rw [hkept, strLen_setStrLen (by omega)]
      omega

end HoldsString

end PingServer
