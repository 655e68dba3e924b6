import PingServer.Ds.Arena

/-!
# Buffers

`buffer.h`: three 32-bit fields and the bytes behind them. `Buffer` is the value
of one, with the address it lies at; `BufferAt` says that the bytes of a memory
hold it.
-/

namespace PingServer

open ByteMem

structure Buffer where
  addr : Nat
  cap : Nat
  len : Nat
  idx : Nat
  data : Memory

/-- `sizeof(Buffer)`: the flexible array `data` adds nothing to it. -/
abbrev sizeofBuffer : Nat := 12

def bufferClean (b : Buffer) : Buffer := { b with idx := 0, len := 0 }

/-- `data[0..len)`. -/
def Buffer.bytes (b : Buffer) : List Byte := (List.range b.len).map b.data

/-- Write `bs` behind the valid bytes and count them. -/
def Buffer.append (b : Buffer) (bs : List Byte) : Buffer :=
  { b with data := storeBytes b.data b.len bs, len := b.len + bs.length }

@[simp] theorem Buffer.bytes_length (b : Buffer) : b.bytes.length = b.len := by
  simp [Buffer.bytes]

theorem Buffer.bytes_append (b : Buffer) (bs : List Byte) :
    (b.append bs).bytes = b.bytes ++ bs := by
  apply List.ext_getElem
  · simp [Buffer.append]
  · intro i h₁ h₂
    simp only [Buffer.bytes_length, Buffer.append] at h₁
    simp only [Buffer.bytes, Buffer.append, List.getElem_map, List.getElem_range]
    by_cases hi : i < b.len
    · rw [storeBytes_other _ _ _ _ (.inl hi), List.getElem_append_left (by simpa using hi)]
      simp
    · obtain ⟨k, rfl⟩ := Nat.exists_eq_add_of_le (Nat.le_of_not_lt hi)
      rw [storeBytes_at _ _ _ _ (by omega), List.getElem_append_right (by simp)]
      simp

/-! ## The bytes of a buffer -/

def bufCap (m : Memory) (p : Nat) : Nat := loadLE m p 4
def bufLen (m : Memory) (p : Nat) : Nat := loadLE m (p + 4) 4
def bufIdx (m : Memory) (p : Nat) : Nat := loadLE m (p + 8) 4

/-- `&buf->data[i]`. -/
def bufData (p i : Nat) : Nat := p + sizeofBuffer + i

def setBufCap (m : Memory) (p v : Nat) : Memory := storeLE m p 4 v
def setBufLen (m : Memory) (p v : Nat) : Memory := storeLE m (p + 4) 4 v
def setBufIdx (m : Memory) (p v : Nat) : Memory := storeLE m (p + 8) 4 v

/-- The bytes at `b.addr` hold the value `b`, as far as it is valid. -/
structure BufferAt (m : Memory) (b : Buffer) : Prop where
  cap : bufCap m b.addr = b.cap
  len : bufLen m b.addr = b.len
  idx : bufIdx m b.addr = b.idx
  data : ∀ i, i < b.len → m (bufData b.addr i) = b.data i

end PingServer
