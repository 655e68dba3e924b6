import PingServer.Net.Connection
import PingServer.Ds.ArenaSafety

/-!
# Connection buffers in the arena

`connection_create` puts both buffers of a connection into runs of blocks, and
`connection_recv` writes through `read_buf` into the bytes of the arena. The
capacity is the size of the run without its header word, but the fields of the
`Buffer` itself also lie in the run: the last bytes of `data` do not fit.
-/

namespace PingServer

open ByteMem Allocation Machine

/-! ## Creation -/

theorem setBufCap_other (m : Memory) (p v x : Nat) (h : x < p ∨ p + sizeofBuffer ≤ x) :
    setBufCap m p v x = m x :=
  storeLE_other _ _ _ _ _ (by simp only [sizeofBuffer] at h; omega)

theorem initBuffers_other (m : Memory) (p q x : Nat) (hp : x < p ∨ p + sizeofBuffer ≤ x)
    (hq : x < q ∨ q + sizeofBuffer ≤ x) : initBuffers m p q x = m x := by
  simp only [sizeofBuffer] at hp hq
  simp only [initBuffers, setBufLen, setBufIdx]
  rw [storeLE_other _ _ _ _ _ (by omega), storeLE_other _ _ _ _ _ (by omega),
    storeLE_other _ _ _ _ _ (by omega), storeLE_other _ _ _ _ _ (by omega)]

/-- The fields of both buffers after a creation, when the buffers do not overlap. -/
theorem initBuffers_fields (m : Memory) {p q : Nat}
    (h : p + sizeofBuffer ≤ q ∨ q + sizeofBuffer ≤ p) :
    let m' := initBuffers m p q
    (bufCap m' p = bufCap m p ∧ bufLen m' p = 0 ∧ bufIdx m' p = 0) ∧
      (bufCap m' q = bufCap m q ∧ bufLen m' q = 0 ∧ bufIdx m' q = 0) := by
  simp only [sizeofBuffer] at h
  have hz : (0 : Nat) % 256 ^ 4 = 0 := rfl
  simp only [initBuffers, bufCap, bufLen, bufIdx, setBufLen, setBufIdx]
  refine ⟨⟨?_, ?_, ?_⟩, ?_, ?_, ?_⟩
  · rw [loadLE_storeLE_other _ _ _ _ _ _ (by omega), loadLE_storeLE_other _ _ _ _ _ _ (by omega),
      loadLE_storeLE_other _ _ _ _ _ _ (by omega), loadLE_storeLE_other _ _ _ _ _ _ (by omega)]
  · rw [loadLE_storeLE_other _ _ _ _ _ _ (by omega), loadLE_storeLE_other _ _ _ _ _ _ (by omega),
      loadLE_storeLE, hz]
  · rw [loadLE_storeLE_other _ _ _ _ _ _ (by omega), loadLE_storeLE_other _ _ _ _ _ _ (by omega),
      loadLE_storeLE_other _ _ _ _ _ _ (by omega), loadLE_storeLE, hz]
  · rw [loadLE_storeLE_other _ _ _ _ _ _ (by omega), loadLE_storeLE_other _ _ _ _ _ _ (by omega),
      loadLE_storeLE_other _ _ _ _ _ _ (by omega), loadLE_storeLE_other _ _ _ _ _ _ (by omega)]
  · rw [loadLE_storeLE, hz]
  · rw [loadLE_storeLE_other _ _ _ _ _ _ (by omega), loadLE_storeLE, hz]

/-- The bytes of a run that its `return_size` counts. -/
abbrev bufferRunSize : Nat := connectionBufferBlockSize * pingArenaBlockSize - sizeofWord

/-- A new connection: two runs of blocks, each with an empty buffer at its start. -/
structure Created (live : List Allocation) (a : MemoryArena) (conn : Connection)
    (readRun sendRun : Nat) : Prop where
  inv : ArenaInv a (large sendRun connectionBufferBlockSize ::
    large readRun connectionBufferBlockSize :: live)
  readAddr : conn.readBuf.addr = readRun * pingArenaBlockSize + sizeofWord
  sendAddr : conn.sendBuf.addr = sendRun * pingArenaBlockSize + sizeofWord
  readAt : BufferAt a.start conn.readBuf
  sendAt : BufferAt a.start conn.sendBuf
  readCap : conn.readBuf.cap = bufferRunSize
  sendCap : conn.sendBuf.cap = bufferRunSize
  readEmpty : conn.readBuf.len = 0
  ctx : conn.protocolCtx = none
  handler : conn.protocolHandler = true
  status : conn.connSt = .idle
  requests : conn.requestCount = 0 ∧ conn.maxRequestCount = connectionRequestCount

/-- The first block of the run a buffer lies in. -/
def runOf (b : Buffer) : Nat := b.addr / pingArenaBlockSize

theorem Created.runOf_read {live : List Allocation} {a : MemoryArena} {conn : Connection}
    {r w : Nat} (h : Created live a conn r w) : runOf conn.readBuf = r := by
  rw [runOf, h.readAddr]
  simp only [pingArenaBlockSize, sizeofWord]
  omega

theorem Created.runOf_send {live : List Allocation} {a : MemoryArena} {conn : Connection}
    {r w : Nat} (h : Created live a conn r w) : runOf conn.sendBuf = w := by
  rw [runOf, h.sendAddr]
  simp only [pingArenaBlockSize, sizeofWord]
  omega

theorem buffers_apart {r w : Nat}
    (h : Apart (large w connectionBufferBlockSize) (large r connectionBufferBlockSize)) :
    r * pingArenaBlockSize + sizeofWord + sizeofBuffer ≤ w * pingArenaBlockSize ∨
      w * pingArenaBlockSize + sizeofWord + sizeofBuffer ≤ r * pingArenaBlockSize := by
  have hruns := h.runs
  simp only [connectionBufferBlockSize] at hruns
  simp only [pingArenaBlockSize, sizeofWord, sizeofBuffer]
  rcases hruns with hle | hle
  · have hmul := Nat.mul_le_mul_right 4096 hle
    right
    omega
  · have hmul := Nat.mul_le_mul_right 4096 hle
    left
    omega

theorem outside_buffer {r p x : Nat} (hp : p = r * pingArenaBlockSize + sizeofWord)
    (hx : x < (large r connectionBufferBlockSize).ptr ∨
      (large r connectionBufferBlockSize).hi ≤ x) : x < p ∨ p + sizeofBuffer ≤ x := by
  simp only [ptr, hi, connectionBufferBlockSize, pingArenaBlockSize, sizeofWord] at hx
  simp only [hp, pingArenaBlockSize, sizeofWord, sizeofBuffer]
  omega

/-- `connection_create` either changes no allocation and reports `ERROR_MEM_FULL`,
or adds the two runs of the new connection. -/
theorem connectionCreate_spec {conn conn' : Connection} {fd : Int} {a a' : MemoryArena}
    {connId now : Nat} {ret : Int} {live : List Allocation} (h : ArenaInv a live)
    (hcreate : connectionCreate conn fd a connId now = (a', conn', ret)) :
    (ret = errorMemFull ∧ conn' = conn ∧ ArenaInv a' live) ∨
      (ret = 0 ∧ conn'.fd = fd ∧ ∃ r w, Created live a' conn' r w) := by
  unfold connectionCreate at hcreate
  split at hcreate
  · cases hcreate
    exact .inl ⟨rfl, rfl, h⟩
  · rename_i a₁ p readSize hfirst
    obtain ⟨r, ha₁, hp, hsize, hcap, hfree⟩ := arenaAllocBlock_some hfirst
    have h₁ : ArenaInv a₁ (large r connectionBufferBlockSize :: live) :=
      ha₁ ▸ h.takeBlocks (by decide) hcap hfree
    have h₁' : ArenaInv { a₁ with start := setBufCap a₁.start p readSize }
        (large r connectionBufferBlockSize :: live) :=
      h₁.writes fun x hx => setBufCap_other _ _ _ _ (outside_buffer hp hx)
    simp only at hcreate
    split at hcreate
    · cases hcreate
      have hptr : (large r connectionBufferBlockSize).ptr = p := hp.symm
      exact .inl ⟨rfl, rfl, hptr ▸ h₁'.recycle⟩
    · rename_i a₂ q sendSize hsecond
      obtain ⟨w, ha₂, hq, hsize', hcap', hfree'⟩ := arenaAllocBlock_some hsecond
      have h₂ : ArenaInv a₂ (large w connectionBufferBlockSize ::
          large r connectionBufferBlockSize :: live) :=
        ha₂ ▸ h₁'.takeBlocks (by decide) hcap' hfree'
      have hsep := buffers_apart ((List.pairwise_cons.1 h₂.apart).1 _ List.mem_cons_self)
      have hsep' : p + sizeofBuffer ≤ q ∨ q + sizeofBuffer ≤ p := by omega
      have h₃ : ArenaInv { a₂ with start := initBuffers (setBufCap a₂.start q sendSize) p q }
          (large w connectionBufferBlockSize :: large r connectionBufferBlockSize :: live) := by
        refine h₂.writes_two fun x hx hx' => ?_
        have hxq := outside_buffer hq hx
        rw [initBuffers_other _ _ _ _ (outside_buffer hp hx') hxq, setBufCap_other _ _ _ _ hxq]
      have hfields := initBuffers_fields (setBufCap a₂.start q sendSize) hsep'
      simp only at hfields
      obtain ⟨⟨hcapP, hlenP, hidxP⟩, hcapQ, hlenQ, hidxQ⟩ := hfields
      have hreadCap : bufCap (setBufCap a₂.start q sendSize) p = readSize := by
        have hother : bufCap (setBufCap a₂.start q sendSize) p = bufCap a₂.start p :=
          loadLE_storeLE_other _ _ _ _ _ _ (by simp only [sizeofBuffer] at hsep'; omega)
        have hword : bufCap a₂.start p = bufCap (setBufCap a₁.start p readSize) p := by
          rw [ha₂]
          exact loadLE_storeLE_other _ _ _ _ _ _
            (by simp only [sizeofWord, sizeofBuffer] at hsep hp ⊢; omega)
        rw [hother, hword]
        exact loadLE_storeLE_of_lt _ _ _ _ (by rw [hsize]; decide)
      have hsendCap : bufCap (setBufCap a₂.start q sendSize) q = sendSize :=
        loadLE_storeLE_of_lt _ _ _ _ (by rw [hsize']; decide)
      cases hcreate
      refine .inr ⟨rfl, rfl, r, w, h₃, hp, hq, ?_, ?_, hsize, hsize', rfl, rfl, rfl, rfl, rfl, rfl⟩
      · exact ⟨hcapP.trans hreadCap, hlenP, hidxP, fun i hi => absurd hi (Nat.not_lt_zero i)⟩
      · exact ⟨hcapQ.trans hsendCap, hlenQ, hidxQ, fun i hi => absurd hi (Nat.not_lt_zero i)⟩

end PingServer
