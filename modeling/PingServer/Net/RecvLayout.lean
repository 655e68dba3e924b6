import PingServer.Net.BufferLayout

/-!
# Receiving into the arena

The loop of `connection_recv` on the bytes of the arena. `received` is what it
takes from the socket. The loop writes those bytes behind the valid ones and the
new length, so `recvLoopAt_refines` holds it to the `Buffer` value of
`Net/Connection`; but the last bytes of a full buffer lie behind its run.
-/

namespace PingServer

open ByteMem Allocation Machine

/-- The bytes the loop takes, with `len` of `cap` bytes used. -/
def received (cap len : Nat) : List RecvOutcome → List Byte
  | .chunk bs :: rest =>
    let got := bs.take (cap - len)
    if got = [] then [] else got ++ received cap (len + got.length) rest
  | _ => []

/-- The loop on the bytes of the buffer at `p`. -/
def recvLoopAt (mem : Memory) (p : Nat) : List RecvOutcome → Memory
  | .chunk bs :: rest =>
    let got := bs.take (bufCap mem p - bufLen mem p)
    if got = [] then mem
    else
      let mem' := storeBytes mem (bufData p (bufLen mem p)) got
      recvLoopAt (setBufLen mem' p (bufLen mem p + got.length)) p rest
  | _ => mem

/-- `connection_recv`, as far as the bytes of the arena go. -/
def connectionRecvAt (mem : Memory) (conn : Connection) (recvs : List RecvOutcome) : Memory :=
  if conn.maxRequestCount = conn.requestCount then mem
  else if bufLen mem conn.readBuf.addr = bufCap mem conn.readBuf.addr then mem
  else recvLoopAt mem conn.readBuf.addr recvs

/-- One chunk that fits is taken whole. -/
theorem received_one {cap : Nat} {bs : List Byte} (h : bs.length ≤ cap) :
    received cap 0 [.chunk bs] = bs := by
  cases bs with
  | nil => simp [received]
  | cons b bs => simp [received, List.take_of_length_le h]

/-- One chunk written at its place changes the length field and nothing else of
the `Buffer` fields. -/
theorem storeChunk_fields (mem : Memory) (p : Nat) (got : List Byte)
    (hlen : bufLen mem p + got.length < 256 ^ 4) :
    let mem' := setBufLen (storeBytes mem (bufData p (bufLen mem p)) got) p (bufLen mem p + got.length)
    bufCap mem' p = bufCap mem p ∧ bufLen mem' p = bufLen mem p + got.length ∧
      bufIdx mem' p = bufIdx mem p := by
  have hdata : ∀ x, x < p + sizeofBuffer →
      storeBytes mem (bufData p (bufLen mem p)) got x = mem x := by
    intro x hx
    exact storeBytes_other _ _ _ _ (.inl (by simp only [bufData]; omega))
  simp only [sizeofBuffer] at hdata
  refine ⟨?_, loadLE_storeLE_of_lt _ _ _ _ hlen, ?_⟩
  · exact (loadLE_storeLE_other _ _ _ _ _ _ (by omega)).trans
      (loadLE_congr _ _ fun x _ hx => hdata x (by omega))
  · exact (loadLE_storeLE_other _ _ _ _ _ _ (by omega)).trans
      (loadLE_congr _ _ fun x _ hx => hdata x (by omega))

/-- The bytes of a chunk, and the ones it leaves alone. -/
theorem storeChunk_data (mem : Memory) (p len : Nat) (got : List Byte) {i : Nat} (h : i < got.length) :
    got[i]? = some (setBufLen (storeBytes mem (bufData p len) got) p (len + got.length)
      (bufData p (len + i))) := by
  have haddr : bufData p (len + i) = bufData p len + i := by
    simp only [bufData]
    omega
  rw [setBufLen, storeLE_other _ _ _ _ _ (by simp only [bufData, sizeofBuffer]; omega), haddr,
    storeBytes_at _ _ _ _ h, List.getElem?_eq_getElem h]

theorem storeChunk_other (mem : Memory) (p len : Nat) (got : List Byte) {x : Nat}
    (hx : x < p + 4 ∨ p + 8 ≤ x) (hout : x < bufData p len ∨ bufData p (len + got.length) ≤ x) :
    setBufLen (storeBytes mem (bufData p len) got) p (len + got.length) x = mem x := by
  rw [setBufLen, storeLE_other _ _ _ _ _ hx]
  exact storeBytes_other _ _ _ _ (by simp only [bufData] at hout ⊢; omega)

/-- What the loop has done to the memory: the length counts the received bytes,
they stand behind the old ones, and every other byte is as it was. -/
theorem recvLoopAt_spec (p : Nat) (os : List RecvOutcome) :
    ∀ mem, bufLen mem p ≤ bufCap mem p → bufCap mem p < 256 ^ 4 →
      let r := received (bufCap mem p) (bufLen mem p) os
      let mem' := recvLoopAt mem p os
      (bufCap mem' p = bufCap mem p ∧ bufLen mem' p = bufLen mem p + r.length ∧
        bufIdx mem' p = bufIdx mem p) ∧
      (∀ i, i < r.length → r[i]? = some (mem' (bufData p (bufLen mem p + i)))) ∧
      ∀ x, (x < p + 4 ∨ p + 8 ≤ x) →
        (x < bufData p (bufLen mem p) ∨ bufData p (bufLen mem p + r.length) ≤ x) →
        mem' x = mem x := by
  induction os with
  | nil =>
    intro mem _ _
    exact ⟨⟨rfl, rfl, rfl⟩, fun i h => absurd h (Nat.not_lt_zero i), fun _ _ _ => rfl⟩
  | cons o os ih =>
    intro mem hle hcap
    cases o with
    | wouldBlock | endOfStream | failed =>
      exact ⟨⟨rfl, rfl, rfl⟩, fun i h => absurd h (Nat.not_lt_zero i), fun _ _ _ => rfl⟩
    | chunk bs =>
      simp only [received, recvLoopAt]
      generalize hg : bs.take (bufCap mem p - bufLen mem p) = got
      have hgot : got.length ≤ bufCap mem p - bufLen mem p := by
        rw [← hg]; exact List.length_take_le _ _
      split
      · exact ⟨⟨rfl, rfl, rfl⟩, fun i h => absurd h (Nat.not_lt_zero i), fun _ _ _ => rfl⟩
      · have hfields := storeChunk_fields mem p got (by omega)
        simp only at hfields
        have hwritten := fun i => @storeChunk_data mem p (bufLen mem p) got i
        have hkept := fun x => @storeChunk_other mem p (bufLen mem p) got x
        generalize setBufLen (storeBytes mem (bufData p (bufLen mem p)) got) p
          (bufLen mem p + got.length) = mem₁ at hfields hwritten hkept ⊢
        obtain ⟨hc₁, hl₁, hi₁⟩ := hfields
        have hrec := ih mem₁ (by omega) (by omega)
        simp only [hc₁, hl₁, hi₁] at hrec
        obtain ⟨⟨hc, hl, hi⟩, hdata, hframe⟩ := hrec
        refine ⟨⟨hc, ?_, hi⟩, ?_, ?_⟩
        · rw [hl, List.length_append]; omega
        · intro i h
          by_cases hlt : i < got.length
          · rw [List.getElem?_append_left hlt, hwritten i hlt, hframe _
              (by simp only [bufData, sizeofBuffer]; omega) (.inl (by simp only [bufData]; omega))]
          · simp only [List.length_append] at h
            have haddr : bufLen mem p + got.length + (i - got.length) = bufLen mem p + i := by omega
            rw [List.getElem?_append_right (by omega), hdata (i - got.length) (by omega), haddr]
        · intro x hx hout
          simp only [List.length_append, bufData] at hout
          rw [hframe x hx (by simp only [bufData]; omega)]
          exact hkept x hx (by simp only [bufData]; omega)

theorem recvLoop_eq (os : List RecvOutcome) :
    ∀ b : Buffer, recvLoop b os = b.append (received b.cap b.len os) := by
  have hnil : ∀ b : Buffer, b.append [] = b := by intro b; simp [Buffer.append]
  induction os with
  | nil => intro b; exact (hnil b).symm
  | cons o os ih =>
    intro b
    cases o with
    | wouldBlock | endOfStream | failed => exact (hnil b).symm
    | chunk bs =>
      simp only [recvLoop, received]
      split
      · exact (hnil b).symm
      · rw [ih]
        simp only [Buffer.append, storeBytes_append, List.length_append, Nat.add_assoc]

/-- The bytes of the arena follow the `Buffer` value through a receive. -/
theorem recvLoopAt_refines {mem : Memory} {b : Buffer} (h : BufferAt mem b) (hle : b.len ≤ b.cap)
    (hcap : b.cap < 256 ^ 4) (os : List RecvOutcome) :
    BufferAt (recvLoopAt mem b.addr os) (recvLoop b os) := by
  have hspec := recvLoopAt_spec b.addr os mem (by rw [h.len, h.cap]; exact hle)
    (by rw [h.cap]; exact hcap)
  simp only [h.len, h.cap, h.idx] at hspec
  obtain ⟨⟨hc, hl, hi⟩, hdata, hframe⟩ := hspec
  rw [recvLoop_eq]
  refine ⟨hc, hl, hi, ?_⟩
  intro i hlt
  simp only [Buffer.append] at hlt ⊢
  by_cases hold : i < b.len
  · rw [storeBytes_other _ _ _ _ (.inl hold), ← h.data i hold]
    exact hframe _ (by simp only [bufData, sizeofBuffer]; omega)
      (.inl (by simp only [bufData]; omega))
  · obtain ⟨k, rfl⟩ := Nat.exists_eq_add_of_le (Nat.le_of_not_lt hold)
    have hk : k < (received b.cap b.len os).length := by omega
    have hgot := hdata k hk
    rw [List.getElem?_eq_getElem hk] at hgot
    rw [storeBytes_at _ _ _ _ hk]
    exact (Option.some.inj hgot).symm

/-! ## What does not fit -/

/-- Header word, `Buffer` fields and `data[0..cap)` lie in the blocks of the buffer. -/
def FitsBlocks (b : Buffer) : Prop :=
  sizeofWord + sizeofBuffer + b.cap ≤ connectionBufferBlockSize * pingArenaBlockSize

/-- Receiving changes no byte of an allocation other than the read buffer's. -/
def RecvFrames (mem : Memory) (live : List Allocation) (conn : Connection)
    (os : List RecvOutcome) : Prop :=
  ∀ x ∈ live, x ≠ large (runOf conn.readBuf) connectionBufferBlockSize →
    ∀ addr, x.lo ≤ addr → addr < x.hi → connectionRecvAt mem conn os addr = mem addr

/-- The received bytes that go past the run repeat what other allocations hold there. -/
def SpillHarmless (mem : Memory) (live : List Allocation) (conn : Connection)
    (os : List RecvOutcome) : Prop :=
  ∀ j, dataInRun ≤ j → j < (received conn.readBuf.cap 0 os).length →
    ∀ x ∈ live, x ≠ large (runOf conn.readBuf) connectionBufferBlockSize →
      x.lo ≤ bufData conn.readBuf.addr j → bufData conn.readBuf.addr j < x.hi →
        (received conn.readBuf.cap 0 os)[j]? = some (mem (bufData conn.readBuf.addr j))

theorem Created.not_fits {live : List Allocation} {a : MemoryArena} {conn : Connection} {r w : Nat}
    (h : Created live a conn r w) : ¬ FitsBlocks conn.readBuf ∧ ¬ FitsBlocks conn.sendBuf := by
  simp only [FitsBlocks, h.readCap, h.sendCap]
  decide

/-- A receive into a new buffer, on the bytes of the arena. -/
theorem Created.recv_spec {live : List Allocation} {a : MemoryArena} {conn : Connection} {r w : Nat}
    (h : Created live a conn r w) (os : List RecvOutcome) :
    let p := conn.readBuf.addr
    let got := received conn.readBuf.cap 0 os
    (∀ i, i < got.length → got[i]? = some (connectionRecvAt a.start conn os (bufData p i))) ∧
      ∀ x, (x < p + 4 ∨ p + 8 ≤ x) → (x < bufData p 0 ∨ bufData p got.length ≤ x) →
        connectionRecvAt a.start conn os x = a.start x := by
  have hlen : bufLen a.start conn.readBuf.addr = 0 := h.readAt.len.trans h.readEmpty
  have hcap := h.readAt.cap
  have hmax : ¬ conn.maxRequestCount = conn.requestCount := by
    rw [h.requests.1, h.requests.2]; decide
  have hroom : ¬ bufLen a.start conn.readBuf.addr = bufCap a.start conn.readBuf.addr := by
    rw [hlen, hcap, h.readCap]; decide
  have hspec := recvLoopAt_spec conn.readBuf.addr os a.start
    (by rw [hlen]; exact Nat.zero_le _) (by rw [hcap, h.readCap]; decide)
  simp only [hlen, hcap, Nat.zero_add] at hspec
  simp only [connectionRecvAt, hmax, hroom, ↓reduceIte]
  exact ⟨hspec.2.1, hspec.2.2⟩

/-- The frame holds of exactly the receives whose spill changes nothing. -/
theorem Created.frames_iff {live : List Allocation} {a : MemoryArena} {conn : Connection} {r w : Nat}
    (h : Created live a conn r w) (os : List RecvOutcome) :
    let live' := large w connectionBufferBlockSize :: large r connectionBufferBlockSize :: live
    RecvFrames a.start live' conn os ↔ SpillHarmless a.start live' conn os := by
  intro live'
  obtain ⟨hdata, hframe⟩ := h.recv_spec os
  have hrun := h.runOf_read
  have haddr := h.readAddr
  constructor
  · intro hall j _ hj x hx hne hlo hhi
    rw [hdata j hj, hall x hx hne _ hlo hhi]
  · intro hspill x hx hne addr hlo hhi
    -- the other allocation lies before or behind the run of the read buffer
    have hperm : live'.Perm (large r connectionBufferBlockSize :: live'.erase (large r connectionBufferBlockSize)) :=
      List.perm_cons_erase (by simp [live'])
    have hap := (List.pairwise_cons.1 ((hperm.pairwise_iff Apart.symm).1 h.inv.apart)).1
    have hx' : x ∈ live'.erase (large r connectionBufferBlockSize) :=
      (List.mem_erase_of_ne (by rw [hrun] at hne; exact hne)).2 hx
    have hout : (r + 3) * 4096 ≤ addr ∨ addr < r * 4096 := by
      rcases hap x hx' with hle | hle
      · exact .inl (Nat.le_trans hle hlo)
      · exact .inr (Nat.lt_of_lt_of_le hhi hle)
    simp only [pingArenaBlockSize, sizeofWord] at haddr
    by_cases hin : addr < bufData conn.readBuf.addr 0 ∨
        bufData conn.readBuf.addr (received conn.readBuf.cap 0 os).length ≤ addr
    · exact hframe addr (by omega) hin
    · obtain ⟨j, rfl⟩ : ∃ j, addr = bufData conn.readBuf.addr j :=
        ⟨addr - bufData conn.readBuf.addr 0, by simp only [bufData] at hin ⊢; omega⟩
      have hj : j < (received conn.readBuf.cap 0 os).length := by
        simp only [bufData] at hin
        omega
      have hfar : dataInRun ≤ j := by
        simp only [bufData, sizeofBuffer] at hout
        simp only [dataInRun, connectionBufferBlockSize, pingArenaBlockSize, sizeofWord,
          sizeofBuffer]
        omega
      exact Option.some.inj ((hdata j hj).symm.trans (hspill j hfar hj x hx hne hlo hhi))

/-- No connection has its buffers within their blocks, and a receive stays out of
the other allocations exactly when its spill is harmless. -/
theorem buffers_never_fit (size : Nat) (mem : Memory)
    (fits : arenaSize size * pingArenaBlockSize < 2 ^ 64) (s : ArenaState)
    (hs : Reaches (graph arenaStep) always (arenaStart size mem fits) s)
    (conn conn' : Connection) (fd : Int) (connId now : Nat) (a' : MemoryArena)
    (hcreate : connectionCreate conn fd s.arena connId now = (a', conn', 0)) :
    ¬ FitsBlocks conn'.readBuf ∧ ¬ FitsBlocks conn'.sendBuf ∧
      ∀ os, RecvFrames a'.start
          (large (runOf conn'.sendBuf) connectionBufferBlockSize ::
            large (runOf conn'.readBuf) connectionBufferBlockSize :: s.live) conn' os ↔
        SpillHarmless a'.start
          (large (runOf conn'.sendBuf) connectionBufferBlockSize ::
            large (runOf conn'.readBuf) connectionBufferBlockSize :: s.live) conn' os := by
  rcases connectionCreate_spec (arenaRun_inv hs) hcreate with ⟨hret, _⟩ | ⟨_, _, r, w, hc⟩
  · exact absurd hret (by decide)
  · refine ⟨hc.not_fits.1, hc.not_fits.2, fun os => ?_⟩
    rw [hc.runOf_read, hc.runOf_send]
    exact hc.frames_iff os

/-- An arena with room for one connection. -/
abbrev sixBlocks : ArenaState := arenaStart 6 (fun _ => 0) (by decide)

theorem sixBlocks_create : ∃ a conn,
    connectionCreate Connection.blank 5 sixBlocks.arena 0 0 = (a, conn, 0) ∧
      conn.readBuf.addr = sizeofWord ∧
      conn.sendBuf.addr = connectionBufferBlockSize * pingArenaBlockSize + sizeofWord ∧
      a.start (connectionBufferBlockSize * pingArenaBlockSize) = 3 :=
  ⟨_, _, Prod.ext rfl (Prod.ext rfl (by decide +kernel)), by decide +kernel, by decide +kernel,
    by decide +kernel⟩

theorem buffers_never_fit_sixBlocks : ∃ a conn,
    connectionCreate Connection.blank 5 sixBlocks.arena 0 0 = (a, conn, 0) ∧
      ¬ FitsBlocks conn.readBuf ∧ ¬ FitsBlocks conn.sendBuf := by
  obtain ⟨a, conn, hcreate, -⟩ := sixBlocks_create
  have hnever := buffers_never_fit 6 (fun _ => 0) (by decide) sixBlocks .start _ _ 5 0 0 _ hcreate
  exact ⟨a, conn, hcreate, hnever.1, hnever.2.1⟩

/-- A client that sends 12280 bytes at once rewrites the header word of the send
buffer next to its read buffer. -/
theorem recv_rewrites_header : ∃ a conn,
    connectionCreate Connection.blank 5 sixBlocks.arena 0 0 = (a, conn, 0) ∧
      ¬ FitsBlocks conn.readBuf ∧
      ¬ RecvFrames a.start [large 3 3, large 0 3] conn [.chunk (List.replicate 12280 0x41)] := by
  obtain ⟨a, conn, hcreate, hread, hsend, hword⟩ := sixBlocks_create
  refine ⟨a, conn, hcreate, ?_⟩
  rcases connectionCreate_spec (arenaRun_inv (s := sixBlocks) .start) hcreate with
    ⟨hret, _⟩ | ⟨_, _, r, w, hc⟩
  · exact absurd hret (by decide)
  · have hr : r = 0 := by rw [← hc.runOf_read, runOf, hread]; rfl
    have hw : w = 3 := by rw [← hc.runOf_send, runOf, hsend]; rfl
    subst hr hw
    refine ⟨hc.not_fits.1, fun hframes => ?_⟩
    have hspill := (hc.frames_iff _).1 hframes
    have hgot : received bufferRunSize 0 [.chunk (List.replicate 12280 0x41)] =
        List.replicate 12280 0x41 := received_one List.length_replicate.le
    rw [SpillHarmless, hc.readCap, hgot, hread] at hspill
    -- data[12268] lies on the first byte of the header word
    have hbyte := hspill dataInRun (Nat.le_refl _) (by rw [List.length_replicate]; decide)
      (large 3 3) List.mem_cons_self (by rw [hc.runOf_read]; decide) (by decide) (by decide)
    rw [List.getElem?_replicate_of_lt (by decide)] at hbyte
    exact absurd ((Option.some.inj hbyte).trans hword) (by decide)

end PingServer
