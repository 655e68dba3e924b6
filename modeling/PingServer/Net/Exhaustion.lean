import PingServer.Ds.ArenaSearch
import PingServer.Net.Accounting

/-!
# Clients without memory

`connection_create` gives `ERROR_MEM_FULL` for a client that the arena has no
buffers for, and `tcpserver_listen_on_read` has a branch that would refuse it.
`tcpserver_add_tcp_event` in between turns every error into -1, which stops the
server instead.
-/

namespace PingServer

open ByteMem Machine

/-- A turn of the accept loop that opens a connection; `none` for any other turn. -/
def acceptOne (now : Nat) (s : TcpServer) (o : AcceptOutcome) : Option TcpServer :=
  if s.currentConnections = s.maxConnections then none
  else
    match idListGet s.tcpIdList, idListGet s.timerIdList, o.accepted, o.timerfd with
    | (tcpIds, some i), (timerIds, some j), some fd, some timeFd =>
      if s.memArena.cap < connectionBufferBlockSize then none
      else
        let s := { s with tcpIdList := tcpIds, timerIdList := timerIds }
        let (s, ret) := tcpserverAddTcpEvent s i j fd o.tcpAdded now
        if ret < 0 then none
        else
          let (s, ret) := tcpserverAddTimerEvent s i j timeFd o.timerAdded
          if ret < 0 then none
          else
            some { s with
              currentConnections := inc64 s.currentConnections
              totalConnections := inc64 s.totalConnections }
    | _, _, _, _ => none

/-- The loop goes on with the next client. -/
theorem listenLoop_acceptOne {now : Nat} {s t : TcpServer} {o : AcceptOutcome}
    (h : acceptOne now s o = some t) (outs : List AcceptOutcome) (newIdx newIdx2 : Option Nat) :
    ∃ i j, listenLoop now (o :: outs) s newIdx newIdx2 =
      listenLoop now outs t (some i) (some j) := by
  unfold acceptOne at h
  split at h
  · cases h
  · rename_i hfull
    split at h
    · rename_i tcpIds i timerIds j fd timeFd htcp htimer hfd htime
      split at h
      · cases h
      · rename_i hcap
        simp only at h
        split at h
        · cases h
        · rename_i hret
          split at h
          · cases h
          · rename_i hret'
            cases h
            refine ⟨i, j, ?_⟩
            have hmem : ¬ (tcpserverAddTcpEvent { s with tcpIdList := tcpIds, timerIdList := timerIds }
                i j fd o.tcpAdded now).2 = errorMemFull := by
              intro he
              rw [he] at hret
              exact hret (by decide)
            rw [listenLoop, if_neg hfull]
            simp only [htcp, htimer, hfd, htime, if_neg hcap, if_neg hmem, if_neg hret, if_neg hret']
    · cases h

theorem listenLoop_run {now : Nat} {u : TcpServer} {rest : List AcceptOutcome}
    (pre : List AcceptOutcome) :
    ∀ {s : TcpServer}, run (acceptOne now) s pre = some u → ∀ newIdx newIdx2, ∃ newIdx' newIdx2',
      listenLoop now (pre ++ rest) s newIdx newIdx2 = listenLoop now rest u newIdx' newIdx2' := by
  induction pre with
  | nil =>
    intro s h newIdx newIdx2
    cases h
    exact ⟨newIdx, newIdx2, rfl⟩
  | cons o pre ih =>
    intro s h newIdx newIdx2
    rw [run] at h
    split at h
    · rename_i t ht
      obtain ⟨i, j, hloop⟩ := listenLoop_acceptOne ht (pre ++ rest) newIdx newIdx2
      obtain ⟨a, b, hrest⟩ := ih h (some i) (some j)
      exact ⟨a, b, hloop.trans hrest⟩
    · cases h

/-- The arena has no buffers for another connection. -/
def BuffersRefused (a : MemoryArena) : Prop :=
  (connectionCreate .blank 0 a 0 0).2.2 = errorMemFull

/-- What refusing one client would be: its descriptors are closed, its numbers are
back in their pools, and nothing else has changed. -/
structure RefusesClient (u t : TcpServer) (fd timeFd : Nat) : Prop where
  running : t.running = true
  closed : t.trace = u.trace ++ [.closeFd fd, .closeFd timeFd]
  tcpId : ∃ i pool, idListGet u.tcpIdList = (pool, some i) ∧ idListAdd pool i = some t.tcpIdList
  timerId : ∃ j pool,
    idListGet u.timerIdList = (pool, some j) ∧ idListAdd pool j = some t.timerIdList
  current : t.currentConnections = u.currentConnections
  total : t.totalConnections = u.totalConnections
  opened : t.opened = u.opened
  connections : ∀ i j, (i, j) ∈ u.opened → t.connArray i = u.connArray i ∧
    t.eventTcpArray i = u.eventTcpArray i ∧ t.eventTimerArray j = u.eventTimerArray j

/-- The turn of a client without memory ends the loop before anything is closed,
and where both pools had a number left it ends the server. -/
theorem listenLoop_refused {now : Nat} {u t : TcpServer} {o : AcceptOutcome}
    {outs : List AcceptOutcome} {newIdx newIdx2 : Option Nat} {fd timeFd : Nat}
    (hroom : u.currentConnections < u.maxConnections) (hfd : o.accepted = some fd)
    (htime : o.timerfd = some timeFd) (hfull : BuffersRefused u.memArena)
    (hloop : listenLoop now (o :: outs) u newIdx newIdx2 = .ok t) :
    t.trace = u.trace ∧ ((idListGet u.tcpIdList).2 ≠ none → (idListGet u.timerIdList).2 ≠ none →
      t.running = false) := by
  rw [listenLoop, if_neg (by omega)] at hloop
  obtain ⟨tcpIds, idx, htcp⟩ : ∃ p i, idListGet u.tcpIdList = (p, i) := ⟨_, _, rfl⟩
  obtain ⟨timerIds, idx2, htimer⟩ : ∃ p i, idListGet u.timerIdList = (p, i) := ⟨_, _, rfl⟩
  simp only [htcp, htimer] at hloop ⊢
  cases idx with
  | none =>
    obtain ⟨-, -, heq⟩ := cleanIdx_ok hloop
    exact ⟨by rw [heq], fun hne => absurd rfl hne⟩
  | some i =>
    cases idx2 with
    | none =>
      obtain ⟨-, -, heq⟩ := cleanIdx_ok hloop
      exact ⟨by rw [heq], fun _ hne => absurd rfl hne⟩
    | some j =>
      simp only [hfd, htime] at hloop
      split at hloop
      · cases hloop
      · obtain ⟨a, conn, ret, -, -, hadd⟩ | ⟨s₂, hcreated, -⟩ := tcpserverAddTcpEvent_cases
          { u with tcpIdList := tcpIds, timerIdList := timerIds } i j fd o.tcpAdded now
        · simp only [hadd] at hloop
          cases hloop
          exact ⟨rfl, fun _ _ => rfl⟩
        · obtain ⟨ret, hcreate, hret⟩ := hcreated.create
          rw [← (connectionCreate_arena hcreate).2, hfull] at hret
          exact absurd (by decide) hret

/-- Whatever state the server is in, a client that the arena has no buffers for is
not refused on its own. -/
theorem exhausted_never_refuses (now : Nat) (s u : TcpServer) (pre post : List AcceptOutcome)
    (o : AcceptOutcome) (fd timeFd : Nat) (hturns : run (acceptOne now) s pre = some u)
    (hroom : u.currentConnections < u.maxConnections) (hfd : o.accepted = some fd)
    (htime : o.timerfd = some timeFd) (hfull : BuffersRefused u.memArena) :
    ¬ ∃ t, tcpserverListenOnRead s (pre ++ o :: post) now = .ok t ∧ RefusesClient u t fd timeFd := by
  rintro ⟨t, hlisten, hrefuses⟩
  unfold tcpserverListenOnRead at hlisten
  split at hlisten
  · obtain ⟨a, b, hloop⟩ := @listenLoop_run now u (o :: post) pre s hturns none none
    rw [hloop] at hlisten
    have hclosed := hrefuses.closed
    rw [(listenLoop_refused hroom hfd htime hfull hlisten).1] at hclosed
    simp at hclosed
  · rename_i hstopped
    cases hlisten
    exact hstopped hrefuses.running

/-! ## A full server -/

/-- The first `m` blocks of the arena that `tcp_server_run` makes are in use, and the
others are free. -/
structure FilledTo (a : MemoryArena) (m : Nat) : Prop where
  cap : a.cap = 4096
  now : a.now = m
  bits : ∀ i, bitAt a.bitmap i = decide (i < m)

namespace FilledTo

variable {a : MemoryArena} {m : Nat}

theorem congr_start (h : FilledTo a m) (mem : Memory) : FilledTo { a with start := mem } m :=
  ⟨h.cap, h.now, h.bits⟩

theorem free (h : FilledTo a m) {i : Nat} (hi : m ≤ i) : bitGet a.bitmap i = 0 := by
  rw [bitGet_eq_zero_iff, h.bits]
  exact decide_eq_false (by omega)

/-- The search ends in its third turn. -/
theorem find (h : FilledTo a m) (hm : m + 3 < 4096) (fuel : Nat) :
    findBlocks a 3 (fuel + 3) 0 0 0 = some m := by
  have hcap := h.cap
  have hnow := h.now
  have h₀ : a.now % a.cap = m := by
    rw [hnow, hcap]
    omega
  have h₁ : (a.now + 1) % a.cap = m + 1 := by
    rw [hnow, hcap]
    omega
  have h₂ : (a.now + 2) % a.cap = m + 2 := by
    rw [hnow, hcap]
    omega
  have f₀ := h.free (Nat.le_refl m)
  have f₁ := h.free (Nat.le_add_right m 1)
  have f₂ := h.free (Nat.le_add_right m 2)
  have l₀ : ¬ m = a.cap - 1 := by omega
  have l₁ : ¬ m + 1 = a.cap - 1 := by omega
  simp [findBlocks, h₀, h₁, h₂, f₀, f₁, f₂, l₀, l₁]

/-- The next run of three blocks begins where the used ones end. -/
theorem alloc (h : FilledTo a m) (hm : m + 3 < 4096) :
    ∃ a' ptr size, arenaAllocBlock a 3 = some (a', ptr, size) ∧ FilledTo a' (m + 3) := by
  have hcap := h.cap
  have hsome : arenaAllocBlock a 3 = some (takeBlocks a m 3,
      m * pingArenaBlockSize + sizeofWord, 3 * pingArenaBlockSize - sizeofWord) := by
    rw [arenaAllocBlock, hcap, h.find hm 4093]
  refine ⟨_, _, _, hsome, hcap, ?_, ?_⟩
  · simp only [takeBlocks, hcap]
    omega
  · intro i
    simp only [takeBlocks]
    rw [bitAt_bitmapSetRange _ (by omega), h.bits, ← Bool.decide_or, decide_eq_decide]
    omega

/-- Both buffers of a new connection come next. -/
theorem create (h : FilledTo a m) (hm : m + 6 < 4096) :
    (connectionCreate .blank 0 a 0 0).2.2 = 0 ∧
      FilledTo (connectionCreate .blank 0 a 0 0).1 (m + 6) := by
  obtain ⟨a₁, readBuf, readSize, hread, h₁⟩ := h.alloc (by omega)
  obtain ⟨a₂, sendBuf, sendSize, hsend, h₂⟩ :=
    (h₁.congr_start (setBufCap a₁.start readBuf readSize)).alloc (by omega)
  simp only [connectionCreate, hread, hsend]
  exact ⟨trivial, h₂.congr_start _⟩

/-- With four blocks left there are no two runs of three. -/
theorem refused (h : FilledTo a 4092) : BuffersRefused a := by
  obtain ⟨a₁, readBuf, readSize, hread, h₁⟩ := h.alloc (by omega)
  have h₁' := h₁.congr_start (setBufCap a₁.start readBuf readSize)
  have hnone : arenaAllocBlock { a₁ with start := setBufCap a₁.start readBuf readSize } 3 = none := by
    rw [arenaAllocBlock_none_iff (by rw [h₁'.now, h₁'.cap]; omega) (by omega)]
    rintro i ⟨hend, hfree⟩
    have hi := hfree i (Nat.le_refl i) (by omega)
    rw [bitGet_eq_zero_iff, h₁'.bits] at hi
    have hlo := of_decide_eq_false hi
    have hcap := h₁'.cap
    omega
  simp only [BuffersRefused, connectionCreate, hread, hnone]

end FilledTo

/-- A client is accepted where there is a place and memory for it. -/
theorem acceptOne_opens {now fd timeFd : Nat} {s : TcpServer} (hinv : SlotInv tidy s [] [])
    (hroom : s.currentConnections < s.maxConnections) (hcap : 3 ≤ s.memArena.cap)
    (hmem : (connectionCreate .blank 0 s.memArena 0 0).2.2 = 0) :
    ∃ t, acceptOne now s ⟨some fd, some timeFd, true, true⟩ = some t ∧ OpenTurn now s t ∧
      t.memArena = (connectionCreate .blank 0 s.memArena 0 0).1 := by
  obtain ⟨tcpIds, i, htcp, -⟩ := hinv.tcp.get (hinv.room hroom.ne).1
  obtain ⟨timerIds, j, htimer, -⟩ := hinv.timer.get (hinv.room hroom.ne).2
  obtain ⟨a, conn, ret, hcreate, hret, -⟩ | ⟨s₂, hcreated, hadd⟩ := tcpserverAddTcpEvent_cases
    { s with tcpIdList := tcpIds, timerIdList := timerIds } i j fd true now
  · rw [(connectionCreate_arena hcreate).2] at hmem
    omega
  · have hturn : OpenTurn now s { s₂.setTimer j ⟨timeFd, tcpServerDefaultOutTime, some i⟩ with
        currentConnections := inc64 s₂.currentConnections
        totalConnections := inc64 s₂.totalConnections } :=
      ⟨i, j, fd, timeFd, _, s₂, ⟨hroom.ne, htcp, htimer, rfl⟩, hcreated, rfl⟩
    refine ⟨_, ?_, hturn, ?_⟩
    · have hblocks : ¬ s.memArena.cap < connectionBufferBlockSize := Nat.not_lt.2 hcap
      rw [acceptOne, if_neg (by omega)]
      simp only [htcp, htimer, if_neg hblocks, hadd, ↓reduceIte]
      rfl
    · obtain ⟨ret, hcreate, -⟩ := hcreated.create
      exact (connectionCreate_arena hcreate).1.symm

/-- One of many clients, with descriptors of its own. -/
def client (k : Nat) : AcceptOutcome := ⟨some (2 * k + 5), some (2 * k + 6), true, true⟩

def clients (n : Nat) : List AcceptOutcome := (List.range n).map client

/-- The server with its own limits, before the first client. -/
def freshServer : TcpServer := .fresh 4096 0 (by decide)

/-- Up to 682 clients find their memory. -/
theorem clients_accepted (k : Nat) (hk : k ≤ 682) :
    ∃ u, run (acceptOne 0) freshServer (clients k) = some u ∧ SlotInv False u [] [] ∧
      u.currentConnections = k ∧ u.maxConnections = 4096 ∧ FilledTo u.memArena (6 * k) := by
  induction k with
  | zero =>
    have hstart : Started freshServer := TcpServer.fresh_started (by decide) (by decide)
    refine ⟨freshServer, rfl, hstart.slotInv, rfl, rfl, rfl, rfl, ?_⟩
    intro i
    simp [freshServer, TcpServer.fresh, arenaCreate, bitAt]
  | succ k ih =>
    obtain ⟨u, hrun, hinv, hcurrent, hmax, hfilled⟩ := ih (by omega)
    obtain ⟨hret, hnext⟩ := hfilled.create (by omega)
    have hcap := hfilled.cap
    obtain ⟨t, hopen, hturn, harena⟩ := @acceptOne_opens False 0 (2 * k + 5) (2 * k + 6) u
      hinv (by omega) (by omega) hret
    refine ⟨t, ?_, hinv.openTurn hturn, ?_, hturn.max.trans hmax, ?_⟩
    · rw [clients, List.range_succ, List.map_append, run_append]
      rw [clients] at hrun
      rw [hrun, Option.bind_some, List.map_singleton, run, client, hopen]
      rfl
    · rw [hturn.current, hcurrent, inc64_eq (by omega)]
    · rw [harena]
      exact hnext

/-- The 683rd client of a server that holds 682. -/
theorem exhausted_never_refuses_client : ∃ u, run (acceptOne 0) freshServer (clients 682) = some u ∧
    ¬ ∃ t, tcpserverListenOnRead freshServer (clients 682 ++ [client 682]) 0 = .ok t ∧
      RefusesClient u t 1369 1370 := by
  obtain ⟨u, hrun, -, hcurrent, hmax, hfilled⟩ := clients_accepted 682 (Nat.le_refl 682)
  exact ⟨u, hrun, exhausted_never_refuses 0 freshServer u (clients 682) [] (client 682) 1369 1370
    hrun (by omega) rfl rfl hfilled.refused⟩

/-- It stops the server. -/
theorem exhausted_stops_server :
    ¬ ∀ (parse : Parser) (s : TcpServer) (l : EventLoop) (now : Nat) (pre post : List AcceptOutcome)
      (o : AcceptOutcome) (u : TcpServer) (fd timeFd : Nat), Started s →
      Reaches (graph (loopStep parse)) always ⟨s, []⟩ l →
      run (acceptOne now) l.server pre = some u → u.currentConnections < u.maxConnections →
      o.accepted = some fd → o.timerfd = some timeFd → BuffersRefused u.memArena →
      ∃ t, tcpserverListenOnRead l.server (pre ++ o :: post) now = .ok t ∧
        RefusesClient u t fd timeFd := by
  intro hall
  obtain ⟨u, hrun, -, hcurrent, hmax, hfilled⟩ := clients_accepted 682 (Nat.le_refl 682)
  obtain ⟨t, hlisten, hrefuses⟩ := hall noRequest freshServer ⟨freshServer, []⟩ 0 (clients 682) []
    (client 682) u 1369 1370 (TcpServer.fresh_started (by decide) (by decide)) .start hrun (by omega) rfl rfl
    hfilled.refused
  have hrunning : freshServer.running = true := rfl
  simp only [tcpserverListenOnRead, hrunning, ↓reduceIte] at hlisten
  obtain ⟨a, b, hloop⟩ := @listenLoop_run 0 u [client 682] (clients 682) freshServer hrun
    none none
  rw [hloop] at hlisten
  obtain ⟨i, tcpIds, htcp, -⟩ := hrefuses.tcpId
  obtain ⟨j, timerIds, htimer, -⟩ := hrefuses.timerId
  have hstopped := (listenLoop_refused (by omega) rfl rfl hfilled.refused hlisten).2
    (by rw [htcp]; exact Option.some_ne_none i) (by rw [htimer]; exact Option.some_ne_none j)
  rw [hrefuses.running] at hstopped
  cases hstopped

end PingServer
