import PingServer.Net.Slots
import PingServer.Ds.IdCreate

/-!
# Slot accounting

From a server that has just started with pools in order, any order of handler
calls keeps every connection number either free or held by one open connection,
as long as no run of the accept loop reaches the limit after it has opened a
connection. There `clean_idx` gives the numbers of that connection back although
it stays open. The pools that `id_list_create` makes are not in order, but what
`begin` leads to is all that the server reads of them.
-/

namespace PingServer

/-! ## The start -/

/-- `tcp_server_run` has made the arena and the arrays; nothing has happened yet. -/
structure NothingOpen (s : TcpServer) : Prop where
  /-- `id_list_create` takes an `int` -/
  max : s.maxConnections < 2 ^ 31
  current : s.currentConnections = 0
  opened : s.opened = []
  arena : ∃ size mem fits, s.memArena = arenaCreate size mem fits
  trace : s.trace = []
  running : s.running = true

/-- A pool as `id_list_create` leaves it: `begin` leads through all numbers, `end` is the first
node. The `next` of the last node is what `malloc` left there; the server at its limit would
write through any other pointer than `NULL`. -/
def PoolCreated (pool : IdList) (max : Nat) : Prop :=
  ∃ a, pool = idListCreate max a ∧ (a (max - 1)).next = none

/-- The start of the server. -/
structure Started (s : TcpServer) : Prop extends NothingOpen s where
  several : 2 ≤ s.maxConnections
  tcp : PoolCreated s.tcpIdList s.maxConnections
  timer : PoolCreated s.timerIdList s.maxConnections

/-- A start with pools in order, as `id_list_create` never makes them. -/
structure TidyStart (s : TcpServer) : Prop extends NothingOpen s where
  tcp : ∃ free, Represents s.tcpIdList.list free ∧ free.Perm (List.range s.maxConnections)
  timer : ∃ free, Represents s.timerIdList.list free ∧ free.Perm (List.range s.maxConnections)
  tcpCount : s.tcpIdList.count = 0
  timerCount : s.timerIdList.count = 0

theorem NothingOpen.slotInv {s : TcpServer} (h : NothingOpen s)
    (htcp : PoolInv tidy s.tcpIdList [] s.maxConnections)
    (htimer : PoolInv tidy s.timerIdList [] s.maxConnections) : SlotInv tidy s [] [] := by
  refine ⟨?_, ?_, ?_, ?_, ?_, fun _ => ?_, fun _ => ⟨rfl, rfl⟩⟩ <;> rw [h.opened]
  · exact htcp
  · exact htimer
  · simp
  · simp
  · simp
  · exact h.current

theorem PoolCreated.poolInv {pool : IdList} {max : Nat} (h : PoolCreated pool max)
    (hseveral : 2 ≤ max) (hmax : max < 2 ^ 32) : PoolInv False pool [] max := by
  obtain ⟨a, rfl, -⟩ := h
  exact created_pool hseveral hmax a

theorem Started.slotInv {s : TcpServer} (h : Started s) : SlotInv False s [] [] := by
  have hmax : s.maxConnections < 2 ^ 32 := by
    have := h.max
    omega
  exact h.toNothingOpen.slotInv (h.tcp.poolInv h.several hmax) (h.timer.poolInv h.several hmax)

theorem TidyStart.slotInv {s : TcpServer} (h : TidyStart s) : SlotInv True s [] [] := by
  obtain ⟨free, hrep, hperm⟩ := h.tcp
  obtain ⟨free', hrep', hperm'⟩ := h.timer
  have hmax : s.maxConnections < 2 ^ 32 := by
    have := h.max
    omega
  exact h.toNothingOpen.slotInv ⟨⟨free, hrep.leads, fun _ => hrep, hperm⟩, fun _ => h.tcpCount, hmax⟩
    ⟨⟨free', hrep'.leads, fun _ => hrep', hperm'⟩, fun _ => h.timerCount, hmax⟩

/-- A server for `max` connections over a fresh arena, in memory that is all zero. -/
def TcpServer.fresh (max size : Nat) (fits : arenaSize size * pingArenaBlockSize < 2 ^ 64) :
    TcpServer where
  connArray := fun _ => .blank
  eventTcpArray := fun _ => ⟨0, none⟩
  eventTimerArray := fun _ => ⟨0, 0, none⟩
  tcpIdList := idListCreate max fun _ => ⟨none, none⟩
  timerIdList := idListCreate max fun _ => ⟨none, none⟩
  memArena := arenaCreate size (fun _ => 0) fits
  ctxs := fun _ => HttpContext.zero
  cache := .empty
  totalConnections := 0
  currentConnections := 0
  maxConnections := max
  running := true
  connectionId := 0
  trace := []
  opened := []
  dead := []

theorem TcpServer.fresh_started {max size : Nat}
    {fits : arenaSize size * pingArenaBlockSize < 2 ^ 64} (hmax : max < 2 ^ 31)
    (hseveral : 2 ≤ max) : Started (.fresh max size fits) :=
  ⟨⟨hmax, rfl, rfl, ⟨size, _, fits, rfl⟩, rfl, rfl⟩, hseveral, ⟨_, rfl, rfl⟩, ⟨_, rfl, rfl⟩⟩

/-- A pool of all numbers below `max`, in order. -/
def IdList.full (max : Nat) : IdList where
  list :=
    { nodes := fun i =>
        ⟨if i = 0 then none else some (i - 1), if i + 1 < max then some (i + 1) else none⟩
      first := if 0 < max then some 0 else none
      last := if 0 < max then some (max - 1) else none }
  count := 0

theorem IdList.full_links (max n : Nat) : ∀ k, k + n = max →
    Links (IdList.full max).list.nodes (if k = 0 then none else some (k - 1)) (List.range' k n) := by
  induction n with
  | zero =>
    intro k _
    trivial
  | succ n ih =>
    intro k hk
    constructor
    · cases n with
      | zero => simp [IdList.full, show ¬ k + 1 < max by omega]
      | succ n => simp [IdList.full, show k + 1 < max by omega, List.range'_succ]
    · have hrest := ih (k + 1) (by omega)
      rw [if_neg (by omega), Nat.add_sub_cancel] at hrest
      exact hrest

theorem IdList.full_represents (max : Nat) :
    Represents (IdList.full max).list (List.range max) := by
  refine ⟨List.nodup_range, ?_, ?_, ?_⟩
  · cases max <;> simp [IdList.full, List.range_succ_eq_map]
  · cases max <;> simp [IdList.full, List.range_succ]
  · rw [List.range_eq_range']
    exact IdList.full_links max max 0 (Nat.zero_add max)

/-- The server with pools in order. -/
def TcpServer.inOrder (max size : Nat) (fits : arenaSize size * pingArenaBlockSize < 2 ^ 64) :
    TcpServer :=
  { TcpServer.fresh max size fits with tcpIdList := .full max, timerIdList := .full max }

theorem TcpServer.inOrder_start {max size : Nat}
    {fits : arenaSize size * pingArenaBlockSize < 2 ^ 64} (hmax : max < 2 ^ 31) :
    TidyStart (.inOrder max size fits) :=
  ⟨⟨hmax, rfl, rfl, ⟨size, _, fits, rfl⟩, rfl, rfl⟩, ⟨_, IdList.full_represents max, .refl _⟩,
    ⟨_, IdList.full_represents max, .refl _⟩, rfl, rfl⟩

/-! ## The accounting -/

/-- The numbers of a pool are free or held, each once, and `count` counts the held ones. -/
structure PoolAccounted (pool : IdList) (held : List Nat) (max : Nat) : Prop where
  free : ∃ free, Represents pool.list free ∧ (held ++ free).Perm (List.range max)
  count : pool.count = held.length

/-- The slot accounting of the server. -/
structure SlotsAccounted (s : TcpServer) : Prop where
  tcp : PoolAccounted s.tcpIdList (s.opened.map Prod.fst) s.maxConnections
  timer : PoolAccounted s.timerIdList (s.opened.map Prod.snd) s.maxConnections
  current : s.currentConnections = s.opened.length
  paired : ∀ i j, (i, j) ∈ s.opened →
    (s.eventTcpArray i).timeEvent = some j ∧ (s.eventTimerArray j).tcpEvent = some i

theorem PoolInv.accounted {pool : IdList} {held : List Nat} {max : Nat}
    (h : PoolInv True pool held max) : PoolAccounted pool held max := by
  obtain ⟨free, -, hrep, hperm⟩ := h.free
  exact ⟨⟨free, hrep trivial, hperm⟩, h.count trivial⟩

theorem SlotInv.accounted {s : TcpServer} (h : SlotInv True s [] []) : SlotsAccounted s := by
  have htcp := h.tcp
  have htimer := h.timer
  rw [List.append_nil] at htcp htimer
  refine ⟨htcp.accounted, htimer.accounted, h.counted rfl, fun i j hij => ?_⟩
  exact ⟨h.timeEvent i j hij, h.tcpEvent i j hij List.not_mem_nil⟩

/-- The system registers what it is asked to, and the arena is large enough. -/
def Provided (l : EventLoop) : LoopEvent → Prop
  | .call c => Accepts l.server c → Registered c.accepts ∧ Ample l.server
  | .wait _ => True

/-- No accept loop reaches the limit after it has opened a connection. -/
def StaysBelow (l : EventLoop) : LoopEvent → Prop
  | .call c => Accepts l.server c → BelowLimit l.server c.accepts
  | .wait _ => True

/-- The contexts that `epoll_wait` has named are settled. -/
structure LoopInv (tidy : Prop) (l : EventLoop) (lost half : List (Nat × Nat)) : Prop where
  slots : SlotInv tidy l.server lost half
  settled : ∀ x ∈ l.returned, Settled l.server x

theorem TcpServer.live_settled {s : TcpServer} {lost half : List (Nat × Nat)} {x : EventContext}
    (h : SlotInv tidy s lost half) (hrun : s.running = true) (hlive : s.live x = true) :
    Linked s x := by
  obtain ⟨rfl, rfl⟩ := h.halted hrun
  cases x with
  | listen => trivial
  | tcp i =>
    obtain ⟨⟨k, l⟩, hmem, hk⟩ := List.any_eq_true.1 hlive
    rw [beq_iff_eq] at hk
    exact ⟨l, hk ▸ hmem⟩
  | timer j =>
    obtain ⟨⟨k, l⟩, hmem, hl⟩ := List.any_eq_true.1 hlive
    rw [beq_iff_eq] at hl
    have hmem' : (k, j) ∈ s.opened := hl ▸ hmem
    exact ⟨k, hmem', h.tcpEvent k j hmem' List.not_mem_nil⟩

/-- One step of the event loop keeps the accounting. -/
theorem loopStep_slots {parse : Parser} {l l' : EventLoop} {e : LoopEvent}
    {lost half : List (Nat × Nat)} (h : LoopInv tidy l lost half)
    (hbelow : tidy → StaysBelow l e)
    (hstep : loopStep parse l e = some l') :
    ∃ lost' half', LoopInv tidy l' lost' half' ∧ (Provided l e → lost' = lost ∧ half' = half) := by
  cases e with
  | wait returned =>
    simp only [loopStep] at hstep
    split at hstep
    · rename_i hwait
      cases hstep
      refine ⟨lost, half, ⟨?_, fun x hx => .inl ?_⟩, fun _ => ⟨rfl, rfl⟩⟩
      · exact h.slots.congr h.slots.tcp h.slots.timer rfl rfl rfl rfl (fun _ _ _ => rfl) rfl id
      · have hlinked := TcpServer.live_settled h.slots hwait.1 (hwait.2 x hx)
        cases x <;> exact hlinked
    · cases hstep
  | call c =>
    simp only [loopStep] at hstep
    split at hstep
    · rename_i hmem
      split at hstep
      · rename_i t hdisp
        cases hstep
        obtain ⟨⟨lost', half', hinv, hkept⟩, hstays⟩ :=
          dispatch_slots h.slots (h.settled _ hmem) hbelow hdisp
        exact ⟨lost', half', ⟨hinv, fun x hx => hstays x (h.settled x hx)⟩, hkept⟩
      · cases hstep
    · cases hstep

/-- From the real start of the server the numbers of open connections are held, whatever comes. -/
theorem loop_slots {parse : Parser} {ok : EventLoop → LoopEvent → Prop} {s : TcpServer}
    {l : EventLoop} (hstart : Started s)
    (hrun : Machine.Reaches (Machine.graph (loopStep parse)) ok ⟨s, []⟩ l) :
    ∃ lost half, LoopInv False l lost half := by
  refine hrun.invariant (fun l => ∃ lost half, LoopInv False l lost half)
    ⟨[], [], hstart.slotInv, by simp⟩ ?_
  rintro a e b ⟨lost, half, hinv⟩ - hstep
  obtain ⟨lost', half', hinv', -⟩ := loopStep_slots hinv False.elim hstep
  exact ⟨lost', half', hinv'⟩

/-- The slots are accounted for after any handler calls, in any order. -/
theorem slots_accounted {parse : Parser} {s : TcpServer} {l : EventLoop} (hstart : TidyStart s)
    (hrun : Machine.Reaches (Machine.graph (loopStep parse))
      (fun l e => Provided l e ∧ StaysBelow l e) ⟨s, []⟩ l) : SlotsAccounted l.server := by
  have hinv : LoopInv True l [] [] := by
    refine hrun.invariant (fun l => LoopInv True l [] []) ⟨hstart.slotInv, by simp⟩ ?_
    intro a e b hinv hok hstep
    obtain ⟨lost', half', hinv', hkept⟩ := loopStep_slots hinv (fun _ => hok.2) hstep
    obtain ⟨rfl, rfl⟩ := hkept hok.1
    exact hinv'
  exact hinv.slots.accounted

/-! ## Two runs -/

/-- A client is waiting, and everything it needs is there. -/
def oneClient : AcceptOutcome := ⟨some 5, some 6, true, true⟩

def acceptCall (outs : List AcceptOutcome) : LoopEvent := .call ⟨.listen, .onRead, .opens, outs⟩

/-- A client is accepted and its connection fails. -/
def acceptThenError : List LoopEvent :=
  [.wait [.listen], acceptCall [oneClient], .wait [.tcp 0, .timer 0],
    .call ⟨.tcp 0, .onError, .opens, []⟩]

/-- A parser that never finds a request. -/
def noRequest : Parser := fun _ _ => ⟨-2, [], [], 0, []⟩

section

variable (s : TcpServer) (c : HandlerCall) (outs : List AcceptOutcome) (l : EventLoop)

instance : Decidable (Accepts s c) := inferInstanceAs (Decidable (_ ∧ _ ∧ _))

instance : Decidable (Registered outs) := inferInstanceAs (Decidable (∀ o ∈ outs, _ ∧ _))

instance : Decidable (Ample s) := inferInstanceAs (Decidable (_ = true))

instance : Decidable (BelowLimit s outs) := inferInstanceAs (Decidable (_ ∨ _ < _))

instance : (e : LoopEvent) → Decidable (Provided l e)
  | .call c => inferInstanceAs (Decidable (Accepts l.server c → _ ∧ _))
  | .wait _ => inferInstanceAs (Decidable True)

instance : (e : LoopEvent) → Decidable (StaysBelow l e)
  | .call c => inferInstanceAs (Decidable (Accepts l.server c → BelowLimit _ _))
  | .wait _ => inferInstanceAs (Decidable True)

end

theorem slots_accounted_acceptThenError : ∃ l,
    Machine.run (loopStep noRequest) ⟨.inOrder 2 12 (by decide), []⟩ acceptThenError = some l ∧
      SlotsAccounted l.server := by
  have hsome : (Machine.run (loopStep noRequest) ⟨.inOrder 2 12 (by decide), []⟩
      acceptThenError).isSome := by decide +kernel
  obtain ⟨l, hrun⟩ := Option.isSome_iff_exists.1 hsome
  have hallowed : Machine.allowedAlong (loopStep noRequest) (fun l e => Provided l e ∧ StaysBelow l e)
      ⟨.inOrder 2 12 (by decide), []⟩ acceptThenError := by decide +kernel
  exact ⟨l, hrun, slots_accounted (TcpServer.inOrder_start (by decide))
    (Machine.reaches_of_run hallowed hrun)⟩

/-- The only slot is taken, and the loop goes on to the limit test: the connection
is open, but its numbers are back in the pools and not counted. -/
theorem limit_frees_open_slot : ¬ ∀ s l, TidyStart s →
    Machine.Reaches (Machine.graph (loopStep noRequest)) Provided ⟨s, []⟩ l →
      SlotsAccounted l.server := by
  intro hall
  have hcounts : (Machine.run (loopStep noRequest) ⟨.inOrder 1 12 (by decide), []⟩
      [.wait [.listen], acceptCall [oneClient]]).any (fun l =>
        decide (l.server.opened = [(0, 0)] ∧ l.server.tcpIdList.count = 0)) := by decide +kernel
  obtain ⟨l, hrun, hcount⟩ := (Option.any_eq_true _ _).1 hcounts
  obtain ⟨hopened, hcount⟩ := of_decide_eq_true hcount
  have hallowed : Machine.allowedAlong (loopStep noRequest) Provided
      ⟨.inOrder 1 12 (by decide), []⟩ [.wait [.listen], acceptCall [oneClient]] := by decide +kernel
  have hacc := hall _ l (TcpServer.inOrder_start (by decide))
    (Machine.reaches_of_run hallowed hrun)
  have hheld := hacc.tcp.count
  rw [hopened, hcount] at hheld
  cases hheld

end PingServer
