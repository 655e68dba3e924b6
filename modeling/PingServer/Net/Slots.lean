import PingServer.Net.Accept
import PingServer.Net.Dispatch
import Mathlib.Data.List.Nodup

/-!
# The slots of the server

`SlotInv` is the accounting of connection numbers: every number is in its pool,
held by one open connection, or lost, and the contexts of an open connection
point at each other. `Settled` says what became of the contexts that
`epoll_wait` has named. A handler call keeps both; the pools stay tidy only as
long as no run of the accept loop opens connections up to the limit.
-/

namespace PingServer

/-! ## The invariant -/

/-- The numbers of `lost` are in no pool and have no connection; the pairs of
`half` are not registered. Both stay empty until the server stops. -/
structure SlotInv (tidy : Prop) (s : TcpServer) (lost half : List (Nat × Nat)) : Prop where
  tcp : PoolInv tidy s.tcpIdList ((s.opened ++ lost).map Prod.fst) s.maxConnections
  timer : PoolInv tidy s.timerIdList ((s.opened ++ lost).map Prod.snd) s.maxConnections
  timeEvent : ∀ i j, (i, j) ∈ s.opened → (s.eventTcpArray i).timeEvent = some j
  handler : ∀ i j, (i, j) ∈ s.opened → (s.connArray i).protocolHandler = true
  tcpEvent : ∀ i j, (i, j) ∈ s.opened → (i, j) ∉ half → (s.eventTimerArray j).tcpEvent = some i
  counted : half = [] → s.currentConnections = s.opened.length
  halted : s.running = true → lost = [] ∧ half = []

/-- A context of an open connection that leads to its partner. -/
def Linked (s : TcpServer) : EventContext → Prop
  | .listen => True
  | .tcp i => ∃ j, (i, j) ∈ s.opened
  | .timer j => ∃ i, (i, j) ∈ s.opened ∧ (s.eventTimerArray j).tcpEvent = some i

/-- A context after the deletion of its connection. -/
def Unlinked (s : TcpServer) : EventContext → Prop
  | .listen => False
  | .tcp i => (s.eventTcpArray i).timeEvent = none ∧ (s.connArray i).protocolHandler = false
  | .timer j => (s.eventTimerArray j).tcpEvent = none

/-- The context is in use, or was deleted in this batch. -/
def Settled (s : TcpServer) (x : EventContext) : Prop := Linked s x ∨ x ∈ s.dead ∧ Unlinked s x

namespace SlotInv

variable {s t : TcpServer} {lost half : List (Nat × Nat)}

theorem nodup_fst (h : SlotInv tidy s lost half) : (s.opened.map Prod.fst).Nodup := by
  have hnodup := h.tcp.nodup
  rw [List.map_append] at hnodup
  exact (List.nodup_append.1 hnodup).1

theorem nodup_snd (h : SlotInv tidy s lost half) : (s.opened.map Prod.snd).Nodup := by
  have hnodup := h.timer.nodup
  rw [List.map_append] at hnodup
  exact (List.nodup_append.1 hnodup).1

theorem nodup (h : SlotInv tidy s lost half) : s.opened.Nodup := h.nodup_fst.of_map _

/-- A tcp context has one partner. -/
theorem partner (h : SlotInv tidy s lost half) {i j j' : Nat} (hj : (i, j) ∈ s.opened)
    (hj' : (i, j') ∈ s.opened) : j = j' := by
  have heq := h.timeEvent i j hj
  rw [h.timeEvent i j' hj'] at heq
  exact (Option.some.inj heq).symm

/-- A timer context has one partner. -/
theorem owner (h : SlotInv tidy s lost half) {i i' j : Nat} (hi : (i, j) ∈ s.opened)
    (hi' : (i', j) ∈ s.opened) : i = i' :=
  congrArg Prod.fst (List.inj_on_of_nodup_map h.nodup_snd hi hi' rfl)

end SlotInv

/-! ## Opening -/

theorem PoolInv.get_some {pool pool' : IdList} {held : List Nat} {max i : Nat}
    (h : PoolInv tidy pool held max) (hless : held.length < max)
    (hget : idListGet pool = (pool', some i)) : PoolInv tidy pool' (i :: held) max := by
  obtain ⟨p, k, hsome, hp⟩ := h.get hless
  rw [hsome] at hget
  cases hget
  exact hp

theorem PoolInv.add_some {pool pool' : IdList} {held : List Nat} {max i : Nat}
    (h : PoolInv tidy pool (i :: held) max) (hadd : idListAdd pool i = some pool') :
    PoolInv tidy pool' held max := by
  obtain ⟨p, hp, hinv⟩ := h.add
  rw [hp] at hadd
  cases hadd
  exact hinv

/-- At the limit it does not matter what is given back. -/
theorem PoolInv.giveBack_full {pool pool' : IdList} {held : List Nat} {max : Nat}
    {idx : Option Nat} (h : PoolInv tidy pool held max) (hwild : ¬ tidy) (hfull : held.length = max)
    (hgive : giveBack pool idx = some pool') : PoolInv tidy pool' held max := by
  cases idx with
  | none =>
    cases hgive
    exact h
  | some i => exact h.add_full hwild hfull hgive

theorem cleanIdx_ok {s t : TcpServer} {newIdx newIdx2 : Option Nat}
    (hclean : cleanIdx s newIdx newIdx2 = .ok t) :
    giveBack s.tcpIdList newIdx = some t.tcpIdList ∧
      giveBack s.timerIdList newIdx2 = some t.timerIdList ∧
      t = { s with tcpIdList := t.tcpIdList, timerIdList := t.timerIdList } := by
  unfold cleanIdx at hclean
  split at hclean
  · rename_i tcpIds timerIds htcp htimer
    cases hclean
    exact ⟨htcp, htimer, rfl⟩
  · cases hclean

namespace SlotInv

variable {s t : TcpServer} {lost half : List (Nat × Nat)}

/-- Changing only what the accounting does not read. -/
theorem congr (h : SlotInv tidy s lost half) (htcp : PoolInv tidy t.tcpIdList ((s.opened ++ lost).map Prod.fst)
      s.maxConnections)
    (htimer : PoolInv tidy t.timerIdList ((s.opened ++ lost).map Prod.snd) s.maxConnections)
    (hopened : t.opened = s.opened) (hmax : t.maxConnections = s.maxConnections)
    (htcps : t.eventTcpArray = s.eventTcpArray) (htimers : t.eventTimerArray = s.eventTimerArray)
    (hconn : ∀ i j, (i, j) ∈ s.opened →
      (t.connArray i).protocolHandler = (s.connArray i).protocolHandler)
    (hcurrent : t.currentConnections = s.currentConnections)
    (hrun : t.running = true → s.running = true) : SlotInv tidy t lost half := by
  refine ⟨?_, ?_, ?_, ?_, ?_, ?_, fun hr => h.halted (hrun hr)⟩
  · rw [hopened, hmax]
    exact htcp
  · rw [hopened, hmax]
    exact htimer
  · rw [hopened, htcps]
    exact h.timeEvent
  · rw [hopened]
    intro i j hij
    rw [hconn i j hij]
    exact h.handler i j hij
  · rw [hopened, htimers]
    exact h.tcpEvent
  · rw [hopened, hcurrent]
    exact h.counted

/-- Below the limit there are numbers left. -/
theorem room (h : SlotInv tidy s [] []) (hnot : s.currentConnections ≠ s.maxConnections) :
    ((s.opened ++ []).map Prod.fst).length < s.maxConnections ∧
      ((s.opened ++ []).map Prod.snd).length < s.maxConnections := by
  have hlen := h.tcp.length_le
  have hcount := h.counted rfl
  rw [List.length_map] at hlen ⊢
  rw [List.length_map]
  rw [List.append_nil] at hlen ⊢
  omega

/-- The numbers taken are held from now on. -/
theorem taken {s₁ : TcpServer} {i j : Nat} (h : SlotInv tidy s [] []) (htaken : Taken s s₁ i j) :
    PoolInv tidy s₁.tcpIdList (i :: (s.opened ++ []).map Prod.fst) s.maxConnections ∧
      PoolInv tidy s₁.timerIdList (j :: (s.opened ++ []).map Prod.snd) s.maxConnections :=
  ⟨h.tcp.get_some (h.room htaken.notFull).1 htaken.tcp,
    h.timer.get_some (h.room htaken.notFull).2 htaken.timer⟩

/-- The numbers that `id_list_get` has given out are held by no connection. -/
theorem fresh {s₁ : TcpServer} {i j : Nat} (h : SlotInv tidy s [] []) (htaken : Taken s s₁ i j) :
    (∀ l, (i, l) ∉ s.opened) ∧ ∀ k, (k, j) ∉ s.opened := by
  obtain ⟨htcp, htimer⟩ := h.taken htaken
  have htcp := htcp.nodup
  have htimer := htimer.nodup
  rw [List.append_nil, List.nodup_cons] at htcp htimer
  exact ⟨fun l hl => htcp.1 (List.mem_map_of_mem hl),
    fun k hk => htimer.1 (List.mem_map_of_mem hk)⟩

/-- A connection has been created; `half` says whether something is missing. -/
theorem created {now i j fd total current : Nat} {s₁ s₂ : TcpServer} {timer : EventTimerContext}
    {running : Bool} {half' : List (Nat × Nat)} (h : SlotInv tidy s [] []) (htaken : Taken s s₁ i j)
    (hcreated : ConnCreated now s₁ s₂ i j fd)
    (hwhole : half' = [] → timer.tcpEvent = some i ∧ current = s.currentConnections + 1)
    (hhalf : half' ≠ [] → (i, j) ∈ half') (hrun : running = true → half' = []) :
    SlotInv tidy { s₂.setTimer j timer with
      currentConnections := current, totalConnections := total, running := running } [] half' := by
  obtain ⟨htcp, htimer⟩ := h.taken htaken
  obtain ⟨hi, hj⟩ := h.fresh htaken
  have hopened : s₂.opened = (i, j) :: s.opened := by rw [hcreated.rest, htaken.rest]
  have hmax : s₂.maxConnections = s.maxConnections := by rw [hcreated.rest, htaken.rest]
  have htcpIds : s₂.tcpIdList = s₁.tcpIdList := by rw [hcreated.rest]
  have htimerIds : s₂.timerIdList = s₁.timerIdList := by rw [hcreated.rest]
  have htcps : s₁.eventTcpArray = s.eventTcpArray := by rw [htaken.rest]
  have htimers : s₂.eventTimerArray = s.eventTimerArray := by rw [hcreated.rest, htaken.rest]
  have hconns : s₁.connArray = s.connArray := by rw [htaken.rest]
  refine ⟨?_, ?_, ?_, ?_, ?_, ?_, fun hr => ⟨rfl, hrun hr⟩⟩
  · simp only [TcpServer.setTimer, hopened, hmax, htcpIds]
    exact htcp
  · simp only [TcpServer.setTimer, hopened, hmax, htimerIds]
    exact htimer
  · simp only [TcpServer.setTimer, hopened, List.mem_cons, Prod.mk.injEq]
    rintro k l (⟨rfl, rfl⟩ | hkl)
    · rw [hcreated.timeEvent, if_pos rfl]
    · rw [hcreated.timeEvent, if_neg (fun he : k = i => hi l (he ▸ hkl)), htcps]
      exact h.timeEvent k l hkl
  · simp only [TcpServer.setTimer, hopened, List.mem_cons, Prod.mk.injEq]
    rintro k l (⟨rfl, rfl⟩ | hkl)
    · exact hcreated.handler
    · rw [hcreated.others k (fun he : k = i => hi l (he ▸ hkl)), hconns]
      exact h.handler k l hkl
  · simp only [TcpServer.setTimer, hopened, List.mem_cons, Prod.mk.injEq]
    rintro k l (⟨rfl, rfl⟩ | hkl) hnot
    · have hempty : half' = [] := by
        by_contra hne
        exact hnot (hhalf hne)
      rw [if_pos rfl]
      exact (hwhole hempty).1
    · rw [if_neg (fun he : l = j => hj k (he ▸ hkl)), htimers]
      exact h.tcpEvent k l hkl (List.not_mem_nil)
  · intro hempty
    simp only [TcpServer.setTimer, hopened, List.length_cons]
    rw [(hwhole hempty).2, h.counted rfl]

/-- A turn that opens a connection. -/
theorem openTurn {now : Nat} (h : SlotInv tidy s [] []) (hturn : OpenTurn now s t) :
    SlotInv tidy t [] [] := by
  obtain ⟨i, j, fd, timeFd, s₁, s₂, htaken, hcreated, rfl⟩ := hturn
  have hlen := h.tcp.length_le
  have hmax := h.tcp.max
  rw [List.append_nil, List.length_map, ← h.counted rfl] at hlen
  have hcurrent : s₂.currentConnections = s.currentConnections := by
    rw [hcreated.rest, htaken.rest]
  refine h.created htaken hcreated (fun _ => ⟨rfl, ?_⟩) (fun hne => absurd rfl hne) fun _ => rfl
  rw [hcurrent, inc64_eq (by omega)]

end SlotInv

/-! ## The end of the accept loop -/

/-- The arena holds `n` more connections. -/
def arenaServes : Nat → MemoryArena → Bool
  | 0, _ => true
  | n + 1, a =>
    let r := connectionCreate .blank 0 a 0 0
    decide (¬ r.2.2 < 0) && arenaServes n r.1

/-- What becomes of the arena depends on the arena alone. -/
theorem connectionCreate_arena {conn conn' : Connection} {fd : Int} {a a' : MemoryArena}
    {connId now : Nat} {ret : Int}
    (hcreate : connectionCreate conn fd a connId now = (a', conn', ret)) :
    (connectionCreate .blank 0 a 0 0).1 = a' ∧ (connectionCreate .blank 0 a 0 0).2.2 = ret := by
  unfold connectionCreate at hcreate ⊢
  split at hcreate
  · cases hcreate
    exact ⟨rfl, rfl⟩
  · simp only at hcreate ⊢
    split at hcreate <;> cases hcreate <;> exact ⟨rfl, rfl⟩

theorem OpenTurn.arenaServes {now n : Nat} {s t : TcpServer} (h : OpenTurn now s t)
    (hserves : arenaServes (n + 1) s.memArena = true) : arenaServes n t.memArena = true := by
  obtain ⟨i, j, fd, timeFd, s₁, s₂, htaken, hcreated, rfl⟩ := h
  obtain ⟨ret, hcreate, -⟩ := hcreated.create
  have harena : s₁.memArena = s.memArena := by rw [htaken.rest]
  rw [harena] at hcreate
  rw [PingServer.arenaServes, Bool.and_eq_true, (connectionCreate_arena hcreate).1] at hserves
  exact hserves.2

/-- Every registration of the call succeeds. -/
def Registered (outs : List AcceptOutcome) : Prop :=
  ∀ o ∈ outs, o.tcpAdded = true ∧ o.timerAdded = true

/-- The arena holds all connections up to the limit. -/
def Ample (s : TcpServer) : Prop :=
  arenaServes (s.maxConnections - s.currentConnections) s.memArena = true

theorem OpenTurn.ample {now : Nat} {s t : TcpServer} (hturn : OpenTurn now s t)
    (h : SlotInv tidy s [] []) (hample : Ample s) : Ample t := by
  have hlen := (h.openTurn hturn).tcp.length_le
  have hmax := h.tcp.max
  rw [List.append_nil, List.length_map, ← (h.openTurn hturn).counted rfl, hturn.max] at hlen
  have hless := h.tcp.length_le
  rw [List.append_nil, List.length_map, ← h.counted rfl] at hless
  rw [hturn.current, inc64_eq (by omega)] at hlen
  unfold Ample at hample ⊢
  rw [hturn.max, hturn.current, inc64_eq (by omega)]
  apply hturn.arenaServes
  have heq : s.maxConnections - (s.currentConnections + 1) + 1 =
      s.maxConnections - s.currentConnections := by omega
  rw [heq]
  exact hample

namespace SlotInv

variable {s t : TcpServer} {lost half : List (Nat × Nat)}

/-- The last turn loses the numbers it has taken only without memory, and leaves
a connection half open only if it cannot be registered. -/
theorem lastTurn {now : Nat} {outs : List AcceptOutcome} (h : SlotInv tidy s [] [])
    (hbelow : tidy → s.currentConnections ≠ s.maxConnections) (hturn : LastTurn now outs s t) :
    ∃ lost half, SlotInv tidy t lost half ∧ (Registered outs → Ample s → lost = [] ∧ half = []) := by
  cases hturn with
  | limit newIdx newIdx2 _ hfull hclean =>
    obtain ⟨hgive, hgive2, heq⟩ := cleanIdx_ok hclean
    have hwild : ¬ tidy := fun ht => hbelow ht hfull
    have hlen : s.opened.length = s.maxConnections := (h.counted rfl).symm.trans hfull
    rw [heq]
    refine ⟨[], [], ?_, fun _ _ => ⟨rfl, rfl⟩⟩
    exact h.congr (h.tcp.giveBack_full hwild (by simp [hlen]) hgive)
      (h.timer.giveBack_full hwild (by simp [hlen]) hgive2) rfl rfl rfl rfl (fun _ _ _ => rfl) rfl id
  | exhausted newIdx newIdx2 s₁ t hnot htcp htimer hrest hnone hclean =>
    -- below the limit both pools have a number
    obtain ⟨p, i, hget, -⟩ := h.tcp.get (h.room hnot).1
    obtain ⟨p', j, hget', -⟩ := h.timer.get (h.room hnot).2
    rw [htcp] at hget
    rw [htimer] at hget'
    rcases hnone with hidx | hidx
    · rw [hidx] at hget
      cases hget
    · rw [hidx] at hget'
      cases hget'
  | returned i j s₁ t fd htaken hclean =>
    obtain ⟨hgive, hgive2, heq⟩ := cleanIdx_ok hclean
    obtain ⟨htcp, htimer⟩ := h.taken htaken
    rw [closeAccepted_eq] at hgive hgive2
    rw [heq, closeAccepted_eq, htaken.rest]
    refine ⟨[], [], ?_, fun _ _ => ⟨rfl, rfl⟩⟩
    exact h.congr (htcp.add_some hgive) (htimer.add_some hgive2) rfl rfl
      rfl rfl (fun _ _ _ => rfl) rfl id
  | noMemory i j fd s₁ a conn ret htaken hcreate hret =>
    refine ⟨[(i, j)], [], ?_, fun _ hample => absurd hret ?_⟩
    · obtain ⟨htcp, htimer⟩ := h.taken htaken
      rw [List.append_nil] at htcp htimer
      have hhalted : (tcpserverListenOnError { s₁ with memArena := a }).running ≠ true :=
        Bool.false_ne_true
      rw [htaken.rest] at hhalted ⊢
      refine ⟨?_, ?_, h.timeEvent, h.handler, h.tcpEvent, h.counted, fun hr => absurd hr hhalted⟩
      · rw [List.map_append]
        exact htcp.perm (List.perm_append_singleton i _).symm
      · rw [List.map_append]
        exact htimer.perm (List.perm_append_singleton j _).symm
    · have harena : s₁.memArena = s.memArena := by rw [htaken.rest]
      have hless := (h.room htaken.notFull).1
      rw [List.append_nil, List.length_map, ← h.counted rfl] at hless
      rw [harena] at hcreate
      obtain ⟨n, hn⟩ : ∃ n, s.maxConnections - s.currentConnections = n + 1 :=
        ⟨s.maxConnections - s.currentConnections - 1, by omega⟩
      rw [Ample, hn, arenaServes, Bool.and_eq_true, (connectionCreate_arena hcreate).2] at hample
      exact of_decide_eq_true hample.1
  | halfOpen i j fd timer s₁ s₂ htaken hcreated htimer hfailed =>
    refine ⟨[], [(i, j)], ?_, fun hreg => ?_⟩
    · have hnew : SlotInv tidy { s₂.setTimer j timer with
          currentConnections := s₂.currentConnections
          totalConnections := s₂.totalConnections
          running := false } [] [(i, j)] := h.created htaken hcreated (by simp) (by simp) (by simp)
      exact hnew
    · obtain ⟨o, ho, hfail⟩ := hfailed
      obtain ⟨htcp, htime⟩ := hreg o ho
      rw [htcp, htime] at hfail
      simp at hfail

end SlotInv

/-- The call starts at the limit, or does not reach it. -/
def BelowLimit (s : TcpServer) (outs : List AcceptOutcome) : Prop :=
  s.currentConnections = s.maxConnections ∨ RoomFor s outs

/-- What holds at the start of a call and is kept by every opening turn holds before
the last turn, if there is one. -/
theorem listenLoop_last {P : TcpServer → Prop} {now : Nat} {outs : List AcceptOutcome}
    {s t : TcpServer} (hloop : listenLoop now outs s none none = .ok t) (hstart : P s)
    (hopen : ∀ {a b}, P a → OpenTurn now a b → P b) :
    t = s ∨ ∃ u, P u ∧ LastTurn now outs u t ∧ (s.maxConnections < 2 ^ 32 → BelowLimit s outs →
      u.currentConnections ≠ u.maxConnections) := by
  by_cases hfull : s.currentConnections = s.maxConnections
  · left
    cases outs <;> rw [listenLoop, if_pos hfull] at hloop <;> cases hloop <;> rfl
  · right
    obtain ⟨u, hturns, hlast, hroom⟩ := listenLoop_turns outs hloop
    refine ⟨u, ?_, hlast, fun hmax hbelow => hroom hmax (hbelow.resolve_left hfull)⟩
    clear hlast hroom
    induction hturns with
    | refl => exact hstart
    | tail _ hturn ih => exact hopen ih hturn

namespace Settled

variable {s t : TcpServer} {x : EventContext}

/-- Changing only what a settled context does not read. -/
theorem congr (h : Settled s x) (hopened : t.opened = s.opened) (hdead : t.dead = s.dead)
    (htcps : t.eventTcpArray = s.eventTcpArray) (htimers : t.eventTimerArray = s.eventTimerArray)
    (hconn : ∀ i, (t.connArray i).protocolHandler = (s.connArray i).protocolHandler) :
    Settled t x := by
  unfold Settled at h ⊢
  rw [hdead]
  cases x with
  | listen => exact .inl trivial
  | tcp i => simpa only [Linked, Unlinked, hopened, htcps, hconn] using h
  | timer j => simpa only [Linked, Unlinked, hopened, htimers] using h

/-- A new connection takes contexts that were not in use. -/
theorem created {now i j fd total current : Nat} {s₁ s₂ : TcpServer} {timer : EventTimerContext}
    {running : Bool} (h : Settled s x) (inv : SlotInv tidy s [] [])
    (htaken : Taken s s₁ i j) (hcreated : ConnCreated now s₁ s₂ i j fd) (htimer : timer = s₂.eventTimerArray j ∨ timer.tcpEvent = some i) :
    Settled { s₂.setTimer j timer with
      currentConnections := current, totalConnections := total, running := running } x := by
  obtain ⟨hi, hj⟩ := inv.fresh htaken
  have hopened : s₂.opened = (i, j) :: s.opened := by rw [hcreated.rest, htaken.rest]
  have hdead : s₂.dead = s.dead := by rw [hcreated.rest, htaken.rest]
  have htcps : s₁.eventTcpArray = s.eventTcpArray := by rw [htaken.rest]
  have htimers : s₂.eventTimerArray = s.eventTimerArray := by rw [hcreated.rest, htaken.rest]
  have hconns : s₁.connArray = s.connArray := by rw [htaken.rest]
  unfold Settled at h ⊢
  simp only [TcpServer.setTimer, hdead]
  cases x with
  | listen => exact .inl trivial
  | tcp k =>
    simp only [Linked, Unlinked, hopened] at h ⊢
    rcases h with ⟨l, hl⟩ | ⟨hmem, htime, hhandler⟩
    · exact .inl ⟨l, List.mem_cons_of_mem _ hl⟩
    · by_cases hk : k = i
      · exact .inl ⟨j, by rw [hk]; exact List.mem_cons_self⟩
      · refine .inr ⟨hmem, ?_, ?_⟩
        · rw [hcreated.timeEvent, if_neg hk, htcps]
          exact htime
        · rw [hcreated.others k hk, hconns]
          exact hhandler
  | timer l =>
    simp only [Linked, Unlinked, hopened, htimers] at h htimer ⊢
    rcases h with ⟨k, hk, hevent⟩ | ⟨hmem, hevent⟩
    · refine .inl ⟨k, List.mem_cons_of_mem _ hk, ?_⟩
      rw [if_neg (fun he : l = j => hj k (he ▸ hk))]
      exact hevent
    · by_cases hl : l = j
      · rw [if_pos hl]
        rcases htimer with heq | heq
        · exact .inr ⟨hmem, by rw [heq, ← hl]; exact hevent⟩
        · exact .inl ⟨i, by rw [hl]; exact List.mem_cons_self, heq⟩
      · rw [if_neg hl]
        exact .inr ⟨hmem, hevent⟩

theorem openTurn {now : Nat} (h : Settled s x) (inv : SlotInv tidy s [] [])
    (hturn : OpenTurn now s t) : Settled t x := by
  obtain ⟨i, j, fd, timeFd, s₁, s₂, htaken, hcreated, rfl⟩ := hturn
  exact h.created inv htaken hcreated (.inr rfl)

theorem lastTurn {now : Nat} {outs : List AcceptOutcome} (h : Settled s x) (inv : SlotInv tidy s [] [])
    (hturn : LastTurn now outs s t) : Settled t x := by
  cases hturn with
  | limit newIdx newIdx2 _ hfull hclean =>
    rw [(cleanIdx_ok hclean).2.2]
    exact h.congr rfl rfl rfl rfl fun _ => rfl
  | exhausted newIdx newIdx2 s₁ t hnot htcp htimer hrest hnone hclean =>
    rw [(cleanIdx_ok hclean).2.2, hrest]
    exact h.congr rfl rfl rfl rfl fun _ => rfl
  | returned i j s₁ t fd htaken hclean =>
    rw [(cleanIdx_ok hclean).2.2, closeAccepted_eq, htaken.rest]
    exact h.congr rfl rfl rfl rfl fun _ => rfl
  | noMemory i j fd s₁ a conn ret htaken hcreate hret =>
    rw [htaken.rest]
    exact h.congr rfl rfl rfl rfl fun _ => rfl
  | halfOpen i j fd timer s₁ s₂ htaken hcreated htimer hfailed =>
    have hnew : Settled { s₂.setTimer j timer with
        currentConnections := s₂.currentConnections
        totalConnections := s₂.totalConnections
        running := false } x := h.created inv htaken hcreated htimer
    exact hnew

end Settled

/-- A run of the accept loop keeps the accounting and the settled contexts. -/
theorem listenLoop_slots {now : Nat} {outs : List AcceptOutcome} {s t : TcpServer}
    (h : SlotInv tidy s [] []) (hbelow : tidy → BelowLimit s outs)
    (hloop : listenLoop now outs s none none = .ok t) :
    (∃ lost half, SlotInv tidy t lost half ∧ (Registered outs → Ample s → lost = [] ∧ half = [])) ∧
      ∀ x, Settled s x → Settled t x := by
  let P : TcpServer → Prop := fun u =>
    SlotInv tidy u [] [] ∧ (Ample s → Ample u) ∧ ∀ x, Settled s x → Settled u x
  have hopen : ∀ {a b}, P a → OpenTurn now a b → P b := by
    rintro a b ⟨hinv, hample, hsettled⟩ hturn
    exact ⟨hinv.openTurn hturn, fun hs => hturn.ample hinv (hample hs),
      fun x hx => (hsettled x hx).openTurn hinv hturn⟩
  rcases listenLoop_last hloop (P := P) ⟨h, id, fun _ => id⟩ hopen with
    rfl | ⟨u, ⟨hinv, hample, hsettled⟩, hlast, hless⟩
  · exact ⟨⟨[], [], h, fun _ _ => ⟨rfl, rfl⟩⟩, fun _ => id⟩
  · obtain ⟨lost, half, hinv', hkept⟩ := hinv.lastTurn (fun ht => hless h.tcp.max (hbelow ht)) hlast
    exact ⟨⟨lost, half, hinv', fun hreg hs => hkept hreg (hample hs)⟩,
      fun x hx => (hsettled x hx).lastTurn hinv hlast⟩

/-! ## Working on a connection and deleting it -/

theorem connectionClearProtocol_handler {h cleared : Handling}
    (hclear : connectionClearProtocol h = .ok cleared) :
    cleared.conn.protocolHandler = false ∧ cleared.conn.protocolCtx = none := by
  unfold connectionClearProtocol at hclear
  split at hclear
  · split at hclear <;> cases hclear
    exact ⟨rfl, rfl⟩
  · cases hclear

theorem absorb_handler {s : TcpServer} {i : Nat} {h : Handling}
    (hsame : h.conn.protocolHandler = (s.connArray i).protocolHandler) (k : Nat) :
    ((s.absorb i h).connArray k).protocolHandler = (s.connArray k).protocolHandler := by
  simp only [TcpServer.absorb]
  split
  · rename_i hk
    rw [hsame, hk]
  · rfl

namespace SlotInv

variable {s t : TcpServer} {lost half : List (Nat × Nat)}

theorem absorb {i : Nat} {h : Handling} (inv : SlotInv tidy s lost half)
    (hsame : h.conn.protocolHandler = (s.connArray i).protocolHandler) :
    SlotInv tidy (s.absorb i h) lost half :=
  inv.congr inv.tcp inv.timer rfl rfl rfl rfl (fun k _ _ => absorb_handler hsame k) rfl id

/-- A call reaches a pair only through its contexts. -/
theorem names_opened {c : HandlerCall} {i j : Nat} (h : SlotInv tidy s lost half)
    (hsettled : Settled s c.context) (hnames : Names s c i j) : (i, j) ∈ s.opened := by
  rcases hnames with ⟨hctx, hj⟩ | ⟨hctx, hi⟩ <;> rw [hctx] at hsettled
  · rcases hsettled with ⟨l, hl⟩ | ⟨-, hnone, -⟩
    · rw [h.timeEvent i l hl] at hj
      cases hj
      exact hl
    · rw [hnone] at hj
      cases hj
  · rcases hsettled with ⟨k, hk, hevent⟩ | ⟨-, hnone⟩
    · rw [hevent] at hi
      cases hi
      exact hk
    · rw [Unlinked] at hnone
      rw [hnone] at hi
      cases hi

theorem perm_filter (h : SlotInv tidy s lost half) {p : Nat × Nat} (hp : p ∈ s.opened) :
    (s.opened ++ lost).Perm (p :: (s.opened.filter (· ≠ p) ++ lost)) := by
  have heq : s.opened.erase p = s.opened.filter (· ≠ p) := by
    rw [h.nodup.erase_eq_filter]
    refine List.filter_congr fun q _ => ?_
    rw [Bool.eq_iff_iff, bne_iff_ne, decide_eq_true_eq]
  have hperm := List.perm_cons_erase hp
  rw [heq] at hperm
  exact hperm.append_right lost

/-- Deleting a connection gives its two numbers back. -/
theorem deleted {i j : Nat} {cleared : Handling} (h : SlotInv tidy s lost half)
    (hij : (i, j) ∈ s.opened) (hdel : Deleted s t i j cleared) : SlotInv tidy t lost half := by
  have hperm := h.perm_filter hij
  have hmem : ∀ k l, (k, l) ∈ t.opened → (k, l) ∈ s.opened ∧ k ≠ i ∧ l ≠ j := by
    intro k l hkl
    rw [hdel.opened, List.mem_filter, decide_eq_true_eq] at hkl
    refine ⟨hkl.1, ?_, ?_⟩
    · rintro rfl
      exact hkl.2 (by rw [h.partner hkl.1 hij])
    · rintro rfl
      exact hkl.2 (by rw [h.owner hkl.1 hij])
  refine ⟨?_, ?_, ?_, ?_, ?_, ?_, ?_⟩
  · rw [hdel.opened, hdel.max]
    exact (h.tcp.perm (hperm.map Prod.fst)).add_some hdel.tcpIds
  · rw [hdel.opened, hdel.max]
    exact (h.timer.perm (hperm.map Prod.snd)).add_some hdel.timerIds
  · intro k l hkl
    obtain ⟨hold, hki, -⟩ := hmem k l hkl
    rw [hdel.timeEvent, if_neg hki]
    exact h.timeEvent k l hold
  · intro k l hkl
    obtain ⟨hold, hki, -⟩ := hmem k l hkl
    rw [hdel.others k hki]
    exact h.handler k l hold
  · intro k l hkl hhalf
    obtain ⟨hold, -, hlj⟩ := hmem k l hkl
    rw [hdel.tcpEvent, if_neg hlj]
    exact h.tcpEvent k l hold hhalf
  · intro hhalf
    have hlen := hperm.length_eq
    have hle := h.tcp.length_le
    have hmax := h.tcp.max
    rw [List.length_cons, List.length_append, List.length_append] at hlen
    rw [List.length_map, List.length_append] at hle
    rw [hdel.current, hdel.opened, h.counted hhalf]
    have heq : s.opened.length = (s.opened.filter (· ≠ (i, j))).length + 1 := by omega
    rw [heq, dec64_eq (by omega)]
  · intro hrun
    rw [hdel.running] at hrun
    exact h.halted hrun

end SlotInv

namespace Settled

variable {s t : TcpServer} {x : EventContext}

theorem deleted {i j : Nat} {cleared : Handling} (h : Settled s x)
    (hcleared : cleared.conn.protocolHandler = false)
    (hdel : Deleted s t i j cleared) : Settled t x := by
  have hstay : ∀ {k l}, (k, l) ∈ s.opened → (k, l) ≠ (i, j) → (k, l) ∈ t.opened := by
    intro k l hkl hne
    rw [hdel.opened]
    exact List.mem_filter.2 ⟨hkl, decide_eq_true hne⟩
  unfold Settled at h ⊢
  rw [hdel.dead]
  cases x with
  | listen => exact .inl trivial
  | tcp k =>
    by_cases hk : k = i
    · refine .inr ⟨by simp [hk], ?_, ?_⟩
      · rw [hdel.timeEvent, if_pos hk]
      · rw [hk, hdel.conn]
        exact hcleared
    · rcases h with ⟨l, hl⟩ | ⟨hmem, htime, hhandler⟩
      · exact .inl ⟨l, hstay hl fun he => hk (congrArg Prod.fst he)⟩
      · refine .inr ⟨by simp [hmem], ?_, ?_⟩
        · rw [hdel.timeEvent, if_neg hk]
          exact htime
        · rw [hdel.others k hk]
          exact hhandler
  | timer l =>
    by_cases hl : l = j
    · refine .inr ⟨by simp [hl], ?_⟩
      rw [Unlinked, hdel.tcpEvent, if_pos hl]
    · rcases h with ⟨k, hk, hevent⟩ | ⟨hmem, hevent⟩
      · refine .inl ⟨k, hstay hk fun he => hl (congrArg Prod.snd he), ?_⟩
        rw [hdel.tcpEvent, if_neg hl]
        exact hevent
      · refine .inr ⟨by simp [hmem], ?_⟩
        rw [Unlinked, hdel.tcpEvent, if_neg hl]
        exact hevent

end Settled

/-! ## Every handler call -/

/-- The call runs the accept loop. -/
def Accepts (s : TcpServer) (c : HandlerCall) : Prop :=
  c.context = .listen ∧ c.kind = .onRead ∧ s.running = true

theorem Refused.handler {parse : Parser} {s : TcpServer} {c : HandlerCall} {i : Nat} {h : Handling}
    (hrefused : Refused parse s c i h) :
    h.conn.protocolHandler = (s.connArray i).protocolHandler := by
  obtain ⟨-, -, -, h₁, hgains, hrec⟩ := hrefused
  exact hrec.handler.trans hgains.handler

theorem dispatch_slots {parse : Parser} {s t : TcpServer} {c : HandlerCall}
    {lost half : List (Nat × Nat)} (inv : SlotInv tidy s lost half) (hsettled : Settled s c.context)
    (hbelow : tidy → Accepts s c → BelowLimit s c.accepts) (hdisp : dispatch parse s c = .ok t) :
    (∃ lost' half', SlotInv tidy t lost' half' ∧
        ((Accepts s c → Registered c.accepts ∧ Ample s) → lost' = lost ∧ half' = half)) ∧
      ∀ x, Settled s x → Settled t x := by
  cases dispatch_cases hdisp with
  | idle => exact ⟨⟨lost, half, inv, fun _ => ⟨rfl, rfl⟩⟩, fun _ => id⟩
  | stopped =>
    refine ⟨⟨lost, half, ?_, fun _ => ⟨rfl, rfl⟩⟩, fun x hx => hx.congr rfl rfl rfl rfl fun _ => rfl⟩
    exact inv.congr inv.tcp inv.timer rfl rfl rfl rfl (fun _ _ _ => rfl) rfl fun hr => nomatch hr
  | listened t hctx hkind hrun hloop =>
    obtain ⟨rfl, rfl⟩ := inv.halted hrun
    have haccepts : Accepts s c := ⟨hctx, hkind, hrun⟩
    obtain ⟨⟨lost', half', hinv, hkept⟩, hstays⟩ := listenLoop_slots inv (fun ht => hbelow ht haccepts) hloop
    refine ⟨⟨lost', half', hinv, fun hprovided => ?_⟩, hstays⟩
    exact hkept (hprovided haccepts).1 (hprovided haccepts).2
  | worked i h hctx hhandler hgains =>
    have hsame : h.conn.protocolHandler = (s.connArray i).protocolHandler := hgains.handler
    refine ⟨⟨lost, half, inv.absorb hsame, fun _ => ⟨rfl, rfl⟩⟩, fun x hx => ?_⟩
    exact hx.congr rfl rfl rfl rfl (absorb_handler hsame)
  | closed i j h cleared t hnames hcloses hwork hclear hdel =>
    have hij := inv.names_opened hsettled hnames
    have hsame : h.conn.protocolHandler = (s.connArray i).protocolHandler :=
      hwork.elim Gains.handler Refused.handler
    have inv' := inv.absorb hsame
    refine ⟨⟨lost, half, inv'.deleted hij hdel, fun _ => ⟨rfl, rfl⟩⟩, fun x hx => ?_⟩
    have hx' : Settled (s.absorb i h) x := hx.congr rfl rfl rfl rfl (absorb_handler hsame)
    exact hx'.deleted (connectionClearProtocol_handler hclear).1 hdel

end PingServer
