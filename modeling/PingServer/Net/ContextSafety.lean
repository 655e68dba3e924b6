import PingServer.Net.Contexts
import PingServer.Net.Accounting

/-!
# Every context is recycled once

In a run in which no request is refused, the contexts that were allocated and
not recycled are those of the open connections, each is used only while it is
one of these, and the arena counts exactly them. A refused request breaks this:
`tcpserver_tcp_on_read` closes the protocol itself before the error handler
closes it again, and both recycle the context.
-/

namespace PingServer

open Allocation ByteMem

/-! ## Opening connections -/

theorem closeAccepted_trace (s : TcpServer) (fd : Option Nat) :
    ∃ new, (closeAccepted s fd).trace = s.trace ++ new ∧ ∀ a ∈ new, Neutral none a := by
  unfold closeAccepted
  split
  · split
    · exact ⟨[_], rfl, fun a ha => by rw [List.mem_singleton.1 ha]; trivial⟩
    · exact ⟨[], (List.append_nil _).symm, by simp⟩
  · exact ⟨[], (List.append_nil _).symm, by simp⟩

namespace CtxInv

variable {s t : TcpServer} {lost half : List (Nat × Nat)}

/-- The accept loop takes no part in what open connections hold. -/
theorem congr (h : CtxInv s) (harena : ArenaInv t.memArena (allocations s.connArray s.opened))
    (hconns : t.connArray = s.connArray) (hopened : t.opened = s.opened)
    (htrace : ∃ new, t.trace = s.trace ++ new ∧ ∀ a ∈ new, Neutral none a) : CtxInv t := by
  obtain ⟨new, htrace, hnew⟩ := htrace
  refine ⟨?_, ?_, ?_⟩
  · rw [hconns, hopened]
    exact harena
  · rw [hconns, hopened]
    exact h.addr
  · rw [hconns, hopened, htrace]
    exact @LedgerOf.neutral _ _ _ none h.ledger hnew

/-- A new connection holds its two buffers. -/
theorem created {now i j fd total current : Nat} {s₁ s₂ : TcpServer} {timer : EventTimerContext}
    {running : Bool} (h : CtxInv s) (inv : SlotInv tidy s [] []) (htaken : Taken s s₁ i j)
    (hcreated : ConnCreated now s₁ s₂ i j fd) :
    CtxInv { s₂.setTimer j timer with
      currentConnections := current, totalConnections := total, running := running } := by
  obtain ⟨ret, hcreate, hret⟩ := hcreated.create
  have harena : s₁.memArena = s.memArena := by rw [htaken.rest]
  have hopened : s₂.opened = (i, j) :: s.opened := by rw [hcreated.rest, htaken.rest]
  have htrace : s₂.trace = s.trace := by rw [hcreated.rest, htaken.rest]
  have hconns : s₁.connArray = s.connArray := by rw [htaken.rest]
  have hfresh := (inv.fresh htaken).1
  have hsame : ∀ c ∈ s.opened, s₂.connArray c.1 = s.connArray c.1 := by
    rintro ⟨k, l⟩ hkl
    rw [hcreated.others k (fun he : k = i => hfresh l (he ▸ hkl)), hconns]
  obtain ⟨hallocs, hctxs⟩ := allocations_congr hsame
  rw [harena] at hcreate
  rcases connectionCreate_spec h.arena hcreate with ⟨hfull, -⟩ | ⟨-, -, r, w, hc⟩
  · exact absurd (by rw [hfull]; decide) hret
  · refine ⟨?_, ?_, ?_⟩
    · simp only [TcpServer.setTimer, hopened]
      rw [allocations, List.flatMap_cons, ← allocations, hallocs, holdings, hc.ctx, bufferRun,
        bufferRun, hc.runOf_read, hc.runOf_send]
      exact hc.inv
    · simp only [TcpServer.setTimer, hopened, List.mem_cons, Prod.mk.injEq]
      rintro k l (⟨rfl, rfl⟩ | hkl)
      · rw [bufferRun, bufferRun, hc.runOf_read, hc.runOf_send]
        exact ⟨hc.readAddr, hc.sendAddr⟩
      · rw [hsame (k, l) hkl]
        exact h.addr k l hkl
    · simp only [TcpServer.setTimer, hopened, htrace]
      rw [contexts, List.flatMap_cons, ← contexts, hctxs, hc.ctx]
      exact h.ledger

theorem openTurn {now : Nat} (h : CtxInv s) (inv : SlotInv tidy s [] [])
    (hturn : OpenTurn now s t) : CtxInv t := by
  obtain ⟨i, j, fd, timeFd, s₁, s₂, htaken, hcreated, rfl⟩ := hturn
  exact h.created inv htaken hcreated

theorem lastTurn {now : Nat} {outs : List AcceptOutcome} (h : CtxInv s)
    (inv : SlotInv tidy s [] []) (hturn : LastTurn now outs s t) : CtxInv t := by
  cases hturn with
  | limit newIdx newIdx2 _ hfull hclean =>
    rw [(cleanIdx_ok hclean).2.2]
    exact h.congr h.arena rfl rfl ⟨[], (List.append_nil _).symm, by simp⟩
  | exhausted newIdx newIdx2 s₁ t hnot htcp htimer hrest hnone hclean =>
    rw [(cleanIdx_ok hclean).2.2, hrest]
    exact h.congr h.arena rfl rfl ⟨[], (List.append_nil _).symm, by simp⟩
  | returned i j s₁ t fd htaken hclean =>
    have htrace := closeAccepted_trace s₁ fd
    rw [(cleanIdx_ok hclean).2.2, closeAccepted_eq]
    rw [htaken.rest] at htrace ⊢
    exact h.congr h.arena rfl rfl htrace
  | noMemory i j fd s₁ a conn ret htaken hcreate hret =>
    have harena : s₁.memArena = s.memArena := by rw [htaken.rest]
    rw [harena] at hcreate
    rcases connectionCreate_spec h.arena hcreate with ⟨-, -, hinv⟩ | ⟨hzero, -⟩
    · rw [htaken.rest]
      exact h.congr hinv rfl rfl ⟨[], (List.append_nil _).symm, by simp⟩
    · rw [hzero] at hret
      exact absurd hret (by decide)
  | halfOpen i j fd timer s₁ s₂ htaken hcreated htimer hfailed =>
    have hnew : CtxInv { s₂.setTimer j timer with
        currentConnections := s₂.currentConnections
        totalConnections := s₂.totalConnections
        running := false } := h.created inv htaken hcreated
    exact hnew

theorem listenLoop {now : Nat} {outs : List AcceptOutcome} (h : CtxInv s) (inv : SlotInv tidy s [] [])
    (hloop : listenLoop now outs s none none = .ok t) : CtxInv t := by
  rcases listenLoop_last hloop (P := fun u => CtxInv u ∧ SlotInv tidy u [] [])
    ⟨h, inv⟩ (fun hinv hturn => ⟨hinv.1.openTurn hinv.2 hturn, hinv.2.openTurn hturn⟩) with
    rfl | ⟨u, ⟨h', inv'⟩, hlast, -⟩
  · exact h
  · exact h'.lastTurn inv' hlast

end CtxInv

/-! ## Every handler call -/

/-- The call does not refuse the request it reads. -/
def Respects (parse : Parser) (s : TcpServer) (c : HandlerCall) : Prop :=
  ∀ i, c.context = .tcp i → c.kind = .onRead → ¬ Rejects parse (s.handling i c.env)

theorem dispatch_contexts {parse : Parser} {s t : TcpServer} {c : HandlerCall}
    {lost half : List (Nat × Nat)} (h : CtxInv s) (inv : SlotInv tidy s lost half)
    (hsettled : Settled s c.context) (hrespects : Respects parse s c)
    (hdisp : dispatch parse s c = .ok t) : CtxInv t := by
  cases dispatch_cases hdisp with
  | idle => exact h
  | stopped => exact h.congr h.arena rfl rfl ⟨[], (List.append_nil _).symm, by simp⟩
  | listened t hctx hkind hrun hloop =>
    obtain ⟨rfl, rfl⟩ := inv.halted hrun
    exact h.listenLoop inv hloop
  | worked i h' hctx hhandler hgains =>
    rw [hctx] at hsettled
    rcases hsettled with ⟨j, hij⟩ | ⟨-, -, hnone⟩
    · exact h.absorb inv hij ((h.holds inv hij c.env).gains hgains)
    · rw [hnone] at hhandler
      cases hhandler
  | closed i j h' cleared t hnames hcloses hwork hclear hdel =>
    have hij := inv.names_opened hsettled hnames
    have hgains : Gains (s.handling i c.env) h' := by
      rcases hwork with hgains | ⟨hctx, hkind, hrejects, -⟩
      · exact hgains
      · exact absurd hrejects (hrespects i hctx hkind)
    have hh := (h.holds inv hij c.env).gains hgains
    have h₁ := h.absorb inv hij hh
    have inv₁ := inv.absorb (i := i) hgains.handler
    refine h₁.deleted inv₁ hij (connectionClearProtocol_handler hclear).2 ?_ hdel
    -- the others are the same before and after the work on this one
    have hsame : ∀ c ∈ CtxInv.others s i j, (s.absorb i h').connArray c.1 = s.connArray c.1 := by
      intro c hc
      simp only [TcpServer.absorb, if_neg (CtxInv.others_ne inv hij c hc)]
    obtain ⟨hallocs, hctxs⟩ := allocations_congr hsame
    have hcleared := hh.clear hclear
    rw [← hallocs, ← hctxs] at hcleared
    exact hcleared

/-! ## Every run -/

/-- The contexts of the open connections. -/
def openContexts (s : TcpServer) : List Nat := contexts s.connArray s.opened

/-- A context is recycled once, when its connection is closed, and not used after
that. A block with a `ref_len` is one of small objects: its `ref_count` is the
number of contexts placed in it. -/
structure ContextsAccounted (s : TcpServer) : Prop where
  ledger : Ledger.Balanced (ctxEntries s.trace) (openContexts s)
  counts : ∀ b, s.memArena.refLen b ≠ 0 →
    (s.memArena.refCount b).toNat = (openContexts s).countP (· / pingArenaBlockSize = b)
  placed : ∀ p ∈ openContexts s, s.memArena.refLen (p / pingArenaBlockSize) ≠ 0

theorem sharers_holdings (conn : Connection) (b : Nat) : sharers (holdings conn) b =
    conn.protocolCtx.toList.countP (· / pingArenaBlockSize = b) := by
  rw [holdings, sharers_cons, sharers_cons]
  cases conn.protocolCtx with
  | none => rfl
  | some p =>
    simp only [bufferRun, shares, Option.toList_some, List.map_cons, List.map_nil, sharers_cons,
      ctxAllocation, List.countP_cons, List.countP_nil]
    simp [sharers]

/-- The small objects of a block are the contexts in it. -/
theorem sharers_allocations (conns : Nat → Connection) (cs : List (Nat × Nat)) (b : Nat) :
    sharers (allocations conns cs) b =
      (contexts conns cs).countP (· / pingArenaBlockSize = b) := by
  induction cs with
  | nil => rfl
  | cons c cs ih =>
    rw [allocations, contexts, List.flatMap_cons, List.flatMap_cons, ← allocations, ← contexts,
      List.countP_append, ← ih, ← sharers_holdings]
    exact List.countP_append

theorem CtxInv.accounted {s : TcpServer} (h : CtxInv s) : ContextsAccounted s := by
  refine ⟨?_, fun b hlen => ?_, fun p hp hlen => ?_⟩
  · obtain ⟨left, hreplay, hperm⟩ := h.ledger
    obtain ⟨total, alloc, use, free⟩ := Ledger.balanced_of_replay hreplay
    exact ⟨fun a => by rw [total a, hperm.count_eq]; rfl, alloc, use, free⟩
  · have hshared : 0 < sharers (allocations s.connArray s.opened) b := by
      by_contra hzero
      exact hlen (h.arena.lenZero b (by omega))
    rw [h.arena.smallCount b (h.arena.not_covered_of_sharers hshared), sharers_allocations]
    rfl
  · have hbelow := h.arena.below p sizeofHttpContext (contexts_placed p hp)
    rw [hlen] at hbelow
    have hzero : (0 : BitVec 16).toNat = 0 := rfl
    simp only [hzero, sizeofHttpContext] at hbelow
    omega

/-- No request is refused. -/
def Undisturbed (parse : Parser) (l : EventLoop) (e : LoopEvent) : Prop :=
  ∀ c, e = .call c → Respects parse l.server c

theorem Started.ctxInv {s : TcpServer} (h : Started s) : CtxInv s := by
  obtain ⟨size, mem, fits, harena⟩ := h.arena
  refine ⟨?_, ?_, ?_⟩
  · rw [harena, h.opened]
    exact arenaCreate_inv size mem fits
  · rw [h.opened]
    simp
  · rw [h.opened, h.trace]
    exact ⟨[], rfl, .refl _⟩

theorem loopStep_contexts {parse : Parser} {l l' : EventLoop} {e : LoopEvent}
    {lost half : List (Nat × Nat)} (h : CtxInv l.server) (inv : LoopInv tidy l lost half)
    (hok : Undisturbed parse l e) (hstep : loopStep parse l e = some l') : CtxInv l'.server := by
  cases e with
  | wait returned =>
    simp only [loopStep] at hstep
    split at hstep <;> cases hstep
    exact h.congr h.arena rfl rfl ⟨[], (List.append_nil _).symm, by simp⟩
  | call c =>
    simp only [loopStep] at hstep
    split at hstep
    · rename_i hmem
      split at hstep <;> cases hstep
      rename_i hdisp
      exact dispatch_contexts h inv.slots (inv.settled _ hmem) (hok c rfl) hdisp
    · cases hstep

/-- The contexts are accounted for after any handler calls, in any order. -/
theorem contexts_accounted {parse : Parser} {s : TcpServer} {l : EventLoop} (hstart : Started s)
    (hrun : Machine.Reaches (Machine.graph (loopStep parse)) (Undisturbed parse) ⟨s, []⟩ l) :
    ContextsAccounted l.server := by
  have hinv : (∃ lost half, LoopInv False l lost half) ∧ CtxInv l.server := by
    refine hrun.invariant (fun l => (∃ lost half, LoopInv False l lost half) ∧ CtxInv l.server)
      ⟨⟨[], [], hstart.slotInv, by simp⟩, hstart.ctxInv⟩ ?_
    rintro a e b ⟨⟨lost, half, inv⟩, hctx⟩ hok hstep
    obtain ⟨lost', half', inv', -⟩ := loopStep_slots inv False.elim hstep
    exact ⟨⟨lost', half', inv'⟩, loopStep_contexts hctx inv hok hstep⟩
  exact hinv.2.accounted

/-! ## Two runs -/

section

variable {parse : Parser}

instance (h : Handling) : Decidable (Rejects parse h) :=
  inferInstanceAs (Decidable (¬ (_ ∧ _) ∧ ¬ _ ∧ ¬ _ ∧ _ ≠ _))

instance (s : TcpServer) (c : HandlerCall) : Decidable (Respects parse s c) :=
  match hctx : c.context with
  | .tcp i =>
    decidable_of_iff (c.kind = .onRead → ¬ Rejects parse (s.handling i c.env))
      ⟨fun h k hk => by cases hctx.symm.trans hk; exact h, fun h => h i hctx⟩
  | .listen => .isTrue fun i hi => by cases hctx.symm.trans hi
  | .timer j => .isTrue fun i hi => by cases hctx.symm.trans hi

instance (l : EventLoop) : (e : LoopEvent) → Decidable (Undisturbed parse l e)
  | .wait _ => .isTrue fun _ he => by cases he
  | .call c =>
    decidable_of_iff (Respects parse l.server c)
      ⟨fun h _ he => by cases he; exact h, fun h => h c rfl⟩

end

def hostGet : List Byte := utf8 "GET / HTTP/1.1\r\nHost: a\r\n\r\n"

def hostlessGet : List Byte := utf8 "GET / HTTP/1.1\r\n\r\n"

/-- A parser of these two requests. -/
def twoRequests : Parser := fun buf _ =>
  if buf = hostGet then ⟨27, utf8 "GET", utf8 "/", 1, [⟨utf8 "Host", utf8 "a"⟩]⟩
  else if buf = hostlessGet then ⟨18, utf8 "GET", utf8 "/", 1, []⟩
  else ⟨-2, [], [], 0, []⟩

/-- One client sends `bytes`, and its connection is called by the handlers of `kinds`. -/
def clientRun (bytes : List Byte) (kinds : List HandlerKind) : List LoopEvent :=
  [.wait [.listen], acceptCall [oneClient], .wait [.tcp 0]] ++
    kinds.map fun kind => .call ⟨.tcp 0, kind, { Env.opens with recvs := [.chunk bytes] }, []⟩

theorem contexts_accounted_hostGet : ∃ l,
    Machine.run (loopStep twoRequests) ⟨.fresh 20 12 (by decide), []⟩
      (clientRun hostGet [.onRead, .onWrite]) = some l ∧
        ContextsAccounted l.server := by
  have hsome : (Machine.run (loopStep twoRequests) ⟨.fresh 20 12 (by decide), []⟩
      (clientRun hostGet [.onRead, .onWrite])).isSome := by decide +kernel
  obtain ⟨l, hrun⟩ := Option.isSome_iff_exists.1 hsome
  have hallowed : Machine.allowedAlong (loopStep twoRequests) (Undisturbed twoRequests)
      ⟨.fresh 20 12 (by decide), []⟩ (clientRun hostGet [.onRead, .onWrite]) := by
    decide +kernel
  exact ⟨l, hrun, contexts_accounted (TcpServer.fresh_started (by decide) (by decide))
    (Machine.reaches_of_run hallowed hrun)⟩

/-- A request without a host is refused, and its context recycled twice. -/
theorem refused_recycles_twice : ¬ ∀ s l, Started s →
    Machine.Reaches (Machine.graph (loopStep twoRequests)) Machine.always ⟨s, []⟩ l →
      ContextsAccounted l.server := by
  intro hall
  have hcounts : (Machine.run (loopStep twoRequests) ⟨.fresh 20 12 (by decide), []⟩
      (clientRun hostlessGet [.onRead])).any (fun l =>
        decide ((ctxEntries l.server.trace).count (.alloc 24576) = 1 ∧
          (ctxEntries l.server.trace).count (.free 24576) = 2)) := by decide +kernel
  obtain ⟨l, hrun, hcount⟩ := (Option.any_eq_true _ _).1 hcounts
  obtain ⟨halloc, hfree⟩ := of_decide_eq_true hcount
  have hacc := hall _ l (TcpServer.fresh_started (by decide) (by decide))
    (Machine.reaches_of_run (Machine.allowedAlong_always _ _ _) hrun)
  have htotal := hacc.ledger.total 24576
  rw [halloc, hfree] at htotal
  omega

end PingServer
