import PingServer.Lib.Ledger
import PingServer.Net.BufferLayout
import PingServer.Net.Slots

/-!
# What a connection holds in the arena

A connection holds two runs of blocks and, once a request was read, a context.
`Accounts` ties a handling to the arena and to the ledger of contexts; it is kept by
every handler that does not refuse a request.
-/

namespace PingServer

open Allocation

/-! ## The ledger of contexts -/

/-- The entry an action makes in the ledger. -/
def Action.entry : Action → Option (Ledger.Entry Nat)
  | .allocCtx p => some (.alloc p)
  | .useCtx p => some (.use p)
  | .recycleCtx p => some (.free p)
  | _ => none

def ctxEntries (trace : List Action) : List (Ledger.Entry Nat) := trace.filterMap Action.entry

theorem ctxEntries_append (trace new : List Action) :
    ctxEntries (trace ++ new) = ctxEntries trace ++ ctxEntries new := List.filterMap_append

/-- Neutral actions enter nothing but uses of the context. -/
theorem ctxEntries_neutral {ctx : Option Nat} {new : List Action} (h : ∀ a ∈ new, Neutral ctx a) :
    ∀ e ∈ ctxEntries new, ∃ p, ctx = some p ∧ e = .use p := by
  intro e he
  obtain ⟨a, ha, hentry⟩ := List.mem_filterMap.1 he
  have hneutral := h a ha
  cases a with
  | allocCtx p => exact absurd hneutral id
  | recycleCtx p => exact absurd hneutral id
  | useCtx p =>
    cases hentry
    exact ⟨p, hneutral, rfl⟩
  | _ => cases hentry

/-- The contexts `live` are those the ledger of the trace leaves. -/
def LedgerOf (trace : List Action) (live : List Nat) : Prop :=
  ∃ left, Ledger.replay [] (ctxEntries trace) = some left ∧ left.Perm live

namespace LedgerOf

variable {trace new : List Action} {live : List Nat} {ctx : Option Nat}

theorem perm {live' : List Nat} (h : LedgerOf trace live) (p : live.Perm live') :
    LedgerOf trace live' := by
  obtain ⟨left, hreplay, hperm⟩ := h
  exact ⟨left, hreplay, hperm.trans p⟩

theorem neutral (h : LedgerOf trace (ctx.toList ++ live)) (hnew : ∀ a ∈ new, Neutral ctx a) :
    LedgerOf (trace ++ new) (ctx.toList ++ live) := by
  obtain ⟨left, hreplay, hperm⟩ := h
  refine ⟨left, ?_, hperm⟩
  rw [ctxEntries_append, Ledger.replay_append, hreplay, Option.bind_some]
  refine Ledger.replay_uses fun e he => ?_
  obtain ⟨p, hctx, rfl⟩ := ctxEntries_neutral hnew e he
  exact ⟨p, hperm.mem_iff.2 (by simp [hctx]), rfl⟩

theorem alloc {p : Nat} (h : LedgerOf trace live) (hp : p ∉ live) :
    LedgerOf (trace ++ [.allocCtx p]) (p :: live) := by
  obtain ⟨left, hreplay, hperm⟩ := h
  refine ⟨p :: left, ?_, hperm.cons p⟩
  have hentry : ctxEntries [.allocCtx p] = [.alloc p] := rfl
  rw [ctxEntries_append, hentry, Ledger.replay_snoc _ hreplay, Ledger.step,
    if_neg fun hmem => hp (hperm.mem_iff.1 hmem)]

theorem recycle {p : Nat} (h : LedgerOf trace (p :: live)) :
    LedgerOf (trace ++ [.recycleCtx p]) live := by
  obtain ⟨left, hreplay, hperm⟩ := h
  refine ⟨left.erase p, ?_, ?_⟩
  · have hentry : ctxEntries [.recycleCtx p] = [.free p] := rfl
    rw [ctxEntries_append, hentry, Ledger.replay_snoc _ hreplay, Ledger.step,
      if_pos (hperm.mem_iff.2 List.mem_cons_self)]
  · have herase := hperm.erase p
    rw [List.erase_cons_head] at herase
    exact herase

end LedgerOf

/-! ## What a connection holds -/

def bufferRun (b : Buffer) : Allocation := large (runOf b) connectionBufferBlockSize

def ctxAllocation (p : Nat) : Allocation := small p sizeofHttpContext

/-- The runs of the buffers, and the context. -/
def holdings (conn : Connection) : List Allocation :=
  bufferRun conn.sendBuf :: bufferRun conn.readBuf :: conn.protocolCtx.toList.map ctxAllocation

/-- The handling owns its holdings besides `rest`, which has the contexts `ctxs`. -/
structure Accounts (h : Handling) (rest : List Allocation) (ctxs : List Nat) : Prop where
  arena : ArenaInv h.arena (holdings h.conn ++ rest)
  readAddr : h.conn.readBuf.addr = (bufferRun h.conn.readBuf).ptr
  sendAddr : h.conn.sendBuf.addr = (bufferRun h.conn.sendBuf).ptr
  ledger : LedgerOf h.trace (h.conn.protocolCtx.toList ++ ctxs)
  placed : ∀ p ∈ ctxs, ctxAllocation p ∈ rest

namespace Accounts

variable {h h' : Handling} {rest : List Allocation} {ctxs : List Nat}

theorem touches (hh : Accounts h rest ctxs) (ht : Touches h h') : Accounts h' rest ctxs := by
  obtain ⟨hctx, -, hread, hsend, -⟩ := ht.hold
  obtain ⟨new, htrace, hnew⟩ := ht.trace
  have hreadRun : bufferRun h'.conn.readBuf = bufferRun h.conn.readBuf := by
    rw [bufferRun, runOf, hread]
    rfl
  have hsendRun : bufferRun h'.conn.sendBuf = bufferRun h.conn.sendBuf := by
    rw [bufferRun, runOf, hsend]
    rfl
  refine ⟨?_, ?_, ?_, ?_, hh.placed⟩
  · rw [ht.arena, holdings, hreadRun, hsendRun, hctx]
    exact hh.arena
  · rw [hread, hreadRun]
    exact hh.readAddr
  · rw [hsend, hsendRun]
    exact hh.sendAddr
  · rw [htrace, hctx]
    exact hh.ledger.neutral hnew

/-- `http_init` takes a context that no connection has. -/
theorem init {ctx : Nat} (hh : Accounts h rest ctxs) (hnone : h.conn.protocolCtx = none)
    (hinit : httpInit h = some (h', ctx)) : Accounts h' rest ctxs := by
  obtain ⟨a, halloc, harena, hconn, htrace⟩ := httpInit_some hinit
  have hinv := hh.arena
  rw [holdings, hnone] at hinv
  have hinv' : ArenaInv a (ctxAllocation ctx :: _) :=
    hinv.allocRef (by decide) (by decide) halloc
  have hperm : (ctxAllocation ctx :: (bufferRun h.conn.sendBuf :: bufferRun h.conn.readBuf ::
      (none : Option Nat).toList.map ctxAllocation ++ rest)).Perm
        (bufferRun h.conn.sendBuf :: bufferRun h.conn.readBuf ::
          (some ctx).toList.map ctxAllocation ++ rest) := by
    refine (List.Perm.swap _ _ _).trans (.cons _ ?_)
    exact List.Perm.swap _ _ _
  refine ⟨?_, ?_, ?_, ?_, hh.placed⟩
  · rw [harena, holdings, hconn]
    exact hinv'.perm hperm
  · rw [hconn]
    exact hh.readAddr
  · rw [hconn]
    exact hh.sendAddr
  · have hledger := hh.ledger
    rw [hnone] at hledger
    rw [htrace, hconn]
    refine hledger.alloc fun hmem => ?_
    -- two live contexts never share an address
    have hplaced := hh.placed ctx hmem
    have hapart := (List.pairwise_cons.1 hinv'.apart).1 (ctxAllocation ctx)
      (List.mem_append_right _ hplaced)
    simp only [ctxAllocation, Apart, hi, lo, sizeofHttpContext] at hapart
    omega

theorem gains (hh : Accounts h rest ctxs) (hg : Gains h h') : Accounts h' rest ctxs := by
  rcases hg with ht | ⟨h₀, h₁, ctx, ht, hnone, hinit, ht'⟩
  · exact hh.touches ht
  · exact ((hh.touches ht).init hnone hinit).touches ht'

theorem recycles (hh : Accounts h rest ctxs) (hrec : Recycles h h') :
    Accounts { h' with conn := { h'.conn with protocolHandler := false, protocolCtx := none } }
      rest ctxs := by
  obtain ⟨ctx, h₁, hctx, ht, rfl⟩ := hrec
  have hh₁ := hh.touches ht
  have hctx₁ : h₁.conn.protocolCtx = some ctx := ht.hold.ctx.trans hctx
  have hinv := hh₁.arena
  rw [holdings, hctx₁] at hinv
  have hperm : (bufferRun h₁.conn.sendBuf :: bufferRun h₁.conn.readBuf ::
      (some ctx).toList.map ctxAllocation ++ rest).Perm
        (ctxAllocation ctx :: (bufferRun h₁.conn.sendBuf :: bufferRun h₁.conn.readBuf ::
          (none : Option Nat).toList.map ctxAllocation ++ rest)) := by
    refine .symm ((List.Perm.swap _ _ _).trans (.cons _ ?_))
    exact List.Perm.swap _ _ _
  have hledger := hh₁.ledger
  rw [hctx₁] at hledger
  exact ⟨(hinv.perm hperm).recycleRef, hh₁.readAddr, hh₁.sendAddr, hledger.recycle, hh.placed⟩

/-- Closing the protocol gives the context back, once. -/
theorem clear (hh : Accounts h rest ctxs) (hclear : connectionClearProtocol h = .ok h') :
    Accounts h' rest ctxs := by
  unfold connectionClearProtocol at hclear
  split at hclear
  · split at hclear <;> cases hclear
    rename_i h₂ ret hclose
    rcases httpProtocolClose_spec hclose with ⟨hnone, rfl⟩ | hrec
    · refine ⟨?_, hh.readAddr, hh.sendAddr, ?_, hh.placed⟩
      · have hinv := hh.arena
        rw [holdings, hnone] at hinv
        exact hinv
      · have hledger := hh.ledger
        rw [hnone] at hledger
        exact hledger
    · exact hh.recycles hrec
  · cases hclear

end Accounts

/-! ## What all connections hold -/

def allocations (conns : Nat → Connection) (cs : List (Nat × Nat)) : List Allocation :=
  cs.flatMap fun c => holdings (conns c.1)

def contexts (conns : Nat → Connection) (cs : List (Nat × Nat)) : List Nat :=
  cs.flatMap fun c => (conns c.1).protocolCtx.toList

/-- The arena and the ledger are those of the open connections. -/
structure CtxInv (s : TcpServer) : Prop where
  arena : ArenaInv s.memArena (allocations s.connArray s.opened)
  addr : ∀ i j, (i, j) ∈ s.opened →
    (s.connArray i).readBuf.addr = (bufferRun (s.connArray i).readBuf).ptr ∧
      (s.connArray i).sendBuf.addr = (bufferRun (s.connArray i).sendBuf).ptr
  ledger : LedgerOf s.trace (contexts s.connArray s.opened)

theorem contexts_placed {conns : Nat → Connection} {cs : List (Nat × Nat)} :
    ∀ p ∈ contexts conns cs, ctxAllocation p ∈ allocations conns cs := by
  intro p hp
  obtain ⟨c, hc, hpc⟩ := List.mem_flatMap.1 hp
  refine List.mem_flatMap.2 ⟨c, hc, ?_⟩
  exact List.mem_cons_of_mem _ (List.mem_cons_of_mem _ (List.mem_map_of_mem hpc))

theorem allocations_congr {conns conns' : Nat → Connection} {cs : List (Nat × Nat)}
    (h : ∀ c ∈ cs, conns' c.1 = conns c.1) :
    allocations conns' cs = allocations conns cs ∧ contexts conns' cs = contexts conns cs := by
  refine ⟨List.flatMap_congr fun c hc => ?_, List.flatMap_congr fun c hc => ?_⟩ <;> rw [h c hc]

namespace CtxInv

variable {s t : TcpServer} {lost half : List (Nat × Nat)} {i j : Nat}

/-- The other open connections. -/
abbrev others (s : TcpServer) (i j : Nat) : List (Nat × Nat) := s.opened.filter (· ≠ (i, j))

theorem opened_perm (inv : SlotInv tidy s lost half) (hij : (i, j) ∈ s.opened) :
    s.opened.Perm ((i, j) :: others s i j) := by
  have hperm := inv.perm_filter hij
  rw [← List.cons_append] at hperm
  exact (List.perm_append_right_iff lost).1 hperm

theorem others_ne (inv : SlotInv tidy s lost half) (hij : (i, j) ∈ s.opened) :
    ∀ c ∈ others s i j, c.1 ≠ i := by
  rintro ⟨k, l⟩ hc rfl
  obtain ⟨hmem, hne⟩ := List.mem_filter.1 hc
  rw [decide_eq_true_eq] at hne
  exact hne (by rw [inv.partner hmem hij])

/-- One connection, seen from its handlers. -/
theorem holds (h : CtxInv s) (inv : SlotInv tidy s lost half) (hij : (i, j) ∈ s.opened) (env : Env) :
    Accounts (s.handling i env) (allocations s.connArray (others s i j))
      (contexts s.connArray (others s i j)) := by
  have hperm := opened_perm inv hij
  obtain ⟨hread, hsend⟩ := h.addr i j hij
  exact ⟨h.arena.perm (hperm.flatMap_right _), hread, hsend, h.ledger.perm (hperm.flatMap_right _),
    contexts_placed⟩

theorem absorb {h' : Handling} (h : CtxInv s) (inv : SlotInv tidy s lost half) (hij : (i, j) ∈ s.opened)
    (hh : Accounts h' (allocations s.connArray (others s i j))
      (contexts s.connArray (others s i j))) : CtxInv (s.absorb i h') := by
  have hperm := (opened_perm inv hij).symm
  have hsame : ∀ c ∈ others s i j, (s.absorb i h').connArray c.1 = s.connArray c.1 := by
    intro c hc
    simp only [TcpServer.absorb, if_neg (others_ne inv hij c hc)]
  have hself : (s.absorb i h').connArray i = h'.conn := by
    simp only [TcpServer.absorb, ↓reduceIte]
  obtain ⟨hallocs, hctxs⟩ := allocations_congr hsame
  refine ⟨?_, ?_, ?_⟩
  · have hinv : ArenaInv h'.arena (allocations (s.absorb i h').connArray ((i, j) :: others s i j)) := by
      rw [allocations, List.flatMap_cons, ← allocations, hself, hallocs]
      exact hh.arena
    exact hinv.perm (hperm.flatMap_right _)
  · intro k l hkl
    by_cases hk : k = i
    · rw [hk, hself]
      exact ⟨hh.readAddr, hh.sendAddr⟩
    · have hkeep : (s.absorb i h').connArray k = s.connArray k := by
        simp only [TcpServer.absorb, if_neg hk]
      rw [hkeep]
      exact h.addr k l hkl
  · have hledger : LedgerOf h'.trace
        (contexts (s.absorb i h').connArray ((i, j) :: others s i j)) := by
      rw [contexts, List.flatMap_cons, ← contexts, hself, hctxs]
      exact hh.ledger
    exact hledger.perm (hperm.flatMap_right _)

/-- The deletion recycles both buffers, after the context is gone. -/
theorem deleted {cleared : Handling} (h : CtxInv s) (inv : SlotInv tidy s lost half)
    (hij : (i, j) ∈ s.opened) (hnone : cleared.conn.protocolCtx = none)
    (hh : Accounts cleared (allocations s.connArray (others s i j))
      (contexts s.connArray (others s i j))) (hdel : Deleted s t i j cleared) : CtxInv t := by
  have hsame : ∀ c ∈ others s i j, t.connArray c.1 = s.connArray c.1 := fun c hc =>
    hdel.others c.1 (others_ne inv hij c hc)
  obtain ⟨hallocs, hctxs⟩ := allocations_congr hsame
  refine ⟨?_, ?_, ?_⟩
  · have hinv := hh.arena
    rw [holdings, hnone] at hinv
    rw [hdel.arena, hdel.opened, hallocs, hh.readAddr, hh.sendAddr]
    exact (hinv.perm (List.Perm.swap _ _ _)).recycle.recycle
  · intro k l hkl
    rw [hdel.opened] at hkl
    rw [hdel.others k (others_ne inv hij (k, l) hkl)]
    exact h.addr k l (List.mem_of_mem_filter hkl)
  · have hledger := hh.ledger
    rw [hnone] at hledger
    rw [hdel.trace, hdel.opened, hctxs]
    refine @LedgerOf.neutral _ _ _ none hledger fun a ha => ?_
    simp only [List.mem_cons, List.not_mem_nil, or_false] at ha
    rcases ha with rfl | rfl | rfl | rfl <;> exact trivial

end CtxInv

end PingServer
