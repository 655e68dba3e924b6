import PingServer.Net.Connection

/-!
# What a handler works on

One call of a handler sees a connection, the arena and the contexts in it, the
file cache of the router, and what its system calls will do. It leaves a trace of
the actions that the rest of the system can notice.
-/

namespace PingServer

open ByteMem

abbrev maxCacheCount : Nat := 32
abbrev maxPathLen : Nat := 256

/-- `str` is the string up to its NUL; the empty string is an empty slot. -/
structure FileCache where
  fd : Int
  str : List Byte
  deriving DecidableEq, Repr

/-- `file_cache` and `cache_idx`. -/
structure RouterCache where
  fileCache : Nat → FileCache
  cacheIdx : Nat

def RouterCache.empty : RouterCache := ⟨fun _ => ⟨0, []⟩, 0⟩

inductive Action where
  /-- `http_init` has allocated a context -/
  | allocCtx (addr : Nat)
  /-- a context is read or written -/
  | useCtx (addr : Nat)
  /-- `arena_recycle_ref` is called on a context -/
  | recycleCtx (addr : Nat)
  /-- a request is handed to `http_protocol_process` -/
  | process (req : HttpRequest)
  /-- `open` is called -/
  | openFile (name : List Byte) (result : Option Nat)
  | closeFd (fd : Int)
  | send (fd : Int) (bytes : List Byte)
  /-- `sendfile` has moved these ranges of `file` -/
  | sendFile (fd file : Int) (moved : List (Nat × Nat))
  /-- `EPOLL_CTL_MOD`, with or without `EPOLLOUT` -/
  | epollMod (fd : Int) (writable : Bool)
  deriving DecidableEq, Repr

/-- What the system calls of one handler call will do. A handler opens at most
one file, and asks for the status of at most one. -/
structure Env where
  now : Nat
  recvs : List RecvOutcome
  sends : List SendOutcome
  sendfiles : List SendfileOutcome
  opened : Option Nat
  regular : Bool
  fileSize : Nat
  modOk : Bool
  deriving DecidableEq, Repr

/-- Nothing arrives, everything is sent at once, and files open as 7. -/
def Env.opens : Env where
  now := 0
  recvs := []
  sends := List.replicate 8 (.accepted 65536)
  sendfiles := List.replicate 8 (.moved 65536)
  opened := some 7
  regular := true
  fileSize := 10
  modOk := true

structure Handling where
  conn : Connection
  arena : MemoryArena
  /-- the contexts by their addresses -/
  ctxs : Nat → HttpContext
  cache : RouterCache
  env : Env
  trace : List Action

/-- An arena of one block, all zero. -/
def oneBlock : MemoryArena := arenaCreate 1 (fun _ => 0) (by decide)

/-- A connection without a past, whose context at 0 holds `ctx`. -/
def Handling.fresh (ctx : HttpContext) (env : Env) : Handling where
  conn := { Connection.blank with protocolHandler := true, protocolCtx := some 0 }
  arena := oneBlock
  ctxs := fun _ => ctx
  cache := RouterCache.empty
  env := env
  trace := []

namespace Handling

def log (h : Handling) (a : Action) : Handling := { h with trace := h.trace ++ [a] }

def setCtx (h : Handling) (addr : Nat) (ctx : HttpContext) : Handling :=
  { h with ctxs := fun p => if p = addr then ctx else h.ctxs p }

def setReq (h : Handling) (addr : Nat) (req : HttpRequest) : Handling :=
  h.setCtx addr { h.ctxs addr with httpReq := req }

def setRes (h : Handling) (addr : Nat) (res : HttpResponse) : Handling :=
  h.setCtx addr { h.ctxs addr with httpRes := res }

/-- `h'` goes on from `h` with actions that all satisfy `P`. -/
def Grows (P : Action → Prop) (h h' : Handling) : Prop :=
  ∃ new, h'.trace = h.trace ++ new ∧ ∀ a ∈ new, P a

variable {P : Action → Prop} {h h₁ h₂ : Handling}

theorem Grows.of_eq (heq : h₁.trace = h.trace) : Grows P h h₁ := ⟨[], by simp [heq], by simp⟩

theorem Grows.log (hg : Grows P h h₁) {a : Action} (ha : P a) : Grows P h (h₁.log a) := by
  obtain ⟨new, htrace, hnew⟩ := hg
  refine ⟨new ++ [a], by simp [Handling.log, htrace], ?_⟩
  intro b hb
  rcases List.mem_append.1 hb with hold | hlast
  · exact hnew b hold
  · exact List.mem_singleton.1 hlast ▸ ha

theorem Grows.congr (hg : Grows P h h₁) (heq : h₂.trace = h₁.trace) : Grows P h h₂ := by
  obtain ⟨new, htrace, hnew⟩ := hg
  exact ⟨new, heq.trans htrace, hnew⟩

end Handling

end PingServer
