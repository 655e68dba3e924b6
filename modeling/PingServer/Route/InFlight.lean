import PingServer.Route.FileCache

/-!
# Responses in flight

Connections ask for files and send them, in any order. The router keeps the
files open in its cache, and a request that finds the cache full closes the
oldest of them. A response keeps its file as long as no such request closes one
that another response still sends from.
-/

namespace PingServer

open Descriptors ByteMem

/-! ## The machine -/

/-- The connections with the files they share. `clients` are the open ones. `asked` is the
method and the path of a connection, `wanted` the file that its last request has asked for,
and `sent` how many bytes were moved for that request. -/
structure Serving where
  conns : Nat → Connection
  arena : MemoryArena
  ctxs : Nat → HttpContext
  cache : RouterCache
  clients : List Nat
  table : Table FdUse
  asked : Nat → Option (List Byte × List Byte)
  wanted : Nat → List Byte
  sent : Nat → Nat

namespace Serving

def handling (s : Serving) (i : Nat) (env : Env) : Handling where
  conn := s.conns i
  arena := s.arena
  ctxs := s.ctxs
  cache := s.cache
  env := env
  trace := []

def absorb (s : Serving) (i : Nat) (h : Handling) : Serving :=
  { s with
    conns := fun k => if k = i then h.conn else s.conns k
    arena := h.arena
    ctxs := h.ctxs
    cache := h.cache
    table := tableAfter s.table h.trace
    sent := fun k => if k = i then s.sent i + movedSize h.trace else s.sent k }

/-- The connection `i` has sent the request `req`. -/
def asking (s : Serving) (i ctx : Nat) (req : HttpRequest) (env : Env) : Handling :=
  (s.handling i env).setReq ctx req

/-- A new response of the connection `i` to the request `req`. -/
def answered (s : Serving) (i : Nat) (req : HttpRequest) (h : Handling) : Serving :=
  { s.absorb i h with
    asked := fun k => if k = i then some (req.method, req.path) else s.asked k
    wanted := fun k => if k = i then (requestedFile req).getD [] else s.wanted k
    sent := fun k => if k = i then 0 else s.sent k }

end Serving

inductive ServingEvent where
  /-- a connection is opened on a descriptor, with a context of its own -/
  | accept (i ctx fd : Nat) (conn : Connection)
  | request (i : Nat) (req : HttpRequest) (env : Env)
  | writable (i : Nat) (env : Env)
  | close (i : Nat) (env : Env)
  /-- descriptors that are neither of files nor of connections -/
  | openOther (fd : Nat)
  | closeOther (fd : Nat)

/-- Every read parses the read buffer from its first byte on, and no byte of it ever goes, so
that the requests of a connection have one method and one path. The source closes the
descriptor of a connection twice. -/
def servingStep (s : Serving) : ServingEvent → Option Serving
  | .accept i ctx fd conn =>
    if i ∉ s.clients ∧ (∀ k ∈ s.clients, (s.conns k).protocolCtx ≠ some ctx) ∧
        Lowest s.table fd then
      let conn := { conn with fd := fd, protocolCtx := some ctx, protocolHandler := true }
      some { s with
        conns := fun k => if k = i then conn else s.conns k
        ctxs := fun p => if p = ctx then HttpContext.zero else s.ctxs p
        clients := i :: s.clients
        table := assign s.table fd .other
        asked := fun k => if k = i then none else s.asked k
        sent := fun k => if k = i then 0 else s.sent k }
    else none
  | .request i req env =>
    if i ∈ s.clients ∧ (∀ fd, env.opened = some fd → Lowest s.table fd) ∧
        (∀ asked, s.asked i = some asked → (req.method, req.path) = asked) then
      match (s.conns i).protocolCtx with
      | none => none
      | some ctx =>
        match httpProtocolProcess (s.asking i ctx req env) with
        | .error _ => none
        | .ok (h, _) => some (s.answered i req h)
    else none
  | .writable i env =>
    if i ∈ s.clients then
      match httpProtocolWrite (s.handling i env) with
      | .error _ => none
      | .ok (h, _) => some (s.absorb i h)
    else none
  | .close i env =>
    if i ∈ s.clients then
      match connectionClearProtocol (s.handling i env) with
      | .error _ => none
      | .ok h =>
        let h := (h.log (.closeFd h.conn.fd)).log (.closeFd h.conn.fd)
        some { s.absorb i h with clients := s.clients.erase i }
    else none
  | .openOther fd =>
    if Lowest s.table fd then some { s with table := assign s.table fd .other } else none
  | .closeOther fd =>
    if s.table fd = some .other ∧ ∀ k ∈ s.clients, (s.conns k).fd ≠ fd then
      some { s with table := release s.table fd }
    else none

/-! ## Keeping the file -/

/-- The response of connection `i`, if it is in flight, has its file open. -/
def KeepsFile (s : Serving) (i : Nat) : Prop :=
  ∀ ctx, (s.conns i).protocolCtx = some ctx → (s.ctxs ctx).httpRes.Awaiting (s.sent i) →
    s.table (s.ctxs ctx).httpRes.bodyFd.toNat = some (.file (s.wanted i))

/-- Responses in flight keep their files, and `sendfile` moves bytes of no other. -/
structure FilesKept (s : Serving) : Prop where
  kept : ∀ i ∈ s.clients, KeepsFile s i
  sends : ∀ i ∈ s.clients, ∀ env h ret, httpProtocolWrite (s.handling i env) = .ok (h, ret) →
    ∀ fd file moved, .sendFile fd file moved ∈ h.trace → moved ≠ [] →
      s.table file.toNat = some (.file (s.wanted i))

/-- The request is answered with a file that takes the next slot of the cache. -/
def TakesSlot (s : Serving) (req : HttpRequest) (env : Env) : Prop :=
  httpProtcolCheck (some { HttpContext.zero with httpReq := req }) = 0 ∧
    env.opened ≠ none ∧ env.regular = true ∧
      (requestedFile req).any fun name =>
        name ≠ [] ∧ name.length < maxPathLen ∧ findCached s.cache name = none

/-- The entry that the next file pushes out of the cache, if it is not empty. -/
def nextOut (s : Serving) : FileCache := s.cache.fileCache s.cache.cacheIdx

/-- A request that pushes a file out of the cache pushes out none that the response
of another connection awaits. -/
def SparesAwaited (s : Serving) : ServingEvent → Prop
  | .request i req env => TakesSlot s req env → (nextOut s).str ≠ [] →
      ∀ k ∈ s.clients, k ≠ i → ∀ ctx, (s.conns k).protocolCtx = some ctx →
        (s.ctxs ctx).httpRes.Awaiting (s.sent k) → (s.ctxs ctx).httpRes.bodyFd ≠ (nextOut s).fd
  | _ => True

/-! ## The invariant -/

structure ServingInv (s : Serving) : Prop where
  nodup : s.clients.Nodup
  ctx : ∀ i ∈ s.clients, ∃ ctx, (s.conns i).protocolCtx = some ctx
  ctxApart : ∀ i ∈ s.clients, ∀ k ∈ s.clients,
    (s.conns i).protocolCtx = (s.conns k).protocolCtx → i = k
  fd : ∀ i ∈ s.clients, ∃ fd : Nat, (s.conns i).fd = fd ∧ s.table fd = some .other
  fdApart : ∀ i ∈ s.clients, ∀ k ∈ s.clients, (s.conns i).fd = (s.conns k).fd → i = k
  cache : CacheOpen s.cache s.table
  kept : ∀ i ∈ s.clients, KeepsFile s i

/-! ## The steps -/

namespace ServingInv

variable {s : Serving}

/-- Descriptors that come and go without touching files or connections. -/
theorem table {t : Table FdUse} (h : ServingInv s)
    (hkeep : ∀ k x, s.table k = some x → (x = .other → ∃ i ∈ s.clients, (s.conns i).fd = k) →
      t k = some x) : ServingInv { s with table := t } := by
  have hfile : ∀ k name, s.table k = some (.file name) → t k = some (.file name) := fun k name hk =>
    hkeep k _ hk nofun
  refine ⟨h.nodup, h.ctx, h.ctxApart, fun i hi => ?_, h.fdApart, h.cache.congr hfile,
    fun i hi ctx hctx hawait => hfile _ _ (h.kept i hi ctx hctx hawait)⟩
  obtain ⟨fd, hfd, hother⟩ := h.fd i hi
  exact ⟨fd, hfd, hkeep fd _ hother fun _ => ⟨i, hi, hfd⟩⟩

theorem openOther {fd : Nat} (h : ServingInv s) (hfree : Lowest s.table fd) :
    ServingInv { s with table := assign s.table fd .other } :=
  h.table fun _ _ hk _ => hfree.assign_keeps hk

theorem closeOther {fd : Nat} (h : ServingInv s) (hother : s.table fd = some .other)
    (hclients : ∀ k ∈ s.clients, (s.conns k).fd ≠ fd) :
    ServingInv { s with table := release s.table fd } := by
  refine h.table fun k x hk hx => ?_
  rw [release_of_ne, hk]
  rintro rfl
  rw [hother] at hk
  obtain ⟨i, hi, hfd⟩ := hx (Option.some.inj hk).symm
  exact hclients i hi hfd

/-- What tells the clients apart still does with a new one. -/
theorem apart_cons {α : Type} {f g : Nat → α} {clients : List Nat} {i : Nat}
    (hsame : ∀ k ∈ clients, g k = f k) (hnew : ∀ k ∈ clients, f k ≠ g i)
    (hapart : ∀ k ∈ clients, ∀ l ∈ clients, f k = f l → k = l) :
    ∀ k ∈ i :: clients, ∀ l ∈ i :: clients, g k = g l → k = l := by
  intro k hk l hl heq
  rcases List.mem_cons.1 hk with rfl | hk' <;> rcases List.mem_cons.1 hl with rfl | hl'
  · rfl
  · rw [hsame l hl'] at heq
    exact absurd heq.symm (hnew l hl')
  · rw [hsame k hk'] at heq
    exact absurd heq (hnew k hk')
  · rw [hsame k hk', hsame l hl'] at heq
    exact hapart k hk' l hl' heq

/-- A new connection `i` in `t`, on the free descriptor `fd`. -/
theorem accept {t : Serving} {i ctx fd : Nat} (h : ServingInv s) (hi : i ∉ s.clients)
    (hctx : ∀ k ∈ s.clients, (s.conns k).protocolCtx ≠ some ctx) (hfree : Lowest s.table fd)
    (hclients : t.clients = i :: s.clients) (hself : (t.conns i).protocolCtx = some ctx)
    (hselfFd : (t.conns i).fd = fd) (hsame : ∀ k, k ≠ i → t.conns k = s.conns k)
    (hzero : t.ctxs ctx = HttpContext.zero) (hctxs : ∀ p, p ≠ ctx → t.ctxs p = s.ctxs p)
    (htable : t.table = assign s.table fd .other) (hcache : t.cache = s.cache)
    (hwanted : t.wanted = s.wanted) (hsent : ∀ k, k ≠ i → t.sent k = s.sent k) : ServingInv t := by
  have hne : ∀ k ∈ s.clients, k ≠ i := fun k hk he => hi (he ▸ hk)
  have hfdne : ∀ k ∈ s.clients, (s.conns k).fd ≠ fd := by
    intro k hk he
    obtain ⟨fd', hfd', hother⟩ := h.fd k hk
    have heq : fd' = fd := by
      rw [hfd'] at he
      exact_mod_cast he
    rw [heq, hfree.1] at hother
    cases hother
  refine ⟨?_, ?_, ?_, ?_, ?_, ?_, ?_⟩
  · rw [hclients]
    exact List.nodup_cons.2 ⟨hi, h.nodup⟩
  · intro k hk
    rcases List.mem_cons.1 (hclients ▸ hk) with rfl | hk
    · exact ⟨ctx, hself⟩
    · rw [hsame k (hne k hk)]
      exact h.ctx k hk
  · rw [hclients]
    refine apart_cons (fun k hk => by rw [hsame k (hne k hk)]) ?_ h.ctxApart
    rw [hself]
    exact hctx
  · intro k hk
    rw [htable]
    rcases List.mem_cons.1 (hclients ▸ hk) with rfl | hk
    · exact ⟨fd, hselfFd, assign_self⟩
    · rw [hsame k (hne k hk)]
      obtain ⟨fd', hfd', hother⟩ := h.fd k hk
      exact ⟨fd', hfd', hfree.assign_keeps hother⟩
  · rw [hclients]
    refine apart_cons (fun k hk => by rw [hsame k (hne k hk)]) ?_ h.fdApart
    rw [hselfFd]
    exact hfdne
  · rw [hcache, htable]
    exact h.cache.congr fun k name hk => hfree.assign_keeps hk
  · intro k hk p hp hawait
    by_cases hpc : p = ctx
    · rw [hpc, hzero] at hawait
      exact absurd hawait.1 (by decide)
    · rw [hctxs p hpc] at hawait ⊢
      rcases List.mem_cons.1 (hclients ▸ hk) with rfl | hk
      · rw [hself] at hp
        exact absurd (Option.some.inj hp).symm hpc
      · rw [hsame k (hne k hk)] at hp
        rw [hsent k (hne k hk)] at hawait
        rw [htable, hwanted]
        exact hfree.assign_keeps (h.kept k hk p hp hawait)

/-- Connection `i` has worked on its response: the other responses are left alone,
and the table keeps all that is not a file no longer wanted. -/
theorem worked {t : Serving} {i ctx : Nat} (h : ServingInv s) (hi : i ∈ s.clients)
    (hctx : (s.conns i).protocolCtx = some ctx) (hclients : t.clients = s.clients)
    (hselfCtx : (t.conns i).protocolCtx = some ctx) (hselfFd : (t.conns i).fd = (s.conns i).fd)
    (hsame : ∀ k, k ≠ i → t.conns k = s.conns k) (hctxs : ∀ p, p ≠ ctx → t.ctxs p = s.ctxs p)
    (hwanted : ∀ k, k ≠ i → t.wanted k = s.wanted k) (hsent : ∀ k, k ≠ i → t.sent k = s.sent k)
    (hother : ∀ k, s.table k = some .other → t.table k = some .other)
    (hcache : CacheOpen t.cache t.table)
    (hkeep : ∀ k ∈ s.clients, k ≠ i → ∀ p, (s.conns k).protocolCtx = some p →
      (s.ctxs p).httpRes.Awaiting (s.sent k) → t.table (s.ctxs p).httpRes.bodyFd.toNat =
        s.table (s.ctxs p).httpRes.bodyFd.toNat)
    (hself : (t.ctxs ctx).httpRes.Awaiting (t.sent i) →
      t.table (t.ctxs ctx).httpRes.bodyFd.toNat = some (.file (t.wanted i))) : ServingInv t := by
  have hctxEq : ∀ k, (t.conns k).protocolCtx = (s.conns k).protocolCtx := by
    intro k
    by_cases hk : k = i
    · rw [hk, hselfCtx, hctx]
    · rw [hsame k hk]
  have hfdEq : ∀ k, (t.conns k).fd = (s.conns k).fd := by
    intro k
    by_cases hk : k = i
    · rw [hk, hselfFd]
    · rw [hsame k hk]
  refine ⟨hclients ▸ h.nodup, ?_, ?_, ?_, ?_, hcache, ?_⟩ <;> rw [hclients]
  · intro k hk
    rw [hctxEq]
    exact h.ctx k hk
  · intro k hk l hl heq
    rw [hctxEq, hctxEq] at heq
    exact h.ctxApart k hk l hl heq
  · intro k hk
    rw [hfdEq]
    obtain ⟨fd, hfd, hsock⟩ := h.fd k hk
    exact ⟨fd, hfd, hother fd hsock⟩
  · intro k hk l hl heq
    rw [hfdEq, hfdEq] at heq
    exact h.fdApart k hk l hl heq
  · intro k hk p hp hawait
    rw [hctxEq] at hp
    by_cases hki : k = i
    · rw [hki, hctx] at hp
      cases hp
      rw [hki] at hawait ⊢
      exact hself hawait
    · -- two connections never share a context
      have hpc : p ≠ ctx := by
        rintro rfl
        exact hki (h.ctxApart k hk i hi (hp.trans hctx.symm))
      rw [hctxs p hpc] at hawait ⊢
      rw [hsent k hki] at hawait
      rw [hkeep k hk hki p hp hawait, hwanted k hki]
      exact h.kept k hk p hp hawait

/-- Closing a connection closes its own descriptor. -/
theorem close {t : Serving} {i fd : Nat} (h : ServingInv s) (hfd : (s.conns i).fd = fd)
    (hi : i ∈ s.clients) (hclients : t.clients = s.clients.erase i)
    (hsame : ∀ k, k ≠ i → t.conns k = s.conns k) (hctxs : t.ctxs = s.ctxs)
    (hcache : t.cache = s.cache) (htable : t.table = release s.table fd)
    (hwanted : t.wanted = s.wanted) (hsent : ∀ k, k ≠ i → t.sent k = s.sent k) : ServingInv t := by
  have hmem : ∀ k, k ∈ t.clients → k ∈ s.clients ∧ k ≠ i := by
    intro k hk
    rw [hclients] at hk
    exact ⟨List.mem_of_mem_erase hk, fun he => (h.nodup.mem_erase_iff.1 hk).1 he⟩
  have hsock : s.table fd = some .other := by
    obtain ⟨fd', hfd', hother⟩ := h.fd i hi
    rw [hfd] at hfd'
    have heq : fd = fd' := by exact_mod_cast hfd'
    rw [heq]
    exact hother
  have hfile : ∀ k name, s.table k = some (.file name) → t.table k = some (.file name) := by
    intro k name hk
    rw [htable, release_of_ne, hk]
    rintro rfl
    rw [hsock] at hk
    cases hk
  refine ⟨?_, ?_, ?_, ?_, ?_, ?_, ?_⟩
  · rw [hclients]
    exact h.nodup.erase i
  · intro k hk
    rw [hsame k (hmem k hk).2]
    exact h.ctx k (hmem k hk).1
  · intro k hk l hl heq
    rw [hsame k (hmem k hk).2, hsame l (hmem l hl).2] at heq
    exact h.ctxApart k (hmem k hk).1 l (hmem l hl).1 heq
  · intro k hk
    rw [hsame k (hmem k hk).2]
    obtain ⟨fd', hfd', hother⟩ := h.fd k (hmem k hk).1
    refine ⟨fd', hfd', ?_⟩
    rw [htable, release_of_ne, hother]
    rintro rfl
    exact (hmem k hk).2 (h.fdApart k (hmem k hk).1 i hi (hfd'.trans hfd.symm))
  · intro k hk l hl heq
    rw [hsame k (hmem k hk).2, hsame l (hmem l hl).2] at heq
    exact h.fdApart k (hmem k hk).1 l (hmem l hl).1 heq
  · rw [hcache]
    exact h.cache.congr hfile
  · intro k hk p hp hawait
    rw [hsame k (hmem k hk).2] at hp
    rw [hctxs, hsent k (hmem k hk).2] at hawait
    rw [hctxs]
    rw [hwanted]
    exact hfile _ _ (h.kept k (hmem k hk).1 p hp hawait)

end ServingInv

/-! ## A request -/

theorem initResponse_table (h : Handling) (ctx : Nat) (t : Table FdUse) (htrace : h.trace = []) :
    tableAfter t (initResponse h ctx).trace = t := by
  have heq : (initResponse h ctx).trace = [.useCtx ctx, .process (h.ctxs ctx).httpReq] := by
    simp [initResponse, Handling.setRes, Handling.setCtx, Handling.setKeepAlive, Handling.log, htrace]
  rw [heq]
  rfl

theorem check_request (ctx : HttpContext) : httpProtcolCheck (some ctx) =
    httpProtcolCheck (some { HttpContext.zero with httpReq := ctx.httpReq }) := by
  simp only [httpProtcolCheck]

section

variable {s : Serving} {i ctx : Nat} {req : HttpRequest} {env : Env} {h' : Handling} {ret : Int}

/-- What is left to show after a request is about the table, the cache and the new
response. -/
theorem ServingInv.answered {table : Table FdUse} (h : ServingInv s) (hi : i ∈ s.clients)
    (hctx : (s.conns i).protocolCtx = some ctx)
    (hproc : httpProtocolProcess (s.asking i ctx req env) = .ok (h', ret))
    (htable : tableAfter s.table h'.trace = table)
    (hother : ∀ k, s.table k = some .other → table k = some .other)
    (hcache : CacheOpen h'.cache table)
    (hkeep : ∀ k ∈ s.clients, k ≠ i → ∀ p, (s.conns k).protocolCtx = some p →
      (s.ctxs p).httpRes.Awaiting (s.sent k) → table (s.ctxs p).httpRes.bodyFd.toNat =
        s.table (s.ctxs p).httpRes.bodyFd.toNat)
    (hself : 0 < (h'.ctxs ctx).httpRes.bodyFd → table (h'.ctxs ctx).httpRes.bodyFd.toNat =
      some (.file ((requestedFile req).getD []))) : ServingInv (s.answered i req h') := by
  have htouches := Touches.process hproc
  have hothers := httpProtocolProcess_others hctx hproc
  have hbefore : ∀ p, p ≠ ctx → (s.asking i ctx req env).ctxs p = s.ctxs p := by
    intro p hp
    simp [Serving.asking, Serving.handling, Handling.setReq, Handling.setCtx, hp]
  subst htable
  refine h.worked hi hctx rfl ?_ ?_ ?_ ?_ ?_ ?_ hother hcache hkeep ?_
  · simp only [Serving.answered, Serving.absorb, ↓reduceIte]
    exact htouches.hold.ctx.trans hctx
  · simp only [Serving.answered, Serving.absorb, ↓reduceIte]
    exact htouches.hold.fd
  · intro k hk
    simp only [Serving.answered, Serving.absorb, if_neg hk]
  · intro p hp
    exact (hothers p hp).trans (hbefore p hp)
  · intro k hk
    simp only [Serving.answered, if_neg hk]
  · intro k hk
    simp only [Serving.answered, if_neg hk]
  · simp only [Serving.answered, ↓reduceIte]
    exact fun hawait => hself hawait.1

/-- A request that takes a slot of the cache, and pushes out no file that is awaited. -/
theorem ServingInv.cached {fd : Nat} {name : List Byte} (h : ServingInv s) (hi : i ∈ s.clients)
    (hctx : (s.conns i).protocolCtx = some ctx)
    (hproc : httpProtocolProcess (s.asking i ctx req env) = .ok (h', ret))
    (hlow : Lowest s.table fd) (hspares : SparesAwaited s (.request i req env))
    (htakes : TakesSlot s req env) (hname : requestedFile req = some name)
    (htable : tableAfter s.table h'.trace =
      tableAfterSlot s.table (s.cache.fileCache s.cache.cacheIdx) fd name)
    (hcache : CacheOpen h'.cache (tableAfterSlot s.table (s.cache.fileCache s.cache.cacheIdx) fd name))
    (hbody : (h'.ctxs ctx).httpRes.bodyFd = fd) :
    ServingInv (s.answered i req h') := by
  have hused := h.cache.opened s.cache.cacheIdx h.cache.idx
  refine h.answered hi hctx hproc htable ?_ hcache ?_ ?_
  · intro k hk
    refine tableAfterSlot_keeps hlow.1 hk fun hstr he => ?_
    rw [he, (hused hstr).2] at hk
    cases hk
  · intro k hk hki p hp hawait
    have hkept := h.kept k hk p hp hawait
    rw [hkept]
    refine tableAfterSlot_keeps hlow.1 hkept fun hstr he => ?_
    apply hspares htakes hstr k hk hki p hp hawait
    rw [nextOut]
    have hpos := (hused hstr).1
    have hpos' := hawait.1
    omega
  · intro _
    rw [hbody, Int.toNat_natCast, hname]
    exact tableAfterSlot_new h.cache hlow.1

/-- A request keeps the invariant, if it pushes out no file that is awaited. -/
theorem ServingInv.request (h : ServingInv s) (hi : i ∈ s.clients)
    (hctx : (s.conns i).protocolCtx = some ctx)
    (hfree : ∀ fd, env.opened = some fd → Lowest s.table fd)
    (hspares : SparesAwaited s (.request i req env))
    (hproc : httpProtocolProcess (s.asking i ctx req env) = .ok (h', ret)) :
    ServingInv (s.answered i req h') := by
  have hctx' : (s.asking i ctx req env).conn.protocolCtx = some ctx := hctx
  have hrequest : ((s.asking i ctx req env).ctxs ctx).httpReq = req := by
    simp [Serving.asking, Serving.handling, Handling.setReq, Handling.setCtx]
  -- without a new slot nothing changes but the response
  have hunslotted : tableAfter s.table h'.trace = s.table → h'.cache = s.cache →
      (0 < (h'.ctxs ctx).httpRes.bodyFd → s.table (h'.ctxs ctx).httpRes.bodyFd.toNat =
        some (.file ((requestedFile req).getD []))) → _ := fun htable hcache hself =>
    h.answered hi hctx hproc htable (fun _ hk => hk) (by rw [hcache]; exact h.cache)
      (fun _ _ _ _ _ _ => rfl) hself
  cases httpProtocolProcess_files hctx' hproc with
  | fileless hcache hnone htrace =>
    obtain ⟨new, htrace, hquiet⟩ := htrace
    refine hunslotted (by rw [htrace]; exact tableAfter_quiet hquiet _) hcache fun hpos => ?_
    rw [hnone] at hpos
    exact absurd hpos (by decide)
  | asked name g r hcheck hname hgot hcache htrace hbody =>
    rw [hrequest] at hname
    rw [check_request, hrequest] at hcheck
    rcases hgot.table (initResponse_table _ _ s.table rfl) (fun fd hfd => (hfree fd hfd).1) with
      ⟨htable, hsame, hr⟩ | ⟨fd, hopened, hne, hlen, hregular, hmiss, hr, hg⟩
    · refine hunslotted (by rw [htrace]; exact htable) (hcache.trans hsame) fun hpos => ?_
      rw [hbody] at hpos ⊢
      rcases hr with hneg | ⟨k, hk, hstr, hne, hr⟩
      · rw [if_pos hneg] at hpos
        exact absurd hpos (by decide)
      · obtain ⟨hfd, hopen⟩ := h.cache.opened k hk (by
          intro hempty
          exact hne (hstr ▸ hempty))
        have hk' : r = (s.cache.fileCache k).fd := hr
        rw [hk', if_neg (by omega), hname]
        rw [hopen]
        exact congrArg (fun str => some (FdUse.file str)) hstr
    · have hopened' : env.opened = some fd := hopened
      have hlow := hfree fd hopened'
      have htakes : TakesSlot s req env := by
        refine ⟨hcheck, by rw [hopened']; exact Option.some_ne_none fd, hregular, ?_⟩
        rw [hname]
        exact decide_eq_true ⟨hne, hlen, hmiss⟩
      refine h.cached hi hctx hproc hlow hspares htakes hname ?_ ?_ ?_
      · rw [htrace, hg]
        exact cacheFile_table (initResponse_table _ _ s.table rfl) h.cache
      · rw [hcache, hg, cacheFile_cache]
        exact h.cache.take hlow.1
      · rw [hbody, hr, if_neg (by omega)]

end

/-! ## Every run -/

theorem ServingInv.writable {s : Serving} {i ctx : Nat} {env : Env} {h' : Handling} {ret : Int}
    (h : ServingInv s) (hi : i ∈ s.clients) (hctx : (s.conns i).protocolCtx = some ctx)
    (hwrite : httpProtocolWrite (s.handling i env) = .ok (h', ret)) :
    ServingInv (s.absorb i h') := by
  have hctx' : (s.handling i env).conn.protocolCtx = some ctx := hctx
  have htouches := Touches.write hwrite
  have hwrites := httpProtocolWrite_writes hctx' hwrite
  have htable : tableAfter s.table h'.trace = s.table := by
    obtain ⟨new, htrace, hnew⟩ := hwrites.trace
    rw [htrace]
    exact tableAfter_quiet (fun a ha => (hnew a ha).quiet) _
  have hcache : h'.cache = s.cache := hwrites.cache
  refine h.worked hi hctx rfl ?_ ?_ ?_ hwrites.others (fun _ _ => rfl) ?_ ?_ ?_ ?_ ?_ <;>
    simp only [Serving.absorb, htable, hcache, ↓reduceIte]
  · exact htouches.hold.ctx.trans hctx
  · exact htouches.hold.fd
  · intro k hk
    simp only [if_neg hk]
  · intro k hk
    simp only [if_neg hk]
  · exact fun _ => id
  · exact h.cache
  · exact fun _ _ _ _ _ _ => trivial
  · intro hawait
    have hbefore : (s.ctxs ctx).httpRes.Awaiting (s.sent i) := by
      by_contra hsent
      exact httpProtocolWrite_sent hctx' hwrite (Nat.le_add_right _ _) hsent hawait
    rw [hwrites.bodyFd]
    exact h.kept i hi ctx hctx hbefore

/-- The second `close` finds the number free. -/
theorem ServingInv.closing {s : Serving} {i : Nat} {env : Env} {h' : Handling}
    (h : ServingInv s) (hi : i ∈ s.clients)
    (hclear : connectionClearProtocol (s.handling i env) = .ok h') :
    ServingInv { s.absorb i ((h'.log (.closeFd h'.conn.fd)).log (.closeFd h'.conn.fd)) with
      clients := s.clients.erase i } := by
  have hsends := SendsOnly.clear hclear
  obtain ⟨fd, hfd, -⟩ := h.fd i hi
  have hfd' : h'.conn.fd = fd := hsends.fd.trans hfd
  obtain ⟨new, htrace, hquiet⟩ := hsends.trace
  refine h.close hfd hi rfl ?_ hsends.ctxs hsends.cache ?_ rfl ?_
  · intro k hk
    simp only [Serving.absorb, if_neg hk]
  · simp only [Serving.absorb, Handling.log, htrace, tableAfter_append, hfd']
    rw [tableAfter_quiet hquiet]
    funext k
    by_cases hk : k = fd <;> simp [tableAfter, Action.onTable, release, Serving.handling, hk]
  · intro k hk
    simp only [Serving.absorb, if_neg hk]

theorem servingStep_inv {s t : Serving} {e : ServingEvent} (h : ServingInv s)
    (hspares : SparesAwaited s e) (hstep : servingStep s e = some t) : ServingInv t := by
  cases e with
  | accept i ctx fd conn =>
    simp only [servingStep] at hstep
    split at hstep <;> cases hstep
    rename_i hnew
    refine h.accept hnew.1 hnew.2.1 hnew.2.2 rfl ?_ ?_ ?_ ?_ ?_ rfl rfl rfl ?_
    · simp only [↓reduceIte]
    · simp only [↓reduceIte]
    · intro k hk
      simp only [if_neg hk]
    · simp only [↓reduceIte]
    · intro p hp
      simp only [if_neg hp]
    · intro k hk
      simp only [if_neg hk]
  | request i req env =>
    simp only [servingStep] at hstep
    split at hstep
    · rename_i hready
      split at hstep
      · cases hstep
      · rename_i ctx hctx
        split at hstep <;> cases hstep
        rename_i hproc
        exact h.request hready.1 hctx hready.2.1 hspares hproc
    · cases hstep
  | writable i env =>
    simp only [servingStep] at hstep
    split at hstep
    · rename_i hi
      split at hstep <;> cases hstep
      rename_i hwrite
      obtain ⟨ctx, hctx⟩ := h.ctx i hi
      exact h.writable hi hctx hwrite
    · cases hstep
  | close i env =>
    simp only [servingStep] at hstep
    split at hstep
    · rename_i hi
      split at hstep <;> cases hstep
      rename_i hclear
      exact h.closing hi hclear
    · cases hstep
  | openOther fd =>
    simp only [servingStep] at hstep
    split at hstep <;> cases hstep
    rename_i hfree
    exact h.openOther hfree
  | closeOther fd =>
    simp only [servingStep] at hstep
    split at hstep <;> cases hstep
    rename_i hother
    exact h.closeOther hother.1 hother.2

theorem ServingInv.filesKept {s : Serving} (h : ServingInv s) : FilesKept s := by
  refine ⟨h.kept, ?_⟩
  intro i hi env h' ret hwrite fd file moved hsend hmoved
  obtain ⟨ctx, hctx⟩ := h.ctx i hi
  obtain ⟨new, htrace, hnew⟩ := (httpProtocolWrite_writes (h := s.handling i env) hctx hwrite).trace
  rw [htrace] at hsend
  obtain ⟨hfile, hawait⟩ := hnew _ hsend
  rw [hfile]
  exact h.kept i hi ctx hctx ((hawait hmoved).awaiting _)

/-- Nobody is connected and no file is cached; other descriptors may be open. -/
structure Idle (s : Serving) : Prop where
  clients : s.clients = []
  cache : s.cache = RouterCache.empty

theorem Idle.inv {s : Serving} (h : Idle s) : ServingInv s := by
  refine ⟨?_, ?_, ?_, ?_, ?_, ?_, ?_⟩
  · rw [h.clients]
    exact List.nodup_nil
  · simp [h.clients]
  · simp [h.clients]
  · simp [h.clients]
  · simp [h.clients]
  · rw [h.cache]
    exact .empty _
  · simp [h.clients]

/-- Only the standard descriptors are open. -/
def Serving.start : Serving where
  conns := fun _ => .blank
  arena := oneBlock
  ctxs := fun _ => HttpContext.zero
  cache := RouterCache.empty
  clients := []
  table := fun fd => if fd < 3 then some .other else none
  asked := fun _ => none
  wanted := fun _ => []
  sent := fun _ => 0

/-- A connection as `connection_create` leaves it. -/
def newClient : Connection where
  protocolHandler := true
  protocolCtx := none
  lastActivity := 0
  readBuf := ⟨8, 12280, 0, 0, fun _ => 0⟩
  sendBuf := ⟨12296, 12280, 0, 0, fun _ => 0⟩
  requestCount := 0
  maxRequestCount := connectionRequestCount
  fd := 0
  connId := 0
  isKeepAlive := false
  connSt := .idle

/-- A request for the file numbered `n`. -/
def fileRequest (n : Nat) : HttpRequest where
  method := utf8 "GET"
  path := utf8 "/static/" ++ [BitVec.ofNat 8 (48 + n / 10), BitVec.ofNat 8 (48 + n % 10)]
  bodyLen := 0
  headers := [⟨utf8 "Host", utf8 "a"⟩]
  lastLen := 0
  minorVersion := 1

def askFile (i n fd : Nat) : ServingEvent :=
  .request i (fileRequest n) { Env.opens with opened := some fd }

instance (res : HttpResponse) (sent : Nat) : Decidable (res.Awaiting sent) :=
  inferInstanceAs (Decidable (_ ∧ ¬ (_ ∧ _ ∧ _)))

instance (s : Serving) (req : HttpRequest) (env : Env) : Decidable (TakesSlot s req env) :=
  inferInstanceAs (Decidable (_ ∧ _ ≠ _ ∧ _ ∧ _))

instance (s : Serving) : (e : ServingEvent) → Decidable (SparesAwaited s e)
  | .request i req env => inferInstanceAs (Decidable (TakesSlot s req env → (nextOut s).str ≠ [] →
      ∀ k ∈ s.clients, k ≠ i → ∀ ctx, (s.conns k).protocolCtx = some ctx →
        (s.ctxs ctx).httpRes.Awaiting (s.sent k) → (s.ctxs ctx).httpRes.bodyFd ≠ (nextOut s).fd))
  | .accept .. | .writable .. | .close .. | .openOther _ | .closeOther _ => .isTrue trivial

/-- One client asks for a file, gets it and leaves. -/
def oneFile : List ServingEvent :=
  [.accept 0 0 3 newClient, askFile 0 0 4, .writable 0 .opens, .close 0 .opens]

/-- The connection 0 asks for a file and is not served yet, while each of `count` others
asks for one of its own. -/
def manyFiles (count : Nat) : List ServingEvent :=
  (List.range (count + 1)).map (fun i => .accept i i (i + 3) newClient) ++
    (List.range (count + 1)).map fun i => askFile i i (i + count + 4)

end PingServer
