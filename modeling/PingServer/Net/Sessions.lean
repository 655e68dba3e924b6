import PingServer.Net.ContextSafety
import PingServer.Net.Lifetime
import PingServer.Net.Traces

/-!
# The connections of a run

In a run of the event loop the handlers of many connections are called in turn, and slots
are given to new connections. `Record` keeps an account of what each open connection has
heard and done since it was accepted, and `connections_run_alone` finds a session of that
connection alone behind it: what other connections do shows only in the arena, the file
cache and the contexts that are not its own.
-/

namespace PingServer

open ByteMem Machine

/-! ## The record of a run -/

/-- What the connections have heard and done, by their slots. -/
structure Record where
  heard : Nat → List HandlerCall
  done : Nat → List Action

def Record.empty : Record := ⟨fun _ => [], fun _ => []⟩

/-- A call has taken the server from `s` to `t`. A slot without a connection starts anew. -/
def Record.next (r : Record) (s t : TcpServer) (c : HandlerCall) : Record where
  heard i :=
    if s.live (.tcp i) then
      if c.context = .tcp i then r.heard i ++ [c] else r.heard i
    else []
  done i :=
    if s.live (.tcp i) then
      if c.context = .tcp i then r.done i ++ t.trace.drop s.trace.length else r.done i
    else []

/-- The event loop with its record. -/
def recordStep (parse : Parser) (a : EventLoop × Record) : LoopEvent → Option (EventLoop × Record)
  | .wait returned => (loopStep parse a.1 (.wait returned)).map fun l => (l, a.2)
  | .call c =>
    (loopStep parse a.1 (.call c)).map fun l => (l, a.2.next a.1.server l.server c)

theorem recordStep_loop {parse : Parser} {a b : EventLoop × Record} {e : LoopEvent}
    (hstep : recordStep parse a e = some b) : loopStep parse a.1 e = some b.1 := by
  cases e with
  | wait returned =>
    obtain ⟨l, hl, rfl⟩ := Option.map_eq_some_iff.1 hstep
    exact hl
  | call c =>
    obtain ⟨l, hl, rfl⟩ := Option.map_eq_some_iff.1 hstep
    exact hl

theorem TcpServer.live_tcp {s : TcpServer} {i : Nat} :
    s.live (.tcp i) = true ↔ ∃ j, (i, j) ∈ s.opened := by
  rw [live, List.any_eq_true]
  constructor
  · rintro ⟨⟨k, l⟩, hmem, hk⟩
    rw [beq_iff_eq] at hk
    exact ⟨l, hk ▸ hmem⟩
  · rintro ⟨j, hij⟩
    exact ⟨(i, j), hij, beq_self_eq_true i⟩

section

variable {r : Record} {s t : TcpServer} {c : HandlerCall} {i j : Nat}

theorem Record.next_other (hij : (i, j) ∈ s.opened) (hne : c.context ≠ .tcp i) :
    (r.next s t c).heard i = r.heard i ∧ (r.next s t c).done i = r.done i := by
  simp only [next, TcpServer.live_tcp.2 ⟨j, hij⟩, ↓reduceIte, if_neg hne, and_self]

theorem Record.next_own (hij : (i, j) ∈ s.opened) (hctx : c.context = .tcp i) :
    (r.next s t c).heard i = r.heard i ++ [c] ∧
      (r.next s t c).done i = r.done i ++ t.trace.drop s.trace.length := by
  simp only [next, TcpServer.live_tcp.2 ⟨j, hij⟩, ↓reduceIte, if_pos hctx, and_self]

theorem Record.next_new (hnot : ∀ j, (i, j) ∉ s.opened) :
    (r.next s t c).heard i = [] ∧ (r.next s t c).done i = [] := by
  have hlive : s.live (.tcp i) ≠ true := fun h => by
    obtain ⟨j, hij⟩ := TcpServer.live_tcp.1 h
    exact hnot j hij
  simp only [next, if_neg hlive, and_self]

end

/-! ## Sessions -/

/-- A connection as it is accepted. -/
structure Fresh (conn : Connection) : Prop extends NewConnection conn, JustCreated conn where
  readCap : conn.readBuf.cap = bufferRunSize

theorem Created.fresh {live : List Allocation} {a : MemoryArena} {conn : Connection} {r w : Nat}
    (h : Created live a conn r w) : Fresh conn :=
  { h.justCreated with empty := h.readEmpty, readCap := h.readCap }

/-- The event of a session that a call is, whatever the server holds then. -/
def HandlerCall.event (c : HandlerCall) (current : Nat) : SessionEvent :=
  match c.kind with
  | .onRead => .read current c.env
  | .onWrite | .onError => .write current c.env

/-- The call of an error handler is no event of a session, and ends it. -/
def HandlerCall.events (c : HandlerCall) (current : Nat) : List SessionEvent :=
  if c.kind = .onError then [] else [c.event current]

/-- The events of a session are these calls, and work on other connections. -/
inductive Hears : List SessionEvent → List HandlerCall → Prop
  | none : Hears [] []
  | others {es : List SessionEvent} {cs : List HandlerCall} (arena : MemoryArena)
      (ctxs : Nat → HttpContext) (cache : RouterCache) :
      Hears es cs → Hears (es ++ [.others arena ctxs cache]) cs
  | call {es : List SessionEvent} {cs : List HandlerCall} (c : HandlerCall) (current : Nat) :
      Hears es cs → Hears (es ++ c.events current) (cs ++ [c])

/-- The calls on a connection as a session of it alone. -/
def sessionEvents (cs : List HandlerCall) : List SessionEvent := cs.flatMap fun c => c.events 0

theorem stream_append (es es' : List SessionEvent) : stream (es ++ es') = stream es ++ stream es' :=
  List.flatMap_append

theorem completions_append (first : List Byte) (es es' : List SessionEvent) :
    ∀ got, completions first got (es ++ es') =
      completions first got es + completions first (got ++ stream es) es' := by
  induction es with
  | nil =>
    intro got
    rw [List.nil_append, stream, List.flatMap_nil, List.append_nil, completions, Nat.zero_add]
  | cons e es ih =>
    intro got
    have hstream : got ++ stream (e :: es) = got ++ e.bytes ++ stream es := by
      simp only [stream, List.flatMap_cons, List.append_assoc]
    rw [List.cons_append, completions_cons, ih, completions_cons first got e es, hstream,
      Nat.add_assoc]

/-- What the server holds besides the connection is not heard. -/
theorem HandlerCall.events_heard (c : HandlerCall) (current : Nat) :
    stream (c.events current) = stream (c.events 0) ∧
      ∀ first got, completions first got (c.events current) = completions first got (c.events 0) := by
  unfold events event
  cases c.kind with
  | onRead => exact ⟨rfl, fun _ _ => rfl⟩
  | onWrite => exact ⟨rfl, fun _ _ => rfl⟩
  | onError => exact ⟨rfl, fun _ _ => rfl⟩

theorem sessionEvents_append (cs cs' : List HandlerCall) :
    sessionEvents (cs ++ cs') = sessionEvents cs ++ sessionEvents cs' := List.flatMap_append

theorem sessionEvents_single (c : HandlerCall) : sessionEvents [c] = c.events 0 := List.append_nil _

namespace Hears

variable {es : List SessionEvent} {cs : List HandlerCall}

theorem stream_eq (h : Hears es cs) : stream es = stream (sessionEvents cs) := by
  induction h with
  | none => rfl
  | others arena ctxs cache _ ih =>
    rw [stream_append, ih]
    exact List.append_nil _
  | call c current _ ih =>
    rw [sessionEvents_append, sessionEvents_single, stream_append, stream_append, ih,
      (c.events_heard current).1]

theorem completions_eq (h : Hears es cs) (first got : List Byte) :
    completions first got es = completions first got (sessionEvents cs) := by
  induction h with
  | none => rfl
  | others arena ctxs cache _ ih =>
    rw [completions_append, ih]
    rfl
  | call c current hears ih =>
    rw [sessionEvents_append, sessionEvents_single, completions_append, completions_append, ih,
      hears.stream_eq, (c.events_heard current).2]

end Hears

/-- The session `es` of a connection alone, from its start, ends where the server is. -/
structure SessionOf (parse : Parser) (s : TcpServer) (i : Nat) (heard : List HandlerCall)
    (done : List Action) (start : Handling) (es : List SessionEvent) (h : Handling) : Prop where
  fresh : Fresh start.conn
  idle : start.trace = []
  run : run (sessionStep parse s.maxConnections) start es = some h
  heard : Hears es heard
  done : h.trace = done
  conn : h.conn = s.connArray i
  own : ∀ p, (s.connArray i).protocolCtx = some p → h.ctxs p = s.ctxs p
  inv : SessionInv bufferRunSize (stream es) h
  inside : (stream es).length ≤ dataInRun

/-- A connection accepted by the server is in a session of its own. -/
def InSession (parse : Parser) (s : TcpServer) (i : Nat) (heard : List HandlerCall)
    (done : List Action) : Prop :=
  ∃ start es h, SessionOf parse s i heard done start es h

/-- A step has nothing to do with connection `k`. -/
structure LeftAlone (s t : TcpServer) (k : Nat) : Prop where
  conn : t.connArray k = s.connArray k
  own : ∀ p, (s.connArray k).protocolCtx = some p → t.ctxs p = s.ctxs p
  max : t.maxConnections = s.maxConnections

theorem InSession.leftAlone {parse : Parser} {s t : TcpServer} {i : Nat}
    {heard : List HandlerCall} {done : List Action} (h : InSession parse s i heard done)
    (ha : LeftAlone s t i) : InSession parse t i heard done := by
  obtain ⟨start, es, g, hs⟩ := h
  refine ⟨start, es, g, hs.fresh, hs.idle, ?_, hs.heard, hs.done, ?_, ?_, hs.inv, hs.inside⟩
  · rw [ha.max]
    exact hs.run
  · rw [ha.conn]
    exact hs.conn
  · rw [ha.conn]
    intro p hp
    rw [ha.own p hp]
    exact hs.own p hp

/-! ## What a read takes -/

/-- A read that leaves room in the buffer has cut nothing off. -/
theorem taken_fits {cap : Nat} (os : List RecvOutcome) :
    ∀ len, len + (received cap len os).length < cap → len + (taken os).length ≤ cap := by
  induction os with
  | nil =>
    intro len hroom
    exact hroom.le
  | cons o os ih =>
    intro len hroom
    cases o with
    | wouldBlock | endOfStream | failed => exact hroom.le
    | chunk bs =>
      by_cases hbs : bs = []
      · simp only [taken, if_pos hbs, List.length_nil]
        omega
      · simp only [received] at hroom
        have hwhole : bs.length ≤ cap - len := by
          by_contra hcut
          have hlen : (bs.take (cap - len)).length = cap - len :=
            List.length_take_of_le (Nat.le_of_not_ge hcut)
          split at hroom
          · rename_i hnil
            rw [hnil, List.length_nil] at hlen
            omega
          · rw [List.length_append, hlen] at hroom
            omega
        rw [List.take_of_length_le hwhole, if_neg hbs, List.length_append] at hroom
        have hrest := ih (len + bs.length) (by omega)
        simp only [taken, if_neg hbs, List.length_append]
        omega

/-- A read event that keeps its connection leaves in the buffer what it has received. -/
theorem tcpOnRead_received {parse : Parser} {current max : Nat} {h h' : Handling}
    (hread : tcpOnRead parse current max h = .ok (h', .keep)) :
    h'.conn.readBuf = recvLoop h.conn.readBuf h.env.recvs := by
  have hrecv : Receives h.conn h.received.conn →
      h.received.conn.readBuf = recvLoop h.conn.readBuf h.env.recvs := by
    intro hrecv
    simp only [Handling.received, connectionRecv, if_neg (Ne.symm hrecv.room), if_neg hrecv.fits]
  have hcases := tcpOnRead_cases hread
  generalize hr : (h', Verdict.keep) = r at hcases
  cases hcases with
  | unread | unparsed | refused => cases hr
  | incomplete ctx h₁ v hreceives hparses =>
    cases hr
    rw [hparses.conn]
    exact hrecv hreceives
  | accepted ctx h₁ g hreceives hparses _ _ _ _ hanswered =>
    have hlogged : h' = g.log (.epollMod g.conn.fd true) := congrArg Prod.fst hr
    have hkept : h'.conn.readBuf = h₁.conn.readBuf := by
      rw [hlogged, Handling.log, hanswered.conn]
    rw [hparses.conn] at hkept
    exact hkept.trans (hrecv hreceives)

/-! ## A call on its own connection -/

/-- The handler that a call of a tcp context runs. -/
def HandlerCall.handle (parse : Parser) (current max : Nat) (c : HandlerCall) (h : Handling) :
    Except Fault (Handling × Verdict) :=
  match c.kind with
  | .onRead => tcpOnRead parse current max h
  | .onWrite | .onError => tcpOnWrite current max h

section

variable {parse : Parser} {c : HandlerCall} {current max : Nat} {h h' : Handling}

theorem HandlerCall.handle_behind (t : List Action) :
    c.handle parse current max (h.behind t) = resultBehind t (c.handle parse current max h) := by
  unfold handle
  cases c.kind with
  | onRead => exact tcpOnRead_behind t current max h parse
  | onWrite | onError => exact tcpOnWrite_behind t current max h

theorem HandlerCall.event_step {g : Handling} (hg : { h with env := c.env } = g)
    (hcall : c.handle parse current max g = .ok (h', .keep)) :
    sessionStep parse max h (c.event current) = some h' := by
  rw [← hg] at hcall
  unfold handle at hcall
  unfold event
  cases hkind : c.kind with
  | onRead =>
    rw [hkind] at hcall
    simp only at hcall
    simp only [sessionStep, hcall]
  | onWrite | onError =>
    rw [hkind] at hcall
    simp only at hcall
    simp only [sessionStep, hcall]

/-- What the call leaves is what has arrived, if the read buffer stays inside its run. -/
theorem HandlerCall.handle_inv {got : List Byte} (inv : SessionInv bufferRunSize got h)
    (henv : h.env = c.env) (hinside : c.kind = .onRead → h'.conn.readBuf.len ≤ dataInRun)
    (hcall : c.handle parse current max h = .ok (h', .keep)) :
    SessionInv bufferRunSize (got ++ (c.event current).bytes) h' := by
  unfold handle at hcall
  unfold event
  cases hkind : c.kind with
  | onRead =>
    rw [hkind] at hcall
    have hlen := hinside hkind
    rw [tcpOnRead_received hcall, recvLoop_eq] at hlen
    have hroom : h.conn.readBuf.len + (received bufferRunSize h.conn.readBuf.len h.env.recvs).length <
        bufferRunSize := by
      rw [inv.cap] at hlen
      exact lt_of_le_of_lt hlen (by decide)
    have hfit := taken_fits h.env.recvs _ hroom
    rw [← Buffer.bytes_length, inv.bytes] at hfit
    rw [← henv]
    exact (tcpOnRead_keep inv hfit hcall).1
  | onWrite | onError =>
    rw [hkind] at hcall
    simp only [SessionEvent.bytes, List.append_nil]
    exact (tcpOnWrite_keep inv hcall).1

end

theorem resultBehind_ok {α : Type} {t : List Action} {r : Except Fault (Handling × α)}
    {h : Handling} {a : α} (hr : resultBehind t r = .ok (h, a)) :
    ∃ g, r = .ok (g, a) ∧ h = g.behind t := by
  cases r with
  | error f => cases hr
  | ok x =>
    cases hr
    exact ⟨x.1, rfl, rfl⟩

section

variable {parse : Parser} {s : TcpServer} {i : Nat} {heard : List HandlerCall}
  {done : List Action} {start h : Handling} {es : List SessionEvent}

/-- What a handler of connection `i` works on, with nothing done before. -/
def TcpServer.bare (s : TcpServer) (i : Nat) (env : Env) : Handling :=
  { s.handling i env with trace := [] }

theorem TcpServer.handling_bare (s : TcpServer) (i : Nat) (env : Env) :
    s.handling i env = (s.bare i env).behind s.trace := by
  simp only [bare, Handling.behind, handling, List.append_nil]

/-- The handling once the server has worked on other connections. -/
def Handling.meanwhile (h : Handling) (s : TcpServer) : Handling :=
  { h with
    arena := s.memArena
    cache := s.cache
    ctxs := fun p => if h.conn.protocolCtx = some p then h.ctxs p else s.ctxs p }

/-- Then the session stands where the server does. -/
theorem SessionOf.caught_up (hs : SessionOf parse s i heard done start es h) (env : Env) :
    { h.meanwhile s with env := env } = (s.bare i env).behind done := by
  have hctxs : (fun p => if h.conn.protocolCtx = some p then h.ctxs p else s.ctxs p) = s.ctxs := by
    funext p
    split
    · rename_i hp
      exact hs.own p (hs.conn ▸ hp)
    · rfl
  rw [Handling.meanwhile, hctxs]
  simp only [hs.conn, hs.done, TcpServer.bare, Handling.behind, TcpServer.handling,
    List.append_nil]

/-- A call that keeps the connection goes on with its session. -/
theorem InSession.called {c : HandlerCall} {h' : Handling} (hs : InSession parse s i heard done)
    (hkind : c.kind ≠ .onError)
    (hcall : c.handle parse s.currentConnections s.maxConnections (s.handling i c.env) =
      .ok (h', .keep))
    (hinside : c.kind = .onRead → h'.conn.readBuf.len ≤ dataInRun) :
    InSession parse (s.absorb i h') i (heard ++ [c]) (done ++ h'.trace.drop s.trace.length) := by
  obtain ⟨start, es, h, hs⟩ := hs
  rw [TcpServer.handling_bare, HandlerCall.handle_behind] at hcall
  obtain ⟨g, hbare, rfl⟩ := resultBehind_ok hcall
  have hserved : sessionStep parse s.maxConnections h (.others s.memArena s.ctxs s.cache) =
      some (h.meanwhile s) := rfl
  have hcaught := hs.caught_up c.env
  have hnow : c.handle parse s.currentConnections s.maxConnections ((s.bare i c.env).behind done) =
      .ok (g.behind done, .keep) := by
    rw [HandlerCall.handle_behind, hbare]
    rfl
  have hinv : SessionInv bufferRunSize (stream es) ((s.bare i c.env).behind done) := by
    rw [← hcaught]
    refine ⟨hs.inv.bytes, hs.inv.cap, fun ctx hctx => ?_⟩
    have hown : h.conn.protocolCtx = some ctx := hctx
    simp only [Handling.meanwhile, if_pos hown]
    exact hs.inv.resting ctx hown
  have hroom : c.kind = .onRead → (g.behind done).conn.readBuf.len ≤ dataInRun := hinside
  have hafter := HandlerCall.handle_inv hinv rfl hroom hnow
  have hlast := @HandlerCall.event_step parse c _ _ (h.meanwhile s) _ _ hcaught hnow
  have hstream : stream (es ++ [.others s.memArena s.ctxs s.cache] ++
      [c.event s.currentConnections]) = stream es ++ (c.event s.currentConnections).bytes := by
    have hnothing : stream [.others s.memArena s.ctxs s.cache] = [] := rfl
    have hbytes : stream [c.event s.currentConnections] = (c.event s.currentConnections).bytes :=
      List.append_nil _
    rw [stream_append, stream_append, hnothing, List.append_nil, hbytes]
  refine ⟨start, es ++ [.others s.memArena s.ctxs s.cache] ++ [c.event s.currentConnections],
    g.behind done, hs.fresh, hs.idle, ?_, ?_, ?_, ?_, ?_, hstream ▸ hafter, ?_⟩
  · exact run_snoc (run_snoc hs.run hserved) hlast
  · have hevents : c.events s.currentConnections = [c.event s.currentConnections] := if_neg hkind
    exact hevents ▸ .call c _ (.others _ _ _ hs.heard)
  · rw [Handling.behind_trace, Handling.behind_trace, List.drop_left]
  · simp only [TcpServer.absorb, ↓reduceIte]
    rfl
  · intro p _
    rfl
  · rw [hstream]
    cases hkind' : c.kind with
    | onRead =>
      rw [← hafter.bytes, Buffer.bytes_length]
      exact hroom hkind'
    | onWrite | onError =>
      have hnothing : (c.event s.currentConnections).bytes = [] := by
        simp only [HandlerCall.event, hkind', SessionEvent.bytes]
      rw [hnothing, List.append_nil]
      exact hs.inside

end

/-! ## Accepting -/

/-- Connections were accepted, and nothing else has changed. -/
structure Grown (s t : TcpServer) : Prop where
  max : t.maxConnections = s.maxConnections
  ctxs : t.ctxs = s.ctxs
  old : ∀ k l, (k, l) ∈ s.opened → (k, l) ∈ t.opened ∧ t.connArray k = s.connArray k
  new : ∀ k l, (k, l) ∈ t.opened →
    (k, l) ∈ s.opened ∨ (∀ l', (k, l') ∉ s.opened) ∧ Fresh (t.connArray k)

section

variable {s t u : TcpServer}

theorem Grown.of_eq (hmax : t.maxConnections = s.maxConnections) (hctxs : t.ctxs = s.ctxs)
    (hopened : t.opened = s.opened) (hconns : t.connArray = s.connArray) : Grown s t := by
  refine ⟨hmax, hctxs, fun k l hkl => ⟨?_, ?_⟩, fun k l hkl => .inl ?_⟩
  · rw [hopened]
    exact hkl
  · rw [hconns]
  · rw [← hopened]
    exact hkl

theorem Grown.trans (a : Grown s t) (b : Grown t u) : Grown s u := by
  refine ⟨b.max.trans a.max, b.ctxs.trans a.ctxs, fun k l hkl => ?_, fun k l hkl => ?_⟩
  · obtain ⟨hmem, hconn⟩ := a.old k l hkl
    obtain ⟨hmem', hconn'⟩ := b.old k l hmem
    exact ⟨hmem', hconn'.trans hconn⟩
  · obtain hmem | ⟨hnot, hfresh⟩ := b.new k l hkl
    · obtain hold | ⟨hnot, hfresh⟩ := a.new k l hmem
      · exact .inl hold
      · refine .inr ⟨hnot, ?_⟩
        rw [(b.old k l hmem).2]
        exact hfresh
    · exact .inr ⟨fun l' hl' => hnot l' (a.old k l' hl').1, hfresh⟩

variable {lost half : List (Nat × Nat)} {now i j fd : Nat}

theorem Taken.grown (h : Taken s t i j) : Grown s t := by
  rw [h.rest]
  exact .of_eq rfl rfl rfl rfl

theorem cleanIdx_grown {newIdx newIdx2 : Option Nat} (h : cleanIdx s newIdx newIdx2 = .ok t) :
    Grown s t := by
  rw [(cleanIdx_ok h).2.2]
  exact .of_eq rfl rfl rfl rfl

/-- A connection is created in a slot that no other has. -/
theorem ConnCreated.grown (h : CtxInv s) (inv : SlotInv tidy s [] []) (htaken : Taken s t i j)
    (hcreated : ConnCreated now t u i j fd) : Grown s u := by
  obtain ⟨ret, hcreate, hret⟩ := hcreated.create
  have hopened : u.opened = (i, j) :: s.opened := by rw [hcreated.rest, htaken.rest]
  have hconns : t.connArray = s.connArray := by rw [htaken.rest]
  have harena : t.memArena = s.memArena := by rw [htaken.rest]
  have hfree := (inv.fresh htaken).1
  have hfresh : Fresh (u.connArray i) := by
    rw [harena] at hcreate
    obtain ⟨hfull, -⟩ | ⟨-, -, r, w, hc⟩ := connectionCreate_spec h.arena hcreate
    · exact absurd (by rw [hfull]; decide) hret
    · exact hc.fresh
  refine ⟨?_, ?_, fun k l hkl => ⟨?_, ?_⟩, fun k l hkl => ?_⟩
  · rw [hcreated.rest, htaken.rest]
  · rw [hcreated.rest, htaken.rest]
  · rw [hopened]
    exact List.mem_cons_of_mem _ hkl
  · rw [hcreated.others k (fun he => hfree l (he ▸ hkl)), hconns]
  · rw [hopened] at hkl
    obtain heq | hold := List.mem_cons.1 hkl
    · cases heq
      exact .inr ⟨hfree, hfresh⟩
    · exact .inl hold

theorem OpenTurn.grown (h : CtxInv s) (inv : SlotInv tidy s [] []) (hturn : OpenTurn now s t) :
    Grown s t := by
  obtain ⟨i, j, fd, timeFd, s₁, s₂, htaken, hcreated, rfl⟩ := hturn
  exact (hcreated.grown h inv htaken).trans (.of_eq rfl rfl rfl rfl)

theorem LastTurn.grown {outs : List AcceptOutcome} (h : CtxInv s) (inv : SlotInv tidy s [] [])
    (hturn : LastTurn now outs s t) : Grown s t := by
  cases hturn with
  | limit newIdx newIdx2 _ _ hclean => exact cleanIdx_grown hclean
  | exhausted newIdx newIdx2 s₁ t _ _ _ hrest _ hclean =>
    have htaken : Grown s s₁ := by
      rw [hrest]
      exact .of_eq rfl rfl rfl rfl
    exact htaken.trans (cleanIdx_grown hclean)
  | returned i j s₁ t fd htaken hclean =>
    have hclosed : Grown s₁ (closeAccepted s₁ fd) := by
      rw [closeAccepted_eq]
      exact .of_eq rfl rfl rfl rfl
    exact (htaken.grown.trans hclosed).trans (cleanIdx_grown hclean)
  | noMemory i j fd s₁ a conn ret htaken => exact htaken.grown.trans (.of_eq rfl rfl rfl rfl)
  | halfOpen i j fd timer s₁ s₂ htaken hcreated =>
    exact (hcreated.grown h inv htaken).trans (.of_eq rfl rfl rfl rfl)

theorem listenLoop_grown {outs : List AcceptOutcome} (h : CtxInv s) (inv : SlotInv tidy s [] [])
    (hloop : listenLoop now outs s none none = .ok t) : Grown s t := by
  obtain rfl | ⟨u, ⟨hctx, hslots, hgrown⟩, hlast, -⟩ := listenLoop_last hloop
    (P := fun u => CtxInv u ∧ SlotInv tidy u [] [] ∧ Grown s u)
    ⟨h, inv, .of_eq rfl rfl rfl rfl⟩ fun ⟨hctx, hslots, hgrown⟩ hturn =>
      ⟨hctx.openTurn hslots hturn, hslots.openTurn hturn, hgrown.trans (hturn.grown hctx hslots)⟩
  · exact .of_eq rfl rfl rfl rfl
  · exact hgrown.trans (hlast.grown hctx hslots)

end

/-- A new connection starts a session. -/
theorem Fresh.inSession {parse : Parser} {s : TcpServer} {i : Nat} (h : Fresh (s.connArray i)) :
    InSession parse s i [] [] := by
  have hempty : (s.connArray i).readBuf.bytes = [] :=
    List.eq_nil_of_length_eq_zero ((Buffer.bytes_length _).trans h.empty)
  refine ⟨s.bare i .opens, [], s.bare i .opens, h, rfl, rfl, .none, rfl, rfl, fun _ _ => rfl, ?_,
    Nat.zero_le _⟩
  refine ⟨hempty, h.readCap, fun ctx hctx => ?_⟩
  have hnone : (s.connArray i).protocolCtx = some ctx := hctx
  rw [h.toNewConnection.ctx] at hnone
  cases hnone

/-! ## Other connections -/

section

variable {parse : Parser} {s t : TcpServer} {c : HandlerCall} {lost half : List (Nat × Nat)}
  {i j k l : Nat} {h' : Handling}

/-- A connection shares its context with no other. -/
theorem Accounts.own_apart {h : Handling} {rest : List Allocation} {ctxs : List Nat} {p q : Nat}
    (ha : Accounts h rest ctxs) (hp : h.conn.protocolCtx = some p) (hq : q ∈ ctxs) : p ≠ q := by
  have hown : ctxAllocation p ∈ holdings h.conn := by
    rw [holdings, hp]
    exact List.mem_cons_of_mem _ (List.mem_cons_of_mem _ List.mem_cons_self)
  have hapart := (List.pairwise_append.1 ha.arena.apart).2.2 _ hown _ (ha.placed q hq)
  rintro rfl
  simp only [ctxAllocation, Allocation.Apart, Allocation.hi, Allocation.lo, sizeofHttpContext]
    at hapart
  omega

/-- What a handler has done to connection `i` is nothing to the others. -/
theorem Accounts.leftAlone (ha : Accounts h' (allocations s.connArray (CtxInv.others s i j))
      (contexts s.connArray (CtxInv.others s i j)))
    (hothers : ∀ p, h'.conn.protocolCtx ≠ some p → h'.ctxs p = s.ctxs p)
    (hkl : (k, l) ∈ s.opened) (hne : k ≠ i) (hconn : t.connArray k = s.connArray k)
    (hctxs : t.ctxs = h'.ctxs) (hmax : t.maxConnections = s.maxConnections) : LeftAlone s t k := by
  refine ⟨hconn, fun p hp => ?_, hmax⟩
  have hplaced : p ∈ contexts s.connArray (CtxInv.others s i j) := by
    refine List.mem_flatMap.2 ⟨(k, l), List.mem_filter.2 ⟨hkl, ?_⟩, ?_⟩
    · exact decide_eq_true fun he => hne (congrArg Prod.fst he)
    · rw [hp]
      exact List.mem_singleton_self p
  rw [hctxs]
  exact hothers p fun hown => ha.own_apart hown hplaced rfl

/-- A connection was deleted, and the others are as they were. -/
structure Removed (s t : TcpServer) (i : Nat) : Prop where
  max : t.maxConnections = s.maxConnections
  ctxs : t.ctxs = s.ctxs
  conns : ∀ k, k ≠ i → t.connArray k = s.connArray k
  opened : ∀ k l, (k, l) ∈ t.opened → (k, l) ∈ s.opened ∧ k ≠ i

theorem delete_removed {tcpEvent timeEvent : Option Nat} {env : Env} (inv : SlotInv tidy s lost half)
    (hdel : tcpserverDeleteTcpAndTimer s tcpEvent timeEvent env = .ok t)
    (hopen : ∀ i j, tcpEvent = some i → timeEvent = some j → (i, j) ∈ s.opened) :
    ∃ i j, tcpEvent = some i ∧ timeEvent = some j ∧ Removed s t i := by
  obtain ⟨i, j, cleared, hi, hj, -, hdeleted⟩ := delete_spec hdel
  refine ⟨i, j, hi, hj, hdeleted.max, delete_ctxs hdel, hdeleted.others, fun k l hkl => ?_⟩
  rw [hdeleted.opened] at hkl
  obtain ⟨hmem, hne⟩ := List.mem_filter.1 hkl
  refine ⟨hmem, ?_⟩
  rintro rfl
  rw [inv.partner hmem (hopen _ _ hi hj)] at hne
  exact of_decide_eq_true hne rfl

/-- Following a verdict keeps the connection and its work, or deletes it. -/
theorem settle_removed {v : Verdict} (inv : SlotInv tidy s lost half)
    (hhandler : h'.conn.protocolHandler = (s.connArray i).protocolHandler)
    (hij : (i, j) ∈ s.opened) (hsettle : settle s i (h', v) = .ok t) :
    v = .keep ∧ t = s.absorb i h' ∨ Removed (s.absorb i h') t i := by
  unfold settle at hsettle
  split at hsettle
  · rename_i hv
    cases hsettle
    exact .inl ⟨hv, rfl⟩
  · have inv' : SlotInv tidy (s.absorb i h') lost half := inv.absorb hhandler
    obtain ⟨i', j', hi', -, hremoved⟩ := delete_removed inv' hsettle fun a b ha hb => by
      cases ha
      have hpartner := inv.timeEvent i j hij
      rw [show (s.absorb i h').eventTcpArray = s.eventTcpArray from rfl, hpartner] at hb
      cases hb
      exact hij
    cases hi'
    exact .inr hremoved

/-! ## Every handler call -/

/-- What a call of a tcp context comes to. -/
inductive TcpTurn (parse : Parser) (s : TcpServer) (c : HandlerCall) (i : Nat) : TcpServer → Prop
  | worked (h : Handling) (v : Verdict) (t : TcpServer) : c.kind ≠ .onError →
      c.handle parse s.currentConnections s.maxConnections (s.handling i c.env) = .ok (h, v) →
      (c.kind = .onRead → h.conn.readBuf.len ≤ dataInRun) → settle s i (h, v) = .ok t →
      TcpTurn parse s c i t
  | failed (t : TcpServer) : c.kind = .onError →
      tcpserverDeleteTcpAndTimer s (some i) (s.eventTcpArray i).timeEvent c.env = .ok t →
      TcpTurn parse s c i t

theorem dispatch_tcp (hctx : c.context = .tcp i) (hdisp : dispatch parse s c = .ok t) :
    TcpTurn parse s c i t := by
  unfold dispatch at hdisp
  rw [hctx] at hdisp
  cases hkind : c.kind with
  | onRead =>
    rw [hkind] at hdisp
    simp only [tcpserverTcpOnRead] at hdisp
    split at hdisp
    · cases hdisp
    · rename_i r hread
      split at hdisp
      · cases hdisp
      · rename_i hlen
        refine .worked r.1 r.2 t (by rw [hkind]; exact HandlerKind.noConfusion) ?_
          (fun _ => not_lt.1 hlen) hdisp
        simp only [HandlerCall.handle, hkind]
        exact hread
  | onWrite =>
    rw [hkind] at hdisp
    simp only [tcpserverTcpOnWrite] at hdisp
    split at hdisp
    · cases hdisp
    · rename_i r hwrite
      refine .worked r.1 r.2 t (by rw [hkind]; exact HandlerKind.noConfusion) ?_
        (fun hread => by rw [hkind] at hread; cases hread) hdisp
      simp only [HandlerCall.handle, hkind]
      exact hwrite
  | onError =>
    rw [hkind] at hdisp
    exact .failed t hkind hdisp

theorem HandlerCall.handle_gains {current max : Nat} {h : Handling} {v : Verdict}
    (hrespects : c.kind = .onRead → ¬ Rejects parse h)
    (hcall : c.handle parse current max h = .ok (h', v)) : Gains h h' := by
  unfold handle at hcall
  cases hkind : c.kind with
  | onRead =>
    rw [hkind] at hcall
    obtain hgains | ⟨-, hrejects, -⟩ := tcpOnRead_spec hcall
    · exact hgains
    · exact absurd hrejects (hrespects hkind)
  | onWrite | onError =>
    rw [hkind] at hcall
    exact .inl (tcpOnWrite_spec hcall)

theorem HandlerCall.handle_others {current max : Nat} {h : Handling} {v : Verdict}
    (hcall : c.handle parse current max h = .ok (h', v)) {p : Nat}
    (hp : h'.conn.protocolCtx ≠ some p) : h'.ctxs p = h.ctxs p := by
  unfold handle at hcall
  cases hkind : c.kind with
  | onRead =>
    rw [hkind] at hcall
    exact tcpOnRead_others hcall hp
  | onWrite | onError =>
    rw [hkind] at hcall
    refine tcpOnWrite_others hcall ?_
    rw [← (tcpOnWrite_spec hcall).hold.ctx]
    exact hp

/-- A deleted context ends the run where it is called again. -/
theorem TcpTurn.opened (hturn : TcpTurn parse s c i t) (hsettled : Settled s (.tcp i)) :
    ∃ j, (i, j) ∈ s.opened := by
  obtain hopen | ⟨-, htime, hhandler⟩ := hsettled
  · exact hopen
  · exfalso
    cases hturn with
    | worked h v t _ hcall _ hsettle =>
      obtain ⟨rfl, -⟩ | ⟨-, j, cleared, hj, -⟩ := settle_spec hsettle
      · have hused : (s.handling i c.env).conn.protocolHandler = true := by
          unfold HandlerCall.handle at hcall
          cases hkind : c.kind with
          | onRead =>
            rw [hkind] at hcall
            exact tcpOnRead_handler hcall
          | onWrite | onError =>
            rw [hkind] at hcall
            exact tcpOnWrite_handler hcall
        have hsame : (s.connArray i).protocolHandler = true := hused
        rw [hhandler] at hsame
        cases hsame
      · rw [htime] at hj
        cases hj
    | failed t _ hdel =>
      obtain ⟨i', j, cleared, -, hj, -⟩ := delete_spec hdel
      rw [htime] at hj
      cases hj

/-- The sessions of all open connections. -/
def AllInSession (parse : Parser) (s : TcpServer) (r : Record) : Prop :=
  ∀ i j, (i, j) ∈ s.opened → InSession parse s i (r.heard i) (r.done i)

variable {r : Record}

/-- A call of another context leaves the connections that stay open alone. -/
theorem AllInSession.removed (hall : AllInSession parse s r) (hremoved : Removed s t i)
    (hctx : ∀ k l, (k, l) ∈ t.opened → c.context ≠ .tcp k) :
    AllInSession parse t (r.next s t c) := by
  intro k l hkl
  obtain ⟨hmem, hne⟩ := hremoved.opened k l hkl
  obtain ⟨hheard, hdone⟩ := Record.next_other (r := r) (t := t) hmem (hctx k l hkl)
  rw [hheard, hdone]
  refine (hall k l hmem).leftAlone ⟨hremoved.conns k hne, fun p _ => ?_, hremoved.max⟩
  rw [hremoved.ctxs]

/-- A call of a tcp context goes on with one session, or ends it. -/
theorem AllInSession.turn (hall : AllInSession parse s r) (h : CtxInv s)
    (inv : SlotInv tidy s lost half) (hsettled : Settled s (.tcp i)) (hctx : c.context = .tcp i)
    (hrespects : Respects parse s c) (hturn : TcpTurn parse s c i t) :
    AllInSession parse t (r.next s t c) := by
  have hother : ∀ k, k ≠ i → c.context ≠ .tcp k := fun k hk he => by
    rw [hctx] at he
    cases he
    exact hk rfl
  obtain ⟨j, hij⟩ := hturn.opened hsettled
  cases hturn with
  | worked h' v t hkind hcall hinside hsettle =>
    have hgains := HandlerCall.handle_gains (hrespects i hctx) hcall
    have haccounts := (h.holds inv hij c.env).gains hgains
    have hothers : ∀ p, h'.conn.protocolCtx ≠ some p → h'.ctxs p = s.ctxs p := fun p hp =>
      HandlerCall.handle_others hcall hp
    have halone : ∀ u k l, (k, l) ∈ s.opened → k ≠ i → u.connArray k = s.connArray k →
        u.ctxs = h'.ctxs → u.maxConnections = s.maxConnections → LeftAlone s u k :=
      fun u k l hkl hne => haccounts.leftAlone hothers hkl hne
    obtain ⟨rfl, rfl⟩ | hremoved := settle_removed inv hgains.handler hij hsettle
    · intro k l hkl
      have hmem : (k, l) ∈ s.opened := hkl
      by_cases hk : k = i
      · rw [hk]
        obtain ⟨hheard, hdone⟩ := Record.next_own (r := r) (t := s.absorb i h') hij hctx
        rw [hheard, hdone]
        exact (hall i j hij).called hkind hcall hinside
      · obtain ⟨hheard, hdone⟩ := Record.next_other (r := r) (t := s.absorb i h') hmem (hother k hk)
        rw [hheard, hdone]
        refine (hall k l hmem).leftAlone (halone _ k l hmem hk ?_ rfl rfl)
        simp only [TcpServer.absorb, if_neg hk]
    · intro k l hkl
      obtain ⟨hkept, hk⟩ := hremoved.opened k l hkl
      have hmem : (k, l) ∈ s.opened := hkept
      obtain ⟨hheard, hdone⟩ := Record.next_other (r := r) (t := t) hmem (hother k hk)
      rw [hheard, hdone]
      refine (hall k l hmem).leftAlone (halone t k l hmem hk ?_ hremoved.ctxs hremoved.max)
      rw [hremoved.conns k hk]
      simp only [TcpServer.absorb, if_neg hk]
  | failed t _ hdel =>
    obtain ⟨i', j', hi', -, hremoved⟩ := delete_removed inv hdel fun a b ha hb => by
      cases ha
      rw [inv.timeEvent i j hij] at hb
      cases hb
      exact hij
    cases hi'
    exact hall.removed hremoved fun k l hkl => hother k (hremoved.opened k l hkl).2

/-- Every handler call keeps the open connections in their sessions. -/
theorem dispatch_sessions (hall : AllInSession parse s r) (h : CtxInv s)
    (inv : SlotInv tidy s lost half) (hsettled : Settled s c.context)
    (hrespects : Respects parse s c) (hdisp : dispatch parse s c = .ok t) : AllInSession parse t (r.next s t c) := by
  by_cases hown : ∃ i, c.context = .tcp i
  · obtain ⟨i, hctx⟩ := hown
    exact hall.turn h inv (hctx ▸ hsettled) hctx hrespects (dispatch_tcp hctx hdisp)
  · have hother : ∀ k, c.context ≠ .tcp k := fun k hk => hown ⟨k, hk⟩
    cases dispatch_runs hdisp with
    | idle | stopped =>
      intro k l hkl
      obtain ⟨hheard, hdone⟩ := Record.next_other (r := r) (t := s) hkl (hother k)
      exact hheard ▸ hdone ▸ (hall k l hkl).leftAlone ⟨rfl, fun _ _ => rfl, rfl⟩
    | listened t hctx hkind hrunning hloop =>
      obtain ⟨rfl, rfl⟩ := inv.halted hrunning
      have hgrown := listenLoop_grown h inv hloop
      intro k l hkl
      obtain hmem | ⟨hnot, hfresh⟩ := hgrown.new k l hkl
      · obtain ⟨hheard, hdone⟩ := Record.next_other (r := r) (t := t) hmem (hother k)
        rw [hheard, hdone]
        refine (hall k l hmem).leftAlone ⟨(hgrown.old k l hmem).2, fun p _ => ?_, hgrown.max⟩
        rw [hgrown.ctxs]
      · obtain ⟨hheard, hdone⟩ := Record.next_new (r := r) (t := t) (c := c) hnot
        rw [hheard, hdone]
        exact hfresh.inSession
    | read i _ _ t hctx => exact absurd hctx (hother i)
    | wrote i _ _ t hctx => exact absurd hctx (hother i)
    | deleted tcpEvent timeEvent t _ hnames hdel =>
      obtain ⟨i, j, -, -, hremoved⟩ := delete_removed inv hdel fun a b ha hb =>
        inv.names_opened hsettled (hnames a b ha hb)
      exact hall.removed hremoved fun k _ _ => hother k

end

/-! ## Every run -/

section

variable {parse : Parser} {s : TcpServer} {l l' : EventLoop} {r : Record}

/-- The sessions hold from the start of the server. -/
theorem loop_invariants (hstart : Started s)
    (hrun : Reaches (graph (recordStep parse)) (fun a e => Undisturbed parse a.1 e)
      (⟨s, []⟩, .empty) (l, r)) :
    (∃ lost half, LoopInv False l lost half) ∧ CtxInv l.server ∧ AllInSession parse l.server r := by
  refine hrun.invariant (fun a => (∃ lost half, LoopInv False a.1 lost half) ∧ CtxInv a.1.server ∧
    AllInSession parse a.1.server a.2) ⟨⟨[], [], hstart.slotInv, by simp⟩, hstart.ctxInv, ?_⟩ ?_
  · intro i j hij
    simp only [hstart.opened, List.not_mem_nil] at hij
  · rintro ⟨l, r⟩ e ⟨l', r'⟩ ⟨⟨lost, half, inv⟩, hctx, hall⟩ hok hstep
    have hloop := recordStep_loop hstep
    obtain ⟨lost', half', inv', -⟩ := loopStep_slots inv False.elim hloop
    refine ⟨⟨lost', half', inv'⟩, loopStep_contexts hctx inv hok hloop, ?_⟩
    cases e with
    | wait returned =>
      obtain ⟨l₁, hwait, heq⟩ := Option.map_eq_some_iff.1 hstep
      cases heq
      simp only [loopStep] at hwait
      split at hwait <;> cases hwait
      exact fun i j hij => (hall i j hij).leftAlone ⟨rfl, fun _ _ => rfl, rfl⟩
    | call c =>
      obtain ⟨l₁, hcall, heq⟩ := Option.map_eq_some_iff.1 hstep
      cases heq
      simp only [loopStep] at hcall
      split at hcall
      · rename_i hmem
        split at hcall <;> cases hcall
        rename_i hdisp
        exact dispatch_sessions hall hctx inv.slots (inv.settled _ hmem) (hok c rfl) hdisp
      · cases hcall

theorem loop_sessions (hstart : Started s)
    (hrun : Reaches (graph (recordStep parse)) (fun a e => Undisturbed parse a.1 e)
      (⟨s, []⟩, .empty) (l, r)) : AllInSession parse l.server r :=
  (loop_invariants hstart hrun).2.2

/-- Every step of the loop has its record. -/
theorem loopStep_record {e : LoopEvent} (hstep : loopStep parse l e = some l') :
    ∃ r', recordStep parse (l, r) e = some (l', r') := by
  cases e with
  | wait returned => exact ⟨r, by simp only [recordStep, hstep, Option.map_some]⟩
  | call c => exact ⟨r.next l.server l'.server c, by simp only [recordStep, hstep, Option.map_some]⟩

theorem run_record {ok : EventLoop → LoopEvent → Prop} (events : List LoopEvent) :
    ∀ {l : EventLoop} {r : Record}, Machine.run (loopStep parse) l events = some l' →
      allowedAlong (loopStep parse) ok l events →
      ∃ r', Machine.run (recordStep parse) (l, r) events = some (l', r') ∧
        allowedAlong (recordStep parse) (fun a e => ok a.1 e) (l, r) events := by
  induction events with
  | nil =>
    intro l r hrun _
    cases hrun
    exact ⟨r, rfl, trivial⟩
  | cons e events ih =>
    intro l r hrun hok
    simp only [Machine.run] at hrun
    split at hrun
    · rename_i l₁ hstep
      obtain ⟨r₁, hrecord⟩ := @loopStep_record parse l l₁ r e hstep
      obtain ⟨r', hrest, hallowed⟩ := ih (r := r₁) hrun (hok.2 l₁ hstep)
      refine ⟨r', ?_, hok.1, ?_⟩
      · simp only [Machine.run, hrecord]
        exact hrest
      · rintro b hb
        rw [hrecord] at hb
        cases hb
        exact hallowed
    · cases hrun

end

/-- **Every open connection is in a session of its own**, in every undisturbed run of the
event loop and whatever the other connections do: the session hears the calls on this
connection and no others, does what they have done, and ends with the connection and its
context as the server has them. -/
theorem connections_run_alone {parse : Parser} {s : TcpServer} {l : EventLoop}
    {events : List LoopEvent} (hstart : Started s)
    (hallowed : allowedAlong (loopStep parse) (Undisturbed parse) ⟨s, []⟩ events)
    (hrun : Machine.run (loopStep parse) ⟨s, []⟩ events = some l) :
    ∃ r, Machine.run (recordStep parse) (⟨s, []⟩, .empty) events = some (l, r) ∧
      ∀ i j, (i, j) ∈ l.server.opened → InSession parse l.server i (r.heard i) (r.done i) := by
  obtain ⟨r, hrecord, hok⟩ := run_record (r := .empty) events hrun hallowed
  exact ⟨r, hrecord, loop_sessions hstart (reaches_of_run hok hrecord)⟩

/-- Two clients are served in turn, and one of them hangs up. -/
def twoClients : List LoopEvent :=
  let read := fun i => LoopEvent.call ⟨.tcp i, .onRead, { Env.opens with recvs := [.chunk hostGet] }, []⟩
  [.wait [.listen], acceptCall [oneClient, oneClient], .wait [.tcp 0, .tcp 1], read 0, read 1,
    .call ⟨.tcp 1, .onError, .opens, []⟩, .wait [.tcp 0], read 0]

theorem connections_run_alone_two : ∃ l,
    Machine.run (loopStep twoRequests) ⟨.fresh 20 24 (by decide), []⟩ twoClients = some l ∧
      ∃ r, Machine.run (recordStep twoRequests) (⟨.fresh 20 24 (by decide), []⟩, .empty) twoClients =
        some (l, r) ∧
          ∀ i j, (i, j) ∈ l.server.opened →
            InSession twoRequests l.server i (r.heard i) (r.done i) := by
  have hsome : (Machine.run (loopStep twoRequests) ⟨.fresh 20 24 (by decide), []⟩
      twoClients).isSome := by decide +kernel
  obtain ⟨l, hrun⟩ := Option.isSome_iff_exists.1 hsome
  have hallowed : allowedAlong (loopStep twoRequests) (Undisturbed twoRequests)
      ⟨.fresh 20 24 (by decide), []⟩ twoClients := by
    decide +kernel
  exact ⟨l, hrun, connections_run_alone (TcpServer.fresh_started (by decide) (by decide)) hallowed hrun⟩

end PingServer
