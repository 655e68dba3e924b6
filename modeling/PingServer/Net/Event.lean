import PingServer.Net.TcpServer
import PingServer.Lib.Machine

/-!
# The event loop

`event.c`: `event_loop_run` dispatches a batch of events, each to one handler of
its context or to two. The server is a machine whose steps are batches.
-/

namespace PingServer

inductive HandlerKind where
  | onRead | onWrite | onError
  deriving DecidableEq, Repr

/-- One call of a handler, with what its system calls will do. -/
structure HandlerCall where
  context : EventContext
  kind : HandlerKind
  env : Env
  accepts : List AcceptOutcome
  deriving DecidableEq, Repr

/-- An entry of `events`. `err` stands for the three error flags. -/
structure EpollEvent where
  context : EventContext
  err : Bool
  inn : Bool
  out : Bool
  inEnv : Env
  outEnv : Env
  accepts : List AcceptOutcome
  deriving DecidableEq, Repr

def EpollEvent.calls (e : EpollEvent) : List HandlerCall :=
  if e.err then [⟨e.context, .onError, e.inEnv, []⟩]
  else
    (if e.inn then [⟨e.context, .onRead, e.inEnv, e.accepts⟩] else []) ++
      (if e.out then [⟨e.context, .onWrite, e.outEnv, []⟩] else [])

/-- Listen and timer contexts have no `on_write`. -/
def dispatch (parse : Parser) (s : TcpServer) (c : HandlerCall) : Except Fault TcpServer :=
  match c.context, c.kind with
  | .listen, .onRead => tcpserverListenOnRead s c.accepts c.env.now
  | .listen, .onWrite => .ok s
  | .listen, .onError => .ok (tcpserverListenOnError s)
  | .tcp i, .onRead => tcpserverTcpOnRead parse s i c.env
  | .tcp i, .onWrite => tcpserverTcpOnWrite s i c.env
  | .tcp i, .onError => tcpserverTcpOnError s i c.env
  | .timer j, .onRead => tcpserverTimeOnRead s j c.env
  | .timer _, .onWrite => .ok s
  | .timer j, .onError => tcpserverTimeOnError s j c.env

def dispatchAll (parse : Parser) : TcpServer → List HandlerCall → Except Fault TcpServer
  | s, [] => .ok s
  | s, c :: cs =>
    match dispatch parse s c with
    | .error f => .error f
    | .ok s => dispatchAll parse s cs

def eventLoopRun (parse : Parser) (s : TcpServer) (events : List EpollEvent) :
    Except Fault TcpServer :=
  dispatchAll parse { s with dead := [] } (events.flatMap EpollEvent.calls)

/-! ## The server as a machine -/

/-- A context that `epoll_wait` can name. -/
def TcpServer.live (s : TcpServer) : EventContext → Bool
  | .listen => true
  | .tcp i => s.opened.any fun c => c.1 == i
  | .timer j => s.opened.any fun c => c.2 == j

/-- A batch, while the server runs; `none` once the run has stopped. -/
def serverStep (parse : Parser) (s : TcpServer) (events : List EpollEvent) : Option TcpServer :=
  if s.running ∧ ∀ e ∈ events, s.live e.context then
    match eventLoopRun parse s events with
    | .ok t => some t
    | .error _ => none
  else none

/-! ## Inside a batch -/

/-- The server while it dispatches: `returned` are the contexts that `epoll_wait`
has named last. -/
structure EventLoop where
  server : TcpServer
  returned : List EventContext

inductive LoopEvent where
  | wait (returned : List EventContext)
  | call (c : HandlerCall)
  deriving DecidableEq, Repr

/-- `epoll_wait` returns, or a handler of a context it has named is called. -/
def loopStep (parse : Parser) (l : EventLoop) : LoopEvent → Option EventLoop
  | .wait returned =>
    if l.server.running ∧ ∀ x ∈ returned, l.server.live x then
      some ⟨{ l.server with dead := [] }, returned⟩
    else none
  | .call c =>
    if c.context ∈ l.returned then
      match dispatch parse l.server c with
      | .ok t => some ⟨t, l.returned⟩
      | .error _ => none
    else none

theorem run_calls {parse : Parser} {returned : List EventContext} (cs : List HandlerCall) :
    ∀ {s t : TcpServer}, (∀ c ∈ cs, c.context ∈ returned) → dispatchAll parse s cs = .ok t →
      Machine.run (loopStep parse) ⟨s, returned⟩ (cs.map .call) = some ⟨t, returned⟩ := by
  induction cs with
  | nil =>
    intro s t _ hall
    cases hall
    rfl
  | cons c cs ih =>
    intro s t hmem hall
    rw [dispatchAll] at hall
    split at hall
    · cases hall
    · rename_i u hdisp
      have hstep : loopStep parse ⟨s, returned⟩ (.call c) = some ⟨u, returned⟩ := by
        simp only [loopStep, if_pos (hmem c List.mem_cons_self), hdisp]
      rw [List.map_cons, Machine.run, hstep]
      exact ih (fun d hd => hmem d (List.mem_cons_of_mem c hd)) hall

theorem EpollEvent.calls_context {e : EpollEvent} {c : HandlerCall} (hc : c ∈ e.calls) :
    c.context = e.context := by
  unfold EpollEvent.calls at hc
  split at hc
  · rw [List.mem_singleton] at hc
    rw [hc]
  · rcases List.mem_append.1 hc with hin | hout
    · split at hin
      · rw [List.mem_singleton] at hin
        rw [hin]
      · cases hin
    · split at hout
      · rw [List.mem_singleton] at hout
        rw [hout]
      · cases hout

/-- A batch is a wait followed by its calls. -/
theorem serverStep_run {parse : Parser} {s t : TcpServer} {events : List EpollEvent}
    {before : List EventContext} (hstep : serverStep parse s events = some t) :
    Machine.run (loopStep parse) ⟨s, before⟩
      (.wait (events.map EpollEvent.context) :: (events.flatMap EpollEvent.calls).map .call) =
        some ⟨t, events.map EpollEvent.context⟩ := by
  unfold serverStep at hstep
  split at hstep
  · rename_i hwait
    split at hstep
    · rename_i u hloop
      cases hstep
      have hlive : ∀ x ∈ events.map EpollEvent.context, s.live x := by
        intro x hx
        obtain ⟨e, he, rfl⟩ := List.mem_map.1 hx
        exact hwait.2 e he
      rw [Machine.run, loopStep, if_pos ⟨hwait.1, hlive⟩]
      refine run_calls _ ?_ hloop
      intro c hc
      obtain ⟨e, he, hce⟩ := List.mem_flatMap.1 hc
      rw [EpollEvent.calls_context hce]
      exact List.mem_map_of_mem he
    · cases hstep
  · cases hstep

end PingServer
