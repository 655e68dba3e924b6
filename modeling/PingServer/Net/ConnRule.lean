import PingServer.Net.SendSafety

/-!
# Invariants of a connection

What `connection_create` establishes and `connection_recv` and `connection_send` keep
holds of every connection in use, in every run of the event loop: nothing else writes
the request count, its limit or the status of an open connection.
-/

namespace PingServer

/-! ## What receiving and sending write -/

theorem connectionRecv_counts (c : Connection) (recvs : List RecvOutcome) (now : Nat) :
    let c' := (connectionRecv c recvs now).1
    c' = c ∨ c.maxRequestCount ≠ c.requestCount ∧ c'.requestCount = c.requestCount + 1 ∧
      c'.maxRequestCount = c.maxRequestCount ∧ c'.connSt = .reading := by
  unfold connectionRecv
  split
  · exact .inl rfl
  · rename_i hroom
    right
    dsimp only
    split
    · exact ⟨hroom, rfl, rfl, rfl⟩
    · exact ⟨hroom, rfl, rfl, rfl⟩

theorem connectionSend_counts {c : Connection} {sends : List SendOutcome} {now : Nat} {s : Sent}
    (hsend : connectionSend c sends now = .ok s) :
    s.conn = c ∨ c.maxRequestCount ≠ c.requestCount ∧ s.conn.requestCount = c.requestCount + 1 ∧
      s.conn.maxRequestCount = c.maxRequestCount ∧
        (s.conn.connSt = .idle ∨ s.conn.connSt = .waiting) := by
  unfold connectionSend at hsend
  split at hsend
  · cases hsend
    exact .inl rfl
  · rename_i hroom
    right
    dsimp only at hsend
    split at hsend
    · cases hsend
    · split at hsend
      · split at hsend
        · cases hsend
          exact ⟨hroom, rfl, rfl, .inl rfl⟩
        · cases hsend
          exact ⟨hroom, rfl, rfl, .inr rfl⟩
      · split at hsend
        · cases hsend
          exact ⟨hroom, rfl, rfl, .inl rfl⟩
        · cases hsend
          exact ⟨hroom, rfl, rfl, .inr rfl⟩

theorem connectionCreate_counts {c c' : Connection} {fd : Int} {a a' : MemoryArena}
    {connId now : Nat} {ret : Int} (hcreate : connectionCreate c fd a connId now = (a', c', ret))
    (hret : ¬ ret < 0) :
    c'.requestCount = 0 ∧ c'.maxRequestCount = connectionRequestCount ∧ c'.connSt = .idle := by
  obtain ⟨mem, p, n, q, m, rfl⟩ := connectionCreate_conn hcreate hret
  exact ⟨rfl, rfl, rfl⟩

/-! ## The rule -/

/-- `P` reads nothing but the request count, its limit and the status, and the functions
of `connection.c` keep it. -/
structure ConnRule (P : Connection → Prop) : Prop where
  same : ∀ {c c' : Connection}, P c → c'.requestCount = c.requestCount →
    c'.maxRequestCount = c.maxRequestCount → c'.connSt = c.connSt → P c'
  recv : ∀ {c : Connection} (recvs : List RecvOutcome) (now : Nat), P c →
    P (connectionRecv c recvs now).1
  send : ∀ {c : Connection} {sends : List SendOutcome} {now : Nat} {s : Sent},
    connectionSend c sends now = .ok s → P c → P s.conn
  create : ∀ {c c' : Connection} {fd : Int} {a a' : MemoryArena} {connId now : Nat} {ret : Int},
    connectionCreate c fd a connId now = (a', c', ret) → ¬ ret < 0 → P c'

namespace ConnRule

variable {P : Connection → Prop} (rule : ConnRule P)
include rule

section

variable {h h' : Handling} {ret : Int}

theorem handlingSend (hsend : h.send = .ok (h', ret)) (hP : P h.conn) : P h'.conn := by
  unfold Handling.send at hsend
  split at hsend
  · cases hsend
  · rename_i s hs
    cases hsend
    exact rule.send hs hP

theorem writeSteps {ctx : Nat} (hsteps : WriteSteps ctx h h') (hP : P h.conn) : P h'.conn := by
  induction hsteps with
  | refl => exact hP
  | tail _ hstep ih =>
    cases hstep with
    | use => exact ih
    | buffer b _ => exact rule.same ih rfl rfl rfl
    | response res _ _ => exact ih
    | send _ ret hsend => exact rule.handlingSend hsend ih
    | sendFd => exact ih

theorem write (hwrite : httpProtocolWrite h = .ok (h', ret)) (hP : P h.conn) : P h'.conn := by
  cases hctx : h.conn.protocolCtx with
  | none =>
    rw [httpProtocolWrite, hctx] at hwrite
    cases hwrite
  | some ctx => exact rule.writeSteps (WriteSteps.write hctx hwrite) hP

theorem closeLoop (fuel : Nat) : ∀ {h : Handling}, closeLoop fuel h = .ok (h', ret) →
    P h.conn → P h'.conn := by
  induction fuel with
  | zero =>
    intro h hclose
    cases hclose
  | succ fuel ih =>
    intro h hclose hP
    rw [PingServer.closeLoop] at hclose
    split at hclose
    · cases hclose
    · rename_i h₁ ret₁ hsend
      have hP₁ := rule.handlingSend hsend hP
      split at hclose
      · cases hclose
        exact hP₁
      · split at hclose
        · cases hclose
          exact hP₁
        · exact ih hclose hP₁

theorem close (hclose : httpProtocolClose h = .ok (h', ret)) (hP : P h.conn) : P h'.conn := by
  unfold httpProtocolClose at hclose
  split at hclose
  · cases hclose
    exact hP
  · simp only at hclose
    split at hclose
    · cases hclose
    · rename_i h₁ ret₁ hloop
      cases hclose
      have hprinted : P (h.setSendBuf ((bufferClean h.conn.sendBuf).print
          (headText 200 contentTxt 0 (ByteMem.utf8 "close")))).conn := rule.same hP rfl rfl rfl
      have hP₁ := rule.closeLoop _ hloop hprinted
      exact hP₁

theorem parses {ctx : Nat} (hparses : Parses h ctx h') (hP : P h.conn) : P h'.conn := by
  rw [hparses.conn]
  exact rule.same hP rfl rfl rfl

theorem read {parse : Parser} (hP : P h.conn) : P (httpProtocolRead parse h).1.conn := by
  have hcases := httpProtocolRead_cases parse h
  generalize httpProtocolRead parse h = r at hcases
  cases hcases with
  | full _ => exact hP
  | incomplete ctx h₁ ret' hparses _ _ => exact rule.parses hparses hP
  | complete ctx h₁ hparses _ _ => exact rule.parses hparses hP

theorem process (hproc : httpProtocolProcess h = .ok (h', ret)) (hP : P h.conn) : P h'.conn := by
  cases hctx : h.conn.protocolCtx with
  | none =>
    rw [httpProtocolProcess, hctx] at hproc
    cases hproc
  | some ctx =>
    rw [(RouteSteps.process hctx hproc).conn]
    exact rule.same hP rfl rfl rfl

theorem tcpOnRead {parse : Parser} {current max : Nat} {v : Verdict}
    (hread : tcpOnRead parse current max h = .ok (h', v)) (hP : P h.conn) : P h'.conn := by
  have hreceived : P h.received.conn := rule.recv h.env.recvs h.env.now hP
  have hcases := tcpOnRead_cases hread
  generalize hr : (h', v) = r at hcases
  cases hcases with
  | unread _ =>
    cases hr
    exact hreceived
  | unparsed _ _ =>
    cases hr
    exact hreceived
  | incomplete ctx h₁ v' _ hparses =>
    cases hr
    exact rule.parses hparses hreceived
  | refused ctx h₁ h₂ ret' _ hparses _ _ _ hclose =>
    cases hr
    exact rule.close hclose (rule.same (rule.parses hparses hreceived) rfl rfl rfl)
  | accepted ctx h₁ g _ hparses _ _ _ _ hanswered =>
    cases hr
    have hanswers : P g.conn := by
      rw [hanswered.conn]
      exact rule.same (rule.parses hparses hreceived) rfl rfl rfl
    exact hanswers

theorem tcpOnWrite {current max : Nat} {v : Verdict}
    (hwrite : tcpOnWrite current max h = .ok (h', v)) (hP : P h.conn) : P h'.conn := by
  unfold PingServer.tcpOnWrite at hwrite
  split at hwrite
  · cases hwrite
  · split at hwrite
    · cases hwrite
    · rename_i h₁ ret₁ hprotocol
      have hP₁ := rule.write hprotocol hP
      split at hwrite
      · cases hwrite
      · split at hwrite
        · split at hwrite
          · cases hwrite
            exact rule.same hP₁ rfl rfl rfl
          · cases hwrite
        · cases hwrite
          exact hP₁
        · cases hwrite
          exact hP₁
        · cases hwrite
          exact hP₁
        · cases hwrite
          exact hP₁

end

end ConnRule

/-! ## The server -/

/-- `P` holds of every connection that is in use and not deleted yet. -/
def AllConns (P : Connection → Prop) (s : TcpServer) (returned : List EventContext) : Prop :=
  ∀ i, InUse s returned i → (s.connArray i).protocolHandler = true → P (s.connArray i)

section

variable {P : Connection → Prop} {s t : TcpServer} {returned : List EventContext} {i : Nat}

/-- The deletion of a connection leaves the others alone. -/
theorem AllConns.delete {tcpEvent timeEvent : Option Nat} {env : Env}
    (hdel : tcpserverDeleteTcpAndTimer s tcpEvent timeEvent env = .ok t)
    (hothers : ∀ k, tcpEvent ≠ some k → InUse s returned k →
      (s.connArray k).protocolHandler = true → P (s.connArray k)) : AllConns P t returned := by
  intro k huse hhandler
  obtain ⟨hk, huse', hconn⟩ := delete_inUse hdel huse hhandler
  rw [hconn] at hhandler ⊢
  exact hothers k hk huse' hhandler

theorem AllConns.settle {r : Handling × Verdict} (h : AllConns P s returned)
    (hP : r.1.conn.protocolHandler = true → P r.1.conn) (hsettle : settle s i r = .ok t) :
    AllConns P t returned := by
  have habsorb : AllConns P (s.absorb i r.1) returned := by
    intro k huse hhandler
    by_cases hk : k = i
    · simp only [hk, TcpServer.absorb, ↓reduceIte] at hhandler ⊢
      exact hP hhandler
    · simp only [TcpServer.absorb, if_neg hk] at hhandler ⊢
      exact h k huse hhandler
  unfold PingServer.settle at hsettle
  split at hsettle
  · cases hsettle
    exact habsorb
  · exact AllConns.delete hsettle fun k _ huse hhandler => habsorb k huse hhandler

end

section

variable {P : Connection → Prop} {s t : TcpServer} {returned : List EventContext}

/-- A turn of the accept loop leaves a connection alone, or creates it. -/
def Creates (P : Connection → Prop) (s t : TcpServer) : Prop :=
  ∀ k, P (t.connArray k) ∨
    t.connArray k = s.connArray k ∧ ∀ l, (k, l) ∈ t.opened → (k, l) ∈ s.opened

theorem Creates.trans {u : TcpServer} (a : Creates P s t) (b : Creates P t u) : Creates P s u := by
  intro k
  obtain hnew | ⟨hconn, hopened⟩ := b k
  · exact .inl hnew
  · rw [hconn]
    obtain hnew' | ⟨hconn', hopened'⟩ := a k
    · exact .inl hnew'
    · exact .inr ⟨hconn', fun l hl => hopened' l (hopened l hl)⟩

theorem ConnRule.created (rule : ConnRule P) {now i j fd : Nat} (h : ConnCreated now s t i j fd) :
    Creates P s t := by
  intro k
  by_cases hk : k = i
  · obtain ⟨ret, hcreate, hret⟩ := h.create
    rw [hk]
    exact .inl (rule.create hcreate hret)
  · refine .inr ⟨h.others k hk, fun l hl => ?_⟩
    rw [h.rest] at hl
    obtain heq | hold := List.mem_cons.1 hl
    · exact absurd (congrArg Prod.fst heq) hk
    · exact hold

theorem ConnRule.listen (rule : ConnRule P) {now : Nat} {outs : List AcceptOutcome}
    {newIdx newIdx2 : Option Nat} (h : AllConns P s returned)
    (hloop : listenLoop now outs s newIdx newIdx2 = .ok t) : AllConns P t returned := by
  have hsame : ∀ {s t : TcpServer}, t.ctxs = s.ctxs → t.connArray = s.connArray →
      t.opened = s.opened → Creates P s t := by
    intro s t _ hconns hopened k
    rw [hconns, hopened]
    exact .inr ⟨rfl, fun _ => id⟩
  have hcreates : Creates P s t := TurnRule.run ⟨hsame, rule.created, Creates.trans⟩ hloop
  intro k huse hhandler
  obtain hnew | ⟨hconn, hopened⟩ := hcreates k
  · exact hnew
  · rw [hconn] at hhandler ⊢
    exact h k (huse.imp (fun ⟨l, hl⟩ => ⟨l, hopened l hl⟩) id) hhandler

/-- One handler call keeps the rule. -/
theorem ConnRule.dispatch (rule : ConnRule P) {parse : Parser} {c : HandlerCall}
    (h : AllConns P s returned) (hmem : c.context ∈ returned)
    (hdisp : dispatch parse s c = .ok t) : AllConns P t returned := by
  cases dispatch_runs hdisp with
  | idle => exact h
  | stopped => exact h
  | listened t _ _ _ hloop => exact rule.listen h hloop
  | read i h' v t hctx _ hread hsettle =>
    have huse : InUse s returned i := .inr (hctx ▸ hmem)
    have hsame : h'.conn.protocolHandler = (s.connArray i).protocolHandler := by
      obtain g | ⟨-, -, h₁, g, r⟩ := tcpOnRead_spec hread
      · exact g.handler
      · exact r.handler.trans g.handler
    apply h.settle _ hsettle
    intro hhandler
    exact rule.tcpOnRead hread (h i huse (hsame.symm.trans hhandler))
  | wrote i h' v t hctx _ hwrite hsettle =>
    have huse : InUse s returned i := .inr (hctx ▸ hmem)
    have hhandler : (s.connArray i).protocolHandler = true := tcpOnWrite_handler hwrite
    exact h.settle (fun _ => rule.tcpOnWrite hwrite (h i huse hhandler)) hsettle
  | deleted _ _ t _ _ hdel => exact AllConns.delete hdel fun k _ huse => h k huse

end

/-- What a connection rule establishes holds in every run of the event loop. -/
theorem ConnRule.loop {P : Connection → Prop} (rule : ConnRule P) {parse : Parser} {s : TcpServer}
    {l : EventLoop} {ok : EventLoop → LoopEvent → Prop} (hnone : s.opened = [])
    (hrun : Machine.Reaches (Machine.graph (loopStep parse)) ok ⟨s, []⟩ l) :
    AllConns P l.server l.returned :=
  loop_inUse hnone (fun _ _ h => h) (fun _ _ _ _ h hmem _ hdisp => rule.dispatch h hmem hdisp) hrun

end PingServer
