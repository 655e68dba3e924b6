import PingServer.Route.StaticFiles
import PingServer.Route.Reply
import Mathlib.Data.List.Find

/-!
# Query strings

`main_static` cuts the query off before it opens a file. `get_router_function` compares
the whole path, query and all, and its exact rule for the home page misses it.
-/

namespace PingServer

open ByteMem

/-! ## Two requests for one path -/

/-- The same request, for another path. -/
def Handling.setPath (h : Handling) (ctx : Nat) (path : List Byte) : Handling :=
  h.setReq ctx { (h.ctxs ctx).httpReq with path := path }

/-- `get_router_function`, and the handler that it selects. -/
def serve (h : Handling) (ctx : Nat) : Handling :=
  (getRouterFunction (h.ctxs ctx).httpReq.path (h.ctxs ctx).httpReq.method).call h ctx

/-- A path with a query behind it. -/
def withQuery (path query : List Byte) : List Byte := path ++ ch '?' :: query

/-- Two answers from one resource: the status, the type, and the file, which is opened and
cached under the same name. -/
structure SameResource (ctx : Nat) (g g' : Handling) : Prop where
  status : (g'.ctxs ctx).httpRes.statusCode = (g.ctxs ctx).httpRes.statusCode
  contentType : (g'.ctxs ctx).httpRes.contentType = (g.ctxs ctx).httpRes.contentType
  file : (g'.ctxs ctx).httpRes.bodyFd = (g.ctxs ctx).httpRes.bodyFd
  opened : g'.trace = g.trace
  cache : g'.cache.fileCache = g.cache.fileCache ∧ g'.cache.cacheIdx = g.cache.cacheIdx

/-! ## Handlers see the response and the files -/

section

variable {h : Handling} {ctx : Nat} {c c' : HttpContext}

theorem cacheFile_setCtx (fd : Nat) (name : List Byte) :
    cacheFile (h.setCtx ctx c) fd name = (cacheFile h fd name).setCtx ctx c := by
  have hcache : (h.setCtx ctx c).cache = h.cache := rfl
  unfold cacheFile
  simp only [hcache]
  split <;> rfl

theorem getFd_setCtx (name : List Byte) : getFd (h.setCtx ctx c) name =
    ((getFd h name).1.setCtx ctx c, (getFd h name).2) := by
  have hcache : (h.setCtx ctx c).cache = h.cache := rfl
  have henv : ∀ h : Handling, (h.setCtx ctx c).env = h.env := fun _ => rfl
  have henv' : ∀ a, (h.log a).env = h.env := fun _ => rfl
  have hlog : ∀ (h : Handling) a, (h.setCtx ctx c).log a = (h.log a).setCtx ctx c := fun _ _ => rfl
  unfold getFd
  simp only [hcache, hlog, henv, henv']
  split
  · rfl
  · cases findCached h.cache name with
    | some k => rfl
    | none =>
      cases h.env.opened with
      | none => rfl
      | some fd =>
        simp only [cacheFile_setCtx]
        split <;> rfl

/-- What is answered to two contexts with one response is one resource. -/
theorem respondFile_resource (hres : c'.httpRes = c.httpRes) (fd st : Int) (name : List Byte) :
    SameResource ctx (respondFile (h.setCtx ctx c) ctx fd st name)
      (respondFile (h.setCtx ctx c') ctx fd st name) := by
  have hown : ∀ c : HttpContext, (((h.setCtx ctx c).ctxs ctx).httpRes) = c.httpRes := by
    intro c
    simp only [Handling.setCtx, ↓reduceIte]
  obtain ⟨hcache, htrace⟩ := respondFile_same (h.setCtx ctx c) ctx fd st name
  obtain ⟨hcache', htrace'⟩ := respondFile_same (h.setCtx ctx c') ctx fd st name
  have hreply := respondFile_reply (hown c) fd st name
  have hreply' := respondFile_reply ((hown c').trans hres) fd st name
  refine ⟨?_, ?_, ?_, htrace'.trans htrace.symm, ?_⟩
  · rw [hreply, hreply']
  · rw [hreply, hreply']
  · rw [hreply, hreply']
  · rw [hcache, hcache']
    exact ⟨rfl, rfl⟩

theorem refuse_resource (hres : c'.httpRes = c.httpRes) (st : Int) : SameResource ctx
    ((h.setCtx ctx c).setRes ctx (httpResponseSet ((h.setCtx ctx c).ctxs ctx).httpRes st none))
    ((h.setCtx ctx c').setRes ctx (httpResponseSet ((h.setCtx ctx c').ctxs ctx).httpRes st none)) :=
  respondFile_resource hres (-1) st []

/-- The home page and the error page do not look at the request. -/
theorem mainHome_resource (hres : c'.httpRes = c.httpRes) :
    SameResource ctx (mainHome (h.setCtx ctx c) ctx) (mainHome (h.setCtx ctx c') ctx) := by
  unfold mainHome
  simp only [getFd_setCtx]
  exact respondFile_resource hres _ _ _

theorem mainNotFound_resource (hres : c'.httpRes = c.httpRes) :
    SameResource ctx (mainNotFound (h.setCtx ctx c) ctx) (mainNotFound (h.setCtx ctx c') ctx) :=
  refuse_resource hres 404

/-- The static handler looks at the path up to its query. -/
theorem mainStatic_resource (hres : c'.httpRes = c.httpRes)
    (hhead : c.httpReq.path.head? = some (ch '/')) (hhead' : c'.httpReq.path.head? = some (ch '/'))
    (hname : staticName c'.httpReq.path = staticName c.httpReq.path) :
    SameResource ctx (mainStatic (h.setCtx ctx c) ctx) (mainStatic (h.setCtx ctx c') ctx) := by
  have hown : ∀ c : HttpContext, (h.setCtx ctx c).ctxs ctx = c := by
    intro c
    simp only [Handling.setCtx, ↓reduceIte]
  unfold mainStatic
  simp only [hown, if_neg (starts_with_slash hhead),
    if_neg (starts_with_slash hhead'), hname]
  by_cases hlong : (staticName c.httpReq.path).length = 0 ∨
      maxPathLen ≤ (staticName c.httpReq.path).length
  · rw [if_pos hlong, if_pos hlong]
    have hrefuse := @refuse_resource h ctx _ _ hres 400
    rw [hown, hown] at hrefuse
    exact hrefuse
  · rw [if_neg hlong, if_neg hlong, getFd_setCtx, getFd_setCtx]
    exact respondFile_resource hres _ _ _

end

/-! ## Routes see the path up to the query -/

section

variable {path query : List Byte}

/-- A query is no part of the file's name. -/
theorem staticName_withQuery (hpath : path ≠ []) :
    staticName (withQuery path query) = staticName path := by
  cases path with
  | nil => exact absurd rfl hpath
  | cons c rest =>
    have htail : (withQuery (c :: rest) query).tail = rest ++ ch '?' :: query := rfl
    rw [staticName, staticName, htail, List.tail_cons, List.takeWhile_append]
    split
    · rename_i hall
      rw [List.takeWhile_cons_of_neg (by simp), List.append_nil]
      exact ((List.takeWhile_prefix _).eq_of_length hall).symm
    · rfl

/-- A prefix without a question mark ends before the query. -/
theorem isPrefixOf_withQuery {pre : List Byte} (hpre : ch '?' ∉ pre) :
    pre.isPrefixOf (withQuery path query) = pre.isPrefixOf path := by
  induction pre generalizing path with
  | nil => simp
  | cons c pre ih =>
    have hc : c ≠ ch '?' := fun he => hpre (he ▸ List.mem_cons_self)
    cases path with
    | nil =>
      simp only [withQuery, List.nil_append, List.isPrefixOf, Bool.and_eq_false_imp, beq_iff_eq]
      exact fun he => absurd he hc
    | cons d path =>
      have ih := @ih path fun hmem => hpre (List.mem_cons_of_mem c hmem)
      simp only [withQuery, List.cons_append, List.isPrefixOf] at ih ⊢
      rw [ih]

theorem withQuery_ne_home : withQuery path query ≠ utf8 "/" := by
  intro heq
  have hmem : ch '?' ∈ utf8 "/" := heq ▸ List.mem_append_right path List.mem_cons_self
  exact absurd hmem (by decide)

theorem getRouterFunction_withQuery {method : List Byte} (hpath : path ≠ utf8 "/") :
    getRouterFunction (withQuery path query) method = getRouterFunction path method := by
  have hhit : ∀ r ∈ routerTable, r.hit (withQuery path query) = r.hit path := by
    intro r hr
    simp only [routerTable, List.mem_cons, List.not_mem_nil, or_false] at hr
    rcases hr with rfl | rfl | rfl
    · exact isPrefixOf_withQuery (by decide)
    · simp only [Route.hit]
      rw [beq_eq_false_iff_ne.2 withQuery_ne_home, beq_eq_false_iff_ne.2 hpath]
    · exact isPrefixOf_withQuery (by decide)
  have hfind : (routerTable.find? fun r => method == utf8 "GET" && r.hit (withQuery path query)) =
      routerTable.find? fun r => method == utf8 "GET" && r.hit path :=
    List.find?_congr fun r hr => by rw [hhit r hr]
  unfold getRouterFunction
  rw [hfind]

theorem getRouterFunction_home : getRouterFunction (utf8 "/") (utf8 "GET") = .mainHome := by
  decide

/-- The home page with a query is a path that no route but the last one knows. -/
theorem getRouterFunction_home_withQuery :
    getRouterFunction (withQuery (utf8 "/") query) (utf8 "GET") = .mainNotFound := by
  have hget : (utf8 "GET" == utf8 "GET") = true := beq_self_eq_true _
  have hstatic : (utf8 "/static/").isPrefixOf (withQuery (utf8 "/") query) = false := by
    rw [isPrefixOf_withQuery (by decide)]
    decide
  have hexact : (withQuery (utf8 "/") query == utf8 "/") = false :=
    beq_eq_false_iff_ne.2 withQuery_ne_home
  simp only [getRouterFunction, routerTable, List.find?_cons, Route.hit, hget, hstatic, hexact,
    List.isPrefixOf, Bool.and_false, Bool.and_true]

end

/-! ## Every path -/

section

variable {h : Handling} {ctx : Nat} {path : List Byte}

theorem serve_setPath : serve (h.setPath ctx path) ctx =
    (getRouterFunction path (h.ctxs ctx).httpReq.method).call (h.setPath ctx path) ctx := by
  simp only [serve, Handling.setPath, Handling.setReq, Handling.setCtx, ↓reduceIte]

theorem setPath_accepted (hcheck : httpProtcolCheck (some ((h.setPath ctx path).ctxs ctx)) = 0) :
    (h.ctxs ctx).httpReq.method = utf8 "GET" ∧ isSafePath path = true := by
  have hreq : ((h.setPath ctx path).ctxs ctx).httpReq =
      { (h.ctxs ctx).httpReq with path := path } := by
    simp only [Handling.setPath, Handling.setReq, Handling.setCtx, ↓reduceIte]
  obtain ⟨hother, -, -⟩ := httpProtcolCheck_eq_zero.1 hcheck
  rw [hreq] at hother
  exact ⟨hother.method, hother.path⟩

theorem mainHome_status : ((mainHome h ctx).ctxs ctx).httpRes.statusCode = 200 ∨
    ((mainHome h ctx).ctxs ctx).httpRes.statusCode = 500 := by
  have hreply := @respondFile_reply (getFd h indexPath).1 ctx _ rfl
    (getFd h indexPath).2 500 indexPath
  unfold mainHome
  simp only [hreply]
  split
  · exact .inr rfl
  · exact .inl rfl

theorem mainNotFound_status : ((mainNotFound h ctx).ctxs ctx).httpRes.statusCode = 404 := by
  simp only [mainNotFound, Handling.setRes, Handling.setCtx, ↓reduceIte, httpResponseSet]

end

/-- Of the paths that are accepted with and without a query, a query changes what is served
for the home page, and for no other. -/
theorem query_ignored_iff (h : Handling) (ctx : Nat) (path query : List Byte)
    (hcheck : httpProtcolCheck (some ((h.setPath ctx path).ctxs ctx)) = 0)
    (hquery : httpProtcolCheck (some ((h.setPath ctx (withQuery path query)).ctxs ctx)) = 0) :
    SameResource ctx (serve (h.setPath ctx path) ctx)
      (serve (h.setPath ctx (withQuery path query)) ctx) ↔ path ≠ utf8 "/" := by
  obtain ⟨hmethod, hsafe⟩ := setPath_accepted hcheck
  obtain ⟨-, hsafe'⟩ := setPath_accepted hquery
  rw [serve_setPath, serve_setPath, hmethod]
  constructor
  · rintro ⟨hstatus, -, -, -, -⟩ rfl
    rw [getRouterFunction_home, getRouterFunction_home_withQuery] at hstatus
    simp only [RouterFunction.call, mainNotFound_status] at hstatus
    obtain hfound | hfailed := @mainHome_status (h.setPath ctx (utf8 "/")) ctx
    · rw [hfound] at hstatus
      exact absurd hstatus (by decide)
    · rw [hfailed] at hstatus
      exact absurd hstatus (by decide)
  · intro hhome
    rw [getRouterFunction_withQuery hhome]
    obtain ⟨-, hhead, -, -⟩ := isSafePath_spec hsafe
    obtain ⟨-, hhead', -, -⟩ := isSafePath_spec hsafe'
    have hne : path ≠ [] := by
      rintro rfl
      cases hhead
    cases getRouterFunction path (utf8 "GET") with
    | mainStatic => exact mainStatic_resource rfl hhead hhead' (staticName_withQuery hne)
    | mainHome => exact mainHome_resource rfl
    | mainNotFound => exact mainNotFound_resource rfl

theorem query_ignored_style : SameResource 0
    (serve ((Handling.fresh styleGet .opens).setPath 0 (utf8 "/static/a.css")) 0)
    (serve ((Handling.fresh styleGet .opens).setPath 0
      (withQuery (utf8 "/static/a.css") (utf8 "v=2"))) 0) :=
  (query_ignored_iff (Handling.fresh styleGet .opens) 0 (utf8 "/static/a.css") (utf8 "v=2")
    (by decide +kernel) (by decide +kernel)).2 (by decide)

/-- The home page is found, and with a query it is not. -/
theorem home_query_not_found : ¬ ∀ (h : Handling) (ctx : Nat) (path query : List Byte),
    ch '?' ∉ path →
    httpProtcolCheck (some ((h.setPath ctx path).ctxs ctx)) = 0 →
    httpProtcolCheck (some ((h.setPath ctx (withQuery path query)).ctxs ctx)) = 0 →
    SameResource ctx (serve (h.setPath ctx path) ctx)
      (serve (h.setPath ctx (withQuery path query)) ctx) := by
  intro hall
  have hsame := hall (Handling.fresh styleGet .opens) 0 (utf8 "/") (utf8 "q") (by decide)
    (by decide +kernel) (by decide +kernel)
  exact absurd hsame.status (by decide +kernel)

end PingServer
