import PingServer.Route.Router
import Mathlib.Data.List.Chain

/-!
# What the static handler opens

A name reaches `open` only out of a path that the request check has accepted and
the router has sent to `main_static`. Such a name stays below `static/`.
-/

namespace PingServer

open ByteMem

/-- A name that `main_static` may open for `path`. -/
structure Confined (path name : List Byte) : Prop where
  eq : name = (path.drop 1).takeWhile (· ≠ ch '?')
  below : utf8 "static/" <+: name
  noNul : 0 ∉ name
  noDotDot : NoDotDot name
  valid : ∀ c ∈ name, isValidPathChar c = true
  pos : 0 < name.length
  short : name.length < maxPathLen

theorem cString_eq {name : List Byte} (h : 0 ∉ name) (rest : List Byte) :
    cString (name ++ 0 :: rest) = name := by
  rw [cString, List.takeWhile_append_of_pos fun c hc => by
    simpa using fun h0 : c = 0 => h (h0 ▸ hc)]
  simp

/-- A path the router sends to `main_static` starts with `/static/`. -/
theorem getRouterFunction_static {path method : List Byte}
    (h : getRouterFunction path method = .mainStatic) : utf8 "/static/" <+: path := by
  unfold getRouterFunction at h
  split at h
  · rename_i r hr
    have hhit := List.find?_some hr
    rw [Bool.and_eq_true] at hhit
    have hmem := List.mem_of_find?_eq_some hr
    simp only [routerTable, List.mem_cons, List.not_mem_nil, or_false] at hmem
    rcases hmem with rfl | rfl | rfl
    · exact List.isPrefixOf_iff_prefix.1 hhit.2
    · cases h
    · cases h
  · cases h

/-- The cut at the first question mark keeps the directory. -/
theorem staticName_below {path : List Byte} (h : utf8 "/static/" <+: path) :
    utf8 "static/" <+: staticName path := by
  obtain ⟨rest, rfl⟩ := h
  have htail : (utf8 "/static/" ++ rest).tail = utf8 "static/" ++ rest := rfl
  rw [staticName, htail, List.takeWhile_append_of_pos (by decide)]
  exact List.prefix_append _ _

theorem staticName_infix (path : List Byte) : staticName path <:+: path :=
  ((List.takeWhile_prefix _).isInfix).trans (List.tail_suffix path).isInfix

/-- The first test of `main_static` never refuses a path that has been checked. -/
theorem starts_with_slash {path : List Byte} (hhead : path.head? = some (ch '/')) :
    ¬ (path.length < 1 ∨ path.head? ≠ some (ch '/')) := by
  rintro (hshort | hne)
  · rw [List.eq_nil_of_length_eq_zero (Nat.lt_one_iff.1 hshort)] at hhead
    cases hhead
  · exact hne hhead

theorem staticName_noNul {path : List Byte} (hsafe : isSafePath path = true) :
    0 ∉ staticName path := by
  obtain ⟨-, -, hvalid, -⟩ := isSafePath_spec hsafe
  have hwithin := staticName_infix path
  intro h0
  have hnul : isValidPathChar 0 = false := by decide +kernel
  have h0' := hvalid 0 (hwithin.subset h0)
  rw [hnul] at h0'
  cases h0'

theorem confined_staticName {path : List Byte} (hsafe : isSafePath path = true)
    (hstatic : utf8 "/static/" <+: path) (hshort : (staticName path).length < maxPathLen) :
    Confined path (staticName path) := by
  obtain ⟨-, -, hvalid, hdots⟩ := isSafePath_spec hsafe
  have hwithin := staticName_infix path
  have hbelow := staticName_below hstatic
  refine ⟨by rw [List.drop_one]; rfl, hbelow, staticName_noNul hsafe,
    List.IsChain.infix hdots hwithin, fun c hc => hvalid c (hwithin.subset hc), ?_, hshort⟩
  exact Nat.lt_of_lt_of_le (by decide) hbelow.length_le

/-- Every file that this action opens has that name. -/
def OpensOnly (name : List Byte) (a : Action) : Prop :=
  ∀ opened result, a = .openFile opened result → opened = name

theorem OpensOnly.closeFd (name : List Byte) (fd : Int) : OpensOnly name (.closeFd fd) := by
  intro opened result h
  cases h

theorem cacheFile_grows {h h' : Handling} {P : Action → Prop} (hg : Handling.Grows P h h')
    (hclose : ∀ fd, P (.closeFd fd)) (fd : Nat) (name : List Byte) :
    Handling.Grows P h (cacheFile h' fd name) := by
  unfold cacheFile
  simp only
  split
  · exact (hg.log (hclose _)).congr rfl
  · exact hg.congr rfl

/-- `get_fd` calls `open` on the name it was given, if at all. -/
theorem getFd_opens (h : Handling) (name : List Byte) :
    Handling.Grows (OpensOnly name) h (getFd h name).1 := by
  have hopen : Handling.Grows (OpensOnly name) h (h.log (.openFile name h.env.opened)) := by
    refine Handling.Grows.log (.of_eq rfl) fun opened result heq => ?_
    cases heq
    rfl
  unfold getFd
  split
  · exact .of_eq rfl
  · split
    · exact .of_eq rfl
    · simp only
      split
      · exact hopen
      · split
        · exact cacheFile_grows hopen (OpensOnly.closeFd name) _ _
        · exact hopen.log (OpensOnly.closeFd name _)

/-- Whatever `main_static` opens for an accepted request is confined. -/
theorem static_files_confined (h : Handling) (ctx : Nat)
    (haccepted : httpProtcolCheck (some (h.ctxs ctx)) = 0)
    (hrouted : getRouterFunction (h.ctxs ctx).httpReq.path (h.ctxs ctx).httpReq.method =
      .mainStatic) :
    ∃ new, (mainStatic h ctx).trace = h.trace ++ new ∧
      ∀ name result, .openFile name result ∈ new → Confined (h.ctxs ctx).httpReq.path name := by
  have hsafe := (httpProtcolCheck_eq_zero.1 haccepted).1.path
  have hstatic := getRouterFunction_static hrouted
  unfold mainStatic
  generalize (h.ctxs ctx).httpReq.path = path at hsafe hstatic
  simp only
  split
  · exact ⟨[], by simp [Handling.setRes, Handling.setCtx]⟩
  · split
    · exact ⟨[], by simp [Handling.setRes, Handling.setCtx]⟩
    · rename_i hlen
      have hconf := confined_staticName hsafe hstatic (by omega)
      rw [cString_eq hconf.noNul]
      obtain ⟨new, htrace, hopens⟩ := getFd_opens h (staticName path)
      refine ⟨new, by rw [(respondFile_same _ _ _ _ _).2, htrace], fun name result hmem => ?_⟩
      rw [hopens _ hmem name result rfl]
      exact hconf

/-- A request for a file below `static/`, with a query. -/
def styleGet : HttpContext where
  httpReq := ⟨utf8 "GET", utf8 "/static/css/a%20b.css?v=2", 0, [], 0, 0⟩
  httpRes := HttpContext.zero.httpRes

theorem static_files_confined_styleGet :
    ∃ new, (mainStatic (Handling.fresh styleGet Env.opens) 0).trace = [] ++ new ∧
      ∀ name result, .openFile name result ∈ new → Confined styleGet.httpReq.path name :=
  static_files_confined (Handling.fresh styleGet Env.opens) 0 (by decide +kernel)
    (by decide +kernel)

end PingServer
