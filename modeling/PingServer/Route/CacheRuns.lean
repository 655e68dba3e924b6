import PingServer.Lib.Ledger
import PingServer.Lib.Machine
import PingServer.Route.FileCache
import Mathlib.Data.List.TakeWhile

/-!
# Runs of `get_fd`

Calls of `get_fd` follow each other, with any names, and `open` and `fstat` do what they
like. The slots of the cache are then the files that are open, and every other file that was
opened has been closed once.
-/

namespace PingServer

open Descriptors ByteMem Machine

/-! ## The machine -/

/-- A call of `get_fd`, and what the system calls in it will do. -/
structure FileCall where
  name : List Byte
  env : Env

def callGetFd (h : Handling) (call : FileCall) : Handling × Int :=
  getFd { h with env := call.env } call.name

def fileStep (h : Handling) (call : FileCall) : Option Handling := some (callGetFd h call).1

/-- The files that the calls so far have left open. -/
def openFiles (trace : List Action) : Table FdUse := tableAfter (fun _ => none) trace

/-- `open` returns no descriptor that is open. -/
def OpensFree (h : Handling) (call : FileCall) : Prop :=
  ∀ fd, call.env.opened = some fd → openFiles h.trace fd = none

/-- Nothing has been opened. -/
structure Uncached (h : Handling) : Prop where
  cache : h.cache = RouterCache.empty
  trace : h.trace = []

/-! ## An exact cache -/

/-- The descriptor is in a slot that is not empty. -/
def InSlot (cache : RouterCache) (fd : Nat) : Prop :=
  ∃ k < maxCacheCount, (cache.fileCache k).str ≠ [] ∧ (cache.fileCache k).fd = fd

/-- No name is in two slots. -/
def NamesApart (cache : RouterCache) : Prop :=
  ∀ k < maxCacheCount, ∀ l < maxCacheCount, (cache.fileCache k).str ≠ [] →
    (cache.fileCache k).str = (cache.fileCache l).str → k = l

/-- The action is an `open` that has returned `fd`. -/
def Action.opens (fd : Nat) : Action → Bool
  | .openFile _ (some k) => k == fd
  | _ => false

/-- What was called before `open` returned `fd` once more. -/
def untilReopened (fd : Nat) (calls : List Action) : List Action :=
  calls.takeWhile fun a => !a.opens fd

/-- The slots hold different names and different descriptors, each open for its own name. A
descriptor that was opened, and is not what a slot still holds, was closed once; none else is
open. What a call returns is open for the name it was given. -/
structure CacheExact (h : Handling) : Prop where
  names : NamesApart h.cache
  apart : ∀ k < maxCacheCount, ∀ l < maxCacheCount, (h.cache.fileCache k).str ≠ [] →
    (h.cache.fileCache l).str ≠ [] → (h.cache.fileCache k).fd = (h.cache.fileCache l).fd → k = l
  opened : ∀ k < maxCacheCount, (h.cache.fileCache k).str ≠ [] →
    0 ≤ (h.cache.fileCache k).fd ∧
      openFiles h.trace (h.cache.fileCache k).fd.toNat = some (.file (h.cache.fileCache k).str)
  closed : ∀ name fd before after, h.trace = before ++ .openFile name (some fd) :: after →
    (InSlot h.cache fd → ∃ a ∈ after, a.opens fd = true) →
      (untilReopened fd after).count (.closeFd fd) = 1
  slotted : ∀ fd, openFiles h.trace fd ≠ none → InSlot h.cache fd
  returned : ∀ call, OpensFree h call → 0 ≤ (callGetFd h call).2 →
    openFiles (callGetFd h call).1.trace (callGetFd h call).2.toNat = some (.file call.name)

/-! ## The ledger of descriptors -/

def Action.fdEntry : Action → Option (Ledger.Entry Nat)
  | .openFile _ (some fd) => some (.alloc fd)
  | .closeFd fd => if 0 ≤ fd then some (.free fd.toNat) else none
  | _ => none

def fdEntries (trace : List Action) : List (Ledger.Entry Nat) := trace.filterMap Action.fdEntry

theorem Action.fdEntry_alloc {a : Action} {fd : Nat} :
    a.fdEntry = some (.alloc fd) ↔ a.opens fd = true := by
  cases a with
  | openFile name result =>
    cases result with
    | none => simp [Action.fdEntry, Action.opens]
    | some k => simp [Action.fdEntry, Action.opens]
  | closeFd k =>
    simp only [Action.fdEntry, Action.opens]
    split <;> simp
  | _ => simp [Action.fdEntry, Action.opens]

theorem Action.fdEntry_free {a : Action} {fd : Nat} :
    a.fdEntry = some (.free fd) ↔ a = .closeFd fd := by
  cases a with
  | openFile name result =>
    cases result with
    | none => simp [Action.fdEntry]
    | some k => simp [Action.fdEntry]
  | closeFd k =>
    simp only [Action.fdEntry, Action.closeFd.injEq]
    split
    · simp only [Option.some.injEq, Ledger.Entry.free.injEq]
      omega
    · simp only [reduceCtorEq, false_iff]
      omega
  | _ => simp [Action.fdEntry]

theorem fdEntries_frees (trace : List Action) (fd : Nat) :
    (fdEntries trace).count (.free fd) = trace.count (.closeFd fd) := by
  rw [fdEntries, List.count_filterMap, List.count_eq_countP]
  refine List.countP_congr fun a _ => ?_
  rw [beq_iff_eq, beq_iff_eq]
  exact Action.fdEntry_free

theorem fdEntries_untilReopened (fd : Nat) (calls : List Action) :
    .alloc fd ∉ fdEntries (untilReopened fd calls) := by
  intro hmem
  obtain ⟨a, ha, hentry⟩ := List.mem_filterMap.1 hmem
  have hnot := List.mem_takeWhile_imp ha
  rw [Action.fdEntry_alloc.1 hentry] at hnot
  cases hnot

section

variable {trace : List Action} {name : List Byte} {fd : Nat}

theorem openFiles_fail : openFiles (trace ++ [.openFile name none]) = openFiles trace :=
  tableAfter_append _ _ _

theorem openFiles_open : openFiles (trace ++ [.openFile name (some fd)]) =
    assign (openFiles trace) fd (.file name) :=
  tableAfter_append _ _ _

theorem openFiles_close : openFiles (trace ++ [.closeFd fd]) = release (openFiles trace) fd := by
  simp [openFiles, tableAfter, Action.onTable]

end

/-- The ledger ends with the descriptors that are open. -/
structure OpenFds (trace : List Action) (left : List Nat) : Prop where
  replays : Ledger.replay [] (fdEntries trace) = some left
  mem : ∀ fd, fd ∈ left ↔ openFiles trace fd ≠ none

namespace OpenFds

variable {trace : List Action} {left : List Nat} {name : List Byte} {fd : Nat}

theorem fails (h : OpenFds trace left) : OpenFds (trace ++ [.openFile name none]) left := by
  refine ⟨?_, fun k => ?_⟩
  · rw [fdEntries, List.filterMap_append]
    exact (congrArg _ (List.append_nil _)).trans h.replays
  · rw [openFiles_fail]
    exact h.mem k

theorem opens (h : OpenFds trace left) (hfree : openFiles trace fd = none) :
    OpenFds (trace ++ [.openFile name (some fd)]) (fd :: left) := by
  have hnot : fd ∉ left := fun hmem => (h.mem fd).1 hmem hfree
  refine ⟨?_, fun k => ?_⟩
  · rw [fdEntries, List.filterMap_append]
    refine (Ledger.replay_snoc (.alloc fd) h.replays).trans ?_
    rw [Ledger.step, if_neg hnot]
  · rw [openFiles_open, List.mem_cons]
    by_cases hk : k = fd
    · simp [hk]
    · rw [assign_of_ne hk, or_iff_right hk]
      exact h.mem k

theorem closes (h : OpenFds trace left) (hopen : openFiles trace fd ≠ none) :
    OpenFds (trace ++ [.closeFd fd]) (left.erase fd) := by
  have hmem : fd ∈ left := (h.mem fd).2 hopen
  have hnodup := (Ledger.replay_count List.nodup_nil h.replays).1
  refine ⟨?_, fun k => ?_⟩
  · have hentry : fdEntries (trace ++ [.closeFd fd]) = fdEntries trace ++ [.free fd] := by
      rw [fdEntries, List.filterMap_append]
      simp [fdEntries, Action.fdEntry]
    rw [hentry]
    refine (Ledger.replay_snoc (.free fd) h.replays).trans ?_
    rw [Ledger.step, if_pos hmem]
  · rw [openFiles_close, hnodup.mem_erase_iff]
    by_cases hk : k = fd
    · simp [hk, release]
    · rw [release_of_ne hk, and_iff_right hk]
      exact h.mem k

/-- What was opened and is not open now, or is open anew, was closed once. -/
theorem closed_once (h : OpenFds trace left) {before after : List Action}
    (heq : trace = before ++ .openFile name (some fd) :: after)
    (hgone : fd ∈ left → ∃ a ∈ after, a.opens fd = true) :
    (untilReopened fd after).count (.closeFd fd) = 1 := by
  have hsplit : after = untilReopened fd after ++ after.dropWhile fun a => !a.opens fd :=
    List.takeWhile_append_dropWhile.symm
  have hentries : fdEntries trace = fdEntries before ++ .alloc fd ::
      (fdEntries (untilReopened fd after) ++
        fdEntries (after.dropWhile fun a => !a.opens fd)) := by
    have hafter : fdEntries after = fdEntries (untilReopened fd after) ++
        fdEntries (after.dropWhile fun a => !a.opens fd) := by
      rw [fdEntries, hsplit, List.filterMap_append, ← hsplit]
      rfl
    rw [← hafter, heq, fdEntries, List.filterMap_append]
    rfl
  obtain ⟨hlast, hagain⟩ := (Ledger.balanced_of_replay h.replays).freed_once hentries
    (fdEntries_untilReopened fd after)
  rw [fdEntries_frees] at hlast hagain
  cases hrest : after.dropWhile fun a => !a.opens fd with
  | nil =>
    have hnone : fd ∉ left := by
      intro hmem
      obtain ⟨a, ha, hopens⟩ := hgone hmem
      have hnot := List.dropWhile_eq_nil_iff.1 hrest a ha
      rw [hopens] at hnot
      cases hnot
    have hcount := hlast (by rw [hrest]; rfl)
    rw [List.count_eq_zero_of_not_mem hnone] at hcount
    exact hcount
  | cons a rest =>
    have hopens : a.opens fd = true := by
      have hhead := List.head_dropWhile_not (fun a => !a.opens fd) (l := after) (by simp [hrest])
      simpa [hrest] using hhead
    refine hagain (fdEntries rest) ?_
    rw [hrest, fdEntries, List.filterMap_cons, Action.fdEntry_alloc.2 hopens]
    rfl

end OpenFds

/-! ## One call -/

/-- The slots are the open files, under different names. -/
structure CacheInv (h : Handling) : Prop where
  cache : CacheOpen h.cache (openFiles h.trace)
  names : NamesApart h.cache
  slotted : ∀ fd, openFiles h.trace fd ≠ none → InSlot h.cache fd
  ledger : ∃ left, OpenFds h.trace left

theorem Uncached.inv {h : Handling} (hnew : Uncached h) : CacheInv h := by
  refine ⟨?_, ?_, ?_, [], ?_⟩
  · rw [hnew.cache]
    exact .empty _
  · rw [hnew.cache]
    exact fun _ _ _ _ hstr => absurd rfl hstr
  · intro fd hopen
    rw [hnew.trace] at hopen
    exact absurd rfl hopen
  · rw [hnew.trace]
    exact ⟨rfl, fun fd => by simp [openFiles, tableAfter]⟩

theorem findCached_none {cache : RouterCache} {name : List Byte} (h : findCached cache name = none) :
    ∀ k < maxCacheCount, (cache.fileCache k).str ≠ [] → (cache.fileCache k).str ≠ name := by
  intro k hk hstr heq
  have hnot := List.find?_eq_none.1 h k (List.mem_range.2 hk)
  exact hnot (decide_eq_true ⟨hstr, heq⟩)

section

variable {cache : RouterCache} {t : Table FdUse} {fd : Nat} {name : List Byte}

/-- A name that was not found is in no other slot. -/
theorem NamesApart.take (h : NamesApart cache) (hname : name ≠ [])
    (hmiss : findCached cache name = none) : NamesApart (cache.take fd name) := by
  have hother := findCached_none hmiss
  intro k hk l hl hstr heq
  rcases eq_or_ne k cache.cacheIdx with rfl | hki <;>
    rcases eq_or_ne l cache.cacheIdx with rfl | hli
  · rfl
  · rw [RouterCache.take_self, RouterCache.take_of_ne hli] at heq
    have heq' : name = (cache.fileCache l).str := heq
    exact absurd heq'.symm (hother l hl (heq' ▸ hname))
  · rw [RouterCache.take_of_ne hki] at hstr heq
    rw [RouterCache.take_self] at heq
    exact absurd heq (hother k hk hstr)
  · rw [RouterCache.take_of_ne hki] at hstr heq
    rw [RouterCache.take_of_ne hli] at heq
    exact h k hk l hl hstr heq

/-- What is open after a slot was taken is in a slot. -/
theorem inSlot_take (hidx : cache.cacheIdx < maxCacheCount) (hname : name ≠ [])
    (hslots : ∀ k, t k ≠ none → InSlot cache k) {k : Nat}
    (hopen : tableAfterSlot t (cache.fileCache cache.cacheIdx) fd name k ≠ none) :
    InSlot (cache.take fd name) k := by
  by_cases hk : k = fd
  · refine ⟨cache.cacheIdx, hidx, ?_⟩
    rw [RouterCache.take_self]
    exact ⟨hname, congrArg _ hk.symm⟩
  · obtain ⟨hbefore, hkept⟩ := tableAfterSlot_open hk hopen
    obtain ⟨l, hl, hstr, hfd⟩ := hslots k hbefore
    have hne : l ≠ cache.cacheIdx := by
      rintro rfl
      refine hkept hstr ?_
      rw [hfd, Int.toNat_natCast]
    refine ⟨l, hl, ?_⟩
    rw [RouterCache.take_of_ne hne]
    exact ⟨hstr, hfd⟩

end

section

variable {h g : Handling} {name : List Byte} {r : Int}

/-- Every `close` is of a descriptor that is open. -/
theorem Got.openFds (hgot : Got h name g r) (hcache : CacheOpen h.cache (openFiles h.trace))
    (hfree : ∀ fd, h.env.opened = some fd → openFiles h.trace fd = none) {left : List Nat}
    (hleft : OpenFds h.trace left) : ∃ left', OpenFds g.trace left' := by
  cases hgot with
  | unnamed => exact ⟨left, hleft⟩
  | hit => exact ⟨left, hleft⟩
  | unopened => exact ⟨left, hleft.fails⟩
  | irregular fd hopened =>
    refine ⟨_, (hleft.opens (hfree fd hopened)).closes ?_⟩
    rw [openFiles_open, assign_self]
    exact Option.some_ne_none _
  | cached fd hopened =>
    have hopens : OpenFds (h.trace ++ [.openFile name (some fd)]) (fd :: left) :=
      hleft.opens (hfree fd hopened)
    unfold cacheFile
    simp only
    split
    · rename_i hused
      obtain ⟨hpos, hopen⟩ := hcache.opened _ hcache.idx hused
      have hstill : openFiles (h.trace ++ [.openFile name (some fd)])
          (h.cache.fileCache h.cache.cacheIdx).fd.toNat ≠ none := by
        rw [openFiles_open, assign_keeps (hfree fd hopened) hopen]
        exact Option.some_ne_none _
      have hcloses := hopens.closes hstill
      rw [Int.toNat_of_nonneg hpos] at hcloses
      exact ⟨_, hcloses⟩
    · exact ⟨_, hopens⟩

/-- A slot that is taken leaves the files that are open in slots, the new one among them. -/
theorem CacheInv.taken {fd : Nat} (hinv : CacheInv h) (hfree : openFiles h.trace fd = none)
    (hname : name ≠ []) (hmiss : findCached h.cache name = none) (hleft : ∃ left, OpenFds g.trace left)
    (hg : g = cacheFile (h.log (.openFile name (some fd))) fd name) :
    CacheInv g ∧ openFiles g.trace fd = some (.file name) := by
  have hcache : g.cache = h.cache.take fd name := by
    rw [hg, cacheFile_cache]
    rfl
  have htable : openFiles g.trace =
      tableAfterSlot (openFiles h.trace) (h.cache.fileCache h.cache.cacheIdx) fd name := by
    rw [hg]
    exact cacheFile_table rfl hinv.cache
  refine ⟨⟨?_, ?_, ?_, hleft⟩, ?_⟩
  · rw [hcache, htable]
    exact hinv.cache.take hfree
  · rw [hcache]
    exact hinv.names.take hname hmiss
  · rw [hcache, htable]
    exact fun k hopen => inSlot_take hinv.cache.idx hname hinv.slotted hopen
  · rw [htable]
    exact tableAfterSlot_new hinv.cache hfree

/-- One call keeps the invariant, and what it returns is open for the name it was given. -/
theorem Got.inv (hgot : Got h name g r) (hinv : CacheInv h)
    (hfree : ∀ fd, h.env.opened = some fd → openFiles h.trace fd = none) :
    CacheInv g ∧ (0 ≤ r → openFiles g.trace r.toNat = some (.file name)) := by
  obtain ⟨left, hleft⟩ := hinv.ledger
  have hledger := hgot.openFds hinv.cache hfree hleft
  obtain ⟨htable, hsame, hr⟩ | ⟨fd, hopened, hne, -, -, hmiss, hr, hg⟩ := hgot.table rfl hfree
  · have htable' : openFiles g.trace = openFiles h.trace := htable
    refine ⟨⟨?_, ?_, ?_, hledger⟩, fun hpos => ?_⟩
    · rw [hsame, htable']
      exact hinv.cache
    · rw [hsame]
      exact hinv.names
    · rw [hsame, htable']
      exact hinv.slotted
    · obtain hneg | ⟨k, hk, hstr, hne, hr⟩ := hr
      · omega
      · rw [htable', hr, ← hstr]
        exact (hinv.cache.opened k hk (hstr ▸ hne)).2
  · obtain ⟨hinv', hnew⟩ := hinv.taken (hfree fd hopened) hne hmiss hledger hg
    refine ⟨hinv', fun _ => ?_⟩
    rw [hr, Int.toNat_natCast]
    exact hnew

end

/-! ## Every run -/

section

variable {h g : Handling} {call : FileCall}

theorem CacheInv.called (hinv : CacheInv h) (hfree : OpensFree h call) :
    CacheInv (callGetFd h call).1 ∧ (0 ≤ (callGetFd h call).2 →
      openFiles (callGetFd h call).1.trace (callGetFd h call).2.toNat = some (.file call.name)) :=
  Got.inv (h := { h with env := call.env }) (getFd_got _ _)
    ⟨hinv.cache, hinv.names, hinv.slotted, hinv.ledger⟩ hfree

theorem fileStep_inv (hinv : CacheInv h) (hfree : OpensFree h call)
    (hstep : fileStep h call = some g) : CacheInv g := by
  cases hstep
  exact (hinv.called hfree).1

theorem CacheInv.exact (hinv : CacheInv h) : CacheExact h := by
  obtain ⟨left, hleft⟩ := hinv.ledger
  refine ⟨hinv.names, hinv.cache.apart, hinv.cache.opened, ?_, hinv.slotted, fun call hfree =>
    (hinv.called hfree).2⟩
  intro name fd before after heq hgone
  exact hleft.closed_once heq fun hmem => hgone (hinv.slotted fd ((hleft.mem fd).1 hmem))

/-- In every run of calls the slots are exactly the files that are open, and every descriptor
that is in none of them has been closed once. -/
theorem file_cache_exact (hnew : Uncached h)
    (hrun : Reaches (graph fileStep) OpensFree h g) : CacheExact g :=
  (hrun.invariant _ hnew.inv fun _ _ _ hinv hfree hstep => fileStep_inv hinv hfree hstep).exact

end

/-- A call for the file numbered `n`, which would be opened as `fd`. -/
def fileCall (n fd : Nat) : FileCall where
  name := utf8 "static/" ++ [BitVec.ofNat 8 (48 + n / 10), BitVec.ofNat 8 (48 + n % 10)]
  env := { Env.opens with opened := some fd }

/-- The file 32 pushes out the file 0, whose number is given out again, first for a directory.
The file 5 is found, and the file 41 does not exist. -/
def fullCache : List FileCall :=
  ((List.range 33).map fun n => fileCall n (n + 3)) ++
    [{ fileCall 40 3 with env := { Env.opens with opened := some 3, regular := false } },
      fileCall 33 3, fileCall 5 4, { fileCall 41 0 with env := { Env.opens with opened := none } }]

instance (h : Handling) (call : FileCall) : Decidable (OpensFree h call) :=
  inferInstanceAs (Decidable (∀ fd, call.env.opened = some fd → openFiles h.trace fd = none))

theorem file_cache_exact_full :
    ∃ g, run fileStep (.fresh HttpContext.zero .opens) fullCache = some g ∧ CacheExact g := by
  have hsome : (run fileStep (.fresh HttpContext.zero .opens) fullCache).isSome := by decide +kernel
  obtain ⟨g, hrun⟩ := Option.isSome_iff_exists.1 hsome
  have hallowed : allowedAlong fileStep OpensFree (.fresh HttpContext.zero .opens) fullCache := by
    decide +kernel
  exact ⟨g, hrun, file_cache_exact ⟨rfl, rfl⟩ (reaches_of_run hallowed hrun)⟩

end PingServer
