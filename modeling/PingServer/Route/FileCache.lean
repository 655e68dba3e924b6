import PingServer.Lib.Ledger
import PingServer.Lib.Machine
import PingServer.Route.FileSteps

/-!
# The file cache

`get_fd` keeps the files it opens in 32 slots, and closes the oldest one for the next. Over
any run of calls the slots are exactly the files that are open, each under its own name and
its own descriptor, and what is in no slot has been closed once.
-/

namespace PingServer

open Descriptors ByteMem

/-! ## One call -/

/-- The cache holds open files, each under its own descriptor. -/
structure CacheOpen (cache : RouterCache) (table : Table FdUse) : Prop where
  idx : cache.cacheIdx < maxCacheCount
  opened : ∀ k < maxCacheCount, (cache.fileCache k).str ≠ [] →
    0 ≤ (cache.fileCache k).fd ∧
      table (cache.fileCache k).fd.toNat = some (.file (cache.fileCache k).str)
  apart : ∀ k < maxCacheCount, ∀ l < maxCacheCount, (cache.fileCache k).str ≠ [] →
    (cache.fileCache l).str ≠ [] → (cache.fileCache k).fd = (cache.fileCache l).fd → k = l

theorem CacheOpen.empty (t : Table FdUse) : CacheOpen RouterCache.empty t := by
  refine ⟨by decide, ?_, ?_⟩ <;> simp [RouterCache.empty]

/-- What is cached does not depend on descriptors that are not files. -/
theorem CacheOpen.congr {cache : RouterCache} {t t' : Table FdUse} (h : CacheOpen cache t)
    (hkeep : ∀ k name, t k = some (.file name) → t' k = some (.file name)) : CacheOpen cache t' :=
  ⟨h.idx, fun k hk hstr => ⟨(h.opened k hk hstr).1, hkeep _ _ (h.opened k hk hstr).2⟩, h.apart⟩

theorem Handling.log_trace (h : Handling) (a : Action) : (h.log a).trace = h.trace ++ [a] := rfl

/-- What `get_fd` does to the table: nothing, unless it takes a slot of the cache. -/
theorem Got.table {h g : Handling} {name : List Byte} {r : Int} {t₀ t : Table FdUse}
    (hgot : Got h name g r) (ht : tableAfter t₀ h.trace = t)
    (hfree : ∀ fd, h.env.opened = some fd → t fd = none) :
    (tableAfter t₀ g.trace = t ∧ g.cache = h.cache ∧
        (r < 0 ∨ ∃ k < maxCacheCount, (h.cache.fileCache k).str = name ∧ name ≠ [] ∧
          r = (h.cache.fileCache k).fd)) ∨
      ∃ fd : Nat, h.env.opened = some fd ∧ name ≠ [] ∧ name.length < maxPathLen ∧
        h.env.regular = true ∧ findCached h.cache name = none ∧ r = fd ∧
          g = cacheFile (h.log (.openFile name (some fd))) fd name := by
  cases hgot with
  | unnamed => exact .inl ⟨ht, rfl, .inl (by decide)⟩
  | hit k hk hstr hne => exact .inl ⟨ht, rfl, .inr ⟨k, hk, hstr, hne, rfl⟩⟩
  | unopened =>
    refine .inl ⟨?_, rfl, .inl (by decide)⟩
    rw [Handling.log_trace, tableAfter_append, ht]
    rfl
  | irregular fd hopened =>
    refine .inl ⟨?_, rfl, .inl (by decide)⟩
    rw [Handling.log_trace, Handling.log_trace, tableAfter_append, tableAfter_append, ht]
    exact release_assign (hfree fd hopened)
  | cached fd hopened hne hlen hregular hmiss =>
    exact .inr ⟨fd, hopened, hne, hlen, hregular, hmiss, rfl, rfl⟩

/-- The table after a file was opened and an entry `old` pushed out of the cache. -/
def tableAfterSlot (t : Table FdUse) (old : FileCache) (fd : Nat) (name : List Byte) :
    Table FdUse :=
  if old.str ≠ [] then release (assign t fd (.file name)) old.fd.toNat
  else assign t fd (.file name)

theorem cacheFile_table {h : Handling} {fd : Nat} {name : List Byte} {t₀ t : Table FdUse}
    (ht : tableAfter t₀ h.trace = t) (hcache : CacheOpen h.cache t) :
    tableAfter t₀ (cacheFile (h.log (.openFile name (some fd))) fd name).trace =
      tableAfterSlot t (h.cache.fileCache h.cache.cacheIdx) fd name := by
  have hopen : tableAfter t₀ (h.log (.openFile name (some fd))).trace =
      assign t fd (.file name) := by
    rw [Handling.log_trace, tableAfter_append, ht]
    rfl
  unfold cacheFile tableAfterSlot
  have hsame : (h.log (.openFile name (some fd))).cache = h.cache := rfl
  simp only [hsame]
  split
  · rename_i hused
    rw [Handling.log_trace, tableAfter_append, hopen]
    exact if_pos (hcache.opened _ hcache.idx hused).1
  · exact hopen

/-- The next slot of the cache is taken for a file. -/
def RouterCache.take (cache : RouterCache) (fd : Nat) (name : List Byte) : RouterCache :=
  ⟨fun k => if k = cache.cacheIdx then ⟨fd, name⟩ else cache.fileCache k,
    (cache.cacheIdx + 1) % maxCacheCount⟩

theorem cacheFile_cache (h : Handling) (fd : Nat) (name : List Byte) :
    (cacheFile h fd name).cache = h.cache.take fd name := by
  unfold cacheFile
  simp only
  split <;> rfl

section

variable {cache : RouterCache} {t : Table FdUse} {fd : Nat} {name : List Byte}

@[simp] theorem RouterCache.take_self :
    (cache.take fd name).fileCache cache.cacheIdx = ⟨fd, name⟩ := if_pos rfl

@[simp] theorem RouterCache.take_of_ne {k : Nat} (h : k ≠ cache.cacheIdx) :
    (cache.take fd name).fileCache k = cache.fileCache k := if_neg h

/-- Only the new number and the one pushed out change. -/
theorem tableAfterSlot_keeps {k : Nat} {x : FdUse} (hfree : t fd = none) (hk : t k = some x)
    (hold : (cache.fileCache cache.cacheIdx).str ≠ [] →
      k ≠ (cache.fileCache cache.cacheIdx).fd.toNat) :
    tableAfterSlot t (cache.fileCache cache.cacheIdx) fd name k = some x := by
  unfold tableAfterSlot
  split
  · rename_i hused
    rw [release_of_ne (hold hused)]
    exact assign_keeps hfree hk
  · exact assign_keeps hfree hk

theorem tableAfterSlot_new (hcache : CacheOpen cache t) (hfree : t fd = none) :
    tableAfterSlot t (cache.fileCache cache.cacheIdx) fd name fd = some (.file name) := by
  unfold tableAfterSlot
  split
  · rename_i hused
    rw [release_of_ne, assign_self]
    intro he
    have hopen := (hcache.opened _ hcache.idx hused).2
    rw [← he, hfree] at hopen
    cases hopen
  · exact assign_self

/-- What is still open was open before, and was not pushed out. -/
theorem tableAfterSlot_open {old : FileCache} {k : Nat} (hk : k ≠ fd)
    (hopen : tableAfterSlot t old fd name k ≠ none) :
    t k ≠ none ∧ (old.str ≠ [] → k ≠ old.fd.toNat) := by
  unfold tableAfterSlot at hopen
  split at hopen
  · have hold : k ≠ old.fd.toNat := by
      rintro rfl
      exact hopen (if_pos rfl)
    rw [release_of_ne hold, assign_of_ne hk] at hopen
    exact ⟨hopen, fun _ => hold⟩
  · rename_i hunused
    rw [assign_of_ne hk] at hopen
    exact ⟨hopen, fun hused => absurd hused hunused⟩

/-- The cache after the slot was taken holds open files again. -/
theorem CacheOpen.take (hcache : CacheOpen cache t) (hfree : t fd = none) :
    CacheOpen (cache.take fd name)
      (tableAfterSlot t (cache.fileCache cache.cacheIdx) fd name) := by
  have hfresh : ∀ k < maxCacheCount, (cache.fileCache k).str ≠ [] →
      (cache.fileCache k).fd ≠ fd := by
    intro k hk hstr he
    have hopen := (hcache.opened k hk hstr).2
    rw [he, Int.toNat_natCast, hfree] at hopen
    cases hopen
  refine ⟨Nat.mod_lt _ (by decide), ?_, ?_⟩
  · intro k hk hstr
    rcases eq_or_ne k cache.cacheIdx with rfl | hne
    · rw [RouterCache.take_self]
      exact ⟨Int.natCast_nonneg fd, tableAfterSlot_new hcache hfree⟩
    · rw [RouterCache.take_of_ne hne] at hstr ⊢
      obtain ⟨hpos, hopen⟩ := hcache.opened k hk hstr
      refine ⟨hpos, tableAfterSlot_keeps hfree hopen fun hused he => hne ?_⟩
      have hpos' := (hcache.opened _ hcache.idx hused).1
      exact hcache.apart k hk _ hcache.idx hstr hused (by omega)
  · intro k hk l hl hkstr hlstr heq
    rcases eq_or_ne k cache.cacheIdx with rfl | hki <;>
      rcases eq_or_ne l cache.cacheIdx with rfl | hli
    · rfl
    · rw [RouterCache.take_of_ne hli] at hlstr heq
      rw [RouterCache.take_self] at heq
      exact absurd heq.symm (hfresh l hl hlstr)
    · rw [RouterCache.take_of_ne hki] at hkstr heq
      rw [RouterCache.take_self] at heq
      exact absurd heq (hfresh k hk hkstr)
    · rw [RouterCache.take_of_ne hki] at hkstr heq
      rw [RouterCache.take_of_ne hli] at hlstr heq
      exact hcache.apart k hk l hl hkstr hlstr heq

end

end PingServer
