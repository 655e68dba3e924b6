import PingServer.Ds.LinkList
import PingServer.Lib.Machine
import Mathlib.Data.List.Chain

/-!
# The pool of connection numbers

`id_list.c`. The nodes of a pool are the cells of one array, so a node is known
by its index, which is also the number it carries. Taking and giving back a
number keeps the list of the free ones well formed.
-/

namespace PingServer

open Machine

/-- `x ++` and `x --` on 64 bits. -/
def inc64 (x : Nat) : Nat := (x + 1) % 2 ^ 64
def dec64 (x : Nat) : Nat := (x + 2 ^ 64 - 1) % 2 ^ 64

theorem inc64_eq {x : Nat} (h : x < 2 ^ 63) : inc64 x = x + 1 := Nat.mod_eq_of_lt (by omega)

theorem dec64_eq {x : Nat} (h : x < 2 ^ 63) : dec64 (x + 1) = x := by
  unfold dec64
  omega

structure IdList where
  list : LinkedList
  /-- `count`, a `size_t` -/
  count : Nat

def idListAdd (pool : IdList) (number : Nat) : Option IdList :=
  (listInsertFront pool.list number).map fun l =>
    { list := l, count := dec64 pool.count }

/-- The number taken; -1 is `none`. -/
def idListGet (pool : IdList) : IdList × Option Nat :=
  match pool.list.first with
  | none => (pool, none)
  | some head =>
    let next := (pool.list.nodes head).next
    let l :=
      match next with
      | some n => pool.list.set n { pool.list.nodes n with prev := none }
      | none => { pool.list with last := none }
    ({ list := { l.set head ⟨none, none⟩ with first := next }, count := inc64 pool.count },
      some head)

/-! ## Taking and giving back -/

/-- Giving back a number that is not in the pool puts it in front. -/
theorem idListAdd_represents {pool : IdList} {free : List Nat} {number : Nat}
    (h : Represents pool.list free) (hn : number ∉ free) :
    ∃ pool', idListAdd pool number = some pool' ∧ Represents pool'.list (number :: free) ∧
      pool'.count = dec64 pool.count := by
  have hrep := @Represents.linkIn _ [] _ _ h hn
  exact ⟨⟨pool.list.linkIn number none free.head?, dec64 pool.count⟩,
    by rw [idListAdd, h.insertFront hn, Option.map_some], hrep, rfl⟩

/-- The pool unlinks the first node itself; it takes it out. -/
theorem idListGet_eq {pool : IdList} {x : Nat} {free : List Nat}
    (h : Represents pool.list (x :: free)) :
    idListGet pool =
      (⟨pool.list.takeOut x none free.head?, inc64 pool.count⟩, some x) := by
  have hfirst : pool.list.first = some x := h.first
  have hlast := @Represents.last_eq_iff _ [] _ _ h
  have hnode : pool.list.nodes x = ⟨none, free.head?⟩ := @Represents.node _ [] _ _ h
  simp only [idListGet, hfirst, hnode]
  apply congrArg fun l => ((⟨l, inc64 pool.count⟩ : IdList), some x)
  cases free with
  | nil =>
    apply LinkedList.ext_pointers
    · intro y
      grind [DoublyLinked.takeOut]
    · intro y
      grind [DoublyLinked.takeOut]
    · rfl
    · rfl
  | cons y free =>
    have hxy : x ≠ y := fun he => (List.nodup_cons.1 h.nodup).1 (he ▸ List.mem_cons_self)
    apply LinkedList.ext_pointers
    · intro z
      grind [DoublyLinked.takeOut]
    · intro z
      grind [DoublyLinked.takeOut]
    · rfl
    · simp

/-- The first free number is taken. -/
theorem idListGet_cons {pool : IdList} {x : Nat} {free : List Nat}
    (h : Represents pool.list (x :: free)) :
    ∃ pool', idListGet pool = (pool', some x) ∧ Represents pool'.list free ∧
      pool'.count = inc64 pool.count :=
  ⟨_, idListGet_eq h, @Represents.takeOut _ [] _ _ h, rfl⟩

/-! ## What `begin` leads to -/

/-- All that taking and giving back looks at: `begin` leads through `xs`, wherever the last of
them points. -/
structure Leads (l : LinkedList) (xs : List Nat) : Prop where
  nodup : xs.Nodup
  first : ∀ x ∈ xs.head?, l.first = some x
  nexts : xs.IsChain fun x y => l.nexts x = some y
  /-- `list_insert_front` asks for both ends -/
  empty : l.first = none → l.last = none

theorem isChain_of_segment {prev next : Nat → Option Nat} {xs : List Nat} {q : Option Nat} :
    ∀ {p : Option Nat}, DoublyLinked.Segment prev next p xs q →
      xs.IsChain fun x y => next x = some y := by
  induction xs with
  | nil =>
    intro p _
    exact .nil
  | cons x xs ih =>
    rintro p ⟨-, hx, hrest⟩
    refine (ih hrest).cons fun y hy => ?_
    rw [hx, Option.mem_def.1 hy]
    rfl

theorem Represents.leads {l : LinkedList} {xs : List Nat} (h : Represents l xs) : Leads l xs where
  nodup := h.nodup
  first := fun x hx => h.first.trans hx
  nexts := isChain_of_segment h.segment
  empty := by
    intro hfirst
    rw [h.first, List.head?_eq_none_iff] at hfirst
    rw [h.last, hfirst]
    rfl

theorem idListGet_some {pool : IdList} {x : Nat} (hfirst : pool.list.first = some x) :
    (idListGet pool).2 = some x ∧ (idListGet pool).1.list.first = pool.list.nexts x ∧
      ∀ y, y ≠ x → (idListGet pool).1.list.nexts y = pool.list.nexts y := by
  simp only [idListGet, hfirst]
  refine ⟨trivial, rfl, fun y hy => ?_⟩
  simp only [LinkedList.nexts_ends, LinkedList.nexts_set, if_neg hy]
  cases hnext : (pool.list.nodes x).next with
  | none => rfl
  | some n =>
    simp only [LinkedList.nexts_set]
    split
    · rename_i hyn
      rw [hyn]
      rfl
    · rfl

/-- Both ends are `NULL` together. -/
theorem idListGet_empty {pool : IdList} (h : pool.list.first = none → pool.list.last = none) :
    (idListGet pool).1.list.first = none → (idListGet pool).1.list.last = none := by
  unfold idListGet
  split
  · exact h
  · rename_i x _
    intro hnext
    have hnone : (pool.list.nodes x).next = none := hnext
    simp only [hnone]
    rfl

theorem idListGet_leads {pool : IdList} {x : Nat} {free : List Nat}
    (h : Leads pool.list (x :: free)) :
    ∃ pool', idListGet pool = (pool', some x) ∧ Leads pool'.list free ∧
      pool'.count = inc64 pool.count := by
  obtain ⟨hx, hfree⟩ := List.nodup_cons.1 h.nodup
  obtain ⟨hnext, hrest⟩ := List.isChain_cons.1 h.nexts
  have hbegin : pool.list.first = some x := h.first x rfl
  obtain ⟨hgot, hfirst, hothers⟩ := idListGet_some hbegin
  refine ⟨(idListGet pool).1, Prod.ext rfl hgot, ⟨hfree, ?_, ?_, idListGet_empty h.empty⟩, ?_⟩
  · intro y hy
    rw [hfirst]
    exact hnext y hy
  · refine hrest.imp_of_mem_imp fun y z hy _ hyz => ?_
    rw [hothers y fun he => hx (he ▸ hy)]
    exact hyz
  · simp only [idListGet, hbegin]

/-- The number is put in front of what was there. -/
theorem idListAdd_some {pool : IdList} {number : Nat}
    (h : pool.list.first = none → pool.list.last = none) :
    ∃ pool', idListAdd pool number = some pool' ∧ pool'.list.first = some number ∧
      (∀ y, pool'.list.nexts y = if y = number then pool.list.first else pool.list.nexts y) ∧
        pool'.count = dec64 pool.count := by
  cases hfirst : pool.list.first with
  | none =>
    refine ⟨⟨{ pool.list.set number ⟨none, none⟩ with first := some number, last := some number },
      dec64 pool.count⟩, ?_, rfl, fun y => ?_, rfl⟩
    · rw [idListAdd, listInsertFront, if_pos ⟨hfirst, h hfirst⟩, Option.map_some]
    · exact LinkedList.nexts_set (l := pool.list)
  | some b =>
    obtain ⟨l, hl, hbegin, hnexts⟩ : ∃ l, listInsertFront pool.list number = some l ∧
        l.first = some number ∧
        ∀ y, l.nexts y = if y = number then some b else pool.list.nexts y := by
      simp only [listInsertFront, hfirst, reduceCtorEq, false_and, ↓reduceIte]
      refine ⟨_, rfl, rfl, fun y => ?_⟩
      grind
    exact ⟨⟨l, dec64 pool.count⟩, by rw [idListAdd, hl, Option.map_some], hbegin, hnexts, rfl⟩

theorem idListAdd_leads {pool : IdList} {free : List Nat} {number : Nat}
    (h : Leads pool.list free) (hn : number ∉ free) :
    ∃ pool', idListAdd pool number = some pool' ∧ Leads pool'.list (number :: free) ∧
      pool'.count = dec64 pool.count := by
  obtain ⟨pool', hadd, hfirst, hnexts, hcount⟩ := @idListAdd_some pool number h.empty
  refine ⟨pool', hadd, ⟨List.nodup_cons.2 ⟨hn, h.nodup⟩, ?_, ?_, ?_⟩, hcount⟩
  · intro x hx
    rw [hfirst]
    exact hx
  · refine List.IsChain.cons (h.nexts.imp_of_mem_imp fun x y hx _ hxy => ?_) fun x hx => ?_
    · rw [hnexts, if_neg fun he : x = number => hn (he ▸ hx)]
      exact hxy
    · rw [hnexts, if_pos rfl]
      exact h.first x hx
  · intro hnone
    rw [hfirst] at hnone
    cases hnone

/-- The numbers below `max` are either `held` or what `begin` leads to first. A `tidy` pool has
nothing behind them, its list is in order, and `count` counts those that are held. -/
structure PoolInv (tidy : Prop) (pool : IdList) (held : List Nat) (max : Nat) : Prop where
  free : ∃ free, Leads pool.list free ∧ (tidy → Represents pool.list free) ∧
    (held ++ free).Perm (List.range max)
  count : tidy → pool.count = held.length
  max : max < 2 ^ 32

namespace PoolInv

variable {tidy : Prop} {pool : IdList} {held : List Nat} {max : Nat}

theorem perm {held' : List Nat} (h : PoolInv tidy pool held max) (p : held.Perm held') :
    PoolInv tidy pool held' max := by
  obtain ⟨free, hleads, htidy, hperm⟩ := h.free
  exact ⟨⟨free, hleads, htidy, (p.append_right free).symm.trans hperm⟩,
    fun ht => (h.count ht).trans p.length_eq, h.max⟩

theorem nodup (h : PoolInv tidy pool held max) : held.Nodup := by
  obtain ⟨free, -, -, hperm⟩ := h.free
  exact (List.nodup_append.1 (hperm.nodup_iff.2 List.nodup_range)).1

theorem length_le (h : PoolInv tidy pool held max) : held.length ≤ max := by
  obtain ⟨free, -, -, hperm⟩ := h.free
  have hlen := hperm.length_eq
  rw [List.length_append, List.length_range] at hlen
  omega

/-- As long as not all numbers are held, the pool gives out one that is not. -/
theorem get (h : PoolInv tidy pool held max) (hless : held.length < max) :
    ∃ pool' i, idListGet pool = (pool', some i) ∧ PoolInv tidy pool' (i :: held) max := by
  have hmax := h.max
  obtain ⟨free, hleads, htidy, hperm⟩ := h.free
  cases free with
  | nil =>
    have hlen := hperm.length_eq
    rw [List.append_nil, List.length_range] at hlen
    omega
  | cons i free =>
    obtain ⟨pool', hget, hleads', hcount⟩ := idListGet_leads hleads
    refine ⟨pool', i, hget, ⟨free, hleads', fun ht => ?_, List.perm_middle.symm.trans hperm⟩,
      fun ht => ?_, hmax⟩
    · obtain ⟨pool'', hget', hrep, -⟩ := idListGet_cons (htidy ht)
      obtain rfl : pool' = pool'' := congrArg Prod.fst (hget.symm.trans hget')
      exact hrep
    · rw [hcount, h.count ht, List.length_cons, inc64_eq (by omega)]

/-- A number that is held can be given back. -/
theorem add {i : Nat} (h : PoolInv tidy pool (i :: held) max) :
    ∃ pool', idListAdd pool i = some pool' ∧ PoolInv tidy pool' held max := by
  have hle := h.length_le
  have hmax := h.max
  obtain ⟨free, hleads, htidy, hperm⟩ := h.free
  have hnodup := hperm.nodup_iff.2 List.nodup_range
  have hi : i ∉ free := fun hmem =>
    (List.nodup_append.1 hnodup).2.2 i List.mem_cons_self i hmem rfl
  obtain ⟨pool', hadd, hleads', hcount⟩ := idListAdd_leads hleads hi
  refine ⟨pool', hadd, ⟨i :: free, hleads', fun ht => ?_, List.perm_middle.trans hperm⟩,
    fun ht => ?_, hmax⟩
  · obtain ⟨pool'', hadd', hrep, -⟩ := idListAdd_represents (htidy ht) hi
    obtain rfl : pool' = pool'' := Option.some.inj (hadd.symm.trans hadd')
    exact hrep
  · rw [List.length_cons] at hle
    rw [hcount, h.count ht, List.length_cons, dec64_eq (by omega)]

theorem free_nil {free : List Nat} (hperm : (held ++ free).Perm (List.range max))
    (hfull : held.length = max) : free = [] := by
  have hlen := hperm.length_eq
  rw [List.length_append, List.length_range] at hlen
  exact List.length_eq_zero_iff.1 (by omega)

/-- Nothing is left of a tidy pool when all numbers are held. -/
theorem get_full (h : PoolInv True pool held max) (hfull : held.length = max) :
    idListGet pool = (pool, none) := by
  obtain ⟨free, -, hrep, hperm⟩ := h.free
  have hfirst : pool.list.first = none := by
    rw [(hrep trivial).first, free_nil hperm hfull]
    rfl
  simp [idListGet, hfirst]

theorem get_cases (h : PoolInv True pool held max) :
    (idListGet pool = (pool, none) ∧ held.length = max) ∨
      ∃ pool' i, idListGet pool = (pool', some i) ∧ PoolInv True pool' (i :: held) max := by
  rcases h.length_le.lt_or_eq with hless | hfull
  · exact .inr (h.get hless)
  · exact .inl ⟨h.get_full hfull, hfull⟩

/-- A pool that is not tidy stays what it is when a number comes back although all are held. -/
theorem add_full {pool' : IdList} {i : Nat} (h : PoolInv tidy pool held max) (hwild : ¬ tidy)
    (hfull : held.length = max) (hadd : idListAdd pool i = some pool') :
    PoolInv tidy pool' held max := by
  obtain ⟨free, hleads, -, hperm⟩ := h.free
  obtain rfl := free_nil hperm hfull
  obtain ⟨pool'', hadd', hfirst, -, -⟩ := @idListAdd_some pool i hleads.empty
  obtain rfl : pool'' = pool' := Option.some.inj (hadd'.symm.trans hadd)
  refine ⟨⟨[], ⟨List.nodup_nil, ?_, .nil, fun hnone => ?_⟩, fun ht => absurd ht hwild, hperm⟩,
    fun ht => absurd ht hwild, h.max⟩
  · intro x hx
    cases hx
  · rw [hfirst] at hnone
    cases hnone

end PoolInv

/-! ## Every run -/

/-- A pool of the numbers below `n`, all of them free, in any order. -/
structure PoolStart (pool : IdList) (n : Nat) : Prop where
  free : ∃ free, Represents pool.list free ∧ free.Perm (List.range n)
  count : pool.count = 0
  /-- the numbers are of type `int` -/
  int : n ≤ 2 ^ 31

/-- A pool and the numbers that are handed out. -/
structure PoolState where
  pool : IdList
  held : List Nat

inductive PoolOp where
  | get
  | add (number : Nat)
  deriving DecidableEq, Repr

/-- Only a number that is handed out is given back. -/
def poolStep (s : PoolState) : PoolOp → Option PoolState
  | .get =>
    let r := idListGet s.pool
    some ⟨r.1, r.2.toList ++ s.held⟩
  | .add number =>
    if number ∈ s.held then
      (idListAdd s.pool number).map fun pool => ⟨pool, s.held.erase number⟩
    else none

theorem PoolStart.inv {pool : IdList} {n : Nat} (h : PoolStart pool n) : PoolInv True pool [] n where
  free := by
    obtain ⟨free, hrep, hperm⟩ := h.free
    exact ⟨free, hrep.leads, fun _ => hrep, hperm⟩
  count := fun _ => h.count
  max := Nat.lt_of_le_of_lt h.int (by decide)

theorem poolStep_inv {s t : PoolState} {op : PoolOp} {n : Nat}
    (h : PoolInv True s.pool s.held n) (hstep : poolStep s op = some t) :
    PoolInv True t.pool t.held n := by
  cases op with
  | get =>
    cases hstep
    obtain ⟨hget, -⟩ | ⟨pool', i, hget, hinv⟩ := h.get_cases
    · rw [hget]
      exact h
    · rw [hget]
      exact hinv
  | add number =>
    simp only [poolStep] at hstep
    split at hstep
    · rename_i hheld
      obtain ⟨pool', hadd, hinv⟩ := (h.perm (List.perm_cons_erase hheld)).add
      rw [hadd, Option.map_some] at hstep
      cases hstep
      exact hinv
    · cases hstep

/-- What the holders of the numbers below `n` can rely on. -/
structure PoolSafe (pool : IdList) (held : List Nat) (n : Nat) : Prop where
  partition : ∃ free, Represents pool.list free ∧ (held ++ free).Perm (List.range n) ∧
    (free = [] → pool.list.first = none ∧ pool.list.last = none)
  fresh : ∀ i, (idListGet pool).2 = some i → i < n ∧ i ∉ held
  exhausted : (idListGet pool).2 = none ↔ ∀ i, i < n → i ∈ held
  takesBack : ∀ i ∈ held, idListAdd pool i ≠ none
  count : pool.count = held.length

namespace PoolInv

variable {tidy : Prop} {pool : IdList} {held : List Nat} {n : Nat}

/-- A number that is handed out is below `n`. -/
theorem lt (h : PoolInv tidy pool held n) {i : Nat} (hi : i ∈ held) : i < n := by
  obtain ⟨free, -, -, hperm⟩ := h.free
  exact List.mem_range.1 (hperm.mem_iff.1 (List.mem_append_left free hi))

theorem exhausted_iff (h : PoolInv True pool held n) :
    (idListGet pool).2 = none ↔ ∀ i, i < n → i ∈ held := by
  obtain ⟨hget, hfull⟩ | ⟨pool', i, hget, hinv⟩ := h.get_cases
  · rw [hget]
    obtain ⟨free, -, -, hperm⟩ := h.free
    rw [free_nil hperm hfull, List.append_nil] at hperm
    exact ⟨fun _ i hi => hperm.mem_iff.2 (List.mem_range.2 hi), fun _ => rfl⟩
  · rw [hget]
    obtain ⟨hi, -⟩ := List.nodup_cons.1 hinv.nodup
    constructor
    · intro hnone
      cases hnone
    · intro hall
      exact absurd (hall i (hinv.lt List.mem_cons_self)) hi

theorem safe (h : PoolInv True pool held n) : PoolSafe pool held n where
  partition := by
    obtain ⟨free, -, htidy, hperm⟩ := h.free
    have hrep := htidy trivial
    refine ⟨free, hrep, hperm, ?_⟩
    rintro rfl
    exact ⟨hrep.first, hrep.last⟩
  fresh := by
    intro i hi
    obtain ⟨hget, -⟩ | ⟨pool', k, hget, hinv⟩ := h.get_cases
    · rw [hget] at hi
      cases hi
    · rw [hget] at hi
      cases hi
      exact ⟨hinv.lt List.mem_cons_self, (List.nodup_cons.1 hinv.nodup).1⟩
  exhausted := h.exhausted_iff
  takesBack := by
    intro i hi
    obtain ⟨pool', hadd, -⟩ := (h.perm (List.perm_cons_erase hi)).add
    rw [hadd]
    exact Option.some_ne_none pool'
  count := h.count trivial

end PoolInv

/-- Whatever is taken and given back, the free and the handed-out numbers are all
numbers below `n`, each once. -/
theorem id_pool_safe (pool : IdList) (n : Nat) (h : PoolStart pool n) (s : PoolState)
    (hs : Reaches (graph poolStep) always ⟨pool, []⟩ s) : PoolSafe s.pool s.held n :=
  (hs.invariant (fun s => PoolInv True s.pool s.held n) h.inv fun _ _ _ hinv _ hstep =>
    poolStep_inv hinv hstep).safe

/-- Three free numbers, in the order 2, 0, 1. -/
def threeFree : IdList where
  list :=
    { nodes := fun i =>
        if i = 2 then ⟨none, some 0⟩ else if i = 0 then ⟨some 2, some 1⟩ else ⟨some 0, none⟩
      first := some 2
      last := some 1 }
  count := 0

theorem id_pool_safe_threeFree : ∃ s,
    run poolStep ⟨threeFree, []⟩ [.get, .get, .get, .get, .add 0, .add 1, .get] = some s ∧
      PoolSafe s.pool s.held 3 := by
  have hrun : (run poolStep ⟨threeFree, []⟩
      [.get, .get, .get, .get, .add 0, .add 1, .get]).isSome = true := by
    decide +kernel
  obtain ⟨s, hs⟩ := Option.isSome_iff_exists.1 hrun
  have hstart : PoolStart threeFree 3 :=
    ⟨⟨[2, 0, 1], ⟨by decide, rfl, rfl, rfl, rfl, rfl, trivial⟩, by decide⟩, rfl, by decide⟩
  exact ⟨s, hs, id_pool_safe threeFree 3 hstart s
    (reaches_of_run (allowedAlong_always _ _ _) hs)⟩

end PingServer
