import PingServer.Ds.IdList

/-!
# Creating a pool of numbers

`id_list_create` links an array that `malloc` has not cleared. The first node keeps the `prev`
and the last one the `next` that were there, and `end` stays at the first node.
-/

namespace PingServer

open DoublyLinked (Segment)

/-- The loop of `id_list_create`: node `i` carries the number `i`. -/
def createLoop (size : Nat) : (fuel i : Nat) → LinkedList → LinkedList
  | 0, _, l => l
  | fuel + 1, i, l =>
    createLoop size fuel (i + 1)
      (if i ≠ 0 ∧ i ≠ size - 1 then (l.setNext i (some (i + 1))).setPrev i (some (i - 1))
      else if i = 0 then l.setNext i (some (i + 1))
      else l.setPrev i (some (i - 1)))

/-- `a` is what the array happens to contain. -/
def idListCreate (size : Nat) (a : Nat → ListNode) : IdList where
  list := createLoop size size 0 { nodes := a, first := some 0, last := some 0 }
  count := 0

/-- `n` calls of `id_list_get`, and the numbers they return. -/
def idListGets : (n : Nat) → IdList → IdList × List (Option Nat)
  | 0, pool => (pool, [])
  | n + 1, pool =>
    let r := idListGet pool
    let rest := idListGets n r.1
    (rest.1, r.2 :: rest.2)

/-- All numbers below `size` are in the list, in order, and are handed out in this order. -/
structure FullPool (pool : IdList) (size : Nat) : Prop where
  list : Represents pool.list (List.range size)
  gets : (idListGets (size + 1) pool).2 = (List.range size).map some ++ [none]

/-! ## What the loop writes -/

section

variable {size : Nat}

theorem createLoop_ends (fuel : Nat) : ∀ (i : Nat) (l : LinkedList),
    (createLoop size fuel i l).first = l.first ∧ (createLoop size fuel i l).last = l.last := by
  induction fuel with
  | zero =>
    intro i l
    exact ⟨rfl, rfl⟩
  | succ fuel ih =>
    intro i l
    rw [createLoop]
    obtain ⟨hfirst, hlast⟩ := ih (i + 1)
      (if i ≠ 0 ∧ i ≠ size - 1 then (l.setNext i (some (i + 1))).setPrev i (some (i - 1))
      else if i = 0 then l.setNext i (some (i + 1))
      else l.setPrev i (some (i - 1)))
    rw [hfirst, hlast]
    split
    · exact ⟨rfl, rfl⟩
    · split <;> exact ⟨rfl, rfl⟩

/-- Every node but the last gets its successor; a node that is alone gets one as well. -/
theorem createLoop_nexts (fuel : Nat) : ∀ {i : Nat} {l : LinkedList}, i + fuel = size → ∀ j,
    (createLoop size fuel i l).nexts j =
      if i ≤ j ∧ j < size ∧ (j = 0 ∨ j ≠ size - 1) then some (j + 1) else l.nexts j := by
  induction fuel with
  | zero =>
    intro i l hi j
    rw [if_neg (by omega)]
    rfl
  | succ fuel ih =>
    intro i l hi j
    rw [createLoop, ih (by omega)]
    by_cases hlater : i + 1 ≤ j ∧ j < size ∧ (j = 0 ∨ j ≠ size - 1)
    · rw [if_pos hlater, if_pos (by omega)]
    · rw [if_neg hlater]
      split
      · rename_i hmiddle
        rw [LinkedList.nexts_setPrev, LinkedList.nexts_setNext]
        by_cases hj : j = i
        · rw [if_pos hj, if_pos (by omega), hj]
        · rw [if_neg hj, if_neg (by omega)]
      · rename_i hend
        split
        · rw [LinkedList.nexts_setNext]
          by_cases hj : j = i
          · rw [if_pos hj, if_pos (by omega), hj]
          · rw [if_neg hj, if_neg (by omega)]
        · rw [LinkedList.nexts_setPrev, if_neg (by omega)]

theorem createLoop_prevs (fuel : Nat) : ∀ {i : Nat} {l : LinkedList}, i + fuel = size → ∀ j,
    (createLoop size fuel i l).prevs j =
      if i ≤ j ∧ j < size ∧ j ≠ 0 then some (j - 1) else l.prevs j := by
  induction fuel with
  | zero =>
    intro i l hi j
    rw [if_neg (by omega)]
    rfl
  | succ fuel ih =>
    intro i l hi j
    rw [createLoop, ih (by omega)]
    by_cases hlater : i + 1 ≤ j ∧ j < size ∧ j ≠ 0
    · rw [if_pos hlater, if_pos (by omega)]
    · rw [if_neg hlater]
      split
      · rename_i hmiddle
        rw [LinkedList.prevs_setPrev, LinkedList.prevs_setNext]
        by_cases hj : j = i
        · rw [if_pos hj, if_pos (by omega), hj]
        · rw [if_neg hj, if_neg (by omega)]
      · split
        · rw [LinkedList.prevs_setNext, if_neg (by omega)]
        · rw [LinkedList.prevs_setPrev]
          by_cases hj : j = i
          · rw [if_pos hj, if_pos (by omega), hj]
          · rw [if_neg hj, if_neg (by omega)]

/-- A run of nodes that point at each other. -/
theorem segment_range' {prev next : Nat → Option Nat} (n : Nat) : ∀ {i : Nat} {p : Option Nat},
    prev i = p → (∀ j, i < j → j < i + n + 1 → prev j = some (j - 1)) →
      (∀ j, i ≤ j → j < i + n → next j = some (j + 1)) →
        Segment prev next p (List.range' i (n + 1)) (next (i + n)) := by
  induction n with
  | zero =>
    intro i p hp _ _
    exact ⟨hp, rfl, trivial⟩
  | succ n ih =>
    intro i p hp hprev hnext
    have hsecond : prev (i + 1) = some i := hprev (i + 1) (by omega) (by omega)
    have hrest := ih hsecond (fun j hlo hhi => hprev j (by omega) (by omega))
      fun j hlo hhi => hnext j (by omega) (by omega)
    rw [Nat.add_right_comm i 1 n, Nat.add_assoc i n 1] at hrest
    refine ⟨hp, ?_, hrest⟩
    rw [hnext i (Nat.le_refl i) (by omega)]
    rfl

/-- The nodes are linked in order, between what was in the first and in the last one. -/
theorem created_segment (hsize : 2 ≤ size) (a : Nat → ListNode) :
    Segment (idListCreate size a).list.prevs (idListCreate size a).list.nexts (a 0).prev
      (List.range size) (a (size - 1)).next := by
  have hnexts := createLoop_nexts (l := { nodes := a, first := some 0, last := some 0 }) size
    (Nat.zero_add size)
  have hprevs := createLoop_prevs (l := { nodes := a, first := some 0, last := some 0 }) size
    (Nat.zero_add size)
  have hlast : (idListCreate size a).list.nexts (0 + (size - 1)) = (a (size - 1)).next := by
    rw [idListCreate, hnexts, if_neg (by omega), Nat.zero_add]
    rfl
  have hrange : List.range size = List.range' 0 (size - 1 + 1) := by
    rw [Nat.sub_add_cancel (by omega), List.range_eq_range']
  rw [← hlast, hrange]
  apply segment_range'
  · rw [idListCreate, hprevs, if_neg (by omega)]
    rfl
  · intro j hlo hhi
    rw [idListCreate, hprevs, if_pos (by omega)]
  · intro j hlo hhi
    rw [idListCreate, hnexts, if_pos (by omega)]

/-! ## What is handed out -/

/-- The calls follow the `next` pointers to the first that is `NULL`. -/
theorem idListGets_range (n : Nat) : ∀ {i : Nat} {pool : IdList}, pool.list.first = some i →
    (∀ j, i ≤ j → j < i + n → pool.list.nexts j = some (j + 1)) →
      pool.list.nexts (i + n) = none →
        (idListGets (n + 2) pool).2 = (List.range' i (n + 1)).map some ++ [none] := by
  induction n with
  | zero =>
    intro i pool hfirst _ hend
    obtain ⟨hgot, hnext, -⟩ := idListGet_some hfirst
    rw [Nat.add_zero] at hend
    rw [hend] at hnext
    have hempty : (idListGet (idListGet pool).1).2 = none := by rw [idListGet, hnext]
    simp only [idListGets, hgot, hempty]
    rfl
  | succ n ih =>
    intro i pool hfirst hnexts hend
    obtain ⟨hgot, hnext, hothers⟩ := idListGet_some hfirst
    rw [hnexts i (Nat.le_refl i) (by omega)] at hnext
    have hrest := ih hnext (fun j hlo hhi => ?_) ?_
    · rw [idListGets, hrest, hgot]
      rfl
    · rw [hothers j (by omega)]
      exact hnexts j (by omega) (by omega)
    · rw [hothers (i + 1 + n) (by omega), Nat.add_right_comm i 1 n]
      exact hend

/-- With a `NULL` behind the last node, the numbers are handed out as they should be. -/
theorem created_gets (hsize : 2 ≤ size) {a : Nat → ListNode} (hend : (a (size - 1)).next = none) :
    (idListGets (size + 1) (idListCreate size a)).2 = (List.range size).map some ++ [none] := by
  have hnexts := createLoop_nexts (l := { nodes := a, first := some 0, last := some 0 }) size
    (Nat.zero_add size)
  have hgets := @idListGets_range (size - 1) 0 (idListCreate size a) (createLoop_ends size 0 _).1
    (fun j hlo hhi => by rw [idListCreate, hnexts, if_pos (by omega)])
    (by rw [idListCreate, hnexts, if_neg (by omega), Nat.zero_add]; exact hend)
  rw [List.range_eq_range', show size + 1 = size - 1 + 2 by omega, hgets,
    Nat.sub_add_cancel (by omega)]

/-- `begin` leads through all numbers. -/
theorem created_leads (hsize : 2 ≤ size) (a : Nat → ListNode) :
    Leads (idListCreate size a).list (List.range size) where
  nodup := List.nodup_range
  first := by
    intro x hx
    rw [List.head?_range, if_neg (by omega)] at hx
    rw [idListCreate, (createLoop_ends size 0 _).1]
    exact hx
  nexts := isChain_of_segment (created_segment hsize a)
  empty := by
    intro hnone
    rw [idListCreate, (createLoop_ends size 0 _).1] at hnone
    cases hnone

theorem created_pool (hsize : 2 ≤ size) (hmax : size < 2 ^ 32) (a : Nat → ListNode) :
    PoolInv False (idListCreate size a) [] size where
  free := ⟨List.range size, created_leads hsize a, False.elim, .refl _⟩
  count := False.elim
  max := hmax

end

/-- The pool is never in order: `end` is the first node, and a node that is alone has a
successor. -/
theorem created_never_full {size : Nat} (hsize : 1 ≤ size) (a : Nat → ListNode) :
    ¬ FullPool (idListCreate size a) size := by
  intro hfull
  obtain ⟨-, -, hlast, hlinks⟩ := hfull.list
  have hend : (idListCreate size a).list.last = some 0 := (createLoop_ends size 0 _).2
  rcases Nat.eq_or_lt_of_le hsize with hone | hmore
  · subst hone
    have hnext : (idListCreate 1 a).list.nexts 0 = some 1 := by
      rw [idListCreate, createLoop_nexts 1 (Nat.zero_add 1), if_pos (by omega)]
    have hnone : (idListCreate 1 a).list.nexts 0 = none := congrArg ListNode.next hlinks.1
    rw [hnext] at hnone
    cases hnone
  · rw [hend, List.getLast?_range, if_neg (by omega), Option.some.injEq] at hlast
    omega

theorem created_never_full_three : ¬ FullPool (idListCreate 3 fun _ => ⟨none, none⟩) 3 :=
  created_never_full (by decide) fun _ => ⟨none, none⟩

/-- Two numbers in memory that is all zero. -/
theorem zeroed_not_full : ¬ ∀ (size : Nat) (a : Nat → ListNode), 1 ≤ size →
    FullPool (idListCreate size a) size := by
  intro hall
  have hlast := (hall 2 (fun _ => ⟨none, none⟩) (by decide)).list.last
  exact absurd hlast (by decide)

end PingServer
