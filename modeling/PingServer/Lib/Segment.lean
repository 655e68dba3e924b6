import Mathlib.Data.List.Basic

/-!
# Doubly linked segments

Two functions give each node its predecessor and its successor. A segment is a
list of nodes that are linked both ways, behind one neighbour and before another.
An edit of a doubly linked list links one node in or takes one out; both change
one pointer in each of the two neighbours.
-/

namespace DoublyLinked

variable {α : Type}

/-- The nodes `xs` are linked in order, behind `p` and before `q`. -/
def Segment (prev next : α → Option α) : Option α → List α → Option α → Prop
  | _, [], _ => True
  | p, x :: xs, q => prev x = p ∧ next x = xs.head?.or q ∧ Segment prev next (some x) xs q

variable {prev next prev' next' : α → Option α} {p q : Option α} {xs pre post : List α}

theorem Segment.congr (h : Segment prev next p xs q)
    (hsame : ∀ x ∈ xs, prev' x = prev x ∧ next' x = next x) : Segment prev' next' p xs q := by
  induction xs generalizing p with
  | nil => trivial
  | cons x xs ih =>
    obtain ⟨hprev, hnext, hrest⟩ := h
    obtain ⟨hp, hn⟩ := hsame x List.mem_cons_self
    exact ⟨hp.trans hprev, hn.trans hnext,
      ih hrest fun y hy => hsame y (List.mem_cons_of_mem x hy)⟩

/-- Two segments in a row are one, if the ends point at each other. -/
theorem segment_append : Segment prev next p (pre ++ post) q ↔
    Segment prev next p pre (post.head?.or q) ∧ Segment prev next (pre.getLast?.or p) post q := by
  induction pre generalizing p with
  | nil => simp [Segment]
  | cons x pre ih =>
    have hhead : (pre ++ post).head?.or q = pre.head?.or (post.head?.or q) := by
      cases pre <;> simp
    have hlast : (x :: pre).getLast?.or p = pre.getLast?.or (some x) := by
      cases pre <;> simp [List.getLast?_cons]
    rw [List.cons_append, Segment, Segment, ih, hhead, hlast]
    simp only [and_assoc]

/-- A node of a segment points at its neighbours. -/
theorem Segment.at {x : α} (h : Segment prev next none (pre ++ x :: post) none) :
    prev x = pre.getLast? ∧ next x = post.head? := by
  obtain ⟨-, hp, hn, -⟩ := segment_append.1 h
  rw [Option.or_none] at hp hn
  exact ⟨hp, hn⟩

section Edits

variable [DecidableEq α]

/-- With the pointer of its last node, a segment ends before another neighbour. -/
theorem Segment.setNext {q' : Option α} (h : Segment prev next p xs q) (hnodup : xs.Nodup)
    (hprev : ∀ x ∈ xs, prev' x = prev x)
    (hnext : ∀ x ∈ xs, next' x = if some x = xs.getLast? then q' else next x) :
    Segment prev' next' p xs q' := by
  induction xs generalizing p with
  | nil => trivial
  | cons x xs ih =>
    obtain ⟨hp, hn, hrest⟩ := h
    obtain ⟨hx, hnodup⟩ := List.nodup_cons.1 hnodup
    have hlast := hnext x List.mem_cons_self
    cases xs with
    | nil => exact ⟨(hprev x List.mem_cons_self).trans hp, by simpa using hlast, trivial⟩
    | cons y ys =>
      have hxl : some x ≠ (y :: ys).getLast? := fun he => hx (List.mem_of_getLast? he.symm)
      rw [List.getLast?_cons_cons, if_neg hxl] at hlast
      refine ⟨(hprev x List.mem_cons_self).trans hp, hlast.trans hn, ih hrest hnodup ?_ ?_⟩
      · exact fun z hz => hprev z (List.mem_cons_of_mem x hz)
      · intro z hz
        rw [hnext z (List.mem_cons_of_mem x hz), List.getLast?_cons_cons]

/-- With the pointer of its first node, a segment begins behind another neighbour. -/
theorem Segment.setPrev {p' : Option α} (h : Segment prev next p xs q) (hnodup : xs.Nodup)
    (hprev : ∀ x ∈ xs, prev' x = if some x = xs.head? then p' else prev x)
    (hnext : ∀ x ∈ xs, next' x = next x) : Segment prev' next' p' xs q := by
  cases xs with
  | nil => trivial
  | cons x xs =>
    obtain ⟨hp, hn, hrest⟩ := h
    obtain ⟨hx, -⟩ := List.nodup_cons.1 hnodup
    refine ⟨by simpa using hprev x List.mem_cons_self,
      (hnext x List.mem_cons_self).trans hn, hrest.congr fun y hy => ?_⟩
    have hyx : ¬ y = x := fun he => hx (he ▸ hy)
    have hprev' := hprev y (List.mem_cons_of_mem x hy)
    simp only [List.head?_cons, Option.some.injEq, hyx, ↓reduceIte] at hprev'
    exact ⟨hprev', hnext y (List.mem_cons_of_mem x hy)⟩

/-- One pointer of every node, with the node `n` pointing at `far` and its
neighbour `near` pointing at `n`. -/
def linkIn (ptr : α → Option α) (n : α) (near far : Option α) : α → Option α :=
  fun y => if y = n then far else if some y = near then some n else ptr y

/-- One pointer of every node, with the node `x` pointing nowhere and its
neighbour `near` pointing past it at `far`. -/
def takeOut (ptr : α → Option α) (x : α) (near far : Option α) : α → Option α :=
  fun y => if y = x then none else if some y = near then far else ptr y

/-- A node is linked in between two neighbours. -/
theorem Segment.linkIn {n : α} (h : Segment prev next none (pre ++ post) none)
    (hnodup : (pre ++ post).Nodup) (hn : n ∉ pre ++ post) :
    Segment (linkIn prev n post.head? pre.getLast?) (linkIn next n pre.getLast? post.head?)
      none (pre ++ n :: post) none := by
  obtain ⟨hpre, hpost, hapart⟩ := List.nodup_append.1 hnodup
  rw [List.mem_append, not_or] at hn
  rw [segment_append] at h ⊢
  refine ⟨?_, ?_, ?_, ?_⟩
  · apply h.1.setNext hpre
    · intro x hx
      have hxn : ¬ x = n := fun he => hn.1 (he ▸ hx)
      have hxq : ¬ some x = post.head? := fun he => hapart x hx x (List.mem_of_head? he.symm) rfl
      rw [DoublyLinked.linkIn, if_neg hxn, if_neg hxq]
    · intro x hx
      have hxn : ¬ x = n := fun he => hn.1 (he ▸ hx)
      rw [DoublyLinked.linkIn, if_neg hxn]
      rfl
  · simp [DoublyLinked.linkIn]
  · simp [DoublyLinked.linkIn]
  · apply h.2.setPrev hpost
    · intro x hx
      have hxn : ¬ x = n := fun he => hn.2 (he ▸ hx)
      rw [DoublyLinked.linkIn, if_neg hxn]
    · intro x hx
      have hxn : ¬ x = n := fun he => hn.2 (he ▸ hx)
      have hxp : ¬ some x = pre.getLast? := fun he =>
        hapart x (List.mem_of_getLast? he.symm) x hx rfl
      rw [DoublyLinked.linkIn, if_neg hxn, if_neg hxp]

/-- A node is taken out from between its neighbours. -/
theorem Segment.takeOut {x : α} (h : Segment prev next none (pre ++ x :: post) none)
    (hnodup : (pre ++ x :: post).Nodup) :
    Segment (takeOut prev x post.head? pre.getLast?) (takeOut next x pre.getLast? post.head?)
      none (pre ++ post) none := by
  obtain ⟨hpre, hpost, hapart⟩ := List.nodup_append.1 hnodup
  obtain ⟨hx, hpost⟩ := List.nodup_cons.1 hpost
  rw [segment_append] at h ⊢
  constructor
  · apply h.1.setNext hpre
    · intro y hy
      have hyx : ¬ y = x := fun he => hapart y hy x List.mem_cons_self he
      have hyq : ¬ some y = post.head? := fun he =>
        hapart y hy y (List.mem_cons_of_mem x (List.mem_of_head? he.symm)) rfl
      rw [DoublyLinked.takeOut, if_neg hyx, if_neg hyq]
    · intro y hy
      have hyx : ¬ y = x := fun he => hapart y hy x List.mem_cons_self he
      rw [DoublyLinked.takeOut, if_neg hyx, Option.or_none]
  · apply h.2.2.2.setPrev hpost
    · intro y hy
      have hyx : ¬ y = x := fun he => hx (he ▸ hy)
      rw [DoublyLinked.takeOut, if_neg hyx, Option.or_none]
    · intro y hy
      have hyx : ¬ y = x := fun he => hx (he ▸ hy)
      have hyp : ¬ some y = pre.getLast? := fun he =>
        hapart y (List.mem_of_getLast? he.symm) y (List.mem_cons_of_mem x hy) rfl
      rw [DoublyLinked.takeOut, if_neg hyx, if_neg hyp]

end Edits

end DoublyLinked
