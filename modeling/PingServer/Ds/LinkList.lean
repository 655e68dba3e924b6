import PingServer.Lib.Segment

/-!
# Linked lists

`linklist.c`. A node is known by its address and `NULL` is `none`; the addresses
here are indices of one array. `Represents l xs` says that `l` is the doubly
linked list of the nodes `xs`. Every operation either links one node in between
two neighbours or takes one out.
-/

namespace PingServer

open DoublyLinked (Segment)

structure ListNode where
  prev : Option Nat
  next : Option Nat
  deriving DecidableEq, Repr

/-- A list and the nodes it may link. -/
structure LinkedList where
  nodes : Nat → ListNode
  first : Option Nat
  last : Option Nat

namespace LinkedList

def set (l : LinkedList) (i : Nat) (node : ListNode) : LinkedList :=
  { l with nodes := fun j => if j = i then node else l.nodes j }

def setPrev (l : LinkedList) (i : Nat) (p : Option Nat) : LinkedList :=
  l.set i { l.nodes i with prev := p }

def setNext (l : LinkedList) (i : Nat) (q : Option Nat) : LinkedList :=
  l.set i { l.nodes i with next := q }

/-! What is known of a list is known by its pointers. -/

def prevs (l : LinkedList) (y : Nat) : Option Nat := (l.nodes y).prev
def nexts (l : LinkedList) (y : Nat) : Option Nat := (l.nodes y).next

variable {l l' : LinkedList} {i y : Nat} {node : ListNode} {p q first last : Option Nat}

@[simp, grind =] theorem node_prev : (l.nodes y).prev = l.prevs y := rfl
@[simp, grind =] theorem node_next : (l.nodes y).next = l.nexts y := rfl
@[simp] theorem node_eta : ListNode.mk (l.prevs y) (l.nexts y) = l.nodes y := rfl
@[simp, grind =] theorem prevs_ends : (LinkedList.mk l.nodes first last).prevs y = l.prevs y := rfl
@[simp, grind =] theorem nexts_ends : (LinkedList.mk l.nodes first last).nexts y = l.nexts y := rfl

@[simp, grind =] theorem prevs_set : (l.set i node).prevs y = if y = i then node.prev else l.prevs y := by
  unfold prevs set
  simp only
  split <;> rfl

@[simp, grind =] theorem nexts_set : (l.set i node).nexts y = if y = i then node.next else l.nexts y := by
  unfold nexts set
  simp only
  split <;> rfl

@[simp, grind =] theorem prevs_setPrev : (l.setPrev i p).prevs y = if y = i then p else l.prevs y :=
  prevs_set

@[simp, grind =] theorem nexts_setPrev : (l.setPrev i p).nexts y = l.nexts y := by
  rw [setPrev, nexts_set]
  split
  · rw [‹y = i›]
    rfl
  · rfl

@[simp, grind =] theorem nexts_setNext : (l.setNext i q).nexts y = if y = i then q else l.nexts y :=
  nexts_set

@[simp, grind =] theorem prevs_setNext : (l.setNext i q).prevs y = l.prevs y := by
  rw [setNext, prevs_set]
  split
  · rw [‹y = i›]
    rfl
  · rfl

@[simp, grind =] theorem first_set : (l.set i node).first = l.first := rfl
@[simp, grind =] theorem last_set : (l.set i node).last = l.last := rfl
@[simp, grind =] theorem first_setPrev : (l.setPrev i p).first = l.first := rfl
@[simp, grind =] theorem last_setPrev : (l.setPrev i p).last = l.last := rfl
@[simp, grind =] theorem first_setNext : (l.setNext i q).first = l.first := rfl
@[simp, grind =] theorem last_setNext : (l.setNext i q).last = l.last := rfl

theorem ext_pointers (hprev : ∀ y, l.prevs y = l'.prevs y) (hnext : ∀ y, l.nexts y = l'.nexts y)
    (hfirst : l.first = l'.first) (hlast : l.last = l'.last) : l = l' := by
  cases l
  cases l'
  congr 1
  funext y
  exact congrArg₂ ListNode.mk (hprev y) (hnext y)

end LinkedList

/-! ## Inserting -/

def listIsEmpty (l : LinkedList) : Bool := l.first.isNone

/-- `list_insert_front`; `none` where it would follow a `NULL` begin. -/
def listInsertFront (l : LinkedList) (n : Nat) : Option LinkedList :=
  if l.first = none ∧ l.last = none then
    some { l.set n ⟨none, none⟩ with first := some n, last := some n }
  else
    match l.first with
    | none => none
    | some b =>
      let l := l.set n { l.nodes n with next := some b }
      let l := l.set b { l.nodes b with prev := some n }
      some { l.set n { l.nodes n with prev := none } with first := some n }

/-- `list_insert_back`; `none` where it would follow a `NULL` end. -/
def listInsertBack (l : LinkedList) (n : Nat) : Option LinkedList :=
  if l.first = none ∧ l.last = none then
    some { l.set n ⟨none, none⟩ with first := some n, last := some n }
  else
    match l.last with
    | none => none
    | some e =>
      let l := { l with last := some n }
      let l := l.setNext e (some n)
      some ((l.setPrev n (some e)).setNext n none)

/-- The searching loops: the node they stop at, if there is one. Without fuel the
loop has not ended. -/
def findNode (l : LinkedList) (node : Option Nat) : (fuel : Nat) → (i : Option Nat) →
    Option (Option Nat)
  | _, none => some none
  | 0, some _ => none
  | fuel + 1, some i =>
    if some i = node then some (some i) else findNode l node fuel (l.nodes i).next

def listInsertAfter (fuel : Nat) (l : LinkedList) (n : Nat) (node : Option Nat) :
    Option (LinkedList × Bool) :=
  if listIsEmpty l then some (l, false)
  else
    match findNode l node fuel l.first with
    | none => none
    | some none => some (l, false)
    | some (some i) =>
      if some i = l.last then (listInsertBack l n).map fun l => (l, true)
      else
        let l := l.setNext n (l.nodes i).next
        let l := l.setPrev n (some i)
        let l :=
          match (l.nodes i).next with
          | some j => l.setPrev j (some n)
          | none => l
        some (l.setNext i (some n), true)

def listInsertBefore (fuel : Nat) (l : LinkedList) (n : Nat) (node : Option Nat) :
    Option (LinkedList × Bool) :=
  if listIsEmpty l then some (l, false)
  else
    match findNode l node fuel l.first with
    | none => none
    | some none => some (l, false)
    | some (some i) =>
      if some i = l.first then (listInsertFront l n).map fun l => (l, true)
      else
        let l := l.setNext n (some i)
        let l := l.setPrev n (l.nodes i).prev
        match (l.nodes i).prev with
        | none => none
        | some h => some ((l.setNext h (some n)).setPrev i (some n), true)

/-! ## Deleting -/

/-- What both deletions at an end do to the only node. -/
def deleteOnly (l : LinkedList) (b : Nat) : LinkedList :=
  { (l.setNext b none).setPrev b none with first := none, last := none }

def listDeleteFront (l : LinkedList) : Option (LinkedList × Bool) :=
  match l.first with
  | none => some (l, false)
  | some b =>
    if l.first = l.last then some (deleteOnly l b, true)
    else
      let l := { l with first := (l.nodes b).next }
      match (l.nodes b).next with
      | none => none
      | some c => some (((l.setPrev c none).setNext b none).setPrev b none, true)

def listDeleteBack (l : LinkedList) : Option (LinkedList × Bool) :=
  match l.first with
  | none => some (l, false)
  | some b =>
    if l.first = l.last then some (deleteOnly l b, true)
    else
      match l.last with
      | none => none
      | some e =>
        match (l.nodes e).prev with
        | none => none
        | some d =>
          let l := l.setNext d none
          let l := { l with last := (l.nodes e).prev }
          some ((l.setNext e none).setPrev e none, true)

def listDelete (fuel : Nat) (l : LinkedList) (node : Option Nat) : Option (LinkedList × Bool) :=
  if listIsEmpty l then some (l, false)
  else if node = l.first then listDeleteFront l
  else if node = l.last then listDeleteBack l
  else
    match findNode l node fuel l.first with
    | none => none
    | some none => some (l, false)
    | some (some i) =>
      match (l.nodes i).prev, (l.nodes i).next with
      | some h, some j =>
        let l := l.setNext h (l.nodes i).next
        let l := l.setPrev j (l.nodes i).prev
        some ((l.setPrev i none).setNext i none, true)
      | _, _ => none

def linkNodeDelete (l : LinkedList) (node : Option Nat) : LinkedList :=
  match node with
  | none => l
  | some x =>
    let l := if l.first = some x then { l with first := (l.nodes x).next } else l
    let l := if l.last = some x then { l with last := (l.nodes x).prev } else l
    let l :=
      match (l.nodes x).next with
      | some j => l.setPrev j (l.nodes x).prev
      | none => l
    let l :=
      match (l.nodes x).prev with
      | some h => l.setNext h (l.nodes x).next
      | none => l
    (l.setNext x none).setPrev x none

/-! ## What a list represents -/

/-- The nodes of `xs` link each other in order, behind the node `prev`. -/
def Links (nodes : Nat → ListNode) : Option Nat → List Nat → Prop
  | _, [] => True
  | prev, x :: xs => nodes x = ⟨prev, xs.head?⟩ ∧ Links nodes (some x) xs

structure Represents (l : LinkedList) (xs : List Nat) : Prop where
  nodup : xs.Nodup
  first : l.first = xs.head?
  last : l.last = xs.getLast?
  links : Links l.nodes none xs

namespace LinkedList

/-- The list with the node `n` between the neighbours `p` and `q`. -/
def linkIn (l : LinkedList) (n : Nat) (p q : Option Nat) : LinkedList where
  nodes := fun y => ⟨DoublyLinked.linkIn l.prevs n q p y, DoublyLinked.linkIn l.nexts n p q y⟩
  first := if p = none then some n else l.first
  last := if q = none then some n else l.last

/-- The list without the node `x`, which is between the neighbours `p` and `q`. -/
def takeOut (l : LinkedList) (x : Nat) (p q : Option Nat) : LinkedList where
  nodes := fun y => ⟨DoublyLinked.takeOut l.prevs x q p y, DoublyLinked.takeOut l.nexts x p q y⟩
  first := if p = none then q else l.first
  last := if q = none then p else l.last

variable {l : LinkedList} {n x y : Nat} {p q : Option Nat}

@[simp, grind =] theorem prevs_linkIn : (l.linkIn n p q).prevs y = DoublyLinked.linkIn l.prevs n q p y := rfl
@[simp, grind =] theorem nexts_linkIn : (l.linkIn n p q).nexts y = DoublyLinked.linkIn l.nexts n p q y := rfl
@[simp, grind =] theorem first_linkIn : (l.linkIn n p q).first = if p = none then some n else l.first := rfl
@[simp, grind =] theorem last_linkIn : (l.linkIn n p q).last = if q = none then some n else l.last := rfl

@[simp, grind =] theorem prevs_takeOut :
    (l.takeOut x p q).prevs y = DoublyLinked.takeOut l.prevs x q p y := rfl
@[simp, grind =] theorem nexts_takeOut :
    (l.takeOut x p q).nexts y = DoublyLinked.takeOut l.nexts x p q y := rfl
@[simp, grind =] theorem first_takeOut : (l.takeOut x p q).first = if p = none then q else l.first := rfl
@[simp, grind =] theorem last_takeOut : (l.takeOut x p q).last = if q = none then p else l.last := rfl

end LinkedList

theorem links_iff {nodes : Nat → ListNode} {p : Option Nat} {xs : List Nat} :
    Links nodes p xs ↔
      Segment (fun y => (nodes y).prev) (fun y => (nodes y).next) p xs none := by
  induction xs generalizing p with
  | nil => exact Iff.rfl
  | cons x xs ih =>
    rw [Links, Segment, ih, Option.or_none]
    constructor
    · rintro ⟨hx, hrest⟩
      exact ⟨by rw [hx], by rw [hx], hrest⟩
    · rintro ⟨hp, hn, hrest⟩
      exact ⟨by rw [← hp, ← hn], hrest⟩

namespace Represents

variable {l : LinkedList} {xs pre post : List Nat} {n x : Nat}

theorem segment (h : Represents l xs) : Segment l.prevs l.nexts none xs none :=
  links_iff.1 h.links

/-- A member points at its neighbours. -/
theorem node (h : Represents l (pre ++ x :: post)) : l.nodes x = ⟨pre.getLast?, post.head?⟩ := by
  obtain ⟨hp, hn⟩ := h.segment.at
  rw [← hp, ← hn]
  rfl

theorem linkIn (h : Represents l (pre ++ post)) (hn : n ∉ pre ++ post) :
    Represents (l.linkIn n pre.getLast? post.head?) (pre ++ n :: post) where
  nodup := (List.perm_middle.nodup_iff).2 (List.nodup_cons.2 ⟨hn, h.nodup⟩)
  first := by
    cases pre with
    | nil => rfl
    | cons a pre => simp [LinkedList.linkIn, h.first]
  last := by
    cases post with
    | nil => simp [LinkedList.linkIn]
    | cons b post => simp [LinkedList.linkIn, h.last]
  links := links_iff.2 (h.segment.linkIn h.nodup hn)

theorem takeOut (h : Represents l (pre ++ x :: post)) :
    Represents (l.takeOut x pre.getLast? post.head?) (pre ++ post) where
  nodup := (List.nodup_cons.1 (List.perm_middle.nodup_iff.1 h.nodup)).2
  first := by
    cases pre with
    | nil => rfl
    | cons a pre => simp [LinkedList.takeOut, h.first]
  last := by
    cases post with
    | nil => simp [LinkedList.takeOut]
    | cons b post => simp [LinkedList.takeOut, h.last]
  links := links_iff.2 (h.segment.takeOut h.nodup)

/-! ## What the operations do -/

theorem insertFront (h : Represents l xs) (hn : n ∉ xs) :
    listInsertFront l n = some (l.linkIn n none xs.head?) := by
  have hfirst := h.first
  have hlast := h.last
  cases xs with
  | nil =>
    rw [listInsertFront, if_pos ⟨hfirst, hlast⟩]
    apply congrArg some
    apply LinkedList.ext_pointers <;> simp [DoublyLinked.linkIn]
  | cons b xs =>
    have hbn : b ≠ n := fun he => hn (he ▸ List.mem_cons_self)
    simp only [listInsertFront, hfirst, List.head?_cons, reduceCtorEq, false_and, ↓reduceIte]
    apply congrArg some
    apply LinkedList.ext_pointers
    · intro y
      grind [DoublyLinked.linkIn]
    · intro y
      grind [DoublyLinked.linkIn]
    · simp
    · simp

theorem insertBack (h : Represents l xs) (hn : n ∉ xs) :
    listInsertBack l n = some (l.linkIn n xs.getLast? none) := by
  have hfirst := h.first
  have hlast := h.last
  obtain rfl | ⟨ys, e, rfl⟩ := List.eq_nil_or_concat xs
  · rw [listInsertBack, if_pos ⟨hfirst, hlast⟩]
    apply congrArg some
    apply LinkedList.ext_pointers <;> simp [DoublyLinked.linkIn]
  · rw [List.concat_eq_append] at hn hfirst hlast ⊢
    have hen : e ≠ n := fun he => hn (he ▸ List.mem_append_right ys List.mem_cons_self)
    simp only [listInsertBack, hlast, List.getLast?_concat, reduceCtorEq, and_false, ↓reduceIte]
    apply congrArg some
    apply LinkedList.ext_pointers
    · intro y
      grind [DoublyLinked.linkIn]
    · intro y
      grind [DoublyLinked.linkIn]
    · simp
    · simp

/-- The search ends, at the first node that it looks for. -/
theorem find {node p : Option Nat} {fuel : Nat} (h : Segment l.prevs l.nexts p xs none)
    (hfuel : xs.length ≤ fuel) :
    findNode l node fuel xs.head? = some (xs.find? fun x => some x = node) := by
  induction xs generalizing p fuel with
  | nil => cases fuel <;> rfl
  | cons x xs ih =>
    obtain ⟨-, hnext, hrest⟩ := h
    cases fuel with
    | zero => simp at hfuel
    | succ fuel =>
      rw [List.head?_cons, findNode, List.find?_cons]
      by_cases hx : some x = node
      · simp [hx]
      · rw [Option.or_none] at hnext
        simp [hx, hnext, ih hrest (Nat.le_of_succ_le_succ hfuel)]

theorem find_first {node : Option Nat} {fuel : Nat} (h : Represents l xs)
    (hfuel : xs.length ≤ fuel) :
    findNode l node fuel l.first = some (xs.find? fun x => some x = node) := by
  rw [h.first, find h.segment hfuel]

theorem find_member {fuel : Nat} (h : Represents l (pre ++ x :: post))
    (hfuel : (pre ++ x :: post).length ≤ fuel) :
    findNode l (some x) fuel l.first = some (some x) := by
  rw [h.find_first hfuel]
  have hx : x ∉ pre := fun hmem =>
    (List.nodup_append.1 h.nodup).2.2 x hmem x List.mem_cons_self rfl
  have hpre : pre.find? (fun y => some y = some x) = none := by
    apply List.find?_eq_none.2
    intro y hy
    simpa using fun he : y = x => hx (he ▸ hy)
  rw [List.find?_append, hpre, Option.none_or, List.find?_cons, decide_eq_true rfl]

theorem find_absent {node : Option Nat} {fuel : Nat} (h : Represents l xs)
    (hfuel : xs.length ≤ fuel) (habsent : ∀ x ∈ xs, some x ≠ node) :
    findNode l node fuel l.first = some none := by
  rw [h.find_first hfuel]
  apply congrArg some
  apply List.find?_eq_none.2
  intro x hx
  simpa using habsent x hx

/-- A list with a member is not empty. -/
theorem not_empty (h : Represents l (pre ++ x :: post)) : listIsEmpty l = false := by
  rw [listIsEmpty, h.first]
  cases pre <;> rfl

theorem first_eq_iff (h : Represents l (pre ++ x :: post)) : some x = l.first ↔ pre = [] := by
  rw [h.first]
  cases pre with
  | nil => simp
  | cons a pre =>
    have hax : x ≠ a := fun he =>
      (List.nodup_cons.1 h.nodup).1 (he ▸ List.mem_append_right pre List.mem_cons_self)
    simp [hax]

theorem last_eq_iff (h : Represents l (pre ++ x :: post)) : some x = l.last ↔ post = [] := by
  rw [h.last, List.getLast?_append, List.getLast?_cons]
  cases post with
  | nil => simp
  | cons c post =>
    have hx := (List.nodup_cons.1 (List.nodup_append.1 h.nodup).2.1).1
    have hlast : x ≠ (c :: post).getLast (List.cons_ne_nil c post) := fun he =>
      hx (he ▸ List.getLast_mem _)
    rw [List.getLast?_eq_some_getLast (List.cons_ne_nil c post)]
    simp [hlast]

theorem insertAfter {fuel : Nat} (h : Represents l (pre ++ x :: post))
    (hn : n ∉ pre ++ x :: post) (hfuel : (pre ++ x :: post).length ≤ fuel) :
    listInsertAfter fuel l n (some x) = some (l.linkIn n (some x) post.head?, true) := by
  have hnode := h.node
  have hlast := h.last_eq_iff
  simp only [listInsertAfter, h.not_empty, h.find_member hfuel, Bool.false_eq_true, ↓reduceIte]
  cases post with
  | nil =>
    rw [if_pos (hlast.2 rfl), h.insertBack hn, List.getLast?_concat]
    rfl
  | cons c post =>
    have hxn : x ≠ n := fun he => hn (he ▸ List.mem_append_right pre List.mem_cons_self)
    have hcn : c ≠ n := fun he =>
      hn (he ▸ List.mem_append_right pre (List.mem_cons_of_mem x List.mem_cons_self))
    have hnext : l.nexts x = some c := congrArg ListNode.next hnode
    rw [if_neg fun he => List.cons_ne_nil c post (hlast.1 he)]
    simp only [LinkedList.node_next, LinkedList.nexts_setPrev, LinkedList.nexts_setNext, hxn,
      ↓reduceIte, hnext, List.head?_cons]
    apply congrArg fun l => some (l, true)
    apply LinkedList.ext_pointers
    · intro y
      grind [DoublyLinked.linkIn]
    · intro y
      grind [DoublyLinked.linkIn]
    · simp
    · simp

theorem insertBefore {fuel : Nat} (h : Represents l (pre ++ x :: post))
    (hn : n ∉ pre ++ x :: post) (hfuel : (pre ++ x :: post).length ≤ fuel) :
    listInsertBefore fuel l n (some x) = some (l.linkIn n pre.getLast? (some x), true) := by
  have hnode := h.node
  have hfirst := h.first_eq_iff
  simp only [listInsertBefore, h.not_empty, h.find_member hfuel, Bool.false_eq_true, ↓reduceIte]
  obtain rfl | ⟨ys, b, rfl⟩ := List.eq_nil_or_concat pre
  · rw [if_pos (hfirst.2 rfl), h.insertFront hn]
    rfl
  · rw [List.concat_eq_append] at *
    have hxn : x ≠ n := fun he => hn (he ▸ List.mem_append_right _ List.mem_cons_self)
    have hbn : b ≠ n := fun he =>
      hn (he ▸ List.mem_append_left _ (List.mem_append_right ys List.mem_cons_self))
    have hprev : l.prevs x = some b := by
      rw [← LinkedList.node_prev, hnode, List.getLast?_concat]
    rw [if_neg fun he => by simpa using hfirst.1 he]
    simp only [LinkedList.node_prev, LinkedList.prevs_setPrev, LinkedList.prevs_setNext, hxn,
      ↓reduceIte, hprev, List.getLast?_concat]
    apply congrArg fun l => some (l, true)
    apply LinkedList.ext_pointers
    · intro y
      grind [DoublyLinked.linkIn]
    · intro y
      grind [DoublyLinked.linkIn]
    · simp
    · simp

/-- Taking out the only node clears the list. -/
theorem deleteOnly_eq (h : Represents l [x]) : deleteOnly l x = l.takeOut x none none := by
  have hlast : l.last = some x := h.last
  apply LinkedList.ext_pointers
  · intro y
    grind [deleteOnly, DoublyLinked.takeOut]
  · intro y
    grind [deleteOnly, DoublyLinked.takeOut]
  · simp [deleteOnly]
  · simp [deleteOnly]

theorem deleteFront (h : Represents l (x :: post)) :
    listDeleteFront l = some (l.takeOut x none post.head?, true) := by
  have hnode := @Represents.node _ [] _ _ h
  have hlast := @Represents.last_eq_iff _ [] _ _ h
  have hfirst : l.first = some x := h.first
  simp only [listDeleteFront, hfirst]
  cases post with
  | nil =>
    rw [if_pos (hlast.2 rfl), deleteOnly_eq h]
    rfl
  | cons c post =>
    have hxc : x ≠ c := fun he => (List.nodup_cons.1 h.nodup).1 (he ▸ List.mem_cons_self)
    have hnext : l.nexts x = some c := congrArg ListNode.next hnode
    rw [if_neg fun he => List.cons_ne_nil c post (hlast.1 he)]
    simp only [LinkedList.node_next, hnext, List.head?_cons]
    apply congrArg fun l => some (l, true)
    apply LinkedList.ext_pointers
    · intro y
      grind [DoublyLinked.takeOut]
    · intro y
      grind [DoublyLinked.takeOut]
    · simp
    · simp

theorem deleteBack (h : Represents l (pre ++ [x])) :
    listDeleteBack l = some (l.takeOut x pre.getLast? none, true) := by
  have hnode := h.node
  have hfirst := h.first_eq_iff
  have hlast : l.last = some x := by rw [h.last, List.getLast?_concat]
  obtain rfl | ⟨ys, b, rfl⟩ := List.eq_nil_or_concat pre
  · have hfirst' : l.first = some x := h.first
    simp only [listDeleteBack, hfirst', hlast, ↓reduceIte]
    rw [deleteOnly_eq h]
    rfl
  · rw [List.concat_eq_append] at *
    have hxb : x ≠ b := fun he => (List.nodup_append.1 h.nodup).2.2 b
      (List.mem_append_right ys List.mem_cons_self) x List.mem_cons_self he.symm
    have hprev : l.prevs x = some b := by
      rw [← LinkedList.node_prev, hnode, List.getLast?_concat]
    obtain ⟨a, ha⟩ : ∃ a, l.first = some a := by
      rw [h.first, List.append_assoc]
      cases ys <;> exact ⟨_, rfl⟩
    have hax : ¬ some a = some x := fun he => by simpa using hfirst.1 (he.symm.trans ha.symm)
    simp only [listDeleteBack, ha, hlast, hax, ↓reduceIte, LinkedList.node_prev, hprev,
      LinkedList.prevs_setNext, List.getLast?_concat]
    apply congrArg fun l => some (l, true)
    apply LinkedList.ext_pointers
    · intro y
      grind [DoublyLinked.takeOut]
    · intro y
      grind [DoublyLinked.takeOut]
    · simp
    · simp

/-- The neighbours of a member are other nodes, and not the same. -/
theorem neighbours (h : Represents l (pre ++ x :: post)) :
    pre.getLast? ≠ some x ∧ post.head? ≠ some x ∧
      ∀ y, pre.getLast? = some y → post.head? ≠ some y := by
  obtain ⟨-, hpost, hapart⟩ := List.nodup_append.1 h.nodup
  refine ⟨fun he => ?_, fun he => ?_, fun y hy he => ?_⟩
  · exact hapart x (List.mem_of_getLast? he) x List.mem_cons_self rfl
  · exact (List.nodup_cons.1 hpost).1 (List.mem_of_head? he)
  · exact hapart y (List.mem_of_getLast? hy) y (List.mem_cons_of_mem x (List.mem_of_head? he)) rfl

theorem unlink (h : Represents l (pre ++ x :: post)) :
    linkNodeDelete l (some x) = l.takeOut x pre.getLast? post.head? := by
  have hnode := h.node
  have hfirst := h.first_eq_iff
  have hlast := h.last_eq_iff
  obtain ⟨hpx, hqx, hpq⟩ := h.neighbours
  have hp : l.prevs x = pre.getLast? := congrArg ListNode.prev hnode
  have hq : l.nexts x = post.head? := congrArg ListNode.next hnode
  rw [← List.getLast?_eq_none_iff] at hfirst
  rw [← List.head?_eq_none_iff] at hlast
  generalize pre.getLast? = p at *
  generalize post.head? = q at *
  apply LinkedList.ext_pointers
  · intro y
    cases p <;> cases q <;> grind [linkNodeDelete, DoublyLinked.takeOut]
  · intro y
    cases p <;> cases q <;> grind [linkNodeDelete, DoublyLinked.takeOut]
  · cases p <;> cases q <;> grind [linkNodeDelete]
  · cases p <;> cases q <;> grind [linkNodeDelete]

theorem delete {fuel : Nat} (h : Represents l (pre ++ x :: post))
    (hfuel : (pre ++ x :: post).length ≤ fuel) :
    listDelete fuel l (some x) = some (l.takeOut x pre.getLast? post.head?, true) := by
  have hnode := h.node
  have hfirst := h.first_eq_iff
  have hlast := h.last_eq_iff
  simp only [listDelete, h.not_empty, Bool.false_eq_true, ↓reduceIte]
  obtain rfl | ⟨ys, b, rfl⟩ := List.eq_nil_or_concat pre
  · rw [if_pos (hfirst.2 rfl), h.deleteFront]
    rfl
  · rw [List.concat_eq_append] at *
    rw [if_neg fun he => by simpa using hfirst.1 he]
    cases post with
    | nil =>
      rw [if_pos (hlast.2 rfl), h.deleteBack]
      rfl
    | cons c post =>
      obtain ⟨hpx, hqx, hpq⟩ := h.neighbours
      have hp : l.prevs x = some b := by
        rw [← LinkedList.node_prev, hnode, List.getLast?_concat]
      have hq : l.nexts x = some c := congrArg ListNode.next hnode
      rw [if_neg fun he => List.cons_ne_nil c post (hlast.1 he), h.find_member hfuel]
      simp only [LinkedList.node_prev, LinkedList.node_next, hp, hq, LinkedList.prevs_setNext,
        List.getLast?_concat, List.head?_cons] at hpx hqx hpq ⊢
      apply congrArg fun l => some (l, true)
      apply LinkedList.ext_pointers
      · intro y
        grind [DoublyLinked.takeOut]
      · intro y
        grind [DoublyLinked.takeOut]
      · simp
      · simp

/-- Looking for a node that is not there changes nothing. -/
theorem absent {fuel : Nat} {node : Option Nat} (h : Represents l xs) (hfuel : xs.length ≤ fuel)
    (habsent : ∀ x ∈ xs, some x ≠ node) :
    listInsertAfter fuel l n node = some (l, false) ∧
      listInsertBefore fuel l n node = some (l, false) ∧
      listDelete fuel l node = some (l, false) := by
  have hfind := h.find_absent hfuel habsent
  cases xs with
  | nil =>
    have hempty : listIsEmpty l = true := by rw [listIsEmpty, h.first]; rfl
    simp [listInsertAfter, listInsertBefore, listDelete, hempty]
  | cons x xs =>
    have hempty := @Represents.not_empty _ [] _ _ h
    have hf : node ≠ l.first := fun he => habsent x List.mem_cons_self (h.first.symm.trans he.symm)
    have hl : node ≠ l.last := by
      intro he
      rw [h.last, List.getLast?_eq_some_getLast (List.cons_ne_nil x xs)] at he
      exact habsent _ (List.getLast_mem _) he.symm
    simp [listInsertAfter, listInsertBefore, listDelete, hempty, hfind, hf, hl]

end Represents

end PingServer
