import PingServer.Ds.LinkList
import PingServer.Lib.Machine

/-!
# Linked lists as sequences

What the operations of `linklist.c` mean for the sequence of nodes that a list
represents, and that the list follows its sequence through every run.
-/

namespace PingServer

open Machine

/-- A call of an operation that changes a list. -/
inductive ListOp where
  | insertFront (n : Nat)
  | insertBack (n : Nat)
  | insertAfter (n : Nat) (node : Option Nat)
  | insertBefore (n : Nat) (node : Option Nat)
  | deleteFront
  | deleteBack
  | delete (node : Option Nat)
  | nodeDelete (node : Nat)
  deriving DecidableEq, Repr

/-- `link_node_delete` returns nothing, which is taken for success. -/
def listApply (fuel : Nat) (l : LinkedList) : ListOp → Option (LinkedList × Bool)
  | .insertFront n => (listInsertFront l n).map fun l => (l, true)
  | .insertBack n => (listInsertBack l n).map fun l => (l, true)
  | .insertAfter n node => listInsertAfter fuel l n node
  | .insertBefore n node => listInsertBefore fuel l n node
  | .deleteFront => listDeleteFront l
  | .deleteBack => listDeleteBack l
  | .delete node => listDelete fuel l node
  | .nodeDelete x => some (linkNodeDelete l (some x), true)

/-! ## Sequences -/

/-- Only a node that is not in the list is inserted, and only a member is deleted
without a search. -/
def ListOp.Admissible (xs : List Nat) : ListOp → Prop
  | .insertFront n | .insertBack n | .insertAfter n _ | .insertBefore n _ => n ∉ xs
  | .nodeDelete x => x ∈ xs
  | .deleteFront | .deleteBack | .delete _ => True

instance (xs : List Nat) (op : ListOp) : Decidable (op.Admissible xs) := by
  cases op <;> unfold ListOp.Admissible <;> infer_instance

/-- Every node that is `node` is replaced by the nodes `ys`. -/
def seqReplace (node : Option Nat) (ys : List Nat) (xs : List Nat) : List Nat :=
  xs.flatMap fun x => if some x = node then ys else [x]

def seqContains (node : Option Nat) (xs : List Nat) : Bool :=
  xs.any fun x => some x = node

/-- The sequence after an operation, and what the operation returns. -/
def seqApply (xs : List Nat) : ListOp → List Nat × Bool
  | .insertFront n => (n :: xs, true)
  | .insertBack n => (xs ++ [n], true)
  | .insertAfter n node => (seqReplace node (node.toList ++ [n]) xs, seqContains node xs)
  | .insertBefore n node => (seqReplace node (n :: node.toList) xs, seqContains node xs)
  | .deleteFront => (xs.tail, !xs.isEmpty)
  | .deleteBack => (xs.dropLast, !xs.isEmpty)
  | .delete node => (seqReplace node [] xs, seqContains node xs)
  | .nodeDelete x => (seqReplace (some x) [] xs, true)

theorem seqReplace_absent {node : Option Nat} {ys xs : List Nat} (h : ∀ x ∈ xs, some x ≠ node) :
    seqReplace node ys xs = xs := by
  induction xs with
  | nil => rfl
  | cons x xs ih =>
    rw [seqReplace, List.flatMap_cons, if_neg (h x List.mem_cons_self)]
    exact congrArg (x :: ·) (ih fun y hy => h y (List.mem_cons_of_mem x hy))

theorem seqReplace_member {x : Nat} {ys pre post : List Nat} (h : (pre ++ x :: post).Nodup) :
    seqReplace (some x) ys (pre ++ x :: post) = pre ++ (ys ++ post) := by
  obtain ⟨-, hpost, hapart⟩ := List.nodup_append.1 h
  have hpre : seqReplace (some x) ys pre = pre := seqReplace_absent fun y hy he =>
    hapart y hy x List.mem_cons_self (Option.some.inj he)
  have hpost' : seqReplace (some x) ys post = post := seqReplace_absent fun y hy he =>
    (List.nodup_cons.1 hpost).1 (Option.some.inj he ▸ hy)
  rw [seqReplace] at hpre hpost' ⊢
  rw [List.flatMap_append, List.flatMap_cons, if_pos rfl, hpre, hpost']

/-- A node is in the sequence, and has a place there, or is not. -/
theorem seqContains_cases (node : Option Nat) (xs : List Nat) :
    (∃ x pre post, node = some x ∧ xs = pre ++ x :: post ∧ seqContains node xs = true) ∨
      (∀ x ∈ xs, some x ≠ node) ∧ seqContains node xs = false := by
  by_cases h : seqContains node xs = true
  · left
    obtain ⟨x, hx, heq⟩ := List.any_eq_true.1 h
    obtain ⟨pre, post, hsplit⟩ := List.append_of_mem hx
    exact ⟨x, pre, post, (of_decide_eq_true heq).symm, hsplit, h⟩
  · right
    refine ⟨fun x hx heq => h (List.any_eq_true.2 ⟨x, hx, decide_eq_true heq⟩), ?_⟩
    exact Bool.eq_false_iff.2 h

/-! ## One operation -/

/-- From the list `l` of `xs` an operation that returned `ret` has made the list
`l'` of `xs'`. -/
structure ListRefines (l : LinkedList) (xs : List Nat) (l' : LinkedList) (xs' : List Nat)
    (ret : Bool) : Prop where
  represents : Represents l' xs'
  refused : ret = false → l' = l
  removed : ∀ x ∈ xs, x ∉ xs' → l'.nodes x = ⟨none, none⟩
  others : ∀ y, y ∉ xs → y ∉ xs' → l'.nodes y = l.nodes y

namespace Represents

variable {l : LinkedList} {xs pre post : List Nat} {n x fuel : Nat}

theorem refines_same (h : Represents l xs) (ret : Bool) : ListRefines l xs l xs ret where
  represents := h
  refused := fun _ => rfl
  removed := fun _ hx hx' => absurd hx hx'
  others := fun _ _ _ => rfl

theorem refines_linkIn (h : Represents l (pre ++ post)) (hn : n ∉ pre ++ post) :
    ListRefines l (pre ++ post) (l.linkIn n pre.getLast? post.head?) (pre ++ n :: post) true where
  represents := h.linkIn hn
  refused := by
    intro hret
    cases hret
  removed := by
    intro x hx hx'
    simp only [List.mem_append, List.mem_cons, not_or] at hx hx'
    exact (hx.elim hx'.1 hx'.2.2).elim
  others := by
    intro y hy hy'
    simp only [List.mem_append, List.mem_cons, not_or] at hy hy'
    have hyp : ¬ some y = pre.getLast? := fun he => hy.1 (List.mem_of_getLast? he.symm)
    have hyq : ¬ some y = post.head? := fun he => hy.2 (List.mem_of_head? he.symm)
    simp [LinkedList.linkIn, DoublyLinked.linkIn, hy'.2.1, hyp, hyq]

theorem refines_takeOut (h : Represents l (pre ++ x :: post)) :
    ListRefines l (pre ++ x :: post) (l.takeOut x pre.getLast? post.head?) (pre ++ post) true where
  represents := h.takeOut
  refused := by
    intro hret
    cases hret
  removed := by
    intro y hy hy'
    simp only [List.mem_append, List.mem_cons, not_or] at hy hy'
    have hyx : y = x := by
      obtain hpre | hyx | hpost := hy
      · exact absurd hpre hy'.1
      · exact hyx
      · exact absurd hpost hy'.2
    simp [LinkedList.takeOut, DoublyLinked.takeOut, hyx]
  others := by
    intro y hy _
    simp only [List.mem_append, List.mem_cons, not_or] at hy
    have hyp : ¬ some y = pre.getLast? := fun he => hy.1 (List.mem_of_getLast? he.symm)
    have hyq : ¬ some y = post.head? := fun he => hy.2.2 (List.mem_of_head? he.symm)
    simp [LinkedList.takeOut, DoublyLinked.takeOut, hy.2.1, hyp, hyq]

theorem refines_back (h : Represents l xs) (hn : n ∉ xs) :
    ListRefines l xs (l.linkIn n xs.getLast? none) (xs ++ [n]) true := by
  have hback := @Represents.refines_linkIn _ xs [] _ (by rwa [List.append_nil])
    (by rwa [List.append_nil])
  rwa [List.append_nil] at hback

/-- Every admissible operation does to the list what it does to the sequence. -/
theorem apply_refines (h : Represents l xs) {op : ListOp} (hop : op.Admissible xs)
    (hfuel : xs.length ≤ fuel) :
    ∃ l', listApply fuel l op = some (l', (seqApply xs op).2) ∧
      ListRefines l xs l' (seqApply xs op).1 (seqApply xs op).2 := by
  cases op with
  | insertFront n =>
    exact ⟨_, by rw [listApply, h.insertFront hop]; rfl, @Represents.refines_linkIn _ [] _ _ h hop⟩
  | insertBack n =>
    exact ⟨_, by rw [listApply, h.insertBack hop]; rfl, h.refines_back hop⟩
  | insertAfter n node =>
    simp only [listApply, seqApply]
    obtain ⟨x, pre, post, rfl, rfl, hret⟩ | ⟨habsent, hret⟩ := seqContains_cases node xs
    · rw [h.insertAfter hop hfuel, hret, seqReplace_member h.nodup]
      refine ⟨_, rfl, ?_⟩
      have hsplit : pre ++ x :: post = (pre ++ [x]) ++ post := by simp
      rw [hsplit] at h hop ⊢
      have hrefines := h.refines_linkIn hop
      rw [List.getLast?_concat] at hrefines
      simpa using hrefines
    · rw [(h.absent hfuel habsent).1, hret, seqReplace_absent habsent]
      exact ⟨l, rfl, h.refines_same false⟩
  | insertBefore n node =>
    simp only [listApply, seqApply]
    obtain ⟨x, pre, post, rfl, rfl, hret⟩ | ⟨habsent, hret⟩ := seqContains_cases node xs
    · rw [h.insertBefore hop hfuel, hret, seqReplace_member h.nodup]
      exact ⟨_, rfl, h.refines_linkIn hop⟩
    · rw [(h.absent hfuel habsent).2.1, hret, seqReplace_absent habsent]
      exact ⟨l, rfl, h.refines_same false⟩
  | deleteFront =>
    cases xs with
    | nil =>
      have hfirst : l.first = none := h.first
      exact ⟨l, by rw [listApply, listDeleteFront, hfirst]; rfl, h.refines_same false⟩
    | cons x xs =>
      exact ⟨_, h.deleteFront, @Represents.refines_takeOut _ [] _ _ h⟩
  | deleteBack =>
    obtain rfl | ⟨ys, x, rfl⟩ := List.eq_nil_or_concat xs
    · have hfirst : l.first = none := h.first
      exact ⟨l, by rw [listApply, listDeleteBack, hfirst]; rfl, h.refines_same false⟩
    · rw [List.concat_eq_append] at h ⊢
      have hsome : (!(ys ++ [x]).isEmpty) = true := by simp
      simp only [listApply, seqApply, h.deleteBack, List.dropLast_concat, hsome]
      exact ⟨_, rfl, by simpa using h.refines_takeOut⟩
  | delete node =>
    simp only [listApply, seqApply]
    obtain ⟨x, pre, post, rfl, rfl, hret⟩ | ⟨habsent, hret⟩ := seqContains_cases node xs
    · rw [h.delete hfuel, hret, seqReplace_member h.nodup]
      exact ⟨_, rfl, h.refines_takeOut⟩
    · rw [(Represents.absent (n := 0) h hfuel habsent).2.2, hret, seqReplace_absent habsent]
      exact ⟨l, rfl, h.refines_same false⟩
  | nodeDelete x =>
    obtain ⟨pre, post, rfl⟩ := List.append_of_mem (show x ∈ xs from hop)
    simp only [listApply, seqApply]
    rw [h.unlink, seqReplace_member h.nodup]
    exact ⟨_, rfl, h.refines_takeOut⟩

end Represents

/-! ## Every run -/

/-- A list and the sequence it should represent. -/
structure ListState where
  list : LinkedList
  seq : List Nat

/-- One turn of fuel for each node is enough for every search. -/
def listStep (s : ListState) (op : ListOp) : Option ListState :=
  if op.Admissible s.seq then
    (listApply s.seq.length s.list op).map fun r => ⟨r.1, (seqApply s.seq op).1⟩
  else none

theorem listStep_represents {s t : ListState} {op : ListOp} (h : Represents s.list s.seq)
    (hstep : listStep s op = some t) : Represents t.list t.seq := by
  unfold listStep at hstep
  split at hstep
  · rename_i hop
    obtain ⟨l', hl', hrefines⟩ := h.apply_refines hop (Nat.le_refl _)
    rw [hl', Option.map_some] at hstep
    cases hstep
    exact hrefines.represents
  · cases hstep

/-- After any run, the list represents its sequence and every operation on it does
what it should do to that sequence. -/
theorem list_refines (l : LinkedList) (xs : List Nat) (h : Represents l xs) (s : ListState)
    (hs : Reaches (graph listStep) always ⟨l, xs⟩ s) :
    Represents s.list s.seq ∧ ∀ op fuel, op.Admissible s.seq → s.seq.length ≤ fuel →
      ∃ l', listApply fuel s.list op = some (l', (seqApply s.seq op).2) ∧
        ListRefines s.list s.seq l' (seqApply s.seq op).1 (seqApply s.seq op).2 := by
  have hrep : Represents s.list s.seq :=
    hs.invariant (fun s => Represents s.list s.seq) h fun _ _ _ hinv _ hstep =>
      listStep_represents hinv hstep
  exact ⟨hrep, fun op fuel hop hfuel => hrep.apply_refines hop hfuel⟩

def emptyList : LinkedList := ⟨fun _ => ⟨none, none⟩, none, none⟩

/-- Every operation at least once, on up to five nodes. -/
def everyOp : List ListOp :=
  [.insertFront 3, .insertBack 5, .insertAfter 6 (some 5), .insertBefore 4 (some 5),
    .insertAfter 7 (some 3), .delete (some 9), .deleteFront, .nodeDelete 4, .delete (some 7),
    .deleteBack]

theorem list_refines_everyOp : ∃ s, run listStep ⟨emptyList, []⟩ everyOp = some s ∧
    s.seq = [5] ∧ Represents s.list s.seq := by
  have hrun : (run listStep ⟨emptyList, []⟩ everyOp).any (fun s => decide (s.seq = [5])) = true := by
    decide +kernel
  obtain ⟨s, hs, hseq⟩ := (Option.any_eq_true _ _).1 hrun
  have hempty : Represents emptyList [] := ⟨List.nodup_nil, rfl, rfl, trivial⟩
  exact ⟨s, hs, of_decide_eq_true hseq,
    (list_refines emptyList [] hempty s (reaches_of_run (allowedAlong_always _ _ _) hs)).1⟩

end PingServer
