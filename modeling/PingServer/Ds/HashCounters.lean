import PingServer.Ds.HashDeletion

/-!
# The counters of the hash table

`delete_count` is the number of tombstones in every run. `alive_count` grows with every key
that is stored, and `hash_delete` leaves it as it is.
-/

namespace PingServer

open ByteMem Probing Machine

/-- The number of slots with a status. -/
def statusCount (h : HashTable) (status : HashStatus) : Nat :=
  Nat.count (fun i => (h.table i).status = status) h.size

/-- The counters are what they are named for, and `hash_check` computes with them as with
numbers. -/
structure CountersCount (h : HashTable) : Prop where
  alive : h.aliveCount.toNat = statusCount h .alive
  deleted : h.deleteCount.toNat = statusCount h .delete
  le_size : h.aliveCount.toNat + h.deleteCount.toNat ≤ h.size
  total : ((h.aliveCount + h.deleteCount) * 4).toNat =
    (h.aliveCount.toNat + h.deleteCount.toNat) * 4
  sizes : (BitVec.ofNat 32 h.size * 3).toNat = h.size * 3
  tombstones : (h.deleteCount * 3).toNat = h.deleteCount.toNat * 3

/-- `missed` keys were deleted, and are still in `alive_count`. -/
structure Tallied (missed : Nat) (h : HashTable) : Prop where
  alive : h.aliveCount = BitVec.ofNat 32 (statusCount h .alive + missed)
  deleted : h.deleteCount = BitVec.ofNat 32 (statusCount h .delete)

section

variable {h : HashTable} {k : Hash} {v : List Byte} {missed : Nat}

theorem statusCount_le (h : HashTable) (status : HashStatus) : statusCount h status ≤ h.size :=
  Nat.count_le _

theorem statusCount_putEntry {s : Nat} (hs : s < h.size) (k : Hash) (v : List Byte)
    (status : HashStatus) :
    statusCount (putEntry h s k v) status + (if (h.table s).status = status then 1 else 0) =
      statusCount h status + (if .alive = status then 1 else 0) := by
  have hother : ∀ i, i ≠ s → ((putEntry h s k v).table i).status = (h.table i).status := by
    intro i hi
    simp only [putEntry, if_neg hi]
  have hself : ((putEntry h s k v).table s).status = .alive := by simp [putEntry]
  have hcount := count_replace hother status hs
  rw [hself] at hcount
  exact hcount

theorem statusCount_kill {s : Nat} (hs : s < h.size) (status : HashStatus) :
    statusCount (kill h s) status + (if (h.table s).status = status then 1 else 0) =
      statusCount h status + (if .delete = status then 1 else 0) := by
  have hother : ∀ i, i ≠ s → ((kill h s).table i).status = (h.table i).status := by
    intro i hi
    simp only [kill, if_neg hi]
  have hself : ((kill h s).table s).status = .delete := by simp [kill]
  have hcount := count_replace hother status hs
  rw [hself] at hcount
  exact hcount

/-! ## What is stored is counted -/

/-- What an insertion may do to the slots and the counters. -/
inductive Entered (h : HashTable) (k : Hash) (v : List Byte) : HashTable → Prop
  | same : Entered h k v h
  | reused (s : Nat) : s < h.size → (h.table s).status = .delete →
      Entered h k v { putEntry h s k v with
        deleteCount := h.deleteCount - 1, aliveCount := h.aliveCount + 1 }
  | fresh (s : Nat) : s < h.size → (h.table s).status = .empty →
      Entered h k v { putEntry h s k v with aliveCount := h.aliveCount + 1 }

theorem insertLoop_entered (hsize : 0 < h.size) (fuel : Nat) : ∀ {i : Nat}
    {firstDeleted : Option Nat},
    (∀ d, firstDeleted = some d → d < h.size ∧ (h.table d).status = .delete) →
      Entered h k v (insertLoop h k v fuel i firstDeleted).2 := by
  induction fuel with
  | zero =>
    intro i firstDeleted hfirst
    cases firstDeleted with
    | none => exact .same
    | some d =>
      obtain ⟨hd, hdeleted⟩ := hfirst d rfl
      exact .reused d hd hdeleted
  | succ fuel ih =>
    intro i firstDeleted hfirst
    have hlt : probeSlot h.size k i < h.size := probeSlot_lt hsize k i
    rw [insertLoop]
    simp only
    split
    · exact .same
    · -- the tombstone that the turn goes on with
      have hfirst' : ∀ d, (if firstDeleted = none ∧ (h.table (probeSlot h.size k i)).status = .delete
          then some (probeSlot h.size k i) else firstDeleted) = some d →
          d < h.size ∧ (h.table d).status = .delete := by
        intro d hd
        split at hd
        · rename_i hhere
          cases hd
          exact ⟨hlt, hhere.2⟩
        · exact hfirst d hd
      generalize (if firstDeleted = none ∧ (h.table (probeSlot h.size k i)).status = .delete
        then some (probeSlot h.size k i) else firstDeleted) = first at hfirst'
      split
      · rename_i hempty
        cases first with
        | none => exact .fresh _ hlt hempty
        | some d =>
          obtain ⟨hd, hdeleted⟩ := hfirst' d rfl
          exact .reused d hd hdeleted
      · exact ih hfirst'

theorem tally_succ (n : Nat) : BitVec.ofNat 32 (n + 1) = BitVec.ofNat 32 n + 1 :=
  BitVec.ofNat_add n 1

/-- A new key is one more, with the missed ones or without. -/
theorem Tallied.alive_stored (ht : Tallied missed h) (k : Hash) (v : List Byte) {s : Nat}
    (hs : s < h.size) (hfree : (h.table s).status ≠ .alive) :
    h.aliveCount + 1 = BitVec.ofNat 32 (statusCount (putEntry h s k v) .alive + missed) := by
  have hcount := statusCount_putEntry hs k v .alive
  simp only [hfree, ↓reduceIte, Nat.add_zero] at hcount
  rw [hcount, Nat.add_right_comm, tally_succ, ← ht.alive]

theorem Tallied.entered (ht : Tallied missed h) {h' : HashTable} (hentered : Entered h k v h') :
    Tallied missed h' := by
  cases hentered with
  | same => exact ht
  | reused s hs hdeleted =>
    refine ⟨ht.alive_stored k v hs (by rw [hdeleted]; simp), ?_⟩
    have hcount := statusCount_putEntry hs k v .delete
    simp only [hdeleted, reduceCtorEq, ↓reduceIte, Nat.add_zero] at hcount
    change h.deleteCount - 1 = BitVec.ofNat 32 (statusCount (putEntry h s k v) .delete)
    rw [ht.deleted, ← hcount, tally_succ]
    exact BitVec.add_sub_cancel _ _
  | fresh s hs hempty =>
    refine ⟨ht.alive_stored k v hs (by rw [hempty]; simp), ?_⟩
    have hcount := statusCount_putEntry hs k v .delete
    simp only [hempty, reduceCtorEq, ↓reduceIte, Nat.add_zero] at hcount
    change h.deleteCount = BitVec.ofNat 32 (statusCount (putEntry h s k v) .delete)
    rw [ht.deleted, hcount]

theorem Entered.size_eq {h' : HashTable} (hentered : Entered h k v h') : h'.size = h.size := by
  cases hentered <;> rfl

theorem insertLoop_enters (hsize : 0 < h.size) (k : Hash) (v : List Byte) :
    Entered h k v (insertLoop h k v h.size 0 none).2 :=
  insertLoop_entered hsize h.size fun _ hd => nomatch hd

theorem Tallied.inserted (ht : Tallied missed h) (hsize : 0 < h.size) (k : Hash) (v : List Byte) :
    Tallied missed (insertLoop h k v h.size 0 none).2 :=
  ht.entered (insertLoop_enters hsize k v)

theorem statusCount_emptyTable (size valSize : Nat) (vals : Memory) {status : HashStatus}
    (hne : status ≠ .empty) : statusCount (emptyTable size valSize vals) status = 0 :=
  Nat.count_iff_forall_not.2 fun _ _ heq => hne heq.symm

theorem Tallied.start (size valSize : Nat) (vals : Memory) :
    Tallied 0 (emptyTable size valSize vals) := by
  constructor
  · rw [statusCount_emptyTable _ _ _ (by simp)]
    rfl
  · rw [statusCount_emptyTable _ _ _ (by simp)]
    rfl

/-! ## A rehash counts anew -/

theorem Tallied.rehashed (old : HashTable) (n : Nat) (hsize : 0 < h.size) (ht : Tallied missed h) :
    Tallied missed (rehashLoop old n 0 h) := by
  refine (rehashLoop_induct (P := fun _ h => 0 < h.size ∧ Tallied missed h)
    (fun _ _ _ _ hP => hP) (fun i h k _ _ hP => ?_) n (Nat.zero_add n) ⟨hsize, ht⟩).2
  refine ⟨?_, hP.2.inserted hP.1 _ _⟩
  rw [(insertLoop_enters hP.1 _ _).size_eq]
  exact hP.1

theorem Tallied.checked (ht : Tallied missed h) (hsize : 0 < h.size) (alloc : Option Memory) :
    ∃ missed, Tallied missed (hashCheck h alloc) := by
  unfold hashCheck
  simp only
  split
  · exact ⟨missed, ht⟩
  · cases alloc with
    | none => exact ⟨missed, ht⟩
    | some vals => exact ⟨0, Tallied.rehashed h h.size hsize (Tallied.start _ _ vals)⟩

/-! ## What is deleted is missed -/

theorem Tallied.killed (ht : Tallied missed h) {s : Nat} (hs : s < h.size)
    (halive : (h.table s).status = .alive) : Tallied (missed + 1) (kill h s) := by
  have hless := statusCount_kill hs .alive
  have hmore := statusCount_kill hs .delete
  simp only [halive, reduceCtorEq, ↓reduceIte, Nat.add_zero] at hless hmore
  constructor
  · change h.aliveCount = _
    rw [ht.alive, ← hless, Nat.add_right_comm, Nat.add_assoc]
  · change h.deleteCount + 1 = _
    rw [ht.deleted, hmore, tally_succ]

theorem HashInv.hashDeleted_tallied {p valSize : Nat} (hinv : HashInv p valSize h) (hpos : 0 < p)
    (ht : Tallied missed h) (k : Hash) (alloc : Option Memory) :
    ∃ missed, Tallied missed (hashDelete h k alloc).2 := by
  have hinv' := hinv.checked alloc
  obtain ⟨missed', hcheck⟩ := ht.checked (by rw [hinv.size]; exact hpos) alloc
  cases hfind : deleteFind (hashCheck h alloc) k with
  | none =>
    rw [hashDelete_missed hfind]
    exact ⟨missed', hcheck⟩
  | some s =>
    obtain ⟨hs, halive, -⟩ := hinv'.ledTo_found hpos hfind
    rw [hashDelete_found hfind]
    exact ⟨missed' + 1, hcheck.killed hs (slots_eq_alive.1 halive).1⟩

theorem Tallied.delete_toNat (ht : Tallied missed h) (hmax : h.size < maxPrimeNumber) :
    h.deleteCount.toNat = statusCount h .delete := by
  have hle := statusCount_le h .delete
  rw [ht.deleted, BitVec.toNat_ofNat, Nat.mod_eq_of_lt]
  exact (hle.trans_lt hmax).trans (by decide)

theorem Tallied.alive_toNat (ht : Tallied missed h) (hmax : h.size < maxPrimeNumber)
    (hmissed : missed ≤ 1) : h.aliveCount.toNat = statusCount h .alive + missed := by
  have hle := statusCount_le h .alive
  rw [ht.alive, BitVec.toNat_ofNat, Nat.mod_eq_of_lt]
  exact (Nat.add_le_add hle hmissed).trans_lt ((Nat.succ_lt_succ hmax).trans (by decide))

theorem Tallied.countersCount (ht : Tallied 0 h) (hmax : h.size < maxPrimeNumber) :
    CountersCount h := by
  have halive := ht.alive_toNat hmax (Nat.zero_le 1)
  have hdeleted := ht.delete_toNat hmax
  have hboth : statusCount h .alive + statusCount h .delete ≤ h.size :=
    count_add_count_le (fun i => (h.table i).status) (by simp) h.size
  have hmax : h.size < 500000 := hmax
  refine ⟨halive, hdeleted, by omega, ?_, ?_, ?_⟩
  · rw [BitVec.toNat_mul, BitVec.toNat_add, show BitVec.toNat (4 : BitVec 32) = 4 from rfl]
    omega
  · rw [BitVec.toNat_mul, BitVec.toNat_ofNat, show BitVec.toNat (3 : BitVec 32) = 3 from rfl]
    omega
  · rw [BitVec.toNat_mul, show BitVec.toNat (3 : BitVec 32) = 3 from rfl]
    omega

/-- One missed key is one too many. -/
theorem Tallied.not_countersCount (ht : Tallied 1 h) (hmax : h.size < maxPrimeNumber) :
    ¬ CountersCount h := by
  intro hcount
  have halive := ht.alive_toNat hmax (Nat.le_refl 1)
  have heq := hcount.alive
  omega

end

/-! ## Runs -/

/-- The probe of a deletion meets the key before an empty slot. -/
def Meets (h : HashTable) (k : Hash) : Prop :=
  ∃ i, i < h.size ∧ slots h (deleteSlot h.size k i) = .alive k ∧
    Crossed (deleteSlot h.size) (slots h) k i

theorem deleteFind_none_iff (h : HashTable) (k : Hash) : deleteFind h k = none ↔ ¬ Meets h k := by
  constructor
  · rintro hfind ⟨i, hi, halive, hcross⟩
    obtain ⟨s, hs⟩ := find_of_crossed h.size (Nat.zero_le i) (by omega) halive hcross
    rw [← deleteFind, hfind] at hs
    cases hs
  · intro hnot
    cases hfind : deleteFind h k with
    | none => rfl
    | some s =>
      obtain ⟨halive, -⟩ := find_some h.size hfind
      obtain ⟨i, hi, hslot, hcross⟩ := find_crossed h.size
        (fun _ hj => absurd hj (Nat.not_lt_zero _)) hfind
      exact absurd ⟨i, by omega, hslot ▸ halive, hcross⟩ hnot

/-- The operation is no deletion of a key that is met. -/
def deletesNothing (s : HashState) (op : HashOp) : Prop :=
  ∀ k alloc, op = .delete k alloc → ¬ Meets s.table k

/-- A table without tombstones whose counters count. -/
structure NeverDeleted (p valSize : Nat) (s : HashState) : Prop where
  inv : HashInv p valSize s.table
  tallied : Tallied 0 s.table
  none : s.table.deleteCount = 0

section

variable {p valSize : Nat} {s t : HashState}

theorem NeverDeleted.insert (hs : NeverDeleted p valSize s) (hpos : 0 < p) (hmax : p < maxPrimeNumber)
    {k : Hash} {v : List Byte} {alloc : Option Memory}
    (hstep : hashStep s (.insert k v alloc) = some t) : NeverDeleted p valSize t := by
  have hinv := hashStep_inv hpos hs.inv hstep
  have hsize : 0 < s.table.size := by
    rw [hs.inv.size]
    exact hpos
  simp only [hashStep, hashInsert, hashCheck_fresh hs.none] at hstep
  split at hstep <;> cases hstep
  refine ⟨hinv, hs.tallied.inserted hsize k v, ?_⟩
  have hentered := insertLoop_enters hsize k v
  generalize (insertLoop s.table k v s.table.size 0 Option.none).2 = h at hentered
  cases hentered with
  | same => exact hs.none
  | reused i hi hdeleted =>
    -- the count of tombstones would not be zero
    have hcount := hs.tallied.delete_toNat (by rw [hs.inv.size]; exact hmax)
    rw [hs.none] at hcount
    exact absurd hdeleted (Nat.count_iff_forall_not.1 hcount.symm i hi)
  | fresh i _ _ => exact hs.none

theorem NeverDeleted.delete (hs : NeverDeleted p valSize s) (hpos : 0 < p) {k : Hash}
    {alloc : Option Memory} (hstep : hashStep s (.delete k alloc) = some t) :
    ¬ Meets s.table k ∧ NeverDeleted p valSize t ∨ Meets s.table k ∧ Tallied 1 t.table := by
  have hinv := hashStep_inv hpos hs.inv hstep
  have hcheck := hashCheck_fresh hs.none alloc
  cases hstep
  cases hfind : deleteFind (hashCheck s.table alloc) k with
  | none =>
    have hdelete := hashDelete_missed hfind
    rw [hcheck] at hfind hdelete
    refine .inl ⟨(deleteFind_none_iff _ _).1 hfind, hinv, ?_, ?_⟩
    · rw [hdelete]
      exact hs.tallied
    · rw [hdelete]
      exact hs.none
  | some i =>
    have hdelete := hashDelete_found hfind
    rw [hcheck] at hfind hdelete
    obtain ⟨hi, halive, -⟩ := hs.inv.ledTo_found hpos hfind
    refine .inr ⟨?_, ?_⟩
    · by_contra hnot
      rw [(deleteFind_none_iff _ _).2 hnot] at hfind
      cases hfind
    · rw [hdelete]
      exact hs.tallied.killed hi (slots_eq_alive.1 halive).1

theorem NeverDeleted.start (p valSize : Nat) (vals : Memory) :
    NeverDeleted p valSize (hashStart p valSize vals) :=
  ⟨(Holds.start p valSize vals).inv, Tallied.start p valSize vals, rfl⟩

theorem NeverDeleted.step (hs : NeverDeleted p valSize s) (hpos : 0 < p) (hmax : p < maxPrimeNumber)
    {op : HashOp} (hok : deletesNothing s op) (hstep : hashStep s op = some t) :
    NeverDeleted p valSize t := by
  cases op with
  | insert k v alloc => exact hs.insert hpos hmax hstep
  | delete k alloc =>
    rcases hs.delete hpos hstep with ⟨-, ht⟩ | ⟨hmeets, -⟩
    · exact ht
    · exact absurd hmeets (hok k alloc rfl)
  | query k =>
    cases hstep
    exact hs

/-- The step that deletes a key is the one that leaves `alive_count` too high. -/
theorem NeverDeleted.step_iff (hs : NeverDeleted p valSize s) (hpos : 0 < p)
    (hmax : p < maxPrimeNumber) (op : HashOp) :
    (∀ t, hashStep s op = some t → CountersCount t.table) ↔ deletesNothing s op := by
  constructor
  · rintro hcount k alloc rfl hmeets
    rcases hs.delete hpos (rfl : hashStep s (.delete k alloc) = some _) with ⟨hnot, -⟩ | ⟨-, ht⟩
    · exact hnot hmeets
    · have hinv := hashStep_inv hpos hs.inv (rfl : hashStep s (.delete k alloc) = some _)
      exact ht.not_countersCount (by rw [hinv.size]; exact hmax) (hcount _ rfl)
  · intro hok t hstep
    have ht := hs.step hpos hmax hok hstep
    exact ht.tallied.countersCount (by rw [ht.inv.size]; exact hmax)

theorem hashStep_tallied (hpos : 0 < p) (hinv : HashInv p valSize s.table)
    (ht : ∃ missed, Tallied missed s.table) {op : HashOp} (hstep : hashStep s op = some t) :
    ∃ missed, Tallied missed t.table := by
  obtain ⟨missed, ht⟩ := ht
  cases op with
  | insert k v alloc =>
    simp only [hashStep] at hstep
    split at hstep <;> cases hstep
    obtain ⟨missed', hcheck⟩ := ht.checked (by rw [hinv.size]; exact hpos) alloc
    exact ⟨missed', hcheck.inserted (by rw [(hinv.checked alloc).size]; exact hpos) k v⟩
  | delete k alloc =>
    cases hstep
    exact hinv.hashDeleted_tallied hpos ht k alloc
  | query k =>
    cases hstep
    exact ⟨missed, ht⟩

end

section

variable {number valSize : Nat} {alloc₀ : Option Memory} {h₀ : HashTable}

/-- `delete_count` is the number of tombstones, whatever is inserted and deleted. -/
theorem delete_count_counts (hcreate : hashCreate primeTable number valSize alloc₀ = some h₀)
    {s : HashState} (hreach : Reaches (graph hashStep) always ⟨h₀, ∅⟩ s) :
    s.table.deleteCount.toNat = statusCount s.table .delete := by
  obtain ⟨p, hp, hmax, -, ⟨vals, rfl⟩, -⟩ := created_inv hcreate hreach
  obtain ⟨hinv, missed, ht⟩ := hreach.invariant
    (fun s => HashInv p valSize s.table ∧ ∃ missed, Tallied missed s.table)
    ⟨(Holds.start p valSize vals).inv, 0, Tallied.start p valSize vals⟩
    fun a op b ha _ hstep =>
      ⟨hashStep_inv hp.pos ha.1 hstep, hashStep_tallied hp.pos ha.1 ha.2 hstep⟩
  exact ht.delete_toNat (by rw [hinv.size]; exact hmax)

/-- The counters count throughout a run exactly if no deletion in it finds its key. -/
theorem counters_count_iff (hcreate : hashCreate primeTable number valSize alloc₀ = some h₀)
    (ops : List HashOp) :
    (∀ ops', ops' <+: ops → ∀ s, run hashStep ⟨h₀, ∅⟩ ops' = some s → CountersCount s.table) ↔
      allowedAlong hashStep deletesNothing ⟨h₀, ∅⟩ ops := by
  obtain ⟨p, hp, hmax, -, ⟨vals, rfl⟩, -⟩ :=
    created_inv hcreate (.start : Reaches (graph hashStep) always ⟨h₀, ∅⟩ _)
  refine throughout_iff (Q := NeverDeleted p valSize) (fun s hs => ?_)
    (fun s op t hs hok hstep => hs.step hp.pos hmax hok hstep)
    (fun s op hs => hs.step_iff hp.pos hmax op) ops (NeverDeleted.start p valSize vals)
  exact hs.tallied.countersCount (by rw [hs.inv.size]; exact hmax)

end

/-- A key that was not inserted is deleted. -/
theorem counters_count_missing :
    allowedAlong hashStep deletesNothing ⟨emptyTable 132817 1 fun _ => 0, ∅⟩
        [HashOp.insert 5 [1] none, .delete 6 none] ∧
      ∀ ops', ops' <+: [HashOp.insert 5 [1] none, .delete 6 none] → ∀ s,
        run hashStep ⟨emptyTable 132817 1 fun _ => 0, ∅⟩ ops' = some s → CountersCount s.table := by
  have hrun : (hashStep (hashStart 132817 1 fun _ => 0) (.insert 5 [1] none)).any (fun s =>
      decide (deleteFind s.table 6 = none)) = true := by
    decide +kernel
  obtain ⟨s, hs, hfind⟩ := (Option.any_eq_true _ _).1 hrun
  have hallowed : allowedAlong hashStep deletesNothing ⟨emptyTable 132817 1 fun _ => 0, ∅⟩
      [HashOp.insert 5 [1] none, .delete 6 none] := by
    refine ⟨?_, fun t ht => ⟨?_, ?_⟩⟩
    · intro k alloc hop
      cases hop
    · obtain rfl : s = t := Option.some.inj (hs.symm.trans ht)
      rintro k alloc hop
      cases hop
      exact (deleteFind_none_iff _ _).1 (of_decide_eq_true hfind)
    · intro _ _
      trivial
  exact ⟨hallowed, (counters_count_iff (hashCreate_66400 1 fun _ => 0) _).2 hallowed⟩

/-- The key 5 is deleted, and still counted as alive. -/
theorem deleted_still_alive : ¬ ∀ (number valSize : Nat) (alloc₀ : Option Memory)
    (h₀ : HashTable) (s : HashState), hashCreate primeTable number valSize alloc₀ = some h₀ →
    Reaches (graph hashStep) always ⟨h₀, ∅⟩ s → CountersCount s.table := by
  intro hall
  have hrun : (hashStep (hashStart 132817 1 fun _ => 0) (.insert 5 [1] none)).any (fun s =>
      decide (deleteFind s.table 5 = some 5)) = true := by
    decide +kernel
  obtain ⟨s, hs, hfind⟩ := (Option.any_eq_true _ _).1 hrun
  have hfresh := (NeverDeleted.start 132817 1 fun _ => 0).insert (by decide) (by decide) hs
  have hmeets : Meets s.table 5 := by
    by_contra hnot
    have hnone := (deleteFind_none_iff _ _).2 hnot
    rw [of_decide_eq_true hfind] at hnone
    cases hnone
  have hcount := (hfresh.step_iff (by decide) (by decide) (.delete 5 none)).1 fun t ht =>
    hall 66400 1 _ _ t (hashCreate_66400 1 fun _ => 0)
      (.next _ (.next _ .start trivial hs) trivial ht)
  exact hcount 5 none rfl hmeets

end PingServer
