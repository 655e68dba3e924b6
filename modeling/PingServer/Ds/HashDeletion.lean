import PingServer.Ds.HashCreate
import PingServer.Ds.HashRehash
import Mathlib.FieldTheory.Finite.Basic

/-!
# Deletion against lookup

`hash_delete` has a probe loop of its own, whose turn is 32 bits wide. From turn 65536 on
its squares wrap, and it goes another way than the lookup and the insertion do.
-/

namespace PingServer

open ByteMem Probing Machine

/-! ## Every run -/

section

variable {p valSize : Nat} {h : HashTable} {k : Hash} {v : List Byte}

theorem HashInv.deleted (hinv : HashInv p valSize h) (fuel i : Nat) :
    HashInv p valSize (deleteLoop h k fuel i).2 := by
  rw [deleteLoop_eq]
  split
  · exact hinv.killed _
  · exact hinv

theorem hashStep_inv {s t : HashState} {op : HashOp} (hpos : 0 < p)
    (hinv : HashInv p valSize s.table) (hstep : hashStep s op = some t) :
    HashInv p valSize t.table := by
  cases op with
  | insert k v alloc =>
    simp only [hashStep] at hstep
    split at hstep <;> cases hstep
    rename_i hv
    exact (hinv.checked alloc).inserted hpos (hv.trans hinv.valSize)
  | delete k alloc =>
    cases hstep
    exact (hinv.checked alloc).deleted _ _
  | query k =>
    cases hstep
    exact hinv

/-- What every run of a created table keeps, however many keys are live. -/
theorem created_inv {number : Nat} {alloc : Option Memory} {h₀ : HashTable} {s : HashState}
    {ok : HashState → HashOp → Prop} (hcreate : hashCreate primeTable number valSize alloc = some h₀)
    (hreach : Reaches (graph hashStep) ok ⟨h₀, ∅⟩ s) :
    ∃ p, p.Prime ∧ p < maxPrimeNumber ∧ number * 2 % 2 ^ 64 ≤ p ∧
      (∃ vals, h₀ = emptyTable p valSize vals) ∧ HashInv p valSize s.table := by
  obtain ⟨i, vals, hi, rfl, hle⟩ := hashCreate_some primeTable_sorted hcreate
  have hprime : (primeTable.entry i).Prime := primeInit_prime (by decide) hi
  refine ⟨primeTable.entry i, hprime, primeInit_lt (by decide) hi, hle, ⟨vals, rfl⟩, ?_⟩
  refine hreach.invariant (fun s => HashInv _ valSize s.table) ?_ ?_
  · exact (Holds.start _ valSize vals).inv
  · intro a op b hinv _ hstep
    exact hashStep_inv hprime.pos hinv hstep

/-! ## One deletion -/

/-- A deletion of `k` as its callers understand it. -/
structure DeleteAgrees (h : HashTable) (k : Hash) (alloc : Option Memory) : Prop where
  found : (hashDelete h k alloc).1 = true ↔ (hashQuery h k).isSome = true
  gone : hashQuery (hashDelete h k alloc).2 k = none
  others : ∀ k', k' ≠ k → hashQuery (hashDelete h k alloc).2 k' = hashQuery h k'

/-- The check leaves the other keys as they are, and `k` where it is live. -/
structure CheckKeeps (h : HashTable) (k : Hash) (alloc : Option Memory) : Prop where
  live : (hashQuery (hashCheck h alloc) k).isSome = (hashQuery h k).isSome
  others : ∀ k', k' ≠ k → hashQuery (hashCheck h alloc) k' = hashQuery h k'

/-- The squares in 32 bits lead to the slot of `k` before they meet an empty one. -/
def LedTo (size : Nat) (t : Nat → Slot Hash) (k : Hash) : Prop :=
  ∀ s, s < size → t s = .alive k →
    ∃ i, i < size ∧ deleteSlot size k i = s ∧ Crossed (deleteSlot size) t k i

/-- Should the table be laid out anew, then every live key finds a place in it, and the
others their values; and the way in 32 bits leads to the key. -/
structure Deletable (h : HashTable) (k : Hash) (alloc : Option Memory) : Prop where
  placed : Rehashes h alloc → (hashQuery h k).isSome = true → Placed h k
  moved : Rehashes h alloc → ∀ k', k' ≠ k → MovesKey h k'
  led : LedTo h.size (laid h alloc) k

theorem HashInv.query_kill (hinv : HashInv p valSize h) (hpos : 0 < p) {s : Nat} (hs : s < h.size)
    (halive : slots h s = .alive k) (k' : Hash) :
    hashQuery (kill h s) k' = if k' = k then none else hashQuery h k' := by
  apply Option.ext
  intro v
  rw [(hinv.killed s).query hpos, hinv.stores_kill hs halive]
  split
  · rename_i hk
    exact iff_of_false (fun hboth => hboth.1 hk) (by simp)
  · rename_i hk
    rw [and_iff_right hk, hinv.query hpos]

/-- The slot that a deletion comes to, in the table that the check leaves. -/
def deleteFind (h : HashTable) (k : Hash) : Option Nat :=
  find (deleteSlot h.size) (slots h) k h.size 0

theorem hashDelete_missed {alloc : Option Memory} (hfind : deleteFind (hashCheck h alloc) k = none) :
    hashDelete h k alloc = (false, hashCheck h alloc) := by
  rw [hashDelete]
  simp only [deleteLoop_eq]
  rw [← deleteFind, hfind]

theorem hashDelete_found {alloc : Option Memory} {s : Nat}
    (hfind : deleteFind (hashCheck h alloc) k = some s) :
    hashDelete h k alloc = (true, kill (hashCheck h alloc) s) := by
  rw [hashDelete]
  simp only [deleteLoop_eq]
  rw [← deleteFind, hfind]

/-- Where nothing is found, the way leads to the key only if it is not live. -/
theorem HashInv.ledTo_missed (hinv : HashInv p valSize h) (hpos : 0 < p)
    (hfind : deleteFind h k = none) : LedTo h.size (slots h) k ↔ hashQuery h k = none := by
  rw [← Option.not_isSome_iff_eq_none, hinv.live_iff hpos]
  constructor
  · rintro hled ⟨s, hs, halive⟩
    obtain ⟨i, hi, hslot, hcross⟩ := hled s hs halive
    obtain ⟨s', hs'⟩ := find_of_crossed h.size (Nat.zero_le i) (by omega)
      (by rw [hslot]; exact halive) hcross
    rw [← deleteFind, hfind] at hs'
    cases hs'
  · intro hmissing s hs halive
    exact absurd ⟨s, hs, halive⟩ hmissing

/-- What is found is the only slot of the key. -/
theorem HashInv.ledTo_found (hinv : HashInv p valSize h) (hpos : 0 < p) {s : Nat}
    (hfind : deleteFind h k = some s) :
    s < h.size ∧ slots h s = .alive k ∧ LedTo h.size (slots h) k := by
  obtain ⟨halive, j, -, -, hslot⟩ := find_some h.size hfind
  have hsize : 0 < h.size := by
    rw [hinv.size]
    exact hpos
  have hs : s < h.size := hslot ▸ Nat.mod_lt _ hsize
  refine ⟨hs, halive, fun s' hs' halive' => ?_⟩
  have hunique := hinv.probed.unique
  rw [← hinv.size] at hunique
  obtain rfl := hunique s' s k hs' hs halive' halive
  obtain ⟨i, hi, hi', hcross⟩ := find_crossed h.size
    (fun _ hj => absurd hj (Nat.not_lt_zero _)) hfind
  exact ⟨i, by omega, hi', hcross⟩

/-- A deletion that finds nothing agrees if there was nothing to find. -/
theorem deleteAgrees_missed {alloc : Option Memory}
    (hfind : deleteFind (hashCheck h alloc) k = none) :
    DeleteAgrees h k alloc ↔ CheckKeeps h k alloc ∧ hashQuery (hashCheck h alloc) k = none := by
  have hdelete := hashDelete_missed hfind
  constructor
  · rintro ⟨hfound, hgone, hothers⟩
    rw [hdelete] at hfound hgone hothers
    have hmissing : (hashQuery h k).isSome = false :=
      Bool.eq_false_of_not_eq_true fun hlive => Bool.false_ne_true (hfound.2 hlive)
    refine ⟨⟨?_, hothers⟩, hgone⟩
    rw [hgone, hmissing]
    rfl
  · rintro ⟨⟨hlive, hothers⟩, hgone⟩
    rw [hgone] at hlive
    constructor
    · rw [hdelete, ← hlive]
      rfl
    · rw [hdelete]
      exact hgone
    · rw [hdelete]
      exact hothers

theorem HashInv.deleteAgrees_found {alloc : Option Memory} {s : Nat}
    (hinv : HashInv p valSize (hashCheck h alloc)) (hpos : 0 < p)
    (hfind : deleteFind (hashCheck h alloc) k = some s) :
    DeleteAgrees h k alloc ↔ CheckKeeps h k alloc := by
  obtain ⟨hs, halive, -⟩ := hinv.ledTo_found hpos hfind
  have hthere := (hinv.live_iff hpos).2 ⟨s, hs, halive⟩
  have hkill := hinv.query_kill hpos hs halive
  have hdelete := hashDelete_found hfind
  constructor
  · rintro ⟨hfound, -, hothers⟩
    rw [hdelete] at hfound hothers
    constructor
    · rw [hthere, hfound.1 rfl]
    · intro k' hk'
      rw [← hothers k' hk', hkill, if_neg hk']
  · rintro ⟨hlive, hothers⟩
    constructor
    · rw [hdelete, ← hlive, hthere]
    · rw [hdelete, hkill, if_pos rfl]
    · intro k' hk'
      rw [hdelete, hkill, if_neg hk', hothers k' hk']

theorem HashInv.deleteAgrees_iff (hinv : HashInv p valSize h) (hpos : 0 < p) (k : Hash)
    (alloc : Option Memory) : DeleteAgrees h k alloc ↔
      CheckKeeps h k alloc ∧ LedTo h.size (laid h alloc) k := by
  have hinv' := hinv.checked alloc
  have hsize : (hashCheck h alloc).size = h.size := hinv'.size.trans hinv.size.symm
  rw [← hinv.slots_check, ← hsize]
  cases hfind : deleteFind (hashCheck h alloc) k with
  | none => rw [deleteAgrees_missed hfind, hinv'.ledTo_missed hpos hfind]
  | some s =>
    obtain ⟨-, -, hled⟩ := hinv'.ledTo_found hpos hfind
    rw [hinv'.deleteAgrees_found hpos hfind, and_iff_left hled]

theorem HashInv.checkKeeps_iff (hinv : HashInv p valSize h) (hpos : 0 < p) (k : Hash)
    (alloc : Option Memory) : CheckKeeps h k alloc ↔
      (Rehashes h alloc → (hashQuery h k).isSome = true → Placed h k) ∧
        (Rehashes h alloc → ∀ k', k' ≠ k → MovesKey h k') := by
  constructor
  · rintro ⟨hlive, hothers⟩
    refine ⟨(hinv.check_isSome_iff hpos alloc).1 hlive, fun hdue k' hk' => ?_⟩
    exact (hinv.check_query_iff hpos alloc).1 (hothers k' hk') hdue
  · rintro ⟨hplaced, hmoved⟩
    refine ⟨(hinv.check_isSome_iff hpos alloc).2 hplaced, fun k' hk' => ?_⟩
    exact (hinv.check_query_iff hpos alloc).2 fun hdue => hmoved hdue k' hk'

theorem HashInv.deletable_iff (hinv : HashInv p valSize h) (hpos : 0 < p) (k : Hash)
    (alloc : Option Memory) : DeleteAgrees h k alloc ↔ Deletable h k alloc := by
  rw [hinv.deleteAgrees_iff hpos, hinv.checkKeeps_iff hpos]
  constructor
  · rintro ⟨⟨hplaced, hmoved⟩, hled⟩
    exact ⟨hplaced, hmoved, hled⟩
  · rintro ⟨hplaced, hmoved, hled⟩
    exact ⟨⟨hplaced, hmoved⟩, hled⟩

/-- Up to turn 65536 no square is cut off. -/
theorem deleteSlot_eq {size i : Nat} (k : Hash) (hi : i < 65536) :
    deleteSlot size k i = probeSlot size k i := by
  have hsq : i * i ≤ 65535 * 65535 := Nat.mul_le_mul (by omega) (by omega)
  have hk := k.isLt
  rw [deleteSlot, probeSlot, Nat.mod_eq_of_lt (show i * i < 2 ^ 32 by omega),
    Nat.mod_eq_of_lt (show k.toNat + i * i < 2 ^ 64 by omega)]

/-- A key that is met by turn 65536 is met by a deletion as well. -/
theorem ledTo_of_early {size : Nat} {t : Nat → Slot Hash}
    (hearly : ∀ s, s < size → t s = .alive k → ∃ i, i < 65536 ∧ i < size ∧
      probeSlot size k i = s ∧ Crossed (probeSlot size) t k i) : LedTo size t k := by
  intro s hs halive
  obtain ⟨i, hlow, hi, hslot, hcross⟩ := hearly s hs halive
  refine ⟨i, hi, (deleteSlot_eq k hlow).trans hslot, fun j hj => ?_⟩
  rw [deleteSlot_eq k (hj.trans hlow)]
  exact hcross j hj

/-- With at most half of the slots live a rehash loses nothing. -/
theorem Holds.check_query {s : HashState} (hholds : Holds p valSize s) (hp : p.Prime)
    (hmax : p < 2 ^ 31) (hfit : p * valSize < 2 ^ 32) (hfew : 2 * s.live.keys.length ≤ p)
    (alloc : Option Memory) (k : Hash) :
    hashQuery (hashCheck s.table alloc) k = hashQuery s.table k :=
  ((hholds.check hp hmax hfit hfew alloc).query hp.pos k).trans (hholds.query hp.pos k).symm

end

section

variable {number valSize : Nat} {alloc₀ : Option Memory} {h₀ : HashTable} {s : HashState}

/-- A table that was created for as many keys as it has answers after a rehash as before. -/
theorem created_check_query (hnumber : number < 2 ^ 63)
    (hcreate : hashCreate primeTable number valSize alloc₀ = some h₀)
    (hreach : Reaches (graph hashStep) (withinNumber number) ⟨h₀, ∅⟩ s)
    (hfit : h₀.size * valSize < 2 ^ 32) (alloc : Option Memory) (k : Hash) :
    hashQuery (hashCheck s.table alloc) k = hashQuery s.table k := by
  obtain ⟨p, hp, hlt, hle, ⟨vals, rfl⟩, -⟩ := created_inv hcreate hreach
  have hmax : p < 2 ^ 31 := hlt.trans (by decide)
  have hwrap : number * 2 % 2 ^ 64 = number * 2 := Nat.mod_eq_of_lt (by omega)
  rw [hwrap] at hle
  obtain ⟨hholds, hlen⟩ := hashRun_holds hp hmax hfit (by omega) hreach
  exact hholds.check_query hp hmax hfit (by omega) alloc k

/-- In such a table a deletion agrees exactly if its way leads to the key. -/
theorem within_delete_agrees_iff (hnumber : number < 2 ^ 63)
    (hcreate : hashCreate primeTable number valSize alloc₀ = some h₀)
    (hreach : Reaches (graph hashStep) (withinNumber number) ⟨h₀, ∅⟩ s)
    (hfit : h₀.size * valSize < 2 ^ 32) (k : Hash) (alloc : Option Memory) :
    DeleteAgrees s.table k alloc ↔ LedTo s.table.size (laid s.table alloc) k := by
  have hsame := created_check_query hnumber hcreate hreach hfit alloc
  obtain ⟨p, hp, -, -, -, hinv⟩ := created_inv hcreate hreach
  have hkeeps : CheckKeeps s.table k alloc :=
    ⟨by rw [hsame], fun k' _ => hsame k'⟩
  rw [hinv.deleteAgrees_iff hp.pos, and_iff_right hkeeps]

/-- Up to 65536 slots it always does. -/
theorem small_delete_agrees (hnumber : number < 2 ^ 63)
    (hcreate : hashCreate primeTable number valSize alloc₀ = some h₀)
    (hreach : Reaches (graph hashStep) (withinNumber number) ⟨h₀, ∅⟩ s)
    (hsmall : h₀.size ≤ 65536) (hfit : h₀.size * valSize < 2 ^ 32) (k : Hash)
    (alloc : Option Memory) : DeleteAgrees s.table k alloc := by
  refine (within_delete_agrees_iff hnumber hcreate hreach hfit k alloc).2 ?_
  obtain ⟨p, hp, -, -, ⟨vals, rfl⟩, hinv⟩ := created_inv hcreate hreach
  have hsmall : p ≤ 65536 := hsmall
  have hinv' := hinv.checked alloc
  rw [← hinv.slots_check, hinv.size]
  apply ledTo_of_early
  intro i hi halive
  obtain ⟨j, hj, hslot, hcross⟩ := hinv'.probed.chain i hi k halive
  exact ⟨j, by omega, hj, hslot, hcross⟩

end

/-! ## A long chain -/

/-- The keys that are the first `m` squares are in their home slots, and nothing else is
in the table. -/
structure SquaresStored (p m : Nat) (s : HashState) : Prop where
  size : s.table.size = p
  valSize : s.table.valSize = 1
  deleteCount : s.table.deleteCount = 0
  stored : ∀ i, i < m →
    slots s.table (quadratic p 0 i) = .alive (BitVec.ofNat 32 (quadratic p 0 i))
  empty : ∀ j, (∀ i, i < m → quadratic p 0 i ≠ j) → slots s.table j = .empty
  few : s.live.keys.length ≤ m

section

variable {p m : Nat} {s : HashState} {h : HashTable} {k : Hash} {v : List Byte}

/-- Without tombstones there is no rehash. -/
theorem not_rehashes_fresh (hfresh : h.deleteCount = 0) (alloc : Option Memory) :
    ¬ Rehashes h alloc := by
  rintro ⟨hdue, -⟩
  apply hdue
  rw [hfresh]
  exact .inr (BitVec.le_def.2 (Nat.zero_le _))

theorem hashCheck_fresh (hfresh : h.deleteCount = 0) (alloc : Option Memory) :
    hashCheck h alloc = h :=
  hashCheck_idle (not_rehashes_fresh hfresh alloc)

theorem laid_fresh (hfresh : h.deleteCount = 0) (alloc : Option Memory) :
    laid h alloc = slots h :=
  if_neg (not_rehashes_fresh hfresh alloc)

theorem SquaresStored.no_tombstone (hs : SquaresStored p m s) (j : Nat) :
    slots s.table j ≠ .deleted := by
  by_cases hsquare : ∃ i, i < m ∧ quadratic p 0 i = j
  · obtain ⟨i, hi, rfl⟩ := hsquare
    rw [hs.stored i hi]
    intro hdel
    cases hdel
  · rw [hs.empty j fun i hi heq => hsquare ⟨i, hi, heq⟩]
    intro hdel
    cases hdel

/-- Every key is in its home slot. -/
theorem SquaresStored.home (hpos : 0 < p) (hmax : p < 2 ^ 31) (hs : SquaresStored p m s) {j : Nat}
    (halive : slots s.table j = .alive k) : k.toNat = j ∧ j < p := by
  by_cases hsquare : ∃ i, i < m ∧ quadratic p 0 i = j
  · obtain ⟨i, hi, rfl⟩ := hsquare
    have hlt : quadratic p 0 i < p := Nat.mod_lt _ hpos
    rw [hs.stored i hi] at halive
    have hkey := congrArg BitVec.toNat (Slot.alive.inj halive)
    rw [BitVec.toNat_ofNat, Nat.mod_eq_of_lt (by omega)] at hkey
    exact ⟨hkey.symm, hlt⟩
  · rw [hs.empty j fun i hi heq => hsquare ⟨i, hi, heq⟩] at halive
    cases halive

theorem live_insert_length (s : HashState) (k : Hash) (v : List Byte) (b : Bool) :
    (if k ∉ s.live ∧ b = true then s.live.insert k v else s.live).keys.length ≤
      s.live.keys.length + 1 := by
  split
  · rename_i hnew
    rw [AList.insert_of_notMem hnew.1]
    exact Nat.le_refl _
  · exact Nat.le_succ _

/-- An insertion of one byte does not rehash, and adds at most one key. -/
theorem SquaresStored.step (hs : SquaresStored p m s) (k : Hash) :
    ∃ t, hashStep s (.insert k [0] none) = some t ∧
      t.table = (insertLoop s.table k [0] s.table.size 0 none).2 ∧
      t.live.keys.length ≤ m + 1 := by
  have hlen : [0].length = s.table.valSize := hs.valSize.symm
  have hfresh : hashInsert s.table k [0] none = insertLoop s.table k [0] s.table.size 0 none := by
    rw [hashInsert, hashCheck_fresh hs.deleteCount]
  refine ⟨_, if_pos hlen, ?_, ?_⟩
  · rw [hfresh]
  · exact (live_insert_length s k [0] _).trans (Nat.succ_le_succ hs.few)

/-- A key that is in its home slot stays there. -/
theorem insertLoop_home (hpos : 0 < h.size) (halive : slots h (probeSlot h.size k 0) = .alive k) :
    (insertLoop h k v h.size 0 none).2 = h := by
  obtain ⟨n, hn⟩ := Nat.exists_eq_succ_of_ne_zero hpos.ne'
  simp only [hn, insertLoop]
  rw [← hn, if_pos (slots_eq_alive.1 halive)]

/-- A key whose home slot is empty is put there. -/
theorem insertLoop_empty (hpos : 0 < h.size) (hempty : slots h (probeSlot h.size k 0) = .empty) :
    (insertLoop h k v h.size 0 none).2 =
      { putEntry h (probeSlot h.size k 0) k v with aliveCount := h.aliveCount + 1 } := by
  obtain ⟨n, hn⟩ := Nat.exists_eq_succ_of_ne_zero hpos.ne'
  have hstatus := slots_eq_empty.1 hempty
  simp only [hn, insertLoop]
  rw [← hn]
  simp [hstatus]

/-- A square that has come up before changes nothing. -/
theorem SquaresStored.seen (hs : SquaresStored p m s)
    (halive : slots s.table (quadratic p 0 m) = .alive (BitVec.ofNat 32 (quadratic p 0 m)))
    {t : HashState} (htable : t.table = s.table) (hfew : t.live.keys.length ≤ m + 1) :
    SquaresStored p (m + 1) t := by
  constructor
  · rw [htable]
    exact hs.size
  · rw [htable]
    exact hs.valSize
  · rw [htable]
    exact hs.deleteCount
  · rw [htable]
    exact Nat.forall_lt_succ_right.2 ⟨hs.stored, halive⟩
  · intro j hj
    rw [htable]
    exact hs.empty j fun i hi => hj i (by omega)
  · exact hfew

/-- A new one is put into its slot. -/
theorem SquaresStored.added (hs : SquaresStored p m s)
    (hnew : ∀ i, i < m → quadratic p 0 i ≠ quadratic p 0 m) {t : HashState} {n : Nat}
    (htable : t.table = { putEntry s.table (quadratic p 0 m) (BitVec.ofNat 32 (quadratic p 0 m)) v
      with aliveCount := n })
    (hfew : t.live.keys.length ≤ m + 1) : SquaresStored p (m + 1) t := by
  have hslots : slots t.table =
      put (slots s.table) (quadratic p 0 m) (.alive (BitVec.ofNat 32 (quadratic p 0 m))) := by
    rw [htable]
    exact slots_putEntry s.table _ _ v
  constructor
  · rw [htable]
    exact hs.size
  · rw [htable]
    exact hs.valSize
  · rw [htable]
    exact hs.deleteCount
  · intro i hi
    rw [hslots]
    rcases Nat.lt_succ_iff_lt_or_eq.1 hi with hlt | rfl
    · rw [put_other _ _ (hnew i hlt)]
      exact hs.stored i hlt
    · rw [put_self]
  · intro j hj
    rw [hslots, put_other _ _ (hj m (Nat.lt_succ_self m)).symm]
    exact hs.empty j fun i hi => hj i (by omega)
  · exact hfew

theorem SquaresStored.next (hpos : 0 < p) (hmax : p < 2 ^ 31) (hs : SquaresStored p m s) :
    ∃ t, hashStep s (.insert (BitVec.ofNat 32 (quadratic p 0 m)) [0] none) = some t ∧
      SquaresStored p (m + 1) t := by
  have hlt : quadratic p 0 m < p := Nat.mod_lt _ hpos
  have hkey : (BitVec.ofNat 32 (quadratic p 0 m)).toNat = quadratic p 0 m :=
    (BitVec.toNat_ofNat _ _).trans (Nat.mod_eq_of_lt (by omega))
  have hslot : probeSlot s.table.size (BitVec.ofNat 32 (quadratic p 0 m)) 0 = quadratic p 0 m := by
    rw [hs.size, probeSlot_eq hmax _ hpos, quadratic, hkey]
    exact Nat.mod_eq_of_lt hlt
  have hsize : 0 < s.table.size := by
    rw [hs.size]
    exact hpos
  obtain ⟨t, hstep, htable, hfew⟩ := hs.step (BitVec.ofNat 32 (quadratic p 0 m))
  refine ⟨t, hstep, ?_⟩
  by_cases hseen : ∃ i, i < m ∧ quadratic p 0 i = quadratic p 0 m
  · obtain ⟨i, hi, hsame⟩ := hseen
    have halive := hs.stored i hi
    rw [hsame] at halive
    rw [insertLoop_home hsize (by rw [hslot]; exact halive)] at htable
    exact hs.seen halive htable hfew
  · have hnew : ∀ i, i < m → quadratic p 0 i ≠ quadratic p 0 m := fun i hi heq => hseen ⟨i, hi, heq⟩
    rw [insertLoop_empty hsize (by rw [hslot]; exact hs.empty _ hnew), hslot] at htable
    exact hs.added hnew htable hfew

theorem exists_squaresStored (hpos : 0 < p) (hmax : p < 2 ^ 31) (vals : Memory) {number : Nat} :
    ∀ {m}, m ≤ number → ∃ s, Reaches (graph hashStep) (withinNumber number)
      (hashStart p 1 vals) s ∧ SquaresStored p m s := by
  intro m
  induction m with
  | zero =>
    intro _
    refine ⟨_, .start, ⟨rfl, rfl, rfl, fun i hi => absurd hi (Nat.not_lt_zero i), fun _ _ => rfl, ?_⟩⟩
    exact Nat.zero_le _
  | succ m ih =>
    intro hm
    obtain ⟨s, hreach, hs⟩ := ih (by omega)
    obtain ⟨t, hstep, ht⟩ := hs.next hpos hmax
    refine ⟨t, hreach.next _ (fun t' hstep' => ?_) hstep, ht⟩
    rw [hstep] at hstep'
    cases hstep'
    exact ht.few.trans hm

/-- An insertion that meets no tombstone uses none up. -/
theorem insertLoop_deleteCount (hnone : ∀ j, slots h j ≠ .deleted) (fuel : Nat) :
    ∀ i, (insertLoop h k v fuel i none).2.deleteCount = h.deleteCount := by
  induction fuel with
  | zero =>
    intro i
    rfl
  | succ fuel ih =>
    intro i
    have hstatus := mt slots_eq_deleted.2 (hnone (probeSlot h.size k i))
    simp only [insertLoop, hstatus, and_false, ↓reduceIte]
    split
    · rfl
    · split
      · rfl
      · exact ih (i + 1)

/-- Behind 65536 keys on its way, a key is stored in turn 65536. -/
theorem SquaresStored.insert_last (hp : p.Prime) (hlarge : 131072 < p) (hmax : p < 2 ^ 31)
    (hs : SquaresStored p 65536 s) (hk : k.toNat = p) :
    ∃ t, hashStep s (.insert k [0] none) = some t ∧ t.table.size = p ∧
      t.table.deleteCount = 0 ∧ t.live.keys.length ≤ 65537 ∧
      slots t.table = put (slots s.table) (quadratic p 0 65536) (.alive k) := by
  have hinj := quadratic_injOn hp 0
  have hnew : ∀ i, i < 65536 → quadratic p 0 i ≠ quadratic p 0 65536 := by
    intro i hi heq
    have hsame := hinj (Set.mem_Iio.2 (by omega)) (Set.mem_Iio.2 (by omega)) heq
    omega
  have hslot : ∀ i, i < p → probeSlot p k i = quadratic p 0 i := by
    intro i hi
    rw [probeSlot_eq hmax k hi, hk, quadratic, quadratic, Nat.add_mod_left, Nat.zero_add]
  have hempty : slots s.table (quadratic p 0 65536) = .empty := hs.empty _ hnew
  have hother : ∀ j, slots s.table j ≠ .alive k := by
    intro j halive
    obtain ⟨hhome, hlt⟩ := hs.home hp.pos hmax halive
    omega
  obtain ⟨t, hstep, htable, hfew⟩ := hs.step k
  have hcount := insertLoop_deleteCount (k := k) (v := [0]) hs.no_tombstone s.table.size 0
  rw [← htable, hs.deleteCount] at hcount
  refine ⟨t, hstep, ?_⟩
  have hspec := insertLoop_init (k := k) (v := [0]) (h := s.table) (by rw [hs.size]; exact hp.pos)
  generalize insertLoop s.table k [0] s.table.size 0 none = r at hspec htable
  have hlast : slots s.table (probeSlot s.table.size k 65536) = .empty := by
    rw [hs.size, hslot 65536 (by omega)]
    exact hempty
  have hin : 65536 < s.table.size := by
    rw [hs.size]
    omega
  cases hspec with
  | found j _ halive => exact absurd halive (hother j)
  | full hall =>
    have halive := hall 65536 hin
    rw [hlast] at halive
    cases halive
  | stored i deleteCount hi hcross _ hfree =>
    obtain rfl : i = 65536 := by
      rcases Nat.lt_trichotomy i 65536 with hlt | rfl | hgt
      · rw [hs.size, hslot i (by omega), hs.stored i hlt] at hfree
        cases hfree
      · rfl
      · exact absurd hlast (hcross 65536 hgt)
    rw [hs.size, hslot 65536 (by omega)] at htable
    refine ⟨?_, hcount, hfew, ?_⟩
    · rw [htable]
      exact hs.size
    · rw [htable]
      exact slots_putEntry s.table _ k [0]

/-- A deletion in a table of `p` slots meets the empty slot 131073 in turn 65537, unless
that is a square. -/
theorem not_ledTo (hp : p.Prime) (hlarge : 131073 < p) (hs : SquaresStored p 65536 s)
    (hk : k.toNat = p) (hsize : h.size = p)
    (hslots : slots h = put (slots s.table) (quadratic p 0 65536) (.alive k))
    (hsquare : ∀ i, quadratic p 0 i ≠ 131073) (hzero : quadratic p 0 65536 ≠ 0) :
    ¬ LedTo h.size (slots h) k := by
  intro hled
  have hslot : ∀ i, deleteSlot p k i = i * i % 2 ^ 32 % p := by
    intro i
    rw [deleteSlot, hk, Nat.add_mod_left]
  have hhole : slots h 131073 = .empty := by
    rw [hslots, put_other _ _ (hsquare 65536).symm]
    exact hs.empty _ fun i _ => hsquare i
  obtain ⟨i, hi, hmeets, hcross⟩ := hled (quadratic p 0 65536) (by rw [hsize]; exact Nat.mod_lt _ hp.pos)
    (by rw [hslots, put_self])
  rw [hsize, hslot] at hmeets
  have hcases : i < 65536 ∨ i = 65536 ∨ i = 65537 ∨ 65537 < i := by omega
  rcases hcases with hlt | rfl | rfl | hgt
  · have hsq : i * i ≤ 65535 * 65535 := Nat.mul_le_mul (by omega) (by omega)
    have hsame : quadratic p 0 i = quadratic p 0 65536 := by
      rw [← hmeets, quadratic, Nat.zero_add, Nat.mod_eq_of_lt (show i * i < 2 ^ 32 by omega)]
    have heq := quadratic_injOn hp 0 (Set.mem_Iio.2 (by omega)) (Set.mem_Iio.2 (by omega)) hsame
    omega
  · exact hzero (by rw [← hmeets, show 65536 * 65536 % 2 ^ 32 = 0 from rfl, Nat.zero_mod])
  · rw [show 65537 * 65537 % 2 ^ 32 = 131073 from rfl, Nat.mod_eq_of_lt hlarge] at hmeets
    exact hsquare 65536 hmeets.symm
  · apply hcross 65537 hgt
    rw [hsize, hslot, show 65537 * 65537 % 2 ^ 32 = 131073 from rfl, Nat.mod_eq_of_lt hlarge]
    exact hhole

/-- A number whose power with half the order is not 1 is no square. -/
theorem quadratic_ne {a n : Nat} (hp : p.Prime) (hn : p = 2 * n + 1) (hpos : 0 < a) (hlt : a < p)
    (hpow : a ^ n % p ≠ 1) (i : Nat) : quadratic p 0 i ≠ a := by
  rintro rfl
  rw [quadratic, Nat.zero_add] at hpos hlt hpow
  have hcoprime : i.Coprime p := by
    rw [Nat.coprime_comm, hp.coprime_iff_not_dvd]
    intro hdvd
    rw [Nat.mod_eq_zero_of_dvd (hdvd.mul_right i)] at hpos
    exact Nat.lt_irrefl 0 hpos
  have horder : Nat.totient p = 2 * n := by
    rw [Nat.totient_prime hp]
    omega
  have hone : i ^ (2 * n) ≡ 1 [MOD p] := horder ▸ Nat.ModEq.pow_totient hcoprime
  apply hpow
  calc (i * i % p) ^ n % p = (i * i) ^ n % p := (Nat.pow_mod _ _ _).symm
    _ = i ^ (2 * n) % p := by rw [← pow_two, ← pow_mul]
    _ = 1 % p := hone
    _ = 1 := Nat.mod_eq_of_lt hp.one_lt

end

end PingServer
