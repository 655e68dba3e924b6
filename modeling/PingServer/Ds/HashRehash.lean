import PingServer.Ds.HashRefinement

/-!
# A rehash of any table

`hash_check` puts the live keys, in the order of their slots, into an empty table. Where
more than half of the slots are live a key may find no place there, and from 2^32 bytes of
values on the value that goes with it is not its own.
-/

namespace PingServer

open ByteMem Probing

/-- `hash_check` finds the table due for a rehash, and has the memory for it. -/
def Rehashes (h : HashTable) (alloc : Option Memory) : Prop :=
  ¬ ((h.aliveCount + h.deleteCount) * 4 ≤ BitVec.ofNat 32 h.size * 3 ∨
    h.deleteCount * 3 ≤ h.aliveCount) ∧ alloc.isSome = true

instance (h : HashTable) (alloc : Option Memory) : Decidable (Rehashes h alloc) :=
  inferInstanceAs (Decidable (_ ∧ _))

/-- The live keys in an empty table, put there in the order of their slots. -/
def relaid (h : HashTable) : Nat → Slot Hash :=
  layOut (probeSlot h.size) h.size (keysOf h.size (slots h))

/-- The slots that an operation works on. -/
def laid (h : HashTable) (alloc : Option Memory) : Nat → Slot Hash :=
  if Rehashes h alloc then relaid h else slots h

def Placed (h : HashTable) (k : Hash) : Prop := ∃ s, s < h.size ∧ relaid h s = .alive k

/-- If the key is live, a rehash finds a place for it and moves the value that it has. -/
def MovesKey (h : HashTable) (k : Hash) : Prop :=
  ∀ s, s < h.size → slots h s = .alive k → Placed h k ∧ movedVal h s = hashValGet h s

/-- The first `i` slots of `old` have been moved to `h`. -/
structure Relaid (p valSize : Nat) (old : HashTable) (i : Nat) (h : HashTable) : Prop where
  inv : HashInv p valSize h
  keys : slots h = layOut (probeSlot p) p (keysOf i (slots old))
  vals : ∀ s k, s < p → slots h s = .alive k →
    ∃ s', s' < i ∧ slots old s' = .alive k ∧ hashValGet h s = movedVal old s'

section

variable {p valSize : Nat} {old h : HashTable} {k : Hash} {v : List Byte} {i : Nat}

theorem HashInv.live_iff (hinv : HashInv p valSize h) (hpos : 0 < p) :
    (hashQuery h k).isSome = true ↔ ∃ s, s < h.size ∧ slots h s = .alive k := by
  rw [Option.isSome_iff_exists]
  simp only [hinv.query hpos]
  constructor
  · rintro ⟨v, s, hs, halive, -⟩
    exact ⟨s, hs, halive⟩
  · rintro ⟨s, hs, halive⟩
    exact ⟨_, s, hs, halive, rfl⟩

theorem HashInv.inserted (hinv : HashInv p valSize h) (hpos : 0 < p) (hv : v.length = valSize) :
    HashInv p valSize (insertLoop h k v h.size 0 none).2 := by
  by_cases hthere : ∃ s, s < p ∧ slots h s = .alive k
  · obtain ⟨s, hs, halive⟩ := hthere
    rw [hinv.insert_present v hs halive]
    exact hinv
  · have habsent : ∀ s, s < p → slots h s ≠ .alive k := fun s hs halive =>
      hthere ⟨s, hs, halive⟩
    rcases hinv.insert_absent hpos hv habsent with ⟨heq, -⟩ | ⟨h', heq, hinv', -⟩
    · rw [heq]
      exact hinv
    · rw [heq]
      exact hinv'

/-! ## The loop -/

theorem Relaid.start (old : HashTable) (vals : Memory) :
    Relaid p valSize old 0 (emptyTable p valSize vals) where
  inv := (Moved.empty old vals).inv
  keys := rfl
  vals := by
    intro s k _ halive
    cases halive

/-- A slot without a key is passed over. -/
theorem Relaid.skip (hr : Relaid p valSize old i h) (hfree : (slots old i).isAlive = false) :
    Relaid p valSize old (i + 1) h := by
  refine ⟨hr.inv, ?_, ?_⟩
  · rw [keysOf_succ_free hfree]
    exact hr.keys
  · intro s k hs halive
    obtain ⟨s', hs', hrest⟩ := hr.vals s k hs halive
    exact ⟨s', by omega, hrest⟩

/-- What has been moved is live in a slot before. -/
theorem Relaid.absent (hr : Relaid p valSize old i h) (hold : HashInv p valSize old) (hi : i < p)
    (hkey : slots old i = .alive k) {s : Nat} (hs : s < p) : slots h s ≠ .alive k := by
  intro halive
  obtain ⟨s', hs', hkey', -⟩ := hr.vals s k hs halive
  have hsame := hold.probed.unique s' i k (by omega) hi hkey' hkey
  omega

/-- There is no tombstone, so the loop stops at the first slot without a key. -/
theorem Relaid.first (hr : Relaid p valSize old i h) {j : Nat} (hj : j < p)
    (hcross : Crossed (probeSlot p) (slots h) k j)
    (hfree : (slots h (probeSlot p k j)).isAlive = false) :
    firstFree (probeSlot p) p (slots h) k = some j := by
  refine firstFree_some.2 ⟨hj, hfree, fun j' hj' => ?_⟩
  have hdeleted : slots h (probeSlot p k j') ≠ .deleted := by
    rw [hr.keys]
    exact layOut_ne_deleted _ _
  have hempty := hcross j' hj'
  cases hslot : slots h (probeSlot p k j') with
  | empty => exact absurd hslot hempty
  | alive k' => rfl
  | deleted => exact absurd hslot hdeleted

theorem Relaid.move (hr : Relaid p valSize old i h) (hold : HashInv p valSize old) (hi : i < p)
    (hkey : slots old i = .alive k) :
    Relaid p valSize old (i + 1) (insertLoop h k (movedVal old i) h.size 0 none).2 := by
  have hpos : 0 < p := by omega
  have hsize := hr.inv.size
  have hv : (movedVal old i).length = valSize := by
    rw [movedVal, List.length_map, List.length_range, hold.valSize]
  have hkeys : layOut (probeSlot p) p (keysOf (i + 1) (slots old)) =
      place (probeSlot p) p (slots h) k := by
    rw [keysOf_succ_alive hkey, layOut_snoc, hr.keys]
  have habsent : ∀ s, s < p → slots h s ≠ .alive k := fun s hs => hr.absent hold hi hkey hs
  have hspec := insertLoop_init (k := k) (v := movedVal old i) (h := h) (by omega)
  generalize insertLoop h k (movedVal old i) h.size 0 none = r at hspec
  cases hspec with
  | found s hs halive => exact absurd halive (habsent s (hsize ▸ hs))
  | full hall =>
    rw [hsize] at hall
    refine ⟨hr.inv, ?_, ?_⟩
    · rw [hkeys, place, firstFree_none.2 hall]
    · intro s k' hs halive
      obtain ⟨s', hs', hrest⟩ := hr.vals s k' hs halive
      exact ⟨s', by omega, hrest⟩
  | stored j deleteCount hj hcross _ hfree =>
    rw [hsize] at hj hcross hfree
    obtain ⟨hinv, -, -⟩ :=
      hr.inv.stored hv hj hpos hcross habsent hfree deleteCount (h.aliveCount + 1)
    have hput := slots_putEntry h (probeSlot p k j) k (movedVal old i)
    have hlen : (movedVal old i).length = h.valSize := hv.trans hr.inv.valSize.symm
    rw [hsize]
    refine ⟨hinv, ?_, ?_⟩
    · rw [hkeys, place, hr.first hj hcross hfree]
      exact hput
    · intro s k' hs halive
      change slots (putEntry h (probeSlot p k j) k (movedVal old i)) s = _ at halive
      rw [hput] at halive
      by_cases heq : s = probeSlot p k j
      · subst heq
        rw [put_self] at halive
        cases halive
        exact ⟨i, by omega, hkey, hashValGet_putEntry k hlen⟩
      · rw [put_other _ _ heq] at halive
        obtain ⟨s', hs', hkey', hval⟩ := hr.vals s k' hs halive
        exact ⟨s', by omega, hkey', (hashValGet_putEntry_other k hlen heq).trans hval⟩

/-! ## The check -/

theorem hashCheck_idle {alloc : Option Memory} (hidle : ¬ Rehashes h alloc) :
    hashCheck h alloc = h := by
  unfold hashCheck
  simp only
  split
  · rfl
  · rename_i hdue
    cases alloc with
    | none => rfl
    | some vals => exact absurd ⟨hdue, rfl⟩ hidle

theorem HashInv.check_relaid (hinv : HashInv p valSize h) {alloc : Option Memory}
    (hdue : Rehashes h alloc) : Relaid p valSize h p (hashCheck h alloc) := by
  obtain ⟨vals, rfl⟩ := Option.isSome_iff_exists.1 hdue.2
  unfold hashCheck
  simp only
  rw [if_neg hdue.1, hinv.size, hinv.valSize]
  refine rehashLoop_induct (fun i g _ hfree hr => hr.skip hfree) (fun i g k hi hkey hr => ?_) p
    (Nat.zero_add p) (Relaid.start h vals)
  exact hr.move hinv hi hkey

theorem HashInv.checked (hinv : HashInv p valSize h) (alloc : Option Memory) :
    HashInv p valSize (hashCheck h alloc) := by
  by_cases hdue : Rehashes h alloc
  · exact (hinv.check_relaid hdue).inv
  · rw [hashCheck_idle hdue]
    exact hinv

theorem HashInv.slots_check (hinv : HashInv p valSize h) (alloc : Option Memory) :
    slots (hashCheck h alloc) = laid h alloc := by
  by_cases hdue : Rehashes h alloc
  · rw [laid, if_pos hdue, relaid, hinv.size]
    exact (hinv.check_relaid hdue).keys
  · rw [laid, if_neg hdue, hashCheck_idle hdue]

/-- After a rehash the keys that have found a place are live, each with the value that was
moved for it. -/
theorem HashInv.query_check (hinv : HashInv p valSize h) (hpos : 0 < p) {alloc : Option Memory}
    (hdue : Rehashes h alloc) : hashQuery (hashCheck h alloc) k = some v ↔
      Placed h k ∧ ∃ s, s < h.size ∧ slots h s = .alive k ∧ movedVal h s = v := by
  have hr := hinv.check_relaid hdue
  have hlaid : slots (hashCheck h alloc) = relaid h := by
    rw [hinv.slots_check, laid, if_pos hdue]
  rw [hr.inv.query hpos]
  constructor
  · rintro ⟨s, hs, halive, hval⟩
    rw [hr.inv.size] at hs
    obtain ⟨s', hs', hkey, hmoved⟩ := hr.vals s k hs halive
    refine ⟨⟨s, by rw [hinv.size]; exact hs, hlaid ▸ halive⟩, s', by rw [hinv.size]; exact hs', hkey, ?_⟩
    rw [← hmoved, hval]
  · rintro ⟨⟨s, hs, halive⟩, s₀, hs₀, hkey, hval⟩
    rw [hinv.size] at hs hs₀
    rw [← hlaid] at halive
    obtain ⟨s', hs', hkey', hmoved⟩ := hr.vals s k hs halive
    refine ⟨s, by rw [hr.inv.size]; exact hs, halive, ?_⟩
    rw [hmoved, hinv.probed.unique s' s₀ k hs' hs₀ hkey' hkey, hval]

theorem HashInv.query_none (hinv : HashInv p valSize h) (hpos : 0 < p) :
    hashQuery h k = none ↔ ∀ s, s < h.size → slots h s ≠ .alive k := by
  rw [← Option.not_isSome_iff_eq_none, hinv.live_iff hpos]
  exact ⟨fun hnot s hs halive => hnot ⟨s, hs, halive⟩, fun hall ⟨s, hs, halive⟩ => hall s hs halive⟩

/-- A key that is not live is not live after the check. -/
theorem HashInv.check_query_none (hinv : HashInv p valSize h) (hpos : 0 < p)
    (hnone : hashQuery h k = none) (alloc : Option Memory) :
    hashQuery (hashCheck h alloc) k = none := by
  by_cases hdue : Rehashes h alloc
  · rw [Option.eq_none_iff_forall_ne_some]
    intro v hv
    obtain ⟨-, s, hs, halive, -⟩ := (hinv.query_check hpos hdue).1 hv
    exact (hinv.query_none hpos).1 hnone s hs halive
  · rw [hashCheck_idle hdue]
    exact hnone

theorem HashInv.check_isSome_iff (hinv : HashInv p valSize h) (hpos : 0 < p) (alloc : Option Memory) :
    (hashQuery (hashCheck h alloc) k).isSome = (hashQuery h k).isSome ↔
      (Rehashes h alloc → (hashQuery h k).isSome = true → Placed h k) := by
  by_cases hdue : Rehashes h alloc
  · cases hlive : hashQuery h k with
    | none => simp [hinv.check_query_none hpos hlive]
    | some v =>
      obtain ⟨s, hs, halive, -⟩ := (hinv.query hpos).1 hlive
      simp only [Option.isSome_some, hdue, true_implies, Option.isSome_iff_exists,
        hinv.query_check hpos hdue]
      constructor
      · rintro ⟨-, hplaced, -⟩
        exact hplaced
      · intro hplaced
        exact ⟨_, hplaced, s, hs, halive, rfl⟩
  · rw [hashCheck_idle hdue]
    exact iff_of_true rfl fun hdue' => absurd hdue' hdue

theorem HashInv.check_query_iff (hinv : HashInv p valSize h) (hpos : 0 < p) (alloc : Option Memory) :
    hashQuery (hashCheck h alloc) k = hashQuery h k ↔ (Rehashes h alloc → MovesKey h k) := by
  by_cases hdue : Rehashes h alloc
  · cases hlive : hashQuery h k with
    | none =>
      have hnot := (hinv.query_none hpos).1 hlive
      exact iff_of_true (hinv.check_query_none hpos hlive alloc)
        fun _ s hs halive => absurd halive (hnot s hs)
    | some v =>
      obtain ⟨s, hs, halive, rfl⟩ := (hinv.query hpos).1 hlive
      rw [hinv.query_check hpos hdue]
      have hunique := hinv.probed.unique
      rw [← hinv.size] at hunique
      constructor
      · rintro ⟨hplaced, s', hs', halive', hval⟩ - s₀ hs₀ halive₀
        obtain rfl := hunique s₀ s k hs₀ hs halive₀ halive
        obtain rfl := hunique s' s₀ k hs' hs₀ halive' halive₀
        exact ⟨hplaced, hval⟩
      · intro hmoves
        obtain ⟨hplaced, hval⟩ := hmoves hdue s hs halive
        exact ⟨hplaced, s, hs, halive, hval⟩
  · rw [hashCheck_idle hdue]
    exact iff_of_true rfl fun hdue' => absurd hdue' hdue

/-- A live key that has found no place has none in its probe order. -/
theorem HashInv.relaid_full (hinv : HashInv p valSize h) (hpos : 0 < p)
    (hlive : (hashQuery h k).isSome = true) (hmissing : ¬ Placed h k) {i : Nat} (hi : i < h.size) :
    (relaid h (probeSlot h.size k i)).isAlive = true := by
  have hsize : 0 < h.size := hinv.size ▸ hpos
  refine layOut_full (fun i _ => probeSlot_lt hsize k i) (mem_keysOf.2 ?_) ?_ i hi
  · exact (hinv.live_iff hpos).1 hlive
  · intro s hs halive
    exact hmissing ⟨s, hs, halive⟩

end

end PingServer
