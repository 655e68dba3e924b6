import PingServer.Ds.HashDeletion

/-!
# What an insertion promises

`hash_insert` returns true as well where the key has another value, which stays. An
insertion that is refused may have rehashed the table before.
-/

namespace PingServer

open ByteMem Probing Machine

/-- An insertion as its callers understand it. -/
structure InsertVisible (h : HashTable) (k : Hash) (v : List Byte) (alloc : Option Memory) :
    Prop where
  stored : (hashInsert h k v alloc).1 = true → hashQuery (hashInsert h k v alloc).2 k = some v
  refused : (hashInsert h k v alloc).1 = false →
    ∀ k', hashQuery (hashInsert h k v alloc).2 k' = hashQuery h k'

/-- The key is not live, and its probe order has a slot for it. -/
def HasRoom (h : HashTable) (k : Hash) : Prop :=
  hashQuery h k = none ∧ ∃ i, i < h.size ∧ (slots h (probeSlot h.size k i)).isAlive = false

/-- The key is not live with another value, and where nothing is inserted the rehash
`h'` of the table answers as the table `h` did. -/
structure InsertKeeps (h h' : HashTable) (k : Hash) (v : List Byte) : Prop where
  same : ∀ v', hashQuery h' k = some v' → v' = v
  kept : HasRoom h' k ∨ ∀ k', hashQuery h' k' = hashQuery h k'

/-- A key that is not live has room in the table that it is put into. Or a rehash, should
there be one, moves every key with its value, and the key is not live with another. -/
inductive Insertable (h : HashTable) (k : Hash) (v : List Byte) (alloc : Option Memory) : Prop
  | room (i : Nat) : hashQuery h k = none → i < h.size →
      (laid h alloc (probeSlot h.size k i)).isAlive = false → Insertable h k v alloc
  | kept : (Rehashes h alloc → ∀ k', MovesKey h k') →
      (∀ v', hashQuery h k = some v' → v' = v) → Insertable h k v alloc

section

variable {p valSize : Nat} {h : HashTable} {k : Hash} {v : List Byte}

/-- The loop comes to the slot of a live key, and goes no further. -/
theorem insertLoop_found {j : Nat} (halive : slots h (probeSlot h.size k j) = .alive k)
    (hcross : Crossed (probeSlot h.size) (slots h) k j) (fuel : Nat) :
    ∀ {i : Nat} (firstDeleted : Option Nat), i ≤ j → j < i + fuel → ∃ i', i ≤ i' ∧
      slots h (probeSlot h.size k i') = .alive k ∧
      insertLoop h k v fuel i firstDeleted = (hashValGet h (probeSlot h.size k i') != v, h) := by
  induction fuel with
  | zero =>
    intro i firstDeleted hlo hhi
    omega
  | succ fuel ih =>
    intro i firstDeleted hlo hhi
    by_cases hhere : slots h (probeSlot h.size k i) = .alive k
    · refine ⟨i, Nat.le_refl i, hhere, ?_⟩
      rw [insertLoop]
      exact if_pos (slots_eq_alive.1 hhere)
    · have hne : i ≠ j := by
        rintro rfl
        exact hhere halive
      have hfull := mt slots_eq_empty.2 (hcross i (by omega))
      simp only [insertLoop, if_neg (mt slots_eq_alive.2 hhere), if_neg hfull]
      obtain ⟨i', hi', hrest⟩ := ih _ (show i + 1 ≤ j by omega) (by omega)
      exact ⟨i', by omega, hrest⟩

/-- The insertion of a live key compares its value, and does no more. -/
theorem HashInv.insert_live (hinv : HashInv p valSize h) (hpos : 0 < p) {v' : List Byte}
    (hquery : hashQuery h k = some v') :
    insertLoop h k v h.size 0 none = (v' != v, h) := by
  have hunique := hinv.probed.unique
  have hchain := hinv.probed.chain
  rw [← hinv.size] at hunique hchain
  obtain ⟨s, hs, halive, rfl⟩ := (hinv.query hpos).1 hquery
  obtain ⟨j, hj, rfl, hcross⟩ := hchain s hs k halive
  obtain ⟨i, -, halive', heq⟩ := insertLoop_found (v := v) halive hcross h.size none (Nat.zero_le j)
    (by omega)
  have hlt : probeSlot h.size k i < h.size := probeSlot_lt (by omega) k i
  rw [heq, hunique _ _ k hlt hs halive' halive]

/-- A refused insertion is as good as the rehash before it. -/
theorem refused_visible_iff {h' : HashTable} {alloc : Option Memory}
    (hinsert : hashInsert h k v alloc = (false, h')) (hfull : ¬ HasRoom h' k)
    (hsame : ∀ v', hashQuery h' k = some v' → v' = v) :
    InsertVisible h k v alloc ↔ InsertKeeps h h' k v := by
  constructor
  · intro hvisible
    refine ⟨hsame, .inr fun k' => ?_⟩
    rw [← hvisible.refused (by rw [hinsert]) k', hinsert]
  · intro hable
    refine ⟨fun htrue => ?_, fun _ k' => ?_⟩
    · rw [hinsert] at htrue
      cases htrue
    · rw [hinsert]
      exact hable.kept.resolve_left hfull k'

/-- A live key whose value is another one is not inserted, behind a result of true. -/
theorem HashInv.insertVisible_live {alloc : Option Memory}
    (hinv : HashInv p valSize (hashCheck h alloc)) (hpos : 0 < p) {v' : List Byte}
    (hquery : hashQuery (hashCheck h alloc) k = some v') :
    InsertVisible h k v alloc ↔ InsertKeeps h (hashCheck h alloc) k v := by
  have hinsert : hashInsert h k v alloc = (v' != v, hashCheck h alloc) := hinv.insert_live hpos hquery
  by_cases hsame : v' = v
  · rw [hsame, bne_self_eq_false] at hinsert
    apply refused_visible_iff hinsert
    · rintro ⟨hnone, -⟩
      rw [hquery] at hnone
      cases hnone
    · intro w hw
      rw [hquery, hsame] at hw
      exact (Option.some.inj hw).symm
  · rw [bne_iff_ne.2 hsame] at hinsert
    constructor
    · intro hvisible
      have hstored := hvisible.stored (by rw [hinsert])
      rw [hinsert, hquery] at hstored
      exact absurd (Option.some.inj hstored) hsame
    · intro hable
      exact absurd (hable.same v' hquery) hsame

/-- A key that is not live is inserted, or there is no room for it. -/
theorem HashInv.insertVisible_absent {alloc : Option Memory}
    (hinv : HashInv p valSize (hashCheck h alloc)) (hpos : 0 < p) (hv : v.length = valSize)
    (hquery : hashQuery (hashCheck h alloc) k = none) :
    InsertVisible h k v alloc ↔ InsertKeeps h (hashCheck h alloc) k v := by
  have hinsert : hashInsert h k v alloc = insertLoop (hashCheck h alloc) k v
    (hashCheck h alloc).size 0 none := rfl
  generalize hashCheck h alloc = h' at hinv hinsert hquery
  have hnone : ∀ w, hashQuery h' k = some w → w = v := by
    intro w hw
    rw [hquery] at hw
    cases hw
  have habsent : ∀ s, s < p → slots h' s ≠ .alive k := by
    intro s hs halive
    have hlive := (hinv.live_iff hpos).2 ⟨s, by rw [hinv.size]; exact hs, halive⟩
    rw [hquery] at hlive
    cases hlive
  have hspec := insertLoop_init (k := k) (v := v) (h := h') (by rw [hinv.size]; exact hpos)
  generalize insertLoop h' k v h'.size 0 none = r at hspec hinsert
  cases hspec with
  | found s hs halive => exact absurd halive (habsent s (hinv.size ▸ hs))
  | full hall =>
    apply refused_visible_iff hinsert
    · rintro ⟨-, i, hi, hfree⟩
      rw [hall i hi] at hfree
      cases hfree
    · exact hnone
  | stored i deleteCount hi hcross _ hfree =>
    have hroom : HasRoom h' k := ⟨hquery, i, hi, hfree⟩
    rw [hinv.size] at hi hcross hfree
    obtain ⟨hnew, hstores, -⟩ :=
      hinv.stored hv hi hpos hcross habsent hfree deleteCount (h'.aliveCount + 1)
    refine iff_of_true ⟨fun _ => ?_, fun hfalse => ?_⟩ ⟨hnone, .inl hroom⟩
    · rw [hinsert, hinv.size]
      exact (hnew.query hpos).2 ((hstores k v).2 (.inl ⟨rfl, rfl⟩))
    · rw [hinsert] at hfalse
      cases hfalse

theorem HashInv.insertVisible_iff (hinv : HashInv p valSize h) (hpos : 0 < p)
    (hv : v.length = valSize) (alloc : Option Memory) :
    InsertVisible h k v alloc ↔ InsertKeeps h (hashCheck h alloc) k v := by
  have hinv' := hinv.checked alloc
  cases hquery : hashQuery (hashCheck h alloc) k with
  | some v' => exact hinv'.insertVisible_live hpos hquery
  | none => exact hinv'.insertVisible_absent hpos hv hquery

/-- A live key that a rehash has lost has no room either. -/
theorem HashInv.room_absent (hinv : HashInv p valSize h) (hpos : 0 < p) {alloc : Option Memory}
    (hroom : HasRoom (hashCheck h alloc) k) : hashQuery h k = none := by
  obtain ⟨hnone, i, hi, hfree⟩ := hroom
  by_cases hdue : Rehashes h alloc
  · by_contra hsome
    have hlive := Option.isSome_iff_ne_none.2 hsome
    obtain ⟨s, hs, halive⟩ := (hinv.live_iff hpos).1 hlive
    have hmissing : ¬ Placed h k := by
      intro hplaced
      rw [(hinv.query_check hpos hdue).2 ⟨hplaced, s, hs, halive, rfl⟩] at hnone
      cases hnone
    rw [(hinv.checked alloc).size, ← hinv.size] at hi hfree
    rw [hinv.slots_check, laid, if_pos hdue, hinv.relaid_full hpos hlive hmissing hi] at hfree
    cases hfree
  · rw [hashCheck_idle hdue] at hnone
    exact hnone

theorem HashInv.insertKeeps_iff (hinv : HashInv p valSize h) (hpos : 0 < p) (alloc : Option Memory) :
    InsertKeeps h (hashCheck h alloc) k v ↔ Insertable h k v alloc := by
  have hsize : (hashCheck h alloc).size = h.size := (hinv.checked alloc).size.trans hinv.size.symm
  constructor
  · rintro ⟨hsame, hroom | hall⟩
    · have habsent := hinv.room_absent hpos hroom
      obtain ⟨-, i, hi, hfree⟩ := hroom
      rw [hsize] at hi hfree
      rw [hinv.slots_check] at hfree
      exact .room i habsent hi hfree
    · refine .kept (fun hdue k' => (hinv.check_query_iff hpos alloc).1 (hall k') hdue) ?_
      intro v' hv'
      exact hsame v' ((hall k).trans hv')
  · intro hable
    cases hable with
    | room i habsent hi hfree =>
      have hnone := hinv.check_query_none hpos habsent alloc
      refine ⟨fun v' hv' => ?_, .inl ⟨hnone, i, ?_, ?_⟩⟩
      · rw [hnone] at hv'
        cases hv'
      · rw [hsize]
        exact hi
      · rw [hsize, hinv.slots_check]
        exact hfree
    | kept hmoves hsame =>
      have hall : ∀ k', hashQuery (hashCheck h alloc) k' = hashQuery h k' := fun k' =>
        (hinv.check_query_iff hpos alloc).2 fun hdue => hmoves hdue k'
      exact ⟨fun v' hv' => hsame v' ((hall k).symm.trans hv'), .inr hall⟩

end

/-- In a table that was created for as many keys as it has, all that is lost is the new
value of a live key. -/
theorem within_visible_iff {number valSize : Nat} {alloc₀ : Option Memory} {h₀ : HashTable}
    {s : HashState} (hnumber : number < 2 ^ 63)
    (hcreate : hashCreate primeTable number valSize alloc₀ = some h₀)
    (hreach : Reaches (graph hashStep) (withinNumber number) ⟨h₀, ∅⟩ s)
    (hfit : h₀.size * valSize < 2 ^ 32) {k : Hash} {v : List Byte} (hv : v.length = valSize)
    (alloc : Option Memory) :
    InsertVisible s.table k v alloc ↔ ∀ v', hashQuery s.table k = some v' → v' = v := by
  have hsame := created_check_query hnumber hcreate hreach hfit alloc
  obtain ⟨p, hp, -, -, -, hinv⟩ := created_inv hcreate hreach
  rw [hinv.insertVisible_iff hp.pos hv]
  constructor
  · intro hable v' hv'
    exact hable.same v' ((hsame k).trans hv')
  · intro hother
    refine ⟨fun v' hv' => hother v' ?_, .inr hsame⟩
    rw [← hsame k]
    exact hv'

end PingServer
