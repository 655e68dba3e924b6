import Mathlib.Data.Nat.Prime.Basic
import Mathlib.Data.Finset.Card
import Mathlib.Data.Finset.Range
import Mathlib.Data.Set.Function
import Mathlib.Data.Int.ModEq
import Mathlib.Data.Nat.Count
import Mathlib.Tactic.Ring

/-!
# Open addressing

Slots with tombstones, probed in an order that depends on the key. A table is
well probed when every stored key is reached from the start of its own probe
order without crossing an empty slot, and is stored once. Storing an absent key
and turning a key into a tombstone keep that, so a search that gives up at the
first empty slot misses nothing.
-/

namespace Probing

inductive Slot (κ : Type) where
  | empty
  | alive (key : κ)
  | deleted
  deriving DecidableEq, Repr

variable {κ : Type}

def Slot.isAlive : Slot κ → Bool
  | alive _ => true
  | _ => false

theorem Slot.isAlive_iff {s : Slot κ} : s.isAlive = true ↔ ∃ k, s = alive k := by
  cases s <;> simp [isAlive]

/-- Replace slot `i`. -/
def put (t : Nat → Slot κ) (i : Nat) (v : Slot κ) : Nat → Slot κ :=
  fun j => if j = i then v else t j

@[simp] theorem put_self (t : Nat → Slot κ) (i : Nat) (v : Slot κ) : put t i v i = v := if_pos rfl

theorem put_other (t : Nat → Slot κ) {i j : Nat} (v : Slot κ) (h : j ≠ i) : put t i v j = t j :=
  if_neg h

/-- The first `i` slots in the probe order of `k` are not empty. -/
def Crossed (probe : κ → Nat → Nat) (t : Nat → Slot κ) (k : κ) (i : Nat) : Prop :=
  ∀ j, j < i → t (probe k j) ≠ .empty

structure WellProbed (probe : κ → Nat → Nat) (n : Nat) (t : Nat → Slot κ) : Prop where
  chain : ∀ s, s < n → ∀ k, t s = .alive k → ∃ i, i < n ∧ probe k i = s ∧ Crossed probe t k i
  unique : ∀ s s' k, s < n → s' < n → t s = .alive k → t s' = .alive k → s = s'

variable {probe : κ → Nat → Nat} {n : Nat} {t : Nat → Slot κ}

theorem Crossed.put {k : κ} {i s : Nat} {v : Slot κ} (h : Crossed probe t k i) (hv : v ≠ .empty) :
    Crossed probe (put t s v) k i := by
  intro j hj
  by_cases hs : probe k j = s
  · rw [hs, put_self]
    exact hv
  · rw [put_other _ _ hs]
    exact h j hj

theorem Crossed.succ {k : κ} {i : Nat} (h : Crossed probe t k i) (hi : t (probe k i) ≠ .empty) :
    Crossed probe t k (i + 1) := by
  intro j hj
  rcases Nat.lt_succ_iff_lt_or_eq.1 hj with hlt | rfl
  · exact h j hlt
  · exact hi

theorem WellProbed.empty : WellProbed probe n (fun _ => Slot.empty) where
  chain := by intro s _ k h; cases h
  unique := by intro s s' k _ _ h; cases h

/-- An absent key may be stored in any slot its probe order reaches. -/
theorem WellProbed.store (h : WellProbed probe n t) {k : κ} {i : Nat} (hi : i < n)
    (hcross : Crossed probe t k i)
    (habsent : ∀ s, s < n → t s ≠ .alive k) :
    WellProbed probe n (put t (probe k i) (.alive k)) where
  chain := by
    intro s hs k' hk'
    by_cases heq : s = probe k i
    · subst heq
      rw [put_self] at hk'
      cases hk'
      exact ⟨i, hi, rfl, hcross.put (by simp)⟩
    · rw [put_other _ _ heq] at hk'
      obtain ⟨j, hj, hp, hc⟩ := h.chain s hs k' hk'
      exact ⟨j, hj, hp, hc.put (by simp)⟩
  unique := by
    intro s s' k' hs hs' hk hk'
    by_cases heq : s = probe k i <;> by_cases heq' : s' = probe k i
    · rw [heq, heq']
    · rw [heq, put_self] at hk
      rw [put_other _ _ heq'] at hk'
      cases hk
      exact absurd hk' (habsent s' hs')
    · rw [heq', put_self] at hk'
      rw [put_other _ _ heq] at hk
      cases hk'
      exact absurd hk (habsent s hs)
    · rw [put_other _ _ heq] at hk
      rw [put_other _ _ heq'] at hk'
      exact h.unique s s' k' hs hs' hk hk'

theorem WellProbed.kill (h : WellProbed probe n t) (s : Nat) :
    WellProbed probe n (put t s .deleted) where
  chain := by
    intro s' hs' k hk
    by_cases heq : s' = s
    · rw [heq, put_self] at hk
      cases hk
    · rw [put_other _ _ heq] at hk
      obtain ⟨j, hj, hp, hc⟩ := h.chain s' hs' k hk
      exact ⟨j, hj, hp, hc.put (by simp)⟩
  unique := by
    intro s₁ s₂ k h₁ h₂ hk₁ hk₂
    by_cases he₁ : s₁ = s
    · rw [he₁, put_self] at hk₁
      cases hk₁
    · by_cases he₂ : s₂ = s
      · rw [he₂, put_self] at hk₂
        cases hk₂
      · rw [put_other _ _ he₁] at hk₁
        rw [put_other _ _ he₂] at hk₂
        exact h.unique s₁ s₂ k h₁ h₂ hk₁ hk₂

/-! ## Searching -/

/-- Follow the probe order of `k` from turn `i` on, up to the first empty slot. -/
def find [DecidableEq κ] (probe : κ → Nat → Nat) (t : Nat → Slot κ) (k : κ) :
    (fuel i : Nat) → Option Nat
  | 0, _ => none
  | fuel + 1, i =>
    if t (probe k i) = .alive k then some (probe k i)
    else if t (probe k i) = .empty then none
    else find probe t k fuel (i + 1)

theorem find_some [DecidableEq κ] {k : κ} {s : Nat} (fuel : Nat) :
    ∀ {i}, find probe t k fuel i = some s →
      t s = .alive k ∧ ∃ j, i ≤ j ∧ j < i + fuel ∧ probe k j = s := by
  induction fuel with
  | zero =>
    intro i h
    cases h
  | succ fuel ih =>
    intro i h
    simp only [find] at h
    split at h
    · rename_i halive
      cases h
      exact ⟨halive, i, Nat.le_refl i, by omega, rfl⟩
    · split at h
      · cases h
      · obtain ⟨halive, j, hlo, hhi, hp⟩ := ih h
        exact ⟨halive, j, by omega, by omega, hp⟩

/-- What is found is found before the first empty slot. -/
theorem find_crossed [DecidableEq κ] {k : κ} {s : Nat} (fuel : Nat) :
    ∀ {i}, Crossed probe t k i → find probe t k fuel i = some s →
      ∃ j, j < i + fuel ∧ probe k j = s ∧ Crossed probe t k j := by
  induction fuel with
  | zero =>
    intro i _ h
    cases h
  | succ fuel ih =>
    intro i hcross h
    simp only [find] at h
    split at h
    · cases h
      exact ⟨i, by omega, rfl, hcross⟩
    · split at h
      · cases h
      · rename_i hempty
        obtain ⟨j, hj, hp, hc⟩ := ih (hcross.succ hempty) h
        exact ⟨j, by omega, hp, hc⟩

theorem find_of_crossed [DecidableEq κ] {k : κ} (fuel : Nat) :
    ∀ {i j}, i ≤ j → j < i + fuel → t (probe k j) = .alive k → Crossed probe t k j →
      ∃ s, find probe t k fuel i = some s := by
  induction fuel with
  | zero =>
    intro i j hlo hhi
    omega
  | succ fuel ih =>
    intro i j hlo hhi halive hcross
    simp only [find]
    split
    · exact ⟨_, rfl⟩
    · rename_i hother
      have hne : i ≠ j := by rintro rfl; exact hother halive
      rw [if_neg (hcross i (by omega))]
      exact ih (by omega) (by omega) halive hcross

/-- In a well probed table the search finds exactly the slot that holds the key. -/
theorem WellProbed.find_eq_some [DecidableEq κ] (h : WellProbed probe n t)
    (hprobe : ∀ k i, probe k i < n) {k : κ} {s : Nat} :
    find probe t k n 0 = some s ↔ s < n ∧ t s = .alive k := by
  constructor
  · intro hfind
    obtain ⟨halive, j, -, -, hp⟩ := find_some n hfind
    exact ⟨hp ▸ hprobe k j, halive⟩
  · rintro ⟨hs, halive⟩
    obtain ⟨i, hi, hp, hcross⟩ := h.chain s hs k halive
    obtain ⟨s', hs'⟩ := find_of_crossed n (Nat.zero_le i) (by omega) (by rw [hp]; exact halive) hcross
    obtain ⟨halive', j, -, -, hp'⟩ := find_some n hs'
    rw [hs', h.unique s' s k (hp' ▸ hprobe k j) hs halive' halive]

/-! ## Counting -/

/-- The slots that hold a key. -/
def aliveSlots (n : Nat) (t : Nat → Slot κ) : Finset Nat :=
  (Finset.range n).filter fun s => (t s).isAlive = true

theorem mem_aliveSlots {s : Nat} : s ∈ aliveSlots n t ↔ s < n ∧ (t s).isAlive = true := by
  simp [aliveSlots]

theorem aliveSlots_store {s : Nat} {k : κ} (hs : s < n) :
    aliveSlots n (put t s (.alive k)) = insert s (aliveSlots n t) := by
  ext s'
  rw [Finset.mem_insert, mem_aliveSlots, mem_aliveSlots]
  by_cases heq : s' = s
  · simp [heq, hs, Slot.isAlive]
  · simp [heq, put_other]

theorem card_aliveSlots_store {s : Nat} {k : κ} (hs : s < n) (hfree : (t s).isAlive = false) :
    (aliveSlots n (put t s (.alive k))).card = (aliveSlots n t).card + 1 := by
  rw [aliveSlots_store hs]
  exact Finset.card_insert_of_notMem fun hmem => by simp [(mem_aliveSlots.1 hmem).2] at hfree

theorem aliveSlots_kill {s : Nat} : aliveSlots n (put t s .deleted) = (aliveSlots n t).erase s := by
  ext s'
  rw [Finset.mem_erase, mem_aliveSlots, mem_aliveSlots]
  by_cases heq : s' = s
  · simp [heq, Slot.isAlive]
  · simp [heq, put_other]

theorem card_aliveSlots_succ (i : Nat) :
    (aliveSlots (i + 1) t).card = (aliveSlots i t).card + if (t i).isAlive = true then 1 else 0 := by
  unfold aliveSlots
  rw [Finset.range_add_one, Finset.filter_insert]
  split
  · exact Finset.card_insert_of_notMem (by simp)
  · rfl

/-- A change of one slot moves one of the counts down and one up. -/
theorem count_replace {α : Type} [DecidableEq α] {f g : Nat → α} {s : Nat}
    (hother : ∀ i, i ≠ s → g i = f i) (a : α) : ∀ {n : Nat}, s < n →
      Nat.count (fun i => g i = a) n + (if f s = a then 1 else 0) =
        Nat.count (fun i => f i = a) n + (if g s = a then 1 else 0) := by
  have hbelow : ∀ n, n ≤ s → Nat.count (fun i => g i = a) n = Nat.count (fun i => f i = a) n := by
    intro n hn
    induction n with
    | zero => rfl
    | succ n ih => rw [Nat.count_succ, Nat.count_succ, ih (by omega), hother n (by omega)]
  intro n
  induction n with
  | zero => intro hs; omega
  | succ n ih =>
    intro hs
    rw [Nat.count_succ, Nat.count_succ]
    rcases Nat.lt_succ_iff_lt_or_eq.1 hs with hlt | rfl
    · rw [hother n (by omega)]
      have hcount := ih hlt
      omega
    · rw [hbelow s (Nat.le_refl s)]
      omega

/-- What is counted as two things is counted once. -/
theorem count_add_count_le {α : Type} [DecidableEq α] (f : Nat → α) {a b : α} (hab : a ≠ b)
    (n : Nat) : Nat.count (fun i => f i = a) n + Nat.count (fun i => f i = b) n ≤ n := by
  induction n with
  | zero => rfl
  | succ n ih =>
    rw [Nat.count_succ, Nat.count_succ]
    by_cases ha : f n = a
    · have hb : f n ≠ b := fun hb => hab (ha.symm.trans hb)
      rw [if_pos ha, if_neg hb]
      omega
    · rw [if_neg ha]
      split <;> omega

/-- Among `m` different slots some hold no key when fewer than `m` keys are stored. -/
theorem exists_free {k : κ} {m : Nat} (hprobe : ∀ i, i < m → probe k i < n)
    (hinj : Set.InjOn (probe k) (Set.Iio m)) (hfew : (aliveSlots n t).card < m) :
    ∃ i, i < m ∧ (t (probe k i)).isAlive = false := by
  by_contra hall
  have hsub : (Finset.range m).image (probe k) ⊆ aliveSlots n t := by
    intro s hs
    obtain ⟨i, hi, rfl⟩ := Finset.mem_image.1 hs
    rw [Finset.mem_range] at hi
    refine mem_aliveSlots.2 ⟨hprobe i hi, ?_⟩
    rw [← Bool.not_eq_false]
    exact fun hfree => hall ⟨i, hi, hfree⟩
  have hcard : ((Finset.range m).image (probe k)).card = m := by
    rw [Finset.card_image_of_injOn (by simpa using hinj), Finset.card_range]
  have hle := Finset.card_le_card hsub
  omega

/-! ## Laying keys out again -/

/-- The first of `n` turns that meets no key. -/
def firstFree (probe : κ → Nat → Nat) (n : Nat) (t : Nat → Slot κ) (k : κ) : Option Nat :=
  (List.range n).find? fun i => (t (probe k i)).isAlive = false

/-- Put `k` where its probe order first meets no key, if it does. -/
def place (probe : κ → Nat → Nat) (n : Nat) (t : Nat → Slot κ) (k : κ) : Nat → Slot κ :=
  match firstFree probe n t k with
  | some i => put t (probe k i) (.alive k)
  | none => t

/-- The keys of the first `n` slots, in their order. -/
def keysOf (n : Nat) (t : Nat → Slot κ) : List κ :=
  (List.range n).filterMap fun i =>
    match t i with
    | .alive k => some k
    | _ => none

/-- The keys are put one after the other into an empty table. -/
def layOut (probe : κ → Nat → Nat) (n : Nat) (ks : List κ) : Nat → Slot κ :=
  ks.foldl (place probe n) fun _ => .empty

theorem firstFree_some {k : κ} {i : Nat} : firstFree probe n t k = some i ↔
    i < n ∧ (t (probe k i)).isAlive = false ∧ ∀ j, j < i → (t (probe k j)).isAlive = true := by
  rw [firstFree, List.find?_range_eq_some]
  simp only [decide_eq_true_eq, List.mem_range, Bool.not_eq_eq_eq_not, Bool.not_true,
    decide_eq_false_iff_not, Bool.not_eq_false]
  constructor
  · rintro ⟨hfree, hi, hbefore⟩
    exact ⟨hi, hfree, hbefore⟩
  · rintro ⟨hi, hfree, hbefore⟩
    exact ⟨hfree, hi, hbefore⟩

theorem firstFree_none {k : κ} : firstFree probe n t k = none ↔
    ∀ i, i < n → (t (probe k i)).isAlive = true := by
  rw [firstFree, List.find?_eq_none]
  simp only [List.mem_range, decide_eq_true_eq, Bool.not_eq_false]

theorem mem_keysOf {k : κ} : k ∈ keysOf n t ↔ ∃ s, s < n ∧ t s = .alive k := by
  rw [keysOf, List.mem_filterMap]
  constructor
  · rintro ⟨s, hs, hk⟩
    refine ⟨s, List.mem_range.1 hs, ?_⟩
    cases hslot : t s with
    | alive k' =>
      simp only [hslot] at hk
      rw [Option.some.inj hk]
    | empty => simp only [hslot, reduceCtorEq] at hk
    | deleted => simp only [hslot, reduceCtorEq] at hk
  · rintro ⟨s, hs, hk⟩
    exact ⟨s, List.mem_range.2 hs, by simp only [hk]⟩

theorem keysOf_succ_alive {k : κ} (hk : t n = .alive k) : keysOf (n + 1) t = keysOf n t ++ [k] := by
  rw [keysOf, List.range_succ, List.filterMap_append]
  simp only [List.filterMap_cons, hk, List.filterMap_nil]
  rfl

theorem keysOf_succ_free (hfree : (t n).isAlive = false) : keysOf (n + 1) t = keysOf n t := by
  rw [keysOf, List.range_succ, List.filterMap_append]
  cases hslot : t n with
  | alive k =>
    rw [hslot] at hfree
    cases hfree
  | empty => simp only [List.filterMap_cons, hslot, List.filterMap_nil, List.append_nil, keysOf]
  | deleted => simp only [List.filterMap_cons, hslot, List.filterMap_nil, List.append_nil, keysOf]

theorem layOut_snoc (ks : List κ) (k : κ) :
    layOut probe n (ks ++ [k]) = place probe n (layOut probe n ks) k := by
  rw [layOut, List.foldl_append]
  rfl

/-- No key is overwritten. -/
theorem place_alive {k k' : κ} {s : Nat} (hs : t s = .alive k) : place probe n t k' s = .alive k := by
  unfold place
  cases hfirst : firstFree probe n t k' with
  | none => exact hs
  | some i =>
    obtain ⟨-, hfree, -⟩ := firstFree_some.1 hfirst
    have hne : s ≠ probe k' i := by
      rintro rfl
      rw [hs] at hfree
      cases hfree
    exact (put_other _ _ hne).trans hs

theorem place_isAlive {k : κ} {s : Nat} (hs : (t s).isAlive = true) :
    (place probe n t k s).isAlive = true := by
  obtain ⟨k', hk'⟩ := Slot.isAlive_iff.1 hs
  rw [place_alive hk']
  rfl

theorem layOut_ne_deleted (ks : List κ) (s : Nat) : layOut probe n ks s ≠ .deleted := by
  induction ks using List.reverseRecOn with
  | nil =>
    intro hdel
    cases hdel
  | append_singleton ks k ih =>
    rw [layOut_snoc, place]
    cases hfirst : firstFree probe n (layOut probe n ks) k with
    | none => exact ih
    | some i =>
      by_cases hs : s = probe k i
      · simp only [hs, put_self, ne_eq, reduceCtorEq, not_false_eq_true]
      · simp only [put_other _ _ hs]
        exact ih

/-- A key that finds no place has only other keys in its probe order. -/
theorem layOut_full {k : κ} {ks : List κ} (hprobe : ∀ i, i < n → probe k i < n) (hmem : k ∈ ks)
    (hmissing : ∀ s, s < n → layOut probe n ks s ≠ .alive k) :
    ∀ i, i < n → (layOut probe n ks (probe k i)).isAlive = true := by
  induction ks using List.reverseRecOn with
  | nil => cases hmem
  | append_singleton ks k' ih =>
    rw [layOut_snoc] at hmissing ⊢
    by_cases hbefore : k ∈ ks
    · have hnot : ∀ s, s < n → layOut probe n ks s ≠ .alive k := fun s hs halive =>
        hmissing s hs (place_alive halive)
      intro i hi
      exact place_isAlive (ih hbefore hnot i hi)
    · obtain rfl : k = k' := by
        rcases List.mem_append.1 hmem with hks | hlast
        · exact absurd hks hbefore
        · exact List.mem_singleton.1 hlast
      cases hfirst : firstFree probe n (layOut probe n ks) k with
      | none =>
        intro i hi
        exact place_isAlive (firstFree_none.1 hfirst i hi)
      | some i =>
        obtain ⟨hi, -, -⟩ := firstFree_some.1 hfirst
        refine absurd ?_ (hmissing (probe k i) (hprobe i hi))
        simp only [place, hfirst, put_self]

/-! ## Quadratic probing -/

/-- Turn `i` looks `i²` slots behind the home slot. -/
def quadratic (size home i : Nat) : Nat := (home + i * i) % size

/-- In a table of prime size the first half of the turns meets different slots. -/
theorem quadratic_injOn {p : Nat} (hp : p.Prime) (home : Nat) :
    Set.InjOn (quadratic p home) (Set.Iio ((p + 1) / 2)) := by
  -- two turns that meet differ by a factor of (j - i) * (j + i), and both are below p
  have hlt : ∀ i j, i < j → j < (p + 1) / 2 → quadratic p home i ≠ quadratic p home j := by
    intro i j hij hj heq
    have hmod : home + i * i ≡ home + j * j [MOD p] := heq
    have hsq : i * i ≡ j * j [MOD p] := Nat.ModEq.add_left_cancel' home hmod
    have hle : i * i ≤ j * j := Nat.mul_le_mul hij.le hij.le
    have hdvd : p ∣ j * j - i * i := (Nat.modEq_iff_dvd' hle).1 hsq
    rw [Nat.mul_self_sub_mul_self_eq] at hdvd
    rcases (Nat.Prime.dvd_mul hp).1 hdvd with hd | hd
    · have := Nat.le_of_dvd (by omega) hd
      omega
    · have := Nat.le_of_dvd (by omega) hd
      omega
  intro i hi j hj heq
  rcases Nat.lt_trichotomy i j with h | h | h
  · exact absurd heq (hlt i j h hj)
  · exact h
  · exact absurd heq.symm (hlt j i h hi)

end Probing
