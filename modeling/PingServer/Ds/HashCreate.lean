import PingServer.Ds.HashTable
import PingServer.Ds.Prime
import PingServer.Lib.PrimeCount
import Mathlib.Tactic.NormNum.Prime

/-!
# Creating a hash table

`hash_create` asks for twice the number of its keys, in 64 bits, and takes the first
prime of the table that is as large.
-/

namespace PingServer

open ByteMem Nat PrimeCount

/-- The binary search; `l` and `r` are the `int`s of the source. -/
def searchLoop (t : PrimeTable) (number : Nat) : (fuel : Nat) → (l r : Int) → Int
  | 0, _, r => r
  | fuel + 1, l, r =>
    if l + 1 ≠ r then
      let mid := (l + r) / 2
      if number ≤ t.entry mid.toNat then searchLoop t number fuel l mid
      else searchLoop t number fuel mid r
    else r

/-- `alloc` is the value array, if there is memory for the table. -/
def hashCreate (t : PrimeTable) (number valSize : Nat) (alloc : Option Memory) :
    Option HashTable :=
  let number := number * 2 % 2 ^ 64
  if maxPrimeNumber ≤ number then none
  else
    let r := searchLoop t number (t.primeSize + 1) (-1) (t.primeSize - 1)
    let size := t.entry r.toNat
    if size < number then none
    else alloc.map fun vals => emptyTable size valSize vals

/-! ## The search -/

/-- `i` is the place of the first entry from `number` on, or the last place. -/
structure FirstFrom (t : PrimeTable) (number i : Nat) : Prop where
  lt : i < t.primeSize
  below : ∀ j, j < i → t.entry j < number
  enough : i + 1 = t.primeSize ∨ number ≤ t.entry i

theorem searchLoop_spec {t : PrimeTable} (hsorted : t.Sorted) (number fuel : Nat) :
    ∀ {l r : Int}, -1 ≤ l → l < r → r < t.primeSize → r - l ≤ fuel + 1 →
      (∀ j : Nat, (j : Int) ≤ l → t.entry j < number) →
      (r + 1 = t.primeSize ∨ number ≤ t.entry r.toNat) →
      FirstFrom t number (searchLoop t number fuel l r).toNat := by
  have hdone : ∀ {l r : Int}, -1 ≤ l → l + 1 = r → r < t.primeSize →
      (∀ j : Nat, (j : Int) ≤ l → t.entry j < number) →
      (r + 1 = t.primeSize ∨ number ≤ t.entry r.toNat) → FirstFrom t number r.toNat := by
    intro l r hl hlr hr hbelow henough
    refine ⟨by omega, fun j hj => hbelow j (by omega), ?_⟩
    rcases henough with hlast | henough
    · exact .inl (by omega)
    · exact .inr henough
  induction fuel with
  | zero =>
    intro l r hl hlr hr hfuel hbelow henough
    have hend : l + 1 = r := by omega
    exact hdone hl hend hr hbelow henough
  | succ fuel ih =>
    intro l r hl hlr hr hfuel hbelow henough
    rw [searchLoop]
    split
    · rename_i hgap
      simp only
      split
      · rename_i hmid
        exact ih hl (by omega) (by omega) (by omega) hbelow (.inr hmid)
      · rename_i hmid
        refine ih (by omega) (by omega) hr (by omega) (fun j hj => ?_) henough
        have hmono := hsorted.mono j ((l + r) / 2).toNat (by omega) (by omega)
        omega
    · rename_i hend
      exact hdone hl (not_not.1 hend) hr hbelow henough

/-- The search of `hash_create` starts with the whole table. -/
theorem searchLoop_first {t : PrimeTable} (hsorted : t.Sorted) (number : Nat) :
    FirstFrom t number (searchLoop t number (t.primeSize + 1) (-1) (t.primeSize - 1)).toNat := by
  have hpos := hsorted.pos
  apply searchLoop_spec hsorted
  · exact Int.le_refl _
  · omega
  · omega
  · push_cast
    omega
  · intro j hj
    omega
  · exact .inl (by omega)

theorem hashCreate_eq {t : PrimeTable} (hsorted : t.Sorted) (number valSize : Nat)
    (alloc : Option Memory) : ∃ i, FirstFrom t (number * 2 % 2 ^ 64) i ∧
      hashCreate t number valSize alloc = if maxPrimeNumber ≤ number * 2 % 2 ^ 64 ∨
          t.entry i < number * 2 % 2 ^ 64 then none
        else alloc.map fun vals => emptyTable (t.entry i) valSize vals := by
  have hfirst := searchLoop_first hsorted (number * 2 % 2 ^ 64)
  refine ⟨_, hfirst, ?_⟩
  rw [hashCreate]
  simp only
  split
  · rename_i hmax
    rw [if_pos (.inl hmax)]
  · rename_i hmax
    apply if_congr _ rfl rfl
    exact (or_iff_right hmax).symm

/-- The entry that a created table has for its size. -/
theorem hashCreate_some {t : PrimeTable} (hsorted : t.Sorted) {number valSize : Nat}
    {alloc : Option Memory} {h : HashTable} (hcreate : hashCreate t number valSize alloc = some h) :
    ∃ i vals, i < t.primeSize ∧ h = emptyTable (t.entry i) valSize vals ∧
      number * 2 % 2 ^ 64 ≤ t.entry i := by
  obtain ⟨i, hfirst, heq⟩ := hashCreate_eq hsorted number valSize alloc
  rw [heq] at hcreate
  split at hcreate
  · cases hcreate
  · rename_i hlarge
    obtain ⟨vals, -, hh⟩ := Option.map_eq_some_iff.1 hcreate
    exact ⟨i, vals, hfirst.lt, hh.symm, not_lt.1 fun hlt => hlarge (.inr hlt)⟩

/-- It is the first entry that is large enough. -/
theorem hashCreate_first {t : PrimeTable} (hsorted : t.Sorted) {number i : Nat} (valSize : Nat)
    (vals : Memory) (hi : i < t.primeSize) (hmax : number * 2 < maxPrimeNumber)
    (hbelow : ∀ j, j < i → t.entry j < number * 2) (henough : number * 2 ≤ t.entry i) :
    hashCreate t number valSize (some vals) = some (emptyTable (t.entry i) valSize vals) := by
  have hwrap : number * 2 % 2 ^ 64 = number * 2 := Nat.mod_eq_of_lt (hmax.trans (by decide))
  obtain ⟨k, hfirst, heq⟩ := hashCreate_eq hsorted number valSize (some vals)
  rw [hwrap] at hfirst heq
  have hsame : k = i := by
    rcases Nat.lt_trichotomy k i with hlt | rfl | hgt
    · rcases hfirst.enough with hlast | hlarge
      · omega
      · have hsmall := hbelow k hlt
        omega
    · rfl
    · have hsmall := hfirst.below i hgt
      omega
  rw [heq, hsame, if_neg (by omega)]
  rfl

/-! ## A table for 66400 keys -/

/-- The product of the primes below 367. -/
def smallPrimes : Nat :=
  33145029365917644537041586451002838777754047982048976093256545773949681076083753038263261851007891975336318712022358509317861766127318306017798990

theorem smallPrimes_covers : Covers 366 smallPrimes := by
  constructor
  · decide +kernel
  · unfold Nat.Coprime
    decide +kernel

theorem primeCounting'_132817 : primeCounting' 132817 = 12397 := by
  have hcovers : Covers 19 9699690 := by
    constructor
    · decide +kernel
    · unfold Nat.Coprime
      decide +kernel
  have hsmall : primeCounting' 21 = 8 := by decide +kernel
  have hfirst : primeCounting' 367 = 72 := by
    rw [primeCounting'_eq (a := 21) 8 hcovers (by decide) (by decide) (by decide) (by decide)
      (by decide) (by decide), hsmall]
    decide +kernel
  have hrest : countCoprime smallPrimes 17 367 132817 = 12325 := by
    rw [smallPrimes]
    decide +kernel
  rw [primeCounting'_eq (a := 367) 17 smallPrimes_covers (by decide) (by decide) (by decide)
    (by decide) (by decide) (by decide), hfirst, hrest]

theorem primeCounting'_132852 : primeCounting' 132852 = 12400 := by
  have hrest : countCoprime smallPrimes 5 132817 132852 = 3 := by decide +kernel
  rw [primeCounting'_eq (a := 132817) 5 smallPrimes_covers (by decide) (by decide) (by decide)
    (by decide) (by decide) (by decide), primeCounting'_132817, hrest]

theorem primeInit_132817 {max : Nat} (hmax : 132852 ≤ max) :
    123 < (primeInit max 0).primeSize ∧ (primeInit max 0).entry 123 = 132817 ∧
      ∀ j, j < 123 → (primeInit max 0).entry j < 132800 := by
  have hcount : 12400 ≤ primeCounting' max :=
    primeCounting'_132852 ▸ monotone_primeCounting' hmax
  have hsize : 123 < (primeInit max 0).primeSize := by
    rw [primeInit_size (by omega)]
    omega
  refine ⟨hsize, ?_, fun j hj => ?_⟩
  · have hprime : Nat.Prime 132817 := by norm_num
    rw [primeInit_entry (by omega) hsize]
    have hnth := nth_count hprime
    rw [← primeCounting', primeCounting'_132817] at hnth
    exact hnth
  · rw [primeInit_entry (by omega) (by omega)]
    apply nth_lt_of_lt_count
    -- at most 17 primes are left up to 132817
    have hlast := count_add Nat.Prime 132800 17
    have hfew : count (fun i => Nat.Prime (132800 + i)) 17 ≤ 17 := count_le _
    have hall : count Nat.Prime (132800 + 17) = 12397 := primeCounting'_132817
    omega

/-- What `hash_create` finds. -/
def primeTable : PrimeTable := primeInit maxPrimeNumber 0

theorem primeTable_sorted : primeTable.Sorted := by
  have hcount : 12400 ≤ primeCounting' maxPrimeNumber :=
    primeCounting'_132852 ▸ monotone_primeCounting' (by decide)
  exact primeInit_sorted (by decide) (le_trans (by decide) hcount)

theorem hashCreate_66400 (valSize : Nat) (vals : Memory) :
    hashCreate primeTable 66400 valSize (some vals) = some (emptyTable 132817 valSize vals) := by
  obtain ⟨hsize, hentry, hbelow⟩ := @primeInit_132817 maxPrimeNumber (by decide)
  have hcreate := @hashCreate_first primeTable primeTable_sorted 66400 123 valSize vals hsize
    (by decide) hbelow (by rw [primeTable, hentry]; decide)
  rw [hcreate, primeTable, hentry]

/-! ## The capacity -/

/-- `r` is an empty table of the smallest entry from `number` on, and there is one. -/
structure HasCapacity (t : PrimeTable) (number valSize : Nat) (vals : Memory)
    (r : Option HashTable) : Prop where
  none_iff : r = none ↔ ∀ i, i < t.primeSize → t.entry i < number
  smallest : ∀ h, r = some h → ∃ i, i < t.primeSize ∧ h = emptyTable (t.entry i) valSize vals ∧
    number ≤ t.entry i ∧ ∀ j, j < t.primeSize → number ≤ t.entry j → t.entry i ≤ t.entry j

theorem FirstFrom.not_enough {t : PrimeTable} (hsorted : t.Sorted) {number i : Nat}
    (hfirst : FirstFrom t number i) (hless : t.entry i < number) :
    ∀ j, j < t.primeSize → t.entry j < number := by
  intro j hj
  have hlast : i + 1 = t.primeSize := hfirst.enough.resolve_right (Nat.not_le.2 hless)
  exact (hsorted.mono j i (by omega) hfirst.lt).trans_lt hless

theorem FirstFrom.le {t : PrimeTable} (hsorted : t.Sorted) {number i j : Nat}
    (hfirst : FirstFrom t number i) (hj : j < t.primeSize) (henough : number ≤ t.entry j) :
    t.entry i ≤ t.entry j := by
  apply hsorted.mono i j _ hj
  by_contra hlt
  exact Nat.not_le.2 (hfirst.below j (by omega)) henough

/-- A created table has room for the number that the doubling has left. -/
theorem hashCreate_capacity {t : PrimeTable} (hsorted : t.Sorted)
    (hbound : ∀ i, i < t.primeSize → t.entry i < maxPrimeNumber) (number valSize : Nat)
    (vals : Memory) : HasCapacity t (number * 2 % 2 ^ 64) valSize vals
      (hashCreate t number valSize (some vals)) := by
  obtain ⟨i, hfirst, heq⟩ := hashCreate_eq hsorted number valSize (some vals)
  generalize number * 2 % 2 ^ 64 = doubled at hfirst heq
  rw [heq]
  split
  · rename_i hsmall
    have hall : ∀ j, j < t.primeSize → t.entry j < doubled := by
      rcases hsmall with hmax | hless
      · exact fun j hj => (hbound j hj).trans_le hmax
      · exact hfirst.not_enough hsorted hless
    exact ⟨iff_of_true rfl hall, fun h hh => nomatch hh⟩
  · rename_i hlarge
    have henough : doubled ≤ t.entry i := Nat.not_lt.1 fun hless => hlarge (.inr hless)
    constructor
    · exact iff_of_false (by simp) fun hall => Nat.not_lt.2 henough (hall i hfirst.lt)
    · rintro h hh
      cases hh
      exact ⟨i, hfirst.lt, rfl, henough, fun j hj hj' => hfirst.le hsorted hj hj'⟩

theorem primeTable_lt {i : Nat} (hi : i < primeTable.primeSize) :
    primeTable.entry i < maxPrimeNumber :=
  primeInit_lt (by decide) hi

/-- The capacity is kept exactly where the doubling does not wrap, or still leaves more than
every prime of the table. -/
theorem capacity_honoured_iff {number : Nat} (hnumber : number < 2 ^ 64) (valSize : Nat)
    (vals : Memory) :
    HasCapacity primeTable (2 * number) valSize vals
        (hashCreate primeTable number valSize (some vals)) ↔
      number < 2 ^ 63 ∨
        ∀ i, i < primeTable.primeSize → primeTable.entry i < 2 * number - 2 ^ 64 := by
  have hcap := hashCreate_capacity primeTable_sorted (fun i => primeTable_lt) number valSize vals
  by_cases hsmall : number < 2 ^ 63
  · refine iff_of_true ?_ (.inl hsmall)
    rw [Nat.mod_eq_of_lt (by omega), Nat.mul_comm] at hcap
    exact hcap
  · have hwrap : number * 2 % 2 ^ 64 = 2 * number - 2 ^ 64 := by omega
    rw [hwrap] at hcap
    have hhuge : ∀ i, i < primeTable.primeSize → primeTable.entry i < 2 * number := by
      intro i hi
      have hmax : maxPrimeNumber < 2 ^ 63 := by decide
      have hlt := primeTable_lt hi
      omega
    rw [or_iff_right hsmall, ← hcap.none_iff]
    constructor
    · intro hkept
      exact hkept.none_iff.2 hhuge
    · intro hnone
      rw [hnone]
      exact ⟨iff_of_true rfl hhuge, fun h hh => nomatch hh⟩

/-- Twice 66400 is no more than the largest of the primes. -/
theorem capacity_66400 : HasCapacity primeTable (2 * 66400) 1 (fun _ => 0)
    (hashCreate primeTable 66400 1 (some fun _ => 0)) :=
  (capacity_honoured_iff (by decide) 1 fun _ => 0).2 (.inl (by decide))

/-- Twice 2 to the 63 is 0 in 64 bits. -/
theorem capacity_wraps : ¬ ∀ (number valSize : Nat) (vals : Memory), number < 2 ^ 64 →
    HasCapacity primeTable (2 * number) valSize vals
      (hashCreate primeTable number valSize (some vals)) := by
  intro hall
  have hkept := hall (2 ^ 63) 1 (fun _ => 0) (by decide)
  have hcap := hashCreate_capacity primeTable_sorted (fun i => primeTable_lt) (2 ^ 63) 1 fun _ => 0
  have hnone := hkept.none_iff.2 fun i hi => (primeTable_lt hi).trans (by decide)
  exact Nat.not_lt_zero _ (hcap.none_iff.1 hnone 0 primeTable_sorted.pos)

end PingServer
