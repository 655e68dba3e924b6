import Mathlib.NumberTheory.PrimeCounting

/-!
# The table of primes

`prime.c`: a sieve, of whose primes every hundredth is kept. The second loop counts 0
and 1 along, so the entries are the 98th prime, the 198th and so on.
-/

namespace PingServer

open Nat

abbrev maxPrimeNumber : Nat := 500000

/-- `prime` and `prime_size`. -/
structure PrimeTable where
  prime : List Nat
  primeSize : Nat
  deriving DecidableEq, Repr

/-- `prime[i]`. -/
def PrimeTable.entry (t : PrimeTable) (i : Nat) : Nat := t.prime.getD i 0

/-- The variables of the first loop. -/
structure Sieve where
  st : Nat → Bool
  primeCount : Nat
  primeSize : Nat

/-- The multiples of `i` from `j` on are struck out. `j` stays below `2 * max`, which an
`int` holds. -/
def strikeLoop (max i : Nat) : (fuel j : Nat) → (Nat → Bool) → Nat → Bool
  | 0, _, st => st
  | fuel + 1, j, st =>
    if j < max then strikeLoop max i fuel (j + i) fun k => if k = j then true else st k else st

def sieveLoop (max : Nat) : (fuel i : Nat) → Sieve → Sieve
  | 0, _, s => s
  | fuel + 1, i, s =>
    if s.st i then sieveLoop max fuel (i + 1) s
    else
      let primeCount := s.primeCount + 1
      sieveLoop max fuel (i + 1)
        { st := strikeLoop max i max (i * 2) s.st
          primeCount := primeCount
          primeSize := if primeCount % 100 = 0 then s.primeSize + 1 else s.primeSize }

/-- The loop that fills `prime`; `idx` is the length of what is filled. -/
def sampleLoop (st : Nat → Bool) (primeSize : Nat) :
    (fuel i primeCount : Nat) → (prime : List Nat) → List Nat
  | 0, _, _, prime => prime
  | fuel + 1, i, primeCount, prime =>
    if st i then sampleLoop st primeSize fuel (i + 1) primeCount prime
    else
      let primeCount := primeCount + 1
      let prime := if primeCount % 100 = 0 then prime ++ [i] else prime
      if prime.length = primeSize then prime
      else sampleLoop st primeSize fuel (i + 1) primeCount prime

/-- `prime_init` with `max` for `MAX_PRIME_NUMBER`, called with this `prime_size`. -/
def primeInit (max primeSize : Nat) : PrimeTable :=
  let s := sieveLoop max (max - 2) 2 ⟨fun _ => false, 0, primeSize⟩
  ⟨sampleLoop s.st s.primeSize max 0 0 [], s.primeSize⟩

/-! ## The sieve -/

theorem strikeLoop_eq {max i : Nat} (hi : 0 < i) (fuel : Nat) :
    ∀ (j : Nat) (st : Nat → Bool), max ≤ j + fuel → ∀ k, strikeLoop max i fuel j st k = true ↔
      st k = true ∨ k < max ∧ ∃ m, k = j + i * m := by
  induction fuel with
  | zero =>
    intro j st hfuel k
    rw [strikeLoop, iff_self_or]
    rintro ⟨hk, m, rfl⟩
    omega
  | succ fuel ih =>
    intro j st hfuel k
    rw [strikeLoop]
    split
    · rename_i hj
      rw [ih (j + i) _ (by omega) k]
      constructor
      · rintro (hst | ⟨hk, m, rfl⟩)
        · split at hst
          · rename_i heq
            exact .inr ⟨by omega, 0, heq⟩
          · exact .inl hst
        · exact .inr ⟨hk, m + 1, by rw [Nat.mul_succ]; omega⟩
      · rintro (hst | ⟨hk, m, rfl⟩)
        · rw [hst]
          exact .inl (ite_self _)
        · cases m with
          | zero => exact .inl (if_pos rfl)
          | succ m => exact .inr ⟨hk, m, by rw [Nat.mul_succ]; omega⟩
    · rename_i hj
      rw [iff_self_or]
      rintro ⟨hk, m, rfl⟩
      omega

/-- `k` is a proper multiple of a number from 2 on and below `i`. -/
def StruckBelow (i k : Nat) : Prop := ∃ q, 2 ≤ q ∧ q < i ∧ q ∣ k ∧ 2 * q ≤ k

/-- Turns 2 up to `i` of the first loop are done. -/
structure SieveInv (max primeSize i : Nat) (s : Sieve) : Prop where
  st : ∀ k, s.st k = true ↔ k < max ∧ StruckBelow i k
  primeCount : s.primeCount = primeCounting' i
  primeSize : s.primeSize = primeSize + primeCounting' i / 100

/-- A number from 2 on is struck out by its turn just if it is not prime. -/
theorem struckBelow_self {i : Nat} (hi : 2 ≤ i) : StruckBelow i i ↔ ¬ i.Prime := by
  constructor
  · rintro ⟨q, hq, hlt, hdvd, -⟩ hprime
    rcases (dvd_prime hprime).1 hdvd with h | h <;> omega
  · intro hcomposite
    refine ⟨i.minFac, (minFac_prime (by omega)).two_le, ?_, minFac_dvd i, ?_⟩
    · exact (not_prime_iff_minFac_lt hi).1 hcomposite
    · obtain ⟨m, hm⟩ := minFac_dvd i
      have hlt := (not_prime_iff_minFac_lt hi).1 hcomposite
      have hm2 : 2 ≤ m := by
        by_contra hsmall
        obtain rfl | rfl : m = 0 ∨ m = 1 := by omega
        · omega
        · omega
      calc 2 * i.minFac ≤ m * i.minFac := Nat.mul_le_mul_right _ hm2
        _ = i := by rw [Nat.mul_comm]; exact hm.symm

/-- The multiples of a composite number are struck out already. -/
theorem struckBelow_succ {i k : Nat} (hi : 2 ≤ i) :
    StruckBelow (i + 1) k ↔ StruckBelow i k ∨ i.Prime ∧ i ∣ k ∧ 2 * i ≤ k := by
  constructor
  · rintro ⟨q, hq, hlt, hdvd, hle⟩
    rcases Nat.lt_succ_iff_lt_or_eq.1 hlt with h | rfl
    · exact .inl ⟨q, hq, h, hdvd, hle⟩
    · by_cases hprime : q.Prime
      · exact .inr ⟨hprime, hdvd, hle⟩
      · obtain ⟨r, hr, hlt, hdvd', -⟩ := (struckBelow_self hq).2 hprime
        exact .inl ⟨r, hr, hlt, hdvd'.trans hdvd, by omega⟩
  · rintro (⟨q, hq, hlt, hrest⟩ | ⟨-, hdvd, hle⟩)
    · exact ⟨q, hq, by omega, hrest⟩
    · exact ⟨i, hi, Nat.lt_succ_self i, hdvd, hle⟩

theorem primeCounting'_succ (i : Nat) :
    primeCounting' (i + 1) = primeCounting' i + if i.Prime then 1 else 0 := count_succ Nat.Prime i

/-- The multiples that `prime_init` strikes out start with the double. -/
theorem from_double {i k : Nat} (hi : 0 < i) : (∃ m, k = i * 2 + i * m) ↔ i ∣ k ∧ 2 * i ≤ k := by
  constructor
  · rintro ⟨m, rfl⟩
    exact ⟨⟨2 + m, by rw [Nat.mul_add]⟩, by rw [Nat.mul_comm]; exact Nat.le_add_right _ _⟩
  · rintro ⟨⟨m, rfl⟩, hle⟩
    have hm : 2 ≤ m := Nat.le_of_mul_le_mul_left (Nat.mul_comm 2 i ▸ hle) hi
    obtain ⟨m, rfl⟩ := Nat.exists_eq_add_of_le hm
    exact ⟨m, Nat.mul_add i 2 m⟩

theorem sieveLoop_inv {max primeSize : Nat} (fuel : Nat) : ∀ {i s}, 2 ≤ i → i + fuel = max →
    SieveInv max primeSize i s → SieveInv max primeSize max (sieveLoop max fuel i s) := by
  induction fuel with
  | zero =>
    intro i s _ hi inv
    obtain rfl : i = max := hi
    exact inv
  | succ fuel ih =>
    intro i s hi hmax inv
    have hstruck : s.st i = true ↔ ¬ i.Prime := by
      rw [inv.st, struckBelow_self hi]
      exact and_iff_right (by omega)
    have hcount := primeCounting'_succ i
    rw [sieveLoop]
    split
    · rename_i hst
      have hcomposite := hstruck.1 hst
      rw [if_neg hcomposite, Nat.add_zero] at hcount
      refine ih (by omega) (by omega) ⟨fun k => ?_, ?_, ?_⟩
      · rw [inv.st, struckBelow_succ hi]
        simp only [hcomposite, false_and, or_false]
      · rw [hcount]
        exact inv.primeCount
      · rw [hcount]
        exact inv.primeSize
    · rename_i hst
      have hprime : i.Prime := not_not.1 fun h => hst (hstruck.2 h)
      rw [if_pos hprime] at hcount
      refine ih (by omega) (by omega) ⟨fun k => ?_, ?_, ?_⟩
      · rw [strikeLoop_eq (by omega) max _ _ (by omega), inv.st, struckBelow_succ hi,
          ← and_or_left]
        apply and_congr_right
        intro _
        apply or_congr_right
        rw [and_iff_right hprime]
        exact from_double (zero_lt_of_lt hi)
      · rw [hcount, ← inv.primeCount]
      · simp only [hcount, inv.primeCount, inv.primeSize]
        split <;> omega

/-! ## The samples -/

/-- Every hundredth of the numbers that are not struck out. -/
noncomputable def sample (st : Nat → Bool) (j : Nat) : Nat := nth (fun k => st k = false) (100 * j + 99)

/-- The number found with count `c` is taken if that makes the count round. -/
theorem sample_append {st : Nat → Bool} {i : Nat} (hkept : st i = false) :
    let c := count (fun k => st k = false) i
    (if (c + 1) % 100 = 0 then (List.range (c / 100)).map (sample st) ++ [i]
      else (List.range (c / 100)).map (sample st)) =
        (List.range ((c + 1) / 100)).map (sample st) := by
  have hnth : nth (fun k => st k = false) (count (fun k => st k = false) i) = i := nth_count hkept
  intro c
  change nth (fun k => st k = false) c = i at hnth
  split
  · rename_i hfull
    have hlast : 100 * (c / 100) + 99 = c := by omega
    have hnext : (c + 1) / 100 = c / 100 + 1 := by omega
    rw [hnext, List.range_succ, List.map_append, List.map_singleton, sample, hlast, hnth]
  · rename_i hpart
    rw [show (c + 1) / 100 = c / 100 by omega]

theorem sampleLoop_eq {st : Nat → Bool} {max primeSize : Nat}
    (hsize : primeSize ≤ count (fun k => st k = false) max / 100) (fuel : Nat) : ∀ i,
      i + fuel = max → count (fun k => st k = false) i / 100 < primeSize →
      sampleLoop st primeSize fuel i (count (fun k => st k = false) i)
        ((List.range (count (fun k => st k = false) i / 100)).map (sample st)) =
        (List.range primeSize).map (sample st) := by
  induction fuel with
  | zero =>
    intro i hi hless
    obtain rfl : i = max := hi
    omega
  | succ fuel ih =>
    intro i hi hless
    have hcount := count_succ (fun k => st k = false) i
    rw [sampleLoop]
    split
    · rename_i hst
      simp only [hst, Bool.true_eq_false, ↓reduceIte, Nat.add_zero] at hcount
      rw [← hcount]
      apply ih
      · omega
      · rw [hcount]
        exact hless
    · rename_i hst
      have hkept : st i = false := Bool.eq_false_of_not_eq_true hst
      rw [if_pos hkept] at hcount
      have hfilled := sample_append hkept
      simp only [hfilled, List.length_map, List.length_range]
      split
      · rename_i hend
        rw [hend]
      · rename_i hmore
        rw [← hcount]
        apply ih
        · omega
        · omega

section

variable {max primeSize : Nat} {s : Sieve}

theorem sieve_inv (hmax : 2 ≤ max) :
    SieveInv max 0 max (sieveLoop max (max - 2) 2 ⟨fun _ => false, 0, 0⟩) := by
  refine sieveLoop_inv (max - 2) (Nat.le_refl 2) (by omega) ⟨fun k => ?_, by decide, by decide⟩
  simp only [Bool.false_eq_true, false_iff]
  rintro ⟨-, q, hq, hlt, -⟩
  omega

theorem SieveInv.kept_iff (inv : SieveInv max primeSize max s) {k : Nat} (hk : 2 ≤ k)
    (hlt : k < max) : s.st k = false ↔ k.Prime := by
  rw [← Bool.not_eq_true, inv.st, and_iff_right hlt, not_iff_comm, ← struckBelow_self hk]
  constructor
  · rintro ⟨q, hq, -, hdvd, hle⟩
    exact ⟨q, hq, by omega, hdvd, hle⟩
  · rintro ⟨q, hq, hqk, hdvd, hle⟩
    exact ⟨q, hq, by omega, hdvd, hle⟩

/-- 0 and 1 are not struck out either. -/
theorem SieveInv.kept_low (inv : SieveInv max primeSize max s) {k : Nat} (hk : k < 2) :
    s.st k = false := by
  rw [← Bool.not_eq_true, inv.st]
  rintro ⟨-, q, hq, -, -, hle⟩
  omega

theorem SieveInv.count_kept (inv : SieveInv max primeSize max s) : ∀ {n}, n + 2 ≤ max →
    count (fun k => s.st k = false) (n + 2) = primeCounting' (n + 2) + 2 := by
  intro n
  induction n with
  | zero =>
    intro _
    simp only [Nat.zero_add, count_succ, count_zero, inv.kept_low Nat.zero_lt_two,
      inv.kept_low Nat.one_lt_two]
    rfl
  | succ n ih =>
    intro hn
    rw [show n + 1 + 2 = n + 2 + 1 from rfl, count_succ, primeCounting'_succ, ih (by omega)]
    simp only [inv.kept_iff (show 2 ≤ n + 2 by omega) (by omega)]
    omega

/-- Behind 0 and 1 the samples are the primes two places earlier. -/
theorem SieveInv.sample_eq (inv : SieveInv max primeSize max s) {j : Nat}
    (hj : j < primeCounting' max / 100) : sample s.st j = nth Nat.Prime (100 * j + 97) := by
  have hprime := prime_nth_prime (100 * j + 97)
  have hlt : nth Nat.Prime (100 * j + 97) < max := nth_lt_of_lt_count (by
    change 100 * j + 97 < primeCounting' max
    omega)
  have hplace := primeCounting'_nth_eq (100 * j + 97)
  have htwo := hprime.two_le
  generalize nth Nat.Prime (100 * j + 97) = e at hprime hlt hplace htwo
  have hbefore := inv.count_kept (show e - 2 + 2 ≤ max by omega)
  rw [show e - 2 + 2 = e by omega, hplace] at hbefore
  rw [sample, show 100 * j + 99 = 100 * j + 97 + 2 from rfl, ← hbefore]
  exact nth_count ((inv.kept_iff htwo hlt).2 hprime)

theorem SieveInv.samples (inv : SieveInv max primeSize max s) (hmax : 2 ≤ max) :
    sampleLoop s.st (primeCounting' max / 100) max 0 0 [] =
      (List.range (primeCounting' max / 100)).map (sample s.st) := by
  rcases Nat.eq_zero_or_pos (primeCounting' max / 100) with hnone | hsome
  · rw [hnone]
    obtain ⟨m, rfl⟩ : ∃ m, max = m + 1 := ⟨max - 1, by omega⟩
    rw [sampleLoop, if_neg (Bool.eq_false_iff.1 (inv.kept_low Nat.zero_lt_two))]
    rfl
  · have hcount := inv.count_kept (show max - 2 + 2 ≤ max by omega)
    rw [show max - 2 + 2 = max by omega] at hcount
    have hfilled := @sampleLoop_eq s.st max (primeCounting' max / 100) (by omega) max 0
      (Nat.zero_add max) (by simpa using hsome)
    rw [count_zero] at hfilled
    exact hfilled

end

/-- What `prime_init` leaves: each hundredth prime below `max`, from the 98th on. -/
theorem primeInit_eq {max : Nat} (hmax : 2 ≤ max) : primeInit max 0 =
    ⟨(List.range (primeCounting' max / 100)).map fun j => nth Nat.Prime (100 * j + 97),
      primeCounting' max / 100⟩ := by
  have inv := sieve_inv hmax
  unfold primeInit
  generalize sieveLoop max (max - 2) 2 ⟨fun _ => false, 0, 0⟩ = s at inv
  have hsize : s.primeSize = primeCounting' max / 100 := by rw [inv.primeSize, Nat.zero_add]
  simp only [hsize]
  rw [inv.samples hmax]
  congr 1
  exact List.map_congr_left fun j hj => inv.sample_eq (List.mem_range.1 hj)

/-- A table that can be searched. -/
structure PrimeTable.Sorted (t : PrimeTable) : Prop where
  pos : 0 < t.primeSize
  mono : ∀ i j, i ≤ j → j < t.primeSize → t.entry i ≤ t.entry j

section

variable {max i : Nat}

theorem primeInit_size (hmax : 2 ≤ max) :
    (primeInit max 0).primeSize = primeCounting' max / 100 := by
  rw [primeInit_eq hmax]

theorem primeInit_entry (hmax : 2 ≤ max) (hi : i < (primeInit max 0).primeSize) :
    (primeInit max 0).entry i = nth Nat.Prime (100 * i + 97) := by
  rw [primeInit_size hmax] at hi
  rw [PrimeTable.entry, primeInit_eq hmax, List.getD_eq_getElem?_getD, List.getElem?_map,
    List.getElem?_range hi]
  rfl

theorem primeInit_prime (hmax : 2 ≤ max) (hi : i < (primeInit max 0).primeSize) :
    ((primeInit max 0).entry i).Prime := by
  rw [primeInit_entry hmax hi]
  exact prime_nth_prime _

theorem primeInit_lt (hmax : 2 ≤ max) (hi : i < (primeInit max 0).primeSize) :
    (primeInit max 0).entry i < max := by
  rw [primeInit_entry hmax hi]
  rw [primeInit_size hmax] at hi
  apply nth_lt_of_lt_count
  change 100 * i + 97 < primeCounting' max
  omega

theorem primeInit_strict (hmax : 2 ≤ max) {j : Nat} (hij : i < j)
    (hj : j < (primeInit max 0).primeSize) :
    (primeInit max 0).entry i < (primeInit max 0).entry j := by
  rw [primeInit_entry hmax (hij.trans hj), primeInit_entry hmax hj]
  exact nth_strictMono infinite_setOfPred_prime (by omega)

theorem primeInit_sorted (hmax : 2 ≤ max) (hsome : 100 ≤ primeCounting' max) :
    (primeInit max 0).Sorted := by
  constructor
  · rw [primeInit_size hmax]
    omega
  · intro i j hij hj
    rcases Nat.eq_or_lt_of_le hij with rfl | hlt
    · exact Nat.le_refl _
    · exact Nat.le_of_lt (primeInit_strict hmax hlt hj)

end

end PingServer
