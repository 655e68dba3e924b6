import Mathlib.Data.Nat.Prime.Factorial
import Mathlib.NumberTheory.PrimeCounting

/-!
# Counting primes

Below the square of `k + 1` a number above `k` is prime if it is coprime to a number
whose prime divisors are those up to `k`. So primes are counted by taking common
divisors with one number, in halves of the range rather than one after the other.
-/

namespace PrimeCount

open Nat

/-- How many of the `2 ^ d` numbers `a`, `a + 2`, … are below `n` and coprime to `m`. -/
def countCoprime (m : Nat) : (d a n : Nat) → Nat
  | 0, a, n => bif a.blt n && (a.gcd m).beq 1 then 1 else 0
  | d + 1, a, n =>
    bif n.ble a then 0 else countCoprime m d a n + countCoprime m d (a + 2 ^ (d + 1)) n

theorem countCoprime_eq (m d n : Nat) : ∀ a, countCoprime m d a n =
    count (fun i => a + 2 * i < n ∧ (a + 2 * i).Coprime m) (2 ^ d) := by
  induction d with
  | zero =>
    intro a
    have hone : 2 ^ 0 = 0 + 1 := rfl
    rw [hone, count_succ, count_zero, zero_add, countCoprime, Bool.cond_eq_ite]
    apply if_congr _ rfl rfl
    simp only [Bool.and_eq_true, Nat.blt_eq, Nat.beq_eq, mul_zero, add_zero]
  | succ d ih =>
    intro a
    have hpow : 2 ^ (d + 1) = 2 ^ d + 2 ^ d := by rw [Nat.pow_succ, Nat.mul_two]
    rw [countCoprime, Bool.cond_eq_ite, ih, ih]
    split
    · rename_i hle
      have hle : n ≤ a := Nat.le_of_ble_eq_true hle
      symm
      rw [count_eq_card_filter_range, Finset.card_eq_zero, Finset.filter_eq_empty_iff]
      intro i _ hi
      omega
    · have hshift : ∀ i, a + 2 ^ (d + 1) + 2 * i = a + 2 * (2 ^ d + i) := fun i => by omega
      rw [hpow, count_add]
      simp only [← hpow, hshift]

/-- Of a range twice as long only every second number counts. -/
theorem count_even {p : Nat → Prop} [DecidablePred p] (hodd : ∀ i, ¬ p (2 * i + 1)) (m : Nat) :
    count p (2 * m) = count (fun i => p (2 * i)) m := by
  induction m with
  | zero => rfl
  | succ m ih => rw [show 2 * (m + 1) = 2 * m + 1 + 1 from rfl, count_succ, count_succ, ih,
      count_succ, if_neg (hodd m), add_zero]

theorem count_below {p : Nat → Prop} [DecidablePred p] {b n : Nat} (hb : b ≤ n) :
    count (fun i => i < b ∧ p i) n = count p b := by
  rw [count_eq_card_filter_range, count_eq_card_filter_range]
  congr 1
  ext i
  simp only [Finset.mem_filter, Finset.mem_range]
  constructor
  · exact fun h => h.2
  · exact fun h => ⟨lt_of_lt_of_le h.1 hb, h⟩

/-- The prime divisors of `m` are the primes up to `k`. -/
structure Covers (k m : Nat) : Prop where
  dvd : m ∣ k.factorial
  meets : ∀ b, b ≤ k → 2 ≤ b → ¬ b.Coprime m

theorem Covers.prime_iff {k m a : Nat} (hm : Covers k m) (hk : k < a)
    (ha : a < (k + 1) * (k + 1)) : a.Prime ↔ a.Coprime m := by
  constructor
  · intro hprime
    apply hprime.coprime_iff_not_dvd.2
    intro hdvd
    have hle := (Prime.dvd_factorial hprime).1 (hdvd.trans hm.dvd)
    omega
  · intro hcoprime
    by_contra hcomposite
    have hne : a ≠ 1 := by
      rintro rfl
      obtain rfl : k = 0 := by omega
      exact absurd ha (by decide)
    have hmin := minFac_prime hne
    have hsq := minFac_sq_le_self (by omega) hcomposite
    have hle : a.minFac ≤ k := by
      by_contra hgt
      have hmul := Nat.mul_le_mul (show k + 1 ≤ a.minFac by omega) (show k + 1 ≤ a.minFac by omega)
      rw [pow_two] at hsq
      omega
    exact hm.meets a.minFac hle hmin.two_le (hcoprime.coprime_dvd_left (minFac_dvd a))

/-- The primes from the odd number `a` up to `n` are the odd numbers there that share no
divisor with `m`. -/
theorem primeCounting'_eq {k m a n : Nat} (d : Nat) (hm : Covers k m) (hpos : 0 < k) (hk : k < a) (hodd : a % 2 = 1)
    (ha : a ≤ n) (hsq : n ≤ (k + 1) * (k + 1)) (hd : n ≤ a + 2 ^ (d + 1)) :
    primeCounting' n = primeCounting' a + countCoprime m d a n := by
  obtain ⟨b, rfl⟩ := Nat.exists_eq_add_of_le ha
  have hlt : ∀ i, a + i < a + b ↔ i < b := fun i => by omega
  rw [primeCounting', count_add, countCoprime_eq, Nat.add_left_cancel_iff]
  have hlen : 2 * 2 ^ d = 2 ^ (d + 1) := by rw [Nat.pow_succ, Nat.mul_comm]
  have hbelow := count_below (p := fun i => (a + i).Prime) (b := b) (n := 2 * 2 ^ d) (by omega)
  rw [← hbelow, count_even]
  · rw [count_eq_card_filter_range, count_eq_card_filter_range]
    congr 1
    apply Finset.filter_congr
    intro i _
    rw [hlt]
    apply and_congr_right
    intro hi
    exact hm.prime_iff (by omega) (by omega)
  · rintro i ⟨-, hprime⟩
    have htwo := hprime.two_le
    rcases hprime.eq_two_or_odd with heq | hodd'
    · omega
    · omega

end PrimeCount
