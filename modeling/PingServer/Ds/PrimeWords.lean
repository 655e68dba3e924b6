import PingServer.Ds.HashCreate

/-!
# The table of primes in 32 bits

`prime_init` with the types of the source: `i`, `idx` and the table are `uint32_t`, `j`
and `prime_count` are `int`. A bound up to 2^30 keeps every one of them from wrapping, so
the loops are those over numbers. `none` stands for a write outside an array, or for a
loop that has not ended with its fuel.
-/

namespace PingServer

open Nat

/-- The variables of the first loop. -/
structure SieveWords where
  st : Nat → BitVec 32
  primeCount : BitVec 32
  primeSize : BitVec 32

/-- `prime` and `prime_size`. -/
structure WordTable where
  prime : Nat → BitVec 32
  primeSize : BitVec 32

/-- `j` is compared as an `int`: one that has wrapped is below `max`, and in front of `st`. -/
def strikeWords (max : Nat) (i : BitVec 32) :
    (fuel : Nat) → (j : BitVec 32) → (Nat → BitVec 32) → Option (Nat → BitVec 32)
  | 0, _, _ => none
  | fuel + 1, j, st =>
    if j.toInt < max then
      if j.toInt < 0 then none
      else strikeWords max i fuel (j + i) (Function.update st j.toNat 1)
    else some st

def sieveWords (max : Nat) : (fuel : Nat) → (i : BitVec 32) → SieveWords → Option SieveWords
  | 0, _, _ => none
  | fuel + 1, i, s =>
    if i.toNat < max then
      if s.st i.toNat ≠ 0 then sieveWords max fuel (i + 1) s
      else
        let primeCount := s.primeCount + 1
        let primeSize := if primeCount.toInt.tmod 100 = 0 then s.primeSize + 1 else s.primeSize
        match strikeWords max i max (i * 2) s.st with
        | none => none
        | some st => sieveWords max fuel (i + 1) ⟨st, primeCount, primeSize⟩
    else some s

/-- `prime[idx ++] = i` where the count is round. -/
def takeWord (primeSize i primeCount idx : BitVec 32) (prime : Nat → BitVec 32) :
    Option (BitVec 32 × (Nat → BitVec 32)) :=
  if primeCount.toInt.tmod 100 = 0 then
    if idx.toNat < primeSize.toNat then some (idx + 1, Function.update prime idx.toNat i) else none
  else some (idx, prime)

def sampleWords (max : Nat) (st : Nat → BitVec 32) (primeSize : BitVec 32) :
    (fuel : Nat) → (i primeCount idx : BitVec 32) → (prime : Nat → BitVec 32) →
      Option (Nat → BitVec 32)
  | 0, _, _, _, _ => none
  | fuel + 1, i, primeCount, idx, prime =>
    if i.toNat < max then
      if st i.toNat ≠ 0 then sampleWords max st primeSize fuel (i + 1) primeCount idx prime
      else
        let primeCount := primeCount + 1
        match takeWord primeSize i primeCount idx prime with
        | none => none
        | some (idx, prime) =>
          if idx = primeSize then some prime
          else sampleWords max st primeSize fuel (i + 1) primeCount idx prime
    else some prime

/-- `prime_init` with `max` for `MAX_PRIME_NUMBER`; `old` is what the memory for `prime` held. -/
def primeInitWords (max : Nat) (primeSize : BitVec 32) (old : Nat → BitVec 32) :
    Option WordTable :=
  match sieveWords max max 2 ⟨fun _ => 0, 0, primeSize⟩ with
  | none => none
  | some s =>
    match sampleWords max s.st s.primeSize (max + 1) 0 0 0 old with
    | none => none
    | some prime => some ⟨prime, s.primeSize⟩

/-- The table as a list of numbers. -/
def WordTable.table (t : WordTable) : PrimeTable where
  prime := (List.range t.primeSize.toNat).map fun i => (t.prime i).toNat
  primeSize := t.primeSize.toNat

/-! ## Numbers in words -/

section

variable {n m : Nat}

theorem word_toNat (hn : n < 2 ^ 31) : (BitVec.ofNat 32 n).toNat = n := by
  rw [BitVec.toNat_ofNat]
  omega

theorem word_toInt (hn : n < 2 ^ 31) : (BitVec.ofNat 32 n).toInt = n := by
  rw [BitVec.toInt_eq_toNat_cond, word_toNat hn]
  omega

theorem word_succ (n : Nat) : BitVec.ofNat 32 n + 1 = BitVec.ofNat 32 (n + 1) :=
  (BitVec.ofNat_add n 1).symm

theorem word_double (n : Nat) : BitVec.ofNat 32 n * 2 = BitVec.ofNat 32 (n * 2) :=
  (BitVec.ofNat_mul n 2).symm

theorem word_inj (hn : n < 2 ^ 31) (hm : m < 2 ^ 31) :
    BitVec.ofNat 32 n = BitVec.ofNat 32 m ↔ n = m := by
  constructor
  · intro heq
    have hsame := congrArg BitVec.toNat heq
    rw [word_toNat hn, word_toNat hm] at hsame
    exact hsame
  · exact congrArg _

theorem word_round (hn : n < 2 ^ 31) :
    (BitVec.ofNat 32 n).toInt.tmod 100 = 0 ↔ n % 100 = 0 := by
  rw [word_toInt hn]
  change (n : Int).tmod (100 : Nat) = 0 ↔ _
  rw [← Int.ofNat_tmod]
  exact Int.natCast_eq_zero

end

/-! ## The first loop -/

/-- The numbers that `st` has struck out. -/
def marks (st : Nat → BitVec 32) (k : Nat) : Bool := st k != 0

theorem marks_eq_true {st : Nat → BitVec 32} {k : Nat} : marks st k = true ↔ st k ≠ 0 := bne_iff_ne

theorem marks_update (st : Nat → BitVec 32) (j : Nat) :
    marks (Function.update st j 1) = fun k => if k = j then true else marks st k := by
  funext k
  rw [marks, Function.update_apply]
  split
  · rfl
  · rfl

/-- The words hold these numbers. -/
structure SieveWords.Holds (w : SieveWords) (s : Sieve) : Prop where
  st : marks w.st = s.st
  primeCount : w.primeCount = BitVec.ofNat 32 s.primeCount
  primeSize : w.primeSize = BitVec.ofNat 32 s.primeSize

section

variable {max : Nat}

/-- `j` passes `max` by less than `i`, and does not wrap. -/
theorem strikeWords_marks (hmax : max ≤ 2 ^ 30) {i : Nat} (hi : 0 < i) (hlt : i < max) (fuel : Nat) :
    ∀ {j} st, 0 < fuel → max < j + fuel → j < 2 ^ 31 →
      ∃ st', strikeWords max (BitVec.ofNat 32 i) fuel (BitVec.ofNat 32 j) st = some st' ∧
        marks st' = strikeLoop max i fuel j (marks st) := by
  induction fuel with
  | zero =>
    intro j st hfuel
    exact absurd hfuel (Nat.lt_irrefl 0)
  | succ fuel ih =>
    intro j st _ hfuel hj
    rw [strikeWords, strikeLoop, word_toInt hj, word_toNat hj, ← BitVec.ofNat_add, ← marks_update]
    by_cases hin : j < max
    · rw [if_pos hin, if_pos (Int.ofNat_lt.2 hin), if_neg (Int.not_lt.2 (Int.natCast_nonneg j))]
      exact ih _ (by omega) (by omega) (by omega)
    · rw [if_neg hin, if_neg (mt Int.ofNat_lt.1 hin)]
      exact ⟨st, rfl, rfl⟩

theorem sieveWords_holds (hmax : max ≤ 2 ^ 30) (fuel : Nat) : ∀ {n i w s}, 0 < i → i + n = max →
    n < fuel → s.primeCount ≤ i → s.primeSize ≤ i → SieveWords.Holds w s →
      ∃ w', sieveWords max fuel (BitVec.ofNat 32 i) w = some w' ∧
        w'.Holds (sieveLoop max n i s) := by
  induction fuel with
  | zero =>
    intro n i w s _ _ hfuel
    exact absurd hfuel (Nat.not_lt_zero n)
  | succ fuel ih =>
    intro n i w s hpos hi hfuel hcount hsize hw
    rw [sieveWords, word_toNat (by omega), word_succ]
    cases n with
    | zero =>
      rw [if_neg (by omega)]
      exact ⟨w, rfl, hw⟩
    | succ n =>
      rw [if_pos (by omega), sieveLoop, ← hw.st]
      by_cases hst : w.st i ≠ 0
      · rw [if_pos hst, if_pos (marks_eq_true.2 hst)]
        exact ih (Nat.succ_pos i) (by omega) (by omega) (by omega) (by omega) hw
      · rw [if_neg hst, if_neg (mt marks_eq_true.1 hst)]
        obtain ⟨st, hstrike, hmarks⟩ := strikeWords_marks hmax hpos (by omega) max (j := i * 2)
          w.st (by omega) (by omega) (by omega)
        have hround := word_round (show s.primeCount + 1 < 2 ^ 31 by omega)
        simp only [hw.primeCount, hw.primeSize, word_succ, word_double, hround, hstrike]
        refine ih (Nat.succ_pos i) (by omega) (by omega) ?_ ?_ ⟨hmarks, rfl, ?_⟩
        · exact Nat.succ_le_succ hcount
        · simp only
          split <;> omega
        · exact (apply_ite (BitVec.ofNat 32) _ _ _).symm

/-! ## The second loop -/

/-- `ps` stands at the start of `prime`, in front of what the memory held. -/
def written (old : Nat → BitVec 32) (ps : List Nat) (k : Nat) : BitVec 32 :=
  match ps[k]? with
  | none => old k
  | some p => BitVec.ofNat 32 p

theorem written_append (old : Nat → BitVec 32) (ps : List Nat) (p : Nat) :
    written old (ps ++ [p]) =
      Function.update (written old ps) ps.length (BitVec.ofNat 32 p) := by
  funext k
  rw [Function.update_apply, written, written]
  split_ifs with hk
  · subst hk
    rw [List.getElem?_concat_length]
  · rcases Nat.lt_or_gt_of_ne hk with hlt | hgt
    · rw [List.getElem?_append_left hlt]
    · rw [List.getElem?_eq_none (by rw [List.length_append, List.length_singleton]; omega),
        List.getElem?_eq_none (Nat.le_of_lt hgt)]

variable {size : Nat} (old : Nat → BitVec 32)

theorem takeWord_written (hsize : size < 2 ^ 31) (i : Nat) {c : Nat} (hc : c < 2 ^ 31) (ps : List Nat)
    (hroom : c % 100 = 0 → ps.length < size) :
    let ps' := if c % 100 = 0 then ps ++ [i] else ps
    takeWord (BitVec.ofNat 32 size) (BitVec.ofNat 32 i) (BitVec.ofNat 32 c)
      (BitVec.ofNat 32 ps.length) (written old ps) =
        some (BitVec.ofNat 32 ps'.length, written old ps') := by
  intro ps'
  have hround := word_round hc
  by_cases hfull : c % 100 = 0
  · have hlt := hroom hfull
    have hps' : ps' = ps ++ [i] := if_pos hfull
    rw [takeWord, if_pos (hround.2 hfull), word_toNat (hlt.trans hsize), word_toNat hsize,
      if_pos hlt, hps', written_append, List.length_append, List.length_singleton, word_succ]
  · have hps' : ps' = ps := if_neg hfull
    rw [takeWord, if_neg (mt hround.1 hfull), hps']

theorem sampleWords_written (hmax : max ≤ 2 ^ 30) (st : Nat → BitVec 32) (hsize : size < 2 ^ 31)
    (fuel : Nat) : ∀ {n i c} ps, i + n = max → n < fuel → c ≤ i →
      ps.length < size ∨ c = 0 ∧ ps = [] →
        sampleWords max st (BitVec.ofNat 32 size) fuel (BitVec.ofNat 32 i) (BitVec.ofNat 32 c)
          (BitVec.ofNat 32 ps.length) (written old ps) =
            some (written old (sampleLoop (marks st) size n i c ps)) := by
  induction fuel with
  | zero =>
    intro n i c ps _ hfuel
    exact absurd hfuel (Nat.not_lt_zero n)
  | succ fuel ih =>
    intro n i c ps hi hfuel hc hroom
    rw [sampleWords, word_toNat (by omega), word_succ, word_succ]
    cases n with
    | zero =>
      rw [if_neg (by omega)]
      rfl
    | succ n =>
      rw [if_pos (by omega), sampleLoop]
      by_cases hst : st i ≠ 0
      · rw [if_pos hst, if_pos (marks_eq_true.2 hst)]
        exact ih ps (by omega) (by omega) (by omega) hroom
      · rw [if_neg hst, if_neg (mt marks_eq_true.1 hst)]
        have htake := takeWord_written old hsize i (show c + 1 < 2 ^ 31 by omega) ps (by omega)
        have hfits : (if (c + 1) % 100 = 0 then ps ++ [i] else ps).length ≤ size := by
          split
          · rw [List.length_append, List.length_singleton]
            omega
          · rcases hroom with hlt | ⟨-, rfl⟩
            · exact Nat.le_of_lt hlt
            · exact Nat.zero_le size
        simp only [htake]
        generalize (if (c + 1) % 100 = 0 then ps ++ [i] else ps) = ps' at hfits
        have hend := word_inj (show ps'.length < 2 ^ 31 by omega) hsize
        by_cases hfull : ps'.length = size
        · rw [if_pos hfull, if_pos (hend.2 hfull)]
        · rw [if_neg hfull, if_neg (mt hend.1 hfull)]
          exact ih ps' (by omega) (by omega) (by omega) (.inl (by omega))

end

/-! ## The whole table -/

theorem primeInit_size_le {max : Nat} (hlow : 2 ≤ max) : (primeInit max 0).primeSize ≤ max := by
  rw [primeInit_size hlow]
  exact (Nat.div_le_self _ _).trans (count_le _)

/-- `prime_init` over words is `prime_init` over numbers, and leaves the rest of the memory. -/
theorem primeInitWords_eq {max : Nat} (hlow : 2 ≤ max) (hhigh : max ≤ 2 ^ 30)
    (old : Nat → BitVec 32) : primeInitWords max 0 old =
      some ⟨written old (primeInit max 0).prime, BitVec.ofNat 32 (primeInit max 0).primeSize⟩ := by
  obtain ⟨w, hsieve, hw⟩ := sieveWords_holds hhigh max (n := max - 2) (i := 2)
    (w := ⟨fun _ => 0, 0, 0⟩) (s := ⟨fun _ => false, 0, 0⟩) (by decide) (by omega) (by omega)
    (Nat.zero_le 2) (Nat.zero_le 2) ⟨rfl, rfl, rfl⟩
  have hsize := primeInit_size_le hlow
  unfold primeInit at hsize ⊢
  generalize sieveLoop max (max - 2) 2 ⟨fun _ => false, 0, 0⟩ = s at hw hsize
  have hsample := sampleWords_written old hhigh w.st (hsize.trans_lt (by omega)) (max + 1)
    [] (Nat.zero_add max) (Nat.lt_succ_self max) (Nat.le_refl 0) (.inr ⟨rfl, rfl⟩)
  rw [hw.st, ← hw.primeSize] at hsample
  change sieveWords max max 2 _ = some w at hsieve
  change sampleWords max w.st w.primeSize (max + 1) 0 0 0 old = _ at hsample
  simp only [primeInitWords, hsieve, hsample]
  rw [hw.primeSize]

section

variable {max : Nat} {old : Nat → BitVec 32} {t : WordTable}

theorem primeInit_length (hlow : 2 ≤ max) :
    (primeInit max 0).prime.length = (primeInit max 0).primeSize := by
  rw [primeInit_eq hlow, List.length_map, List.length_range]

theorem primeInitWords_size (hlow : 2 ≤ max) (hhigh : max ≤ 2 ^ 30)
    (hinit : primeInitWords max 0 old = some t) :
    t.primeSize.toNat = (primeInit max 0).primeSize := by
  rw [primeInitWords_eq hlow hhigh, Option.some_inj] at hinit
  have hsize := primeInit_size_le hlow
  rw [← hinit]
  exact word_toNat (by omega)

theorem primeInitWords_entry (hlow : 2 ≤ max) (hhigh : max ≤ 2 ^ 30)
    (hinit : primeInitWords max 0 old = some t) {i : Nat} (hi : i < t.primeSize.toNat) :
    (t.prime i).toNat = (primeInit max 0).entry i := by
  rw [primeInitWords_size hlow hhigh hinit] at hi
  have hlt := primeInit_lt hlow hi
  rw [primeInitWords_eq hlow hhigh, Option.some_inj] at hinit
  rw [← primeInit_length hlow] at hi
  have hentry : (primeInit max 0).entry i = (primeInit max 0).prime[i] := by
    rw [PrimeTable.entry, List.getD_eq_getElem _ _ hi]
  rw [hentry] at hlt ⊢
  simp only [← hinit, written, List.getElem?_eq_getElem hi]
  exact word_toNat (by omega)

theorem primeInitWords_rest (hlow : 2 ≤ max) (hhigh : max ≤ 2 ^ 30)
    (hinit : primeInitWords max 0 old = some t) {i : Nat} (hi : t.primeSize.toNat ≤ i) :
    t.prime i = old i := by
  rw [primeInitWords_size hlow hhigh hinit, ← primeInit_length hlow] at hi
  rw [primeInitWords_eq hlow hhigh, Option.some_inj] at hinit
  simp only [← hinit, written, List.getElem?_eq_none hi]

/-- `hash_create` searches the same table in both. -/
theorem primeInitWords_table (hlow : 2 ≤ max) (hhigh : max ≤ 2 ^ 30)
    (hinit : primeInitWords max 0 old = some t) : t.table = primeInit max 0 := by
  have hsize := primeInitWords_size hlow hhigh hinit
  have hprime : t.table.prime = (primeInit max 0).prime := by
    rw [WordTable.table, primeInit_eq hlow, hsize, primeInit_size hlow]
    refine List.map_congr_left fun i hi => ?_
    have hi' := List.mem_range.1 hi
    rw [← primeInit_size hlow] at hi'
    rw [primeInitWords_entry hlow hhigh hinit (hi'.trans_eq hsize.symm), primeInit_entry hlow hi']
  exact congrArg₂ PrimeTable.mk hprime hsize

/-- What `hash_create` relies on: a table of the right size, filled with primes in order, that
its search finds the first large enough prime of. -/
structure TableSound (max : Nat) (old : Nat → BitVec 32) (t : WordTable) : Prop where
  size : t.primeSize.toNat = primeCounting' max / 100
  hundredth : ∀ i, i < t.primeSize.toNat → (t.prime i).toNat = nth Nat.Prime (100 * i + 97)
  prime : ∀ i, i < t.primeSize.toNat → (t.prime i).toNat.Prime
  below : ∀ i, i < t.primeSize.toNat → (t.prime i).toNat < max
  increasing : ∀ i j, i < j → j < t.primeSize.toNat → (t.prime i).toNat < (t.prime j).toNat
  rest : ∀ i, t.primeSize.toNat ≤ i → t.prime i = old i
  search : 0 < t.primeSize.toNat → ∀ number, FirstFrom t.table number
    (searchLoop t.table number (t.primeSize.toNat + 1) (-1) (t.primeSize.toNat - 1)).toNat

theorem prime_table_sound (hlow : 2 ≤ max) (hhigh : max ≤ 2 ^ 30) (old : Nat → BitVec 32) :
    ∃ t, primeInitWords max 0 old = some t ∧ TableSound max old t := by
  have hinit := primeInitWords_eq hlow hhigh old
  refine ⟨_, hinit, ?_⟩
  generalize WordTable.mk _ _ = t at hinit
  have hsize := primeInitWords_size hlow hhigh hinit
  have hentry {i : Nat} := @primeInitWords_entry max old t hlow hhigh hinit i
  constructor
  · rw [hsize, primeInit_size hlow]
  · intro i hi
    rw [hentry hi]
    exact primeInit_entry hlow (hi.trans_eq hsize)
  · intro i hi
    rw [hentry hi]
    exact primeInit_prime hlow (hi.trans_eq hsize)
  · intro i hi
    rw [hentry hi]
    exact primeInit_lt hlow (hi.trans_eq hsize)
  · intro i j hij hj
    rw [hentry (hij.trans hj), hentry hj]
    exact primeInit_strict hlow hij (hj.trans_eq hsize)
  · intro i
    exact primeInitWords_rest hlow hhigh hinit
  · intro hpos number
    rw [primeInitWords_table hlow hhigh hinit, hsize]
    rw [hsize, primeInit_size hlow] at hpos
    exact searchLoop_first (primeInit_sorted hlow (by omega)) number

theorem prime_table_sound_500000 :
    ∃ t, primeInitWords 500000 0 (fun _ => 0) = some t ∧ TableSound 500000 (fun _ => 0) t :=
  prime_table_sound (by decide) (by decide) fun _ => 0

end

end PingServer
