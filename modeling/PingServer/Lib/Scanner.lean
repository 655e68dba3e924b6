import Mathlib.Data.List.Basic

/-!
# Scanners

A scanner reads tokens off the front of an input that may not have arrived in
full, and writes to a store on the way. `more` asks for a longer input, and
`overrun` is a read behind the end of it. Two laws carry over from the parts of
a scanner to the whole:

* `Steady`: it reads forward, and what it has decided stays when more input arrives;
* `Within n m`: with `n` tokens to come it reads none behind the end, and leaves
  at least as many as `m` says of its result.
-/

namespace Scanner

inductive Outcome (β σ α : Type) where
  | done (a : α) (s : σ) (rest : List β)
  | more (s : σ)
  | fail (s : σ)
  | overrun
  deriving DecidableEq, Repr

def Scan (β σ α : Type) := σ → List β → Outcome β σ α

variable {β σ τ α γ : Type}

instance : Monad (Scan β σ) where
  pure a := fun s buf => .done a s buf
  bind p f := fun s buf =>
    match p s buf with
    | .done a s buf => f a s buf
    | .more s => .more s
    | .fail s => .fail s
    | .overrun => .overrun

/-! ## Parts -/

def fail : Scan β σ α := fun s _ => .fail s

/-- Write to the store. -/
def update (f : σ → σ) : Scan β σ Unit := fun s buf => .done () (f s) buf

/-- Read the store. -/
def store : Scan β σ σ := fun s buf => .done s s buf

/-- The input from here on. -/
def here : Scan β σ (List β) := fun s buf => .done buf s buf

/-- The tokens between two places. -/
def upTo (start stop : List β) : List β := start.take (start.length - stop.length)

def checkEof : Scan β σ Unit
  | s, [] => .more s
  | s, c :: buf => .done () s (c :: buf)

/-- `n` tokens have to be there. -/
def atLeast (n : Nat) : Scan β σ Unit := fun s buf =>
  if buf.length < n then .more s else .done () s buf

def peek : Scan β σ β
  | _, [] => .overrun
  | s, c :: buf => .done c s (c :: buf)

def advance : Scan β σ Unit
  | _, [] => .overrun
  | s, _ :: buf => .done () s buf

/-- The next `n` tokens, read at once. -/
def ahead (n : Nat) : Scan β σ (List β) := fun s buf =>
  if buf.length < n then .overrun else .done (buf.take n) s buf

def skip (n : Nat) : Scan β σ Unit := fun s buf =>
  if buf.length < n then .overrun else .done () s (buf.drop n)

/-- Go on to the first token that stops the loop, over tokens that are all `ok`. The end of
the input is looked for behind every token that is passed. -/
def loopUntil (stop ok : β → Bool) : Scan β σ Unit
  | _, [] => .overrun
  | s, c :: buf =>
    if stop c then .done () s (c :: buf)
    else if ok c then if buf.isEmpty then .more s else loopUntil stop ok s buf
    else .fail s

/-- The same loop with the end looked for in front of every token. -/
def scanUntil (stop ok : β → Bool) : Scan β σ Unit
  | s, [] => .more s
  | s, c :: buf =>
    if stop c then .done () s (c :: buf)
    else if ok c then scanUntil stop ok s buf
    else .fail s

/-- The tokens that `scanUntil` passes. -/
def tokenUntil (stop ok : β → Bool) : Scan β σ (List β) := do
  let start ← here
  scanUntil stop ok
  let buf ← here
  pure (upTo start buf)

/-- Run a scanner on a part of the store. -/
def zoom (get : σ → τ) (set : τ → σ → σ) (p : Scan β τ α) : Scan β σ α := fun s buf =>
  match p (get s) buf with
  | .done a t rest => .done a (set t s) rest
  | .more t => .more (set t s)
  | .fail t => .fail (set t s)
  | .overrun => .overrun

/-! ## What a scanner with a result has done -/

section
variable {p : Scan β σ α} {f : α → Scan β σ γ} {s t : σ} {buf rest : List β} {a : α} {c : γ}

theorem bind_run (p : Scan β σ α) (f : α → Scan β σ γ) (s : σ) (buf : List β) :
    (p >>= f) s buf =
      match p s buf with
      | .done a s buf => f a s buf
      | .more s => .more s
      | .fail s => .fail s
      | .overrun => .overrun := rfl

theorem bind_done : (p >>= f) s buf = .done c t rest ↔
    ∃ a u mid, p s buf = .done a u mid ∧ f a u mid = .done c t rest := by
  simp only [bind_run]
  cases p s buf <;> simp

theorem bind_fail : (p >>= f) s buf = .fail t ↔
    p s buf = .fail t ∨ ∃ a u mid, p s buf = .done a u mid ∧ f a u mid = .fail t := by
  simp only [bind_run]
  cases p s buf <;> simp

theorem bind_overrun : (p >>= f) s buf = .overrun ↔
    p s buf = .overrun ∨ ∃ a u mid, p s buf = .done a u mid ∧ f a u mid = .overrun := by
  simp only [bind_run]
  cases p s buf <;> simp

/-- The rest of a scanner runs where its first part has stopped. -/
theorem bind_of_done {u : σ} {mid : List β} (h : p s buf = .done a u mid) :
    (p >>= f) s buf = f a u mid := by
  simp only [bind_run, h]

@[simp] theorem pure_apply : (pure a : Scan β σ α) s buf = .done a s buf := rfl

@[simp] theorem fail_apply : (fail : Scan β σ α) s buf = .fail s := rfl

@[simp] theorem update_apply {g : σ → σ} : update g s buf = .done () (g s) buf := rfl

@[simp] theorem store_apply : store s buf = .done s s buf := rfl

@[simp] theorem here_apply : here s buf = .done buf s buf := rfl

@[simp] theorem advance_cons {b : β} : advance s (b :: buf) = .done () s buf := rfl

@[simp] theorem peek_cons {b : β} : peek s (b :: buf) = .done b s (b :: buf) := rfl

@[simp] theorem checkEof_cons {b : β} : checkEof s (b :: buf) = .done () s (b :: buf) := rfl

theorem advance_bind {b : β} {f : Unit → Scan β σ γ} :
    (advance >>= f) s (b :: buf) = f () s buf := rfl

theorem ite_run (cond : Prop) [Decidable cond] (p q : Scan β σ α) :
    (if cond then p else q) s buf = if cond then p s buf else q s buf := by
  split <;> rfl

theorem upTo_append (toks rest : List β) : upTo (toks ++ rest) rest = toks := by
  simp [upTo]

theorem checkEof_done {u : Unit} : checkEof s buf = .done u t rest ↔
    t = s ∧ rest = buf ∧ buf ≠ [] := by
  cases buf <;> simp [checkEof, eq_comm]

theorem peek_done {b : β} : peek s buf = .done b t rest ↔
    t = s ∧ rest = buf ∧ ∃ tail, buf = b :: tail := by
  cases buf with
  | nil => simp [peek]
  | cons c buf =>
    simp only [peek, Outcome.done.injEq, List.cons.injEq, exists_and_left, exists_eq', and_true]
    exact ⟨fun h => ⟨h.2.1.symm, h.2.2.symm, h.1⟩, fun h => ⟨h.2.2, h.1.symm, h.2.1.symm⟩⟩

theorem advance_done {u : Unit} : advance s buf = .done u t rest ↔
    t = s ∧ ∃ b, buf = b :: rest := by
  cases buf <;> simp [advance, eq_comm]

theorem atLeast_done {n : Nat} {u : Unit} : atLeast n s buf = .done u t rest ↔
    t = s ∧ rest = buf ∧ n ≤ buf.length := by
  unfold atLeast
  split
  · simp; omega
  · simp [eq_comm]; omega

end

theorem scanUntil_done {stop ok : β → Bool} {s t : σ} {u : Unit} {buf rest : List β} :
    scanUntil stop ok s buf = .done u t rest ↔ t = s ∧ ∃ toks, buf = toks ++ rest ∧
      (∀ c ∈ toks, stop c = false ∧ ok c = true) ∧ ∃ c tail, rest = c :: tail ∧ stop c = true := by
  induction buf with
  | nil =>
    simp only [scanUntil, reduceCtorEq, false_iff]
    rintro ⟨-, toks, hbuf, -, c, tail, rfl, -⟩
    exact List.append_ne_nil_of_right_ne_nil toks (List.cons_ne_nil c tail) hbuf.symm
  | cons c buf ih =>
    simp only [scanUntil]
    by_cases hstop : stop c = true
    · simp only [hstop, ↓reduceIte, Outcome.done.injEq, true_and]
      constructor
      · rintro ⟨rfl, rfl⟩
        exact ⟨rfl, [], rfl, nofun, c, buf, rfl, hstop⟩
      · rintro ⟨rfl, toks, hbuf, htoks, -⟩
        cases toks with
        | nil => exact ⟨rfl, hbuf⟩
        | cons d toks =>
          obtain ⟨rfl, -⟩ := List.cons.inj hbuf
          rw [(htoks c List.mem_cons_self).1] at hstop
          cases hstop
    · rw [if_neg hstop]
      rw [Bool.not_eq_true] at hstop
      split
      · rename_i hok
        rw [ih]
        refine and_congr_right fun _ => ⟨?_, ?_⟩
        · rintro ⟨toks, rfl, htoks, hrest⟩
          exact ⟨c :: toks, rfl, List.forall_mem_cons.2 ⟨⟨hstop, hok⟩, htoks⟩, hrest⟩
        · rintro ⟨toks, hbuf, htoks, c', tail, rfl, hc'⟩
          cases toks with
          | nil =>
            obtain ⟨rfl, -⟩ := List.cons.inj hbuf
            rw [hstop] at hc'
            cases hc'
          | cons d toks =>
            obtain ⟨rfl, rfl⟩ := List.cons.inj hbuf
            exact ⟨toks, rfl, (List.forall_mem_cons.1 htoks).2, c', tail, rfl, hc'⟩
      · rename_i hok
        simp only [reduceCtorEq, false_iff]
        rintro ⟨-, toks, hbuf, htoks, c', tail, rfl, hc'⟩
        cases toks with
        | nil =>
          obtain ⟨rfl, -⟩ := List.cons.inj hbuf
          rw [hstop] at hc'
          cases hc'
        | cons d toks =>
          obtain ⟨rfl, -⟩ := List.cons.inj hbuf
          exact hok (htoks c List.mem_cons_self).2

/-- The tokens are the longest run in front of one that stops the loop. -/
theorem tokenUntil_done {stop ok : β → Bool} {s t : σ} {toks buf rest : List β} :
    tokenUntil stop ok s buf = .done toks t rest ↔ t = s ∧ buf = toks ++ rest ∧
      (∀ c ∈ toks, stop c = false ∧ ok c = true) ∧ ∃ c tail, rest = c :: tail ∧ stop c = true := by
  simp only [tokenUntil, bind_done, here_apply, pure_apply, Outcome.done.injEq]
  constructor
  · rintro ⟨_, _, _, ⟨rfl, rfl, rfl⟩, _, u, mid, hscan, _, _, _, ⟨rfl, rfl, rfl⟩, rfl, rfl, rfl⟩
    obtain ⟨rfl, toks, rfl, htoks, hrest⟩ := scanUntil_done.1 hscan
    rw [upTo_append]
    exact ⟨rfl, rfl, htoks, hrest⟩
  · rintro ⟨rfl, rfl, htoks, hrest⟩
    exact ⟨_, _, _, ⟨rfl, rfl, rfl⟩, (), t, rest, scanUntil_done.2 ⟨rfl, toks, rfl, htoks, hrest⟩,
      _, _, _, ⟨rfl, rfl, rfl⟩, upTo_append toks rest, rfl, rfl⟩

theorem scanUntil_append {stop ok : β → Bool} {s : σ} {toks : List β}
    (htoks : ∀ c ∈ toks, stop c = false ∧ ok c = true) (rest : List β) :
    scanUntil stop ok s (toks ++ rest) = scanUntil stop ok s rest := by
  induction toks with
  | nil => rfl
  | cons c toks ih =>
    obtain ⟨hc, htoks⟩ := List.forall_mem_cons.1 htoks
    rw [List.cons_append, scanUntil, if_neg (by rw [hc.1]; exact Bool.false_ne_true), if_pos hc.2,
      ih htoks]

/-- Where the end has just been looked for, both loops do the same. -/
theorem loopUntil_eq_scanUntil {stop ok : β → Bool} {s : σ} {buf : List β} (h : buf ≠ []) :
    loopUntil stop ok s buf = scanUntil stop ok s buf := by
  induction buf with
  | nil => exact absurd rfl h
  | cons c buf ih =>
    simp only [loopUntil, scanUntil]
    cases buf with
    | nil => rfl
    | cons d buf => rw [ih (List.cons_ne_nil d buf), List.isEmpty_cons, if_neg Bool.false_ne_true]

/-! ## More input -/

/-- More input does not change what has been decided, and nothing is read backwards. -/
structure Steady (p : Scan β σ α) : Prop where
  suffix : ∀ {s buf a t rest}, p s buf = .done a t rest → rest <:+ buf
  done : ∀ {s buf a t rest}, p s buf = .done a t rest →
    ∀ ext, p s (buf ++ ext) = .done a t (rest ++ ext)
  fail : ∀ {s buf t}, p s buf = .fail t → ∀ ext, p s (buf ++ ext) = .fail t

namespace Steady

theorem bind {p : Scan β σ α} {f : α → Scan β σ γ} (hp : Steady p) (hf : ∀ a, Steady (f a)) :
    Steady (p >>= f) := by
  constructor
  · intro s buf c t rest h
    obtain ⟨a, u, mid, hfirst, hrest⟩ := bind_done.1 h
    exact ((hf a).suffix hrest).trans (hp.suffix hfirst)
  · intro s buf c t rest h ext
    obtain ⟨a, u, mid, hfirst, hrest⟩ := bind_done.1 h
    exact bind_done.2 ⟨a, u, mid ++ ext, hp.done hfirst ext, (hf a).done hrest ext⟩
  · intro s buf t h ext
    rcases bind_fail.1 h with hfirst | ⟨a, u, mid, hfirst, hrest⟩
    · exact bind_fail.2 (.inl (hp.fail hfirst ext))
    · exact bind_fail.2 (.inr ⟨a, u, mid ++ ext, hp.done hfirst ext, (hf a).fail hrest ext⟩)

theorem ite {c : Prop} [Decidable c] {p q : Scan β σ α} (hp : Steady p) (hq : Steady q) :
    Steady (if c then p else q) := by
  split
  · exact hp
  · exact hq

theorem pure (a : α) : Steady (pure a : Scan β σ α) := by
  constructor
  · rintro s buf a t rest ⟨⟩
    exact List.suffix_rfl
  · rintro s buf a t rest ⟨⟩ ext
    rfl
  · rintro s buf t ⟨⟩

theorem failing : Steady (Scanner.fail : Scan β σ α) := by
  constructor
  · rintro s buf a t rest ⟨⟩
  · rintro s buf a t rest ⟨⟩
  · rintro s buf t ⟨⟩ ext
    rfl

theorem update (f : σ → σ) : Steady (update f : Scan β σ Unit) := by
  constructor
  · rintro s buf a t rest ⟨⟩
    exact List.suffix_rfl
  · rintro s buf a t rest ⟨⟩ ext
    rfl
  · rintro s buf t ⟨⟩

theorem store : Steady (store : Scan β σ σ) := by
  constructor
  · rintro s buf a t rest ⟨⟩
    exact List.suffix_rfl
  · rintro s buf a t rest ⟨⟩ ext
    rfl
  · rintro s buf t ⟨⟩

theorem checkEof : Steady (checkEof : Scan β σ Unit) := by
  constructor
  · rintro s (- | ⟨c, buf⟩) a t rest ⟨⟩
    exact List.suffix_rfl
  · rintro s (- | ⟨c, buf⟩) a t rest ⟨⟩ ext
    rfl
  · rintro s (- | ⟨c, buf⟩) t ⟨⟩

theorem peek : Steady (peek : Scan β σ β) := by
  constructor
  · rintro s (- | ⟨c, buf⟩) a t rest ⟨⟩
    exact List.suffix_rfl
  · rintro s (- | ⟨c, buf⟩) a t rest ⟨⟩ ext
    rfl
  · rintro s (- | ⟨c, buf⟩) t ⟨⟩

theorem advance : Steady (advance : Scan β σ Unit) := by
  constructor
  · rintro s (- | ⟨c, buf⟩) a t rest ⟨⟩
    exact List.suffix_cons c _
  · rintro s (- | ⟨c, buf⟩) a t rest ⟨⟩ ext
    rfl
  · rintro s (- | ⟨c, buf⟩) t ⟨⟩

theorem atLeast (n : Nat) : Steady (atLeast n : Scan β σ Unit) := by
  constructor
  · intro s buf a t rest h
    obtain ⟨-, rfl, -⟩ := atLeast_done.1 h
    exact List.suffix_rfl
  · intro s buf a t rest h ext
    obtain ⟨rfl, rfl, hlen⟩ := atLeast_done.1 h
    refine atLeast_done.2 ⟨rfl, rfl, ?_⟩
    rw [List.length_append]
    omega
  · intro s buf t h
    unfold Scanner.atLeast at h
    split at h <;> cases h

theorem scanUntil (stop ok : β → Bool) : Steady (scanUntil stop ok : Scan β σ Unit) := by
  constructor
  · intro s buf u t rest h
    obtain ⟨-, toks, rfl, -⟩ := scanUntil_done.1 h
    exact List.suffix_append toks rest
  · intro s buf u t rest h ext
    obtain ⟨rfl, toks, rfl, htoks, c, tail, rfl, hc⟩ := scanUntil_done.1 h
    exact scanUntil_done.2 ⟨rfl, toks, List.append_assoc .., htoks, c, tail ++ ext, rfl, hc⟩
  · intro s buf t h ext
    induction buf with
    | nil => cases h
    | cons c buf ih =>
      rw [List.cons_append]
      simp only [Scanner.scanUntil] at h ⊢
      split
      · rename_i hstop
        rw [if_pos hstop] at h
        cases h
      · rename_i hstop
        rw [if_neg hstop] at h
        split
        · rename_i hok
          rw [if_pos hok] at h
          exact ih h
        · rename_i hok
          rw [if_neg hok] at h
          cases h
          rfl

/-- The places before and behind the tokens move together. -/
theorem tokenUntil (stop ok : β → Bool) : Steady (tokenUntil stop ok : Scan β σ (List β)) := by
  constructor
  · intro s buf toks t rest h
    obtain ⟨-, rfl, -⟩ := tokenUntil_done.1 h
    exact List.suffix_append toks rest
  · intro s buf toks t rest h ext
    obtain ⟨rfl, rfl, htoks, c, tail, rfl, hc⟩ := tokenUntil_done.1 h
    exact tokenUntil_done.2 ⟨rfl, List.append_assoc .., htoks, c, tail ++ ext, rfl, hc⟩
  · intro s buf t h ext
    rcases bind_fail.1 h with h | ⟨_, _, _, hhere, h⟩
    · cases h
    · cases hhere
      rcases bind_fail.1 h with h | ⟨_, _, _, -, h⟩
      · exact bind_fail.2 (.inr ⟨_, _, _, rfl, bind_fail.2 (.inl ((scanUntil stop ok).fail h ext))⟩)
      · cases h

theorem zoom {get : σ → τ} {set : τ → σ → σ} {p : Scan β τ α} (hp : Steady p) :
    Steady (zoom get set p) := by
  constructor
  · intro s buf a t rest h
    simp only [Scanner.zoom] at h
    split at h <;> cases h
    rename_i hdone
    exact hp.suffix hdone
  · intro s buf a t rest h ext
    simp only [Scanner.zoom] at h ⊢
    split at h <;> cases h
    rename_i hdone
    rw [hp.done hdone ext]
  · intro s buf t h ext
    simp only [Scanner.zoom] at h ⊢
    split at h <;> cases h
    rename_i hfail
    rw [hp.fail hfail ext]

/-- An input that is used up in full is not decided before its end. -/
theorem undecided {p : Scan β σ α} (hp : Steady p) {s t : σ} {whole buf : List β} {a : α}
    (hwhole : p s whole = .done a t []) (hpre : buf <+: whole) (hne : buf ≠ whole) :
    p s buf = .overrun ∨ ∃ u, p s buf = .more u := by
  obtain ⟨ext, rfl⟩ := hpre
  cases h : p s buf with
  | done b u rest =>
    rw [hp.done h ext] at hwhole
    cases List.append_eq_nil_iff.1 (Outcome.done.inj hwhole).2.2 with
    | intro _ hext => exact absurd (by rw [hext, List.append_nil]) hne
  | fail u =>
    rw [hp.fail h ext] at hwhole
    cases hwhole
  | more u => exact .inr ⟨u, rfl⟩
  | overrun => exact .inl rfl

end Steady

/-! ## Reads inside the input -/

/-- With at least `n` tokens to come nothing is read behind the end, and as many are left as
`m` says of the result. -/
structure Within (n : Nat) (m : α → Nat) (p : Scan β σ α) : Prop where
  inside : ∀ {s buf}, n ≤ buf.length → p s buf ≠ .overrun
  leaves : ∀ {s buf a t rest}, n ≤ buf.length → p s buf = .done a t rest → m a ≤ rest.length

namespace Within

variable {n : Nat}

theorem bind {p : Scan β σ α} {f : α → Scan β σ γ} {m : α → Nat} {k : γ → Nat}
    (hp : Within n m p) (hf : ∀ a, Within (m a) k (f a)) : Within n k (p >>= f) := by
  constructor
  · intro s buf hlen h
    rcases bind_overrun.1 h with hfirst | ⟨a, u, mid, hfirst, hrest⟩
    · exact hp.inside hlen hfirst
    · exact (hf a).inside (hp.leaves hlen hfirst) hrest
  · intro s buf c t rest hlen h
    obtain ⟨a, u, mid, hfirst, hrest⟩ := bind_done.1 h
    exact (hf a).leaves (hp.leaves hlen hfirst) hrest

theorem ite {c : Prop} [Decidable c] {p q : Scan β σ α} {m : α → Nat} (hp : Within n m p)
    (hq : Within n m q) : Within n m (if c then p else q) := by
  split
  · exact hp
  · exact hq

theorem pure {m : α → Nat} {a : α} (h : m a ≤ n) : Within n m (pure a : Scan β σ α) := by
  constructor
  · rintro s buf _ ⟨⟩
  · rintro s buf _ _ _ hlen ⟨⟩
    exact Nat.le_trans h hlen

theorem failing {m : α → Nat} : Within n m (Scanner.fail : Scan β σ α) := by
  constructor
  · rintro s buf _ ⟨⟩
  · rintro s buf _ _ _ hlen ⟨⟩

theorem update (f : σ → σ) : Within n (fun _ => n) (update f : Scan β σ Unit) := by
  constructor
  · rintro s buf _ ⟨⟩
  · rintro s buf _ _ _ hlen ⟨⟩
    exact hlen

theorem store : Within n (fun _ => n) (store : Scan β σ σ) := by
  constructor
  · rintro s buf _ ⟨⟩
  · rintro s buf _ _ _ hlen ⟨⟩
    exact hlen

theorem checkEof : Within n (fun _ => 1) (checkEof : Scan β σ Unit) := by
  constructor
  · rintro s (- | ⟨c, buf⟩) _ ⟨⟩
  · rintro s (- | ⟨c, buf⟩) _ _ _ _ ⟨⟩
    exact Nat.le_add_left 1 _

theorem atLeast (k : Nat) : Within n (fun _ => k) (atLeast k : Scan β σ Unit) := by
  constructor
  · intro s buf _ h
    unfold Scanner.atLeast at h
    split at h <;> cases h
  · intro s buf _ t rest _ h
    obtain ⟨-, rfl, hlen⟩ := atLeast_done.1 h
    exact hlen

theorem peek : Within (n + 1) (fun _ => n + 1) (peek : Scan β σ β) := by
  constructor
  · rintro s (- | ⟨c, buf⟩) hlen h
    · cases hlen
    · cases h
  · rintro s (- | ⟨c, buf⟩) _ _ _ hlen ⟨⟩
    exact hlen

theorem advance : Within (n + 1) (fun _ => n) (advance : Scan β σ Unit) := by
  constructor
  · rintro s (- | ⟨c, buf⟩) hlen h
    · cases hlen
    · cases h
  · rintro s (- | ⟨c, buf⟩) _ _ _ hlen ⟨⟩
    exact Nat.le_of_succ_le_succ hlen

theorem here : Within n (fun _ => n) (here : Scan β σ (List β)) := by
  constructor
  · rintro s buf _ ⟨⟩
  · rintro s buf _ _ _ hlen ⟨⟩
    exact hlen

/-- The loop ends in front of a token. -/
theorem scanUntil (stop ok : β → Bool) :
    Within n (fun _ => 1) (scanUntil stop ok : Scan β σ Unit) := by
  constructor
  · intro s buf hlen h
    clear hlen
    induction buf with
    | nil => cases h
    | cons c buf ih =>
      simp only [Scanner.scanUntil] at h
      split at h
      · cases h
      · split at h
        · exact ih h
        · cases h
  · intro s buf u t rest _ h
    obtain ⟨-, -, -, -, c, tail, rfl, -⟩ := scanUntil_done.1 h
    exact Nat.le_add_left 1 _

theorem tokenUntil (stop ok : β → Bool) :
    Within n (fun _ => 1) (tokenUntil stop ok : Scan β σ (List β)) :=
  here.bind fun _ => (scanUntil stop ok).bind fun _ => here.bind fun _ => pure (Nat.le_refl 1)

theorem zoom {get : σ → τ} {set : τ → σ → σ} {p : Scan β τ α} {m : α → Nat}
    (hp : Within n m p) : Within n m (zoom get set p) := by
  constructor
  · intro s buf hlen h
    simp only [Scanner.zoom] at h
    split at h <;> cases h
    rename_i hover
    exact hp.inside hlen hover
  · intro s buf a t rest hlen h
    simp only [Scanner.zoom] at h
    split at h <;> cases h
    rename_i hdone
    exact hp.leaves hlen hdone

end Within

end Scanner
