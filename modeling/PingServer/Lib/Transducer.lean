import Mathlib.Data.List.Basic

/-!
# Transducers

A transducer reads tokens one at a time and writes tokens on the way, until it stops or
fails. `run_append` says that it does not matter where its input is cut. `Describes` gives
each state the texts that may still come, with what is written for them:
`Describes.stopped_iff` says that the transducer stops just behind such a text, and
`Describes.more_iff` that it reads on in front of the end of one.
-/

namespace Transducer

variable {σ α β : Type}

inductive Reaction (σ β : Type) where
  | go (s : σ) (out : List β)
  | stop
  | fail
  deriving DecidableEq, Repr

inductive Outcome (σ α : Type) where
  | more (s : σ)
  | stopped (rest : List α)
  | failed
  deriving DecidableEq, Repr

/-- What is written, and where it ends. -/
def run (feed : σ → α → Reaction σ β) : σ → List α → List β × Outcome σ α
  | s, [] => ([], .more s)
  | s, a :: as =>
    match feed s a with
    | .go s out => (out ++ (run feed s as).1, (run feed s as).2)
    | .stop => ([], .stopped as)
    | .fail => ([], .failed)

section

variable {feed : σ → α → Reaction σ β} {s s' : σ} {a : α} {out : List β}

theorem run_go (h : feed s a = .go s' out) (as : List α) :
    run feed s (a :: as) = (out ++ (run feed s' as).1, (run feed s' as).2) := by
  rw [run, h]

theorem run_stop (h : feed s a = .stop) (as : List α) : run feed s (a :: as) = ([], .stopped as) := by
  rw [run, h]

theorem run_fail (h : feed s a = .fail) (as : List α) : run feed s (a :: as) = ([], .failed) := by
  rw [run, h]

end

/-- More input arrives. -/
def runOn (feed : σ → α → Reaction σ β) (r : List β × Outcome σ α) (as : List α) :
    List β × Outcome σ α :=
  match r.2 with
  | .more s => (r.1 ++ (run feed s as).1, (run feed s as).2)
  | .stopped rest => (r.1, .stopped (rest ++ as))
  | .failed => (r.1, .failed)

theorem runOn_write (feed : σ → α → Reaction σ β) (out : List β) (r : List β × Outcome σ α)
    (as : List α) :
    runOn feed (out ++ r.1, r.2) as = (out ++ (runOn feed r as).1, (runOn feed r as).2) := by
  obtain ⟨written, outcome⟩ := r
  cases outcome with
  | more s => simp only [runOn, List.append_assoc]
  | stopped rest => rfl
  | failed => rfl

theorem run_append (feed : σ → α → Reaction σ β) (as bs : List α) : ∀ s,
    run feed s (as ++ bs) = runOn feed (run feed s as) bs := by
  induction as with
  | nil =>
    intro s
    rfl
  | cons a as ih =>
    intro s
    rw [List.cons_append, run, run]
    cases feed s a with
    | go s' out => simp only [ih, runOn_write]
    | stop => rfl
    | fail => rfl

/-- At most one token is written for each that is read. -/
theorem run_length_le {feed : σ → α → Reaction σ β}
    (hone : ∀ s a s' out, feed s a = .go s' out → out.length ≤ 1) (as : List α) : ∀ s,
    (run feed s as).1.length ≤ as.length := by
  induction as with
  | nil =>
    intro s
    exact Nat.le_refl 0
  | cons a as ih =>
    intro s
    cases h : feed s a with
    | go s' out =>
      have hout := hone s a s' out h
      have hrest := ih s'
      simp only [run_go h, List.length_append, List.length_cons]
      omega
    | stop =>
      rw [run_stop h]
      exact Nat.zero_le _
    | fail =>
      rw [run_fail h]
      exact Nat.zero_le _

/-! ## Languages -/

/-- What `L` says of an input whose first token has met this reaction. -/
def After (L : σ → List α → List β → Prop) : Reaction σ β → List α → List β → Prop
  | .go s out, text, written => ∃ later, written = out ++ later ∧ L s text later
  | .stop, text, written => text = [] ∧ written = []
  | .fail, _, _ => False

/-- `L s text out`: from `s` on, `text` is a whole input, and `out` is written for it. -/
structure Describes (feed : σ → α → Reaction σ β) (L : σ → List α → List β → Prop) : Prop where
  nil : ∀ s written, ¬ L s [] written
  step : ∀ s a text written, L s (a :: text) written ↔ After L (feed s a) text written

/-- A transducer stops just behind a text of its language. -/
theorem Describes.stopped_iff {feed : σ → α → Reaction σ β} {L : σ → List α → List β → Prop}
    (d : Describes feed L) (as : List α) : ∀ {s : σ} {out : List β} {rest : List α},
    run feed s as = (out, .stopped rest) ↔ ∃ text, as = text ++ rest ∧ L s text out := by
  induction as with
  | nil =>
    intro s out rest
    constructor
    · intro h
      cases h
    · rintro ⟨text, happend, htext⟩
      rw [(List.append_eq_nil_iff.1 happend.symm).1] at htext
      exact absurd htext (d.nil s out)
  | cons a as ih =>
    intro s out rest
    -- the text is not empty
    have hcons : (∃ text, a :: as = text ++ rest ∧ L s text out) ↔
        ∃ text, as = text ++ rest ∧ After L (feed s a) text out := by
      constructor
      · rintro ⟨text, happend, htext⟩
        cases text with
        | nil => exact absurd htext (d.nil s out)
        | cons b text =>
          obtain ⟨rfl, rfl⟩ := List.cons.inj happend
          exact ⟨text, rfl, (d.step ..).1 htext⟩
      · rintro ⟨text, rfl, htext⟩
        exact ⟨a :: text, rfl, (d.step ..).2 htext⟩
    rw [hcons]
    cases h : feed s a with
    | go s' now =>
      rw [run_go h]
      constructor
      · intro hrun
        obtain ⟨rfl, hlater⟩ := Prod.mk.inj hrun
        obtain ⟨text, rfl, htext⟩ := ih.1 (Prod.ext rfl hlater : run feed s' as = (_, .stopped rest))
        exact ⟨text, rfl, _, rfl, htext⟩
      · rintro ⟨text, rfl, later, rfl, htext⟩
        rw [ih.2 ⟨text, rfl, htext⟩]
    | stop =>
      rw [run_stop h]
      constructor
      · intro hrun
        cases hrun
        exact ⟨[], rfl, rfl, rfl⟩
      · rintro ⟨_, rfl, rfl, rfl⟩
        rfl
    | fail =>
      rw [run_fail h]
      constructor
      · intro hrun
        cases hrun
      · rintro ⟨text, -, htext⟩
        exact htext.elim

/-- Where every state can still come to a stop, it reads on exactly in front of a text's end. -/
theorem Describes.more_iff {feed : σ → α → Reaction σ β} {L : σ → List α → List β → Prop}
    (d : Describes feed L) (hlive : ∀ s, ∃ text written, L s text written) {s : σ} {as : List α} :
    (∃ out s', run feed s as = (out, .more s')) ↔
      ∃ text out, text ≠ [] ∧ L s (as ++ text) out := by
  constructor
  · rintro ⟨out, s', hrun⟩
    obtain ⟨text, later, htext⟩ := hlive s'
    have hlater : run feed s' text = (later, .stopped []) :=
      (d.stopped_iff text).2 ⟨text, (List.append_nil text).symm, htext⟩
    have hwhole : run feed s (as ++ text) = (out ++ later, .stopped []) := by
      rw [run_append, hrun]
      simp only [runOn, hlater]
    obtain ⟨whole, happend, hin⟩ := (d.stopped_iff _).1 hwhole
    rw [List.append_nil] at happend
    refine ⟨text, out ++ later, ?_, happend ▸ hin⟩
    rintro rfl
    exact d.nil s' later htext
  · rintro ⟨text, out, hne, hin⟩
    have hwhole : run feed s (as ++ text) = (out, .stopped []) :=
      (d.stopped_iff _).2 ⟨_, (List.append_nil _).symm, hin⟩
    rw [run_append] at hwhole
    obtain ⟨⟨now, outcome⟩, hrun⟩ : ∃ r, run feed s as = r := ⟨_, rfl⟩
    rw [hrun] at hwhole ⊢
    cases outcome with
    | more s' => exact ⟨now, s', rfl⟩
    | stopped rest =>
      obtain ⟨-, hrest⟩ := Prod.mk.inj hwhole
      exact absurd (List.append_eq_nil_iff.1 (Outcome.stopped.inj hrest)).2 hne
    | failed =>
      obtain ⟨-, hrest⟩ := Prod.mk.inj hwhole
      cases hrest

end Transducer
