import Mathlib.Data.List.Induction
import Mathlib.Logic.Relation
import Mathlib.Tactic.Ring

/-!
# Labelled machines

A machine is a relation `step s e t`: event `e` can take state `s` to `t`.
`Reaches step ok s` collects the states reached from `s` by steps whose event
and state before it meet `ok`; with `ok` always true these are all runs.
`Reaches.invariant` is the induction that safety results use. `run` executes a
list of events with a partial step function; `run_induct` is its induction, by the last
event.
-/

namespace Machine

variable {σ ε : Type}

/-- The states reached from `s` by steps that all meet `ok`. -/
inductive Reaches (step : σ → ε → σ → Prop) (ok : σ → ε → Prop) (s : σ) : σ → Prop
  | start : Reaches step ok s s
  | next {t u : σ} (e : ε) : Reaches step ok s t → ok t e → step t e u → Reaches step ok s u

/-- Every event is allowed. -/
def always : σ → ε → Prop := fun _ _ => True

variable {step : σ → ε → σ → Prop} {ok : σ → ε → Prop}

/-- What holds at the start and survives every allowed step holds throughout. -/
theorem Reaches.invariant (Inv : σ → Prop) {s t : σ} (h : Reaches step ok s t) (start : Inv s)
    (keep : ∀ a e b, Inv a → ok a e → step a e b → Inv b) : Inv t := by
  induction h with
  | start => exact start
  | next e _ allowed taken ih => exact keep _ e _ ih allowed taken

/-- The graph of a partial step function. -/
def graph (f : σ → ε → Option σ) : σ → ε → σ → Prop := fun s e t => f s e = some t

/-- Execute the events in order; `none` once a step is refused. -/
def run (f : σ → ε → Option σ) : σ → List ε → Option σ
  | s, [] => some s
  | s, e :: es =>
    match f s e with
    | some t => run f t es
    | none => none

theorem run_append (f : σ → ε → Option σ) (es es' : List ε) (s : σ) :
    run f s (es ++ es') = (run f s es).bind fun t => run f t es' := by
  induction es generalizing s with
  | nil => rfl
  | cons e es ih =>
    rw [List.cons_append, run, run]
    split
    · exact ih _
    · rfl

/-- A run goes on with one more event. -/
theorem run_snoc {f : σ → ε → Option σ} {s t u : σ} {es : List ε} {e : ε}
    (hrun : run f s es = some t) (hstep : f t e = some u) : run f s (es ++ [e]) = some u := by
  rw [run_append, hrun, Option.bind_some]
  simp only [run, hstep]

/-- The last step of a run. -/
theorem run_last {f : σ → ε → Option σ} {s u : σ} {es : List ε} {e : ε}
    (hrun : run f s (es ++ [e]) = some u) : ∃ t, run f s es = some t ∧ f t e = some u := by
  rw [run_append] at hrun
  obtain ⟨t, ht, hlast⟩ := Option.bind_eq_some_iff.1 hrun
  simp only [run] at hlast
  split at hlast
  · rename_i hstep
    exact ⟨t, ht, hstep.trans hlast⟩
  · cases hlast

/-- What holds of no events at all and survives every further one holds of the run. -/
theorem run_induct {f : σ → ε → Option σ} {P : List ε → σ → Prop} {s : σ} (start : P [] s)
    (keep : ∀ es t e u, P es t → f t e = some u → P (es ++ [e]) u) (es : List ε) :
    ∀ {t : σ}, run f s es = some t → P es t := by
  induction es using List.reverseRecOn with
  | nil =>
    intro t hrun
    cases hrun
    exact start
  | append_singleton es e ih =>
    intro u hrun
    obtain ⟨t, ht, hstep⟩ := run_last hrun
    exact keep es t e u (ih ht) hstep

/-- The events are allowed where the run meets them. -/
def allowedAlong (f : σ → ε → Option σ) (ok : σ → ε → Prop) : σ → List ε → Prop
  | _, [] => True
  | s, e :: es => ok s e ∧ ∀ t, f s e = some t → allowedAlong f ok t es

instance decidableForallSome {α : Type} {P : α → Prop} [DecidablePred P] :
    (o : Option α) → Decidable (∀ a, o = some a → P a)
  | none => .isTrue fun _ h => nomatch h
  | some a => decidable_of_iff (P a) ⟨fun h _ hb => Option.some.inj hb ▸ h, fun h => h a rfl⟩

instance decidableAllowedAlong {f : σ → ε → Option σ} {ok : σ → ε → Prop}
    [∀ s e, Decidable (ok s e)] : (s : σ) → (es : List ε) → Decidable (allowedAlong f ok s es)
  | _, [] => .isTrue trivial
  | s, e :: es =>
    have : DecidablePred fun t => allowedAlong f ok t es := fun t => decidableAllowedAlong t es
    inferInstanceAs (Decidable (ok s e ∧ ∀ t, f s e = some t → allowedAlong f ok t es))

theorem reaches_of_run_from {f : σ → ε → Option σ} {s₀ : σ} (es : List ε) :
    ∀ {s t : σ}, Reaches (graph f) ok s₀ s → allowedAlong f ok s es → run f s es = some t →
      Reaches (graph f) ok s₀ t := by
  induction es with
  | nil =>
    intro s t h _ hrun
    cases hrun
    exact h
  | cons e es ih =>
    intro s t h hok hrun
    simp only [run] at hrun
    split at hrun
    · rename_i u hu
      exact ih (.next e h hok.1 hu) (hok.2 u hu) hrun
    · cases hrun

/-- A run executed to its end reaches the state it ends in. -/
theorem reaches_of_run {f : σ → ε → Option σ} {s t : σ} {es : List ε}
    (hok : allowedAlong f ok s es) (h : run f s es = some t) : Reaches (graph f) ok s t :=
  reaches_of_run_from es .start hok h

theorem allowedAlong_always (f : σ → ε → Option σ) (s : σ) (es : List ε) :
    allowedAlong f always s es := by
  induction es generalizing s with
  | nil => trivial
  | cons e es ih => exact ⟨trivial, fun t _ => ih t⟩

/-- Where `Q` survives the allowed steps and `P` no other, `P` holds throughout a run exactly
if all of its steps are allowed. -/
theorem throughout_iff {f : σ → ε → Option σ} {P Q : σ → Prop} (weaken : ∀ s, Q s → P s)
    (keep : ∀ s e t, Q s → ok s e → f s e = some t → Q t)
    (exact_step : ∀ s e, Q s → ((∀ t, f s e = some t → P t) ↔ ok s e)) (es : List ε) :
    ∀ {s : σ}, Q s →
      ((∀ es', es' <+: es → ∀ t, run f s es' = some t → P t) ↔ allowedAlong f ok s es) := by
  induction es with
  | nil =>
    intro s hQ
    refine iff_of_true (fun es' hes' t hrun => ?_) trivial
    rw [List.prefix_nil.1 hes'] at hrun
    cases hrun
    exact weaken s hQ
  | cons e es ih =>
    intro s hQ
    have hhead := exact_step s e hQ
    constructor
    · intro hall
      have hok : ok s e := hhead.1 fun t ht =>
        hall [e] (List.prefix_append [e] es) t (by simp only [run, ht])
      refine ⟨hok, fun t ht => (ih (keep s e t hQ hok ht)).1 ?_⟩
      intro es' hes' u hu
      exact hall (e :: es') (List.cons_prefix_cons.2 ⟨rfl, hes'⟩) u (by simp only [run, ht, hu])
    · rintro ⟨hok, hrest⟩ es' hes' u hu
      cases es' with
      | nil =>
        cases hu
        exact weaken s hQ
      | cons e' es' =>
        obtain ⟨rfl, htail⟩ := List.cons_prefix_cons.1 hes'
        simp only [run] at hu
        split at hu
        · rename_i t ht
          exact (ih (keep s e' t hQ hok ht)).2 (hrest t ht) es' htail u hu
        · cases hu

end Machine
