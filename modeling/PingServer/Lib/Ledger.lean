import Mathlib.Data.List.Basic
import Mathlib.Data.List.Perm.Basic
import Mathlib.Data.List.Nodup

/-!
# Ledgers of owned things

A ledger lists what happens to things that are allocated, used and freed.
`replay` follows it and fails at the first entry that is not allowed.
-/

namespace Ledger

inductive Entry (α : Type) where
  | alloc (a : α)
  | use (a : α)
  | free (a : α)
  deriving DecidableEq

variable {α : Type} [DecidableEq α]

/-- What is live after one entry. -/
def step (live : List α) : Entry α → Option (List α)
  | .alloc a => if a ∈ live then none else some (a :: live)
  | .use a => if a ∈ live then some live else none
  | .free a => if a ∈ live then some (live.erase a) else none

def replay : (live : List α) → List (Entry α) → Option (List α)
  | live, [] => some live
  | live, e :: es => (step live e).bind fun live' => replay live' es

/-- Things are only used and freed while they are live, and every one that was
allocated has been freed once, unless it is among `live`. -/
structure Balanced (es : List (Entry α)) (live : List α) : Prop where
  total : ∀ a, es.count (.alloc a) = es.count (.free a) + live.count a
  alloc : ∀ before a after, es = before ++ .alloc a :: after →
    before.count (.alloc a) = before.count (.free a)
  use : ∀ before a after, es = before ++ .use a :: after →
    before.count (.alloc a) = before.count (.free a) + 1
  free : ∀ before a after, es = before ++ .free a :: after →
    before.count (.alloc a) = before.count (.free a) + 1

theorem replay_append (es es' : List (Entry α)) : ∀ live : List α,
    replay live (es ++ es') = (replay live es).bind fun live' => replay live' es' := by
  induction es with
  | nil =>
    intro live
    rfl
  | cons e es ih =>
    intro live
    rw [List.cons_append, replay, replay, Option.bind_assoc]
    congr 1
    funext live'
    exact ih live'

theorem replay_snoc {live live' : List α} {es : List (Entry α)} (e : Entry α)
    (h : replay live es = some live') : replay live (es ++ [e]) = step live' e := by
  rw [replay_append, h, Option.bind_some, replay]
  cases step live' e <;> rfl

/-- Using what is live changes nothing. -/
theorem replay_uses {live : List α} {es : List (Entry α)} (h : ∀ e ∈ es, ∃ a ∈ live, e = .use a) :
    replay live es = some live := by
  induction es with
  | nil => rfl
  | cons e es ih =>
    obtain ⟨a, ha, rfl⟩ := h e List.mem_cons_self
    rw [replay, step, if_pos ha, Option.bind_some]
    exact ih fun e he => h e (List.mem_cons_of_mem _ he)

/-- What a replay leaves is what was allocated more often than freed. -/
theorem replay_count {live' : List α} {es : List (Entry α)} :
    ∀ {live : List α}, live.Nodup → replay live es = some live' → live'.Nodup ∧
      ∀ a, live.count a + es.count (.alloc a) = es.count (.free a) + live'.count a := by
  induction es with
  | nil =>
    intro live hnodup h
    cases h
    exact ⟨hnodup, fun a => by simp⟩
  | cons e es ih =>
    intro live hnodup h
    obtain ⟨mid, hstep, hrest⟩ := Option.bind_eq_some_iff.1 h
    cases e with
    | alloc b =>
      simp only [step] at hstep
      split at hstep <;> cases hstep
      rename_i hb
      obtain ⟨hnodup', hcount⟩ := ih (List.nodup_cons.2 ⟨hb, hnodup⟩) hrest
      refine ⟨hnodup', fun a => ?_⟩
      have hcount := hcount a
      rw [List.count_cons] at hcount
      simp only [List.count_cons, beq_iff_eq, Entry.alloc.injEq, reduceCtorEq, ↓reduceIte] at hcount ⊢
      omega
    | use b =>
      simp only [step] at hstep
      split at hstep <;> cases hstep
      obtain ⟨hnodup', hcount⟩ := ih hnodup hrest
      refine ⟨hnodup', fun a => ?_⟩
      have hcount := hcount a
      simp only [List.count_cons, beq_iff_eq, reduceCtorEq, ↓reduceIte]
      omega
    | free b =>
      simp only [step] at hstep
      split at hstep <;> cases hstep
      rename_i hb
      obtain ⟨hnodup', hcount⟩ := ih (hnodup.erase b) hrest
      refine ⟨hnodup', fun a => ?_⟩
      have hcount := hcount a
      have hpos : 0 < live.count b := List.count_pos_iff.2 hb
      rw [List.count_erase] at hcount
      simp only [List.count_cons, beq_iff_eq, Entry.free.injEq, reduceCtorEq, ↓reduceIte] at hcount ⊢
      by_cases hab : b = a
      · subst hab
        simp only [↓reduceIte] at hcount ⊢
        omega
      · simp only [hab, ↓reduceIte] at hcount ⊢
        omega

/-- A ledger that can be replayed from nothing is balanced. -/
theorem balanced_of_replay {live : List α} {es : List (Entry α)} (h : replay [] es = some live) :
    Balanced es live := by
  -- what is live where an entry stands
  have hmid : ∀ before e after, es = before ++ e :: after →
      ∃ mid, replay [] before = some mid ∧ (step mid e).isSome := by
    intro before e after heq
    rw [heq, replay_append] at h
    obtain ⟨mid, hbefore, hrest⟩ := Option.bind_eq_some_iff.1 h
    obtain ⟨next, hstep, -⟩ := Option.bind_eq_some_iff.1 hrest
    exact ⟨mid, hbefore, by rw [hstep]; rfl⟩
  refine ⟨fun a => ?_, fun before a after heq => ?_, fun before a after heq => ?_,
    fun before a after heq => ?_⟩
  · have hcount := (replay_count List.nodup_nil h).2 a
    rw [List.count_nil, Nat.zero_add] at hcount
    exact hcount
  all_goals
    obtain ⟨mid, hbefore, hstep⟩ := hmid _ _ _ heq
    obtain ⟨hnodup, hcount⟩ := replay_count List.nodup_nil hbefore
    have hcount := hcount a
    rw [List.count_nil, Nat.zero_add] at hcount
    simp only [step] at hstep
    split at hstep
  · cases hstep
  · rename_i ha
    rw [hcount, List.count_eq_zero_of_not_mem ha, Nat.add_zero]
  · rename_i ha
    rw [hcount, List.count_eq_one_of_mem hnodup ha]
  · cases hstep
  · rename_i ha
    rw [hcount, List.count_eq_one_of_mem hnodup ha]
  · cases hstep

/-- A thing is freed once before it is allocated again, and at the end unless it is live. -/
theorem Balanced.freed_once {es before during after : List (Entry α)} {live : List α} {a : α}
    (h : Balanced es live) (heq : es = before ++ .alloc a :: (during ++ after))
    (hduring : .alloc a ∉ during) :
    (after = [] → during.count (.free a) + live.count a = 1) ∧
      ∀ rest, after = .alloc a :: rest → during.count (.free a) = 1 := by
  have hbefore := h.alloc before a _ heq
  have hnone : during.count (.alloc a) = 0 := List.count_eq_zero_of_not_mem hduring
  constructor
  · rintro rfl
    have htotal := h.total a
    simp only [heq, List.append_nil, List.count_append, List.count_cons, beq_iff_eq, reduceCtorEq,
      BEq.rfl, ↓reduceIte, hnone] at htotal
    omega
  · rintro rest rfl
    have hagain := h.alloc (before ++ .alloc a :: during) a rest (by simp [heq])
    simp only [List.count_append, List.count_cons, beq_iff_eq, reduceCtorEq, BEq.rfl, ↓reduceIte,
      hnone] at hagain
    omega

end Ledger
