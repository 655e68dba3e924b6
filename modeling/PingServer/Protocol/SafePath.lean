import PingServer.Protocol.Check

/-!
# The grammar of safe paths

`is_safe_path` as it indexes its bytes: one behind the current one, and two ahead. No index
leaves the path, and what is accepted is a grammar that does not mention the loop.
-/

namespace PingServer

open ByteMem

/-- The loop of `is_safe_path`; `none` is a read outside `p[0..len)`. -/
def pathLoop (p : List Byte) : (fuel i : Nat) → Option Bool
  | 0, _ => some true
  | fuel + 1, i =>
    if i < p.length then
      p[i]?.bind fun c =>
        if c < 0x20 ∨ c = 0x7f then some false
        else if isValidPathChar c = false then some false
        else
          (if i ≠ 0 ∧ c = ch '.' then p[i - 1]?.map (· == ch '.') else some false).bind fun dots =>
            if dots then some false
            else if c = ch '%' then
              if p.length ≤ i + 2 then some false
              else
                p[i + 1]?.bind fun hi =>
                  if isxdigit hi = false then some false
                  else
                    p[i + 2]?.bind fun lo =>
                      if isxdigit lo = false then some false else pathLoop p fuel (i + 3)
            else pathLoop p fuel (i + 1)
    else some true

/-- `is_safe_path` with its reads. -/
def isSafePathReads (p : List Byte) : Option Bool :=
  if p.length = 0 ∨ 2048 < p.length then some false
  else p[0]?.bind fun first => if first ≠ ch '/' then some false else pathLoop p p.length 0

/-- The byte `i`, if it is a percent sign, has two hexadecimal digits behind it. -/
def Escapes (p : List Byte) : Prop :=
  ∀ i, p[i]? = some (ch '%') →
    ∃ hi lo, p[i + 1]? = some hi ∧ p[i + 2]? = some lo ∧ isxdigit hi = true ∧ isxdigit lo = true

structure PathGrammar (p : List Byte) : Prop where
  length : 1 ≤ p.length ∧ p.length ≤ 2048
  head : p.head? = some (ch '/')
  chars : ∀ c ∈ p, isValidPathChar c = true
  dots : NoDotDot p
  escapes : Escapes p

/-! ## The reads -/

/-- The byte before the current one. -/
def byteBefore (p : List Byte) (i : Nat) : Option Byte := if i = 0 then none else p[i - 1]?

theorem byteBefore_succ (p : List Byte) (i : Nat) : byteBefore p (i + 1) = p[i]? := rfl

/-- The look at the byte before never leaves the path. -/
theorem dots_read {p : List Byte} {i : Nat} (hi : i < p.length) (c : Byte) :
    (if i ≠ 0 ∧ c = ch '.' then p[i - 1]?.map (· == ch '.') else some false) =
      some (decide (c = ch '.' ∧ byteBefore p i = some (ch '.'))) := by
  rw [byteBefore]
  by_cases hzero : i = 0
  · rw [if_neg (fun h => h.1 hzero), if_pos hzero, decide_eq_false (fun h => nomatch h.2)]
  · rw [if_neg hzero]
    by_cases hdot : c = ch '.'
    · rw [if_pos ⟨hzero, hdot⟩, List.getElem?_eq_getElem (show i - 1 < p.length by omega),
        Option.map_some, Option.some.injEq, Bool.eq_iff_iff, beq_iff_eq, decide_eq_true_iff,
        and_iff_right hdot, Option.some.injEq]
    · rw [if_neg (fun h => hdot h.2), decide_eq_false (fun h => hdot h.1)]

theorem safeLoop_cons (prev : Option Byte) (c : Byte) (rest : List Byte) :
    safeLoop prev (c :: rest) =
      if c < 0x20 ∨ c = 0x7f then false
      else if isValidPathChar c = false then false
      else if c = ch '.' ∧ prev = some (ch '.') then false
      else if c = ch '%' then
        match rest with
        | hi :: lo :: rest => if isxdigit hi && isxdigit lo then safeLoop (some lo) rest else false
        | _ => false
      else safeLoop (some c) rest :=
  (safeLoop.eq_def _ _).trans rfl

/-- From every place on, the loop reads what is there and decides as the loop over the rest
of the bytes does. -/
theorem pathLoop_eq (p : List Byte) (fuel : Nat) : ∀ i, i ≤ p.length → p.length ≤ i + fuel →
    pathLoop p fuel i = some (safeLoop (byteBefore p i) (p.drop i)) := by
  induction fuel with
  | zero =>
    intro i hle hfuel
    rw [List.drop_of_length_le (by omega)]
    rfl
  | succ fuel ih =>
    intro i hle hfuel
    rw [pathLoop]
    by_cases hi : i < p.length
    · rw [if_pos hi, List.getElem?_eq_getElem hi, Option.bind_some, List.drop_eq_getElem_cons hi,
        safeLoop_cons]
      generalize hc : p[i] = c
      by_cases hcontrol : c < 0x20 ∨ c = 0x7f
      · rw [if_pos hcontrol, if_pos hcontrol]
      rw [if_neg hcontrol, if_neg hcontrol]
      by_cases hvalid : isValidPathChar c = false
      · rw [if_pos hvalid, if_pos hvalid]
      rw [if_neg hvalid, if_neg hvalid, dots_read hi, Option.bind_some]
      by_cases hdots : c = ch '.' ∧ byteBefore p i = some (ch '.')
      · rw [decide_eq_true hdots, if_pos rfl, if_pos hdots]
      rw [decide_eq_false hdots, if_neg Bool.false_ne_true, if_neg hdots]
      by_cases hpercent : c = ch '%'
      · rw [if_pos hpercent, if_pos hpercent]
        by_cases hshort : p.length ≤ i + 2
        · rw [if_pos hshort]
          cases hrest : p.drop (i + 1) with
          | nil => rfl
          | cons x rest =>
            have hlength := congrArg List.length hrest
            rw [List.length_drop, List.length_cons] at hlength
            rw [List.eq_nil_of_length_eq_zero (show rest.length = 0 by omega)]
        · have hhi : i + 1 < p.length := by omega
          have hlo : i + 2 < p.length := by omega
          have hend := ih (i + 3) (by omega) (by omega)
          rw [byteBefore_succ, List.getElem?_eq_getElem hlo] at hend
          rw [if_neg hshort, List.getElem?_eq_getElem hhi, Option.bind_some,
            List.getElem?_eq_getElem hlo, Option.bind_some, List.drop_eq_getElem_cons hhi,
            List.drop_eq_getElem_cons hlo, hend]
          dsimp only
          cases isxdigit p[i + 1] with
          | false => rfl
          | true => cases isxdigit p[i + 2] <;> rfl
      · rw [if_neg hpercent, if_neg hpercent, ih (i + 1) (by omega) (by omega), byteBefore_succ,
          List.getElem?_eq_getElem hi, hc]
    · rw [if_neg hi, List.drop_of_length_le (by omega)]
      rfl

/-- No read of `is_safe_path` leaves the path. -/
theorem isSafePathReads_eq (p : List Byte) : isSafePathReads p = some (isSafePath p) := by
  rw [isSafePathReads, isSafePath]
  by_cases hlen : p.length = 0 ∨ 2048 < p.length
  · rw [if_pos hlen, if_pos hlen]
  · have hfirst : 0 < p.length := by omega
    rw [if_neg hlen, if_neg hlen, List.getElem?_eq_getElem hfirst, Option.bind_some,
      List.head?_eq_getElem?, List.getElem?_eq_getElem hfirst,
      pathLoop_eq p p.length 0 (Nat.zero_le _) (by omega)]
    by_cases hslash : p[0] = ch '/'
    · rw [if_neg (not_not.2 hslash), if_neg (not_not.2 (congrArg some hslash))]
      rfl
    · rw [if_pos hslash, if_pos fun heq => hslash (Option.some.inj heq)]

/-! ## The grammar -/

theorem escapes_cons {c : Byte} {rest : List Byte} : Escapes (c :: rest) ↔
    (c = ch '%' → ∃ hi lo tail, rest = hi :: lo :: tail ∧ isxdigit hi = true ∧ isxdigit lo = true) ∧
      Escapes rest := by
  constructor
  · intro h
    refine ⟨fun hc => ?_, fun i hi => ?_⟩
    · obtain ⟨hi, lo, hfirst, hsecond, hhex⟩ := h 0 (congrArg some hc)
      cases rest with
      | nil => cases hfirst
      | cons x rest =>
        cases rest with
        | nil => cases hsecond
        | cons y tail =>
          cases hfirst
          cases hsecond
          exact ⟨hi, lo, tail, rfl, hhex⟩
    · exact h (i + 1) hi
  · rintro ⟨hhere, hrest⟩ i hi
    cases i with
    | zero =>
      obtain ⟨x, y, tail, rfl, hhex⟩ := hhere (Option.some.inj hi)
      exact ⟨x, y, rfl, rfl, hhex⟩
    | succ i => exact hrest i hi

theorem Escapes.nil : Escapes [] := fun _ h => nomatch h

theorem isxdigit_not_percent {c : Byte} (h : isxdigit c = true) : c ≠ ch '%' := by
  rintro rfl
  exact absurd h (by decide)

/-- Every percent sign is met by the loop, since the digits it skips are none. -/
theorem safeLoop_escapes (prev : Option Byte) (p : List Byte) (h : safeLoop prev p = true) :
    Escapes p := by
  fun_induction safeLoop prev p with
  | case1 prev => exact Escapes.nil
  | case5 prev hi lo rest hhex _ _ _ ih =>
    rw [Bool.and_eq_true] at hhex
    refine escapes_cons.2 ⟨fun _ => ⟨hi, lo, rest, rfl, hhex⟩, ?_⟩
    refine escapes_cons.2 ⟨fun hc => absurd hc (isxdigit_not_percent hhex.1), ?_⟩
    exact escapes_cons.2 ⟨fun hc => absurd hc (isxdigit_not_percent hhex.2), ih h⟩
  | case8 prev c rest _ _ _ hpercent ih => exact escapes_cons.2 ⟨fun hc => absurd hc hpercent, ih h⟩
  | _ => cases h

theorem path_char_printable : ∀ c : Byte, isValidPathChar c = true → ¬ (c < 0x20 ∨ c = 0x7f) := by
  decide +kernel

/-- What the grammar allows passes all tests of the loop. -/
theorem safeLoop_of_grammar (prev : Option Byte) (p : List Byte)
    (hchars : ∀ c ∈ p, isValidPathChar c = true) (hdots : NoDotDot (prev.toList ++ p))
    (hescapes : Escapes p) : safeLoop prev p = true := by
  fun_induction safeLoop prev p with
  | case1 prev => rfl
  | case2 prev c rest hcontrol =>
    exact absurd hcontrol (path_char_printable c (hchars c List.mem_cons_self))
  | case3 prev c rest _ hinvalid =>
    rw [hchars c List.mem_cons_self] at hinvalid
    cases hinvalid
  | case4 prev c rest _ _ hdot =>
    obtain ⟨rfl, rfl⟩ := hdot
    exact absurd ⟨rfl, rfl⟩ (noDotDot_cons_cons.1 hdots).1
  | case5 prev hi lo rest hhex _ _ _ ih =>
    refine ih (fun c hc => hchars c (by simp [hc])) ?_ ?_
    · have hescape : NoDotDot (ch '%' :: hi :: lo :: rest) := by
        cases prev with
        | none => exact hdots
        | some b => exact (noDotDot_cons_cons.1 hdots).2
      exact (noDotDot_cons_cons.1 (noDotDot_cons_cons.1 hescape).2).2
    · exact (escapes_cons.1 (escapes_cons.1 (escapes_cons.1 hescapes).2).2).2
  | case6 prev hi lo rest hhex =>
    obtain ⟨x, y, tail, heq, hx, hy⟩ := (escapes_cons.1 hescapes).1 rfl
    cases heq
    exact absurd (by rw [hx, hy]; rfl) hhex
  | case7 prev rest hshort =>
    obtain ⟨x, y, tail, heq, -⟩ := (escapes_cons.1 hescapes).1 rfl
    exact absurd heq (hshort x y tail)
  | case8 prev c rest _ _ _ _ ih =>
    refine ih (fun b hb => hchars b (List.mem_cons_of_mem c hb)) ?_ (escapes_cons.1 hescapes).2
    cases prev with
    | none => exact hdots
    | some b => exact (noDotDot_cons_cons.1 hdots).2

theorem isSafePath_iff (p : List Byte) : isSafePath p = true ↔ PathGrammar p := by
  constructor
  · intro h
    obtain ⟨hlen, hhead, hchars, hdots⟩ := isSafePath_spec h
    unfold isSafePath at h
    split at h
    · cases h
    · rename_i hbounds
      split at h
      · cases h
      · exact ⟨by omega, hhead, hchars, hdots, safeLoop_escapes none p h⟩
  · intro h
    have hlen := h.length
    rw [isSafePath, if_neg (by omega), if_neg (not_not.2 h.head)]
    exact safeLoop_of_grammar none p h.chars h.dots h.escapes

/-- `is_safe_path` reads inside its path, and accepts exactly the grammar. -/
theorem safe_path_exact (p : List Byte) :
    ∃ safe, isSafePathReads p = some safe ∧ (safe = true ↔ PathGrammar p) :=
  ⟨isSafePath p, isSafePathReads_eq p, isSafePath_iff p⟩

end PingServer
