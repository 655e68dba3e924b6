import PingServer.Ds.Str

/-!
# What an append leaves

`string_append_char` writes over a NUL that the string ends with, and counts the bytes as if
it had not. In an empty string it reads a byte far behind the data for the last one.
-/

namespace PingServer

open ByteMem

/-- Where the last byte is looked for, counted from the first. -/
def lastIndex (m : Memory) (str : Nat) : Nat := (strLen m str + 2 ^ 32 - 1) % 2 ^ 32

/-- The byte that is looked at as the last one. -/
def lastByte (m : Memory) (str : Nat) : Byte := m (strData str (lastIndex m str))

/-- The content without one NUL at its end. -/
def dropNul (bs : List Byte) : List Byte := if bs.getLast? = some 0 then bs.dropLast else bs

/-- An append as its callers understand it; the last byte that it looks at is one of the string. -/
structure Appends (m : Memory) (str : Nat) (s : List Byte) : Prop where
  content : (stringAppendChar m str s).2 = true →
    strBytes (stringAppendChar m str s).1 str = dropNul (strBytes m str) ++ s
  capacity : (stringAppendChar m str s).2 = true →
    strCap (stringAppendChar m str s).1 str = strCap m str
  refused : (stringAppendChar m str s).2 = false ↔ strCap m str - strLen m str < s.length
  unchanged : (stringAppendChar m str s).2 = false → (stringAppendChar m str s).1 = m
  looked : (stringAppendChar m str s).2 = true → lastIndex m str < strCap m str

/-- Two appends leave the content that one append of both leaves. -/
def Joins (m : Memory) (str : Nat) (s t : List Byte) : Prop :=
  let r := stringAppendChar m str s
  s.getLast? ≠ some 0 → r.2 = true → (stringAppendChar r.1 str t).2 = true →
    strBytes (stringAppendChar r.1 str t).1 str = strBytes (stringAppendChar m str (s ++ t)).1 str

/-- The bytes are refused, or there is a last byte and it is no NUL. -/
def AppendSafe (m : Memory) (str : Nat) (s : List Byte) : Prop :=
  strCap m str - strLen m str < s.length ∨ 1 ≤ strLen m str ∧ lastByte m str ≠ 0

section

variable {m : Memory} {str : Nat} {s t : List Byte}

theorem strBytes_length (m : Memory) (str : Nat) : (strBytes m str).length = strLen m str := by
  simp [strBytes]

theorem append_refused (h : strLen m str ≤ strCap m str)
    (hfull : strCap m str - strLen m str < s.length) : stringAppendChar m str s = (m, false) := by
  have hroom := HoldsString.room ⟨rfl, h⟩
  rw [stringAppendChar, hroom, if_pos hfull]

/-- Where the bytes are written. -/
def appendDest (m : Memory) (str : Nat) : Nat :=
  strData str (strLen m str) - if lastByte m str = 0 then 1 else 0

theorem strLen_storeBytes {dest : Nat} (hdest : str + 4 ≤ dest) :
    strLen (storeBytes m dest s) str = strLen m str :=
  loadLE_storeBytes_other _ _ _ _ _ (.inl hdest)

theorem appendDest_le (m : Memory) (str : Nat) : str + 4 ≤ appendDest m str := by
  unfold appendDest strData sizeofString
  split <;> omega

theorem append_accepted (h : strLen m str ≤ strCap m str)
    (hfits : s.length ≤ strCap m str - strLen m str) : stringAppendChar m str s =
      (setStrLen (storeBytes m (appendDest m str) s) str (strLen m str + s.length), true) := by
  have hroom := HoldsString.room ⟨rfl, h⟩
  have hlen := strLen_storeBytes (m := m) (s := s) (appendDest_le m str)
  have hdest : strData str (strLen m str) -
      (if m (strData str (lastIndex m str)) = 0 then 1 else 0) =
        appendDest m str := rfl
  unfold lastIndex at hdest
  rw [stringAppendChar, hroom, if_neg (Nat.not_lt.2 hfits)]
  simp only [hdest, hlen]

/-- The bytes that the new length counts. -/
theorem strBytes_appended {dest n : Nat} (hn : n < 2 ^ 32) :
    strBytes (setStrLen (storeBytes m dest s) str n) str =
      (List.range n).map fun i => storeBytes m dest s (strData str i) := by
  rw [strBytes, strLen_setStrLen hn]
  refine List.map_congr_left fun i _ => ?_
  exact storeLE_other _ _ _ _ _ (by unfold strData sizeofString; omega)

/-! ## A last byte that is no NUL -/

theorem lastByte_eq (hpos : 0 < strLen m str) (hlt : strLen m str < 2 ^ 32) :
    lastByte m str = m (strData str (strLen m str - 1)) := by
  rw [lastByte, show lastIndex m str = strLen m str - 1 by unfold lastIndex; omega]

theorem getLast_strBytes (hpos : 0 < strLen m str) (hlt : strLen m str < 2 ^ 32) :
    (strBytes m str).getLast? = some (lastByte m str) := by
  have hlast : strLen m str - 1 < strLen m str := by omega
  rw [lastByte_eq hpos hlt, List.getLast?_eq_getElem?, strBytes_length, strBytes, List.getElem?_map,
    List.getElem?_range hlast]
  rfl

theorem dropNul_strBytes (hpos : 0 < strLen m str) (hlt : strLen m str < 2 ^ 32)
    (hlast : lastByte m str ≠ 0) : dropNul (strBytes m str) = strBytes m str := by
  rw [dropNul, getLast_strBytes hpos hlt, if_neg fun heq => hlast (Option.some.inj heq)]

/-- The bytes follow the old content. -/
theorem append_behind (h : strLen m str ≤ strCap m str)
    (hfits : s.length ≤ strCap m str - strLen m str) (hlast : lastByte m str ≠ 0) :
    strBytes (stringAppendChar m str s).1 str = strBytes m str ++ s ∧
      strCap (stringAppendChar m str s).1 str = strCap m str := by
  have hcap := strCap_lt m str
  have hdest : appendDest m str = strData str (strLen m str) := by
    rw [appendDest, if_neg hlast]
    rfl
  rw [append_accepted h hfits, hdest]
  constructor
  · rw [strBytes_appended (by omega)]
    apply List.ext_getElem
    · simp [strBytes]
    · intro i h₁ h₂
      rw [List.getElem_map, List.getElem_range, List.getElem_append]
      split
      · rename_i hold
        rw [strBytes_length] at hold
        rw [storeBytes_other _ _ _ _ (.inl (by unfold strData; omega))]
        simp [strBytes]
      · rename_i hnew
        simp only [strBytes_length] at hnew ⊢
        have hplace : strData str i = strData str (strLen m str) + (i - strLen m str) := by
          unfold strData
          omega
        rw [hplace, storeBytes_at]
  · rw [strCap_setStrLen]
    exact loadLE_storeBytes_other _ _ _ _ _ (.inl (by unfold strData sizeofString; omega))

/-! ## One append -/

/-- What is left of an append where the bytes fit. -/
theorem appends_accepted_iff (h : strLen m str ≤ strCap m str)
    (hfits : s.length ≤ strCap m str - strLen m str) : Appends m str s ↔
      strBytes (stringAppendChar m str s).1 str = dropNul (strBytes m str) ++ s ∧
        strCap (stringAppendChar m str s).1 str = strCap m str ∧ lastIndex m str < strCap m str := by
  have htrue : (stringAppendChar m str s).2 = true := by rw [append_accepted h hfits]
  constructor
  · intro happ
    exact ⟨happ.content htrue, happ.capacity htrue, happ.looked htrue⟩
  · rintro ⟨hcontent, hcap, hlooked⟩
    refine ⟨fun _ => hcontent, fun _ => hcap, ?_, fun hfalse => ?_, fun _ => hlooked⟩
    · rw [htrue]
      exact iff_of_false (by simp) (Nat.not_lt.2 hfits)
    · rw [htrue] at hfalse
      cases hfalse

theorem appends_refused (h : strLen m str ≤ strCap m str)
    (hfull : strCap m str - strLen m str < s.length) : Appends m str s := by
  have hrefused := append_refused h hfull
  have hnot : (stringAppendChar m str s).2 ≠ true := by
    rw [hrefused]
    exact Bool.false_ne_true
  constructor
  · exact fun htrue => absurd htrue hnot
  · exact fun htrue => absurd htrue hnot
  · rw [hrefused]
    exact iff_of_true rfl hfull
  · rw [hrefused]
    exact fun _ => rfl
  · exact fun htrue => absurd htrue hnot

/-- An append keeps its promise exactly if it is safe. -/
theorem appends_iff (h : strLen m str ≤ strCap m str) (s : List Byte) :
    Appends m str s ↔ AppendSafe m str s := by
  have hcap := strCap_lt m str
  by_cases hfull : strCap m str - strLen m str < s.length
  · exact iff_of_true (appends_refused h hfull) (.inl hfull)
  have hfits := Nat.not_lt.1 hfull
  rw [appends_accepted_iff h hfits, AppendSafe, or_iff_right hfull]
  rcases Nat.eq_zero_or_pos (strLen m str) with hzero | hpos
  · -- the index has wrapped around
    refine iff_of_false (fun hall => ?_) (by omega)
    have hlooked := hall.2.2
    unfold lastIndex at hlooked
    omega
  have hlooked : lastIndex m str < strCap m str := by
    unfold lastIndex
    omega
  by_cases hlast : lastByte m str = 0
  · -- the length counts the byte that was overwritten
    refine iff_of_false (fun hall => ?_) (fun hsafe => hsafe.2 hlast)
    have hlength := congrArg List.length hall.1
    rw [append_accepted h hfits, strBytes_appended (by omega), dropNul,
      getLast_strBytes hpos (by omega), hlast, if_pos rfl] at hlength
    simp only [List.length_map, List.length_range, List.length_append, List.length_dropLast,
      strBytes_length] at hlength
    omega
  · obtain ⟨hcontent, hcapacity⟩ := append_behind h hfits hlast
    rw [hcontent, hcapacity, dropNul_strBytes hpos (by omega) hlast]
    exact iff_of_true ⟨rfl, rfl, hlooked⟩ ⟨hpos, hlast⟩

/-! ## Two appends -/

theorem append_nil (h : strLen m str ≤ strCap m str) : stringAppendChar m str [] = (m, true) := by
  rw [append_accepted h (Nat.zero_le _), storeBytes_nil]
  exact congrArg (·, true) (storeLE_loadLE m str 4)

/-- Bytes that do not end in NUL leave a string ready for more. -/
theorem append_ready (h : strLen m str ≤ strCap m str)
    (hfits : s.length ≤ strCap m str - strLen m str) (hlast : lastByte m str ≠ 0) (hne : s ≠ [])
    (hnul : s.getLast? ≠ some 0) :
    let m' := (stringAppendChar m str s).1
    strLen m' str = strLen m str + s.length ∧ lastByte m' str ≠ 0 := by
  intro m'
  have hcap := strCap_lt m str
  obtain ⟨hcontent, -⟩ := append_behind h hfits hlast
  have hlen : strLen m' str = strLen m str + s.length := by
    rw [← strBytes_length, hcontent, List.length_append, strBytes_length]
  have hpos : 0 < s.length := List.length_pos_iff.2 hne
  refine ⟨hlen, fun hlast' => hnul ?_⟩
  have hgot := @getLast_strBytes m' str (by omega) (by omega)
  rw [hcontent, hlast', List.getLast?_append_of_ne_nil _ hne] at hgot
  exact hgot

/-- Behind a last byte that is no NUL, the bytes of both are written at one go as they are one
after the other. -/
theorem joins (h : strLen m str ≤ strCap m str)
    (hfits : s.length ≤ strCap m str - strLen m str) (hlast : lastByte m str ≠ 0)
    (t : List Byte) : Joins m str s t := by
  by_cases hne : s = []
  · rw [hne, Joins, append_nil h]
    intro _ _ _
    rfl
  simp only [Joins]
  intro hnul _ hsecond
  obtain ⟨hcontent, hcapacity⟩ := append_behind h hfits hlast
  obtain ⟨hlen, hlast'⟩ := append_ready h hfits hlast hne hnul
  generalize (stringAppendChar m str s).1 = m' at *
  have h' : strLen m' str ≤ strCap m' str := by omega
  have hfits' : t.length ≤ strCap m' str - strLen m' str := by
    by_contra hfull
    rw [append_refused h' (Nat.not_le.1 hfull)] at hsecond
    cases hsecond
  have hboth : (s ++ t).length ≤ strCap m str - strLen m str := by
    rw [List.length_append]
    omega
  rw [(append_behind h' hfits' hlast').1, hcontent, (append_behind h hboth hlast).1, List.append_assoc]

/-- An append, and the append of more behind it, do what they are for exactly if the first
is safe. -/
theorem append_joins_iff (h : strLen m str ≤ strCap m str) (s t : List Byte) :
    Appends m str s ∧ Joins m str s t ↔ AppendSafe m str s := by
  rw [← appends_iff h]
  refine ⟨And.left, fun happ => ⟨happ, ?_⟩⟩
  by_cases hfull : strCap m str - strLen m str < s.length
  · simp only [Joins]
    intro _ htrue
    rw [append_refused h hfull] at htrue
    cases htrue
  · have hsafe := ((appends_iff h s).1 happ).resolve_left hfull
    exact joins h (Nat.not_lt.1 hfull) hsafe.2 t

end

/-- A string of capacity 32 at address 8 that holds `content`. -/
def stringOf (content : List Byte) : Memory :=
  storeBytes (setStrCap (setStrLen (fun _ => 255) 8 content.length) 8 32) (strData 8 0) content

/-- Two bytes behind the one that is there, and then a third. -/
theorem append_joins_letters :
    Appends (stringOf [72]) 8 [73, 74] ∧ Joins (stringOf [72]) 8 [73, 74] [75] := by
  have hfields : strLen (stringOf [72]) 8 = 1 ∧ strCap (stringOf [72]) 8 = 32 := by decide +kernel
  have hlast : lastByte (stringOf [72]) 8 ≠ 0 := by decide +kernel
  exact (append_joins_iff (by omega) _ _).2 (.inr ⟨by omega, hlast⟩)

/-- The NUL that is overwritten is counted once more. -/
theorem nul_counted : ¬ ∀ (m : Memory) (str : Nat) (s t : List Byte),
    strLen m str ≤ strCap m str → Appends m str s ∧ Joins m str s t := by
  intro hall
  have hfields : strLen (stringOf [72, 0]) 8 = 2 ∧ strCap (stringOf [72, 0]) 8 = 32 ∧
      (stringAppendChar (stringOf [72, 0]) 8 [73]).2 = true ∧
      strBytes (stringAppendChar (stringOf [72, 0]) 8 [73]).1 8 = [72, 73, 255] ∧
      dropNul (strBytes (stringOf [72, 0]) 8) = [72] := by
    decide +kernel
  obtain ⟨hlen, hcap, htrue, hgot, hold⟩ := hfields
  have hcontent := (hall (stringOf [72, 0]) 8 [73] [] (by omega)).1.content htrue
  rw [hgot, hold] at hcontent
  exact absurd hcontent (by decide)

end PingServer
