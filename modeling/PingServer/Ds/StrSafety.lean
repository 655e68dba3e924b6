import PingServer.Ds.ArenaSearch
import PingServer.Ds.Str

/-!
# Strings over runs

A run mixes the calls of `str.c` on an arena in which others hold allocations as
well. `reserved` is what the arena was asked for when a string was made; the
program itself keeps no record of it.
-/

namespace PingServer

open ByteMem Allocation Machine

/-- A live string, and how many bytes the arena has reserved for it. -/
structure StrRef where
  addr : Nat
  reserved : Nat
  deriving DecidableEq, Repr

def StrRef.alloc (x : StrRef) : Allocation := small x.addr x.reserved

structure StrState where
  arena : MemoryArena
  strings : List StrRef
  others : List Allocation

inductive StrOp where
  | create (s : List Byte) (cap : Nat)
  | copy (x : StrRef)
  | recreate (x : StrRef) (newSize : Nat)
  | append (x : StrRef) (s : List Byte)
  | free (x : StrRef)
  deriving DecidableEq, Repr

namespace StrState

def len (s : StrState) (x : StrRef) : Nat := strLen s.arena.start x.addr
def cap (s : StrState) (x : StrRef) : Nat := strCap s.arena.start x.addr
def live (s : StrState) : List Allocation := s.strings.map StrRef.alloc ++ s.others

end StrState

/-- `none` where a caller would break its side: a string that is not live, more
bytes than the capacity, a new size below the length, a number that is too wide. -/
def strStep (s : StrState) : StrOp → Option StrState
  | .create bs cap =>
    if bs.length ≤ cap ∧ bs.length < 2 ^ 32 ∧ cap < 2 ^ 64 then
      match stringCreateFromArena s.arena bs cap with
      | some (a, p) => some { s with arena := a, strings := ⟨p, strRequest cap⟩ :: s.strings }
      | none => some s
    else none
  | .copy x =>
    if x ∈ s.strings then
      match stringCopy s.arena x.addr with
      | some (a, p) =>
        some { s with arena := a, strings := ⟨p, strRequest (s.cap x)⟩ :: s.strings }
      | none => some s
    else none
  | .recreate x newSize =>
    if x ∈ s.strings ∧ s.len x ≤ newSize ∧ newSize < 2 ^ 64 then
      match stringRecreateFromArena s.arena x.addr newSize with
      | some (a, p) =>
        some { s with arena := a, strings := ⟨p, newSize⟩ :: s.strings.erase x }
      | none => some s
    else none
  | .append x bs =>
    if x ∈ s.strings ∧ bs.length < 2 ^ 64 then
      let mem := (stringAppendChar s.arena.start x.addr bs).1
      some { s with arena := { s.arena with start := mem } }
    else none
  | .free x =>
    if x ∈ s.strings then
      some { s with arena := stringFree s.arena x.addr, strings := s.strings.erase x }
    else none

/-- No strings yet, in an arena that others use. -/
def strStart (a : ArenaState) : StrState := ⟨a.arena, [], a.live⟩

/-- The calls that `str.c` is right for: a new string fits a block with its
fields, none is made anew, and no bytes are put into an empty one. -/
def StrOk (s : StrState) : StrOp → Prop
  | .create _ cap =>
    cap + sizeofString ≤ pingArenaBlockSize ∨ ¬ RefRoom s.arena (strRequest cap)
  | .recreate _ newSize => ¬ RefRoom s.arena newSize
  | .append x bs => 1 ≤ s.len x ∨ s.cap x < bs.length
  | .copy _ | .free _ => True

instance (s : StrState) (op : StrOp) : Decidable (StrOk s op) := by
  cases op <;> unfold StrOk <;> infer_instance

/-- Every string owns its storage. -/
structure StringsOwn (s : StrState) : Prop where
  len : ∀ x ∈ s.strings, s.len x ≤ s.cap x
  inside : ∀ x ∈ s.strings, sizeofString + s.cap x ≤ x.reserved
  block : ∀ x ∈ s.strings, x.alloc.Inside s.arena.cap
  apart : s.live.Pairwise Apart
  append : ∀ x ∈ s.strings, ∀ bs,
    SameOutside x.addr (x.addr + x.reserved) s.arena.start
      (stringAppendChar s.arena.start x.addr bs).1

/-! ## The invariant -/

structure StrInv (a : MemoryArena) (strings : List StrRef) (others : List Allocation) : Prop where
  arena : ArenaInv a (strings.map StrRef.alloc ++ others)
  holds : ∀ x ∈ strings, sizeofString ≤ x.reserved ∧
    HoldsString a.start x.addr (x.reserved - sizeofString)
  now : a.now < a.cap

/-- Giving up a reference changes the books of the arena only. -/
theorem arenaRecycleRef_same (a : MemoryArena) (p : Nat) :
    (arenaRecycleRef a p).start = a.start ∧ (arenaRecycleRef a p).now = a.now ∧
      (arenaRecycleRef a p).cap = a.cap := by
  unfold arenaRecycleRef
  simp only
  split <;> exact ⟨rfl, rfl, rfl⟩

namespace StrInv

variable {a a₁ : MemoryArena} {strings strings' : List StrRef} {others : List Allocation}
  {x : StrRef} {mem : Memory}

theorem perm (h : StrInv a strings others) (p : strings.Perm strings') :
    StrInv a strings' others where
  arena := h.arena.perm ((p.map StrRef.alloc).append_right others)
  holds := fun y hy => h.holds y (p.mem_iff.2 hy)
  now := h.now

/-- Writes to one string leave the others as they were. -/
theorem writes (harena : ArenaInv a (x.alloc :: (strings.map StrRef.alloc ++ others)))
    (hholds : ∀ y ∈ strings, sizeofString ≤ y.reserved ∧
      HoldsString a.start y.addr (y.reserved - sizeofString))
    (hx : sizeofString ≤ x.reserved ∧ HoldsString mem x.addr (x.reserved - sizeofString))
    (hsame : SameOutside x.addr (x.addr + x.reserved) a.start mem) (hnow : a.now < a.cap) :
    StrInv { a with start := mem } (x :: strings) others where
  arena := harena.writes hsame
  holds := by
    intro y hy
    obtain rfl | hy := List.mem_cons.1 hy
    · exact hx
    · obtain ⟨h8, hcap, hlen⟩ := hholds y hy
      have hmem : y.alloc ∈ strings.map StrRef.alloc ++ others :=
        List.mem_append_left others (List.mem_map_of_mem hy)
      have hapart : x.addr + x.reserved ≤ y.addr ∨ y.addr + y.reserved ≤ x.addr :=
        (List.pairwise_cons.1 harena.apart).1 y.alloc hmem
      obtain ⟨hl, hc⟩ := fields_same hsame (show y.addr + sizeofString ≤ x.addr ∨ _ by omega)
      exact ⟨h8, hc.trans hcap, hl.le.trans hlen⟩
  now := hnow

theorem recycle (h : StrInv a (x :: strings) others) :
    StrInv (arenaRecycleRef a x.addr) strings others where
  arena := h.arena.recycleRef
  holds := by
    intro y hy
    rw [(arenaRecycleRef_same a x.addr).1]
    exact h.holds y (List.mem_cons_of_mem x hy)
  now := by
    obtain ⟨-, hnow, hcap⟩ := arenaRecycleRef_same a x.addr
    rw [hnow, hcap]
    exact h.now

/-- A new string gets bytes of its own. -/
theorem init {p cap len : Nat} {bs : List Byte} (h : StrInv a strings others)
    (halloc : arenaAllocRefBlock a (strRequest cap) = some (a₁, p))
    (hfit : cap + sizeofString ≤ pingArenaBlockSize) (hlen : len ≤ cap) (hbs : bs.length ≤ cap) :
    StrInv { a₁ with
      start := storeBytes (setStrCap (setStrLen a₁.start p len) p cap) (strData p 0) bs }
      (⟨p, strRequest cap⟩ :: strings) others := by
  have h8 : sizeofString = 8 := rfl
  have hblock : pingArenaBlockSize = 4096 := rfl
  have hreq : strRequest cap = cap + sizeofString := Nat.mod_eq_of_lt (by omega)
  rw [hreq] at halloc ⊢
  have harena := h.arena.allocRef (by omega) hfit halloc
  obtain ⟨hstart, hnow⟩ : a₁.start = a.start ∧ a₁.now < a₁.cap := by
    obtain ⟨b, rfl, -⟩ := arenaAllocRefBlock_some halloc
    exact ⟨rfl, Nat.mod_lt _ a.cap_pos⟩
  obtain ⟨hsame, hholds⟩ := init_string (m := a₁.start) (p := p) hlen (by omega) hbs
  refine writes harena ?_ ⟨by simp, ?_⟩ hsame hnow
  · rw [hstart]
    exact h.holds
  · rwa [Nat.add_sub_cancel]

/-- A live string, with the others behind it. -/
theorem focus (h : StrInv a strings others) (hx : x ∈ strings) :
    StrInv a (x :: strings.erase x) others :=
  h.perm (List.perm_cons_erase hx)

/-- A string that owns its storage fits a block. -/
theorem fits (h : StrInv a strings others) (hx : x ∈ strings) :
    strCap a.start x.addr + sizeofString ≤ pingArenaBlockSize := by
  obtain ⟨h8, hcap, -⟩ := h.holds x hx
  have hinside : x.alloc.Inside a.cap :=
    h.arena.inside x.alloc (List.mem_append_left others (List.mem_map_of_mem hx))
  have hend := hinside.2.2
  omega

/-- A copy is made like a new string, from what the copied string holds. -/
theorem copy {a' : MemoryArena} {p : Nat} (h : StrInv a strings others) (hx : x ∈ strings)
    (hcopy : stringCopy a x.addr = some (a', p)) :
    StrInv a' (⟨p, strRequest (strCap a.start x.addr)⟩ :: strings) others := by
  have h8 : sizeofString = 8 := rfl
  have hblock : pingArenaBlockSize = 4096 := rfl
  have hfit := h.fits hx
  obtain ⟨hx8, hcap, hlen⟩ := h.holds x hx
  unfold stringCopy at hcopy
  split at hcopy
  · cases hcopy
  · rename_i a₁ res halloc
    cases hcopy
    have hreq : strRequest (strCap a.start x.addr) = strCap a.start x.addr + sizeofString :=
      Nat.mod_eq_of_lt (by omega)
    have hstart : a₁.start = a.start := by
      obtain ⟨b, rfl, -⟩ := arenaAllocRefBlock_some halloc
      rfl
    have harena := h.arena.allocRef (by omega) (by omega) (hreq ▸ halloc)
    have hmem : x.alloc ∈ strings.map StrRef.alloc ++ others :=
      List.mem_append_left others (List.mem_map_of_mem hx)
    have hapart : p + (strCap a.start x.addr + sizeofString) ≤ x.addr ∨ x.addr + x.reserved ≤ p :=
      (List.pairwise_cons.1 harena.apart).1 x.alloc hmem
    have hkept : strCap (setStrLen a₁.start p (strLen a₁.start x.addr)) x.addr =
        strCap a.start x.addr := by
      rw [← hstart]
      exact loadLE_storeLE_other _ _ _ _ _ _ (by omega)
    have hlen' : strLen a₁.start x.addr ≤ strCap a.start x.addr := by
      rw [hstart, hcap]
      exact hlen
    rw [hkept]
    apply h.init halloc hfit hlen'
    rw [List.length_map, List.length_range, strLen_setStrCap, strLen_setStrLen (by omega)]
    exact hlen'

theorem safe {s : StrState} (h : StrInv s.arena s.strings s.others) : StringsOwn s where
  len := by
    intro x hx
    obtain ⟨-, hcap, hlen⟩ := h.holds x hx
    exact hlen.trans hcap.ge
  inside := by
    intro x hx
    obtain ⟨h8, hcap, -⟩ := h.holds x hx
    rw [StrState.cap, hcap]
    omega
  block := fun x hx =>
    h.arena.inside x.alloc (List.mem_append_left s.others (List.mem_map_of_mem hx))
  apart := h.arena.apart
  append := by
    intro x hx bs
    obtain ⟨h8, hholds⟩ := h.holds x hx
    have hsame := hholds.append_same bs
    rwa [Nat.sub_add_cancel h8] at hsame

end StrInv

/-- Every allowed call keeps the invariant. -/
theorem strStep_inv {s t : StrState} {op : StrOp} (h : StrInv s.arena s.strings s.others)
    (hok : StrOk s op) (hstep : strStep s op = some t) :
    StrInv t.arena t.strings t.others := by
  cases op with
  | create bs cap =>
    simp only [strStep] at hstep
    split at hstep
    · rename_i hargs
      split at hstep <;> cases hstep
      · rename_i a p hcreate
        unfold stringCreateFromArena at hcreate
        split at hcreate
        · cases hcreate
        · rename_i a₁ res halloc
          cases hcreate
          obtain hfit | hfull := hok
          · exact h.init halloc hfit hargs.1 hargs.1
          · exact absurd (refRoom_of_alloc halloc) hfull
      · exact h
    · cases hstep
  | copy x =>
    simp only [strStep] at hstep
    split at hstep
    · rename_i hx
      split at hstep <;> cases hstep
      · rename_i a p hcopy
        exact h.copy hx hcopy
      · exact h
    · cases hstep
  | recreate x newSize =>
    simp only [strStep] at hstep
    split at hstep
    · split at hstep <;> cases hstep
      · rename_i a p hrecreate
        unfold stringRecreateFromArena at hrecreate
        split at hrecreate
        · cases hrecreate
        · rename_i halloc
          exact absurd (refRoom_of_alloc halloc) hok
      · exact h
    · cases hstep
  | append x bs =>
    simp only [strStep] at hstep
    split at hstep <;> cases hstep
    rename_i hx
    have hfocus := h.focus hx.1
    obtain ⟨h8, hholds⟩ := h.holds x hx.1
    have hempty : 1 ≤ strLen s.arena.start x.addr ∨ x.reserved - sizeofString < bs.length := by
      rw [← hholds.capField]
      exact hok
    have hsame := hholds.append_same bs
    rw [Nat.sub_add_cancel h8] at hsame
    have hwrites := StrInv.writes hfocus.arena
      (fun y hy => hfocus.holds y (List.mem_cons_of_mem x hy)) ⟨h8, hholds.append_holds hempty⟩ hsame
      h.now
    exact hwrites.perm (List.perm_cons_erase hx.1).symm
  | free x =>
    simp only [strStep] at hstep
    split at hstep <;> cases hstep
    rename_i hx
    exact (h.focus hx).recycle

/-- Whenever a string is made anew it does not own its last bytes: the new capacity is
all that the arena was asked for. -/
theorem recreate_overruns {s t : StrState} {x : StrRef} {newSize : Nat}
    (h : StrInv s.arena s.strings s.others) (hstep : strStep s (.recreate x newSize) = some t)
    (hroom : RefRoom s.arena newSize) (hsize : newSize < 2 ^ 32) : ¬ StringsOwn t := by
  have h8 : sizeofString = 8 := rfl
  simp only [strStep] at hstep
  split at hstep
  · split at hstep <;> cases hstep
    · rename_i a p hrecreate
      unfold stringRecreateFromArena at hrecreate
      split at hrecreate
      · cases hrecreate
      · rename_i a₁ res halloc
        cases hrecreate
        intro hown
        have hinside := hown.inside _ List.mem_cons_self
        simp only [StrState.cap, (arenaRecycleRef_same _ _).1, strCap_setStrCap hsize] at hinside
        omega
    · rename_i hnone
      unfold stringRecreateFromArena at hnone
      split at hnone
      · rename_i hfull
        exact absurd hroom ((arenaAllocRefBlock_none_iff h.now).1 hfull)
      · cases hnone
  · cases hstep

/-- In every run of allowed calls each string owns its storage. -/
theorem strings_own (size : Nat) (mem : Memory)
    (fits : arenaSize size * pingArenaBlockSize < 2 ^ 64) (a : ArenaState) (s : StrState)
    (ha : Reaches (graph arenaStep) always (arenaStart size mem fits) a)
    (hs : Reaches (graph strStep) StrOk (strStart a) s) : StringsOwn s := by
  have hstart : StrInv a.arena [] a.live :=
    ⟨arenaRun_inv ha, fun _ hx => absurd hx List.not_mem_nil, arenaRun_now ha⟩
  exact (hs.invariant (fun s => StrInv s.arena s.strings s.others) hstart
    fun _ _ _ hinv hok hstep => strStep_inv hinv hok hstep).safe

/-- A string behind an object of 100 bytes, filled to its capacity, and a copy of it. -/
def ownedOps : List StrOp :=
  [.create [72] 2, .append ⟨100, 10⟩ [105], .copy ⟨100, 10⟩]

theorem strings_own_ownedOps : ∃ a s,
    run arenaStep (arenaStart 1 (fun _ => 0) (by decide)) [.allocRef 100] = some a ∧
      run strStep (strStart a) ownedOps = some s ∧ strBytes s.arena.start 110 = [72, 105] ∧
      StringsOwn s := by
  have hruns : (run arenaStep (arenaStart 1 (fun _ => 0) (by decide)) [.allocRef 100]).any
      (fun a : ArenaState => decide (allowedAlong strStep StrOk (strStart a) ownedOps) &&
        (run strStep (strStart a) ownedOps).any fun s =>
          decide (strBytes s.arena.start 110 = [72, 105])) = true := by
    decide +kernel
  obtain ⟨a, ha, hboth⟩ := (Option.any_eq_true _ _).1 hruns
  obtain ⟨hok, hrun⟩ := Bool.and_eq_true_iff.1 hboth
  obtain ⟨s, hs, hbytes⟩ := (Option.any_eq_true _ _).1 hrun
  exact ⟨a, s, ha, hs, of_decide_eq_true hbytes, strings_own 1 _ (by decide) a s
    (reaches_of_run (allowedAlong_always _ _ _) ha) (reaches_of_run (of_decide_eq_true hok) hs)⟩

/-- A string of capacity 4, made anew with 16 bytes. -/
def recreateOps : List StrOp := [.create [65] 4, .recreate ⟨0, 12⟩ 16]

/-- The last eight bytes of its new capacity are not its own. -/
theorem strings_overrun :
    ¬ ∀ (size : Nat) (mem : Memory) (fits : arenaSize size * pingArenaBlockSize < 2 ^ 64)
      (a : ArenaState) (s : StrState),
      Reaches (graph arenaStep) always (arenaStart size mem fits) a →
      Reaches (graph strStep) always (strStart a) s → StringsOwn s := by
  intro hall
  have hrun : (run strStep (strStart (arenaStart 1 (fun _ => 0) (by decide))) recreateOps).any
      (fun s => decide (⟨12, 16⟩ ∈ s.strings ∧ s.cap ⟨12, 16⟩ = 16)) = true := by
    decide +kernel
  obtain ⟨s, hs, hfacts⟩ := (Option.any_eq_true _ _).1 hrun
  obtain ⟨hmem, hcap⟩ := of_decide_eq_true hfacts
  have hown := hall 1 _ (by decide) _ s .start
    (reaches_of_run (allowedAlong_always _ _ _) hs)
  have hinside := hown.inside _ hmem
  rw [hcap] at hinside
  exact absurd hinside (by decide)

end PingServer
