import PingServer.Parser.Chunked

/-!
# Chunked bodies

The grammar of the bodies that `phr_decode_chunked` accepts. `Remains` is what may still come
of one, in each state of the decoder; `remains_describes` is its derivative by one byte.
-/

namespace PingServer.Pico

open ByteMem Transducer

/-! ## The grammar -/

/-- The number `n` with these hexadecimal digits behind it. -/
def hexValue (n : Nat) (digits : List Byte) : Nat :=
  digits.foldl (fun n c => n * 16 + (decodeHex c).getD 0) n

/-- `count` of at most 16 hexadecimal digits have come, and these are the others. -/
structure SizeDigits (count : Nat) (digits : List Byte) : Prop where
  some : 1 ≤ count + digits.length
  room : digits ≠ [] → count + digits.length ≤ 16
  hex : ∀ c ∈ digits, (decodeHex c).isSome = true

/-- Without a line end in it. -/
def ExtText (ext : List Byte) : Prop := ∀ c ∈ ext, c ≠ CR ∧ c ≠ LF

/-- Chunk extensions, or white space. -/
structure ChunkExt (ext : List Byte) : Prop where
  text : ExtText ext
  head : ∀ c ∈ ext.head?, c = SP ∨ c = HT ∨ c = ch ';'

/-- The lines behind the last chunk, up to an empty one. -/
inductive TrailerText : List Byte → Prop
  | last : TrailerText [LF]
  | skip (text : List Byte) : TrailerText text → TrailerText (CR :: text)
  | line (c : Byte) (w text : List Byte) : c ≠ CR → c ≠ LF → LF ∉ w → TrailerText text →
      TrailerText (c :: (w ++ LF :: text))

/-- `text` is a chunked body, and `data` is in it. -/
inductive ChunkedText (trailer : Bool) : (text data : List Byte) → Prop
  | last (digits ext tail : List Byte) : SizeDigits 0 digits → ChunkExt ext → hexValue 0 digits = 0 →
      (if trailer then TrailerText tail else tail = []) →
      ChunkedText trailer (digits ++ (ext ++ CR :: LF :: tail)) []
  | chunk (digits ext part text data : List Byte) : SizeDigits 0 digits → ChunkExt ext →
      part ≠ [] → hexValue 0 digits = part.length → ChunkedText trailer text data →
      ChunkedText trailer (digits ++ (ext ++ CR :: LF :: (part ++ CR :: LF :: text))) (part ++ data)

/-! ## What remains -/

/-- `text` follows the line of a chunk of `n` bytes. -/
def BodyRemains (trailer : Bool) (n : Nat) (text data : List Byte) : Prop :=
  if n = 0 then data = [] ∧ if trailer then TrailerText text else text = []
  else ∃ part text' data', part.length = n ∧ text = part ++ CR :: LF :: text' ∧
    data = part ++ data' ∧ ChunkedText trailer text' data'

/-- What may still come of a body, with the data in it. -/
def Remains (trailer : Bool) : Chunking → (text data : List Byte) → Prop
  | .size count value, text, data => ∃ digits ext text', SizeDigits count digits ∧ ChunkExt ext ∧
      text = digits ++ (ext ++ CR :: LF :: text') ∧
        BodyRemains trailer (hexValue value digits) text' data
  | .ext value, text, data => ∃ ext text', ExtText ext ∧ text = ext ++ CR :: LF :: text' ∧
      BodyRemains trailer value text' data
  | .headerLf value, text, data => ∃ text', text = LF :: text' ∧ BodyRemains trailer value text' data
  | .data more, text, data => BodyRemains trailer (more + 1) text data
  | .dataCr, text, data => ∃ text', text = CR :: LF :: text' ∧ ChunkedText trailer text' data
  | .dataLf, text, data => ∃ text', text = LF :: text' ∧ ChunkedText trailer text' data
  | .lineHead, text, data => TrailerText text ∧ data = []
  | .lineMiddle, text, data => ∃ w text', LF ∉ w ∧ text = w ++ LF :: text' ∧ TrailerText text' ∧
      data = []

section

variable {trailer : Bool} {text data : List Byte} {c : Byte} {value count : Nat}

theorem bodyRemains_zero : BodyRemains trailer 0 text data ↔
    data = [] ∧ if trailer then TrailerText text else text = [] := by
  rw [BodyRemains, if_pos rfl]

theorem bodyRemains_pos {n : Nat} (hn : n ≠ 0) : BodyRemains trailer n text data ↔
    ∃ part text' data', part.length = n ∧ text = part ++ CR :: LF :: text' ∧
      data = part ++ data' ∧ ChunkedText trailer text' data' := by
  rw [BodyRemains, if_neg hn]

/-- A body is what remains at its start. -/
theorem chunkedText_iff : ChunkedText trailer text data ↔ Remains trailer (.size 0 0) text data := by
  constructor
  · intro h
    cases h with
    | last digits ext tail hdigits hext hzero htail =>
      refine ⟨digits, ext, tail, hdigits, hext, rfl, ?_⟩
      rw [hzero]
      exact bodyRemains_zero.2 ⟨rfl, htail⟩
    | chunk digits ext part text data hdigits hext hpart hsize htext =>
      have hne : hexValue 0 digits ≠ 0 := by
        rw [hsize]
        exact fun hzero => hpart (List.eq_nil_of_length_eq_zero hzero)
      exact ⟨digits, ext, _, hdigits, hext, rfl,
        (bodyRemains_pos hne).2 ⟨part, text, data, hsize.symm, rfl, rfl, htext⟩⟩
  · rintro ⟨digits, ext, text', hdigits, hext, rfl, hbody⟩
    by_cases hzero : hexValue 0 digits = 0
    · rw [hzero] at hbody
      obtain ⟨rfl, htail⟩ := bodyRemains_zero.1 hbody
      exact .last digits ext text' hdigits hext hzero htail
    · obtain ⟨part, text, data, hlen, rfl, rfl, htext⟩ := (bodyRemains_pos hzero).1 hbody
      refine .chunk digits ext part text data hdigits hext ?_ hlen.symm htext
      rintro rfl
      exact hzero hlen.symm

/-- A reaction that writes nothing. -/
theorem after_go {L : Chunking → List Byte → List Byte → Prop} {s : Chunking} :
    After L (.go s []) text data ↔ L s text data := by
  constructor
  · rintro ⟨later, rfl, h⟩
    exact h
  · exact fun h => ⟨data, rfl, h⟩

/-- A reaction that fails for every byte but `b`. -/
theorem after_expects {L : Chunking → List Byte → List Byte → Prop} {s : Chunking} {b : Byte} :
    After L (if c ≠ b then .fail else .go s []) text data ↔ c = b ∧ L s text data := by
  by_cases hb : c = b
  · rw [if_neg (not_not.2 hb), after_go]
    exact (and_iff_right hb).symm
  · rw [if_pos hb]
    exact ⟨False.elim, fun h => hb h.1⟩

/-- A text that begins with `b`. -/
theorem exists_cons_eq_iff {b : Byte} {f : List Byte → List Byte} {P : List Byte → Prop} :
    (∃ text', c :: text = b :: f text' ∧ P text') ↔ c = b ∧ ∃ text', text = f text' ∧ P text' := by
  simp only [List.cons.injEq, and_assoc, exists_and_left]

theorem exists_tail_iff {b : Byte} {P : List Byte → Prop} :
    (∃ text', c :: text = b :: text' ∧ P text') ↔ c = b ∧ P text := by
  simp only [List.cons.injEq, and_assoc, exists_and_left, exists_eq_left']

/-! ## One byte less remains -/

theorem ext_after : Remains trailer (.ext value) (c :: text) data ↔
    After (Remains trailer) (feedExt value c) text data := by
  rw [feedExt]
  by_cases hcr : c = CR
  · rw [if_pos hcr, after_go]
    constructor
    · rintro ⟨ext, text', hext, hcons, hbody⟩
      cases ext with
      | nil =>
        obtain ⟨-, rfl⟩ := List.cons.inj hcons
        exact ⟨text', rfl, hbody⟩
      | cons b ext =>
        obtain ⟨rfl, -⟩ := List.cons.inj hcons
        exact absurd hcr (List.forall_mem_cons.1 hext).1.1
    · rintro ⟨text', rfl, hbody⟩
      rw [hcr]
      exact ⟨[], text', List.forall_mem_nil _, rfl, hbody⟩
  · rw [if_neg hcr]
    -- the byte is one of the extension
    have hcons : Remains trailer (.ext value) (c :: text) data ↔
        c ≠ LF ∧ Remains trailer (.ext value) text data := by
      constructor
      · rintro ⟨ext, text', hext, hcons, hbody⟩
        cases ext with
        | nil => exact absurd (List.cons.inj hcons).1 hcr
        | cons b ext =>
          obtain ⟨rfl, rfl⟩ := List.cons.inj hcons
          obtain ⟨⟨-, hlf⟩, htail⟩ := List.forall_mem_cons.1 hext
          exact ⟨hlf, ext, text', htail, rfl, hbody⟩
      · rintro ⟨hlf, ext, text', hext, rfl, hbody⟩
        exact ⟨c :: ext, text', List.forall_mem_cons.2 ⟨⟨hcr, hlf⟩, hext⟩, rfl, hbody⟩
    rw [hcons]
    by_cases hlf : c = LF
    · rw [if_pos hlf]
      exact ⟨fun h => h.1 hlf, False.elim⟩
    · rw [if_neg hlf, after_go]
      exact and_iff_right hlf

/-- Behind the digits of a size comes an extension or the line end. -/
theorem size_ends (hnone : decodeHex c = none) : Remains trailer (.size count value) (c :: text) data ↔
    count ≠ 0 ∧ (c = SP ∨ c = HT ∨ c = ch ';' ∨ c = LF ∨ c = CR) ∧
      Remains trailer (.ext value) (c :: text) data := by
  constructor
  · rintro ⟨digits, ext, text', hdigits, hext, hcons, hbody⟩
    cases digits with
    | nil =>
      refine ⟨Nat.one_le_iff_ne_zero.1 hdigits.some, ?_, ext, text', hext.text, hcons, hbody⟩
      cases ext with
      | nil => exact .inr (.inr (.inr (.inr (List.cons.inj hcons).1)))
      | cons b ext =>
        obtain ⟨rfl, -⟩ := List.cons.inj hcons
        obtain hsp | hht | hsemi := hext.head c rfl
        · exact .inl hsp
        · exact .inr (.inl hht)
        · exact .inr (.inr (.inl hsemi))
    | cons b digits =>
      obtain ⟨rfl, -⟩ := List.cons.inj hcons
      have hsome := (List.forall_mem_cons.1 hdigits.hex).1
      rw [hnone] at hsome
      cases hsome
  · rintro ⟨hcount, hends, ext, text', hext, hcons, hbody⟩
    refine ⟨[], ext, text', ⟨Nat.one_le_iff_ne_zero.2 hcount, fun h => absurd rfl h,
      List.forall_mem_nil _⟩, ⟨hext, ?_⟩, hcons, hbody⟩
    cases ext with
    | nil =>
      intro b hb
      cases hb
    | cons b ext =>
      obtain ⟨rfl, -⟩ := List.cons.inj hcons
      obtain ⟨hcr, hlf⟩ := (List.forall_mem_cons.1 hext).1
      rintro b hb
      obtain rfl := Option.some.inj hb
      obtain hsp | hht | hsemi | hislf | hiscr := hends
      · exact .inl hsp
      · exact .inr (.inl hht)
      · exact .inr (.inr hsemi)
      · exact absurd hislf hlf
      · exact absurd hiscr hcr

/-- What may stand behind the digits of a size is none. -/
theorem ChunkExt.head_not_hex {ext text' : List Byte} (hext : ChunkExt ext)
    (hcons : c :: text = ext ++ CR :: LF :: text') : decodeHex c = none := by
  cases ext with
  | nil =>
    rw [(List.cons.inj hcons).1]
    decide
  | cons b ext =>
    obtain ⟨rfl, -⟩ := List.cons.inj hcons
    obtain rfl | rfl | rfl := hext.head c rfl <;> decide

theorem size_goes_on {v : Nat} (hsome : decodeHex c = some v) :
    Remains trailer (.size count value) (c :: text) data ↔
      ¬ 16 ≤ count ∧ Remains trailer (.size (count + 1) (value * 16 + v)) text data := by
  have hvalue : ∀ digits, hexValue value (c :: digits) = hexValue (value * 16 + v) digits := fun digits => by
    rw [hexValue, List.foldl_cons, hsome, Option.getD_some, hexValue]
  constructor
  · rintro ⟨digits, ext, text', hdigits, hext, hcons, hbody⟩
    cases digits with
    | nil =>
      rw [hext.head_not_hex hcons] at hsome
      cases hsome
    | cons b digits =>
      obtain ⟨rfl, rfl⟩ := List.cons.inj hcons
      have hroom := hdigits.room (List.cons_ne_nil c digits)
      rw [List.length_cons] at hroom
      rw [hvalue] at hbody
      refine ⟨by omega, digits, ext, text', ⟨by omega, fun _ => by omega,
        (List.forall_mem_cons.1 hdigits.hex).2⟩, hext, rfl, hbody⟩
  · rintro ⟨hroom, digits, ext, text', hdigits, hext, rfl, hbody⟩
    refine ⟨c :: digits, ext, text', ⟨?_, fun _ => ?_, ?_⟩, hext, rfl, ?_⟩
    · rw [List.length_cons]
      omega
    · rw [List.length_cons]
      cases digits with
      | nil =>
        rw [List.length_nil]
        omega
      | cons b digits =>
        have hmore := hdigits.room (List.cons_ne_nil b digits)
        omega
    · exact List.forall_mem_cons.2 ⟨Option.isSome_iff_exists.2 ⟨v, hsome⟩, hdigits.hex⟩
    · rw [hvalue]
      exact hbody

theorem size_after : Remains trailer (.size count value) (c :: text) data ↔
    After (Remains trailer) (feedChunked trailer (.size count value) c) text data := by
  simp only [feedChunked]
  cases hdigit : decodeHex c with
  | none =>
    simp only
    rw [size_ends hdigit]
    split_ifs with hcount hends
    · exact ⟨fun h => h.1 hcount, False.elim⟩
    · rw [← ext_after]
      exact ⟨fun h => h.2.2, fun h => ⟨hcount, hends, h⟩⟩
    · exact ⟨fun h => hends h.2.1, False.elim⟩
  | some v =>
    simp only
    rw [size_goes_on hdigit]
    split_ifs with hroom
    · exact ⟨fun h => h.1 hroom, False.elim⟩
    · rw [after_go]
      exact and_iff_right hroom

theorem headerLf_after : Remains trailer (.headerLf value) (c :: text) data ↔
    After (Remains trailer) (feedChunked trailer (.headerLf value) c) text data := by
  have hcons : Remains trailer (.headerLf value) (c :: text) data ↔
      c = LF ∧ BodyRemains trailer value text data := exists_tail_iff
  rw [hcons]
  cases value with
  | zero =>
    rw [bodyRemains_zero]
    cases trailer with
    | true =>
      simp only [feedChunked, if_true]
      rw [after_expects]
      exact and_congr_right' and_comm
    | false =>
      simp only [feedChunked, Bool.false_eq_true, if_false]
      by_cases hlf : c = LF
      · rw [and_iff_right hlf, if_neg (not_not.2 hlf)]
        exact and_comm
      · rw [if_pos hlf]
        exact ⟨fun h => hlf h.1, False.elim⟩
  | succ n =>
    simp only [feedChunked]
    rw [after_expects]
    exact Iff.rfl

theorem data_after (more : Nat) : Remains trailer (.data more) (c :: text) data ↔
    After (Remains trailer) (feedChunked trailer (.data more) c) text data := by
  have hrem : Remains trailer (.data more) (c :: text) data ↔
      ∃ part text' data', part.length = more + 1 ∧ c :: text = part ++ CR :: LF :: text' ∧
        data = part ++ data' ∧ ChunkedText trailer text' data' :=
    bodyRemains_pos (Nat.succ_ne_zero more)
  rw [hrem]
  cases more with
  | zero =>
    constructor
    · rintro ⟨part, text', data', hlen, hcons, rfl, htext⟩
      obtain ⟨b, rfl⟩ := List.length_eq_one_iff.1 hlen
      obtain ⟨rfl, rfl⟩ := List.cons.inj hcons
      exact ⟨data', rfl, text', rfl, htext⟩
    · rintro ⟨data', rfl, text', rfl, htext⟩
      exact ⟨[c], text', data', rfl, rfl, rfl, htext⟩
  | succ n =>
    have hless : ∀ later, Remains trailer (.data n) text later ↔
        ∃ part text' data', part.length = n + 1 ∧ text = part ++ CR :: LF :: text' ∧
          later = part ++ data' ∧ ChunkedText trailer text' data' :=
      fun later => bodyRemains_pos (Nat.succ_ne_zero n)
    constructor
    · rintro ⟨part, text', data', hlen, hcons, rfl, htext⟩
      cases part with
      | nil => cases hlen
      | cons b part =>
        obtain ⟨rfl, rfl⟩ := List.cons.inj hcons
        exact ⟨part ++ data', rfl, (hless _).2 ⟨part, text', data', Nat.succ.inj hlen, rfl, rfl, htext⟩⟩
    · rintro ⟨later, rfl, hremains⟩
      obtain ⟨part, text', data', hlen, rfl, rfl, htext⟩ := (hless later).1 hremains
      exact ⟨c :: part, text', data', congrArg (· + 1) hlen, rfl, rfl, htext⟩

theorem dataCr_after : Remains trailer .dataCr (c :: text) data ↔
    After (Remains trailer) (feedChunked trailer .dataCr c) text data := by
  simp only [feedChunked]
  rw [after_expects]
  exact exists_cons_eq_iff

theorem dataLf_after : Remains trailer .dataLf (c :: text) data ↔
    After (Remains trailer) (feedChunked trailer .dataLf c) text data := by
  simp only [feedChunked]
  rw [after_expects, ← chunkedText_iff]
  exact exists_tail_iff

theorem lineHead_after : Remains trailer .lineHead (c :: text) data ↔
    After (Remains trailer) (feedChunked trailer .lineHead c) text data := by
  simp only [feedChunked]
  split_ifs with hcr hlf
  · rw [after_go]
    refine and_congr_left fun _ => ⟨fun htrailer => ?_, fun htrailer => hcr ▸ .skip text htrailer⟩
    cases htrailer with
    | last => cases hcr
    | skip _ htext => exact htext
    | line _ w text' hncr => exact absurd hcr hncr
  · constructor
    · rintro ⟨htrailer, rfl⟩
      cases htrailer with
      | last => exact ⟨rfl, rfl⟩
      | skip => cases hlf
      | line _ w text' _ hnlf => exact absurd hlf hnlf
    · rintro ⟨rfl, rfl⟩
      exact ⟨hlf ▸ .last, rfl⟩
  · rw [after_go]
    constructor
    · rintro ⟨htrailer, rfl⟩
      cases htrailer with
      | last => exact absurd rfl hlf
      | skip => exact absurd rfl hcr
      | line _ w text' _ _ hw htext => exact ⟨w, text', hw, rfl, htext, rfl⟩
    · rintro ⟨w, text', hw, rfl, htext, rfl⟩
      exact ⟨.line c w text' hcr hlf hw htext, rfl⟩

theorem lineMiddle_after : Remains trailer .lineMiddle (c :: text) data ↔
    After (Remains trailer) (feedChunked trailer .lineMiddle c) text data := by
  simp only [feedChunked]
  split_ifs with hlf
  · rw [after_go]
    constructor
    · rintro ⟨w, text', hw, hcons, htext⟩
      cases w with
      | nil =>
        obtain ⟨-, rfl⟩ := List.cons.inj hcons
        exact htext
      | cons b w =>
        obtain ⟨rfl, -⟩ := List.cons.inj hcons
        exact absurd (hlf ▸ List.mem_cons_self) hw
    · intro htext
      rw [hlf]
      exact ⟨[], text, List.not_mem_nil, rfl, htext⟩
  · rw [after_go]
    constructor
    · rintro ⟨w, text', hw, hcons, htext⟩
      cases w with
      | nil => exact absurd (List.cons.inj hcons).1 hlf
      | cons b w =>
        obtain ⟨rfl, rfl⟩ := List.cons.inj hcons
        exact ⟨w, text', fun hmem => hw (List.mem_cons_of_mem c hmem), rfl, htext⟩
    · rintro ⟨w, text', hw, rfl, htext⟩
      refine ⟨c :: w, text', ?_, rfl, htext⟩
      rw [List.mem_cons, not_or]
      exact ⟨Ne.symm hlf, hw⟩

theorem Remains.ne_nil {s : Chunking} : ¬ Remains trailer s [] data := by
  cases s with
  | size count value =>
    rintro ⟨digits, ext, text', -, -, hnil, -⟩
    simp at hnil
  | ext value =>
    rintro ⟨ext, text', -, hnil, -⟩
    simp at hnil
  | data more =>
    intro h
    obtain ⟨part, text', data', -, hnil, -⟩ := (bodyRemains_pos (Nat.succ_ne_zero more)).1 h
    simp at hnil
  | headerLf | dataCr | dataLf =>
    rintro ⟨text', hnil, -⟩
    cases hnil
  | lineHead =>
    rintro ⟨htrailer, -⟩
    cases htrailer
  | lineMiddle =>
    rintro ⟨w, text', -, hnil, -⟩
    simp at hnil

theorem remains_describes (trailer : Bool) : Describes (feedChunked trailer) (Remains trailer) where
  nil _ _ := Remains.ne_nil
  step s c text data := by
    cases s with
    | size count value => exact size_after
    | ext value => exact ext_after
    | headerLf value => exact headerLf_after
    | data more => exact data_after more
    | dataCr => exact dataCr_after
    | dataLf => exact dataLf_after
    | lineHead => exact lineHead_after
    | lineMiddle => exact lineMiddle_after

/-! ## What is accepted -/

theorem sizeDigits_zero : SizeDigits 0 [ch '0'] := ⟨by decide, by decide, by decide⟩

theorem chunkExt_nil : ChunkExt [] := by
  refine ⟨List.forall_mem_nil _, ?_⟩
  intro c hc
  cases hc

theorem bodyRemains_zero_live (trailer : Bool) : ∃ tail, BodyRemains trailer 0 tail [] := by
  cases trailer with
  | true => exact ⟨[LF], bodyRemains_zero.2 ⟨rfl, .last⟩⟩
  | false => exact ⟨[], bodyRemains_zero.2 ⟨rfl, rfl⟩⟩

/-- A body without data. -/
theorem chunkedText_live (trailer : Bool) : ∃ text, ChunkedText trailer text [] := by
  obtain ⟨tail, htail⟩ := bodyRemains_zero_live trailer
  exact ⟨_, chunkedText_iff.2 ⟨[ch '0'], [], tail, sizeDigits_zero, chunkExt_nil, rfl, htail⟩⟩

theorem bodyRemains_live (trailer : Bool) (n : Nat) : ∃ text data, BodyRemains trailer n text data := by
  cases n with
  | zero =>
    obtain ⟨tail, htail⟩ := bodyRemains_zero_live trailer
    exact ⟨tail, [], htail⟩
  | succ n =>
    obtain ⟨text, htext⟩ := chunkedText_live trailer
    exact ⟨_, _, (bodyRemains_pos (Nat.succ_ne_zero n)).2
      ⟨List.replicate (n + 1) 0, text, [], List.length_replicate .., rfl, rfl, htext⟩⟩

/-- From each state on a body can still end. -/
theorem remains_live (trailer : Bool) (s : Chunking) : ∃ text data, Remains trailer s text data := by
  cases s with
  | size count value =>
    cases count with
    | zero =>
      obtain ⟨text, data, hbody⟩ := bodyRemains_live trailer (hexValue value [ch '0'])
      exact ⟨_, data, [ch '0'], [], text, sizeDigits_zero, chunkExt_nil, rfl, hbody⟩
    | succ count =>
      obtain ⟨text, data, hbody⟩ := bodyRemains_live trailer value
      exact ⟨_, data, [], [], text, ⟨Nat.le_add_left 1 count, fun h => absurd rfl h,
        List.forall_mem_nil _⟩, chunkExt_nil, rfl, hbody⟩
  | ext value =>
    obtain ⟨text, data, hbody⟩ := bodyRemains_live trailer value
    exact ⟨_, data, [], text, List.forall_mem_nil _, rfl, hbody⟩
  | headerLf value =>
    obtain ⟨text, data, hbody⟩ := bodyRemains_live trailer value
    exact ⟨_, data, text, rfl, hbody⟩
  | data more => exact bodyRemains_live trailer (more + 1)
  | dataCr | dataLf =>
    obtain ⟨text, htext⟩ := chunkedText_live trailer
    exact ⟨_, [], text, rfl, htext⟩
  | lineHead => exact ⟨[LF], [], .last, rfl⟩
  | lineMiddle => exact ⟨_, [], [], [LF], List.not_mem_nil, rfl, .last, rfl⟩

/-- **The bodies that are accepted**: a call says that `rest` is behind a body exactly if it
is, and has then the data of that body in front of it. -/
theorem bodies_accepted_iff (trailer : Bool) (buf data rest : List Byte) :
    (∃ r, phrDecodeChunked (.zero trailer) buf = some r ∧ r.ret = rest.length ∧
      r.buf.take r.bufsz = data ∧ (r.buf.drop r.bufsz).take rest.length = rest) ↔
        ∃ text, buf = text ++ rest ∧ ChunkedText trailer text data := by
  have hdescribes := @Describes.stopped_iff _ _ _ _ _ (remains_describes trailer) buf (.size 0 0) data rest
  simp only [← chunkedText_iff] at hdescribes
  rw [← hdescribes]
  obtain ⟨r, hcall, -, hbufsz, hdata, hend⟩ :=
    phrDecodeChunked_decodes trailer 0 0 Chunking.fits_zero buf
  have hzero : phrDecodeChunked (.zero trailer) buf = some r := hcall
  generalize run (feedChunked trailer) (.size 0 0) buf = ran at hbufsz hdata hend ⊢
  obtain ⟨out, outcome⟩ := ran
  simp only at hbufsz hdata hend
  constructor
  · rintro ⟨r', hcall', hret, rfl, hrest⟩
    obtain rfl := Option.some.inj (hzero.symm.trans hcall')
    cases hend with
    | more s _ _ hmore =>
      rw [hmore] at hret
      split_ifs at hret
    | stopped s rest' _ _ hret' hrest' =>
      have hlen : rest'.length = rest.length := by omega
      rw [hlen, ← hbufsz, hrest] at hrest'
      rw [hdata, hrest']
    | failed s _ _ hfail => omega
  · intro hran
    obtain ⟨rfl, rfl⟩ := Prod.mk.inj hran
    cases hend with
    | stopped s _ _ _ hret hrest =>
      refine ⟨r, hzero, hret, hdata, ?_⟩
      rw [hbufsz]
      exact hrest

end

end PingServer.Pico
