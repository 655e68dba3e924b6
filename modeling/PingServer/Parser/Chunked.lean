import PingServer.Lib.Transducer
import PingServer.Parser.Pico

/-!
# The decoder of chunked bodies

`phr_decode_chunked` takes the headers of chunks out of a buffer in place: it writes what
it has decoded to the front. One pass through its switch is `chunkedSwitch`. `Chunking`
is the same decoder one byte at a time, and `phrDecodeChunked_decodes` says that the two
agree, whatever part of a body the buffer holds.
-/

namespace PingServer.Pico

open ByteMem Transducer

/-- `decode_hex`, where -1 is `none`. -/
def decodeHex (c : Byte) : Option Nat :=
  if ch '0' ≤ c ∧ c ≤ ch '9' then some (c.toNat - (ch '0').toNat)
  else if ch 'A' ≤ c ∧ c ≤ ch 'F' then some (c.toNat - (ch 'A').toNat + 0xa)
  else if ch 'a' ≤ c ∧ c ≤ ch 'f' then some (c.toNat - (ch 'a').toNat + 0xa)
  else none

/-- `_state` -/
inductive ChunkedState where
  | inChunkSize
  | inChunkExt
  | inChunkHeaderExpectLf
  | inChunkData
  | inChunkDataExpectCr
  | inChunkDataExpectLf
  | inTrailersLineHead
  | inTrailersLineMiddle
  deriving DecidableEq, Repr

/-- `struct phr_chunked_decoder` -/
structure PhrChunkedDecoder where
  bytesLeftInChunk : Nat
  consumeTrailer : Bool
  hexCount : Nat
  state : ChunkedState
  totalRead : Nat
  totalOverhead : Nat
  deriving DecidableEq, Repr

/-- A decoder that was filled with zeros, but for `consume_trailer`. -/
def PhrChunkedDecoder.zero (consumeTrailer : Bool) : PhrChunkedDecoder :=
  ⟨0, consumeTrailer, 0, .inChunkSize, 0, 0⟩

/-- `memmove` inside a buffer. A move that leaves it is `none`. -/
def memmove (buf : List Byte) (dst src n : Nat) : Option (List Byte) :=
  if dst + n ≤ buf.length ∧ src + n ≤ buf.length then
    some (buf.take dst ++ (buf.drop src).take n ++ buf.drop (dst + n))
  else none

/-- What `phr_decode_chunked` works on; `bufsz` is the length of the buffer. -/
structure Decoding where
  decoder : PhrChunkedDecoder
  buf : List Byte
  dst : Nat
  src : Nat

/-- Where a pass through the switch ends. -/
inductive Goto where
  /-- at the next case, or once more at the same -/
  | again
  | exit (ret : Int)
  | complete

/-- The byte at `src`, if `src` is not `bufsz`. A read outside the buffer is `none`. -/
def Decoding.withByte (d : Decoding) (next : Byte → Decoding × Goto) : Option (Decoding × Goto) :=
  if d.src = d.buf.length then some (d, .exit (-2)) else d.buf[d.src]?.map next

/-- Go on behind the byte at `src`. -/
def Decoding.pass (d : Decoding) (decoder : PhrChunkedDecoder) : Decoding :=
  { d with decoder := decoder, src := d.src + 1 }

/-- Write `n` bytes of a chunk. -/
def Decoding.moveData (d : Decoding) (n : Nat) : Option Decoding :=
  (if d.dst ≠ d.src then memmove d.buf d.dst d.src n else some d.buf).map fun buf =>
    { d with
      buf := buf, src := d.src + n, dst := d.dst + n
      decoder := { d.decoder with bytesLeftInChunk := d.decoder.bytesLeftInChunk - n } }

/-- One pass through the switch, up to the next byte or the next case. -/
def chunkedSwitch (d : Decoding) : Option (Decoding × Goto) :=
  let decoder := d.decoder
  match decoder.state with
  | .inChunkSize => d.withByte fun c =>
    match decodeHex c with
    | none =>
      if decoder.hexCount = 0 then (d, .exit (-1))
      else if c = SP ∨ c = HT ∨ c = ch ';' ∨ c = LF ∨ c = CR then
        ({ d with decoder := { decoder with hexCount := 0, state := .inChunkExt } }, .again)
      else (d, .exit (-1))
    | some v =>
      -- `sizeof(size_t) * 2` digits
      if decoder.hexCount = 16 then (d, .exit (-1))
      else
        (d.pass { decoder with
          bytesLeftInChunk := (decoder.bytesLeftInChunk * 16 + v) % 2 ^ 64
          hexCount := decoder.hexCount + 1 }, .again)
  | .inChunkExt => d.withByte fun c =>
    if c = CR then (d.pass { decoder with state := .inChunkHeaderExpectLf }, .again)
    else if c = LF then (d, .exit (-1))
    else (d.pass decoder, .again)
  | .inChunkHeaderExpectLf => d.withByte fun c =>
    if c ≠ LF then (d, .exit (-1))
    else if decoder.bytesLeftInChunk = 0 then
      if decoder.consumeTrailer then (d.pass { decoder with state := .inTrailersLineHead }, .again)
      else (d.pass decoder, .complete)
    else (d.pass { decoder with state := .inChunkData }, .again)
  | .inChunkData =>
    let avail := d.buf.length - d.src
    if avail < decoder.bytesLeftInChunk then (d.moveData avail).map fun d => (d, .exit (-2))
    else
      (d.moveData decoder.bytesLeftInChunk).map fun d =>
        ({ d with decoder := { d.decoder with state := .inChunkDataExpectCr } }, .again)
  | .inChunkDataExpectCr => d.withByte fun c =>
    if c ≠ CR then (d, .exit (-1))
    else (d.pass { decoder with state := .inChunkDataExpectLf }, .again)
  | .inChunkDataExpectLf => d.withByte fun c =>
    if c ≠ LF then (d, .exit (-1))
    else (d.pass { decoder with state := .inChunkSize }, .again)
  | .inTrailersLineHead => d.withByte fun c =>
    if c = CR then (d.pass decoder, .again)
    else if c = LF then (d.pass decoder, .complete)
    else (d.pass { decoder with state := .inTrailersLineMiddle }, .again)
  | .inTrailersLineMiddle => d.withByte fun c =>
    if c = LF then (d.pass { decoder with state := .inTrailersLineHead }, .again)
    else (d.pass decoder, .again)

/-- `while (1)`, up to `ret` at the label `Exit`. -/
def chunkedLoop : (fuel : Nat) → Decoding → Option (Decoding × Int)
  | 0, _ => none
  | fuel + 1, d =>
    match chunkedSwitch d with
    | none => none
    | some (d, .again) => chunkedLoop fuel d
    | some (d, .exit ret) => some (d, ret)
    | some (d, .complete) => some (d, ((d.buf.length - d.src : Nat) : Int))

/-- What `phr_decode_chunked` returns and leaves. -/
structure ChunkedResult where
  ret : Int
  decoder : PhrChunkedDecoder
  buf : List Byte
  bufsz : Nat

/-- Most of what has come so far is not data. -/
def PhrChunkedDecoder.wasteful (decoder : PhrChunkedDecoder) : Bool :=
  decide (100 * 1024 ≤ decoder.totalOverhead ∧
    (decoder.totalRead + 2 ^ 64 - decoder.totalOverhead) % 2 ^ 64 < decoder.totalRead / 4)

/-- From the label `Exit` on. -/
def chunkedExit (d : Decoding) (ret : Int) : Option ChunkedResult :=
  (if d.dst ≠ d.src then memmove d.buf d.dst d.src (d.buf.length - d.src) else some d.buf).map
    fun buf =>
      if ret = -2 then
        let decoder := { d.decoder with
          totalOverhead := (d.decoder.totalOverhead + (d.buf.length - d.dst)) % 2 ^ 64 }
        ⟨if decoder.wasteful then -1 else ret, decoder, buf, d.dst⟩
      else ⟨ret, d.decoder, buf, d.dst⟩

/-- `phr_decode_chunked`. No byte takes more than two passes (`phrDecodeChunked_decodes`). -/
def phrDecodeChunked (decoder : PhrChunkedDecoder) (buf : List Byte) : Option ChunkedResult :=
  let decoder := { decoder with totalRead := (decoder.totalRead + buf.length) % 2 ^ 64 }
  (chunkedLoop (2 * buf.length + 2) ⟨decoder, buf, 0, 0⟩).bind fun r => chunkedExit r.1 r.2

/-! ## One byte at a time -/

/-- Where a decoder is in a body. -/
inductive Chunking where
  | size (count value : Nat)
  | ext (value : Nat)
  | headerLf (value : Nat)
  /-- `more + 1` bytes of the chunk are to come -/
  | data (more : Nat)
  | dataCr
  | dataLf
  | lineHead
  | lineMiddle
  deriving DecidableEq, Repr

def feedExt (value : Nat) (c : Byte) : Reaction Chunking Byte :=
  if c = CR then .go (.headerLf value) [] else if c = LF then .fail else .go (.ext value) []

/-- The decoder takes in `c`, and has written the data in it. -/
def feedChunked (trailer : Bool) : Chunking → Byte → Reaction Chunking Byte
  | .size count value, c =>
    match decodeHex c with
    | none =>
      if count = 0 then .fail
      else if c = SP ∨ c = HT ∨ c = ch ';' ∨ c = LF ∨ c = CR then feedExt value c
      else .fail
    | some v => if 16 ≤ count then .fail else .go (.size (count + 1) (value * 16 + v)) []
  | .ext value, c => feedExt value c
  | .headerLf 0, c =>
    if c ≠ LF then .fail else if trailer then .go .lineHead [] else .stop
  | .headerLf (n + 1), c => if c ≠ LF then .fail else .go (.data n) []
  | .data 0, c => .go .dataCr [c]
  | .data (n + 1), c => .go (.data n) [c]
  | .dataCr, c => if c ≠ CR then .fail else .go .dataLf []
  | .dataLf, c => if c ≠ LF then .fail else .go (.size 0 0) []
  | .lineHead, c =>
    if c = CR then .go .lineHead [] else if c = LF then .stop else .go .lineMiddle []
  | .lineMiddle, c => if c = LF then .go .lineHead [] else .go .lineMiddle []

/-- The decoder that is there. -/
def Chunking.decoder (s : Chunking) (trailer : Bool) (totalRead totalOverhead : Nat) :
    PhrChunkedDecoder :=
  match s with
  | size count value => ⟨value, trailer, count, .inChunkSize, totalRead, totalOverhead⟩
  | ext value => ⟨value, trailer, 0, .inChunkExt, totalRead, totalOverhead⟩
  | headerLf value => ⟨value, trailer, 0, .inChunkHeaderExpectLf, totalRead, totalOverhead⟩
  | data more => ⟨more + 1, trailer, 0, .inChunkData, totalRead, totalOverhead⟩
  | dataCr => ⟨0, trailer, 0, .inChunkDataExpectCr, totalRead, totalOverhead⟩
  | dataLf => ⟨0, trailer, 0, .inChunkDataExpectLf, totalRead, totalOverhead⟩
  | lineHead => ⟨0, trailer, 0, .inTrailersLineHead, totalRead, totalOverhead⟩
  | lineMiddle => ⟨0, trailer, 0, .inTrailersLineMiddle, totalRead, totalOverhead⟩

section

variable (s : Chunking) (trailer : Bool) (read overhead n : Nat)

theorem Chunking.decoder_totalRead : (s.decoder trailer read overhead).totalRead = read := by
  cases s <;> rfl

theorem Chunking.decoder_totalOverhead : (s.decoder trailer read overhead).totalOverhead = overhead := by
  cases s <;> rfl

theorem Chunking.decoder_setTotalRead :
    { s.decoder trailer read overhead with totalRead := n } = s.decoder trailer n overhead := by
  cases s <;> rfl

theorem Chunking.decoder_setTotalOverhead :
    { s.decoder trailer read overhead with totalOverhead := n } = s.decoder trailer read n := by
  cases s <;> rfl

end

/-- The size that was read so far fits into a `size_t`. -/
def Chunking.Fits : Chunking → Prop
  | size count value => count ≤ 16 ∧ value < 16 ^ count
  | ext value | headerLf value => value < 2 ^ 64
  | data more => more + 1 < 2 ^ 64
  | dataCr | dataLf | lineHead | lineMiddle => True

/-! ## In place -/

/-- Moving bytes down keeps what is in front of them and what is behind them. -/
theorem memmove_down {buf : List Byte} {dst src n : Nat} (hdown : dst ≤ src)
    (hinside : src + n ≤ buf.length) : ∃ buf',
    (if dst ≠ src then memmove buf dst src n else some buf) = some buf' ∧
      buf'.length = buf.length ∧ buf'.take (dst + n) = buf.take dst ++ (buf.drop src).take n ∧
        buf'.drop (src + n) = buf.drop (src + n) := by
  by_cases hsame : dst = src
  · rw [hsame]
    exact ⟨buf, if_neg (not_not.2 rfl), rfl, List.take_add, rfl⟩
  · refine ⟨buf.take dst ++ (buf.drop src).take n ++ buf.drop (dst + n), ?_, ?_, ?_, ?_⟩
    · rw [if_pos hsame, memmove, if_pos ⟨by omega, hinside⟩]
    · simp only [List.length_append, List.length_take, List.length_drop]
      omega
    · have hlen : (buf.take dst ++ (buf.drop src).take n).length = dst + n := by
        simp only [List.length_append, List.length_take, List.length_drop]
        omega
      exact List.take_left' hlen
    · have hlen : (buf.take dst ++ (buf.drop src).take n).length = dst + n := by
        simp only [List.length_append, List.length_take, List.length_drop]
        omega
      rw [List.drop_append, hlen, List.drop_eq_nil_of_le (by omega), List.nil_append, List.drop_drop]
      congr 1
      omega

def Decoding.unread (d : Decoding) : List Byte := d.buf.drop d.src

def Decoding.written (d : Decoding) : List Byte := d.buf.take d.dst

/-- What is written stays in front of what is unread. -/
structure Decoding.InPlace (d : Decoding) : Prop where
  behind : d.dst ≤ d.src
  inside : d.src ≤ d.buf.length

section

variable {d : Decoding} {n : Nat}

theorem Decoding.InPlace.unread_length (h : d.InPlace) :
    d.src + d.unread.length = d.buf.length := by
  have hinside := h.inside
  rw [unread, List.length_drop]
  omega

theorem Decoding.InPlace.moveData (h : d.InPlace) (hn : n ≤ d.unread.length) :
    ∃ d', d.moveData n = some d' ∧ d'.InPlace ∧ d'.buf.length = d.buf.length ∧
      d'.unread = d.unread.drop n ∧ d'.written = d.written ++ d.unread.take n ∧
        d'.decoder = { d.decoder with bytesLeftInChunk := d.decoder.bytesLeftInChunk - n } := by
  have hlen := h.unread_length
  obtain ⟨buf, hmoved, hsame, hwritten, hunread⟩ := @memmove_down d.buf d.dst d.src n h.behind (by omega)
  rw [Decoding.moveData, hmoved, Option.map_some]
  refine ⟨_, rfl, ⟨?_, ?_⟩, hsame, ?_, hwritten, rfl⟩
  · exact Nat.add_le_add_right h.behind n
  · show d.src + n ≤ buf.length
    omega
  · rw [Decoding.unread, Decoding.unread, List.drop_drop]
    exact hunread

theorem Decoding.withByte_nil (h : d.InPlace) (hnone : d.unread = []) (next : Byte → Decoding × Goto) :
    d.withByte next = some (d, .exit (-2)) := by
  have hlen := h.unread_length
  rw [hnone] at hlen
  exact if_pos hlen

theorem Decoding.withByte_cons {c : Byte} {rest : List Byte} (hcons : d.unread = c :: rest)
    (next : Byte → Decoding × Goto) : d.withByte next = some (next c) := by
  have hget : d.buf[d.src]? = some c := by
    have hhead := congrArg (fun l => l[0]?) hcons
    rwa [Decoding.unread, List.getElem?_drop, Nat.add_zero] at hhead
  obtain ⟨hlt, -⟩ := List.getElem?_eq_some_iff.1 hget
  rw [Decoding.withByte, if_neg (Nat.ne_of_lt hlt), hget]
  rfl

theorem Decoding.InPlace.pass {c : Byte} {rest : List Byte} (h : d.InPlace)
    (hcons : d.unread = c :: rest) (decoder : PhrChunkedDecoder) :
    (d.pass decoder).InPlace ∧ (d.pass decoder).unread = rest := by
  have hlen := h.unread_length
  rw [hcons, List.length_cons] at hlen
  refine ⟨⟨Nat.le_succ_of_le h.behind, ?_⟩, ?_⟩
  · show d.src + 1 ≤ d.buf.length
    omega
  · show d.buf.drop (d.src + 1) = rest
    rw [← List.drop_drop]
    exact congrArg (List.drop 1) hcons

end

/-! ## The two agree -/

section

variable {trailer : Bool} {s s' : Chunking} {read overhead : Nat} {c : Byte}

theorem Chunking.fits_zero : (size 0 0).Fits := ⟨Nat.zero_le 16, Nat.one_pos⟩

theorem decodeHex_lt {v : Nat} (h : decodeHex c = some v) : v < 16 := by
  have hall : ∀ c : Byte, ∀ v ∈ decodeHex c, v < 16 := by decide +kernel
  exact hall c v h

theorem Chunking.size_lt {count value : Nat} (hfits : (size count value).Fits) : value < 2 ^ 64 := by
  obtain ⟨hcount, hvalue⟩ := hfits
  calc value < 16 ^ count := hvalue
    _ ≤ 16 ^ 16 := Nat.pow_le_pow_right (by decide) hcount
    _ = 2 ^ 64 := by decide

/-- The next digit of a size. -/
theorem Chunking.Fits.digit {count value v : Nat} (hfits : (size count value).Fits)
    (hroom : ¬ 16 ≤ count) (hv : v < 16) : (size (count + 1) (value * 16 + v)).Fits := by
  obtain ⟨hcount, hvalue⟩ := hfits
  refine ⟨by omega, ?_⟩
  rw [Nat.pow_succ]
  omega

theorem feedExt_go {value : Nat} {out : List Byte} (hfeed : feedExt value c = .go s' out) :
    (value < 2 ^ 64 → s'.Fits) ∧ out.length ≤ 1 := by
  unfold feedExt at hfeed
  split_ifs at hfeed <;> cases hfeed <;> exact ⟨id, Nat.zero_le 1⟩

/-- What fits goes on to fit, and no byte writes more than itself. -/
theorem feedChunked_go {out : List Byte} (hfeed : feedChunked trailer s c = .go s' out) :
    (s.Fits → s'.Fits) ∧ out.length ≤ 1 := by
  cases s with
  | size count value =>
    simp only [feedChunked] at hfeed
    cases hdigit : decodeHex c with
    | none =>
      simp only [hdigit] at hfeed
      split_ifs at hfeed
      obtain ⟨hfits, hlen⟩ := feedExt_go hfeed
      exact ⟨fun h => hfits (Chunking.size_lt h), hlen⟩
    | some v =>
      simp only [hdigit] at hfeed
      split_ifs at hfeed with hroom
      cases hfeed
      exact ⟨fun h => h.digit hroom (decodeHex_lt hdigit), Nat.zero_le 1⟩
  | ext value => exact feedExt_go hfeed
  | headerLf value =>
    cases value with
    | zero =>
      simp only [feedChunked] at hfeed
      split_ifs at hfeed
      cases hfeed
      exact ⟨fun _ => trivial, Nat.zero_le 1⟩
    | succ n =>
      simp only [feedChunked] at hfeed
      split_ifs at hfeed
      cases hfeed
      exact ⟨id, Nat.zero_le 1⟩
  | data more =>
    cases more with
    | zero =>
      cases hfeed
      exact ⟨fun _ => trivial, Nat.le_refl 1⟩
    | succ n =>
      cases hfeed
      exact ⟨Nat.lt_of_succ_lt, Nat.le_refl 1⟩
  | dataLf =>
    simp only [feedChunked] at hfeed
    split_ifs at hfeed
    cases hfeed
    exact ⟨fun _ => Chunking.fits_zero, Nat.zero_le 1⟩
  | dataCr | lineHead | lineMiddle =>
    simp only [feedChunked] at hfeed
    split_ifs at hfeed <;> cases hfeed <;> exact ⟨fun _ => trivial, Nat.zero_le 1⟩

/-- A part of a chunk is data, all of it. -/
theorem run_data (part : List Byte) : ∀ more, part.length ≤ more →
    run (feedChunked trailer) (.data more) part = (part, .more (.data (more - part.length))) := by
  induction part with
  | nil =>
    intro more _
    rfl
  | cons c part ih =>
    intro more hlen
    rw [List.length_cons] at hlen
    obtain ⟨n, rfl⟩ : ∃ n, more = n + 1 := ⟨more - 1, by omega⟩
    have hgo : feedChunked trailer (.data (n + 1)) c = .go (.data n) [c] := rfl
    rw [run_go hgo, ih n (Nat.le_of_succ_le_succ hlen), List.length_cons, Nat.add_sub_add_right]
    rfl

/-- So is a whole chunk, and the line end comes behind it. -/
theorem run_chunk (part rest : List Byte) : ∀ more, part.length = more + 1 →
    run (feedChunked trailer) (.data more) (part ++ rest) =
      (part ++ (run (feedChunked trailer) .dataCr rest).1, (run (feedChunked trailer) .dataCr rest).2) := by
  induction part with
  | nil =>
    intro more hlen
    cases hlen
  | cons c part ih =>
    intro more hlen
    rw [List.length_cons] at hlen
    cases more with
    | zero =>
      obtain rfl : part = [] := List.eq_nil_of_length_eq_zero (by omega)
      have hgo : feedChunked trailer (.data 0) c = .go .dataCr [c] := rfl
      exact run_go hgo rest
    | succ n =>
      have hgo : feedChunked trailer (.data (n + 1)) c = .go (.data n) [c] := rfl
      rw [List.cons_append, run_go hgo, ih n (Nat.succ.inj hlen)]
      rfl

/-- What a pass through the switch makes of a decoding that stands at `s`. -/
inductive Switched (trailer : Bool) (read overhead : Nat) (s : Chunking) (d : Decoding) :
    Decoding × Goto → Prop
  | byte (c : Byte) (rest : List Byte) (s' : Chunking) : d.unread = c :: rest →
      feedChunked trailer s c = .go s' [] →
      Switched trailer read overhead s d (d.pass (s'.decoder trailer read overhead), .again)
  /-- the size ends in front of `c` -/
  | turn (count value : Nat) (c : Byte) (rest : List Byte) : s = .size count value →
      d.unread = c :: rest → feedChunked trailer s c = feedExt value c →
      Switched trailer read overhead s d
        ({ d with decoder := (Chunking.ext value).decoder trailer read overhead }, .again)
  | chunk (more : Nat) (d' : Decoding) : s = .data more → more + 1 ≤ d.unread.length →
      d.moveData (more + 1) = some d' →
      Switched trailer read overhead s d
        ({ d' with decoder := Chunking.dataCr.decoder trailer read overhead }, .again)
  | part (more : Nat) (d' : Decoding) : s = .data more → d.unread.length ≤ more →
      d.moveData d.unread.length = some d' → Switched trailer read overhead s d (d', .exit (-2))
  | drained : d.unread = [] → Switched trailer read overhead s d (d, .exit (-2))
  | stop (c : Byte) (rest : List Byte) : d.unread = c :: rest → feedChunked trailer s c = .stop →
      Switched trailer read overhead s d (d.pass d.decoder, .complete)
  | fail (c : Byte) (rest : List Byte) : d.unread = c :: rest → feedChunked trailer s c = .fail →
      Switched trailer read overhead s d (d, .exit (-1))

variable {d : Decoding}

theorem withByte_switched {next : Byte → Decoding × Goto} (h : d.InPlace)
    (hnext : ∀ c rest, d.unread = c :: rest → Switched trailer read overhead s d (next c)) :
    ∃ r, d.withByte next = some r ∧ Switched trailer read overhead s d r := by
  cases hunread : d.unread with
  | nil => exact ⟨_, d.withByte_nil h hunread next, .drained hunread⟩
  | cons c rest => exact ⟨_, Decoding.withByte_cons hunread next, hnext c rest hunread⟩

/-- Only the byte `b` may stand here. -/
theorem expects_switched {b : Byte} {rest : List Byte} (next : Chunking)
    (hfeed : feedChunked trailer s c = if c ≠ b then .fail else .go next [])
    (hcons : d.unread = c :: rest) : Switched trailer read overhead s d
      (if c ≠ b then (d, .exit (-1)) else (d.pass (next.decoder trailer read overhead), .again)) := by
  split_ifs at hfeed ⊢ with hb
  · exact .fail c rest hcons hfeed
  · exact .byte c rest next hcons hfeed

theorem chunkedSwitch_switched (h : d.InPlace) (hfits : s.Fits)
    (hd : d.decoder = s.decoder trailer read overhead) :
    ∃ r, chunkedSwitch d = some r ∧ Switched trailer read overhead s d r := by
  unfold chunkedSwitch
  cases s with
  | size count value =>
    simp only [hd, Chunking.decoder]
    refine withByte_switched h fun c rest hcons => ?_
    cases hdigit : decodeHex c with
    | none =>
      by_cases hcount : count = 0
      · simp only [if_pos hcount]
        exact .fail c rest hcons (by simp only [feedChunked, hdigit, if_pos hcount])
      · by_cases hends : c = SP ∨ c = HT ∨ c = ch ';' ∨ c = LF ∨ c = CR
        · simp only [if_neg hcount, if_pos hends]
          exact .turn count value c rest rfl hcons
            (by simp only [feedChunked, hdigit, if_neg hcount, if_pos hends])
        · simp only [if_neg hcount, if_neg hends]
          exact .fail c rest hcons (by simp only [feedChunked, hdigit, if_neg hcount, if_neg hends])
    | some v =>
      by_cases hroom : count = 16
      · simp only [if_pos hroom]
        exact .fail c rest hcons (by simp only [feedChunked, hdigit, if_pos hroom.ge])
      · have hless : ¬ 16 ≤ count := fun hle => hroom (Nat.le_antisymm hfits.1 hle)
        have hnext := Chunking.size_lt (hfits.digit hless (decodeHex_lt hdigit))
        simp only [if_neg hroom, Nat.mod_eq_of_lt hnext]
        exact .byte c rest (.size (count + 1) (value * 16 + v)) hcons
          (by simp only [feedChunked, hdigit, if_neg hless])
  | ext value =>
    simp only [hd, Chunking.decoder]
    refine withByte_switched h fun c rest hcons => ?_
    by_cases hcr : c = CR
    · simp only [if_pos hcr]
      exact .byte c rest (.headerLf value) hcons (by simp only [feedChunked, feedExt, if_pos hcr])
    · by_cases hlf : c = LF
      · simp only [if_neg hcr, if_pos hlf]
        exact .fail c rest hcons (by simp only [feedChunked, feedExt, if_neg hcr, if_pos hlf])
      · simp only [if_neg hcr, if_neg hlf]
        exact .byte c rest (.ext value) hcons (by simp only [feedChunked, feedExt, if_neg hcr, if_neg hlf])
  | headerLf value =>
    simp only [hd, Chunking.decoder]
    refine withByte_switched h fun c rest hcons => ?_
    cases value with
    | zero =>
      cases trailer with
      | true =>
        simp only [↓reduceIte]
        exact expects_switched .lineHead rfl hcons
      | false =>
        simp only [↓reduceIte, Bool.false_eq_true]
        by_cases hlf : c = LF
        · have hstop : Switched false read overhead (.headerLf 0) d (d.pass d.decoder, .complete) :=
            .stop c rest hcons (if_neg (not_not.2 hlf))
          rw [if_neg (not_not.2 hlf)]
          rw [hd] at hstop
          exact hstop
        · rw [if_pos hlf]
          exact .fail c rest hcons (if_pos hlf)
    | succ n =>
      simp only [Nat.succ_ne_zero, ↓reduceIte]
      exact expects_switched (.data n) rfl hcons
  | data more =>
    have havail : d.buf.length - d.src = d.unread.length := (List.length_drop ..).symm
    have hleft : d.decoder.bytesLeftInChunk = more + 1 := by rw [hd]; rfl
    simp only [hd, Chunking.decoder, havail]
    by_cases hpart : d.unread.length < more + 1
    · obtain ⟨d', hmoved, -⟩ := h.moveData (n := d.unread.length) (Nat.le_refl _)
      simp only [if_pos hpart, hmoved, Option.map_some]
      exact ⟨_, rfl, .part more d' rfl (Nat.le_of_lt_succ hpart) hmoved⟩
    · obtain ⟨d', hmoved, -, -, -, -, hafter⟩ := h.moveData (n := more + 1) (not_lt.1 hpart)
      have hdecoder : { d'.decoder with state := ChunkedState.inChunkDataExpectCr } =
          Chunking.dataCr.decoder trailer read overhead := by
        rw [hafter, hleft, hd]
        simp only [Chunking.decoder, Nat.sub_self]
      simp only [if_neg hpart, hmoved, Option.map_some, hdecoder]
      exact ⟨_, rfl, .chunk more d' rfl (not_lt.1 hpart) hmoved⟩
  | dataCr =>
    simp only [hd, Chunking.decoder]
    exact withByte_switched h fun c rest hcons => expects_switched .dataLf rfl hcons
  | dataLf =>
    simp only [hd, Chunking.decoder]
    exact withByte_switched h fun c rest hcons => expects_switched (.size 0 0) rfl hcons
  | lineHead =>
    simp only [hd, Chunking.decoder]
    refine withByte_switched h fun c rest hcons => ?_
    by_cases hcr : c = CR
    · simp only [if_pos hcr]
      exact .byte c rest .lineHead hcons (by simp only [feedChunked, if_pos hcr])
    · by_cases hlf : c = LF
      · have hstop : Switched trailer read overhead .lineHead d (d.pass d.decoder, .complete) :=
          .stop c rest hcons (by simp only [feedChunked, if_neg hcr, if_pos hlf])
        simp only [if_neg hcr, if_pos hlf]
        rw [hd] at hstop
        exact hstop
      · simp only [if_neg hcr, if_neg hlf]
        exact .byte c rest .lineMiddle hcons (by simp only [feedChunked, if_neg hcr, if_neg hlf])
  | lineMiddle =>
    simp only [hd, Chunking.decoder]
    refine withByte_switched h fun c rest hcons => ?_
    by_cases hlf : c = LF
    · simp only [if_pos hlf]
      exact .byte c rest .lineHead hcons (by simp only [feedChunked, if_pos hlf])
    · simp only [if_neg hlf]
      exact .byte c rest .lineMiddle hcons (by simp only [feedChunked, if_neg hlf])

/-- Where the loop leaves a decoding, when the automaton ends so. -/
inductive LoopEnd (trailer : Bool) (read overhead : Nat) :
    Outcome Chunking Byte → Decoding → Int → Prop
  | more (s : Chunking) (d : Decoding) : s.Fits → d.decoder = s.decoder trailer read overhead →
      d.unread = [] → LoopEnd trailer read overhead (.more s) d (-2)
  | stopped (s : Chunking) (d : Decoding) (rest : List Byte) : s.Fits →
      d.decoder = s.decoder trailer read overhead → d.unread = rest →
      LoopEnd trailer read overhead (.stopped rest) d rest.length
  | failed (s : Chunking) (d : Decoding) : s.Fits → d.decoder = s.decoder trailer read overhead →
      LoopEnd trailer read overhead .failed d (-1)

/-- The passes that a byte may take. -/
def Chunking.passes : Chunking → Nat
  | size _ _ => 2
  | _ => 1

theorem Chunking.passes_le (s : Chunking) : 1 ≤ s.passes ∧ s.passes ≤ 2 := by
  unfold passes
  split <;> decide

/-- The loop decodes in place what the automaton decodes. -/
theorem chunkedLoop_decodes (fuel : Nat) : ∀ {d : Decoding} {s : Chunking}, d.InPlace → s.Fits →
    d.decoder = s.decoder trailer read overhead → 2 * d.unread.length + s.passes ≤ fuel →
    ∃ d' ret, chunkedLoop fuel d = some (d', ret) ∧ d'.InPlace ∧ d'.buf.length = d.buf.length ∧
      d'.written = d.written ++ (run (feedChunked trailer) s d.unread).1 ∧
        LoopEnd trailer read overhead (run (feedChunked trailer) s d.unread).2 d' ret := by
  induction fuel with
  | zero =>
    intro d s _ _ _ hfuel
    have hpasses := s.passes_le
    omega
  | succ fuel ih =>
    intro d s h hfits hd hfuel
    have hpasses := s.passes_le
    obtain ⟨r, hswitch, hcase⟩ := chunkedSwitch_switched h hfits hd
    rw [chunkedLoop, hswitch]
    cases hcase with
    | byte c rest s' hcons hfeed =>
      obtain ⟨hplace, hrest⟩ := h.pass hcons (s'.decoder trailer read overhead)
      have hpasses' := s'.passes_le
      have hlen := congrArg List.length hcons
      rw [List.length_cons] at hlen
      obtain ⟨d', ret, hloop, hplace', hsame, hwritten, hend⟩ :=
        ih hplace ((feedChunked_go hfeed).1 hfits) rfl (by rw [hrest]; omega)
      rw [hrest] at hwritten hend
      refine ⟨d', ret, hloop, hplace', hsame, ?_, ?_⟩
      · rw [hwritten, hcons, run_go hfeed]
        rfl
      · rw [hcons, run_go hfeed]
        exact hend
    | turn count value c rest hs hcons hfeed =>
      subst hs
      have hrun : run (feedChunked trailer) (.size count value) d.unread =
          run (feedChunked trailer) (.ext value) d.unread := by
        rw [hcons, run, run, hfeed]
        rfl
      have hlen : 2 * d.unread.length + 2 ≤ fuel + 1 := hfuel
      obtain ⟨d', ret, hloop, hplace', hsame, hwritten, hend⟩ :=
        @ih { d with decoder := (Chunking.ext value).decoder trailer read overhead } (.ext value)
          ⟨h.behind, h.inside⟩ (Chunking.size_lt hfits) rfl (Nat.le_of_succ_le_succ hlen)
      rw [hrun]
      exact ⟨d', ret, hloop, hplace', hsame, hwritten, hend⟩
    | chunk more d₁ hs hall hmoved =>
      subst hs
      obtain ⟨d₂, hmoved', hplace, hsame₁, hunread, hwritten₁, -⟩ := h.moveData hall
      obtain rfl : d₁ = d₂ := Option.some.inj (hmoved.symm.trans hmoved')
      have hrun := @run_chunk trailer (d.unread.take (more + 1)) (d.unread.drop (more + 1)) more
        (List.length_take_of_le hall)
      rw [List.take_append_drop] at hrun
      have hlen : d₁.unread.length = d.unread.length - (more + 1) := by rw [hunread, List.length_drop]
      obtain ⟨d', ret, hloop, hplace', hsame, hwritten, hend⟩ :=
        @ih { d₁ with decoder := Chunking.dataCr.decoder trailer read overhead } .dataCr
          ⟨hplace.behind, hplace.inside⟩ trivial rfl (by
            show 2 * d₁.unread.length + 1 ≤ fuel
            omega)
      have hrest : (Decoding.unread
          { d₁ with decoder := Chunking.dataCr.decoder trailer read overhead }) =
            d.unread.drop (more + 1) := hunread
      rw [hrest] at hwritten hend
      rw [hrun]
      refine ⟨d', ret, hloop, hplace', hsame.trans hsame₁, ?_, hend⟩
      rw [hwritten, ← List.append_assoc, ← hwritten₁]
      rfl
    | part more d' hs hpart hmoved =>
      subst hs
      obtain ⟨d₂, hmoved', hplace, hsame, hunread, hwritten, hafter⟩ := h.moveData (Nat.le_refl _)
      obtain rfl : d' = d₂ := Option.some.inj (hmoved.symm.trans hmoved')
      rw [List.take_length] at hwritten
      rw [List.drop_length] at hunread
      rw [run_data _ more hpart]
      refine ⟨d', -2, rfl, hplace, hsame, hwritten, .more _ _ ?_ ?_ hunread⟩
      · exact lt_of_le_of_lt (Nat.succ_le_succ (Nat.sub_le more _)) hfits
      · rw [hafter, hd]
        simp only [Chunking.decoder, Nat.succ_sub hpart]
    | drained hnone =>
      rw [hnone]
      exact ⟨d, -2, rfl, h, rfl, (List.append_nil _).symm, .more s d hfits hd hnone⟩
    | stop c rest hcons hfeed =>
      obtain ⟨hplace, hrest⟩ := h.pass hcons d.decoder
      have hleft := hplace.unread_length
      rw [hcons, run_stop hfeed]
      refine ⟨_, _, rfl, hplace, rfl, (List.append_nil _).symm, ?_⟩
      have hcount : (d.pass d.decoder).buf.length - (d.pass d.decoder).src = rest.length := by
        rw [← hleft, hrest, Nat.add_sub_cancel_left]
      rw [hcount]
      exact .stopped s _ rest hfits hd hrest
    | fail c rest hcons hfeed =>
      rw [hcons, run_fail hfeed]
      exact ⟨d, -1, rfl, h, rfl, (List.append_nil _).symm, .failed s d hfits hd⟩

/-- What a call returns and leaves, when the automaton ends so behind `data`. -/
inductive CallEnd (trailer : Bool) (read overhead : Nat) (buf data : List Byte) (r : ChunkedResult) :
    Outcome Chunking Byte → Prop
  | more (s : Chunking) : s.Fits →
      r.decoder = s.decoder trailer read ((overhead + (buf.length - data.length)) % 2 ^ 64) →
      r.ret = (if r.decoder.wasteful then -1 else -2) → CallEnd trailer read overhead buf data r (.more s)
  | stopped (s : Chunking) (rest : List Byte) : s.Fits → r.decoder = s.decoder trailer read overhead →
      r.ret = rest.length → (r.buf.drop data.length).take rest.length = rest →
      CallEnd trailer read overhead buf data r (.stopped rest)
  | failed (s : Chunking) : s.Fits → r.decoder = s.decoder trailer read overhead → r.ret = -1 →
      CallEnd trailer read overhead buf data r .failed

/-- **A call does what the automaton does**: it returns, and leaves in front what the automaton
has written and behind it what is not decoded. -/
theorem phrDecodeChunked_decodes (trailer : Bool) (read overhead : Nat) {s : Chunking}
    (hfits : s.Fits) (buf : List Byte) :
    ∃ r, phrDecodeChunked (s.decoder trailer read overhead) buf = some r ∧
      r.buf.length = buf.length ∧ r.bufsz = (run (feedChunked trailer) s buf).1.length ∧
      r.buf.take r.bufsz = (run (feedChunked trailer) s buf).1 ∧
      CallEnd trailer ((read + buf.length) % 2 ^ 64) overhead buf (run (feedChunked trailer) s buf).1 r
        (run (feedChunked trailer) s buf).2 := by
  have hplace : (Decoding.mk (s.decoder trailer ((read + buf.length) % 2 ^ 64) overhead) buf 0 0).InPlace :=
    ⟨Nat.le_refl 0, Nat.zero_le _⟩
  obtain ⟨d, ret, hloop, ⟨hbehind, hinside⟩, hsame, hwritten, hend⟩ :=
    @chunkedLoop_decodes trailer _ overhead (2 * buf.length + 2) _ s hplace hfits rfl
      (Nat.add_le_add_left s.passes_le.2 _)
  have hwritten' : d.buf.take d.dst = (run (feedChunked trailer) s buf).1 := hwritten
  have hdst : d.dst = (run (feedChunked trailer) s buf).1.length := by
    rw [← hwritten', List.length_take_of_le (hbehind.trans hinside)]
  obtain ⟨buf', hmoved, hlen', hfront, -⟩ :=
    @memmove_down d.buf d.dst d.src (d.buf.length - d.src) hbehind (by omega)
  have hall : (d.buf.drop d.src).take (d.buf.length - d.src) = d.unread :=
    List.take_of_length_le (Nat.le_of_eq (List.length_drop ..))
  have htake : buf'.take d.dst = (run (feedChunked trailer) s buf).1 := by
    have hshort := congrArg (List.take d.dst) hfront
    rw [List.take_take, Nat.min_eq_left (Nat.le_add_right _ _), List.take_left' (List.length_take_of_le
      (hbehind.trans hinside))] at hshort
    exact hshort.trans hwritten'
  have hrest : (buf'.drop d.dst).take (d.buf.length - d.src) = d.unread := by
    rw [List.take_drop, hfront, hall, List.drop_left' (List.length_take_of_le (hbehind.trans hinside))]
  have hbuf : d.buf.length = buf.length := hsame
  have hended : LoopEnd trailer ((read + buf.length) % 2 ^ 64) overhead
      (run (feedChunked trailer) s buf).2 d ret := hend
  simp only [phrDecodeChunked, Chunking.decoder_totalRead, Chunking.decoder_setTotalRead, hloop,
    Option.bind_some, chunkedExit, hmoved, Option.map_some]
  refine ⟨_, rfl, ?_⟩
  generalize run (feedChunked trailer) s buf = ran at hended hwritten' hdst htake
  obtain ⟨data, outcome⟩ := ran
  cases hended with
  | more s' d hfits' hd hnone =>
    rw [if_pos rfl]
    refine ⟨hlen'.trans hbuf, hdst, htake, .more s' hfits' ?_ rfl⟩
    simp only [hd, Chunking.decoder_totalOverhead, Chunking.decoder_setTotalOverhead, hbuf, hdst]
  | stopped s' d rest hfits' hd hunread =>
    have hne : ¬ (rest.length : Int) = -2 := by omega
    have hleft : d.buf.length - d.src = rest.length := by
      rw [← hunread]
      exact (List.length_drop ..).symm
    rw [if_neg hne]
    refine ⟨hlen'.trans hbuf, hdst, htake, .stopped s' rest hfits' hd rfl ?_⟩
    rw [← hdst, ← hleft]
    exact hrest.trans hunread
  | failed s' d hfits' hd =>
    exact ⟨hlen'.trans hbuf, hdst, htake, .failed s' hfits' hd rfl⟩

end

end PingServer.Pico
