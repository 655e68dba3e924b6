import PingServer.Parser.ChunkedText

/-!
# Chunked bodies in pieces

A body reaches `phr_decode_chunked` in the pieces that `recv` returns. Whatever the pieces
are, every call returns (`calls_decode`), and as long as the body is incomplete it does not
matter where it was cut (`pieces_decode_as_whole`).
-/

namespace PingServer.Pico

open ByteMem Transducer

/-- Calls one behind another, whatever they return. -/
def decodeCalls : PhrChunkedDecoder → List (List Byte) → Option (List ChunkedResult)
  | _, [] => some []
  | decoder, p :: ps =>
    (phrDecodeChunked decoder p).bind fun r => (decodeCalls r.decoder ps).map (r :: ·)

/-- Calls one behind another that all return -2, with the data they have decoded. -/
def decodePieces : PhrChunkedDecoder → List (List Byte) → Option (PhrChunkedDecoder × List Byte)
  | decoder, [] => some (decoder, [])
  | decoder, p :: ps =>
    (phrDecodeChunked decoder p).bind fun r =>
      if r.ret = -2 then
        (decodePieces r.decoder ps).map fun d => (d.1, r.buf.take r.bufsz ++ d.2)
      else none

/-- A call answers in terms of its own buffer. -/
structure Answers (buf : List Byte) (r : ChunkedResult) : Prop where
  kept : r.buf.length = buf.length
  decoded : r.bufsz ≤ buf.length
  verdict : r.ret = -2 ∨ r.ret = -1 ∨ 0 ≤ r.ret ∧ r.bufsz + r.ret ≤ buf.length

/-- There is no more data than text. -/
theorem decoded_length_le (trailer : Bool) (s : Chunking) (text : List Byte) :
    (run (feedChunked trailer) s text).1.length ≤ text.length :=
  run_length_le (fun _ _ _ _ hgo => (feedChunked_go hgo).2) text s

/-- A decoder that some calls have left. -/
def Left (decoder : PhrChunkedDecoder) : Prop :=
  ∃ (s : Chunking) (trailer : Bool) (read overhead : Nat), s.Fits ∧
    decoder = s.decoder trailer read overhead

theorem left_zero (trailer : Bool) : Left (.zero trailer) :=
  ⟨.size 0 0, trailer, 0, 0, Chunking.fits_zero, rfl⟩

/-- One call. -/
theorem Left.call {decoder : PhrChunkedDecoder} (h : Left decoder) (buf : List Byte) :
    ∃ r, phrDecodeChunked decoder buf = some r ∧ Answers buf r ∧ Left r.decoder := by
  obtain ⟨s, trailer, read, overhead, hfits, rfl⟩ := h
  obtain ⟨r, hcall, hkept, hbufsz, -, hend⟩ := phrDecodeChunked_decodes trailer read overhead hfits buf
  have hless : r.bufsz ≤ buf.length := by
    rw [hbufsz]
    exact decoded_length_le trailer s buf
  refine ⟨r, hcall, ?_⟩
  generalize run (feedChunked trailer) s buf = ran at hbufsz hend
  obtain ⟨data, outcome⟩ := ran
  cases hend with
  | more s' hfits' hdecoder hret =>
    refine ⟨⟨hkept, hless, ?_⟩, s', trailer, _, _, hfits', hdecoder⟩
    split_ifs at hret
    · exact .inr (.inl hret)
    · exact .inl hret
  | stopped s' rest hfits' hdecoder hret hrest =>
    have hlen := congrArg List.length hrest
    have hsize : r.bufsz = data.length := hbufsz
    simp only [List.length_take, List.length_drop] at hlen
    refine ⟨⟨hkept, hless, .inr (.inr ⟨by omega, ?_⟩)⟩, s', trailer, _, _, hfits', hdecoder⟩
    omega
  | failed s' hfits' hdecoder hret =>
    exact ⟨⟨hkept, hless, .inr (.inl hret)⟩, s', trailer, _, _, hfits', hdecoder⟩

theorem Left.calls (ps : List (List Byte)) : ∀ {decoder : PhrChunkedDecoder}, Left decoder →
    ∃ rs, decodeCalls decoder ps = some rs ∧ List.Forall₂ Answers ps rs := by
  induction ps with
  | nil =>
    intro decoder _
    exact ⟨[], rfl, .nil⟩
  | cons p ps ih =>
    intro decoder h
    obtain ⟨r, hcall, hanswers, hleft⟩ := h.call p
    obtain ⟨rs, hcalls, hall⟩ := ih hleft
    exact ⟨r :: rs, by rw [decodeCalls, hcall, Option.bind_some, hcalls]; rfl, .cons hanswers hall⟩

/-- **Decoding stays inside its buffers**: from a decoder filled with zeros, any number of
calls on any buffers, whatever they return, read and move only what is in the buffer at
hand, and none runs forever. -/
theorem calls_decode (trailer : Bool) (ps : List (List Byte)) :
    ∃ rs, decodeCalls (.zero trailer) ps = some rs ∧ List.Forall₂ Answers ps rs :=
  (left_zero trailer).calls ps

/-! ## Where a body is cut -/

/-- The counters are those of the pieces together, modulo the size of a `size_t`. -/
theorem decodePieces_run {trailer : Bool} (ps : List (List Byte)) : ∀ {s : Chunking}
    {read overhead : Nat} {decoder : PhrChunkedDecoder} {data : List Byte}, s.Fits →
    read < 2 ^ 64 → overhead < 2 ^ 64 →
    decodePieces (s.decoder trailer read overhead) ps = some (decoder, data) →
    ∃ s' : Chunking, s'.Fits ∧ run (feedChunked trailer) s ps.flatten = (data, .more s') ∧
      decoder = s'.decoder trailer ((read + ps.flatten.length) % 2 ^ 64)
        ((overhead + (ps.flatten.length - data.length)) % 2 ^ 64) := by
  induction ps with
  | nil =>
    intro s read overhead decoder data hfits hread hoverhead h
    obtain ⟨rfl, rfl⟩ := Prod.mk.inj (Option.some.inj h)
    refine ⟨s, hfits, rfl, ?_⟩
    simp only [List.flatten_nil, List.length_nil, Nat.add_zero, Nat.sub_self, Nat.mod_eq_of_lt hread,
      Nat.mod_eq_of_lt hoverhead]
  | cons p ps ih =>
    intro s read overhead decoder data hfits _ _ h
    obtain ⟨r, hcall, -, -, hdata, hend⟩ := phrDecodeChunked_decodes trailer read overhead hfits p
    have hless := decoded_length_le trailer s p
    obtain ⟨⟨now, outcome⟩, hrun⟩ : ∃ ran, run (feedChunked trailer) s p = ran := ⟨_, rfl⟩
    rw [hrun] at hdata hend hless
    rw [decodePieces, hcall, Option.bind_some] at h
    split_ifs at h with hret
    obtain ⟨⟨decoder', later⟩, hlater, hsome⟩ := Option.map_eq_some_iff.1 h
    obtain ⟨rfl, rfl⟩ := Prod.mk.inj hsome
    cases hend with
    | more s₁ hfits₁ hdecoder _ =>
      rw [hdecoder] at hlater
      obtain ⟨s', hfits', hrun', hdecoder'⟩ :=
        ih hfits₁ (Nat.mod_lt _ (by decide)) (Nat.mod_lt _ (by decide)) hlater
      have hless' := decoded_length_le trailer s₁ ps.flatten
      rw [hrun'] at hless'
      simp only at hless hless' hdata hdecoder'
      refine ⟨s', hfits', ?_, ?_⟩
      · rw [List.flatten_cons, run_append, hrun]
        simp only [runOn, hrun', hdata]
      · have hsub : p.length + ps.flatten.length - (now.length + later.length) =
            (p.length - now.length) + (ps.flatten.length - later.length) := by omega
        rw [hdecoder', hdata, List.flatten_cons, List.length_append, List.length_append, hsub,
          Nat.mod_add_mod, Nat.mod_add_mod, Nat.add_assoc, Nat.add_assoc]
    | stopped s₁ rest _ _ hret' _ => omega
    | failed s₁ _ _ hret' => omega

/-- A call behind pieces of a body goes on with that body. -/
theorem call_behind_pieces {trailer : Bool} {ps : List (List Byte)} {decoder : PhrChunkedDecoder}
    {data : List Byte} (h : decodePieces (.zero trailer) ps = some (decoder, data)) (p : List Byte) :
    ∃ r now outcome overhead, phrDecodeChunked decoder p = some r ∧ r.bufsz = now.length ∧
      r.buf.take r.bufsz = now ∧
      run (feedChunked trailer) (.size 0 0) (ps.flatten ++ p) = (data ++ now, outcome) ∧
      CallEnd trailer ((ps.flatten ++ p).length % 2 ^ 64) overhead p now r outcome ∧
      (overhead + (p.length - now.length)) % 2 ^ 64 =
        ((ps.flatten ++ p).length - (data ++ now).length) % 2 ^ 64 := by
  obtain ⟨s, hfits, hrun, rfl⟩ := decodePieces_run ps Chunking.fits_zero (by decide) (by decide) h
  obtain ⟨r, hcall, -, hbufsz, hdata, hend⟩ := phrDecodeChunked_decodes trailer _ _ hfits p
  have hless := decoded_length_le trailer (.size 0 0) ps.flatten
  have hless' := decoded_length_le trailer s p
  rw [hrun] at hless
  have hread : ((0 + ps.flatten.length) % 2 ^ 64 + p.length) % 2 ^ 64 =
      (ps.flatten ++ p).length % 2 ^ 64 := by
    rw [List.length_append, Nat.mod_add_mod, Nat.zero_add]
  rw [hread] at hend
  refine ⟨r, _, _, _, hcall, hbufsz, hdata, ?_, hend, ?_⟩
  · rw [run_append, hrun]
    rfl
  · rw [Nat.mod_add_mod, Nat.zero_add, List.length_append, List.length_append,
      tsub_add_tsub_comm hless hless']

/-- What a call returns is settled by where the automaton ends and by the counters. -/
theorem CallEnd.agree {trailer : Bool} {read overhead overhead' : Nat} {buf buf' out out' : List Byte}
    {r w : ChunkedResult} {outcome : Outcome Chunking Byte}
    (hr : CallEnd trailer read overhead buf out r outcome)
    (hw : CallEnd trailer read overhead' buf' out' w outcome)
    (hcount : (overhead + (buf.length - out.length)) % 2 ^ 64 =
      (overhead' + (buf'.length - out'.length)) % 2 ^ 64) :
    w.ret = r.ret ∧ (r.ret = -2 → w.decoder = r.decoder) ∧ (0 ≤ r.ret →
      (w.buf.drop out'.length).take w.ret.toNat = (r.buf.drop out.length).take r.ret.toNat) := by
  cases hr with
  | more s _ hdecoder hret =>
    cases hw with
    | more _ _ hdecoder' hret' =>
      have hsame : w.decoder = r.decoder := by rw [hdecoder, hdecoder', hcount]
      have hequal : w.ret = r.ret := by rw [hret, hret', hsame]
      refine ⟨hequal, fun _ => hsame, fun hpos => ?_⟩
      rw [hret] at hpos
      split_ifs at hpos <;> omega
  | stopped s rest _ _ hret hrest =>
    cases hw with
    | stopped s' _ _ _ hret' hrest' =>
      refine ⟨hret'.trans hret.symm, fun h => by omega, fun _ => ?_⟩
      rw [hret, hret', Int.toNat_natCast, hrest, hrest']
  | failed s _ _ hret =>
    cases hw with
    | failed s' _ _ hret' => exact ⟨hret'.trans hret.symm, fun h => by omega, fun h => by omega⟩

/-- A call behind pieces of a body, and one on all of it. -/
structure AsWhole (data : List Byte) (r w : ChunkedResult) : Prop where
  ret : w.ret = r.ret
  decoded : w.buf.take w.bufsz = data ++ r.buf.take r.bufsz
  behind : 0 ≤ r.ret →
    (w.buf.drop w.bufsz).take w.ret.toNat = (r.buf.drop r.bufsz).take r.ret.toNat
  decoder : r.ret = -2 → w.decoder = r.decoder

/-- **Pieces are decoded as one whole.** -/
theorem pieces_decode_as_whole {trailer : Bool} {ps : List (List Byte)} {decoder : PhrChunkedDecoder}
    {data : List Byte} (h : decodePieces (.zero trailer) ps = some (decoder, data)) (p : List Byte) :
    ∃ r w, phrDecodeChunked decoder p = some r ∧
      phrDecodeChunked (.zero trailer) (ps.flatten ++ p) = some w ∧ AsWhole data r w := by
  obtain ⟨r, now, outcome, overhead, hcall, hbufsz, hdata, hrun, hend, hcount⟩ := call_behind_pieces h p
  obtain ⟨w, hwhole, -, hbufsz', hdata', hend'⟩ :=
    phrDecodeChunked_decodes trailer 0 0 Chunking.fits_zero (ps.flatten ++ p)
  rw [hrun] at hbufsz' hdata' hend'
  rw [Nat.zero_add] at hend'
  obtain ⟨hret, hdecoder, hbehind⟩ := hend.agree hend' (by rw [hcount, Nat.zero_add])
  rw [← hbufsz, ← hbufsz'] at hbehind
  exact ⟨r, w, hcall, hwhole, hret, by rw [hdata, hdata'], hbehind, hdecoder⟩

/-- Cut between the bytes of a chunk. -/
theorem pieces_decode_as_whole_cut : ∃ r w,
    phrDecodeChunked ⟨2, false, 0, .inChunkData, 4, 3⟩ (utf8 "bc\r\n0\r\nnext") = some r ∧
      phrDecodeChunked (.zero false) ([utf8 "3\r\na"].flatten ++ utf8 "bc\r\n0\r\nnext") = some w ∧
        AsWhole (utf8 "a") r w :=
  @pieces_decode_as_whole false [utf8 "3\r\na"] ⟨2, false, 0, .inChunkData, 4, 3⟩ (utf8 "a")
    (by decide +kernel) (utf8 "bc\r\n0\r\nnext")

/-! ## When more is asked for -/

/-- Of what has come, 100 KiB or more are not data, and less than a quarter is. -/
def Wasteful (received decoded : Nat) : Prop :=
  100 * 1024 ≤ received - decoded ∧ decoded < received / 4

theorem decoder_wasteful_iff {trailer : Bool} {s : Chunking} {received decoded : Nat}
    (hless : decoded ≤ received) (hsize : received < 2 ^ 64) :
    (s.decoder trailer received (received - decoded)).wasteful = true ↔ Wasteful received decoded := by
  have hdata : (received + 2 ^ 64 - (received - decoded)) % 2 ^ 64 = decoded := by omega
  rw [PhrChunkedDecoder.wasteful, Chunking.decoder_totalRead, Chunking.decoder_totalOverhead, hdata,
    decide_eq_true_iff, Wasteful]

/-- **More is asked for** exactly if what has come can still become a body and is not
wasteful. -/
theorem more_asked_iff {trailer : Bool} {ps : List (List Byte)} {decoder : PhrChunkedDecoder}
    {data p : List Byte} (h : decodePieces (.zero trailer) ps = some (decoder, data))
    (hsize : (ps.flatten ++ p).length < 2 ^ 64) :
    ∃ r, phrDecodeChunked decoder p = some r ∧ (r.ret = -2 ↔
      (∃ text body, text ≠ [] ∧ ChunkedText trailer (ps.flatten ++ p ++ text) body) ∧
        ¬ Wasteful (ps.flatten ++ p).length (data ++ r.buf.take r.bufsz).length) := by
  obtain ⟨r, now, outcome, overhead, hcall, -, hdata, hrun, hend, hcount⟩ := call_behind_pieces h p
  have hless := decoded_length_le trailer (.size 0 0) (ps.flatten ++ p)
  have hmore := @Describes.more_iff _ _ _ _ _ (remains_describes trailer) (remains_live trailer)
    (.size 0 0) (ps.flatten ++ p)
  simp only [← chunkedText_iff, hrun] at hmore
  rw [hrun] at hless
  refine ⟨r, hcall, ?_⟩
  rw [← hmore, hdata]
  cases hend with
  | more s _ hdecoder hret =>
    rw [hcount, Nat.mod_eq_of_lt hsize, Nat.mod_eq_of_lt (by omega)] at hdecoder
    rw [hret, hdecoder, ← @decoder_wasteful_iff trailer s _ _ hless hsize]
    have hreads : ∃ out s', (data ++ now, (Outcome.more s : Outcome Chunking Byte)) = (out, .more s') :=
      ⟨_, s, rfl⟩
    rw [and_iff_right hreads]
    split_ifs with hwaste
    · exact ⟨fun hne => by omega, fun hnot => absurd hwaste hnot⟩
    · exact ⟨fun _ => hwaste, fun _ => rfl⟩
  | stopped s rest _ _ hret _ =>
    refine ⟨fun heq => by omega, ?_⟩
    rintro ⟨⟨out, s', hreads⟩, -⟩
    cases hreads
  | failed s _ _ hret =>
    refine ⟨fun heq => by omega, ?_⟩
    rintro ⟨⟨out, s', hreads⟩, -⟩
    cases hreads

theorem more_asked_iff_cut : ∃ r,
    phrDecodeChunked ⟨2, false, 0, .inChunkData, 4, 3⟩ (utf8 "bc\r") = some r ∧ (r.ret = -2 ↔
      (∃ text body, text ≠ [] ∧
        ChunkedText false ([utf8 "3\r\na"].flatten ++ utf8 "bc\r" ++ text) body) ∧
          ¬ Wasteful ([utf8 "3\r\na"].flatten ++ utf8 "bc\r").length
            (utf8 "a" ++ r.buf.take r.bufsz).length) :=
  @more_asked_iff false [utf8 "3\r\na"] ⟨2, false, 0, .inChunkData, 4, 3⟩ (utf8 "a")
    (utf8 "bc\r") (by decide +kernel) (by decide +kernel)

end PingServer.Pico
