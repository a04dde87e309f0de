/-
  Lob.Wire.CodecProofs — encoders and decoders agree field by field.

  A message is a header and a list of chunks, one a field (`Message.chunks`, with the two
  reserved bytes of a NewOrder free). `encode` puts the chunks in order (`encode_eq`), and
  `puts_fit`, `puts_short`, `puts_beyond` are what puts do to a bounded buffer.

  `Yields x p a`: the reads `x` of a decoder, met with the bytes `p`, give `a` and consume
  them. One lemma a primitive and one for `bind`; a decoder's is read off its `do` block.
  `decode_bytes` is the round trip, `bytes_of_matches` its converse: whatever matches a
  type's header is that type's encoding of some message.
-/

import Lob.Wire.Codec

namespace Lob.Wire

open Lob.Base.LittleEndian

/-! ## Writing -/

def Writer.puts (w : Writer) (ps : List (List UInt8)) : Writer := ps.foldl Writer.put w

namespace Writer

variable (w : Writer)

theorem put_fit {p : List UInt8} (h : w.n + p.length ≤ w.cap) :
    w.put p = { w with out := overwrite w.out w.n p, n := w.n + p.length } := if_neg (by omega)

theorem put_short {p : List UInt8} (h : w.cap < w.n + p.length) : w.put p = { w with ok := false } := if_pos h

/-- What a put leaves: the capacity, a position inside it, and every byte beyond it. -/
theorem put_bounds (p : List UInt8) (hn : w.n ≤ w.cap) :
    (w.put p).cap = w.cap ∧ (w.put p).n ≤ w.cap ∧ ∀ i, w.cap ≤ i → (w.put p).out i = w.out i := by
  rcases Nat.lt_or_ge w.cap (w.n + p.length) with h | h
  · rw [put_short w h]
    exact ⟨rfl, hn, fun _ _ => rfl⟩
  · rw [put_fit w h]
    exact ⟨rfl, h, fun i hi => overwrite_of_not _ _ _ (by omega)⟩

/-- A failed put does not stop later ones, but nothing is written at or past the capacity. -/
theorem puts_beyond (ps : List (List UInt8)) (hn : w.n ≤ w.cap) {i : Nat} (hi : w.cap ≤ i) :
    (w.puts ps).out i = w.out i := by
  induction ps generalizing w with
  | nil => rfl
  | cons p ps ih =>
    obtain ⟨hc, hn', hout⟩ := put_bounds w p hn
    have := ih (w.put p) (by rw [hc]; exact hn') (by rw [hc]; exact hi)
    exact this.trans (hout i hi)

theorem puts_fit (ps : List (List UInt8)) (h : w.n + ps.flatten.length ≤ w.cap) :
    w.puts ps = { w with out := overwrite w.out w.n ps.flatten, n := w.n + ps.flatten.length } := by
  induction ps generalizing w with
  | nil =>
    rw [List.flatten_nil, overwrite_nil]
    rfl
  | cons p ps ih =>
    rw [List.flatten_cons, List.length_append] at h ⊢
    have := ih (w.put p) (by rw [put_fit w (by omega)]; show w.n + p.length + _ ≤ w.cap; omega)
    rw [put_fit w (by omega)] at this
    rw [Writer.puts, List.foldl_cons, put_fit w (by omega), ← overwrite_append, ← Nat.add_assoc]
    exact this

theorem puts_failed (ps : List (List UInt8)) (h : w.ok = false) : (w.puts ps).ok = false := by
  induction ps generalizing w with
  | nil => exact h
  | cons p ps ih =>
    refine ih (w.put p) ?_
    rcases Nat.lt_or_ge w.cap (w.n + p.length) with hs | hs
    · rw [put_short w hs]
    · rw [put_fit w hs]
      exact h

theorem puts_short (ps : List (List UInt8)) (hn : w.n ≤ w.cap) (h : w.cap < w.n + ps.flatten.length) :
    (w.puts ps).ok = false := by
  induction ps generalizing w with
  | nil =>
    rw [List.flatten_nil, List.length_nil] at h
    omega
  | cons p ps ih =>
    rw [List.flatten_cons, List.length_append] at h
    rcases Nat.lt_or_ge w.cap (w.n + p.length) with hs | hs
    · exact puts_failed (w.put p) ps (by rw [put_short w hs])
    · refine ih (w.put p) ?_ ?_
      · rw [put_fit w hs]
        exact hs
      · rw [put_fit w hs]
        show w.cap < w.n + p.length + ps.flatten.length
        omega

end Writer

/-! ## Chunks -/

def headerChunks (t v : UInt8) (len : UInt16) (seq : UInt32) : List (List UInt8) :=
  [[t], [v], leBytes 2 len.toNat, leBytes 4 seq.toNat]

/-- The fields of a message; `r1` and `r2` are the bytes a NewOrder reserves. -/
def Message.chunks (r1 r2 : UInt8) : Message → List (List UInt8)
  | .newOrder m => [leBytes 8 m.orderId.toNat, leBytes 4 m.clientId.toNat, [m.side], [m.type], [r1], [r2],
      leBytes 8 m.price.toUInt64.toNat, leBytes 8 m.quantity.toNat, leBytes 8 m.tsClient.toNat]
  | .cancelOrder m => [leBytes 8 m.orderId.toNat, leBytes 4 m.clientId.toNat, leBytes 8 m.tsClient.toNat]
  | .modifyOrder m => [leBytes 8 m.orderId.toNat, leBytes 4 m.clientId.toNat, leBytes 8 m.price.toUInt64.toNat,
      leBytes 8 m.quantity.toNat, leBytes 8 m.tsClient.toNat]
  | .execReport m => [leBytes 8 m.orderId.toNat, leBytes 8 m.contraId.toNat, leBytes 4 m.clientId.toNat, [m.event],
      [m.side], [m.reason], [m.flags], leBytes 8 m.price.toUInt64.toNat, leBytes 8 m.quantity.toNat,
      leBytes 8 m.leaves.toNat, leBytes 8 m.tsClient.toNat, leBytes 8 m.tsEngine.toNat]
  | .mdTrade m => [leBytes 8 m.streamSeq.toNat, leBytes 8 m.price.toUInt64.toNat, leBytes 8 m.quantity.toNat,
      [m.aggressor], leBytes 8 m.tsEngine.toNat]
  | .mdBookChange m => [leBytes 8 m.streamSeq.toNat, leBytes 8 m.bidPx.toUInt64.toNat, leBytes 8 m.bidQty.toNat,
      leBytes 8 m.askPx.toUInt64.toNat, leBytes 8 m.askQty.toNat, leBytes 8 m.tsEngine.toNat]
  | .mdHeartbeat m => [leBytes 8 m.streamSeq.toNat, leBytes 8 m.tsEngine.toNat]

def Message.body (r1 r2 : UInt8) (m : Message) : List UInt8 := (m.chunks r1 r2).flatten

/-- A frame: header, then body. -/
def framed (t v : UInt8) (len : UInt16) (seq : UInt32) (body : List UInt8) : List UInt8 :=
  (headerChunks t v len seq).flatten ++ body

/-- The encoding of a message, whatever its reserved bytes. -/
def bytes (seq : UInt32) (m : Message) (r1 r2 : UInt8) : List UInt8 :=
  framed m.type.byte kVersion m.type.frameLen seq (m.body r1 r2)

@[simp] theorem framed_length (t v : UInt8) (len : UInt16) (seq : UInt32) (body : List UInt8) :
    (framed t v len seq body).length = kHeaderSize + body.length := by
  simp [framed, headerChunks, kHeaderSize]
  omega

theorem body_length (r1 r2 : UInt8) (m : Message) : kHeaderSize + (m.body r1 r2).length = m.type.frameLen.toNat := by
  cases m <;> simp [Message.body, Message.chunks, Message.type, MsgType.frameLen] <;> rfl

theorem bytes_length (seq : UInt32) (m : Message) (r1 r2 : UInt8) :
    (bytes seq m r1 r2).length = m.type.frameLen.toNat := by
  rw [bytes, framed_length, body_length]

theorem encode_eq (out : Nat → UInt8) (cap : Nat) (seq : UInt32) (m : Message) : encode out cap seq m =
    (Writer.puts ⟨out, cap, 0, true⟩ (headerChunks m.type.byte kVersion m.type.frameLen seq ++ m.chunks 0 0)).finish := by
  unfold Writer.puts headerChunks
  cases m <;> simp only [encode, encodeNewOrder, encodeCancelOrder, encodeModifyOrder, encodeExecReport, encodeMdTrade,
    encodeMdBookChange, encodeMdHeartbeat, putHeader, Writer.u8, Writer.u16, Writer.u32, Writer.i64, Writer.u64,
    Message.chunks, Message.type, MsgType.frameLen, List.cons_append, List.nil_append, List.foldl_cons, List.foldl_nil]

theorem flatten_chunks (seq : UInt32) (m : Message) :
    (headerChunks m.type.byte kVersion m.type.frameLen seq ++ m.chunks 0 0).flatten = bytes seq m 0 0 :=
  List.flatten_append

/-- A buffer with room gets the frame. -/
theorem encode_fit (out : Nat → UInt8) {cap : Nat} (seq : UInt32) (m : Message) (h : m.type.frameLen.toNat ≤ cap) :
    encode out cap seq m = (overwrite out 0 (bytes seq m 0 0), m.type.frameLen.toNat) := by
  rw [encode_eq, Writer.puts_fit, flatten_chunks, bytes_length]
  · show (overwrite out 0 (bytes seq m 0 0), 0 + m.type.frameLen.toNat) = _
    rw [Nat.zero_add]
  · rw [flatten_chunks, bytes_length]
    show 0 + _ ≤ cap
    omega

/-- A buffer without does not. -/
theorem encode_short (out : Nat → UInt8) {cap : Nat} (seq : UInt32) (m : Message) (h : cap < m.type.frameLen.toNat) :
    (encode out cap seq m).2 = 0 := by
  have hs := Writer.puts_short ⟨out, cap, 0, true⟩ (headerChunks m.type.byte kVersion m.type.frameLen seq ++ m.chunks 0 0)
    (Nat.zero_le cap) (by rw [flatten_chunks, bytes_length]; show cap < 0 + _; omega)
  rw [encode_eq, Writer.finish, hs]
  rfl

theorem frame_eq (seq : UInt32) (m : Message) : frame seq m = bytes seq m 0 0 := by
  rw [frame, encode_fit _ seq m (Nat.le_refl _)]
  show (List.range m.type.frameLen.toNat).map (overwrite _ 0 _) = _
  rw [← bytes_length seq m 0 0]
  exact range_overwrite _ _

/-! ## Reading -/

/-- Met with the bytes `p`, the reads `x` give `a` and consume them. -/
def Yields {α : Type} (x : StateM Reader α) (p : List UInt8) (a : α) : Prop :=
  ∀ (r : Reader) (rest : List UInt8), r.buf.drop r.n = p ++ rest →
    ∃ n, x r = (a, { r with n := n }) ∧ r.buf.drop n = rest

theorem Yields.pure {α : Type} (a : α) : Yields (Pure.pure a : StateM Reader α) [] a :=
  fun r _ h => ⟨r.n, rfl, h⟩

theorem Yields.bind {α β : Type} {x : StateM Reader α} {f : α → StateM Reader β} {p q : List UInt8} {a : α} {b : β}
    (hx : Yields x p a) (hf : Yields (f a) q b) : Yields (x >>= f) (p ++ q) b := by
  intro r rest h
  rw [List.append_assoc] at h
  obtain ⟨n, e, h'⟩ := hx r _ h
  obtain ⟨n', e', h''⟩ := hf { r with n := n } rest h'
  refine ⟨n', ?_, h''⟩
  show f (x r).1 (x r).2 = _
  rw [e]
  exact e'

/-- The last read of a `do` block. -/
theorem Yields.last {α β : Type} {x : StateM Reader α} {p : List UInt8} {a : α} (hx : Yields x p a) (g : α → β) :
    Yields (x >>= fun a => Pure.pure (g a)) (p ++ []) (g a) := hx.bind (Yields.pure (g a))

theorem yields_get {p : List UInt8} (hp : 0 < p.length) : Yields (Reader.get p.length) p p := by
  intro r rest h
  have hlen := congrArg List.length h
  rw [List.length_drop, List.length_append] at hlen
  refine ⟨r.n + p.length, ?_, ?_⟩
  · unfold Reader.get
    rw [if_neg (by omega), h, List.take_left]
  · rw [← List.drop_drop, h, List.drop_left]

theorem yields_u8 (v : UInt8) : Yields Reader.u8 [v] v := (yields_get (p := [v]) Nat.one_pos).last fun p => p.getD 0 0

theorem yields_le {α : Type} {k : Nat} (hk : 0 < k) {v : Nat} (hv : v < 2 ^ (8 * k)) (ofNat : Nat → α) :
    Yields (do return ofNat (leValue (← Reader.get k))) (leBytes k v) (ofNat v) := by
  have hget := yields_get (p := leBytes k v) (by rw [leBytes_length]; exact hk)
  rw [leBytes_length] at hget
  have h := hget.last fun p => ofNat (leValue p)
  rw [leValue_leBytes, Nat.mod_eq_of_lt hv, List.append_nil] at h
  exact h

theorem yields_u16 (v : UInt16) : Yields Reader.u16 (leBytes 2 v.toNat) v := by
  have h := yields_le (k := 2) (by decide) v.toNat_lt UInt16.ofNat
  rwa [UInt16.ofNat_toNat] at h

theorem yields_u32 (v : UInt32) : Yields Reader.u32 (leBytes 4 v.toNat) v := by
  have h := yields_le (k := 4) (by decide) v.toNat_lt UInt32.ofNat
  rwa [UInt32.ofNat_toNat] at h

theorem yields_u64 (v : UInt64) : Yields Reader.u64 (leBytes 8 v.toNat) v := by
  have h := yields_le (k := 8) (by decide) v.toNat_lt UInt64.ofNat
  rwa [UInt64.ofNat_toNat] at h

theorem yields_i64 (v : Int64) : Yields Reader.i64 (leBytes 8 v.toUInt64.toNat) v := by
  have h := (yields_u64 v.toUInt64).last UInt64.toInt64
  rwa [List.append_nil] at h

/-! ## Decoders -/

/-- The reads of a type, as reads of a message. -/
def MsgType.read : MsgType → StateM Reader Message
  | .newOrder => .newOrder <$> readNewOrder
  | .cancelOrder => .cancelOrder <$> readCancelOrder
  | .modifyOrder => .modifyOrder <$> readModifyOrder
  | .execReport => .execReport <$> readExecReport
  | .mdTrade => .mdTrade <$> readMdTrade
  | .mdBookChange => .mdBookChange <$> readMdBookChange
  | .mdHeartbeat => .mdHeartbeat <$> readMdHeartbeat

theorem Yields.map {α β : Type} {x : StateM Reader α} {p : List UInt8} {a : α} (hx : Yields x p a) (g : α → β) :
    Yields (g <$> x) p (g a) := by
  intro r rest h
  obtain ⟨n, e, h'⟩ := hx r rest h
  refine ⟨n, ?_, h'⟩
  show (g (x r).1, (x r).2) = _
  rw [e]

theorem decodeBody_map {M : Type} (t : MsgType) (read : StateM Reader M) (g : M → Message) (f : List UInt8) :
    (decodeBody t t.frameLen read f).map g = decodeBody t t.frameLen (g <$> read) f := by
  unfold decodeBody
  split
  · show Option.map g (if (read { buf := f.drop kHeaderSize }).2.ok then some _ else none) =
      if (read { buf := f.drop kHeaderSize }).2.ok then some _ else none
    split <;> rfl
  · rfl

theorem decode_eq (t : MsgType) (f : List UInt8) : decode t f = decodeBody t t.frameLen t.read f := by
  cases t <;> exact decodeBody_map ..

/-- Every decoder reads back the fields its encoder put. -/
theorem yields_read (m : Message) (r1 r2 : UInt8) : Yields m.type.read (m.body r1 r2) m := by
  cases m with
  | newOrder m =>
    exact Yields.map ((yields_u64 _).bind ((yields_u32 _).bind ((yields_u8 _).bind ((yields_u8 _).bind ((yields_u8 _).bind
      ((yields_u8 _).bind ((yields_i64 _).bind ((yields_u64 _).bind ((yields_u64 _).last _))))))))) _
  | cancelOrder m => exact Yields.map ((yields_u64 _).bind ((yields_u32 _).bind ((yields_u64 _).last _))) _
  | modifyOrder m =>
    exact Yields.map ((yields_u64 _).bind ((yields_u32 _).bind ((yields_i64 _).bind ((yields_u64 _).bind
      ((yields_u64 _).last _))))) _
  | execReport m =>
    exact Yields.map ((yields_u64 _).bind ((yields_u64 _).bind ((yields_u32 _).bind ((yields_u8 _).bind ((yields_u8 _).bind
      ((yields_u8 _).bind ((yields_u8 _).bind ((yields_i64 _).bind ((yields_u64 _).bind ((yields_u64 _).bind
        ((yields_u64 _).bind ((yields_u64 _).last _)))))))))))) _
  | mdTrade m =>
    exact Yields.map ((yields_u64 _).bind ((yields_i64 _).bind ((yields_u64 _).bind ((yields_u8 _).bind
      ((yields_u64 _).last _))))) _
  | mdBookChange m =>
    exact Yields.map ((yields_u64 _).bind ((yields_i64 _).bind ((yields_u64 _).bind ((yields_i64 _).bind
      ((yields_u64 _).bind ((yields_u64 _).last _)))))) _
  | mdHeartbeat m => exact Yields.map ((yields_u64 _).bind ((yields_u64 _).last _)) _

theorem framed_type (t v : UInt8) (len : UInt16) (seq : UInt32) (body : List UInt8) :
    (framed t v len seq body).getD 0 0 = t ∧ (framed t v len seq body).getD 1 0 = v := ⟨rfl, rfl⟩

theorem framed_drop (t v : UInt8) (len : UInt16) (seq : UInt32) (body : List UInt8) :
    (framed t v len seq body).drop kHeaderSize = body := by
  have h : (headerChunks t v len seq).flatten.length = kHeaderSize := by simp [headerChunks, kHeaderSize]
  rw [framed, ← h, List.drop_left]

theorem headerMatches_iff {f : List UInt8} {t : MsgType} {len : UInt16} :
    headerMatches f t len = true ↔ f.length = len.toNat ∧ f.getD 0 0 = t.byte ∧ f.getD 1 0 = kVersion := by
  rw [headerMatches, Bool.and_eq_true, Bool.and_eq_true, beq_iff_eq, beq_iff_eq, beq_iff_eq, and_assoc]

theorem bytes_matches (seq : UInt32) (m : Message) (r1 r2 : UInt8) :
    headerMatches (bytes seq m r1 r2) m.type m.type.frameLen = true :=
  headerMatches_iff.mpr ⟨bytes_length seq m r1 r2, rfl, rfl⟩

/-- The type's own decoder gives the message back. -/
theorem decode_bytes (seq : UInt32) (m : Message) (r1 r2 : UInt8) : decode m.type (bytes seq m r1 r2) = some m := by
  obtain ⟨n, e, _⟩ := yields_read m r1 r2 { buf := (bytes seq m r1 r2).drop kHeaderSize } [] (by
    rw [bytes, framed_drop, List.append_nil]
    rfl)
  rw [decode_eq, decodeBody, if_pos (bytes_matches seq m r1 r2), e]
  rfl

/-- Every other decoder refuses it. -/
theorem decode_of_not_matches {t : MsgType} {f : List UInt8} (h : ¬ headerMatches f t t.frameLen = true) :
    decode t f = none := by
  rw [decode_eq, decodeBody, if_neg h]

theorem byte_inj {t t' : MsgType} (h : t.byte = t'.byte) : t = t' := by
  revert h
  cases t <;> cases t' <;> decide

theorem decode_other (seq : UInt32) (m : Message) (r1 r2 : UInt8) {t : MsgType} (ht : t ≠ m.type) :
    decode t (bytes seq m r1 r2) = none :=
  decode_of_not_matches fun h => ht (byte_inj (headerMatches_iff.mp h).2.1.symm)

/-! ## Headers -/

theorem peekHeader_framed (t v : UInt8) (len : UInt16) (seq : UInt32) (body : List UInt8) :
    peekHeader (framed t v len seq body) =
      if len.toNat < kHeaderSize ∨ kHeaderSize + body.length < len.toNat then none else some ⟨t, v, len, seq⟩ := by
  have hy : Yields (do return (⟨← Reader.u8, ← Reader.u8, ← Reader.u16, ← Reader.u32⟩ : Header))
      (headerChunks t v len seq).flatten ⟨t, v, len, seq⟩ :=
    (yields_u8 t).bind ((yields_u8 v).bind ((yields_u16 len).bind ((yields_u32 seq).last _)))
  obtain ⟨n, e, _⟩ := hy { buf := framed t v len seq body } body rfl
  unfold peekHeader
  rw [framed_length, if_neg (by omega)]
  simp only
  rw [e]
  show (if ¬ true = true ∨ len.toNat < kHeaderSize then none
    else if kHeaderSize + body.length < len.toNat then none else some _) = _
  by_cases h : len.toNat < kHeaderSize
  · rw [if_pos (Or.inr h), if_pos (Or.inl h)]
  · rw [if_neg (by simp [h])]
    by_cases h' : kHeaderSize + body.length < len.toNat
    · rw [if_pos h', if_pos (Or.inr h')]
    · rw [if_neg h', if_neg (by simp [h, h'])]

theorem peekHeader_short {p : List UInt8} (h : p.length < kHeaderSize) : peekHeader p = none := if_pos h

section
variable {t v : UInt8} {len : UInt16} {seq : UInt32} {body : List UInt8}

/-- A frame as long as it says, with anything after it. -/
theorem peekHeader_whole (hl : len.toNat = kHeaderSize + body.length) (rest : List UInt8) :
    peekHeader (framed t v len seq body ++ rest) = some ⟨t, v, len, seq⟩ := by
  have h : framed t v len seq body ++ rest = framed t v len seq (body ++ rest) := List.append_assoc ..
  rw [h, peekHeader_framed, if_neg]
  rw [List.length_append]
  omega

/-- The same frame cut short. -/
theorem peekHeader_cut (hl : len.toNat = kHeaderSize + body.length) {p : List UInt8}
    (hp : p <+: framed t v len seq body) (hne : p ≠ framed t v len seq body) : peekHeader p = none := by
  obtain ⟨q, hq⟩ := hp
  have hlen := framed_length t v len seq body
  have hq0 : 0 < q.length := by
    refine List.length_pos_iff.mpr fun e => hne ?_
    rw [← hq, e, List.append_nil]
  rcases Nat.lt_or_ge p.length kHeaderSize with hs | hs
  · exact peekHeader_short hs
  · have hh : (headerChunks t v len seq).flatten.length = kHeaderSize := by simp [headerChunks, kHeaderSize]
    -- the header is in `p`, and announces more than `p` has
    obtain ⟨body', hbody⟩ : ∃ body', p = framed t v len seq body' := by
      have hpre : (headerChunks t v len seq).flatten <+: p :=
        List.prefix_of_prefix_length_le (List.prefix_append _ body) ⟨q, hq⟩ (by rw [hh]; exact hs)
      obtain ⟨body', e⟩ := hpre
      exact ⟨body', e.symm⟩
    rw [← hq, List.length_append, hbody, framed_length] at hlen
    rw [hbody, peekHeader_framed, if_pos (Or.inr (by omega))]

end

theorem peekHeader_bytes (seq : UInt32) (m : Message) (r1 r2 : UInt8) (rest : List UInt8) :
    peekHeader (bytes seq m r1 r2 ++ rest) = some ⟨m.type.byte, kVersion, m.type.frameLen, seq⟩ :=
  peekHeader_whole (body_length r1 r2 m).symm rest

theorem peekHeader_prefix (seq : UInt32) (m : Message) (r1 r2 : UInt8) {p : List UInt8}
    (hp : p <+: bytes seq m r1 r2) (hne : p ≠ bytes seq m r1 r2) : peekHeader p = none :=
  peekHeader_cut (body_length r1 r2 m).symm hp hne

/-! ## Every frame of a type is an encoding -/

section
variable {p : List UInt8} {n : Nat}

theorem split_le {k : Nat} (h : p.length = k + n) :
    ∃ v < 2 ^ (8 * k), ∃ q, p = leBytes k v ++ q ∧ q.length = n := by
  have hk : (p.take k).length = k := by
    rw [List.length_take]
    omega
  have hlt := leValue_lt (p.take k)
  have hle := leBytes_leValue (p.take k)
  rw [hk] at hlt hle
  refine ⟨leValue (p.take k), hlt, p.drop k, ?_, ?_⟩
  · rw [hle, List.take_append_drop]
  · rw [List.length_drop]
    omega

theorem split_u8 (h : p.length = 1 + n) : ∃ (v : UInt8) (q : List UInt8), p = [v] ++ q ∧ q.length = n := by
  cases p with
  | nil =>
    rw [List.length_nil] at h
    omega
  | cons v q =>
    rw [List.length_cons] at h
    exact ⟨v, q, rfl, by omega⟩

theorem split_u16 (h : p.length = 2 + n) : ∃ (v : UInt16) (q : List UInt8), p = leBytes 2 v.toNat ++ q ∧ q.length = n := by
  obtain ⟨v, hv, q, e, hq⟩ := split_le h
  exact ⟨UInt16.ofNat v, q, by rw [UInt16.toNat_ofNat_of_lt' hv]; exact e, hq⟩

theorem split_u32 (h : p.length = 4 + n) : ∃ (v : UInt32) (q : List UInt8), p = leBytes 4 v.toNat ++ q ∧ q.length = n := by
  obtain ⟨v, hv, q, e, hq⟩ := split_le h
  exact ⟨UInt32.ofNat v, q, by rw [UInt32.toNat_ofNat_of_lt' hv]; exact e, hq⟩

theorem split_u64 (h : p.length = 8 + n) : ∃ (v : UInt64) (q : List UInt8), p = leBytes 8 v.toNat ++ q ∧ q.length = n := by
  obtain ⟨v, hv, q, e, hq⟩ := split_le h
  exact ⟨UInt64.ofNat v, q, by rw [UInt64.toNat_ofNat_of_lt' hv]; exact e, hq⟩

theorem split_i64 (h : p.length = 8 + n) :
    ∃ (v : Int64) (q : List UInt8), p = leBytes 8 v.toUInt64.toNat ++ q ∧ q.length = n := by
  obtain ⟨v, q, e, hq⟩ := split_u64 h
  exact ⟨v.toInt64, q, e, hq⟩

theorem split_end (h : p.length = 0) : p = [] := List.eq_nil_of_length_eq_zero h

end

/-- Bytes of a body's length are the body of some message. -/
theorem body_of_length (t : MsgType) {p : List UInt8} (h : kHeaderSize + p.length = t.frameLen.toNat) :
    ∃ (m : Message) (r1 r2 : UInt8), m.type = t ∧ p = m.body r1 r2 := by
  cases t with
  | newOrder =>
    obtain ⟨orderId, p, rfl, h1⟩ := split_u64 (n := 32) (Nat.add_left_cancel h)
    obtain ⟨clientId, p, rfl, h2⟩ := split_u32 (n := 28) h1
    obtain ⟨side, p, rfl, h3⟩ := split_u8 (n := 27) h2
    obtain ⟨type, p, rfl, h4⟩ := split_u8 (n := 26) h3
    obtain ⟨r1, p, rfl, h5⟩ := split_u8 (n := 25) h4
    obtain ⟨r2, p, rfl, h6⟩ := split_u8 (n := 24) h5
    obtain ⟨price, p, rfl, h7⟩ := split_i64 (n := 16) h6
    obtain ⟨quantity, p, rfl, h8⟩ := split_u64 (n := 8) h7
    obtain ⟨tsClient, p, rfl, h9⟩ := split_u64 (n := 0) h8
    obtain rfl := split_end h9
    exact ⟨.newOrder ⟨orderId, clientId, side, type, price, quantity, tsClient⟩, r1, r2, rfl, rfl⟩
  | cancelOrder =>
    obtain ⟨orderId, p, rfl, h1⟩ := split_u64 (n := 12) (Nat.add_left_cancel h)
    obtain ⟨clientId, p, rfl, h2⟩ := split_u32 (n := 8) h1
    obtain ⟨tsClient, p, rfl, h3⟩ := split_u64 (n := 0) h2
    obtain rfl := split_end h3
    exact ⟨.cancelOrder ⟨orderId, clientId, tsClient⟩, 0, 0, rfl, rfl⟩
  | modifyOrder =>
    obtain ⟨orderId, p, rfl, h1⟩ := split_u64 (n := 28) (Nat.add_left_cancel h)
    obtain ⟨clientId, p, rfl, h2⟩ := split_u32 (n := 24) h1
    obtain ⟨price, p, rfl, h3⟩ := split_i64 (n := 16) h2
    obtain ⟨quantity, p, rfl, h4⟩ := split_u64 (n := 8) h3
    obtain ⟨tsClient, p, rfl, h5⟩ := split_u64 (n := 0) h4
    obtain rfl := split_end h5
    exact ⟨.modifyOrder ⟨orderId, clientId, price, quantity, tsClient⟩, 0, 0, rfl, rfl⟩
  | execReport =>
    obtain ⟨orderId, p, rfl, h1⟩ := split_u64 (n := 56) (Nat.add_left_cancel h)
    obtain ⟨contraId, p, rfl, h2⟩ := split_u64 (n := 48) h1
    obtain ⟨clientId, p, rfl, h3⟩ := split_u32 (n := 44) h2
    obtain ⟨event, p, rfl, h4⟩ := split_u8 (n := 43) h3
    obtain ⟨side, p, rfl, h5⟩ := split_u8 (n := 42) h4
    obtain ⟨reason, p, rfl, h6⟩ := split_u8 (n := 41) h5
    obtain ⟨flags, p, rfl, h7⟩ := split_u8 (n := 40) h6
    obtain ⟨price, p, rfl, h8⟩ := split_i64 (n := 32) h7
    obtain ⟨quantity, p, rfl, h9⟩ := split_u64 (n := 24) h8
    obtain ⟨leaves, p, rfl, h10⟩ := split_u64 (n := 16) h9
    obtain ⟨tsClient, p, rfl, h11⟩ := split_u64 (n := 8) h10
    obtain ⟨tsEngine, p, rfl, h12⟩ := split_u64 (n := 0) h11
    obtain rfl := split_end h12
    exact ⟨.execReport ⟨orderId, contraId, clientId, event, side, reason, flags, price, quantity, leaves, tsClient,
      tsEngine⟩, 0, 0, rfl, rfl⟩
  | mdTrade =>
    obtain ⟨streamSeq, p, rfl, h1⟩ := split_u64 (n := 25) (Nat.add_left_cancel h)
    obtain ⟨price, p, rfl, h2⟩ := split_i64 (n := 17) h1
    obtain ⟨quantity, p, rfl, h3⟩ := split_u64 (n := 9) h2
    obtain ⟨aggressor, p, rfl, h4⟩ := split_u8 (n := 8) h3
    obtain ⟨tsEngine, p, rfl, h5⟩ := split_u64 (n := 0) h4
    obtain rfl := split_end h5
    exact ⟨.mdTrade ⟨streamSeq, price, quantity, aggressor, tsEngine⟩, 0, 0, rfl, rfl⟩
  | mdBookChange =>
    obtain ⟨streamSeq, p, rfl, h1⟩ := split_u64 (n := 40) (Nat.add_left_cancel h)
    obtain ⟨bidPx, p, rfl, h2⟩ := split_i64 (n := 32) h1
    obtain ⟨bidQty, p, rfl, h3⟩ := split_u64 (n := 24) h2
    obtain ⟨askPx, p, rfl, h4⟩ := split_i64 (n := 16) h3
    obtain ⟨askQty, p, rfl, h5⟩ := split_u64 (n := 8) h4
    obtain ⟨tsEngine, p, rfl, h6⟩ := split_u64 (n := 0) h5
    obtain rfl := split_end h6
    exact ⟨.mdBookChange ⟨streamSeq, bidPx, bidQty, askPx, askQty, tsEngine⟩, 0, 0, rfl, rfl⟩
  | mdHeartbeat =>
    obtain ⟨streamSeq, p, rfl, h1⟩ := split_u64 (n := 8) (Nat.add_left_cancel h)
    obtain ⟨tsEngine, p, rfl, h2⟩ := split_u64 (n := 0) h1
    obtain rfl := split_end h2
    exact ⟨.mdHeartbeat ⟨streamSeq, tsEngine⟩, 0, 0, rfl, rfl⟩

/-- Bytes of a header's length at least are a header and a body. -/
theorem framed_of_length {f : List UInt8} (h : kHeaderSize ≤ f.length) :
    ∃ t v len seq body, f = framed t v len seq body := by
  obtain ⟨n, hn⟩ := Nat.exists_eq_add_of_le h
  unfold kHeaderSize at hn
  obtain ⟨t, p1, e1, h1⟩ := split_u8 (p := f) (n := 7 + n) (by omega)
  obtain ⟨v, p2, e2, h2⟩ := split_u8 (p := p1) (n := 6 + n) (by omega)
  obtain ⟨len, p3, e3, h3⟩ := split_u16 (p := p2) (n := 4 + n) (by omega)
  obtain ⟨seq, body, e4, _⟩ := split_u32 (p := p3) (n := n) (by omega)
  exact ⟨t, v, len, seq, body, by rw [e1, e2, e3, e4]; rfl⟩

/-- What a complete frame's header says. -/
theorem peekHeader_some {f : List UInt8} {h : Header} (e : peekHeader f = some h) :
    ∃ body, f = framed h.type h.version h.length h.seq body ∧ kHeaderSize ≤ h.length.toNat ∧ h.length.toNat ≤ f.length := by
  rcases Nat.lt_or_ge f.length kHeaderSize with hs | hs
  · rw [peekHeader_short hs] at e
    cases e
  · obtain ⟨t, v, len, seq, body, rfl⟩ := framed_of_length hs
    rw [peekHeader_framed] at e
    by_cases hc : len.toNat < kHeaderSize ∨ kHeaderSize + body.length < len.toNat
    · rw [if_pos hc] at e
      cases e
    · rw [if_neg hc] at e
      cases e
      refine ⟨body, rfl, ?_, ?_⟩
      · show kHeaderSize ≤ len.toNat
        omega
      · rw [framed_length]
        show len.toNat ≤ _
        omega

/-- A complete frame that matches a type is that type's encoding of some message. -/
theorem bytes_of_matches {f : List UInt8} {h : Header} {t : MsgType} (e : peekHeader f = some h)
    (hl : h.length.toNat = f.length) (hm : headerMatches f t t.frameLen = true) :
    ∃ (m : Message) (r1 r2 : UInt8), m.type = t ∧ f = bytes h.seq m r1 r2 := by
  obtain ⟨body, hf, _⟩ := peekHeader_some e
  obtain ⟨hlen, htype, hver⟩ := headerMatches_iff.mp hm
  have hbody : kHeaderSize + body.length = t.frameLen.toNat := by rw [← hlen, hf, framed_length]
  have hl' : h.length = t.frameLen := UInt16.toNat_inj.mp (hl.trans hlen)
  obtain ⟨m, r1, r2, rfl, rfl⟩ := body_of_length t hbody
  rw [hf] at htype hver
  refine ⟨m, r1, r2, rfl, ?_⟩
  rw [hf, hl', (framed_type ..).1.symm.trans htype, (framed_type ..).2.symm.trans hver]
  rfl

end Lob.Wire
