/-
  Lob.Laws.Wire — what a frame is to its decoders.

  - `wire_roundtrip`: an encoder writes a whole frame or answers 0, stays inside its
    buffer, and its frame is read back by `peekHeader` and by its own decoder only.
  - `decode_exact_iff`: the converse. A decoder accepts exactly the encodings of
    well-formed messages as long as the enumerations in the frame are declared ones; it
    does not look at them, so a frame with any other byte there is accepted as well.
-/

import Lob.Wire.CodecProofs

namespace Lob.Wire

open Lob.Base.LittleEndian

/-! ## Round trip -/

/-- What `f` is to a reader when it is the frame of `m`. -/
structure Reads (seq : UInt32) (m : Message) (f : List UInt8) : Prop where
  peek : ∀ rest, peekHeader (f ++ rest) = some ⟨m.type.byte, kVersion, m.type.frameLen, seq⟩
  cut : ∀ p, p <+: f → p ≠ f → peekHeader p = none
  own : decode m.type f = some m
  others : ∀ t, t ≠ m.type → decode t f = none

theorem reads_bytes (seq : UInt32) (m : Message) : Reads seq m (bytes seq m 0 0) where
  peek rest := peekHeader_bytes seq m 0 0 rest
  cut _ hp hne := peekHeader_prefix seq m 0 0 hp hne
  own := decode_bytes seq m 0 0
  others _ ht := decode_other seq m 0 0 ht

theorem encode_beyond (out : Nat → UInt8) (cap : Nat) (seq : UInt32) (m : Message) {i : Nat} (hi : cap ≤ i) :
    (encode out cap seq m).1 i = out i := by
  rw [encode_eq]
  exact Writer.puts_beyond ⟨out, cap, 0, true⟩ _ (Nat.zero_le cap) hi

theorem wire_roundtrip (out : Nat → UInt8) (cap : Nat) (seq : UInt32) (m : Message) :
    (encode out cap seq m).2 = (if m.type.frameLen.toNat ≤ cap then m.type.frameLen.toNat else 0) ∧
    (∀ i, cap ≤ i → (encode out cap seq m).1 i = out i) ∧
    (m.type.frameLen.toNat ≤ cap →
      Reads seq m ((List.range m.type.frameLen.toNat).map (encode out cap seq m).1)) := by
  refine ⟨?_, fun i hi => encode_beyond out cap seq m hi, fun hcap => ?_⟩
  · by_cases hcap : m.type.frameLen.toNat ≤ cap
    · rw [if_pos hcap, encode_fit out seq m hcap]
    · rw [if_neg hcap]
      exact encode_short out seq m (by omega)
  · have hf : (List.range m.type.frameLen.toNat).map (encode out cap seq m).1 = bytes seq m 0 0 := by
      rw [encode_fit out seq m hcap, ← bytes_length seq m 0 0]
      exact range_overwrite _ _
    rw [hf]
    exact reads_bytes seq m

/-! ## The image of the encoders -/

/-- Every enumeration of the message is a declared one. -/
def Message.WellFormed : Message → Prop
  | .newOrder m => (sideOf m.side).isSome ∧ (orderTypeOf m.type).isSome
  | .execReport m => (eventTypeOf m.event).isSome ∧ (sideOf m.side).isSome ∧ (rejectReasonOf m.reason).isSome
  | .mdTrade m => (sideOf m.aggressor).isSome
  | _ => True

/-- `f` is `g` except at the bytes a NewOrder reserves. -/
def SameFrame (f g : List UInt8) : MsgType → Prop
  | .newOrder => ∃ r1 r2, f = (g.set 22 r1).set 23 r2
  | _ => f = g

/-- `f` is the encoding of the well-formed message `m`. -/
structure Image (t : MsgType) (seq : UInt32) (f : List UInt8) (m : Message) : Prop where
  type : m.type = t
  wellFormed : m.WellFormed
  same : SameFrame f (frame seq m) t

/-- The decoder of `t` accepts `f` exactly when it is such an encoding, and gives the message back. -/
structure Exact (t : MsgType) (seq : UInt32) (f : List UInt8) : Prop where
  accepts : (decode t f).isSome ↔ ∃ m, Image t seq f m
  gives : ∀ m, Image t seq f m → decode t f = some m
  enumerated : ∀ m, decode t f = some m → m.WellFormed

/-- Where a type's frame holds an enumeration, and which bytes are declared there. -/
def MsgType.enums : MsgType → List (Nat × (UInt8 → Bool))
  | .newOrder => [(20, fun b => (sideOf b).isSome), (21, fun b => (orderTypeOf b).isSome)]
  | .execReport => [(28, fun b => (eventTypeOf b).isSome), (29, fun b => (sideOf b).isSome),
      (30, fun b => (rejectReasonOf b).isSome)]
  | .mdTrade => [(32, fun b => (sideOf b).isSome)]
  | _ => []

/-- A frame of type `t` holds declared enumerations only. -/
def Declared (t : MsgType) (f : List UInt8) : Prop :=
  headerMatches f t t.frameLen = true → ∀ e ∈ t.enums, e.2 (f.getD e.1 0) = true

instance (t : MsgType) (f : List UInt8) : Decidable (Declared t f) :=
  inferInstanceAs (Decidable (_ → _))

theorem declared_bytes (seq : UInt32) (m : Message) (r1 r2 : UInt8) :
    Declared m.type (bytes seq m r1 r2) ↔ m.WellFormed := by
  have henums : Declared m.type (bytes seq m r1 r2) ↔ ∀ e ∈ m.type.enums, e.2 ((bytes seq m r1 r2).getD e.1 0) = true :=
    ⟨fun h => h (bytes_matches seq m r1 r2), fun h _ => h⟩
  rw [henums]
  cases m with
  | newOrder m => exact List.forall_mem_cons.trans (and_congr Iff.rfl List.forall_mem_singleton)
  | execReport m =>
    exact List.forall_mem_cons.trans (and_congr Iff.rfl (List.forall_mem_cons.trans
      (and_congr Iff.rfl List.forall_mem_singleton)))
  | mdTrade m => exact List.forall_mem_singleton
  | cancelOrder m => exact iff_of_true (List.forall_mem_nil _) trivial
  | modifyOrder m => exact iff_of_true (List.forall_mem_nil _) trivial
  | mdBookChange m => exact iff_of_true (List.forall_mem_nil _) trivial
  | mdHeartbeat m => exact iff_of_true (List.forall_mem_nil _) trivial

/-- The encodings of a message are its frame with the reserved bytes set. -/
theorem sameFrame_iff (seq : UInt32) (m : Message) (f : List UInt8) :
    SameFrame f (frame seq m) m.type ↔ ∃ r1 r2, f = bytes seq m r1 r2 := by
  rw [frame_eq]
  cases m with
  | newOrder m => rfl
  | cancelOrder m => exact ((exists_const UInt8).trans (exists_const UInt8)).symm
  | modifyOrder m => exact ((exists_const UInt8).trans (exists_const UInt8)).symm
  | execReport m => exact ((exists_const UInt8).trans (exists_const UInt8)).symm
  | mdTrade m => exact ((exists_const UInt8).trans (exists_const UInt8)).symm
  | mdBookChange m => exact ((exists_const UInt8).trans (exists_const UInt8)).symm
  | mdHeartbeat m => exact ((exists_const UInt8).trans (exists_const UInt8)).symm

theorem Image.decode {t : MsgType} {seq : UInt32} {f : List UInt8} {m : Message} (h : Image t seq f m) :
    headerMatches f t t.frameLen = true ∧ decode t f = some m := by
  obtain ⟨rfl, _, hsame⟩ := h
  obtain ⟨r1, r2, rfl⟩ := (sameFrame_iff seq m f).mp hsame
  exact ⟨bytes_matches seq m r1 r2, decode_bytes seq m r1 r2⟩

/-- Decoders accept exactly the encoders' image on the frames whose enumerations are declared. -/
theorem decode_exact_iff (t : MsgType) (f : List UInt8) (h : Header) (hp : peekHeader f = some h)
    (hl : h.length.toNat = f.length) : Exact t h.seq f ↔ Declared t f := by
  by_cases hm : headerMatches f t t.frameLen = true
  · obtain ⟨m, r1, r2, rfl, rfl⟩ := bytes_of_matches hp hl hm
    have hown := decode_bytes h.seq m r1 r2
    rw [declared_bytes]
    constructor
    · intro hx
      exact hx.enumerated m hown
    · intro hwf
      have himage : Image m.type h.seq (bytes h.seq m r1 r2) m := ⟨rfl, hwf, (sameFrame_iff ..).mpr ⟨r1, r2, rfl⟩⟩
      refine ⟨iff_of_true ?_ ⟨m, himage⟩, fun m' h' => h'.decode.2, fun m' h' => ?_⟩
      · rw [hown]
        rfl
      · obtain rfl := Option.some.inj (hown.symm.trans h')
        exact hwf
  · -- a frame that is not of this type is refused, and is no encoding of it
    have hnone := decode_of_not_matches hm
    refine iff_of_true ⟨iff_of_false ?_ ?_, fun m' h' => absurd h'.decode.1 hm, fun m' h' => ?_⟩ (fun h' => absurd h' hm)
    · rw [hnone]
      exact Bool.false_ne_true
    · rintro ⟨m', h'⟩
      exact hm h'.decode.1
    · rw [hnone] at h'
      cases h'

/-- An IOC sell of 5 at 100, and the same frame with 2 for its side. -/
def iocSell (side : UInt8) : Message := .newOrder ⟨77, 9, side, OrderType.byte .ioc, 100, 5, 0⟩

theorem decode_exact_ioc : Exact .newOrder 3 (frame 3 (iocSell (Side.byte .sell))) :=
  (decode_exact_iff .newOrder _ ⟨1, 1, 48, 3⟩ (by decide +kernel) (by decide +kernel)).mpr (by decide +kernel)

theorem undeclared_side_accepted :
    ¬ ∀ (t : MsgType) (f : List UInt8) (h : Header), peekHeader f = some h → h.length.toNat = f.length →
      Exact t h.seq f := by
  intro hall
  have hx := hall .newOrder (frame 3 (iocSell 2)) ⟨1, 1, 48, 3⟩ (by decide +kernel) (by decide +kernel)
  have hown : decode .newOrder (frame 3 (iocSell 2)) = some (iocSell 2) := by decide +kernel
  have hwf := hx.enumerated _ hown
  exact absurd hwf.1 (by decide)

end Lob.Wire
