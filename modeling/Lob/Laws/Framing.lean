/-
  Lob.Laws.Framing — the gateway's parse loop does not see how the stream was cut.

  A stream of frames, each as long as its header says, arrives in chunks; `serve` parses
  after each. What is pushed is then what the frames hold, in order, whatever the chunks
  (`reassembly`): the loop takes the whole frames off the buffer (`parse_spec`), what
  stays is the start of an unfinished one, and `peekHeader` refuses just that.
-/

import Lob.Server.Gateway
import Lob.Wire.CodecProofs

namespace Lob

open Wire Lob.Base.LittleEndian

/-! ## Frames of a stream -/

/-- A frame at least as long as a header, whose length field is its byte count. -/
def Whole (f : List UInt8) : Prop := kHeaderSize ≤ f.length ∧ leValue ((f.drop 2).take 2) = f.length

instance (f : List UInt8) : Decidable (Whole f) := inferInstanceAs (Decidable (_ ∧ _))

/-- What is left of a stream whose next frames are `todo` when none of them is complete. -/
def Unfinished (part : List UInt8) (todo : List (List UInt8)) : Prop :=
  part = [] ∨ ∃ f todo', todo = f :: todo' ∧ part <+: f ∧ part ≠ f

/-- What a frame asks for: the fields the decoder for its first byte reads, the timestamp aside.
    Only the three requests ask for anything. -/
def accepted (f : List UInt8) : Option RawCommand :=
  if f.getD 0 0 = MsgType.newOrder.byte then
    (decodeNewOrder f).map fun m =>
      { type := .new, id := m.orderId, client := m.clientId, side := m.side, ordType := m.type, price := m.price,
        quantity := m.quantity }
  else if f.getD 0 0 = MsgType.cancelOrder.byte then
    (decodeCancel f).map fun m => { type := .cancel, id := m.orderId, client := m.clientId }
  else if f.getD 0 0 = MsgType.modifyOrder.byte then
    (decodeModify f).map fun m =>
      { type := .modify, id := m.orderId, client := m.clientId, price := m.price, quantity := m.quantity }
  else none

def RawCommand.untimed (c : RawCommand) : RawCommand := { c with tsRecv := 0 }

theorem frameCommand_untimed (ts : TsNanos) (f : List UInt8) :
    (frameCommand ts (f.getD 0 0) f).map RawCommand.untimed = accepted f := by
  simp only [frameCommand, accepted, apply_ite (Option.map RawCommand.untimed), Option.map_map, Option.map_none]
  rfl

theorem Whole.framed {f : List UInt8} (h : Whole f) :
    ∃ t v len seq body, f = framed t v len seq body ∧ len.toNat = kHeaderSize + body.length := by
  obtain ⟨t, v, len, seq, body, rfl⟩ := framed_of_length h.1
  refine ⟨t, v, len, seq, body, rfl, ?_⟩
  have hlen : leValue (leBytes 2 len.toNat) = len.toNat := by
    rw [leValue_leBytes]
    exact Nat.mod_eq_of_lt len.toNat_lt
  rw [← framed_length t v len seq body, ← h.2]
  exact hlen.symm

theorem Whole.peek {f : List UInt8} (h : Whole f) (rest : List UInt8) :
    ∃ hdr, peekHeader (f ++ rest) = some hdr ∧ hdr.length.toNat = f.length ∧ hdr.type = f.getD 0 0 := by
  obtain ⟨t, v, len, seq, body, rfl, hl⟩ := h.framed
  exact ⟨_, peekHeader_whole hl rest, hl.trans (framed_length ..).symm, rfl⟩

theorem Unfinished.peek {part : List UInt8} {todo : List (List UInt8)} (h : Unfinished part todo)
    (hw : ∀ f ∈ todo, Whole f) : peekHeader part = none := by
  obtain rfl | ⟨f, todo', rfl, hp, hne⟩ := h
  · exact peekHeader_short (by decide)
  · obtain ⟨t, v, len, seq, body, rfl, hl⟩ := (hw f List.mem_cons_self).framed
    exact peekHeader_cut hl hp hne

/-- Where a stream stands after the bytes `b` of it. -/
theorem split_frames (frames : List (List UInt8)) {b : List UInt8} (hb : b <+: frames.flatten) :
    ∃ done todo part, frames = done ++ todo ∧ b = done.flatten ++ part ∧ Unfinished part todo := by
  induction frames generalizing b with
  | nil => exact ⟨[], [], [], rfl, List.prefix_nil.mp hb, Or.inl rfl⟩
  | cons f frames ih =>
    rw [List.flatten_cons] at hb
    by_cases hf : f <+: b
    · obtain ⟨b', rfl⟩ := hf
      obtain ⟨done, todo, part, rfl, rfl, hu⟩ := ih ((List.prefix_append_right_inj f).mp hb)
      exact ⟨f :: done, todo, part, rfl, (List.append_assoc ..).symm, hu⟩
    · have hbf : b <+: f := (List.prefix_or_prefix_of_prefix hb (List.prefix_append f _)).resolve_right hf
      refine ⟨[], f :: frames, b, rfl, rfl, Or.inr ⟨f, frames, rfl, hbf, ?_⟩⟩
      rintro rfl
      exact hf (List.prefix_refl b)

theorem length_le_flatten {frames : List (List UInt8)} (h : ∀ f ∈ frames, Whole f) :
    frames.length ≤ frames.flatten.length := by
  induction frames with
  | nil => exact Nat.le_refl 0
  | cons f frames ih =>
    have hf := (h f List.mem_cons_self).1
    have ih := ih fun f' hf' => h f' (List.mem_cons_of_mem f hf')
    unfold kHeaderSize at hf
    rw [List.flatten_cons, List.length_append, List.length_cons]
    omega

/-! ## The parse loop -/

namespace Gateway

/-- The connection at `fd` has `b` buffered. -/
def Buffers (g : Gateway) (fd : Fd) (b : List UInt8) : Prop := (g.conns fd).map (·.inBuf) = some b

variable {g : Gateway} {fd : Fd} {b : List UInt8}

theorem Buffers.inBuf (h : g.Buffers fd b) : g.inBuf fd = b := by
  rw [Gateway.inBuf, h]
  rfl

theorem Buffers.setConn (h : g.Buffers fd b) {f : Conn → Conn} {b' : List UInt8}
    (hf : ∀ c : Conn, c.inBuf = b → (f c).inBuf = b') : (g.setConn fd f).Buffers fd b' := by
  obtain ⟨c, hc, hb⟩ := Option.map_eq_some_iff.mp h
  show ((Function.update g.conns fd ((g.conns fd).map f)) fd).map (·.inBuf) = some b'
  rw [Function.update_self, hc]
  exact congrArg some (hf c hb)

theorem Buffers.command (h : g.Buffers fd b) (cmd : RawCommand) : (g.command fd cmd).Buffers fd b :=
  h.setConn (f := fun c => { c with client := cmd.client }) fun _ hc => hc

/-- What the gateway pushed, timestamps aside. -/
def orders (g : Gateway) : List RawCommand := g.pushed.map RawCommand.untimed

/-- A turn that starts at a whole frame takes it. -/
theorem turn_spec (now : Nat → TsNanos) {inBuf rest f : List UInt8} {off : Nat} (hw : Whole f)
    (hf : inBuf.drop off = f ++ rest) (hg : g.Buffers fd b) :
    ∃ g', g.turn now fd inBuf off = some (g', off + f.length) ∧ g'.Buffers fd b ∧
      g'.orders = g.orders ++ (accepted f).toList := by
  obtain ⟨hdr, hpeek, hlen, htype⟩ := hw.peek rest
  have hcmd := frameCommand_untimed (now g.reads) f
  rw [← htype] at hcmd
  unfold turn
  rw [hf, hpeek, Option.map_some, hlen, List.take_left]
  simp only
  cases hc : frameCommand (now g.reads) hdr.type f with
  | none =>
    refine ⟨_, rfl, hg, ?_⟩
    rw [← hcmd, hc]
    exact (List.append_nil _).symm
  | some cmd =>
    refine ⟨_, rfl, Buffers.command (g := { g with reads := g.reads + 1 }) hg cmd, ?_⟩
    rw [← hcmd, hc]
    exact List.map_append

theorem loop_spec (now : Nat → TsNanos) {inBuf part : List UInt8} {done : List (List UInt8)} (n off : Nat)
    (hw : ∀ f ∈ done, Whole f) (hb : inBuf.drop off = done.flatten ++ part) (hp : peekHeader part = none)
    (hn : done.length ≤ n) (hg : g.Buffers fd b) :
    ∃ g', parseLoop now fd inBuf n g off = (g', off + done.flatten.length) ∧ g'.Buffers fd b ∧
      g'.orders = g.orders ++ done.filterMap accepted := by
  induction done generalizing g n off with
  | nil =>
    refine ⟨g, ?_, hg, (List.append_nil _).symm⟩
    have hbreak : g.turn now fd inBuf off = none := by
      rw [turn, hb]
      show (peekHeader part).map _ = none
      rw [hp]
      rfl
    cases n with
    | zero => rfl
    | succ n =>
      rw [parseLoop, hbreak]
      rfl
  | cons f done ih =>
    cases n with
    | zero => exact absurd hn (Nat.not_succ_le_zero _)
    | succ n =>
      rw [List.flatten_cons, List.append_assoc] at hb
      obtain ⟨g1, hturn, hg1, ho1⟩ := turn_spec now (hw f List.mem_cons_self) hb hg
      have hb1 : inBuf.drop (off + f.length) = done.flatten ++ part := by
        rw [← List.drop_drop, hb, List.drop_left]
      obtain ⟨g2, hloop, hg2, ho2⟩ :=
        ih n (off + f.length) (fun f' hf' => hw f' (List.mem_cons_of_mem f hf')) hb1 (Nat.le_of_succ_le_succ hn) hg1
      refine ⟨g2, ?_, hg2, ?_⟩
      · rw [parseLoop, hturn, List.flatten_cons, List.length_append, ← Nat.add_assoc]
        exact hloop
      · rw [ho2, ho1, List.append_assoc, List.filterMap_cons]
        cases accepted f <;> rfl

/-- What a parse takes off the buffer and what it leaves. -/
theorem parse_spec (now : Nat → TsNanos) {part : List UInt8} {done : List (List UInt8)} (hw : ∀ f ∈ done, Whole f)
    (hp : peekHeader part = none) (hg : g.Buffers fd (done.flatten ++ part)) :
    (g.parse now fd).Buffers fd part ∧ (g.parse now fd).orders = g.orders ++ done.filterMap accepted := by
  have hlen := length_le_flatten hw
  obtain ⟨g', hloop, hg', ho⟩ := loop_spec now (done.flatten ++ part).length 0 hw
    List.drop_zero hp (by rw [List.length_append]; omega) hg
  rw [parse, hg.inBuf, hloop, Nat.zero_add]
  refine ⟨hg'.setConn fun c hc => ?_, ho⟩
  show c.inBuf.drop done.flatten.length = part
  rw [hc, List.drop_left]

/-- The gateway after the chunks, parsed one by one. -/
def feed (g : Gateway) (now : Nat → TsNanos) (fd : Fd) (chunks : List (List UInt8)) : Gateway :=
  chunks.foldl (fun g data => g.serve now fd data false) g

theorem feed_spec (now : Nat → TsNanos) {frames chunks : List (List UInt8)} (hw : ∀ f ∈ frames, Whole f)
    (hu : Unfinished b frames) (hg : g.Buffers fd b) (hcut : b ++ chunks.flatten <+: frames.flatten) :
    ∃ done todo part, frames = done ++ todo ∧ b ++ chunks.flatten = done.flatten ++ part ∧ Unfinished part todo ∧
      (g.feed now fd chunks).Buffers fd part ∧ (g.feed now fd chunks).orders = g.orders ++ done.filterMap accepted := by
  induction chunks generalizing g b frames with
  | nil => exact ⟨[], frames, b, rfl, List.append_nil b, hu, hg, (List.append_nil _).symm⟩
  | cons data chunks ih =>
    rw [List.flatten_cons, ← List.append_assoc] at hcut ⊢
    obtain ⟨done, todo, part, rfl, hb, hpart⟩ := split_frames frames ((List.prefix_append _ _).trans hcut)
    have hw' : ∀ f ∈ todo, Whole f := fun f hf => hw f (List.mem_append_right done hf)
    have hrecv : (g.recv fd data).Buffers fd (done.flatten ++ part) := by
      rw [← hb]
      exact hg.setConn fun c hc => congrArg (· ++ data) hc
    obtain ⟨hg1, ho1⟩ :=
      parse_spec now (fun f hf => hw f (List.mem_append_left todo hf)) (hpart.peek hw') hrecv
    rw [hb, List.append_assoc] at hcut ⊢
    rw [List.flatten_append] at hcut
    obtain ⟨done', todo', part', rfl, hb', hu', hg2, ho2⟩ :=
      ih hw' hpart hg1 ((List.prefix_append_right_inj _).mp hcut)
    refine ⟨done ++ done', todo', part', (List.append_assoc ..).symm, ?_, hu', hg2, ?_⟩
    · rw [hb', List.flatten_append, List.append_assoc]
    · rw [List.filterMap_append, ← List.append_assoc]
      exact ho2.trans (congrArg (· ++ done'.filterMap accepted) ho1)

/-- However a stream of frames is cut, what is pushed is what the whole frames received so far
    hold, and what stays buffered is the start of the unfinished one. -/
theorem reassembly (now : Nat → TsNanos) (g : Gateway) (fd : Fd) (hopen : g.Buffers fd []) (frames : List (List UInt8))
    (hw : ∀ f ∈ frames, Whole f) (chunks : List (List UInt8)) (hcut : chunks.flatten <+: frames.flatten) :
    ∃ done todo part, frames = done ++ todo ∧ chunks.flatten = done.flatten ++ part ∧ Unfinished part todo ∧
      (g.feed now fd chunks).Buffers fd part ∧
      (g.feed now fd chunks).orders = g.orders ++ done.filterMap accepted ∧
      (chunks.flatten = frames.flatten → done = frames ∧ part = []) := by
  obtain ⟨done, todo, part, rfl, hb, hu, hg', ho⟩ := feed_spec now hw (Or.inl rfl) hopen hcut
  refine ⟨done, todo, part, rfl, hb, hu, hg', ho, fun hall => ?_⟩
  have hrest : part = todo.flatten := by
    rw [List.nil_append, hall, List.flatten_append] at hb
    exact (List.append_cancel_left hb).symm
  obtain rfl | ⟨f, todo', rfl, hp, hne⟩ := hu
  · have hlen := length_le_flatten fun f hf => hw f (List.mem_append_right done hf)
    rw [← hrest] at hlen
    have htodo : todo = [] := List.eq_nil_of_length_eq_zero (Nat.le_zero.mp hlen)
    rw [htodo, List.append_nil]
    exact ⟨rfl, rfl⟩
  · -- an unfinished frame is not the rest of the stream
    have hle := hp.length_le
    refine absurd (hp.eq_of_length (Nat.le_antisymm hle ?_)) hne
    rw [hrest, List.flatten_cons, List.length_append]
    omega

/-- A NewOrder, a frame of no known type, a CancelOrder and a NewOrder of another version. -/
def mixed : List (List UInt8) :=
  [frame 1 (.newOrder ⟨77, 9, 1, 0, 100, 5, 0⟩), [99, 1, 9, 0, 0, 0, 0, 0, 7], frame 2 (.cancelOrder ⟨77, 9, 0⟩),
    (frame 3 (.newOrder ⟨78, 9, 0, 0, 100, 5, 0⟩)).set 1 2]

/-- Cut in the first header, and again in the third frame. -/
def mixedChunks : List (List UInt8) := [mixed.flatten.take 5, (mixed.flatten.take 65).drop 5, mixed.flatten.drop 65]

theorem reassembly_mixed :
    ((({} : Gateway).accept 4).feed (fun _ => 6) 4 mixedChunks).orders = [.makeNew 77 9 1 0 100 5 0, .makeCancel 77 9 0] ∧
      ((({} : Gateway).accept 4).feed (fun _ => 6) 4 mixedChunks).Buffers 4 [] := by
  have hall : mixedChunks.flatten = mixed.flatten := by decide +kernel
  obtain ⟨done, todo, part, _, _, _, hbuffers, horders, hend⟩ :=
    reassembly (fun _ => 6) (({} : Gateway).accept 4) 4 rfl mixed (by decide +kernel) mixedChunks (hall ▸ List.prefix_refl _)
  obtain ⟨rfl, rfl⟩ := hend hall
  refine ⟨horders.trans ?_, hbuffers⟩
  decide +kernel

end Gateway

end Lob
