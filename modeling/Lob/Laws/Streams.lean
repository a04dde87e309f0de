/-
  Lob.Laws.Streams — what each end of a connection takes off its stream.

  The client takes the whole reports off its stream (`pump_spec`), as the gateway takes the
  whole commands off its own (`parseStep_frame`); both leave the start of an unfinished
  frame. What the other threads leave alone of the pipeline is in `Outside`.
-/

import Lob.Laws.Framing
import Lob.Server.Driven
import Lob.Server.Sessions
import Lob.Server.System

namespace Lob

open Wire Lob.Base.LittleEndian

/-! ## Streams of whole frames -/

theorem whole_frame (seq : UInt32) (m : Message) : Whole (frame seq m) := by
  have hlen : leValue (leBytes 2 m.type.frameLen.toNat) = m.type.frameLen.toNat := by
    rw [leValue_leBytes]
    exact Nat.mod_eq_of_lt m.type.frameLen.toNat_lt
  rw [frame_eq]
  refine ⟨?_, ?_⟩
  · rw [bytes_length, ← body_length 0 0 m]
    exact Nat.le_add_right _ _
  · rw [bytes_length]
    exact hlen

theorem Unfinished.more {part : List UInt8} {todo : List (List UInt8)} (h : Unfinished part todo) (more : List (List UInt8)) :
    Unfinished part (todo ++ more) := by
  obtain rfl | ⟨f, todo', rfl, hp, hne⟩ := h
  · exact Or.inl rfl
  · exact Or.inr ⟨f, todo' ++ more, rfl, hp, hne⟩

/-- A start of the stream that is all of it finishes it. -/
theorem Unfinished.all {part : List UInt8} {todo : List (List UInt8)} (h : Unfinished part todo) (hw : ∀ f ∈ todo, Whole f)
    (hall : part = todo.flatten) : todo = [] := by
  obtain rfl | ⟨f, todo', rfl, hp, hne⟩ := h
  · have hlen := length_le_flatten hw
    rw [← hall] at hlen
    exact List.eq_nil_of_length_eq_zero (Nat.le_zero.mp hlen)
  · have hle := hp.length_le
    refine absurd (hp.eq_of_length (Nat.le_antisymm hle ?_)) hne
    rw [hall, List.flatten_cons, List.length_append]
    omega

/-! ## The client -/

namespace FlowClient

def reportFrame (er : ExecReport) : List UInt8 := frame 0 (.execReport er)

variable {s : FlowClient}

/-- Its counters are those of the reports it heard; acks are timed. -/
structure Counted (s : FlowClient) : Prop where
  fills : s.fills = s.heard.countP fun er => er.event = EventType.byte .fill
  rejects : s.rejects = s.heard.countP fun er => er.event = EventType.byte .rejected
  acks : s.acks ≤ s.heard.countP fun er => er.event = EventType.byte .accepted
  timed : s.rtt.count = s.acks

/-- What a report adds to the counters. -/
theorem heed_frame (s : FlowClient) (now : Nat → TsNanos) (er : ExecReport) : ∃ rtt acks rejects fills reads,
    s.heed now er =
      { s with rtt := rtt, acks := acks, rejects := rejects, fills := fills, reads := reads, heard := s.heard ++ [er] } ∧
    fills = s.fills + (if er.event = EventType.byte .fill then 1 else 0) ∧
    rejects = s.rejects + (if er.event = EventType.byte .rejected then 1 else 0) ∧
    acks ≤ s.acks + (if er.event = EventType.byte .accepted then 1 else 0) ∧ rtt.count + s.acks = s.rtt.count + acks := by
  unfold heed
  by_cases ha : er.event = EventType.byte .accepted
  · have hf : er.event ≠ EventType.byte .fill := by rw [ha]; decide
    have hr : er.event ≠ EventType.byte .rejected := by rw [ha]; decide
    simp only [if_pos ha, if_neg hf, if_neg hr]
    cases s.sentAt[er.orderId.toNat]? with
    | none => exact ⟨s.rtt, s.acks, s.rejects, s.fills, s.reads, rfl, rfl, rfl, Nat.le_succ _, rfl⟩
    | some t =>
      by_cases ht : t ≠ 0
      · simp only [if_pos ht]
        exact ⟨_, s.acks + 1, s.rejects, s.fills, s.reads + 1, rfl, rfl, rfl, Nat.le_refl _, Nat.add_right_comm ..⟩
      · simp only [if_neg ht]
        exact ⟨s.rtt, s.acks, s.rejects, s.fills, s.reads, rfl, rfl, rfl, Nat.le_succ _, rfl⟩
  · simp only [if_neg ha]
    by_cases hf : er.event = EventType.byte .fill
    · have hr : er.event ≠ EventType.byte .rejected := by rw [hf]; decide
      simp only [if_pos hf, if_neg hr]
      exact ⟨s.rtt, s.acks, s.rejects, s.fills + 1, s.reads, rfl, rfl, rfl, Nat.le_refl _, rfl⟩
    · simp only [if_neg hf]
      by_cases hr : er.event = EventType.byte .rejected
      · simp only [if_pos hr]
        exact ⟨s.rtt, s.acks, s.rejects + 1, s.fills, s.reads, rfl, rfl, rfl, Nat.le_refl _, rfl⟩
      · simp only [if_neg hr]
        exact ⟨s.rtt, s.acks, s.rejects, s.fills, s.reads, rfl, rfl, rfl, Nat.le_refl _, rfl⟩

theorem Counted.heed (h : Counted s) (now : Nat → TsNanos) (er : ExecReport) : Counted (s.heed now er) := by
  obtain ⟨rtt, acks, rejects, fills, reads, e, hfills, hrejects, hacks, htimed⟩ := heed_frame s now er
  obtain ⟨gfills, grejects, gacks, gtimed⟩ := h
  have hone : ∀ t, [er].countP (fun er => er.event = EventType.byte t) = if er.event = EventType.byte t then 1 else 0 := by
    intro t
    rw [List.countP_singleton]
    simp only [decide_eq_true_eq]
  rw [e]
  refine ⟨?_, ?_, ?_, ?_⟩
  · show fills = (s.heard ++ [er]).countP _
    rw [List.countP_append, hone, hfills, gfills]
  · show rejects = (s.heard ++ [er]).countP _
    rw [List.countP_append, hone, hrejects, grejects]
  · show acks ≤ (s.heard ++ [er]).countP _
    rw [List.countP_append, hone]
    exact hacks.trans (Nat.add_le_add_right gacks _)
  · show rtt.count = acks
    omega

/-- Heeding the reports one by one. -/
def heedAll (s : FlowClient) (now : Nat → TsNanos) (ers : List ExecReport) : FlowClient :=
  ers.foldl (fun s er => s.heed now er) s

theorem heedAll_frame (s : FlowClient) (now : Nat → TsNanos) (ers : List ExecReport) :
    (s.heedAll now ers).heard = s.heard ++ ers ∧ (Counted s → Counted (s.heedAll now ers)) := by
  induction ers generalizing s with
  | nil => exact ⟨(List.append_nil _).symm, id⟩
  | cons er ers ih =>
    obtain ⟨hheard, hcounted⟩ := ih (s.heed now er)
    obtain ⟨_, _, _, _, _, e, _⟩ := heed_frame s now er
    refine ⟨hheard.trans ?_, fun h => hcounted (h.heed now er)⟩
    rw [e]
    exact (List.append_cons ..).symm

/-- A turn that starts at a report takes it. -/
theorem turn_spec (now : Nat → TsNanos) {rx rest : List UInt8} {off : Nat} (er : ExecReport)
    (hrx : rx.drop off = reportFrame er ++ rest) :
    s.turn now rx off = some (s.heed now er, off + (reportFrame er).length) := by
  have hpeek := peekHeader_bytes 0 (.execReport er) 0 0 rest
  have hown : (decodeExecReport (bytes 0 (.execReport er) 0 0)).map Message.execReport = some (.execReport er) :=
    decode_bytes 0 (.execReport er) 0 0
  have hlen := bytes_length 0 (.execReport er) 0 0
  rw [← frame_eq] at hpeek hown hlen
  obtain ⟨er', hdecode, e⟩ := Option.map_eq_some_iff.mp hown
  cases e
  unfold turn
  rw [hrx, reportFrame, hpeek, Option.map_some]
  simp only [← hlen, List.take_left, hdecode]
  exact congrArg (fun s' => some (s', _)) (if_pos rfl)

theorem loop_spec (now : Nat → TsNanos) {rx part : List UInt8} {done : List ExecReport} (n off : Nat)
    (hrx : rx.drop off = (done.map reportFrame).flatten ++ part) (hp : peekHeader part = none) (hn : done.length ≤ n) :
    parseLoop now rx n s off = (s.heedAll now done, off + (done.map reportFrame).flatten.length) := by
  induction done generalizing s n off with
  | nil =>
    have hbreak : s.turn now rx off = none := by
      rw [turn, hrx]
      show (peekHeader part).map _ = none
      rw [hp]
      rfl
    cases n with
    | zero => rfl
    | succ n =>
      rw [parseLoop, hbreak]
      rfl
  | cons er done ih =>
    cases n with
    | zero => exact absurd hn (Nat.not_succ_le_zero _)
    | succ n =>
      rw [List.map_cons, List.flatten_cons, List.append_assoc] at hrx
      have hrx' : rx.drop (off + (reportFrame er).length) = (done.map reportFrame).flatten ++ part := by
        rw [← List.drop_drop, hrx, List.drop_left]
      rw [parseLoop, turn_spec now er hrx]
      simp only
      rw [ih n _ hrx' (Nat.le_of_succ_le_succ hn), List.map_cons, List.flatten_cons, List.length_append, ← Nat.add_assoc]
      rfl

/-- What a pump takes off the stream and what it leaves. -/
theorem pump_spec (now : Nat → TsNanos) {data : List UInt8} {pending : List ExecReport}
    (hcut : s.rx ++ data <+: (pending.map reportFrame).flatten) : ∃ done todo, pending = done ++ todo ∧
      s.rx ++ data = (done.map reportFrame).flatten ++ (s.pump now data).rx ∧
      Unfinished (s.pump now data).rx (todo.map reportFrame) ∧ (s.pump now data).heard = s.heard ++ done ∧
      (Counted s → Counted (s.pump now data)) := by
  obtain ⟨fs, gs, part, hfs, hrx, hu⟩ := split_frames _ hcut
  obtain ⟨done, todo, rfl, rfl, rfl⟩ := List.map_eq_append_iff.mp hfs
  have hwhole : ∀ (ers : List ExecReport), ∀ f ∈ ers.map reportFrame, Whole f := by
    intro ers f hf
    obtain ⟨er, _, rfl⟩ := List.mem_map.mp hf
    exact whole_frame 0 _
  have hlen := length_le_flatten (hwhole done)
  have hloop := loop_spec (s := s) now (s.rx ++ data).length 0 hrx (hu.peek (hwhole todo))
    (by rw [hrx, List.length_append]; rw [List.length_map] at hlen; omega)
  have hpump : s.pump now data = { s.heedAll now done with rx := part } := by
    unfold pump
    simp only [hloop]
    rw [Nat.zero_add, hrx, List.drop_left]
  obtain ⟨hheard, hcounted⟩ := heedAll_frame s now done
  rw [hpump]
  exact ⟨done, todo, rfl, hrx, hu, hheard, fun h => ⟨(hcounted h).fills, (hcounted h).rejects, (hcounted h).acks,
    (hcounted h).timed⟩⟩

end FlowClient

/-! ## The gateway -/

/-- A command as the gateway decodes it, the time aside. -/
def Command.raw (c : Command) : RawCommand :=
  match c.type with
  | .new => .makeNew c.id c.client c.side.byte c.ordType.byte (.ofInt c.price) c.quantity 0
  | .cancel => .makeCancel c.id c.client 0
  | .modify => .makeModify c.id c.client (.ofInt c.price) c.quantity 0

/-- A command as the engine gets it, the time aside: of a cancel or a modify the wire has no
    more, and of a price the low 64 bits. -/
def Command.received (c : Command) : Command :=
  match c.type with
  | .new => .makeNew c.id c.client c.side c.ordType (Int64.ofInt c.price).toInt c.quantity 0
  | .cancel => .makeCancel c.id c.client 0
  | .modify => .makeModify c.id c.client (Int64.ofInt c.price).toInt c.quantity 0

theorem sideOf_byte (s : Side) : sideOf s.byte = some s := by cases s <;> rfl
theorem orderTypeOf_byte (t : OrderType) : orderTypeOf t.byte = some t := by cases t <;> rfl

theorem raw_command (c : Command) : c.raw.command = some c.received := by
  unfold Command.raw Command.received RawCommand.command
  cases c.type with
  | new =>
    show (sideOf c.side.byte).bind _ = _
    rw [sideOf_byte]
    show (orderTypeOf c.ordType.byte).bind _ = _
    rw [orderTypeOf_byte]
    rfl
  | cancel => rfl
  | modify => rfl

/-- The frame of a command sent at `ts`. -/
def commandFrame (x : Command × TsNanos) : List UInt8 := frame 0 (FlowClient.request x.1 x.2)

theorem frameCommand_request (ts : TsNanos) (x : Command × TsNanos) :
    ∃ cmd, frameCommand ts (FlowClient.request x.1 x.2).type.byte (commandFrame x) = some cmd ∧ cmd.untimed = x.1.raw := by
  obtain ⟨c, sent⟩ := x
  have hown := decode_bytes 0 (FlowClient.request c sent) 0 0
  rw [← frame_eq] at hown
  unfold commandFrame frameCommand
  simp only
  generalize frame 0 (FlowClient.request c sent) = f at hown ⊢
  unfold FlowClient.request at hown ⊢
  unfold Command.raw
  cases ht : c.type with
  | new =>
    simp only [ht] at hown ⊢
    have hdecode : (decodeNewOrder f).map Message.newOrder = some (.newOrder _) := hown
    obtain ⟨m, hm, e⟩ := Option.map_eq_some_iff.mp hdecode
    cases e
    exact ⟨_, (if_pos rfl).trans (by rw [hm]; rfl), rfl⟩
  | cancel =>
    simp only [ht] at hown ⊢
    have hdecode : (decodeCancel f).map Message.cancelOrder = some (.cancelOrder _) := hown
    obtain ⟨m, hm, e⟩ := Option.map_eq_some_iff.mp hdecode
    cases e
    refine ⟨.makeCancel c.id c.client ts, ?_, rfl⟩
    refine (if_neg (show MsgType.byte .cancelOrder ≠ MsgType.byte .newOrder by decide)).trans ((if_pos rfl).trans ?_)
    rw [hm]
    rfl
  | modify =>
    simp only [ht] at hown ⊢
    have hdecode : (decodeModify f).map Message.modifyOrder = some (.modifyOrder _) := hown
    obtain ⟨m, hm, e⟩ := Option.map_eq_some_iff.mp hdecode
    cases e
    refine ⟨.makeModify c.id c.client (.ofInt c.price) c.quantity ts, ?_, rfl⟩
    refine (if_neg (show MsgType.byte .modifyOrder ≠ MsgType.byte .newOrder by decide)).trans
      ((if_neg (show MsgType.byte .modifyOrder ≠ MsgType.byte .cancelOrder by decide)).trans ((if_pos rfl).trans ?_))
    rw [hm]
    rfl

namespace Gateway

/-- A turn that starts at the frame of a command decodes it. -/
theorem turn_command (g : Gateway) (now : Nat → TsNanos) (fd : Fd) {inBuf rest : List UInt8} {off : Nat}
    (x : Command × TsNanos) (hb : inBuf.drop off = commandFrame x ++ rest) : ∃ cmd, cmd.untimed = x.1.raw ∧
      g.turn now fd inBuf off = some (({ g with reads := g.reads + 1 } : Gateway).command fd cmd, off + (commandFrame x).length) := by
  have hpeek := peekHeader_bytes 0 (FlowClient.request x.1 x.2) 0 0 rest
  have hlen := bytes_length 0 (FlowClient.request x.1 x.2) 0 0
  rw [← frame_eq] at hpeek hlen
  obtain ⟨cmd, hcmd, hraw⟩ := frameCommand_request (now g.reads) x
  refine ⟨cmd, hraw, ?_⟩
  unfold commandFrame at hb hcmd ⊢
  unfold turn
  rw [hb, hpeek, Option.map_some]
  simp only [← hlen, List.take_left, hcmd]

end Gateway

end Lob
