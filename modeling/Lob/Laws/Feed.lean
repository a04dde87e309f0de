/-
  Lob.Laws.Feed — what consecutive market-data numbers promise.

  The publisher numbers what it finds in the md ring, and its heartbeats, from 1 on. The
  messages under consecutive numbers are then consecutive in the ring; they are what the
  engine emitted, without a gap, in every history in which no push to the md ring found it
  full (`feed_complete`). The engine does not look at that push, so a message it loses
  takes no number.
-/

import Lob.Book.OrderBook
import Lob.Server.PipelineProofs

namespace Lob

open Wire

/-- The number a receiver goes by. -/
def Datagram.streamSeq (d : Datagram) : UInt64 :=
  match d.message with
  | .mdTrade m => m.streamSeq
  | .mdBookChange m => m.streamSeq
  | .mdHeartbeat m => m.streamSeq
  | _ => 0

/-- The message as it was in the ring; a heartbeat was not. -/
def Datagram.payload (d : Datagram) : Option MdMsg :=
  match d.message with
  | .mdTrade m => some (MdMsg.trade m).unnumbered
  | .mdBookChange m => some (MdMsg.book m).unnumbered
  | _ => none

namespace Pipeline

variable {B : Type} {s s' : Pipeline B}

/-- The numbers are 1, 2, …, and whatever stretch of them is received whole holds a stretch of
    the Trade and BookChanged events emitted, in order and without omission. -/
structure Revealing (s : Pipeline B) : Prop where
  numbers : s.published.map Datagram.streamSeq = (List.range s.published.length).map fun i => UInt64.ofNat (i + 1)
  complete : ∀ a n, ((s.published.drop a).take n).filterMap Datagram.payload <:+: s.emitted.filterMap Event.mdMsg

/-- The move pushes market data to a full ring. -/
def Overflows (s : Pipeline B) : Move → Prop
  | .engine _ => s.core.feeding.isSome = true ∧ s.md.full
  | _ => False

/-! ## The publisher -/

/-- `sent` is what was taken off the ring and published. -/
structure Stream (s : Pipeline B) (sent : List MdMsg) : Prop where
  payload : s.published.filterMap Datagram.payload = if s.udpValid then sent.map MdMsg.unnumbered else []
  numbers : s.published.map Datagram.streamSeq = (List.range s.published.length).map fun i => UInt64.ofNat (i + 1)
  seq : s.udpValid = true → s.seq = UInt64.ofNat s.published.length

theorem Stream.publish {sent : List MdMsg} (h : Stream s sent) (number : UInt64 → Message) (got : Option MdMsg)
    (hn : ∀ q n, Datagram.streamSeq ⟨q, number n⟩ = n) (hp : ∀ q n, Datagram.payload ⟨q, number n⟩ = got.map MdMsg.unnumbered) :
    Stream (s.publish number) (sent ++ got.toList) := by
  cases hu : s.udpValid with
  | false =>
    have e : (s.publish number).published = s.published := if_neg (by rw [hu]; exact Bool.false_ne_true)
    have hpayload := h.payload
    rw [hu] at hpayload
    refine ⟨?_, ?_, fun hu' => absurd (hu.symm.trans hu') Bool.false_ne_true⟩
    · rw [e, hpayload]
      exact (if_neg (by rw [show (s.publish number).udpValid = false from hu]; exact Bool.false_ne_true)).symm
    · rw [e]
      exact h.numbers
  | true =>
    have e : (s.publish number).published = s.published ++ [⟨(s.seq + 1).toUInt32, number (s.seq + 1)⟩] := if_pos hu
    have hseq : s.seq + 1 = UInt64.ofNat (s.published.length + 1) := by
      rw [h.seq hu]
      exact (UInt64.ofNat_add ..).symm
    have hpayload := h.payload
    rw [if_pos hu] at hpayload
    have hlen : (s.publish number).published.length = s.published.length + 1 := by
      rw [e]
      exact List.length_append
    refine ⟨?_, ?_, fun _ => ?_⟩
    · rw [e, List.filterMap_append, hpayload, if_pos (show (s.publish number).udpValid = true from hu), List.map_append]
      congr 1
      rw [List.filterMap_cons, hp]
      cases got <;> rfl
    · rw [hlen, e, List.map_append, h.numbers, List.range_succ, List.map_append, List.map_singleton, List.map_singleton, hn,
        hseq]
    · rw [hlen]
      exact hseq

theorem stamped_streamSeq (m : MdMsg) (q : UInt32) (n : UInt64) : Datagram.streamSeq ⟨q, m.stamped n⟩ = n := by
  cases m <;> rfl

theorem stamped_payload (m : MdMsg) (q : UInt32) (n : UInt64) : Datagram.payload ⟨q, m.stamped n⟩ = some m.unnumbered := by
  cases m <;> rfl

/-- A heartbeat takes a number and carries nothing. -/
theorem Stream.heartbeat {sent : List MdMsg} (h : Stream s sent) (now : TsNanos) :
    Stream (s.publish fun seq => .mdHeartbeat ⟨seq, now⟩) sent := by
  have h' := h.publish (fun seq => .mdHeartbeat ⟨seq, now⟩) none (fun _ _ => rfl) fun _ _ => rfl
  rw [Option.toList_none, List.append_nil] at h'
  exact h'

theorem Stream.publishMd {sent : List MdMsg} (h : Stream s sent) (m : MdMsg) : Stream (s.publishMd m) (sent ++ [m]) := by
  have h' := h.publish m.stamped (some m) (stamped_streamSeq m) (stamped_payload m)
  exact ⟨h'.payload, h'.numbers, h'.seq⟩

/-- A turn of the publisher takes one message at most off the ring, and publishes it. -/
theorem Stream.publisherStep (h : Stream s s.md.taken) (hs : s.md.Sound) (heartbeat : Option TsNanos) :
    Stream (s.publisherStep heartbeat) (s.publisherStep heartbeat).md.taken := by
  obtain ⟨_, _, htaken⟩ := Channel.tryPop_spec hs
  obtain ⟨counters, seq, published, _, e⟩ := publisherStep_frame s heartbeat
  have hmd : (s.publisherStep heartbeat).md.taken = s.md.taken ++ s.md.tryPop.2.toList := by
    rw [e]
    exact htaken
  rw [hmd]
  unfold Pipeline.publisherStep
  rcases s.md.tryPop with ⟨md, got⟩
  have h0 : Stream { s with md := md } s.md.taken := ⟨h.payload, h.numbers, h.seq⟩
  cases got with
  | none =>
    rw [Option.toList_none, List.append_nil]
    cases heartbeat with
    | none => exact h0
    | some now => exact h0.heartbeat now
  | some m =>
    cases heartbeat with
    | none => exact h0.publishMd m
    | some now => exact (h0.publishMd m).heartbeat now

/-! ## The feed -/

structure Feed (s : Pipeline B) : Prop where
  order : s.md.offered.map Prod.fst ++ s.core.messages = s.emitted.filterMap Event.mdMsg
  stream : Stream s s.md.taken

theorem Feed.frame (h : Feed s) (hm : s'.md = s.md) (hc : s'.core.messages = s.core.messages) (he : s'.emitted = s.emitted)
    (hp : s'.published = s.published) (hu : s'.udpValid = s.udpValid) (hq : s'.seq = s.seq) : Feed s' := by
  have horder := h.order
  obtain ⟨hpayload, hnumbers, hseq⟩ := h.stream
  refine ⟨?_, ⟨?_, ?_, ?_⟩⟩
  · rw [hm, hc, he]
    exact horder
  · rw [hp, hu, hm]
    exact hpayload
  · rw [hp]
    exact hnumbers
  · rw [hu, hq, hp]
    exact hseq

theorem Goes.feed (hr : Rings s) (h : Feed s) {m : Move} (hm : Goes s m s') : Feed s' := by
  have horder := h.order
  cases hm with
  | gone => exact h
  | decode => exact h.frame rfl rfl rfl rfl rfl rfl
  | drain => exact h.frame rfl rfl rfl rfl rfl rfl
  | pushed => exact h.frame rfl rfl rfl rfl rfl rfl
  | dropped => exact h.frame rfl rfl rfl rfl rfl rfl
  | spun => exact h.frame rfl rfl rfl rfl rfl rfl
  | popped => exact h.frame rfl rfl rfl rfl rfl rfl
  | starved => exact h.frame rfl rfl rfl rfl rfl rfl
  | processed _ _ engine _ hc =>
    rw [hc] at horder
    refine ⟨?_, h.stream.payload, h.stream.numbers, h.stream.seq⟩
    show _ = (s.emitted ++ engine.out).filterMap Event.mdMsg
    rw [List.filterMap_append, ← horder]
    exact congrArg (· ++ engine.out.filterMap Event.mdMsg) (List.append_nil _).symm
  | finished _ hc => exact h.frame rfl (by rw [hc]; rfl) rfl rfl rfl rfl
  | reporting _ e events _ hc _ _ hnone =>
    refine h.frame rfl ?_ rfl rfl rfl rfl
    rw [hc]
    exact (List.filterMap_cons_none hnone).symm
  | fed _ e msg events _ hc _ _ hsome =>
    obtain ⟨_, htaken, hoffered⟩ := Channel.offer_cases hr.md msg
    rw [hc] at horder
    refine ⟨?_, ?_, h.stream.numbers, h.stream.seq⟩
    · show (s.md.offer msg).offered.map Prod.fst ++ events.filterMap Event.mdMsg = _
      rw [hoffered, List.map_append, List.append_assoc, ← horder]
      exact congrArg (_ ++ ·) (List.filterMap_cons_some hsome).symm
    · show _ = if s.udpValid then (s.md.offer msg).taken.map MdMsg.unnumbered else []
      rw [htaken]
      exact h.stream.payload
  | reported _ _ _ _ _ hc => exact h.frame rfl (by rw [hc]; rfl) rfl rfl rfl rfl
  | lost _ _ _ _ _ hc => exact h.frame rfl (by rw [hc]; rfl) rfl rfl rfl rfl
  | retried _ _ _ _ _ hc => exact h.frame rfl (by rw [hc]; rfl) rfl rfl rfl rfl
  | published heartbeat =>
    refine ⟨?_, h.stream.publisherStep hr.md heartbeat⟩
    obtain ⟨counters, seq, published, _, e⟩ := publisherStep_frame s heartbeat
    rw [e]
    show s.md.tryPop.1.offered.map Prod.fst ++ _ = _
    rw [(Channel.tryPop_spec hr.md).2.1]
    exact horder

theorem not_overflows (hc : s.core.feeding = none) (now : TsNanos) : ¬ Overflows s (.engine now) := by
  intro h
  have hsome := h.1
  rw [hc] at hsome
  cases hsome

/-- Market data is dropped where a push finds the ring full, and nowhere else. -/
theorem Goes.md_drops (hr : Rings s) {m : Move} (hm : Goes s m s') :
    s'.md.offered.drops = [] ↔ s.md.offered.drops = [] ∧ ¬ Overflows s m := by
  cases hm with
  | gone => exact keeps_iff not_false Iff.rfl
  | decode => exact keeps_iff not_false Iff.rfl
  | drain => exact keeps_iff not_false Iff.rfl
  | pushed => exact keeps_iff not_false Iff.rfl
  | dropped => exact keeps_iff not_false Iff.rfl
  | spun => exact keeps_iff not_false Iff.rfl
  | popped => exact keeps_iff not_false Iff.rfl
  | starved now _ hc => exact keeps_iff (not_overflows (by rw [hc]; rfl) now) Iff.rfl
  | processed now _ _ _ hc => exact keeps_iff (not_overflows (by rw [hc]; rfl) now) Iff.rfl
  | finished now hc => exact keeps_iff (not_overflows (by rw [hc]; rfl) now) Iff.rfl
  | reporting now _ _ _ hc _ _ hnone => exact keeps_iff (not_overflows (by rw [hc]; exact hnone) now) Iff.rfl
  | reported now _ _ _ _ hc => exact keeps_iff (not_overflows (by rw [hc]; rfl) now) Iff.rfl
  | lost now _ _ _ _ hc => exact keeps_iff (not_overflows (by rw [hc]; rfl) now) Iff.rfl
  | retried now _ _ _ _ hc => exact keeps_iff (not_overflows (by rw [hc]; rfl) now) Iff.rfl
  | fed now e msg events _ hc _ _ hsome =>
    obtain ⟨_, _, hoffered⟩ := Channel.offer_cases hr.md msg
    show (s.md.offer msg).offered.drops = [] ↔ _
    rw [hoffered]
    by_cases hf : s.md.full
    · rw [if_pos hf, Offers.drops_dropped]
      refine iff_of_false (List.append_ne_nil_of_right_ne_nil _ (List.cons_ne_nil _ _)) fun h => h.2 ⟨?_, hf⟩
      rw [hc]
      exact Option.isSome_iff_exists.mpr ⟨msg, hsome⟩
    · rw [if_neg hf, Offers.drops_kept]
      exact keeps_iff (fun h => hf h.2) Iff.rfl
  | published heartbeat =>
    obtain ⟨counters, seq, published, _, e⟩ := publisherStep_frame s heartbeat
    refine keeps_iff not_false ?_
    rw [e]
    show s.md.tryPop.1.offered.drops = [] ↔ _
    rw [(Channel.tryPop_spec hr.md).2.1]

theorem mdMsg_unnumbered (events : List Event) :
    (events.filterMap Event.mdMsg).map MdMsg.unnumbered = events.filterMap Event.mdMsg := by
  rw [List.map_filterMap]
  refine congrArg (List.filterMap · events) (funext fun e => ?_)
  unfold Event.mdMsg
  cases e.type <;> rfl

/-- With nothing dropped, what is published is the start of what is emitted. -/
theorem Feed.complete (h : Feed s) (hs : s.md.Sound) (hd : s.md.offered.drops = []) : Revealing s := by
  refine ⟨h.stream.numbers, fun a n => ?_⟩
  have hinfix : ((s.published.drop a).take n).filterMap Datagram.payload <:+: s.published.filterMap Datagram.payload :=
    List.IsInfix.filterMap _ ((List.take_prefix n _).isInfix.trans (List.drop_suffix a _).isInfix)
  refine hinfix.trans ?_
  rw [h.stream.payload]
  cases s.udpValid with
  | false => exact List.nil_infix
  | true =>
    -- taken, in the ring, still in the engine's hands
    have horder := h.order
    rw [← Offers.kept_eq hd, ← hs.order, List.append_assoc] at horder
    rw [← mdMsg_unnumbered, ← horder, List.map_append]
    exact (List.prefix_append _ _).isInfix

/-! ## The law -/

variable [Book B]

theorem start_feed {cfg : EngineConfig} {i e m : Nat} {listening udpValid : Bool}
    (h : start cfg i e m listening udpValid = some s) : Feed s ∧ s.md.offered.drops = [] := by
  obtain ⟨engine, _, h⟩ := Option.bind_eq_some_iff.mp h
  cases h
  refine ⟨⟨rfl, ⟨?_, rfl, fun _ => rfl⟩⟩, rfl⟩
  cases udpValid <;> rfl

theorem no_md_drops_iff {s0 : Pipeline B} (hr : Rings s0) (h0 : s0.md.offered.drops = []) {h : List Move}
    (hs : s0.after h = some s) : s.md.offered.drops = [] ↔ Never Overflows s0 h :=
  never_iff (P := fun s => s.md.offered.drops = []) (fun _ _ _ hr hm => hm.md_drops hr) hr h0 hs

/-- Consecutive numbers mean a complete feed as long as no push found the md ring full. -/
theorem feed_complete (cfg : EngineConfig) (inboundRing execRing mdRing : Nat) (listening udpValid : Bool)
    (s0 : Pipeline B) (h0 : start cfg inboundRing execRing mdRing listening udpValid = some s0) (h : List Move)
    (s : Pipeline B) (hs : s0.after h = some s) (hn : Never Overflows s0 h) : Revealing s := by
  obtain ⟨hfeed0, hd0⟩ := start_feed h0
  obtain ⟨hrings, hfeed⟩ := after_inv (P := Feed) (fun _ _ _ hr hp hm => hm.feed hr hp) (start_rings h0) hfeed0 hs
  exact hfeed.complete hrings.md ((no_md_drops_iff (start_rings h0) hd0 hs).mpr hn)

/-! ## A lost message -/

/-- An offer is decoded and taken, its report pushed, and its BookChanged offered to the md
    ring. -/
def ask (id : OrderId) (price : Int64) : List Move :=
  [.engine 0, .engine 0, .engine 0, .engine 0, .engine 0, .gateway none,
    .gateway (some (.makeNew id 7 (Side.byte .sell) (OrderType.byte .limit) price 5 0))]

/-- The publisher runs after each offer. -/
def prompt : List Move := .publisher (some 9) :: ask 2 102 ++ .publisher none :: ask 1 103

theorem feed_complete_prompt : ∃ s0 s : Pipeline OrderBook,
    start { minPrice := 1, maxPrice := 500, maxOrders := 4 } 2 8 2 true true = some s0 ∧ s0.after prompt = some s ∧
      s.published.length = 3 ∧ Revealing s := by
  have key : (do
      let s0 ← start (B := OrderBook) { minPrice := 1, maxPrice := 500, maxOrders := 4 } 2 8 2 true true
      let s ← s0.after prompt
      some (decide (s.published.length = 3 ∧ s.md.offered.drops = []))) = some true := by decide +kernel
  obtain ⟨s0, h0, key⟩ := Option.bind_eq_some_iff.mp key
  obtain ⟨s, hs, key⟩ := Option.bind_eq_some_iff.mp key
  simp only [Option.some.injEq, decide_eq_true_eq] at key
  have hn := (no_md_drops_iff (start_rings h0) (start_feed h0).2 hs).mp key.2
  exact ⟨s0, s, h0, hs, key.1, feed_complete _ 2 8 2 true true s0 h0 prompt s hs hn⟩

/-- The publisher runs late, and the ring has room for one: the second BookChanged is gone,
    and the first and the third are numbered 1 and 2. -/
theorem numbers_hide_loss : ¬ ∀ (s0 : Pipeline OrderBook),
    start { minPrice := 1, maxPrice := 500, maxOrders := 4 } 2 8 2 true true = some s0 →
      ∀ (h : List Move) (s : Pipeline OrderBook), s0.after h = some s → Revealing s := by
  intro hall
  have key : (do
      let s0 ← start (B := OrderBook) { minPrice := 1, maxPrice := 500, maxOrders := 4 } 2 8 2 true true
      let s ← s0.after (.publisher none :: ask 3 101 ++ .publisher none :: ask 2 102 ++ ask 1 103)
      some (decide (¬ ((s.published.drop 0).take 2).filterMap Datagram.payload <:+: s.emitted.filterMap Event.mdMsg))) =
      some true := by decide +kernel
  obtain ⟨s0, h0, key⟩ := Option.bind_eq_some_iff.mp key
  obtain ⟨s, hs, key⟩ := Option.bind_eq_some_iff.mp key
  simp only [Option.some.injEq, decide_eq_true_eq] at key
  exact key ((hall s0 h0 _ s hs).complete 0 2)

end Pipeline

end Lob
