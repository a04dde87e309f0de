/-
  Lob.Laws.Subscriber — what the subscriber's counters say.

  Of the datagrams published some arrive, in any order and any number of times. The
  subscriber's counts of messages, bytes, trades and book changes and its last price are
  those of what arrived (`Counts`). Its gap counter is never below the number of datagrams
  that are missing between the first and the last of those that came, and equals it when
  they came in order; without a gap what came is a stretch of the stream, and of what the
  engine emitted unless a push to the md ring found it full (`subscriber_counts`). The
  numbers are 32 bits wide in the header: all this is for fewer than 2 ^ 32 of them.
-/

import Lob.Base.Gaps
import Lob.Laws.Feed
import Lob.Server.Simulator
import Lob.Wire.CodecProofs

namespace Lob

open Wire Base.Gaps

/-- The bytes sent. -/
def Datagram.bytes (d : Datagram) : List UInt8 := frame d.seq d.message

/-- The price of a trade. -/
def Datagram.tradePx (d : Datagram) : Option Int64 :=
  match d.message with
  | .mdTrade m => some m.price
  | _ => none

namespace Subscriber

variable {s : Subscriber} {d : Datagram} {ds got : List Datagram}

/-! ## Counts -/

/-- The counts are those of `got`. -/
structure Counts (s : Subscriber) (got : List Datagram) : Prop where
  msgs : s.msgs = got.length
  bytes : s.bytes = (got.map fun d => d.bytes.length).sum
  trades : s.trades = (got.filter fun d => d.message.type = .mdTrade).length
  bookChanges : s.bookChanges = (got.filter fun d => d.message.type = .mdBookChange).length
  lastPx : s.lastPx = (got.filterMap Datagram.tradePx).getLastD Int64.minValue

/-- What a message adds to the counts of its datagram. -/
def note (s : Subscriber) : Message → Subscriber
  | .mdTrade m => { s with trades := s.trades + 1, lastPx := m.price }
  | .mdBookChange _ => { s with bookChanges := s.bookChanges + 1 }
  | _ => s

theorem receive_bytes (s : Subscriber) (d : Datagram) : s.receive d.bytes =
    (s.count d.bytes.length ⟨d.message.type.byte, kVersion, d.message.type.frameLen, d.seq⟩).note d.message := by
  have hpeek := peekHeader_bytes d.seq d.message 0 0 []
  have hown := decode_bytes d.seq d.message 0 0
  rw [List.append_nil] at hpeek
  rw [← frame_eq] at hpeek hown
  unfold receive
  rw [Datagram.bytes, hpeek]
  simp only
  generalize frame d.seq d.message = f at hown
  generalize s.count f.length _ = c
  cases hm : d.message with
  | mdTrade m =>
    rw [hm] at hown
    have hdecode : (decodeMdTrade f).map Message.mdTrade = some (.mdTrade m) := hown
    obtain ⟨m', hm', e⟩ := Option.map_eq_some_iff.mp hdecode
    cases e
    refine (if_pos (show MsgType.byte .mdTrade = MsgType.byte .mdTrade from rfl)).trans ?_
    rw [hm']
    rfl
  | mdBookChange m =>
    refine (if_neg (show MsgType.byte .mdBookChange ≠ MsgType.byte .mdTrade by decide)).trans ?_
    exact if_pos (show MsgType.byte .mdBookChange = MsgType.byte .mdBookChange from rfl)
  | _ => rw [if_neg (by simp only [Message.type]; decide), if_neg (by simp only [Message.type]; decide)]; rfl

/-- What a datagram adds to each count. -/
theorem note_frame (s : Subscriber) (m : Message) : (s.note m).msgs = s.msgs ∧ (s.note m).bytes = s.bytes ∧
    (s.note m).gaps = s.gaps ∧ (s.note m).expect = s.expect := by
  cases m <;> exact ⟨rfl, rfl, rfl, rfl⟩

theorem note_counts (s : Subscriber) (d : Datagram) :
    (s.note d.message).trades = s.trades + ([d].filter fun d => d.message.type = .mdTrade).length ∧
    (s.note d.message).bookChanges = s.bookChanges + ([d].filter fun d => d.message.type = .mdBookChange).length ∧
    (s.note d.message).lastPx = d.tradePx.getD s.lastPx := by
  obtain ⟨seq, message⟩ := d
  cases message <;> exact ⟨rfl, rfl, rfl⟩

theorem getLastD_append_toList {α : Type} (xs : List α) (x : Option α) (a : α) :
    (xs ++ x.toList).getLastD a = x.getD (xs.getLastD a) := by
  cases x with
  | none => exact congrArg (List.getLastD · a) (List.append_nil xs)
  | some x => exact List.getLastD_concat ..

theorem Counts.receive (h : Counts s got) (d : Datagram) : Counts (s.receive d.bytes) (got ++ [d]) := by
  obtain ⟨hmsgs, hbytes, htrades, hbook, hpx⟩ := h
  rw [receive_bytes]
  generalize hc : s.count d.bytes.length _ = c
  obtain ⟨fmsgs, fbytes, _, _⟩ := note_frame c d.message
  obtain ⟨ntrades, nbook, npx⟩ := note_counts c d
  subst hc
  refine ⟨?_, ?_, ?_, ?_, ?_⟩
  · rw [fmsgs, List.length_append, ← hmsgs]
    rfl
  · rw [fbytes, List.map_append, List.sum_append, ← hbytes]
    rfl
  · rw [ntrades, List.filter_append, List.length_append, ← htrades]
    rfl
  · rw [nbook, List.filter_append, List.length_append, ← hbook]
    rfl
  · have hone : [d].filterMap Datagram.tradePx = d.tradePx.toList := by
      cases hd : d.tradePx with
      | none => exact List.filterMap_cons_none hd
      | some p => exact List.filterMap_cons_some hd
    rw [npx, List.filterMap_append, hone, getLastD_append_toList, ← hpx]
    rfl

theorem Counts.receiveAll (h : Counts s got) (ds : List Datagram) :
    Counts (s.receiveAll (ds.map Datagram.bytes)) (got ++ ds) := by
  induction ds generalizing s got with
  | nil =>
    rw [List.append_nil]
    exact h
  | cons d ds ih =>
    rw [List.append_cons]
    exact ih (h.receive d)

/-! ## Gaps -/

/-- The datagram that came last was the one at `i`: its number is `i + 1`. -/
def Came (s : Subscriber) (i : Nat) : Prop := s.expect = (UInt32.ofNat (i + 1) + 1).toUInt64

theorem receive_came {i : Nat} (hd : d.seq = UInt32.ofNat (i + 1)) : (s.receive d.bytes).Came i := by
  rw [Came, receive_bytes, (note_frame _ _).2.2.2, ← hd]
  rfl

/-- The first to come leaves no gap. -/
theorem first_gaps (d : Datagram) : (({} : Subscriber).receive d.bytes).gaps = 0 := by
  rw [receive_bytes, (note_frame _ _).2.2.1]
  simp only [count, ne_eq, not_true_eq_false, false_and, if_false]

theorem Came.counted {i j : Nat} (h : s.Came i) (hd : d.seq = UInt32.ofNat (j + 1)) (hi : i + 1 < 2 ^ 32)
    (hj : j + 1 < 2 ^ 32) : (s.receive d.bytes).gaps = s.gaps + (j - (i + 1)) := by
  rw [receive_bytes, (note_frame _ _).2.2.1]
  have hseq : d.seq.toUInt64.toNat = j + 1 := by
    rw [UInt32.toNat_toUInt64, hd, UInt32.toNat_ofNat']
    exact Nat.mod_eq_of_lt hj
  have hexpect : s.expect.toNat = (i + 2) % 2 ^ 32 := by
    rw [h, UInt32.toNat_toUInt64, UInt32.toNat_add, UInt32.toNat_ofNat', Nat.mod_eq_of_lt hi]
    rfl
  have hzero : s.expect = 0 ↔ s.expect.toNat = 0 := by
    rw [← UInt64.toNat_inj]
    rfl
  show (if s.expect ≠ 0 ∧ d.seq.toUInt64 > s.expect then s.gaps + (d.seq.toUInt64 - s.expect).toNat else s.gaps) = _
  by_cases hg : s.expect ≠ 0 ∧ d.seq.toUInt64 > s.expect
  · have hlt := UInt64.lt_iff_toNat_lt.mp hg.2
    have hne := mt hzero.mpr hg.1
    rw [if_pos hg, UInt64.toNat_sub_of_le _ _ (UInt64.le_iff_toNat_le.mpr hlt.le), hseq, hexpect]
    rw [hexpect] at hne
    omega
  · rw [if_neg hg]
    rw [gt_iff_lt, UInt64.lt_iff_toNat_lt, ne_eq, hzero, hseq, hexpect] at hg
    omega

/-- Numbered one beyond their places. -/
abbrev Numbered : List Nat → List Datagram → Prop := List.Forall₂ fun i d => d.seq = UInt32.ofNat (i + 1) ∧ i + 1 < 2 ^ 32

theorem Came.countedAll {i : Nat} {places : List Nat} (h : s.Came i) (hi : i + 1 < 2 ^ 32) (hn : Numbered places ds) :
    (s.receiveAll (ds.map Datagram.bytes)).gaps = s.gaps + Base.Gaps.gaps i places := by
  induction hn generalizing s i with
  | nil => rfl
  | cons hd _ ih =>
    refine (ih (receive_came hd.1) hd.2).trans ?_
    rw [h.counted hd.1 hi hd.2, Base.Gaps.gaps, Nat.add_assoc]

end Subscriber

/-! ## What is published -/

namespace Pipeline

variable {B : Type} {s s' : Pipeline B}

/-- A header bears the low half of the number. -/
def Headed (s : Pipeline B) : Prop := ∀ d ∈ s.published, d.seq = d.streamSeq.toUInt32

theorem Headed.publish (h : Headed s) {number : UInt64 → Message} (hn : ∀ q n, Datagram.streamSeq ⟨q, number n⟩ = n) :
    Headed (s.publish number) := by
  unfold Headed Pipeline.publish
  cases s.udpValid with
  | false => exact h
  | true =>
    intro d hd
    rcases List.mem_append.mp hd with hd | hd
    · exact h d hd
    · rw [List.mem_singleton.mp hd, hn]

theorem Headed.publisherStep (h : Headed s) (heartbeat : Option TsNanos) : Headed (s.publisherStep heartbeat) := by
  unfold Pipeline.publisherStep
  rcases s.md.tryPop with ⟨md, got⟩
  have h0 : Headed { s with md := md } := h
  have h1 : ∀ m, Headed (Pipeline.publishMd { s with md := md } m) := fun m => h0.publish (stamped_streamSeq m)
  cases got with
  | none =>
    cases heartbeat with
    | none => exact h0
    | some now => exact h0.publish fun _ _ => rfl
  | some m =>
    cases heartbeat with
    | none => exact h1 m
    | some now => exact (h1 m).publish fun _ _ => rfl

theorem Goes.headed (h : Headed s) {m : Move} (hm : Goes s m s') : Headed s' := by
  cases hm with
  | published heartbeat => exact h.publisherStep heartbeat
  | _ => exact h

/-- A received place and the number in its header. -/
theorem Headed.numbered (h : Headed s) (hn : s.published.map Datagram.streamSeq =
    (List.range s.published.length).map fun i => UInt64.ofNat (i + 1)) (hlen : s.published.length < 2 ^ 32)
    (places : List (Fin s.published.length)) : Subscriber.Numbered (places.map Fin.val) (places.map s.published.get) := by
  rw [Subscriber.Numbered, List.forall₂_map_left_iff, List.forall₂_map_right_iff, List.forall₂_same]
  intro i _
  refine ⟨?_, by omega⟩
  have hstream : (s.published.get i).streamSeq = UInt64.ofNat (i.val + 1) := by
    have hi := congrArg (·[i.val]?) hn
    simp only [List.getElem?_map, List.getElem?_eq_getElem i.isLt, List.getElem?_range i.isLt] at hi
    exact Option.some.inj hi
  rw [h _ (List.get_mem _ i), hstream, ← UInt32.toNat_inj]
  simp

/-- Consecutive places are a stretch. -/
theorem consecutive_stretch {α : Type} (xs : List α) {a : Nat} (places : List (Fin xs.length))
    (h : places.map Fin.val = List.range' a places.length) : places.map xs.get = (xs.drop a).take places.length := by
  induction places generalizing a with
  | nil => rfl
  | cons p places ih =>
    rw [List.map_cons, List.length_cons, List.range'_succ, List.cons.injEq] at h
    obtain ⟨rfl, hrest⟩ := h
    rw [List.map_cons, List.length_cons, List.drop_eq_getElem_cons p.isLt, List.take_succ_cons, ih hrest]
    rfl

/-! ## The law -/

variable [Book B]

/-- The counters against what arrived of what was published: the datagrams at these places, in
    this order. -/
theorem subscriber_counts (cfg : EngineConfig) (inboundRing execRing mdRing : Nat) (listening udpValid : Bool)
    (s0 : Pipeline B) (h0 : start cfg inboundRing execRing mdRing listening udpValid = some s0) (h : List Move)
    (s : Pipeline B) (hs : s0.after h = some s) (hlen : s.published.length < 2 ^ 32)
    (first : Fin s.published.length) (places : List (Fin s.published.length)) :
    let got := (first :: places).map s.published.get
    let sub := ({} : Subscriber).receiveAll (got.map Datagram.bytes)
    sub.Counts got ∧ (missed first.val (places.map Fin.val)).card ≤ sub.gaps ∧
    ((first :: places).Pairwise (· < ·) → sub.gaps = (missed first.val (places.map Fin.val)).card ∧
      (sub.gaps = 0 → got = (s.published.drop first.val).take got.length ∧
        (Never Overflows s0 h → got.filterMap Datagram.payload <:+: s.emitted.filterMap Event.mdMsg))) := by
  intro got sub
  obtain ⟨hfeed0, hd0⟩ := start_feed h0
  have hheaded0 : Headed s0 := by
    obtain ⟨engine, _, h0⟩ := Option.bind_eq_some_iff.mp h0
    cases h0
    exact fun d hd => nomatch hd
  obtain ⟨hrings, hfeed, hheaded⟩ := after_inv (P := fun s => Feed s ∧ Headed s)
    (fun _ _ _ hr hp hm => ⟨hm.feed hr hp.1, hm.headed hp.2⟩) (start_rings h0) ⟨hfeed0, hheaded0⟩ hs
  have hnumbered := hheaded.numbered hfeed.stream.numbers hlen
  have hgaps : sub.gaps = Base.Gaps.gaps first.val (places.map Fin.val) := by
    obtain ⟨⟨hfirst, hi⟩, -⟩ := List.forall₂_cons.mp (hnumbered [first])
    refine (Subscriber.Came.countedAll (Subscriber.receive_came hfirst) hi (hnumbered places)).trans ?_
    rw [Subscriber.first_gaps, Nat.zero_add]
  have hblank : ({} : Subscriber).Counts [] := ⟨rfl, rfl, rfl, rfl, rfl⟩
  have hcounts : sub.Counts got := hblank.receiveAll got
  refine ⟨hcounts, hgaps ▸ card_missed_le, fun hsorted => ?_⟩
  have hvals : ((first :: places).map Fin.val).Pairwise (· < ·) := List.pairwise_map.mpr hsorted
  refine ⟨hgaps.trans (card_missed hvals).symm, fun hz => ?_⟩
  have hplaces := (gaps_eq_zero_iff hvals).mp (hgaps ▸ hz)
  have hstretch : got = (s.published.drop first.val).take got.length := by
    rw [List.length_map] at hplaces ⊢
    refine consecutive_stretch s.published (first :: places) ?_
    rw [List.map_cons, hplaces, List.length_cons, List.range'_succ]
  refine ⟨hstretch, fun hn => ?_⟩
  rw [hstretch]
  exact (hfeed.complete hrings.md ((no_md_drops_iff (start_rings h0) hd0 hs).mpr hn)).complete _ _

/-- Of the three datagrams of `prompt` the first and the last arrive. -/
theorem subscriber_counts_prompt : ∃ s0 s : Pipeline OrderBook,
    start { minPrice := 1, maxPrice := 500, maxOrders := 4 } 2 8 2 true true = some s0 ∧ s0.after prompt = some s ∧
      ∃ a b : Fin s.published.length,
        (({} : Subscriber).receiveAll (([a, b].map s.published.get).map Datagram.bytes)).gaps = 1 := by
  have key : (do
      let s0 ← start (B := OrderBook) { minPrice := 1, maxPrice := 500, maxOrders := 4 } 2 8 2 true true
      let s ← s0.after prompt
      some (decide (s.published.length = 3))) = some true := by decide +kernel
  obtain ⟨s0, h0, key⟩ := Option.bind_eq_some_iff.mp key
  obtain ⟨s, hs, key⟩ := Option.bind_eq_some_iff.mp key
  simp only [Option.some.injEq, decide_eq_true_eq] at key
  refine ⟨s0, s, h0, hs, ⟨0, by omega⟩, ⟨2, by omega⟩, ?_⟩
  refine ((subscriber_counts _ 2 8 2 true true s0 h0 prompt s hs (by omega) ⟨0, by omega⟩ [⟨2, by omega⟩]).2.2
    (List.pairwise_pair.mpr (Fin.mk_lt_mk.mpr (by decide)))).1.trans ?_
  show (missed 0 [2]).card = 1
  decide

end Pipeline

end Lob
