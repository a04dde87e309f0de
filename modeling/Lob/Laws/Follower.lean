/-
  Lob.Laws.Follower — the best prices a reader of the published stream holds.

  Whatever BookChanged datagrams reach it, in whatever order, the best prices in the last
  of them are those the book had between two commands of the engine's run, drops in the md
  ring included. With none dropped, the ring empty and no message in the engine's hands
  they are the best prices of the engine's book (`follower_holds`).
-/

import Lob.Laws.Feed
import Lob.Laws.TopOfBook
import Lob.Server.Driven

namespace Lob

open Wire

/-- Best prices as the wire has them. -/
def Top.wire (best : Top) : Int64 × Int64 := (.ofInt best.1, .ofInt best.2)

def MdMsg.best : MdMsg → Option (Int64 × Int64)
  | .book m => some (m.bidPx, m.askPx)
  | .trade _ => none

def Datagram.best (d : Datagram) : Option (Int64 × Int64) :=
  match d.message with
  | .mdBookChange m => some (m.bidPx, m.askPx)
  | _ => none

/-- What the reader of `ds` holds. -/
def follow (ds : List Datagram) : Int64 × Int64 := (ds.filterMap Datagram.best).getLastD (Top.wire (kNoPrice, kNoPrice))

theorem Datagram.best_eq (d : Datagram) : d.best = d.payload.bind MdMsg.best := by
  obtain ⟨seq, message⟩ := d
  cases message <;> rfl

theorem MdMsg.best_unnumbered (m : MdMsg) : m.unnumbered.best = m.best := by cases m <;> rfl

/-- The message of an event tells what the event does. -/
theorem Top.seen_wire (best : Top) (ev : Event) : (best.seen ev).wire = (ev.mdMsg.bind MdMsg.best).getD best.wire := by
  unfold Top.seen Event.mdMsg
  cases ev.type <;> rfl

theorem lastTop_wire (best : Top) (log : List Event) :
    (lastTop best log).wire = ((log.filterMap Event.mdMsg).filterMap MdMsg.best).getLastD best.wire := by
  induction log generalizing best with
  | nil => rfl
  | cons ev log ih =>
    show (lastTop (best.seen ev) log).wire = _
    rw [ih, Top.seen_wire]
    cases hm : ev.mdMsg with
    | none =>
      rw [List.filterMap_cons_none hm]
      rfl
    | some m =>
      rw [List.filterMap_cons_some hm, Option.bind_some]
      cases hb : m.best with
      | none =>
        rw [List.filterMap_cons_none hb]
        rfl
      | some b =>
        rw [List.filterMap_cons_some hb, List.getLastD_cons]
        rfl

namespace Pipeline

variable {B : Type} {s : Pipeline B}

theorem Stream.best {sent : List MdMsg} (h : Stream s sent) :
    s.published.filterMap Datagram.best = if s.udpValid then sent.filterMap MdMsg.best else [] := by
  have hbest : s.published.filterMap Datagram.best = (s.published.filterMap Datagram.payload).filterMap MdMsg.best := by
    rw [List.filterMap_filterMap]
    exact congrArg (List.filterMap · _) (funext Datagram.best_eq)
  rw [hbest, h.payload]
  cases s.udpValid with
  | false => rfl
  | true =>
    show (sent.map MdMsg.unnumbered).filterMap MdMsg.best = _
    rw [List.filterMap_map]
    exact congrArg (List.filterMap · _) (funext MdMsg.best_unnumbered)

/-- What is published was emitted. -/
theorem Feed.best_mem (h : Feed s) (hs : s.md.Sound) {b : Int64 × Int64} (hb : b ∈ s.published.filterMap Datagram.best) :
    ∃ ev ∈ s.emitted, ev.mdMsg.bind MdMsg.best = some b := by
  rw [h.stream.best] at hb
  split at hb
  case isFalse => cases hb
  case isTrue =>
    obtain ⟨m, hm, hmb⟩ := List.mem_filterMap.mp hb
    have hkept : m ∈ s.md.offered.kept := by
      rw [← hs.order]
      exact List.mem_append_left _ hm
    obtain ⟨x, hx, e⟩ := List.mem_filterMap.mp hkept
    have hxm : x.1 = m := by
      split at e
      · exact Option.some.inj e
      · cases e
    have hmem : m ∈ s.emitted.filterMap Event.mdMsg := by
      rw [← h.order, ← hxm]
      exact List.mem_append_left _ (List.mem_map_of_mem hx)
    obtain ⟨ev, hev, he⟩ := List.mem_filterMap.mp hmem
    exact ⟨ev, hev, by rw [he]; exact hmb⟩

/-- All of it, when nothing was dropped or is on its way. -/
theorem Feed.best_all (h : Feed s) (hs : s.md.Sound) (hu : s.udpValid = true) (hd : s.md.offered.drops = [])
    (hcore : s.core.messages = []) (hring : s.md.contents = []) :
    s.published.filterMap Datagram.best = (s.emitted.filterMap Event.mdMsg).filterMap MdMsg.best := by
  have horder := h.order
  rw [← Offers.kept_eq hd, ← hs.order, hcore, hring, List.append_nil, List.append_nil] at horder
  rw [h.stream.best, if_pos hu, horder]

/-! ## The law -/

variable [Book B] {s0 : Pipeline B} {cfg : EngineConfig} {i e m : Nat} {listening udpValid : Bool} {h : List Move}

theorem after_udpValid (hr : Rings s0) (hs : s0.after h = some s) : s.udpValid = s0.udpValid := by
  refine (after_inv (P := fun s => s.udpValid = s0.udpValid) (fun s m s' _ hp hm => ?_) hr rfl hs).2
  cases hm with
  | published heartbeat =>
    obtain ⟨_, _, _, _, e⟩ := publisherStep_frame s heartbeat
    rw [e]
    exact hp
  | _ => exact hp

variable [LawfulBook B]

theorem follower_holds (hc : cfg.emitBookChanged = true) (h0 : start cfg i e m listening udpValid = some s0)
    (hs : s0.after h = some s) : ∃ is, Driven s0 s is ∧
      (∀ ds, ds ⊆ s.published → ∃ pre eng, pre <+: is ∧ s0.engine.steps pre = some eng ∧ follow ds = eng.top.wire) ∧
      (udpValid = true → Never Overflows s0 h → s.core.messages = [] → s.md.contents = [] →
        follow s.published = s.engine.top.wire) := by
  obtain ⟨hengine, hd0, hh0⟩ := start_driven h0
  obtain ⟨is, _, hdriven, _⟩ := after_driven hd0 hh0 hs
  obtain ⟨hfeed0, hdrops0⟩ := start_feed h0
  obtain ⟨hrings, hfeed⟩ := after_inv (P := Feed) (fun _ _ _ hr hp hm => hm.feed hr hp) (start_rings h0) hfeed0 hs
  have hsim := init_simulates hengine
  have htop : s0.engine.top = (kNoPrice, kNoPrice) := hsim.top
  obtain ⟨hlast, hpart⟩ := steps_told is s0.engine _ hsim (FlatEngine.Told.init hc _) hdriven.steps
  refine ⟨is, hdriven, fun ds hds => ?_, fun hu hn hcore hring => ?_⟩
  · -- the last book change received, if any, is an event; the run up to it told its prices
    rcases List.eq_nil_or_concat (ds.filterMap Datagram.best) with hnil | ⟨bs, b, hb⟩
    · refine ⟨[], s0.engine, List.nil_prefix, rfl, ?_⟩
      rw [follow, hnil, htop]
      rfl
    · have hmem : b ∈ s.published.filterMap Datagram.best := by
        obtain ⟨d, hd, hdb⟩ := List.mem_filterMap.mp (show b ∈ ds.filterMap Datagram.best by rw [hb]; simp)
        exact List.mem_filterMap.mpr ⟨d, hds hd, hdb⟩
      obtain ⟨ev, hev, hevb⟩ := hfeed.best_mem hrings.md hmem
      rw [hdriven.emitted] at hev
      obtain ⟨log, rest, hlog⟩ := List.append_of_mem hev
      obtain ⟨pre, eng, hpre, heng, hlt⟩ := hpart (log ++ [ev]) ⟨rest, by rw [hlog, List.append_assoc]; rfl⟩
      refine ⟨pre, eng, hpre, heng, ?_⟩
      rw [follow, hb, ← hlt, lastTop_append]
      show _ = ((lastTop s0.engine.top log).seen ev).wire
      rw [Top.seen_wire, hevb, List.concat_eq_append, List.getLastD_concat]
      rfl
  · have hu' : s.udpValid = true := by
      rw [after_udpValid (start_rings h0) hs]
      obtain ⟨engine, _, h0⟩ := Option.bind_eq_some_iff.mp h0
      cases h0
      exact hu
    have hdrops := (no_md_drops_iff (start_rings h0) hdrops0 hs).mpr hn
    rw [follow, hfeed.best_all hrings.md hu' hdrops hcore hring, ← htop, ← lastTop_wire, hdriven.emitted, hlast]

/-- Two offers, published one by one: the reader holds the best of them. -/
theorem follower_holds_prompt : ∃ s0 s : Pipeline OrderBook,
    start { minPrice := 1, maxPrice := 500, maxOrders := 4 } 2 8 2 true true = some s0 ∧
      s0.after (.publisher none :: prompt) = some s ∧ follow s.published = s.engine.top.wire ∧
      s.engine.top = (kNoPrice, 102) := by
  have key : (do
      let s0 ← start (B := OrderBook) { minPrice := 1, maxPrice := 500, maxOrders := 4 } 2 8 2 true true
      let s ← s0.after (.publisher none :: prompt)
      some (decide (s.md.offered.drops = [] ∧ s.core.messages = [] ∧ s.md.contents = [] ∧ s.engine.top = (kNoPrice, 102)))) =
      some true := by decide +kernel
  obtain ⟨s0, h0, key⟩ := Option.bind_eq_some_iff.mp key
  obtain ⟨s, hs, key⟩ := Option.bind_eq_some_iff.mp key
  simp only [Option.some.injEq, decide_eq_true_eq] at key
  have hn := (no_md_drops_iff (start_rings h0) (start_feed h0).2 hs).mp key.1
  obtain ⟨_, _, _, hall⟩ := follower_holds rfl h0 hs
  exact ⟨s0, s, h0, hs, hall rfl hn key.2.1 key.2.2.1, key.2.2.2⟩

end Pipeline

end Lob
