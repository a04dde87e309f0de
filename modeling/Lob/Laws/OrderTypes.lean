/-
  Lob.Laws.OrderTypes — the contract of the order types.

  `TypesKept` is what a command leaves: only Limit and PostOnly orders rest, PostOnly
  orders never take, an order with a limit takes within it and best price first, and what
  was sent in is filled, canceled or resting.
-/

import Lob.Book.OrderBookProofs
import Lob.Engine.Entries

namespace Lob

/-! ## What a command leaves -/

/-- A taker's Fill is at a price no worse than that of a later one. -/
def NoWorse (f g : Event) : Prop :=
  f.type = .fill → f.aggressor = true → g.type = .fill →
    (f.side = .buy → f.price ≤ g.price) ∧ (f.side = .sell → g.price ≤ f.price)

/-- What the Canceled events take off the order sent in. -/
def canceledOf (c : Command) (es : List Event) : Nat :=
  ((es.filter fun ev => ev.type = .canceled ∧ ev.orderId = c.id ∧ ev.side = c.side).map fun ev => ev.quantity.toNat).sum

/-- Self-trade prevention canceled the order sent in. -/
def SelfStopped (c : Command) (es : List Event) : Prop :=
  ∃ ev ∈ es, ev.type = .canceled ∧ ev.reason = .selfTradePrevented ∧ ev.orderId = c.id ∧ ev.side = c.side

section

variable {B : Type} [Book B] [LawfulBook B]

structure TypesKept (e e' : Engine B) (cmd : Command) : Prop where
  resting : ∀ s, ∀ o ∈ e'.queued s, o.type = .limit ∨ o.type = .postOnly
  /-- What takes is the order sent in, never a PostOnly one, and within its limit. -/
  taker : ∀ ev ∈ e'.out, ev.type = .fill → ev.aggressor = true → ∃ c, e.Enters cmd c ∧ c.ordType ≠ .postOnly ∧
    ev.orderId = c.id ∧ ev.side = c.side ∧ (limitOf c ≠ kNoPrice →
      (c.side = .buy → ev.price ≤ limitOf c) ∧ (c.side = .sell → limitOf c ≤ ev.price))
  ordered : e'.out.Pairwise NoWorse
  /-- Filled, canceled and resting add up to what was sent in. -/
  conserved : ∀ c, e.Enters cmd c → ¬ SelfStopped c e'.out →
    aggressorFilled e'.out + canceledOf c e'.out +
      Flat.openSize ((e'.queued c.side).filter fun o => o.seq = e'.arrival ∧ o.id = c.id) = c.quantity.toNat

end

/-! ## Best price first -/

theorem noWorse_left {f g : Event} (h : f.type ≠ .fill) : NoWorse f g := fun hf => absurd hf h

theorem noWorse_right {f g : Event} (h : g.type ≠ .fill) : NoWorse f g := fun _ _ hg => absurd hg h

theorem noWorse_unfilled {es : List Event} (h : ∀ ev ∈ es, ev.type ≠ .fill) : es.Pairwise NoWorse := by
  induction es with
  | nil => exact List.Pairwise.nil
  | cons ev es ih =>
    have hev : ev.type ≠ .fill := h ev (List.mem_cons_self ..)
    exact List.pairwise_cons.mpr ⟨fun g _ => noWorse_left hev, ih fun x hx => h x (List.mem_cons_of_mem _ hx)⟩

/-- A match trades with the orders in the order they stand. -/
theorem deals_pairwise {R : OrderInfo → OrderInfo → Prop} (stp : StpMode) (client : ClientId) (inc : OrderInfo)
    (L : List OrderInfo) (h : L.Pairwise R) : (deals stp client inc L).Pairwise fun d d' =>
      ∀ i o q i' o' q', d = .traded i o q → d' = .traded i' o' q' → R o o' := by
  fun_induction deals stp client inc L with
  | case1 inc => exact List.Pairwise.nil
  | case2 inc x rest hc => exact List.Pairwise.nil
  | case3 inc x rest hc hstp hagg => exact List.pairwise_singleton _ _
  | case4 inc x rest hc hstp hagg ih =>
    obtain ⟨_, hrest⟩ := List.pairwise_cons.mp h
    refine List.pairwise_cons.mpr ⟨fun d _ i o q i' o' q' e => Deal.noConfusion e, ih hrest⟩
  | case5 inc x rest hc hstp traded ih =>
    obtain ⟨hx, hrest⟩ := List.pairwise_cons.mp h
    refine List.pairwise_cons.mpr ⟨fun d hd i o q i' o' q' e e' => ?_, ih hrest⟩
    obtain ⟨_, rfl, _⟩ := Deal.traded.inj e
    rw [e'] at hd
    obtain ⟨_, ho', _⟩ := traded_inc hd
    exact hx o' ho'

/-- A Fill of a deal is at the resting order's price. -/
theorem fill_of_deal {d : Deal} {f : Event} (h : f ∈ d.events) (ht : f.type = .fill) : ∃ i o q, d = .traded i o q ∧
    f.price = o.price ∧ (f.aggressor = true → f.side = i.side) := by
  cases d with
  | traded i o q =>
    refine ⟨i, o, q, rfl, ?_⟩
    simp only [Deal.events, List.mem_cons, List.not_mem_nil, or_false] at h
    rcases h with h | h | h
    · rw [h]
      exact ⟨rfl, fun _ => rfl⟩
    · rw [h]
      exact ⟨rfl, fun hagg => Bool.noConfusion hagg⟩
    · rw [h] at ht; cases ht
  | pulled i o => rw [List.mem_singleton.mp h] at ht; cases ht
  | stopped i x => rw [List.mem_singleton.mp h] at ht; cases ht

/-- Along a side in priority order a match takes the best prices first. -/
theorem deals_noWorse (stp : StpMode) (client : ClientId) (inc : OrderInfo) {L : List OrderInfo}
    (h : L.Pairwise (ahead (opposite inc.side))) : ((deals stp client inc L).flatMap Deal.events).Pairwise NoWorse := by
  have hside : ∀ d ∈ deals stp client inc L, ∀ i o q, d = .traded i o q → i.side = inc.side := by
    intro d hd i o q e
    rw [e] at hd
    obtain ⟨hi, _⟩ := traded_inc hd
    rw [hi]
  rw [List.pairwise_flatMap]
  constructor
  · intro d hd
    cases d with
    | traded i o q => simp [Deal.events, NoWorse, Event.takerFill, Event.makerFill, Event.trade]
    | pulled i o => exact List.pairwise_singleton _ _
    | stopped i x => exact List.pairwise_singleton _ _
  · refine (List.Pairwise.and_mem.mp (deals_pairwise stp client inc L h)).imp ?_
    intro d d' hdd f hf g hg ht hagg ht'
    obtain ⟨hd, _, hR⟩ := hdd
    obtain ⟨i, o, q, e, hp, hs⟩ := fill_of_deal hf ht
    obtain ⟨i', o', q', e', hp', _⟩ := fill_of_deal hg ht'
    have hahead := hR i o q i' o' q' e e'
    have hfs : f.side = inc.side := (hs hagg).trans (hside d hd i o q e)
    rw [hp, hp', hfs]
    unfold ahead at hahead
    constructor
    · intro hbuy
      rw [hbuy] at hahead
      rcases hahead with hb | ⟨he, _⟩
      · exact Int.le_of_lt hb
      · exact Int.le_of_eq he
    · intro hsell
      rw [hsell] at hahead
      rcases hahead with hb | ⟨he, _⟩
      · exact Int.le_of_lt hb
      · exact Int.le_of_eq he.symm

/-- What is within reach of an order with a limit is at a price no worse than it. -/
theorem reaches_limit {c : Command} {o : OrderInfo} (h : reaches (incomingOrder c 0) o = true) (hl : limitOf c ≠ kNoPrice) :
    (c.side = .buy → o.price ≤ limitOf c) ∧ (c.side = .sell → limitOf c ≤ o.price) := by
  have htype : c.ordType ≠ .market := by
    intro e
    refine hl ?_
    unfold limitOf isMarket
    rw [e]
    rfl
  have hcross : crosses c.side (limitOf c) o.price = true := by
    unfold reaches at h
    rw [Bool.or_eq_true] at h
    exact h.resolve_left fun e => htype (of_decide_eq_true e)
  unfold crosses at hcross
  rw [if_neg hl] at hcross
  constructor
  · intro e
    rw [e] at hcross
    exact of_decide_eq_true hcross
  · intro e
    rw [e] at hcross
    exact of_decide_eq_true hcross

/-! ## What is canceled -/

theorem canceledOf_append (c : Command) (es es' : List Event) : canceledOf c (es ++ es') = canceledOf c es + canceledOf c es' := by
  unfold canceledOf
  rw [List.filter_append, List.map_append, List.sum_append]

theorem canceledOf_none {c : Command} {es : List Event}
    (h : ∀ ev ∈ es, ev.type = .canceled → ev.orderId = c.id → ev.side ≠ c.side) : canceledOf c es = 0 := by
  unfold canceledOf
  rw [List.filter_eq_nil_iff.mpr fun ev hev => by
    intro e
    obtain ⟨h1, h2, h3⟩ := of_decide_eq_true e
    exact h ev hev h1 h2 h3]
  rfl

theorem canceledOf_unnumbered (c : Command) (es : List Event) : canceledOf c (es.map Event.unnumbered) = canceledOf c es := by
  unfold canceledOf
  rw [List.filter_map, List.map_map]
  rfl

theorem canceledOf_remainder (c : Command) (limit : Price) (q : Quantity) (r : RejectReason) :
    canceledOf c [.remainder c limit q r] = q.toNat := by
  simp [canceledOf, Event.remainder]

/-! ## The order sent in -/

variable {B : Type} [Book B] [LawfulBook B] {e e' : Engine B} {a b : FlatEngine} {cmd c : Command} {now : TsNanos}

/-- A PostOnly order that was let in reaches nothing. -/
theorem Entered.postOnly_untraded (h : Entered e e' b cmd c) (ht : c.ordType = .postOnly) : b.dealings c = [] := by
  have hcross := h.passes.postOnly ht
  unfold FlatEngine.wouldCross at hcross
  unfold FlatEngine.dealings
  cases hL : b.side (opposite c.side) with
  | nil => rfl
  | cons o L =>
    rw [hL] at hcross
    have hreach : reaches (incomingOrder c (b.arrival + 1)) o = false := by
      have htype : decide (c.ordType = OrderType.market) = false := by rw [ht]; rfl
      show (decide (c.ordType = OrderType.market) || crosses c.side (limitOf c) o.price) = false
      rw [htype, Bool.false_or]
      exact hcross
    unfold deals
    rw [if_pos (Or.inr hreach)]

theorem Entered.taker (h : Entered e e' b cmd c) {ev : Event} (hev : ev ∈ e'.out) (ht : ev.type = .fill)
    (hagg : ev.aggressor = true) : c.ordType ≠ .postOnly ∧ ev.orderId = c.id ∧ ev.side = c.side ∧
      (limitOf c ≠ kNoPrice → (c.side = .buy → ev.price ≤ limitOf c) ∧ (c.side = .sell → limitOf c ≤ ev.price)) := by
  obtain ⟨i, o, q, hd, hm⟩ := h.fill_origin hev ht
  have hagg' : ev.unnumbered.aggressor = true := hagg
  obtain ⟨hinc, _⟩ := traded_inc hd
  obtain ⟨hid, _, _, hreach, _⟩ := FlatEngine.dealing_inc hd
  rcases hm with hm | hm
  · have h1 : ev.unnumbered.orderId = c.id := by rw [hm]; exact hid
    have h2 : ev.unnumbered.side = c.side := by rw [hm]; exact congrArg OrderInfo.side hinc
    have h3 : ev.unnumbered.price = o.price := by rw [hm]; rfl
    refine ⟨fun hpost => ?_, h1, h2, fun hl => ?_⟩
    · rw [h.postOnly_untraded hpost] at hd
      cases hd
    · have := reaches_limit hreach hl
      rw [← h3] at this
      exact this
  · rw [hm] at hagg'
    cases hagg'

theorem Entered.ordered (h : Entered e e' b cmd c) : e'.out.Pairwise NoWorse := by
  obtain ⟨tail, hout, htail⟩ := h.out
  have hrest : ∀ ev ∈ b.leftover c ++ tail, ev.type ≠ .fill := by
    intro ev hev
    rcases List.mem_append.mp hev with hev | hev
    · obtain ⟨reason, _, rfl⟩ := FlatEngine.mem_leftover hev
      exact EventType.noConfusion
    · rw [htail ev hev]
      decide
  have hdeals : ((b.dealings c).flatMap Deal.events).Pairwise NoWorse := deals_noWorse _ _ _ (h.inv.sorted _)
  have hall : (e'.out.map Event.unnumbered).Pairwise NoWorse := by
    rw [hout]
    unfold FlatEngine.reports
    rw [List.append_assoc, List.cons_append, List.pairwise_cons, List.pairwise_append]
    exact ⟨fun g _ => noWorse_left EventType.noConfusion, hdeals, noWorse_unfilled hrest,
      fun f _ g hg => noWorse_right (hrest g hg)⟩
  have hout' := List.pairwise_map.mp hall
  exact hout'

theorem Entered.conserved (h : Entered e e' b cmd c) (hs : ¬ SelfStopped c e'.out) :
    aggressorFilled e'.out + canceledOf c e'.out +
      Flat.openSize ((e'.queued c.side).filter fun o => o.seq = e'.arrival ∧ o.id = c.id) = c.quantity.toNat := by
  have hno : ¬ ∃ i x, .stopped i x ∈ b.dealings c := by
    intro ⟨i, x, hd⟩
    obtain ⟨hi, _⟩ := stopped_inc hd
    obtain ⟨ev, hev, heq⟩ := h.mem_out hd (List.mem_singleton.mpr rfl)
    have h1 : ev.unnumbered.type = .canceled := by rw [heq]; rfl
    have h2 : ev.unnumbered.reason = .selfTradePrevented := by rw [heq]; rfl
    have h3 : ev.unnumbered.orderId = c.id := by rw [heq]; exact congrArg OrderInfo.id hi
    have h4 : ev.unnumbered.side = c.side := by rw [heq]; exact congrArg OrderInfo.side hi
    exact hs ⟨ev, hev, h1, h2, h3, h4⟩
  obtain ⟨hleft, hle⟩ := FlatEngine.remaining_eq hno
  -- of what is reported only the remainder takes anything off the order
  have hcanceled : canceledOf c e'.out = canceledOf c (b.leftover c) := by
    obtain ⟨tail, hout, htail⟩ := h.out
    have htail0 : canceledOf c tail = 0 := canceledOf_none fun ev hev ht => by
      rw [htail ev hev] at ht
      cases ht
    have hdeals0 : canceledOf c (.accept c (limitOf c) :: (b.dealings c).flatMap Deal.events) = 0 := by
      refine canceledOf_none fun ev hev ht _ hside => ?_
      rcases List.mem_cons.mp hev with rfl | hev
      · cases ht
      obtain ⟨d, hd, hev⟩ := List.mem_flatMap.mp hev
      cases d with
      | traded i o q =>
        simp only [Deal.events, List.mem_cons, List.not_mem_nil, or_false] at hev
        rcases hev with hev | hev | hev
        · rw [hev] at ht; cases ht
        · rw [hev] at ht; cases ht
        · rw [hev] at ht; cases ht
      | pulled i o =>
        have hopp := h.inv.onSide _ o (pulled_mem hd)
        rw [List.mem_singleton.mp hev] at hside
        exact opposite_ne c.side (hopp.symm.trans hside)
      | stopped i x => exact hno ⟨i, x, hd⟩
    rw [← canceledOf_unnumbered, hout, canceledOf_append, htail0, Nat.add_zero]
    unfold FlatEngine.reports
    rw [canceledOf_append, hdeals0, Nat.zero_add]
  have hold : (b.side c.side).filter (fun o => decide (o.seq = e'.arrival ∧ o.id = c.id)) = [] := by
    refine List.filter_eq_nil_iff.mpr fun o ho e => ?_
    have := h.inv.arrived o (Flat.mem_orders.mpr ⟨_, ho⟩)
    rw [(of_decide_eq_true e).1, h.arrival'] at this
    exact Nat.not_succ_le_self _ this
  rw [h.filled_eq, hcanceled]
  rcases h.own' with ⟨hown, hrem⟩ | ⟨_, hnil, hown⟩
  · have hsum : canceledOf c (b.leftover c) = (b.matching c).inc.remaining.toNat := by
      by_cases h0 : (b.matching c).inc.remaining = 0
      · rw [h0, show b.leftover c = [] from if_pos h0]
        rfl
      · obtain ⟨reason, hl⟩ := hrem h0
        rw [hl, canceledOf_remainder]
    rw [hown, hold, hsum]
    show _ + 0 = _
    omega
  · have hinc : (fun o : OrderInfo => decide (o.seq = e'.arrival ∧ o.id = c.id)) (b.matching c).inc = true := by
      rw [FlatEngine.matching_inc, h.arrival']
      exact decide_eq_true ⟨rfl, rfl⟩
    have hperm := (Flat.enqueue_perm (b.matching c).inc (b.side c.side)).filter
      fun o => decide (o.seq = e'.arrival ∧ o.id = c.id)
    rw [hown, hnil, Flat.openSize_perm hperm, List.filter_cons, if_pos hinc, hold, Flat.openSize_cons]
    show _ + 0 + (_ + 0) = _
    omega

/-! ## Every command of a run -/

theorem Simulates.types_kept (h : Simulates e a) (hp : e.process now cmd = some e') : TypesKept e e' cmd := by
  have hs' := (process_refines h now cmd).2 e' hp
  have hkinds : ∀ s, ∀ o ∈ e'.queued s, o.type = .limit ∨ o.type = .postOnly := by
    intro s o ho
    rw [hs'.refines.queued] at ho
    exact of_decide_eq_true (hs'.inv.kinds o (Flat.mem_orders.mpr ⟨s, ho⟩))
  by_cases hin : ∃ c, e.Enters cmd c
  · obtain ⟨c, hin⟩ := hin
    obtain ⟨b, _, hb⟩ := h.entered hp hin
    refine ⟨hkinds, fun ev hev ht hagg => ⟨c, hin, hb.taker hev ht hagg⟩, hb.ordered, ?_⟩
    intro c' hc'
    obtain rfl := hb.unique c' hc'
    exact hb.conserved
  · have hno : ∀ c, ¬ e.Enters cmd c := fun c hc => hin ⟨c, hc⟩
    have hunfilled := h.unfilled hp hno
    exact ⟨hkinds, fun ev hev ht => absurd ht (hunfilled ev hev), noWorse_unfilled hunfilled, fun c hc => absurd hc (hno c)⟩

/-- Every command after a run without unpriced orders keeps the contract of the order types. -/
theorem order_types_kept {cfg : EngineConfig} {e0 : Engine B} {is : List Engine.Input} (h0 : Engine.init cfg = some e0)
    (his : ∀ i ∈ is, i.Obeys fun cmd => ¬ cmd.Unpriced) (hcmd : ¬ cmd.Unpriced) (now : TsNanos) :
    ∃ e e' : Engine B, Engine.run cfg is = some e ∧ e.process now cmd = some e' ∧ TypesKept e e' cmd := by
  obtain ⟨e, he, h, hp⟩ := run_flat h0 his
  obtain ⟨e', he', _⟩ := @step_flat _ _ _ e _ h hp (.command now cmd) hcmd
  exact ⟨e, e', he, he', h.types_kept he'⟩

theorem order_types_kept_one : ∃ (e0 e e' : Engine OrderBook),
    Engine.init { minPrice := 1, maxPrice := 500, maxOrders := 4 } = some e0 ∧
    Engine.run { minPrice := 1, maxPrice := 500, maxOrders := 4 } [.command 0 (.makeNew 1 7 .buy .limit 100 5 0)] = some e ∧
    e.process 0 (.makeNew 2 8 .sell .ioc 99 8 0) = some e' ∧ TypesKept e e' (.makeNew 2 8 .sell .ioc 99 8 0) := by
  obtain ⟨e0, h0⟩ := @init_defined OrderBook _ { minPrice := 1, maxPrice := 500, maxOrders := 4 } _ rfl
  obtain ⟨e, e', he, hp, hk⟩ := @order_types_kept OrderBook _ _ (.makeNew 2 8 .sell .ioc 99 8 0) _ e0
    [.command 0 (.makeNew 1 7 .buy .limit 100 5 0)] h0 (by decide) (by decide) 0
  exact ⟨e0, e, e', h0, he, hp, hk⟩

end Lob
