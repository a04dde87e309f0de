/-
  Lob.Engine.Relabel — the flat engine under a change of labels.

  A `Relabel` renames prices, clients and stamps, and may exchange the sides. Where it
  keeps what the engine compares (`Relabel.Fits`), a command does to the relabelled engine
  what it does to the engine, relabelled (`Relabel.Fits.process`): the engine does nothing with
  its labels but compare them.
-/

import Lob.Engine.Runs

namespace Lob

/-! ## Relabelling -/

structure Relabel where
  /-- Buy and sell change places. -/
  flip : Bool
  price : Price → Price
  client : ClientId → ClientId
  stamp : TsNanos → TsNanos

namespace Relabel

variable (r : Relabel)

def side (s : Side) : Side := if r.flip then opposite s else s

/-- The first, or the second where the sides change places. -/
def pick {α : Type} (x y : α) : α := if r.flip then y else x

def order (o : OrderInfo) : OrderInfo :=
  { o with client := r.client o.client, price := r.price o.price, tsRecv := r.stamp o.tsRecv, side := r.side o.side }

def command (c : Command) : Command :=
  { c with client := r.client c.client, price := r.price c.price, tsRecv := r.stamp c.tsRecv, side := r.side c.side }

/-- A BookChanged event has no side of its own, but a bid and an ask. -/
def event (e : Event) : Event :=
  { e with
    client := r.client e.client
    side := if e.type = .bookChanged then e.side else r.side e.side
    price := r.price e.price
    tsIn := r.stamp e.tsIn
    bidPx := r.price (r.pick e.bidPx e.askPx)
    bidQty := r.pick e.bidQty e.askQty
    askPx := r.price (r.pick e.askPx e.bidPx)
    askQty := r.pick e.askQty e.bidQty }

def vars (v : EngineVars) : EngineVars :=
  { v with
    out := v.out.map r.event
    lastBid := r.price (r.pick v.lastBid v.lastAsk)
    lastAsk := r.price (r.pick v.lastAsk v.lastBid) }

def flat (f : Flat) : Flat := { f with side := fun s => (f.side (r.side s)).map r.order }

def matched (m : Matched) : Matched :=
  { vars := r.vars m.vars, inc := r.order m.inc, filled := m.filled, gone := m.gone.map r.order, left := m.left.map r.order }

def engine (a : FlatEngine) : FlatEngine :=
  { toEngineVars := r.vars a.toEngineVars, toFlat := r.flat a.toFlat, cfg := a.cfg }

/-- The labels keep what the engine compares: `given` are the prices that may come with a
    command, `rested` those an order may rest at. -/
structure Fits (cfg : EngineConfig) (given rested : Price → Prop) : Prop where
  sentinel : given kNoPrice ∧ r.price kNoPrice = kNoPrice
  wider : ∀ p, rested p → given p
  real : ∀ p, given p → p ≠ kNoPrice → rested p
  inj : ∀ p q, given p → given q → r.price p = r.price q → p = q
  prefers : ∀ s p q, rested p → rested q → (better (r.side s) (r.price p) (r.price q) ↔ better s p q)
  band : ∀ p, given p → p ≠ kNoPrice →
    ((cfg.minPrice ≤ r.price p ∧ r.price p ≤ cfg.maxPrice) ↔ cfg.minPrice ≤ p ∧ p ≤ cfg.maxPrice)
  client : cfg.stp = .none ∨ Function.Injective r.client
  anonymous : r.client 0 = 0

@[simp] theorem side_side (s : Side) : r.side (r.side s) = s := by
  unfold side
  cases r.flip <;> simp

@[simp] theorem side_opposite (s : Side) : r.side (opposite s) = opposite (r.side s) := by
  unfold side
  cases r.flip <;> rfl

theorem side_eq_iff {s t : Side} : r.side s = t ↔ s = r.side t := by
  constructor
  · intro h
    rw [← h, side_side]
  · intro h
    rw [h, side_side]

@[simp] theorem pick_self {α : Type} (x : α) : r.pick x x = x := by
  unfold pick
  cases r.flip <;> rfl

theorem pick_side {α : Type} (f : Side → α) : r.pick (f .buy) (f .sell) = f (r.side .buy) := by
  unfold pick side
  cases r.flip <;> rfl

theorem pick_side' {α : Type} (f : Side → α) : r.pick (f .sell) (f .buy) = f (r.side .sell) := by
  unfold pick side
  cases r.flip <;> rfl

end Relabel

variable {r : Relabel} {cfg : EngineConfig} {given rested : Price → Prop}

/-! ## What is compared -/

theorem crosses_iff {s : Side} {limit p : Price} :
    crosses s limit p = true ↔ limit = kNoPrice ∨ ¬ better (opposite s) limit p := by
  unfold crosses
  by_cases h : limit = kNoPrice
  · simp [h]
  · rw [if_neg h, or_iff_right h]
    cases s with
    | buy => exact decide_eq_true_iff.trans Int.not_lt.symm
    | sell => exact decide_eq_true_iff.trans Int.not_lt.symm

namespace Relabel.Fits

variable (h : r.Fits cfg given rested)
include h

theorem price_none_iff {p : Price} (hp : given p) : r.price p = kNoPrice ↔ p = kNoPrice := by
  constructor
  · intro e
    exact h.inj p kNoPrice hp h.sentinel.1 (e.trans h.sentinel.2.symm)
  · intro e
    rw [e, h.sentinel.2]

theorem crosses_eq {s : Side} {limit p : Price} (hl : given limit) (hp : rested p) :
    crosses (r.side s) (r.price limit) (r.price p) = crosses s limit p := by
  rw [Bool.eq_iff_iff, crosses_iff, crosses_iff, h.price_none_iff hl, ← r.side_opposite]
  by_cases he : limit = kNoPrice
  · simp [he]
  · rw [h.prefers _ _ _ (h.real limit hl he) hp]

theorem reaches_eq {inc o : OrderInfo} (hi : given inc.price) (ho : rested o.price) :
    reaches (r.order inc) (r.order o) = reaches inc o := by
  show (decide (inc.type = .market) || crosses (r.side inc.side) (r.price inc.price) (r.price o.price)) = _
  rw [h.crosses_eq hi ho]
  rfl

theorem isMarket_eq {c : Command} (hc : given c.price) : isMarket (r.command c) = isMarket c := by
  show decide (c.ordType = .market ∨ r.price c.price = kNoPrice) = _
  rw [decide_eq_decide.mpr (or_congr_right (h.price_none_iff hc))]
  rfl

theorem limitOf_eq {c : Command} (hc : given c.price) : limitOf (r.command c) = r.price (limitOf c) := by
  unfold limitOf
  rw [h.isMarket_eq hc]
  split
  · exact h.sentinel.2.symm
  · rfl

theorem given_limit {c : Command} (hc : given c.price) : given (limitOf c) := by
  unfold limitOf
  split
  · exact h.sentinel.1
  · exact hc

theorem incoming_eq {c : Command} (hc : given c.price) (n : Sequence) :
    incomingOrder (r.command c) n = r.order (incomingOrder c n) := by
  unfold incomingOrder Relabel.order
  rw [h.limitOf_eq hc]
  rfl

theorem newPrice_eq {c : Command} (hc : given c.price) (p : Price) :
    newPrice (r.command c) (r.price p) = r.price (newPrice c p) := by
  unfold newPrice
  show (if r.price c.price = kNoPrice then r.price p else r.price c.price) = _
  by_cases e : c.price = kNoPrice
  · rw [if_pos e, if_pos ((h.price_none_iff hc).mpr e)]
  · rw [if_neg e, if_neg (mt (h.price_none_iff hc).mp e)]

/-! ## Reports -/

/-- The labels of an event that quotes no book. -/
theorem event_eq (e : Event) (ht : e.type ≠ .bookChanged) (hb : e.bidPx = kNoPrice ∧ e.askPx = kNoPrice)
    (hq : e.bidQty = 0 ∧ e.askQty = 0) : r.event e =
      { e with client := r.client e.client, side := r.side e.side, price := r.price e.price, tsIn := r.stamp e.tsIn } := by
  unfold Relabel.event
  rw [if_neg ht, hb.1, hb.2, hq.1, hq.2, r.pick_self, r.pick_self, h.sentinel.2]

theorem takerFill_eq (inc o : OrderInfo) (q : Quantity) :
    Event.takerFill (r.order inc) (r.order o) q = r.event (.takerFill inc o q) :=
  (h.event_eq (.takerFill inc o q) EventType.noConfusion ⟨rfl, rfl⟩ ⟨rfl, rfl⟩).symm

theorem makerFill_eq (inc o : OrderInfo) (q : Quantity) :
    Event.makerFill (r.order inc) (r.order o) q = r.event (.makerFill inc o q) :=
  (h.event_eq (.makerFill inc o q) EventType.noConfusion ⟨rfl, rfl⟩ ⟨rfl, rfl⟩).symm

theorem trade_eq (inc o : OrderInfo) (q : Quantity) : Event.trade (r.order inc) (r.order o) q = r.event (.trade inc o q) := by
  rw [h.event_eq _ EventType.noConfusion ⟨rfl, rfl⟩ ⟨rfl, rfl⟩]
  show Event.trade (r.order inc) (r.order o) q = { Event.trade (r.order inc) (r.order o) q with client := r.client 0 }
  rw [h.anonymous]
  rfl

theorem stpAggressor_eq (inc : OrderInfo) (client : ClientId) :
    Event.stpAggressor (r.order inc) (r.client client) = r.event (.stpAggressor inc client) :=
  (h.event_eq (.stpAggressor inc client) EventType.noConfusion ⟨rfl, rfl⟩ ⟨rfl, rfl⟩).symm

theorem stpResting_eq (inc o : OrderInfo) : Event.stpResting (r.order inc) (r.order o) = r.event (.stpResting inc o) :=
  (h.event_eq (.stpResting inc o) EventType.noConfusion ⟨rfl, rfl⟩ ⟨rfl, rfl⟩).symm

theorem reject_eq (c : Command) (why : RejectReason) : Event.reject (r.command c) why = r.event (.reject c why) :=
  (h.event_eq (.reject c why) EventType.noConfusion ⟨rfl, rfl⟩ ⟨rfl, rfl⟩).symm

theorem accept_eq (c : Command) (limit : Price) : Event.accept (r.command c) (r.price limit) = r.event (.accept c limit) :=
  (h.event_eq (.accept c limit) EventType.noConfusion ⟨rfl, rfl⟩ ⟨rfl, rfl⟩).symm

theorem remainder_eq (c : Command) (limit : Price) (q : Quantity) (why : RejectReason) :
    Event.remainder (r.command c) (r.price limit) q why = r.event (.remainder c limit q why) :=
  (h.event_eq (.remainder c limit q why) EventType.noConfusion ⟨rfl, rfl⟩ ⟨rfl, rfl⟩).symm

theorem cancel_eq (o : OrderInfo) (ts : TsNanos) : Event.cancel (r.order o) (r.stamp ts) = r.event (.cancel o ts) :=
  (h.event_eq (.cancel o ts) EventType.noConfusion ⟨rfl, rfl⟩ ⟨rfl, rfl⟩).symm

theorem replace_eq (o : OrderInfo) (q : Quantity) (ts : TsNanos) :
    Event.replace (r.order o) q (r.stamp ts) = r.event (.replace o q ts) :=
  (h.event_eq (.replace o q ts) EventType.noConfusion ⟨rfl, rfl⟩ ⟨rfl, rfl⟩).symm

omit h in
theorem newEvent_eq (v : EngineVars) (e : Event) : r.vars (v.newEvent e) = (r.vars v).newEvent (r.event e) := by
  unfold Relabel.vars EngineVars.newEvent
  simp only [List.map_append, List.map_cons, List.map_nil]
  rfl

theorem emitTrade_eq (v : EngineVars) (inc o : OrderInfo) (q : Quantity) :
    (r.vars v).emitTrade (r.order inc) (r.order o) q = r.vars (v.emitTrade inc o q) := by
  have hev : r.vars (((v.newEvent (.takerFill inc o q)).newEvent (.makerFill inc o q)).newEvent (.trade inc o q)) =
      (((r.vars v).newEvent (.takerFill (r.order inc) (r.order o) q)).newEvent
        (.makerFill (r.order inc) (r.order o) q)).newEvent (.trade (r.order inc) (r.order o) q) := by
    rw [newEvent_eq, newEvent_eq, newEvent_eq, h.takerFill_eq, h.makerFill_eq, h.trade_eq]
  unfold EngineVars.emitTrade
  simp only
  rw [← hev]
  rfl

theorem emitStpAggressor_eq (v : EngineVars) (inc : OrderInfo) (client : ClientId) :
    (r.vars v).emitStpAggressor (r.order inc) (r.client client) = r.vars (v.emitStpAggressor inc client) := by
  unfold EngineVars.emitStpAggressor
  rw [h.stpAggressor_eq, newEvent_eq]

theorem emitStpResting_eq (v : EngineVars) (inc o : OrderInfo) :
    (r.vars v).emitStpResting (r.order inc) (r.order o) = r.vars (v.emitStpResting inc o) := by
  unfold EngineVars.emitStpResting
  rw [h.stpResting_eq, newEvent_eq]

theorem emitReject_eq (v : EngineVars) (c : Command) (why : RejectReason) :
    (r.vars v).emitReject (r.command c) why = r.vars (v.emitReject c why) := by
  unfold EngineVars.emitReject
  rw [h.reject_eq, newEvent_eq]
  rfl

theorem emitAccepted_eq (v : EngineVars) (c : Command) (limit : Price) :
    (r.vars v).emitAccepted (r.command c) (r.price limit) = r.vars (v.emitAccepted c limit) := by
  unfold EngineVars.emitAccepted
  rw [h.accept_eq, newEvent_eq]

theorem emitRemainder_eq (v : EngineVars) (c : Command) (limit : Price) (q : Quantity) (why : RejectReason) :
    (r.vars v).emitRemainder (r.command c) (r.price limit) q why = r.vars (v.emitRemainder c limit q why) := by
  unfold EngineVars.emitRemainder
  rw [h.remainder_eq, newEvent_eq]

theorem emitCanceled_eq (v : EngineVars) (o : OrderInfo) (ts : TsNanos) :
    (r.vars v).emitCanceled (r.order o) (r.stamp ts) = r.vars (v.emitCanceled o ts) := by
  unfold EngineVars.emitCanceled
  rw [h.cancel_eq, newEvent_eq]

theorem emitReplaced_eq (v : EngineVars) (o : OrderInfo) (q : Quantity) (ts : TsNanos) :
    (r.vars v).emitReplaced (r.order o) q (r.stamp ts) = r.vars (v.emitReplaced o q ts) := by
  unfold EngineVars.emitReplaced
  rw [h.replace_eq, newEvent_eq]

omit h in
theorem bookChange_eq (ts : TsNanos) (px : Side → Price) (qty : Side → Quantity) :
    r.event (.bookChange ts (px .buy) (px .sell) (qty .buy) (qty .sell)) =
      { type := .bookChanged, client := r.client 0, price := r.price kNoPrice, tsIn := r.stamp ts, bidPx := r.price (px (r.side .buy)),
        askPx := r.price (px (r.side .sell)), bidQty := qty (r.side .buy), askQty := qty (r.side .sell) } := by
  rw [← r.pick_side px, ← r.pick_side' px, ← r.pick_side qty, ← r.pick_side' qty]
  rfl

/-! ## The match -/

theorem client_iff {stp : StpMode} (hs : cfg.stp = stp) (hstp : stp ≠ .none) {x y : ClientId} :
    r.client x = r.client y ↔ x = y := by
  have hinj := h.client.resolve_left fun e => hstp (hs.symm.trans e)
  exact hinj.eq_iff

theorem own_iff {stp : StpMode} (hs : cfg.stp = stp) {x y : ClientId} :
    (stp ≠ .none ∧ r.client x = r.client y) ↔ (stp ≠ .none ∧ x = y) :=
  and_congr_right fun hstp => h.client_iff hs hstp

theorem refMatch_eq {stp : StpMode} (hs : cfg.stp = stp) (client : ClientId) (v : EngineVars) (inc : OrderInfo)
    (filled : Quantity) (L : List OrderInfo) (hi : given inc.price) (hL : ∀ o ∈ L, rested o.price) :
    refMatch stp (r.client client) (r.vars v) (r.order inc) filled (L.map r.order) =
      r.matched (refMatch stp client v inc filled L) := by
  fun_induction refMatch stp client v inc filled L with
  | case1 => rfl
  | case2 v inc filled o rest hends =>
    have hr := h.reaches_eq hi (hL o (List.mem_cons_self ..))
    rw [List.map_cons, refMatch_ends (by rw [hr]; exact hends)]
    rfl
  | case3 v inc filled o rest hgo hstp hagg =>
    have hr := h.reaches_eq hi (hL o (List.mem_cons_self ..))
    rw [List.map_cons, refMatch_aggressor (by rw [hr]; exact hgo) ((h.own_iff hs).mpr hstp) hagg, h.emitStpAggressor_eq]
    rfl
  | case4 v inc filled o rest hgo hstp hagg ih =>
    have hr := h.reaches_eq hi (hL o (List.mem_cons_self ..))
    rw [List.map_cons, refMatch_resting (by rw [hr]; exact hgo) ((h.own_iff hs).mpr hstp) hagg, h.emitStpResting_eq,
      ih hi fun x hx => hL x (List.mem_cons_of_mem _ hx)]
    rfl
  | case5 v inc filled o rest hgo hstp traded v' inc' hfull ih =>
    have hr := h.reaches_eq hi (hL o (List.mem_cons_self ..))
    have ih := ih hi fun x hx => hL x (List.mem_cons_of_mem _ hx)
    have hstp' : ¬ (stp ≠ .none ∧ (r.order o).client = r.client client) := mt (h.own_iff hs).mp hstp
    have hfull' : (r.order o).remaining = min (r.order inc).remaining (r.order o).remaining := hfull
    rw [List.map_cons, refMatch_full (by rw [hr]; exact hgo) hstp' hfull']
    show (refMatch stp (r.client client) ((r.vars v).emitTrade (r.order inc) (r.order o) traded) (r.order inc')
      (filled + traded) (rest.map r.order)).after (r.order o) = _
    rw [h.emitTrade_eq, ih]
    rfl
  | case6 v inc filled o rest hgo hstp traded v' inc' hne =>
    have hr := h.reaches_eq hi (hL o (List.mem_cons_self ..))
    have hstp' : ¬ (stp ≠ .none ∧ (r.order o).client = r.client client) := mt (h.own_iff hs).mp hstp
    have hpart : (r.order o).remaining ≠ min (r.order inc).remaining (r.order o).remaining := hne
    rw [List.map_cons, refMatch_part (by rw [hr]; exact hgo) hstp' hpart]
    show (⟨(r.vars v).emitTrade (r.order inc) (r.order o) traded, _, _, _, _⟩ : Matched) = _
    rw [h.emitTrade_eq]
    rfl

end Relabel.Fits

/-! ## The lists -/

namespace Relabel

variable {f : Flat} {n k : Nat} {o o' : OrderInfo} {L : List OrderInfo}

theorem order_inj {x y : OrderInfo} (h : r.order x = r.order y) : x.seq = y.seq :=
  (congrArg OrderInfo.seq h : (r.order x).seq = (r.order y).seq)

theorem ne_of_seqs {x : OrderInfo} (hs : ((x :: L).map (·.seq)).Nodup) (ho : o ∈ L) : r.order x ≠ r.order o := by
  intro e
  rw [List.map_cons, List.nodup_cons] at hs
  refine hs.1 ?_
  rw [order_inj e]
  exact List.mem_map_of_mem ho

theorem erase_eq (hs : (L.map (·.seq)).Nodup) (ho : o ∈ L) : (L.map r.order).erase (r.order o) = (L.erase o).map r.order := by
  induction L with
  | nil => cases ho
  | cons x L ih =>
    rw [List.map_cons]
    by_cases e : x = o
    · rw [e, List.erase_cons_head, List.erase_cons_head]
    · have ho := (List.mem_cons.mp ho).resolve_left (Ne.symm e)
      have hne : r.order x ≠ r.order o := ne_of_seqs hs ho
      rw [List.erase_cons_tail (by simpa using hne), List.erase_cons_tail (by simpa using e), List.map_cons]
      rw [List.map_cons, List.nodup_cons] at hs
      rw [ih hs.2 ho]

theorem replace_eq (hs : (L.map (·.seq)).Nodup) (ho : o ∈ L) :
    (L.map r.order).replace (r.order o) (r.order o') = (L.replace o o').map r.order := by
  induction L with
  | nil => cases ho
  | cons x L ih =>
    rw [List.map_cons]
    by_cases e : x = o
    · rw [e, List.replace_cons_self, List.replace_cons_self, List.map_cons]
    · have ho := (List.mem_cons.mp ho).resolve_left (Ne.symm e)
      have hne : r.order x ≠ r.order o := ne_of_seqs hs ho
      have hb : (r.order o == r.order x) = false := by simpa using Ne.symm hne
      have hb' : (o == x) = false := by simpa using Ne.symm e
      rw [List.map_cons, List.nodup_cons] at hs
      rw [List.replace_cons, List.replace_cons, hb, hb']
      simp only [List.map_cons, ih hs.2 ho]

theorem flat_setList (r : Relabel) (f : Flat) (s : Side) (L : List OrderInfo) :
    r.flat (f.setList s L) = (r.flat f).setList (r.side s) (L.map r.order) := by
  unfold Relabel.flat Flat.setList
  simp only [Flat.mk.injEq, and_self, and_true]
  funext t
  by_cases e : r.side t = s
  · rw [if_pos e, if_pos (r.side_eq_iff.mp e)]
  · rw [if_neg e, if_neg (mt r.side_eq_iff.mpr e)]

theorem flat_side (f : Flat) (s : Side) : (r.flat f).side (r.side s) = (f.side s).map r.order := by
  show (f.side (r.side (r.side s))).map r.order = _
  rw [side_side]

theorem flat_orders (f : Flat) : (r.flat f).orders.Perm (f.orders.map r.order) := by
  have hp := orders_perm (r.flat f) (r.side .buy)
  rw [← side_opposite, flat_side, flat_side, ← List.map_append] at hp
  exact hp

theorem mem_orders {x : OrderInfo} : x ∈ (r.flat f).orders ↔ ∃ o ∈ f.orders, r.order o = x := by
  rw [(flat_orders f).mem_iff, List.mem_map]

theorem live_eq (f : Flat) : (r.flat f).live = f.live := by
  unfold Flat.live
  rw [((flat_orders f).filter _).length_eq, List.filter_map, List.length_map]
  rfl

theorem find_eq (h : f.Inv n k) (id : OrderId) : (r.flat f).find id = (f.find id).map r.order := by
  cases hf : f.find id with
  | none =>
    unfold Flat.find
    split
    · rfl
    · rename_i h0
      refine List.find?_eq_none.mpr fun x hx => ?_
      obtain ⟨o, ho, rfl⟩ := mem_orders.mp hx
      simp only [decide_eq_true_eq]
      exact fun e => h0 (Flat.find_none hf o ho e)
  | some o =>
    obtain ⟨h0, ho, hid⟩ := Flat.find_some hf
    cases hg : (r.flat f).find id with
    | none => exact absurd (Flat.find_none hg (r.order o) (mem_orders.mpr ⟨o, ho, rfl⟩) hid) h0
    | some x =>
      obtain ⟨_, hx, hxid⟩ := Flat.find_some hg
      obtain ⟨y, hy, rfl⟩ := mem_orders.mp hx
      have hyid : y.id = id := hxid
      have hfy := h.find_mem hy (by rw [hyid]; exact h0)
      rw [hyid, hf] at hfy
      rw [Option.some.inj hfy]
      rfl

theorem side_seqs (h : f.Inv n k) (s : Side) : ((f.side s).map (·.seq)).Nodup := h.seqs.sublist ((f.side_sublist s).map _)

theorem drop_eq (h : f.Inv n k) (ho : o ∈ f.orders) : (r.flat f).drop (r.order o) = r.flat (f.drop o) := by
  have hlist := r.flat_setList f o.side ((f.side o.side).erase o)
  rw [← erase_eq (side_seqs h _) (h.mem_side ho), ← flat_side] at hlist
  have hside := congrArg Flat.side hlist
  unfold Flat.drop
  unfold Relabel.flat at hside ⊢
  simp only [Flat.mk.injEq]
  exact ⟨hside.symm, rfl, rfl⟩

theorem swap_eq (h : f.Inv n k) (ho : o ∈ f.orders) : (r.flat f).swap (r.order o) (r.order o') = r.flat (f.swap o o') := by
  unfold Flat.swap
  rw [flat_setList, ← replace_eq (side_seqs h _) (h.mem_side ho), ← flat_side]
  rfl

theorem openSize_eq (L : List OrderInfo) : Flat.openSize (L.map r.order) = Flat.openSize L := by
  unfold Flat.openSize
  rw [List.map_map]
  rfl

end Relabel

/-- Cutting a list by a test that agrees on it. -/
theorem takeWhile_agree {α : Type} {p q : α → Bool} {l : List α} (h : ∀ x ∈ l, p x = q x) :
    l.takeWhile p = l.takeWhile q ∧ l.dropWhile p = l.dropWhile q := by
  induction l with
  | nil => exact ⟨rfl, rfl⟩
  | cons x l ih =>
    obtain ⟨h1, h2⟩ := ih fun y hy => h y (List.mem_cons_of_mem _ hy)
    have hx := h x (List.mem_cons_self ..)
    rw [List.takeWhile_cons, List.takeWhile_cons, List.dropWhile_cons, List.dropWhile_cons, hx, h1, h2]
    exact ⟨rfl, rfl⟩

namespace Relabel.Fits

variable (h : r.Fits cfg given rested)
include h

theorem enqueue_eq {o : OrderInfo} {L : List OrderInfo} (ho : rested o.price) (hL : ∀ x ∈ L, rested x.price) :
    Flat.enqueue (r.order o) (L.map r.order) = (Flat.enqueue o L).map r.order := by
  unfold Flat.enqueue
  have hcut : ∀ x ∈ L, ((fun x => decide (¬ better (r.order o).side (r.order o).price x.price)) ∘ r.order) x =
      decide (¬ better o.side o.price x.price) := fun x hx =>
    decide_eq_decide.mpr (not_congr (h.prefers o.side o.price x.price ho (hL x hx)))
  rw [List.takeWhile_map, List.dropWhile_map, (takeWhile_agree hcut).1, (takeWhile_agree hcut).2, List.map_append,
    List.map_cons]

theorem place_eq {f : Flat} {o : OrderInfo} (ho : rested o.price) (hf : ∀ x ∈ f.orders, rested x.price) :
    (r.flat f).place (r.order o) = r.flat (f.place o) := by
  have hlist := r.flat_setList f o.side (Flat.enqueue o (f.side o.side))
  rw [← h.enqueue_eq ho fun x hx => hf x (Flat.mem_orders.mpr ⟨_, hx⟩), ← flat_side] at hlist
  have hside := congrArg Flat.side hlist
  unfold Flat.place
  rw [live_eq]
  unfold Relabel.flat at hside ⊢
  simp only [Flat.mk.injEq]
  exact ⟨hside.symm, rfl, rfl⟩

theorem top_eq {f : Flat} (s : Side) : (r.flat f).top (r.side s) = r.price (f.top s) := by
  unfold Flat.top
  rw [flat_side, List.head?_map]
  cases (f.side s).head? with
  | none => exact h.sentinel.2.symm
  | some o => rfl

theorem topSize_eq {L : List OrderInfo} (hL : ∀ x ∈ L, rested x.price) : Flat.topSize (L.map r.order) = Flat.topSize L := by
  cases L with
  | nil => rfl
  | cons o L =>
    have ho : given o.price := h.wider _ (hL o (List.mem_cons_self ..))
    have hcut : ∀ x ∈ o :: L, ((fun x => decide (x.price = (r.order o).price)) ∘ r.order) x =
        decide (x.price = o.price) := fun x hx =>
      decide_eq_decide.mpr ⟨fun e => h.inj _ _ (h.wider _ (hL x hx)) ho e, congrArg r.price⟩
    show Flat.openSize (((o :: L).map r.order).takeWhile fun x => decide (x.price = (r.order o).price)) = _
    rw [List.takeWhile_map, openSize_eq, (takeWhile_agree hcut).1]
    rfl

theorem crossed_eq {s : Side} {limit : Price} {L : List OrderInfo} (hl : given limit) (hL : ∀ x ∈ L, rested x.price) :
    Flat.openSize ((L.map r.order).takeWhile fun o => crosses (r.side s) (r.price limit) o.price) =
      Flat.openSize (L.takeWhile fun o => crosses s limit o.price) := by
  have hcut : ∀ x ∈ L, ((fun o : OrderInfo => crosses (r.side s) (r.price limit) o.price) ∘ r.order) x =
      crosses s limit x.price := fun x hx => h.crosses_eq hl (hL x hx)
  rw [List.takeWhile_map, openSize_eq, (takeWhile_agree hcut).1]

end Relabel.Fits

/-! ## A command -/

/-- The prices of the engine are labels that fit. -/
structure FlatEngine.Labelled (given rested : Price → Prop) (a : FlatEngine) : Prop where
  orders : ∀ o ∈ a.orders, rested o.price
  bid : given a.lastBid
  ask : given a.lastAsk

theorem FlatEngine.Labelled.shrink {a b : FlatEngine} (h : a.Labelled given rested)
    (hv : b.toEngineVars = a.toEngineVars) (hs : ∀ s, Shrinks (b.side s) (a.side s)) : b.Labelled given rested := by
  refine ⟨fun o' ho' => ?_, by rw [hv]; exact h.bid, by rw [hv]; exact h.ask⟩
  obtain ⟨o, ho, hr⟩ := (Flat.shrinks_orders hs).mem ho'
  rw [hr.price]
  exact h.orders o ho

theorem FlatEngine.Labelled.side {a : FlatEngine} (h : a.Labelled given rested) (s : Side) : ∀ o ∈ a.side s, rested o.price :=
  fun o ho => h.orders o (Flat.mem_orders.mpr ⟨s, ho⟩)

theorem given_newPrice {cmd : Command} (hc : given cmd.price) {p : Price} (hp : given p) : given (newPrice cmd p) := by
  unfold newPrice
  split
  · exact hp
  · exact hc

namespace Relabel.Fits

variable {a : FlatEngine} {c cmd : Command} {fillable : Bool} (h : r.Fits a.cfg given rested)
include h

theorem accepted_eq (hc : given c.price) : (r.engine a).accepted (r.command c) = r.vars (a.accepted c) := by
  unfold FlatEngine.accepted
  rw [h.limitOf_eq hc, ← h.emitAccepted_eq]
  rfl

theorem matching_eq (ha : a.Labelled given rested) (hc : given c.price) :
    (r.engine a).matching (r.command c) = r.matched (a.matching c) := by
  unfold FlatEngine.matching
  rw [h.accepted_eq hc, h.incoming_eq hc]
  have hside : (r.engine a).side (opposite (r.command c).side) = (a.side (opposite c.side)).map r.order := by
    show (r.flat a.toFlat).side (opposite (r.side c.side)) = _
    rw [← side_opposite, flat_side]
  rw [hside]
  exact h.refMatch_eq rfl _ _ _ _ _ (h.given_limit hc) (ha.side _)

omit h in
theorem matched_eq (r : Relabel) (a : FlatEngine) (s : Side) (m : Matched) :
    (r.engine a).matched (r.side s) (r.matched m) = r.engine (a.matched s m) := by
  have hlist := r.flat_setList a.toFlat (opposite s) m.left
  have hside := congrArg Flat.side hlist
  have hgone : ((m.gone.map r.order).filter fun o => o.id ≠ 0).length = (m.gone.filter fun o => o.id ≠ 0).length := by
    rw [List.filter_map, List.length_map]
    rfl
  rw [side_opposite] at hside
  unfold FlatEngine.matched FlatEngine.withFlat FlatEngine.withVars Relabel.engine
  simp only [FlatEngine.mk.injEq, and_true]
  refine ⟨rfl, ?_⟩
  unfold Relabel.flat at hside ⊢
  unfold Relabel.matched
  simp only [Flat.mk.injEq, hgone]
  exact ⟨hside.symm, trivial, rfl⟩

theorem afterMatch_eq (ha : a.Labelled given rested) (hc : given c.price) :
    (r.engine a).afterMatch (r.command c) = r.engine (a.afterMatch c) := by
  unfold FlatEngine.afterMatch
  rw [h.matching_eq ha hc]
  exact matched_eq r a c.side (a.matching c)

theorem handleAccepted_eq (ha : a.Labelled given rested) (hc : given c.price)
    (hl : rests c.ordType = true → rested c.price) :
    (r.engine a).handleAccepted (r.command c) = r.engine (a.handleAccepted c) := by
  have hmatch := h.matching_eq ha hc
  have hafter := h.afterMatch_eq ha hc
  have hlen : (r.engine (a.afterMatch c)).orders.length = (a.afterMatch c).orders.length := by
    show (r.flat (a.afterMatch c).toFlat).orders.length = _
    rw [(flat_orders (a.afterMatch c).toFlat).length_eq, List.length_map]
  have hremainder : ∀ why, (r.engine (a.afterMatch c)).withVars ((r.engine (a.afterMatch c)).emitRemainder (r.command c)
      (limitOf (r.command c)) (a.matching c).inc.remaining why) = r.engine ((a.afterMatch c).withVars
        ((a.afterMatch c).emitRemainder c (limitOf c) (a.matching c).inc.remaining why)) := by
    intro why
    have hem := h.emitRemainder_eq (a.afterMatch c).toEngineVars c (limitOf c) (a.matching c).inc.remaining why
    rw [h.limitOf_eq hc]
    exact congrArg (r.engine (a.afterMatch c)).withVars hem
  unfold FlatEngine.handleAccepted
  simp only
  rw [hmatch, hafter]
  show (if (a.matching c).inc.remaining = 0 then _ else if rests c.ordType = false then _
    else if a.cfg.maxOrders ≤ (r.engine (a.afterMatch c)).orders.length then _ else _) = _
  rw [hlen]
  by_cases h0 : (a.matching c).inc.remaining = 0
  · rw [if_pos h0, if_pos h0]
  rw [if_neg h0, if_neg h0]
  by_cases hrest : rests c.ordType = false
  · rw [if_pos hrest, if_pos hrest]
    exact hremainder .none
  rw [if_neg hrest, if_neg hrest]
  by_cases hroom : a.cfg.maxOrders ≤ (a.afterMatch c).orders.length
  · rw [if_pos hroom, if_pos (by exact hroom)]
    exact hremainder .poolExhausted
  rw [if_neg hroom, if_neg (by exact hroom)]
  have hrest : rests c.ordType = true := by simpa using hrest
  have hprice : (a.matching c).inc.price = c.price := by
    rw [FlatEngine.matching_inc]
    exact FlatEngine.limitOf_rests hrest
  have hbook : ∀ o ∈ (a.afterMatch c).orders, rested o.price := by
    intro o' ho'
    obtain ⟨o, ho, hr⟩ := (Flat.shrinks_orders (FlatEngine.matching_shrinks a c)).mem ho'
    rw [hr.price]
    exact ha.orders o ho
  have hplace := h.place_eq (f := (a.afterMatch c).toFlat) (o := (a.matching c).inc) (by rw [hprice]; exact hl hrest) hbook
  exact congrArg (r.engine (a.afterMatch c)).withFlat hplace

theorem wouldCross_eq (ha : a.Labelled given rested) (hc : given c.price) :
    (r.engine a).wouldCross (r.command c) = a.wouldCross c := by
  have hside : (r.engine a).side (opposite (r.command c).side) = (a.side (opposite c.side)).map r.order := by
    show (r.flat a.toFlat).side (opposite (r.side c.side)) = _
    rw [← side_opposite, flat_side]
  unfold FlatEngine.wouldCross
  rw [hside, List.head?_map, h.limitOf_eq hc]
  cases hL : (a.side (opposite c.side)).head? with
  | none => rfl
  | some o => exact h.crosses_eq (h.given_limit hc) (ha.side _ o (List.mem_of_mem_head? hL))

theorem refusal_eq (hi : a.Inv) (ha : a.Labelled given rested) (hc : given c.price) :
    (r.engine a).refusal fillable (r.command c) = a.refusal fillable c := by
  have hband : (isMarket (r.command c) = false ∧ ¬ (r.engine a).inBand (r.command c).price) ↔
      (isMarket c = false ∧ ¬ a.inBand c.price) := by
    rw [h.isMarket_eq hc]
    refine and_congr_right fun hm => not_congr ?_
    refine h.band c.price hc fun e => ?_
    unfold isMarket at hm
    exact of_decide_eq_false hm (Or.inr e)
  have hfind : (r.engine a).find (r.command c).id ≠ none ↔ a.find c.id ≠ none := by
    show (r.flat a.toFlat).find c.id ≠ none ↔ _
    rw [find_eq hi]
    cases a.find c.id <;> simp
  unfold FlatEngine.refusal
  simp only [hband, hfind, h.wouldCross_eq ha hc]
  rfl

theorem handleNew_eq (hi : a.Inv) (ha : a.Labelled given rested) (hc : given c.price)
    (hl : rests c.ordType = true → rested c.price) :
    (r.engine a).handleNew fillable (r.command c) = r.engine (a.handleNew fillable c) := by
  unfold FlatEngine.handleNew
  rw [h.refusal_eq hi ha hc]
  cases a.refusal fillable c with
  | none => exact h.handleAccepted_eq ha hc hl
  | some why => exact congrArg (r.engine a).withVars (h.emitReject_eq a.toEngineVars c why)

/-- A Cancel is answered by what it finds. -/
theorem canceled_eq (hi : a.Inv) {o : OrderInfo} (ho : o ∈ a.orders) (ts : TsNanos) :
    ((r.engine a).withVars ((r.engine a).emitCanceled (r.order o) (r.stamp ts))).withFlat ((r.engine a).drop (r.order o)) =
      r.engine ((a.withVars (a.emitCanceled o ts)).withFlat (a.drop o)) := by
  have hem := h.emitCanceled_eq a.toEngineVars o ts
  have hdrop := drop_eq (r := r) hi ho
  unfold FlatEngine.withVars FlatEngine.withFlat Relabel.engine
  simp only [FlatEngine.mk.injEq, and_true]
  exact ⟨hem, hdrop⟩

theorem handleCancel_eq (hi : a.Inv) : (r.engine a).handleCancel (r.command c) = r.engine (a.handleCancel c) := by
  unfold FlatEngine.handleCancel
  have hfind : (r.engine a).find (r.command c).id = (a.find c.id).map r.order := find_eq hi c.id
  rw [hfind]
  cases hf : a.find c.id with
  | none => exact congrArg (r.engine a).withVars (h.emitReject_eq a.toEngineVars c .unknownOrder)
  | some o => exact h.canceled_eq hi (Flat.find_some hf).2.1 c.tsRecv

theorem rested_newPrice (hc : given cmd.price) {p : Price} (hp : rested p) : rested (newPrice cmd p) := by
  unfold newPrice
  split
  · exact hp
  · exact h.real _ hc (by assumption)

theorem keepsPlace_iff (hc : given cmd.price) {o : OrderInfo} (ho : rested o.price) :
    FlatEngine.keepsPlace (r.command cmd) (r.order o) ↔ FlatEngine.keepsPlace cmd o := by
  unfold FlatEngine.keepsPlace
  refine and_congr_left fun _ => ?_
  show newPrice (r.command cmd) (r.price o.price) = r.price o.price ↔ _
  rw [h.newPrice_eq hc]
  exact ⟨h.inj _ _ (given_newPrice hc (h.wider _ ho)) (h.wider _ ho), congrArg r.price⟩

theorem replacement_eq (hc : given cmd.price) (o : OrderInfo) :
    FlatEngine.replacement (r.command cmd) (r.order o) = r.command (FlatEngine.replacement cmd o) := by
  unfold FlatEngine.replacement
  show Command.makeNew cmd.id (r.client o.client) (r.side o.side) o.type (newPrice (r.command cmd) (r.price o.price))
    cmd.quantity (r.stamp cmd.tsRecv) = _
  rw [h.newPrice_eq hc]
  rfl

theorem handleModify_eq (hi : a.Inv) (ha : a.Labelled given rested) (hc : given cmd.price) :
    (r.engine a).handleModify fillable (r.command cmd) = r.engine (a.handleModify fillable cmd) := by
  have hfind : (r.engine a).find (r.command cmd).id = (a.find cmd.id).map r.order := find_eq hi cmd.id
  unfold FlatEngine.handleModify
  rw [hfind]
  cases hf : a.find cmd.id with
  | none => exact congrArg (r.engine a).withVars (h.emitReject_eq a.toEngineVars cmd .unknownOrder)
  | some o =>
    have ho : o ∈ a.orders := (Flat.find_some hf).2.1
    simp only [Option.map_some]
    by_cases h0 : cmd.quantity = 0
    · have h0' : (r.command cmd).quantity = 0 := h0
      rw [if_pos h0, if_pos h0']
      unfold FlatEngine.handleCancel
      rw [show (Command.makeCancel cmd.id cmd.client cmd.tsRecv).id = cmd.id from rfl, hf,
        show (Command.makeCancel (r.command cmd).id (r.command cmd).client (r.command cmd).tsRecv).id =
          (r.command cmd).id from rfl, hfind, hf]
      exact h.canceled_eq hi ho cmd.tsRecv
    have h0' : ¬ (r.command cmd).quantity = 0 := h0
    rw [if_neg h0, if_neg h0']
    by_cases hk : FlatEngine.keepsPlace cmd o
    · rw [if_pos hk, if_pos ((h.keepsPlace_iff hc (ha.orders o ho)).mpr hk)]
      have hem := h.emitReplaced_eq a.toEngineVars { o with remaining := cmd.quantity } cmd.quantity cmd.tsRecv
      have hswap := @swap_eq r _ _ _ o { o with remaining := cmd.quantity } hi ho
      unfold FlatEngine.withVars FlatEngine.withFlat Relabel.engine
      simp only [FlatEngine.mk.injEq, and_true]
      exact ⟨hem, hswap⟩
    · rw [if_neg hk, if_neg (mt (h.keepsPlace_iff hc (ha.orders o ho)).mp hk), h.replacement_eq hc]
      have hdrop : (r.engine a).withFlat ((r.engine a).drop (r.order o)) = r.engine (a.withFlat (a.drop o)) :=
        congrArg (r.engine a).withFlat (drop_eq hi ho)
      rw [hdrop]
      have hsides := FlatEngine.drop_sides a o
      have hib : (a.withFlat (a.drop o)).Inv := Flat.Inv.shrink hi hsides (Nat.le_refl _)
      exact handleNew_eq (a := a.withFlat (a.drop o)) h hib (ha.shrink rfl hsides)
        (given_newPrice hc (h.wider _ (ha.orders o ho))) fun _ => h.rested_newPrice hc (ha.orders o ho)

theorem dispatch_eq (hi : a.Inv) (ha : a.Labelled given rested) (hc : given cmd.price)
    (hnew : cmd.Unpriced → rested kNoPrice) :
    (r.engine a).dispatch fillable (r.command cmd) = r.engine (a.dispatch fillable cmd) := by
  have htype : (r.command cmd).type = cmd.type := rfl
  unfold FlatEngine.dispatch
  rw [htype]
  cases ht : cmd.type with
  | new =>
    simp only
    show (if a.halted then _ else _) = _
    by_cases hh : a.halted = true
    · rw [if_pos hh, if_pos hh]
      exact congrArg (r.engine a).withVars (h.emitReject_eq a.toEngineVars cmd .bookHalted)
    · rw [if_neg hh, if_neg hh]
      refine h.handleNew_eq hi ha hc fun hrest => ?_
      by_cases he : cmd.price = kNoPrice
      · rw [he]
        exact hnew ⟨ht, hrest, he⟩
      · exact h.real _ hc he
  | cancel => exact h.handleCancel_eq hi
  | modify => exact h.handleModify_eq hi ha hc

/-! ## Quotes -/

theorem emitBookChanged_eq {v : EngineVars} (ts : TsNanos) {px : Side → Price} (qty : Side → Quantity)
    (hpx : ∀ s, given (px s)) (hbid : given v.lastBid) (hask : given v.lastAsk) :
    (r.vars v).emitBookChanged (r.stamp ts) (r.price (px (r.side .buy))) (r.price (px (r.side .sell))) (qty (r.side .buy))
      (qty (r.side .sell)) = r.vars (v.emitBookChanged ts (px .buy) (px .sell) (qty .buy) (qty .sell)) := by
  have hinj : ∀ s x, given x → (r.price (px s) = r.price x ↔ px s = x) := fun s x hx =>
    ⟨h.inj _ _ (hpx s) hx, congrArg r.price⟩
  have hsame : (r.price (px (r.side .buy)) = r.price (r.pick v.lastBid v.lastAsk) ∧
      r.price (px (r.side .sell)) = r.price (r.pick v.lastAsk v.lastBid)) ↔ px .buy = v.lastBid ∧ px .sell = v.lastAsk := by
    unfold Relabel.pick Relabel.side
    cases r.flip with
    | false => exact and_congr (hinj .buy _ hbid) (hinj .sell _ hask)
    | true => exact (and_congr (hinj .sell _ hask) (hinj .buy _ hbid)).trans And.comm
  have hevent := bookChange_eq (r := r) ts px qty
  rw [h.anonymous, h.sentinel.2] at hevent
  unfold EngineVars.emitBookChanged
  by_cases he : px .buy = v.lastBid ∧ px .sell = v.lastAsk
  · rw [if_pos he, if_pos (by exact hsame.mpr he)]
  · rw [if_neg he, if_neg (by exact mt hsame.mp he), newEvent_eq, hevent]
    unfold Relabel.vars
    simp only [r.pick_side px, r.pick_side' px]
    rfl

theorem given_top (ha : a.Labelled given rested) (s : Side) : given (a.top s) := by
  unfold Flat.top
  cases hL : (a.side s).head? with
  | none => exact h.sentinel.1
  | some o => exact h.wider _ (ha.side s o (List.mem_of_mem_head? hL))

theorem bookChanged_eq (ha : a.Labelled given rested) (ts : TsNanos) :
    (r.engine a).bookChanged (r.stamp ts) = r.engine (a.bookChanged ts) := by
  have htop : ∀ s, (r.engine a).top s = r.price (a.top (r.side s)) := by
    intro s
    have ht := h.top_eq (f := a.toFlat) (r.side s)
    rw [side_side] at ht
    exact ht
  have hsize : ∀ s, Flat.topSize ((r.engine a).side s) = Flat.topSize (a.side (r.side s)) := fun s =>
    h.topSize_eq (ha.side _)
  have hem := @emitBookChanged_eq _ _ _ _ h a.toEngineVars ts a.top (fun s => UInt64.ofNat (Flat.topSize (a.side s)))
    (h.given_top ha) ha.bid ha.ask
  unfold FlatEngine.bookChanged
  rw [htop, htop, hsize, hsize]
  exact congrArg (r.engine a).withVars hem

theorem finish_eq (ha : a.Labelled given rested) : (r.engine a).finish (r.command cmd) = r.engine (a.finish cmd) := by
  have hquote : (if (r.engine a).cfg.emitBookChanged then (r.engine a).bookChanged (r.stamp cmd.tsRecv) else r.engine a) =
      r.engine (if a.cfg.emitBookChanged then a.bookChanged cmd.tsRecv else a) := by
    rw [h.bookChanged_eq ha, apply_ite r.engine]
    rfl
  unfold FlatEngine.finish
  simp only
  rw [show (r.command cmd).tsRecv = r.stamp cmd.tsRecv from rfl, hquote]
  rfl

/-- A command does to the relabelled engine what it does to the engine, relabelled. -/
theorem process (hi : a.Inv) (ha : a.Labelled given rested) (hc : given cmd.price) (hnew : cmd.Unpriced → rested kNoPrice)
    (hd : ((a.withVars (a.start 0 cmd)).dispatch fillable cmd).Labelled given rested) :
    (r.engine a).process fillable (r.command cmd) = r.engine (a.process fillable cmd) := by
  have hs : (a.withVars (a.start 0 cmd)).Labelled given rested := ⟨ha.orders, ha.bid, ha.ask⟩
  have hdispatch := @dispatch_eq r given rested (a.withVars (a.start 0 cmd)) cmd fillable h hi hs hc hnew
  have hcfg := FlatEngine.dispatch_cfg (a.withVars (a.start 0 cmd)) fillable cmd
  unfold FlatEngine.process
  show ((r.engine (a.withVars (a.start 0 cmd))).dispatch fillable (r.command cmd)).finish (r.command cmd) = _
  rw [hdispatch]
  exact finish_eq (by rw [hcfg]; exact h) hd

end Relabel.Fits

/-! ## What keeps the labels fitting -/

namespace FlatEngine.Labelled

variable {a a' : FlatEngine} {cmd : Command} {fillable : Bool} (h : r.Fits a.cfg given rested)
include h

theorem moves (ha : a.Labelled given rested) (hc : given cmd.price) (hnew : cmd.Unpriced → rested kNoPrice)
    (hm : Moves a fillable cmd a') : a'.Labelled given rested := by
  cases hm with
  | shrinks n kept le sides =>
    refine ⟨fun o' ho' => ?_, by rw [kept.lastBid]; exact ha.bid, by rw [kept.lastAsk]; exact ha.ask⟩
    obtain ⟨o, ho, hr⟩ := (Flat.shrinks_orders sides).mem ho'
    rw [hr.price]
    exact ha.orders o ho
  | lands b c g o kept before sides landing result origin =>
    have hprice : rested c.price := by
      rcases origin with ⟨rfl, ht, _, _⟩ | ⟨old, hold, _, _, rfl, _⟩
      · by_cases he : c.price = kNoPrice
        · rw [he]
          exact hnew ⟨ht, landing.kind, he⟩
        · exact h.real _ hc he
      · exact h.rested_newPrice hc (ha.orders old hold)
    refine ⟨fun x hx => ?_, by rw [kept.lastBid]; exact ha.bid, by rw [kept.lastAsk]; exact ha.ask⟩
    rw [result, (Flat.place_perm g o).mem_iff, List.mem_cons] at hx
    rcases hx with rfl | hx
    · rw [landing.price_eq]
      exact hprice
    · rw [landing.book] at hx
      obtain ⟨y, hy, hr⟩ := (Flat.shrinks_orders fun s => (matching_shrinks b c s).trans (sides s)).mem hx
      rw [hr.price]
      exact ha.orders y hy

theorem finish (ha : a.Labelled given rested) (cmd : Command) : (a.finish cmd).Labelled given rested := by
  have hquote : (a.bookChanged cmd.tsRecv).Labelled given rested := by
    refine ⟨ha.orders, ?_, ?_⟩
    · unfold bookChanged EngineVars.emitBookChanged
      split
      · exact ha.bid
      · exact h.given_top ha .buy
    · unfold bookChanged EngineVars.emitBookChanged
      split
      · exact ha.ask
      · exact h.given_top ha .sell
  unfold FlatEngine.finish
  simp only
  split
  · exact ⟨hquote.orders, hquote.bid, hquote.ask⟩
  · exact ⟨ha.orders, ha.bid, ha.ask⟩

end FlatEngine.Labelled

/-- One command, of prices that fit. -/
theorem Relabel.Fits.step {a : FlatEngine} {cmd : Command} (h : r.Fits a.cfg given rested) (hi : a.Inv)
    (ha : a.Labelled given rested) (hc : given cmd.price) (hnew : cmd.Unpriced → rested kNoPrice) (fillable : Bool) :
    (r.engine a).process fillable (r.command cmd) = r.engine (a.process fillable cmd) ∧
    (a.process fillable cmd).Labelled given rested := by
  have hs : (a.withVars (a.start 0 cmd)).Labelled given rested := ⟨ha.orders, ha.bid, ha.ask⟩
  have hm := FlatEngine.dispatch_moves (a.withVars (a.start 0 cmd)) fillable cmd
  have hd := FlatEngine.Labelled.moves (a := a.withVars (a.start 0 cmd)) h hs hc hnew hm
  have hcfg := FlatEngine.dispatch_cfg (a.withVars (a.start 0 cmd)) fillable cmd
  exact ⟨h.process hi ha hc hnew hd, FlatEngine.Labelled.finish (by rw [hcfg]; exact h) hd cmd⟩

/-! ## Runs -/

/-- The input, relabelled. -/
def Relabel.input (r : Relabel) : Engine.Input → Engine.Input
  | .command now cmd => .command now (r.command cmd)
  | .setHalted b => .setHalted b

namespace Relabel.Fits

theorem engine_init (h : r.Fits cfg given rested) (cap : Nat) : r.engine (FlatEngine.init cfg cap) = FlatEngine.init cfg cap := by
  unfold Relabel.engine Relabel.vars FlatEngine.init
  simp only [r.pick_self, h.sentinel.2]
  rfl

theorem fillable_eq {a : FlatEngine} (h : r.Fits a.cfg given rested) (ha : a.Labelled given rested) {cmd : Command}
    (hc : given cmd.price) : (r.engine a).fillable (r.command cmd) = a.fillable cmd := by
  have hside : (r.engine a).side (opposite (r.command cmd).side) = (a.side (opposite cmd.side)).map r.order := by
    show (r.flat a.toFlat).side (opposite (r.side cmd.side)) = _
    rw [← side_opposite, flat_side]
  unfold FlatEngine.fillable FlatEngine.marketable
  rw [hside, h.limitOf_eq hc]
  show decide (cmd.quantity ≤ UInt64.ofNat (Flat.openSize (((a.side (opposite cmd.side)).map r.order).takeWhile
    fun o => crosses (r.side cmd.side) (r.price (limitOf cmd)) o.price))) = _
  rw [h.crossed_eq (h.given_limit hc) (ha.side _)]

/-- A flat run of relabelled inputs is the run, relabelled. -/
theorem steps_eq : ∀ (is : List Engine.Input) (a : FlatEngine), r.Fits a.cfg given rested → a.Inv → a.Labelled given rested →
    (∀ i ∈ is, i.Obeys fun cmd => given cmd.price ∧ (cmd.Unpriced → rested kNoPrice)) →
    (r.engine a).steps (is.map r.input) = r.engine (a.steps is) ∧ (a.steps is).cfg = a.cfg ∧
      (a.steps is).Labelled given rested := by
  intro is
  induction is with
  | nil => intro a _ _ ha _; exact ⟨rfl, rfl, ha⟩
  | cons i is ih =>
    intro a h hi ha his
    have hrest := fun j hj => his j (List.mem_cons_of_mem _ hj)
    cases i with
    | setHalted b => exact ih (a.setHalted b) h hi ⟨ha.orders, ha.bid, ha.ask⟩ hrest
    | command now cmd =>
      obtain ⟨hc, hnew⟩ := his _ (List.mem_cons_self ..)
      obtain ⟨hstep, hlab⟩ := h.step hi ha hc hnew (a.fillable cmd)
      have hcfg : (a.process (a.fillable cmd) cmd).cfg = a.cfg := a.step_cfg a.fillable (.command now cmd)
      obtain ⟨h1, h2, h3⟩ := ih (a.process (a.fillable cmd) cmd) (by rw [hcfg]; exact h) (hi.process _ _) hlab hrest
      refine ⟨?_, h2.trans hcfg, h3⟩
      show ((r.engine a).process ((r.engine a).fillable (r.command cmd)) (r.command cmd)).steps (is.map r.input) = _
      rw [h.fillable_eq ha hc, hstep]
      exact h1

theorem run_eq (h : r.Fits cfg given rested) {is : List Engine.Input}
    (his : ∀ i ∈ is, i.Obeys fun cmd => given cmd.price ∧ (cmd.Unpriced → rested kNoPrice)) :
    FlatEngine.run cfg (is.map r.input) = r.engine (FlatEngine.run cfg is) ∧ (FlatEngine.run cfg is).cfg = cfg ∧
      (FlatEngine.run cfg is).Labelled given rested := by
  have hinit : (FlatEngine.init cfg (FlatEngine.initCap cfg)).Labelled given rested :=
    ⟨fun o ho => absurd ho List.not_mem_nil, h.sentinel.1, h.sentinel.1⟩
  have hsteps := steps_eq is (FlatEngine.init cfg (FlatEngine.initCap cfg)) h (FlatEngine.Inv.init _ _) hinit his
  rw [h.engine_init] at hsteps
  exact hsteps

/-- The rows of a relabelled list. -/
theorem rows_eq (h : r.Fits cfg given rested) {L : List OrderInfo} (hL : ∀ o ∈ L, rested o.price) :
    Flat.rows (L.map r.order) = (Flat.rows L).map fun d => { d with price := r.price d.price } := by
  have hsame : ∀ x ∈ L, ∀ y ∈ L, decide ((r.order x).price = (r.order y).price) = decide (x.price = y.price) :=
    fun x hx y hy => decide_eq_decide.mpr
      ⟨h.inj _ _ (h.wider _ (hL x hx)) (h.wider _ (hL y hy)), congrArg r.price⟩
  have hsplit := splitBy_price_map hsame
  unfold Flat.rows
  rw [hsplit, List.map_map, List.map_map]
  refine List.map_congr_left fun G _ => ?_
  simp only [Function.comp_apply, openSize_eq, List.length_map, List.head?_map]
  cases G.head? with
  | none => simp only [Option.map_none, Option.getD_none, h.sentinel.2]
  | some o => rfl

end Relabel.Fits

end Lob
