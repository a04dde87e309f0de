/-
  Lob.Engine.Reports — the engine's configuration, counters and outbound events
  (`matching_engine.hpp`, `matching_engine.cpp`).

  `EngineVars` is what `BasicMatchingEngine` keeps beside its book, pool and index. Each
  place of the source that fills in an event is a function here, so that the events of
  the engine and of the flat engine it refines are the same by construction; what each
  one is given is up to the caller.
-/

import Lob.Types

namespace Lob

structure EngineConfig where
  minPrice : Price := 1
  maxPrice : Price := 1000000
  maxOrders : Nat := 1000000
  stp : StpMode := .none
  emitBookChanged : Bool := true
  deriving DecidableEq, Repr

structure EngineStats where
  commands : Nat := 0
  newOrders : Nat := 0
  cancels : Nat := 0
  modifies : Nat := 0
  rejects : Nat := 0
  trades : Nat := 0
  sharesTraded : Quantity := 0
  peakResting : Nat := 0
  deriving DecidableEq, Repr

structure EngineVars where
  out : List Event := []
  seq : Sequence := 0
  arrival : Sequence := 0
  curTsOut : TsNanos := 0
  stats : EngineStats := {}
  halted : Bool := false
  lastBid : Price := kNoPrice
  lastAsk : Price := kNoPrice
  deriving DecidableEq, Repr

/-! ## Outbound events, before they are numbered -/

namespace Event

def reject (cmd : Command) (r : RejectReason) : Event :=
  { type := .rejected, orderId := cmd.id, client := cmd.client, side := cmd.side, price := cmd.price,
    quantity := cmd.quantity, leaves := 0, reason := r, tsIn := cmd.tsRecv }

def bookChange (tsIn : TsNanos) (bid ask : Price) (bidQty askQty : Quantity) : Event :=
  { type := .bookChanged, tsIn := tsIn, bidPx := bid, askPx := ask, bidQty := bidQty, askQty := askQty }

/-- Self-trade prevention stops the incoming order. -/
def stpAggressor (inc : OrderInfo) (client : ClientId) : Event :=
  { type := .canceled, orderId := inc.id, client := client, side := inc.side, price := inc.price, leaves := 0,
    reason := .selfTradePrevented, tsIn := inc.tsRecv }

/-- Self-trade prevention pulls the resting order. -/
def stpResting (inc resting : OrderInfo) : Event :=
  { type := .canceled, orderId := resting.id, client := resting.client, side := resting.side, price := resting.price,
    leaves := 0, reason := .selfTradePrevented, tsIn := inc.tsRecv }

def takerFill (inc resting : OrderInfo) (traded : Quantity) : Event :=
  { type := .fill, orderId := inc.id, contraId := resting.id, client := inc.client, side := inc.side,
    price := resting.price, quantity := traded, leaves := inc.remaining - traded, aggressor := true,
    tsIn := inc.tsRecv }

def makerFill (inc resting : OrderInfo) (traded : Quantity) : Event :=
  { type := .fill, orderId := resting.id, contraId := inc.id, client := resting.client, side := resting.side,
    price := resting.price, quantity := traded, leaves := resting.remaining - traded, aggressor := false,
    tsIn := inc.tsRecv }

def trade (inc resting : OrderInfo) (traded : Quantity) : Event :=
  { type := .trade, orderId := inc.id, contraId := resting.id, side := inc.side, price := resting.price,
    quantity := traded, tsIn := inc.tsRecv }

def accept (cmd : Command) (limit : Price) : Event :=
  { type := .accepted, orderId := cmd.id, client := cmd.client, side := cmd.side, price := limit,
    quantity := cmd.quantity, leaves := cmd.quantity, aggressor := true, tsIn := cmd.tsRecv }

/-- What is left of an order that does not rest: immediate or market, or the pool is full. -/
def remainder (cmd : Command) (limit : Price) (remaining : Quantity) (reason : RejectReason) : Event :=
  { type := .canceled, orderId := cmd.id, client := cmd.client, side := cmd.side, price := limit,
    quantity := remaining, leaves := 0, reason := reason, tsIn := cmd.tsRecv }

def cancel (o : OrderInfo) (tsIn : TsNanos) : Event :=
  { type := .canceled, orderId := o.id, client := o.client, side := o.side, price := o.price,
    quantity := o.remaining, leaves := 0, tsIn := tsIn }

def replace (o : OrderInfo) (newQty : Quantity) (tsIn : TsNanos) : Event :=
  { type := .replaced, orderId := o.id, client := o.client, side := o.side, price := o.price,
    quantity := newQty, leaves := o.remaining, tsIn := tsIn }

end Event

namespace EngineVars

variable (v : EngineVars)

/-- `new_event`, with the fields its callers set on the event it returns. -/
def newEvent (e : Event) : EngineVars :=
  { v with out := v.out ++ [{ e with seq := v.seq + 1, tsOut := v.curTsOut }], seq := v.seq + 1 }

def emitReject (cmd : Command) (r : RejectReason) : EngineVars :=
  { v with stats := { v.stats with rejects := v.stats.rejects + 1 } }.newEvent (.reject cmd r)

def emitBookChanged (tsIn : TsNanos) (bid ask : Price) (bidQty askQty : Quantity) : EngineVars :=
  if bid = v.lastBid ∧ ask = v.lastAsk then v
  else { v with lastBid := bid, lastAsk := ask }.newEvent (.bookChange tsIn bid ask bidQty askQty)

def emitStpAggressor (inc : OrderInfo) (client : ClientId) : EngineVars := v.newEvent (.stpAggressor inc client)
def emitStpResting (inc resting : OrderInfo) : EngineVars := v.newEvent (.stpResting inc resting)

/-- The three events of one match, and its counters. -/
def emitTrade (inc resting : OrderInfo) (traded : Quantity) : EngineVars :=
  let v := ((v.newEvent (.takerFill inc resting traded)).newEvent (.makerFill inc resting traded)).newEvent
    (.trade inc resting traded)
  { v with stats := { v.stats with trades := v.stats.trades + 1, sharesTraded := v.stats.sharesTraded + traded } }

def emitAccepted (cmd : Command) (limit : Price) : EngineVars := v.newEvent (.accept cmd limit)

def emitRemainder (cmd : Command) (limit : Price) (remaining : Quantity) (reason : RejectReason) : EngineVars :=
  v.newEvent (.remainder cmd limit remaining reason)

def emitCanceled (o : OrderInfo) (tsIn : TsNanos) : EngineVars := v.newEvent (.cancel o tsIn)

def emitReplaced (o : OrderInfo) (newQty : Quantity) (tsIn : TsNanos) : EngineVars :=
  v.newEvent (.replace o newQty tsIn)

/-! ## `process` -/

/-- What `process` does before it dispatches. -/
def start (now : TsNanos) (cmd : Command) : EngineVars :=
  { v with
    out := []
    curTsOut := now
    stats := match cmd.type with
      | .new => { v.stats with commands := v.stats.commands + 1, newOrders := v.stats.newOrders + 1 }
      | .cancel => { v.stats with commands := v.stats.commands + 1, cancels := v.stats.cancels + 1 }
      | .modify => { v.stats with commands := v.stats.commands + 1, modifies := v.stats.modifies + 1 } }

/-- `stats_.peak_resting = max(stats_.peak_resting, index_.size())`. -/
def tickPeak (size : Nat) : EngineVars :=
  { v with stats := { v.stats with peakResting := max v.stats.peakResting size } }

/-! ## What reporting leaves alone -/

/-- `v'` is `v` with more reported. -/
structure Reported (v v' : EngineVars) : Prop where
  arrival : v'.arrival = v.arrival
  halted : v'.halted = v.halted
  lastBid : v'.lastBid = v.lastBid
  lastAsk : v'.lastAsk = v.lastAsk
  curTsOut : v'.curTsOut = v.curTsOut

variable {v}

theorem Reported.refl (v : EngineVars) : Reported v v := ⟨rfl, rfl, rfl, rfl, rfl⟩

theorem Reported.trans {v' v'' : EngineVars} (h : Reported v v') (h' : Reported v' v'') : Reported v v'' :=
  ⟨h'.arrival.trans h.arrival, h'.halted.trans h.halted, h'.lastBid.trans h.lastBid, h'.lastAsk.trans h.lastAsk,
    h'.curTsOut.trans h.curTsOut⟩

theorem reported_newEvent (e : Event) : Reported v (v.newEvent e) := ⟨rfl, rfl, rfl, rfl, rfl⟩

theorem reported_reject (cmd : Command) (r : RejectReason) : Reported v (v.emitReject cmd r) := ⟨rfl, rfl, rfl, rfl, rfl⟩

theorem reported_trade (inc resting : OrderInfo) (traded : Quantity) : Reported v (v.emitTrade inc resting traded) :=
  ⟨rfl, rfl, rfl, rfl, rfl⟩

end EngineVars

/-! ## Reports without the clock -/

def Event.untimed (e : Event) : Event := { e with tsOut := 0 }

namespace EngineVars

def untimed (v : EngineVars) : EngineVars := { v with out := v.out.map Event.untimed, curTsOut := 0 }

@[simp] theorem untimed_newEvent (v : EngineVars) (e : Event) : (v.newEvent e).untimed = v.untimed.newEvent e := by
  unfold untimed newEvent
  simp [Event.untimed]

@[simp] theorem untimed_stpAggressor (v : EngineVars) (inc : OrderInfo) (client : ClientId) :
    (v.emitStpAggressor inc client).untimed = v.untimed.emitStpAggressor inc client := untimed_newEvent v _

@[simp] theorem untimed_stpResting (v : EngineVars) (inc resting : OrderInfo) :
    (v.emitStpResting inc resting).untimed = v.untimed.emitStpResting inc resting := untimed_newEvent v _

@[simp] theorem untimed_trade (v : EngineVars) (inc resting : OrderInfo) (traded : Quantity) :
    (v.emitTrade inc resting traded).untimed = v.untimed.emitTrade inc resting traded := by
  unfold untimed emitTrade newEvent
  simp [Event.untimed]

@[simp] theorem untimed_reject (v : EngineVars) (cmd : Command) (r : RejectReason) :
    (v.emitReject cmd r).untimed = v.untimed.emitReject cmd r := by
  unfold emitReject
  rw [untimed_newEvent]; rfl

@[simp] theorem untimed_accepted (v : EngineVars) (cmd : Command) (limit : Price) :
    (v.emitAccepted cmd limit).untimed = v.untimed.emitAccepted cmd limit := untimed_newEvent v _

@[simp] theorem untimed_remainder (v : EngineVars) (cmd : Command) (limit : Price) (q : Quantity) (r : RejectReason) :
    (v.emitRemainder cmd limit q r).untimed = v.untimed.emitRemainder cmd limit q r := untimed_newEvent v _

@[simp] theorem untimed_canceled (v : EngineVars) (o : OrderInfo) (ts : TsNanos) :
    (v.emitCanceled o ts).untimed = v.untimed.emitCanceled o ts := untimed_newEvent v _

@[simp] theorem untimed_replaced (v : EngineVars) (o : OrderInfo) (q : Quantity) (ts : TsNanos) :
    (v.emitReplaced o q ts).untimed = v.untimed.emitReplaced o q ts := untimed_newEvent v _

@[simp] theorem untimed_bookChanged (v : EngineVars) (ts : TsNanos) (bid ask : Price) (bq aq : Quantity) :
    (v.emitBookChanged ts bid ask bq aq).untimed = v.untimed.emitBookChanged ts bid ask bq aq := by
  unfold emitBookChanged
  by_cases h : bid = v.lastBid ∧ ask = v.lastAsk
  · rw [if_pos h, if_pos (show bid = v.untimed.lastBid ∧ ask = v.untimed.lastAsk from h)]
  · rw [if_neg h, if_neg (show ¬ (bid = v.untimed.lastBid ∧ ask = v.untimed.lastAsk) from h), untimed_newEvent]; rfl

@[simp] theorem untimed_start (v : EngineVars) (now : TsNanos) (cmd : Command) :
    (v.start now cmd).untimed = v.untimed.start 0 cmd := by
  unfold start untimed; rfl

@[simp] theorem untimed_tickPeak (v : EngineVars) (size : Nat) : (v.tickPeak size).untimed = v.untimed.tickPeak size := rfl

end EngineVars

/-! ## Decisions both engines make alike -/

/-- `is_market` in `handle_new`. -/
def isMarket (cmd : Command) : Bool := decide (cmd.ordType = .market ∨ cmd.price = kNoPrice)

/-- `limit` in `handle_new`. -/
def limitOf (cmd : Command) : Price := if isMarket cmd then kNoPrice else cmd.price

/-- The order `handle_new` fills in, the `arrival`-th accepted. -/
def incomingOrder (cmd : Command) (arrival : Sequence) : OrderInfo :=
  { id := cmd.id, client := cmd.client, price := limitOf cmd, quantity := cmd.quantity, remaining := cmd.quantity,
    side := cmd.side, type := cmd.ordType, tsRecv := cmd.tsRecv, seq := arrival }

/-- `new_price` in `handle_modify`. -/
def newPrice (cmd : Command) (oldPrice : Price) : Price := if cmd.price = kNoPrice then oldPrice else cmd.price

/-- `rests` in `handle_new`. -/
def rests (t : OrderType) : Bool := decide (t = .limit ∨ t = .postOnly)

end Lob
