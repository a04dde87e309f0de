/-
  Lob.Engine.Flat — what the engine is for: the same engine over two flat lists.

  This is the abstract engine, not a translation. A side is the list of its resting
  orders in priority order; an order is found by its id, without slots, levels or an
  index. `refMatch` is the reference matcher: it walks the opposite list from the top.
  Two numbers are kept of the index, because `resting_orders()` reports them: its size
  and its capacity.

  `fillable` is the answer of the fill-or-kill sizing, `FlatEngine.marketable` the one the
  flat lists give.
-/

import Lob.Engine.Reports

namespace Lob

structure Flat where
  side : Side → List OrderInfo
  size : Nat
  cap : Nat

namespace Flat

variable (f : Flat)

def orders : List OrderInfo := f.side .buy ++ f.side .sell

/-- Resting orders the index can hold: id 0 marks its empty slots. -/
def live : Nat := (f.orders.filter fun o => o.id ≠ 0).length

def find (id : OrderId) : Option OrderInfo := if id = 0 then none else f.orders.find? fun o => o.id = id

def setList (s : Side) (L : List OrderInfo) : Flat :=
  { f with side := fun t => if t = s then L else f.side t }

def drop (o : OrderInfo) : Flat :=
  { f.setList o.side ((f.side o.side).erase o) with size := if o.id = 0 then f.size else f.size - 1 }

def swap (o o' : OrderInfo) : Flat := f.setList o.side ((f.side o.side).replace o o')

/-- Behind every order that is not worse. -/
def enqueue (o : OrderInfo) (L : List OrderInfo) : List OrderInfo :=
  L.takeWhile (fun x => decide (¬ better o.side o.price x.price)) ++
    o :: L.dropWhile (fun x => decide (¬ better o.side o.price x.price))

/-- `index_.insert` grows a table that is three quarters full, dropping what it cannot find. -/
def full : Bool := decide ((f.size + 1) * 4 ≥ f.cap * 3)

def place (o : OrderInfo) : Flat :=
  { f.setList o.side (enqueue o (f.side o.side)) with
    size := (if f.full then f.live else f.size) + 1
    cap := if f.full then 2 * f.cap else f.cap }

/-- The open size of a list. -/
def openSize (L : List OrderInfo) : Nat := (L.map fun o => o.remaining.toNat).sum

def top (s : Side) : Price := ((f.side s).head?.map (·.price)).getD kNoPrice

/-- The open size at the best price of a list. -/
def topSize (L : List OrderInfo) : Nat :=
  match L with
  | [] => 0
  | o :: _ => openSize (L.takeWhile fun x => x.price = o.price)

/-- The rows of a depth snapshot, one a price. -/
def rows (L : List OrderInfo) : List DepthEntry :=
  (L.splitBy fun o o' => decide (o.price = o'.price)).map fun G =>
    ⟨(G.head?.map (·.price)).getD kNoPrice, UInt64.ofNat (openSize G), UInt32.ofNat G.length⟩

end Flat

/-! ## The reference matcher -/

structure Matched where
  vars : EngineVars
  inc : OrderInfo
  filled : Quantity
  /-- The resting orders that left, in order. -/
  gone : List OrderInfo
  /-- What is left of the list. -/
  left : List OrderInfo

def Matched.after (o : OrderInfo) (r : Matched) : Matched := { r with gone := o :: r.gone }

/-- The incoming order reaches the resting one. -/
def reaches (inc o : OrderInfo) : Bool := decide (inc.type = .market) || crosses inc.side inc.price o.price

def refMatch (stp : StpMode) (client : ClientId) : EngineVars → OrderInfo → Quantity → List OrderInfo → Matched
  | v, inc, filled, [] => ⟨v, inc, filled, [], []⟩
  | v, inc, filled, o :: rest =>
    if inc.remaining = 0 ∨ reaches inc o = false then ⟨v, inc, filled, [], o :: rest⟩
    else if stp ≠ .none ∧ o.client = client then
      if stp = .cancelAggressor then
        ⟨v.emitStpAggressor inc client, { inc with remaining := 0 }, filled, [], o :: rest⟩
      else (refMatch stp client (v.emitStpResting inc o) inc filled rest).after o
    else
      let traded := min inc.remaining o.remaining
      let v := v.emitTrade inc o traded
      let inc := { inc with remaining := inc.remaining - traded }
      if o.remaining = traded then (refMatch stp client v inc (filled + traded) rest).after o
      else ⟨v, inc, filled + traded, [], { o with remaining := o.remaining - traded } :: rest⟩

/-! ## The flat engine -/

structure FlatEngine extends EngineVars, Flat where
  cfg : EngineConfig

namespace FlatEngine

def init (cfg : EngineConfig) (cap : Nat) : FlatEngine :=
  { side := fun _ => [], size := 0, cap := cap, cfg := cfg }

variable (a : FlatEngine)

def setHalted (h : Bool) : FlatEngine := { a with halted := h }
def withVars (v : EngineVars) : FlatEngine := { a with toEngineVars := v }
def withFlat (f : Flat) : FlatEngine := { a with toFlat := f }

/-- The next arrival, acknowledged. -/
def accepted (cmd : Command) : EngineVars :=
  { a.toEngineVars with arrival := a.arrival + 1 }.emitAccepted cmd (limitOf cmd)

/-- The match of an accepted order. -/
def matching (cmd : Command) : Matched :=
  refMatch a.cfg.stp cmd.client (a.accepted cmd) (incomingOrder cmd (a.arrival + 1)) 0 (a.side (opposite cmd.side))

/-- The engine after a match of an order on side `s`. -/
def matched (s : Side) (r : Matched) : FlatEngine :=
  (a.withVars r.vars).withFlat { a.toFlat.setList (opposite s) r.left with
    size := a.size - (r.gone.filter fun o => o.id ≠ 0).length }

/-- The engine once the order of `cmd` is matched. -/
def afterMatch (cmd : Command) : FlatEngine := a.matched cmd.side (a.matching cmd)

def marketable (side : Side) (limit : Price) : Nat :=
  Flat.openSize ((a.side (opposite side)).takeWhile fun o => crosses side limit o.price)

def wouldCross (cmd : Command) : Bool :=
  match (a.side (opposite cmd.side)).head? with
  | none => false
  | some o => crosses cmd.side (limitOf cmd) o.price

def inBand (p : Price) : Prop := a.cfg.minPrice ≤ p ∧ p ≤ a.cfg.maxPrice

instance (p : Price) : Decidable (a.inBand p) := by unfold inBand; infer_instance

def refusal (fillable : Bool) (cmd : Command) : Option RejectReason :=
  if cmd.quantity = 0 then some .zeroQuantity
  else if isMarket cmd = false ∧ ¬ a.inBand cmd.price then some .priceOutOfBand
  else if a.find cmd.id ≠ none then some .duplicateOrderId
  else if cmd.ordType = .postOnly ∧ a.wouldCross cmd = true then some .postOnlyWouldCross
  else if cmd.ordType = .fok ∧ fillable = false then some .fokUnfillable
  else none

/-- An accepted order: matched, and what is left of it rests or is canceled. -/
def handleAccepted (cmd : Command) : FlatEngine :=
  let r := a.matching cmd
  let a := a.afterMatch cmd
  if r.inc.remaining = 0 then a
  else if rests cmd.ordType = false then a.withVars (a.emitRemainder cmd (limitOf cmd) r.inc.remaining .none)
  else if a.cfg.maxOrders ≤ a.orders.length then
    a.withVars (a.emitRemainder cmd (limitOf cmd) r.inc.remaining .poolExhausted)
  else a.withFlat (a.place r.inc)

def handleNew (fillable : Bool) (cmd : Command) : FlatEngine :=
  match a.refusal fillable cmd with
  | some r => a.withVars (a.emitReject cmd r)
  | none => a.handleAccepted cmd

def handleCancel (cmd : Command) : FlatEngine :=
  match a.find cmd.id with
  | none => a.withVars (a.emitReject cmd .unknownOrder)
  | some o => (a.withVars (a.emitCanceled o cmd.tsRecv)).withFlat (a.drop o)

/-- The order a modify that loses priority sends in again. -/
def replacement (cmd : Command) (o : OrderInfo) : Command :=
  Command.makeNew cmd.id o.client o.side o.type (newPrice cmd o.price) cmd.quantity cmd.tsRecv

/-- Size down at the same price keeps the place in the queue. -/
def keepsPlace (cmd : Command) (o : OrderInfo) : Prop :=
  newPrice cmd o.price = o.price ∧ cmd.quantity < o.remaining

instance (cmd : Command) (o : OrderInfo) : Decidable (keepsPlace cmd o) := by unfold keepsPlace; infer_instance

def handleModify (fillable : Bool) (cmd : Command) : FlatEngine :=
  match a.find cmd.id with
  | none => a.withVars (a.emitReject cmd .unknownOrder)
  | some o =>
    if cmd.quantity = 0 then a.handleCancel (Command.makeCancel cmd.id cmd.client cmd.tsRecv)
    else if keepsPlace cmd o then
      let o' := { o with remaining := cmd.quantity }
      (a.withVars (a.emitReplaced o' cmd.quantity cmd.tsRecv)).withFlat (a.swap o o')
    else (a.withFlat (a.drop o)).handleNew fillable (replacement cmd o)

def bookChanged (tsIn : TsNanos) : FlatEngine :=
  a.withVars (a.emitBookChanged tsIn (a.top .buy) (a.top .sell) (UInt64.ofNat (Flat.topSize (a.side .buy)))
    (UInt64.ofNat (Flat.topSize (a.side .sell))))

def dispatch (fillable : Bool) (cmd : Command) : FlatEngine :=
  match cmd.type with
  | .new => if a.halted then a.withVars (a.emitReject cmd .bookHalted) else a.handleNew fillable cmd
  | .cancel => a.handleCancel cmd
  | .modify => a.handleModify fillable cmd

def finish (cmd : Command) : FlatEngine :=
  let a := if a.cfg.emitBookChanged then a.bookChanged cmd.tsRecv else a
  a.withVars (a.tickPeak a.size)

def process (fillable : Bool) (cmd : Command) : FlatEngine :=
  ((a.withVars (a.start 0 cmd)).dispatch fillable cmd).finish cmd

/-- The sizing the flat lists give: their open size, kept modulo 2^64. -/
def fillable (cmd : Command) : Bool :=
  decide (cmd.quantity ≤ UInt64.ofNat (a.marketable cmd.side (limitOf cmd)))

end FlatEngine

end Lob
