/-
  Lob.Engine.Engine — the matching core (`matching_engine.cpp`, `object_pool.hpp`), over
  any book.

  `none` is the source's undefined behaviour or a loop that does not end: a book call
  without a defined result, a probe of the index that meets no empty slot, or `match`
  running past its bound. The pool's vector of free slots is a list, its back first; a
  slot's address is its index in `storage_`. The clock reading of `process` is an
  argument.
-/

import Lob.Book.Interface
import Lob.Engine.Reports
import Lob.Index.FlatPtrMap

namespace Lob

structure ObjectPool where
  storage : Mem
  capacity : Nat
  free : List Ptr
  inUse : Nat
  highWater : Nat

namespace ObjectPool

def make (capacity : Nat) : ObjectPool := ⟨fun _ => {}, capacity, List.range capacity, 0, 0⟩

def acquire (p : ObjectPool) : Option (Ptr × ObjectPool) :=
  match p.free with
  | [] => none
  | o :: free => some (o, { p with free := free, inUse := p.inUse + 1 })

def release (p : ObjectPool) (o : Ptr) : ObjectPool :=
  { p with storage := Function.update p.storage o {}, free := o :: p.free, inUse := p.inUse - 1 }

def tickHighWater (p : ObjectPool) : ObjectPool := { p with highWater := max p.inUse p.highWater }

end ObjectPool

/-! ## The three structures that hold orders -/

structure Store (B : Type) where
  book : B
  pool : ObjectPool
  index : FlatPtrMap (Option Ptr)

namespace Store

variable {B : Type} [Book B]

/-- The order at `o`. -/
def order (st : Store B) (o : Ptr) : Order := st.pool.storage o

/-- `index_.find(id)`. -/
def find (st : Store B) (id : OrderId) : Option (Option Ptr) := st.index.find FlatPtrMap.splitmix id

/-- `book_.remove(o); index_.erase(id); pool_.release(o)`. -/
def drop (st : Store B) (o : Ptr) (id : OrderId) : Option (Store B) := do
  let (book, storage) ← Book.remove st.book st.pool.storage o
  let (index, _) ← st.index.erase FlatPtrMap.splitmix id
  some ⟨book, { st.pool with storage := storage }.release o, index⟩

/-- `book_.reduce_in_place(o, traded)`. -/
def reduce (st : Store B) (o : Ptr) (traded : Quantity) : Option (Store B) := do
  let (book, storage) ← Book.reduceInPlace st.book st.pool.storage o traded
  some { st with book := book, pool := { st.pool with storage := storage } }

/-- `*slot = incoming; book_.add(slot); index_.insert(slot->id, slot)`. -/
def place (st : Store B) (slot : Ptr) (incoming : OrderInfo) : Option (Store B) := do
  let storage := Function.update st.pool.storage slot { toOrderInfo := incoming }
  let (book, storage) ← Book.add st.book storage slot
  let index ← st.index.insert FlatPtrMap.splitmix (storage slot).id (some slot)
  some ⟨book, { st.pool with storage := storage }, index⟩

/-- `o->quantity = q`. -/
def setQuantity (st : Store B) (o : Ptr) (q : Quantity) : Store B :=
  { st with pool := { st.pool with
    storage := Function.update st.pool.storage o { st.pool.storage o with quantity := q } } }

end Store

structure Engine (B : Type) extends EngineVars, Store B where
  cfg : EngineConfig

namespace Engine

variable {B : Type} [Book B]

def init (cfg : EngineConfig) : Option (Engine B) := do
  let book ← Book.make cfg.minPrice cfg.maxPrice
  some { book := book, pool := ObjectPool.make cfg.maxOrders, index := FlatPtrMap.make cfg.maxOrders, cfg := cfg }

def setHalted (e : Engine B) (h : Bool) : Engine B := { e with halted := h }

/-- The engine with its reports replaced. -/
def withVars (e : Engine B) (v : EngineVars) : Engine B := { e with toEngineVars := v }

def withStore (e : Engine B) (st : Store B) : Engine B := { e with toStore := st }

/-! ## `match` -/

/-- The state of `match`: the engine, `in` and `total_filled`. -/
structure Matching (B : Type) where
  eng : Engine B
  inc : OrderInfo
  filled : Quantity

/-- The inner loop, from `resting` on. The early return of `CancelAggressor` leaves nothing
    remaining, which ends the outer loop too. -/
def matchLevel (client : ClientId) : Nat → Matching B → Option Ptr → Option (Matching B)
  | 0, _, _ => none
  | _ + 1, s, none => some s
  | n + 1, s, some resting =>
    if s.inc.remaining = 0 then some s
    else
      let o := s.eng.order resting
      if s.eng.cfg.stp ≠ .none ∧ o.client = client then
        if s.eng.cfg.stp = .cancelAggressor then
          some { s with eng := s.eng.withVars (s.eng.emitStpAggressor s.inc client), inc := { s.inc with remaining := 0 } }
        else do
          let eng := s.eng.withVars (s.eng.emitStpResting s.inc o.toOrderInfo)
          let st ← eng.drop resting o.id
          matchLevel client n { s with eng := eng.withStore st } o.next
      else do
        let traded := min s.inc.remaining o.remaining
        let eng := s.eng.withVars (s.eng.emitTrade s.inc o.toOrderInfo traded)
        let st ← if o.remaining = traded then eng.drop resting o.id else eng.reduce resting traded
        matchLevel client n ⟨eng.withStore st, { s.inc with remaining := s.inc.remaining - traded }, s.filled + traded⟩
          o.next

/-- The outer loop. -/
def matchLoop (client : ClientId) (bound : Nat) : Nat → Matching B → Option (Matching B)
  | 0, _ => none
  | n + 1, s =>
    if s.inc.remaining = 0 then some s
    else
      match Book.bestLevel s.eng.book (opposite s.inc.side) with
      | none => some s
      | some lvl =>
        if s.inc.type ≠ .market ∧ ¬ crosses s.inc.side s.inc.price lvl.price then some s
        else do
          let s ← matchLevel client bound s lvl.head
          matchLoop client bound n s

/-- `match`. A pass of the outer loop that does not end it takes an order off the book, and
    no level holds more orders than the pool. -/
def matchOrder (e : Engine B) (inc : OrderInfo) (client : ClientId) : Option (Matching B) :=
  matchLoop client (e.pool.capacity + 1) (e.pool.capacity + 2) ⟨e, inc, 0⟩

/-! ## The handlers -/

/-- The post-only check of `handle_new`. -/
def wouldCross (e : Engine B) (cmd : Command) : Bool :=
  match Book.bestLevel e.book (opposite cmd.side) with
  | none => false
  | some opp => crosses cmd.side (limitOf cmd) opp.price

/-- The checks of `handle_new`: why the command is refused, if it is. -/
def refusal (e : Engine B) (cmd : Command) : Option (Option RejectReason) :=
  if cmd.quantity = 0 then some (some .zeroQuantity)
  else if isMarket cmd = false ∧ Book.inBand e.book cmd.price = false then some (some .priceOutOfBand)
  else (e.find cmd.id).map fun found =>
    if found ≠ none then some .duplicateOrderId
    else if cmd.ordType = .postOnly ∧ e.wouldCross cmd = true then some .postOnlyWouldCross
    else if cmd.ordType = .fok ∧ Book.marketableQty e.book cmd.side (limitOf cmd) < cmd.quantity then
      some .fokUnfillable
    else none

/-- `handle_new` up to `book_.add(slot)`: the slot and the order to put there, when it is to
    rest. -/
def submit (e : Engine B) (cmd : Command) : Option (Engine B × Option (Ptr × OrderInfo)) := do
  match ← e.refusal cmd with
  | some r => some (e.withVars (e.emitReject cmd r), none)
  | none =>
    let e : Engine B := { e with arrival := e.arrival + 1 }
    let incoming := incomingOrder cmd e.arrival
    let s ← (e.withVars (e.emitAccepted cmd (limitOf cmd))).matchOrder incoming cmd.client
    if s.inc.remaining = 0 then some (s.eng, none)
    else if rests s.inc.type = false then
      some (s.eng.withVars (s.eng.emitRemainder cmd (limitOf cmd) s.inc.remaining .none), none)
    else
      match s.eng.pool.acquire with
      | none => some (s.eng.withVars (s.eng.emitRemainder cmd (limitOf cmd) s.inc.remaining .poolExhausted), none)
      | some (slot, pool) => some ({ s.eng with pool := pool }, some (slot, s.inc))

def handleNew (e : Engine B) (cmd : Command) : Option (Engine B) := do
  let (e, slot) ← e.submit cmd
  match slot with
  | none => some e
  | some (slot, incoming) => do
    let st ← e.place slot incoming
    some (e.withStore st)

def handleCancel (e : Engine B) (cmd : Command) : Option (Engine B) := do
  match ← e.find cmd.id with
  | none => some (e.withVars (e.emitReject cmd .unknownOrder))
  | some o =>
    let e := e.withVars (e.emitCanceled (e.order o).toOrderInfo cmd.tsRecv)
    let st ← e.drop o cmd.id
    some (e.withStore st)

/-- `handle_modify` up to its call of `handle_new`: the replacement, when it gets there. -/
def amend (e : Engine B) (cmd : Command) : Option (Engine B × Option Command) := do
  match ← e.find cmd.id with
  | none => some (e.withVars (e.emitReject cmd .unknownOrder), none)
  | some p =>
    let o := (e.order p).toOrderInfo
    if cmd.quantity = 0 then do
      let e ← e.handleCancel (Command.makeCancel cmd.id cmd.client cmd.tsRecv)
      some (e, none)
    else if newPrice cmd o.price = o.price ∧ cmd.quantity < o.remaining then do
      let st ← e.reduce p (o.remaining - cmd.quantity)
      -- `filled()` reads the remaining just reduced
      let st := st.setQuantity p (cmd.quantity + (st.order p).filled)
      let e := e.withStore st
      some (e.withVars (e.emitReplaced (e.order p).toOrderInfo cmd.quantity cmd.tsRecv), none)
    else do
      let st ← e.drop p cmd.id
      some (e.withStore st,
        some (Command.makeNew cmd.id o.client o.side o.type (newPrice cmd o.price) cmd.quantity cmd.tsRecv))

def handleModify (e : Engine B) (cmd : Command) : Option (Engine B) := do
  let (e, repl) ← e.amend cmd
  match repl with
  | none => some e
  | some repl => e.handleNew repl

/-! ## `process` -/

/-- The size at the best price, or 0. -/
def bestQty (b : B) (s : Side) : Quantity :=
  match Book.bestLevel b s with
  | none => 0
  | some l => l.totalQty

def bookChanged (e : Engine B) (tsIn : TsNanos) : Engine B :=
  e.withVars (e.emitBookChanged tsIn (Book.bestBid e.book) (Book.bestAsk e.book) (bestQty e.book .buy)
    (bestQty e.book .sell))

def dispatch (e : Engine B) (cmd : Command) : Option (Engine B) :=
  match cmd.type with
  | .new => if e.halted then some (e.withVars (e.emitReject cmd .bookHalted)) else e.handleNew cmd
  | .cancel => e.handleCancel cmd
  | .modify => e.handleModify cmd

def finish (e : Engine B) (cmd : Command) : Engine B :=
  let e := if e.cfg.emitBookChanged then e.bookChanged cmd.tsRecv else e
  let e : Engine B := { e with pool := e.pool.tickHighWater }
  e.withVars (e.tickPeak e.index.size)

/-- The events produced are `out` of the result. -/
def process (e : Engine B) (now : TsNanos) (cmd : Command) : Option (Engine B) := do
  let e ← (e.withVars (e.start now cmd)).dispatch cmd
  some (e.finish cmd)

def restingOrders (e : Engine B) : Nat := e.index.size

/-! ## Runs -/

/-- What the engine is driven with: a command and the clock read for it, or the halt switch. -/
inductive Input where
  | command (now : TsNanos) (cmd : Command)
  | setHalted (h : Bool)
  deriving DecidableEq, Repr

def step (e : Engine B) : Input → Option (Engine B)
  | .command now cmd => e.process now cmd
  | .setHalted h => some (e.setHalted h)

def steps : Engine B → List Input → Option (Engine B)
  | e, [] => some e
  | e, i :: is => do
    let e ← e.step i
    steps e is

/-- The engine built from `cfg` and driven with `inputs`. -/
def run (cfg : EngineConfig) (inputs : List Input) : Option (Engine B) := do
  let e ← init cfg
  e.steps inputs

end Engine

end Lob
