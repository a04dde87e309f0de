/-
  Lob.Book.OrderBook — the dense array with a two-level occupancy bitset
  (`order_book.hpp`).

  The three vectors of a side are functions of an index; `span` is the size of `levels`,
  and an index at or past it has no defined access (`none`), as a signed overflow of
  `p - min_price_` has none. The loops that walk occupied levels stop after at most `span`
  steps.
-/

import Lob.Base.Bits
import Lob.Book.Interface

namespace Lob

open Lob.Base.Bits

structure OrderBook where
  minPrice : Price
  maxPrice : Price
  span : Nat
  levels : Side → Nat → PriceLevel
  words : Side → Nat → BitVec 64
  summary : Side → Nat → BitVec 64
  orderCounts : Side → Nat

/-- `f[s][i] = v`. -/
def setAt {α : Type} (f : Side → Nat → α) (s : Side) (i : Nat) (v : α) : Side → Nat → α :=
  fun t j => if t = s ∧ j = i then v else f t j

namespace OrderBook

/-- The constructor asserts `max_price >= min_price` and computes their difference. -/
def make (minPrice maxPrice : Price) : Option OrderBook :=
  if minPrice ≤ maxPrice ∧ maxPrice - minPrice ≤ kMaxPrice then
    some ⟨minPrice, maxPrice, (maxPrice - minPrice).toNat + 1, fun _ _ => {}, fun _ _ => 0, fun _ _ => 0, fun _ => 0⟩
  else none

variable (b : OrderBook)

def inBand (p : Price) : Bool := decide (p ≥ b.minPrice ∧ p ≤ b.maxPrice)

/-- `static_cast<size_t>(p - min_price_)`. -/
def index (p : Price) : Option Nat :=
  if kNoPrice ≤ p - b.minPrice ∧ p - b.minPrice ≤ kMaxPrice then some ((p - b.minPrice) % 2 ^ 64).toNat else none

/-- The slot `levels_[s][index(p)]`. -/
def slot (p : Price) : Option Nat := do
  let i ← b.index p
  if i < b.span then some i else none

/-! ## The bitset -/

def setBit (s : Side) (i : Nat) : OrderBook :=
  { b with
    words := setAt b.words s (i >>> 6) (setIn (b.words s (i >>> 6)) (i &&& 63))
    summary := setAt b.summary s ((i >>> 6) >>> 6) (setIn (b.summary s ((i >>> 6) >>> 6)) ((i >>> 6) &&& 63)) }

def clearBit (s : Side) (i : Nat) : OrderBook :=
  let w := i >>> 6
  let b := { b with words := setAt b.words s w (clearIn (b.words s w) (i &&& 63)) }
  if b.words s w = 0 then
    { b with summary := setAt b.summary s (w >>> 6) (clearIn (b.summary s (w >>> 6)) (w &&& 63)) }
  else b

def testBit (s : Side) (i : Nat) : Bool := (b.words s (i >>> 6)).getLsbD (i &&& 63)

/-- `summary_[s].size()`. -/
def summarySize : Nat := ((b.span + 63) / 64 + 63) / 64

def highestSet (s : Side) : Option Nat := do
  let w ← (List.range b.summarySize).reverse.find? fun w => b.summary s w != 0
  let word := w * 64 + topBit (b.summary s w)
  some (word * 64 + topBit (b.words s word))

def lowestSet (s : Side) : Option Nat := do
  let w ← (List.range b.summarySize).find? fun w => b.summary s w != 0
  let word := w * 64 + lowBit (b.summary s w)
  some (word * 64 + lowBit (b.words s word))

/-! ## Mutation -/

def add (m : Mem) (o : Ptr) : Option (OrderBook × Mem) := do
  let i ← b.slot (m o).price
  let s := (m o).side
  let lvl := b.levels s i
  let wasEmpty := lvl.empty
  let lvl := if wasEmpty then { lvl with price := (m o).price } else lvl
  let (lvl, m) := lvl.pushBack m o
  let b := { b with levels := setAt b.levels s i lvl }
  let b := if wasEmpty then b.setBit s i else b
  some ({ b with orderCounts := setSide b.orderCounts s (b.orderCounts s + 1) }, m)

def remove (m : Mem) (o : Ptr) : Option (OrderBook × Mem) := do
  let i ← b.slot (m o).price
  let s := (m o).side
  let (lvl, m) := (b.levels s i).unlink m o
  let b := { b with orderCounts := setSide b.orderCounts s (b.orderCounts s - 1) }
  if lvl.empty then some ({ b with levels := setAt b.levels s i { lvl with price := kNoPrice } }.clearBit s i, m)
  else some ({ b with levels := setAt b.levels s i lvl }, m)

def reduceInPlace (m : Mem) (o : Ptr) (traded : Quantity) : Option (OrderBook × Mem) := do
  let i ← b.slot (m o).price
  let s := (m o).side
  let lvl := b.levels s i
  some ({ b with levels := setAt b.levels s i { lvl with totalQty := lvl.totalQty - traded } }, takeFrom m o traded)

/-! ## Queries -/

def bestIndex : Side → Option Nat
  | .buy => b.highestSet .buy
  | .sell => b.lowestSet .sell

def bestPrice (s : Side) : Price :=
  match b.bestIndex s with
  | none => kNoPrice
  | some bi => b.minPrice + bi

def bestLevel (s : Side) : Option PriceLevel := (b.bestIndex s).map (b.levels s)

/-- The indices beyond `i`, in the order the loops of `next_level_toward_mid` try them. -/
def after : Side → Nat → List Nat
  | .buy, i => (List.range i).reverse
  | .sell, i => List.range' (i + 1) (b.span - (i + 1))

def nextLevelTowardMid (s : Side) (fromPrice : Price) : Option PriceLevel :=
  if fromPrice = kNoPrice then none
  else do
    let i ← b.index fromPrice
    let j ← (b.after s i).find? (b.testBit s)
    some (b.levels s j)

def marketableLoop (side : Side) (limit : Price) : Nat → Option PriceLevel → Quantity → Quantity
  | 0, _, total => total
  | _ + 1, none, total => total
  | n + 1, some lvl, total =>
    if crosses side limit lvl.price then
      marketableLoop side limit n (b.nextLevelTowardMid (opposite side) lvl.price) (total + lvl.totalQty)
    else total

def marketableQty (side : Side) (limit : Price) : Quantity :=
  b.marketableLoop side limit b.span (b.bestLevel (opposite side)) 0

def snapshotLoop (s : Side) : Nat → Option PriceLevel → List DepthEntry
  | 0, _ => []
  | _ + 1, none => []
  | n + 1, some lvl => depthEntry lvl :: snapshotLoop s n (b.nextLevelTowardMid s lvl.price)

def snapshot (s : Side) (maxLevels : Nat) : List DepthEntry := b.snapshotLoop s maxLevels (b.bestLevel s)

end OrderBook

instance : Book OrderBook where
  make := OrderBook.make
  inBand := OrderBook.inBand
  add := OrderBook.add
  remove := OrderBook.remove
  reduceInPlace := OrderBook.reduceInPlace
  bestLevel := OrderBook.bestLevel
  bestPrice := OrderBook.bestPrice
  marketableQty := OrderBook.marketableQty
  orderCount b s := b.orderCounts s
  snapshot := OrderBook.snapshot

end Lob
