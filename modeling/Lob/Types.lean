/-
  Lob.Types — domain types, orders, commands and events (`types.hpp`, `order.hpp`,
  `events.hpp`).

  Ids, clients, quantities and timestamps keep their machine widths, with wrapping
  arithmetic. A price is an integer: the three places that compute with one (the array
  index, the best price, the spread) say where a 64-bit result would not fit. Counters
  that start at 0 and grow by one a command or an event (`Sequence`, the statistics) are
  natural numbers: it takes 2^64 commands or events of one process for one of them to wrap,
  and nothing sets them. An id is a value a client chooses, near 2^64 if it likes, so where
  the flow generator counts ids up it counts in 64 bits.
-/

import Mathlib.Order.RelClasses
import Mathlib.Algebra.Order.Ring.Int

namespace Lob

abbrev OrderId := UInt64
abbrev ClientId := UInt32
abbrev Price := Int
abbrev Quantity := UInt64
abbrev Sequence := Nat
abbrev TsNanos := UInt64

/-- `INT64_MIN`. -/
def kNoPrice : Price := -9223372036854775808

/-- `INT64_MAX`. -/
def kMaxPrice : Price := 9223372036854775807

inductive Side where
  | buy
  | sell
  deriving DecidableEq, Repr

def opposite : Side → Side
  | .buy => .sell
  | .sell => .buy

@[simp] theorem opposite_opposite (s : Side) : opposite (opposite s) = s := by cases s <;> rfl
@[simp] theorem opposite_ne (s : Side) : opposite s ≠ s := by cases s <;> decide
@[simp] theorem ne_opposite (s : Side) : s ≠ opposite s := by cases s <;> decide

theorem eq_or_opposite (s t : Side) : t = s ∨ t = opposite s := by cases s <;> cases t <;> decide

/-- Does an aggressor on `side` at `limit` cross a resting level priced at `levelPrice`? -/
def crosses (side : Side) (limit levelPrice : Price) : Bool :=
  if limit = kNoPrice then true
  else match side with
    | .buy => decide (limit ≥ levelPrice)
    | .sell => decide (limit ≤ levelPrice)

/-- On side `s` the price `p` is strictly better than `q`: matched earlier. -/
def better : Side → Price → Price → Prop
  | .buy, p, q => q < p
  | .sell, p, q => p < q

instance (s : Side) : DecidableRel (better s) := fun p q => by cases s <;> unfold better <;> infer_instance

instance (s : Side) : IsStrictTotalOrder Price (better s) := by
  cases s
  · exact inferInstanceAs (IsStrictTotalOrder Int (Function.swap (· < ·)))
  · exact inferInstanceAs (IsStrictTotalOrder Int (· < ·))

inductive OrderType where
  | limit
  | market
  | ioc
  | postOnly
  | fok
  deriving DecidableEq, Repr

inductive StpMode where
  | none
  | cancelResting
  | cancelAggressor
  deriving DecidableEq, Repr

inductive RejectReason where
  | none
  | unknownOrder
  | duplicateOrderId
  | priceOutOfBand
  | zeroQuantity
  | postOnlyWouldCross
  | fokUnfillable
  | bookHalted
  | poolExhausted
  | selfTradePrevented
  deriving DecidableEq, Repr

/-! ## Orders -/

/-- A slot of the order pool: what an `Order*` points to. -/
abbrev Ptr := Nat

/-- An order without its queue links. -/
structure OrderInfo where
  id : OrderId := 0
  client : ClientId := 0
  price : Price := 0
  quantity : Quantity := 0
  remaining : Quantity := 0
  seq : Sequence := 0
  tsRecv : TsNanos := 0
  side : Side := .buy
  type : OrderType := .limit
  deriving DecidableEq, Repr

structure Order extends OrderInfo where
  prev : Option Ptr := none
  next : Option Ptr := none
  deriving DecidableEq, Repr

def OrderInfo.filled (o : OrderInfo) : Quantity := o.quantity - o.remaining

/-- The memory orders live in (`storage_` of the pool). -/
abbrev Mem := Ptr → Order

/-! ## What a match takes -/

namespace Quantity

theorem min_choice (a b : UInt64) : min a b = a ∨ min a b = b := by
  show (if a ≤ b then a else b) = a ∨ (if a ≤ b then a else b) = b
  split
  · exact Or.inl rfl
  · exact Or.inr rfl

theorem min_le_left (a b : UInt64) : min a b ≤ a := by
  show (if a ≤ b then a else b) ≤ a
  split
  · exact UInt64.le_refl a
  · rename_i h; exact (UInt64.le_total a b).resolve_left h

theorem min_le_right (a b : UInt64) : min a b ≤ b := by
  show (if a ≤ b then a else b) ≤ b
  split
  · assumption
  · exact UInt64.le_refl b

theorem toNat_min (a b : UInt64) : (min a b).toNat = min a.toNat b.toNat := by
  have h := UInt64.le_iff_toNat_le.mp (min_le_left a b)
  have h' := UInt64.le_iff_toNat_le.mp (min_le_right a b)
  rcases min_choice a b with e | e
  · rw [e] at h' ⊢
    omega
  · rw [e] at h ⊢
    omega

theorem sub_min_le_left (a b : UInt64) : a - min a b ≤ a := UInt64.sub_le (min_le_left a b)

theorem toNat_sub_min (a b : UInt64) : (a - min a b).toNat = a.toNat - b.toNat := by
  rw [UInt64.toNat_sub_of_le _ _ (min_le_left a b), toNat_min]
  omega

theorem sub_min_pos {a b : UInt64} (h : b ≠ min a b) : 0 < b - min a b := by
  have hle := UInt64.le_iff_toNat_le.mp (min_le_right a b)
  have hne : b.toNat ≠ (min a b).toNat := fun e => h (UInt64.toNat_inj.mp e)
  rw [UInt64.lt_iff_toNat_lt, UInt64.toNat_sub_of_le _ _ (min_le_right a b)]
  show 0 < _
  omega

theorem sub_min_eq_zero {a b : UInt64} (h : b ≠ min a b) : a - min a b = 0 := by
  rcases min_choice a b with e | e
  · rw [e]; exact UInt64.sub_self a
  · exact absurd e.symm h

end Quantity

/-! ## Commands and events -/

inductive CommandType where
  | new
  | cancel
  | modify
  deriving DecidableEq, Repr

structure Command where
  type : CommandType := .new
  id : OrderId := 0
  client : ClientId := 0
  side : Side := .buy
  ordType : OrderType := .limit
  price : Price := kNoPrice
  quantity : Quantity := 0
  tsRecv : TsNanos := 0
  deriving DecidableEq, Repr

namespace Command

def makeNew (id : OrderId) (c : ClientId) (s : Side) (t : OrderType) (p : Price) (q : Quantity) (ts : TsNanos) :
    Command := ⟨.new, id, c, s, t, p, q, ts⟩

def makeCancel (id : OrderId) (c : ClientId) (ts : TsNanos) : Command :=
  { type := .cancel, id := id, client := c, tsRecv := ts }

def makeModify (id : OrderId) (c : ClientId) (newPrice : Price) (newQty : Quantity) (ts : TsNanos) : Command :=
  { type := .modify, id := id, client := c, price := newPrice, quantity := newQty, tsRecv := ts }

end Command

inductive EventType where
  | accepted
  | rejected
  | fill
  | canceled
  | replaced
  | trade
  | bookChanged
  deriving DecidableEq, Repr

structure Event where
  type : EventType := .accepted
  orderId : OrderId := 0
  contraId : OrderId := 0
  client : ClientId := 0
  side : Side := .buy
  price : Price := kNoPrice
  quantity : Quantity := 0
  leaves : Quantity := 0
  reason : RejectReason := .none
  aggressor : Bool := false
  seq : Sequence := 0
  tsIn : TsNanos := 0
  tsOut : TsNanos := 0
  bidPx : Price := kNoPrice
  bidQty : Quantity := 0
  askPx : Price := kNoPrice
  askQty : Quantity := 0
  deriving DecidableEq, Repr

/-- One row of a depth snapshot. -/
structure DepthEntry where
  price : Price
  qty : Quantity
  orders : UInt32
  deriving DecidableEq, Repr

end Lob
