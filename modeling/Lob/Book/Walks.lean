/-
  Lob.Book.Walks — what `marketable_qty` adds up, whatever the prices are.

  The walk of the dense book ends behind a level at `kNoPrice`; those of the map and of
  the sorted vector know no sentinel. All three read the prices and cached sizes of the
  levels, and nothing else (`SizedByLevels`).
-/

import Lob.Book.MapOrderBook
import Lob.Book.OrderBookProofs
import Lob.Book.SortedVectorOrderBook

namespace Lob

/-- What a query reads of a level. -/
def PriceLevel.sized (l : PriceLevel) : Price × Quantity := (l.price, l.totalQty)

/-- The sizes the dense book walks over: a level at the sentinel is the last. -/
def walkedQty (side : Side) (limit : Price) : List (Price × Quantity) → Quantity
  | [] => 0
  | (p, q) :: rest =>
    if crosses side limit p then q + (if p = kNoPrice then 0 else walkedQty side limit rest) else 0

theorem walkedQty_cons (side : Side) (limit : Price) (l : PriceLevel) (L : List PriceLevel) :
    walkedQty side limit ((l :: L).map PriceLevel.sized) = if crosses side limit l.price then
      l.totalQty + (if l.price = kNoPrice then 0 else walkedQty side limit (L.map PriceLevel.sized)) else 0 := rfl

/-- The sizing answers alike over levels that look alike. -/
class SizedByLevels (B : Type) [Book B] [LawfulBook B] : Prop where
  marketableQty_congr {b b' : B} : LawfulBook.Ok b → LawfulBook.Ok b' → ∀ side limit,
    (LawfulBook.levels b (opposite side)).map PriceLevel.sized = (LawfulBook.levels b' (opposite side)).map PriceLevel.sized →
    Book.marketableQty b side limit = Book.marketableQty b' side limit

namespace OrderBook

open Lob.Base.Bits

variable {b : OrderBook}

theorem marketableLoop_walk (h : Ok b) (side : Side) (limit : Price) :
    ∀ n i total, b.testBit (opposite side) i = true →
      ((b.after (opposite side) i).filter (b.testBit (opposite side))).length < n →
      b.marketableLoop side limit n (some (b.levels (opposite side) i)) total = total +
        walkedQty side limit (((i :: (b.after (opposite side) i).filter (b.testBit (opposite side))).map
          (b.levels (opposite side))).map PriceLevel.sized) := by
  intro n
  induction n with
  | zero => intro i total _ hn; omega
  | succ n ih =>
    intro i total ht hn
    rw [List.map_cons, walkedQty_cons, marketableLoop]
    by_cases hc : crosses side limit (b.levels (opposite side) i).price = true
    · simp only [hc, if_true]
      by_cases hz : (b.levels (opposite side) i).price = kNoPrice
      · have hend : b.nextLevelTowardMid (opposite side) (b.levels (opposite side) i).price = none := by
          unfold nextLevelTowardMid; rw [if_pos hz]
        rw [hend, if_pos hz, UInt64.add_zero]
        cases n <;> rfl
      rw [if_neg hz, next_eq h ht (Or.inl hz)]
      cases hf : (b.after (opposite side) i).find? (b.testBit (opposite side)) with
      | none =>
        have : (b.after (opposite side) i).filter (b.testBit (opposite side)) = [] := by
          rw [List.filter_eq_nil_iff]; exact List.find?_eq_none.mp hf
        rw [this]
        cases n <;> simp [marketableLoop, walkedQty]
      | some j =>
        have hj := find_filter (after_rest b _) (after_rest b _ i) hf
        rw [hj] at hn ⊢
        rw [Option.map_some, ih j _ (List.find?_some hf) (by simpa using hn), UInt64.add_assoc]
    · simp only [hc, if_false, Bool.false_eq_true, UInt64.add_zero]

theorem marketableQty_walk (h : Ok b) (side : Side) (limit : Price) :
    b.marketableQty side limit = walkedQty side limit ((b.levelList (opposite side)).map PriceLevel.sized) := by
  unfold marketableQty bestLevel levelList
  have hlen : (b.occupied (opposite side)).length ≤ b.span := by
    refine Nat.le_trans (List.length_filter_le _ _) ?_
    cases opposite side <;> simp [order]
  have hocc := occupied_eq h (opposite side)
  cases hi : b.bestIndex (opposite side) with
  | none =>
    rw [hi] at hocc
    rw [hocc]
    cases b.span <;> simp [marketableLoop, walkedQty]
  | some i =>
    rw [hi] at hocc
    simp only at hocc
    rw [hocc] at hlen ⊢
    rw [Option.map_some, marketableLoop_walk h side limit _ i 0 (bestIndex_bit h hi) hlen, UInt64.zero_add]

end OrderBook

instance : SizedByLevels OrderBook where
  marketableQty_congr {b b'} h h' side limit e := by
    show b.marketableQty side limit = b'.marketableQty side limit
    rw [OrderBook.marketableQty_walk h, OrderBook.marketableQty_walk h']
    exact congrArg _ e

/-- Without a sentinel the sizing is the sum over the levels that cross. -/
theorem crossedQty_sized (side : Side) (limit : Price) (L : List PriceLevel) : crossedQty side limit L =
    (((L.map PriceLevel.sized).takeWhile fun x => crosses side limit x.1).map fun x => x.2.toNat).sum := by
  unfold crossedQty
  rw [List.takeWhile_map, List.map_map]
  rfl

theorem marketableQty_of_crossed {B : Type} [Book B] [LawfulBook B]
    (h : ∀ {b : B}, LawfulBook.Ok b → ∀ side limit,
      Book.marketableQty b side limit = UInt64.ofNat (crossedQty side limit (LawfulBook.levels b (opposite side)))) :
    SizedByLevels B where
  marketableQty_congr hb hb' side limit e := by
    rw [h hb, h hb', crossedQty_sized, crossedQty_sized, e]

instance : SizedByLevels MapOrderBook := marketableQty_of_crossed fun {b} h side limit => by
  show marketableLoop side limit (b.map (opposite side)).toList 0 = _
  rw [marketableLoop_eq _ _ _ _ (MapOrderBook.entries_price h _), UInt64.zero_add]
  rfl

instance : SizedByLevels SortedVectorOrderBook := marketableQty_of_crossed fun {b} h side limit => by
  show marketableLoop side limit (b.vec (opposite side)) 0 = _
  rw [marketableLoop_eq _ _ _ _ (h.price _), UInt64.zero_add]
  rfl

end Lob
