/-
  Lob.Book.Interface — what the engine asks of a book, and what a book is.

  `Book` is the surface `BasicMatchingEngine` is templated on. `add`, `remove` and
  `reduceInPlace` take the memory the orders live in, since a level writes the links and
  sizes of its orders; they answer `none` where the source has no defined result (an
  index out of the array, an iterator past the end).

  `LawfulBook` says that a book is, on each side, a finite map from prices to levels
  listed best first (`levels`), and that every query reads that list.
-/

import Lob.Base.Sorted
import Lob.Book.PriceLevel

namespace Lob

open Lob.Base.Sorted

class Book (B : Type) where
  make : Price → Price → Option B
  inBand : B → Price → Bool
  add : B → Mem → Ptr → Option (B × Mem)
  remove : B → Mem → Ptr → Option (B × Mem)
  reduceInPlace : B → Mem → Ptr → Quantity → Option (B × Mem)
  bestLevel : B → Side → Option PriceLevel
  bestPrice : B → Side → Price
  marketableQty : B → Side → Price → Quantity
  orderCount : B → Side → Nat
  snapshot : B → Side → Nat → List DepthEntry

namespace Book

variable {B : Type} [Book B]

def bestBid (b : B) : Price := bestPrice b .buy
def bestAsk (b : B) : Price := bestPrice b .sell

/-- The source spells this out in each book. The difference of two resting prices of a
    dense book fits in 64 bits, as the width of its band does. -/
def spread (b : B) : Price :=
  let bid := bestBid b
  let ask := bestAsk b
  if bid = kNoPrice ∨ ask = kNoPrice then kNoPrice else ask - bid

def totalCount (b : B) : Nat := orderCount b .buy + orderCount b .sell

def empty (b : B) (s : Side) : Bool := orderCount b s == 0

end Book

def depthEntry (l : PriceLevel) : DepthEntry := ⟨l.price, l.totalQty, l.count⟩

/-- `f[s] = v`, for the pairs of values the books keep by side. -/
def setSide {α : Type} (f : Side → α) (s : Side) (v : α) : Side → α := fun t => if t = s then v else f t

@[simp] theorem setSide_same {α : Type} (f : Side → α) (s : Side) (v : α) : setSide f s v s = v := if_pos rfl

@[simp] theorem setSide_opposite {α : Type} (f : Side → α) (s : Side) (v : α) :
    setSide f s v (opposite s) = f (opposite s) := if_neg (opposite_ne s)

@[simp] theorem setSide_self {α : Type} (f : Side → α) (s : Side) : setSide f s (f s) = f := by
  funext t; unfold setSide; split
  · rename_i e; rw [e]
  · rfl

/-- What holds of both sides holds with one replaced, when it holds of the new one. -/
theorem setSide_all {α : Type} {P : Side → α → Prop} {f : Side → α} {s : Side} {v : α} (hs : P s v)
    (ho : P (opposite s) (f (opposite s))) (t : Side) : P t (setSide f s v t) := by
  rcases eq_or_opposite s t with rfl | rfl
  · rw [setSide_same]
    exact hs
  · rw [setSide_opposite]
    exact ho

/-- `o->remaining -= traded`. -/
def takeFrom (m : Mem) (o : Ptr) (traded : Quantity) : Mem :=
  Function.update m o { m o with remaining := (m o).remaining - traded }

/-! ## The loops over nodes in price order (`map_order_book.hpp`, `sorted_vector_order_book.hpp`) -/

def marketableLoop (side : Side) (limit : Price) : List (Price × PriceLevel) → Quantity → Quantity
  | [], total => total
  | (px, lvl) :: rest, total =>
    if crosses side limit px then marketableLoop side limit rest (total + lvl.totalQty) else total

def snapshotLoop : List (Price × PriceLevel) → Nat → List DepthEntry
  | [], _ => []
  | _ :: _, 0 => []
  | (px, lvl) :: rest, n + 1 => ⟨px, lvl.totalQty, lvl.count⟩ :: snapshotLoop rest n

/-! ## What a book is -/

/-- The best price of a side listed best first. -/
def topPrice (L : List PriceLevel) : Price := (L.head?.map (·.price)).getD kNoPrice

/-- The cached sizes an aggressor on `side` at `limit` walks over, as a natural number. -/
def crossedQty (side : Side) (limit : Price) (L : List PriceLevel) : Nat :=
  ((L.takeWhile fun l => crosses side limit l.price).map fun l => l.totalQty.toNat).sum

theorem marketableLoop_eq (side : Side) (limit : Price) : ∀ (L : List (Price × PriceLevel)) (total : Quantity),
    (∀ e ∈ L, e.2.price = e.1) →
    marketableLoop side limit L total = total + UInt64.ofNat (crossedQty side limit (L.map (·.2))) := by
  intro L
  induction L with
  | nil => intro total _; simp [marketableLoop, crossedQty]
  | cons e L ih =>
    intro total h
    have he : e.2.price = e.1 := h e (by simp)
    obtain ⟨px, lvl⟩ := e
    simp only at he
    subst he
    unfold marketableLoop crossedQty
    by_cases hc : crosses side limit lvl.price = true
    · rw [if_pos hc, ih _ (fun e he => h e (List.mem_cons_of_mem _ he)), List.map_cons,
        List.takeWhile_cons_of_pos (by exact hc), List.map_cons, List.sum_cons, UInt64.ofNat_add, UInt64.ofNat_toNat,
        UInt64.add_assoc]
      rfl
    · rw [if_neg hc, List.map_cons, List.takeWhile_cons_of_neg (by exact hc)]
      simp

theorem snapshotLoop_eq : ∀ (L : List (Price × PriceLevel)) (n : Nat), (∀ e ∈ L, e.2.price = e.1) →
    snapshotLoop L n = ((L.map (·.2)).take n).map depthEntry := by
  intro L
  induction L with
  | nil => intro n _; simp [snapshotLoop]
  | cons e L ih =>
    intro n h
    have he : e.2.price = e.1 := h e (by simp)
    obtain ⟨px, lvl⟩ := e
    simp only at he
    subst he
    cases n with
    | zero => rfl
    | succ n =>
      rw [snapshotLoop, ih n (fun e he => h e (List.mem_cons_of_mem _ he)), List.map_cons, List.take_succ_cons,
        List.map_cons]
      rfl

theorem pushBack_nonempty {l : PriceLevel} {m : Mem} {o : Ptr} (h : l.empty = false ∨ l.tail = none) :
    (l.pushBack m o).1.empty = false := by
  unfold PriceLevel.pushBack PriceLevel.empty at *
  cases ht : l.tail with
  | none => simp
  | some t =>
    rcases h with h | h
    · simpa using h
    · rw [ht] at h; cases h

class LawfulBook (B : Type) [Book B] where
  Ok : B → Prop
  minPrice : B → Price
  maxPrice : B → Price
  levels : B → Side → List PriceLevel
  make_ok {lo hi : Price} {b : B} : Book.make lo hi = some b →
    Ok b ∧ minPrice b = lo ∧ maxPrice b = hi ∧ (∀ s, levels b s = []) ∧ ∀ s, Book.orderCount b s = 0
  inBand_eq (b : B) (p : Price) : Book.inBand b p = decide (minPrice b ≤ p ∧ p ≤ maxPrice b)
  ordered {b : B} : Ok b → ∀ s, Ordered (better s) PriceLevel.price (levels b s)
  bestLevel_eq {b : B} : Ok b → ∀ s, Book.bestLevel b s = (levels b s).head?
  bestPrice_eq {b : B} : Ok b → ∀ s, Book.bestPrice b s = topPrice (levels b s)
  /-- A level at the sentinel `kNoPrice` would end the walk of a dense book. -/
  marketableQty_eq {b : B} : Ok b → ∀ side limit,
    (kNoPrice < minPrice b ∨ ∀ l ∈ levels b (opposite side), l.price ≠ kNoPrice) →
    Book.marketableQty b side limit = UInt64.ofNat (crossedQty side limit (levels b (opposite side)))
  snapshot_eq {b : B} : Ok b → ∀ s n, (kNoPrice < minPrice b ∨ ∀ l ∈ levels b s, l.price ≠ kNoPrice) →
    Book.snapshot b s n = ((levels b s).take n).map depthEntry
  /-- An order outside the band may have no defined place. -/
  add_none {b : B} {m : Mem} {o : Ptr} : Ok b → Book.add b m o = none → Book.inBand b (m o).price = false
  add_some {b b' : B} {m m' : Mem} {o : Ptr} : Ok b → Book.add b m o = some (b', m') →
    let s := (m o).side
    let l := (lookup PriceLevel.price (m o).price (levels b s)).getD { price := (m o).price }
    Ok b' ∧ minPrice b' = minPrice b ∧ maxPrice b' = maxPrice b ∧ m' = (l.pushBack m o).2 ∧
      levels b' s = put (better s) PriceLevel.price (l.pushBack m o).1 (levels b s) ∧
      levels b' (opposite s) = levels b (opposite s) ∧
      Book.orderCount b' s = Book.orderCount b s + 1 ∧
      Book.orderCount b' (opposite s) = Book.orderCount b (opposite s)
  /-- The order's level is there; emptied, it is as new. -/
  remove_some {b : B} {m : Mem} {o : Ptr} {l : PriceLevel} : Ok b →
    lookup PriceLevel.price (m o).price (levels b (m o).side) = some l →
    ((l.unlink m o).1.empty = true → (l.unlink m o).1 = { price := (m o).price }) →
    let s := (m o).side
    ∃ b', Book.remove b m o = some (b', (l.unlink m o).2) ∧
      Ok b' ∧ minPrice b' = minPrice b ∧ maxPrice b' = maxPrice b ∧
      levels b' s = (if (l.unlink m o).1.empty then del PriceLevel.price (m o).price (levels b s)
        else put (better s) PriceLevel.price (l.unlink m o).1 (levels b s)) ∧
      levels b' (opposite s) = levels b (opposite s) ∧
      Book.orderCount b' s = Book.orderCount b s - 1 ∧
      Book.orderCount b' (opposite s) = Book.orderCount b (opposite s)
  reduce_some {b : B} {m : Mem} {o : Ptr} {l : PriceLevel} (traded : Quantity) : Ok b →
    lookup PriceLevel.price (m o).price (levels b (m o).side) = some l →
    let s := (m o).side
    ∃ b', Book.reduceInPlace b m o traded = some (b', takeFrom m o traded) ∧
      Ok b' ∧ minPrice b' = minPrice b ∧ maxPrice b' = maxPrice b ∧
      levels b' s = put (better s) PriceLevel.price { l with totalQty := l.totalQty - traded } (levels b s) ∧
      levels b' (opposite s) = levels b (opposite s) ∧
      ∀ t, Book.orderCount b' t = Book.orderCount b t

end Lob
