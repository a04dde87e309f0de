/-
  Lob.Book.MapOrderBook — one ordered map from price to level per side
  (`map_order_book.hpp`).

  A side is a `Std.TreeMap` under the side's comparator; iteration order is `toList`, so
  `begin()` is its head. `find` past the end is dereferenced without a check: `none`.
  `MapOrderBook.Ok`: every entry's level carries its key and is not empty.
-/

import Lob.Book.Interface
import Mathlib.Tactic.Linarith

namespace Lob

open Lob.Base.Sorted

/-- `std::greater` for bids, `std::less` for asks. -/
def cmp : Side → Price → Price → Ordering
  | .buy, p, q => compare q p
  | .sell, p, q => compare p q

structure MapOrderBook where
  minPrice : Price
  maxPrice : Price
  bid : Std.TreeMap Price PriceLevel (cmp .buy)
  ask : Std.TreeMap Price PriceLevel (cmp .sell)
  count : Side → Nat

namespace MapOrderBook

def make (minPrice maxPrice : Price) : Option MapOrderBook := some ⟨minPrice, maxPrice, ∅, ∅, fun _ => 0⟩

variable (b : MapOrderBook)

def inBand (p : Price) : Bool := decide (p ≥ b.minPrice ∧ p ≤ b.maxPrice)

/-- `bid_` or `ask_`. -/
def map : (s : Side) → Std.TreeMap Price PriceLevel (cmp s)
  | .buy => b.bid
  | .sell => b.ask

def withMap : (s : Side) → Std.TreeMap Price PriceLevel (cmp s) → MapOrderBook
  | .buy, t => { b with bid := t }
  | .sell, t => { b with ask := t }

def add (m : Mem) (o : Ptr) : Option (MapOrderBook × Mem) :=
  let s := (m o).side
  let px := (m o).price
  let lvl := (b.map s)[px]?.getD {}
  let lvl := if lvl.head = none then { lvl with price := px } else lvl
  let (lvl, m) := lvl.pushBack m o
  some ({ b.withMap s ((b.map s).insert px lvl) with count := setSide b.count s (b.count s + 1) }, m)

def remove (m : Mem) (o : Ptr) : Option (MapOrderBook × Mem) := do
  let s := (m o).side
  let px := (m o).price
  let lvl ← (b.map s)[px]?
  let (lvl, m) := lvl.unlink m o
  let t := if lvl.empty then (b.map s).erase px else (b.map s).insert px lvl
  some ({ b.withMap s t with count := setSide b.count s (b.count s - 1) }, m)

def reduceInPlace (m : Mem) (o : Ptr) (traded : Quantity) : Option (MapOrderBook × Mem) := do
  let s := (m o).side
  let px := (m o).price
  let lvl ← (b.map s)[px]?
  some (b.withMap s ((b.map s).insert px { lvl with totalQty := lvl.totalQty - traded }), takeFrom m o traded)

def bestLevel (s : Side) : Option PriceLevel := (b.map s).toList.head?.map (·.2)

def bestPrice (s : Side) : Price :=
  match b.bestLevel s with
  | none => kNoPrice
  | some l => l.price

def marketableQty (side : Side) (limit : Price) : Quantity :=
  marketableLoop side limit (b.map (opposite side)).toList 0

def snapshot (s : Side) (maxLevels : Nat) : List DepthEntry := snapshotLoop (b.map s).toList maxLevels

end MapOrderBook

instance : Book MapOrderBook where
  make := MapOrderBook.make
  inBand := MapOrderBook.inBand
  add := MapOrderBook.add
  remove := MapOrderBook.remove
  reduceInPlace := MapOrderBook.reduceInPlace
  bestLevel := MapOrderBook.bestLevel
  bestPrice := MapOrderBook.bestPrice
  marketableQty := MapOrderBook.marketableQty
  orderCount b s := b.count s
  snapshot := MapOrderBook.snapshot

/-! ## The comparators -/

theorem cmp_lt (s : Side) {p q : Price} : cmp s p q = .lt ↔ better s p q := by
  cases s
  · exact Int.compare_eq_lt
  · exact Int.compare_eq_lt

instance (s : Side) : Std.TransCmp (cmp s) := by
  cases s
  · exact inferInstanceAs (Std.TransCmp fun p q : Int => compare q p)
  · exact inferInstanceAs (Std.TransCmp fun p q : Int => compare p q)

instance (s : Side) : Std.LawfulEqCmp (cmp s) := by
  cases s
  · exact ⟨fun h => (@Std.LawfulEqCmp.eq_of_compare Int compare _ _ _ h).symm⟩
  · exact ⟨fun h => @Std.LawfulEqCmp.eq_of_compare Int compare _ _ _ h⟩

/-! ## The levels of a side -/

namespace MapOrderBook

variable {b b' : MapOrderBook} {s : Side} {p : Price} {l : PriceLevel} {m : Mem} {o : Ptr}

structure Ok (b : MapOrderBook) : Prop where
  price : ∀ (s : Side) (p : Price) (l : PriceLevel), (b.map s)[p]? = some l → l.price = p
  nonempty : ∀ (s : Side) (p : Price) (l : PriceLevel), (b.map s)[p]? = some l → l.empty = false

def levelList (b : MapOrderBook) (s : Side) : List PriceLevel := (b.map s).toList.map (·.2)

@[simp] theorem map_withMap (b : MapOrderBook) (s : Side) (t : Std.TreeMap Price PriceLevel (cmp s)) :
    (b.withMap s t).map s = t := by cases s <;> rfl

@[simp] theorem map_withMap_opposite (b : MapOrderBook) (s : Side) (t : Std.TreeMap Price PriceLevel (cmp s)) :
    (b.withMap s t).map (opposite s) = b.map (opposite s) := by cases s <;> rfl

theorem ordered_levels (h : Ok b) (s : Side) : Ordered (better s) PriceLevel.price (b.levelList s) := by
  unfold Ordered levelList
  rw [List.pairwise_map]
  refine List.Pairwise.imp_of_mem ?_ Std.TreeMap.ordered_keys_toList
  intro x y hx hy hxy
  rw [h.price s x.1 x.2 (Std.TreeMap.mem_toList_iff_getElem?_eq_some.mp hx),
    h.price s y.1 y.2 (Std.TreeMap.mem_toList_iff_getElem?_eq_some.mp hy)]
  exact (cmp_lt s).mp hxy

theorem lookup_levels (h : Ok b) (s : Side) (p : Price) :
    lookup PriceLevel.price p (b.levelList s) = (b.map s)[p]? := by
  have hmem : ∀ (q : Price) (l : PriceLevel), (b.map s)[q]? = some l → l ∈ b.levelList s := fun q l hq =>
    List.mem_map.mpr ⟨(q, l), Std.TreeMap.mem_toList_iff_getElem?_eq_some.mpr hq, rfl⟩
  cases hp : (b.map s)[p]? with
  | some l =>
    rw [← h.price s p l hp]
    exact lookup_of_mem (ordered_levels h s) (hmem p l hp)
  | none =>
    cases hl : lookup PriceLevel.price p (b.levelList s) with
    | none => rfl
    | some l =>
      obtain ⟨hm, e⟩ := lookup_some hl
      obtain ⟨⟨q, l'⟩, hq, rfl⟩ := List.mem_map.mp hm
      have hq := Std.TreeMap.mem_toList_iff_getElem?_eq_some.mp hq
      rw [h.price s q _ hq] at e
      rw [e, hp] at hq
      cases hq

theorem entries_price (h : Ok b) (s : Side) : ∀ e ∈ (b.map s).toList, e.2.price = e.1 := fun e he =>
  h.price s e.1 e.2 (Std.TreeMap.mem_toList_iff_getElem?_eq_some.mp he)

theorem bestLevel_eq (b : MapOrderBook) (s : Side) : b.bestLevel s = (b.levelList s).head? := by
  unfold bestLevel levelList
  rw [List.head?_map]

theorem bestPrice_eq (b : MapOrderBook) (s : Side) : b.bestPrice s = topPrice (b.levelList s) := by
  unfold bestPrice topPrice
  rw [bestLevel_eq]
  cases (b.levelList s).head? <;> rfl

/-! ## Changing one entry -/

theorem insert_spec (h : Ok b) (b' : MapOrderBook) (hp : l.price = p) (he : l.empty = false)
    (hs : b'.map s = (b.map s).insert p l) (ho : b'.map (opposite s) = b.map (opposite s)) :
    Ok b' ∧ b'.levelList s = put (better s) PriceLevel.price l (b.levelList s) ∧
      b'.levelList (opposite s) = b.levelList (opposite s) := by
  have hget : ∀ q : Price, (b'.map s)[q]? = if p = q then some l else (b.map s)[q]? := by
    intro q
    rw [hs, Std.TreeMap.getElem?_insert]
    simp only [Std.LawfulEqCmp.compare_eq_iff_eq]
  have hentry : ∀ (t : Side) (q : Price) (k : PriceLevel), (b'.map t)[q]? = some k → k.price = q ∧ k.empty = false := by
    intro t q k hq
    rcases eq_or_opposite s t with rfl | rfl
    · rw [hget] at hq
      split at hq
      · rename_i e; cases hq; exact ⟨hp.trans e, he⟩
      · exact ⟨h.price t q k hq, h.nonempty t q k hq⟩
    · rw [ho] at hq; exact ⟨h.price _ q k hq, h.nonempty _ q k hq⟩
  have h' : Ok b' := ⟨fun t q k hq => (hentry t q k hq).1, fun t q k hq => (hentry t q k hq).2⟩
  refine ⟨h', ext_lookup (ordered_levels h' s) (sorted_put (ordered_levels h s) l) fun q => ?_, ?_⟩
  · rw [lookup_levels h', lookup_put (ordered_levels h s), lookup_levels h, hget, hp]
    simp only [eq_comm]
  · unfold levelList; rw [ho]

theorem erase_spec (h : Ok b) (b' : MapOrderBook) (hs : b'.map s = (b.map s).erase p)
    (ho : b'.map (opposite s) = b.map (opposite s)) :
    Ok b' ∧ b'.levelList s = del PriceLevel.price p (b.levelList s) ∧
      b'.levelList (opposite s) = b.levelList (opposite s) := by
  have hget : ∀ q : Price, (b'.map s)[q]? = if p = q then none else (b.map s)[q]? := by
    intro q
    rw [hs, Std.TreeMap.getElem?_erase]
    simp only [Std.LawfulEqCmp.compare_eq_iff_eq]
  have hold : ∀ (t : Side) (q : Price) (k : PriceLevel), (b'.map t)[q]? = some k → (b.map t)[q]? = some k := by
    intro t q k hq
    rcases eq_or_opposite s t with rfl | rfl
    · rw [hget] at hq
      split at hq
      · cases hq
      · exact hq
    · rw [ho] at hq; exact hq
  have h' : Ok b' := ⟨fun t q k hq => h.price t q k (hold t q k hq), fun t q k hq => h.nonempty t q k (hold t q k hq)⟩
  refine ⟨h', ext_lookup (ordered_levels h' s) (sorted_del (ordered_levels h s) p) fun q => ?_, ?_⟩
  · rw [lookup_levels h', lookup_del, lookup_levels h, hget]
    simp only [eq_comm]
  · unfold levelList; rw [ho]

/-! ## The operations -/

theorem make_ok {lo hi : Price} (e : make lo hi = some b) :
    Ok b ∧ b.minPrice = lo ∧ b.maxPrice = hi ∧ (∀ s, b.levelList s = []) ∧ ∀ s, b.count s = 0 := by
  cases e
  have hget : ∀ (s : Side) (p : Price), (map ⟨lo, hi, ∅, ∅, fun _ => 0⟩ s)[p]? = none := by
    intro s p
    cases s
    · exact Std.TreeMap.getElem?_emptyc
    · exact Std.TreeMap.getElem?_emptyc
  refine ⟨⟨fun s p l hl => ?_, fun s p l hl => ?_⟩, rfl, rfl, fun s => ?_, fun _ => rfl⟩
  · rw [hget] at hl; cases hl
  · rw [hget] at hl; cases hl
  · unfold levelList
    rw [List.map_eq_nil_iff, List.eq_nil_iff_forall_not_mem]
    intro e he
    rw [Std.TreeMap.mem_toList_iff_getElem?_eq_some, hget] at he
    cases he

theorem add_spec (h : Ok b) {m' : Mem} (e : b.add m o = some (b', m')) :
    let l := (lookup PriceLevel.price (m o).price (b.levelList (m o).side)).getD { price := (m o).price }
    Ok b' ∧ b'.minPrice = b.minPrice ∧ b'.maxPrice = b.maxPrice ∧ m' = (l.pushBack m o).2 ∧
      b'.levelList (m o).side =
        put (better (m o).side) PriceLevel.price (l.pushBack m o).1 (b.levelList (m o).side) ∧
      b'.levelList (opposite (m o).side) = b.levelList (opposite (m o).side) ∧
      b'.count = setSide b.count (m o).side (b.count (m o).side + 1) := by
  intro l
  have hl : l = (if ((b.map (m o).side)[(m o).price]?.getD {}).head = none
      then { (b.map (m o).side)[(m o).price]?.getD {} with price := (m o).price }
      else (b.map (m o).side)[(m o).price]?.getD {}) ∧ l.price = (m o).price ∧
      (l.empty = false ∨ l.tail = none) := by
    have hlk : l = ((b.map (m o).side)[(m o).price]?).getD { price := (m o).price } := by
      rw [← lookup_levels h]
    rw [hlk]
    cases hq : (b.map (m o).side)[(m o).price]? with
    | none => exact ⟨rfl, rfl, Or.inr rfl⟩
    | some k =>
      have hne := h.nonempty _ _ k hq
      refine ⟨?_, h.price _ _ k hq, Or.inl hne⟩
      have : k.head ≠ none := fun e => by unfold PriceLevel.empty at hne; rw [e] at hne; cases hne
      simp [this]
  unfold add at e
  simp only at e
  rw [← hl.1] at e
  simp only [Option.some.injEq, Prod.mk.injEq] at e
  obtain ⟨hb', hm'⟩ := e
  obtain ⟨h1, h2, h3⟩ := insert_spec h b' (s := (m o).side) (p := (m o).price)
    ((PriceLevel.pushBack_price l m o).trans hl.2.1) (pushBack_nonempty hl.2.2)
    (by rw [← hb']; exact map_withMap _ _ _) (by rw [← hb']; exact map_withMap_opposite _ _ _)
  refine ⟨h1, ?_, ?_, hm'.symm, h2, h3, ?_⟩
  · rw [← hb']; cases (m o).side <;> rfl
  · rw [← hb']; cases (m o).side <;> rfl
  · rw [← hb']

theorem remove_spec (h : Ok b) (hl : lookup PriceLevel.price (m o).price (b.levelList (m o).side) = some l) :
    ∃ b', b.remove m o = some (b', (l.unlink m o).2) ∧
      Ok b' ∧ b'.minPrice = b.minPrice ∧ b'.maxPrice = b.maxPrice ∧
      b'.levelList (m o).side = (if (l.unlink m o).1.empty
        then del PriceLevel.price (m o).price (b.levelList (m o).side)
        else put (better (m o).side) PriceLevel.price (l.unlink m o).1 (b.levelList (m o).side)) ∧
      b'.levelList (opposite (m o).side) = b.levelList (opposite (m o).side) ∧
      b'.count = setSide b.count (m o).side (b.count (m o).side - 1) := by
  rw [lookup_levels h] at hl
  have hp : (l.unlink m o).1.price = (m o).price := (PriceLevel.unlink_price l m o).trans (h.price _ _ l hl)
  unfold remove
  simp only [hl, Option.bind_eq_bind, Option.bind_some]
  refine ⟨_, rfl, ?_⟩
  cases he : (l.unlink m o).1.empty with
  | true =>
    simp only [if_true]
    obtain ⟨h1, h2, h3⟩ := erase_spec h { b.withMap (m o).side ((b.map (m o).side).erase (m o).price) with
        count := setSide b.count (m o).side (b.count (m o).side - 1) }
      (map_withMap b _ _) (map_withMap_opposite b _ _)
    refine ⟨h1, ?_, ?_, h2, h3, trivial⟩
    · cases (m o).side <;> rfl
    · cases (m o).side <;> rfl
  | false =>
    simp only [Bool.false_eq_true, if_false]
    obtain ⟨h1, h2, h3⟩ := insert_spec h
      { b.withMap (m o).side ((b.map (m o).side).insert (m o).price (l.unlink m o).1) with
        count := setSide b.count (m o).side (b.count (m o).side - 1) }
      hp he (map_withMap b _ _) (map_withMap_opposite b _ _)
    refine ⟨h1, ?_, ?_, h2, h3, trivial⟩
    · cases (m o).side <;> rfl
    · cases (m o).side <;> rfl

theorem reduce_spec (traded : Quantity) (h : Ok b)
    (hl : lookup PriceLevel.price (m o).price (b.levelList (m o).side) = some l) :
    ∃ b', b.reduceInPlace m o traded = some (b', takeFrom m o traded) ∧
      Ok b' ∧ b'.minPrice = b.minPrice ∧ b'.maxPrice = b.maxPrice ∧
      b'.levelList (m o).side =
        put (better (m o).side) PriceLevel.price { l with totalQty := l.totalQty - traded } (b.levelList (m o).side) ∧
      b'.levelList (opposite (m o).side) = b.levelList (opposite (m o).side) ∧ b'.count = b.count := by
  rw [lookup_levels h] at hl
  unfold reduceInPlace
  simp only [hl, Option.bind_eq_bind, Option.bind_some]
  obtain ⟨h1, h2, h3⟩ := insert_spec h (l := { l with totalQty := l.totalQty - traded })
    (b.withMap (m o).side ((b.map (m o).side).insert (m o).price { l with totalQty := l.totalQty - traded }))
    (h.price _ _ l hl) (h.nonempty _ _ l hl) (map_withMap b _ _) (map_withMap_opposite b _ _)
  refine ⟨_, rfl, h1, ?_, ?_, h2, h3, ?_⟩
  · cases (m o).side <;> rfl
  · cases (m o).side <;> rfl
  · cases (m o).side <;> rfl

end MapOrderBook

instance : LawfulBook MapOrderBook where
  Ok := MapOrderBook.Ok
  minPrice := MapOrderBook.minPrice
  maxPrice := MapOrderBook.maxPrice
  levels := MapOrderBook.levelList
  make_ok := MapOrderBook.make_ok
  inBand_eq _ _ := rfl
  ordered := MapOrderBook.ordered_levels
  bestLevel_eq _ s := MapOrderBook.bestLevel_eq _ s
  bestPrice_eq _ s := MapOrderBook.bestPrice_eq _ s
  marketableQty_eq h side limit _ := by
    show marketableLoop _ _ _ _ = _
    rw [marketableLoop_eq _ _ _ _ (MapOrderBook.entries_price h _), UInt64.zero_add]
    rfl
  snapshot_eq h s n _ := snapshotLoop_eq _ n (MapOrderBook.entries_price h s)
  add_none _ e := by cases e
  add_some {b b' m m' o} h e := by
    obtain ⟨h1, h2, h3, h4, h5, h6, h7⟩ := MapOrderBook.add_spec h e
    refine ⟨h1, h2, h3, h4, h5, h6, ?_, ?_⟩
    · show b'.count _ = b.count _ + 1
      rw [h7, setSide_same]
    · show b'.count _ = b.count _
      rw [h7, setSide_opposite]
  remove_some {b m o l} h hl _ := by
    obtain ⟨b', h0, h1, h2, h3, h4, h5, h6⟩ := MapOrderBook.remove_spec h hl
    refine ⟨b', h0, h1, h2, h3, h4, h5, ?_, ?_⟩
    · show b'.count _ = b.count _ - 1
      rw [h6, setSide_same]
    · show b'.count _ = b.count _
      rw [h6, setSide_opposite]
  reduce_some {b m o l} traded h hl := by
    obtain ⟨b', h0, h1, h2, h3, h4, h5, h6⟩ := MapOrderBook.reduce_spec traded h hl
    exact ⟨b', h0, h1, h2, h3, h4, h5, fun t => congrFun h6 t⟩

end Lob
