/-
  Lob.Book.SortedVectorOrderBook — one price-sorted vector of nodes per side
  (`sorted_vector_order_book.hpp`).

  `std::lower_bound` is the index of the first node the predicate fails on, which is its
  specification on a sorted range. Dereferencing `end()` is not defined: `none`.
  `SortedVectorOrderBook.Ok`: nodes sorted best first, each level at its node's price and
  not empty; `split` is what a sought price sees of such a vector.
-/

import Lob.Book.Interface

namespace Lob

open Lob.Base.Sorted

/-- A price and its level. -/
abbrev Node := Price × PriceLevel

structure SortedVectorOrderBook where
  minPrice : Price
  maxPrice : Price
  vec : Side → List Node
  count : Side → Nat

namespace SortedVectorOrderBook

def make (minPrice maxPrice : Price) : Option SortedVectorOrderBook :=
  some ⟨minPrice, maxPrice, fun _ => [], fun _ => 0⟩

/-- The first node whose price is not better than `price`. -/
def seek (v : List Node) (s : Side) (price : Price) : Nat := v.findIdx fun n => !decide (better s n.1 price)

variable (b : SortedVectorOrderBook)

def inBand (p : Price) : Bool := decide (p ≥ b.minPrice ∧ p ≤ b.maxPrice)

def add (m : Mem) (o : Ptr) : Option (SortedVectorOrderBook × Mem) :=
  let s := (m o).side
  let px := (m o).price
  let v := b.vec s
  let i := seek v s px
  let fresh :=
    let (lvl, m) := PriceLevel.pushBack { price := px } m o
    (v.insertIdx i (px, lvl), m)
  let (v, m) := match v[i]? with
    | some n =>
      if n.1 = px then
        let (lvl, m) := n.2.pushBack m o
        (v.set i (n.1, lvl), m)
      else fresh
    | none => fresh
  some ({ b with vec := setSide b.vec s v, count := setSide b.count s (b.count s + 1) }, m)

def remove (m : Mem) (o : Ptr) : Option (SortedVectorOrderBook × Mem) := do
  let s := (m o).side
  let v := b.vec s
  let i := seek v s (m o).price
  let n ← v[i]?
  let (lvl, m) := n.2.unlink m o
  let v := if lvl.empty then v.eraseIdx i else v.set i (n.1, lvl)
  some ({ b with vec := setSide b.vec s v, count := setSide b.count s (b.count s - 1) }, m)

def reduceInPlace (m : Mem) (o : Ptr) (traded : Quantity) : Option (SortedVectorOrderBook × Mem) := do
  let s := (m o).side
  let v := b.vec s
  let i := seek v s (m o).price
  let n ← v[i]?
  let v := v.set i (n.1, { n.2 with totalQty := n.2.totalQty - traded })
  some ({ b with vec := setSide b.vec s v }, takeFrom m o traded)

def bestLevel (s : Side) : Option PriceLevel := (b.vec s).head?.map (·.2)

def bestPrice (s : Side) : Price :=
  match b.bestLevel s with
  | none => kNoPrice
  | some l => l.price

def marketableQty (side : Side) (limit : Price) : Quantity := marketableLoop side limit (b.vec (opposite side)) 0

def snapshot (s : Side) (maxLevels : Nat) : List DepthEntry := snapshotLoop (b.vec s) maxLevels

end SortedVectorOrderBook

instance : Book SortedVectorOrderBook where
  make := SortedVectorOrderBook.make
  inBand := SortedVectorOrderBook.inBand
  add := SortedVectorOrderBook.add
  remove := SortedVectorOrderBook.remove
  reduceInPlace := SortedVectorOrderBook.reduceInPlace
  bestLevel := SortedVectorOrderBook.bestLevel
  bestPrice := SortedVectorOrderBook.bestPrice
  marketableQty := SortedVectorOrderBook.marketableQty
  orderCount b s := b.count s
  snapshot := SortedVectorOrderBook.snapshot

/-! ## The levels of a side -/

namespace SortedVectorOrderBook

variable {b : SortedVectorOrderBook} {s : Side} {p : Price} {l : PriceLevel} {m : Mem} {o : Ptr}

structure Ok (b : SortedVectorOrderBook) : Prop where
  ordered : ∀ s, Ordered (better s) Prod.fst (b.vec s)
  price : ∀ s, ∀ n ∈ b.vec s, n.2.price = n.1
  nonempty : ∀ s, ∀ n ∈ b.vec s, n.2.empty = false

def levelList (b : SortedVectorOrderBook) (s : Side) : List PriceLevel := (b.vec s).map (·.2)

theorem ordered_levels (h : Ok b) (s : Side) : Ordered (better s) PriceLevel.price (b.levelList s) := by
  unfold Ordered levelList
  rw [List.pairwise_map]
  refine List.Pairwise.imp_of_mem ?_ (h.ordered s)
  intro x y hx hy hxy
  rw [h.price s x hx, h.price s y hy]
  exact hxy

/-- Where a price stands in its side's vector. -/
structure At (b : SortedVectorOrderBook) (s : Side) (p : Price) (xs : List Node) (n : Option Node) (ys : List Node) :
    Prop where
  vec : b.vec s = xs ++ n.toList ++ ys
  index : seek (b.vec s) s p = xs.length
  here : ∀ c, n = some c → c.1 = p ∧ c.2.price = p ∧ c.2.empty = false
  left : ∀ x ∈ xs, better s x.2.price p
  right : ∀ y ∈ ys, better s p y.2.price

theorem split (h : Ok b) (s : Side) (p : Price) : ∃ xs n ys, At b s p xs n ys := by
  obtain ⟨xs, ys, hv, hx, hy⟩ := split_at (h.ordered s) p
  have hmem : ∀ n, n ∈ b.vec s ↔ n ∈ xs ∨ n ∈ (lookup Prod.fst p (b.vec s)).toList ∨ n ∈ ys := by
    intro n
    conv => lhs; rw [hv]
    simp
  refine ⟨xs, lookup Prod.fst p (b.vec s), ys, hv, ?_, ?_, ?_, ?_⟩
  · have hstop : ∀ zs : List Node, (∀ z ∈ zs, ¬ better s z.1 p) →
        (xs ++ zs).findIdx (fun n => !decide (better s n.1 p)) = xs.length := by
      intro zs hz
      clear hv hmem
      induction xs with
      | nil =>
        cases zs with
        | nil => rfl
        | cons z zs => simp [List.findIdx_cons, hz z (by simp)]
      | cons x xs ih =>
        have hb := hx x (by simp)
        rw [List.cons_append, List.findIdx_cons]
        simp [hb, ih fun x hx' => hx x (List.mem_cons_of_mem _ hx')]
    unfold seek
    rw [hv, List.append_assoc]
    refine hstop _ fun z hz => ?_
    rcases List.mem_append.mp hz with hz | hz
    · have hz : lookup Prod.fst p (b.vec s) = some z := by simpa using hz
      rw [(lookup_some hz).2]
      exact irrefl _
    · exact asymm (hy z hz)
  · intro c hc
    obtain ⟨hm, e⟩ := lookup_some hc
    exact ⟨e, (h.price s c hm).trans e, h.nonempty s c hm⟩
  · intro x hx'
    rw [h.price s x ((hmem x).mpr (Or.inl hx'))]; exact hx x hx'
  · intro y hy'
    rw [h.price s y ((hmem y).mpr (Or.inr (Or.inr hy')))]; exact hy y hy'

variable {xs ys : List Node} {n : Option Node}

theorem At.levelList_eq (a : At b s p xs n ys) :
    b.levelList s = xs.map (·.2) ++ (n.map (·.2)).toList ++ ys.map (·.2) := by
  unfold SortedVectorOrderBook.levelList
  rw [a.vec]
  cases n <;> simp

theorem At.lookup_eq (a : At b s p xs n ys) : lookup PriceLevel.price p (b.levelList s) = n.map (·.2) := by
  rw [a.levelList_eq]
  refine lookup_split (show ∀ x ∈ xs.map (·.2), better s x.price p from List.forall_mem_map.mpr a.left)
    (List.forall_mem_map.mpr a.right) _ ?_
  intro c hc
  obtain ⟨d, hd, rfl⟩ := Option.map_eq_some_iff.mp hc
  exact (a.here d hd).2.1

theorem At.get (a : At b s p xs n ys) : (b.vec s)[xs.length]? = n.or ys.head? := by
  rw [a.vec]
  cases n <;> cases ys <;> simp

theorem At.mem (a : At b s p xs n ys) {z : Node} (hz : z ∈ xs ∨ z ∈ ys) : z ∈ b.vec s := by
  rw [a.vec]
  rcases hz with hz | hz <;> simp [hz]

theorem sorted_bounds (h : Ok b) (a : At b s p xs n ys) : (∀ x ∈ xs, better s x.1 p) ∧ (∀ y ∈ ys, better s p y.1) ∧
    Ordered (better s) Prod.fst xs ∧ Ordered (better s) Prod.fst ys := by
  have hs := h.ordered s
  rw [a.vec, sorted_append, sorted_append] at hs
  exact ⟨fun x hx => by rw [← h.price s x (a.mem (Or.inl hx))]; exact a.left x hx,
    fun y hy => by rw [← h.price s y (a.mem (Or.inr hy))]; exact a.right y hy, hs.1.1, hs.2.1⟩

/-- A side's vector replaced by one that is well formed. -/
theorem Ok.setSide (h : Ok b) {b' : SortedVectorOrderBook} {v : List Node} (hs : b'.vec = setSide b.vec s v)
    (hord : Ordered (better s) Prod.fst v) (hnode : ∀ z ∈ v, z.2.price = z.1 ∧ z.2.empty = false) : Ok b' where
  ordered := by
    rw [hs]
    exact setSide_all (P := fun t v => Ordered (better t) Prod.fst v) hord (h.ordered _)
  price := by
    rw [hs]
    exact setSide_all (P := fun _ v => ∀ z ∈ v, z.2.price = z.1) (fun z hz => (hnode z hz).1) (h.price _)
  nonempty := by
    rw [hs]
    exact setSide_all (P := fun _ v => ∀ z ∈ v, z.2.empty = false) (fun z hz => (hnode z hz).2) (h.nonempty _)

/-- Writing the node of a price. -/
theorem write_spec (h : Ok b) (a : At b s p xs n ys) (b' : SortedVectorOrderBook) (hp : l.price = p)
    (he : l.empty = false) (hs : b'.vec = setSide b.vec s (xs ++ (p, l) :: ys)) :
    Ok b' ∧ b'.levelList s = put (better s) PriceLevel.price l (b.levelList s) ∧
      b'.levelList (opposite s) = b.levelList (opposite s) := by
  obtain ⟨hx, hy, hxs, hys⟩ := sorted_bounds h a
  have hv : b'.vec s = xs ++ (p, l) :: ys := by rw [hs, setSide_same]
  have ho : b'.vec (opposite s) = b.vec (opposite s) := by rw [hs, setSide_opposite]
  have hold : ∀ z, z ∈ xs ∨ z ∈ ys → z.2.price = z.1 ∧ z.2.empty = false := fun z hz =>
    ⟨h.price s z (a.mem hz), h.nonempty s z (a.mem hz)⟩
  refine ⟨h.setSide hs ?_ ?_, ?_, ?_⟩
  · rw [sorted_append, sorted_cons]
    refine ⟨hxs, ⟨hy, hys⟩, fun x hx' y hy' => ?_⟩
    rcases List.mem_cons.mp hy' with rfl | hy'
    · exact hx x hx'
    · exact trans_of (better s) (hx x hx') (hy y hy')
  · intro z hz
    rcases List.mem_append.mp hz with hz | hz
    · exact hold z (Or.inl hz)
    · rcases List.mem_cons.mp hz with rfl | hz
      · exact ⟨hp, he⟩
      · exact hold z (Or.inr hz)
  · rw [a.levelList_eq, put_split (by rw [hp]; exact List.forall_mem_map.mpr a.left)
      (by rw [hp]; exact List.forall_mem_map.mpr a.right)]
    · unfold SortedVectorOrderBook.levelList
      rw [hv]; simp
    · intro c hc
      obtain ⟨d, hd, rfl⟩ := Option.map_eq_some_iff.mp hc
      rw [hp]; exact (a.here d hd).2.1
  · unfold SortedVectorOrderBook.levelList
    rw [ho]

/-- Erasing the node of a price. -/
theorem drop_spec (h : Ok b) (a : At b s p xs n ys) (b' : SortedVectorOrderBook)
    (hs : b'.vec = setSide b.vec s (xs ++ ys)) :
    Ok b' ∧ b'.levelList s = del PriceLevel.price p (b.levelList s) ∧
      b'.levelList (opposite s) = b.levelList (opposite s) := by
  obtain ⟨hx, hy, hxs, hys⟩ := sorted_bounds h a
  have hv : b'.vec s = xs ++ ys := by rw [hs, setSide_same]
  have ho : b'.vec (opposite s) = b.vec (opposite s) := by rw [hs, setSide_opposite]
  refine ⟨h.setSide hs ?_ ?_, ?_, ?_⟩
  · rw [sorted_append]
    exact ⟨hxs, hys, fun x hx' y hy' => trans_of (better s) (hx x hx') (hy y hy')⟩
  · intro z hz
    have hmem := a.mem (List.mem_append.mp hz)
    exact ⟨h.price s z hmem, h.nonempty s z hmem⟩
  · rw [a.levelList_eq, del_split (show ∀ x ∈ xs.map (·.2), better s x.price p from List.forall_mem_map.mpr a.left)
      (List.forall_mem_map.mpr a.right)]
    · unfold SortedVectorOrderBook.levelList
      rw [hv]; simp
    · intro c hc
      obtain ⟨d, hd, rfl⟩ := Option.map_eq_some_iff.mp hc
      exact (a.here d hd).2.1
  · unfold SortedVectorOrderBook.levelList
    rw [ho]

theorem insertIdx_middle (xs ys : List Node) (c : Node) : (xs ++ ys).insertIdx xs.length c = xs ++ c :: ys := by
  induction xs with
  | nil => rfl
  | cons x xs ih => simp [ih]

/-! ## The operations -/

theorem make_ok {lo hi : Price} (e : make lo hi = some b) :
    Ok b ∧ b.minPrice = lo ∧ b.maxPrice = hi ∧ (∀ s, b.levelList s = []) ∧ ∀ s, b.count s = 0 := by
  cases e
  exact ⟨⟨fun _ => List.Pairwise.nil, fun _ n hn => by simp at hn, fun _ n hn => by simp at hn⟩, rfl, rfl,
    fun _ => rfl, fun _ => rfl⟩

theorem add_spec (h : Ok b) : ∃ b',
    let l := (lookup PriceLevel.price (m o).price (b.levelList (m o).side)).getD { price := (m o).price }
    b.add m o = some (b', (l.pushBack m o).2) ∧
    Ok b' ∧ b'.minPrice = b.minPrice ∧ b'.maxPrice = b.maxPrice ∧
      b'.levelList (m o).side =
        put (better (m o).side) PriceLevel.price (l.pushBack m o).1 (b.levelList (m o).side) ∧
      b'.levelList (opposite (m o).side) = b.levelList (opposite (m o).side) ∧
      b'.count = setSide b.count (m o).side (b.count (m o).side + 1) := by
  obtain ⟨xs, n, ys, a⟩ := split h (m o).side (m o).price
  rw [a.lookup_eq]
  unfold add
  cases n with
  | some n =>
    obtain ⟨hn, hnp, hne⟩ := a.here n rfl
    have hget := a.get
    simp only [Option.some_or] at hget
    have hset : ∀ l, (b.vec (m o).side).set xs.length ((m o).price, l) = xs ++ ((m o).price, l) :: ys := by
      intro l; rw [a.vec]; simp
    obtain ⟨h1, h2, h3⟩ := write_spec h a { b with
        vec := setSide b.vec (m o).side (xs ++ ((m o).price, (n.2.pushBack m o).1) :: ys)
        count := setSide b.count (m o).side (b.count (m o).side + 1) }
      ((PriceLevel.pushBack_price _ m o).trans hnp) (pushBack_nonempty (Or.inl hne)) rfl
    refine ⟨_, ?_, h1, rfl, rfl, h2, h3, rfl⟩
    simp only [a.index, hget, hn, if_true, Option.map_some, Option.getD_some, hset]
  | none =>
    have hget := a.get
    simp only [Option.none_or] at hget
    have hins : ∀ c, (b.vec (m o).side).insertIdx xs.length c = xs ++ c :: ys := by
      intro c; rw [a.vec]; simp [insertIdx_middle]
    obtain ⟨h1, h2, h3⟩ := write_spec h a { b with
        vec := setSide b.vec (m o).side (xs ++ ((m o).price, (PriceLevel.pushBack { price := (m o).price } m o).1) :: ys)
        count := setSide b.count (m o).side (b.count (m o).side + 1) }
      (PriceLevel.pushBack_price _ m o) (pushBack_nonempty (Or.inr rfl)) rfl
    refine ⟨_, ?_, h1, rfl, rfl, h2, h3, rfl⟩
    simp only [a.index, hget, Option.map_none, Option.getD_none, hins]
    cases hy : ys.head? with
    | none => rfl
    | some y =>
      -- the node found is of a worse price
      have hne : y.1 ≠ (m o).price := fun e =>
        irrefl (r := better (m o).side) (m o).price (e ▸ (sorted_bounds h a).2.1 y (List.mem_of_head? hy))
      simp only [hne, if_false]

theorem remove_spec (h : Ok b) (hl : lookup PriceLevel.price (m o).price (b.levelList (m o).side) = some l) :
    ∃ b', b.remove m o = some (b', (l.unlink m o).2) ∧
      Ok b' ∧ b'.minPrice = b.minPrice ∧ b'.maxPrice = b.maxPrice ∧
      b'.levelList (m o).side = (if (l.unlink m o).1.empty
        then del PriceLevel.price (m o).price (b.levelList (m o).side)
        else put (better (m o).side) PriceLevel.price (l.unlink m o).1 (b.levelList (m o).side)) ∧
      b'.levelList (opposite (m o).side) = b.levelList (opposite (m o).side) ∧
      b'.count = setSide b.count (m o).side (b.count (m o).side - 1) := by
  obtain ⟨xs, n, ys, a⟩ := split h (m o).side (m o).price
  rw [a.lookup_eq] at hl
  obtain ⟨n, rfl, rfl⟩ := Option.map_eq_some_iff.mp hl
  obtain ⟨hn, hnp, hne⟩ := a.here n rfl
  have hget := a.get
  simp only [Option.some_or] at hget
  unfold remove
  simp only [a.index, hget, Option.bind_eq_bind, Option.bind_some]
  cases he : (n.2.unlink m o).1.empty with
  | true =>
    have herase : (b.vec (m o).side).eraseIdx xs.length = xs ++ ys := by
      rw [a.vec]; simp [List.eraseIdx_append_of_length_le]
    obtain ⟨h1, h2, h3⟩ := drop_spec h a { b with
        vec := setSide b.vec (m o).side (xs ++ ys)
        count := setSide b.count (m o).side (b.count (m o).side - 1) } rfl
    refine ⟨_, ?_, h1, rfl, rfl, h2, h3, rfl⟩
    simp only [if_true, herase]
  | false =>
    have hset : (b.vec (m o).side).set xs.length (n.1, (n.2.unlink m o).1) =
        xs ++ ((m o).price, (n.2.unlink m o).1) :: ys := by
      rw [a.vec, ← hn]; simp
    obtain ⟨h1, h2, h3⟩ := write_spec h a { b with
        vec := setSide b.vec (m o).side (xs ++ ((m o).price, (n.2.unlink m o).1) :: ys)
        count := setSide b.count (m o).side (b.count (m o).side - 1) }
      ((PriceLevel.unlink_price _ m o).trans hnp) he rfl
    refine ⟨_, ?_, h1, rfl, rfl, h2, h3, rfl⟩
    simp only [Bool.false_eq_true, if_false, hset]

theorem reduce_spec (traded : Quantity) (h : Ok b)
    (hl : lookup PriceLevel.price (m o).price (b.levelList (m o).side) = some l) :
    ∃ b', b.reduceInPlace m o traded = some (b', takeFrom m o traded) ∧
      Ok b' ∧ b'.minPrice = b.minPrice ∧ b'.maxPrice = b.maxPrice ∧
      b'.levelList (m o).side =
        put (better (m o).side) PriceLevel.price { l with totalQty := l.totalQty - traded } (b.levelList (m o).side) ∧
      b'.levelList (opposite (m o).side) = b.levelList (opposite (m o).side) ∧ b'.count = b.count := by
  obtain ⟨xs, n, ys, a⟩ := split h (m o).side (m o).price
  rw [a.lookup_eq] at hl
  obtain ⟨n, rfl, rfl⟩ := Option.map_eq_some_iff.mp hl
  obtain ⟨hn, hnp, hne⟩ := a.here n rfl
  have hget := a.get
  simp only [Option.some_or] at hget
  have hset : (b.vec (m o).side).set xs.length (n.1, { n.2 with totalQty := n.2.totalQty - traded }) =
      xs ++ ((m o).price, { n.2 with totalQty := n.2.totalQty - traded }) :: ys := by
    rw [a.vec, ← hn]; simp
  obtain ⟨h1, h2, h3⟩ := write_spec h a (l := { n.2 with totalQty := n.2.totalQty - traded })
    { b with
        vec := setSide b.vec (m o).side (xs ++ ((m o).price, { n.2 with totalQty := n.2.totalQty - traded }) :: ys) }
    hnp hne rfl
  refine ⟨_, ?_, h1, rfl, rfl, h2, h3, rfl⟩
  unfold reduceInPlace
  simp only [a.index, hget, Option.bind_eq_bind, Option.bind_some, hset]

end SortedVectorOrderBook

instance : LawfulBook SortedVectorOrderBook where
  Ok := SortedVectorOrderBook.Ok
  minPrice := SortedVectorOrderBook.minPrice
  maxPrice := SortedVectorOrderBook.maxPrice
  levels := SortedVectorOrderBook.levelList
  make_ok := SortedVectorOrderBook.make_ok
  inBand_eq _ _ := rfl
  ordered := SortedVectorOrderBook.ordered_levels
  bestLevel_eq {b} _ s := by
    show (b.vec s).head?.map (·.2) = ((b.vec s).map (·.2)).head?
    rw [List.head?_map]
  bestPrice_eq {b} _ s := by
    show SortedVectorOrderBook.bestPrice b s = topPrice ((b.vec s).map (·.2))
    unfold SortedVectorOrderBook.bestPrice SortedVectorOrderBook.bestLevel topPrice
    rw [List.head?_map]
    cases (b.vec s).head? <;> rfl
  marketableQty_eq {b} h side limit _ := by
    show marketableLoop side limit (b.vec (opposite side)) 0 = _
    rw [marketableLoop_eq _ _ _ _ (h.price _), UInt64.zero_add]
    rfl
  snapshot_eq h s n _ := snapshotLoop_eq _ n (h.price s)
  add_none {b m o} h e := by
    obtain ⟨b', h0, _⟩ := SortedVectorOrderBook.add_spec (m := m) (o := o) h
    exact absurd (h0.symm.trans e) (by simp)
  add_some {b b' m m' o} h e := by
    obtain ⟨c, h0, h1, h2, h3, h4, h5, h6⟩ := SortedVectorOrderBook.add_spec (m := m) (o := o) h
    obtain ⟨rfl, rfl⟩ : c = b' ∧ _ = m' := by
      have := h0.symm.trans e
      simpa using this
    refine ⟨h1, h2, h3, rfl, h4, h5, ?_, ?_⟩
    · show c.count _ = b.count _ + 1
      rw [h6, setSide_same]
    · show c.count _ = b.count _
      rw [h6, setSide_opposite]
  remove_some {b m o l} h hl _ := by
    obtain ⟨b', h0, h1, h2, h3, h4, h5, h6⟩ := SortedVectorOrderBook.remove_spec h hl
    refine ⟨b', h0, h1, h2, h3, h4, h5, ?_, ?_⟩
    · show b'.count _ = b.count _ - 1
      rw [h6, setSide_same]
    · show b'.count _ = b.count _
      rw [h6, setSide_opposite]
  reduce_some {b m o l} traded h hl := by
    obtain ⟨b', h0, h1, h2, h3, h4, h5, h6⟩ := SortedVectorOrderBook.reduce_spec traded h hl
    exact ⟨b', h0, h1, h2, h3, h4, h5, fun t => congrFun h6 t⟩

end Lob
