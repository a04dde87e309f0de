/-
  Lob.Book.OrderBookRuns — a dense book over a run of calls.

  `Use` is a book, the memory its orders live in, and its member orders: those added and
  not removed, oldest first. `Use.queue u s p` is read off the members alone. `Inv` says
  that each level of the array holds the queue of its price; every legal call has a
  result and keeps it (`Inv.call`), so every reachable state has it (`Reaches.inv`).
-/

import Lob.Book.Ladder
import Lob.Book.OrderBookProofs
import Mathlib.Data.List.Nodup

namespace Lob.OrderBook

open Lob.Base.Sorted

/-! ## Calls -/

structure Use where
  book : OrderBook
  mem : Mem
  members : List Ptr

inductive Call where
  | add (o : Ptr) (order : Order)
  | remove (o : Ptr)
  | reduceInPlace (o : Ptr) (traded : Quantity)

def Use.Legal (u : Use) : Call → Prop
  | .add o order => o ∉ u.members ∧ u.book.inBand order.price = true
  | .remove o => o ∈ u.members
  | .reduceInPlace o traded => o ∈ u.members ∧ traded < (u.mem o).remaining

/-- The caller fills an order in before it adds it. -/
def Use.call (u : Use) : Call → Option Use
  | .add o order => (u.book.add (Function.update u.mem o order) o).map fun r => ⟨r.1, r.2, u.members ++ [o]⟩
  | .remove o => (u.book.remove u.mem o).map fun r => ⟨r.1, r.2, u.members.erase o⟩
  | .reduceInPlace o traded => (u.book.reduceInPlace u.mem o traded).map fun r => ⟨r.1, r.2, u.members⟩

inductive Reaches (u : Use) : Use → Prop where
  | start : Reaches u u
  | call {v w : Use} (c : Call) : Reaches u v → v.Legal c → v.call c = some w → Reaches u w

/-- The members of side `s` at price `p`. -/
def Use.queue (u : Use) (s : Side) (p : Price) : List Ptr :=
  u.members.filter fun o => (u.mem o).side = s ∧ (u.mem o).price = p

theorem Use.mem_queue {u : Use} {s : Side} {p : Price} {o : Ptr} :
    o ∈ u.queue s p ↔ o ∈ u.members ∧ (u.mem o).side = s ∧ (u.mem o).price = p := by
  rw [Use.queue, List.mem_filter, decide_eq_true_eq]

/-! ## The invariant -/

structure Inv (lo hi : Price) (u : Use) : Prop where
  ok : Ok u.book
  low : u.book.minPrice = lo
  high : u.book.maxPrice = hi
  nodup : u.members.Nodup
  band : ∀ o ∈ u.members, lo ≤ (u.mem o).price ∧ (u.mem o).price ≤ hi
  queue : ∀ s i, i < u.book.span → Queue u.mem (u.book.levels s i) (u.queue s (lo + i))

variable {lo hi : Price} {b b' : OrderBook} {u : Use} {s : Side} {i : Nat}

theorem span_eq (h : Ok b) (h' : Ok b') (hl : b'.minPrice = b.minPrice) (hh : b'.maxPrice = b.maxPrice) :
    b'.span = b.span := by
  rw [h'.span, h.span, hl, hh]

theorem Inv.index_of_band (h : Inv lo hi u) {p : Price} (hp : lo ≤ p ∧ p ≤ hi) :
    ∃ i, i < u.book.span ∧ p = lo + (i : Int) := by
  have hs := h.ok.span
  rw [h.low, h.high] at hs
  refine ⟨(p - lo).toNat, ?_, ?_⟩
  · unfold Price at *
    omega
  · unfold Price at *
    omega

theorem Inv.slot_of_band (h : Inv lo hi u) {p : Price} (hp : lo ≤ p ∧ p ≤ hi) :
    ∃ i, u.book.slot p = some i ∧ i < u.book.span ∧ p = lo + (i : Int) := by
  obtain ⟨i, hi', e⟩ := h.index_of_band hp
  exact ⟨i, (slot_eq_some h.ok).mpr ⟨hi', by rw [h.low]; exact e⟩, hi', e⟩

/-- A level is what the list of its side has at its price. -/
theorem level_eq (h : Ok b) (s : Side) (hi : i < b.span) :
    b.levels s i = (lookup PriceLevel.price (b.minPrice + i) (b.levelList s)).getD {} := by
  rw [lookup_levels h hi]
  split
  · rename_i he
    exact h.vacant s i he
  · rfl

/-- One level written. -/
theorem levels_put (h : Ok b) (h' : Ok b') (hl : b'.minPrice = b.minPrice) (hs : b'.span = b.span) {l : PriceLevel}
    (hp : l.price = b.minPrice + (i : Int)) (hsame : b'.levelList s = put (better s) PriceLevel.price l (b.levelList s))
    (hopp : b'.levelList (opposite s) = b.levelList (opposite s)) (t : Side) {j : Nat} (hj : j < b.span) :
    b'.levels t j = if t = s ∧ j = i then l else b.levels t j := by
  rw [level_eq h' t (by rw [hs]; exact hj), level_eq h t hj, hl]
  rcases eq_or_opposite s t with rfl | rfl
  · rw [hsame, lookup_put (ordered_levels h _), hp]
    simp only [offset_inj, true_and]
    split <;> rfl
  · rw [hopp, if_neg fun e => opposite_ne s e.1]

/-- One level emptied. -/
theorem levels_del (h : Ok b) (h' : Ok b') (hl : b'.minPrice = b.minPrice) (hs : b'.span = b.span)
    (hsame : b'.levelList s = del PriceLevel.price (b.minPrice + (i : Int)) (b.levelList s))
    (hopp : b'.levelList (opposite s) = b.levelList (opposite s)) (t : Side) {j : Nat} (hj : j < b.span) :
    b'.levels t j = if t = s ∧ j = i then {} else b.levels t j := by
  rw [level_eq h' t (by rw [hs]; exact hj), level_eq h t hj, hl]
  rcases eq_or_opposite s t with rfl | rfl
  · rw [hsame, lookup_del]
    simp only [offset_inj, true_and]
    split <;> rfl
  · rw [hopp, if_neg fun e => opposite_ne s e.1]

/-- A call that writes one level and leaves the orders of the others alone keeps the invariant. -/
theorem Inv.write (h : Inv lo hi u) {u' : Use} {l : PriceLevel} (h' : Ok u'.book) (hl : u'.book.minPrice = lo)
    (hh : u'.book.maxPrice = hi) (hnd : u'.members.Nodup)
    (hband : ∀ o ∈ u'.members, lo ≤ (u'.mem o).price ∧ (u'.mem o).price ≤ hi)
    (hlev : ∀ t j, j < u.book.span → u'.book.levels t j = if t = s ∧ j = i then l else u.book.levels t j)
    (hq : Queue u'.mem l (u'.queue s (lo + i)))
    (hold : ∀ t j, ¬ (t = s ∧ j = i) →
      u'.queue t (lo + (j : Int)) = u.queue t (lo + j) ∧ ∀ r ∈ u.queue t (lo + j), u'.mem r = u.mem r) :
    Inv lo hi u' := by
  refine ⟨h', hl, hh, hnd, hband, fun t j hj => ?_⟩
  rw [span_eq h.ok h' (hl.trans h.low.symm) (hh.trans h.high.symm)] at hj
  rw [hlev t j hj]
  by_cases e : t = s ∧ j = i
  · obtain ⟨rfl, rfl⟩ := e
    rw [if_pos ⟨rfl, rfl⟩]
    exact hq
  · obtain ⟨h1, h2⟩ := hold t j e
    rw [if_neg e, h1]
    exact (h.queue t j hj).congr h2

/-- Two queues of different levels share no order. -/
theorem queue_disjoint {t : Side} {j : Nat} {r : Ptr} (hr : r ∈ u.queue t (lo + j)) (hr' : r ∈ u.queue s (lo + i)) :
    t = s ∧ j = i := by
  obtain ⟨_, h1, h2⟩ := Use.mem_queue.mp hr
  obtain ⟨_, h1', h2'⟩ := Use.mem_queue.mp hr'
  exact ⟨h1.symm.trans h1', (offset_inj lo).mp (h2.symm.trans h2')⟩

/-! ## Add -/

/-- The level an order of this price joins, a new one if there is none, holds the queue of the price. -/
theorem Inv.joined (h : Inv lo hi u) (s : Side) {p : Price} (hp : lo ≤ p ∧ p ≤ hi) :
    let l := (lookup PriceLevel.price p (u.book.levelList s)).getD { price := p }
    l.price = p ∧ Queue u.mem l (u.queue s p) := by
  obtain ⟨i, hi', hpi⟩ := h.index_of_band hp
  have hq := h.queue s i hi'
  rw [level_eq h.ok s hi', h.low, ← hpi] at hq
  intro l
  cases hlk : lookup PriceLevel.price p (u.book.levelList s) with
  | some l' =>
    have hl : l = l' := by simp only [l, hlk, Option.getD_some]
    rw [hlk, Option.getD_some] at hq
    rw [hl]
    exact ⟨(lookup_some hlk).2, hq⟩
  | none =>
    have hl : l = { price := p } := by simp only [l, hlk, Option.getD_none]
    rw [hlk, Option.getD_none] at hq
    rw [hl, (hq.empty_iff.mp rfl : u.queue s p = [])]
    exact ⟨rfl, queue_nil u.mem p⟩

/-- A new member comes last in the queue of its side and price. -/
theorem Use.queue_concat (u : Use) (b' : OrderBook) {m' : Mem} {o : Ptr} {order : OrderInfo}
    (ho : (m' o).toOrderInfo = order) (hold : ∀ r ∈ u.members, (m' r).toOrderInfo = (u.mem r).toOrderInfo) (t : Side)
    (p : Price) : Use.queue ⟨b', m', u.members ++ [o]⟩ t p =
      u.queue t p ++ if order.side = t ∧ order.price = p then [o] else [] := by
  unfold Use.queue
  rw [List.filter_append]
  congr 1
  · refine List.filter_congr fun r hr => ?_
    show decide ((m' r).toOrderInfo.side = t ∧ (m' r).toOrderInfo.price = p) = _
    rw [hold r hr]
  · rw [List.filter_cons, List.filter_nil]
    show (if decide ((m' o).toOrderInfo.side = t ∧ (m' o).toOrderInfo.price = p) = true then _ else _) = _
    rw [ho]
    simp only [decide_eq_true_eq]

theorem Inv.add (h : Inv lo hi u) {o : Ptr} {order : Order} (ho : o ∉ u.members)
    (hp : u.book.inBand order.price = true) :
    ∃ u', u.call (.add o order) = some u' ∧ Inv lo hi u' := by
  have hp : lo ≤ order.price ∧ order.price ≤ hi := by
    rw [inBand, h.low, h.high, decide_eq_true_eq] at hp
    exact hp
  obtain ⟨i, hslot, hi', hpi⟩ := h.slot_of_band hp
  let m := Function.update u.mem o order
  have hmo : m o = order := Function.update_self ..
  have hm : ∀ r, r ≠ o → m r = u.mem r := fun r hr => Function.update_of_ne hr _ _
  have hne : ∀ r ∈ u.members, r ≠ o := fun r hr e => ho (e ▸ hr)
  cases hadd : u.book.add m o with
  | none =>
    unfold OrderBook.add at hadd
    rw [hmo, hslot] at hadd
    cases hadd
  | some r =>
    obtain ⟨b', m'⟩ := r
    obtain ⟨h', hl, hh, hm', hsame, hopp, _⟩ := add_spec h.ok hadd
    rw [hmo] at hm' hsame hopp
    obtain ⟨hlp, hjoined⟩ := h.joined order.side hp
    let l := (lookup PriceLevel.price order.price (u.book.levelList order.side)).getD { price := order.price }
    change m' = (l.pushBack m o).2 at hm'
    have hq : Queue m l (u.queue order.side (lo + i)) := by
      rw [← hpi]
      exact hjoined.congr fun r hr => hm r (hne r (Use.mem_queue.mp hr).1)
    have hinfo : ∀ r, (m' r).toOrderInfo = (m r).toOrderInfo := by
      intro r
      rw [hm']
      exact PriceLevel.pushBack_info l m o r
    have hqueue := u.queue_concat b' ((hinfo o).trans (congrArg Order.toOrderInfo hmo))
      fun r hr => (hinfo r).trans (congrArg Order.toOrderInfo (hm r (hne r hr)))
    refine ⟨⟨b', m', u.members ++ [o]⟩, by rw [Use.call, hadd, Option.map_some], ?_⟩
    refine h.write (s := order.side) (i := i) (l := (l.pushBack m o).1) h' (hl.trans h.low) (hh.trans h.high) ?_ ?_
      (fun t j hj => ?_) ?_ fun t j hj => ⟨?_, fun r hr => ?_⟩
    · refine List.nodup_append.mpr ⟨h.nodup, List.nodup_singleton o, fun r hr x hx e => ?_⟩
      rw [List.mem_singleton] at hx
      exact hne r hr (e.trans hx)
    · intro r hr
      show lo ≤ (m' r).toOrderInfo.price ∧ (m' r).toOrderInfo.price ≤ hi
      rw [hinfo]
      rcases List.mem_append.mp hr with hr | hr
      · rw [hm r (hne r hr)]
        exact h.band r hr
      · rw [List.mem_singleton.mp hr, hmo]
        exact hp
    · refine levels_put h.ok h' hl (span_eq h.ok h' hl hh) ?_ hsame hopp t hj
      rw [PriceLevel.pushBack_price, hlp, hpi, h.low]
    · show Queue m' _ _
      rw [hqueue, if_pos ⟨rfl, hpi⟩, hm']
      exact pushBack_queue hq fun hr => ho (Use.mem_queue.mp hr).1
    · rw [hqueue, if_neg, List.append_nil]
      intro e
      exact hj ⟨e.1.symm, ((offset_inj lo).mp (hpi.symm.trans e.2)).symm⟩
    · show m' r = u.mem r
      have hro := hne r (Use.mem_queue.mp hr).1
      rw [hm', hq.pushBack_frame hro fun hrq => hj (queue_disjoint hr hrq), hm r hro]

/-! ## Remove -/

/-- The level of a member. -/
theorem Inv.level_of_mem (h : Inv lo hi u) {o : Ptr} (ho : o ∈ u.members) :
    ∃ i a c, i < u.book.span ∧ (u.mem o).price = lo + (i : Int) ∧
      u.queue (u.mem o).side (lo + i) = a ++ o :: c ∧
      lookup PriceLevel.price (u.mem o).price (u.book.levelList (u.mem o).side) =
        some (u.book.levels (u.mem o).side i) ∧
      (u.book.levels (u.mem o).side i).price = (u.mem o).price := by
  obtain ⟨i, hi', hpi⟩ := h.index_of_band (h.band o ho)
  have hmem : o ∈ u.queue (u.mem o).side (lo + i) := Use.mem_queue.mpr ⟨ho, rfl, hpi⟩
  obtain ⟨a, c, hac⟩ := List.append_of_mem hmem
  have hocc : (u.book.levels (u.mem o).side i).empty = false := by
    rw [← Bool.not_eq_true, (h.queue _ i hi').empty_iff]
    exact List.ne_nil_of_mem hmem
  refine ⟨i, a, c, hi', hpi, hac, ?_, ?_⟩
  · rw [hpi, ← h.low, lookup_levels h.ok hi', hocc]
    rfl
  · rw [hpi, ← h.low]
    exact h.ok.price _ i hocc

theorem Inv.remove (h : Inv lo hi u) {o : Ptr} (ho : o ∈ u.members) :
    ∃ u', u.call (.remove o) = some u' ∧ Inv lo hi u' := by
  obtain ⟨i, a, c, hi', hpi, hac, hlk, hlp⟩ := h.level_of_mem ho
  let l := u.book.levels (u.mem o).side i
  have hq : Queue u.mem l (a ++ o :: c) := by
    rw [← hac]
    exact h.queue _ i hi'
  have hq' := unlink_queue hq
  have hlp' : (l.unlink u.mem o).1.price = (u.mem o).price := (PriceLevel.unlink_price l u.mem o).trans hlp
  have hnew : (l.unlink u.mem o).1.empty = true → (l.unlink u.mem o).1 = { price := (u.mem o).price } := by
    intro he
    rw [hq.unlink_emptied he, hlp]
  obtain ⟨b', hrem, h', hl, hh, hsame, hopp, _⟩ := remove_spec h.ok hlk hnew
  have hinfo : ∀ r, ((l.unlink u.mem o).2 r).toOrderInfo = (u.mem r).toOrderInfo := PriceLevel.unlink_info l u.mem o
  have hqueue : ∀ t p, Use.queue ⟨b', (l.unlink u.mem o).2, u.members.erase o⟩ t p = (u.queue t p).erase o := by
    intro t p
    have hnd : (u.queue t p).Nodup := h.nodup.filter _
    rw [hnd.erase_eq_filter]
    unfold Use.queue
    rw [h.nodup.erase_eq_filter, List.filter_filter, List.filter_filter]
    refine List.filter_congr fun r hr => ?_
    show (decide (((l.unlink u.mem o).2 r).toOrderInfo.side = t ∧ ((l.unlink u.mem o).2 r).toOrderInfo.price = p) && _) = _
    rw [hinfo]
    exact Bool.and_comm ..
  have hacnd : (a ++ o :: c).Nodup := by
    rw [← hac]
    exact h.nodup.filter _
  refine ⟨⟨b', (l.unlink u.mem o).2, u.members.erase o⟩, by rw [Use.call, hrem, Option.map_some], ?_⟩
  refine h.write (s := (u.mem o).side) (i := i) (l := if (l.unlink u.mem o).1.empty then {} else (l.unlink u.mem o).1)
    h' (hl.trans h.low) (hh.trans h.high) (h.nodup.erase o) ?_ (fun t j hj => ?_) ?_ fun t j hj => ⟨?_, fun r hr => ?_⟩
  · intro r hr
    show lo ≤ ((l.unlink u.mem o).2 r).toOrderInfo.price ∧ ((l.unlink u.mem o).2 r).toOrderInfo.price ≤ hi
    rw [hinfo]
    exact h.band r (List.mem_of_mem_erase hr)
  · have hspan := span_eq h.ok h' hl hh
    by_cases he : (l.unlink u.mem o).1.empty = true
    · rw [if_pos he, hpi, ← h.low] at hsame
      simp only [if_pos he]
      exact levels_del h.ok h' hl hspan hsame hopp t hj
    · rw [if_neg he] at hsame
      simp only [if_neg he]
      refine levels_put h.ok h' hl hspan ?_ hsame hopp t hj
      rw [hlp', hpi, h.low]
  · show Queue (l.unlink u.mem o).2 _ _
    have hao : o ∉ a := fun hm => (List.nodup_append.mp hacnd).2.2 o hm o (List.mem_cons_self ..) rfl
    rw [hqueue, hac, List.erase_append_right _ hao, List.erase_cons_head]
    split
    · rename_i he
      rw [hq'.empty_iff.mp he]
      exact queue_nil _ kNoPrice
    · exact hq'
  · rw [hqueue, List.erase_of_not_mem]
    intro hm
    exact hj (queue_disjoint hm (by rw [hac]; simp))
  · -- the neighbours whose links change are in the order's own queue
    refine hq.unlink_frame fun hm => ?_
    rw [← hac] at hm
    exact hj (queue_disjoint hr hm)

/-! ## Reduce -/

theorem takeFrom_side (m : Mem) (o r : Ptr) (t : Quantity) : (takeFrom m o t r).side = (m r).side := by
  by_cases e : r = o
  · rw [e, takeFrom_self]
  · rw [takeFrom_of_ne _ _ e]

theorem takeFrom_price (m : Mem) (o r : Ptr) (t : Quantity) : (takeFrom m o t r).price = (m r).price := by
  by_cases e : r = o
  · rw [e, takeFrom_self]
  · rw [takeFrom_of_ne _ _ e]

theorem Inv.reduce (h : Inv lo hi u) {o : Ptr} (ho : o ∈ u.members) {traded : Quantity}
    (ht : traded < (u.mem o).remaining) : ∃ u', u.call (.reduceInPlace o traded) = some u' ∧ Inv lo hi u' := by
  obtain ⟨i, a, c, hi', hpi, hac, hlk, hlp⟩ := h.level_of_mem ho
  obtain ⟨b', hred, h', hl, hh, hsame, hopp, _⟩ := reduce_spec traded h.ok hlk
  have hqueue : ∀ t p, Use.queue ⟨b', takeFrom u.mem o traded, u.members⟩ t p = u.queue t p := by
    intro t p
    refine List.filter_congr fun r hr => ?_
    rw [takeFrom_side, takeFrom_price]
  have hin : o ∈ u.queue (u.mem o).side (lo + i) := Use.mem_queue.mpr ⟨ho, rfl, hpi⟩
  refine ⟨⟨b', takeFrom u.mem o traded, u.members⟩, by rw [Use.call, hred, Option.map_some], ?_⟩
  refine h.write (s := (u.mem o).side) (i := i)
    (l := { u.book.levels (u.mem o).side i with totalQty := (u.book.levels (u.mem o).side i).totalQty - traded })
    h' (hl.trans h.low) (hh.trans h.high) h.nodup ?_ (fun t j hj => ?_) ?_ fun t j hj => ⟨hqueue t _, fun r hr => ?_⟩
  · intro r hr
    show lo ≤ (takeFrom u.mem o traded r).price ∧ (takeFrom u.mem o traded r).price ≤ hi
    rw [takeFrom_price]
    exact h.band r hr
  · refine levels_put h.ok h' hl (span_eq h.ok h' hl hh) ?_ hsame hopp t hj
    show (u.book.levels (u.mem o).side i).price = _
    rw [hlp, hpi, h.low]
  · rw [hqueue]
    exact takeFrom_queue (h.queue _ i hi') hin (UInt64.le_of_lt ht)
  · refine takeFrom_of_ne _ _ fun e => hj ?_
    rw [e] at hr
    exact queue_disjoint hr hin

/-! ## Runs -/

theorem Inv.call (h : Inv lo hi u) {c : Call} (hc : u.Legal c) : ∃ u', u.call c = some u' ∧ Inv lo hi u' := by
  cases c with
  | add o order => exact h.add hc.1 hc.2
  | remove o => exact h.remove hc
  | reduceInPlace o traded => exact h.reduce hc.1 hc.2

theorem Reaches.inv {v : Use} (hr : Reaches u v) (h : Inv lo hi u) : Inv lo hi v := by
  induction hr with
  | start => exact h
  | call c _ hc e ih =>
    obtain ⟨w, e', hw⟩ := ih.call hc
    rw [Option.some.inj (e.symm.trans e')]
    exact hw

theorem make_inv (h : make lo hi = some b) (m : Mem) : Inv lo hi ⟨b, m, []⟩ := by
  obtain ⟨hok, hl, hh, hlev, _⟩ := make_ok h
  refine ⟨hok, hl, hh, List.nodup_nil, fun o ho => absurd ho List.not_mem_nil, fun s i hi => ?_⟩
  show Queue m (b.levels s i) []
  rw [level_eq hok s hi, hlev]
  exact queue_nil m kNoPrice

end Lob.OrderBook
