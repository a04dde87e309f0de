/-
  Lob.Book.PriceLevel — one price point: an intrusive FIFO of orders with cached
  aggregates (`price_level.hpp`).

  `Queue m l q`: in memory `m` the level `l` holds exactly the orders `q`, oldest first.
  `pushBack_queue` and `unlink_queue` keep it, at any position; orders outside the queue
  are untouched (`pushBack_frame`, `unlink_frame`), and only links change
  (`pushBack_info`, `unlink_info`).
-/

import Lob.Base.Links
import Lob.Types
import Mathlib.Logic.Function.Basic
import Mathlib.Data.List.Nodup

namespace Lob

open Lob.Base.Links

/-! ## Writing links -/

def setPrev (m : Mem) (p : Ptr) (v : Option Ptr) : Mem := Function.update m p { m p with prev := v }
def setNext (m : Mem) (p : Ptr) (v : Option Ptr) : Mem := Function.update m p { m p with next := v }

@[simp] theorem setPrev_info (m : Mem) (p r : Ptr) (v : Option Ptr) :
    (setPrev m p v r).toOrderInfo = (m r).toOrderInfo := by
  unfold setPrev; by_cases h : r = p
  · subst h; simp
  · simp [h]

@[simp] theorem setNext_info (m : Mem) (p r : Ptr) (v : Option Ptr) :
    (setNext m p v r).toOrderInfo = (m r).toOrderInfo := by
  unfold setNext; by_cases h : r = p
  · subst h; simp
  · simp [h]

theorem setPrev_prev (m : Mem) (p r : Ptr) (v : Option Ptr) :
    (setPrev m p v r).prev = if r = p then v else (m r).prev := by
  unfold setPrev; split <;> simp_all

theorem setNext_next (m : Mem) (p r : Ptr) (v : Option Ptr) :
    (setNext m p v r).next = if r = p then v else (m r).next := by
  unfold setNext; split <;> simp_all

@[simp] theorem setPrev_next (m : Mem) (p r : Ptr) (v : Option Ptr) : (setPrev m p v r).next = (m r).next := by
  unfold setPrev; by_cases h : r = p
  · subst h; simp
  · simp [h]

@[simp] theorem setNext_prev (m : Mem) (p r : Ptr) (v : Option Ptr) : (setNext m p v r).prev = (m r).prev := by
  unfold setNext; by_cases h : r = p
  · subst h; simp
  · simp [h]

theorem setPrev_of_ne (m : Mem) {p r : Ptr} (v : Option Ptr) (h : r ≠ p) : setPrev m p v r = m r :=
  Function.update_of_ne h _ _

theorem setNext_of_ne (m : Mem) {p r : Ptr} (v : Option Ptr) (h : r ≠ p) : setNext m p v r = m r :=
  Function.update_of_ne h _ _

/-! ## The level -/

structure PriceLevel where
  price : Price := kNoPrice
  totalQty : Quantity := 0
  count : UInt32 := 0
  head : Option Ptr := none
  tail : Option Ptr := none
  deriving DecidableEq, Repr

namespace PriceLevel

/-- `head == nullptr`. -/
def empty (l : PriceLevel) : Bool := l.head.isNone

def pushBack (l : PriceLevel) (m : Mem) (o : Ptr) : PriceLevel × Mem :=
  let m := setNext (setPrev m o l.tail) o none
  let (l, m) := match l.tail with
    | some t => (l, setNext m t (some o))
    | none => ({ l with head := some o }, m)
  ({ l with tail := some o, totalQty := l.totalQty + (m o).remaining, count := l.count + 1 }, m)

def unlink (l : PriceLevel) (m : Mem) (o : Ptr) : PriceLevel × Mem :=
  let (l, m) := match (m o).prev with
    | some q => (l, setNext m q (m o).next)
    | none => ({ l with head := (m o).next }, m)
  let (l, m) := match (m o).next with
    | some n => (l, setPrev m n (m o).prev)
    | none => ({ l with tail := (m o).prev }, m)
  let m := setNext (setPrev m o none) o none
  ({ l with totalQty := l.totalQty - (m o).remaining, count := l.count - 1 }, m)

variable (l : PriceLevel) (m : Mem) (o : Ptr)

@[simp] theorem pushBack_info (r : Ptr) : ((l.pushBack m o).2 r).toOrderInfo = (m r).toOrderInfo := by
  unfold pushBack; cases l.tail <;> simp

@[simp] theorem unlink_info (r : Ptr) : ((l.unlink m o).2 r).toOrderInfo = (m r).toOrderInfo := by
  unfold unlink
  cases (m o).prev <;> simp only <;> split <;> simp

@[simp] theorem pushBack_price : (l.pushBack m o).1.price = l.price := by
  unfold pushBack; cases l.tail <;> rfl

@[simp] theorem unlink_price : (l.unlink m o).1.price = l.price := by
  unfold unlink
  cases (m o).prev <;> simp only <;> split <;> rfl

end PriceLevel

/-! ## The queue a level holds -/

/-- The open quantity of a queue, as a natural number. -/
def openQty (m : Mem) (q : List Ptr) : Nat := (q.map fun p => (m p).remaining.toNat).sum

structure Queue (m : Mem) (l : PriceLevel) (q : List Ptr) : Prop where
  head : l.head = q.head?
  tail : l.tail = q.getLast?
  links : Seg (fun p => (m p).prev) (fun p => (m p).next) none q none
  nodup : q.Nodup
  total : l.totalQty = UInt64.ofNat (openQty m q)
  count : l.count = UInt32.ofNat q.length

variable {m m' : Mem} {l : PriceLevel} {q : List Ptr}

theorem openQty_congr (h : ∀ p ∈ q, (m' p).remaining = (m p).remaining) : openQty m' q = openQty m q := by
  unfold openQty
  rw [List.map_congr_left fun p hp => by rw [h p hp]]

theorem openQty_append (m : Mem) (xs ys : List Ptr) : openQty m (xs ++ ys) = openQty m xs + openQty m ys := by
  simp [openQty]

theorem openQty_cons (m : Mem) (p : Ptr) (ps : List Ptr) :
    openQty m (p :: ps) = (m p).remaining.toNat + openQty m ps := by simp [openQty]

theorem Queue.congr (h : Queue m l q) (hm : ∀ p ∈ q, m' p = m p) : Queue m' l q where
  head := h.head
  tail := h.tail
  links := h.links.congr (fun p hp => by rw [hm p hp]) (fun p hp => by rw [hm p hp])
  nodup := h.nodup
  total := by rw [openQty_congr fun p hp => by rw [hm p hp]]; exact h.total
  count := h.count

theorem queue_nil (m : Mem) (px : Price) : Queue m { price := px } [] :=
  ⟨rfl, rfl, trivial, List.nodup_nil, rfl, rfl⟩

theorem Queue.empty_iff (h : Queue m l q) : l.empty = true ↔ q = [] := by
  unfold PriceLevel.empty
  rw [h.head]; cases q <;> simp

/-- A level whose queue ran out is as new, but for its price. -/
theorem Queue.eq_of_nil (h : Queue m l []) : l = { price := l.price } := by
  obtain ⟨h1, h2, _, _, h3, h4⟩ := h
  cases l
  simp only [List.head?_nil, List.getLast?_nil] at h1 h2
  simp only [openQty, List.map_nil, List.sum_nil, List.length_nil] at h3 h4
  subst h1 h2
  simp [h3, h4]

/-! ## Appending -/

theorem pushBack_frame (l : PriceLevel) (m : Mem) {o r : Ptr} (hr : r ≠ o) (ht : l.tail ≠ some r) :
    (l.pushBack m o).2 r = m r := by
  unfold PriceLevel.pushBack
  cases h : l.tail with
  | none => simp only; rw [setNext_of_ne _ _ hr, setPrev_of_ne _ _ hr]
  | some t =>
    have : r ≠ t := by rintro rfl; exact ht h
    simp only; rw [setNext_of_ne _ _ this, setNext_of_ne _ _ hr, setPrev_of_ne _ _ hr]

/-- Appending writes to the order and to its queue's last one only. -/
theorem Queue.pushBack_frame (h : Queue m l q) {o r : Ptr} (hr : r ≠ o) (hq : r ∉ q) : (l.pushBack m o).2 r = m r := by
  refine Lob.pushBack_frame l m hr fun e => hq ?_
  rw [h.tail] at e
  exact List.mem_of_getLast? e

theorem pushBack_prev (h : Queue m l q) (o r : Ptr) :
    ((l.pushBack m o).2 r).prev = if r = o then q.getLast? else (m r).prev := by
  rw [← h.tail]
  unfold PriceLevel.pushBack
  cases l.tail <;> simp [setPrev_prev]

theorem pushBack_next (h : Queue m l q) (o r : Ptr) :
    ((l.pushBack m o).2 r).next = if q.getLast? = some r then some o else if r = o then none else (m r).next := by
  rw [← h.tail]
  unfold PriceLevel.pushBack
  cases l.tail <;> simp [setNext_next, eq_comm]

theorem pushBack_links (h : Queue m l q) {o : Ptr} (ho : o ∉ q) :
    Seg (fun p => ((l.pushBack m o).2 p).prev) (fun p => ((l.pushBack m o).2 p).next) none (q ++ [o]) none := by
  have hlast : ∀ r, q.getLast? = some r → r ∈ q := fun r hr => List.mem_of_getLast? hr
  rw [seg_append]
  refine ⟨?_, ?_, ?_, trivial⟩
  · refine h.links.relink ?_ ?_ ?_ ?_
    · intro p hp
      have hpq := List.mem_of_head? hp
      rw [pushBack_prev h, if_neg (by rintro rfl; exact ho hpq)]
      cases q with
      | nil => cases hp
      | cons x xs => cases hp; exact h.links.1
    · intro p hp
      rw [pushBack_prev h, if_neg (by rintro rfl; exact ho (List.mem_of_mem_tail hp))]
    · intro p hp
      have hpq := List.dropLast_subset _ hp
      rw [pushBack_next h, if_neg, if_neg (by rintro rfl; exact ho hpq)]
      intro e
      obtain ⟨ys, rfl⟩ := List.getLast?_eq_some_iff.mp e
      rw [List.dropLast_concat] at hp
      have := h.nodup
      rw [List.nodup_append] at this
      exact this.2.2 p hp p (by simp) rfl
    · intro p hp
      rw [pushBack_next h, if_pos hp]; rfl
  · show ((l.pushBack m o).2 o).prev = _
    rw [pushBack_prev h, if_pos rfl]; simp
  · show ((l.pushBack m o).2 o).next = _
    rw [pushBack_next h, if_neg (fun e => ho (hlast o e)), if_pos rfl]; rfl

theorem pushBack_queue (h : Queue m l q) {o : Ptr} (ho : o ∉ q) :
    Queue (l.pushBack m o).2 (l.pushBack m o).1 (q ++ [o]) := by
  have hrem : ∀ r, ((l.pushBack m o).2 r).remaining = (m r).remaining := fun r => by
    rw [PriceLevel.pushBack_info]
  refine ⟨?_, ?_, pushBack_links h ho, ?_, ?_, ?_⟩
  · unfold PriceLevel.pushBack
    cases hq : q with
    | nil => simp [h.tail, hq]
    | cons x xs =>
      have : l.tail ≠ none := by rw [h.tail, hq]; simp
      obtain ⟨t, ht⟩ := Option.ne_none_iff_exists'.mp this
      simp [ht, h.head, hq]
  · unfold PriceLevel.pushBack; simp
  · rw [List.nodup_append]
    exact ⟨h.nodup, by simp, fun a ha b hb => by simp at hb; rintro rfl; exact ho (hb ▸ ha)⟩
  · have e1 : (l.pushBack m o).1.totalQty = l.totalQty + (m o).remaining := by
      unfold PriceLevel.pushBack; cases l.tail <;> simp
    rw [e1, h.total, openQty_append, openQty_congr (m := m) fun p _ => hrem p,
      openQty_congr (m := m) fun p _ => hrem p, UInt64.ofNat_add]
    simp [openQty]
  · have e1 : (l.pushBack m o).1.count = l.count + 1 := by
      unfold PriceLevel.pushBack; cases l.tail <;> rfl
    rw [e1, h.count, List.length_append, UInt32.ofNat_add]; rfl

/-! ## Unlinking -/

theorem unlink_frame (l : PriceLevel) (m : Mem) {o r : Ptr} (hr : r ≠ o) (hp : (m o).prev ≠ some r)
    (hn : (m o).next ≠ some r) : (l.unlink m o).2 r = m r := by
  unfold PriceLevel.unlink
  cases h1 : (m o).prev with
  | none =>
    cases h2 : (m o).next with
    | none => simp only [h1, h2]; rw [setNext_of_ne _ _ hr, setPrev_of_ne _ _ hr]
    | some n =>
      have : r ≠ n := by rintro rfl; exact hn h2
      simp only [h2]; rw [setNext_of_ne _ _ hr, setPrev_of_ne _ _ hr, setPrev_of_ne _ _ this]
  | some q =>
    have hq : r ≠ q := by rintro rfl; exact hp h1
    simp only
    split
    · rename_i n h2
      have : r ≠ n := by
        rintro rfl
        rw [setNext_next] at h2
        split at h2
        · exact hn h2
        · exact hn h2
      simp only
      rw [setNext_of_ne _ _ hr, setPrev_of_ne _ _ hr, setPrev_of_ne _ _ this, setNext_of_ne _ _ hq]
    · simp only
      rw [setNext_of_ne _ _ hr, setPrev_of_ne _ _ hr, setNext_of_ne _ _ hq]

variable {xs ys : List Ptr} {o : Ptr}

/-- The links of a queued order. -/
theorem Queue.links_at (h : Queue m l (xs ++ o :: ys)) :
    Seg (fun p => (m p).prev) (fun p => (m p).next) none xs (some o) ∧ (m o).prev = xs.getLast? ∧
      (m o).next = ys.head? ∧ Seg (fun p => (m p).prev) (fun p => (m p).next) (some o) ys none := by
  obtain ⟨h1, h2, h3, h4⟩ := seg_append.mp h.links
  exact ⟨by simpa using h1, by simpa using h2, by simpa using h3, h4⟩

/-- Taking an order out of its queue touches that queue only. -/
theorem Queue.unlink_frame (h : Queue m l (xs ++ o :: ys)) {r : Ptr} (hr : r ∉ xs ++ o :: ys) :
    (l.unlink m o).2 r = m r := by
  obtain ⟨_, hprev, hnext, _⟩ := h.links_at
  simp only [List.mem_append, List.mem_cons, not_or] at hr
  refine Lob.unlink_frame l m hr.2.1 (fun e => ?_) (fun e => ?_)
  · rw [hprev] at e; exact hr.1 (List.mem_of_getLast? e)
  · rw [hnext] at e; exact hr.2.2 (List.mem_of_head? e)

/-! What `unlink` writes, the order's own links read back. -/

section
variable (hp : (m o).prev = xs.getLast?) (hn : (m o).next = ys.head?) (hox : o ∉ xs)
include hp hn hox

theorem unlink_level : (l.unlink m o).1 =
    { l with
      head := if xs = [] then ys.head? else l.head
      tail := if ys = [] then xs.getLast? else l.tail
      totalQty := l.totalQty - (m o).remaining
      count := l.count - 1 } := by
  unfold PriceLevel.unlink
  rcases List.eq_nil_or_concat xs with rfl | ⟨xs', x, rfl⟩
  · cases ys with
    | nil => simp [hp, hn]
    | cons y ys' => simp [hp, hn]
  · have hxo : o ≠ x := by rintro rfl; exact hox (by simp)
    cases ys with
    | nil => simp [hp, hn, setNext_next, hxo]
    | cons y ys' => simp [hp, hn, setNext_next, hxo]

theorem unlink_prev {r : Ptr} (hr : r ≠ o) :
    ((l.unlink m o).2 r).prev = if ys.head? = some r then xs.getLast? else (m r).prev := by
  unfold PriceLevel.unlink
  rcases List.eq_nil_or_concat xs with rfl | ⟨xs', x, rfl⟩
  · cases ys with
    | nil => simp [hp, hn, setPrev_prev, hr]
    | cons y ys' => simp [hp, hn, setPrev_prev, hr, eq_comm]
  · have hxo : o ≠ x := by rintro rfl; exact hox (by simp)
    cases ys with
    | nil => simp [hp, hn, setNext_next, setPrev_prev, hxo, hr]
    | cons y ys' => simp [hp, hn, setNext_next, setPrev_prev, hxo, hr, eq_comm]

theorem unlink_next {r : Ptr} (hr : r ≠ o) :
    ((l.unlink m o).2 r).next = if xs.getLast? = some r then ys.head? else (m r).next := by
  unfold PriceLevel.unlink
  rcases List.eq_nil_or_concat xs with rfl | ⟨xs', x, rfl⟩
  · cases ys with
    | nil => simp [hp, hn, setNext_next, hr]
    | cons y ys' => simp [hp, hn, setNext_next, hr]
  · have hxo : o ≠ x := by rintro rfl; exact hox (by simp)
    cases ys with
    | nil => simp [hp, hn, setNext_next, hxo, hr, eq_comm]
    | cons y ys' => simp [hp, hn, setNext_next, hxo, hr, eq_comm]

end

/-- The halves of the queue around an order. -/
theorem Queue.split_at (h : Queue m l (xs ++ o :: ys)) : o ∉ xs ∧ o ∉ ys ∧ (∀ a ∈ xs, a ∉ ys) ∧ xs.Nodup ∧ ys.Nodup := by
  have hnd := h.nodup
  rw [List.nodup_append, List.nodup_cons] at hnd
  obtain ⟨ndx, ⟨hoy, ndy⟩, hdis⟩ := hnd
  exact ⟨fun e => hdis o e o (by simp) rfl, hoy, fun a ha hb => hdis a ha a (List.mem_cons_of_mem _ hb) rfl, ndx, ndy⟩

theorem unlink_links (h : Queue m l (xs ++ o :: ys)) :
    Seg (fun p => ((l.unlink m o).2 p).prev) (fun p => ((l.unlink m o).2 p).next) none (xs ++ ys) none := by
  obtain ⟨hxs, hpo, hno, hys⟩ := h.links_at
  obtain ⟨hox, hoy, hxy, ndx, ndy⟩ := h.split_at
  have hlast : ∀ r, xs.getLast? = some r → r ∈ xs := fun r hr => List.mem_of_getLast? hr
  have hhead : ∀ r, ys.head? = some r → r ∈ ys := fun r hr => List.mem_of_head? hr
  have hprev : ∀ r, r ≠ o → ((l.unlink m o).2 r).prev = if ys.head? = some r then xs.getLast? else (m r).prev :=
    fun r => unlink_prev hpo hno hox
  have hnext : ∀ r, r ≠ o → ((l.unlink m o).2 r).next = if xs.getLast? = some r then ys.head? else (m r).next :=
    fun r => unlink_next hpo hno hox
  rw [seg_append]
  constructor
  · refine hxs.relink ?_ ?_ ?_ ?_
    · intro p hp
      have hpx := List.mem_of_head? hp
      rw [hprev p (by rintro rfl; exact hox hpx), if_neg (fun e => hxy p hpx (hhead p e))]
      cases xs with
      | nil => cases hp
      | cons x xs' => cases hp; exact hxs.1
    · intro p hp
      have hpx := List.mem_of_mem_tail hp
      rw [hprev p (by rintro rfl; exact hox hpx), if_neg (fun e => hxy p hpx (hhead p e))]
    · intro p hp
      have hpx := List.dropLast_subset _ hp
      rw [hnext p (by rintro rfl; exact hox hpx), if_neg]
      intro e
      obtain ⟨zs, rfl⟩ := List.getLast?_eq_some_iff.mp e
      rw [List.dropLast_concat] at hp
      rw [List.nodup_append] at ndx
      exact ndx.2.2 p hp p (by simp) rfl
    · intro p hp
      rw [hnext p (by rintro rfl; exact hox (hlast p hp)), if_pos hp]; simp
  · refine hys.relink ?_ ?_ ?_ ?_
    · intro p hp
      rw [hprev p (by rintro rfl; exact hoy (hhead p hp)), if_pos hp]; simp
    · intro p hp
      have hpy := List.mem_of_mem_tail hp
      rw [hprev p (by rintro rfl; exact hoy hpy), if_neg]
      intro e
      cases ys with
      | nil => cases hp
      | cons y ys' => cases e; exact (List.nodup_cons.mp ndy).1 hp
    · intro p hp
      have hpy := List.dropLast_subset _ hp
      rw [hnext p (by rintro rfl; exact hoy hpy), if_neg (fun e => hxy p (hlast p e) hpy)]
    · intro p hp
      have hpy := List.mem_of_getLast? hp
      rw [hnext p (by rintro rfl; exact hoy hpy), if_neg (fun e => hxy p (hlast p e) hpy)]
      obtain ⟨zs, rfl⟩ := List.getLast?_eq_some_iff.mp hp
      exact (seg_append.mp hys).2.2.1

theorem unlink_queue (h : Queue m l (xs ++ o :: ys)) :
    Queue (l.unlink m o).2 (l.unlink m o).1 (xs ++ ys) := by
  obtain ⟨_, hpo, hno, _⟩ := h.links_at
  obtain ⟨hox, _, hxy, ndx, ndy⟩ := h.split_at
  have hrem : ∀ r, ((l.unlink m o).2 r).remaining = (m r).remaining := fun r => by rw [PriceLevel.unlink_info]
  have hval := unlink_level (l := l) hpo hno hox
  refine ⟨?_, ?_, unlink_links h, ?_, ?_, ?_⟩
  · rw [hval]
    cases xs with
    | nil => simp
    | cons x xs' => simp [h.head]
  · rw [hval]
    cases ys with
    | nil => simp
    | cons y ys' => simp [h.tail, List.getLast?_append, List.getLast?_cons_cons]
  · rw [List.nodup_append]
    exact ⟨ndx, ndy, fun a ha b hb e => hxy a ha (e ▸ hb)⟩
  · rw [hval]
    show l.totalQty - (m o).remaining = _
    rw [h.total, openQty_congr (m := m) fun p _ => hrem p, openQty_append, openQty_cons, openQty_append,
      Nat.add_left_comm, UInt64.ofNat_add, UInt64.ofNat_toNat]
    exact UInt64.sub_eq_iff_eq_add.mpr (UInt64.add_comm _ _)
  · rw [hval]
    show l.count - 1 = _
    rw [h.count, List.length_append, List.length_cons, List.length_append, ← Nat.add_assoc, UInt32.ofNat_add]
    exact UInt32.add_sub_cancel _ _

/-- A level its last order left is as new, but for its price. -/
theorem Queue.unlink_emptied (h : Queue m l (xs ++ o :: ys)) (he : (l.unlink m o).1.empty = true) :
    (l.unlink m o).1 = { price := l.price } := by
  have hq := unlink_queue h
  rw [hq.empty_iff.mp he] at hq
  rw [hq.eq_of_nil, PriceLevel.unlink_price]

end Lob
