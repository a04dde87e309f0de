/-
  Lob.Book.Ladder — one side of a book as a list of levels with the queues they hold.

  A rung is a level with its queue; `SideRep m s T` says that in memory `m` the rungs `T`
  are a well-formed side `s`: prices strictly worse along the list, no empty queue, each
  order at its level's price and on its side, no order twice. A stretch of rungs can be
  made anew without looking at the others (`SideRep.splice`). `SideRep.add`,
  `SideRep.remove` and `SideRep.reduce` are the effect of the three book operations on
  it, as `LawfulBook` states them: where the order goes in the priority order `ptrs T`,
  and that memory outside the side is untouched.
-/

import Lob.Book.Interface

namespace Lob

open Lob.Base.Sorted

abbrev Rung := PriceLevel × List Ptr

def rungPrice (t : Rung) : Price := t.1.price

/-- The orders of a side, best price first and oldest first within a price. -/
def ptrs (T : List Rung) : List Ptr := T.flatMap (·.2)

structure SideRep (m : Mem) (s : Side) (T : List Rung) : Prop where
  queue : ∀ t ∈ T, Queue m t.1 t.2
  nonempty : ∀ t ∈ T, t.2 ≠ []
  price : ∀ t ∈ T, ∀ p ∈ t.2, (m p).price = t.1.price
  side : ∀ t ∈ T, ∀ p ∈ t.2, (m p).side = s
  ordered : Ordered (better s) rungPrice T
  nodup : (ptrs T).Nodup

variable {m m' : Mem} {s : Side} {T xs ys : List Rung} {o : Ptr}

@[simp] theorem ptrs_nil : ptrs [] = [] := rfl
@[simp] theorem ptrs_cons (t : Rung) (T : List Rung) : ptrs (t :: T) = t.2 ++ ptrs T := rfl
@[simp] theorem ptrs_append (xs ys : List Rung) : ptrs (xs ++ ys) = ptrs xs ++ ptrs ys := List.flatMap_append

theorem mem_ptrs {p : Ptr} : p ∈ ptrs T ↔ ∃ t ∈ T, p ∈ t.2 := List.mem_flatMap

theorem sideRep_nil (m : Mem) (s : Side) : SideRep m s [] :=
  ⟨by simp, by simp, by simp, by simp, List.Pairwise.nil, List.nodup_nil⟩

theorem SideRep.congr (h : SideRep m s T) (hm : ∀ p ∈ ptrs T, m' p = m p) : SideRep m' s T where
  queue t ht := (h.queue t ht).congr fun p hp => hm p (mem_ptrs.mpr ⟨t, ht, hp⟩)
  nonempty := h.nonempty
  price t ht p hp := by rw [hm p (mem_ptrs.mpr ⟨t, ht, hp⟩)]; exact h.price t ht p hp
  side t ht p hp := by rw [hm p (mem_ptrs.mpr ⟨t, ht, hp⟩)]; exact h.side t ht p hp
  ordered := h.ordered
  nodup := h.nodup

/-- A side reads its orders' links, open sizes, prices and sides only. -/
theorem SideRep.congr_fields (h : SideRep m s T) (hp : ∀ p, (m' p).prev = (m p).prev)
    (hn : ∀ p, (m' p).next = (m p).next) (hr : ∀ p, (m' p).remaining = (m p).remaining)
    (hx : ∀ p, (m' p).price = (m p).price) (hs : ∀ p, (m' p).side = (m p).side) : SideRep m' s T where
  queue t ht :=
    have hq := h.queue t ht
    ⟨hq.head, hq.tail, hq.links.congr (fun p _ => hp p) (fun p _ => hn p), hq.nodup,
      by rw [openQty_congr fun p _ => hr p]; exact hq.total, hq.count⟩
  nonempty := h.nonempty
  price t ht p hpt := by rw [hx]; exact h.price t ht p hpt
  side t ht p hpt := by rw [hs]; exact h.side t ht p hpt
  ordered := h.ordered
  nodup := h.nodup

theorem ordered_levels : Ordered (better s) PriceLevel.price (T.map (·.1)) ↔ Ordered (better s) rungPrice T :=
  List.pairwise_map

theorem SideRep.levels_ordered (h : SideRep m s T) : Ordered (better s) PriceLevel.price (T.map (·.1)) :=
  ordered_levels.mpr h.ordered

/-! ## Rungs -/

/-- A rung by itself. -/
structure RungRep (m : Mem) (s : Side) (t : Rung) : Prop where
  queue : Queue m t.1 t.2
  nonempty : t.2 ≠ []
  price : ∀ p ∈ t.2, (m p).price = t.1.price
  side : ∀ p ∈ t.2, (m p).side = s

theorem SideRep.rungRep (h : SideRep m s T) {t : Rung} (ht : t ∈ T) : RungRep m s t :=
  ⟨h.queue t ht, h.nonempty t ht, h.price t ht, h.side t ht⟩

theorem sideRep_of_rungs (h : ∀ t ∈ T, RungRep m s t) (ho : Ordered (better s) rungPrice T) (hn : (ptrs T).Nodup) :
    SideRep m s T where
  queue t ht := (h t ht).queue
  nonempty t ht := (h t ht).nonempty
  price t ht := (h t ht).price
  side t ht := (h t ht).side
  ordered := ho
  nodup := hn

theorem RungRep.congr {t : Rung} (h : RungRep m s t) (hm : ∀ p ∈ t.2, m' p = m p) : RungRep m' s t where
  queue := h.queue.congr hm
  nonempty := h.nonempty
  price p hp := by rw [hm p hp]; exact h.price p hp
  side p hp := by rw [hm p hp]; exact h.side p hp

/-- The rungs around a stretch of the ladder share no order with it. -/
theorem SideRep.apart (h : SideRep m s T) {M : List Rung} (hT : T = xs ++ M ++ ys) {t : Rung} (ht : t ∈ xs ∨ t ∈ ys) :
    t ∈ T ∧ ∀ p ∈ t.2, p ∉ ptrs M := by
  have hnd := h.nodup
  rw [hT, ptrs_append, ptrs_append, List.nodup_append, List.nodup_append] at hnd
  refine ⟨by rw [hT]; rcases ht with h | h <;> simp [h], fun p hp hpM => ?_⟩
  rcases ht with ht | ht
  · exact hnd.1.2.2 p (mem_ptrs.mpr ⟨t, ht, hp⟩) p hpM rfl
  · exact hnd.2.2 p (List.mem_append_right _ hpM) p (mem_ptrs.mpr ⟨t, ht, hp⟩) rfl

/-- A stretch of the ladder made anew, in a memory that leaves the other rungs alone. -/
theorem SideRep.splice (h : SideRep m s T) {M M' : List Rung} (hT : T = xs ++ M ++ ys)
    (hm : ∀ t, t ∈ xs ∨ t ∈ ys → ∀ p ∈ t.2, m' p = m p) (hM : ∀ t ∈ M', RungRep m' s t)
    (ho : Ordered (better s) rungPrice (xs ++ M' ++ ys)) (hn : (ptrs (xs ++ M' ++ ys)).Nodup) :
    SideRep m' s (xs ++ M' ++ ys) := by
  refine sideRep_of_rungs (fun t ht => ?_) ho hn
  have hold : t ∈ xs ∨ t ∈ ys → RungRep m' s t := fun ht => (h.rungRep (h.apart hT ht).1).congr (hm t ht)
  rcases List.mem_append.mp ht with ht | ht
  · rcases List.mem_append.mp ht with ht | ht
    · exact hold (Or.inl ht)
    · exact hM t ht
  · exact hold (Or.inr ht)

/-- A queued order sits in some rung. -/
theorem rung_of_mem (ho : o ∈ ptrs T) : ∃ xs l a c ys, T = xs ++ (l, a ++ o :: c) :: ys := by
  obtain ⟨t, ht, hot⟩ := mem_ptrs.mp ho
  obtain ⟨a, c, hq⟩ := List.append_of_mem hot
  obtain ⟨xs, ys, hT⟩ := List.append_of_mem ht
  exact ⟨xs, t.1, a, c, ys, by rw [hT, ← hq]⟩

variable {l : PriceLevel} {a c : List Ptr}

/-- The rung of an order, and the sides of the ladder around it. -/
theorem SideRep.rung_at (h : SideRep m s T) (hT : T = xs ++ (l, a ++ o :: c) :: ys) :
    l.price = (m o).price ∧ (m o).side = s ∧
    (∀ x ∈ xs, better s (rungPrice x) (m o).price) ∧ (∀ y ∈ ys, better s (m o).price (rungPrice y)) ∧
    lookup PriceLevel.price (m o).price (T.map (·.1)) = some l := by
  have ht : (l, a ++ o :: c) ∈ T := by rw [hT]; simp
  have hp : (m o).price = l.price := h.price _ ht o (by simp)
  have hord := h.ordered
  rw [hT, sorted_append, sorted_cons] at hord
  refine ⟨hp.symm, h.side _ ht o (by simp), ?_, ?_, ?_⟩
  · intro x hx; rw [hp]; exact hord.2.2 x hx (l, a ++ o :: c) (by simp)
  · intro y hy; rw [hp]; exact hord.2.1.1 y hy
  · rw [hp]; exact lookup_of_mem h.levels_ordered (List.mem_map_of_mem ht)

/-! ## Adding an order -/

/-- The queue an order joins: its level's, or none yet. -/
theorem SideRep.queue_at (h : SideRep m s T) (px : Price) : ∃ q,
    Queue m ((lookup PriceLevel.price px (T.map (·.1))).getD { price := px }) q ∧
    ptrs (lookup rungPrice px T).toList = q ∧ (∀ p ∈ q, (m p).price = px ∧ (m p).side = s) := by
  have e : lookup PriceLevel.price px (T.map (·.1)) = (lookup rungPrice px T).map (·.1) := lookup_map _ _ _
  rw [e]
  cases hl : lookup rungPrice px T with
  | none => exact ⟨[], queue_nil m px, rfl, by simp⟩
  | some t =>
    obtain ⟨ht, hp⟩ := lookup_some hl
    exact ⟨t.2, h.queue t ht, by simp, fun p hp' => ⟨(h.price t ht p hp').trans hp, h.side t ht p hp'⟩⟩

theorem pushBack_rung {q : List Ptr} (hq : Queue m l q) (ho : o ∉ q) (hlp : l.price = (m o).price)
    (hp : ∀ p ∈ q, (m p).price = (m o).price ∧ (m p).side = s) (hos : (m o).side = s) :
    RungRep (l.pushBack m o).2 s ((l.pushBack m o).1, q ++ [o]) := by
  have hinfo : ∀ p, ((l.pushBack m o).2 p).toOrderInfo = (m p).toOrderInfo := PriceLevel.pushBack_info l m o
  have hprice : (l.pushBack m o).1.price = (m o).price := (PriceLevel.pushBack_price l m o).trans hlp
  refine ⟨pushBack_queue hq ho, by simp, fun p hp' => ?_, fun p hp' => ?_⟩
  · refine (congrArg OrderInfo.price (hinfo p)).trans (Eq.trans ?_ hprice.symm)
    rcases List.mem_append.mp hp' with hp' | hp'
    · exact (hp p hp').1
    · rw [List.mem_singleton.mp hp']
  · refine (congrArg OrderInfo.side (hinfo p)).trans ?_
    rcases List.mem_append.mp hp' with hp' | hp'
    · exact (hp p hp').2
    · rw [List.mem_singleton.mp hp']
      exact hos

theorem SideRep.add (h : SideRep m s T) (ho : o ∉ ptrs T) (hos : (m o).side = s) :
    let l := (lookup PriceLevel.price (m o).price (T.map (·.1))).getD { price := (m o).price }
    (∀ r, r ≠ o → r ∉ ptrs T → (l.pushBack m o).2 r = m r) ∧
    ∃ T', T'.map (·.1) = put (better s) PriceLevel.price (l.pushBack m o).1 (T.map (·.1)) ∧
      SideRep (l.pushBack m o).2 s T' ∧
      ∃ U W, ptrs T = U ++ W ∧ ptrs T' = U ++ o :: W ∧ (∀ u ∈ U, ¬ better s (m o).price (m u).price) ∧
        (∀ w ∈ W, better s (m o).price (m w).price) := by
  intro l
  obtain ⟨q, hq, hqT, hqp⟩ := h.queue_at (m o).price
  change Queue m l q at hq
  have hlp : l.price = (m o).price := by
    show ((lookup PriceLevel.price (m o).price (T.map (·.1))).getD _).price = _
    cases hl : lookup PriceLevel.price (m o).price (T.map (·.1)) with
    | none => rfl
    | some l' => exact (lookup_some hl).2
  let c : Rung := ((l.pushBack m o).1, q ++ [o])
  have hcp : rungPrice c = (m o).price := (PriceLevel.pushBack_price l m o).trans hlp
  obtain ⟨xs, ys, hT, hput, hx, hy⟩ := put_eq h.ordered c
  rw [hcp] at hx hy hT
  have hptr : ptrs T = (ptrs xs ++ q) ++ ptrs ys := by
    conv => lhs; rw [hT]
    rw [ptrs_append, ptrs_append, hqT]
  have hoq : o ∉ q := fun hq => ho (by rw [hptr]; simp [hq])
  have hframe : ∀ r, r ≠ o → r ∉ q → (l.pushBack m o).2 r = m r := fun _ => hq.pushBack_frame
  have hT' : put (better s) rungPrice c T = xs ++ [c] ++ ys := by rw [hput]; simp
  have hptr' : ptrs (xs ++ [c] ++ ys) = (ptrs xs ++ q) ++ o :: ptrs ys := by simp [c]
  refine ⟨fun r hro hr => hframe r hro fun hrq => hr ?_, xs ++ [c] ++ ys, ?_, ?_, ptrs xs ++ q, ptrs ys, hptr, hptr', ?_, ?_⟩
  · rw [hptr]; simp [hrq]
  · rw [← hT']; exact put_map Prod.fst c T
  · refine h.splice hT (fun t ht p hp => hframe p ?_ ?_) (fun t ht => ?_) (hT' ▸ sorted_put h.ordered c) ?_
    · rintro rfl
      exact ho (mem_ptrs.mpr ⟨t, (h.apart hT ht).1, hp⟩)
    · rw [← hqT]
      exact (h.apart hT ht).2 p hp
    · rw [List.mem_singleton.mp ht]
      exact pushBack_rung hq hoq hlp hqp hos
    · rw [hptr', List.nodup_middle, ← hptr]
      exact List.nodup_cons.mpr ⟨ho, h.nodup⟩
  · intro u hu
    rcases List.mem_append.mp hu with hu | hu
    · obtain ⟨t, ht, hut⟩ := mem_ptrs.mp hu
      rw [h.price t (h.apart hT (Or.inl ht)).1 u hut]
      exact asymm (hx t ht)
    · rw [(hqp u hu).1]; exact irrefl _
  · intro w hw
    obtain ⟨t, ht, hwt⟩ := mem_ptrs.mp hw
    rw [h.price t (h.apart hT (Or.inr ht)).1 w hwt]
    exact hy t ht

/-! ## Removing an order -/

/-- A rung, unless its queue ran out. -/
def rung (l : PriceLevel) (q : List Ptr) : List Rung := if q = [] then [] else [(l, q)]

@[simp] theorem ptrs_rung (l : PriceLevel) (q : List Ptr) : ptrs (rung l q) = q := by
  unfold rung; split
  · rename_i e; rw [e]; rfl
  · simp

theorem mem_rung {q : List Ptr} {t : Rung} : t ∈ rung l q ↔ t = (l, q) ∧ q ≠ [] := by
  unfold rung
  split
  · rename_i e; simp [e]
  · rename_i e; simp [e]

theorem unlink_rung (h : RungRep m s (l, a ++ o :: c)) (hne : a ++ c ≠ []) :
    RungRep (l.unlink m o).2 s ((l.unlink m o).1, a ++ c) := by
  have hinfo : ∀ p, ((l.unlink m o).2 p).toOrderInfo = (m p).toOrderInfo := PriceLevel.unlink_info l m o
  have hsub : ∀ p ∈ a ++ c, p ∈ a ++ o :: c := fun p hp => by
    rcases List.mem_append.mp hp with h | h
    · exact List.mem_append_left _ h
    · exact List.mem_append_right _ (List.mem_cons_of_mem _ h)
  refine ⟨unlink_queue h.queue, hne, fun p hp => ?_, fun p hp => ?_⟩
  · refine (congrArg OrderInfo.price (hinfo p)).trans ((h.price p (hsub p hp)).trans ?_)
    exact (PriceLevel.unlink_price l m o).symm
  · exact (congrArg OrderInfo.side (hinfo p)).trans (h.side p (hsub p hp))

theorem SideRep.remove (h : SideRep m s T) (hT : T = xs ++ (l, a ++ o :: c) :: ys) :
    ((l.unlink m o).1.empty = true → (l.unlink m o).1 = { price := (m o).price }) ∧
    (∀ r, r ∉ ptrs T → (l.unlink m o).2 r = m r) ∧
    (if (l.unlink m o).1.empty then del PriceLevel.price (m o).price (T.map (·.1))
      else put (better s) PriceLevel.price (l.unlink m o).1 (T.map (·.1))) =
      (xs ++ rung (l.unlink m o).1 (a ++ c) ++ ys).map (·.1) ∧
    SideRep (l.unlink m o).2 s (xs ++ rung (l.unlink m o).1 (a ++ c) ++ ys) := by
  obtain ⟨hlp, _, hx, hy, _⟩ := h.rung_at hT
  have hr : RungRep m s (l, a ++ o :: c) := h.rungRep (by rw [hT]; simp)
  have hq' := unlink_queue hr.queue
  have hlp' : (l.unlink m o).1.price = (m o).price := (PriceLevel.unlink_price l m o).trans hlp
  have hT1 : T = xs ++ [(l, a ++ o :: c)] ++ ys := by rw [hT]; simp
  have hptr : ptrs T = (ptrs xs ++ a) ++ o :: (c ++ ptrs ys) := by rw [hT]; simp
  have hmap : (if (l.unlink m o).1.empty then del PriceLevel.price (m o).price (T.map (·.1))
      else put (better s) PriceLevel.price (l.unlink m o).1 (T.map (·.1))) =
      (xs ++ rung (l.unlink m o).1 (a ++ c) ++ ys).map (·.1) := by
    have hbx : ∀ x ∈ xs.map (·.1), better s x.price (m o).price := List.forall_mem_map.mpr hx
    have hby : ∀ y ∈ ys.map (·.1), better s (m o).price y.price := List.forall_mem_map.mpr hy
    have hTl : T.map (·.1) = xs.map (·.1) ++ (some l).toList ++ ys.map (·.1) := by rw [hT]; simp
    rw [hTl]
    by_cases he : (l.unlink m o).1.empty = true
    · rw [if_pos he, del_split hbx hby _ (fun d hd => by cases hd; exact hlp), hq'.empty_iff.mp he]
      simp [rung]
    · have hne : ¬ (a ++ c = []) := fun e => he (hq'.empty_iff.mpr e)
      rw [if_neg he, put_split (by rw [hlp']; exact hbx) (by rw [hlp']; exact hby) _
        (fun d hd => by cases hd; rw [hlp']; exact hlp)]
      simp only [rung, hne, if_false, List.map_append, List.map_cons, List.map_nil]
      simp
  refine ⟨fun he => ?_, fun r hr' => hr.queue.unlink_frame fun hrq => hr' ?_, hmap, ?_⟩
  · rw [hr.queue.unlink_emptied he, hlp]
  · exact mem_ptrs.mpr ⟨(l, a ++ o :: c), by rw [hT]; simp, hrq⟩
  · refine h.splice hT1 (fun t ht p hp => hr.queue.unlink_frame fun hpq => ?_) (fun t ht => ?_) ?_ ?_
    · exact (h.apart hT1 ht).2 p hp (by simpa using hpq)
    · obtain ⟨rfl, hne⟩ := mem_rung.mp ht
      exact unlink_rung hr hne
    · rw [← ordered_levels, ← hmap]
      split
      · exact sorted_del h.levels_ordered _
      · exact sorted_put h.levels_ordered _
    · have hnd := h.nodup
      rw [hptr, List.nodup_middle] at hnd
      simpa using (List.nodup_cons.mp hnd).2

/-! ## Reducing an order in place -/

@[simp] theorem takeFrom_self (m : Mem) (o : Ptr) (t : Quantity) :
    takeFrom m o t o = { m o with remaining := (m o).remaining - t } := Function.update_self ..

theorem takeFrom_of_ne (m : Mem) {o r : Ptr} (t : Quantity) (h : r ≠ o) : takeFrom m o t r = m r :=
  Function.update_of_ne h _ _

theorem takeFrom_queue {l : PriceLevel} {q : List Ptr} (h : Queue m l q) (ho : o ∈ q) {t : Quantity}
    (ht : t ≤ (m o).remaining) : Queue (takeFrom m o t) { l with totalQty := l.totalQty - t } q := by
  have hprev : ∀ p, (takeFrom m o t p).prev = (m p).prev := by
    intro p; by_cases e : p = o
    · subst e; simp
    · rw [takeFrom_of_ne _ _ e]
  have hnext : ∀ p, (takeFrom m o t p).next = (m p).next := by
    intro p; by_cases e : p = o
    · subst e; simp
    · rw [takeFrom_of_ne _ _ e]
  refine ⟨h.head, h.tail, h.links.congr (fun p _ => hprev p) (fun p _ => hnext p), h.nodup, ?_, h.count⟩
  obtain ⟨a, c, rfl⟩ := List.append_of_mem ho
  have hnd := h.nodup
  rw [List.nodup_append, List.nodup_cons] at hnd
  have ha : openQty (takeFrom m o t) a = openQty m a :=
    openQty_congr fun p hp => by rw [takeFrom_of_ne _ _ fun e => hnd.2.2 p hp o (by simp) e]
  have hc : openQty (takeFrom m o t) c = openQty m c :=
    openQty_congr fun p hp => by
      rw [takeFrom_of_ne _ _ (show p ≠ o from fun e => hnd.2.1.1 (e ▸ hp))]
  have hsplit : openQty m (a ++ o :: c) = openQty (takeFrom m o t) (a ++ o :: c) + t.toNat := by
    rw [openQty_append, openQty_cons, openQty_append, openQty_cons, ha, hc]
    simp only [takeFrom_self]
    rw [UInt64.toNat_sub_of_le _ _ ht]
    rw [UInt64.le_iff_toNat_le] at ht
    omega
  show l.totalQty - t = _
  rw [h.total, hsplit, UInt64.ofNat_add, UInt64.ofNat_toNat]
  exact UInt64.add_sub_cancel _ _

theorem takeFrom_rung {q : List Ptr} (h : RungRep m s (l, q)) (ho : o ∈ q) {t : Quantity} (ht : t ≤ (m o).remaining) :
    RungRep (takeFrom m o t) s ({ l with totalQty := l.totalQty - t }, q) := by
  have hsame : ∀ p, (takeFrom m o t p).price = (m p).price ∧ (takeFrom m o t p).side = (m p).side := by
    intro p; by_cases e : p = o
    · subst e; simp
    · rw [takeFrom_of_ne _ _ e]; exact ⟨rfl, rfl⟩
  exact ⟨takeFrom_queue h.queue ho ht, h.nonempty, fun p hp => (hsame p).1.trans (h.price p hp),
    fun p hp => (hsame p).2.trans (h.side p hp)⟩

theorem SideRep.reduce (h : SideRep m s T) (hT : T = xs ++ (l, a ++ o :: c) :: ys) {t : Quantity}
    (ht : t ≤ (m o).remaining) :
    put (better s) PriceLevel.price { l with totalQty := l.totalQty - t } (T.map (·.1)) =
      (xs ++ ({ l with totalQty := l.totalQty - t }, a ++ o :: c) :: ys).map (·.1) ∧
    SideRep (takeFrom m o t) s (xs ++ ({ l with totalQty := l.totalQty - t }, a ++ o :: c) :: ys) := by
  obtain ⟨hlp, _, hx, hy, _⟩ := h.rung_at hT
  have hr : RungRep m s (l, a ++ o :: c) := h.rungRep (by rw [hT]; simp)
  let r : Rung := ({ l with totalQty := l.totalQty - t }, a ++ o :: c)
  have hrp : rungPrice r = (m o).price := hlp
  have hT1 : T = xs ++ [(l, a ++ o :: c)] ++ ys := by rw [hT]; simp
  have hT' : put (better s) rungPrice r T = xs ++ r :: ys := by
    rw [hT1]
    exact put_split (by rw [hrp]; exact hx) (by rw [hrp]; exact hy) (some (l, a ++ o :: c)) (fun d hd => by cases hd; rfl)
  have hptr : ptrs (xs ++ [r] ++ ys) = ptrs T := by rw [hT]; simp [r]
  have hsplit : xs ++ [r] ++ ys = xs ++ r :: ys := by simp
  refine ⟨?_, ?_⟩
  · show put (better s) PriceLevel.price (Prod.fst r) (T.map Prod.fst) = (xs ++ r :: ys).map Prod.fst
    rw [← hT']; exact (put_map Prod.fst r T).symm
  · show SideRep _ s (xs ++ r :: ys)
    rw [← hsplit]
    refine h.splice hT1 (fun u hu p hp => takeFrom_of_ne _ _ ?_) (fun u hu => ?_) ?_ (by rw [hptr]; exact h.nodup)
    · rintro rfl
      exact (h.apart hT1 hu).2 p hp (by simp)
    · rw [List.mem_singleton.mp hu]
      exact takeFrom_rung hr (by simp) ht
    · rw [hsplit, ← hT']
      exact sorted_put h.ordered r

end Lob
