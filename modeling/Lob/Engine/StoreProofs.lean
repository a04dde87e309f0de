/-
  Lob.Engine.StoreProofs — the book, the pool and the index hold one set of orders.

  `Rep n lo hi st T f`: the store `st` holds the ladders `T`, which read as the flat lists
  `f`. The three kinds of change (`Rep.drop`, `Rep.reduce`, `Rep.place`) keep it, and are
  all the engine makes; what each needs of the slot it is given is in its hypotheses.
-/

import Lob.Book.Ladder
import Lob.Engine.Engine
import Lob.Engine.FlatProofs
import Lob.Index.FlatPtrMapProofs

namespace Lob

open Lob.Base.Sorted
open FlatPtrMap (Holds keys splitmix)

/-- The slots of the resting orders. -/
def slots (T : Side → List Rung) : List Ptr := ptrs (T .buy) ++ ptrs (T .sell)

/-- The orders a memory holds at some slots. -/
def infos (m : Mem) (q : List Ptr) : List OrderInfo := q.map fun p => (m p).toOrderInfo

structure Rep {B : Type} [Book B] [LawfulBook B] (n : Nat) (lo hi : Price) (st : Store B) (T : Side → List Rung)
    (f : Flat) : Prop where
  book : LawfulBook.Ok st.book
  low : LawfulBook.minPrice st.book = lo
  high : LawfulBook.maxPrice st.book = hi
  levels : ∀ s, LawfulBook.levels st.book s = (T s).map (·.1)
  counts : ∀ s, Book.orderCount st.book s = (ptrs (T s)).length
  side : ∀ s, SideRep st.pool.storage s (T s)
  flat : ∀ s, f.side s = infos st.pool.storage (ptrs (T s))
  free : (slots T ++ st.pool.free).Perm (List.range n)
  capacity : st.pool.capacity = n
  inUse : st.pool.inUse = (slots T).length
  index : FlatPtrMap.Ok splitmix st.index
  holds : ∀ id v, id ≠ 0 → (Holds st.index id v ↔ ∃ p ∈ slots T, (st.order p).id = id ∧ v = some p)
  size : st.index.size = f.size
  cap : st.index.mask + 1 = f.cap
  live : (keys st.index).card = f.live

variable {B : Type} [Book B] [LawfulBook B] {n : Nat} {lo hi : Price} {st : Store B} {T : Side → List Rung} {f : Flat}

theorem mem_slots {s : Side} {p : Ptr} (h : p ∈ ptrs (T s)) : p ∈ slots T := by
  cases s
  · exact List.mem_append_left _ h
  · exact List.mem_append_right _ h

theorem side_of_mem_slots {p : Ptr} (h : p ∈ slots T) : ∃ s, p ∈ ptrs (T s) := by
  rcases List.mem_append.mp h with h | h
  · exact ⟨.buy, h⟩
  · exact ⟨.sell, h⟩

theorem slots_perm (T : Side → List Rung) (s : Side) : (slots T).Perm (ptrs (T s) ++ ptrs (T (opposite s))) := by
  cases s
  · exact List.Perm.refl _
  · exact List.perm_append_comm

theorem orders_infos {m : Mem} (h : ∀ s, f.side s = infos m (ptrs (T s))) : f.orders = infos m (slots T) := by
  unfold Flat.orders
  rw [h, h]
  exact (List.map_append ..).symm

theorem Rep.orders (h : Rep n lo hi st T f) : f.orders = infos st.pool.storage (slots T) := orders_infos h.flat

/-- Live orders are counted by their ids. -/
theorem live_infos {m m' : Mem} {q : List Ptr} (hid : ∀ p, (m' p).id = (m p).id) :
    ((infos m' q).filter fun o => o.id ≠ 0).length = ((infos m q).filter fun o => o.id ≠ 0).length := by
  unfold infos
  rw [List.filter_map, List.filter_map, List.length_map, List.length_map]
  congr 1
  refine List.filter_congr fun p _ => ?_
  simp only [Function.comp_apply, hid p]

theorem Rep.nodup (h : Rep n lo hi st T f) : (slots T ++ st.pool.free).Nodup :=
  h.free.nodup_iff.mpr List.nodup_range

/-- The two sides share no slot. -/
theorem Rep.disjoint (h : Rep n lo hi st T f) {s : Side} {p q : Ptr} (hp : p ∈ ptrs (T s))
    (hq : q ∈ ptrs (T (opposite s))) : p ≠ q := by
  have hnd := (slots_perm T s).nodup_iff.mp (List.nodup_append.mp h.nodup).1
  exact (List.nodup_append.mp hnd).2.2 p hp q hq

theorem Rep.length_le (h : Rep n lo hi st T f) : (slots T).length + st.pool.free.length = n := by
  have := h.free.length_eq
  simpa using this

/-- Non-zero ids of resting orders are distinct. -/
theorem Rep.unique (h : Rep n lo hi st T f) {p q : Ptr} (hp : p ∈ slots T) (hq : q ∈ slots T)
    (e : (st.order p).id = (st.order q).id) (h0 : (st.order p).id ≠ 0) : p = q := by
  have h1 := (h.holds _ (some p) h0).mpr ⟨p, hp, rfl, rfl⟩
  have h2 := (h.holds _ (some q) h0).mpr ⟨q, hq, e.symm, rfl⟩
  exact Option.some.inj (h.index.holds_unique h0 h1 h2)

/-! ## Replacing a side -/

/-- The flat lists when one side's ladder is replaced and the orders of the other are as they were. -/
theorem Rep.flat_setSide (h : Rep n lo hi st T f) {s : Side} {R : List Rung} {m : Mem} {L : List OrderInfo}
    (hL : L = infos m (ptrs R)) (hkeep : ∀ p ∈ ptrs (T (opposite s)), (m p).toOrderInfo = (st.order p).toOrderInfo)
    (t : Side) : (f.setList s L).side t = infos m (ptrs (setSide T s R t)) := by
  refine setSide_all (P := fun t U => (f.setList s L).side t = infos m (ptrs U)) ?_ ?_ t
  · exact (setList_side f s L).trans hL
  · refine (setList_opposite f s L).trans ((h.flat _).trans ?_)
    exact List.map_congr_left fun p hp => (hkeep p hp).symm

/-- The ladders, likewise. -/
theorem Rep.side_setSide (h : Rep n lo hi st T f) {s : Side} {R : List Rung} {m : Mem} (hrep : SideRep m s R)
    (hkeep : ∀ p ∈ ptrs (T (opposite s)), m p = st.order p) (t : Side) : SideRep m t (setSide T s R t) :=
  setSide_all hrep ((h.side _).congr hkeep) t

/-- The levels of a book, likewise. -/
theorem Rep.levels_setSide (h : Rep n lo hi st T f) {b : B} {s : Side} {R : List Rung}
    (hlev : LawfulBook.levels b s = R.map (·.1))
    (hopp : LawfulBook.levels b (opposite s) = LawfulBook.levels st.book (opposite s)) (t : Side) :
    LawfulBook.levels b t = (setSide T s R t).map (·.1) :=
  setSide_all (P := fun t (U : List Rung) => LawfulBook.levels b t = U.map (·.1)) hlev (hopp.trans (h.levels _)) t

/-- Its order counts, likewise. -/
theorem Rep.counts_setSide (h : Rep n lo hi st T f) {b : B} {s : Side} {R : List Rung}
    (hcount : Book.orderCount b s = (ptrs R).length)
    (hopp : Book.orderCount b (opposite s) = Book.orderCount st.book (opposite s)) (t : Side) :
    Book.orderCount b t = (ptrs (setSide T s R t)).length :=
  setSide_all (P := fun t U => Book.orderCount b t = (ptrs U).length) hcount (hopp.trans (h.counts _)) t

/-! ## Finding an order -/

theorem Rep.find_eq (h : Rep n lo hi st T f) (id : OrderId) : ∃ r, st.find id = some r ∧
    f.find id = r.map (fun p => (st.order p).toOrderInfo) ∧
    ∀ p, r = some p → p ∈ slots T ∧ (st.order p).id = id ∧ id ≠ 0 := by
  unfold Store.find
  by_cases h0 : id = 0
  · subst h0
    exact ⟨none, FlatPtrMap.find_zero h.index, by simp [Flat.find], by simp⟩
  by_cases hex : ∃ p ∈ slots T, (st.order p).id = id
  · obtain ⟨p, hp, hid⟩ := hex
    have hv := (h.holds id (some p) h0).mpr ⟨p, hp, hid, rfl⟩
    refine ⟨some p, FlatPtrMap.find_of_holds h.index h0 hv, ?_, fun q hq => by cases hq; exact ⟨hp, hid, h0⟩⟩
    unfold Flat.find
    rw [if_neg h0, h.orders]
    unfold infos
    rw [List.find?_map]
    cases hf : (slots T).find? ((fun o : OrderInfo => decide (o.id = id)) ∘ fun p => (st.pool.storage p).toOrderInfo) with
    | none =>
      have := List.find?_eq_none.mp hf p hp
      simp only [Function.comp_apply, decide_eq_true_eq] at this
      exact absurd hid this
    | some q =>
      have hq := List.find?_some hf
      simp only [Function.comp_apply, decide_eq_true_eq] at hq
      have := h.unique (List.mem_of_find?_eq_some hf) hp (hq.trans hid.symm) (by
        show (st.order q).id ≠ 0
        exact hq ▸ h0)
      rw [this]; rfl
  · have hno : ∀ v, ¬ Holds st.index id v := by
      intro v hv
      obtain ⟨p, hp, hid, _⟩ := (h.holds id v h0).mp hv
      exact hex ⟨p, hp, hid⟩
    refine ⟨none, FlatPtrMap.find_of_not_holds h.index (Or.inr hno), ?_, by simp⟩
    unfold Flat.find
    rw [if_neg h0, h.orders, Option.map_none, List.find?_eq_none]
    intro o ho
    obtain ⟨p, hp, rfl⟩ := List.mem_map.mp ho
    simp only [decide_eq_true_eq]
    exact fun e => hex ⟨p, hp, e⟩

/-! ## Dropping an order -/

/-- Filtering by a property of the order counts the same over permuted slots. -/
theorem live_perm {f' : Flat} {o : OrderInfo} (h : f.orders.Perm (o :: f'.orders)) :
    f.live = if o.id = 0 then f'.live else f'.live + 1 := by
  unfold Flat.live
  rw [(h.filter _).length_eq]
  by_cases h0 : o.id = 0
  · simp [h0]
  · simp [h0]

/-- Dropping an order drops its id, if it has one, from the live ones. -/
theorem Rep.live_drop (h : Rep n lo hi st T f) {f' : Flat} {o : OrderInfo} {k : Nat}
    (horders : f.orders.Perm (o :: f'.orders))
    (hcard : (keys st.index).card = if o.id = 0 then k else k + 1) : k = f'.live := by
  have hlive := live_perm horders
  rw [← h.live, hcard] at hlive
  by_cases h0 : o.id = 0
  · rw [if_pos h0, if_pos h0] at hlive
    exact hlive
  · rw [if_neg h0, if_neg h0] at hlive
    exact Nat.succ.inj hlive

variable {s : Side} {xs ys : List Rung} {l : PriceLevel} {a c : List Ptr} {r : Ptr}

theorem slots_setSide_perm (T : Side → List Rung) (s : Side) (R : List Rung) :
    (slots (setSide T s R)).Perm (ptrs R ++ ptrs (T (opposite s))) := by
  have := slots_perm (setSide T s R) s
  rwa [setSide_same, setSide_opposite] at this

/-- The flat lists after an order at `s` left. -/
def Flat.without (f : Flat) (s : Side) (L : List OrderInfo) (id : OrderId) : Flat :=
  { f.setList s L with size := if id = 0 then f.size else f.size - 1 }

/-- Taking a slot out of a rung takes it out of the book. -/
theorem slots_drop (hT : T s = xs ++ (l, a ++ r :: c) :: ys) (l' : PriceLevel) :
    (slots T).Perm (r :: slots (setSide T s (xs ++ rung l' (a ++ c) ++ ys))) := by
  have hptr : ptrs (T s) = (ptrs xs ++ a) ++ r :: (c ++ ptrs ys) := by rw [hT]; simp
  refine (slots_perm T s).trans ?_
  rw [hptr]
  refine List.Perm.trans ?_ ((slots_setSide_perm T s _).symm.cons r)
  rw [List.append_assoc (ptrs xs ++ a), List.cons_append]
  refine List.perm_middle.trans ?_
  simp

/-- The index without an order's id; an id 0 was never in it. -/
theorem Rep.erase_id (h : Rep n lo hi st T f) (hr : r ∈ slots T) :
    ∃ idx found, st.index.erase splitmix (st.order r).id = some (idx, found) ∧ FlatPtrMap.Ok splitmix idx ∧
      idx.mask = st.index.mask ∧
      idx.size = (if (st.order r).id = 0 then st.index.size else st.index.size - 1) ∧
      (keys st.index).card = (if (st.order r).id = 0 then (keys idx).card else (keys idx).card + 1) ∧
      ∀ k v, k ≠ 0 → (Holds idx k v ↔ k ≠ (st.order r).id ∧ Holds st.index k v) := by
  by_cases h0 : (st.order r).id = 0
  · refine ⟨st.index, false, FlatPtrMap.erase_of_not_holds h.index (Or.inl h0), h.index, rfl, by simp [h0], by simp [h0], ?_⟩
    intro k v hk
    exact ⟨fun hv => ⟨fun e => hk (e.trans h0), hv⟩, fun hv => hv.2⟩
  · obtain ⟨idx, e1, e2, e3, e4, e5, e6⟩ := FlatPtrMap.erase_spec h.index h0
      ((h.holds _ (some r) h0).mpr ⟨r, hr, rfl, rfl⟩)
    exact ⟨idx, true, e1, e2, e3, by rw [if_neg h0]; omega, by rw [if_neg h0]; omega, e6⟩

/-- What the index holds once `r` left. -/
theorem Rep.holds_drop (h : Rep n lo hi st T f) {T' : Side → List Rung} {m : Mem} (hr : r ∈ slots T)
    (hmem : ∀ p, p ∈ slots T' ↔ p ∈ slots T ∧ p ≠ r) (hkeep : ∀ p, p ≠ r → (m p).toOrderInfo = (st.order p).toOrderInfo)
    (k : OrderId) (v : Option Ptr) (hk : k ≠ 0) :
    (k ≠ (st.order r).id ∧ Holds st.index k v) ↔ ∃ p ∈ slots T', (m p).id = k ∧ v = some p := by
  rw [h.holds k v hk]
  constructor
  · intro ⟨hkr, p, hp, hpk, hv⟩
    have hpr : p ≠ r := fun e => hkr (by rw [← hpk, e])
    exact ⟨p, (hmem p).mpr ⟨hp, hpr⟩, (congrArg OrderInfo.id (hkeep p hpr)).trans hpk, hv⟩
  · intro ⟨p, hp, hpk, hv⟩
    obtain ⟨hpT, hpr⟩ := (hmem p).mp hp
    have hpk' : (st.order p).id = k := (congrArg OrderInfo.id (hkeep p hpr)).symm.trans hpk
    exact ⟨fun e => hpr (h.unique hpT hr (hpk'.trans e) (by rw [hpk']; exact hk)), p, hpT, hpk', hv⟩

theorem Rep.drop (h : Rep n lo hi st T f) (hT : T s = xs ++ (l, a ++ r :: c) :: ys) :
    ∃ st' l', st.drop r (st.order r).id = some st' ∧
      Rep n lo hi st' (setSide T s (xs ++ rung l' (a ++ c) ++ ys))
        (f.without s (infos st.pool.storage (ptrs xs ++ a ++ (c ++ ptrs ys))) (st.order r).id) ∧
      st'.pool.free = r :: st.pool.free ∧
      ∀ p, p ≠ r → (st'.order p).toOrderInfo = (st.order p).toOrderInfo := by
  let m := st.pool.storage
  let m1 := (l.unlink m r).2
  let m2 := Function.update m1 r {}
  let T' := setSide T s (xs ++ rung (l.unlink m r).1 (a ++ c) ++ ys)
  have hside := h.side s
  obtain ⟨hlp, hrs, _, _, hlook⟩ := hside.rung_at hT
  obtain ⟨hnew, hframe, hlev, hrep⟩ := hside.remove hT
  have hrs : (m r).side = s := hrs
  have hrs_mem : r ∈ ptrs (T s) := by rw [hT]; simp
  have hinfo : ∀ p, (m1 p).toOrderInfo = (m p).toOrderInfo := PriceLevel.unlink_info l m r
  have hother : ∀ p, p ≠ r → (m2 p).toOrderInfo = (m p).toOrderInfo := by
    intro p hp
    show (Function.update m1 r {} p).toOrderInfo = _
    rw [Function.update_of_ne hp, hinfo]
  have hptr : ptrs (T s) = (ptrs xs ++ a) ++ r :: (c ++ ptrs ys) := by rw [hT]; simp
  have hperm : (slots T).Perm (r :: slots T') := slots_drop hT _
  have hnd : (r :: slots T').Nodup := hperm.nodup_iff.mp (List.nodup_append.mp h.nodup).1
  have hmem : ∀ p, p ∈ slots T' ↔ p ∈ slots T ∧ p ≠ r := by
    intro p
    rw [hperm.mem_iff, List.mem_cons]
    refine ⟨fun hp => ⟨Or.inr hp, fun e => (List.nodup_cons.mp hnd).1 (e ▸ hp)⟩, fun ⟨h1, h2⟩ => ?_⟩
    exact h1.resolve_left h2
  have hrT : r ∈ slots T := mem_slots hrs_mem
  obtain ⟨idx, found, hidx, hok, hmask, hsize, hcard, hholds⟩ := h.erase_id hrT
  obtain ⟨b', hrem, hbok, hblo, hbhi, hbl, hblo', hbc, hbc'⟩ := LawfulBook.remove_some h.book
    (by rw [hrs, h.levels]; exact hlook) hnew
  rw [hrs, h.levels s] at hbl
  rw [hrs] at hblo' hbc hbc'
  let st' : Store B := ⟨b', { st.pool with storage := m1 }.release r, idx⟩
  refine ⟨st', (l.unlink m r).1, ?_, ?_, rfl, hother⟩
  · unfold Store.drop
    rw [show Book.remove st.book st.pool.storage r = _ from hrem]
    simp only [Option.bind_eq_bind, Option.bind_some, hidx]
    rfl
  have hptr' : ptrs (xs ++ rung (l.unlink m r).1 (a ++ c) ++ ys) = ptrs xs ++ a ++ (c ++ ptrs ys) := by simp
  have hopp : ∀ p ∈ ptrs (T (opposite s)), p ≠ r := fun p hp e => h.disjoint hrs_mem hp e.symm
  have hinfos : ∀ q : List Ptr, (∀ p ∈ q, p ≠ r) → infos m q = infos m2 q := fun q hq =>
    List.map_congr_left fun p hp => (hother p (hq p hp)).symm
  have hin : ∀ p ∈ slots T', p ≠ r := fun p hp => ((hmem p).mp hp).2
  have hin' : ∀ p ∈ ptrs (xs ++ rung (l.unlink m r).1 (a ++ c) ++ ys), p ≠ r := fun p hp =>
    hin p (mem_slots (s := s) (by rw [show T' s = _ from setSide_same ..]; exact hp))
  have hleft : infos m (ptrs xs ++ a ++ (c ++ ptrs ys)) = infos m2 (ptrs (xs ++ rung (l.unlink m r).1 (a ++ c) ++ ys)) := by
    rw [← hptr']
    exact hinfos _ hin'
  have hflat := h.flat_setSide hleft fun p hp => hother p (hopp p hp)
  constructor
  · exact hbok
  · exact hblo.trans h.low
  · exact hbhi.trans h.high
  · exact h.levels_setSide (hbl.trans hlev) hblo'
  · refine h.counts_setSide ?_ hbc'
    rw [hbc, h.counts, hptr, hptr']
    simp only [List.length_append, List.length_cons]; omega
  · show ∀ t, SideRep m2 t (T' t)
    refine h.side_setSide (hrep.congr fun p hp => Function.update_of_ne (hin' p hp) _ _) fun p hp => ?_
    show Function.update m1 r {} p = m p
    rw [Function.update_of_ne (hopp p hp)]
    exact hframe p fun hps => h.disjoint hps hp rfl
  · exact hflat
  · show (slots T' ++ r :: st.pool.free).Perm (List.range n)
    refine List.perm_middle.trans ?_
    rw [← List.cons_append]
    exact (hperm.symm.append_right _).trans h.free
  · exact h.capacity
  · show st.pool.inUse - 1 = _
    rw [h.inUse, hperm.length_eq]; rfl
  · exact hok
  · intro k v hk
    rw [hholds k v hk]
    exact h.holds_drop hrT hmem hother k v hk
  · show idx.size = if (st.order r).id = 0 then f.size else f.size - 1
    rw [hsize, h.size]
  · show idx.mask + 1 = f.cap
    rw [hmask, h.cap]
  · refine h.live_drop (o := (m r).toOrderInfo) ?_ hcard
    have horders : (f.without s (infos m (ptrs xs ++ a ++ (c ++ ptrs ys))) (st.order r).id).orders = infos m2 (slots T') :=
      orders_infos hflat
    rw [h.orders, horders, ← hinfos _ hin]
    exact hperm.map _

/-! ## Changing an order in place -/

theorem Rep.reduce (h : Rep n lo hi st T f) (hT : T s = xs ++ (l, a ++ r :: c) :: ys) {t : Quantity}
    (ht : t ≤ (st.order r).remaining) : ∃ st' R,
    st.reduce r t = some st' ∧ ptrs R = ptrs (T s) ∧ st'.pool.storage = takeFrom st.pool.storage r t ∧
      st'.pool.free = st.pool.free ∧
      Rep n lo hi st' (setSide T s R) (f.setList s (infos st'.pool.storage (ptrs (T s)))) := by
  let m := st.pool.storage
  let R : List Rung := xs ++ ({ l with totalQty := l.totalQty - t }, a ++ r :: c) :: ys
  have hside := h.side s
  obtain ⟨hlp, hrs, _, _, hlook⟩ := hside.rung_at hT
  obtain ⟨hlev, hrep⟩ := hside.reduce hT ht
  have hrs : (m r).side = s := hrs
  have hptr : ptrs R = ptrs (T s) := by rw [hT]; simp [R]
  have hslots : ∀ t, ptrs (setSide T s R t) = ptrs (T t) := setSide_all (P := fun t U => ptrs U = ptrs (T t)) hptr rfl
  have hall : slots (setSide T s R) = slots T := by unfold slots; rw [hslots, hslots]
  have hid : ∀ p, (takeFrom m r t p).id = (m p).id := by
    intro p; by_cases e : p = r
    · subst e; simp
    · rw [takeFrom_of_ne _ _ e]
  obtain ⟨b', hred, hbok, hblo, hbhi, hbl, hblo', hbc⟩ := LawfulBook.reduce_some t h.book
    (by rw [hrs, h.levels]; exact hlook)
  rw [hrs, h.levels s] at hbl
  rw [hrs] at hblo'
  let st' : Store B := { st with book := b', pool := { st.pool with storage := takeFrom m r t } }
  have hrmem : r ∈ ptrs (T s) := by rw [hT]; simp
  have hopp : ∀ p ∈ ptrs (T (opposite s)), takeFrom m r t p = m p := fun p hp =>
    takeFrom_of_ne _ _ fun e => h.disjoint hrmem hp e.symm
  have hflat := h.flat_setSide (s := s) (m := takeFrom m r t) (congrArg (infos (takeFrom m r t)) hptr.symm)
    (fun p hp => congrArg Order.toOrderInfo (hopp p hp))
  refine ⟨st', R, ?_, hptr, rfl, rfl, ?_⟩
  · unfold Store.reduce
    rw [show Book.reduceInPlace st.book st.pool.storage r t = _ from hred]
    rfl
  constructor
  · exact hbok
  · exact hblo.trans h.low
  · exact hbhi.trans h.high
  · exact h.levels_setSide (hbl.trans hlev) hblo'
  · intro u
    rw [hbc, hslots]; exact h.counts u
  · exact h.side_setSide hrep hopp
  · exact hflat
  · rw [hall]; exact h.free
  · exact h.capacity
  · rw [hall]; exact h.inUse
  · exact h.index
  · intro k v hk
    rw [hall, h.holds k v hk]
    constructor
    · intro ⟨p, hp, e, hv⟩; exact ⟨p, hp, (hid p).trans e, hv⟩
    · intro ⟨p, hp, e, hv⟩; exact ⟨p, hp, (hid p).symm.trans e, hv⟩
  · exact h.size
  · exact h.cap
  · show (keys st.index).card = _
    rw [h.live]
    unfold Flat.live
    rw [orders_infos hflat, hall, h.orders]
    exact (live_infos hid).symm

theorem Rep.setQuantity (h : Rep n lo hi st T f) (r : Ptr) (q : Quantity) :
    Rep n lo hi (st.setQuantity r q) T
      { f with side := fun s => infos (st.setQuantity r q).pool.storage (ptrs (T s)) } := by
  have hm : ∀ p, ((st.setQuantity r q).pool.storage p) =
      if p = r then { st.pool.storage r with quantity := q } else st.pool.storage p := by
    intro p
    show Function.update _ _ _ p = _
    by_cases e : p = r
    · subst e; simp
    · rw [Function.update_of_ne e, if_neg e]
  have hid : ∀ p, ((st.setQuantity r q).order p).id = (st.order p).id := by
    intro p
    show ((st.setQuantity r q).pool.storage p).id = _
    rw [hm]; split
    · rename_i e; rw [e]; rfl
    · rfl
  refine ⟨h.book, h.low, h.high, h.levels, h.counts, fun s => (h.side s).congr_fields ?_ ?_ ?_ ?_ ?_, fun s => rfl,
    h.free, h.capacity, h.inUse, h.index, ?_, h.size, h.cap, ?_⟩
  iterate 5
    intro p; rw [hm]; split
    · rename_i e; rw [e]
    · rfl
  · intro k v hk
    rw [show Holds (st.setQuantity r q).index k v ↔ Holds st.index k v from Iff.rfl, h.holds k v hk]
    simp only [hid]
  · refine h.live.trans ?_
    unfold Flat.live
    rw [h.orders, orders_infos (T := T) (fun _ => rfl)]
    exact (live_infos hid).symm

/-! ## Placing an order -/

theorem enqueue_split {o : OrderInfo} {U W : List OrderInfo} (hu : ∀ u ∈ U, ¬ better o.side o.price u.price)
    (hw : ∀ w ∈ W, better o.side o.price w.price) : Flat.enqueue o (U ++ W) = U ++ o :: W := by
  have hU : ∀ u ∈ U, decide (¬ better o.side o.price u.price) = true := fun u h => by simpa using hu u h
  unfold Flat.enqueue
  rw [List.takeWhile_append_of_pos hU, List.dropWhile_append_of_pos hU]
  cases W with
  | nil => simp
  | cons w W =>
    have := hw w (by simp)
    rw [List.takeWhile_cons_of_neg (by simpa using this), List.dropWhile_cons_of_neg (by simpa using this)]
    simp

theorem acquire_some {p pool : ObjectPool} {r : Ptr} (h : p.acquire = some (r, pool)) :
    p.free = r :: pool.free ∧ pool.storage = p.storage ∧ pool.capacity = p.capacity ∧ pool.inUse = p.inUse + 1 := by
  unfold ObjectPool.acquire at h
  split at h
  · cases h
  · rename_i hf
    cases h
    exact ⟨hf, rfl, rfl, rfl⟩

theorem acquire_none {p : ObjectPool} : p.acquire = none ↔ p.free = [] := by
  unfold ObjectPool.acquire
  split
  · rename_i h; simp [h]
  · rename_i h; simp [h]

theorem Rep.full_iff (h : Rep n lo hi st T f) : FlatPtrMap.full st.index ↔ f.full = true := by
  unfold FlatPtrMap.full Flat.full
  rw [h.size, h.cap, decide_eq_true_iff]

/-- The index with a new order's id; it takes the order whatever its id. -/
theorem Rep.insert_id (h : Rep n lo hi st T f) {id : OrderId} (hnew : ∀ p ∈ slots T, (st.order p).id = id → id = 0)
    (r : Ptr) : ∃ idx, st.index.insert splitmix id (some r) = some idx ∧ FlatPtrMap.Ok splitmix idx ∧
      idx.mask + 1 = (if FlatPtrMap.full st.index then 2 * (st.index.mask + 1) else st.index.mask + 1) ∧
      idx.size = (if FlatPtrMap.full st.index then (keys st.index).card else st.index.size) + 1 ∧
      (∀ k v, k ≠ 0 → (Holds idx k v ↔ if k = id then v = some r else Holds st.index k v)) ∧
      (keys idx).card = (if id = 0 then (keys st.index).card else (keys st.index).card + 1) := by
  by_cases h0 : id = 0
  · rw [h0]
    obtain ⟨idx, e1, e2, e3, e4, e5⟩ := FlatPtrMap.insert_zero_spec h.index (some r)
    refine ⟨idx, e1, e2, e3, e4, fun k v hk => by rw [if_neg hk]; exact e5 k v hk, ?_⟩
    rw [if_pos rfl]
    congr 1
    ext k
    rw [FlatPtrMap.mem_keys, FlatPtrMap.mem_keys]
    exact and_congr_right fun hk => exists_congr fun v => e5 k v hk
  · have hno : ∀ v, ¬ Holds st.index id v := by
      intro v hv
      obtain ⟨p, hp, e, _⟩ := (h.holds _ v h0).mp hv
      exact h0 (hnew p hp e)
    obtain ⟨idx, e1, e2, e3, e4, e5⟩ := FlatPtrMap.insert_spec h.index (some r) h0 hno
    exact ⟨idx, e1, e2, e3, e4, e5, by rw [if_neg h0]; exact FlatPtrMap.card_keys_insert h0 hno e5⟩

/-- Adding a slot to a side adds it to the book. -/
theorem slots_add {R : List Rung} {U W : List Ptr} (hT : ptrs (T s) = U ++ W) (hR : ptrs R = U ++ r :: W) :
    (slots (setSide T s R)).Perm (r :: slots T) := by
  refine (slots_setSide_perm T s R).trans ?_
  rw [hR, List.append_assoc, List.cons_append]
  refine List.perm_middle.trans (List.Perm.cons r ?_)
  rw [← List.append_assoc, ← hT]
  exact (slots_perm T s).symm

/-- What the index holds once `r` carries the order `o`. -/
theorem Rep.holds_add (h : Rep n lo hi st T f) {T' : Side → List Rung} {m : Mem} {o : OrderInfo}
    (hmem : ∀ p, p ∈ slots T' ↔ p = r ∨ p ∈ slots T) (hnew : ∀ p ∈ slots T, (st.order p).id = o.id → o.id = 0)
    (hr : (m r).toOrderInfo = o) (hkeep : ∀ p ∈ slots T, (m p).toOrderInfo = (st.order p).toOrderInfo)
    (k : OrderId) (v : Option Ptr) (hk : k ≠ 0) :
    (if k = o.id then v = some r else Holds st.index k v) ↔ ∃ p ∈ slots T', (m p).id = k ∧ v = some p := by
  split
  · rename_i e
    constructor
    · intro hv
      exact ⟨r, (hmem r).mpr (Or.inl rfl), (congrArg OrderInfo.id hr).trans e.symm, hv⟩
    · rintro ⟨p, hp, hpk, hv⟩
      rcases (hmem p).mp hp with rfl | hpT
      · exact hv
      · have hpk' : (st.order p).id = k := (congrArg OrderInfo.id (hkeep p hpT)).symm.trans hpk
        exact absurd (hnew p hpT (hpk'.trans e)) (e ▸ hk)
  · rename_i e
    rw [h.holds k v hk]
    constructor
    · rintro ⟨p, hp, hpk, hv⟩
      exact ⟨p, (hmem p).mpr (Or.inr hp), (congrArg OrderInfo.id (hkeep p hp)).trans hpk, hv⟩
    · rintro ⟨p, hp, hpk, hv⟩
      rcases (hmem p).mp hp with rfl | hpT
      · exact absurd ((congrArg OrderInfo.id hr).symm.trans hpk).symm e
      · exact ⟨p, hpT, (congrArg OrderInfo.id (hkeep p hpT)).symm.trans hpk, hv⟩

/-- An order joins a side behind the slots of `U` and before those of `W`. -/
theorem infos_enqueue {m m' : Mem} {U W : List Ptr} {o : OrderInfo} (hr : (m' r).toOrderInfo = o)
    (hkeep : ∀ p, p ∈ U ∨ p ∈ W → (m' p).toOrderInfo = (m p).toOrderInfo)
    (hu : ∀ p ∈ U, ¬ better o.side o.price (m p).price) (hw : ∀ p ∈ W, better o.side o.price (m p).price) :
    Flat.enqueue o (infos m (U ++ W)) = infos m' (U ++ r :: W) := by
  have hU : infos m' U = infos m U := List.map_congr_left fun p hp => hkeep p (Or.inl hp)
  have hW : infos m' W = infos m W := List.map_congr_left fun p hp => hkeep p (Or.inr hp)
  unfold infos at hU hW ⊢
  rw [List.map_append, enqueue_split, List.map_append, List.map_cons, hr, hU, hW]
  · intro x hx
    obtain ⟨p, hp, rfl⟩ := List.mem_map.mp hx
    exact hu p hp
  · intro x hx
    obtain ⟨p, hp, rfl⟩ := List.mem_map.mp hx
    exact hw p hp

/-- The book's part of placing: the order joins its side, and the sides read as the flat lists. -/
theorem Rep.join (h : Rep n lo hi st T f) {o : OrderInfo} {m m' : Mem} {b' : B} (hrT : r ∉ slots T)
    (hr : m r = { toOrderInfo := o }) (hkeep : ∀ p ∈ slots T, m p = st.order p)
    (hadd : Book.add st.book m r = some (b', m')) : ∃ R,
      (LawfulBook.Ok b' ∧ LawfulBook.minPrice b' = lo ∧ LawfulBook.maxPrice b' = hi) ∧
      (∀ t, LawfulBook.levels b' t = (setSide T o.side R t).map (·.1)) ∧
      (∀ t, Book.orderCount b' t = (ptrs (setSide T o.side R t)).length) ∧
      (∀ t, SideRep m' t (setSide T o.side R t)) ∧
      (∀ t, (f.place o).side t = infos m' (ptrs (setSide T o.side R t))) ∧
      (slots (setSide T o.side R)).Perm (r :: slots T) ∧
      (m' r).toOrderInfo = o ∧ ∀ p ∈ slots T, (m' p).toOrderInfo = (st.order p).toOrderInfo := by
  have hside : ∀ t, SideRep m t (T t) := fun t => (h.side t).congr fun p hp => hkeep p (mem_slots hp)
  obtain ⟨hbok, hblo, hbhi, hm', hbl, hblo', hbc, hbc'⟩ := LawfulBook.add_some h.book hadd
  rw [hr] at hm' hbl hblo' hbc hbc'
  simp only at hm' hbl hblo' hbc hbc'
  rw [h.levels] at hm' hbl
  have hrs : r ∉ ptrs (T o.side) := fun e => hrT (mem_slots e)
  obtain ⟨hframe, R, hR, hrep, U, W, hUW, hURW, hu, hw⟩ := (hside o.side).add hrs (by rw [hr])
  rw [hr] at hframe hR hrep hu hw
  simp only at hframe hR hrep hu hw
  rw [← hm'] at hframe hrep
  have hinfo : ∀ p, (m' p).toOrderInfo = (m p).toOrderInfo := fun p => by
    rw [hm']; exact PriceLevel.pushBack_info _ m r p
  have hinfo' : ∀ p ∈ slots T, (m' p).toOrderInfo = (st.order p).toOrderInfo := fun p hp => by
    rw [hinfo, hkeep p hp]
  have hrinfo : (m' r).toOrderInfo = o := by rw [hinfo, hr]
  have hUWT : ∀ p, p ∈ U ∨ p ∈ W → p ∈ slots T := fun p hp =>
    mem_slots (s := o.side) (by rw [hUW]; exact List.mem_append.mpr hp)
  -- behind the orders it is not better than, before those it is
  have henqueue : Flat.enqueue o (f.side o.side) = infos m' (ptrs R) := by
    rw [h.flat, hUW, hURW]
    refine infos_enqueue hrinfo (fun p hp => hinfo' p (hUWT p hp)) (fun p hp => ?_) fun p hp => ?_
    · have hp' := hu p hp
      rwa [hkeep p (hUWT p (Or.inl hp))] at hp'
    · have hp' := hw p hp
      rwa [hkeep p (hUWT p (Or.inr hp))] at hp'
  refine ⟨R, ⟨hbok, hblo.trans h.low, hbhi.trans h.high⟩, h.levels_setSide (hbl.trans hR.symm) hblo', ?_, ?_,
    h.flat_setSide henqueue fun p hp => hinfo' p (mem_slots hp), slots_add hUW hURW, hrinfo, hinfo'⟩
  · refine h.counts_setSide (hbc.trans ?_) hbc'
    rw [h.counts, hUW, hURW]; simp; omega
  · refine h.side_setSide hrep fun p hp => ?_
    have hm : m' p = m p := hframe p (fun e => hrT (e ▸ mem_slots hp)) fun hps => h.disjoint hps hp rfl
    exact hm.trans (hkeep p (mem_slots hp))

theorem Rep.place (h : Rep n lo hi st T f) {pool : ObjectPool} (ha : st.pool.acquire = some (r, pool)) (o : OrderInfo)
    (hnew : ∀ p ∈ slots T, (st.order p).id = o.id → o.id = 0) :
    (Store.place { st with pool := pool } r o = none → ¬ (lo ≤ o.price ∧ o.price ≤ hi)) ∧
    ∀ st', Store.place { st with pool := pool } r o = some st' → ∃ T', Rep n lo hi st' T' (f.place o) := by
  obtain ⟨hfree, hsto, hcap, huse⟩ := acquire_some ha
  let m1 := Function.update st.pool.storage r { toOrderInfo := o }
  have hr : m1 r = { toOrderInfo := o } := Function.update_self ..
  have hnd := h.nodup
  rw [hfree] at hnd
  have hrT : r ∉ slots T := fun e => (List.nodup_append.mp hnd).2.2 r e r (by simp) rfl
  have hkeep : ∀ p ∈ slots T, m1 p = st.pool.storage p := fun p hp =>
    Function.update_of_ne (show p ≠ r from fun e => hrT (e ▸ hp)) _ _
  obtain ⟨idx, hidx, hok, hmask, hsize, hholds, hcard⟩ := h.insert_id hnew r
  have hplace : ∀ b' m2, Book.add st.book m1 r = some (b', m2) → (m2 r).id = o.id →
      Store.place { st with pool := pool } r o = some ⟨b', { pool with storage := m2 }, idx⟩ := by
    intro b' m2 hadd hid
    unfold Store.place
    simp only [hsto]
    rw [show Book.add st.book (Function.update st.pool.storage r { toOrderInfo := o }) r = _ from hadd]
    simp only [Option.bind_eq_bind, Option.bind_some, hid]
    rw [hidx]
    rfl
  cases hadd : Book.add st.book m1 r with
  | none =>
    have hnone : Store.place { st with pool := pool } r o = none := by
      unfold Store.place
      simp only [hsto]
      rw [show Book.add st.book (Function.update st.pool.storage r { toOrderInfo := o }) r = _ from hadd]
      rfl
    refine ⟨fun _ => ?_, fun st' e => by rw [hnone] at e; cases e⟩
    have hb := LawfulBook.add_none h.book hadd
    rw [LawfulBook.inBand_eq, h.low, h.high, hr] at hb
    simpa using hb
  | some bm =>
    obtain ⟨b', m2⟩ := bm
    obtain ⟨R, ⟨hbok, hblo, hbhi⟩, hlevels, hcounts, hsides, hflat, hperm, hrinfo, hinfo⟩ := h.join hrT hr hkeep hadd
    have hst := hplace b' m2 hadd (congrArg OrderInfo.id hrinfo)
    refine ⟨fun e => absurd (hst.symm.trans e) (by simp), fun st' e => ⟨setSide T o.side R, ?_⟩⟩
    rw [hst] at e
    obtain rfl : (⟨b', { pool with storage := m2 }, idx⟩ : Store B) = st' := Option.some.inj e
    have hmem : ∀ p, p ∈ slots (setSide T o.side R) ↔ p = r ∨ p ∈ slots T := fun p => by
      rw [hperm.mem_iff, List.mem_cons]
    have horders : (f.place o).orders.Perm (o :: f.orders) := by
      rw [orders_infos hflat]
      refine (hperm.map _).trans ?_
      rw [List.map_cons, hrinfo, h.orders]
      exact List.Perm.cons o (List.Perm.of_eq (List.map_congr_left hinfo))
    refine ⟨hbok, hblo, hbhi, hlevels, hcounts, hsides, hflat, ?_, hcap.trans h.capacity, ?_, hok, ?_, ?_, ?_, ?_⟩
    · show (slots (setSide T o.side R) ++ pool.free).Perm (List.range n)
      refine (hperm.append_right _).trans ?_
      rw [List.cons_append]
      refine List.perm_middle.symm.trans ?_
      rw [← hfree]; exact h.free
    · show pool.inUse = _
      rw [huse, h.inUse, hperm.length_eq]; rfl
    · intro k v hk
      rw [hholds k v hk]
      exact h.holds_add hmem hnew hrinfo hinfo k v hk
    · show idx.size = (if f.full then f.live else f.size) + 1
      rw [hsize, h.live, h.size]
      simp only [h.full_iff]
    · show idx.mask + 1 = if f.full then 2 * f.cap else f.cap
      rw [hmask, h.cap]
      simp only [h.full_iff]
    · show (keys idx).card = (f.place o).live
      rw [hcard, h.live, live_perm horders]

end Lob
