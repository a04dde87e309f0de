/-
  Lob.Engine.Queries — the book's queries, read off the flat lists.

  `takeWhile_infos`: cutting a side by price cuts its rungs, so what a query walks is a
  part of the flat list. A dense book takes a level at `kNoPrice` for the end of its walk;
  the two queries that walk need `Real`.
-/

import Lob.Engine.StoreProofs
import Mathlib.Data.List.SplitBy

namespace Lob

open Lob.Base.Sorted

variable {B : Type} [Book B] [LawfulBook B] {n : Nat} {lo hi : Price} {st : Store B} {T : Side → List Rung} {f : Flat}

/-! ## Cutting a side by price -/

/-- Cutting the orders of a side by price cuts its rungs. -/
theorem takeWhile_infos {m : Mem} (c : Price → Bool) : ∀ {R : List Rung}, (∀ t ∈ R, t.2 ≠ []) →
    (∀ t ∈ R, ∀ p ∈ t.2, (m p).price = t.1.price) →
    (infos m (ptrs R)).takeWhile (fun o => c o.price) = infos m (ptrs (R.takeWhile fun t => c t.1.price)) := by
  intro R
  induction R with
  | nil => intro _ _; rfl
  | cons t R ih =>
    intro hne hp
    have ih := ih (fun t ht => hne t (List.mem_cons_of_mem _ ht)) fun t ht => hp t (List.mem_cons_of_mem _ ht)
    have ht : ∀ p ∈ t.2, (m p).price = t.1.price := hp t (by simp)
    unfold infos at ih ⊢
    rw [ptrs_cons, List.map_append]
    by_cases hc : c t.1.price = true
    · rw [List.takeWhile_append_of_pos, ih, List.takeWhile_cons_of_pos (by exact hc), ptrs_cons, List.map_append]
      intro o ho
      obtain ⟨p, hp', rfl⟩ := List.mem_map.mp ho
      show c (m p).price = true
      rw [ht p hp', hc]
    · obtain ⟨r, q, hq⟩ := List.exists_cons_of_ne_nil (hne t (by simp))
      have hr : (m r).price = t.1.price := ht r (by rw [hq]; simp)
      rw [List.takeWhile_cons_of_neg (l := R) (by exact hc), hq, List.map_cons, List.cons_append, List.takeWhile_cons_of_neg]
      · rfl
      · show ¬ c (m r).price = true
        rw [hr]; exact hc

theorem openSize_infos (m : Mem) (q : List Ptr) : Flat.openSize (infos m q) = openQty m q := by
  unfold Flat.openSize infos openQty
  rw [List.map_map]
  rfl

theorem infos_sublist {m : Mem} {t : Rung} {R : List Rung} (ht : t ∈ R) : (infos m t.2).Sublist (infos m (ptrs R)) := by
  obtain ⟨xs, ys, rfl⟩ := List.append_of_mem ht
  refine List.Sublist.map _ ?_
  rw [ptrs_append, ptrs_cons]
  exact (List.sublist_append_left _ _).trans (List.sublist_append_right _ _)

/-- The orders of a rung are those at its price. -/
theorem SideRep.filter_price {m : Mem} {s : Side} {R : List Rung} (h : SideRep m s R) {t : Rung} (ht : t ∈ R) :
    (infos m (ptrs R)).filter (fun o => o.price = t.1.price) = infos m t.2 := by
  obtain ⟨xs, ys, rfl⟩ := List.append_of_mem ht
  have hord := List.pairwise_append.mp h.ordered
  have hout : ∀ zs : List Rung, (∀ z ∈ zs, z ∈ xs ++ t :: ys) → (∀ z ∈ zs, z.1.price ≠ t.1.price) →
      (infos m (ptrs zs)).filter (fun o => o.price = t.1.price) = [] := by
    intro zs hzs hne
    refine List.filter_eq_nil_iff.mpr fun o ho => ?_
    obtain ⟨p, hp, rfl⟩ := List.mem_map.mp ho
    obtain ⟨z, hz, hpz⟩ := mem_ptrs.mp hp
    have hpz : (m p).price = z.1.price := h.price z (hzs z hz) p hpz
    simpa [hpz] using hne z hz
  have hx := hout xs (fun z hz => by simp [hz]) fun z hz e => by
    have := hord.2.2 z hz t (by simp)
    unfold rungPrice at this
    rw [e] at this
    exact irrefl _ this
  have hy := hout ys (fun z hz => by simp [hz]) fun z hz e => by
    have := (List.pairwise_cons.mp hord.2.1).1 z hz
    unfold rungPrice at this
    rw [e] at this
    exact irrefl _ this
  have hself : (infos m t.2).filter (fun o => o.price = t.1.price) = infos m t.2 := by
    refine List.filter_eq_self.mpr fun o ho => ?_
    obtain ⟨p, hp, rfl⟩ := List.mem_map.mp ho
    simpa using h.price t ht p hp
  rw [show infos m (ptrs (xs ++ t :: ys)) = infos m (ptrs xs) ++ (infos m t.2 ++ infos m (ptrs ys)) by simp [infos],
    List.filter_append, List.filter_append, hx, hy, hself, List.nil_append, List.append_nil]

/-- The cached sizes of some rungs add up to their open size, modulo 2^64. -/
theorem sum_totals {m : Mem} : ∀ {R : List Rung}, (∀ t ∈ R, Queue m t.1 t.2) →
    UInt64.ofNat ((R.map fun t => t.1.totalQty.toNat).sum) = UInt64.ofNat (openQty m (ptrs R)) := by
  intro R
  induction R with
  | nil => intro _; rfl
  | cons t R ih =>
    intro h
    have ht := (h t (by simp)).total
    rw [List.map_cons, List.sum_cons, ptrs_cons, openQty_append, UInt64.ofNat_add, UInt64.ofNat_add,
      ih fun t ht => h t (List.mem_cons_of_mem _ ht), UInt64.ofNat_toNat, ht]

/-! ## The queries -/

/-- The best rung of a side, or none. -/
theorem Rep.best (h : Rep n lo hi st T f) (s : Side) :
    (Book.bestLevel st.book s = none ∧ f.side s = []) ∨
    ∃ l o L, Book.bestLevel st.book s = some l ∧ f.side s = o :: L ∧ o.price = l.price ∧
      l.totalQty = UInt64.ofNat (Flat.topSize (f.side s)) := by
  rw [LawfulBook.bestLevel_eq h.book, h.levels, h.flat]
  cases hT : T s with
  | nil => exact Or.inl ⟨rfl, rfl⟩
  | cons t ys =>
    obtain ⟨l, q⟩ := t
    have hs := h.side s
    rw [hT] at hs
    obtain ⟨r, q', rfl⟩ := List.exists_cons_of_ne_nil (hs.nonempty (l, q) (by simp))
    have hr : (st.pool.storage r).price = l.price := hs.price (l, r :: q') (by simp) r (by simp)
    refine Or.inr ⟨l, (st.pool.storage r).toOrderInfo, infos st.pool.storage (q' ++ ptrs ys), rfl, rfl, hr, ?_⟩
    have hcut : ((l, r :: q') :: ys).takeWhile (fun t => decide (t.1.price = (st.pool.storage r).price)) =
        [(l, r :: q')] := by
      rw [List.takeWhile_cons_of_pos (by simp [hr])]
      cases ys with
      | nil => rfl
      | cons y ys =>
        have hbet : better s l.price y.1.price := (sorted_cons.mp hs.ordered).1 y (by simp)
        rw [List.takeWhile_cons_of_neg]
        simp only [decide_eq_true_eq, hr]
        intro e
        rw [e] at hbet
        exact irrefl _ hbet
    show l.totalQty = UInt64.ofNat (Flat.openSize ((infos st.pool.storage (ptrs ((l, r :: q') :: ys))).takeWhile
      fun x => decide (x.price = (st.pool.storage r).price)))
    rw [takeWhile_infos (fun px => decide (px = (st.pool.storage r).price)) hs.nonempty hs.price, hcut, openSize_infos,
      (hs.queue (l, r :: q') (by simp)).total]
    simp [ptrs]

theorem Rep.bestPrice (h : Rep n lo hi st T f) (s : Side) : Book.bestPrice st.book s = f.top s := by
  rw [LawfulBook.bestPrice_eq h.book]
  unfold topPrice Flat.top
  rw [← LawfulBook.bestLevel_eq h.book]
  rcases h.best s with ⟨e1, e2⟩ | ⟨l, o, L, e1, e2, e3, _⟩
  · rw [e1, e2]; rfl
  · rw [e1, e2]; simp [e3]

theorem Rep.bestQty (h : Rep n lo hi st T f) (s : Side) :
    Engine.bestQty st.book s = UInt64.ofNat (Flat.topSize (f.side s)) := by
  unfold Engine.bestQty
  rcases h.best s with ⟨e1, e2⟩ | ⟨l, o, L, e1, _, _, e4⟩
  · rw [e1, e2]; rfl
  · rw [e1]; exact e4

/-- The prices of the rungs are those of the orders. -/
theorem Rep.level_price (h : Rep n lo hi st T f) {s : Side} {l : PriceLevel} (hl : l ∈ LawfulBook.levels st.book s) :
    ∃ o ∈ f.side s, o.price = l.price := by
  rw [h.levels] at hl
  obtain ⟨t, ht, rfl⟩ := List.mem_map.mp hl
  obtain ⟨r, q, hq⟩ := List.exists_cons_of_ne_nil ((h.side s).nonempty t ht)
  have hr : r ∈ t.2 := by rw [hq]; simp
  refine ⟨(st.pool.storage r).toOrderInfo, ?_, (h.side s).price t ht r hr⟩
  rw [h.flat]
  exact List.mem_map_of_mem (mem_ptrs.mpr ⟨t, ht, hr⟩)

/-- No level of side `s` is taken for the sentinel. -/
def Real (lo : Price) (L : List OrderInfo) : Prop := kNoPrice < lo ∨ ∀ o ∈ L, o.price ≠ kNoPrice

theorem Rep.real_levels (h : Rep n lo hi st T f) {s : Side} (hr : Real lo (f.side s)) :
    kNoPrice < LawfulBook.minPrice st.book ∨ ∀ l ∈ LawfulBook.levels st.book s, l.price ≠ kNoPrice := by
  rcases hr with hr | hr
  · exact Or.inl (by rw [h.low]; exact hr)
  · refine Or.inr fun l hl e => ?_
    obtain ⟨o, ho, ho'⟩ := h.level_price hl
    exact hr o ho (ho'.trans e)

/-- The cached sizes of the levels that cross, and the open sizes of the orders that do. -/
theorem Rep.crossedQty_eq (h : Rep n lo hi st T f) (side : Side) (limit : Price) :
    UInt64.ofNat (crossedQty side limit (LawfulBook.levels st.book (opposite side))) =
      UInt64.ofNat (Flat.openSize ((f.side (opposite side)).takeWhile fun o => crosses side limit o.price)) := by
  have hs := h.side (opposite side)
  rw [h.levels, h.flat, takeWhile_infos (crosses side limit) hs.nonempty hs.price, openSize_infos]
  unfold crossedQty
  rw [List.takeWhile_map, List.map_map]
  exact sum_totals fun t ht => hs.queue t ((List.takeWhile_subset _) ht)

theorem Rep.marketableQty (h : Rep n lo hi st T f) {side : Side} (hr : Real lo (f.side (opposite side))) (limit : Price) :
    Book.marketableQty st.book side limit =
      UInt64.ofNat (Flat.openSize ((f.side (opposite side)).takeWhile fun o => crosses side limit o.price)) := by
  rw [LawfulBook.marketableQty_eq h.book side limit (h.real_levels hr), h.crossedQty_eq]

/-- The orders of a side, cut by price, are its queues. -/
theorem SideRep.splitBy_infos {m : Mem} {s : Side} {R : List Rung} (h : SideRep m s R) :
    (infos m (ptrs R)).splitBy (fun o o' => decide (o.price = o'.price)) = R.map fun t => infos m t.2 := by
  have e : infos m (ptrs R) = (R.map fun t => infos m t.2).flatten := by
    unfold infos ptrs
    rw [List.map_flatMap, List.flatMap_def]
  have hprice : ∀ t ∈ R, ∀ o ∈ infos m t.2, o.price = t.1.price := by
    intro t ht o ho
    obtain ⟨p, hp, rfl⟩ := List.mem_map.mp ho
    exact h.price t ht p hp
  rw [e, List.splitBy_flatten]
  · intro hn
    obtain ⟨t, ht, hnil⟩ := List.mem_map.mp hn
    exact h.nonempty t ht (List.map_eq_nil_iff.mp hnil)
  · intro G hG
    obtain ⟨t, ht, rfl⟩ := List.mem_map.mp hG
    refine List.Pairwise.isChain (List.pairwise_of_forall_mem_list fun o ho o' ho' => ?_)
    simp [hprice t ht o ho, hprice t ht o' ho']
  · refine List.Pairwise.isChain (List.pairwise_map.mpr (h.ordered.imp_of_mem fun {t u} ht hu hb => ?_))
    refine ⟨mt List.map_eq_nil_iff.mp (h.nonempty t ht), mt List.map_eq_nil_iff.mp (h.nonempty u hu), ?_⟩
    rw [hprice t ht _ (List.getLast_mem _), hprice u hu _ (List.head_mem _)]
    simp only [decide_eq_false_iff_not]
    intro e
    unfold rungPrice at hb
    rw [e] at hb
    exact irrefl _ hb

/-- Orders changed, with the prices told apart as before, are cut as before. -/
theorem splitBy_price_map {g : OrderInfo → OrderInfo} {L : List OrderInfo}
    (hg : ∀ x ∈ L, ∀ y ∈ L, decide ((g x).price = (g y).price) = decide (x.price = y.price)) :
    (L.map g).splitBy (fun o o' => decide (o.price = o'.price)) =
      (L.splitBy fun o o' => decide (o.price = o'.price)).map (List.map g) := by
  have hmem : ∀ G ∈ L.splitBy (fun o o' => decide (o.price = o'.price)), ∀ o ∈ G, o ∈ L := fun G hG o ho => by
    rw [← List.flatten_splitBy (fun o o' : OrderInfo => decide (o.price = o'.price)) L]
    exact List.mem_flatten_of_mem hG ho
  have hflat : L.map g = ((L.splitBy fun o o' => decide (o.price = o'.price)).map (List.map g)).flatten := by
    rw [← List.map_flatten, List.flatten_splitBy]
  rw [hflat, List.splitBy_flatten]
  · intro hn
    obtain ⟨G, hG, he⟩ := List.mem_map.mp hn
    exact List.ne_nil_of_mem_splitBy hG (List.map_eq_nil_iff.mp he)
  · intro G' hG'
    obtain ⟨G, hG, rfl⟩ := List.mem_map.mp hG'
    rw [List.isChain_map]
    refine (List.isChain_of_mem_splitBy hG).imp_of_mem_imp ?_
    intro x y hx hy hxy
    rw [hg x (hmem G hG x hx) y (hmem G hG y hy)]
    exact hxy
  · rw [List.isChain_map]
    refine (List.isChain_getLast_head_splitBy _ L).imp_of_mem_imp ?_
    intro G G' hG hG' hcut
    obtain ⟨hne, hne', hlast⟩ := hcut
    refine ⟨mt List.map_eq_nil_iff.mp hne, mt List.map_eq_nil_iff.mp hne', ?_⟩
    rw [List.getLast_map, List.head_map, hg _ (hmem G hG _ (List.getLast_mem hne)) _ (hmem G' hG' _ (List.head_mem hne'))]
    exact hlast

/-- The levels of a side are the rows of its orders. -/
theorem Rep.rows (h : Rep n lo hi st T f) (s : Side) :
    (LawfulBook.levels st.book s).map depthEntry = Flat.rows (f.side s) := by
  have hs := h.side s
  rw [h.levels, h.flat]
  unfold Flat.rows
  rw [hs.splitBy_infos, List.map_map, List.map_map]
  refine List.map_congr_left fun t ht => ?_
  have hq := hs.queue t ht
  obtain ⟨r, q, hrq⟩ := List.exists_cons_of_ne_nil (hs.nonempty t ht)
  have hp : (st.pool.storage r).price = t.1.price := hs.price t ht r (by rw [hrq]; simp)
  have e1 : ((infos st.pool.storage t.2).head?.map (·.price)).getD kNoPrice = t.1.price := by
    rw [hrq]; exact hp
  have e2 : UInt32.ofNat (infos st.pool.storage t.2).length = t.1.count := by
    rw [hq.count]; unfold infos; rw [List.length_map]
  simp only [Function.comp_apply, e1, e2, openSize_infos, ← hq.total]
  rfl

theorem Rep.snapshot (h : Rep n lo hi st T f) {s : Side} (hr : Real lo (f.side s)) (k : Nat) :
    Book.snapshot st.book s k = (Flat.rows (f.side s)).take k := by
  rw [LawfulBook.snapshot_eq h.book s k (h.real_levels hr), List.map_take, h.rows]

end Lob
