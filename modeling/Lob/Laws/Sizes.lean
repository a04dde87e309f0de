/-
  Lob.Laws.Sizes — the cached sizes are exact while a side's open size fits in 64 bits.

  Every size is kept and added up modulo 2^64, and no check bounds a quantity.
  `Flat.Fit` says when nothing wraps: each side, taken whole, is below 2^64. The dense book
  also ends its walk at a level priced `kNoPrice`, so there the sell side may not have such
  a level beside another. `Engine.Fits` is the condition on a command that keeps both.
-/

import Lob.Book.Walks
import Lob.Engine.Entries

namespace Lob

open Lob.Base.Sorted
open Lob.Base.Links (walk)

/-! ## Flat lists whose sizes fit -/

namespace Flat

/-- Along a sorted side the orders that cross come first. -/
theorem takeWhile_crosses {s : Side} {L : List OrderInfo} (h : L.Pairwise (ahead s)) (side : Side) (hs : s = opposite side)
    (limit : Price) : L.takeWhile (fun o => crosses side limit o.price) = L.filter fun o => crosses side limit o.price := by
  induction L with
  | nil => rfl
  | cons o L ih =>
    obtain ⟨ho, hL⟩ := List.pairwise_cons.mp h
    by_cases hc : crosses side limit o.price = true
    · simp only [List.takeWhile_cons, List.filter_cons, hc, if_true, ih hL]
    · have hrest : ∀ x ∈ L, crosses side limit x.price = false := by
        intro x hx
        have hxo := ho x hx
        subst hs
        cases side <;> simp only [crosses, ahead, better, opposite] at hc hxo ⊢ <;> split at hc <;>
          simp_all <;> unfold Price at * <;> omega
      simp only [List.takeWhile_cons, List.filter_cons, hc, Bool.false_eq_true, if_false]
      exact (List.filter_eq_nil_iff.mpr fun x hx => by simp [hrest x hx]).symm

/-- Nothing wraps, and the walk of the dense book leaves nothing out. -/
structure Fit (f : Flat) : Prop where
  size : ∀ s, openSize (f.side s) < 2 ^ 64
  sentinel : ∀ o ∈ f.side .sell, ∀ o' ∈ f.side .sell, o.price = kNoPrice → o'.price = kNoPrice

theorem Fit.shrink {f f' : Flat} (h : f.Fit) (hs : ∀ s, Shrinks (f'.side s) (f.side s)) : f'.Fit := by
  constructor
  · intro s
    exact Nat.lt_of_le_of_lt (openSize_shrinks (hs s)) (h.size s)
  · intro o ho o' ho'
    obtain ⟨x, hx, hr⟩ := (hs .sell).mem ho
    obtain ⟨x', hx', hr'⟩ := (hs .sell).mem ho'
    rw [hr.price, hr'.price]
    exact h.sentinel x hx x' hx'

theorem fit_place {f : Flat} (h : f.Fit) (o : OrderInfo) : (f.place o).Fit ↔
    openSize (f.side o.side) + o.remaining.toNat < 2 ^ 64 ∧
    (o.side = .sell → ∀ x ∈ f.side .sell, (x.price = kNoPrice ↔ o.price = kNoPrice)) := by
  have hmem : ∀ x, o.side = .sell → (x ∈ (f.place o).side .sell ↔ x = o ∨ x ∈ f.side .sell) := fun x hs => by
    rw [place_side, if_pos hs.symm, (enqueue_perm o _).mem_iff, List.mem_cons, hs]
  have hsize : openSize ((f.place o).side o.side) = o.remaining.toNat + openSize (f.side o.side) := by
    rw [place_side, if_pos rfl, openSize_perm (enqueue_perm o _), openSize_cons]
  constructor
  · intro hf
    refine ⟨?_, fun hs x hx => ?_⟩
    · have := hf.size o.side
      omega
    · have hxin := (hmem x hs).mpr (Or.inr hx)
      have hoin := (hmem o hs).mpr (Or.inl rfl)
      exact ⟨hf.sentinel x hxin o hoin, hf.sentinel o hoin x hxin⟩
  · intro ⟨hlt, hsent⟩
    constructor
    · intro s
      rcases eq_or_opposite o.side s with rfl | rfl
      · omega
      · rw [place_side, if_neg (opposite_ne _)]
        exact h.size _
    · intro x hx y hy
      by_cases hs : o.side = .sell
      · rw [hmem x hs] at hx
        rw [hmem y hs] at hy
        rcases hx with rfl | hx <;> rcases hy with rfl | hy
        · exact id
        · exact (hsent hs y hy).mpr
        · exact (hsent hs x hx).mp
        · exact h.sentinel x hx y hy
      · have hside : (f.place o).side .sell = f.side .sell := by rw [place_side, if_neg (Ne.symm hs)]
        rw [hside] at hx hy
        exact h.sentinel x hx y hy

end Flat

/-! ## What the engine shows -/

namespace Engine

/-- The orders queued at a level, from its head. -/
def queueOf (e : Engine OrderBook) (l : PriceLevel) : List OrderInfo :=
  (walk (fun p => (e.order p).next) e.pool.capacity l.head).map fun p => (e.order p).toOrderInfo

/-- Every size the book keeps or computes is the sum of what is open, as a natural number:
    that of a level, of a walk within a limit, of the best level (which BookChanged reports),
    and of a row of a snapshot. -/
structure Exact (e : Engine OrderBook) : Prop where
  level : ∀ s, ∀ l ∈ e.book.levelList s, l.totalQty.toNat = Flat.openSize (e.queueOf l)
  marketable : ∀ side limit, (e.book.marketableQty side limit).toNat =
    Flat.openSize ((e.queued (opposite side)).filter fun o => crosses side limit o.price)
  best : ∀ s, (bestQty e.book s).toNat = Flat.topSize (e.queued s)
  depth : ∀ s k, ∀ d ∈ e.book.snapshot s k, d.qty.toNat =
    Flat.openSize ((e.queued s).filter fun o => o.price = d.price)

/-- What `cmd` leaves to rest finds room below 2^64 on its side, and no level at the sentinel
    beside its own on the sell side. -/
def Fits (e : Engine OrderBook) (cmd : Command) : Prop :=
  ∀ c, e.Enters cmd c → e.Lands cmd c →
    Flat.openSize (e.standing cmd c.side) + (c.quantity.toNat - e.supply c) < 2 ^ 64 ∧
    (c.side = .sell → ∀ o ∈ e.standing cmd .sell, (o.price = kNoPrice ↔ c.price = kNoPrice))

end Engine

/-! ## Sizes of a book that represents flat lists -/

/-- Only the last level may sit at the sentinel. -/
theorem walkedQty_eq (side : Side) (limit : Price) : ∀ L : List PriceLevel, (∀ l ∈ L.dropLast, l.price ≠ kNoPrice) →
    walkedQty side limit (L.map PriceLevel.sized) = UInt64.ofNat (crossedQty side limit L) := by
  intro L
  induction L with
  | nil => intro _; rfl
  | cons l L ih =>
    intro h
    rw [walkedQty_cons]
    unfold crossedQty
    by_cases hc : crosses side limit l.price = true
    · rw [if_pos hc, List.takeWhile_cons_of_pos (by exact hc), List.map_cons, List.sum_cons, UInt64.ofNat_add, UInt64.ofNat_toNat]
      cases L with
      | nil => simp [walkedQty]
      | cons l' L =>
        rw [if_neg (h l (by simp)), ih fun x hx => h x (by simp [hx])]
        rfl
    · rw [if_neg hc, List.takeWhile_cons_of_neg (by exact hc)]
      rfl

variable {e e' : Engine OrderBook} {a : FlatEngine} {cmd : Command} {now : TsNanos} {T : Side → List Rung}
  {n : Nat} {lo hi : Price} {f : Flat}

theorem Rep.queueOf (h : Rep n lo hi e.toStore T f) {s : Side} {t : Rung} (ht : t ∈ T s) :
    e.queueOf t.1 = infos e.pool.storage t.2 := by
  have hq := (h.side s).queue t ht
  unfold Engine.queueOf infos
  rw [hq.head]
  rw [show walk (fun p => (e.order p).next) e.pool.capacity t.2.head? = t.2 from
    hq.links.walk_eq (by rw [h.capacity]; exact h.queue_length_le ht)]
  rfl

/-- No level of the dense book is below the sentinel. -/
theorem Rep.level_ge (h : Rep n lo hi e.toStore T f) (hlo : kNoPrice ≤ lo) {s : Side} {l : PriceLevel}
    (hl : l ∈ e.book.levelList s) : kNoPrice ≤ l.price := by
  have hok : OrderBook.Ok e.book := h.book
  have hmin : e.book.minPrice = lo := h.low
  obtain ⟨i, hi, rfl⟩ := List.mem_map.mp hl
  rw [hok.occ_price ((OrderBook.mem_occupied hok).mp hi)]
  unfold Price at *
  omega

/-- With the sell side all at the sentinel or all above it, only a last level sits there. -/
theorem Rep.last_sentinel (h : Rep n lo hi e.toStore T f) (hlo : kNoPrice ≤ lo)
    (hs : ∀ o ∈ f.side .sell, ∀ o' ∈ f.side .sell, o.price = kNoPrice → o'.price = kNoPrice) (s : Side) :
    ∀ l ∈ (e.book.levelList s).dropLast, l.price ≠ kNoPrice := by
  have hord := OrderBook.ordered_levels h.book s
  have hge : ∀ l ∈ e.book.levelList s, kNoPrice ≤ l.price := fun l hl => h.level_ge hlo hl
  have hprice : ∀ l ∈ e.book.levelList s, ∃ o ∈ f.side s, o.price = l.price := fun l hl => h.level_price hl
  intro l hl hz
  obtain ⟨xs, ys, hsplit⟩ := List.append_of_mem hl
  have hne : e.book.levelList s ≠ [] := fun e0 => by rw [e0] at hl; cases hl
  have hL : e.book.levelList s = xs ++ l :: (ys ++ [(e.book.levelList s).getLast hne]) := by
    conv => lhs; rw [← List.dropLast_append_getLast hne, hsplit]
    simp
  generalize (e.book.levelList s).getLast hne = l' at hL
  rw [hL] at hord hge hprice
  have hbet : better s l.price l'.price := by
    have := (List.pairwise_append.mp hord).2.1
    exact (List.pairwise_cons.mp this).1 l' (by simp)
  cases s with
  | buy =>
    have := hge l' (by simp)
    unfold better at hbet
    unfold Price at *
    omega
  | sell =>
    obtain ⟨o, ho, hol⟩ := hprice l (by simp)
    obtain ⟨o', ho', hol'⟩ := hprice l' (by simp)
    have := hs o ho o' ho' (hol.trans hz)
    rw [hz, ← hol', this] at hbet
    exact irrefl _ hbet

theorem Simulates.marketable_eq (h : Simulates e a) (hlo : kNoPrice ≤ a.cfg.minPrice)
    (hs : ∀ o ∈ a.side .sell, ∀ o' ∈ a.side .sell, o.price = kNoPrice → o'.price = kNoPrice) (side : Side) (limit : Price) :
    e.book.marketableQty side limit =
      UInt64.ofNat (Flat.openSize ((a.side (opposite side)).filter fun o => crosses side limit o.price)) := by
  obtain ⟨T, hrep⟩ := h.refines.rep
  have hcross := hrep.crossedQty_eq side limit
  rw [Flat.takeWhile_crosses (h.inv.sorted _) side rfl] at hcross
  rw [OrderBook.marketableQty_walk hrep.book, walkedQty_eq, ← hcross]
  · rfl
  · exact hrep.last_sentinel (by rw [h.refines.cfg]; exact hlo) hs _

/-- A part of a size below 2^64 is its own cached size. -/
theorem toNat_openSize {k : Nat} {M : List OrderInfo} (h : Flat.openSize M < 2 ^ 64) (hle : k ≤ Flat.openSize M) :
    (UInt64.ofNat k).toNat = k := by
  rw [UInt64.toNat_ofNat']
  omega

namespace OrderBook

variable {b : OrderBook}

theorem next_mem (h : Ok b) {s : Side} {p : Price} {l : PriceLevel} (hl : b.nextLevelTowardMid s p = some l) :
    l ∈ b.levelList s := by
  unfold nextLevelTowardMid at hl
  split at hl
  · cases hl
  · obtain ⟨i, _, hl⟩ := Option.bind_eq_some_iff.mp hl
    obtain ⟨j, hj, hl⟩ := Option.bind_eq_some_iff.mp hl
    cases hl
    exact List.mem_map_of_mem ((mem_occupied h).mpr (List.find?_some hj))

/-- A snapshot lists levels of the side. -/
theorem snapshotLoop_mem (h : Ok b) (s : Side) {d : DepthEntry} : ∀ k lvl, (∀ l, lvl = some l → l ∈ b.levelList s) →
    d ∈ b.snapshotLoop s k lvl → ∃ l ∈ b.levelList s, d = depthEntry l := by
  intro k
  induction k with
  | zero => intro lvl _ hd; cases hd
  | succ k ih =>
    intro lvl hlvl hd
    cases lvl with
    | none => cases hd
    | some l =>
      rcases List.mem_cons.mp hd with rfl | hd
      · exact ⟨l, hlvl l rfl, rfl⟩
      · exact ih _ (fun l' hl' => next_mem h hl') hd

theorem snapshot_mem (h : Ok b) {s : Side} {k : Nat} {d : DepthEntry} (hd : d ∈ b.snapshot s k) :
    ∃ l ∈ b.levelList s, d = depthEntry l := by
  refine snapshotLoop_mem h s k _ (fun l hl => ?_) hd
  rw [bestLevel_eq h] at hl
  exact List.mem_of_head? hl

end OrderBook

theorem Flat.topSize_le (L : List OrderInfo) : Flat.topSize L ≤ Flat.openSize L := by
  cases L with
  | nil => exact Nat.le_refl _
  | cons o L => exact Flat.openSize_sublist (List.takeWhile_sublist _)

theorem Simulates.exact_of_fit (h : Simulates e a) (hlo : kNoPrice ≤ a.cfg.minPrice) (hf : a.Fit) : e.Exact := by
  obtain ⟨T, hrep⟩ := h.refines.rep
  have htotal : ∀ s, ∀ t ∈ T s, t.1.totalQty.toNat = Flat.openSize (infos e.pool.storage t.2) := by
    intro s t ht
    have hsize := hf.size s
    rw [hrep.flat] at hsize
    rw [((hrep.side s).queue t ht).total, ← openSize_infos]
    exact toNat_openSize hsize (Flat.openSize_sublist (infos_sublist ht))
  have hlevels : ∀ s, e.book.levelList s = (T s).map (·.1) := hrep.levels
  constructor
  · intro s l hl
    rw [hlevels] at hl
    obtain ⟨t, ht, rfl⟩ := List.mem_map.mp hl
    rw [htotal s t ht, hrep.queueOf ht]
  · intro side limit
    rw [h.marketable_eq hlo hf.sentinel, h.refines.queued]
    exact toNat_openSize (hf.size _) (Flat.openSize_sublist List.filter_sublist)
  · intro s
    rw [hrep.bestQty, h.refines.queued]
    exact toNat_openSize (hf.size s) (Flat.topSize_le _)
  · intro s k d hd
    obtain ⟨l, hl, rfl⟩ := OrderBook.snapshot_mem hrep.book hd
    rw [hlevels] at hl
    obtain ⟨t, ht, rfl⟩ := List.mem_map.mp hl
    show t.1.totalQty.toNat = Flat.openSize ((e.queued s).filter fun o => o.price = t.1.price)
    rw [htotal s t ht, h.refines.queued, hrep.flat, (hrep.side s).filter_price ht]

theorem filter_market (side : Side) (L : List OrderInfo) : L.filter (fun o => crosses side kNoPrice o.price) = L :=
  List.filter_eq_self.mpr fun _ _ => if_pos rfl

/-- A sell level at the sentinel hides the ones behind it. -/
theorem Simulates.sentinel_of_exact (h : Simulates e a) (hlo : kNoPrice ≤ a.cfg.minPrice) (he : e.Exact) :
    ∀ o ∈ a.side .sell, ∀ o' ∈ a.side .sell, o.price = kNoPrice → o'.price = kNoPrice := by
  intro o ho o' ho' hz
  obtain ⟨T, hrep⟩ := h.refines.rep
  have hlevels : e.book.levelList .sell = (T .sell).map (·.1) := hrep.levels .sell
  have hord := OrderBook.ordered_levels hrep.book .sell
  have hge : ∀ l ∈ e.book.levelList .sell, kNoPrice ≤ l.price := fun l hl => hrep.level_ge (by rw [h.refines.cfg]; exact hlo) hl
  -- the rungs that hold an order of the side
  have hrung : ∀ x ∈ a.side .sell, ∃ t ∈ T .sell, x ∈ infos e.pool.storage t.2 ∧ t.1.price = x.price := by
    intro x hx
    rw [hrep.flat] at hx
    obtain ⟨p, hp, rfl⟩ := List.mem_map.mp hx
    obtain ⟨t, ht, hpt⟩ := mem_ptrs.mp hp
    exact ⟨t, ht, List.mem_map_of_mem hpt, ((hrep.side .sell).price t ht p hpt).symm⟩
  obtain ⟨t, ht, _, htz⟩ := hrung o ho
  obtain ⟨t', ht', hto', htz'⟩ := hrung o' ho'
  cases hT : T .sell with
  | nil => rw [hT] at ht; cases ht
  | cons t0 R =>
    have ht0 : t0 ∈ T .sell := by rw [hT]; simp
    rw [hlevels, hT, List.map_cons] at hord hge
    have hz0 : t0.1.price = kNoPrice := by
      rw [hT] at ht
      rcases List.mem_cons.mp ht with rfl | ht
      · exact htz.trans hz
      · have := (List.pairwise_cons.mp hord).1 t.1 (List.mem_map_of_mem ht)
        have := hge t0.1 (by simp)
        unfold better at *
        unfold Price at *
        omega
    by_contra hne
    have htR : t' ∈ R := by
      rw [hT] at ht'
      refine (List.mem_cons.mp ht').resolve_left fun e' => hne ?_
      rw [← htz', e', hz0]
    have hwalk : e.book.marketableQty .buy kNoPrice = t0.1.totalQty := by
      rw [OrderBook.marketableQty_walk hrep.book]
      show walkedQty .buy kNoPrice ((e.book.levelList .sell).map PriceLevel.sized) = _
      rw [hlevels, hT, List.map_cons, walkedQty_cons, if_pos (show crosses .buy kNoPrice t0.1.price = true from if_pos rfl), if_pos hz0, UInt64.add_zero]
    have hmark := he.marketable .buy kNoPrice
    rw [hwalk, he.level .sell t0.1 (by rw [hlevels, hT]; simp), hrep.queueOf ht0, h.refines.queued] at hmark
    have hall : (a.side .sell).filter (fun o => crosses .buy kNoPrice o.price) =
        infos e.pool.storage t0.2 ++ infos e.pool.storage (ptrs R) := by
      rw [filter_market, hrep.flat, hT, ptrs_cons]
      exact List.map_append
    have hin : o' ∈ infos e.pool.storage (ptrs R) := (infos_sublist htR).subset hto'
    have hpos := UInt64.lt_iff_toNat_lt.mp (h.inv.opened o' (Flat.mem_orders.mpr ⟨.sell, ho'⟩)).1
    have hle := Flat.le_openSize hin
    have hmark : Flat.openSize (infos e.pool.storage t0.2) =
        Flat.openSize ((a.side .sell).filter fun o => crosses .buy kNoPrice o.price) := hmark
    rw [hall, Flat.openSize_append] at hmark
    have : (0 : UInt64).toNat = 0 := rfl
    omega

theorem Simulates.exact_iff (h : Simulates e a) (hlo : kNoPrice ≤ a.cfg.minPrice) : e.Exact ↔ a.Fit := by
  refine ⟨fun he => ⟨fun s => ?_, h.sentinel_of_exact hlo he⟩, h.exact_of_fit hlo⟩
  have hmark := he.marketable (opposite s) kNoPrice
  rw [opposite_opposite, h.refines.queued, filter_market] at hmark
  rw [← hmark]
  exact UInt64.toNat_lt _

/-! ## A command -/

/-- What is left of an order that comes to rest. -/
theorem FlatEngine.Landing.remaining_eq {b : FlatEngine} {fillable : Bool} {c : Command} {g : Flat} {o : OrderInfo}
    (h : FlatEngine.Landing b fillable c g o) : o.remaining.toNat =
      c.quantity.toNat - tradable b.cfg.stp c.client (reaches (incomingOrder c 0)) (b.side (opposite c.side)) := by
  have hopen : (b.matching c).inc.remaining ≠ 0 := by rw [← h.matched]; exact h.opened.1
  have hns := (open_iff b.cfg.stp c.client (b.accepted c) (incomingOrder c (b.arrival + 1)) 0 _).mp hopen
  have hleft := left_eq b.cfg.stp c.client (b.accepted c) (incomingOrder c (b.arrival + 1)) 0 (b.side (opposite c.side))
    fun d hd i x e => hns.2 (by
      obtain ⟨h1, _, h2⟩ := (stopped_iff ..).mp ⟨i, x, e ▸ hd⟩
      exact ⟨h1, h2⟩)
  rw [taken_eq] at hleft
  have hm : (b.matching c).inc.remaining.toNat + min c.quantity.toNat
      (tradable b.cfg.stp c.client (reaches (incomingOrder c 0)) (b.side (opposite c.side))) = c.quantity.toNat := hleft
  rw [h.matched]
  omega

theorem Simulates.fit_process (h : Simulates e a) (hf : a.Fit) (cmd : Command) :
    (a.process (e.fillable cmd) cmd).Fit ↔ e.Fits cmd := by
  rcases h.landing_cases cmd with ⟨b, c, o, hin, hl, hflat, hlands, hstanding, hfacing⟩ | ⟨hno, _, hsh⟩
  · have hfm : (b.afterMatch c).Fit := hf.shrink fun s => (FlatEngine.matching_shrinks b c s).trans (hin.sides s)
    have hside : o.side = c.side := by rw [hl.order]; rfl
    have hown : (b.afterMatch c).side c.side = b.side c.side := by
      rw [FlatEngine.afterMatch_side, if_neg (ne_opposite _)]
    have hsup : e.supply c = tradable b.cfg.stp c.client (reaches (incomingOrder c 0)) (b.side (opposite c.side)) := by
      unfold Engine.supply
      rw [hfacing, hin.vars.2, h.refines.cfg]
      rfl
    rw [hflat, Flat.fit_place hfm, hside, hown, hl.remaining_eq, ← hsup, hl.price_eq]
    constructor
    · intro ⟨h1, h2⟩ c' hc' hl'
      obtain rfl := (hlands c').mp ⟨hc', hl'⟩
      rw [hstanding, hstanding]
      refine ⟨h1, fun hsell x hx => ?_⟩
      rw [← hsell, hown, hsell] at h2
      exact h2 rfl x hx
    · intro hfit
      obtain ⟨hc, hland⟩ := (hlands c).mpr rfl
      have := hfit c hc hland
      rw [hstanding, hstanding] at this
      refine ⟨this.1, fun hsell x hx => this.2 hsell x ?_⟩
      rw [← hsell, hown, hsell] at hx
      exact hx
  · exact ⟨fun _ c hc hl => absurd hl (hno c hc), fun _ => hf.shrink hsh⟩

/-! ## Runs -/

/-- Along a run of the dense book every size is exact exactly when every command of it fits. -/
theorem sizes_exact_iff {cfg : EngineConfig} {e0 : Engine OrderBook} {is : List Engine.Input} (hlo : kNoPrice ≤ cfg.minPrice)
    (h0 : Engine.init cfg = some e0) (hs : e0.steps is = some e) :
    (∀ pre e1, pre <+: is → e0.steps pre = some e1 → e1.Exact) ↔ e0.Meets Engine.Fits is := by
  have hinit := init_simulates h0
  have hstart : (FlatEngine.init cfg (FlatEngine.initCap cfg)).Fit :=
    ⟨fun s => (by decide : (0 : Nat) < 2 ^ 64), fun o ho => by cases ho⟩
  refine @meets_iff _ _ _ _ _ (fun a => a.cfg = cfg) (fun _ => True) ?_
    (fun a fillable i _ hc _ => (a.step_cfg fillable i).trans hc)
    (fun e b he => ⟨he.level, he.marketable, he.best, he.depth⟩) is e0 e _
    (fun i _ => by cases i <;> trivial) hinit rfl (hinit.exact_of_fit hlo hstart) hs
  intro e e' a now cmd _ hsim hcfg hexact hp
  have hlo' : kNoPrice ≤ a.cfg.minPrice := by rw [hcfg]; exact hlo
  have hsim' := (process_refines hsim now cmd).2 e' hp
  have hcfg' : (a.process (e.fillable cmd) cmd).cfg = a.cfg := a.step_cfg (fun _ => e.fillable cmd) (.command now cmd)
  rw [hsim'.exact_iff (by rw [hcfg']; exact hlo'), hsim.fit_process ((hsim.exact_iff hlo').mp hexact)]

theorem sizes_exact_iff_resting : ∃ e0 e : Engine OrderBook,
    Engine.init { minPrice := 1, maxPrice := 500, maxOrders := 4 } = some e0 ∧
    e0.steps [.command 0 (.makeNew 1 7 .buy .limit 100 5 0), .command 0 (.makeNew 2 8 .buy .limit 100 3 0)] = some e ∧
    ((∀ pre e1, pre <+: [.command 0 (.makeNew 1 7 .buy .limit 100 5 0), .command 0 (.makeNew 2 8 .buy .limit 100 3 0)] →
      e0.steps pre = some e1 → e1.Exact) ↔ e0.Meets Engine.Fits
        [.command 0 (.makeNew 1 7 .buy .limit 100 5 0), .command 0 (.makeNew 2 8 .buy .limit 100 3 0)]) := by
  obtain ⟨e0, h0⟩ := @init_defined OrderBook _ { minPrice := 1, maxPrice := 500, maxOrders := 4 } _ rfl
  obtain ⟨e, he, _⟩ := @run_flat OrderBook _ _ e0 _ [.command 0 (.makeNew 1 7 .buy .limit 100 5 0),
    .command 0 (.makeNew 2 8 .buy .limit 100 3 0)] h0 (by decide)
  rw [run_eq_steps h0] at he
  exact ⟨e0, e, h0, he, sizes_exact_iff (by decide) h0 he⟩

/-- Two bids of 2^63 at one price: the level's size wraps to 0. -/
theorem total_qty_wraps : ¬ ∀ (e0 e : Engine OrderBook),
    Engine.init { minPrice := 1, maxPrice := 500, maxOrders := 4 } = some e0 →
    e0.steps [.command 0 (.makeNew 1 7 .buy .limit 100 9223372036854775808 0),
      .command 0 (.makeNew 2 8 .buy .limit 100 9223372036854775808 0)] = some e → e.Exact := by
  intro h
  have key : (do
      let e0 ← Engine.init (B := OrderBook) { minPrice := 1, maxPrice := 500, maxOrders := 4 }
      let e ← e0.steps [.command 0 (.makeNew 1 7 .buy .limit 100 9223372036854775808 0),
        .command 0 (.makeNew 2 8 .buy .limit 100 9223372036854775808 0)]
      some ((e.book.levelList .buy).map fun l => (l.totalQty.toNat, Flat.openSize (e.queueOf l)))) =
      some [(0, 2 ^ 64)] := by decide +kernel
  obtain ⟨e0, h0, key⟩ := Option.bind_eq_some_iff.mp key
  obtain ⟨e, he, key⟩ := Option.bind_eq_some_iff.mp key
  have hlev := (h e0 e h0 he).level .buy
  have key := Option.some.inj key
  cases hL : e.book.levelList .buy with
  | nil => rw [hL] at key; cases key
  | cons l L =>
    rw [hL, List.map_cons] at key
    have hl := hlev l (by rw [hL]; simp)
    rw [(Prod.mk.inj (List.cons.inj key).1).1, (Prod.mk.inj (List.cons.inj key).1).2] at hl
    exact absurd hl (by decide)

end Lob
