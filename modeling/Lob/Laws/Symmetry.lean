/-
  Lob.Laws.Symmetry — neither side of the book is favoured.

  `mirror` exchanges buy and sell, and reflects every price in the band. It keeps all that
  the engine compares (`mirror_fits`), so the run of the mirrored commands is the
  mirrored run (`sides_symmetric`).
-/

import Lob.Book.OrderBookProofs
import Lob.Engine.Relabel

namespace Lob

/-! ## The mirror -/

def mirrorPrice (cfg : EngineConfig) (p : Price) : Price := if p = kNoPrice then kNoPrice else cfg.minPrice + cfg.maxPrice - p

def mirror (cfg : EngineConfig) : Relabel := { flip := true, price := mirrorPrice cfg, client := id, stamp := id }

/-- The reflected price is a price: it fits 64 bits, and is not the sentinel. -/
def Mirrorable (cfg : EngineConfig) (p : Price) : Prop :=
  p = kNoPrice ∨ (kNoPrice < cfg.minPrice + cfg.maxPrice - p ∧ cfg.minPrice + cfg.maxPrice - p ≤ kMaxPrice)

instance (cfg : EngineConfig) (p : Price) : Decidable (Mirrorable cfg p) := by unfold Mirrorable; infer_instance

/-- `e'` is the mirror image of `e`, the clock readings in their events aside. -/
structure Mirrored (cfg : EngineConfig) (e e' : Engine OrderBook) : Prop where
  out : e'.out.map Event.untimed = (e.out.map Event.untimed).map (mirror cfg).event
  queued : ∀ s, e'.queued s = (e.queued (opposite s)).map (mirror cfg).order
  bestPrice : ∀ s, Book.bestPrice e'.book s = mirrorPrice cfg (Book.bestPrice e.book (opposite s))
  snapshot : ∀ s n, Book.snapshot e'.book s n =
    (Book.snapshot e.book (opposite s) n).map fun d => { d with price := mirrorPrice cfg d.price }
  marketableQty : ∀ side limit, Mirrorable cfg limit →
    Book.marketableQty e'.book (opposite side) (mirrorPrice cfg limit) = Book.marketableQty e.book side limit
  counters : e'.seq = e.seq ∧ e'.arrival = e.arrival ∧ e'.stats = e.stats ∧ e'.halted = e.halted ∧
    e'.restingOrders = e.restingOrders

/-! ## Reflection -/

theorem reflect_inj {n p q : Int} (h : n - p = n - q) : p = q := by omega

theorem reflect_lt {n p q : Int} : n - p < n - q ↔ q < p := by omega

theorem reflect_band {lo hi p : Int} : (lo ≤ lo + hi - p ∧ lo + hi - p ≤ hi) ↔ lo ≤ p ∧ p ≤ hi := by omega

variable {cfg : EngineConfig}

theorem mirror_side (s : Side) : (mirror cfg).side s = opposite s := rfl

theorem mirrorPrice_none (cfg : EngineConfig) : mirrorPrice cfg kNoPrice = kNoPrice := if_pos rfl

theorem mirrorPrice_real {p : Price} (h : p ≠ kNoPrice) : mirrorPrice cfg p = cfg.minPrice + cfg.maxPrice - p := if_neg h

theorem mirrorPrice_ne {p : Price} (hp : Mirrorable cfg p) (h : p ≠ kNoPrice) : mirrorPrice cfg p ≠ kNoPrice := by
  rw [mirrorPrice_real h]
  exact Int.ne_of_gt (hp.resolve_left h).1

theorem mirrorPrice_inj {p q : Price} (hp : Mirrorable cfg p) (hq : Mirrorable cfg q)
    (e : mirrorPrice cfg p = mirrorPrice cfg q) : p = q := by
  by_cases hp0 : p = kNoPrice
  · by_cases hq0 : q = kNoPrice
    · rw [hp0, hq0]
    · rw [hp0, mirrorPrice_none] at e
      exact absurd e.symm (mirrorPrice_ne hq hq0)
  · by_cases hq0 : q = kNoPrice
    · rw [hq0, mirrorPrice_none] at e
      exact absurd e (mirrorPrice_ne hp hp0)
    · rw [mirrorPrice_real hp0, mirrorPrice_real hq0] at e
      exact reflect_inj e

theorem mirror_fits (cfg : EngineConfig) :
    (mirror cfg).Fits cfg (Mirrorable cfg) fun p => p ≠ kNoPrice ∧ Mirrorable cfg p where
  sentinel := ⟨Or.inl rfl, mirrorPrice_none cfg⟩
  wider p hp := hp.2
  real p hp h0 := ⟨h0, hp⟩
  inj p q hp hq e := mirrorPrice_inj hp hq e
  prefers s p q hp hq := by
    show better (opposite s) (mirrorPrice cfg p) (mirrorPrice cfg q) ↔ better s p q
    rw [mirrorPrice_real hp.1, mirrorPrice_real hq.1]
    cases s with
    | buy => exact reflect_lt
    | sell => exact reflect_lt
  band p _ h0 := by
    show (cfg.minPrice ≤ mirrorPrice cfg p ∧ mirrorPrice cfg p ≤ cfg.maxPrice) ↔ _
    rw [mirrorPrice_real h0]
    exact reflect_band
  client := Or.inr Function.injective_id
  anonymous := rfl

/-! ## Mirrored runs -/

theorem unpriced_mirror {cmd : Command} (hc : Mirrorable cfg cmd.price) (h : ¬ cmd.Unpriced) :
    ¬ ((mirror cfg).command cmd).Unpriced := by
  intro hu
  obtain ⟨ht, hr, he⟩ := hu
  exact h ⟨ht, hr, ((mirror_fits cfg).price_none_iff hc).mp he⟩

theorem mirrored_of_simulates {e e' : Engine OrderBook} {a : FlatEngine} (h : Simulates e a)
    (h' : Simulates e' ((mirror cfg).engine a)) (hp : a.Priced)
    (hp' : ((mirror cfg).engine a).Priced) (hl : ∀ o ∈ a.orders, Mirrorable cfg o.price) : Mirrored cfg e e' := by
  have hfits := mirror_fits cfg
  have hvars : e'.untimed = (mirror cfg).vars e.untimed := by
    rw [h'.refines.vars, h.refines.vars]
    rfl
  have hrested : ∀ s, ∀ o ∈ a.side s, o.price ≠ kNoPrice ∧ Mirrorable cfg o.price := fun s o ho =>
    have hmem := Flat.mem_orders.mpr ⟨s, ho⟩
    ⟨(hp o hmem).1, hl o hmem⟩
  obtain ⟨T, hr⟩ := h.refines.rep
  obtain ⟨T', hr'⟩ := h'.refines.rep
  have hreal : ∀ s, Real e.cfg.minPrice (a.side s) := fun s => by rw [h.refines.cfg]; exact hp.real s
  have hreal' : ∀ s, Real e'.cfg.minPrice (((mirror cfg).engine a).side s) := fun s => by
    rw [h'.refines.cfg]
    exact hp'.real s
  have hside : ∀ s, ((mirror cfg).engine a).side s = (a.side (opposite s)).map (mirror cfg).order := fun s => rfl
  constructor
  · exact congrArg EngineVars.out hvars
  · intro s
    rw [h'.refines.queued, h.refines.queued]
    rfl
  · intro s
    rw [hr'.bestPrice, hr.bestPrice]
    have htop := hfits.top_eq (f := a.toFlat) (opposite s)
    rw [mirror_side, opposite_opposite] at htop
    exact htop
  · intro s n
    rw [hr'.snapshot (hreal' s), hr.snapshot (hreal (opposite s)), hside, hfits.rows_eq (hrested _), List.map_take]
    rfl
  · intro side limit hlim
    rw [hr'.marketableQty (hreal' _), hr.marketableQty (hreal _), hside, opposite_opposite]
    have hcrossed := hfits.crossed_eq (s := side) hlim (hrested (opposite side))
    exact congrArg UInt64.ofNat hcrossed
  · have hsize : e'.restingOrders = e.restingOrders := hr'.size.trans hr.size.symm
    refine ⟨?_, ?_, ?_, ?_, hsize⟩
    · exact (congrArg EngineVars.seq hvars : e'.untimed.seq = _)
    · exact (congrArg EngineVars.arrival hvars : e'.untimed.arrival = _)
    · exact (congrArg EngineVars.stats hvars : e'.untimed.stats = _)
    · exact (congrArg EngineVars.halted hvars : e'.untimed.halted = _)

/-- Mirrored commands drive the engine to the mirrored state, event by event. -/
theorem sides_symmetric {e0 : Engine OrderBook} (h0 : Engine.init cfg = some e0) {is : List Engine.Input}
    (his : ∀ i ∈ is, i.Obeys fun cmd => ¬ cmd.Unpriced ∧ Mirrorable cfg cmd.price) :
    ∃ e e' : Engine OrderBook, Engine.run cfg is = some e ∧ Engine.run cfg (is.map (mirror cfg).input) = some e' ∧
      Mirrored cfg e e' := by
  have hpriced : ∀ i ∈ is, i.Obeys fun cmd => ¬ cmd.Unpriced := fun i hi => (his i hi).imp fun cmd hc => hc.1
  have hpriced' : ∀ i ∈ is.map (mirror cfg).input, i.Obeys fun cmd => ¬ cmd.Unpriced := by
    intro j hj
    obtain ⟨i, hi, rfl⟩ := List.mem_map.mp hj
    have hc := his i hi
    cases i with
    | setHalted b => trivial
    | command now cmd => exact unpriced_mirror hc.2 hc.1
  have hgiven : ∀ i ∈ is, i.Obeys fun cmd => Mirrorable cfg cmd.price ∧ (cmd.Unpriced → kNoPrice ≠ kNoPrice ∧
      Mirrorable cfg kNoPrice) := fun i hi => (his i hi).imp fun cmd hc => ⟨hc.2, fun hu => absurd hu hc.1⟩
  obtain ⟨e, he, hs, hp⟩ := run_flat h0 hpriced
  obtain ⟨e', he', hs', hp'⟩ := run_flat h0 hpriced'
  obtain ⟨hrun, _, hl⟩ := (mirror_fits cfg).run_eq hgiven
  rw [hrun] at hs' hp'
  exact ⟨e, e', he, he', mirrored_of_simulates hs hs' hp hp' fun o ho => (hl.orders o ho).2⟩

theorem sides_symmetric_traded : ∃ (e0 e e' : Engine OrderBook),
    Engine.init { minPrice := 1, maxPrice := 500, maxOrders := 4 } = some e0 ∧
    Engine.run { minPrice := 1, maxPrice := 500, maxOrders := 4 } [.command 1 (.makeNew 1 7 .buy .limit 100 5 0),
      .command 2 (.makeNew 2 8 .sell .ioc kNoPrice 3 0)] = some e ∧
    Engine.run { minPrice := 1, maxPrice := 500, maxOrders := 4 } [.command 1 (.makeNew 1 7 .sell .limit 401 5 0),
      .command 2 (.makeNew 2 8 .buy .ioc kNoPrice 3 0)] = some e' ∧
    Mirrored { minPrice := 1, maxPrice := 500, maxOrders := 4 } e e' := by
  obtain ⟨e0, h0⟩ := @init_defined OrderBook _ { minPrice := 1, maxPrice := 500, maxOrders := 4 } _ rfl
  obtain ⟨e, e', he, he', hm⟩ := @sides_symmetric { minPrice := 1, maxPrice := 500, maxOrders := 4 } e0 h0
    [.command 1 (.makeNew 1 7 .buy .limit 100 5 0), .command 2 (.makeNew 2 8 .sell .ioc kNoPrice 3 0)] (by decide)
  exact ⟨e0, e, e', h0, he, he', hm⟩

end Lob
