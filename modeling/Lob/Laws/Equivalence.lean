/-
  Lob.Laws.Equivalence — the three books drive the engine alike.

  Each of the three runs is the one flat run of its inputs (`run_flat`), which knows
  neither the book nor the clock; `Agree` is what can be read off two engines that refine
  one flat engine.
-/

import Lob.Book.MapOrderBook
import Lob.Book.OrderBookProofs
import Lob.Book.SortedVectorOrderBook
import Lob.Engine.Runs

namespace Lob

/-- Two engines cannot be told apart, the clock readings in their events aside. -/
structure Agree {B C : Type} [Book B] [Book C] (e : Engine B) (e' : Engine C) : Prop where
  out : e.out.map Event.untimed = e'.out.map Event.untimed
  stats : e.stats = e'.stats
  bestBid : Book.bestBid e.book = Book.bestBid e'.book
  bestAsk : Book.bestAsk e.book = Book.bestAsk e'.book
  spread : Book.spread e.book = Book.spread e'.book
  orderCount : ∀ s, Book.orderCount e.book s = Book.orderCount e'.book s
  restingOrders : e.restingOrders = e'.restingOrders
  marketableQty : ∀ side limit, Book.marketableQty e.book side limit = Book.marketableQty e'.book side limit
  snapshot : ∀ s n, Book.snapshot e.book s n = Book.snapshot e'.book s n

variable {B C : Type} [Book B] [LawfulBook B] [Book C] [LawfulBook C] {a : FlatEngine} {cfg : EngineConfig}

theorem Simulates.agree {e : Engine B} {e' : Engine C} (h : Simulates e a) (h' : Simulates e' a) (hp : a.Priced) :
    Agree e e' := by
  obtain ⟨T, hr⟩ := h.refines.rep
  obtain ⟨T', hr'⟩ := h'.refines.rep
  have hvars : e.untimed = e'.untimed := h.refines.vars.trans h'.refines.vars.symm
  have hprice : ∀ s, Book.bestPrice e.book s = Book.bestPrice e'.book s := fun s => by
    rw [hr.bestPrice, hr'.bestPrice]
  have hreal : ∀ s, Real e.cfg.minPrice (a.side s) := fun s => by rw [h.refines.cfg]; exact hp.real s
  have hreal' : ∀ s, Real e'.cfg.minPrice (a.side s) := fun s => by rw [h'.refines.cfg]; exact hp.real s
  constructor
  · exact congrArg EngineVars.out hvars
  · exact (congrArg EngineVars.stats hvars : e.untimed.stats = _)
  · exact hprice .buy
  · exact hprice .sell
  · unfold Book.spread Book.bestBid Book.bestAsk
    rw [hprice, hprice]
  · intro s
    have h1 := congrArg List.length (hr.flat s)
    have h2 := congrArg List.length (hr'.flat s)
    unfold infos at h1 h2
    rw [List.length_map] at h1 h2
    rw [hr.counts, hr'.counts, ← h1, ← h2]
  · exact hr.size.trans hr'.size.symm
  · intro side limit
    rw [hr.marketableQty (hreal _), hr'.marketableQty (hreal' _)]
  · intro s n
    rw [hr.snapshot (hreal s), hr'.snapshot (hreal' s)]

/-! ## Runs -/

def Engine.Input.untimed : Engine.Input → Engine.Input
  | .command _ cmd => .command 0 cmd
  | .setHalted h => .setHalted h

theorem FlatEngine.steps_untimed : ∀ (is : List Engine.Input) (a : FlatEngine),
    a.steps (is.map Engine.Input.untimed) = a.steps is := by
  intro is
  induction is with
  | nil => intro a; rfl
  | cons i is ih =>
    intro a
    show (a.step a.fillable i.untimed).steps (is.map Engine.Input.untimed) = (a.step a.fillable i).steps is
    have e : a.step a.fillable i.untimed = a.step a.fillable i := by cases i <;> rfl
    rw [e, ih]

theorem FlatEngine.run_congr {is is' : List Engine.Input}
    (h : is.map Engine.Input.untimed = is'.map Engine.Input.untimed) : FlatEngine.run cfg is = FlatEngine.run cfg is' := by
  unfold FlatEngine.run
  rw [← steps_untimed is, h, steps_untimed]

theorem obeys_untimed {p : Command → Prop} {is is' : List Engine.Input}
    (h : is.map Engine.Input.untimed = is'.map Engine.Input.untimed) (his : ∀ i ∈ is, i.Obeys p) : ∀ i ∈ is', i.Obeys p := by
  have key : ∀ i : Engine.Input, i.untimed.Obeys p ↔ i.Obeys p := fun i => by cases i <;> rfl
  intro i hi
  have hmem : i.untimed ∈ is.map Engine.Input.untimed := by rw [h]; exact List.mem_map_of_mem hi
  obtain ⟨j, hj, e⟩ := List.mem_map.mp hmem
  rw [← key, ← e, key]
  exact his j hj

/-- Any two books under one configuration, driven with the same inputs at any clock
    readings. -/
theorem runs_agree {e0 : Engine B} {e0' : Engine C} (h0 : Engine.init cfg = some e0) (h0' : Engine.init cfg = some e0')
    {is is' : List Engine.Input} (h : is.map Engine.Input.untimed = is'.map Engine.Input.untimed)
    (his : ∀ i ∈ is, i.Obeys fun cmd => ¬ cmd.Unpriced) : ∃ (e : Engine B) (e' : Engine C),
      Engine.run cfg is = some e ∧ Engine.run cfg is' = some e' ∧ Agree e e' := by
  obtain ⟨e, he, hs, hp⟩ := run_flat h0 his
  obtain ⟨e', he', hs', _⟩ := run_flat h0' (obeys_untimed h his)
  rw [← FlatEngine.run_congr h] at hs'
  exact ⟨e, e', he, he', hs.agree hs' hp⟩

/-- The dense book, the ordered map and the sorted vector, under any configuration the dense
    book can be built for (its constructor asserts `min_price <= max_price`, and computes
    their difference in 64 bits), and any commands of which no Limit or PostOnly New
    carries `kNoPrice`: the runs are defined, and agree. -/
theorem books_agree {d0 : Engine OrderBook} (h0 : Engine.init cfg = some d0) {is im iv : List Engine.Input}
    (hm : is.map Engine.Input.untimed = im.map Engine.Input.untimed)
    (hv : is.map Engine.Input.untimed = iv.map Engine.Input.untimed)
    (his : ∀ i ∈ is, i.Obeys fun cmd => ¬ cmd.Unpriced) :
    ∃ (d : Engine OrderBook) (m : Engine MapOrderBook) (v : Engine SortedVectorOrderBook),
      Engine.run cfg is = some d ∧ Engine.run cfg im = some m ∧ Engine.run cfg iv = some v ∧ Agree d m ∧ Agree d v := by
  obtain ⟨d, m, hd, hm, hdm⟩ := runs_agree (C := MapOrderBook) h0 rfl hm his
  obtain ⟨d', v, hd', hv, hdv⟩ := runs_agree (C := SortedVectorOrderBook) h0 rfl hv his
  obtain rfl : d = d' := Option.some.inj (hd.symm.trans hd')
  exact ⟨d, m, v, hd, hm, hv, hdm, hdv⟩

theorem books_agree_traded :
    ∃ (d : Engine OrderBook) (m : Engine MapOrderBook) (v : Engine SortedVectorOrderBook),
      Engine.run { minPrice := 1, maxPrice := 500 } [.command 1 (.makeNew 1 7 .buy .limit 100 5 0),
        .command 2 (.makeNew 2 8 .sell .ioc kNoPrice 3 0)] = some d ∧
      Engine.run { minPrice := 1, maxPrice := 500 } [.command 3 (.makeNew 1 7 .buy .limit 100 5 0),
        .command 4 (.makeNew 2 8 .sell .ioc kNoPrice 3 0)] = some m ∧
      Engine.run { minPrice := 1, maxPrice := 500 } [.command 5 (.makeNew 1 7 .buy .limit 100 5 0),
        .command 6 (.makeNew 2 8 .sell .ioc kNoPrice 3 0)] = some v ∧ Agree d m ∧ Agree d v :=
  @books_agree { minPrice := 1, maxPrice := 500 } _ rfl _ _ _ rfl rfl (by decide)

end Lob
