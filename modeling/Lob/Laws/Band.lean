/-
  Lob.Laws.Band — what is handed to the book is in band, unless it has no price.

  The band check is skipped for what `handle_new` takes for a market order; what may rest
  is decided from the order type. They differ on a Limit or PostOnly New at `kNoPrice`:
  when something is left of it, it is handed to the book at `kNoPrice`
  (`Engine.Strands` says exactly when).
-/

import Lob.Book.OrderBookProofs
import Lob.Engine.Deals
import Lob.Engine.Runs

namespace Lob

/-! ## What is handed to the book -/

namespace Engine

variable {B : Type} [Book B]

/-- The order `process` passes to `book_.add`, if it gets there. -/
def handed (e : Engine B) (now : TsNanos) (cmd : Command) : Option OrderInfo :=
  let e := e.withVars (e.start now cmd)
  match cmd.type with
  | .new => if e.halted then none else (e.submit cmd).bind fun r => r.2.map (·.2)
  | .cancel => none
  | .modify => (e.amend cmd).bind fun r => r.2.bind fun repl => (r.1.submit repl).bind fun r => r.2.map (·.2)

/-- An unpriced order that passes the other checks, outlasts every order that faces it, is not
    stopped for trading with itself, and finds a free slot. -/
def Strands [LawfulBook B] (e : Engine B) (cmd : Command) : Prop :=
  cmd.Unpriced ∧ e.halted = false ∧ cmd.quantity ≠ 0 ∧ e.find cmd.id = some none ∧
  (cmd.ordType = .postOnly → e.queued (opposite cmd.side) = []) ∧
  tradable e.cfg.stp cmd.client (fun _ => true) (e.queued (opposite cmd.side)) < cmd.quantity.toNat ∧
  ¬ (e.cfg.stp = .cancelAggressor ∧ ∃ o ∈ e.queued (opposite cmd.side), o.client = cmd.client) ∧
  (e.queued cmd.side).length < e.cfg.maxOrders

end Engine

namespace FlatEngine

def handed (a : FlatEngine) (fillable : Bool) (cmd : Command) : Option OrderInfo :=
  match cmd.type with
  | .new => if a.halted then none else a.lands fillable cmd
  | .cancel => none
  | .modify =>
    match a.find cmd.id with
    | none => none
    | some o =>
      if cmd.quantity = 0 ∨ keepsPlace cmd o then none
      else (a.withFlat (a.drop o)).lands fillable (replacement cmd o)

variable {a : FlatEngine} {cmd : Command} {fillable : Bool}

/-- With real prices only an unpriced New is handed over out of band. -/
theorem handed_in_band (hp : a.Priced) (hc : ¬ cmd.Unpriced) {o : OrderInfo} (h : a.handed fillable cmd = some o) :
    a.inBand o.price := by
  unfold handed at h
  cases ht : cmd.type with
  | new =>
    simp only [ht] at h
    split at h
    · cases h
    · have hl := lands_iff.mp h
      rw [hl.price_eq]
      exact hl.in_band fun e => hc ⟨ht, hl.kind, e⟩
  | cancel => simp [ht] at h
  | modify =>
    simp only [ht] at h
    cases hf : a.find cmd.id with
    | none => simp [hf] at h
    | some old =>
      simp only [hf] at h
      split at h
      · cases h
      · have hl := lands_iff.mp h
        rw [hl.price_eq]
        exact hl.in_band (newPrice_ne cmd (hp old (Flat.find_some hf).2.1).1)

/-! ## An unpriced order -/

theorem reaches_unpriced (hc : cmd.Unpriced) (n : Sequence) : reaches (incomingOrder cmd n) = fun _ => true := by
  funext o
  have hlim : limitOf cmd = kNoPrice := by
    unfold limitOf
    split
    · rfl
    · exact hc.2.2
  unfold reaches crosses incomingOrder
  simp only [hlim, if_true, Bool.or_true]

/-- An unpriced order comes to rest exactly when it strands. -/
theorem lands_unpriced (hc : cmd.Unpriced) : (∃ o, a.lands fillable cmd = some o) ↔
    cmd.quantity ≠ 0 ∧ a.find cmd.id = none ∧ (cmd.ordType = .postOnly → a.side (opposite cmd.side) = []) ∧
    tradable a.cfg.stp cmd.client (fun _ => true) (a.side (opposite cmd.side)) < cmd.quantity.toNat ∧
    ¬ (a.cfg.stp = .cancelAggressor ∧ ∃ o ∈ a.side (opposite cmd.side), o.client = cmd.client) ∧
    (a.side cmd.side).length < a.cfg.maxOrders := by
  have hmarket : isMarket cmd = true := decide_eq_true (Or.inr hc.2.2)
  have hfok : cmd.ordType ≠ .fok := by
    intro e
    have := hc.2.1
    rw [e] at this
    exact absurd this (by decide)
  have hcross : a.wouldCross cmd = false ↔ a.side (opposite cmd.side) = [] := by
    unfold wouldCross
    cases a.side (opposite cmd.side) with
    | nil => simp
    | cons o L =>
      have hlim : limitOf cmd = kNoPrice := by unfold limitOf; rw [if_pos hmarket]
      simp [crosses, hlim]
  have hpasses : a.refusal fillable cmd = none ↔
      cmd.quantity ≠ 0 ∧ a.find cmd.id = none ∧ (cmd.ordType = .postOnly → a.side (opposite cmd.side) = []) := by
    rw [refusal_none]
    constructor
    · intro h; exact ⟨h.quantity, h.fresh, fun ht => hcross.mp (h.postOnly ht)⟩
    · intro ⟨h1, h2, h3⟩
      exact ⟨h1, fun e => (by rw [hmarket] at e; cases e), h2, fun ht => hcross.mpr (h3 ht), fun ht => absurd ht hfok⟩
  have htake : (a.side (opposite cmd.side)).takeWhile (fun _ => true) = a.side (opposite cmd.side) :=
    List.takeWhile_eq_self_iff.mpr fun _ _ => rfl
  have hdrop : (a.side (opposite cmd.side)).dropWhile (fun _ => true) = [] := List.dropWhile_eq_nil_iff.mpr fun _ _ => rfl
  rw [lands_some_iff, reaches_unpriced hc, htake, hdrop, hpasses]
  simp only [hc.2.1, true_and, List.length_nil, Nat.add_zero, and_assoc]

theorem lands_unpriced_price (hc : cmd.Unpriced) {o : OrderInfo} (h : a.lands fillable cmd = some o) :
    o.price = kNoPrice := by
  rw [(lands_iff.mp h).price_eq]
  exact hc.2.2

end FlatEngine

/-! ## The engine hands over what the flat engine lets rest -/

variable {B : Type} [Book B] [LawfulBook B] {e : Engine B} {a : FlatEngine} {cmd : Command}

theorem Simulates.handed_eq (h : Simulates e a) (now : TsNanos) (cmd : Command) :
    e.handed now cmd = (a.withVars (a.start 0 cmd)).handed (e.fillable cmd) cmd := by
  have hs := h.start now cmd
  have hhalt := h.refines.halted_eq
  unfold Engine.handed FlatEngine.handed
  simp only
  cases ht : cmd.type with
  | new =>
    simp only
    rw [show (e.withVars (e.start now cmd)).halted = (a.withVars (a.start 0 cmd)).halted from hhalt]
    split
    · rfl
    · obtain ⟨e1, r, hsub, hr, _⟩ := submit_spec hs.refines cmd
      rw [hsub]
      exact hr
  | cancel => rfl
  | modify =>
    obtain ⟨e1, r, hamend, hr⟩ := amend_spec hs cmd
    simp only [hamend, Option.bind_some]
    cases hr with
    | done still refines =>
      cases hf : (a.withVars (a.start 0 cmd)).find cmd.id with
      | none => rfl
      | some o =>
        simp only [Option.bind_none]
        rw [if_pos (still o hf)]
    | @again o found sized requeue refines =>
      obtain ⟨e2, r, hsub, hr, _⟩ := submit_spec refines (FlatEngine.replacement cmd o)
      have hfok : (FlatEngine.replacement cmd o).ordType ≠ .fok := by
        intro e
        have hkind := hs.inv.kinds o (Flat.find_some found).2.1
        rw [show o.type = .fok from e] at hkind
        exact absurd hkind (by decide)
      simp only [Option.bind_some, hsub]
      rw [found]
      simp only [sized, requeue, or_self, if_false]
      rw [hr]
      unfold FlatEngine.lands
      rw [refusal_irrelevant hfok (e1.fillable (FlatEngine.replacement cmd o)) (e.fillable cmd)]

theorem Simulates.strands_iff (h : Simulates e a) (cmd : Command) : e.Strands cmd ↔
    cmd.Unpriced ∧ a.halted = false ∧ ∃ o, (a.withVars (a.start 0 cmd)).lands (e.fillable cmd) cmd = some o := by
  have hhalt := h.refines.halted_eq
  have hfind : e.find cmd.id = some none ↔ a.find cmd.id = none := by
    obtain ⟨r, hr, hflat⟩ := h.refines.find_eq cmd.id
    rw [hr, hflat]
    cases r <;> simp
  unfold Engine.Strands
  rw [hhalt, hfind, h.refines.queued, h.refines.queued, h.refines.cfg]
  refine and_congr_right fun hc => and_congr_right fun _ => ?_
  exact (FlatEngine.lands_unpriced (a := a.withVars (a.start 0 cmd)) hc).symm

/-- In a state with real prices a command hands over an order out of band exactly when it
    strands. -/
theorem Simulates.in_band_iff (h : Simulates e a) (hp : a.Priced) (hlo : kNoPrice < a.cfg.minPrice) (now : TsNanos)
    (cmd : Command) : (∀ o, e.handed now cmd = some o → a.inBand o.price) ↔ ¬ e.Strands cmd := by
  rw [h.handed_eq now cmd, h.strands_iff]
  constructor
  · intro hband ⟨hc, hh, o, ho⟩
    have hin := hband o (by
      unfold FlatEngine.handed
      simp only [hc.1, show (a.withVars (a.start 0 cmd)).halted = false from hh]
      exact ho)
    rw [FlatEngine.lands_unpriced_price hc ho] at hin
    exact absurd hin.1 (Int.not_le.mpr hlo)
  · intro hnot o ho
    have hp' : (a.withVars (a.start 0 cmd)).Priced := hp
    by_cases hc : cmd.Unpriced
    · unfold FlatEngine.handed at ho
      simp only [hc.1] at ho
      split at ho
      · cases ho
      · rename_i hh
        exact absurd ⟨hc, Bool.not_eq_true _ ▸ hh, o, ho⟩ hnot
    · exact FlatEngine.handed_in_band hp' hc ho

/-! ## Runs -/

theorem Simulates.safe (h : Simulates e a) (hnot : ¬ e.Strands cmd) :
    FlatEngine.Safe (a.withVars (a.start 0 cmd)) (e.fillable cmd) cmd := by
  intro hc hh
  by_contra hl
  obtain ⟨o, ho⟩ := Option.ne_none_iff_exists'.mp hl
  exact hnot (h.strands_iff cmd |>.mpr ⟨hc, hh, o, ho⟩)

/-- Where no command strands a run is defined, and keeps real prices. -/
theorem meets_priced {cfg : EngineConfig} {e0 : Engine B} (h0 : Engine.init cfg = some e0) {is : List Engine.Input}
    (hm : e0.Meets (fun e cmd => ¬ e.Strands cmd) is) :
    ∃ e a, e0.steps is = some e ∧ Simulates e a ∧ a.Priced ∧ a.cfg = cfg := by
  refine meets_induction (P := fun a => a.Priced ∧ a.cfg = cfg) ?_ (fun a b h => h) is e0 _ (init_simulates h0)
    ⟨FlatEngine.Priced.init _ _, rfl⟩ hm
  intro e a now cmd h ⟨hp, hcfg⟩ hnot
  have hp' : (a.withVars (a.start 0 cmd)).Priced := hp
  refine ⟨fun he => hp'.no_stray (h.safe hnot) ((process_refines h now cmd).1 he), hp.process _ (h.safe hnot), ?_⟩
  exact (a.step_cfg (fun _ => e.fillable cmd) (.command now cmd)).trans hcfg

/-- The dense book is built exactly for a band no wider than 2^63 - 1. In a run of it none of
    whose commands strands, nothing is undefined, every resting price is in band, and has a
    slot of the array; and in each state reached a command hands over only orders in band
    exactly when it does not strand. -/
theorem resting_in_band {cfg : EngineConfig} (hlo : kNoPrice < cfg.minPrice) (hband : cfg.minPrice ≤ cfg.maxPrice) :
    ((Engine.init cfg : Option (Engine OrderBook)).isSome ↔ cfg.maxPrice - cfg.minPrice ≤ kMaxPrice) ∧
    ∀ (e0 : Engine OrderBook) (is : List Engine.Input), Engine.init cfg = some e0 →
      e0.Meets (fun e cmd => ¬ e.Strands cmd) is → ∃ e, e0.steps is = some e ∧
        (∀ s, ∀ o ∈ e.queued s, cfg.minPrice ≤ o.price ∧ o.price ≤ cfg.maxPrice) ∧
        (∀ p, cfg.minPrice ≤ p → p ≤ cfg.maxPrice → e.book.slot p = some (p - cfg.minPrice).toNat ∧
          (p - cfg.minPrice).toNat < e.book.span) ∧
        ∀ now cmd, (∀ o, e.handed now cmd = some o → cfg.minPrice ≤ o.price ∧ o.price ≤ cfg.maxPrice) ↔
          ¬ e.Strands cmd := by
  constructor
  · unfold Engine.init
    show (Option.bind (OrderBook.make cfg.minPrice cfg.maxPrice) _).isSome ↔ _
    unfold OrderBook.make
    by_cases hw : cfg.maxPrice - cfg.minPrice ≤ kMaxPrice
    · rw [if_pos ⟨hband, hw⟩]
      exact ⟨fun _ => hw, fun _ => rfl⟩
    · rw [if_neg fun h => hw h.2]
      exact ⟨fun h => (by cases h), fun h => absurd h hw⟩
  · intro e0 is h0 hm
    obtain ⟨e, a, he, hs, hp, hcfg⟩ := meets_priced h0 hm
    obtain ⟨T, hrep⟩ := hs.refines.rep
    have hmin : e.book.minPrice = cfg.minPrice := by rw [← hcfg, ← hs.refines.cfg]; exact hrep.low
    have hmax : e.book.maxPrice = cfg.maxPrice := by rw [← hcfg, ← hs.refines.cfg]; exact hrep.high
    refine ⟨e, he, fun s o ho => ?_, fun p h1 h2 => ?_, fun now cmd => ?_⟩
    · rw [hs.refines.queued] at ho
      rw [← hcfg]
      exact (hp o (Flat.mem_orders.mpr ⟨s, ho⟩)).2
    · cases hslot : e.book.slot p with
      | none =>
        have := OrderBook.slot_none hrep.book hslot
        unfold OrderBook.inBand at this
        rw [hmin, hmax] at this
        exact absurd ⟨h1, h2⟩ (of_decide_eq_false this)
      | some i =>
        obtain ⟨hi, hpi⟩ := (OrderBook.slot_eq_some hrep.book).mp hslot
        have e : i = (p - cfg.minPrice).toNat := by
          rw [hpi, hmin]
          omega
        rw [e] at hi
        exact ⟨congrArg some e, hi⟩
    · have := hs.in_band_iff hp (by rw [hcfg]; exact hlo) now cmd
      rw [← hcfg]
      exact this

/-- A Limit New at `kNoPrice` on an empty book: handed over out of band, and no slot for it. -/
theorem unpriced_limit_strands : ¬ ∀ (e : Engine OrderBook) (o : OrderInfo),
    Engine.init { minPrice := 1, maxPrice := 500, maxOrders := 4 } = some e →
    e.handed 0 (.makeNew 1 7 .buy .limit kNoPrice 5 0) = some o →
    (1 ≤ o.price ∧ o.price ≤ 500) ∧ (e.book.slot o.price).isSome = true := by
  intro h
  have key : (do
      let e ← Engine.init (B := OrderBook) { minPrice := 1, maxPrice := 500, maxOrders := 4 }
      let o ← e.handed 0 (.makeNew 1 7 .buy .limit kNoPrice 5 0)
      some (o.price, e.book.slot o.price)) = some (kNoPrice, none) := by decide +kernel
  obtain ⟨e, he, key⟩ := Option.bind_eq_some_iff.mp key
  obtain ⟨o, ho, key⟩ := Option.bind_eq_some_iff.mp key
  simp only [Option.some.injEq, Prod.mk.injEq] at key
  have hband := (h e o he ho).1.1
  rw [key.1] at hband
  exact absurd hband (by decide)

/-- A partial match leaves orders resting, and an unpriced order filled by them strands nothing. -/
theorem resting_in_band_matched : ∃ e0 : Engine OrderBook,
    Engine.init { minPrice := 1, maxPrice := 500, maxOrders := 4 } = some e0 ∧
    ∃ e, e0.steps [.command 0 (.makeNew 1 7 .buy .limit 100 5 0), .command 0 (.makeNew 2 8 .sell .limit 100 8 0),
        .command 0 (.makeNew 3 9 .buy .limit kNoPrice 2 0), .command 0 (.makeNew 4 9 .buy .limit 99 6 0)] = some e ∧
      (e.queued .buy).map (fun o => (o.price, o.remaining)) = [(99, 6)] ∧
      (e.queued .sell).map (fun o => (o.price, o.remaining)) = [(100, 1)] ∧
      (∀ s, ∀ o ∈ e.queued s, 1 ≤ o.price ∧ o.price ≤ 500) ∧
      (∀ p, 1 ≤ p → p ≤ 500 → e.book.slot p = some (p - 1).toNat ∧ (p - 1).toNat < e.book.span) ∧
      ∀ now cmd, (∀ o, e.handed now cmd = some o → 1 ≤ o.price ∧ o.price ≤ 500) ↔ ¬ e.Strands cmd := by
  have key : (do
      let e0 ← Engine.init (B := OrderBook) { minPrice := 1, maxPrice := 500, maxOrders := 4 }
      let e1 ← e0.process 0 (.makeNew 1 7 .buy .limit 100 5 0)
      let e2 ← e1.process 0 (.makeNew 2 8 .sell .limit 100 8 0)
      let e3 ← e2.process 0 (.makeNew 3 9 .buy .limit kNoPrice 2 0)
      let e ← e3.process 0 (.makeNew 4 9 .buy .limit 99 6 0)
      some (decide (¬ tradable e2.cfg.stp 9 (fun _ => true) (e2.queued .sell) < 2 ∧
        (e.queued .buy).map (fun o => (o.price, o.remaining)) = [(99, 6)] ∧
        (e.queued .sell).map (fun o => (o.price, o.remaining)) = [(100, 1)]))) = some true := by decide +kernel
  obtain ⟨e0, h0, key⟩ := Option.bind_eq_some_iff.mp key
  obtain ⟨e1, h1, key⟩ := Option.bind_eq_some_iff.mp key
  obtain ⟨e2, h2, key⟩ := Option.bind_eq_some_iff.mp key
  obtain ⟨e3, h3, key⟩ := Option.bind_eq_some_iff.mp key
  obtain ⟨e4, h4, key⟩ := Option.bind_eq_some_iff.mp key
  obtain ⟨hfilled, hbuy, hsell⟩ := of_decide_eq_true (Option.some.inj key)
  have hpriced : ∀ (e : Engine OrderBook) cmd, cmd.price ≠ kNoPrice → ¬ e.Strands cmd := fun _ _ hp h => hp h.1.2.2
  obtain ⟨e, he, hband⟩ := (resting_in_band (by decide) (by decide)).2 e0
    [.command 0 (.makeNew 1 7 .buy .limit 100 5 0), .command 0 (.makeNew 2 8 .sell .limit 100 8 0),
      .command 0 (.makeNew 3 9 .buy .limit kNoPrice 2 0), .command 0 (.makeNew 4 9 .buy .limit 99 6 0)] h0 <| by
    refine ⟨hpriced _ _ (by decide), fun e1' h1' => ⟨hpriced _ _ (by decide), fun e2' h2' => ⟨fun h => ?_, fun _ _ =>
      ⟨hpriced _ _ (by decide), fun _ _ => trivial⟩⟩⟩⟩
    obtain rfl := Option.some.inj (h1.symm.trans h1')
    obtain rfl := Option.some.inj (h2.symm.trans h2')
    exact hfilled h.2.2.2.2.2.1
  have hsteps : e0.steps [.command 0 (.makeNew 1 7 .buy .limit 100 5 0), .command 0 (.makeNew 2 8 .sell .limit 100 8 0),
      .command 0 (.makeNew 3 9 .buy .limit kNoPrice 2 0), .command 0 (.makeNew 4 9 .buy .limit 99 6 0)] = some e4 := by
    simp only [Engine.steps, Engine.step, h1, h2, h3, h4, Option.bind_eq_bind, Option.bind_some]
  obtain rfl := Option.some.inj (hsteps.symm.trans he)
  exact ⟨e0, h0, e4, he, hbuy, hsell, hband⟩

end Lob
