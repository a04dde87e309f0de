/-
  Lob.Laws.Fok — fill-or-kill is all or nothing, when the sizing agrees with the matcher.

  `marketable_qty` adds up whole levels, whoever owns the orders in them; `match` skips or
  stops at the client's own (`tradable`). The order is filled or killed as a whole exactly
  when both reach its quantity or neither does.
-/

import Lob.Book.OrderBookProofs
import Lob.Engine.Refusals

namespace Lob

section

variable {B : Type} [Book B]

/-- Killed with nothing changed, where `match` would not have filled it; or filled in full. -/
def AllOrNone (e e' : Engine B) (cmd : Command) : Prop :=
  ((∃ ev ∈ e'.out, ev.type = .rejected ∧ ev.reason = .fokUnfillable) ∧
    (∀ ev ∈ e'.out, ev.type ≠ .fill ∧ ev.type ≠ .trade ∧ ev.type ≠ .canceled) ∧ e'.toStore = e.toStore ∧
    ∃ s, e.matchOrder (incomingOrder cmd (e.arrival + 1)) cmd.client = some s ∧ s.filled < cmd.quantity) ∨
  ((∃ ev ∈ e'.out, ev.type = .accepted) ∧ aggressorFilled e'.out = cmd.quantity.toNat ∧
    ∀ ev ∈ e'.out, ev.type = .canceled → ¬ (ev.orderId = cmd.id ∧ ev.side = cmd.side))

end

/-! ## An accepted fill-or-kill order -/

namespace FlatEngine

variable {a : FlatEngine} {cmd : Command}

/-- What self-trade prevention lets an order trade with, of the orders within its limit. -/
theorem reaches_fok (h : cmd.ordType = .fok) (n : Sequence) :
    reaches (incomingOrder cmd n) = fun o => crosses cmd.side (limitOf cmd) o.price := by
  funext o
  unfold reaches incomingOrder
  simp only [h, reduceCtorEq, decide_false, Bool.false_or]

/-- An order that can trade its whole quantity is filled, and not stopped on the way. -/
theorem accepted_filled (h : cmd.quantity.toNat ≤ tradable a.cfg.stp cmd.client (reaches (incomingOrder cmd (a.arrival + 1)))
    (a.side (opposite cmd.side))) :
    a.handleAccepted cmd = a.afterMatch cmd ∧ taken (a.dealings cmd) = cmd.quantity.toNat ∧ ∀ i c, .stopped i c ∉ a.dealings cmd := by
  have h0 : (a.matching cmd).inc.remaining = 0 := by
    by_contra hne
    exact absurd ((open_iff _ _ (a.accepted cmd) _ 0 _).mp hne).1 (Nat.not_lt.mpr h)
  refine ⟨by unfold handleAccepted; simp only [h0, if_true], ?_, fun i c hd => ?_⟩
  · exact (taken_eq ..).trans (Nat.min_eq_left h)
  · exact absurd ((stopped_iff _ _ _ _).mp ⟨i, c, hd⟩).2.1 (Nat.not_lt.mpr h)

/-- A fill-or-kill order that passes the checks before the sizing is refused for its size only. -/
theorem fok_refusal (hf : cmd.ordType = .fok) (h0 : cmd.quantity ≠ 0) (hb : ¬ (isMarket cmd = false ∧ ¬ a.inBand cmd.price))
    (hfind : a.find cmd.id = none) (fillable : Bool) :
    a.refusal fillable cmd = if fillable = false then some .fokUnfillable else none := by
  unfold FlatEngine.refusal
  rw [if_neg h0, if_neg hb, if_neg (by rw [hfind]; simp), if_neg (by rw [hf]; simp)]
  simp [hf]

/-- What a deal cancels beside the order stands on the other side. -/
theorem deal_canceled (hi : a.Inv) (hs : ∀ i c, .stopped i c ∉ a.dealings cmd) {ev : Event}
    (hev : ev ∈ (a.dealings cmd).flatMap Deal.events) (ht : ev.type = .canceled) : ev.side = opposite cmd.side := by
  obtain ⟨d, hd, hev⟩ := List.mem_flatMap.mp hev
  cases d with
  | traded i o q =>
    simp only [Deal.events, List.mem_cons, List.not_mem_nil, or_false] at hev
    rcases hev with rfl | rfl | rfl <;> cases ht
  | pulled i o =>
    rw [List.mem_singleton.mp hev]
    exact hi.onSide _ o (pulled_mem hd)
  | stopped i c => exact absurd hd (hs i c)

end FlatEngine

variable {B : Type} [Book B] [LawfulBook B] {e e' : Engine B} {a : FlatEngine} {cmd : Command} {now : TsNanos}

/-- What `match` of an order fills. -/
theorem Simulates.match_filled (h : Simulates e a) (inc : OrderInfo) (client : ClientId) :
    ∃ s, e.matchOrder inc client = some s ∧ s.filled.toNat =
      min inc.remaining.toNat (tradable e.cfg.stp client (reaches inc) (a.side (opposite inc.side))) := by
  obtain ⟨T, hrep⟩ := h.refines.rep
  obtain ⟨s, T', f', hm, _, _, hr, _⟩ := matchOrder_spec (e := e) hrep inc client
  refine ⟨s, hm, ?_⟩
  have hf : s.filled = 0 + UInt64.ofNat (taken (deals e.cfg.stp client inc (a.side (opposite inc.side)))) := by
    rw [← filled_eq e.cfg.stp client e.untimed inc 0, hr]
  rw [hf, taken_eq, UInt64.zero_add, UInt64.toNat_ofNat']
  have := inc.remaining.toNat_lt
  omega

/-- A killed order is killed as a whole when `match` would not have filled it. -/
theorem Simulates.killed_iff (hs : Simulates e a) (hw : e.pool.inUse ≤ e.pool.highWater) (ht : cmd.type = .new)
    (hhalt : a.halted = false) (hr : a.refusal (e.fillable cmd) cmd = some .fokUnfillable)
    (hp : e.process now cmd = some e') {s : Engine.Matching B}
    (hm : e.matchOrder (incomingOrder cmd (e.arrival + 1)) cmd.client = some s) :
    AllOrNone e e' cmd ↔ s.filled < cmd.quantity := by
  obtain ⟨e1, hp1, hstore, hrej, hev⟩ := hs.process_refused hw now (Or.inr (Or.inl ⟨ht, hhalt, hr⟩))
  obtain rfl : e1 = e' := Option.some.inj (hp1.symm.trans hp)
  constructor
  · intro h
    rcases h with ⟨_, _, _, s', hm', hlt⟩ | ⟨⟨ev, hevm, hty⟩, _⟩
    · rw [hm] at hm'
      cases hm'
      exact hlt
    · rcases hev ev hevm with h | h
      · have : ev.type = .rejected := congrArg Event.type h
        rw [hty] at this; cases this
      · rw [hty] at h; cases h
  · intro h
    refine Or.inl ⟨?_, fun ev hevm => ?_, hstore, s, hm, h⟩
    · obtain ⟨ev, hevm, h⟩ := hrej
      exact ⟨ev, hevm, congrArg Event.type h, congrArg Event.reason h⟩
    · rcases hev ev hevm with h | h
      · have : ev.type = .rejected := congrArg Event.type h
        rw [this]; exact ⟨nofun, nofun, nofun⟩
      · rw [h]; exact ⟨nofun, nofun, nofun⟩

/-- What an accepted order's aggressor is filled by. -/
theorem Simulates.accepted_filled (hs : Simulates e' (a.process fillable cmd)) {rest : List Event}
    (hadm : (a.start 0 cmd).Emits ((a.withVars (a.start 0 cmd)).dispatch fillable cmd).toEngineVars
      ((.accept cmd (limitOf cmd) :: ((a.withVars (a.start 0 cmd)).dealings cmd).flatMap Deal.events) ++ rest))
    (hrest : ∀ ev ∈ rest, ev.type ≠ .fill) : aggressorFilled e'.out = taken ((a.withVars (a.start 0 cmd)).dealings cmd) := by
  obtain ⟨tail, hout, htail⟩ := FlatEngine.process_out a fillable cmd hadm
  rw [← aggressorFilled_unnumbered, (out_unnumbered hs.refines.vars).trans hout, aggressorFilled_append, aggressorFilled_append,
    aggressorFilled_none hrest,
    show aggressorFilled tail = 0 from aggressorFilled_none fun ev hev => by rw [htail ev hev]; decide]
  exact aggressorFilled_deals _

/-- An accepted order is filled in full exactly when it can trade its whole quantity. -/
theorem Simulates.accepted_iff (hs : Simulates e a) (ht : cmd.type = .new) (hhalt : a.halted = false)
    (hr : (a.withVars (a.start 0 cmd)).refusal (e.fillable cmd) cmd = none) (hp : e.process now cmd = some e') :
    AllOrNone e e' cmd ↔ cmd.quantity.toNat ≤ tradable a.cfg.stp cmd.client
      (reaches (incomingOrder cmd ((a.start 0 cmd).arrival + 1))) (a.side (opposite cmd.side)) := by
  let b := a.withVars (a.start 0 cmd)
  have hs1 := hs.start now cmd
  have hs' := (process_refines hs now cmd).2 e' hp
  have hd : b.dispatch (e.fillable cmd) cmd = b.handleAccepted cmd := by
    unfold FlatEngine.dispatch FlatEngine.handleNew
    simp only [ht, show b.refusal (e.fillable cmd) cmd = none from hr, show b.halted = false from hhalt,
      Bool.false_eq_true, if_false]
  obtain ⟨rest, hadm, hrest⟩ := FlatEngine.accepted_events b cmd
  have hadm' := hadm
  rw [← hd] at hadm'
  obtain ⟨tail, hout, htail⟩ := FlatEngine.process_out a _ cmd hadm'
  have hout' := (out_unnumbered hs'.refines.vars).trans hout
  have hsum := hs'.accepted_filled hadm' fun ev hev => by
    obtain ⟨_, rfl⟩ := hrest ev hev
    exact EventType.noConfusion
  have htaken : taken (b.dealings cmd) = min cmd.quantity.toNat (tradable a.cfg.stp cmd.client
      (reaches (incomingOrder cmd ((a.start 0 cmd).arrival + 1))) (a.side (opposite cmd.side))) := taken_eq ..
  constructor
  · intro h
    rcases h with ⟨⟨ev, hevm, hty, _⟩, _⟩ | ⟨_, hq, _⟩
    · obtain ⟨ev', hev', hty'⟩ := (mem_unnumbered hs'.refines.vars hout .rejected).mp ⟨ev, hevm, hty⟩
      rcases List.mem_append.mp hev' with h | h
      · exact absurd hty' (FlatEngine.accepted_no_reject hadm ev' h)
      · rw [htail ev' h] at hty'; cases hty'
    · rw [hsum, htaken] at hq
      omega
  · intro hN
    obtain ⟨hfull, htk, hstop⟩ := FlatEngine.accepted_filled (a := b) hN
    rw [hfull] at hadm
    have hnil : rest = [] := by
      have := List.append_cancel_left (hadm.symm.trans (FlatEngine.emits_match b cmd))
      simpa using this
    rw [hnil, List.append_nil] at hout'
    refine Or.inr ⟨?_, hsum.trans htk, fun ev hevm hty ⟨_, hside⟩ => ?_⟩
    · have : Event.accept cmd (limitOf cmd) ∈ e'.out.map Event.unnumbered := by rw [hout']; simp
      obtain ⟨ev, hevm, h⟩ := List.mem_map.mp this
      exact ⟨ev, hevm, congrArg Event.type h⟩
    · have hmem : ev.unnumbered ∈ e'.out.map Event.unnumbered := List.mem_map_of_mem hevm
      rw [hout'] at hmem
      rcases List.mem_append.mp hmem with h | h
      · rcases List.mem_cons.mp h with h | h
        · have : ev.type = .accepted := congrArg Event.type h
          rw [hty] at this; cases this
        · have := FlatEngine.deal_canceled hs1.inv hstop h hty
          exact ne_opposite cmd.side (hside.symm.trans this)
      · have hb : ev.type = .bookChanged := htail ev.unnumbered h
        rw [hty] at hb; cases hb

/-- For every reachable state that is not halted, and every Fok New that passes the checks
    before the sizing: it is all or nothing exactly when the size of the levels within its
    limit, as the book has it, reaches its quantity if and only if what self-trade
    prevention lets trade does. With real prices that size is the open size of the orders
    within the limit, modulo 2^64. -/
theorem fok_all_or_none_iff {cfg : EngineConfig} {is : List Engine.Input} (he : Engine.run cfg is = some e)
    (hh : e.halted = false) (ht : cmd.type = .new) (hf : cmd.ordType = .fok) (h0 : cmd.quantity ≠ 0)
    (hband : isMarket cmd = true ∨ Book.inBand e.book cmd.price = true) (hdup : e.find cmd.id = some none)
    (hp : e.process now cmd = some e') :
    (AllOrNone e e' cmd ↔ (cmd.quantity ≤ Book.marketableQty e.book cmd.side (limitOf cmd) ↔
      cmd.quantity.toNat ≤ tradable e.cfg.stp cmd.client (fun o => crosses cmd.side (limitOf cmd) o.price)
        (e.queued (opposite cmd.side)))) ∧
    (Real cfg.minPrice (e.queued (opposite cmd.side)) → Book.marketableQty e.book cmd.side (limitOf cmd) =
      UInt64.ofNat (Flat.openSize ((e.queued (opposite cmd.side)).takeWhile fun o => crosses cmd.side (limitOf cmd) o.price))) := by
  obtain ⟨a, hs, hcfg⟩ := run_simulates he
  have hhalt : a.halted = false := hs.refines.halted_eq.symm.trans hh
  constructor
  swap
  · intro hr
    obtain ⟨T, hrep⟩ := hs.refines.rep
    rw [hs.refines.queued] at hr ⊢
    exact hrep.marketableQty (by rw [hs.refines.cfg, hcfg]; exact hr) _
  -- the checks before the sizing are passed
  have hfind : a.find cmd.id = none := by
    obtain ⟨r, hr, hflat⟩ := hs.refines.find_eq cmd.id
    rw [hdup] at hr
    cases hr
    exact hflat
  have hb : ¬ (isMarket cmd = false ∧ ¬ a.inBand cmd.price) := by
    intro ⟨h1, h2⟩
    rcases hband with h | h
    · rw [h] at h1; cases h1
    · rw [hs.refines.inBand_eq] at h
      exact h2 (of_decide_eq_true h)
  have hqueued : e.queued (opposite cmd.side) = a.side (opposite cmd.side) := hs.refines.queued _
  have hstp : e.cfg.stp = a.cfg.stp := by rw [hs.refines.cfg]
  have hsized : e.fillable cmd = true ↔ cmd.quantity ≤ Book.marketableQty e.book cmd.side (limitOf cmd) := decide_eq_true_iff
  rw [hqueued, hstp, ← hsized]
  cases hfl : e.fillable cmd with
  | false =>
    obtain ⟨s, hm, hfilled⟩ := hs.match_filled (incomingOrder cmd (e.arrival + 1)) cmd.client
    rw [FlatEngine.reaches_fok hf, hstp] at hfilled
    have hfilled : s.filled.toNat = min cmd.quantity.toNat (tradable a.cfg.stp cmd.client
      (fun o => crosses cmd.side (limitOf cmd) o.price) (a.side (opposite cmd.side))) := hfilled
    have hr : a.refusal (e.fillable cmd) cmd = some .fokUnfillable := by
      rw [FlatEngine.fok_refusal hf h0 hb hfind, hfl]
      rfl
    rw [hs.killed_iff (run_highWater he) ht hhalt hr hp hm, UInt64.lt_iff_toNat_lt]
    simp only [Bool.false_eq_true, false_iff]
    omega
  | true =>
    have hr : (a.withVars (a.start 0 cmd)).refusal (e.fillable cmd) cmd = none := by
      rw [FlatEngine.fok_refusal (a := a.withVars (a.start 0 cmd)) hf h0 hb hfind, hfl]
      rfl
    rw [hs.accepted_iff ht hhalt hr hp, FlatEngine.reaches_fok hf]
    exact ⟨fun h => iff_of_true rfl h, fun h => h.mp rfl⟩

/-- An offer of the client's own is all there is: it is counted, and the Fok buy accepted, but
    self-trade prevention stops it. -/
theorem fok_stopped_by_own_order : ¬ ∀ (e e' : Engine OrderBook),
    Engine.run { minPrice := 1, maxPrice := 500, maxOrders := 4, stp := .cancelAggressor }
      [.command 0 (.makeNew 1 7 .sell .limit 100 5 0)] = some e →
    e.process 0 (.makeNew 2 7 .buy .fok 100 5 0) = some e' → AllOrNone e e' (.makeNew 2 7 .buy .fok 100 5 0) := by
  intro h
  have key : (do
      let e ← Engine.run (B := OrderBook) { minPrice := 1, maxPrice := 500, maxOrders := 4, stp := .cancelAggressor }
        [.command 0 (.makeNew 1 7 .sell .limit 100 5 0)]
      let e' ← e.process 0 (.makeNew 2 7 .buy .fok 100 5 0)
      some (e'.out.all fun ev => ev.type ≠ .rejected, aggressorFilled e'.out)) = some (true, 0) := by decide +kernel
  obtain ⟨e, he, key⟩ := Option.bind_eq_some_iff.mp key
  obtain ⟨e', he', key⟩ := Option.bind_eq_some_iff.mp key
  simp only [Option.some.injEq, Prod.mk.injEq, List.all_eq_true, decide_eq_true_eq] at key
  rcases h e e' he he' with ⟨⟨ev, hev, ht, _⟩, _⟩ | ⟨_, hq, _⟩
  · exact key.1 ev hev ht
  · rw [key.2] at hq
    exact absurd hq (by decide)

theorem fok_all_or_none_iff_filled : ∃ (e e' : Engine OrderBook) (cmd : Command), cmd = .makeNew 2 8 .buy .fok 100 5 0 ∧
    Engine.run { minPrice := 1, maxPrice := 500, maxOrders := 4 } [.command 0 (.makeNew 1 7 .sell .limit 100 5 0)] = some e ∧
    e.process 0 cmd = some e' ∧
    (AllOrNone e e' cmd ↔ (cmd.quantity ≤ Book.marketableQty e.book cmd.side (limitOf cmd) ↔
      cmd.quantity.toNat ≤ tradable e.cfg.stp cmd.client (fun o => crosses cmd.side (limitOf cmd) o.price)
        (e.queued (opposite cmd.side)))) := by
  have key : (do
      let e ← Engine.run (B := OrderBook) { minPrice := 1, maxPrice := 500, maxOrders := 4 }
        [.command 0 (.makeNew 1 7 .sell .limit 100 5 0)]
      let e' ← e.process 0 (.makeNew 2 8 .buy .fok 100 5 0)
      some (e.halted, Book.inBand e.book 100, e.find 2, e'.halted)) = some (false, true, some none, false) := by
    decide +kernel
  obtain ⟨e, he, key⟩ := Option.bind_eq_some_iff.mp key
  obtain ⟨e', he', key⟩ := Option.bind_eq_some_iff.mp key
  simp only [Option.some.injEq, Prod.mk.injEq] at key
  obtain ⟨hh, hband, hdup, _⟩ := key
  refine ⟨e, e', .makeNew 2 8 .buy .fok 100 5 0, rfl, he, he', ?_⟩
  refine (fok_all_or_none_iff he hh rfl rfl ?_ (Or.inr ?_) ?_ he').1
  · decide
  · exact hband
  · exact hdup

end Lob
