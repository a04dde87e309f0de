/-
  Lob.Laws.Address — a resting order is addressable by its id, when the id is not 0.

  Nothing between the socket and the index keeps out id 0, the key of the index's empty
  slots: an order that rests with it is in the book and in the pool, but no command finds
  it, and `index_.size()` counts an entry that is not there. In a run in which no order
  comes to rest with it (`Engine.RestsNameless`) each resting order is found by its id
  (`Flat.Inv.find_mem`).
-/

import Lob.Book.OrderBookProofs
import Lob.Engine.Named
import Lob.Engine.Refusals

namespace Lob

section

variable {B : Type} [Book B] [LawfulBook B]

/-- A New with id 0 passes the checks and comes to rest. -/
def Engine.RestsNameless (e : Engine B) (cmd : Command) : Prop :=
  cmd.Nameless ∧ e.halted = false ∧ e.refusal cmd = some none ∧ rests cmd.ordType = true ∧
  tradable e.cfg.stp cmd.client (reaches (incomingOrder cmd 0)) (e.queued (opposite cmd.side)) < cmd.quantity.toNat ∧
  ¬ (e.cfg.stp = .cancelAggressor ∧
    ∃ o ∈ (e.queued (opposite cmd.side)).takeWhile (reaches (incomingOrder cmd 0)), o.client = cmd.client) ∧
  (e.queued cmd.side).length + ((e.queued (opposite cmd.side)).dropWhile (reaches (incomingOrder cmd 0))).length <
    e.cfg.maxOrders

/-- A command took exactly this order off, and reported it canceled. -/
structure TookOff (e e' : Engine B) (o : OrderInfo) : Prop where
  canceled : ∃ ev ∈ e'.out, ev.type = .canceled ∧ ev.orderId = o.id ∧ ev.quantity = o.remaining
  left : ∀ s, e'.queued s = (e.queued s).erase o

/-- The commands that carry the id of a resting order act on it, and on no other. -/
structure Addressable (e : Engine B) (o : OrderInfo) : Prop where
  /-- The duplicate check is the last that can fail. -/
  new : ∀ now cmd, cmd.type = .new → cmd.id = o.id → ∃ e', e.process now cmd = some e' ∧ e'.toStore = e.toStore ∧
    ∃ ev ∈ e'.out, ev.type = .rejected ∧ (e.halted = false → cmd.quantity ≠ 0 →
      isMarket cmd = true ∨ Book.inBand e.book cmd.price = true → ev.reason = .duplicateOrderId)
  cancel : ∀ now cmd, cmd.type = .cancel → cmd.id = o.id → ∃ e', e.process now cmd = some e' ∧ TookOff e e' o
  /-- A cancel, a size-down in place, or a New in place of the order. -/
  modify : ∀ now cmd, cmd.type = .modify → cmd.id = o.id → ∃ e', e.process now cmd = some e' ∧
    (cmd.quantity = 0 → TookOff e e' o) ∧
    (cmd.quantity ≠ 0 → FlatEngine.keepsPlace cmd o →
      ∀ s, e'.queued s = (e.queued s).replace o { o with remaining := cmd.quantity }) ∧
    (cmd.quantity ≠ 0 → ¬ FlatEngine.keepsPlace cmd o → ∃ st e1,
      (∀ s, (e.withStore st).queued s = (e.queued s).erase o) ∧
      ((e.withVars (e.start now cmd)).withStore st).handleNew (FlatEngine.replacement cmd o) = some e1 ∧
      e' = e1.finish cmd)

end

variable {B : Type} [Book B] [LawfulBook B] {e e' : Engine B} {a : FlatEngine} {cmd : Command} {now : TsNanos}

theorem Simulates.nameless_iff (h : Simulates e a) (cmd : Command) : e.RestsNameless cmd ↔
    cmd.Nameless ∧ a.halted = false ∧ ∃ o, (a.withVars (a.start 0 cmd)).lands (e.fillable cmd) cmd = some o := by
  have hhalt := h.refines.halted_eq
  unfold Engine.RestsNameless
  rw [FlatEngine.lands_some_iff, hhalt, h.refines.refusal_eq, h.refines.queued, h.refines.queued, h.refines.cfg,
    Option.some_inj]
  exact Iff.rfl

/-- The slot of a resting order. -/
theorem Simulates.find_mem (h : Simulates e a) {o : OrderInfo} (ho : o ∈ a.orders) (h0 : o.id ≠ 0) :
    a.find o.id = some o ∧ ∃ p, e.find o.id = some (some p) ∧ (e.order p).toOrderInfo = o := by
  have hf : a.find o.id = some o := h.inv.find_mem ho h0
  obtain ⟨r, hr, hflat⟩ := h.refines.find_eq o.id
  rw [hf] at hflat
  obtain ⟨p, rfl, hp⟩ := Option.map_eq_some_iff.mp hflat.symm
  exact ⟨hf, p, hr, hp⟩

/-- With real prices a command is processed. -/
theorem Simulates.processed (h : Simulates e a) (hp : a.Priced)
    (hs : FlatEngine.Safe (a.withVars (a.start 0 cmd)) (e.fillable cmd) cmd) (now : TsNanos) :
    ∃ e', e.process now cmd = some e' ∧ Simulates e' (a.process (e.fillable cmd) cmd) := by
  cases he : e.process now cmd with
  | none =>
    have hp' : (a.withVars (a.start 0 cmd)).Priced := hp
    exact absurd ((process_refines h now cmd).1 he) (hp'.no_stray hs)
  | some e' => exact ⟨e', rfl, (process_refines h now cmd).2 e' he⟩

/-- Where the flat engine reports and takes off an order, so does the engine. -/
theorem Simulates.tookOff (h : Simulates e a) {o : OrderInfo}
    (hd : (a.withVars (a.start 0 cmd)).dispatch (e.fillable cmd) cmd =
      ((a.withVars (a.start 0 cmd)).withVars ((a.start 0 cmd).emitCanceled o cmd.tsRecv)).withFlat (a.drop o))
    (hs' : Simulates e' (a.process (e.fillable cmd) cmd)) : TookOff e e' o := by
  have hem : (a.start 0 cmd).Emits ((a.withVars (a.start 0 cmd)).dispatch (e.fillable cmd) cmd).toEngineVars
      [.cancel o cmd.tsRecv] := by
    rw [hd]
    exact emits_newEvent _ (.cancel o cmd.tsRecv)
  obtain ⟨tail, hout, _⟩ := FlatEngine.process_out a _ cmd hem
  constructor
  · have hmem : Event.cancel o cmd.tsRecv ∈ e'.out.map Event.unnumbered := by
      rw [out_unnumbered hs'.refines.vars, hout]
      exact List.mem_append_left _ (List.mem_singleton.mpr rfl)
    obtain ⟨ev, hev, e1⟩ := List.mem_map.mp hmem
    exact ⟨ev, hev, congrArg Event.type e1, congrArg Event.orderId e1, congrArg Event.quantity e1⟩
  · intro s
    obtain ⟨e1, _⟩ := FlatEngine.process_eq a (e.fillable cmd) cmd
    rw [hs'.refines.queued, h.refines.queued, e1, hd]
    exact h.inv.drop_side o s

/-- A New with the id of a resting order is refused, by the duplicate check or an earlier one. -/
theorem FlatEngine.duplicate_refusal {o : OrderInfo} (hf : a.find cmd.id = some o) (fillable : Bool) :
    ∃ r, a.refusal fillable cmd = some r ∧
      (cmd.quantity ≠ 0 → isMarket cmd = true ∨ a.inBand cmd.price → r = .duplicateOrderId) := by
  unfold FlatEngine.refusal
  rw [hf]
  by_cases h1 : cmd.quantity = 0
  · exact ⟨_, if_pos h1, fun h => absurd h1 h⟩
  rw [if_neg h1]
  by_cases h2 : isMarket cmd = false ∧ ¬ a.inBand cmd.price
  · refine ⟨_, if_pos h2, fun _ hb => ?_⟩
    simp [h2] at hb
  · rw [if_neg h2, if_pos (by simp)]
    exact ⟨_, rfl, fun _ _ => rfl⟩

theorem Simulates.new_refused (h : Simulates e a) (hw : e.pool.inUse ≤ e.pool.highWater) {o : OrderInfo}
    (hf : a.find cmd.id = some o) (now : TsNanos) (ht : cmd.type = .new) :
    ∃ e', e.process now cmd = some e' ∧ e'.toStore = e.toStore ∧
      ∃ ev ∈ e'.out, ev.type = .rejected ∧ (e.halted = false → cmd.quantity ≠ 0 →
        isMarket cmd = true ∨ Book.inBand e.book cmd.price = true → ev.reason = .duplicateOrderId) := by
  cases hh : a.halted with
  | true =>
    obtain ⟨e', he', hst, ⟨ev, hev, hr⟩, _⟩ := h.process_refused hw now (r := .bookHalted) (Or.inl ⟨ht, hh, rfl⟩)
    refine ⟨e', he', hst, ev, hev, congrArg Event.type hr, fun hlive => ?_⟩
    rw [h.refines.halted_eq, hh] at hlive
    cases hlive
  | false =>
    obtain ⟨r, hr, hwhy⟩ := FlatEngine.duplicate_refusal hf (e.fillable cmd)
    obtain ⟨e', he', hst, ⟨ev, hev, hrej⟩, _⟩ := h.process_refused hw now (Or.inr (Or.inl ⟨ht, hh, hr⟩))
    refine ⟨e', he', hst, ev, hev, congrArg Event.type hrej, fun _ hq hb => ?_⟩
    rw [h.refines.inBand_eq, decide_eq_true_eq] at hb
    rw [← hwhy hq hb]
    exact congrArg Event.reason hrej

/-- A Modify that gives up its order's place is the replacement sent in after the order left. -/
theorem Simulates.requeues (h : Simulates e a) {o : OrderInfo} {p : Ptr} (hf : a.find cmd.id = some o)
    (hfind : e.find cmd.id = some (some p)) (hinfo : (e.order p).toOrderInfo = o) (ht : cmd.type = .modify)
    (hq : cmd.quantity ≠ 0) (hk : ¬ FlatEngine.keepsPlace cmd o) (he' : e.process now cmd = some e') :
    ∃ st e1, (∀ s, (e.withStore st).queued s = (e.queued s).erase o) ∧
      ((e.withVars (e.start now cmd)).withStore st).handleNew (FlatEngine.replacement cmd o) = some e1 ∧
      e' = e1.finish cmd := by
  have hfind' : (e.withVars (e.start now cmd)).find cmd.id = some (some p) := hfind
  obtain ⟨hoe, st, hst, href⟩ := (h.start now cmd).drop hfind' hf
  have hst' : (e.withVars (e.start now cmd)).toStore.drop p cmd.id = some st := hst
  have hamend : (e.withVars (e.start now cmd)).amend cmd =
      some ((e.withVars (e.start now cmd)).withStore st, some (FlatEngine.replacement cmd o)) := by
    unfold Engine.amend
    rw [hfind', Option.bind_eq_bind, Option.bind_some]
    simp only [if_neg hq]
    rw [show ((e.withVars (e.start now cmd)).order p).toOrderInfo = o from hinfo,
      if_neg (show ¬ (newPrice cmd o.price = o.price ∧ cmd.quantity < o.remaining) from hk), hst']
    rfl
  have hmod : (e.withVars (e.start now cmd)).dispatch cmd =
      ((e.withVars (e.start now cmd)).withStore st).handleNew (FlatEngine.replacement cmd o) := by
    unfold Engine.dispatch
    simp only [ht]
    unfold Engine.handleModify
    rw [hamend]
    rfl
  unfold Engine.process at he'
  obtain ⟨e1, h1, h2⟩ := Option.bind_eq_some_iff.mp he'
  cases h2
  refine ⟨st, e1, fun s => ?_, hmod ▸ h1, rfl⟩
  rw [show (e.withStore st).queued s = ((e.withVars (e.start now cmd)).withStore st).queued s from rfl,
    href.queued, h.refines.queued]
  exact h.inv.drop_side o s

theorem Simulates.addressable (h : Simulates e a) (hp : a.Priced) (hw : e.pool.inUse ≤ e.pool.highWater) {o : OrderInfo}
    (ho : o ∈ a.orders) (h0 : o.id ≠ 0) : Addressable e o := by
  obtain ⟨hf, p, hfind, hinfo⟩ := h.find_mem ho h0
  have hsafe : ∀ cmd : Command, cmd.type ≠ .new → FlatEngine.Safe (a.withVars (a.start 0 cmd)) (e.fillable cmd) cmd :=
    fun cmd ht hu => absurd hu.1 ht
  constructor
  · intro now cmd ht hid
    exact h.new_refused hw (hid ▸ hf) now ht
  · intro now cmd ht hid
    obtain ⟨e', he', hs'⟩ := h.processed hp (hsafe cmd (by rw [ht]; decide)) now
    refine ⟨e', he', h.tookOff ?_ hs'⟩
    unfold FlatEngine.dispatch FlatEngine.handleCancel
    simp only [ht]
    rw [show (a.withVars (a.start 0 cmd)).find cmd.id = some o from hid ▸ hf]
    rfl
  · intro now cmd ht hid
    have hf' : (a.withVars (a.start 0 cmd)).find cmd.id = some o := hid ▸ hf
    obtain ⟨e', he', hs'⟩ := h.processed hp (hsafe cmd (by rw [ht]; decide)) now
    have hd : (a.withVars (a.start 0 cmd)).dispatch (e.fillable cmd) cmd =
        (a.withVars (a.start 0 cmd)).handleModify (e.fillable cmd) cmd := by
      unfold FlatEngine.dispatch
      rw [ht]
    refine ⟨e', he', fun hq => ?_, fun hq hk s => ?_, fun hq hk => ?_⟩
    · refine h.tookOff ?_ hs'
      rw [hd]
      unfold FlatEngine.handleModify
      rw [hf']
      simp only [hq, if_true]
      unfold FlatEngine.handleCancel
      rw [show (a.withVars (a.start 0 cmd)).find (Command.makeCancel cmd.id cmd.client cmd.tsRecv).id = some o from hf']
      rfl
    · obtain ⟨e1, _⟩ := FlatEngine.process_eq a (e.fillable cmd) cmd
      rw [hs'.refines.queued, h.refines.queued, e1, hd, FlatEngine.handleModify_keep hf' hq hk]
      exact h.inv.swap_side o _ s
    · exact h.requeues (hid ▸ hf) (hid ▸ hfind) hinfo ht hq hk he'

/-! ## Runs -/

/-- In a run without unpriced orders in which no order comes to rest with id 0, each resting
    order is addressable by its id, and the index counts what rests. -/
theorem resting_addressable {cfg : EngineConfig} {e0 : Engine B} {is : List Engine.Input} (h0 : Engine.init cfg = some e0)
    (his : ∀ i ∈ is, i.Obeys fun cmd => ¬ cmd.Unpriced) (hm : e0.Meets (fun e cmd => ¬ e.RestsNameless cmd) is) :
    ∃ e, e0.steps is = some e ∧ e.restingOrders = Book.totalCount e.book ∧
      ∀ s, ∀ o ∈ e.queued s, Addressable e o := by
  obtain ⟨e, a, he, h, hn, hp⟩ := meets_induction (P := fun a => a.Named ∧ a.Priced)
    (fun e a now cmd h ⟨hn, hp⟩ ⟨hc, hu⟩ => by
      obtain ⟨e', he', _⟩ := h.processed hp (FlatEngine.safe_of_priced hu) now
      rw [h.nameless_iff] at hc
      exact ⟨by rw [he']; exact nofun, FlatEngine.named_process h.inv hn hc, hp.process _ (FlatEngine.safe_of_priced hu)⟩)
    (fun a b h => h) is e0 _ (init_simulates h0) ⟨⟨fun o ho => (by cases ho), rfl⟩, FlatEngine.Priced.init _ _⟩
    (hm.obeying his)
  have hw := run_highWater (Option.bind_eq_some_iff.mpr ⟨e0, h0, he⟩ : Engine.run cfg is = some e)
  refine ⟨e, he, ?_, fun s o ho => ?_⟩
  · obtain ⟨T, hrep⟩ := h.refines.rep
    unfold Book.totalCount
    rw [hrep.counts, hrep.counts, ← List.length_append]
    refine hrep.size.trans (hn.size.trans ?_)
    rw [hrep.orders]
    exact List.length_map ..
  · rw [h.refines.queued] at ho
    have ho := Flat.mem_orders.mpr ⟨s, ho⟩
    exact h.addressable hp hw ho (hn.ids o ho)

/-- A buy with id 0 rests, and is not found: a Cancel with its id leaves it there. -/
theorem nameless_order_stays : ¬ ∀ (e e' : Engine OrderBook),
    Engine.run { minPrice := 1, maxPrice := 500, maxOrders := 4 } [.command 0 (.makeNew 0 7 .buy .limit 100 5 0)] = some e →
    e.process 0 (.makeCancel 0 7 0) = some e' → ∀ o ∈ e.queued .buy, e'.queued .buy = (e.queued .buy).erase o := by
  intro h
  have key : (do
      let e ← Engine.run (B := OrderBook) { minPrice := 1, maxPrice := 500, maxOrders := 4 }
        [.command 0 (.makeNew 0 7 .buy .limit 100 5 0)]
      let e' ← e.process 0 (.makeCancel 0 7 0)
      some ((e.queued .buy).length, (e'.queued .buy).length)) = some (1, 1) := by decide +kernel
  obtain ⟨e, he, key⟩ := Option.bind_eq_some_iff.mp key
  obtain ⟨e', he', key⟩ := Option.bind_eq_some_iff.mp key
  simp only [Option.some.injEq, Prod.mk.injEq] at key
  obtain ⟨o, L, hL⟩ := List.exists_cons_of_length_pos (by rw [key.1]; exact Nat.one_pos)
  have hlen := congrArg List.length (h e e' he he' o (by rw [hL]; exact List.mem_cons_self ..))
  rw [List.length_erase_of_mem (by rw [hL]; exact List.mem_cons_self ..), key.1, key.2] at hlen
  cases hlen

theorem resting_addressable_one : ∃ e0 : Engine OrderBook,
    Engine.init { minPrice := 1, maxPrice := 500, maxOrders := 4 } = some e0 ∧
    ∃ e, e0.steps [.command 0 (.makeNew 1 7 .buy .limit 100 5 0)] = some e ∧
      e.restingOrders = Book.totalCount e.book ∧ ∀ s, ∀ o ∈ e.queued s, Addressable e o := by
  obtain ⟨e0, h0⟩ := @init_defined OrderBook _ { minPrice := 1, maxPrice := 500, maxOrders := 4 } _ rfl
  refine ⟨e0, h0, resting_addressable h0 ?_ ⟨fun h => ?_, fun _ _ => trivial⟩⟩
  · decide
  · exact absurd h.1.2 (by decide)

end Lob
