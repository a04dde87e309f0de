/-
  Lob.Laws.Erasure — matching sees no clock and, without self-trade prevention, no names.

  `blind` erases the stamps of commands and orders, and the clients as told. Two runs whose
  inputs look alike under it end in engines that look alike (`Alike`), whatever the clock
  read: the sizing of a Fill-or-Kill order, which is all that a match asks of the dense
  book, sees prices and sizes only (`SizedByLevels`).
-/

import Lob.Book.Walks
import Lob.Engine.Relabel

namespace Lob

/-! ## Erasing -/

def blind (client : ClientId → ClientId) : Relabel := { flip := false, price := id, client := client, stamp := fun _ => 0 }

/-- Every field but the stamps. -/
def timeless : Relabel := blind id

/-- Every field but the stamps and the clients. -/
def nameless : Relabel := blind fun _ => 0

/-- Two inputs of which the labels seen, and all that is no label, are the same. The clock is
    not seen. -/
def Relabel.Inputs (r : Relabel) : Engine.Input → Engine.Input → Prop
  | .command _ cmd, .command _ cmd' => r.command cmd = r.command cmd'
  | .setHalted b, .setHalted b' => b = b'
  | _, _ => False

/-- Two engines that look the same: the events of the last command, and the book. -/
structure Alike {B : Type} [Book B] [LawfulBook B] (r : Relabel) (e e' : Engine B) : Prop where
  out : (e.out.map Event.untimed).map r.event = (e'.out.map Event.untimed).map r.event
  queued : ∀ s, (e.queued s).map r.order = (e'.queued s).map r.order
  levels : ∀ s, (LawfulBook.levels e.book s).map depthEntry = (LawfulBook.levels e'.book s).map depthEntry
  counters : e.seq = e'.seq ∧ e.arrival = e'.arrival ∧ e.stats = e'.stats ∧ e.halted = e'.halted ∧
    e.lastBid = e'.lastBid ∧ e.lastAsk = e'.lastAsk ∧ e.restingOrders = e'.restingOrders

variable {client : ClientId → ClientId} {cfg : EngineConfig}

/-- What the sizing asks of a command is seen. -/
theorem blind_command {cmd cmd' : Command} (h : (blind client).command cmd = (blind client).command cmd') :
    cmd.side = cmd'.side ∧ cmd.quantity = cmd'.quantity ∧ limitOf cmd = limitOf cmd' := by
  unfold Relabel.command at h
  obtain ⟨_, _, _, hside, htype, hprice, hquantity, _⟩ := Command.mk.inj h
  have hprice : cmd.price = cmd'.price := hprice
  refine ⟨hside, hquantity, ?_⟩
  unfold limitOf isMarket
  rw [hprice, htype]

theorem blind_fits (hc : cfg.stp = .none ∨ Function.Injective client) (h0 : client 0 = 0) :
    (blind client).Fits cfg (fun _ => True) fun _ => True where
  sentinel := ⟨trivial, rfl⟩
  wider _ _ := trivial
  real _ _ _ := trivial
  inj _ _ _ _ e := e
  prefers _ _ _ _ _ := Iff.rfl
  band _ _ _ := Iff.rfl
  client := hc
  anonymous := h0

/-! ## Two engines that look alike -/

theorem labelled_true (a : FlatEngine) : a.Labelled (fun _ => True) fun _ => True :=
  ⟨fun _ _ => trivial, trivial, trivial⟩

variable {B : Type} [Book B] [LawfulBook B] {e e' : Engine B} {a a' : FlatEngine}

theorem blind_rows {f : Flat} {cfg : EngineConfig} (hf : (blind client).Fits cfg (fun _ => True) fun _ => True) (s : Side) :
    Flat.rows (((blind client).flat f).side s) = Flat.rows (f.side s) := by
  have hrows := hf.rows_eq (L := f.side s) fun _ _ => trivial
  have hid : (Flat.rows (f.side s)).map (fun d => { d with price := (blind client).price d.price }) = Flat.rows (f.side s) :=
    List.map_id _
  rw [hid] at hrows
  exact hrows

theorem levels_alike (h : Simulates e a) (h' : Simulates e' a') (hc : a.cfg.stp = .none ∨ Function.Injective client)
    (h0 : client 0 = 0) (heq : (blind client).engine a = (blind client).engine a') (s : Side) :
    (LawfulBook.levels e.book s).map depthEntry = (LawfulBook.levels e'.book s).map depthEntry := by
  obtain ⟨T, hr⟩ := h.refines.rep
  obtain ⟨T', hr'⟩ := h'.refines.rep
  have hf := blind_fits hc h0
  have hflat : (blind client).flat a.toFlat = (blind client).flat a'.toFlat := congrArg FlatEngine.toFlat heq
  rw [hr.rows, hr'.rows, ← blind_rows hf, ← blind_rows (f := a'.toFlat) hf, hflat]

theorem alike_of_simulates (h : Simulates e a) (h' : Simulates e' a') (hc : a.cfg.stp = .none ∨ Function.Injective client)
    (h0 : client 0 = 0) (heq : (blind client).engine a = (blind client).engine a') : Alike (blind client) e e' := by
  obtain ⟨T, hr⟩ := h.refines.rep
  obtain ⟨T', hr'⟩ := h'.refines.rep
  have hvars : (blind client).vars e.untimed = (blind client).vars e'.untimed := by
    rw [h.refines.vars, h'.refines.vars]
    exact congrArg FlatEngine.toEngineVars heq
  have hflat : (blind client).flat a.toFlat = (blind client).flat a'.toFlat := congrArg FlatEngine.toFlat heq
  refine ⟨congrArg EngineVars.out hvars, fun s => ?_, levels_alike h h' hc h0 heq, ?_, ?_, ?_, ?_, ?_, ?_, ?_⟩
  · rw [h.refines.queued, h'.refines.queued]
    exact congrArg (fun f : Flat => f.side s) hflat
  · have hseen := congrArg EngineVars.seq hvars
    exact hseen
  · have hseen := congrArg EngineVars.arrival hvars
    exact hseen
  · have hseen := congrArg EngineVars.stats hvars
    exact hseen
  · have hseen := congrArg EngineVars.halted hvars
    exact hseen
  · have hseen := congrArg EngineVars.lastBid hvars
    exact hseen
  · have hseen := congrArg EngineVars.lastAsk hvars
    exact hseen
  · have hseen := congrArg Flat.size hflat
    have hsize : a.size = a'.size := hseen
    exact hr.size.trans (hsize.trans hr'.size.symm)

variable [SizedByLevels B]

/-- Engines that look alike answer a Fill-or-Kill order alike. -/
theorem fillable_alike (h : Simulates e a) (h' : Simulates e' a') (hc : a.cfg.stp = .none ∨ Function.Injective client)
    (h0 : client 0 = 0) (heq : (blind client).engine a = (blind client).engine a') {cmd cmd' : Command}
    (hcmd : (blind client).command cmd = (blind client).command cmd') : e.fillable cmd = e'.fillable cmd' := by
  obtain ⟨T, hr⟩ := h.refines.rep
  obtain ⟨T', hr'⟩ := h'.refines.rep
  obtain ⟨hside, hquantity, hlimit⟩ := blind_command hcmd
  have hsized : ∀ s, (LawfulBook.levels e.book s).map PriceLevel.sized = (LawfulBook.levels e'.book s).map PriceLevel.sized := by
    intro s
    have hl := congrArg (List.map fun d : DepthEntry => (d.price, d.qty)) (levels_alike h h' hc h0 heq s)
    rw [List.map_map, List.map_map] at hl
    exact hl
  have hqty : Book.marketableQty e.book cmd.side (limitOf cmd) = Book.marketableQty e'.book cmd.side (limitOf cmd) :=
    SizedByLevels.marketableQty_congr hr.book hr'.book _ _ (hsized _)
  unfold Engine.fillable
  rw [hqty, hside, hquantity, hlimit]

/-! ## Runs that look alike -/

theorem steps_alike (h0 : client 0 = 0) {is is' : List Engine.Input} (hin : List.Forall₂ (blind client).Inputs is is') :
    ∀ (e1 e1' : Engine B) (a a' : FlatEngine), Simulates e1 a → Simulates e1' a' →
      (a.cfg.stp = .none ∨ Function.Injective client) → (blind client).engine a = (blind client).engine a' →
      e1.steps is = some e → e1'.steps is' = some e' → Alike (blind client) e e' := by
  induction hin with
  | nil =>
    intro e1 e1' a a' h h' hc heq he he'
    cases he
    cases he'
    exact alike_of_simulates h h' hc h0 heq
  | @cons i i' is is' hi _ ih =>
    intro e1 e1' a a' h h' hc heq he he'
    obtain ⟨e2, he2, he⟩ := Option.bind_eq_some_iff.mp he
    obtain ⟨e2', he2', he'⟩ := Option.bind_eq_some_iff.mp he'
    have hcfg : a'.cfg = a.cfg := (congrArg FlatEngine.cfg heq).symm
    refine ih e2 e2' _ _ (step_simulates h he2) (step_simulates h' he2') (by rw [a.step_cfg]; exact hc) ?_ he he'
    cases i with
    | setHalted b =>
      cases i' with
      | setHalted b' =>
        obtain rfl : b = b' := hi
        exact congrArg (fun x => FlatEngine.setHalted x b) heq
      | command now' cmd' => exact absurd hi id
    | command now cmd =>
      cases i' with
      | setHalted b' => exact absurd hi id
      | command now' cmd' =>
        have hcmd : (blind client).command cmd = (blind client).command cmd' := hi
        have hfill := fillable_alike h h' hc h0 heq hcmd
        have hf' : (blind client).Fits a'.cfg (fun _ => True) fun _ => True := blind_fits (by rw [hcfg]; exact hc) h0
        have hstep := @Relabel.Fits.step _ _ _ a cmd (blind_fits hc h0) h.inv (labelled_true a) trivial (fun _ => trivial)
          (e1.fillable cmd)
        have hstep' := @Relabel.Fits.step _ _ _ a' cmd' hf' h'.inv (labelled_true a') trivial (fun _ => trivial)
          (e1'.fillable cmd')
        show (blind client).engine (a.process (e1.fillable cmd) cmd) = (blind client).engine (a'.process (e1'.fillable cmd') cmd')
        rw [← hstep.1, ← hstep'.1, heq, hcmd, hfill]

theorem runs_alike (h0 : client 0 = 0) (hc : cfg.stp = .none ∨ Function.Injective client) {is is' : List Engine.Input}
    (hin : List.Forall₂ (blind client).Inputs is is') (h : Engine.run cfg is = some e) (h' : Engine.run cfg is' = some e') :
    Alike (blind client) e e' := by
  obtain ⟨e0, hinit, hs⟩ := Option.bind_eq_some_iff.mp h
  obtain ⟨e0', hinit', hs'⟩ := Option.bind_eq_some_iff.mp h'
  obtain rfl := Option.some.inj (hinit.symm.trans hinit')
  exact steps_alike h0 hin e0 e0 _ _ (init_simulates hinit) (init_simulates hinit) hc rfl hs hs'

/-- Two runs that differ in their stamps and clock readings only look the same but for these;
    without self-trade prevention the clients may differ as well. -/
theorem clocks_and_names_unseen {is is' : List Engine.Input} (h : Engine.run cfg is = some e)
    (h' : Engine.run cfg is' = some e') : (List.Forall₂ timeless.Inputs is is' → Alike timeless e e') ∧
      (cfg.stp = .none → List.Forall₂ nameless.Inputs is is' → Alike nameless e e') := by
  constructor
  · intro hin
    exact runs_alike rfl (Or.inr Function.injective_id) hin h h'
  · intro hstp hin
    exact runs_alike rfl (Or.inl hstp) hin h h'

theorem clocks_and_names_unseen_sold : ∃ e e' e'' : Engine OrderBook,
    Engine.run { minPrice := 1, maxPrice := 500, maxOrders := 4 } [.command 1 (.makeNew 1 7 .buy .limit 100 5 11),
      .command 2 (.makeNew 2 8 .sell .fok 100 3 12)] = some e ∧
    Engine.run { minPrice := 1, maxPrice := 500, maxOrders := 4 } [.command 3 (.makeNew 1 7 .buy .limit 100 5 21),
      .command 4 (.makeNew 2 8 .sell .fok 100 3 22)] = some e' ∧
    Engine.run { minPrice := 1, maxPrice := 500, maxOrders := 4 } [.command 5 (.makeNew 1 9 .buy .limit 100 5 31),
      .command 6 (.makeNew 2 9 .sell .fok 100 3 32)] = some e'' ∧ Alike timeless e e' ∧ Alike nameless e e'' := by
  obtain ⟨e0, h0⟩ := @init_defined OrderBook _ { minPrice := 1, maxPrice := 500, maxOrders := 4 } _ rfl
  obtain ⟨e, he, _⟩ := @run_flat OrderBook _ _ e0 _ [.command 1 (.makeNew 1 7 .buy .limit 100 5 11),
    .command 2 (.makeNew 2 8 .sell .fok 100 3 12)] h0 (by decide)
  obtain ⟨e', he', _⟩ := @run_flat OrderBook _ _ e0 _ [.command 3 (.makeNew 1 7 .buy .limit 100 5 21),
    .command 4 (.makeNew 2 8 .sell .fok 100 3 22)] h0 (by decide)
  obtain ⟨e'', he'', _⟩ := @run_flat OrderBook _ _ e0 _ [.command 5 (.makeNew 1 9 .buy .limit 100 5 31),
    .command 6 (.makeNew 2 9 .sell .fok 100 3 32)] h0 (by decide)
  exact ⟨e, e', e'', he, he', he'', (clocks_and_names_unseen he he').1 (.cons rfl (.cons rfl .nil)),
    (clocks_and_names_unseen he he'').2 rfl (.cons rfl (.cons rfl .nil))⟩

end Lob
