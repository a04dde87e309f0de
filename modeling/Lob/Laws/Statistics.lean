/-
  Lob.Laws.Statistics — the engine's statistics are what its events say.

  `EngineStats` is kept by increments spread over `process`, its handlers, `match` and
  `emit_trade`. After every run (`run_audited`): events are numbered 1, 2, … without gap
  over the whole stream; `rejects` and `trades` count the Rejected and Trade events,
  `shares_traded` is what the trades add up to, modulo 2^64; the commands are counted by
  type; and `peak_resting` is the most orders any command of the run left resting.
-/

import Lob.Book.OrderBookProofs
import Lob.Engine.Deals
import Lob.Engine.Runs

namespace Lob

variable {es es' : List Event}

/-! ## What one report does -/

namespace EngineVars

/-- The statistics with the events `es` entered. -/
def entered (st : EngineStats) (es : List Event) : EngineStats :=
  { st with
    rejects := st.rejects + occurs .rejected es
    trades := st.trades + occurs .trade es
    sharesTraded := st.sharesTraded + UInt64.ofNat (volume es) }

/-- `v'` is `v` with `es` reported, numbered and entered. -/
structure Logs (v v' : EngineVars) (es : List Event) : Prop where
  out : v'.out = v.out ++ es
  numbers : es.map (·.seq) = List.range' (v.seq + 1) es.length
  seq : v'.seq = v.seq + es.length
  stats : v'.stats = entered v.stats es

variable {v v' v'' : EngineVars}

theorem entered_entered (st : EngineStats) : entered (entered st es) es' = entered st (es ++ es') := by
  unfold entered
  simp only [occurs_append, volume_append, UInt64.ofNat_add, Nat.add_assoc, UInt64.add_assoc]

theorem Logs.nil (v : EngineVars) : v.Logs v [] := by
  refine ⟨(List.append_nil _).symm, rfl, rfl, ?_⟩
  unfold entered
  simp

theorem Logs.trans (h : v.Logs v' es) (h' : v'.Logs v'' es') : v.Logs v'' (es ++ es') := by
  refine ⟨?_, ?_, ?_, ?_⟩
  · rw [h'.out, h.out, List.append_assoc]
  · rw [List.map_append, h.numbers, h'.numbers, h.seq, List.length_append, ← List.range'_append_1]
    congr 2
    omega
  · rw [h'.seq, h.seq, List.length_append, Nat.add_assoc]
  · rw [h'.stats, h.stats, entered_entered]

/-- An event that neither rejects nor trades. -/
theorem logs_newEvent (v : EngineVars) {e : Event} (hr : e.type ≠ .rejected) (ht : e.type ≠ .trade) :
    v.Logs (v.newEvent e) [{ e with seq := v.seq + 1, tsOut := v.curTsOut }] := by
  refine ⟨rfl, rfl, rfl, ?_⟩
  simp [entered, occurs, volume, newEvent, hr, ht]

/-- What a handler reports, up to the change of the book: none of it is of that type. -/
def Acts (v v' : EngineVars) : Prop := ∃ es, v.Logs v' es ∧ occurs .bookChanged es = 0

theorem Acts.refl (v : EngineVars) : v.Acts v := ⟨[], .nil v, rfl⟩

theorem Acts.trans (h : v.Acts v') (h' : v'.Acts v'') : v.Acts v'' := by
  obtain ⟨es, hes, hb⟩ := h
  obtain ⟨es', hes', hb'⟩ := h'
  exact ⟨es ++ es', hes.trans hes', by rw [occurs_append, hb, hb']⟩

theorem acts_newEvent (v : EngineVars) {e : Event} (hr : e.type ≠ .rejected) (ht : e.type ≠ .trade)
    (hb : e.type ≠ .bookChanged) : v.Acts (v.newEvent e) :=
  ⟨_, logs_newEvent v hr ht, by simp [occurs, hb]⟩

theorem acts_reject (v : EngineVars) (cmd : Command) (r : RejectReason) : v.Acts (v.emitReject cmd r) := by
  refine ⟨[{ Event.reject cmd r with seq := v.seq + 1, tsOut := v.curTsOut }], ⟨rfl, rfl, rfl, ?_⟩, rfl⟩
  simp [entered, occurs, volume, emitReject, newEvent, Event.reject]

theorem acts_trade (v : EngineVars) (inc resting : OrderInfo) (traded : Quantity) :
    v.Acts (v.emitTrade inc resting traded) := by
  refine ⟨[{ Event.takerFill inc resting traded with seq := v.seq + 1, tsOut := v.curTsOut },
    { Event.makerFill inc resting traded with seq := v.seq + 2, tsOut := v.curTsOut },
    { Event.trade inc resting traded with seq := v.seq + 3, tsOut := v.curTsOut }], ⟨?_, rfl, rfl, ?_⟩, rfl⟩
  · simp [emitTrade, newEvent]
  · simp [entered, occurs, volume, emitTrade, newEvent, Event.takerFill, Event.makerFill, Event.trade]

end EngineVars

open EngineVars

/-! ## What a command does -/

theorem acts_refMatch (stp : StpMode) (client : ClientId) (v : EngineVars) (inc : OrderInfo) (filled : Quantity)
    (L : List OrderInfo) : v.Acts (refMatch stp client v inc filled L).vars := by
  fun_induction refMatch stp client v inc filled L with
  | case1 v => exact .refl v
  | case2 v => exact .refl v
  | case3 v => exact acts_newEvent v EventType.noConfusion EventType.noConfusion EventType.noConfusion
  | case4 v inc filled o rest _ _ _ ih =>
    exact (acts_newEvent v EventType.noConfusion EventType.noConfusion EventType.noConfusion).trans ih
  | case5 v inc filled o rest _ _ traded v' inc' _ ih => exact (acts_trade v inc o traded).trans ih
  | case6 v inc filled o rest _ _ traded v' inc' _ => exact acts_trade v inc o traded

namespace FlatEngine

variable {a : FlatEngine}

theorem acts_afterMatch (a : FlatEngine) (cmd : Command) : a.Acts (a.afterMatch cmd).toEngineVars := by
  obtain ⟨es, hes, hb⟩ := acts_newEvent { a.toEngineVars with arrival := a.arrival + 1 } (e := .accept cmd (limitOf cmd))
    EventType.noConfusion EventType.noConfusion EventType.noConfusion
  have ha : a.Acts (a.accepted cmd) := ⟨es, ⟨hes.out, hes.numbers, hes.seq, hes.stats⟩, hb⟩
  exact ha.trans (acts_refMatch a.cfg.stp cmd.client (a.accepted cmd) (incomingOrder cmd (a.arrival + 1)) 0
    (a.side (opposite cmd.side)))

theorem acts_accepted (a : FlatEngine) (cmd : Command) : a.Acts (a.handleAccepted cmd).toEngineVars := by
  have ha := acts_afterMatch a cmd
  have hs := accepted_settles a cmd
  generalize a.handleAccepted cmd = a' at hs ⊢
  cases hs with
  | filled done => exact ha
  | rested open_ kind room => exact ha
  | canceled reason open_ why =>
    exact ha.trans (acts_newEvent _ EventType.noConfusion EventType.noConfusion EventType.noConfusion)

theorem acts_dispatch (a : FlatEngine) (fillable : Bool) (cmd : Command) : a.Acts (a.dispatch fillable cmd).toEngineVars := by
  have ho := dispatch_outcome a fillable cmd
  generalize a.dispatch fillable cmd = a' at ho ⊢
  cases ho with
  | refused r why => exact acts_reject a.toEngineVars cmd r
  | admitted type live passes => exact acts_accepted a cmd
  | canceled o found why =>
    exact acts_newEvent a.toEngineVars EventType.noConfusion EventType.noConfusion EventType.noConfusion
  | replaced o found type sized keeps =>
    exact acts_newEvent a.toEngineVars EventType.noConfusion EventType.noConfusion EventType.noConfusion
  | requeued o found type sized moves passes => exact acts_accepted (a.withFlat (a.drop o)) (replacement cmd o)
  | lost o found type sized moves r refusal => exact acts_reject a.toEngineVars (replacement cmd o) r

/-- The book's change, when the configuration asks for it and a best price has changed. -/
def changes (a : FlatEngine) (cmd : Command) : List Event :=
  if a.cfg.emitBookChanged = true ∧ ¬ (a.top .buy = a.lastBid ∧ a.top .sell = a.lastAsk) then
    [{ Event.bookChange cmd.tsRecv (a.top .buy) (a.top .sell) (UInt64.ofNat (Flat.topSize (a.side .buy)))
        (UInt64.ofNat (Flat.topSize (a.side .sell))) with seq := a.seq + 1, tsOut := a.curTsOut }]
  else []

theorem logs_finish (a : FlatEngine) (cmd : Command) :
    ∃ w, a.Logs w (a.changes cmd) ∧ (a.finish cmd).toEngineVars = w.tickPeak a.size := by
  unfold finish changes
  by_cases hc : a.cfg.emitBookChanged = true
  · rw [if_pos hc]
    unfold bookChanged emitBookChanged
    by_cases htop : a.top .buy = a.lastBid ∧ a.top .sell = a.lastAsk
    · rw [if_pos htop, if_neg fun h => h.2 htop]
      exact ⟨a.toEngineVars, .nil _, rfl⟩
    · rw [if_neg htop, if_pos ⟨hc, htop⟩]
      have hes := logs_newEvent { a.toEngineVars with lastBid := a.top .buy, lastAsk := a.top .sell }
        (e := .bookChange cmd.tsRecv (a.top .buy) (a.top .sell) (UInt64.ofNat (Flat.topSize (a.side .buy)))
          (UInt64.ofNat (Flat.topSize (a.side .sell)))) EventType.noConfusion EventType.noConfusion
      exact ⟨_, ⟨hes.out, hes.numbers, hes.seq, hes.stats⟩, rfl⟩
  · rw [if_neg hc, if_neg fun h => hc h.1]
    exact ⟨a.toEngineVars, .nil _, rfl⟩

/-- A command is counted, its events are entered, and the peak is kept up. The change of the
    book is the last of its events. -/
theorem logs_process (a : FlatEngine) (fillable : Bool) (cmd : Command) :
    ∃ w es, (a.start 0 cmd).Logs w (a.process fillable cmd).out ∧
      (a.process fillable cmd).toEngineVars = w.tickPeak (a.process fillable cmd).size ∧
      (a.process fillable cmd).out = es ++ ((a.withVars (a.start 0 cmd)).dispatch fillable cmd).changes cmd ∧
      occurs .bookChanged es = 0 := by
  obtain ⟨es, hes, hb⟩ := acts_dispatch (a.withVars (a.start 0 cmd)) fillable cmd
  obtain ⟨w, hes', hw⟩ := logs_finish ((a.withVars (a.start 0 cmd)).dispatch fillable cmd) cmd
  have hlogs := hes.trans hes'
  have hout : (a.process fillable cmd).out = es ++ ((a.withVars (a.start 0 cmd)).dispatch fillable cmd).changes cmd := by
    show (FlatEngine.finish _ cmd).toEngineVars.out = _
    rw [hw]
    exact hlogs.out
  refine ⟨w, es, hout ▸ hlogs, ?_, hout, hb⟩
  rw [(process_eq a fillable cmd).1]
  exact hw

end FlatEngine

/-! ## Runs -/

namespace Engine

variable {B : Type} [Book B]

/-- The most orders a command of the run leaves resting. -/
def peak : Engine B → List Input → Nat
  | _, [] => 0
  | e, .command now cmd :: is =>
    match e.process now cmd with
    | none => 0
    | some e' => max e'.restingOrders (peak e' is)
  | e, .setHalted h :: is => peak (e.setHalted h) is

/-- Commands of a type among the inputs. -/
def sent (t : CommandType) (is : List Input) : Nat := (is.filterMap Input.command?).countP fun cmd => cmd.type = t

/-- `e'` is where `e` is after `is`, by its numbers and statistics. -/
structure Audited (e e' : Engine B) (is : List Input) : Prop where
  numbers : (e.emitted is).map (·.seq) = List.range' (e.seq + 1) (e.emitted is).length
  seq : e'.seq = e.seq + (e.emitted is).length
  stats : e'.stats =
    { commands := e.stats.commands + (is.filterMap Input.command?).length
      newOrders := e.stats.newOrders + sent .new is
      cancels := e.stats.cancels + sent .cancel is
      modifies := e.stats.modifies + sent .modify is
      rejects := e.stats.rejects + occurs .rejected (e.emitted is)
      trades := e.stats.trades + occurs .trade (e.emitted is)
      sharesTraded := e.stats.sharesTraded + UInt64.ofNat (volume (e.emitted is))
      peakResting := max e.stats.peakResting (e.peak is) }

end Engine

variable {B : Type} [Book B] [LawfulBook B] {cfg : EngineConfig}

/-- One command: its events are numbered on, and it and they are entered. -/
theorem Simulates.audited {e e' : Engine B} {a : FlatEngine} (h : Simulates e a) {now : TsNanos} {cmd : Command}
    (hp : e.process now cmd = some e') : e.Audited e' [.command now cmd] := by
  obtain ⟨w, _, hlogs, hw, _, _⟩ := FlatEngine.logs_process a (e.fillable cmd) cmd
  have h' := (process_refines h now cmd).2 e' hp
  have hvars : e'.toEngineVars.untimed = w.tickPeak (a.process (e.fillable cmd) cmd).size := h'.refines.vars.trans hw
  have hout : (a.process (e.fillable cmd) cmd).out = e'.out.map Event.untimed := by
    rw [← h'.refines.vars]
    rfl
  have hemitted : e.emitted [.command now cmd] = e'.out := by
    rw [emitted_cons (i := .command now cmd) hp]
    exact List.append_nil _
  have hseq : a.seq = e.seq := by rw [← h.refines.vars]; rfl
  have hstats : a.stats = e.stats := by rw [← h.refines.vars]; rfl
  have hpeak : e.peak [.command now cmd] = e'.restingOrders := by
    unfold Engine.peak
    rw [hp]
    exact Nat.max_eq_left (Nat.zero_le _)
  have hsize : (a.process (e.fillable cmd) cmd).size = e'.restingOrders := by
    obtain ⟨T, hrep⟩ := h'.refines.rep
    exact hrep.size.symm
  rw [hout] at hlogs
  obtain ⟨_, hnumbers, hend, hst⟩ := hlogs
  refine ⟨?_, ?_, ?_⟩
  · rw [hemitted, ← hseq]
    rw [List.map_map, List.length_map] at hnumbers
    exact hnumbers
  · rw [hemitted, ← hseq]
    rw [List.length_map] at hend
    exact (congrArg EngineVars.seq hvars).trans hend
  · have hstats' : e'.stats = (w.tickPeak (a.process (e.fillable cmd) cmd).size).stats := by
      rw [← hvars]
      rfl
    rw [hstats', EngineVars.tickPeak, hst, hemitted, hpeak, hsize, ← hstats]
    simp only [EngineVars.entered, occurs_untimed, volume_untimed, EngineVars.start, Engine.sent]
    cases ht : cmd.type <;> simp [Engine.Input.command?, ht]

omit [LawfulBook B] in
theorem Engine.Audited.trans {e e1 e' : Engine B} {i : Engine.Input} {is : List Engine.Input} (hi : e.step i = some e1)
    (h : e.Audited e1 [i]) (h' : e1.Audited e' is) : e.Audited e' (i :: is) := by
  have hemitted : e.emitted (i :: is) = e.emitted [i] ++ e1.emitted is := by
    rw [emitted_cons hi, emitted_cons hi]
    exact congrArg (· ++ _) (List.append_nil _).symm
  have hpeak : e.peak (i :: is) = max (e.peak [i]) (e1.peak is) := by
    cases i with
    | setHalted b =>
      cases hi
      exact (Nat.zero_max _).symm
    | command now cmd =>
      have hi : e.process now cmd = some e1 := hi
      have hcons : ∀ js, e.peak (.command now cmd :: js) = max e1.restingOrders (e1.peak js) := by
        intro js
        rw [Engine.peak, hi]
      rw [hcons, hcons]
      exact congrArg (max · _) (Nat.max_zero _).symm
  have hsent : ∀ t, Engine.sent t (i :: is) = Engine.sent t [i] + Engine.sent t is := by
    intro t
    unfold Engine.sent
    rw [← List.singleton_append, List.filterMap_append, List.countP_append]
  have hcommands : ((i :: is).filterMap Engine.Input.command?).length =
      ([i].filterMap Engine.Input.command?).length + (is.filterMap Engine.Input.command?).length := by
    rw [← List.singleton_append, List.filterMap_append, List.length_append]
  obtain ⟨hnumbers, hseq, hstats⟩ := h
  obtain ⟨hnumbers', hseq', hstats'⟩ := h'
  refine ⟨?_, ?_, ?_⟩
  · rw [hemitted, List.map_append, hnumbers, hnumbers', hseq, List.length_append, ← List.range'_append_1]
    congr 2
    omega
  · rw [hseq', hseq, hemitted, List.length_append, Nat.add_assoc]
  · rw [hstats', hstats, hemitted, hpeak, hcommands]
    simp only [hsent, occurs_append, volume_append, UInt64.ofNat_add, Nat.add_assoc, UInt64.add_assoc, Nat.max_assoc]

theorem steps_audited : ∀ (is : List Engine.Input) (e e' : Engine B) (a : FlatEngine), Simulates e a →
    e.steps is = some e' → e.Audited e' is := by
  intro is
  induction is with
  | nil =>
    intro e e' a h he
    cases he
    refine ⟨rfl, rfl, ?_⟩
    simp [Engine.emitted, Engine.sent, Engine.peak]
  | cons i is ih =>
    intro e e' a h he
    obtain ⟨e1, he1, hrest⟩ := Option.bind_eq_some_iff.mp he
    have htail := ih e1 e' _ (step_simulates h he1) hrest
    refine Engine.Audited.trans he1 ?_ htail
    cases i with
    | command now cmd => exact h.audited he1
    | setHalted b =>
      cases he1
      have hnone : [Engine.Input.setHalted b].filterMap Engine.Input.command? = [] := rfl
      refine ⟨rfl, rfl, ?_⟩
      simp [Engine.emitted, Engine.sent, Engine.peak, Engine.setHalted, hnone]

/-- After every run the events are numbered 1, 2, …, and the statistics are the counts of the
    commands sent and of the events emitted. -/
theorem run_audited {e0 e : Engine B} {is : List Engine.Input} (h0 : Engine.init cfg = some e0) (h : e0.steps is = some e) :
    (e0.emitted is).map (·.seq) = List.range' 1 (e0.emitted is).length ∧ e.seq = (e0.emitted is).length ∧
      e.stats =
        { commands := (is.filterMap Engine.Input.command?).length
          newOrders := Engine.sent .new is
          cancels := Engine.sent .cancel is
          modifies := Engine.sent .modify is
          rejects := occurs .rejected (e0.emitted is)
          trades := occurs .trade (e0.emitted is)
          sharesTraded := UInt64.ofNat (volume (e0.emitted is))
          peakResting := e0.peak is } := by
  obtain ⟨hnumbers, hseq, hstats⟩ := steps_audited is e0 e _ (init_simulates h0) h
  obtain ⟨b, _, hb⟩ := Option.bind_eq_some_iff.mp h0
  cases hb
  refine ⟨hnumbers, hseq.trans (Nat.zero_add _), ?_⟩
  rw [hstats]
  simp

/-- A sale, a buy that takes part of it, and a cancel of nothing. -/
def session : List Engine.Input :=
  [.command 0 (.makeNew 1 7 .sell .limit 100 5 0), .command 0 (.makeNew 2 8 .buy .limit 100 3 0),
    .command 0 (.makeCancel 9 8 0)]

theorem run_audited_session : ∃ e0 e : Engine OrderBook, Engine.init { minPrice := 1, maxPrice := 500, maxOrders := 4 } = some e0 ∧
    e0.steps session = some e ∧ e.seq = (e0.emitted session).length ∧ e.stats.rejects = 1 ∧ e.stats.trades = 1 ∧
    e.stats.sharesTraded = 3 := by
  have key : (do
      let e0 ← Engine.init (B := OrderBook) { minPrice := 1, maxPrice := 500, maxOrders := 4 }
      let _ ← e0.steps session
      some (decide (occurs .rejected (e0.emitted session) = 1 ∧ occurs .trade (e0.emitted session) = 1 ∧
        volume (e0.emitted session) = 3))) = some true := by decide +kernel
  obtain ⟨e0, h0, key⟩ := Option.bind_eq_some_iff.mp key
  obtain ⟨e, he, key⟩ := Option.bind_eq_some_iff.mp key
  simp only [Option.some.injEq, decide_eq_true_eq] at key
  obtain ⟨_, hseq, hstats⟩ := run_audited h0 he
  rw [key.1, key.2.1, key.2.2] at hstats
  refine ⟨e0, e, h0, he, hseq, ?_⟩
  rw [hstats]
  exact ⟨rfl, rfl, rfl⟩

end Lob
