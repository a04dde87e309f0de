/-
  Lob.Laws.TopOfBook — who follows the BookChanged events knows the top of the book.

  With `emit_book_changed` set, a command emits a BookChanged exactly when it changed a
  best price, as its last event, and the event carries the best prices and sizes of the
  book after the command (`Tells`). So the last one seen tells the current best prices, and
  a reader anywhere in the stream sees best prices the book has had between two commands,
  never those of a match halfway (`top_of_book_told`). Sizes at unchanged best prices are
  not reported.
-/

import Lob.Laws.Statistics

namespace Lob

abbrev Top := Price × Price

/-- The best prices after one more event. -/
def Top.seen (top : Top) (ev : Event) : Top := if ev.type = .bookChanged then (ev.bidPx, ev.askPx) else top

/-- The best prices told by the events. -/
def lastTop (top : Top) (log : List Event) : Top := log.foldl Top.seen top

variable {best : Top} {log log' : List Event}

theorem lastTop_append : lastTop best (log ++ log') = lastTop (lastTop best log) log' := List.foldl_append ..

theorem lastTop_quiet (h : occurs .bookChanged log = 0) : lastTop best log = best := by
  induction log with
  | nil => rfl
  | cons ev log ih =>
    unfold occurs at h ih
    rw [List.countP_cons] at h
    have hev : ev.type ≠ .bookChanged := by
      intro e
      simp [e] at h
    show lastTop (best.seen ev) log = best
    rw [Top.seen, if_neg hev]
    exact ih (by omega)

theorem occurs_none_before {t : EventType} (h : log <+: log') (h0 : occurs t log' = 0) : occurs t log = 0 :=
  Nat.le_zero.mp (h0 ▸ h.sublist.countP_le)

/-- A start of a list with one more. -/
theorem prefix_concat {α : Type} {l xs : List α} {x : α} (h : l <+: xs ++ [x]) : l <+: xs ∨ l = xs ++ [x] := by
  obtain h | h := List.prefix_concat_iff.mp h
  · exact Or.inr h
  · exact Or.inl h

/-- The event is the change to these best prices and sizes. -/
structure Event.Changed (ev : Event) (bid ask : Price) (bidQty askQty : Quantity) : Prop where
  type : ev.type = .bookChanged
  bid : ev.bidPx = bid
  ask : ev.askPx = ask
  bidQty : ev.bidQty = bidQty
  askQty : ev.askQty = askQty

/-! ## One command -/

namespace FlatEngine

variable {a : FlatEngine} {cmd : Command} {fillable : Bool}

/-- What was told last is the top of the book. -/
structure Told (a : FlatEngine) : Prop where
  asked : a.cfg.emitBookChanged = true
  bid : a.lastBid = a.top .buy
  ask : a.lastAsk = a.top .sell

theorem finish_told (cmd : Command) (hc : a.cfg.emitBookChanged = true) :
    (a.finish cmd).lastBid = a.top .buy ∧ (a.finish cmd).lastAsk = a.top .sell := by
  unfold finish bookChanged EngineVars.emitBookChanged
  rw [if_pos hc]
  by_cases h : a.top .buy = a.lastBid ∧ a.top .sell = a.lastAsk
  · rw [if_pos h]
    exact ⟨h.1.symm, h.2.symm⟩
  · rw [if_neg h]
    exact ⟨rfl, rfl⟩

theorem Told.process (h : a.Told) (fillable : Bool) (cmd : Command) : (a.process fillable cmd).Told := by
  obtain ⟨e1, e2, _, _⟩ := process_eq a fillable cmd
  have hc : ((a.withVars (a.start 0 cmd)).dispatch fillable cmd).cfg.emitBookChanged = true := by
    rw [dispatch_cfg]
    exact h.asked
  obtain ⟨hbid, hask⟩ := finish_told cmd hc
  refine ⟨by rw [e2]; exact hc, ?_, ?_⟩
  · unfold Flat.top at hbid ⊢
    rw [e1]
    exact hbid
  · unfold Flat.top at hask ⊢
    rw [e1]
    exact hask

/-- A command tells the change of the top, if there is one. -/
theorem Told.changes (h : a.Told) (fillable : Bool) (cmd : Command) :
    let a' := a.process fillable cmd
    if a'.top .buy = a.top .buy ∧ a'.top .sell = a.top .sell then
      ((a.withVars (a.start 0 cmd)).dispatch fillable cmd).changes cmd = []
    else ∃ ev, ((a.withVars (a.start 0 cmd)).dispatch fillable cmd).changes cmd = [ev] ∧
      ev.Changed (a'.top .buy) (a'.top .sell) (UInt64.ofNat (Flat.topSize (a'.side .buy)))
        (UInt64.ofNat (Flat.topSize (a'.side .sell))) := by
  obtain ⟨e1, _, _, _⟩ := process_eq a fillable cmd
  have hm := dispatch_moves (a.withVars (a.start 0 cmd)) fillable cmd
  have hcfg := dispatch_cfg (a.withVars (a.start 0 cmd)) fillable cmd
  generalize hb : (a.withVars (a.start 0 cmd)).dispatch fillable cmd = b at e1 hm hcfg ⊢
  have hlast : b.lastBid = a.top .buy ∧ b.lastAsk = a.top .sell := by
    rw [← h.bid, ← h.ask]
    cases hm with
    | shrinks n kept le sides => exact ⟨kept.lastBid, kept.lastAsk⟩
    | lands c cmd' g o kept before sides landing result origin => exact ⟨kept.lastBid, kept.lastAsk⟩
  have hc : b.cfg.emitBookChanged = true := by
    rw [hcfg]
    exact h.asked
  simp only [e1]
  unfold FlatEngine.changes
  rw [hlast.1, hlast.2]
  by_cases hsame : b.top .buy = a.top .buy ∧ b.top .sell = a.top .sell
  · rw [if_pos hsame, if_neg fun hn => hn.2 hsame]
  · rw [if_neg hsame, if_pos ⟨hc, hsame⟩]
    exact ⟨_, rfl, rfl, rfl, rfl, rfl, rfl⟩

end FlatEngine

namespace Engine

variable {B : Type} [Book B]

def top (e : Engine B) : Top := (Book.bestBid e.book, Book.bestAsk e.book)

/-- What a command that brings `e` to `e'` tells of the top. -/
structure Tells (e e' : Engine B) : Prop where
  quiet : e'.top = e.top → occurs .bookChanged e'.out = 0
  told : e'.top ≠ e.top → ∃ es ev, e'.out = es ++ [ev] ∧ occurs .bookChanged es = 0 ∧
    ev.Changed (Book.bestBid e'.book) (Book.bestAsk e'.book) (bestQty e'.book .buy) (bestQty e'.book .sell)

theorem Tells.all {e e' : Engine B} (h : Tells e e') : lastTop e.top e'.out = e'.top := by
  by_cases hsame : e'.top = e.top
  · rw [lastTop_quiet (h.quiet hsame), hsame]
  · obtain ⟨es, ev, hout, hes, hev⟩ := h.told hsame
    rw [hout, lastTop_append, lastTop_quiet hes]
    show e.top.seen ev = e'.top
    rw [Top.seen, if_pos hev.type, hev.bid, hev.ask]
    rfl

/-- The top is told at once. -/
theorem Tells.part {e e' : Engine B} (h : Tells e e') (hl : log <+: e'.out) : lastTop e.top log = e.top ∨ log = e'.out := by
  by_cases hsame : e'.top = e.top
  · exact Or.inl (lastTop_quiet (occurs_none_before hl (h.quiet hsame)))
  · obtain ⟨es, ev, hout, hes, _⟩ := h.told hsame
    rw [hout] at hl ⊢
    rcases prefix_concat hl with hl | rfl
    · exact Or.inl (lastTop_quiet (occurs_none_before hl hes))
    · exact Or.inr rfl

end Engine

/-! ## Runs -/

variable {B : Type} [Book B] [LawfulBook B] {cfg : EngineConfig} {e e' : Engine B} {a : FlatEngine}

theorem Simulates.top (h : Simulates e a) : e.top = (a.top .buy, a.top .sell) := by
  obtain ⟨T, hrep⟩ := h.refines.rep
  unfold Engine.top Book.bestBid Book.bestAsk
  rw [hrep.bestPrice, hrep.bestPrice]

theorem Simulates.tells (h : Simulates e a) (ht : a.Told) {now : TsNanos} {cmd : Command}
    (hp : e.process now cmd = some e') : e.Tells e' := by
  have h' := (process_refines h now cmd).2 e' hp
  obtain ⟨_, es, _, _, hout, hes⟩ := FlatEngine.logs_process a (e.fillable cmd) cmd
  have hchanges := ht.changes (e.fillable cmd) cmd
  have htop : e'.top = e.top ↔ (a.process (e.fillable cmd) cmd).top .buy = a.top .buy ∧
      (a.process (e.fillable cmd) cmd).top .sell = a.top .sell := by
    rw [h'.top, h.top, Prod.mk.injEq]
  have huntimed : e'.out.map Event.untimed = (a.process (e.fillable cmd) cmd).out := by
    rw [← h'.refines.vars]
    rfl
  obtain ⟨T, hrep⟩ := h'.refines.rep
  refine ⟨fun hsame => ?_, fun hne => ?_⟩
  · rw [if_pos (htop.mp hsame)] at hchanges
    rw [← occurs_untimed, huntimed, hout, hchanges, List.append_nil]
    exact hes
  · rw [if_neg fun hs => hne (htop.mpr hs)] at hchanges
    obtain ⟨ev, hev, hchanged⟩ := hchanges
    rw [hout, hev] at huntimed
    obtain ⟨es', evs, hout', hes', hevs⟩ := List.map_eq_append_iff.mp huntimed
    obtain ⟨ev', rfl, hev'⟩ := List.map_eq_singleton_iff.mp hevs
    refine ⟨es', ev', hout', by rw [← occurs_untimed, hes']; exact hes, ?_⟩
    rw [← hrep.bestPrice, ← hrep.bestPrice, ← hrep.bestQty, ← hrep.bestQty, ← hev'] at hchanged
    exact ⟨hchanged.type, hchanged.bid, hchanged.ask, hchanged.bidQty, hchanged.askQty⟩

theorem FlatEngine.Told.step (ht : a.Told) (fillable : Command → Bool) (i : Engine.Input) : (a.step fillable i).Told := by
  cases i with
  | command now cmd => exact ht.process (fillable cmd) cmd
  | setHalted b => exact ⟨ht.asked, ht.bid, ht.ask⟩

theorem steps_told : ∀ (is : List Engine.Input) (e : Engine B) (a : FlatEngine), Simulates e a → a.Told →
    e.steps is = some e' → lastTop e.top (e.emitted is) = e'.top ∧
      ∀ log, log <+: e.emitted is → ∃ pre e1, pre <+: is ∧ e.steps pre = some e1 ∧ lastTop e.top log = e1.top := by
  intro is
  induction is with
  | nil =>
    intro e a h ht he
    cases he
    refine ⟨rfl, fun log hl => ⟨[], e', List.nil_prefix, rfl, ?_⟩⟩
    rw [List.prefix_nil.mp hl]
    rfl
  | cons i is ih =>
    intro e a h ht he
    obtain ⟨e1, he1, hrest⟩ := Option.bind_eq_some_iff.mp he
    obtain ⟨hlast, hpart⟩ := ih e1 _ (step_simulates h he1) (ht.step e.fillable i) hrest
    -- one input tells its own change, all at once
    have hone : lastTop e.top (i.heard e1) = e1.top ∧
        ∀ log, log <+: i.heard e1 → lastTop e.top log = e.top ∨ log = i.heard e1 := by
      cases i with
      | setHalted b =>
        cases he1
        exact ⟨rfl, fun log hl => Or.inr (List.prefix_nil.mp hl)⟩
      | command now cmd =>
        have htells := h.tells ht he1
        exact ⟨htells.all, fun log hl => htells.part hl⟩
    rw [emitted_cons he1]
    refine ⟨by rw [lastTop_append, hone.1, hlast], fun log hl => ?_⟩
    have hbehind : ∀ rest, rest <+: e1.emitted is → ∃ pre e2, pre <+: i :: is ∧ e.steps pre = some e2 ∧
        lastTop e.top (i.heard e1 ++ rest) = e2.top := by
      intro rest hrest
      obtain ⟨pre, e2, hpre, h2, htop⟩ := hpart rest hrest
      refine ⟨i :: pre, e2, (List.prefix_cons_inj i).mpr hpre, Option.bind_eq_some_iff.mpr ⟨e1, he1, h2⟩, ?_⟩
      rw [lastTop_append, hone.1, htop]
    rcases List.prefix_or_prefix_of_prefix hl (List.prefix_append ..) with hl' | hl'
    · rcases hone.2 log hl' with htop | rfl
      · exact ⟨[], e, List.nil_prefix, rfl, htop⟩
      · have := hbehind [] List.nil_prefix
        rwa [List.append_nil] at this
    · obtain ⟨rest, rfl⟩ := hl'
      exact hbehind rest ((List.prefix_append_right_inj _).mp hl)

theorem FlatEngine.Told.init (hc : cfg.emitBookChanged = true) (cap : Nat) : (FlatEngine.init cfg cap).Told := ⟨hc, rfl, rfl⟩

/-- A command tells of the top exactly when it changes it; the events told so far give the
    best prices of a state of the run, and all of them those of the last. -/
theorem top_of_book_told {e0 : Engine B} {is : List Engine.Input} (hc : cfg.emitBookChanged = true)
    (h0 : Engine.init cfg = some e0) (h : e0.steps is = some e) :
    (∀ pre now cmd e1 e2, pre ++ [.command now cmd] <+: is → e0.steps pre = some e1 → e1.process now cmd = some e2 →
      e1.Tells e2) ∧
    lastTop (kNoPrice, kNoPrice) (e0.emitted is) = e.top ∧
    ∀ log, log <+: e0.emitted is → ∃ pre e1, pre <+: is ∧ e0.steps pre = some e1 ∧
      lastTop (kNoPrice, kNoPrice) log = e1.top := by
  have hs := init_simulates h0
  have ht : (FlatEngine.init cfg (FlatEngine.initCap cfg)).Told := FlatEngine.Told.init hc _
  have htop : e0.top = (kNoPrice, kNoPrice) := hs.top
  rw [← htop]
  refine ⟨fun pre now cmd e1 e2 _ h1 hp => ?_, steps_told is e0 _ hs ht h⟩
  have keep : ∀ (a : FlatEngine) fillable i, a.Inv → a.Told → True → (a.step fillable i).Told :=
    fun a fillable i _ ht _ => ht.step fillable i
  obtain ⟨a1, hs1, ht1⟩ := steps_induction keep pre e0 _ (fun _ _ => trivial) hs ht h1
  exact hs1.tells ht1 hp

/-- A sale at 100, another at 101, and a buy that takes the first. -/
def twoSales : List Engine.Input :=
  [.command 0 (.makeNew 1 7 .sell .limit 100 5 0), .command 0 (.makeNew 2 7 .sell .limit 101 5 0),
    .command 0 (.makeNew 3 8 .buy .limit 100 5 0)]

theorem top_of_book_told_sales : ∃ e0 e : Engine OrderBook,
    Engine.init { minPrice := 1, maxPrice := 500, maxOrders := 4 } = some e0 ∧ e0.steps twoSales = some e ∧
      e.top = (kNoPrice, 101) ∧ lastTop (kNoPrice, kNoPrice) (e0.emitted twoSales) = e.top := by
  have key : (do
      let e0 ← Engine.init (B := OrderBook) { minPrice := 1, maxPrice := 500, maxOrders := 4 }
      let e ← e0.steps twoSales
      some (decide (e.top = (kNoPrice, 101)))) = some true := by decide +kernel
  obtain ⟨e0, h0, key⟩ := Option.bind_eq_some_iff.mp key
  obtain ⟨e, he, key⟩ := Option.bind_eq_some_iff.mp key
  simp only [Option.some.injEq, decide_eq_true_eq] at key
  exact ⟨e0, e, h0, he, key, (top_of_book_told rfl h0 he).2.1⟩

end Lob
