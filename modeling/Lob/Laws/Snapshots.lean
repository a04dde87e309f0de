/-
  Lob.Laws.Snapshots — what the dashboard shows.

  Whatever the threads do, a snapshot the telemetry thread writes shows the engine between
  two commands of its run: totals, best prices, ladders, resting orders, last price and the
  last prints of the tape are those after one stretch of the commands taken (`Shows`), none
  of a command halfway. Later snapshots show later states (`snapshots_shown`).
-/

import Lob.Book.OrderBook
import Lob.Server.Dashboard
import Mathlib.Data.List.DropRight

namespace Lob

open Wire

/-- The trades of a log, as prints. -/
def prints (log : List Event) : List TradePrint := (log.filter fun e => e.type = .trade).map Event.tradePrint

/-- The snapshot is of the engine `e0` after `pre`. -/
structure DashboardSnapshot.Of {B : Type} [Book B] (snap : DashboardSnapshot) (cfg : DashboardConfig) (e0 e : Engine B)
    (pre : List Engine.Input) : Prop where
  steps : e0.steps pre = some e
  commands : snap.commandsTotal = pre.length
  trades : snap.tradesTotal = occurs .trade (e0.emitted pre)
  rejects : snap.rejectsTotal = occurs .rejected (e0.emitted pre)
  shares : snap.sharesTotal = e.stats.sharesTraded
  bestBid : snap.bestBid = Book.bestBid e.book
  bestAsk : snap.bestAsk = Book.bestAsk e.book
  spread : snap.spread = Book.spread e.book
  resting : snap.restingOrders = e.restingOrders
  bids : snap.bids = Book.snapshot e.book .buy (toSize cfg.ladderDepth)
  asks : snap.asks = Book.snapshot e.book .sell (toSize cfg.ladderDepth)
  tape : snap.tape = (prints (e0.emitted pre)).rtake (toSize cfg.tapeDepth)
  lastPx : snap.lastPx = ((prints (e0.emitted pre)).map (·.price)).getLastD kNoPrice
  latencies : snap.latCount ≤ pre.length

/-- It is the first snapshot, before any, or of a state of the run. -/
def DashboardSnapshot.Shows {B : Type} [Book B] (snap : DashboardSnapshot) (cfg : DashboardConfig) (e0 : Engine B)
    (pre : List Engine.Input) : Prop :=
  (snap = {} ∧ pre = []) ∨ ∃ e, snap.Of cfg e0 e pre

/-- One more, past the depth one less. -/
theorem rtake_concat {α : Type} (xs : List α) (x : α) (n : Nat) :
    (if (xs.rtake n ++ [x]).length > n then (xs.rtake n ++ [x]).tail else xs.rtake n ++ [x]) = (xs ++ [x]).rtake n := by
  have hlen : (xs.rtake n).length = min n xs.length := by
    rw [List.rtake, List.length_drop]
    omega
  cases n with
  | zero => simp
  | succ n =>
    rw [List.rtake_concat_succ, List.length_append, hlen, List.length_singleton]
    by_cases hn : n + 1 ≤ xs.length
    · have hne : xs.rtake (n + 1) ≠ [] := List.ne_nil_of_length_pos (by omega)
      rw [if_pos (by omega), List.tail_append_of_ne_nil hne, List.rtake, List.rtake, List.tail_drop]
      congr 2
      omega
    · rw [if_neg (by omega), List.rtake, List.rtake, Nat.sub_eq_zero_of_le (by omega), Nat.sub_eq_zero_of_le (by omega)]

namespace Monitor

variable {B : Type} [Book B] {p0 : Pipeline B} {m m' : Monitor B} {is pre : List Engine.Input} {done : List Event}
  {pres : List (List Engine.Input)}

/-! ## What the engine thread keeps -/

/-- The tape, the last price and the histogram are of the `done` events and commands `is`. -/
structure Keeps (m : Monitor B) (is : List Engine.Input) (done : List Event) : Prop where
  tape : m.tape = (prints done).rtake (toSize m.cfg.tapeDepth)
  lastPx : m.lastPx = ((prints done).map (·.price)).getLastD kNoPrice
  latencies : m.hist.count ≤ is.length

omit [Book B] in
theorem Keeps.more (h : Keeps m is done) (i : Engine.Input) : Keeps m (is ++ [i]) done :=
  ⟨h.tape, h.lastPx, h.latencies.trans (by rw [List.length_append]; exact Nat.le_add_right _ _)⟩

omit [Book B] in
theorem timed_frame (m : Monitor B) (t1 : TsNanos) (got : Option RawCommand) :
    ∃ hist, m.timed t1 got = { m with hist := hist } ∧ hist.count ≤ m.hist.count + got.toList.length := by
  cases got with
  | none => exact ⟨m.hist, rfl, Nat.le_refl _⟩
  | some cmd =>
    unfold timed
    by_cases ht : t1 > cmd.tsRecv
    · exact ⟨_, if_pos ht, Nat.le_refl _⟩
    · exact ⟨m.hist, if_neg ht, Nat.le_succ _⟩

omit [Book B] in
/-- Looking at an event keeps the tape and the last price those of the events looked at. -/
theorem Keeps.noted (h : Keeps m is done) (e : Event) : Keeps (m.noted (some e)) is (done ++ [e]) := by
  unfold Monitor.noted
  by_cases ht : e.type = .trade
  · have hprints : prints (done ++ [e]) = prints done ++ [e.tradePrint] := by
      unfold prints
      rw [List.filter_append, List.map_append]
      simp [ht]
    simp only [if_pos ht]
    refine ⟨?_, ?_, h.latencies⟩
    · show m.pushTape e.tradePrint = _
      rw [hprints, ← rtake_concat, ← h.tape]
      rfl
    · rw [hprints, List.map_append]
      exact (List.getLastD_concat ..).symm
  · have hprints : prints (done ++ [e]) = prints done := by
      unfold prints
      rw [List.filter_append]
      simp [ht]
    simp only [if_neg ht]
    exact ⟨by rw [hprints]; exact h.tape, by rw [hprints]; exact h.lastPx, h.latencies⟩

/-- Between commands, `publish_snapshot` shows the run so far. -/
theorem publishSnapshot_of (hd : Pipeline.Driven p0 m.pipeline is) (hh : Pipeline.Handled m.pipeline done)
    (hk : Keeps m is done) (hidle : m.pipeline.core = .idle) (now : TsNanos) :
    (m.publishSnapshot now).snap.Of m.cfg p0.engine m.pipeline.engine is := by
  have hdone : p0.engine.emitted is = done := by
    rw [← hd.emitted, hh.emitted, hidle]
    exact List.append_nil done
  refine ⟨hd.steps, hd.commands, ?_, ?_, rfl, rfl, rfl, rfl, rfl, rfl, rfl, ?_, ?_, hk.latencies⟩
  · rw [hdone]
    exact hh.trades
  · rw [hdone]
    exact hh.rejects
  · rw [hdone]
    exact hk.tape
  · rw [hdone]
    exact hk.lastPx

/-! ## What is shown -/

/-- The snapshots written, then the one in memory, show `pres` and `pre`, in the order of the
    run. -/
structure Told (m : Monitor B) (cfg : DashboardConfig) (e0 : Engine B) (is : List Engine.Input) (pres : List (List Engine.Input))
    (pre : List Engine.Input) : Prop where
  snap : m.snap.Shows cfg e0 pre
  written : List.Forall₂ (fun s pre => s.Shows cfg e0 pre) m.written pres
  order : (pres ++ [pre]).Pairwise (· <+: ·)
  taken : pre <+: is

/-- The invariant of every history. -/
structure Shown (p0 : Pipeline B) (cfg : DashboardConfig) (m : Monitor B) (is : List Engine.Input) (done : List Event)
    (pres : List (List Engine.Input)) (pre : List Engine.Input) : Prop where
  config : m.cfg = cfg
  driven : Pipeline.Driven p0 m.pipeline is
  handled : Pipeline.Handled m.pipeline done
  keeps : Keeps m is done
  told : Told m cfg p0.engine is pres pre

variable {cfg : DashboardConfig}

theorem Shown.pipeline (h : Shown p0 cfg m is done pres pre) {p : Pipeline B} (hp : Pipeline.SameCore m.pipeline p) :
    Shown p0 cfg { m with pipeline := p } is done pres pre :=
  ⟨h.config, hp.driven h.driven, hp.handled h.handled, ⟨h.keeps.tape, h.keeps.lastPx, h.keeps.latencies⟩,
    ⟨h.told.snap, h.told.written, h.told.order, h.told.taken⟩⟩

theorem Shown.telemetry (h : Shown p0 cfg m is done pres pre) :
    Shown p0 cfg { m with written := m.written ++ [m.snap] } is done (pres ++ [pre]) pre := by
  refine ⟨h.config, h.driven, h.handled, ⟨h.keeps.tape, h.keeps.lastPx, h.keeps.latencies⟩, h.told.snap, ?_, ?_, h.told.taken⟩
  · exact List.rel_append h.told.written (List.Forall₂.cons h.told.snap List.Forall₂.nil)
  · refine List.pairwise_append.mpr ⟨h.told.order, List.pairwise_singleton _ _, fun a ha b hb => ?_⟩
    rw [List.mem_singleton.mp hb]
    rcases List.mem_append.mp ha with ha | ha
    · exact (List.pairwise_append.mp h.told.order).2.2 a ha pre List.mem_cons_self
    · rw [List.mem_singleton.mp ha]

/-- A turn of the engine thread's loop ends: the snapshot, when it is due. -/
theorem Shown.publish (h : Shown p0 cfg m is done pres pre) (hidle : m.pipeline.core = .idle) (now : TsNanos) :
    Shown p0 cfg (m.publishSnapshot now) is done pres is := by
  refine ⟨h.config, h.driven, h.handled, ⟨h.keeps.tape, h.keeps.lastPx, h.keeps.latencies⟩, Or.inr ⟨m.pipeline.engine, ?_⟩, h.told.written, ?_,
    List.prefix_refl is⟩
  · rw [← h.config]
    exact publishSnapshot_of h.driven h.handled h.keeps hidle now
  · obtain ⟨hpres, _, hlast⟩ := List.pairwise_append.mp h.told.order
    refine List.pairwise_append.mpr ⟨hpres, List.pairwise_singleton _ _, fun a ha b hb => ?_⟩
    rw [List.mem_singleton.mp hb]
    exact (hlast a ha pre List.mem_cons_self).trans h.told.taken

omit [Book B] in
theorem noted_frame (m : Monitor B) (e : Option Event) :
    (m.noted e).cfg = m.cfg ∧ (m.noted e).snap = m.snap ∧ (m.noted e).written = m.written := by
  cases e with
  | none => exact ⟨rfl, rfl, rfl⟩
  | some e =>
    unfold Monitor.noted
    by_cases he : e.type = .trade
    · simp only [if_pos he, and_self]
    · simp only [if_neg he, and_self]

/-- The step itself, before any snapshot. -/
theorem Shown.went (h : Shown p0 cfg m is done pres pre) {now : TsNanos} (t1 : TsNanos) {p : Pipeline B}
    (hp : m.pipeline.engineStep now = some p) : ∃ is' done', Shown p0 cfg (m.went t1 p) is' done' pres pre := by
  obtain ⟨hist, ht, hcount⟩ := timed_frame m t1 m.pipeline.popping
  have hlat := h.keeps.latencies
  have hsnap := h.told.snap
  have hwritten := h.told.written
  unfold Monitor.went
  rw [ht]
  rcases h.driven.engineStep h.handled hp with
    ⟨cmd, c, hidle, hpop, _, _, hd, hh⟩ | ⟨e, hlook, _, hd, hh⟩ | ⟨hlook, hpop, hd, hh⟩
  · have hnone : m.pipeline.looking = none := by rw [Pipeline.looking, hidle]
    have hone : m.pipeline.popping.toList.length ≤ 1 := by cases m.pipeline.popping <;> simp
    rw [hnone]
    refine ⟨is ++ [.command now c], done, h.config, hd, hh, ⟨h.keeps.tape, h.keeps.lastPx, ?_⟩,
      ⟨hsnap, hwritten, h.told.order, h.told.taken.trans (List.prefix_append ..)⟩⟩
    rw [List.length_append]
    exact hcount.trans (Nat.add_le_add hlat hone)
  · have hnone : m.pipeline.popping = none := by
      unfold Pipeline.looking at hlook
      unfold Pipeline.popping
      split at hlook
      case h_1 hc => rw [hc]
      case h_2 => cases hlook
    rw [hnone] at hcount
    have hk : Keeps { m with hist := hist } is done := ⟨h.keeps.tape, h.keeps.lastPx, hcount.trans hlat⟩
    obtain ⟨htape, hpx, hl⟩ := hk.noted e
    obtain ⟨fcfg, fsnap, fwritten⟩ := noted_frame { m with hist := hist } (some e)
    rw [hlook]
    refine ⟨is, done ++ [e], fcfg.trans h.config, hd, hh, ⟨htape, hpx, hl⟩, ⟨?_, ?_, h.told.order, h.told.taken⟩⟩
    · show (Monitor.noted _ (some e)).snap.Shows _ _ _
      rw [fsnap]
      exact hsnap
    · show List.Forall₂ _ (Monitor.noted _ (some e)).written _
      rw [fwritten]
      exact hwritten
  · have hnone : m.pipeline.popping = none := by
      unfold Pipeline.popping
      split
      case h_1 hc => exact hpop hc
      case h_2 => rfl
    rw [hnone] at hcount
    rw [hlook]
    exact ⟨is, done, h.config, hd, hh, ⟨h.keeps.tape, h.keeps.lastPx, hcount.trans hlat⟩,
      ⟨hsnap, hwritten, h.told.order, h.told.taken⟩⟩

theorem Shown.engineStep (h : Shown p0 cfg m is done pres pre) {now t1 : TsNanos} {due : Option TsNanos}
    (hm : m.engineStep now t1 due = some m') : ∃ is' done' pre', Shown p0 cfg m' is' done' pres pre' := by
  obtain ⟨p, hp, hm⟩ := Option.bind_eq_some_iff.mp hm
  obtain ⟨is', done', hs⟩ := h.went t1 hp
  cases hcore : p.core with
  | idle =>
    rw [hcore] at hm
    cases due with
    | none =>
      cases hm
      exact ⟨is', done', pre, hs⟩
    | some gen =>
      cases hm
      exact ⟨is', done', is', hs.publish hcore gen⟩
  | handling events =>
    rw [hcore] at hm
    cases hm
    exact ⟨is', done', pre, hs⟩
  | pushing er spins events =>
    rw [hcore] at hm
    cases hm
    exact ⟨is', done', pre, hs⟩

theorem Shown.step (h : Shown p0 cfg m is done pres pre) {mv : Move} (hm : m.step mv = some m') :
    ∃ is' done' pres' pre', Shown p0 cfg m' is' done' pres' pre' := by
  cases mv with
  | gateway input =>
    cases hm
    exact ⟨is, done, pres, pre, h.pipeline (Pipeline.gateway_same m.pipeline input)⟩
  | publisher heartbeat =>
    cases hm
    exact ⟨is, done, pres, pre, h.pipeline (Pipeline.publisher_same m.pipeline heartbeat)⟩
  | telemetry =>
    cases hm
    exact ⟨is, done, pres ++ [pre], pre, h.telemetry⟩
  | engine now t1 due =>
    obtain ⟨is', done', pre', hs⟩ := h.engineStep hm
    exact ⟨is', done', pres, pre', hs⟩

theorem after_shown {m0 : Monitor B} {h : List Move} (h0 : Shown p0 cfg m0 is done pres pre) (hs : m0.after h = some m) :
    ∃ is' done' pres' pre', Shown p0 cfg m is' done' pres' pre' := by
  induction h generalizing m with
  | nil =>
    cases hs
    exact ⟨is, done, pres, pre, h0⟩
  | cons mv h ih =>
    obtain ⟨m1, h1, hm⟩ := Option.bind_eq_some_iff.mp hs
    obtain ⟨is1, done1, pres1, pre1, hs1⟩ := ih h1
    exact hs1.step hm

/-! ## The law -/

variable {ecfg : EngineConfig} {i e n : Nat} {listening udpValid : Bool}

theorem start_shown {m0 : Monitor B} (h0 : start cfg ecfg i e n listening udpValid = some m0) :
    Engine.init ecfg = some m0.pipeline.engine ∧ Shown m0.pipeline cfg m0 [] [] [] [] := by
  obtain ⟨p, hp, h0⟩ := Option.bind_eq_some_iff.mp h0
  obtain ⟨hist, hh, h0⟩ := Option.bind_eq_some_iff.mp h0
  cases h0
  obtain ⟨hengine, hd, hhandled⟩ := Pipeline.start_driven hp
  have hcount : hist.count = 0 := by
    unfold LatencyHistogram.construct at hh
    obtain ⟨_, _, e⟩ := Option.map_eq_some_iff.mp hh
    rw [← e]
    rfl
  refine ⟨hengine, rfl, hd, hhandled, ⟨?_, rfl, hcount.le⟩, Or.inl ⟨rfl, rfl⟩, List.Forall₂.nil, List.pairwise_singleton _ _,
    List.prefix_refl _⟩
  exact (List.rtake_nil _).symm

/-- What is written shows states of the engine's run, in their order. -/
theorem snapshots_shown {m0 : Monitor B} (h0 : start cfg ecfg i e n listening udpValid = some m0) {h : List Move}
    (hs : m0.after h = some m) : Engine.init ecfg = some m0.pipeline.engine ∧
      ∃ is pres, Pipeline.Driven m0.pipeline m.pipeline is ∧
        List.Forall₂ (fun s pre => s.Shows cfg m0.pipeline.engine pre) m.written pres ∧ pres.Pairwise (· <+: ·) ∧
        ∀ pre ∈ pres, pre <+: is := by
  obtain ⟨hengine, hshown⟩ := start_shown h0
  obtain ⟨is, done, pres, pre, hs⟩ := after_shown hshown hs
  obtain ⟨hpres, _, hlast⟩ := List.pairwise_append.mp hs.told.order
  exact ⟨hengine, is, pres, hs.driven, hs.told.written, hpres,
    fun a ha => (hlast a ha pre List.mem_cons_self).trans hs.told.taken⟩

/-- An offer of 5 at 103 is processed and shown. -/
def showOffer : List Move :=
  [.telemetry, .engine 0 0 (some 7), .engine 0 0 none, .engine 0 0 none, .engine 0 0 none, .engine 0 4 none, .gateway none,
    .gateway (some (.makeNew 1 7 (Side.byte .sell) (OrderType.byte .limit) 103 5 0)), .telemetry]

theorem snapshots_shown_offer : ∃ m0 m : Monitor OrderBook,
    start {} { minPrice := 1, maxPrice := 500, maxOrders := 4 } 2 8 2 true true = some m0 ∧ m0.after showOffer = some m ∧
      m.written.map (fun s => (s.commandsTotal, s.bestAsk)) = [(0, kNoPrice), (1, 103)] ∧
      ∃ pres : List (List Engine.Input), pres.length = 2 ∧ pres.Pairwise (· <+: ·) := by
  have key : (do
      let m0 ← start (B := OrderBook) {} { minPrice := 1, maxPrice := 500, maxOrders := 4 } 2 8 2 true true
      let m ← m0.after showOffer
      some (decide (m.written.map (fun s => (s.commandsTotal, s.bestAsk)) = [(0, kNoPrice), (1, 103)]))) = some true := by
    decide +kernel
  obtain ⟨m0, h0, key⟩ := Option.bind_eq_some_iff.mp key
  obtain ⟨m, hs, key⟩ := Option.bind_eq_some_iff.mp key
  simp only [Option.some.injEq, decide_eq_true_eq] at key
  obtain ⟨_, _, pres, _, hshows, hpres, _⟩ := snapshots_shown h0 hs
  refine ⟨m0, m, h0, hs, key, pres, ?_, hpres⟩
  rw [← hshows.length_eq, ← List.length_map, key]
  rfl

end Monitor

end Lob
