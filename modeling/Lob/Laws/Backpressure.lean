/-
  Lob.Laws.Backpressure — what a full ring loses, and who counts it.

  The commands the engine took and those still in the inbound ring are always the decoded
  ones less the dropped, and `inbound_drops` is the number of these: a counter accounts for
  every command. `push_exec` gives up on a report without telling any counter, so the same
  holds of reports exactly as long as it never does (`observed_iff`). A gateway without a
  listener counts a drop it did not make.
-/

import Lob.Book.OrderBook
import Lob.Server.PipelineProofs

namespace Lob.Pipeline

open Wire

variable {B : Type} {s s' : Pipeline B}

/-- No command and no report is lost unobserved. `pending` and `reports` are those a push
    loop has not settled yet. -/
structure Observed (s : Pipeline B) : Prop where
  commandOrder : s.inbound.offered.map Prod.fst ++ s.gateway.pending = s.decoded
  commandsKept : s.inbound.taken ++ s.inbound.contents = s.inbound.offered.kept
  commandDrops : s.counters.inboundDrops = s.inbound.offered.drops.length
  reportOrder : s.exec.offered.map Prod.fst ++ s.core.reports = s.emitted.filterMap Event.report
  reportsKept : s.exec.taken ++ s.exec.contents = s.exec.offered.kept
  reportDrops : ∀ x ∈ s.exec.offered, x.2 ≠ .dropped false

/-- The move is the last attempt of `push_exec`, and finds the ring full. -/
def GivesUp (s : Pipeline B) : Move → Prop
  | .engine _ => (∃ spins, s.core.spins = some spins ∧ 8192 ≤ spins) ∧ s.exec.full
  | _ => False

/-! ## Commands -/

structure Commands (listening : Bool) (s : Pipeline B) : Prop where
  order : s.inbound.offered.map Prod.fst ++ s.gateway.pending = s.decoded
  drops : s.counters.inboundDrops = s.inbound.offered.drops.length + (if listening then 0 else 1)

theorem Commands.frame {listening : Bool} (h : Commands listening s)
    (ho : s'.inbound.offered = s.inbound.offered) (hp : s'.gateway.pending = s.gateway.pending)
    (hd : s'.decoded = s.decoded) (hc : s'.counters.inboundDrops = s.counters.inboundDrops) : Commands listening s' := by
  refine ⟨?_, ?_⟩
  · rw [ho, hp, hd]
    exact h.order
  · rw [hc, ho]
    exact h.drops

/-- What was or is in the ring was decoded, in this order. -/
theorem Commands.kept_sublist {listening : Bool} (h : Commands listening s) (hs : s.inbound.Sound) :
    (s.inbound.taken ++ s.inbound.contents).Sublist s.decoded := by
  rw [hs.order, ← h.order]
  exact (Offers.kept_sublist _).trans (List.sublist_append_left ..)

/-- A command leaves the push loop. -/
theorem Commands.settle {listening : Bool} (h : Commands listening s) {cmd : RawCommand} {spins : Nat} {fate : Fate}
    (hg : s.gateway = .pushing cmd spins) (ho : s'.inbound.offered = s.inbound.offered ++ [(cmd, fate)])
    (hp : s'.gateway.pending = []) (hd : s'.decoded = s.decoded)
    (hc : s'.counters.inboundDrops + s.inbound.offered.drops.length =
      s.counters.inboundDrops + s'.inbound.offered.drops.length) : Commands listening s' := by
  have horder := h.order
  have hdrops := h.drops
  rw [hg] at horder
  refine ⟨?_, by omega⟩
  rw [ho, hp, hd, List.map_append, List.append_nil]
  exact horder

theorem Goes.commands {listening : Bool} (h : Commands listening s) {m : Move} (hm : Goes s m s') :
    Commands listening s' := by
  cases hm with
  | gone => exact h
  | decode cmd hg =>
    have horder := h.order
    rw [hg] at horder
    refine ⟨?_, h.drops⟩
    rw [← horder]
    exact congrArg (· ++ [cmd]) (List.append_nil _).symm
  | drain hg => exact h.frame rfl (by rw [hg]; rfl) rfl rfl
  | pushed _ cmd spins inbound hg _ _ ho =>
    refine h.settle hg ho rfl rfl ?_
    show _ = s.counters.inboundDrops + inbound.offered.drops.length
    rw [ho, Offers.drops_kept]
  | dropped _ cmd spins inbound hg _ _ ho =>
    refine h.settle hg ho rfl rfl ?_
    show s.counters.inboundDrops + 1 + _ = s.counters.inboundDrops + inbound.offered.drops.length
    rw [ho, Offers.drops_dropped, List.length_append, List.length_singleton]
    omega
  | spun _ cmd spins inbound hg _ _ ho => exact h.frame ho (by rw [hg]; rfl) rfl rfl
  | popped _ _ _ hg _ _ hp => exact h.frame rfl (by rw [hg]; exact hp) rfl rfl
  | starved _ _ _ _ ho => exact h.frame ho rfl rfl rfl
  | processed _ _ _ _ _ _ ho => exact h.frame ho rfl rfl rfl
  | finished => exact h.frame rfl rfl rfl rfl
  | reporting _ _ _ _ _ hd => exact h.frame rfl rfl rfl hd
  | fed _ _ _ _ _ _ hd => exact h.frame rfl rfl rfl hd
  | reported => exact h.frame rfl rfl rfl rfl
  | lost => exact h.frame rfl rfl rfl rfl
  | retried => exact h.frame rfl rfl rfl rfl
  | published heartbeat =>
    obtain ⟨counters, seq, published, hd, e⟩ := publisherStep_frame s heartbeat
    rw [e]
    exact h.frame rfl rfl rfl hd

/-! ## Reports -/

structure Reports (s : Pipeline B) : Prop where
  order : s.exec.offered.map Prod.fst ++ s.core.reports = s.emitted.filterMap Event.report
  /-- No counter knows of a dropped report. -/
  uncounted : ∀ x ∈ s.exec.offered, x.2 ≠ .dropped true

theorem Reports.frame (h : Reports s) (ho : s'.exec.offered = s.exec.offered)
    (hr : s'.core.reports = s.core.reports) (he : s'.emitted = s.emitted) : Reports s' := by
  refine ⟨?_, ?_⟩
  · rw [ho, hr, he]
    exact h.order
  · rw [ho]
    exact h.uncounted

/-- A report leaves the push loop. -/
theorem Reports.settle (h : Reports s) {er : ExecReport} {spins : Nat} {events : List Event} {fate : Fate}
    (hc : s.core = .pushing er spins events) (hf : fate ≠ .dropped true)
    (ho : s'.exec.offered = s.exec.offered ++ [(er, fate)]) (hr : s'.core.reports = events.filterMap Event.report)
    (he : s'.emitted = s.emitted) : Reports s' := by
  have horder := h.order
  rw [hc] at horder
  refine ⟨?_, fun x hx => ?_⟩
  · rw [ho, hr, he, List.map_append, List.append_assoc]
    exact horder
  · rw [ho] at hx
    rcases List.mem_append.mp hx with hx | hx
    · exact h.uncounted x hx
    · rw [List.mem_singleton.mp hx]
      exact hf

theorem Goes.reports (h : Reports s) {m : Move} (hm : Goes s m s') : Reports s' := by
  cases hm with
  | gone => exact h
  | decode => exact h.frame rfl rfl rfl
  | drain => exact h.frame rfl rfl rfl
  | pushed => exact h.frame rfl rfl rfl
  | dropped => exact h.frame rfl rfl rfl
  | spun => exact h.frame rfl rfl rfl
  | popped _ _ _ _ _ ho => exact h.frame ho rfl rfl
  | starved => exact h.frame rfl rfl rfl
  | processed _ _ engine _ hc =>
    have horder := h.order
    rw [hc] at horder
    refine ⟨?_, h.uncounted⟩
    show _ = (s.emitted ++ engine.out).filterMap Event.report
    rw [List.filterMap_append, ← horder]
    exact congrArg (· ++ engine.out.filterMap Event.report) (List.append_nil _).symm
  | finished _ hc => exact h.frame rfl (by rw [hc]; rfl) rfl
  | reporting _ e events _ hc _ hr =>
    refine h.frame rfl ?_ rfl
    rw [hc]
    exact (List.filterMap_cons_some hr).symm
  | fed _ e _ events _ hc _ hr =>
    refine h.frame rfl ?_ rfl
    rw [hc]
    exact (List.filterMap_cons_none hr).symm
  | reported _ _ _ _ _ hc _ _ ho => exact h.settle hc (by decide) ho rfl rfl
  | lost _ _ _ _ _ hc _ _ _ ho => exact h.settle hc (by decide) ho rfl rfl
  | retried _ _ _ _ _ hc _ _ _ ho => exact h.frame ho (by rw [hc]; rfl) rfl
  | published heartbeat =>
    obtain ⟨counters, seq, published, _, e⟩ := publisherStep_frame s heartbeat
    rw [e]
    exact h.frame rfl rfl rfl

theorem not_givesUp (hc : s.core.spins = none) (now : TsNanos) : ¬ GivesUp s (.engine now) := by
  rintro ⟨⟨spins, e, _⟩, _⟩
  rw [hc] at e
  cases e

/-- A report is dropped where `push_exec` gives up, and nowhere else. -/
theorem Goes.exec_drops {m : Move} (hm : Goes s m s') :
    s'.exec.offered.drops = [] ↔ s.exec.offered.drops = [] ∧ ¬ GivesUp s m := by
  cases hm with
  | gone => exact keeps_iff not_false Iff.rfl
  | decode => exact keeps_iff not_false Iff.rfl
  | drain => exact keeps_iff not_false Iff.rfl
  | pushed => exact keeps_iff not_false Iff.rfl
  | dropped => exact keeps_iff not_false Iff.rfl
  | spun => exact keeps_iff not_false Iff.rfl
  | popped _ exec _ _ _ ho =>
    refine keeps_iff not_false ?_
    show exec.offered.drops = [] ↔ _
    rw [ho]
  | starved now _ hc => exact keeps_iff (not_givesUp (by rw [hc]; rfl) now) Iff.rfl
  | processed now _ _ _ hc => exact keeps_iff (not_givesUp (by rw [hc]; rfl) now) Iff.rfl
  | finished now hc => exact keeps_iff (not_givesUp (by rw [hc]; rfl) now) Iff.rfl
  | reporting now _ _ _ hc => exact keeps_iff (not_givesUp (by rw [hc]; rfl) now) Iff.rfl
  | fed now _ _ _ _ hc => exact keeps_iff (not_givesUp (by rw [hc]; rfl) now) Iff.rfl
  | reported _ _ _ _ exec _ hf _ ho =>
    refine keeps_iff (fun h => hf h.2) ?_
    show exec.offered.drops = [] ↔ _
    rw [ho, Offers.drops_kept]
  | lost _ _ spins _ exec hc hf hn _ ho =>
    refine iff_of_false ?_ fun h => h.2 ⟨⟨spins, by rw [hc]; rfl, hn⟩, hf⟩
    show exec.offered.drops ≠ []
    rw [ho, Offers.drops_dropped]
    exact List.append_ne_nil_of_right_ne_nil _ (List.cons_ne_nil _ _)
  | retried _ _ spins _ exec hc _ hn _ ho =>
    refine keeps_iff ?_ ?_
    · rintro ⟨⟨n, e, hn'⟩, _⟩
      rw [hc] at e
      cases e
      omega
    · show exec.offered.drops = [] ↔ _
      rw [ho]
  | published heartbeat =>
    obtain ⟨counters, seq, published, _, e⟩ := publisherStep_frame s heartbeat
    refine keeps_iff not_false ?_
    rw [e]

/-! ## The push loop on a full ring -/

theorem spins_eq {pc : EnginePc} {n : Nat} (h : pc.spins = some n) : ∃ er events, pc = .pushing er n events := by
  cases pc with
  | idle => cases h
  | handling => cases h
  | pushing er spins events =>
    cases h
    exact ⟨er, events, rfl⟩

theorem pushExec_full (h : s.exec.Sound) (hf : s.exec.full) (er : ExecReport) {spins : Nat} (hn : spins < 8192)
    (events : List Event) : (s.pushExec er spins events).core = .pushing er (spins + 1) events ∧
      (s.pushExec er spins events).exec.full := by
  unfold pushExec
  have hcases := Channel.tryPush_cases h er
  rcases e : s.exec.tryPush er with ⟨exec, ok⟩
  rw [e] at hcases
  rcases hcases with ⟨_, hf', rfl, _⟩ | ⟨hf', _⟩
  · simp only [if_neg (show ¬ spins + 1 > 8192 by omega)]
    exact ⟨rfl, hf'⟩
  · exact absurd hf hf'

/-! ## The law -/

/-- No counter records a dropped report, so none may be dropped. -/
theorem Observed.no_drops (ho : Observed s) (hr : Reports s) : s.exec.offered.drops = [] := by
  refine List.filter_eq_nil_iff.mpr fun x hx hfate => ?_
  rcases hx2 : x.2 with _ | counted
  · exact of_decide_eq_true hfate hx2
  · cases counted
    · exact ho.reportDrops x hx hx2
    · exact hr.uncounted x hx hx2

variable [Book B]

theorem start_commands {cfg : EngineConfig} {i e m : Nat} {listening udpValid : Bool}
    (h : start cfg i e m listening udpValid = some s) : Commands listening s ∧ Reports s ∧ s.exec.offered.drops = [] := by
  obtain ⟨engine, _, h⟩ := Option.bind_eq_some_iff.mp h
  cases h
  refine ⟨⟨?_, ?_⟩, ⟨rfl, fun _ hx => absurd hx List.not_mem_nil⟩, rfl⟩
  · cases listening <;> rfl
  · cases listening <;> rfl

theorem no_drops_iff {s0 : Pipeline B} (hr : Rings s0) (h0 : s0.exec.offered.drops = []) {h : List Move}
    (hs : s0.after h = some s) : s.exec.offered.drops = [] ↔ Never GivesUp s0 h :=
  never_iff (P := fun s => s.exec.offered.drops = []) (fun _ _ _ _ hm => hm.exec_drops) hr h0 hs

/-- Every loss is observed exactly when the gateway had a listener and `push_exec` never gave
    up. -/
theorem observed_iff (cfg : EngineConfig) (inboundRing execRing mdRing : Nat) (listening udpValid : Bool)
    (s0 : Pipeline B) (h0 : start cfg inboundRing execRing mdRing listening udpValid = some s0) (h : List Move)
    (s : Pipeline B) (hs : s0.after h = some s) : Observed s ↔ listening = true ∧ Never GivesUp s0 h := by
  obtain ⟨hc0, hr0, hd0⟩ := start_commands h0
  obtain ⟨hrings, hcommands, hreports⟩ := after_inv (P := fun s => Commands listening s ∧ Reports s)
    (fun _ _ _ _ hp hm => ⟨hm.commands hp.1, hm.reports hp.2⟩) (start_rings h0) ⟨hc0, hr0⟩ hs
  rw [← no_drops_iff (start_rings h0) hd0 hs]
  have hdrops := hcommands.drops
  constructor
  · intro ho
    refine ⟨?_, ?_⟩
    · cases listening with
      | true => rfl
      | false =>
        have := ho.commandDrops
        rw [if_neg Bool.false_ne_true] at hdrops
        omega
    · exact ho.no_drops hreports
  · rintro ⟨rfl, hnone⟩
    refine ⟨hcommands.order, hrings.inbound.order, hdrops, hreports.order, hrings.exec.order, fun x hx hx2 => ?_⟩
    have hin : x ∈ s.exec.offered.drops := List.mem_filter.mpr ⟨hx, by rw [hx2]; rfl⟩
    rw [hnone] at hin
    exact List.not_mem_nil hin

/-! ## A lost report -/

theorem step_pushing {er : ExecReport} {spins : Nat} {events : List Event} (hc : s.core = .pushing er spins events)
    (now : TsNanos) : s.step (.engine now) = some (s.pushExec er spins events) := by
  show s.engineStep now = _
  rw [engineStep, hc]

/-- An engine left to itself spins on the full ring up to its bound. -/
theorem spin_out {s0 : Pipeline B} (hr0 : Rings s0) {h : List Move} (hs : s0.after h = some s)
    (hc : s.core.spins = some 0) (hf : s.exec.full) (now : TsNanos) (n : Nat) (hn : n ≤ 8192) :
    ∃ s', s0.after (List.replicate n (.engine now) ++ h) = some s' ∧ s'.core.spins = some n ∧ s'.exec.full := by
  induction n with
  | zero => exact ⟨s, hs, hc, hf⟩
  | succ n ih =>
    obtain ⟨s1, h1, hc1, hf1⟩ := ih (Nat.le_of_succ_le hn)
    have hr1 := after_rings hr0 h1
    obtain ⟨er, events, hcore⟩ := spins_eq hc1
    obtain ⟨hc2, hf2⟩ := pushExec_full hr1.exec hf1 er (show n < 8192 from hn) events
    exact ⟨s1.pushExec er n events, after_step h1 (step_pushing hcore now), by rw [hc2]; rfl, hf2⟩

def bid (id : OrderId) (price : Int64) : RawCommand := .makeNew id 7 (Side.byte .buy) (OrderType.byte .limit) price 5 0

/-- A bid whose report is still in the ring, and a second whose report is in the push loop. -/
def twoBids : List Move :=
  [.engine 0, .engine 0, .gateway none, .gateway (some (bid 2 101)), .engine 0, .engine 0, .engine 0, .engine 0, .engine 0,
    .gateway none, .gateway (some (bid 1 100))]

theorem observed_two_bids : ∃ s0 s : Pipeline OrderBook,
    start { minPrice := 1, maxPrice := 500, maxOrders := 4 } 2 2 2 true true = some s0 ∧ s0.after twoBids = some s ∧
      (Observed s ↔ true = true ∧ Never GivesUp s0 twoBids) := by
  have key : (do
      let s0 ← start (B := OrderBook) { minPrice := 1, maxPrice := 500, maxOrders := 4 } 2 2 2 true true
      let s ← s0.after twoBids
      some s.core.spins) = some (some 0) := by decide +kernel
  obtain ⟨s0, h0, key⟩ := Option.bind_eq_some_iff.mp key
  obtain ⟨s, hs, _⟩ := Option.bind_eq_some_iff.mp key
  exact ⟨s0, s, h0, hs, observed_iff _ 2 2 2 true true s0 h0 twoBids s hs⟩

/-- The gateway pops no report while the engine makes its 8193 attempts: the report of the
    second bid is gone, and no counter says so. -/
theorem report_lost_uncounted : ¬ ∀ (s0 : Pipeline OrderBook),
    start { minPrice := 1, maxPrice := 500, maxOrders := 4 } 2 2 2 true true = some s0 →
      ∀ (h : List Move) (s : Pipeline OrderBook), s0.after h = some s → Observed s := by
  intro hall
  have key : (do
      let s0 ← start (B := OrderBook) { minPrice := 1, maxPrice := 500, maxOrders := 4 } 2 2 2 true true
      let s ← s0.after twoBids
      some (decide (s.core.spins = some 0 ∧ s.exec.full))) = some true := by decide +kernel
  obtain ⟨s0, h0, key⟩ := Option.bind_eq_some_iff.mp key
  obtain ⟨s, hs, key⟩ := Option.bind_eq_some_iff.mp key
  simp only [Option.some.injEq, decide_eq_true_eq] at key
  obtain ⟨hcommands0, hreports0, hdrops0⟩ := start_commands h0
  obtain ⟨h', s1, h1, hc1, hf1⟩ : ∃ h' s1, s0.after h' = some s1 ∧ s1.core.spins = some 8192 ∧ s1.exec.full :=
    ⟨_, spin_out (start_rings h0) hs key.1 key.2 0 8192 (Nat.le_refl _)⟩
  obtain ⟨er, events, hcore⟩ := spins_eq hc1
  have h2 : s0.after (.engine 0 :: h') = some (s1.pushExec er 8192 events) := after_step h1 (step_pushing hcore 0)
  have hreports2 := (after_inv (P := Reports) (fun _ _ _ _ hp hm => hm.reports hp) (start_rings h0) hreports0 h2).2
  have hnone := (hall s0 h0 _ _ h2).no_drops hreports2
  have hnever := (no_drops_iff (start_rings h0) hdrops0 h2).mp hnone
  exact ((never_cons h1).mp hnever).2 ⟨⟨8192, hc1, Nat.le_refl _⟩, hf1⟩

end Lob.Pipeline
