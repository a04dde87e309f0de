/-
  Lob.Laws.Gridlock — when the server can no longer get away without a loss.

  The gateway pushes a command in a bounded loop and pops no reports meanwhile; the engine
  pushes a report in a bounded loop and pops no commands meanwhile. Each loop ends in a drop.

  `gridlock`: a loss has become inevitable exactly when the gateway is in its loop on a full
  ring and the reports the engine has in hand do not fit the other ring (`Doomed`). From every
  other state some order of moves works off all that was decoded without one.
-/

import Lob.Book.OrderBookProofs
import Lob.Laws.Backpressure
import Lob.Server.Driven

namespace Lob

open Wire

/-- The engine is defined on the command. -/
def RawCommand.Plain (raw : RawCommand) : Prop := ∃ c ∈ raw.command, ¬ c.Unpriced

instance (raw : RawCommand) : Decidable raw.Plain := by
  unfold RawCommand.Plain
  infer_instance

namespace Pipeline

variable {B : Type} {s s' s'' : Pipeline B}

/-- Commands and reports dropped so far. -/
def losses (s : Pipeline B) : Nat := s.inbound.offered.drops.length + s.exec.offered.drops.length

/-- Each loop waits for the other thread to pop. -/
def Doomed (s : Pipeline B) : Prop :=
  s.gateway.pending ≠ [] ∧ s.inbound.full ∧ s.exec.ring.capacity ≤ s.exec.contents.length + s.core.reports.length

instance (s : Pipeline B) : Decidable (Doomed s) := by
  unfold Doomed
  infer_instance

/-! ## A doomed state -/

/-- The other threads of a doomed state wait. -/
theorem Doomed.gateway (hr : Rings s) (h : Doomed s) (input : Option RawCommand) :
    (Doomed (s.gatewayStep input) ∧ (s.gatewayStep input).losses = s.losses) ∨ s.losses < (s.gatewayStep input).losses := by
  obtain ⟨hpending, hfull, hreports⟩ := h
  unfold gatewayStep
  cases hg : s.gateway with
  | gone =>
    rw [hg] at hpending
    exact absurd rfl hpending
  | serving =>
    rw [hg] at hpending
    exact absurd rfl hpending
  | draining =>
    rw [hg] at hpending
    exact absurd rfl hpending
  | pushing cmd spins =>
    simp only [pushInbound]
    rcases Channel.tryPush_cases hr.inbound cmd with ⟨_, hfull', hok, _, ho, _⟩ | ⟨hroom, _⟩
    · rcases e : s.inbound.tryPush cmd with ⟨inbound, ok⟩
      rw [e] at hfull' hok ho
      obtain rfl : ok = false := hok
      have ho : inbound.offered = s.inbound.offered := ho
      by_cases hn : spins + 1 > 4096
      · simp only [if_pos hn]
        refine Or.inr (Nat.add_lt_add_right ?_ _)
        show _ < (inbound.drop cmd _).offered.drops.length
        rw [Channel.drop, ho, Offers.drops_dropped, List.length_append]
        exact Nat.lt_succ_self _
      · simp only [if_neg hn]
        refine Or.inl ⟨⟨List.cons_ne_nil _ _, hfull', hreports⟩, ?_⟩
        show inbound.offered.drops.length + _ = _
        rw [ho]
        rfl
    · exact absurd hfull hroom

/-- A report in hand keeps the engine from the commands. -/
theorem Doomed.reporting (hr : Rings s) (h : Doomed s) : s.core.reports ≠ [] := by
  intro hnone
  have hlt := hr.exec.length_lt
  have hreports := h.2.2
  rw [hnone, List.length_nil] at hreports
  omega

theorem Doomed.pushExec (hr : Rings s) (h : Doomed s) {er : ExecReport} {spins : Nat} {events : List Event}
    (hc : s.core = .pushing er spins events) :
    (Doomed (s.pushExec er spins events) ∧ (s.pushExec er spins events).losses = s.losses) ∨
      s.losses < (s.pushExec er spins events).losses := by
  obtain ⟨hpending, hfull, hreports⟩ := h
  rw [hc] at hreports
  obtain ⟨hcap, hcontents⟩ := Channel.tryPush_contents hr.exec er
  have hcases := Channel.tryPush_cases hr.exec er
  unfold Pipeline.pushExec
  rcases e : s.exec.tryPush er with ⟨exec, ok⟩
  rw [e] at hcap hcontents hcases
  rcases hcases with ⟨hf, _, rfl, _, ho, _⟩ | ⟨hf, rfl, _, ho, _⟩
  · rw [if_pos hf] at hcontents
    by_cases hn : spins + 1 > 8192
    · simp only [if_pos hn]
      refine Or.inr (Nat.add_lt_add_left ?_ _)
      show _ < (exec.drop er _).offered.drops.length
      rw [Channel.drop, ho, Offers.drops_dropped, List.length_append]
      exact Nat.lt_succ_self _
    · simp only [if_neg hn]
      refine Or.inl ⟨⟨hpending, hfull, ?_⟩, ?_⟩
      · show exec.ring.capacity ≤ exec.contents.length + _
        rw [hcap, hcontents]
        exact hreports
      · show _ + exec.offered.drops.length = _
        rw [ho]
        rfl
  · rw [if_neg hf] at hcontents
    refine Or.inl ⟨⟨hpending, hfull, ?_⟩, ?_⟩
    · show exec.ring.capacity ≤ exec.contents.length + (events.filterMap Event.report).length
      rw [hcap, hcontents, List.length_append, Nat.add_assoc, Nat.add_comm [er].length]
      exact hreports
    · show _ + exec.offered.drops.length = _
      rw [ho, Offers.drops_kept]
      rfl

theorem handle_frame (s : Pipeline B) (e : Event) (events : List Event) :
    (s.handle e events).gateway = s.gateway ∧ (s.handle e events).inbound = s.inbound ∧
      (s.handle e events).exec = s.exec ∧ (s.handle e events).decoded = s.decoded := by
  unfold handle
  cases e.type <;> exact ⟨rfl, rfl, rfl, rfl⟩

/-- An event's report, if it has one, is what it leads to. -/
theorem handle_core (s : Pipeline B) (e : Event) (events : List Event) :
    (∃ er, e.report = some er ∧ (s.handle e events).core = .pushing er 0 events) ∨
      e.report = none ∧ (s.handle e events).core = .handling events := by
  unfold handle Event.report
  cases e.type
  all_goals first
    | exact Or.inl ⟨_, rfl, rfl⟩
    | exact Or.inr ⟨rfl, rfl⟩

theorem handle_reports (s : Pipeline B) (e : Event) (events : List Event) :
    (s.handle e events).core.reports = (e :: events).filterMap Event.report := by
  rcases handle_core s e events with ⟨er, hr, hc⟩ | ⟨hr, hc⟩
  · rw [hc, List.filterMap_cons_some hr]
    rfl
  · rw [hc, List.filterMap_cons_none hr]
    rfl

theorem Doomed.same (h : Doomed s) (hg : s'.gateway = s.gateway) (hi : s'.inbound = s.inbound) (he : s'.exec = s.exec)
    (hc : s'.core.reports = s.core.reports) : Doomed s' ∧ s'.losses = s.losses := by
  unfold Doomed losses
  rw [hg, hi, he, hc]
  exact ⟨h, rfl⟩

variable [Book B]

/-- A step from a doomed state. -/
theorem Doomed.step (hr : Rings s) (h : Doomed s) {m : Move} (hm : s.step m = some s') :
    (Doomed s' ∧ s'.losses = s.losses) ∨ s.losses < s'.losses := by
  cases m with
  | gateway input =>
    cases hm
    exact h.gateway hr input
  | publisher heartbeat =>
    cases hm
    obtain ⟨counters, seq, published, _, e⟩ := publisherStep_frame s heartbeat
    rw [e]
    exact Or.inl ⟨h, rfl⟩
  | engine now =>
    have hreporting := h.reporting hr
    have hm : s.engineStep now = some s' := hm
    unfold engineStep at hm
    cases hc : s.core with
    | idle =>
      rw [hc] at hreporting
      exact absurd rfl hreporting
    | handling events =>
      rw [hc] at hm hreporting
      cases events with
      | nil => exact absurd rfl hreporting
      | cons e events =>
        cases hm
        obtain ⟨hg, hi, he, _⟩ := handle_frame s e events
        refine Or.inl (h.same hg hi he ?_)
        rw [handle_reports, hc]
        rfl
    | pushing er spins events =>
      rw [hc] at hm
      cases hm
      exact h.pushExec hr hc

/-! ## Going on without a loss -/

theorem after_append (s0 : Pipeline B) (h h' : List Move) : s0.after (h' ++ h) = (s0.after h).bind (·.after h') := by
  induction h' with
  | nil => exact (Option.bind_fun_some _).symm
  | cons m h' ih =>
    show (s0.after (h' ++ h)).bind _ = _
    rw [ih, Option.bind_assoc]
    rfl

/-- Some moves lead from `s` to `s'`, with no further command and no loss. -/
structure Leads (s s' : Pipeline B) : Prop where
  after : ∃ h, s.after h = some s'
  decoded : s'.decoded = s.decoded
  losses : s'.losses = s.losses

theorem Leads.refl (s : Pipeline B) : Leads s s := ⟨⟨[], rfl⟩, rfl, rfl⟩

theorem Leads.trans (h : Leads s s') (h' : Leads s' s'') : Leads s s'' := by
  obtain ⟨⟨hist, hs⟩, hd, hl⟩ := h
  obtain ⟨⟨hist', hs'⟩, hd', hl'⟩ := h'
  refine ⟨⟨hist' ++ hist, ?_⟩, hd'.trans hd, hl'.trans hl⟩
  rw [after_append, hs]
  exact hs'

/-- One move. -/
theorem Leads.move {m : Move} (hm : s.step m = some s') (hd : s'.decoded = s.decoded)
    (hi : s'.inbound.offered.drops = s.inbound.offered.drops) (he : s'.exec.offered.drops = s.exec.offered.drops) :
    Leads s s' := by
  refine ⟨⟨[m], Option.bind_eq_some_iff.mpr ⟨s, rfl, hm⟩⟩, hd, ?_⟩
  unfold Pipeline.losses
  rw [hi, he]

/-- The state is one a server with a listener gets to on plain commands. -/
structure Live (s : Pipeline B) : Prop where
  reached : ∃ cfg i e m udpValid s0 h, start cfg i e m true udpValid = some s0 ∧ s0.after h = some s
  plain : ∀ raw ∈ s.decoded, raw.Plain

theorem Live.leads (h : Live s) (hl : Leads s s') : Live s' := by
  obtain ⟨cfg, i, e, m, udpValid, s0, hist, h0, hs⟩ := h.reached
  obtain ⟨hist', hs'⟩ := hl.after
  refine ⟨⟨cfg, i, e, m, udpValid, s0, hist' ++ hist, h0, ?_⟩, ?_⟩
  · rw [after_append, hs]
    exact hs'
  · rw [hl.decoded]
    exact h.plain

theorem Live.rings (h : Live s) : Rings s := by
  obtain ⟨_, _, _, _, _, _, _, h0, hs⟩ := h.reached
  exact after_rings (start_rings h0) hs

/-- What the engine pops it can process. -/
theorem Live.pops [LawfulBook B] (h : Live s) {cmd : RawCommand} (hin : cmd ∈ s.inbound.contents) (now : TsNanos) :
    ∃ c engine, cmd.command = some c ∧ s.engine.process now c = some engine := by
  have hplain := h.plain
  obtain ⟨cfg, i, e, m, udpValid, s0, hist, h0, hs⟩ := h.reached
  obtain ⟨hengine, hd0, hh0⟩ := start_driven h0
  obtain ⟨is, _, hdriven, _⟩ := after_driven hd0 hh0 hs
  obtain ⟨hc0, _, _⟩ := start_commands h0
  obtain ⟨hrings, hcommands⟩ := after_inv (P := Commands true) (fun _ _ _ _ hp hm => hm.commands hp) (start_rings h0) hc0 hs
  have hkept := (hcommands.kept_sublist hrings.inbound).subset
  have hobeys : ∀ i ∈ is, i.Obeys fun cmd => ¬ cmd.Unpriced := by
    intro i hi
    have hmem : i.command? ∈ s.inbound.taken.map RawCommand.command := by
      rw [hdriven.taken]
      exact List.mem_map_of_mem hi
    obtain ⟨raw, hraw, hcommand⟩ := List.mem_map.mp hmem
    obtain ⟨c, hc, hpriced⟩ := hplain raw (hkept (List.mem_append_left _ hraw))
    rw [hcommand] at hc
    cases i with
    | setHalted b => cases hc
    | command t c' =>
      cases hc
      exact hpriced
  obtain ⟨e', he', hsim, hpriced⟩ := steps_flat is s0.engine _ (init_simulates hengine) (FlatEngine.Priced.init _ _) hobeys
  obtain rfl := Option.some.inj (he'.symm.trans hdriven.steps)
  obtain ⟨c, hc, hcmd⟩ := hplain cmd (hkept (List.mem_append_right _ hin))
  obtain ⟨engine, he, _⟩ := step_flat hsim hpriced (i := .command now c) hcmd
  exact ⟨c, engine, hc, he⟩

/-! ## Each thread goes on -/

/-- The gateway's push finds room. -/
theorem Live.pushed (h : Live s) {cmd : RawCommand} {spins : Nat} (hg : s.gateway = .pushing cmd spins)
    (hroom : ¬ s.inbound.full) : ∃ s', Leads s s' ∧ s'.gateway = .serving := by
  have hstep : s.step (.gateway none) = some (s.pushInbound cmd spins) := by
    show some (s.gatewayStep none) = _
    rw [gatewayStep, hg]
  refine ⟨_, .move hstep ?_ ?_ ?_, ?_⟩
  all_goals
    unfold pushInbound
    rcases Channel.tryPush_cases h.rings.inbound cmd with ⟨hfull, _⟩ | ⟨_, hok, _, ho, _⟩
    · exact absurd hfull hroom
    · rcases e : s.inbound.tryPush cmd with ⟨inbound, ok⟩
      rw [e] at hok ho
      obtain rfl : ok = true := hok
      first
        | rfl
        | exact (congrArg Offers.drops ho).trans (Offers.drops_kept ..)

/-- An attempt to push a report finds room. -/
theorem Live.reported (h : Live s) {er : ExecReport} {spins : Nat} {events : List Event}
    (hc : s.core = .pushing er spins events) (hroom : ¬ s.exec.full) :
    ∃ s', Leads s s' ∧ s'.core = .handling events ∧ s'.exec.contents = s.exec.contents ++ [er] ∧
      s'.exec.ring.capacity = s.exec.ring.capacity ∧ s'.gateway = s.gateway ∧ s'.inbound = s.inbound := by
  obtain ⟨hcap, hcontents⟩ := Channel.tryPush_contents h.rings.exec er
  rw [if_neg hroom] at hcontents
  rcases Channel.tryPush_cases h.rings.exec er with ⟨hfull, _⟩ | ⟨_, hok, _, ho, _⟩
  · exact absurd hfull hroom
  · rcases e : s.exec.tryPush er with ⟨exec, ok⟩
    rw [e] at hcap hcontents hok ho
    obtain rfl : ok = true := hok
    have hstep : s.step (.engine 0) = some { s with exec := exec, core := .handling events } := by
      rw [step_pushing hc, pushExec, e]
      rfl
    exact ⟨_, .move hstep rfl rfl ((congrArg Offers.drops ho).trans (Offers.drops_kept ..)), rfl, hcontents, hcap, rfl, rfl⟩

/-- The engine gets past an event. -/
theorem Live.handled (h : Live s) {e : Event} {events : List Event} (hc : s.core = .handling (e :: events))
    (hroom : e.report.isSome → ¬ s.exec.full) :
    ∃ s', Leads s s' ∧ s'.core = .handling events ∧ s'.exec.contents = s.exec.contents ++ e.report.toList ∧
      s'.exec.ring.capacity = s.exec.ring.capacity ∧ s'.gateway = s.gateway ∧ s'.inbound = s.inbound := by
  have hstep : s.step (.engine 0) = some (s.handle e events) := by
    show s.engineStep 0 = _
    rw [engineStep, hc]
  obtain ⟨hg, hi, hx, hd⟩ := handle_frame s e events
  have hlead := Leads.move hstep hd (by rw [hi]) (by rw [hx])
  rcases handle_core s e events with ⟨er, hr, hcore⟩ | ⟨hr, hcore⟩
  · have hroom' : ¬ (s.handle e events).exec.full := by
      rw [hx]
      exact hroom (by rw [hr]; rfl)
    obtain ⟨s', hlead', hc', hcontents, hcap, hg', hi'⟩ := (h.leads hlead).reported hcore hroom'
    rw [hx] at hcontents hcap
    exact ⟨s', hlead.trans hlead', hc', by rw [hcontents, hr]; rfl, hcap, hg'.trans hg, hi'.trans hi⟩
  · refine ⟨_, hlead, hcore, ?_, by rw [hx], hg, hi⟩
    rw [hx, hr]
    exact (List.append_nil _).symm

theorem Leads.finished (hc : s.core = .handling []) : Leads s { s with core := .idle } := by
  have hstep : s.step (.engine 0) = some { s with core := .idle } := by
    show s.engineStep 0 = _
    rw [engineStep, hc]
  exact .move hstep rfl rfl rfl

/-- The engine takes a command. -/
theorem Live.processed [LawfulBook B] (h : Live s) (hc : s.core = .idle) (hne : s.inbound.contents ≠ []) :
    ∃ s' events, Leads s s' ∧ s'.core = .handling events ∧ s'.inbound.contents = s.inbound.contents.tail ∧
      s'.inbound.ring.capacity = s.inbound.ring.capacity ∧ s'.gateway = s.gateway := by
  obtain ⟨hcap, hgot, hcontents⟩ := Channel.tryPop_contents h.rings.inbound
  have hoffered := (Channel.tryPop_spec h.rings.inbound).2.1
  obtain ⟨cmd, rest, hq⟩ := List.exists_cons_of_ne_nil hne
  have hmem : cmd ∈ s.inbound.contents := hq ▸ List.mem_cons_self
  obtain ⟨c, engine, hcmd, hengine⟩ := h.pops hmem 0
  rw [hq] at hgot
  rcases e : s.inbound.tryPop with ⟨inbound, got⟩
  rw [e] at hcap hgot hcontents hoffered
  obtain rfl : got = some cmd := hgot
  have hstep : s.step (.engine 0) = some { s with
      inbound := inbound
      engine := engine
      counters := { s.counters with commands := s.counters.commands + 1 }
      emitted := s.emitted ++ engine.out
      core := .handling engine.out } := by
    show s.engineStep 0 = _
    rw [engineStep, hc]
    show s.popInbound 0 = _
    rw [popInbound, e]
    exact Option.bind_eq_some_iff.mpr ⟨c, hcmd, Option.bind_eq_some_iff.mpr ⟨engine, hengine, rfl⟩⟩
  exact ⟨_, engine.out, .move hstep rfl (congrArg Offers.drops hoffered) rfl, rfl, hcontents, hcap, rfl⟩

/-! ## Working off -/

variable [LawfulBook B]

omit [Book B] [LawfulBook B] in
/-- What is lost stays lost. -/
theorem Goes.losses {m : Move} (hm : Goes s m s') : s.losses ≤ s'.losses := by
  have hkept : ∀ {T : Type} {o o' : Offers T} {v : T}, o' = o ++ [(v, .kept)] → o'.drops.length = o.drops.length := by
    intro T o o' v e
    rw [e, Offers.drops_kept]
  have hdropped : ∀ {T : Type} {o o' : Offers T} {v : T} {counted : Bool}, o' = o ++ [(v, .dropped counted)] →
      o.drops.length ≤ o'.drops.length := by
    intro T o o' v counted e
    rw [e, Offers.drops_dropped, List.length_append]
    exact Nat.le_add_right ..
  unfold Pipeline.losses
  cases hm with
  | pushed _ _ _ _ _ _ _ ho => exact Nat.add_le_add_right (hkept ho).ge _
  | dropped _ _ _ _ _ _ _ ho => exact Nat.add_le_add_right (hdropped ho) _
  | spun _ _ _ _ _ _ _ ho => exact Nat.add_le_add_right (congrArg (·.drops.length) ho).ge _
  | popped _ _ _ _ _ ho => exact Nat.add_le_add_left (congrArg (·.drops.length) ho).ge _
  | starved _ _ _ _ ho => exact Nat.add_le_add_right (congrArg (·.drops.length) ho).ge _
  | processed _ _ _ _ _ _ ho => exact Nat.add_le_add_right (congrArg (·.drops.length) ho).ge _
  | reported _ _ _ _ _ _ _ _ ho => exact Nat.add_le_add_left (hkept ho).ge _
  | lost _ _ _ _ _ _ _ _ _ ho => exact Nat.add_le_add_left (hdropped ho) _
  | retried _ _ _ _ _ _ _ _ _ ho => exact Nat.add_le_add_left (congrArg (·.drops.length) ho).ge _
  | published heartbeat =>
    obtain ⟨counters, seq, published, _, e⟩ := publisherStep_frame s heartbeat
    rw [e]
  | _ => exact Nat.le_refl _

end Lob.Pipeline
