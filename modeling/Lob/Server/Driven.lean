/-
  Lob.Server.Driven — what the engine thread has done, after any history.

  The engine is where a run of its own takes it: the inputs are the commands taken off the
  inbound ring, in that order, each with the clock of its move, and the events emitted are
  the run's (`Driven`). So whatever holds of runs of the engine holds of the server's. The
  thread looks at the events one by one; the counters of trades and rejects count those it
  has looked at (`Handled`).
-/

import Lob.Engine.Deals
import Lob.Engine.Runs
import Lob.Server.PipelineProofs

namespace Lob

open Wire

/-- The events not looked at yet. -/
def EnginePc.events : EnginePc → List Event
  | .idle => []
  | .handling events => events
  | .pushing _ _ events => events

namespace Pipeline

variable {B : Type} [Book B] {s0 s s' : Pipeline B} {is : List Engine.Input} {done : List Event}

structure Driven (s0 s : Pipeline B) (is : List Engine.Input) : Prop where
  steps : s0.engine.steps is = some s.engine
  emitted : s.emitted = s0.engine.emitted is
  taken : s.inbound.taken.map RawCommand.command = is.map Engine.Input.command?
  commands : s.counters.commands = is.length

/-- Of the events emitted, `done` are looked at. -/
structure Handled (s : Pipeline B) (done : List Event) : Prop where
  emitted : s.emitted = done ++ s.core.events
  trades : s.counters.trades = occurs .trade done
  rejects : s.counters.rejects = occurs .rejected done

/-- The event it looks at next. -/
def looking (s : Pipeline B) : Option Event :=
  match s.core with
  | .handling (e :: _) => some e
  | _ => none

/-! ## The other threads -/

/-- What the other threads leave of the engine thread's. -/
structure SameCore (s s' : Pipeline B) : Prop where
  core : s'.core = s.core
  engine : s'.engine = s.engine
  emitted : s'.emitted = s.emitted
  taken : s'.inbound.taken = s.inbound.taken
  commands : s'.counters.commands = s.counters.commands
  trades : s'.counters.trades = s.counters.trades
  rejects : s'.counters.rejects = s.counters.rejects

theorem SameCore.driven (h : SameCore s s') (hd : Driven s0 s is) : Driven s0 s' is :=
  ⟨by rw [h.engine]; exact hd.steps, by rw [h.emitted]; exact hd.emitted, by rw [h.taken]; exact hd.taken,
    by rw [h.commands]; exact hd.commands⟩

omit [Book B] in
theorem SameCore.handled (h : SameCore s s') (hh : Handled s done) : Handled s' done :=
  ⟨by rw [h.emitted, h.core]; exact hh.emitted, by rw [h.trades]; exact hh.trades, by rw [h.rejects]; exact hh.rejects⟩

theorem tryPush_taken {T : Type} (c : Channel T) (v : T) : (c.tryPush v).1.taken = c.taken := by
  unfold Channel.tryPush
  rcases c.ring.tryPush v with ⟨ring, ok⟩
  cases ok <;> rfl

omit [Book B] in
theorem gateway_same (s : Pipeline B) (input : Option RawCommand) : SameCore s (s.gatewayStep input) := by
  unfold gatewayStep
  cases hg : s.gateway with
  | gone => exact ⟨rfl, rfl, rfl, rfl, rfl, rfl, rfl⟩
  | serving => cases input <;> exact ⟨rfl, rfl, rfl, rfl, rfl, rfl, rfl⟩
  | pushing cmd spins =>
    have htaken := tryPush_taken s.inbound cmd
    simp only [pushInbound]
    rcases hp : s.inbound.tryPush cmd with ⟨inbound, ok⟩
    rw [hp] at htaken
    cases ok with
    | true => exact ⟨rfl, rfl, rfl, htaken, rfl, rfl, rfl⟩
    | false =>
      by_cases hn : spins + 1 > 4096
      · simp only [if_pos hn]
        exact ⟨rfl, rfl, rfl, htaken, rfl, rfl, rfl⟩
      · simp only [if_neg hn]
        exact ⟨rfl, rfl, rfl, htaken, rfl, rfl, rfl⟩
  | draining => exact ⟨rfl, rfl, rfl, rfl, rfl, rfl, rfl⟩

omit [Book B] in
theorem publisher_same (s : Pipeline B) (heartbeat : Option TsNanos) : SameCore s (s.publisherStep heartbeat) := by
  unfold publisherStep publishMd publish
  rcases s.md.tryPop with ⟨md, _ | m⟩ <;> cases heartbeat <;> cases s.udpValid <;> exact ⟨rfl, rfl, rfl, rfl, rfl, rfl, rfl⟩

/-! ## The engine thread -/

/-- A command popped is one more input. -/
theorem Driven.popped (hd : Driven s0 s is) {now : TsNanos} {cmd : RawCommand} (hp : s.inbound.tryPop.2 = some cmd)
    (h : s.popInbound now = some s') : ∃ c, cmd.command = some c ∧ Driven s0 s' (is ++ [.command now c]) ∧
      s'.core = .handling s'.engine.out ∧ s'.emitted = s.emitted ++ s'.engine.out ∧
      s'.counters.trades = s.counters.trades ∧ s'.counters.rejects = s.counters.rejects := by
  have htaken : s.inbound.tryPop.1.taken = s.inbound.taken ++ s.inbound.tryPop.2.toList := rfl
  unfold popInbound at h
  rcases e : s.inbound.tryPop with ⟨inbound, got⟩
  rw [e] at h hp htaken
  obtain rfl : got = some cmd := hp
  obtain ⟨c, hc, h⟩ := Option.bind_eq_some_iff.mp h
  obtain ⟨engine, he, h⟩ := Option.bind_eq_some_iff.mp h
  cases h
  have hstep : s.engine.step (.command now c) = some engine := he
  have hone : s.engine.steps [.command now c] = some engine := Option.bind_eq_some_iff.mpr ⟨engine, hstep, rfl⟩
  refine ⟨c, hc, ⟨?_, ?_, ?_, ?_⟩, rfl, rfl, rfl, rfl⟩
  · rw [steps_append, hd.steps]
    exact hone
  · show s.emitted ++ engine.out = _
    rw [emitted_append hd.steps, emitted_cons hstep, hd.emitted]
    exact congrArg (_ ++ ·) (List.append_nil _).symm
  · show inbound.taken.map RawCommand.command = _
    rw [htaken, List.map_append, List.map_append, hd.taken]
    exact congrArg (_ ++ [·]) hc
  · show s.counters.commands + 1 = _
    rw [hd.commands, List.length_append]
    rfl

/-- Looking at an event counts it. -/
theorem Driven.handle (hd : Driven s0 s is) (hh : Handled s done) {e : Event} {events : List Event}
    (hc : s.core = .handling (e :: events)) :
    (s.handle e events).core ≠ .idle ∧ Driven s0 (s.handle e events) is ∧ Handled (s.handle e events) (done ++ [e]) := by
  obtain ⟨hemitted, htrades, hrejects⟩ := hh
  rw [hc] at hemitted
  have hmore : s.emitted = done ++ [e] ++ events := hemitted.trans (List.append_cons ..)
  have hcount : ∀ t, occurs t (done ++ [e]) = occurs t done + if e.type = t then 1 else 0 := by
    intro t
    rw [occurs_append]
    congr 1
    unfold occurs
    rw [List.countP_singleton]
    simp only [decide_eq_true_eq]
  unfold Pipeline.handle
  cases ht : e.type
  all_goals
    refine ⟨EnginePc.noConfusion, ⟨hd.steps, hd.emitted, hd.taken, hd.commands⟩, hmore, ?_, ?_⟩
    all_goals
      rw [hcount, ht]
      first | exact congrArg (· + 1) htrades | exact congrArg (· + 1) hrejects | exact htrades | exact hrejects

/-- A step of the thread pops a command, looks at an event, or does neither. -/
theorem Driven.engineStep (hd : Driven s0 s is) (hh : Handled s done) {now : TsNanos} (h : s.engineStep now = some s') :
    (∃ cmd c, s.core = .idle ∧ s.inbound.tryPop.2 = some cmd ∧ cmd.command = some c ∧ s'.core = .handling s'.engine.out ∧
      Driven s0 s' (is ++ [.command now c]) ∧ Handled s' done) ∨
    (∃ e, s.looking = some e ∧ s'.core ≠ .idle ∧ Driven s0 s' is ∧ Handled s' (done ++ [e])) ∨
    (s.looking = none ∧ (s.core = .idle → s.inbound.tryPop.2 = none) ∧ Driven s0 s' is ∧ Handled s' done) := by
  unfold Pipeline.engineStep at h
  unfold looking
  cases hc : s.core with
  | idle =>
    rw [hc] at h
    obtain ⟨hemitted, htrades, hrejects⟩ := hh
    rw [hc] at hemitted
    cases hp : s.inbound.tryPop.2 with
    | some cmd =>
      obtain ⟨c, hcmd, hd', hcore, hout, ht, hr⟩ := hd.popped hp h
      refine Or.inl ⟨cmd, c, rfl, rfl, hcmd, hcore, hd', ?_, ht.trans htrades, hr.trans hrejects⟩
      rw [hout, hcore, hemitted]
      exact congrArg (· ++ _) (List.append_nil done)
    | none =>
      unfold popInbound at h
      rcases e : s.inbound.tryPop with ⟨inbound, got⟩
      rw [e] at h hp
      obtain rfl : got = none := hp
      cases h
      have htaken : inbound.taken = s.inbound.taken := by
        have : s.inbound.tryPop.1.taken = s.inbound.taken ++ s.inbound.tryPop.2.toList := rfl
        rw [e] at this
        exact this.trans (List.append_nil _)
      refine Or.inr (Or.inr ⟨rfl, fun _ => rfl, ⟨hd.steps, hd.emitted, ?_, hd.commands⟩, ?_, htrades, hrejects⟩)
      · rw [← hd.taken]
        exact congrArg (List.map _) htaken
      · show s.emitted = done ++ s.core.events
        rw [hc]
        exact hemitted
  | handling events =>
    rw [hc] at h
    cases events with
    | nil =>
      cases h
      obtain ⟨hemitted, htrades, hrejects⟩ := hh
      rw [hc] at hemitted
      exact Or.inr (Or.inr ⟨rfl, EnginePc.noConfusion, ⟨hd.steps, hd.emitted, hd.taken, hd.commands⟩, hemitted, htrades,
        hrejects⟩)
    | cons e events =>
      cases h
      obtain ⟨hne, hd', hh'⟩ := hd.handle hh hc
      exact Or.inr (Or.inl ⟨e, rfl, hne, hd', hh'⟩)
  | pushing er spins events =>
    rw [hc] at h
    cases h
    obtain ⟨hemitted, htrades, hrejects⟩ := hh
    rw [hc] at hemitted
    refine Or.inr (Or.inr ⟨rfl, EnginePc.noConfusion, ?_⟩)
    unfold pushExec
    rcases s.exec.tryPush er with ⟨exec, ok⟩
    cases ok with
    | true => exact ⟨⟨hd.steps, hd.emitted, hd.taken, hd.commands⟩, hemitted, htrades, hrejects⟩
    | false =>
      by_cases hn : spins + 1 > 8192
      · simp only [if_pos hn]
        exact ⟨⟨hd.steps, hd.emitted, hd.taken, hd.commands⟩, hemitted, htrades, hrejects⟩
      · simp only [if_neg hn]
        exact ⟨⟨hd.steps, hd.emitted, hd.taken, hd.commands⟩, hemitted, htrades, hrejects⟩

/-! ## Histories -/

/-- What the engine thread has done at any time. -/
theorem after_driven {h : List Move} (hd : Driven s0 s0 []) (hh : Handled s0 []) (hs : s0.after h = some s) :
    ∃ is done, Driven s0 s is ∧ Handled s done := by
  induction h generalizing s with
  | nil =>
    cases hs
    exact ⟨[], [], hd, hh⟩
  | cons m h ih =>
    obtain ⟨s1, h1, hm⟩ := after_cons hs
    obtain ⟨is, done, hd1, hh1⟩ := ih h1
    cases m with
    | gateway input =>
      cases hm
      have hsame := gateway_same s1 input
      exact ⟨is, done, hsame.driven hd1, hsame.handled hh1⟩
    | publisher heartbeat =>
      cases hm
      have hsame := publisher_same s1 heartbeat
      exact ⟨is, done, hsame.driven hd1, hsame.handled hh1⟩
    | engine now =>
      rcases hd1.engineStep hh1 hm with ⟨_, _, _, _, _, _, hd', hh'⟩ | ⟨_, _, _, hd', hh'⟩ | ⟨_, _, hd', hh'⟩
      · exact ⟨_, _, hd', hh'⟩
      · exact ⟨_, _, hd', hh'⟩
      · exact ⟨_, _, hd', hh'⟩

theorem start_driven {cfg : EngineConfig} {i e m : Nat} {listening udpValid : Bool}
    (h : start cfg i e m listening udpValid = some s) :
    Engine.init cfg = some s.engine ∧ Driven s s [] ∧ Handled s [] := by
  obtain ⟨engine, he, h⟩ := Option.bind_eq_some_iff.mp h
  cases h
  cases listening <;> exact ⟨he, ⟨rfl, rfl, rfl, rfl⟩, rfl, rfl, rfl⟩

end Pipeline

end Lob
