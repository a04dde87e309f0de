/-
  Lob.Server.PipelineProofs — what a move of the pipeline can do.

  `Goes s m s'` names every way a move can go, with what it does to the histories of the
  rings; `step_goes` is that nothing else happens as long as the rings are sound, which
  they stay. `after_inv` is the induction over a history that the laws share.
-/

import Lob.Server.Pipeline

namespace Lob

open Wire

/-- The report an event goes out as. -/
def Event.report (e : Event) : Option ExecReport :=
  match e.type with
  | .trade | .bookChanged => none
  | _ => some e.execReport

/-- The market-data message an event goes out as. -/
def Event.mdMsg (e : Event) : Option MdMsg :=
  match e.type with
  | .trade => some e.mdTrade
  | .bookChanged => some e.mdBook
  | _ => none

/-- The command in the gateway's push loop. -/
def GatewayPc.pending : GatewayPc → List RawCommand
  | .pushing cmd _ => [cmd]
  | _ => []

/-- The reports the engine has yet to push. -/
def EnginePc.reports : EnginePc → List ExecReport
  | .idle => []
  | .handling events => events.filterMap Event.report
  | .pushing er _ events => er :: events.filterMap Event.report

/-- Its failed attempts so far, in the push of a report. -/
def EnginePc.spins : EnginePc → Option Nat
  | .pushing _ spins _ => some spins
  | _ => none

/-- The market-data message it pushes next. -/
def EnginePc.feeding : EnginePc → Option MdMsg
  | .handling (e :: _) => e.mdMsg
  | _ => none

/-- The market-data messages it has yet to push. -/
def EnginePc.messages : EnginePc → List MdMsg
  | .idle => []
  | .handling events => events.filterMap Event.mdMsg
  | .pushing _ _ events => events.filterMap Event.mdMsg

namespace Pipeline

variable {B : Type} {s s' : Pipeline B}

/-! ## The ways a move can go -/

inductive Goes (s : Pipeline B) : Move → Pipeline B → Prop
  | gone (input : Option RawCommand) (hg : s.gateway = .gone) : Goes s (.gateway input) s
  | decode (cmd : RawCommand) (hg : s.gateway = .serving) :
      Goes s (.gateway (some cmd)) { s with gateway := .pushing cmd 0, decoded := s.decoded ++ [cmd] }
  | drain (hg : s.gateway = .serving) : Goes s (.gateway none) { s with gateway := .draining }
  | pushed (input : Option RawCommand) (cmd : RawCommand) (spins : Nat) (inbound : Channel RawCommand)
      (hg : s.gateway = .pushing cmd spins) (hs : inbound.Sound) (ht : inbound.taken = s.inbound.taken)
      (ho : inbound.offered = s.inbound.offered ++ [(cmd, .kept)]) :
      Goes s (.gateway input) { s with inbound := inbound, gateway := .serving }
  | dropped (input : Option RawCommand) (cmd : RawCommand) (spins : Nat) (inbound : Channel RawCommand)
      (hg : s.gateway = .pushing cmd spins) (hs : inbound.Sound) (ht : inbound.taken = s.inbound.taken)
      (ho : inbound.offered = s.inbound.offered ++ [(cmd, .dropped true)]) :
      Goes s (.gateway input)
        { s with
          inbound := inbound
          counters := { s.counters with inboundDrops := s.counters.inboundDrops + 1 }
          gateway := .serving }
  | spun (input : Option RawCommand) (cmd : RawCommand) (spins : Nat) (inbound : Channel RawCommand)
      (hg : s.gateway = .pushing cmd spins) (hs : inbound.Sound) (ht : inbound.taken = s.inbound.taken)
      (ho : inbound.offered = s.inbound.offered) :
      Goes s (.gateway input) { s with inbound := inbound, gateway := .pushing cmd (spins + 1) }
  | popped (input : Option RawCommand) (exec : Channel ExecReport) (pc : GatewayPc) (hg : s.gateway = .draining)
      (hs : exec.Sound) (ho : exec.offered = s.exec.offered) (hp : pc.pending = []) :
      Goes s (.gateway input) { s with exec := exec, gateway := pc }
  | starved (now : TsNanos) (inbound : Channel RawCommand) (hc : s.core = .idle) (hs : inbound.Sound)
      (ho : inbound.offered = s.inbound.offered) (ht : inbound.taken = s.inbound.taken) :
      Goes s (.engine now) { s with inbound := inbound }
  | processed (now : TsNanos) (cmd : RawCommand) (engine : Engine B) (inbound : Channel RawCommand) (hc : s.core = .idle)
      (hs : inbound.Sound) (ho : inbound.offered = s.inbound.offered) (ht : inbound.taken = s.inbound.taken ++ [cmd]) :
      Goes s (.engine now)
        { s with
          inbound := inbound
          engine := engine
          counters := { s.counters with commands := s.counters.commands + 1 }
          emitted := s.emitted ++ engine.out
          core := .handling engine.out }
  | finished (now : TsNanos) (hc : s.core = .handling []) : Goes s (.engine now) { s with core := .idle }
  | reporting (now : TsNanos) (e : Event) (events : List Event) (counters : Counters)
      (hc : s.core = .handling (e :: events)) (hd : counters.inboundDrops = s.counters.inboundDrops)
      (hr : e.report = some e.execReport) (hm : e.mdMsg = none) :
      Goes s (.engine now) { s with counters := counters, core := .pushing e.execReport 0 events }
  | fed (now : TsNanos) (e : Event) (m : MdMsg) (events : List Event) (counters : Counters)
      (hc : s.core = .handling (e :: events)) (hd : counters.inboundDrops = s.counters.inboundDrops)
      (hr : e.report = none) (hm : e.mdMsg = some m) :
      Goes s (.engine now) { s with counters := counters, md := s.md.offer m, core := .handling events }
  | reported (now : TsNanos) (er : ExecReport) (spins : Nat) (events : List Event) (exec : Channel ExecReport)
      (hc : s.core = .pushing er spins events) (hf : ¬ s.exec.full) (hs : exec.Sound)
      (ho : exec.offered = s.exec.offered ++ [(er, .kept)]) :
      Goes s (.engine now) { s with exec := exec, core := .handling events }
  | lost (now : TsNanos) (er : ExecReport) (spins : Nat) (events : List Event) (exec : Channel ExecReport)
      (hc : s.core = .pushing er spins events) (hf : s.exec.full) (hn : 8192 ≤ spins) (hs : exec.Sound)
      (ho : exec.offered = s.exec.offered ++ [(er, .dropped false)]) :
      Goes s (.engine now) { s with exec := exec, core := .handling events }
  | retried (now : TsNanos) (er : ExecReport) (spins : Nat) (events : List Event) (exec : Channel ExecReport)
      (hc : s.core = .pushing er spins events) (hf : s.exec.full) (hn : spins < 8192) (hs : exec.Sound)
      (ho : exec.offered = s.exec.offered) (hf' : exec.full) :
      Goes s (.engine now) { s with exec := exec, core := .pushing er (spins + 1) events }
  | published (heartbeat : Option TsNanos) : Goes s (.publisher heartbeat) (s.publisherStep heartbeat)

structure Rings (s : Pipeline B) : Prop where
  inbound : s.inbound.Sound
  exec : s.exec.Sound
  md : s.md.Sound

theorem pushInbound_goes (h : s.inbound.Sound) {cmd : RawCommand} {spins : Nat} (hg : s.gateway = .pushing cmd spins)
    (input : Option RawCommand) : Goes s (.gateway input) (s.pushInbound cmd spins) := by
  unfold pushInbound
  have hcases := Channel.tryPush_cases h cmd
  rcases e : s.inbound.tryPush cmd with ⟨inbound, ok⟩
  rw [e] at hcases
  rcases hcases with ⟨_, _, rfl, hs, ho, ht⟩ | ⟨_, rfl, hs, ho, ht⟩
  · by_cases hn : spins + 1 > 4096
    · have hcounted : counted s.counters { s.counters with inboundDrops := s.counters.inboundDrops + 1 } = true := by
        refine decide_eq_true fun e => ?_
        exact Nat.succ_ne_self _ (congrArg Counters.inboundDrops e)
      simp only [if_pos hn, hcounted]
      exact .dropped input cmd spins (inbound.drop cmd true) hg (hs.drop cmd true) ht
        (congrArg (· ++ [(cmd, Fate.dropped true)]) ho)
    · simp only [if_neg hn]
      exact .spun input cmd spins inbound hg hs ht ho
  · exact .pushed input cmd spins inbound hg hs ht ho

theorem pushExec_goes (h : s.exec.Sound) {er : ExecReport} {spins : Nat} {events : List Event}
    (hc : s.core = .pushing er spins events) (now : TsNanos) : Goes s (.engine now) (s.pushExec er spins events) := by
  unfold pushExec
  have hcases := Channel.tryPush_cases h er
  rcases e : s.exec.tryPush er with ⟨exec, ok⟩
  rw [e] at hcases
  rcases hcases with ⟨hf, hf', rfl, hs, ho, _⟩ | ⟨hf, rfl, hs, ho, _⟩
  · by_cases hn : spins + 1 > 8192
    · have hcounted : counted s.counters s.counters = false := decide_eq_false fun e => e rfl
      simp only [if_pos hn, hcounted]
      exact .lost now er spins events (exec.drop er false) hc hf (by omega) (hs.drop er false)
        (congrArg (· ++ [(er, Fate.dropped false)]) ho)
    · simp only [if_neg hn]
      exact .retried now er spins events exec hc hf (by omega) hs ho hf'
  · exact .reported now er spins events exec hc hf hs ho

/-- An event goes to one of the two rings out of the engine. -/
theorem handle_goes {e : Event} {events : List Event} (hc : s.core = .handling (e :: events)) (now : TsNanos) :
    Goes s (.engine now) (s.handle e events) := by
  unfold handle
  cases ht : e.type with
  | trade => exact .fed now e _ events _ hc rfl (by rw [Event.report, ht]) (by rw [Event.mdMsg, ht])
  | bookChanged => exact .fed now e _ events s.counters hc rfl (by rw [Event.report, ht]) (by rw [Event.mdMsg, ht])
  | rejected => exact .reporting now e events _ hc rfl (by rw [Event.report, ht]) (by rw [Event.mdMsg, ht])
  | accepted => exact .reporting now e events s.counters hc rfl (by rw [Event.report, ht]) (by rw [Event.mdMsg, ht])
  | fill => exact .reporting now e events s.counters hc rfl (by rw [Event.report, ht]) (by rw [Event.mdMsg, ht])
  | canceled => exact .reporting now e events s.counters hc rfl (by rw [Event.report, ht]) (by rw [Event.mdMsg, ht])
  | replaced => exact .reporting now e events s.counters hc rfl (by rw [Event.report, ht]) (by rw [Event.mdMsg, ht])

theorem gatewayStep_goes (h : Rings s) (input : Option RawCommand) : Goes s (.gateway input) (s.gatewayStep input) := by
  unfold gatewayStep
  cases hg : s.gateway with
  | gone => exact .gone input hg
  | serving =>
    cases input with
    | none => exact .drain hg
    | some cmd => exact .decode cmd hg
  | pushing cmd spins => exact pushInbound_goes h.inbound hg input
  | draining =>
    obtain ⟨hs, ho, _⟩ := Channel.tryPop_spec h.exec
    refine .popped input s.exec.tryPop.1 (if s.exec.tryPop.2.isSome then .draining else .serving) hg hs ho ?_
    split <;> rfl

/-- The publisher touches its end of the md ring, the sequence number and what it published. -/
theorem publisherStep_frame (s : Pipeline B) (heartbeat : Option TsNanos) : ∃ counters seq published,
    counters.inboundDrops = s.counters.inboundDrops ∧
    s.publisherStep heartbeat =
      { s with md := s.md.tryPop.1, counters := counters, seq := seq, published := published } := by
  unfold publisherStep
  have hc : (if s.udpValid then { s.counters with mdSent := s.counters.mdSent + 1 } else s.counters).inboundDrops =
      s.counters.inboundDrops := by cases s.udpValid <;> rfl
  rcases s.md.tryPop with ⟨md, _ | m⟩ <;> cases heartbeat
  · exact ⟨s.counters, s.seq, s.published, rfl, rfl⟩
  · exact ⟨s.counters, _, _, rfl, rfl⟩
  · exact ⟨_, _, _, hc, rfl⟩
  · exact ⟨_, _, _, hc, rfl⟩

theorem Goes.rings (h : Rings s) {m : Move} (hm : Goes s m s') : Rings s' := by
  cases hm with
  | gone => exact h
  | decode => exact ⟨h.inbound, h.exec, h.md⟩
  | drain => exact ⟨h.inbound, h.exec, h.md⟩
  | pushed _ _ _ _ _ hs => exact ⟨hs, h.exec, h.md⟩
  | dropped _ _ _ _ _ hs => exact ⟨hs, h.exec, h.md⟩
  | spun _ _ _ _ _ hs => exact ⟨hs, h.exec, h.md⟩
  | popped _ _ _ _ hs => exact ⟨h.inbound, hs, h.md⟩
  | starved _ _ _ hs => exact ⟨hs, h.exec, h.md⟩
  | processed _ _ _ _ _ hs => exact ⟨hs, h.exec, h.md⟩
  | finished => exact ⟨h.inbound, h.exec, h.md⟩
  | reporting => exact ⟨h.inbound, h.exec, h.md⟩
  | fed _ _ m => exact ⟨h.inbound, h.exec, (Channel.offer_cases h.md m).1⟩
  | reported _ _ _ _ _ _ _ hs => exact ⟨h.inbound, hs, h.md⟩
  | lost _ _ _ _ _ _ _ _ hs => exact ⟨h.inbound, hs, h.md⟩
  | retried _ _ _ _ _ _ _ _ hs => exact ⟨h.inbound, hs, h.md⟩
  | published heartbeat =>
    obtain ⟨counters, seq, published, _, e⟩ := publisherStep_frame s heartbeat
    rw [e]
    exact ⟨h.inbound, h.exec, (Channel.tryPop_spec h.md).1⟩

variable [Book B]

theorem popInbound_goes (h : s.inbound.Sound) {now : TsNanos} (hc : s.core = .idle) (hp : s.popInbound now = some s') :
    Goes s (.engine now) s' := by
  obtain ⟨hs, ho, ht⟩ := Channel.tryPop_spec h
  unfold popInbound at hp
  rcases e : s.inbound.tryPop with ⟨inbound, got⟩
  rw [e] at hp hs ho ht
  cases got with
  | none =>
    cases hp
    exact .starved now inbound hc hs ho (ht.trans (List.append_nil _))
  | some cmd =>
    obtain ⟨c, _, hp⟩ := Option.bind_eq_some_iff.mp hp
    obtain ⟨engine, _, hp⟩ := Option.bind_eq_some_iff.mp hp
    cases hp
    exact .processed now cmd engine inbound hc hs ho ht

theorem engineStep_goes (h : Rings s) {now : TsNanos} (he : s.engineStep now = some s') : Goes s (.engine now) s' := by
  unfold engineStep at he
  cases hc : s.core with
  | idle =>
    rw [hc] at he
    exact popInbound_goes h.inbound hc he
  | handling events =>
    rw [hc] at he
    cases events with
    | nil =>
      cases he
      exact .finished now hc
    | cons e events =>
      cases he
      exact handle_goes hc now
  | pushing er spins events =>
    rw [hc] at he
    cases he
    exact pushExec_goes h.exec hc now

/-- Nothing else happens. -/
theorem step_goes (h : Rings s) {m : Move} (hm : s.step m = some s') : Goes s m s' := by
  cases m with
  | gateway input =>
    cases hm
    exact gatewayStep_goes h input
  | engine now => exact engineStep_goes h hm
  | publisher heartbeat =>
    cases hm
    exact .published heartbeat

theorem start_rings {cfg : EngineConfig} {i e m : Nat} {listening udpValid : Bool}
    (h : start cfg i e m listening udpValid = some s) : Rings s := by
  obtain ⟨engine, _, h⟩ := Option.bind_eq_some_iff.mp h
  cases h
  exact ⟨Channel.make_sound i, Channel.make_sound e, Channel.make_sound m⟩

/-! ## Histories -/

/-- A history's last move, and the pipeline before it. -/
theorem after_cons {s0 : Pipeline B} {m : Move} {h : List Move} (hs : s0.after (m :: h) = some s') :
    ∃ s, s0.after h = some s ∧ s.step m = some s' := Option.bind_eq_some_iff.mp hs

theorem after_step {s0 : Pipeline B} {m : Move} {h : List Move} (h1 : s0.after h = some s) (hm : s.step m = some s') :
    s0.after (m :: h) = some s' := Option.bind_eq_some_iff.mpr ⟨s, h1, hm⟩

/-- What the start has and every move keeps holds after every history. -/
theorem after_inv {P : Pipeline B → Prop} (hstep : ∀ s m s', Rings s → P s → Goes s m s' → P s') {s0 : Pipeline B}
    (hr : Rings s0) (h0 : P s0) {h : List Move} (hs : s0.after h = some s) : Rings s ∧ P s := by
  induction h generalizing s with
  | nil =>
    cases hs
    exact ⟨hr, h0⟩
  | cons m h ih =>
    obtain ⟨s1, h1, hm⟩ := after_cons hs
    obtain ⟨hr1, hp1⟩ := ih h1
    have hgo := step_goes hr1 hm
    exact ⟨hgo.rings hr1, hstep s1 m s hr1 hp1 hgo⟩

theorem after_rings {s0 : Pipeline B} (hr : Rings s0) {h : List Move} (hs : s0.after h = some s) : Rings s :=
  (after_inv (P := fun _ => True) (fun _ _ _ _ _ _ => trivial) hr trivial hs).1

/-- No move of the history was made where `bad` says so. -/
def Never (bad : Pipeline B → Move → Prop) (s0 : Pipeline B) (h : List Move) : Prop :=
  ∀ m h', (m :: h') <:+ h → ∀ s, s0.after h' = some s → ¬ bad s m

theorem never_nil (bad : Pipeline B → Move → Prop) (s0 : Pipeline B) : Never bad s0 [] :=
  fun _ _ hs => absurd (List.suffix_nil.mp hs) (List.cons_ne_nil _ _)

theorem never_cons {bad : Pipeline B → Move → Prop} {s0 : Pipeline B} {m : Move} {h : List Move}
    (hs : s0.after h = some s) : Never bad s0 (m :: h) ↔ Never bad s0 h ∧ ¬ bad s m := by
  constructor
  · intro hn
    exact ⟨fun m' h' hsuf => hn m' h' (hsuf.trans (List.suffix_cons m h)), hn m h (List.suffix_refl _) s hs⟩
  · rintro ⟨hn, hb⟩ m' h' hsuf s1 hs1
    rcases List.suffix_cons_iff.mp hsuf with e | hsuf
    · obtain ⟨rfl, rfl⟩ := List.cons.inj e
      obtain rfl := Option.some.inj (hs.symm.trans hs1)
      exact hb
    · exact hn m' h' hsuf s1 hs1

/-- A move that is not bad and keeps `P`. -/
theorem keeps_iff {P P' bad : Prop} (hb : ¬ bad) (e : P' ↔ P) : P' ↔ P ∧ ¬ bad := e.trans (and_iff_left hb).symm

/-- What a history keeps exactly as long as none of its moves was bad. -/
theorem never_iff {bad : Pipeline B → Move → Prop} {P : Pipeline B → Prop}
    (hstep : ∀ s m s', Rings s → Goes s m s' → (P s' ↔ P s ∧ ¬ bad s m)) {s0 : Pipeline B} (hr : Rings s0) (h0 : P s0)
    {h : List Move} (hs : s0.after h = some s) : P s ↔ Never bad s0 h := by
  induction h generalizing s with
  | nil =>
    cases hs
    exact iff_of_true h0 (never_nil _ _)
  | cons m h ih =>
    obtain ⟨s1, h1, hm⟩ := after_cons hs
    have hr1 := after_rings hr h1
    rw [never_cons h1, ← ih h1]
    exact hstep s1 m s hr1 (step_goes hr1 hm)

end Pipeline

end Lob
