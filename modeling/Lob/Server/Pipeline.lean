/-
  Lob.Server.Pipeline — the three threads of the server and the rings between them
  (`run_gateway`, `run_engine`, `push_exec` and `run_publisher` in `engine_server.cpp`).

  Each thread is a program counter; a `Move` is one thread going on by one ring call, one
  event or one turn of its loop, and a history is a list of moves, newest first. What the
  gateway decodes next, when a heartbeat is due and what the clock reads are up to the
  move. A ring call is one step; `Lob.Laws.Fifo` takes it apart. `step` is undefined where
  the engine is: for a command with an undeclared enumeration, which the source carries on
  (an undeclared order type matches and does not rest, as `Ioc` does), or where `process` is.

  The gateway's connections are in `Lob.Server.Gateway`, the dashboard in `Lob.Server.Dashboard`.
-/

import Lob.Engine.Engine
import Lob.Ring.Channel
import Lob.Server.Gateway

namespace Lob

open Wire

/-! ## What crosses the rings -/

/-- Internal market-data message carried on the engine->publisher ring. -/
inductive MdMsg where
  | trade (m : MdTrade)
  | book (m : MdBookChange)
  deriving DecidableEq, Repr, Inhabited

namespace MdMsg

/-- The message with its `stream_seq` set. -/
def stamped (seq : UInt64) : MdMsg → Message
  | .trade m => .mdTrade { m with streamSeq := seq }
  | .book m => .mdBookChange { m with streamSeq := seq }

def unnumbered : MdMsg → MdMsg
  | .trade m => .trade { m with streamSeq := 0 }
  | .book m => .book { m with streamSeq := 0 }

end MdMsg

namespace Event

def execFlags (e : Event) : UInt8 := if e.aggressor then 0x01 else 0x00

/-- The report of `push_exec`. -/
def execReport (e : Event) : ExecReport :=
  ⟨e.orderId, e.contraId, e.client, e.type.byte, e.side.byte, e.reason.byte, e.execFlags, .ofInt e.price, e.quantity,
    e.leaves, e.tsIn, e.tsOut⟩

def mdTrade (e : Event) : MdMsg := .trade ⟨0, .ofInt e.price, e.quantity, e.side.byte, e.tsOut⟩

def mdBook (e : Event) : MdMsg := .book ⟨0, .ofInt e.bidPx, e.bidQty, .ofInt e.askPx, e.askQty, e.tsOut⟩

end Event

/-- What the publisher sends: the header's number and the message. -/
structure Datagram where
  seq : UInt32
  message : Message
  deriving DecidableEq, Repr

/-! ## The threads -/

structure Counters where
  commands : Nat := 0
  trades : Nat := 0
  rejects : Nat := 0
  mdSent : Nat := 0
  inboundDrops : Nat := 0
  deriving DecidableEq, Repr

/-- Where `run_gateway` is: returned, before its next frame, in the push of a command after
    some failed attempts, or popping reports. -/
inductive GatewayPc where
  | gone
  | serving
  | pushing (cmd : RawCommand) (spins : Nat)
  | draining
  deriving DecidableEq, Repr

/-- Where `run_engine` is: before its next command, with events left of the last one, or in
    the push of a report. -/
inductive EnginePc where
  | idle
  | handling (events : List Event)
  | pushing (er : ExecReport) (spins : Nat) (events : List Event)
  deriving DecidableEq, Repr

structure Pipeline (B : Type) where
  engine : Engine B
  inbound : Channel RawCommand
  exec : Channel ExecReport
  md : Channel MdMsg
  counters : Counters := {}
  gateway : GatewayPc
  core : EnginePc := .idle
  udpValid : Bool
  seq : UInt64 := 0
  /-- Commands in the order they were decoded. -/
  decoded : List RawCommand := []
  /-- Events in the order the engine produced them. -/
  emitted : List Event := []
  published : List Datagram := []

namespace Pipeline

variable {B : Type} [Book B]

/-- The pipeline as the threads start. Without a listener the gateway counts a drop and
    returns. -/
def start (cfg : EngineConfig) (inboundRing execRing mdRing : Nat) (listening udpValid : Bool) : Option (Pipeline B) := do
  let engine ← Engine.init cfg
  some {
    engine := engine
    inbound := .make inboundRing
    exec := .make execRing
    md := .make mdRing
    counters := if listening then {} else { inboundDrops := 1 }
    gateway := if listening then .serving else .gone
    udpValid := udpValid }

variable (s : Pipeline B)

/-- A push that gives up: did a counter record it? -/
def counted (before after : Counters) : Bool := decide (after ≠ before)

/-! ## The gateway -/

def pushInbound (cmd : RawCommand) (spins : Nat) : Pipeline B :=
  let (inbound, ok) := s.inbound.tryPush cmd
  if ok then { s with inbound := inbound, gateway := .serving }
  else if spins + 1 > 4096 then
    let counters := { s.counters with inboundDrops := s.counters.inboundDrops + 1 }
    { s with inbound := inbound.drop cmd (counted s.counters counters), counters := counters, gateway := .serving }
  else { s with inbound := inbound, gateway := .pushing cmd (spins + 1) }

/-- `input` is the next command decoded, if a connection has one. -/
def gatewayStep (input : Option RawCommand) : Pipeline B :=
  match s.gateway with
  | .gone => s
  | .serving =>
    match input with
    | some cmd => { s with gateway := .pushing cmd 0, decoded := s.decoded ++ [cmd] }
    | none => { s with gateway := .draining }
  | .pushing cmd spins => s.pushInbound cmd spins
  | .draining =>
    let (exec, got) := s.exec.tryPop
    { s with exec := exec, gateway := if got.isSome then .draining else .serving }

/-! ## The engine -/

/-- `inbound.try_pop` and `engine.process`. -/
def popInbound (now : TsNanos) : Option (Pipeline B) :=
  let (inbound, got) := s.inbound.tryPop
  match got with
  | none => some { s with inbound := inbound }
  | some cmd => do
    let engine ← s.engine.process now (← cmd.command)
    some { s with
      inbound := inbound
      engine := engine
      counters := { s.counters with commands := s.counters.commands + 1 }
      emitted := s.emitted ++ engine.out
      core := .handling engine.out }

/-- The `switch` on an event. -/
def handle (e : Event) (events : List Event) : Pipeline B :=
  match e.type with
  | .rejected =>
    { s with counters := { s.counters with rejects := s.counters.rejects + 1 }, core := .pushing e.execReport 0 events }
  | .accepted | .fill | .canceled | .replaced => { s with core := .pushing e.execReport 0 events }
  | .trade =>
    { s with
      counters := { s.counters with trades := s.counters.trades + 1 }
      md := s.md.offer e.mdTrade
      core := .handling events }
  | .bookChanged => { s with md := s.md.offer e.mdBook, core := .handling events }

/-- One attempt of `push_exec`. -/
def pushExec (er : ExecReport) (spins : Nat) (events : List Event) : Pipeline B :=
  let (exec, ok) := s.exec.tryPush er
  if ok then { s with exec := exec, core := .handling events }
  else if spins + 1 > 8192 then
    let counters := s.counters
    { s with exec := exec.drop er (counted s.counters counters), core := .handling events }
  else { s with exec := exec, core := .pushing er (spins + 1) events }

def engineStep (now : TsNanos) : Option (Pipeline B) :=
  match s.core with
  | .idle => s.popInbound now
  | .handling [] => some { s with core := .idle }
  | .handling (e :: events) => some (s.handle e events)
  | .pushing er spins events => some (s.pushExec er spins events)

/-! ## The publisher -/

/-- Number a message and send it. -/
def publish (number : UInt64 → Message) : Pipeline B :=
  let seq := s.seq + 1
  { s with
    seq := seq
    published := if s.udpValid then s.published ++ [⟨seq.toUInt32, number seq⟩] else s.published }

def publishMd (m : MdMsg) : Pipeline B :=
  { s.publish m.stamped with
    counters := if s.udpValid then { s.counters with mdSent := s.counters.mdSent + 1 } else s.counters }

/-- One turn of the loop; `heartbeat` is the clock when 500 ms have passed since the last. -/
def publisherStep (heartbeat : Option TsNanos) : Pipeline B :=
  let (md, got) := s.md.tryPop
  let s := { s with md := md }
  let s := match got with
    | none => s
    | some m => s.publishMd m
  match heartbeat with
  | none => s
  | some now => s.publish fun seq => .mdHeartbeat ⟨seq, now⟩

/-! ## Histories -/

inductive Move where
  | gateway (input : Option RawCommand)
  | engine (now : TsNanos)
  | publisher (heartbeat : Option TsNanos)
  deriving DecidableEq, Repr

def step : Move → Option (Pipeline B)
  | .gateway input => some (s.gatewayStep input)
  | .engine now => s.engineStep now
  | .publisher heartbeat => some (s.publisherStep heartbeat)

/-- The pipeline after a history of moves, newest first. -/
def after : List Move → Option (Pipeline B)
  | [] => some s
  | m :: h => (after h).bind fun s => s.step m

end Pipeline

end Lob
