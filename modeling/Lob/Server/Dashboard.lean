/-
  Lob.Server.Dashboard — what the engine thread keeps for the dashboard and the telemetry
  thread writes (the tape, last price and histogram of `run_engine`, `publish_snapshot` and
  `run_telemetry` in `engine_server.cpp`).

  The engine thread fills the one snapshot at the end of a turn of its loop, under the lock
  the telemetry thread copies it under, so each is one move. Whether the interval has
  passed is up to the move, as are the readings of the clock. `written` is the history of
  the copies.

  Left out: what is computed in floating point (uptime, rates, percentiles, the mean and the
  histogram's bins on display), the wall clock, and the host name.
-/

import Lob.Server.Driven
import Lob.Telemetry.LatencyHistogram

namespace Lob

open Wire

structure TradePrint where
  ts : TsNanos
  price : Price
  qty : Quantity
  aggressor : Side
  deriving DecidableEq, Repr

def Event.tradePrint (e : Event) : TradePrint := ⟨e.tsOut, e.price, e.quantity, e.side⟩

structure DashboardSnapshot where
  instrument : String := "LOB-PERP"
  generatedNs : TsNanos := 0
  commandsTotal : Nat := 0
  tradesTotal : Nat := 0
  sharesTotal : Quantity := 0
  rejectsTotal : Nat := 0
  bestBid : Price := kNoPrice
  bestAsk : Price := kNoPrice
  spread : Price := kNoPrice
  lastPx : Price := kNoPrice
  restingOrders : Nat := 0
  bids : List DepthEntry := []
  asks : List DepthEntry := []
  tape : List TradePrint := []
  latCount : Nat := 0
  latMin : BitVec 64 := 0
  latMax : BitVec 64 := 0
  latScope : String := "engine"
  deriving DecidableEq, Repr

/-- What of `ServerConfig` it goes by. -/
structure DashboardConfig where
  instrument : String := "LOB-PERP"
  tapeDepth : Int := 30
  ladderDepth : Int := 12

/-- `static_cast<std::size_t>`. -/
def toSize (n : Int) : Nat := (UInt64.ofInt n).toNat

structure Monitor (B : Type) where
  cfg : DashboardConfig
  pipeline : Pipeline B
  tape : List TradePrint := []
  lastPx : Price := kNoPrice
  hist : LatencyHistogram
  snap : DashboardSnapshot := {}
  /-- The copies of the telemetry thread, oldest first. -/
  written : List DashboardSnapshot := []

/-- The command the engine thread is about to pop. -/
def Pipeline.popping {B : Type} (s : Pipeline B) : Option RawCommand :=
  match s.core with
  | .idle => s.inbound.tryPop.2
  | _ => none

namespace Monitor

variable {B : Type} [Book B]

/-- As the threads start; the histogram is of the code's range and figures. -/
def start (cfg : DashboardConfig) (ecfg : EngineConfig) (inboundRing execRing mdRing : Nat) (listening udpValid : Bool) :
    Option (Monitor B) := do
  let pipeline ← Pipeline.start ecfg inboundRing execRing mdRing listening udpValid
  let hist ← LatencyHistogram.construct 64 60000000#64 LatencyHistogram.threeFigures
  some { cfg := cfg, pipeline := pipeline, hist := hist }

variable (m : Monitor B)

/-- `tape.push_back` and, past the depth, `tape.pop_front`. -/
def pushTape (t : TradePrint) : List TradePrint :=
  let tape := m.tape ++ [t]
  if tape.length > toSize m.cfg.tapeDepth then tape.tail else tape

/-- What a popped command adds: its latency, if the clock went on. -/
def timed (t1 : TsNanos) : Option RawCommand → Monitor B
  | none => m
  | some cmd => if t1 > cmd.tsRecv then { m with hist := m.hist.record (t1 - cmd.tsRecv).toBitVec } else m

/-- What an event looked at adds: a trade's price and print. -/
def noted : Option Event → Monitor B
  | none => m
  | some e => if e.type = .trade then { m with lastPx := e.price, tape := m.pushTape e.tradePrint } else m

def publishSnapshot (now : TsNanos) : Monitor B :=
  let e := m.pipeline.engine
  { m with
    snap :=
      { m.snap with
        instrument := m.cfg.instrument
        generatedNs := now
        commandsTotal := m.pipeline.counters.commands
        tradesTotal := m.pipeline.counters.trades
        sharesTotal := e.stats.sharesTraded
        rejectsTotal := m.pipeline.counters.rejects
        bestBid := Book.bestBid e.book
        bestAsk := Book.bestAsk e.book
        spread := Book.spread e.book
        lastPx := m.lastPx
        restingOrders := e.restingOrders
        bids := Book.snapshot e.book .buy (toSize m.cfg.ladderDepth)
        asks := Book.snapshot e.book .sell (toSize m.cfg.ladderDepth)
        tape := m.tape
        latScope := "engine"
        latCount := m.hist.count
        latMin := m.hist.min
        latMax := m.hist.max } }

/-- The thread's state where its step leaves the pipeline at `pipeline`; `t1` is the clock after
    `process`. -/
def went (t1 : TsNanos) (pipeline : Pipeline B) : Monitor B :=
  { (m.timed t1 m.pipeline.popping).noted m.pipeline.looking with pipeline := pipeline }

/-- A step of the engine thread. Between commands the loop gets to `publish_snapshot`; `due` is
    the clock then, if the interval has passed. -/
def engineStep (now t1 : TsNanos) (due : Option TsNanos) : Option (Monitor B) := do
  let pipeline ← m.pipeline.engineStep now
  match pipeline.core, due with
  | .idle, some gen => some ((m.went t1 pipeline).publishSnapshot gen)
  | _, _ => some (m.went t1 pipeline)

inductive Move where
  | gateway (input : Option RawCommand)
  | engine (now t1 : TsNanos) (due : Option TsNanos)
  | publisher (heartbeat : Option TsNanos)
  | telemetry
  deriving DecidableEq, Repr

def step : Move → Option (Monitor B)
  | .gateway input => some { m with pipeline := m.pipeline.gatewayStep input }
  | .engine now t1 due => m.engineStep now t1 due
  | .publisher heartbeat => some { m with pipeline := m.pipeline.publisherStep heartbeat }
  | .telemetry => some { m with written := m.written ++ [m.snap] }

/-- After a history of moves, newest first. -/
def after : List Move → Option (Monitor B)
  | [] => some m
  | mv :: h => (after h).bind fun m => m.step mv

end Monitor

end Lob
