/-
  Lob.Telemetry.Json — the documents for the dashboard and of a benchmark (`telemetry.cpp`).

  `Json` is the writer: the text so far, the indentation, and whether a comma is due.
  `toJson` is the same sequence of calls as in the source. What is in floating point is of
  any type `D`, with `fmt` for its text (`%.6g`); `DashboardDocument` and `BenchResult` have
  the fields a document shows.

  Left out: the histogram as comma-separated values.
-/

import Lob.Base.Json
import Lob.Server.Dashboard

namespace Lob

open Base.Json (decimal)

structure Json where
  os : List Char := []
  indent : Int := 0
  needComma : Bool := false
  deriving DecidableEq, Repr

namespace Json

variable (j : Json)

/-- `os << t`. -/
def put (t : List Char) : Json := { j with os := j.os ++ t }

def pad : Json := j.put ('\n' :: (List.replicate j.indent.toNat "  ".toList).flatten)

def preValue : Json :=
  let j := if j.needComma then j.put [','] else j
  { j.pad with needComma := true }

def key (k : String) : Json :=
  let j := j.preValue
  { j.put ('"' :: (k.toList ++ "\": ".toList)) with needComma := false }

def beginObj : Json := { j.put ['{'] with indent := j.indent + 1, needComma := false }

def endObj : Json :=
  let j := { j with indent := j.indent - 1 }
  { j.pad.put ['}'] with needComma := true }

def beginArr : Json := { j.put ['['] with indent := j.indent + 1, needComma := false }

def endArr : Json :=
  let j := { j with indent := j.indent - 1 }
  let j := if j.needComma then j.pad else j
  { j.put [']'] with needComma := true }

def str (k v : String) : Json := { (j.key k).put ('"' :: (v.toList ++ ['"'])) with needComma := true }

/-- `text` is what `snprintf` makes of the value. -/
def num (k : String) (text : List Char) : Json := { (j.key k).put text with needComma := true }

def inum (k : String) (v : Int) : Json := { (j.key k).put (decimal v) with needComma := true }

end Json

def sideStr : Side → String
  | .buy => "buy"
  | .sell => "sell"

def px (p : Price) : Int := if p = kNoPrice then 0 else p

/-- `static_cast<long long>` of a 64-bit count. -/
def longLong (n : Nat) : Int := (BitVec.ofNat 64 n).toInt

/-! ## Rows -/

def DepthEntry.row (r : DepthEntry) : List Char :=
  "\x7b \"price\": ".toList ++ decimal (px r.price) ++ ", \"qty\": ".toList ++ decimal r.qty.toNat ++
    ", \"orders\": ".toList ++ decimal r.orders.toNat ++ " \x7d".toList

def TradePrint.row (t : TradePrint) : List Char :=
  "\x7b \"ts\": ".toList ++ decimal (longLong t.ts.toNat) ++ ", \"price\": ".toList ++ decimal (px t.price) ++
    ", \"qty\": ".toList ++ decimal t.qty.toNat ++ ", \"aggressor\": \"".toList ++ (sideStr t.aggressor).toList ++
      "\" \x7d".toList

def LatencyHistogram.Bin.row (b : LatencyHistogram.Bin) : List Char :=
  "\x7b \"lo\": ".toList ++ decimal b.lo.toNat ++ ", \"hi\": ".toList ++ decimal b.hi.toNat ++
    ", \"count\": ".toList ++ decimal b.count ++ " \x7d".toList

/-- `dump_ladder`, and the loops like it: an array with one row for each of `xs`. -/
def Json.rows {α : Type} (j : Json) (k : String) (row : α → List Char) (xs : List α) : Json :=
  (xs.foldl (fun j x => j.preValue.put (row x)) (j.key k).beginArr).endArr

/-! ## The dashboard's -/

/-- `DashboardSnapshot`, with the fields that are set in floating point or from outside. -/
structure DashboardDocument (D : Type) extends DashboardSnapshot where
  engineBuild : String := ""
  host : String := ""
  wallUnixMs : Nat := 0
  uptimeS : D
  throughputOps : D
  mdMsgsPerS : D
  mdMbitPerS : D
  mdSeqGaps : Nat := 0
  latP50 : Nat := 0
  latP90 : Nat := 0
  latP99 : Nat := 0
  latP999 : Nat := 0
  latMean : D
  latHist : List LatencyHistogram.Bin := []

variable {D : Type}

def DashboardDocument.toJson (fmt : D → List Char) (s : DashboardDocument D) : List Char :=
  let j : Json := {}
  let j := j.beginObj
  let j := j.str "instrument" s.instrument
  let j := j.str "engine_build" s.engineBuild
  let j := j.str "host" s.host
  let j := j.inum "generated_ns" (longLong s.generatedNs.toNat)
  let j := j.inum "wall_unix_ms" (longLong s.wallUnixMs)
  let j := j.num "uptime_s" (fmt s.uptimeS)
  let j := j.inum "commands_total" (longLong s.commandsTotal)
  let j := j.inum "trades_total" (longLong s.tradesTotal)
  let j := j.inum "shares_total" (longLong s.sharesTotal.toNat)
  let j := j.inum "rejects_total" (longLong s.rejectsTotal)
  let j := j.num "throughput_ops" (fmt s.throughputOps)
  let j := j.num "md_msgs_per_s" (fmt s.mdMsgsPerS)
  let j := j.num "md_mbit_per_s" (fmt s.mdMbitPerS)
  let j := j.inum "md_seq_gaps" (longLong s.mdSeqGaps)
  let j := j.inum "best_bid" (px s.bestBid)
  let j := j.inum "best_ask" (px s.bestAsk)
  let j := j.inum "spread" (px s.spread)
  let j := j.inum "last_px" (px s.lastPx)
  let j := j.inum "resting_orders" (longLong s.restingOrders)
  let j := j.rows "bids" DepthEntry.row s.bids
  let j := j.rows "asks" DepthEntry.row s.asks
  let j := j.rows "tape" TradePrint.row s.tape
  let j := (j.key "latency").beginObj
  let j := j.str "scope" s.latScope
  let j := j.inum "count" (longLong s.latCount)
  let j := j.inum "min" (longLong s.latMin.toNat)
  let j := j.inum "p50" (longLong s.latP50)
  let j := j.inum "p90" (longLong s.latP90)
  let j := j.inum "p99" (longLong s.latP99)
  let j := j.inum "p999" (longLong s.latP999)
  let j := j.inum "max" (longLong s.latMax.toNat)
  let j := j.num "mean" (fmt s.latMean)
  let j := j.rows "histogram" LatencyHistogram.Bin.row s.latHist
  let j := j.endObj
  j.endObj.os

/-! ## A benchmark's -/

structure BenchResult (D : Type) where
  mode : String
  host : String
  cpu : String
  build : String
  compiler : String
  events : Nat := 0
  wallS : D
  throughputOps : D
  trades : Nat := 0
  shares : Nat := 0
  rejects : Nat := 0
  peakResting : Nat := 0
  fillRatio : D
  latScope : String
  latMin : Nat := 0
  latP50 : Nat := 0
  latP90 : Nat := 0
  latP99 : Nat := 0
  latP999 : Nat := 0
  latP9999 : Nat := 0
  latMax : Nat := 0
  latMean : D
  hist : List LatencyHistogram.Bin := []

def BenchResult.toJson (fmt : D → List Char) (r : BenchResult D) : List Char :=
  let j : Json := {}
  let j := j.beginObj
  let j := j.str "mode" r.mode
  let j := j.str "host" r.host
  let j := j.str "cpu" r.cpu
  let j := j.str "build" r.build
  let j := j.str "compiler" r.compiler
  let j := j.inum "events" (longLong r.events)
  let j := j.num "wall_s" (fmt r.wallS)
  let j := j.num "throughput_ops" (fmt r.throughputOps)
  let j := j.inum "trades" (longLong r.trades)
  let j := j.inum "shares" (longLong r.shares)
  let j := j.inum "rejects" (longLong r.rejects)
  let j := j.inum "peak_resting" (longLong r.peakResting)
  let j := j.num "fill_ratio" (fmt r.fillRatio)
  let j := (j.key "latency_ns").beginObj
  let j := j.str "scope" r.latScope
  let j := j.inum "min" (longLong r.latMin)
  let j := j.inum "p50" (longLong r.latP50)
  let j := j.inum "p90" (longLong r.latP90)
  let j := j.inum "p99" (longLong r.latP99)
  let j := j.inum "p999" (longLong r.latP999)
  let j := j.inum "p9999" (longLong r.latP9999)
  let j := j.inum "max" (longLong r.latMax)
  let j := j.num "mean" (fmt r.latMean)
  let j := j.endObj
  let j := j.rows "histogram" LatencyHistogram.Bin.row r.hist
  j.endObj.os

end Lob
