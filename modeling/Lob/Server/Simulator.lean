/-
  Lob.Server.Simulator — the two roles of `md_simulator` (`run_subscribe` and `run_flow` in
  `apps/md_simulator/main.cpp`).

  The subscriber counts the datagrams that arrive. Numbers in their headers are 32 bits
  wide and compared in 64. The flow client encodes generated commands, takes its reports off
  the stream of the connection and times those it knows. What it prints, and the rates, are
  left out.
-/

import Lob.Server.Gateway
import Lob.Telemetry.LatencyHistogram

namespace Lob

open Wire

/-! ## Subscriber -/

structure Subscriber where
  msgs : Nat := 0
  bytes : Nat := 0
  trades : Nat := 0
  bookChanges : Nat := 0
  gaps : Nat := 0
  expect : UInt64 := 0
  lastPx : Int64 := Int64.minValue
  deriving DecidableEq, Repr

namespace Subscriber

/-- What a header is counted as. -/
def count (s : Subscriber) (n : Nat) (hdr : Header) : Subscriber :=
  { s with
    msgs := s.msgs + 1
    bytes := s.bytes + n
    gaps := if s.expect ≠ 0 ∧ hdr.seq.toUInt64 > s.expect then s.gaps + (hdr.seq.toUInt64 - s.expect).toNat else s.gaps
    expect := (hdr.seq + 1).toUInt64 }

/-- A datagram arrives. -/
def receive (s : Subscriber) (frame : List UInt8) : Subscriber :=
  match peekHeader frame with
  | none => s
  | some hdr =>
    let s := s.count frame.length hdr
    if hdr.type = MsgType.mdTrade.byte then
      match decodeMdTrade frame with
      | some m => { s with trades := s.trades + 1, lastPx := m.price }
      | none => s
    else if hdr.type = MsgType.mdBookChange.byte then { s with bookChanges := s.bookChanges + 1 }
    else s

def receiveAll (s : Subscriber) (frames : List (List UInt8)) : Subscriber := frames.foldl receive s

end Subscriber

/-! ## Flow client -/

structure FlowClient where
  rtt : LatencyHistogram
  /-- When each order was sent, by id; 0 if it was not. -/
  sentAt : List TsNanos := [0]
  rx : List UInt8 := []
  sent : Nat := 0
  acks : Nat := 0
  rejects : Nat := 0
  fills : Nat := 0
  reads : Nat := 0
  /-- The reports decoded. -/
  heard : List ExecReport := []

namespace FlowClient

/-- The message a command goes out as. -/
def request (c : Command) (ts : TsNanos) : Message :=
  match c.type with
  | .new => .newOrder ⟨c.id, c.client, c.side.byte, c.ordType.byte, .ofInt c.price, c.quantity, ts⟩
  | .cancel => .cancelOrder ⟨c.id, c.client, ts⟩
  | .modify => .modifyOrder ⟨c.id, c.client, .ofInt c.price, c.quantity, ts⟩

variable (s : FlowClient)

/-- `sent_at[c.id] = ts`, resized to hold it. -/
def stamp (id : OrderId) (ts : TsNanos) : List TsNanos :=
  (s.sentAt ++ List.replicate (id.toNat + 1 - s.sentAt.length) 0).set id.toNat ts

/-- A command is sent: the socket takes the first `w` bytes of it, and nothing sends the rest. -/
def send (c : Command) (ts : TsNanos) (w : Nat) : FlowClient × List UInt8 :=
  let bytes := frame 0 (request c ts)
  ({ s with
      sentAt := if c.type = .new then s.stamp c.id ts else s.sentAt
      sent := if w = bytes.length then s.sent + 1 else s.sent }, bytes.take w)

/-- The `switch` on a report. -/
def heed (now : Nat → TsNanos) (er : ExecReport) : FlowClient :=
  let s := { s with heard := s.heard ++ [er] }
  if er.event = EventType.byte .accepted then
    match s.sentAt[er.orderId.toNat]? with
    | none => s
    | some t =>
      if t ≠ 0 then
        { s with rtt := s.rtt.record (now s.reads - t).toBitVec, acks := s.acks + 1, reads := s.reads + 1 }
      else s
  else if er.event = EventType.byte .fill then { s with fills := s.fills + 1 }
  else if er.event = EventType.byte .rejected then { s with rejects := s.rejects + 1 }
  else s

/-- A turn of the loop of `pump` from `off`, and where the next starts. -/
def turn (now : Nat → TsNanos) (rx : List UInt8) (off : Nat) : Option (FlowClient × Nat) :=
  (peekHeader (rx.drop off)).map fun hdr =>
    let frame := (rx.drop off).take hdr.length.toNat
    let s' :=
      if hdr.type = MsgType.execReport.byte then
        match decodeExecReport frame with
        | some er => s.heed now er
        | none => s
      else s
    (s', off + hdr.length.toNat)

/-- At most `n` turns. -/
def parseLoop (now : Nat → TsNanos) (rx : List UInt8) : Nat → FlowClient → Nat → FlowClient × Nat
  | 0, s, off => (s, off)
  | n + 1, s, off =>
    match s.turn now rx off with
    | some (s', off') => parseLoop now rx n s' off'
    | none => (s, off)

/-- `pump`: `data` is what `recv` drained. -/
def pump (now : Nat → TsNanos) (data : List UInt8) : FlowClient :=
  let rx := s.rx ++ data
  let (s', off) := parseLoop now rx rx.length s 0
  { s' with rx := rx.drop off }

end FlowClient

end Lob
