/-
  Lob.Server.Gateway — the TCP gateway's connections (`run_gateway` in
  `engine_server.cpp`).

  A connection is found by its file descriptor, a client's connection by the route its
  last command set. What the loop does for one ready descriptor is `serve`: it appends
  what `recv` drained, takes every complete frame off the buffer, and closes. The
  functions it is made of are the steps `Lob.Server.Sessions` interleaves.

  A command leaves the gateway with the enumeration bytes of its frame (`RawCommand`).
  `pushed` is the history of these commands and `reads` counts the readings of the clock;
  the rings are in `Lob.Server.Pipeline`.
-/

import Lob.Wire.Codec
import Mathlib.Logic.Function.Basic

namespace Lob

open Wire

/-! ## Commands off the wire -/

/-- A `Command` whose enumerations are bytes. -/
structure RawCommand where
  type : CommandType := .new
  id : OrderId := 0
  client : ClientId := 0
  side : UInt8 := Side.byte .buy
  ordType : UInt8 := OrderType.byte .limit
  price : Int64 := Int64.minValue
  quantity : Quantity := 0
  tsRecv : TsNanos := 0
  deriving DecidableEq, Repr, Inhabited

namespace RawCommand

def makeNew (id : OrderId) (c : ClientId) (s t : UInt8) (p : Int64) (q : Quantity) (ts : TsNanos) : RawCommand :=
  ⟨.new, id, c, s, t, p, q, ts⟩

def makeCancel (id : OrderId) (c : ClientId) (ts : TsNanos) : RawCommand :=
  { type := .cancel, id := id, client := c, tsRecv := ts }

def makeModify (id : OrderId) (c : ClientId) (newPrice : Int64) (newQty : Quantity) (ts : TsNanos) : RawCommand :=
  { type := .modify, id := id, client := c, price := newPrice, quantity := newQty, tsRecv := ts }

/-- The command the engine sees, when both bytes are declared. -/
def command (c : RawCommand) : Option Command := do
  let side ← sideOf c.side
  let ordType ← orderTypeOf c.ordType
  some ⟨c.type, c.id, c.client, side, ordType, c.price.toInt, c.quantity, c.tsRecv⟩

end RawCommand

/-- The `switch` on the type in a frame's header. -/
def frameCommand (ts : TsNanos) (type : UInt8) (frame : List UInt8) : Option RawCommand :=
  if type = MsgType.newOrder.byte then
    (decodeNewOrder frame).map fun m => .makeNew m.orderId m.clientId m.side m.type m.price m.quantity ts
  else if type = MsgType.cancelOrder.byte then
    (decodeCancel frame).map fun m => .makeCancel m.orderId m.clientId ts
  else if type = MsgType.modifyOrder.byte then
    (decodeModify frame).map fun m => .makeModify m.orderId m.clientId m.price m.quantity ts
  else none

/-! ## Connections and routes -/

abbrev Fd := Nat

structure Conn where
  client : ClientId := 0
  inBuf : List UInt8 := []
  outBuf : List UInt8 := []
  deriving DecidableEq, Repr

structure Gateway where
  conns : Fd → Option Conn := fun _ => none
  route : ClientId → Option Fd := fun _ => none
  clients : UInt32 := 0
  execSent : Nat := 0
  reads : Nat := 0
  pushed : List RawCommand := []

namespace Gateway

variable (g : Gateway)

/-- The connection at `fd` replaced. -/
def setConn (fd : Fd) (f : Conn → Conn) : Gateway := { g with conns := Function.update g.conns fd ((g.conns fd).map f) }

/-- `conns.emplace`: nothing is replaced. -/
def accept (fd : Fd) : Gateway :=
  { g with
    conns := if (g.conns fd).isSome then g.conns else Function.update g.conns fd (some {})
    clients := g.clients + 1 }

def recv (fd : Fd) (data : List UInt8) : Gateway := g.setConn fd fun c => { c with inBuf := c.inBuf ++ data }

/-- A decoded command: `c.client`, `route[c.client]` and the push. -/
def command (fd : Fd) (cmd : RawCommand) : Gateway :=
  { g.setConn fd fun c => { c with client := cmd.client } with
    route := Function.update g.route cmd.client (some fd)
    pushed := g.pushed ++ [cmd] }

/-- `c.in.erase(c.in.begin(), c.in.begin() + off)`. -/
def consume (fd : Fd) (off : Nat) : Gateway := g.setConn fd fun c => { c with inBuf := c.inBuf.drop off }

def close (fd : Fd) : Gateway :=
  match g.conns fd with
  | none => g
  | some c =>
    { g with
      conns := Function.update g.conns fd none
      route := if c.client ≠ 0 then Function.update g.route c.client none else g.route
      clients := g.clients - 1 }

/-- The bytes `ebuf` holds for a report, when it encodes. -/
def reportBytes (er : ExecReport) : Option (List UInt8) :=
  let (ebuf, n) := encodeExecReport (fun _ => 0) 128 0 er
  if n = 0 then none else some ((List.range n).map ebuf)

/-- A report popped from the exec ring. -/
def deliver (er : ExecReport) : Gateway :=
  match g.route er.clientId with
  | none => g
  | some fd =>
    match g.conns fd, reportBytes er with
    | some _, some bytes =>
      { g.setConn fd fun c => { c with outBuf := c.outBuf ++ bytes } with execSent := g.execSent + 1 }
    | _, _ => g

/-- `flush` once `n` bytes went out. -/
def flush (fd : Fd) (n : Nat) : Gateway := g.setConn fd fun c => { c with outBuf := c.outBuf.drop n }

/-! ## The parse loop -/

/-- One turn from `off`, and where the next starts; `none` is the loop's `break`. -/
def turn (now : Nat → TsNanos) (fd : Fd) (inBuf : List UInt8) (off : Nat) : Option (Gateway × Nat) :=
  (peekHeader (inBuf.drop off)).map fun hdr =>
    let frame := (inBuf.drop off).take hdr.length.toNat
    let g' : Gateway := { g with reads := g.reads + 1 }
    match frameCommand (now g.reads) hdr.type frame with
    | some cmd => (g'.command fd cmd, off + hdr.length.toNat)
    | none => (g', off + hdr.length.toNat)

/-- At most `n` turns. -/
def parseLoop (now : Nat → TsNanos) (fd : Fd) (inBuf : List UInt8) : Nat → Gateway → Nat → Gateway × Nat
  | 0, g, off => (g, off)
  | n + 1, g, off =>
    match g.turn now fd inBuf off with
    | some (g', off') => parseLoop now fd inBuf n g' off'
    | none => (g, off)

/-- `c.in` of the connection at `fd`. -/
def inBuf (fd : Fd) : List UInt8 := ((g.conns fd).map (·.inBuf)).getD []

/-- Parse what is buffered and erase what was parsed. A turn takes a header at least, so the
    buffer's length bounds the turns. -/
def parse (now : Nat → TsNanos) (fd : Fd) : Gateway :=
  let (g', off) := parseLoop now fd (g.inBuf fd) (g.inBuf fd).length g 0
  g'.consume fd off

/-- One ready descriptor: `data` is what `recv` drained, `closed` whether it met the end. -/
def serve (now : Nat → TsNanos) (fd : Fd) (data : List UInt8) (closed : Bool) : Gateway :=
  let g := (g.recv fd data).parse now fd
  if closed then g.close fd else g

end Gateway

end Lob
