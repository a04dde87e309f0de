/-
  Lob.Server.System — the server with clients at the other ends of its connections.

  `Server` is the pipeline with the gateway's connections in its first thread: a frame
  decoded there is the command pushed, a report popped there is the report delivered
  (`run_gateway`). `System` adds the clients and the bytes on their way either way. Clients
  connect at any time; a connection ends whenever `recv` meets its end or an error, and its
  descriptor may be given out again. The network cuts the streams anywhere and loses
  nothing of an open connection; a client's socket takes a frame whole or not at all. A
  `Move` is a thread, a client or the network going on.
-/

import Lob.Server.Pipeline
import Lob.Server.Simulator

namespace Lob

open Wire

/-! ## The server -/

/-- `parsing`: the descriptor whose buffer is parsed, from where, and whether `recv` met its
    end. -/
structure Server (B : Type) where
  pipeline : Pipeline B
  gateway : Gateway := {}
  parsing : Option (Fd × Nat × Bool) := none

namespace Server

variable {B : Type} [Book B] (s : Server B)

/-- Between two connections, nothing in hand. -/
def polling : Bool := s.pipeline.gateway = .serving ∧ s.parsing = none

def ready (fd : Fd) (data : List UInt8) (closed : Bool) : Server B :=
  { s with gateway := s.gateway.recv fd data, parsing := some (fd, 0, closed) }

/-- The command a turn decoded, if it did. -/
def decodedBy (g g' : Gateway) : Option RawCommand := (g'.pushed.drop g.pushed.length).head?

/-- A turn of the parse loop, or its end: the erasure and the close. -/
def parseStep (now : Nat → TsNanos) (fd : Fd) (off : Nat) (closed : Bool) : Server B :=
  match s.gateway.turn now fd (s.gateway.inBuf fd) off with
  | some (g, off') =>
    let s' := { s with gateway := g, parsing := some (fd, off', closed) }
    match decodedBy s.gateway g with
    | some cmd => { s' with pipeline := s.pipeline.gatewayStep (some cmd) }
    | none => s'
  | none =>
    let g := s.gateway.consume fd off
    { s with gateway := if closed then g.close fd else g, parsing := none }

/-- The gateway thread goes on. -/
def gatewayStep (now : Nat → TsNanos) : Server B :=
  match s.pipeline.gateway with
  | .gone => s
  | .serving =>
    match s.parsing with
    | some (fd, off, closed) => s.parseStep now fd off closed
    | none => { s with pipeline := s.pipeline.gatewayStep none }
  | .pushing _ _ => { s with pipeline := s.pipeline.gatewayStep none }
  | .draining =>
    { s with
      pipeline := s.pipeline.gatewayStep none
      gateway := match s.pipeline.exec.tryPop.2 with
        | some er => s.gateway.deliver er
        | none => s.gateway }

end Server

/-! ## The system -/

/-- A client on a connection: what it holds, and the bytes sent and not received, to the
    server and from it. -/
structure Peer where
  fd : Fd
  client : FlowClient
  up : List UInt8 := []
  down : List UInt8 := []
  /-- The commands sent, and when. -/
  submitted : List (Command × TsNanos) := []
  /-- The server has closed the connection. -/
  closed : Bool := false

namespace Peer

variable (p : Peer)

def submit (c : Command) (ts : TsNanos) (whole : Bool) : Peer :=
  let (client, bytes) := p.client.send c ts (if whole then (frame 0 (FlowClient.request c ts)).length else 0)
  { p with
    client := client
    up := p.up ++ bytes
    submitted := if whole then p.submitted ++ [(c, ts)] else p.submitted }

def pump (now : Nat → TsNanos) (n : Nat) : Peer :=
  { p with client := p.client.pump now (p.down.take n), down := p.down.drop n }

end Peer

/-- Peers are numbered as they please; a number is one connection. -/
structure System (B : Type) where
  server : Server B
  peers : Nat → Option Peer := fun _ => none

namespace System

variable {B : Type} [Book B]

inductive Move where
  | connect (k : Nat) (fd : Fd)
  | submit (k : Nat) (c : Command) (ts : TsNanos) (whole : Bool)
  | arrive (k : Nat) (n : Nat) (ended : Bool)
  | gateway
  | flush (k : Nat) (n : Nat)
  | engine (now : TsNanos)
  | publisher (heartbeat : Option TsNanos)
  | pump (k : Nat) (n : Nat)
  deriving DecidableEq, Repr

/-- The threads start. -/
def start (cfg : EngineConfig) (inboundRing execRing mdRing : Nat) (udpValid : Bool) : Option (System B) := do
  some { server := { pipeline := ← Pipeline.start cfg inboundRing execRing mdRing true udpValid } }

variable (s : System B)

/-- What the gateway has yet to send on the connection at `fd`. -/
def outBuf (fd : Fd) : List UInt8 := ((s.server.gateway.conns fd).map (·.outBuf)).getD []

def setPeer (k : Nat) (p : Peer) : System B := { s with peers := Function.update s.peers k (some p) }

/-- The gateway went on; whose connection it closed is told. -/
def settle (server : Server B) : System B where
  server := server
  peers k := (s.peers k).map fun p => { p with closed := p.closed || (server.gateway.conns p.fd).isNone }

/-- Whose connection is served: peer `k`, still connected, while the gateway polls. -/
def served (k : Nat) : Option Peer := (s.peers k).filter fun p => s.server.polling && !p.closed

/-- `now` and `now'` are the clocks of the gateway and of the clients, `rtt` an empty
    histogram, and `speaks` says which connection sends commands for a client id. -/
def step (now now' : Nat → TsNanos) (rtt : LatencyHistogram) (speaks : ClientId → Nat) : Move → Option (System B)
  | .connect k fd =>
    if s.server.polling ∧ (s.peers k).isNone ∧ (s.server.gateway.conns fd).isNone then
      some { s.setPeer k { fd := fd, client := { rtt := rtt } } with
        server := { s.server with gateway := s.server.gateway.accept fd } }
    else none
  | .submit k c ts whole => do
    let p ← s.peers k
    if speaks c.client = k then some (s.setPeer k (p.submit c ts whole)) else none
  | .arrive k n ended => do
    let p ← s.served k
    some { s.setPeer k { p with up := p.up.drop n } with server := s.server.ready p.fd (p.up.take n) ended }
  | .gateway => some (s.settle (s.server.gatewayStep now))
  | .flush k n => do
    let p ← s.served k
    some { s.setPeer k { p with down := p.down ++ (s.outBuf p.fd).take n } with
      server := { s.server with gateway := s.server.gateway.flush p.fd n } }
  | .engine now => do
    let pipeline ← s.server.pipeline.engineStep now
    some { s with server := { s.server with pipeline := pipeline } }
  | .publisher heartbeat =>
    some { s with server := { s.server with pipeline := s.server.pipeline.publisherStep heartbeat } }
  | .pump k n => do
    let p ← s.peers k
    some (s.setPeer k (p.pump now' n))

/-- After a history of moves, newest first. -/
def after (now now' : Nat → TsNanos) (rtt : LatencyHistogram) (speaks : ClientId → Nat) : List Move → Option (System B)
  | [] => some s
  | m :: h => (after now now' rtt speaks h).bind fun s => s.step now now' rtt speaks m

end System

end Lob
