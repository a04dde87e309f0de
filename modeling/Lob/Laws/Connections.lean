/-
  Lob.Laws.Connections — both streams of a connection, byte by byte.

  `Session`: of the commands a peer sent the server has decoded the first, the bytes of the
  others are on their way; of the reports popped for it the peer has heard the first, the
  bytes of the others are on their way. Once the server has closed the connection, what was
  on its way up is lost and nothing more comes down. Each thing the server does for a
  connection has a lemma for it, and leaves the other connections alone (`Aside`).
-/

import Lob.Laws.Streams

namespace Lob

open Wire FlowClient

/-! ## What the other threads leave alone -/

namespace Pipeline

variable {B : Type} [Book B] {s s' : Pipeline B}

/-- The gateway's part of the pipeline is as it was. -/
structure SameEdge (s s' : Pipeline B) : Prop where
  decoded : s'.decoded = s.decoded
  taken : s'.exec.taken = s.exec.taken

theorem engine_edge {now : TsNanos} (h : s.engineStep now = some s') : SameEdge s s' := by
  unfold engineStep at h
  cases hc : s.core with
  | idle =>
    rw [hc] at h
    unfold popInbound at h
    rcases e : s.inbound.tryPop with ⟨inbound, got⟩
    rw [e] at h
    cases got with
    | none =>
      cases h
      exact ⟨rfl, rfl⟩
    | some cmd =>
      obtain ⟨c, _, h⟩ := Option.bind_eq_some_iff.mp h
      obtain ⟨engine, _, h⟩ := Option.bind_eq_some_iff.mp h
      cases h
      exact ⟨rfl, rfl⟩
  | handling events =>
    rw [hc] at h
    cases events with
    | nil =>
      cases h
      exact ⟨rfl, rfl⟩
    | cons e events =>
      cases h
      unfold handle
      cases e.type <;> exact ⟨rfl, rfl⟩
  | pushing er spins events =>
    rw [hc] at h
    cases h
    have htaken := tryPush_taken s.exec er
    unfold pushExec
    rcases hp : s.exec.tryPush er with ⟨exec, ok⟩
    rw [hp] at htaken
    cases ok with
    | true => exact ⟨rfl, htaken⟩
    | false =>
      by_cases hn : spins + 1 > 8192
      · simp only [if_pos hn]
        exact ⟨rfl, htaken⟩
      · simp only [if_neg hn]
        exact ⟨rfl, htaken⟩

omit [Book B] in
theorem publisher_edge (s : Pipeline B) (heartbeat : Option TsNanos) : SameEdge s (s.publisherStep heartbeat) := by
  obtain ⟨_, _, _, _, e⟩ := publisherStep_frame s heartbeat
  rw [e]
  exact ⟨rfl, rfl⟩

omit [Book B] in
/-- An attempt of the gateway's push loop. -/
theorem pushInbound_edge (s : Pipeline B) (cmd : RawCommand) (spins : Nat) :
    SameEdge s (s.pushInbound cmd spins) := by
  unfold pushInbound
  rcases s.inbound.tryPush cmd with ⟨inbound, ok⟩
  cases ok with
  | true => exact ⟨rfl, rfl⟩
  | false =>
    by_cases hn : spins + 1 > 4096
    · simp only [if_pos hn]
      exact ⟨rfl, rfl⟩
    · simp only [if_neg hn]
      exact ⟨rfl, rfl⟩

end Pipeline

/-! ## A connection -/

namespace Server

variable {B : Type} (sv : Server B)

/-- Where the gateway is in the buffer of the connection at `fd`, if it is parsing it. -/
def reading (fd : Fd) : Option Nat := sv.parsing.bind fun (fd', off, _) => if fd' = fd then some off else none

/-- The commands decoded that a connection sent, and the reports popped that are for it. -/
def decodedFrom (speaks : ClientId → Nat) (k : Nat) : List RawCommand :=
  sv.pipeline.decoded.filter fun cmd => speaks cmd.client = k

def poppedFor (speaks : ClientId → Nat) (k : Nat) : List ExecReport :=
  sv.pipeline.exec.taken.filter fun er => speaks er.clientId = k

end Server

/-- What is buffered and not parsed. -/
def unread (c : Conn) : Option Nat → List UInt8
  | none => c.inBuf
  | some off => c.inBuf.drop off

/-- The client's end: `parsed` and `rest` are the commands parsed and not, `pending` the
    reports on their way and `out` what is left of their bytes beyond those sent. -/
structure Linked {B : Type} (speaks : ClientId → Nat) (k : Nat) (sv : Server B) (p : Peer) (parsed rest : List (Command × TsNanos))
    (pending : List ExecReport) (out : List UInt8) : Prop where
  submitted : p.submitted = parsed ++ rest
  own : ∀ x ∈ p.submitted, speaks x.1.client = k
  decoded : (sv.decodedFrom speaks k).map RawCommand.untimed = parsed.map fun x => x.1.raw
  heard : p.client.heard ++ pending <+: sv.poppedFor speaks k
  down : p.client.rx ++ p.down ++ out = (pending.map reportFrame).flatten
  started : Unfinished p.client.rx (pending.map reportFrame)
  counted : p.client.Counted

/-- The server's end while the connection is open. -/
structure Opened {B : Type} (speaks : ClientId → Nat) (k : Nat) (sv : Server B) (p : Peer) (c : Conn)
    (parsed rest : List (Command × TsNanos)) (pending : List ExecReport) : Prop
    extends Linked speaks k sv p parsed rest pending c.outBuf where
  conn : sv.gateway.conns p.fd = some c
  client : c.client ≠ 0 → speaks c.client = k
  routes : ∀ cmd ∈ sv.decodedFrom speaks k, sv.gateway.route cmd.client = some p.fd
  named : ∀ x fd, speaks x = k → sv.gateway.route x = some fd → fd = p.fd
  up : unread c (sv.reading p.fd) ++ p.up = (rest.map commandFrame).flatten
  parsing : sv.reading p.fd = none → Unfinished c.inBuf (rest.map commandFrame)
  popped : sv.poppedFor speaks k = p.client.heard ++ pending

/-- And once it is closed: what still names its descriptor leads nowhere. -/
structure Shut {B : Type} (speaks : ClientId → Nat) (k : Nat) (sv : Server B) (p : Peer) (parsed rest : List (Command × TsNanos))
    (pending : List ExecReport) (out : List UInt8) : Prop
    extends Linked speaks k sv p parsed rest pending out where
  stale : ∀ x fd, speaks x = k → sv.gateway.route x = some fd → sv.gateway.conns fd = none

inductive Session {B : Type} (speaks : ClientId → Nat) (k : Nat) (sv : Server B) (p : Peer) : Prop where
  | opened (still : p.closed = false) (c : Conn) (parsed rest : List (Command × TsNanos)) (pending : List ExecReport)
      (link : Opened speaks k sv p c parsed rest pending)
  | shut (gone : p.closed = true) (parsed rest : List (Command × TsNanos)) (pending : List ExecReport) (out : List UInt8)
      (link : Shut speaks k sv p parsed rest pending out)

/-- What the server does leaves the connection of peer `k` alone. -/
structure Aside {B : Type} (speaks : ClientId → Nat) (k : Nat) (p : Peer) (sv sv' : Server B) : Prop where
  decoded : sv'.decodedFrom speaks k = sv.decodedFrom speaks k
  popped : sv'.poppedFor speaks k = sv.poppedFor speaks k
  route : ∀ x, speaks x = k → sv'.gateway.route x = sv.gateway.route x
  conn : p.closed = false → sv'.gateway.conns p.fd = sv.gateway.conns p.fd ∧ sv'.reading p.fd = sv.reading p.fd
  stale : ∀ x fd, speaks x = k → sv.gateway.route x = some fd → sv.gateway.conns fd = none → sv'.gateway.conns fd = none

section
variable {B : Type} {speaks : ClientId → Nat} {k : Nat} {sv sv' : Server B} {p : Peer} {c : Conn}
  {parsed rest : List (Command × TsNanos)} {pending : List ExecReport} {out : List UInt8}

theorem Session.aside (h : Session speaks k sv p) (ha : Aside speaks k p sv sv') : Session speaks k sv' p := by
  cases h with
  | opened still c parsed rest pending h =>
    obtain ⟨hconn, hreading⟩ := ha.conn still
    refine .opened still c parsed rest pending { h with
      decoded := by rw [ha.decoded]; exact h.decoded
      heard := by rw [ha.popped]; exact h.heard
      conn := hconn.trans h.conn
      routes := ?_
      named := fun x fd hx hr => h.named x fd hx ((ha.route x hx).symm.trans hr)
      up := by rw [hreading]; exact h.up
      parsing := by rw [hreading]; exact h.parsing
      popped := ha.popped.trans h.popped }
    rw [ha.decoded]
    intro cmd hcmd
    have hk : speaks cmd.client = k := by simpa using (List.mem_filter.mp hcmd).2
    exact (ha.route _ hk).trans (h.routes cmd hcmd)
  | shut gone parsed rest pending out h =>
    refine .shut gone parsed rest pending out { h with
      decoded := by rw [ha.decoded]; exact h.decoded
      heard := by rw [ha.popped]; exact h.heard
      stale := fun x fd hx hr => ?_ }
    rw [ha.route x hx] at hr
    exact ha.stale x fd hx hr (h.stale x fd hx hr)

/-! ## The client's moves -/

theorem Linked.submit (h : Linked speaks k sv p parsed rest pending out) {cmd : Command} (hk : speaks cmd.client = k)
    (ts : TsNanos) (whole : Bool) :
    Linked speaks k sv (p.submit cmd ts whole) parsed (rest ++ if whole then [(cmd, ts)] else []) pending out := by
  have hcounted : (p.submit cmd ts whole).client.Counted :=
    ⟨h.counted.fills, h.counted.rejects, h.counted.acks, h.counted.timed⟩
  cases whole with
  | false =>
    rw [if_neg Bool.false_ne_true, List.append_nil]
    exact ⟨h.submitted, h.own, h.decoded, h.heard, h.down, h.started, hcounted⟩
  | true =>
    refine ⟨?_, fun x hx => ?_, h.decoded, h.heard, h.down, h.started, hcounted⟩
    · show p.submitted ++ [(cmd, ts)] = _
      rw [h.submitted, List.append_assoc]
      rfl
    · rcases List.mem_append.mp hx with hx | hx
      · exact h.own x hx
      · rw [List.mem_singleton.mp hx]
        exact hk

theorem Session.submit (h : Session speaks k sv p) {cmd : Command} (hk : speaks cmd.client = k) (ts : TsNanos) (whole : Bool) :
    Session speaks k sv (p.submit cmd ts whole) := by
  cases h with
  | shut gone parsed rest pending out h => exact .shut gone _ _ _ _ { h.toLinked.submit hk ts whole with stale := h.stale }
  | opened still c parsed rest pending h =>
    refine .opened still c _ _ _ { h.toLinked.submit hk ts whole with
      conn := h.conn
      client := h.client
      routes := h.routes
      named := h.named
      up := ?_
      parsing := ?_
      popped := h.popped }
    · have hup : unread c (sv.reading p.fd) ++ p.up = (rest.map commandFrame).flatten := h.up
      cases whole with
      | false =>
        show _ ++ (p.up ++ List.take 0 _) = _
        rw [List.take_zero, List.append_nil, if_neg Bool.false_ne_true, List.append_nil]
        exact hup
      | true =>
        show _ ++ (p.up ++ List.take (commandFrame (cmd, ts)).length (commandFrame (cmd, ts))) = _
        rw [List.take_length, ← List.append_assoc, List.map_append, List.flatten_append, ← hup, if_pos rfl,
          List.map_singleton, List.flatten_singleton]
        rfl
    · intro hr
      rw [List.map_append]
      exact Unfinished.more (h.parsing hr) _

theorem Linked.pump (h : Linked speaks k sv p parsed rest pending out) (now : Nat → TsNanos) (n : Nat) :
    ∃ done todo, pending = done ++ todo ∧ (p.pump now n).client.heard = p.client.heard ++ done ∧
      Linked speaks k sv (p.pump now n) parsed rest todo out := by
  have hdown := h.down
  rw [← List.take_append_drop n p.down, ← List.append_assoc, List.append_assoc (p.client.rx ++ _)] at hdown
  obtain ⟨done, todo, rfl, hrx, hu, hheard, hcounted⟩ := pump_spec now (Exists.intro _ hdown)
  refine ⟨done, todo, rfl, hheard, h.submitted, h.own, h.decoded, ?_, ?_, hu, hcounted h.counted⟩
  · show (p.client.pump now (p.down.take n)).heard ++ todo <+: _
    rw [hheard, List.append_assoc]
    exact h.heard
  · rw [hrx, List.map_append, List.flatten_append, List.append_assoc] at hdown
    rw [← List.append_cancel_left hdown, List.append_assoc]
    rfl

theorem Session.pump (h : Session speaks k sv p) (now : Nat → TsNanos) (n : Nat) : Session speaks k sv (p.pump now n) := by
  cases h with
  | shut gone parsed rest pending out h =>
    obtain ⟨done, todo, _, _, hl⟩ := h.toLinked.pump now n
    exact .shut gone _ _ _ _ { hl with stale := h.stale }
  | opened still c parsed rest pending h =>
    obtain ⟨done, todo, rfl, hheard, hl⟩ := h.toLinked.pump now n
    refine .opened still c _ _ _ { hl with
      conn := h.conn
      client := h.client
      routes := h.routes
      named := h.named
      up := h.up
      parsing := h.parsing
      popped := ?_ }
    rw [hheard, List.append_assoc]
    exact h.popped

/-! ## What the server does for a connection -/

theorem setConn_self {g : Gateway} {fd : Fd} (h : g.conns fd = some c) (f : Conn → Conn) : (g.setConn fd f).conns fd = some (f c) := by
  show Function.update g.conns fd _ fd = _
  rw [Function.update_self, h]
  rfl

theorem reading_self {fd : Fd} {off : Nat} {ended : Bool} (h : sv.parsing = some (fd, off, ended)) : sv.reading fd = some off := by
  rw [Server.reading, h]
  exact if_pos rfl

/-- It parses nothing, or another connection's buffer. -/
theorem reading_other {fd : Fd} (h : ∀ at_ ∈ sv.parsing, at_.1 ≠ fd) : sv.reading fd = none := by
  unfold Server.reading
  cases hp : sv.parsing with
  | none => rfl
  | some at_ => exact if_neg (h at_ hp)

/-- Nothing has been sent yet. -/
theorem Session.accept {fd : Fd} {rtt : LatencyHistogram} (hrtt : rtt.count = 0) (hfd : sv.gateway.conns fd = none)
    (hp : sv.parsing = none) (hnone : sv.decodedFrom speaks k = [] ∧ sv.poppedFor speaks k = [])
    (hroute : ∀ x, speaks x = k → sv.gateway.route x = none) :
    Session speaks k { sv with gateway := sv.gateway.accept fd } { fd := fd, client := { rtt := rtt } } := by
  have hreading : Server.reading { sv with gateway := sv.gateway.accept fd } fd = none :=
    reading_other fun at_ hat => by
      rw [show sv.parsing = none from hp] at hat
      cases hat
  refine .opened rfl {} [] [] [] ⟨⟨rfl, fun x hx => absurd hx List.not_mem_nil, ?_, ?_, rfl, Or.inl rfl, ?_⟩, ?_, ?_, ?_, ?_, ?_, ?_, ?_⟩
  · show (sv.decodedFrom speaks k).map _ = _
    rw [hnone.1]
    rfl
  · exact List.nil_prefix
  · exact ⟨rfl, rfl, Nat.le_refl 0, hrtt⟩
  · show (sv.gateway.accept fd).conns fd = _
    rw [Gateway.accept_conns _ _ hfd, Function.update_self]
  · exact fun h => absurd rfl h
  · show ∀ cmd ∈ sv.decodedFrom speaks k, _
    rw [hnone.1]
    exact fun cmd hcmd => absurd hcmd List.not_mem_nil
  · intro x fd' hx hr
    rw [show (sv.gateway.accept fd).route x = none from hroute x hx] at hr
    cases hr
  · rw [hreading]
    rfl
  · exact fun _ => Or.inl rfl
  · exact hnone.2

theorem Opened.ready (h : Opened speaks k sv p c parsed rest pending) (hp : sv.parsing = none) (n : Nat) (ended : Bool) :
    Opened speaks k (sv.ready p.fd (p.up.take n) ended) { p with up := p.up.drop n }
      { c with inBuf := c.inBuf ++ p.up.take n } parsed rest pending := by
  have hup := h.up
  have hidle : sv.reading p.fd = none := reading_other (by rw [hp]; nofun)
  have hreading : (sv.ready p.fd (p.up.take n) ended).reading p.fd = some 0 := reading_self rfl
  rw [hidle] at hup
  refine { h.toLinked with
    conn := setConn_self h.conn _
    client := h.client
    routes := h.routes
    named := h.named
    up := ?_
    parsing := ?_
    popped := h.popped }
  · rw [hreading]
    show (c.inBuf ++ p.up.take n).drop 0 ++ p.up.drop n = _
    rw [List.drop_zero, List.append_assoc, List.take_append_drop]
    exact hup
  · rw [hreading]
    nofun

theorem Opened.flush (h : Opened speaks k sv p c parsed rest pending) (n : Nat) :
    Opened speaks k { sv with gateway := sv.gateway.flush p.fd n } { p with down := p.down ++ c.outBuf.take n }
      { c with outBuf := c.outBuf.drop n } parsed rest pending := by
  refine { h.toLinked with
    down := ?_
    conn := setConn_self h.conn _
    client := h.client
    routes := h.routes
    named := h.named
    up := ?_
    parsing := h.parsing
    popped := h.popped }
  · show p.client.rx ++ (p.down ++ c.outBuf.take n) ++ c.outBuf.drop n = _
    rw [← h.down]
    simp only [List.append_assoc, List.take_append_drop]
  · have hup := h.up
    show unread { c with outBuf := c.outBuf.drop n } (sv.reading p.fd) ++ p.up = _
    rw [← hup]
    cases sv.reading p.fd <;> rfl

/-- What the parse loop meets: a whole frame of the stream, or none. -/
theorem Opened.turn (h : Opened speaks k sv p c parsed rest pending) (now : Nat → TsNanos) {off : Nat}
    (hr : sv.reading p.fd = some off) :
    (sv.gateway.turn now p.fd c.inBuf off = none ∧ Unfinished (c.inBuf.drop off) (rest.map commandFrame)) ∨
      ∃ x rest' more cmd, rest = x :: rest' ∧ c.inBuf.drop off = commandFrame x ++ more ∧ cmd.untimed = x.1.raw ∧
        sv.gateway.turn now p.fd c.inBuf off =
          some (({ sv.gateway with reads := sv.gateway.reads + 1 } : Gateway).command p.fd cmd,
            off + (commandFrame x).length) := by
  have hup := h.up
  rw [hr] at hup
  obtain ⟨fs, gs, part, hfs, hb, hu⟩ := split_frames _ (Exists.intro p.up hup)
  have hb : c.inBuf.drop off = fs.flatten ++ part := hb
  cases fs with
  | nil =>
    rw [List.flatten_nil, List.nil_append] at hb
    rw [List.nil_append] at hfs
    refine Or.inl ⟨?_, by rw [hb, hfs]; exact hu⟩
    have hpeek : peekHeader part = none := by
      refine hu.peek fun f hf => ?_
      rw [← hfs] at hf
      obtain ⟨x, _, rfl⟩ := List.mem_map.mp hf
      exact whole_frame 0 _
    rw [Gateway.turn, hb, hpeek]
    rfl
  | cons f fs =>
    cases rest with
    | nil => cases hfs
    | cons x rest' =>
      obtain ⟨rfl, _⟩ := List.cons.inj hfs
      rw [List.flatten_cons, List.append_assoc] at hb
      obtain ⟨cmd, hraw, hturn⟩ := sv.gateway.turn_command now p.fd x hb
      exact Or.inr ⟨x, rest', _, cmd, rfl, hb, hraw, hturn⟩

theorem raw_client (c : Command) : c.raw.client = c.client := by
  unfold Command.raw
  cases c.type <;> rfl

/-- A command was decoded. -/
theorem Opened.command {x : Command × TsNanos} (h : Opened speaks k sv p c parsed (x :: rest) pending) {off : Nat}
    (hr : sv.reading p.fd = some off) {more : List UInt8} (hb : c.inBuf.drop off = commandFrame x ++ more) {cmd : RawCommand}
    (hraw : cmd.untimed = x.1.raw) {pipe : Pipeline B} (hdecoded : pipe.decoded = sv.pipeline.decoded ++ [cmd])
    (htaken : pipe.exec.taken = sv.pipeline.exec.taken) (reads : Nat) (ended : Bool) :
    speaks cmd.client = k ∧
      Opened speaks k
        { pipeline := pipe
          gateway := ({ sv.gateway with reads := reads } : Gateway).command p.fd cmd
          parsing := some (p.fd, off + (commandFrame x).length, ended) }
        p { c with client := cmd.client } (parsed ++ [x]) rest pending := by
  have hclient : cmd.client = x.1.client := (congrArg RawCommand.client hraw).trans (raw_client x.1)
  have hk : speaks cmd.client = k := by
    rw [hclient]
    exact h.own x (by rw [h.submitted]; exact List.mem_append_right _ List.mem_cons_self)
  have hfrom : (pipe.decoded.filter fun cmd => speaks cmd.client = k) = sv.decodedFrom speaks k ++ [cmd] := by
    rw [hdecoded, List.filter_append, List.filter_cons_of_pos (by simpa using hk)]
    rfl
  have hpopped : (pipe.exec.taken.filter fun er => speaks er.clientId = k) = sv.poppedFor speaks k := by rw [htaken]; rfl
  refine ⟨hk, ⟨?_, h.own, ?_, ?_, h.down, h.started, h.counted⟩, setConn_self h.conn _, fun _ => hk, ?_, ?_, ?_, ?_, ?_⟩
  · rw [List.append_assoc]
    exact h.submitted
  · show (pipe.decoded.filter _).map _ = _
    rw [hfrom, List.map_append, List.map_append, h.decoded, List.map_singleton, hraw]
    rfl
  · show _ <+: pipe.exec.taken.filter _
    rw [hpopped]
    exact h.heard
  · show ∀ cmd' ∈ pipe.decoded.filter _, Function.update sv.gateway.route cmd.client (some p.fd) cmd'.client = _
    intro cmd' hcmd'
    by_cases he : cmd'.client = cmd.client
    · rw [he, Function.update_self]
    · rw [Function.update_of_ne he]
      rw [hfrom] at hcmd'
      refine h.routes cmd' ((List.mem_append.mp hcmd').resolve_right fun hin => ?_)
      exact he (congrArg RawCommand.client (List.mem_singleton.mp hin))
  · intro y fd hy hroute
    have hroute : Function.update sv.gateway.route cmd.client (some p.fd) y = some fd := hroute
    by_cases he : y = cmd.client
    · rw [he, Function.update_self] at hroute
      exact (Option.some.inj hroute).symm
    · rw [Function.update_of_ne he] at hroute
      exact h.named y fd hy hroute
  · have hup := h.up
    rw [hr] at hup
    have hup : c.inBuf.drop off ++ p.up = commandFrame x ++ (rest.map commandFrame).flatten := hup
    rw [reading_self rfl]
    show c.inBuf.drop (off + (commandFrame x).length) ++ p.up = _
    rw [← List.drop_drop, hb, List.drop_left]
    rw [hb, List.append_assoc] at hup
    exact List.append_cancel_left hup
  · rw [reading_self rfl]
    nofun
  · exact hpopped.trans h.popped

/-- The parse loop ended. -/
theorem Opened.consume (h : Opened speaks k sv p c parsed rest pending) {off : Nat} (hr : sv.reading p.fd = some off)
    (hu : Unfinished (c.inBuf.drop off) (rest.map commandFrame)) :
    Opened speaks k { sv with gateway := sv.gateway.consume p.fd off, parsing := none } p
      { c with inBuf := c.inBuf.drop off } parsed rest pending := by
  have hup := h.up
  rw [hr] at hup
  exact { h.toLinked with
    conn := setConn_self h.conn _
    client := h.client
    routes := h.routes
    named := h.named
    up := hup
    parsing := fun _ => hu
    popped := h.popped }

/-- And the connection is closed: the routes left of it lead nowhere. -/
theorem Opened.close (h : Opened speaks k sv p c parsed rest pending) :
    Shut speaks k { sv with gateway := sv.gateway.close p.fd } { p with closed := true } parsed rest pending c.outBuf := by
  refine { h.toLinked with stale := fun x fd hx hr => ?_ }
  have hr : (sv.gateway.close p.fd).route x = some fd := hr
  rw [Gateway.close_route _ _ h.conn] at hr
  split at hr
  · cases hr
  · rw [h.named x fd hx hr]
    exact Gateway.close_conns_self ..

/-- A report of the peer's own is popped and delivered. -/
theorem Opened.deliver (h : Opened speaks k sv p c parsed rest pending) {er : ExecReport} (hk : speaks er.clientId = k)
    (hroute : sv.gateway.route er.clientId = some p.fd) {pipe : Pipeline B} (hdecoded : pipe.decoded = sv.pipeline.decoded)
    (htaken : pipe.exec.taken = sv.pipeline.exec.taken ++ [er]) :
    Opened speaks k { sv with pipeline := pipe, gateway := sv.gateway.deliver er } p
      { c with outBuf := c.outBuf ++ reportFrame er } parsed rest (pending ++ [er]) := by
  have hpopped : (pipe.exec.taken.filter fun er => speaks er.clientId = k) = p.client.heard ++ (pending ++ [er]) := by
    rw [htaken, List.filter_append, List.filter_cons_of_pos (by simpa using hk), ← List.append_assoc]
    exact congrArg (· ++ [er]) h.popped
  have hfrom : (pipe.decoded.filter fun cmd => speaks cmd.client = k) = sv.decodedFrom speaks k := by rw [hdecoded]; rfl
  rw [Gateway.deliver_to sv.gateway p.fd hroute h.conn]
  refine ⟨⟨h.submitted, h.own, ?_, ?_, ?_, ?_, h.counted⟩, Function.update_self .., h.client, ?_, h.named, ?_, h.parsing, hpopped⟩
  · show (pipe.decoded.filter _).map _ = _
    rw [hfrom]
    exact h.decoded
  · show _ <+: pipe.exec.taken.filter _
    rw [hpopped]
  · rw [List.map_append, List.flatten_append, ← h.down, List.map_singleton, List.flatten_singleton, ← List.append_assoc]
  · rw [List.map_append]
    exact h.started.more _
  · show ∀ cmd ∈ pipe.decoded.filter _, _
    rw [hfrom]
    exact h.routes
  · have hup := h.up
    show unread { c with outBuf := c.outBuf ++ reportFrame er } (sv.reading p.fd) ++ p.up = _
    rw [← hup]
    cases sv.reading p.fd <;> rfl

/-- One popped after the connection was closed is dropped. -/
theorem Shut.deliver (h : Shut speaks k sv p parsed rest pending out) {er : ExecReport} (hk : speaks er.clientId = k)
    {pipe : Pipeline B} (hdecoded : pipe.decoded = sv.pipeline.decoded)
    (htaken : pipe.exec.taken = sv.pipeline.exec.taken ++ [er]) :
    Shut speaks k { sv with pipeline := pipe, gateway := sv.gateway.deliver er } p parsed rest pending out := by
  rw [Gateway.deliver_none _ fun fd hr => h.stale _ _ hk hr]
  refine { h with decoded := ?_, heard := ?_ }
  · show (pipe.decoded.filter _).map _ = _
    rw [hdecoded]
    exact h.decoded
  · show _ <+: pipe.exec.taken.filter _
    rw [htaken, List.filter_append]
    exact h.heard.trans (List.prefix_append ..)

/-! ## What it does for another -/

theorem Aside.trans {sv'' : Server B} (h : Aside speaks k p sv sv') (h' : Aside speaks k p sv' sv'') :
    Aside speaks k p sv sv'' where
  decoded := h'.decoded.trans h.decoded
  popped := h'.popped.trans h.popped
  route x hx := (h'.route x hx).trans (h.route x hx)
  conn hp := ⟨(h'.conn hp).1.trans (h.conn hp).1, (h'.conn hp).2.trans (h.conn hp).2⟩
  stale x fd hx hr hc := h'.stale x fd hx ((h.route x hx).trans hr) (h.stale x fd hx hr hc)

theorem Aside.pipeline {pipe : Pipeline B} (h : Pipeline.SameEdge sv.pipeline pipe) :
    Aside speaks k p sv { sv with pipeline := pipe } where
  decoded := congrArg (List.filter _) h.decoded
  popped := congrArg (List.filter _) h.taken
  route _ _ := rfl
  conn _ := ⟨rfl, rfl⟩
  stale _ _ _ _ := id

/-- A connection's buffers. -/
theorem Aside.setConn {fd : Fd} (hne : p.closed = false → p.fd ≠ fd) (f : Conn → Conn) {q : Option (Fd × Nat × Bool)}
    (hp : ∀ at_ ∈ sv.parsing, at_.1 = fd) (hq : ∀ at_ ∈ q, at_.1 = fd) :
    Aside speaks k p sv { sv with gateway := sv.gateway.setConn fd f, parsing := q } where
  decoded := rfl
  popped := rfl
  route _ _ := rfl
  conn hopen := by
    have hfd := hne hopen
    have hbefore : sv.reading p.fd = none := reading_other fun at_ hat => (hp at_ hat).symm ▸ hfd.symm
    exact ⟨Function.update_of_ne hfd .., (reading_other fun at_ hat => (hq at_ hat).symm ▸ hfd.symm).trans hbefore.symm⟩
  stale x fd' _ _ hc := by
    have hsome := Gateway.setConn_isSome sv.gateway fd fd' f
    rw [hc] at hsome
    exact Option.not_isSome_iff_eq_none.mp (Bool.eq_false_iff.mp hsome)

theorem Aside.accept {fd : Fd} (hfd : sv.gateway.conns fd = none) (hne : p.closed = false → p.fd ≠ fd)
    (hfresh : ∀ x, sv.gateway.route x ≠ some fd) : Aside speaks k p sv { sv with gateway := sv.gateway.accept fd } where
  decoded := rfl
  popped := rfl
  route _ _ := rfl
  conn hopen := by
    refine ⟨?_, rfl⟩
    show (sv.gateway.accept fd).conns p.fd = _
    rw [Gateway.accept_conns _ _ hfd, Function.update_of_ne (hne hopen)]
  stale x fd' _ hr hc := by
    have hne : fd' ≠ fd := by
      rintro rfl
      exact hfresh x hr
    show (sv.gateway.accept fd).conns fd' = none
    rw [Gateway.accept_conns _ _ hfd, Function.update_of_ne hne]
    exact hc

theorem Aside.command {fd : Fd} (hne : p.closed = false → p.fd ≠ fd) {cmd : RawCommand} (hk : speaks cmd.client ≠ k)
    {pipe : Pipeline B} (hdecoded : pipe.decoded = sv.pipeline.decoded ++ [cmd])
    (htaken : pipe.exec.taken = sv.pipeline.exec.taken) (reads : Nat) (hp : ∀ at_ ∈ sv.parsing, at_.1 = fd)
    (off : Nat) (ended : Bool) :
    Aside speaks k p sv
      { pipeline := pipe
        gateway := ({ sv.gateway with reads := reads } : Gateway).command fd cmd
        parsing := some (fd, off, ended) } where
  decoded := by
    show pipe.decoded.filter _ = _
    rw [hdecoded, List.filter_append, List.filter_cons_of_neg (by simpa using hk)]
    exact List.append_nil _
  popped := congrArg (List.filter _) htaken
  route x hx := Function.update_of_ne (fun he : x = cmd.client => hk (he ▸ hx)) ..
  conn hopen := by
    have hfd := hne hopen
    have hbefore : sv.reading p.fd = none := reading_other fun at_ hat => (hp at_ hat).symm ▸ hfd.symm
    refine ⟨Function.update_of_ne hfd .., (reading_other fun at_ hat => ?_).trans hbefore.symm⟩
    cases hat
    exact hfd.symm
  stale x fd' _ _ hc := by
    have hsome := Gateway.setConn_isSome sv.gateway fd fd' fun c => { c with client := cmd.client }
    rw [hc] at hsome
    exact Option.not_isSome_iff_eq_none.mp (Bool.eq_false_iff.mp hsome)

theorem Aside.close {fd : Fd} (hne : p.closed = false → p.fd ≠ fd) (hc : sv.gateway.conns fd = some c)
    (hk : c.client ≠ 0 → speaks c.client ≠ k) : Aside speaks k p sv { sv with gateway := sv.gateway.close fd } where
  decoded := rfl
  popped := rfl
  route x hx := by
    show (sv.gateway.close fd).route x = _
    rw [Gateway.close_route _ _ hc, if_neg]
    rintro ⟨h0, rfl⟩
    exact hk h0 hx
  conn hopen := ⟨Gateway.close_conns_ne _ _ _ (hne hopen), rfl⟩
  stale x fd' _ _ hnone := by
    by_cases he : fd' = fd
    · rw [he]
      exact Gateway.close_conns_self ..
    · exact (Gateway.close_conns_ne _ _ _ he).trans hnone

theorem Aside.deliver {er : ExecReport} (hk : speaks er.clientId ≠ k)
    (hne : ∀ fd c, sv.gateway.route er.clientId = some fd → sv.gateway.conns fd = some c → p.closed = false → p.fd ≠ fd)
    {pipe : Pipeline B} (hdecoded : pipe.decoded = sv.pipeline.decoded)
    (htaken : pipe.exec.taken = sv.pipeline.exec.taken ++ [er]) :
    Aside speaks k p sv { sv with pipeline := pipe, gateway := sv.gateway.deliver er } where
  decoded := congrArg (List.filter _) hdecoded
  popped := by
    show pipe.exec.taken.filter _ = _
    rw [htaken, List.filter_append, List.filter_cons_of_neg (by simpa using hk)]
    exact List.append_nil _
  route x _ := congrFun (Gateway.deliver_route sv.gateway er) x
  conn hopen := by
    refine ⟨?_, rfl⟩
    show (sv.gateway.deliver er).conns p.fd = _
    rcases Gateway.deliver_cases sv.gateway er with e | ⟨fd, c, hr, hc, e⟩
    · rw [e]
    · rw [e]
      exact Function.update_of_ne (hne fd c hr hc hopen) ..
  stale x fd' _ _ hc := by
    have hsome := Gateway.deliver_isSome sv.gateway fd' er
    rw [hc] at hsome
    exact Option.not_isSome_iff_eq_none.mp (Bool.eq_false_iff.mp hsome)

end

end Lob
