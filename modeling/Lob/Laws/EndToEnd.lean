/-
  Lob.Laws.EndToEnd — the whole server is the engine, seen from each of its clients.

  Clients connect, send commands and hear reports, through their streams, the gateway, the
  three rings and the threads, in any order of their moves; each uses client ids of its own.
  The engine has then run on commands the clients sent, those of each client in its order,
  and each client has heard reports of that run that are for it, in theirs (`end_to_end`):
  sublists of them where a ring dropped some, starts of them where none did, and all of them
  once nothing is on its way. A connection that closes leaves the others as they are,
  provided its descriptor is given out again only when no route names it (`Fresh`).
-/

import Lob.Book.OrderBookProofs
import Lob.Engine.Clients
import Lob.Laws.Backpressure
import Lob.Laws.Connections

namespace Lob

open Wire FlowClient

namespace System

variable {B : Type} [Book B] {speaks : ClientId → Nat} {s s' : System B} {k : Nat} {p p' : Peer} {sv : Server B}

/-! ## What the pipeline's history says -/

structure Facts (p0 p : Pipeline B) (is : List Engine.Input) : Prop where
  rings : Pipeline.Rings p
  driven : Pipeline.Driven p0 p is
  commands : Pipeline.Commands true p
  reports : Pipeline.Reports p

/-- The commands taken were decoded, in this order. -/
theorem Facts.taken {p0 p : Pipeline B} {is : List Engine.Input} (h : Facts p0 p is) : p.inbound.taken.Sublist p.decoded :=
  (List.sublist_append_left ..).trans (h.commands.kept_sublist h.rings.inbound)

/-- The reports popped were emitted, in this order. -/
theorem Facts.popped {p0 p : Pipeline B} {is : List Engine.Input} (h : Facts p0 p is) :
    p.exec.offered.kept.Sublist ((p0.engine.emitted is).filterMap Event.report) := by
  rw [← h.driven.emitted, ← h.reports.order]
  exact (Offers.kept_sublist _).trans (List.sublist_append_left ..)

omit [Book B] in
theorem command_client {r : RawCommand} {c : Command} (h : r.command = some c) : c.client = r.client := by
  obtain ⟨_, _, h⟩ := Option.bind_eq_some_iff.mp h
  obtain ⟨_, _, h⟩ := Option.bind_eq_some_iff.mp h
  cases h
  rfl

omit [Book B] in
theorem parseStep_pipeline (s : Server B) (now : Nat → TsNanos) (fd : Fd) (off : Nat) (closed : Bool) :
    (s.parseStep now fd off closed).pipeline = s.pipeline ∨
      ∃ input, (s.parseStep now fd off closed).pipeline = s.pipeline.gatewayStep input := by
  unfold Server.parseStep
  rcases s.gateway.turn now fd (s.gateway.inBuf fd) off with _ | ⟨g, off'⟩
  · exact Or.inl rfl
  · dsimp only
    rcases Server.decodedBy s.gateway g with _ | cmd
    · exact Or.inl rfl
    · exact Or.inr ⟨some cmd, rfl⟩

omit [Book B] in
theorem gatewayStep_pipeline (s : Server B) (now : Nat → TsNanos) :
    (s.gatewayStep now).pipeline = s.pipeline ∨ ∃ input, (s.gatewayStep now).pipeline = s.pipeline.gatewayStep input := by
  unfold Server.gatewayStep
  rcases s.pipeline.gateway with _ | _ | ⟨cmd, spins⟩ | _
  · exact Or.inl rfl
  · rcases s.parsing with _ | ⟨fd, off, closed⟩
    · exact Or.inr ⟨none, rfl⟩
    · exact parseStep_pipeline s now fd off closed
  · exact Or.inr ⟨none, rfl⟩
  · exact Or.inr ⟨none, rfl⟩

omit [Book B] in
theorem setPeer_eq {j : Nat} {q : Peer} (h : (s.setPeer k p).peers j = some q) : (j = k ∧ q = p) ∨ (j ≠ k ∧ s.peers j = some q) := by
  have h : Function.update s.peers k (some p) j = some q := h
  by_cases hj : j = k
  · rw [hj, Function.update_self] at h
    exact Or.inl ⟨hj, (Option.some.inj h).symm⟩
  · rw [Function.update_of_ne hj] at h
    exact Or.inr ⟨hj, h⟩

omit [Book B] in
theorem setPeer_isSome {j : Nat} (h : (s.peers j).isSome = true) : ((s.setPeer k p).peers j).isSome = true := by
  show (Function.update s.peers k (some p) j).isSome = true
  by_cases hj : j = k
  · rw [hj, Function.update_self]
    rfl
  · rwa [Function.update_of_ne hj]

omit [Book B] in
/-- A session says whether its connection is closed. -/
theorem told_session (h : Session speaks k sv p) : { p with closed := p.closed || (sv.gateway.conns p.fd).isNone } = p := by
  have hclosed : (p.closed || (sv.gateway.conns p.fd).isNone) = p.closed := by
    cases h with
    | opened still c _ _ _ h =>
      rw [still, h.conn]
      rfl
    | shut gone _ _ _ _ h =>
      rw [gone]
      rfl
  rw [hclosed]

/-- The invariant of every history: the pipeline has one of its own, each connection its session, and no two
    open ones a descriptor; whoever is heard of has connected. -/
structure Inv (p0 : Pipeline B) (speaks : ClientId → Nat) (s : System B) : Prop where
  past : ∃ h, p0.after h = some s.server.pipeline
  sessions : ∀ k p, s.peers k = some p → Session speaks k s.server p
  apart : ∀ j k p q, s.peers j = some p → s.peers k = some q → p.closed = false → q.closed = false → p.fd = q.fd → j = k
  reading : ∀ fd off ended, s.server.parsing = some (fd, off, ended) → ∃ k p, s.peers k = some p ∧ p.closed = false ∧ p.fd = fd
  known : ∀ cmd ∈ s.server.pipeline.decoded, (s.peers (speaks cmd.client)).isSome = true
  told : ∀ er ∈ s.server.pipeline.exec.taken, (s.peers (speaks er.clientId)).isSome = true
  routed : ∀ x fd, s.server.gateway.route x = some fd → ∃ cmd ∈ s.server.pipeline.decoded, cmd.client = x

variable {p0 : Pipeline B}

/-- One peer and its connection's buffers change. -/
theorem Inv.replace (h : Inv p0 speaks s) (hk : s.peers k = some p) (hfd : p'.fd = p.fd) (hclosed : p'.closed = p.closed)
    (hpipe : sv.pipeline = s.server.pipeline) (hroute : sv.gateway.route = s.server.gateway.route)
    (hmine : Session speaks k sv p') (hothers : ∀ j q, j ≠ k → s.peers j = some q → Aside speaks j q s.server sv)
    (hreading : ∀ fd off ended, sv.parsing = some (fd, off, ended) → p.closed = false ∧ fd = p.fd ∨
      s.server.parsing = some (fd, off, ended)) : Inv p0 speaks { s.setPeer k p' with server := sv } := by
  -- a peer as it was before
  have hold : ∀ j q, (s.setPeer k p').peers j = some q → ∃ q0, s.peers j = some q0 ∧ q.fd = q0.fd ∧ q.closed = q0.closed := by
    intro j q hq
    rcases setPeer_eq hq with ⟨rfl, rfl⟩ | ⟨_, hq⟩
    · exact ⟨p, hk, hfd, hclosed⟩
    · exact ⟨q, hq, rfl, rfl⟩
  constructor
  case past =>
    obtain ⟨hist, hp⟩ := h.past
    exact ⟨hist, hp.trans (congrArg some hpipe.symm)⟩
  case sessions =>
    intro j q hq
    rcases setPeer_eq hq with ⟨rfl, rfl⟩ | ⟨hj, hq⟩
    · exact hmine
    · exact (h.sessions j q hq).aside (hothers j q hj hq)
  case apart =>
    intro i j q r hq hr hqo hro hqr
    obtain ⟨q0, hq0, hqfd, hqc⟩ := hold i q hq
    obtain ⟨r0, hr0, hrfd, hrc⟩ := hold j r hr
    exact h.apart i j q0 r0 hq0 hr0 (hqc ▸ hqo) (hrc ▸ hro) (hqfd ▸ hrfd ▸ hqr)
  case reading =>
    intro fd off ended hp
    rcases hreading fd off ended hp with ⟨hopen, rfl⟩ | hp
    · exact ⟨k, p', Function.update_self .., hclosed.trans hopen, hfd⟩
    · obtain ⟨j, q, hq, hopen, hqfd⟩ := h.reading fd off ended hp
      by_cases hj : j = k
      · subst hj
        obtain rfl := Option.some.inj (hk.symm.trans hq)
        exact ⟨j, p', Function.update_self .., hclosed.trans hopen, hfd.trans hqfd⟩
      · exact ⟨j, q, (Function.update_of_ne hj ..).trans hq, hopen, hqfd⟩
  case known =>
    intro cmd hcmd
    exact setPeer_isSome (h.known cmd (hpipe ▸ hcmd))
  case told =>
    intro er her
    exact setPeer_isSome (h.told er (hpipe ▸ her))
  case routed =>
    intro x fd hx
    show ∃ cmd ∈ sv.pipeline.decoded, _
    rw [hpipe]
    exact h.routed x fd (hroute ▸ hx)

/-- The gateway went on, and may have closed a connection. -/
theorem Inv.settle (h : Inv p0 speaks s) (past : ∃ h, p0.after h = some sv.pipeline)
    (sessions : ∀ k p, s.peers k = some p → Session speaks k sv p ∨
      sv.gateway.conns p.fd = none ∧ Session speaks k sv { p with closed := true })
    (reading : ∀ fd off ended, sv.parsing = some (fd, off, ended) →
      ∃ k p, s.peers k = some p ∧ p.closed = false ∧ p.fd = fd ∧ Session speaks k sv p)
    (known : ∀ cmd ∈ sv.pipeline.decoded, (s.peers (speaks cmd.client)).isSome = true)
    (told : ∀ er ∈ sv.pipeline.exec.taken, (s.peers (speaks er.clientId)).isSome = true)
    (routed : ∀ x fd, sv.gateway.route x = some fd → ∃ cmd ∈ sv.pipeline.decoded, cmd.client = x) : Inv p0 speaks (s.settle sv) := by
  have hkept : ∀ k, (s.peers k).isSome = true → ((s.settle sv).peers k).isSome = true := fun k hk =>
    Option.isSome_map.trans hk
  refine ⟨past, ?_, ?_, ?_, fun cmd hcmd => hkept _ (known cmd hcmd), fun er her => hkept _ (told er her),
    routed⟩
  · intro k q hq
    obtain ⟨p, hp, rfl⟩ := Option.map_eq_some_iff.mp hq
    rcases sessions k p hp with hs | ⟨hnone, hs⟩
    · rw [told_session hs]
      exact hs
    · rw [hnone, Option.isNone_none, Bool.or_true]
      exact hs
  · intro i j q r hq hr hqo hro hqr
    obtain ⟨q0, hq0, rfl⟩ := Option.map_eq_some_iff.mp hq
    obtain ⟨r0, hr0, rfl⟩ := Option.map_eq_some_iff.mp hr
    exact h.apart i j q0 r0 hq0 hr0 (Bool.or_eq_false_iff.mp hqo).1 (Bool.or_eq_false_iff.mp hro).1 hqr
  · intro fd off ended hp
    obtain ⟨k, p, hk, hopen, hfd, hs⟩ := reading fd off ended hp
    refine ⟨k, p, ?_, hopen, hfd⟩
    show (s.peers k).map _ = _
    rw [hk, Option.map_some, told_session hs]

/-! ## The moves -/

theorem Inv.submit (h : Inv p0 speaks s) (hk : s.peers k = some p) {cmd : Command} (hown : speaks cmd.client = k) (ts : TsNanos)
    (whole : Bool) : Inv p0 speaks (s.setPeer k (p.submit cmd ts whole)) :=
  h.replace hk rfl rfl rfl rfl ((h.sessions k p hk).submit hown ts whole) (fun _ _ _ _ => .pipeline ⟨rfl, rfl⟩)
    fun _ _ _ hp => Or.inr hp

theorem Inv.pump (h : Inv p0 speaks s) (hk : s.peers k = some p) (now : Nat → TsNanos) (n : Nat) :
    Inv p0 speaks (s.setPeer k (p.pump now n)) :=
  h.replace hk rfl rfl rfl rfl ((h.sessions k p hk).pump now n) (fun _ _ _ _ => .pipeline ⟨rfl, rfl⟩)
    fun _ _ _ hp => Or.inr hp

omit [Book B] in
theorem served_eq (h : s.served k = some p) : s.peers k = some p ∧ s.server.parsing = none ∧ p.closed = false := by
  obtain ⟨hk, hserved⟩ := Option.filter_eq_some_iff.mp h
  obtain ⟨hpolling, hopen⟩ := Bool.and_eq_true_iff.mp hserved
  exact ⟨hk, (of_decide_eq_true hpolling).2, by simpa using hopen⟩

omit [Book B] in
theorem Session.open (h : Session speaks k sv p) (hopen : p.closed = false) :
    ∃ c parsed rest pending, Opened speaks k sv p c parsed rest pending := by
  cases h with
  | opened _ c parsed rest pending h => exact ⟨c, parsed, rest, pending, h⟩
  | shut gone => rw [gone] at hopen; cases hopen

theorem Inv.arrive (h : Inv p0 speaks s) (hserved : s.served k = some p) (n : Nat) (ended : Bool) :
    Inv p0 speaks
      { s.setPeer k { p with up := p.up.drop n } with server := s.server.ready p.fd (p.up.take n) ended } := by
  obtain ⟨hk, hparsing, hopen⟩ := served_eq hserved
  obtain ⟨c, parsed, rest, pending, hs⟩ := Session.open (h.sessions k p hk) hopen
  refine h.replace hk rfl rfl rfl rfl (.opened hopen _ _ _ _ (hs.ready hparsing n ended)) (fun j q hj hq => ?_) fun fd off e hp => ?_
  · refine .setConn (fun hqo hfd => hj (h.apart j k q p hq hk hqo hopen hfd)) _ (by rw [hparsing]; nofun) fun at_ hat => ?_
    cases hat
    rfl
  · cases hp
    exact Or.inl ⟨hopen, rfl⟩

theorem Inv.flush (h : Inv p0 speaks s) (hserved : s.served k = some p) (n : Nat) :
    Inv p0 speaks
      { s.setPeer k { p with down := p.down ++ (s.outBuf p.fd).take n } with
        server := { s.server with gateway := s.server.gateway.flush p.fd n } } := by
  obtain ⟨hk, hparsing, hopen⟩ := served_eq hserved
  obtain ⟨c, parsed, rest, pending, hs⟩ := Session.open (h.sessions k p hk) hopen
  have hout : s.outBuf p.fd = c.outBuf := by
    unfold System.outBuf
    rw [hs.conn]
    rfl
  refine h.replace hk rfl rfl rfl rfl ?_ (fun j q hj hq => ?_) fun fd off e hp => Or.inr hp
  · rw [hout]
    exact .opened hopen _ _ _ _ (hs.flush n)
  · exact .setConn (fun hqo hfd => hj (h.apart j k q p hq hk hqo hopen hfd)) _ (by rw [hparsing]; nofun) (by rw [hparsing]; nofun)

/-- The engine or the publisher goes on. -/
theorem Inv.aside (h : Inv p0 speaks s) {pipe : Pipeline B} (past : ∃ h, p0.after h = some pipe)
    (he : Pipeline.SameEdge s.server.pipeline pipe) :
    Inv p0 speaks { s with server := { s.server with pipeline := pipe } } where
  past := past
  sessions k p hk := (h.sessions k p hk).aside (.pipeline he)
  apart := h.apart
  reading := h.reading
  known cmd hcmd := h.known cmd (he.decoded ▸ hcmd)
  told er her := h.told er (he.taken ▸ her)
  routed x fd hx := by
    obtain ⟨cmd, hcmd, hx⟩ := h.routed x fd hx
    exact ⟨cmd, he.decoded ▸ hcmd, hx⟩

theorem Inv.connect (h : Inv p0 speaks s) (hk : s.peers k = none) {fd : Fd} (hfd : s.server.gateway.conns fd = none)
    (hparsing : s.server.parsing = none) (hfresh : ∀ cmd ∈ s.server.pipeline.decoded, s.server.gateway.route cmd.client ≠ some fd)
    {rtt : LatencyHistogram}
    (hrtt : rtt.count = 0) :
    Inv p0 speaks
      { s.setPeer k { fd := fd, client := { rtt := rtt } } with
        server := { s.server with gateway := s.server.gateway.accept fd } } := by
  have hunknown : ∀ x, speaks x = k → (s.peers (speaks x)).isSome = false := by
    intro x hx
    rw [hx, hk]
    rfl
  have hapart : ∀ j q, s.peers j = some q → q.closed = false → q.fd ≠ fd := by
    rintro j q hq hqo rfl
    obtain ⟨c, _, _, _, hs⟩ := Session.open (h.sessions j q hq) hqo
    rw [hs.conn] at hfd
    cases hfd
  constructor
  case past => exact h.past
  case sessions =>
    intro j q hq
    rcases setPeer_eq hq with ⟨rfl, rfl⟩ | ⟨_, hq⟩
    · refine .accept hrtt hfd hparsing ⟨?_, ?_⟩ fun x hx => ?_
      · refine List.filter_eq_nil_iff.mpr fun cmd hcmd hc => ?_
        have hknown := h.known cmd hcmd
        rw [hunknown _ (of_decide_eq_true hc)] at hknown
        cases hknown
      · refine List.filter_eq_nil_iff.mpr fun er her hc => ?_
        have htold := h.told er her
        rw [hunknown _ (of_decide_eq_true hc)] at htold
        cases htold
      · refine Option.eq_none_iff_forall_ne_some.mpr fun fd' hr => ?_
        obtain ⟨cmd, hcmd, rfl⟩ := h.routed x fd' hr
        have hknown := h.known cmd hcmd
        rw [hunknown _ hx] at hknown
        cases hknown
    · refine (h.sessions j q hq).aside (.accept hfd (hapart j q hq) fun x hx => ?_)
      obtain ⟨cmd, hcmd, rfl⟩ := h.routed x fd hx
      exact hfresh cmd hcmd hx
  case apart =>
    intro i j q r hq hr hqo hro hqr
    rcases setPeer_eq hq with ⟨rfl, rfl⟩ | ⟨_, hold⟩ <;> rcases setPeer_eq hr with ⟨rfl, rfl⟩ | ⟨_, hold'⟩
    · rfl
    · exact absurd hqr.symm (hapart j r hold' hro)
    · exact absurd hqr (hapart i q hold hqo)
    · exact h.apart i j q r hold hold' hqo hro hqr
  case reading =>
    intro fd' off ended hp
    rw [show s.server.parsing = none from hparsing] at hp
    cases hp
  case known => exact fun cmd hcmd => setPeer_isSome (h.known cmd hcmd)
  case told => exact fun er her => setPeer_isSome (h.told er her)
  case routed => exact h.routed

/-! ## The gateway's -/

theorem Inv.past_gateway (h : Inv p0 speaks s) (now : Nat → TsNanos) :
    ∃ h, p0.after h = some (s.server.gatewayStep now).pipeline := by
  obtain ⟨hist, hp⟩ := h.past
  rcases gatewayStep_pipeline s.server now with e | ⟨input, e⟩
  · exact ⟨hist, hp.trans (congrArg some e.symm)⟩
  · exact ⟨.gateway input :: hist, Pipeline.after_step hp (congrArg some e.symm)⟩

/-- Only the pipeline goes on. -/
theorem Inv.idle (h : Inv p0 speaks s) {pipe : Pipeline B} (past : ∃ h, p0.after h = some pipe)
    (he : Pipeline.SameEdge s.server.pipeline pipe) : Inv p0 speaks (s.settle { s.server with pipeline := pipe }) := by
  have hall := h.aside past he
  refine h.settle past (fun k p hk => Or.inl (hall.sessions k p hk)) (fun fd off ended hp => ?_) hall.known hall.told hall.routed
  obtain ⟨k, p, hk, hopen, hfd⟩ := h.reading fd off ended hp
  exact ⟨k, p, hk, hopen, hfd, hall.sessions k p hk⟩

/-- No other open connection has the descriptor of this one. -/
theorem Inv.elsewhere (h : Inv p0 speaks s) (hk : s.peers k = some p) (hopen : p.closed = false) {j : Nat} {q : Peer}
    (hj : j ≠ k) (hq : s.peers j = some q) (hqo : q.closed = false) : q.fd ≠ p.fd :=
  fun hfd => hj (h.apart j k q p hq hk hqo hopen hfd)

omit [Book B] in
theorem parsing_mine {off : Nat} {ended : Bool} (hp : s.server.parsing = some (p.fd, off, ended)) :
    ∀ at_ ∈ s.server.parsing, at_.1 = p.fd := by
  rw [hp]
  rintro _ ⟨⟩
  rfl

/-- The parse loop ends, and the connection with it if `recv` met its end. -/
theorem Inv.consume (h : Inv p0 speaks s) (hk : s.peers k = some p) (hopen : p.closed = false) {c : Conn}
    {parsed rest : List (Command × TsNanos)} {pending : List ExecReport}
    (hs : Opened speaks k s.server p c parsed rest pending) {off : Nat} {ended : Bool}
    (hp : s.server.parsing = some (p.fd, off, ended)) (hu : Unfinished (c.inBuf.drop off) (rest.map commandFrame)) :
    Inv p0 speaks (s.settle
      { s.server with
        gateway := if ended then (s.server.gateway.consume p.fd off).close p.fd else s.server.gateway.consume p.fd off
        parsing := none }) := by
  have hconsumed := hs.consume (reading_self hp) hu
  have haside : ∀ j q, j ≠ k → s.peers j = some q →
      Aside speaks j q s.server { s.server with gateway := s.server.gateway.consume p.fd off, parsing := none } :=
    fun j q hj hq => .setConn (h.elsewhere hk hopen hj hq) _ (parsing_mine hp) fun _ hat => by cases hat
  cases ended with
  | false =>
    refine h.settle h.past (fun j q hq => Or.inl ?_) (fun _ _ _ hp' => by cases hp') h.known h.told h.routed
    by_cases hj : j = k
    · subst hj
      obtain rfl := Option.some.inj (hk.symm.trans hq)
      exact .opened hopen _ _ _ _ hconsumed
    · exact (h.sessions j q hq).aside (haside j q hj hq)
  | true =>
    refine h.settle h.past (fun j q hq => ?_) (fun _ _ _ hp' => by cases hp') h.known h.told fun y fd hr => ?_
    · by_cases hj : j = k
      · subst hj
        obtain rfl := Option.some.inj (hk.symm.trans hq)
        exact Or.inr ⟨Gateway.close_conns_self .., .shut rfl _ _ _ _ hconsumed.close⟩
      · refine Or.inl ((h.sessions j q hq).aside
          ((haside j q hj hq).trans (.close (h.elsewhere hk hopen hj hq) hconsumed.conn ?_)))
        exact fun h0 he => hj (he.symm.trans (hs.client h0))
    · have hr : ((s.server.gateway.consume p.fd off).close p.fd).route y = some fd := hr
      rw [Gateway.close_route _ _ hconsumed.conn] at hr
      split at hr
      · cases hr
      · exact h.routed y fd hr

/-- The parse loop decodes a command. -/
theorem Inv.command (h : Inv p0 speaks s) (hk : s.peers k = some p) (hopen : p.closed = false) {c : Conn}
    {parsed rest : List (Command × TsNanos)} {pending : List ExecReport} {x : Command × TsNanos}
    (hs : Opened speaks k s.server p c parsed (x :: rest) pending) {off : Nat} {ended : Bool}
    (hp : s.server.parsing = some (p.fd, off, ended)) {more : List UInt8} (hb : c.inBuf.drop off = commandFrame x ++ more)
    {cmd : RawCommand} (hraw : cmd.untimed = x.1.raw) {pipe : Pipeline B} (past : ∃ h, p0.after h = some pipe)
    (hdecoded : pipe.decoded = s.server.pipeline.decoded ++ [cmd]) (htaken : pipe.exec.taken = s.server.pipeline.exec.taken)
    (reads : Nat) :
    Inv p0 speaks (s.settle
      { pipeline := pipe
        gateway := ({ s.server.gateway with reads := reads } : Gateway).command p.fd cmd
        parsing := some (p.fd, off + (commandFrame x).length, ended) }) := by
  obtain ⟨hown, hcommand⟩ := hs.command (reading_self hp) hb hraw hdecoded htaken reads ended
  have hknown : (s.peers (speaks cmd.client)).isSome = true := by rw [hown, hk]; rfl
  refine h.settle past (fun j q hq => Or.inl ?_) (fun fd off' e hp' => ?_) (fun cmd' hcmd' => ?_)
    (fun er her => h.told er (htaken ▸ her)) fun y fd hr => ?_
  · by_cases hj : j = k
    · subst hj
      obtain rfl := Option.some.inj (hk.symm.trans hq)
      exact .opened hopen _ _ _ _ hcommand
    · exact (h.sessions j q hq).aside (.command (h.elsewhere hk hopen hj hq) (fun he => hj (he.symm.trans hown)) hdecoded
        htaken _ (parsing_mine hp) _ _)
  · cases hp'
    exact ⟨k, p, hk, hopen, rfl, .opened hopen _ _ _ _ hcommand⟩
  · have hcmd' : cmd' ∈ s.server.pipeline.decoded ++ [cmd] := hdecoded ▸ hcmd'
    rcases List.mem_append.mp hcmd' with hold | hnew
    · exact h.known cmd' hold
    · rw [List.mem_singleton.mp hnew]
      exact hknown
  · have hr : Function.update s.server.gateway.route cmd.client (some p.fd) y = some fd := hr
    rw [hdecoded]
    by_cases he : y = cmd.client
    · exact ⟨cmd, List.mem_append_right _ List.mem_cons_self, he.symm⟩
    · rw [Function.update_of_ne he] at hr
      obtain ⟨cmd', hcmd', hy⟩ := h.routed y fd hr
      exact ⟨cmd', List.mem_append_left _ hcmd', hy⟩

/-- A turn of the parse loop, or its end. -/
theorem Inv.parse (h : Inv p0 speaks s) (hserving : s.server.pipeline.gateway = .serving) (now : Nat → TsNanos) {fd : Fd}
    {off : Nat} {ended : Bool} (hp : s.server.parsing = some (fd, off, ended))
    (past : ∃ h, p0.after h = some (s.server.parseStep now fd off ended).pipeline) :
    Inv p0 speaks (s.settle (s.server.parseStep now fd off ended)) := by
  obtain ⟨k, p, hk, hopen, rfl⟩ := h.reading fd off ended hp
  obtain ⟨c, parsed, rest, pending, hs⟩ := Session.open (h.sessions k p hk) hopen
  have hbuf : s.server.gateway.inBuf p.fd = c.inBuf := by
    rw [Gateway.inBuf, hs.conn]
    rfl
  unfold Server.parseStep at past ⊢
  rw [hbuf] at past ⊢
  rcases hs.turn now (reading_self hp) with ⟨hnone, hu⟩ | ⟨x, rest', more, cmd, rfl, hb, hraw, hturn⟩
  · rw [hnone]
    exact h.consume hk hopen hs hp hu
  · have hpushed : Server.decodedBy s.server.gateway
        (({ s.server.gateway with reads := s.server.gateway.reads + 1 } : Gateway).command p.fd cmd) = some cmd := by
      show ((s.server.gateway.pushed ++ [cmd]).drop s.server.gateway.pushed.length).head? = _
      rw [List.drop_left]
      rfl
    obtain ⟨pipe, hpipe, hdecoded, htaken⟩ : ∃ pipe, s.server.pipeline.gatewayStep (some cmd) = pipe ∧
        pipe.decoded = s.server.pipeline.decoded ++ [cmd] ∧ pipe.exec.taken = s.server.pipeline.exec.taken := by
      refine ⟨_, rfl, ?_⟩
      rw [Pipeline.gatewayStep, hserving]
      exact ⟨rfl, rfl⟩
    rw [hturn] at past ⊢
    simp only [hpushed, hpipe] at past ⊢
    exact h.command hk hopen hs hp hb hraw past hdecoded htaken _

/-- A report was popped, and goes to the connection its client speaks on. -/
theorem Inv.deliver (h : Inv p0 speaks s) {er : ExecReport} (hspoken : ∃ cmd ∈ s.server.pipeline.decoded, cmd.client = er.clientId)
    {pipe : Pipeline B} (past : ∃ h, p0.after h = some pipe) (hdecoded : pipe.decoded = s.server.pipeline.decoded)
    (htaken : pipe.exec.taken = s.server.pipeline.exec.taken ++ [er]) :
    Inv p0 speaks (s.settle { s.server with pipeline := pipe, gateway := s.server.gateway.deliver er }) := by
  obtain ⟨cmd, hcmd, hclient⟩ := hspoken
  have hknown := h.known cmd hcmd
  rw [hclient] at hknown
  obtain ⟨p, hk⟩ := Option.isSome_iff_exists.mp hknown
  have hroute : p.closed = false → s.server.gateway.route er.clientId = some p.fd := by
    intro hopen
    obtain ⟨c, _, _, _, hs⟩ := Session.open (h.sessions _ p hk) hopen
    rw [← hclient]
    exact hs.routes cmd (List.mem_filter.mpr ⟨hcmd, by simp [hclient]⟩)
  have hmine : Session speaks (speaks er.clientId)
      { s.server with pipeline := pipe, gateway := s.server.gateway.deliver er } p := by
    have hs := h.sessions _ p hk
    cases hs with
    | opened still _ _ _ _ hs => exact .opened still _ _ _ _ (hs.deliver rfl (hroute still) hdecoded htaken)
    | shut gone _ _ _ _ hs => exact .shut gone _ _ _ _ (hs.deliver rfl hdecoded htaken)
  -- an open connection it is delivered to is its client's own
  have hother : ∀ j q, j ≠ speaks er.clientId → s.peers j = some q → ∀ fd c, s.server.gateway.route er.clientId = some fd →
      s.server.gateway.conns fd = some c → q.closed = false → q.fd ≠ fd := by
    intro j q hj hq fd c hr hc hqo hfd
    have hs := h.sessions _ p hk
    cases hs with
    | opened still _ _ _ _ hs =>
      have hfd' := hs.named _ fd rfl hr
      exact hj (h.apart j _ q p hq hk hqo still (hfd.trans hfd'))
    | shut gone _ _ _ _ hs =>
      rw [hs.stale _ fd rfl hr] at hc
      cases hc
  have hall : ∀ j q, s.peers j = some q →
      Session speaks j { s.server with pipeline := pipe, gateway := s.server.gateway.deliver er } q := by
    intro j q hq
    by_cases hj : j = speaks er.clientId
    · subst hj
      obtain rfl := Option.some.inj (hk.symm.trans hq)
      exact hmine
    · exact (h.sessions j q hq).aside (.deliver (Ne.symm hj) (hother j q hj hq) hdecoded htaken)
  refine h.settle past (fun j q hq => Or.inl (hall j q hq)) (fun fd off ended hp => ?_) (fun cmd hcmd => ?_) (fun er' her' => ?_)
    fun x fd hr => ?_
  · obtain ⟨j, q, hq, hopen, hfd⟩ := h.reading fd off ended hp
    exact ⟨j, q, hq, hopen, hfd, hall j q hq⟩
  · exact h.known cmd (hdecoded ▸ hcmd)
  · have her' : er' ∈ s.server.pipeline.exec.taken ++ [er] := htaken ▸ her'
    rcases List.mem_append.mp her' with hold | hnew
    · exact h.told er' hold
    · rw [List.mem_singleton.mp hnew, hk]
      rfl
  · have hr : (s.server.gateway.deliver er).route x = some fd := hr
    rw [Gateway.deliver_route] at hr
    obtain ⟨cmd, hcmd, hx⟩ := h.routed x fd hr
    exact ⟨cmd, hdecoded ▸ hcmd, hx⟩

theorem Inv.gateway (h : Inv p0 speaks s) (now : Nat → TsNanos)
    (hspoken : ∀ er, s.server.pipeline.exec.tryPop.2 = some er → ∃ cmd ∈ s.server.pipeline.decoded, cmd.client = er.clientId) :
    Inv p0 speaks (s.settle (s.server.gatewayStep now)) := by
  have past := h.past_gateway now
  unfold Server.gatewayStep at past ⊢
  cases hg : s.server.pipeline.gateway with
  | gone =>
    simp only [hg] at past ⊢
    exact h.idle past ⟨rfl, rfl⟩
  | serving =>
    simp only [hg] at past ⊢
    cases hp : s.server.parsing with
    | none =>
      simp only [hp] at past ⊢
      have hedge : Pipeline.SameEdge s.server.pipeline (s.server.pipeline.gatewayStep none) := by
        rw [Pipeline.gatewayStep, hg]
        exact ⟨rfl, rfl⟩
      simpa only [hp] using h.idle past hedge
    | some at_ =>
      obtain ⟨fd, off, ended⟩ := at_
      simp only [hp] at past ⊢
      exact h.parse hg now hp past
  | pushing cmd spins =>
    simp only [hg] at past ⊢
    refine h.idle past ?_
    rw [Pipeline.gatewayStep, hg]
    exact Pipeline.pushInbound_edge _ cmd spins
  | draining =>
    have hpipe : s.server.pipeline.gatewayStep none =
        { s.server.pipeline with
          exec := s.server.pipeline.exec.tryPop.1
          gateway := if s.server.pipeline.exec.tryPop.2.isSome then .draining else .serving } := by
      rw [Pipeline.gatewayStep, hg]
    have htaken : (s.server.pipeline.gatewayStep none).exec.taken =
        s.server.pipeline.exec.taken ++ s.server.pipeline.exec.tryPop.2.toList := by
      rw [hpipe]
      rfl
    have hdecoded : (s.server.pipeline.gatewayStep none).decoded = s.server.pipeline.decoded := by rw [hpipe]
    simp only [hg] at past ⊢
    cases hpop : s.server.pipeline.exec.tryPop.2 with
    | none =>
      dsimp only at past ⊢
      refine h.idle past ⟨hdecoded, ?_⟩
      rw [htaken, hpop]
      exact List.append_nil _
    | some er =>
      dsimp only at past ⊢
      refine h.deliver (hspoken er hpop) past hdecoded ?_
      rw [htaken, hpop]
      rfl

/-! ## Histories -/

/-- A descriptor is given out when no client heard of is routed to it. -/
def Unclaimed (s : System B) : Move → Prop
  | .connect _ fd => ∀ cmd ∈ s.server.pipeline.decoded, s.server.gateway.route cmd.client ≠ some fd
  | _ => True

instance (m : Move) : Decidable (s.Unclaimed m) := by
  unfold Unclaimed
  split <;> infer_instance

/-- At every connection made in a history. -/
def Fresh (now now' : Nat → TsNanos) (rtt : LatencyHistogram) (speaks : ClientId → Nat) (s0 : System B) : List Move → Prop
  | [] => True
  | m :: h => Fresh now now' rtt speaks s0 h ∧ ∀ s ∈ s0.after now now' rtt speaks h, s.Unclaimed m

instance Fresh.decide (now now' : Nat → TsNanos) (rtt : LatencyHistogram) (speaks : ClientId → Nat) (s0 : System B) :
    ∀ h, Decidable (Fresh now now' rtt speaks s0 h)
  | [] => isTrue trivial
  | _ :: h => @instDecidableAnd _ _ (Fresh.decide now now' rtt speaks s0 h) inferInstance

variable {now now' : Nat → TsNanos} {rtt : LatencyHistogram}

theorem Inv.step (hrtt : rtt.count = 0)
    (hspoken : ∀ h p er, p0.after h = some p → p.exec.tryPop.2 = some er → ∃ cmd ∈ p.decoded, cmd.client = er.clientId)
    (h : Inv p0 speaks s) {m : Move} (hfresh : s.Unclaimed m)
    (hm : s.step now now' rtt speaks m = some s') : Inv p0 speaks s' := by
  cases m with
  | connect k fd =>
    obtain ⟨⟨hpolling, hk, hfd⟩, hm⟩ := Option.ite_none_right_eq_some.mp hm
    cases hm
    exact h.connect (Option.isNone_iff_eq_none.mp hk) (Option.isNone_iff_eq_none.mp hfd) (of_decide_eq_true hpolling).2
      hfresh hrtt
  | submit k cmd ts whole =>
    obtain ⟨p, hk, hm⟩ := Option.bind_eq_some_iff.mp hm
    obtain ⟨hown, hm⟩ := Option.ite_none_right_eq_some.mp hm
    cases hm
    exact h.submit hk hown ts whole
  | arrive k n ended =>
    obtain ⟨p, hserved, hm⟩ := Option.bind_eq_some_iff.mp hm
    cases hm
    exact h.arrive hserved n ended
  | gateway =>
    cases hm
    obtain ⟨hist, hp⟩ := h.past
    exact h.gateway now fun er hpop => hspoken hist _ er hp hpop
  | flush k n =>
    obtain ⟨p, hserved, hm⟩ := Option.bind_eq_some_iff.mp hm
    cases hm
    exact h.flush hserved n
  | engine t =>
    obtain ⟨pipe, he, hm⟩ := Option.bind_eq_some_iff.mp hm
    cases hm
    obtain ⟨hist, hp⟩ := h.past
    exact h.aside ⟨.engine t :: hist, Pipeline.after_step hp he⟩ (Pipeline.engine_edge he)
  | publisher heartbeat =>
    cases hm
    obtain ⟨hist, hp⟩ := h.past
    exact h.aside ⟨.publisher heartbeat :: hist, Pipeline.after_step hp rfl⟩ (Pipeline.publisher_edge _ heartbeat)
  | pump k n =>
    obtain ⟨p, hk, hm⟩ := Option.bind_eq_some_iff.mp hm
    cases hm
    exact h.pump hk now' n

theorem after_inv (hrtt : rtt.count = 0)
    (hspoken : ∀ h p er, p0.after h = some p → p.exec.tryPop.2 = some er → ∃ cmd ∈ p.decoded, cmd.client = er.clientId)
    {s0 : System B} (h0 : Inv p0 speaks s0) {h : List Move} (hfresh : Fresh now now' rtt speaks s0 h)
    (hs : s0.after now now' rtt speaks h = some s) : Inv p0 speaks s := by
  induction h generalizing s with
  | nil =>
    cases hs
    exact h0
  | cons m h ih =>
    obtain ⟨s1, h1, hm⟩ := Option.bind_eq_some_iff.mp hs
    exact (ih hfresh.1 h1).step hrtt hspoken (hfresh.2 s1 h1) hm

/-! ## What a client sees -/

/-- The commands of a run, the time aside. -/
def ran (is : List Engine.Input) : List (Option Command) := is.map fun i => i.command?.map fun c => { c with tsRecv := 0 }

/-- Those that connection `k` sent. -/
def ranFrom (speaks : ClientId → Nat) (k : Nat) (is : List Engine.Input) : List (Option Command) :=
  (ran is).filter fun c => c.map (fun c => speaks c.client) = some k

/-- The reports of a run that are for connection `k`. -/
def reportsFor (speaks : ClientId → Nat) (k : Nat) (events : List Event) : List ExecReport :=
  (events.filterMap Event.report).filter fun er => speaks er.clientId = k

/-- The commands a client sent, as the engine gets them. -/
def sent (p : Peer) : List (Option Command) := p.submitted.map fun x => some x.1.received

omit [Book B] in
theorem untimed_command (r : RawCommand) : r.untimed.command = r.command.map fun c => { c with tsRecv := 0 } := by
  unfold RawCommand.command
  show ((sideOf r.side).bind fun side => (orderTypeOf r.ordType).bind fun ordType => _) = _
  rcases sideOf r.side with _ | side
  · rfl
  · rcases orderTypeOf r.ordType with _ | ordType <;> rfl

/-- What ran is what was taken off the inbound ring. -/
theorem Facts.ran {p0 p : Pipeline B} {is : List Engine.Input} (h : Facts p0 p is) :
    System.ran is = (p.inbound.taken.map RawCommand.untimed).map RawCommand.command := by
  have htaken := congrArg (List.map (Option.map fun c : Command => { c with tsRecv := 0 })) h.driven.taken
  rw [List.map_map, List.map_map] at htaken
  rw [List.map_map]
  refine Eq.trans ?_ (htaken.symm.trans ?_)
  · rfl
  · exact List.map_congr_left fun r _ => (untimed_command r).symm

omit [Book B] in
theorem Session.linked (h : Session speaks k sv p) : ∃ parsed rest pending out, Linked speaks k sv p parsed rest pending out := by
  cases h with
  | opened _ _ _ _ _ h => exact ⟨_, _, _, _, h.toLinked⟩
  | shut _ _ _ _ _ h => exact ⟨_, _, _, _, h.toLinked⟩

omit [Book B] in
/-- The commands decoded from a connection are the first it sent. -/
theorem Linked.decodes {parsed rest : List (Command × TsNanos)} {pending : List ExecReport} {out : List UInt8}
    (h : Linked speaks k sv p parsed rest pending out) :
    ((sv.decodedFrom speaks k).map RawCommand.untimed).map RawCommand.command ++ rest.map (fun x => some x.1.received) = sent p := by
  unfold sent
  rw [h.decoded, h.submitted, List.map_map, List.map_append]
  exact congrArg (· ++ _) (List.map_congr_left fun x _ => raw_command x.1)

/-- Those of them that ran. -/
theorem Facts.ranFrom {p0 pipe : Pipeline B} {is : List Engine.Input} (h : Facts p0 pipe is)
    {parsed rest : List (Command × TsNanos)} {pending : List ExecReport} {out : List UInt8} (hp : sv.pipeline = pipe)
    (hl : Linked speaks k sv p parsed rest pending out) : System.ranFrom speaks k is =
      ((pipe.inbound.taken.filter fun r => speaks r.client = k).map RawCommand.untimed).map RawCommand.command := by
  unfold System.ranFrom
  rw [h.ran, List.filter_map, List.filter_map]
  congr 2
  refine List.filter_congr fun r hr => decide_eq_decide.mpr ⟨fun hsome => ?_, fun hown => ?_⟩
  · obtain ⟨c, hc, hk⟩ := Option.map_eq_some_iff.mp hsome
    rw [← hk, command_client hc]
    rfl
  · have hmem : r.untimed ∈ parsed.map fun x => x.1.raw := by
      rw [← hl.decoded]
      refine List.mem_map_of_mem (List.mem_filter.mpr ⟨?_, by simpa using hown⟩)
      rw [hp]
      exact h.taken.subset hr
    obtain ⟨x, _, hraw⟩ := List.mem_map.mp hmem
    have hsome : r.untimed.command = some x.1.received := by rw [← hraw, raw_command]
    show (r.untimed.command.map _) = some k
    rw [hsome]
    show some (speaks x.1.received.client) = some k
    rw [command_client hsome]
    exact congrArg some hown

/-- Where the commands taken stand among those decoded. -/
theorem Facts.commands_kept {p0 p : Pipeline B} {is : List Engine.Input} (h : Facts p0 p is)
    (hdrops : p.counters.inboundDrops = 0) :
    p.inbound.taken <+: p.decoded ∧ (p.inbound.contents = [] → p.gateway.pending = [] → p.inbound.taken = p.decoded) := by
  have hcount := h.commands.drops
  have hnone : p.inbound.offered.drops = [] := List.eq_nil_of_length_eq_zero (by omega)
  have horder := h.commands.order
  rw [← Offers.kept_eq hnone, ← h.rings.inbound.order, List.append_assoc] at horder
  refine ⟨⟨_, horder⟩, fun hring hpending => ?_⟩
  rw [← horder, hring, hpending, List.append_nil, List.append_nil]

/-- Where the reports popped stand among those emitted. -/
theorem Facts.reports_kept {p0 p : Pipeline B} {is : List Engine.Input} (h : Facts p0 p is)
    (hdrops : p.exec.offered.drops = []) : p.exec.taken <+: (p0.engine.emitted is).filterMap Event.report ∧
      (p.exec.contents = [] → p.core.reports = [] → p.exec.taken = (p0.engine.emitted is).filterMap Event.report) := by
  have horder := h.reports.order
  rw [← Offers.kept_eq hdrops, ← h.rings.exec.order, List.append_assoc, h.driven.emitted] at horder
  refine ⟨⟨_, horder⟩, fun hring hcore => ?_⟩
  rw [← horder, hring, hcore, List.append_nil, List.append_nil]


/-- Nothing is on its way, to client `p` or from it. -/
structure Quiet (s : System B) (p : Peer) : Prop where
  opened : p.closed = false
  up : p.up = []
  down : p.down = []
  out : s.outBuf p.fd = []
  parsing : s.server.parsing = none
  pushing : s.server.pipeline.gateway.pending = []
  inbound : s.server.pipeline.inbound.contents = []
  exec : s.server.pipeline.exec.contents = []
  core : s.server.pipeline.core.reports = []

omit [Book B] in
/-- Once the streams are quiet, all is parsed and heard. -/
theorem Opened.quiet {c : Conn} {parsed rest : List (Command × TsNanos)} {pending : List ExecReport}
    (h : Opened speaks k s.server p c parsed rest pending) (hq : s.Quiet p) : rest = [] ∧ pending = [] := by
  have hreading : s.server.reading p.fd = none := reading_other (by rw [hq.parsing]; nofun)
  have hup := h.up
  have hdown := h.down
  have hout : s.outBuf p.fd = c.outBuf := by
    unfold System.outBuf
    rw [h.conn]
    rfl
  rw [hreading, hq.up, List.append_nil] at hup
  rw [← hout, hq.down, hq.out, List.append_nil, List.append_nil] at hdown
  refine ⟨List.map_eq_nil_iff.mp (Unfinished.all (h.parsing hreading) (fun f hf => ?_) hup),
    List.map_eq_nil_iff.mp (h.started.all (fun f hf => ?_) hdown)⟩
  · obtain ⟨x, _, rfl⟩ := List.mem_map.mp hf
    exact whole_frame 0 _
  · obtain ⟨er, _, rfl⟩ := List.mem_map.mp hf
    exact whole_frame 0 _

/-- What a client has sent and heard is of the run, as much of it as came through. -/
structure Served (speaks : ClientId → Nat) (k : Nat) (s : System B) (p : Peer) (is : List Engine.Input) (events : List Event) :
    Prop where
  commands : (ranFrom speaks k is).Sublist (sent p)
  reports : p.client.heard.Sublist (reportsFor speaks k events)
  undropped : s.server.pipeline.counters.inboundDrops = 0 → ranFrom speaks k is <+: sent p
  unlost : s.server.pipeline.exec.offered.drops = [] → p.client.heard <+: reportsFor speaks k events
  all : s.server.pipeline.counters.inboundDrops = 0 → s.server.pipeline.exec.offered.drops = [] → s.Quiet p →
    ranFrom speaks k is = sent p ∧ p.client.heard = reportsFor speaks k events
  counted : p.client.Counted

theorem Facts.served {is : List Engine.Input} (h : Facts p0 s.server.pipeline is) (hs : Session speaks k s.server p) :
    Served speaks k s p is (p0.engine.emitted is) := by
  obtain ⟨parsed, rest, pending, out, hl⟩ := Session.linked hs
  have hran := h.ranFrom rfl hl
  have hdecodes : ((s.server.decodedFrom speaks k).map RawCommand.untimed).map RawCommand.command <+: sent p :=
    ⟨_, Linked.decodes hl⟩
  have hheard : p.client.heard <+: s.server.poppedFor speaks k := (List.prefix_append ..).trans hl.heard
  constructor
  case commands =>
    rw [hran]
    exact (((h.taken.filter _).map _).map _).trans hdecodes.sublist
  case reports =>
    refine hheard.sublist.trans (List.Sublist.filter _ (List.Sublist.trans ?_ h.popped))
    rw [← h.rings.exec.order]
    exact List.sublist_append_left ..
  case undropped =>
    intro hin
    rw [hran]
    exact ((((h.commands_kept hin).1.filter _).map _).map _).trans hdecodes
  case unlost => exact fun hex => hheard.trans ((h.reports_kept hex).1.filter _)
  case all =>
    intro hin hex hq
    cases hs with
    | shut gone =>
      have hopened := hq.opened
      rw [gone] at hopened
      cases hopened
    | opened _ c parsed rest pending ho =>
      obtain ⟨rfl, rfl⟩ := Opened.quiet ho hq
      constructor
      · rw [h.ranFrom rfl ho.toLinked, (h.commands_kept hin).2 hq.inbound hq.pushing, ← Linked.decodes ho.toLinked]
        exact (List.append_nil _).symm
      · have hpopped := ho.popped
        rw [List.append_nil] at hpopped
        rw [← hpopped, reportsFor, ← (h.reports_kept hex).2 hq.exec hq.core]
        rfl
  case counted => exact hl.counted

/-! ## The law -/

theorem start_inv {cfg : EngineConfig} {i e m : Nat} {udpValid : Bool} {s0 : System B}
    (h0 : System.start cfg i e m udpValid = some s0) :
    Pipeline.start cfg i e m true udpValid = some s0.server.pipeline ∧ Inv s0.server.pipeline speaks s0 := by
  obtain ⟨pipe, hp, h0⟩ := Option.bind_eq_some_iff.mp h0
  cases h0
  obtain ⟨engine, _, e⟩ := Option.bind_eq_some_iff.mp hp
  have hdecoded : pipe.decoded = [] := by
    cases e
    rfl
  have htaken : pipe.exec.taken = [] := by
    cases e
    rfl
  refine ⟨hp, ⟨[], rfl⟩, nofun, nofun, nofun, fun cmd hcmd => ?_, fun er her => ?_, nofun⟩
  · have hcmd : cmd ∈ pipe.decoded := hcmd
    rw [hdecoded] at hcmd
    exact absurd hcmd List.not_mem_nil
  · have her : er ∈ pipe.exec.taken := her
    rw [htaken] at her
    exact absurd her List.not_mem_nil

/-- Two clients connect and trade, an offer in two pieces and a bid; one hangs up. -/
def trade : List Move :=
  [.gateway, .arrive 1 0 true, .pump 1 200, .pump 0 200, .pump 0 50, .flush 1 200, .flush 0 200, .flush 0 30] ++
    List.replicate 6 .gateway ++ List.replicate 12 (.engine 0) ++
    [.gateway, .gateway, .gateway, .arrive 1 100 false, .gateway, .gateway, .gateway, .arrive 0 100 false, .gateway,
      .arrive 0 10 false, .submit 1 (.makeNew 2 8 .buy .limit 103 3 0) 2 true,
      .submit 0 (.makeNew 1 7 .sell .limit 103 5 0) 1 true, .connect 1 4, .connect 0 3]

end System

end Lob
