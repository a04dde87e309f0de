/-
  Lob.Server.Sessions — the gateway as a state machine over `conns` and `route`.

  `Act` is what the loop does between two looks at a connection: accept, append received
  bytes, decode a command, erase, close, queue a report, send. A history is a list of
  these, newest first, and `after h` the gateway it leads to; the operating system gives
  an accepted connection any descriptor that is not open, one closed before included.
  `serve_acts`: serving a ready descriptor is a stretch of such a history.

  What the histories say without the gateway's tables: `spoke fd h`, the client ids decoded
  on the connection now at `fd`, and `owner x h`, the descriptor of the connection that
  last sent a command for `x`, while it is open.
-/

import Lob.Server.Gateway
import Lob.Wire.CodecProofs

namespace Lob.Gateway

open Wire

inductive Act where
  | accept (fd : Fd)
  | recv (fd : Fd) (data : List UInt8)
  | command (fd : Fd) (cmd : RawCommand)
  | consume (fd : Fd) (off : Nat)
  | close (fd : Fd)
  | deliver (er : ExecReport)
  | flush (fd : Fd) (n : Nat)
  deriving DecidableEq, Repr

def act (g : Gateway) : Act → Gateway
  | .accept fd => g.accept fd
  | .recv fd data => g.recv fd data
  | .command fd cmd => g.command fd cmd
  | .consume fd off => g.consume fd off
  | .close fd => g.close fd
  | .deliver er => g.deliver er
  | .flush fd n => g.flush fd n

/-- Where an act can happen: a new descriptor is not open, every other one is. -/
def can (g : Gateway) : Act → Bool
  | .accept fd => (g.conns fd).isNone
  | .recv fd _ => (g.conns fd).isSome
  | .command fd _ => (g.conns fd).isSome
  | .consume fd _ => (g.conns fd).isSome
  | .close fd => (g.conns fd).isSome
  | .deliver _ => true
  | .flush fd _ => (g.conns fd).isSome

def after : List Act → Gateway
  | [] => {}
  | a :: h => (after h).act a

/-- Every act could happen where it did. -/
def legal : List Act → Bool
  | [] => true
  | a :: h => legal h && (after h).can a

theorem legal_cons {a : Act} {h : List Act} : legal (a :: h) = true ↔ legal h = true ∧ (after h).can a = true :=
  Bool.and_eq_true_iff

theorem legal_suffix {h h' : List Act} (hs : h' <:+ h) (hl : legal h = true) : legal h' = true := by
  induction h with
  | nil =>
    rw [List.suffix_nil.mp hs]
    rfl
  | cons a h ih =>
    rcases List.suffix_cons_iff.mp hs with rfl | hs
    · exact hl
    · exact ih hs (legal_cons.mp hl).1

/-! ## What a history says -/

/-- The client ids decoded on the connection now at `fd`. -/
def spoke (fd : Fd) : List Act → List ClientId
  | [] => []
  | .accept fd' :: h => if fd' = fd then [] else spoke fd h
  | .command fd' cmd :: h => if fd' = fd then cmd.client :: spoke fd h else spoke fd h
  | _ :: h => spoke fd h

/-- The connection that sent the last command for `x`, while it is open. -/
def owner (x : ClientId) : List Act → Option Fd
  | [] => none
  | .command fd cmd :: h => if cmd.client = x then some fd else owner x h
  | .close fd :: h => if owner x h = some fd then none else owner x h
  | _ :: h => owner x h

/-! ## What an act leaves alone -/

section
variable (g : Gateway) (fd fd' : Fd)

theorem setConn_isSome (f : Conn → Conn) : ((g.setConn fd f).conns fd').isSome = (g.conns fd').isSome := by
  show (Function.update g.conns fd _ fd').isSome = _
  by_cases h : fd' = fd
  · subst h
    rw [Function.update_self, Option.isSome_map]
  · rw [Function.update_of_ne h]

theorem close_conns_ne (h : fd' ≠ fd) : (g.close fd).conns fd' = g.conns fd' := by
  unfold close
  cases g.conns fd with
  | none => rfl
  | some c => exact Function.update_of_ne h ..

theorem close_conns_self : (g.close fd).conns fd = none := by
  unfold close
  cases hc : g.conns fd with
  | none => exact hc
  | some c => exact Function.update_self ..

/-- Closing erases the route of the last client id, unless that is 0. -/
theorem close_route {c : Conn} (hc : g.conns fd = some c) (x : ClientId) :
    (g.close fd).route x = if c.client ≠ 0 ∧ x = c.client then none else g.route x := by
  unfold close
  rw [hc]
  show (if c.client ≠ 0 then Function.update g.route c.client none else g.route) x = _
  by_cases h0 : c.client ≠ 0
  · rw [if_pos h0]
    by_cases hx : x = c.client
    · rw [if_pos ⟨h0, hx⟩, hx, Function.update_self]
    · rw [if_neg (fun h => hx h.2), Function.update_of_ne hx]
  · rw [if_neg h0, if_neg fun h => h0 h.1]

theorem accept_conns (hfd : g.conns fd = none) : (g.accept fd).conns = Function.update g.conns fd (some {}) := by
  show (if (g.conns fd).isSome then g.conns else _) = _
  rw [hfd]
  rfl

/-! ## Delivery -/

theorem reportBytes_eq (er : ExecReport) : reportBytes er = some (frame 0 (.execReport er)) := by
  have hfit : encodeExecReport (fun _ => 0) 128 0 er = _ :=
    encode_fit (fun _ => 0) 0 (.execReport er) (show kExecLen.toNat ≤ 128 by decide)
  rw [reportBytes, hfit, frame, encode_fit _ 0 (.execReport er) (Nat.le_refl _)]
  rfl

theorem frame_ne_nil (seq : UInt32) (m : Message) : frame seq m ≠ [] := by
  rw [frame_eq]
  exact List.cons_ne_nil _ _

/-- A report for a routed client is queued to the connection its route names. -/
theorem deliver_to {er : ExecReport} {c : Conn} (hr : g.route er.clientId = some fd) (hc : g.conns fd = some c) :
    g.deliver er =
      { g with
        conns := Function.update g.conns fd (some { c with outBuf := c.outBuf ++ frame 0 (.execReport er) })
        execSent := g.execSent + 1 } := by
  simp only [deliver, hr, hc, reportBytes_eq, setConn, Option.map_some]

/-- Every other report is dropped. -/
theorem deliver_none {er : ExecReport} (h : ∀ fd, g.route er.clientId = some fd → g.conns fd = none) : g.deliver er = g := by
  cases hr : g.route er.clientId with
  | none => simp only [deliver, hr]
  | some fd => simp only [deliver, hr, h fd hr]

/-- A delivery either changes nothing or appends to one connection. -/
theorem deliver_cases (er : ExecReport) : g.deliver er = g ∨
    ∃ fd c, g.route er.clientId = some fd ∧ g.conns fd = some c ∧
      g.deliver er =
        { g with
          conns := Function.update g.conns fd (some { c with outBuf := c.outBuf ++ frame 0 (.execReport er) })
          execSent := g.execSent + 1 } := by
  by_cases h : ∀ fd, g.route er.clientId = some fd → g.conns fd = none
  · exact Or.inl (deliver_none g h)
  · obtain ⟨fd, h⟩ := not_forall.mp h
    obtain ⟨hr, hc⟩ := Classical.not_imp.mp h
    obtain ⟨c, hc⟩ := Option.ne_none_iff_exists'.mp hc
    exact Or.inr ⟨fd, c, hr, hc, deliver_to g fd hr hc⟩

theorem deliver_route (er : ExecReport) : (g.deliver er).route = g.route := by
  rcases deliver_cases g er with e | ⟨_, _, _, _, e⟩ <;> rw [e]

theorem deliver_isSome (er : ExecReport) : ((g.deliver er).conns fd').isSome = (g.conns fd').isSome := by
  rcases deliver_cases g er with e | ⟨fd, c, _, hc, e⟩
  · rw [e]
  · rw [e]
    show (Function.update g.conns fd _ fd').isSome = _
    by_cases h : fd' = fd
    · subst h
      rw [Function.update_self, hc]
      rfl
    · rw [Function.update_of_ne h]

end

/-! ## Serving a descriptor is a history -/

/-- No act reads the clock. -/
theorem act_reads (g : Gateway) (r : Nat) (a : Act) : ({ g with reads := r } : Gateway).act a = { g.act a with reads := r } := by
  cases a with
  | close fd =>
    show close _ fd = { g.close fd with reads := r }
    unfold close
    cases hc : g.conns fd <;> rfl
  | deliver er =>
    show deliver _ er = { g.deliver er with reads := r }
    unfold deliver
    cases hr : g.route er.clientId with
    | none => rfl
    | some fd => cases hc : g.conns fd <;> cases hb : reportBytes er <;> simp only [hc]; rfl
  | accept fd => rfl
  | recv fd data => rfl
  | command fd cmd => rfl
  | consume fd off => rfl
  | flush fd n => rfl

theorem loop_acts (now : Nat → TsNanos) (fd : Fd) (inBuf : List UInt8) (n : Nat) {h : List Act} (hl : legal h = true)
    (hopen : ((after h).conns fd).isSome = true) (r off : Nat) :
    ∃ as r' off', parseLoop now fd inBuf n { after h with reads := r } off = ({ after (as ++ h) with reads := r' }, off') ∧
      legal (as ++ h) = true ∧ ((after (as ++ h)).conns fd).isSome = true := by
  induction n generalizing h r off with
  | zero => exact ⟨[], r, off, rfl, hl, hopen⟩
  | succ n ih =>
    unfold parseLoop turn
    cases hp : peekHeader (inBuf.drop off) with
    | none => exact ⟨[], r, off, rfl, hl, hopen⟩
    | some hdr =>
      simp only [Option.map_some]
      cases hc : frameCommand (now r) hdr.type ((inBuf.drop off).take hdr.length.toNat) with
      | none => exact ih hl hopen (r + 1) _
      | some cmd =>
        have hl' : legal (.command fd cmd :: h) = true := legal_cons.mpr ⟨hl, hopen⟩
        have hopen' : ((after (.command fd cmd :: h)).conns fd).isSome = true :=
          (setConn_isSome (after h) fd fd _).trans hopen
        obtain ⟨as, r', off', e, hl'', hopen''⟩ := ih hl' hopen' (r + 1) (off + hdr.length.toNat)
        refine ⟨as ++ [.command fd cmd], r', off', ?_, ?_, ?_⟩
        · rw [List.append_assoc]
          exact e
        · rw [List.append_assoc]
          exact hl''
        · rw [List.append_assoc]
          exact hopen''

theorem parse_eq {now : Nat → TsNanos} {fd : Fd} {g g' : Gateway} {off : Nat}
    (h : parseLoop now fd (g.inBuf fd) (g.inBuf fd).length g 0 = (g', off)) : g.parse now fd = g'.consume fd off := by
  rw [parse, h]

/-- What the gateway does for a ready descriptor is a stretch of a history: the bytes
    received, a command for each accepted frame, the erasure, and the close if it met the
    end of the stream. -/
theorem serve_acts (now : Nat → TsNanos) (fd : Fd) (data : List UInt8) (closed : Bool) {h : List Act}
    (hl : legal h = true) (hopen : ((after h).conns fd).isSome = true) (r : Nat) :
    ∃ as r', ({ after h with reads := r } : Gateway).serve now fd data closed = { after (as ++ h) with reads := r' } ∧
      legal (as ++ h) = true := by
  have hl1 : legal (.recv fd data :: h) = true := legal_cons.mpr ⟨hl, hopen⟩
  have hopen1 : ((after (.recv fd data :: h)).conns fd).isSome = true := (setConn_isSome (after h) fd fd _).trans hopen
  obtain ⟨as, r', off, e, hl2, hopen2⟩ := loop_acts now fd ((after (.recv fd data :: h)).inBuf fd)
    ((after (.recv fd data :: h)).inBuf fd).length hl1 hopen1 r 0
  have hparse : ((({ after h with reads := r } : Gateway).recv fd data).parse now fd) =
      { after (.consume fd off :: (as ++ .recv fd data :: h)) with reads := r' } :=
    (parse_eq e).trans (act_reads _ r' (.consume fd off))
  have hl3 : legal (.consume fd off :: (as ++ .recv fd data :: h)) = true := legal_cons.mpr ⟨hl2, hopen2⟩
  have hopen3 : ((after (.consume fd off :: (as ++ .recv fd data :: h))).conns fd).isSome = true :=
    (setConn_isSome _ fd fd _).trans hopen2
  cases closed with
  | false =>
    refine ⟨.consume fd off :: (as ++ [.recv fd data]), r', ?_, ?_⟩
    · rw [List.cons_append, List.append_assoc]
      exact hparse
    · rw [List.cons_append, List.append_assoc]
      exact hl3
  | true =>
    refine ⟨.close fd :: .consume fd off :: (as ++ [.recv fd data]), r', ?_, ?_⟩
    · rw [List.cons_append, List.cons_append, List.append_assoc]
      show ((({ after h with reads := r } : Gateway).recv fd data).parse now fd).close fd = _
      rw [hparse]
      exact act_reads _ r' (.close fd)
    · rw [List.cons_append, List.cons_append, List.append_assoc]
      exact legal_cons.mpr ⟨hl3, hopen3⟩

end Lob.Gateway
