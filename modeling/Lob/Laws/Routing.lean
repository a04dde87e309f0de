/-
  Lob.Laws.Routing — whom an execution report reaches.

  - `private_iff`: reports only ever reach a connection that spoke for their client exactly
    when no connection is accepted on a descriptor some route still names. Closing erases
    one route; the others of that connection stay and name its descriptor.
  - `served_iff`: the connection that last spoke for a client keeps its route exactly when
    no connection closes while another is the one that last spoke for the id it sent last:
    closing erases by client id, whosever route it is.
  Both are over every history; `Routed` and `Owned` are their invariants, carried by a
  lemma for each act.
-/

import Lob.Server.Sessions

namespace Lob.Gateway

open Wire

/-- A report that changes a connection is for a client id decoded on that connection. -/
def Private (h : List Act) : Prop :=
  ∀ (er : ExecReport) (fd : Fd), ((after h).deliver er).conns fd ≠ (after h).conns fd → er.clientId ∈ spoke fd h

/-- The open connection that last spoke for a client is where its route leads, and reports for
    the client are queued there. -/
def Served (h : List Act) : Prop :=
  ∀ (x : ClientId) (fd : Fd), owner x h = some fd → (after h).route x = some fd ∧
    ∀ er : ExecReport, er.clientId = x → ∃ c, (after h).conns fd = some c ∧
      ((after h).deliver er).conns fd = some { c with outBuf := c.outBuf ++ frame 0 (.execReport er) }

/-! ## Stale routes -/

/-- A route that names an open connection is for a client id decoded on it. -/
def Routed (h : List Act) : Prop :=
  ∀ (x : ClientId) (fd : Fd), (after h).route x = some fd → ((after h).conns fd).isSome = true → x ∈ spoke fd h

theorem Routed.private {h : List Act} (hr : Routed h) : Private h := by
  intro er fd hne
  rcases deliver_cases (after h) er with e | ⟨fd', c, hroute, hc, e⟩
  · rw [e] at hne
    exact absurd rfl hne
  · by_cases hfd : fd = fd'
    · subst hfd
      exact hr er.clientId fd hroute (by rw [hc]; rfl)
    · rw [e] at hne
      exact absurd (Function.update_of_ne hfd ..) hne

/-- A fill for client `x`. -/
def fillFor (x : ClientId) : ExecReport := ⟨1, 2, x, EventType.byte .fill, Side.byte .buy, 0, 0, 100, 5, 0, 0, 0⟩

/-- Conversely, delivery itself finds out a route that is not. -/
theorem Private.routed {h : List Act} (hp : Private h) : Routed h := by
  intro x fd hroute hopen
  obtain ⟨c, hc⟩ := Option.isSome_iff_exists.mp hopen
  refine hp (fillFor x) fd ?_
  rw [deliver_to _ fd hroute hc, hc]
  show Function.update _ fd _ fd ≠ _
  rw [Function.update_self]
  intro e
  have hout := congrArg Conn.outBuf (Option.some.inj e)
  exact frame_ne_nil _ _ (List.append_right_eq_self.mp hout)

section
variable {h : List Act}

theorem Routed.accept (hr : Routed h) {fd : Fd} (hcan : (after h).can (.accept fd) = true)
    (hfresh : ∀ x, (after h).route x ≠ some fd) : Routed (.accept fd :: h) := by
  intro x fd' hroute hopen
  have hne : fd ≠ fd' := fun e => hfresh x (by rw [e]; exact hroute)
  have hconns : (after (.accept fd :: h)).conns = _ := accept_conns (after h) fd (Option.isNone_iff_eq_none.mp hcan)
  rw [hconns, Function.update_of_ne hne.symm] at hopen
  rw [spoke, if_neg hne]
  exact hr x fd' hroute hopen

theorem Routed.command (hr : Routed h) (fd : Fd) (cmd : RawCommand) : Routed (.command fd cmd :: h) := by
  intro x fd' hroute hopen
  have hopen' : ((after h).conns fd').isSome = true := (setConn_isSome (after h) fd fd' _).symm.trans hopen
  have hroute' : Function.update (after h).route cmd.client (some fd) x = some fd' := hroute
  rw [spoke]
  by_cases hx : x = cmd.client
  · rw [hx, Function.update_self] at hroute'
    rw [if_pos (Option.some.inj hroute'), hx]
    exact List.mem_cons_self
  · rw [Function.update_of_ne hx] at hroute'
    have hin := hr x fd' hroute' hopen'
    by_cases hfd : fd = fd'
    · rw [if_pos hfd]
      exact List.mem_cons_of_mem _ hin
    · rw [if_neg hfd]
      exact hin

theorem Routed.close (hr : Routed h) (fd : Fd) : Routed (.close fd :: h) := by
  intro x fd' hroute hopen
  by_cases hfd : fd' = fd
  · subst hfd
    have hnone : (after (.close fd' :: h)).conns fd' = none := close_conns_self (after h) fd'
    rw [hnone] at hopen
    cases hopen
  · have hconns : (after (.close fd :: h)).conns fd' = (after h).conns fd' := close_conns_ne (after h) fd fd' hfd
    rw [hconns] at hopen
    refine hr x fd' ?_ hopen
    cases hc : (after h).conns fd with
    | none =>
      have e : after (.close fd :: h) = after h := by
        show (after h).close fd = after h
        rw [Gateway.close, hc]
      rw [e] at hroute
      exact hroute
    | some c =>
      have e : (after (.close fd :: h)).route x = _ := close_route (after h) fd hc x
      rw [e] at hroute
      by_cases hx : c.client ≠ 0 ∧ x = c.client
      · rw [if_pos hx] at hroute
        cases hroute
      · rw [if_neg hx] at hroute
        exact hroute

/-- An act that touches no route, opens nothing and decodes nothing. -/
theorem Routed.frame (hr : Routed h) {a : Act} (hroute : (after (a :: h)).route = (after h).route)
    (hopen : ∀ fd, ((after (a :: h)).conns fd).isSome = ((after h).conns fd).isSome)
    (hspoke : ∀ fd, spoke fd (a :: h) = spoke fd h) : Routed (a :: h) := by
  intro x fd hx ho
  rw [hroute] at hx
  rw [hopen] at ho
  rw [hspoke]
  exact hr x fd hx ho

end

/-- The descriptors a history accepted were named by no route then. -/
def Fresh (h : List Act) : Prop := ∀ fd h', (Act.accept fd :: h') <:+ h → ∀ x, (after h').route x ≠ some fd

theorem routed_of_fresh {h : List Act} (hl : legal h = true) (hf : Fresh h) : Routed h := by
  induction h with
  | nil => exact fun x fd hroute _ => absurd hroute (Option.some_ne_none fd).symm
  | cons a h ih =>
    obtain ⟨hl', hcan⟩ := legal_cons.mp hl
    have hr := ih hl' fun fd h' hs => hf fd h' (hs.trans (List.suffix_cons a h))
    cases a with
    | accept fd => exact hr.accept hcan (hf fd h (List.suffix_refl _))
    | command fd cmd => exact hr.command fd cmd
    | close fd => exact hr.close fd
    | recv fd data => exact hr.frame rfl (fun fd' => setConn_isSome _ fd fd' _) fun _ => rfl
    | consume fd off => exact hr.frame rfl (fun fd' => setConn_isSome _ fd fd' _) fun _ => rfl
    | flush fd n => exact hr.frame rfl (fun fd' => setConn_isSome _ fd fd' _) fun _ => rfl
    | deliver er => exact hr.frame (deliver_route _ er) (fun fd' => deliver_isSome _ fd' er) fun _ => rfl

/-- Reports stay private along a history exactly when every connection it accepted got a
    descriptor that no route named. -/
theorem private_iff (h : List Act) (hl : legal h = true) : (∀ h', h' <:+ h → Private h') ↔ Fresh h := by
  constructor
  · intro hp fd h' hs x hroute
    -- accepted on a stale descriptor, the connection has said nothing yet
    have hcan := (legal_cons.mp (legal_suffix hs hl)).2
    have hconns : (after (.accept fd :: h')).conns = _ := accept_conns (after h') fd (Option.isNone_iff_eq_none.mp hcan)
    have hin := (hp _ hs).routed x fd hroute (by rw [hconns, Function.update_self]; rfl)
    rw [spoke, if_pos rfl] at hin
    cases hin
  · intro hf h' hs
    exact (routed_of_fresh (legal_suffix hs hl) fun fd h'' hs' => hf fd h'' (hs'.trans hs)).private

def order (x : ClientId) : RawCommand := .makeNew 1 x (Side.byte .buy) (OrderType.byte .limit) 100 5 0

/-- A connection that sent for one client id, and its descriptor reused after it closed. -/
def reused : List Act := [.command 5 (order 8), .accept 5, .close 5, .command 5 (order 7), .accept 5]

theorem private_reused : legal reused = true ∧ ∀ h', h' <:+ reused → Private h' :=
  ⟨by decide, (private_iff reused (by decide)).mpr (by
    intro fd h' hs x
    simp only [reused, List.suffix_cons_iff, List.cons.injEq, Act.accept.injEq, reduceCtorEq, false_and, false_or,
      List.suffix_nil, or_false] at hs
    rcases hs with ⟨rfl, rfl⟩ | ⟨rfl, rfl⟩
    · show Function.update (Function.update (fun _ => none) 7 (some 5)) 7 none x ≠ some 5
      rw [Function.update_idem, Function.update_apply]
      split <;> exact (Option.some_ne_none 5).symm
    · exact (Option.some_ne_none 5).symm)⟩

/-- Client 7's report reaches a connection that never spoke for client 7. -/
theorem stale_route_leaks : ¬ ∀ h, legal h = true → Private h := by
  intro hall
  have hp := hall [.accept 5, .close 5, .command 5 (order 8), .command 5 (order 7), .accept 5] (by decide)
  exact absurd (hp (fillFor 7) 5 (by decide +kernel)) (by decide)

/-! ## Routes taken away -/

/-- The open connection that last spoke for a client is routed. -/
def Owned (h : List Act) : Prop :=
  ∀ (x : ClientId) (fd : Fd), owner x h = some fd → (after h).route x = some fd ∧ ((after h).conns fd).isSome = true

theorem Owned.served {h : List Act} (ho : Owned h) : Served h := by
  intro x fd howner
  obtain ⟨hroute, hopen⟩ := ho x fd howner
  obtain ⟨c, hc⟩ := Option.isSome_iff_exists.mp hopen
  refine ⟨hroute, fun er her => ⟨c, hc, ?_⟩⟩
  rw [deliver_to _ fd (by rw [her]; exact hroute) hc]
  exact Function.update_self ..

section
variable {h : List Act}

theorem Owned.command (ho : Owned h) {fd : Fd} {cmd : RawCommand} (hcan : (after h).can (.command fd cmd) = true) :
    Owned (.command fd cmd :: h) := by
  intro x fd' howner
  have hopen : ((after (.command fd cmd :: h)).conns fd').isSome = ((after h).conns fd').isSome :=
    setConn_isSome (after h) fd fd' _
  have hroute : (after (.command fd cmd :: h)).route = Function.update (after h).route cmd.client (some fd) := rfl
  rw [owner] at howner
  rw [hopen, hroute]
  by_cases hx : cmd.client = x
  · rw [if_pos hx] at howner
    obtain rfl := Option.some.inj howner
    rw [hx, Function.update_self]
    exact ⟨rfl, hcan⟩
  · rw [if_neg hx] at howner
    rw [Function.update_of_ne (Ne.symm hx)]
    exact ho x fd' howner

/-- Who owns a client id once `fd` is closed owned it before. -/
theorem owner_close {fd fd' : Fd} {x : ClientId} (e : owner x (.close fd :: h) = some fd') :
    owner x h = some fd' ∧ fd' ≠ fd := by
  rw [owner] at e
  by_cases hx : owner x h = some fd
  · rw [if_pos hx] at e
    cases e
  · rw [if_neg hx] at e
    refine ⟨e, ?_⟩
    rintro rfl
    exact hx e

theorem Owned.close (ho : Owned h) {fd : Fd}
    (hown : ∀ c, (after h).conns fd = some c → c.client ≠ 0 → ∀ fd', owner c.client h = some fd' → fd' = fd) :
    Owned (.close fd :: h) := by
  intro x fd' howner
  obtain ⟨howner, hne⟩ := owner_close howner
  obtain ⟨hroute, hopen⟩ := ho x fd' howner
  have hconns : (after (.close fd :: h)).conns fd' = (after h).conns fd' := close_conns_ne (after h) fd fd' hne
  rw [hconns]
  refine ⟨?_, hopen⟩
  cases hc : (after h).conns fd with
  | none =>
    show ((after h).close fd).route x = _
    rw [Gateway.close, hc]
    exact hroute
  | some c =>
    have e : (after (.close fd :: h)).route x = _ := close_route (after h) fd hc x
    rw [e, if_neg]
    · exact hroute
    · rintro ⟨h0, rfl⟩
      exact hne (hown c hc h0 fd' howner)

/-- An act that touches no route, closes nothing and decodes nothing. -/
theorem Owned.frame (ho : Owned h) {a : Act} (hroute : (after (a :: h)).route = (after h).route)
    (hopen : ∀ fd, ((after h).conns fd).isSome = true → ((after (a :: h)).conns fd).isSome = true)
    (howner : ∀ x, owner x (a :: h) = owner x h) : Owned (a :: h) := by
  intro x fd hx
  rw [howner] at hx
  rw [hroute]
  exact ⟨(ho x fd hx).1, hopen fd (ho x fd hx).2⟩

end

/-- No connection closed while another was the one that last spoke for the id it sent last. -/
def Orderly (h : List Act) : Prop :=
  ∀ fd h' c, (Act.close fd :: h') <:+ h → (after h').conns fd = some c → c.client ≠ 0 →
    ∀ fd', owner c.client h' = some fd' → fd' = fd

theorem owned_of_orderly {h : List Act} (hl : legal h = true) (ho : Orderly h) : Owned h := by
  induction h with
  | nil => exact fun x fd howner => absurd howner (Option.some_ne_none fd).symm
  | cons a h ih =>
    obtain ⟨hl', hcan⟩ := legal_cons.mp hl
    have hown := ih hl' fun fd h' c hs => ho fd h' c (hs.trans (List.suffix_cons a h))
    cases a with
    | accept fd =>
      refine hown.frame rfl (fun fd' hopen => ?_) fun _ => rfl
      have hconns : (after (.accept fd :: h)).conns = _ := accept_conns (after h) fd (Option.isNone_iff_eq_none.mp hcan)
      rw [hconns, Function.update_apply]
      split
      · rfl
      · exact hopen
    | command fd cmd => exact hown.command hcan
    | close fd => exact hown.close fun c hc => ho fd h c (List.suffix_refl _) hc
    | recv fd data => exact hown.frame rfl (fun fd' hopen => (setConn_isSome _ fd fd' _).trans hopen) fun _ => rfl
    | consume fd off => exact hown.frame rfl (fun fd' hopen => (setConn_isSome _ fd fd' _).trans hopen) fun _ => rfl
    | flush fd n => exact hown.frame rfl (fun fd' hopen => (setConn_isSome _ fd fd' _).trans hopen) fun _ => rfl
    | deliver er =>
      exact hown.frame (deliver_route _ er) (fun fd' hopen => (deliver_isSome _ fd' er).trans hopen) fun _ => rfl

/-- Every client stays routed to the connection that last spoke for it along a history exactly
    when the history closed in order. -/
theorem served_iff (h : List Act) (hl : legal h = true) : (∀ h', h' <:+ h → Served h') ↔ Orderly h := by
  constructor
  · intro hs fd h' c hsuf hc h0 fd' howner
    by_contra hne
    -- the close took away the route of `fd'`
    have howner' : owner c.client (.close fd :: h') = some fd' := by
      rw [owner, if_neg]
      · exact howner
      · intro e
        exact hne (Option.some.inj (howner.symm.trans e))
    have hroute := (hs _ hsuf c.client fd' howner').1
    have e : (after (.close fd :: h')).route c.client = _ := close_route (after h') fd hc c.client
    rw [e, if_pos ⟨h0, rfl⟩] at hroute
    cases hroute
  · intro ho h' hs
    exact (owned_of_orderly (legal_suffix hs hl) fun fd h'' c hs' => ho fd h'' c (hs'.trans hs)).served

/-- Client 7 on a second connection, which closes before the first. -/
def second : List Act := [.close 6, .command 6 (order 7), .accept 6, .command 5 (order 7), .accept 5]

theorem served_second : legal second = true ∧ ∀ h', h' <:+ second → Served h' :=
  ⟨by decide, (served_iff second (by decide)).mpr (by
    intro fd h' c hs hc _ fd' howner
    simp only [second, List.suffix_cons_iff, List.cons.injEq, Act.close.injEq, reduceCtorEq, false_and,
      List.suffix_nil, or_false] at hs
    obtain ⟨rfl, rfl⟩ := hs
    obtain rfl : c = { client := 7 } := Option.some.inj (hc.symm.trans (by decide))
    exact Option.some.inj (howner.symm.trans (by decide)))⟩

/-- Client 7 reconnects, and its first connection closes: the second is open and routed
    nowhere. -/
theorem close_silences : ¬ ∀ h, legal h = true → Served h := by
  intro hall
  have hs := hall [.close 5, .command 6 (order 7), .accept 6, .command 5 (order 7), .accept 5] (by decide)
  exact absurd (hs 7 6 (by decide)).1 (by decide)

end Lob.Gateway
