/-
  Lob.Laws.Halt — a halted engine does not trade, unless an amend sends its order in again.

  The halt switch is asked for a New only. `Quiet`: a command reported no match, and all
  it did to the book was to take orders off or make them smaller where they stood.
  `Engine.Reenters` says exactly when a command to a halted engine is not quiet.
-/

import Lob.Book.OrderBookProofs
import Lob.Engine.Refusals

namespace Lob

section

variable {B : Type} [Book B] [LawfulBook B]

structure Quiet (e e' : Engine B) : Prop where
  noMatch : ∀ ev ∈ e'.out, ev.type ≠ .fill ∧ ev.type ≠ .trade
  shrinks : ∀ s, Shrinks (e'.queued s) (e.queued s)

namespace Engine

/-- The first order an incoming one meets is its client's own, and stops it. -/
def StopsFirst (e : Engine B) (c : Command) : Prop :=
  e.cfg.stp = .cancelAggressor ∧ ∃ o, (e.queued (opposite c.side)).head? = some o ∧
    crosses c.side (limitOf c) o.price = true ∧ o.client = c.client

/-- The amend gives up its order's place, and the replacement is neither refused nor stopped by
    the first order it meets. -/
def Reenters (e : Engine B) (cmd : Command) : Prop :=
  cmd.type = .modify ∧ cmd.quantity ≠ 0 ∧ ¬ e.Refused cmd ∧ ∃ p, e.find cmd.id = some (some p) ∧
    ¬ FlatEngine.keepsPlace cmd (e.order p).toOrderInfo ∧
    ¬ e.StopsFirst (FlatEngine.replacement cmd (e.order p).toOrderInfo)

end Engine

end

/-! ## A replacement sent in -/

namespace FlatEngine

variable {a : FlatEngine} {cmd : Command} {fillable : Bool} {o : OrderInfo}

def StopsFirst (a : FlatEngine) (c : Command) : Prop :=
  a.cfg.stp = .cancelAggressor ∧ ∃ o, (a.side (opposite c.side)).head? = some o ∧
    crosses c.side (limitOf c) o.price = true ∧ o.client = c.client

/-- The events report no match, and the book only shrank. -/
def Quiet (a a' : FlatEngine) (es : List Event) : Prop :=
  (∀ ev ∈ es, ev.type ≠ .fill ∧ ev.type ≠ .trade) ∧ ∀ s, Shrinks (a'.side s) (a.side s)

theorem quiet_one {a' : FlatEngine} {ev : Event} (hev : ev.type ≠ .fill ∧ ev.type ≠ .trade)
    (hs : ∀ s, Shrinks (a'.side s) (a.side s)) : Quiet a a' [ev] :=
  ⟨fun ev' h => by rw [List.mem_singleton.mp h]; exact hev, hs⟩

/-- Without a deal that trades, an order that comes to rest joins the book at a new place. -/
theorem requeued_quiet_iff (hi : a.Inv) (hf : a.find cmd.id = some o)
    (hp : (a.withFlat (a.drop o)).Passes fillable (replacement cmd o)) {es : List Event}
    (he : a.Emits ((a.withFlat (a.drop o)).handleAccepted (replacement cmd o)).toEngineVars es) :
    Quiet a ((a.withFlat (a.drop o)).handleAccepted (replacement cmd o)) es ↔ a.StopsFirst (replacement cmd o) := by
  let b := a.withFlat (a.drop o)
  let c := replacement cmd o
  have ho := (Flat.find_some hf).2.1
  have hkind : rests c.ordType = true := hi.kinds o ho
  have hroom : (b.afterMatch c).orders.length < b.cfg.maxOrders := requeue_room hi hf c
  have hopp : b.side (opposite c.side) = a.side (opposite c.side) := setList_opposite ..
  have hreach : reaches (incomingOrder c (b.arrival + 1)) = fun x => crosses c.side (limitOf c) x.price := by
    funext x
    unfold reaches incomingOrder
    simp only [rests_not_market hkind, decide_false, Bool.false_or]
  obtain ⟨tail, hadm, htail⟩ := accepted_events b c
  obtain rfl := List.append_cancel_left (he.symm.trans hadm)
  have hset := accepted_settles b c
  constructor
  · intro ⟨hno, hsh⟩
    have hdeal : ∀ i x q, .traded i x q ∉ b.dealings c := by
      intro i x q hd
      refine (hno (.takerFill i x q) (List.mem_append_left _ (List.mem_cons_of_mem _ ?_))).1 rfl
      exact List.mem_flatMap.mpr ⟨_, hd, List.mem_cons_self ..⟩
    by_cases hs : ∃ i x, .stopped i x ∈ b.dealings c
    · obtain ⟨hagg, x, hx, hr, hown⟩ := stopped_first hs hdeal
      rw [hopp] at hx
      rw [hreach] at hr
      exact ⟨hagg, x, hx, hr, hown⟩
    -- nothing traded and nothing stopped it: it came to rest, later than every order before
    have hleft := left_eq b.cfg.stp c.client (b.accepted c) (incomingOrder c (b.arrival + 1)) 0 (b.side (opposite c.side))
      fun d hd i x e => hs ⟨i, x, e ▸ hd⟩
    have htaken : taken (b.dealings c) = 0 := taken_untraded hdeal
    have hopen : (b.matching c).inc.remaining ≠ 0 := by
      intro h0
      have h1 : (b.matching c).inc.remaining.toNat + taken (b.dealings c) = c.quantity.toNat := hleft
      rw [h0, htaken] at h1
      exact hp.quantity (UInt64.toNat_inj.mp h1.symm)
    generalize b.handleAccepted c = a' at hset hsh
    cases hset with
    | filled done => exact absurd done hopen
    | canceled reason open_ why =>
      rcases why with ⟨_, h⟩ | ⟨_, _, h⟩
      · rw [hkind] at h; cases h
      · exact absurd h (Nat.not_le.mpr hroom)
    | rested open_ kind room =>
      have hseq : (b.matching c).inc.seq = a.arrival + 1 := by rw [matching_inc]; rfl
      have hmem : (b.matching c).inc ∈ ((b.afterMatch c).place (b.matching c).inc).side (b.matching c).inc.side := by
        rw [Flat.place_side, if_pos rfl]
        exact (Flat.enqueue_perm _ _).mem_iff.mpr (List.mem_cons_self ..)
      obtain ⟨x, hx, hr⟩ := (hsh _).mem hmem
      have hold := hi.arrived x (Flat.mem_orders.mpr ⟨_, hx⟩)
      rw [← hr.seq, hseq] at hold
      exact absurd hold (Nat.not_succ_le_self _)
  · intro ⟨hagg, x, hx, hr, hown⟩
    have hd : b.dealings c = [.stopped (incomingOrder c (b.arrival + 1)) c.client] := by
      unfold dealings
      rw [show b.cfg.stp = .cancelAggressor from hagg]
      exact deals_stopped hp.quantity (by rw [hopp]; exact hx) (by rw [hreach]; exact hr) hown
    have h0 : (b.matching c).inc.remaining = 0 :=
      stopped_zero _ _ _ _ _ _ ⟨incomingOrder c (b.arrival + 1), c.client, by
        show _ ∈ b.dealings c
        rw [hd]; exact List.mem_singleton.mpr rfl⟩
    refine ⟨fun ev hev => ?_, ?_⟩
    · rw [hd] at hev
      rcases List.mem_append.mp hev with hev | hev
      · rcases List.mem_cons.mp hev with rfl | hev
        · exact ⟨nofun, nofun⟩
        · rw [List.mem_singleton.mp hev]
          exact ⟨nofun, nofun⟩
      · obtain ⟨reason, rfl⟩ := htail ev hev
        exact ⟨nofun, nofun⟩
    · show ∀ s, Shrinks ((b.handleAccepted c).side s) (a.side s)
      generalize b.handleAccepted c = a' at hset
      cases hset with
      | filled done => exact fun s => (matching_shrinks b c s).trans (drop_sides a o s)
      | canceled reason open_ why => exact absurd h0 open_
      | rested open_ kind room => exact absurd h0 open_

/-! ## A command to a halted engine -/

def Reenters (a : FlatEngine) (fillable : Bool) (cmd : Command) : Prop :=
  cmd.type = .modify ∧ cmd.quantity ≠ 0 ∧ ∃ o, a.find cmd.id = some o ∧ ¬ keepsPlace cmd o ∧
    (a.withFlat (a.drop o)).Passes fillable (replacement cmd o) ∧ ¬ a.StopsFirst (replacement cmd o)

theorem halted_quiet_iff (hi : a.Inv) (hh : a.halted = true) {es : List Event}
    (he : a.Emits (a.dispatch fillable cmd).toEngineVars es) :
    Quiet a (a.dispatch fillable cmd) es ↔ ¬ a.Reenters fillable cmd := by
  have hone : ∀ {ev : Event} {v : EngineVars}, a.Emits v [ev] → v = (a.dispatch fillable cmd).toEngineVars → es = [ev] := by
    intro ev v hv e
    rw [e] at hv
    exact List.append_cancel_left (he.symm.trans hv)
  have ho := dispatch_outcome a fillable cmd
  generalize a.dispatch fillable cmd = a' at ho he hone ⊢
  cases ho with
  | refused r why =>
    rw [hone (emits_reject _ cmd r) rfl]
    refine iff_of_true (quiet_one ⟨nofun, nofun⟩ fun s => Shrinks.refl _) fun ⟨ht, _, o, hf, _⟩ => ?_
    rcases why with ⟨e, _⟩ | ⟨e, _⟩ | ⟨_, e, _⟩
    · rw [ht] at e; cases e
    · rw [ht] at e; cases e
    · rw [hf] at e; cases e
  | admitted type live passes => rw [hh] at live; cases live
  | canceled o found why =>
    rw [hone (emits_newEvent _ (.cancel o cmd.tsRecv)) rfl]
    refine iff_of_true (quiet_one ⟨nofun, nofun⟩ (drop_sides a o)) fun ⟨ht, h0, _⟩ => ?_
    rcases why with e | ⟨_, e⟩
    · rw [ht] at e; cases e
    · exact h0 e
  | replaced o found type sized keeps =>
    rw [hone (emits_newEvent _ (.replace { o with remaining := cmd.quantity } cmd.quantity cmd.tsRecv)) rfl]
    refine iff_of_true (quiet_one ⟨nofun, nofun⟩ (Flat.shrinks_setList (shrinks_replace (reduced_keep sized keeps) _)))
      fun ⟨_, _, o', hf, hk, _⟩ => ?_
    rw [found] at hf
    cases hf
    exact hk keeps
  | requeued o found type sized moves passes =>
    rw [requeued_quiet_iff hi found passes he]
    constructor
    · intro hs ⟨_, _, o', hf, _, _, hn⟩
      rw [found] at hf
      cases hf
      exact hn hs
    · intro h
      by_contra hs
      exact h ⟨type, sized, o, found, moves, passes, hs⟩
  | lost o found type sized moves r refusal =>
    rw [hone (emits_reject _ (replacement cmd o) r) rfl]
    refine iff_of_true (quiet_one ⟨nofun, nofun⟩ (drop_sides a o)) fun ⟨_, _, o', hf, _, hp, _⟩ => ?_
    rw [found] at hf
    cases hf
    rw [refusal_none.mpr hp] at refusal
    cases refusal

end FlatEngine

/-! ## Runs of a halted engine -/

variable {B : Type} [Book B] [LawfulBook B] {e e' : Engine B} {a : FlatEngine} {cmd : Command} {now : TsNanos}

theorem Simulates.reenters_iff (h : Simulates e a) (cmd : Command) :
    e.Reenters cmd ↔ a.Reenters (e.fillable cmd) cmd := by
  obtain ⟨r, hfind, hflat⟩ := h.refines.find_eq cmd.id
  have hstop : ∀ c, e.StopsFirst c ↔ a.StopsFirst c := fun c => by
    unfold Engine.StopsFirst FlatEngine.StopsFirst
    rw [h.refines.queued, h.refines.cfg]
  unfold Engine.Reenters FlatEngine.Reenters
  rw [h.refused_iff]
  constructor
  · intro ⟨ht, h0, hnot, p, hp, hk, hs⟩
    rw [hfind] at hp
    cases hp
    refine ⟨ht, h0, _, hflat, hk, FlatEngine.refusal_none.mp ?_, fun hs' => hs ((hstop _).mpr hs')⟩
    by_contra hne
    exact hnot ⟨ht, h0, _, hflat, hk, Option.ne_none_iff_exists'.mp hne⟩
  · intro ⟨ht, h0, o, ho, hk, hp, hs⟩
    rw [ho] at hflat
    obtain ⟨p, rfl, rfl⟩ := Option.map_eq_some_iff.mp hflat.symm
    refine ⟨ht, h0, fun ⟨_, _, o', ho', _, r, hr⟩ => ?_, p, hfind, hk, fun hs' => hs ((hstop _).mp hs')⟩
    rw [ho] at ho'
    cases ho'
    rw [FlatEngine.refusal_none.mpr hp] at hr
    cases hr

theorem Simulates.quiet_iff (h : Simulates e a) (hh : e.halted = true) (hp : e.process now cmd = some e') :
    Quiet e e' ↔ ¬ e.Reenters cmd := by
  have hhalt := h.refines.halted_eq
  let b := a.withVars (a.start 0 cmd)
  have hs' := (process_refines h now cmd).2 e' hp
  obtain ⟨es, hes⟩ : ∃ es, b.Emits (b.dispatch (e.fillable cmd) cmd).toEngineVars es :=
    ⟨(b.dispatch (e.fillable cmd) cmd).out.map Event.unnumbered, rfl⟩
  obtain ⟨tail, hout, htail⟩ := FlatEngine.process_out a _ cmd hes
  have hmem := mem_unnumbered hs'.refines.vars hout
  have hnone : ∀ t, t ≠ .bookChanged → ((∃ ev ∈ e'.out, ev.type = t) ↔ ∃ ev ∈ es, ev.type = t) := by
    intro t ht
    rw [hmem]
    refine ⟨fun ⟨ev, hev, e⟩ => ⟨ev, ?_, e⟩, fun ⟨ev, hev, e⟩ => ⟨ev, List.mem_append_left _ hev, e⟩⟩
    exact (List.mem_append.mp hev).resolve_right fun hev => ht (e.symm.trans (htail ev hev))
  have hre : (e.withVars (e.start now cmd)).Reenters cmd ↔ e.Reenters cmd := Iff.rfl
  rw [← hre, (h.start now cmd).reenters_iff]
  have hquiet : FlatEngine.Quiet b (b.dispatch (e.fillable cmd) cmd) es ↔ ¬ b.Reenters (e.fillable cmd) cmd :=
    FlatEngine.halted_quiet_iff (a := b) h.inv (hhalt ▸ hh) hes
  refine Iff.trans ?_ hquiet
  obtain ⟨e1, _⟩ := FlatEngine.process_eq a (e.fillable cmd) cmd
  have hside : ∀ s, e'.queued s = (b.dispatch (e.fillable cmd) cmd).side s := fun s => by
    rw [hs'.refines.queued, e1]
  constructor
  · intro hq
    refine ⟨fun ev hev => ⟨fun e => ?_, fun e => ?_⟩, fun s => ?_⟩
    · obtain ⟨ev', hev', e'⟩ := (hnone .fill (by decide)).mpr ⟨ev, hev, e⟩
      exact (hq.noMatch ev' hev').1 e'
    · obtain ⟨ev', hev', e'⟩ := (hnone .trade (by decide)).mpr ⟨ev, hev, e⟩
      exact (hq.noMatch ev' hev').2 e'
    · rw [← hside]
      have := hq.shrinks s
      rw [h.refines.queued] at this
      exact this
  · intro ⟨hno, hsh⟩
    refine ⟨fun ev hev => ⟨fun e => ?_, fun e => ?_⟩, fun s => ?_⟩
    · obtain ⟨ev', hev', e'⟩ := (hnone .fill (by decide)).mp ⟨ev, hev, e⟩
      exact (hno ev' hev').1 e'
    · obtain ⟨ev', hev', e'⟩ := (hnone .trade (by decide)).mp ⟨ev, hev, e⟩
      exact (hno ev' hev').2 e'
    · rw [hside, h.refines.queued]
      exact hsh s

theorem Simulates.halted_process (h : Simulates e a) (hp : e.process now cmd = some e') : e'.halted = e.halted := by
  have hs' := (process_refines h now cmd).2 e' hp
  obtain ⟨_, _, _, hkept⟩ := FlatEngine.process_eq a (e.fillable cmd) cmd
  rw [hs'.refines.halted_eq, h.refines.halted_eq, hkept]
  cases FlatEngine.dispatch_moves (a.withVars (a.start 0 cmd)) (e.fillable cmd) cmd with
  | shrinks n kept le sides => exact kept.halted
  | lands b c g o kept before sides landing result origin => exact kept.halted

/-- While it stays halted, and no command sends an order in again, an engine keeps a book that
    only shrinks. -/
theorem steps_halted : ∀ (is : List Engine.Input) (e : Engine B) (a : FlatEngine), Simulates e a → e.halted = true →
    (∀ i ∈ is, i ≠ .setHalted false) → e.Meets (fun e cmd => ¬ e.Reenters cmd) is → e.steps is = some e' →
    ∃ a', Simulates e' a' ∧ e'.halted = true ∧ ∀ s, Shrinks (e'.queued s) (e.queued s) := by
  intro is
  induction is with
  | nil =>
    intro e a h hh _ _ he
    cases he
    exact ⟨a, h, hh, fun s => Shrinks.refl _⟩
  | cons i is ih =>
    intro e a h hh hstay hm he
    have hrest : ∀ j ∈ is, j ≠ .setHalted false := fun j hj => hstay j (List.mem_cons_of_mem _ hj)
    obtain ⟨e1, h1, h2⟩ := Option.bind_eq_some_iff.mp he
    cases i with
    | setHalted b =>
      cases h1
      have hb : b = true := by
        cases b with
        | true => rfl
        | false => exact absurd rfl (hstay _ (List.mem_cons_self ..))
      exact ih (e.setHalted b) (a.setHalted b) (step_simulates h (i := .setHalted b) rfl) hb hrest hm h2
    | command now cmd =>
      have hp : e.process now cmd = some e1 := h1
      obtain ⟨a', h', hh', hs⟩ := ih e1 _ ((process_refines h now cmd).2 e1 hp) ((h.halted_process hp).trans hh) hrest
        (hm.2 e1 hp) h2
      exact ⟨a', h', hh', fun s => (hs s).trans (((h.quiet_iff hh hp).mpr hm.1).shrinks s)⟩

/-- From every reachable halted state, while the switch stays on and no command sends an order
    in again: the book only shrinks, and the next command is quiet exactly when it does not
    send an order in again. -/
theorem halted_quiet {cfg : EngineConfig} {is js : List Engine.Input} (h0 : Engine.run cfg is = some e)
    (hh : e.halted = true) (hstay : ∀ i ∈ js, i ≠ .setHalted false) (hm : e.Meets (fun e cmd => ¬ e.Reenters cmd) js)
    (he : e.steps js = some e') : e'.halted = true ∧ (∀ s, Shrinks (e'.queued s) (e.queued s)) ∧
      ∀ now cmd e'', e'.process now cmd = some e'' → (Quiet e' e'' ↔ ¬ e'.Reenters cmd) := by
  obtain ⟨a, hs, _⟩ := run_simulates h0
  obtain ⟨a', hs', hh', hsh⟩ := steps_halted js e a hs hh hstay hm he
  exact ⟨hh', hsh, fun now cmd e'' hp => hs'.quiet_iff hh' hp⟩

/-- Halted with a bid at 100 and an offer at 101: the bid, amended to 101, trades. -/
theorem amend_trades_while_halted : ¬ ∀ (e e' : Engine OrderBook),
    Engine.run { minPrice := 1, maxPrice := 500, maxOrders := 4 } [.command 0 (.makeNew 1 7 .buy .limit 100 5 0),
      .command 0 (.makeNew 2 8 .sell .limit 101 5 0), .setHalted true] = some e →
    e.halted = true → e.process 0 (.makeModify 1 7 101 5 0) = some e' → Quiet e e' := by
  intro h
  have key : (do
      let e ← Engine.run (B := OrderBook) { minPrice := 1, maxPrice := 500, maxOrders := 4 }
        [.command 0 (.makeNew 1 7 .buy .limit 100 5 0), .command 0 (.makeNew 2 8 .sell .limit 101 5 0), .setHalted true]
      let e' ← e.process 0 (.makeModify 1 7 101 5 0)
      some (e.halted, e'.out.any fun ev => ev.type = .trade)) = some (true, true) := by decide +kernel
  obtain ⟨e, he, key⟩ := Option.bind_eq_some_iff.mp key
  obtain ⟨e', he', key⟩ := Option.bind_eq_some_iff.mp key
  simp only [Option.some.injEq, Prod.mk.injEq, List.any_eq_true, decide_eq_true_eq] at key
  obtain ⟨hh, ev, hev, ht⟩ := key
  exact ((h e e' he hh he').noMatch ev hev).2 ht

theorem halted_quiet_cancel : ∃ e e' : Engine OrderBook,
    Engine.run { minPrice := 1, maxPrice := 500, maxOrders := 4 } [.command 0 (.makeNew 1 7 .buy .limit 100 5 0),
      .setHalted true] = some e ∧ e.steps [.command 0 (.makeCancel 1 7 0)] = some e' ∧
    e'.halted = true ∧ (∀ s, Shrinks (e'.queued s) (e.queued s)) ∧
      ∀ now cmd e'', e'.process now cmd = some e'' → (Quiet e' e'' ↔ ¬ e'.Reenters cmd) := by
  have key : (do
      let e ← Engine.run (B := OrderBook) { minPrice := 1, maxPrice := 500, maxOrders := 4 }
        [.command 0 (.makeNew 1 7 .buy .limit 100 5 0), .setHalted true]
      let e' ← e.steps [.command 0 (.makeCancel 1 7 0)]
      some (e.halted, e'.halted)) = some (true, true) := by decide +kernel
  obtain ⟨e, he, key⟩ := Option.bind_eq_some_iff.mp key
  obtain ⟨e', he', key⟩ := Option.bind_eq_some_iff.mp key
  simp only [Option.some.injEq, Prod.mk.injEq] at key
  refine ⟨e, e', he, he', halted_quiet he key.1 ?_ ?_ he'⟩
  · decide
  · exact ⟨fun h => (by cases h.1), fun _ _ => trivial⟩

end Lob
