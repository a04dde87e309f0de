/-
  Lob.Laws.SelfTrade — self-trade prevention keeps a client's orders apart.

  `match` compares the owner of the incoming order (for an amend, the owner of the order
  it replaces) with that of each resting order it comes to. `Engine.Met` says which orders
  it comes to with something left; `StpKept` is what prevention makes of the client's own
  among them.
-/

import Lob.Book.OrderBookProofs
import Lob.Engine.Entries
import Mathlib.Data.List.Chain

namespace Lob

/-! ## Two Fills in a row -/

/-- Two Fills in a row, the two of one match, are of two clients. -/
def Apart (es : List Event) : Prop :=
  es.IsChain fun f g => f.type = .fill → g.type = .fill → f.client ≠ g.client

theorem apart_append {es es' : List Event} (h : Apart es) (h' : Apart es')
    (hlast : ∀ f ∈ es.getLast?, f.type ≠ .fill) : Apart (es ++ es') := by
  unfold Apart at *
  rw [List.isChain_append]
  exact ⟨h, h', fun f hf g _ hfill => absurd hfill (hlast f hf)⟩

theorem apart_of_no_fill {es : List Event} (h : ∀ ev ∈ es, ev.type ≠ .fill) : Apart es := by
  induction es with
  | nil => exact List.IsChain.nil
  | cons ev es ih =>
    have hone : Apart [ev] := List.IsChain.singleton ev
    refine apart_append hone (ih fun x hx => h x (List.mem_cons_of_mem _ hx)) ?_
    simpa using h ev (List.mem_cons_self ..)

theorem apart_deals {ds : List Deal} (h : ∀ i o q, .traded i o q ∈ ds → i.client ≠ o.client) :
    Apart (ds.flatMap Deal.events) ∧ ∀ f ∈ (ds.flatMap Deal.events).getLast?, f.type ≠ .fill := by
  induction ds with
  | nil => exact ⟨List.IsChain.nil, by simp⟩
  | cons d ds ih =>
    obtain ⟨ih1, ih2⟩ := ih fun i o q hd => h i o q (List.mem_cons_of_mem _ hd)
    have hone : Apart d.events ∧ ∀ f ∈ d.events.getLast?, f.type ≠ .fill := by
      cases d with
      | traded i o q =>
        have := h i o q (List.mem_cons_self ..)
        simp [Apart, Deal.events, Event.takerFill, Event.makerFill, Event.trade, this]
      | pulled i o => simp [Apart, Deal.events, Event.stpResting]
      | stopped i c => simp [Apart, Deal.events, Event.stpAggressor]
    rw [List.flatMap_cons]
    refine ⟨apart_append hone.1 ih1 hone.2, fun f hf => ?_⟩
    rw [List.getLast?_append] at hf
    cases hl : (ds.flatMap Deal.events).getLast? with
    | none => rw [hl] at hf; exact hone.2 f hf
    | some g => rw [hl] at hf; exact ih2 f (by rw [hl]; exact hf)

theorem apart_unnumbered {es : List Event} : Apart (es.map Event.unnumbered) ↔ Apart es := by
  unfold Apart
  rw [List.isChain_map]
  rfl

/-! ## Orders met -/

/-- An order of `client`, of size `n`, comes to `o` with something left: all up to `o` is within
    reach, and what others have open ahead of it does not fill the order. -/
def metIn (client : ClientId) (reach : OrderInfo → Bool) (n : Nat) (L : List OrderInfo) (o : OrderInfo) : Prop :=
  ∃ pre post, L = pre ++ o :: post ∧ (∀ x ∈ pre ++ [o], reach x = true) ∧
    Flat.openSize (pre.filter fun x => x.client ≠ client) < n

variable {stp : StpMode} {client : ClientId} {inc o : OrderInfo} {L : List OrderInfo}

/-- What leaves the book in a match was filled, or pulled. -/
theorem gone_dealt (stp : StpMode) (client : ClientId) (v : EngineVars) (inc : OrderInfo) (filled : Quantity)
    (L : List OrderInfo) : ∀ o ∈ (refMatch stp client v inc filled L).gone,
      (∃ i, .traded i o o.remaining ∈ deals stp client inc L) ∨ (stp = .cancelResting ∧ ∃ i, .pulled i o ∈ deals stp client inc L) := by
  fun_induction refMatch stp client v inc filled L with
  | case1 => intro o ho; cases ho
  | case2 => intro o ho; cases ho
  | case3 => intro o ho; cases ho
  | case4 v inc filled x rest h hstp hagg ih =>
    intro o ho
    unfold deals
    rw [if_neg h, if_pos hstp, if_neg hagg]
    have hmode : stp = .cancelResting := by
      cases stp
      · exact absurd rfl hstp.1
      · rfl
      · exact absurd rfl hagg
    rcases List.mem_cons.mp ho with rfl | ho
    · exact Or.inr ⟨hmode, inc, List.mem_cons_self ..⟩
    rcases ih o ho with ⟨i, hi⟩ | ⟨hr, i, hi⟩
    · exact Or.inl ⟨i, List.mem_cons_of_mem _ hi⟩
    · exact Or.inr ⟨hr, i, List.mem_cons_of_mem _ hi⟩
  | case5 v inc filled x rest h hstp traded v' inc' hfull ih =>
    intro o ho
    unfold deals
    rw [if_neg h, if_neg hstp]
    rcases List.mem_cons.mp ho with rfl | ho
    · have htraded : Deal.traded inc o o.remaining = .traded inc o traded := congrArg (Deal.traded inc o) hfull
      exact Or.inl ⟨inc, htraded ▸ List.mem_cons_self ..⟩
    rcases ih o ho with ⟨i, hi⟩ | ⟨hr, i, hi⟩
    · exact Or.inl ⟨i, List.mem_cons_of_mem _ hi⟩
    · exact Or.inr ⟨hr, i, List.mem_cons_of_mem _ hi⟩
  | case6 => intro o ho; cases ho

/-- With CancelResting an own order that is met is pulled, and goes. -/
theorem metIn_pulled (v : EngineVars) (filled : Quantity) (hown : o.client = client)
    (hm : metIn client (reaches inc) inc.remaining.toNat L o) :
    o ∈ (refMatch .cancelResting client v inc filled L).gone ∧ ∃ i, .pulled i o ∈ deals .cancelResting client inc L := by
  obtain ⟨pre, post, rfl, hreach, hlt⟩ := hm
  have h0 : inc.remaining ≠ 0 := fun e => by rw [e] at hlt; exact absurd hlt (Nat.not_lt_zero _)
  induction pre generalizing inc v filled with
  | nil =>
    have hgo : ¬ (inc.remaining = 0 ∨ reaches inc o = false) := by simp [h0, hreach o (by simp)]
    have hstp : StpMode.cancelResting ≠ .none ∧ o.client = client := ⟨by decide, hown⟩
    rw [List.nil_append, refMatch_resting hgo hstp (by decide)]
    unfold deals
    rw [if_neg hgo, if_pos hstp, if_neg (by decide)]
    exact ⟨List.mem_cons_self .., inc, List.mem_cons_self ..⟩
  | cons x pre ih =>
    have hgo : ¬ (inc.remaining = 0 ∨ reaches inc x = false) := by simp [h0, hreach x (by simp)]
    have hreach' : ∀ y ∈ pre ++ [o], reaches inc y = true := fun y hy => hreach y (List.mem_cons_of_mem _ hy)
    rw [List.cons_append]
    unfold deals
    rw [if_neg hgo]
    by_cases hx : x.client = client
    · have hstp : StpMode.cancelResting ≠ .none ∧ x.client = client := ⟨by decide, hx⟩
      rw [List.filter_cons_of_neg (by simp [hx])] at hlt
      obtain ⟨h1, i, h2⟩ := ih (v.emitStpResting inc x) filled hreach' hlt h0
      rw [refMatch_resting hgo hstp (by decide), if_pos hstp, if_neg (by decide)]
      exact ⟨List.mem_cons_of_mem _ h1, i, List.mem_cons_of_mem _ h2⟩
    · have hstp : ¬ (StpMode.cancelResting ≠ .none ∧ x.client = client) := fun e => hx e.2
      rw [List.filter_cons_of_pos (by simp [hx]), Flat.openSize_cons] at hlt
      have hmin : (min inc.remaining x.remaining).toNat = x.remaining.toNat := by rw [Quantity.toNat_min]; omega
      have hleft : (inc.remaining - min inc.remaining x.remaining).toNat = inc.remaining.toNat - x.remaining.toNat :=
        Quantity.toNat_sub_min ..
      obtain ⟨h1, i, h2⟩ := @ih { inc with remaining := inc.remaining - min inc.remaining x.remaining }
        (v.emitTrade inc x (min inc.remaining x.remaining)) (filled + min inc.remaining x.remaining)
        hreach' (by show _ < (inc.remaining - min inc.remaining x.remaining).toNat; omega)
        (fun e => by
          have e : inc.remaining - min inc.remaining x.remaining = 0 := e
          rw [e] at hleft
          have : (0 : UInt64).toNat = 0 := rfl
          omega)
      rw [refMatch_full hgo hstp (UInt64.toNat_inj.mp hmin.symm), if_neg hstp]
      exact ⟨List.mem_cons_of_mem _ h1, i, List.mem_cons_of_mem _ h2⟩

/-- With CancelAggressor nothing behind an own order is traded with. -/
theorem tradable_met {reach : OrderInfo → Bool} (hown : o.client = client) {n : Nat} (hm : metIn client reach n L o) :
    tradable .cancelAggressor client reach L < n ∧ ∃ x ∈ L.takeWhile reach, x.client = client := by
  obtain ⟨pre, post, rfl, hreach, hlt⟩ := hm
  refine ⟨Nat.lt_of_le_of_lt ?_ hlt, o, ?_, hown⟩
  · clear hlt
    induction pre with
    | nil =>
      rw [List.nil_append, tradable, if_neg (by simp [hreach o (by simp)]), if_pos ⟨by decide, hown⟩, if_pos rfl]
      exact Nat.zero_le _
    | cons x pre ih =>
      have ih := ih fun y hy => hreach y (List.mem_cons_of_mem _ hy)
      rw [List.cons_append, tradable, if_neg (by simp [hreach x (by simp)])]
      by_cases hx : x.client = client
      · rw [if_pos ⟨by decide, hx⟩, if_pos rfl]
        exact Nat.zero_le _
      · rw [if_neg fun e => hx e.2, List.filter_cons_of_pos (by simp [hx]), Flat.openSize_cons]
        omega
  · rw [show pre ++ o :: post = (pre ++ [o]) ++ post by simp, List.takeWhile_append_of_pos hreach]
    simp

/-- With CancelResting an order may trade with all it reaches but its client's own. -/
theorem tradable_resting (client : ClientId) (reach : OrderInfo → Bool) (L : List OrderInfo) :
    tradable .cancelResting client reach L = Flat.openSize ((L.takeWhile reach).filter fun x => x.client ≠ client) := by
  induction L with
  | nil => rfl
  | cons x L ih =>
    rw [tradable]
    by_cases hr : reach x = true
    · rw [if_neg (by simp [hr]), List.takeWhile_cons_of_pos hr]
      by_cases hx : x.client = client
      · rw [if_pos ⟨by decide, hx⟩, if_neg (by decide), List.filter_cons_of_neg (by simp [hx]), ih]
      · rw [if_neg fun e => hx e.2, List.filter_cons_of_pos (by simp [hx]), Flat.openSize_cons, ih]
    · rw [if_pos (by simpa using hr), List.takeWhile_cons_of_neg hr]
      rfl

theorem reduced_mem {left rest : List OrderInfo} (h : List.Forall₂ Reduced left rest) (ho : o ∈ rest) :
    ∃ o' ∈ left, Reduced o' o := by
  induction h with
  | nil => cases ho
  | cons hxy _ ih =>
    rcases List.mem_cons.mp ho with rfl | ho
    · exact ⟨_, List.mem_cons_self .., hxy⟩
    · obtain ⟨o', ho', hr⟩ := ih ho
      exact ⟨o', List.mem_cons_of_mem _ ho', hr⟩

theorem reduced_seqs {left rest : List OrderInfo} (h : List.Forall₂ Reduced left rest) :
    left.map (·.seq) = rest.map (·.seq) := by
  induction h with
  | nil => rfl
  | cons hr _ ih => rw [List.map_cons, List.map_cons, hr.seq, ih]

/-- What stops an order is the last of its deals. -/
theorem stopped_last (inc : OrderInfo) (L : List OrderInfo) {i : OrderInfo} {c : ClientId} {ds' : List Deal} :
    ∀ ds, deals stp client inc L = ds ++ .stopped i c :: ds' → ds' = [] := by
  fun_induction deals stp client inc L with
  | case1 inc => intro ds h; cases ds <;> cases h
  | case2 inc x rest hc => intro ds h; cases ds <;> cases h
  | case3 inc x rest hc hstp hagg =>
    intro ds h
    cases ds with
    | nil => exact ((List.cons.inj h).2).symm
    | cons d ds => cases ds <;> cases (List.cons.inj h).2
  | case4 inc x rest hc hstp hagg ih =>
    intro ds h
    cases ds with
    | nil => exact Deal.noConfusion (List.cons.inj h).1
    | cons d ds => exact ih ds (List.cons.inj h).2
  | case5 inc x rest hc hstp traded ih =>
    intro ds h
    cases ds with
    | nil => exact Deal.noConfusion (List.cons.inj h).1
    | cons d ds => exact ih ds (List.cons.inj h).2

/-! ## What prevention makes of a command -/

section

variable {B : Type} [Book B] [LawfulBook B]

/-- The incoming order `c` comes to `o` with something left. -/
def Engine.Met (e : Engine B) (c : Command) (o : OrderInfo) : Prop :=
  metIn c.client (reaches (incomingOrder c 0)) c.quantity.toNat (e.facing c) o

structure StpKept (e e' : Engine B) (cmd : Command) : Prop where
  apart : Apart e'.out
  /-- A match is always that of an order sent in, under its owner's id. -/
  owner : ∀ ev ∈ e'.out, ev.type = .fill → ∃ c, e.Enters cmd c ∧
    (ev.aggressor = true → ev.orderId = c.id ∧ ev.client = c.client)
  /-- Orders leave the other side filled completely. -/
  completed : e.cfg.stp = .cancelAggressor → ∀ c, e.Enters cmd c → ∀ o ∈ e.facing c, (∃ o' ∈ e'.facing c, Reduced o' o) ∨
    ∃ ev ∈ e'.out, ev.type = .fill ∧ ev.aggressor = false ∧ ev.orderId = o.id ∧ ev.client = o.client ∧
      ev.quantity = o.remaining ∧ ev.leaves = 0
  /-- Met an own order, the incoming one trades no more, and does not rest. -/
  stops : e.cfg.stp = .cancelAggressor → ∀ c, e.Enters cmd c → ∀ o, o.client = c.client → e.Met c o →
    (∃ pre ev post, e'.out = pre ++ ev :: post ∧ ev.type = .canceled ∧ ev.reason = .selfTradePrevented ∧
      ev.orderId = c.id ∧ ev.client = c.client ∧ ∀ x ∈ post, x.type = .bookChanged) ∧
    aggressorFilled e'.out = e.supply c ∧ e'.queued c.side = e.standing cmd c.side
  /-- Own orders met leave the book, and are reported under their own ids. -/
  pulls : e.cfg.stp = .cancelResting → ∀ c, e.Enters cmd c → ∀ o, o.client = c.client → e.Met c o →
    (∀ o' ∈ e'.facing c, o'.seq ≠ o.seq) ∧
    ∃ ev ∈ e'.out, ev.type = .canceled ∧ ev.reason = .selfTradePrevented ∧ ev.orderId = o.id ∧ ev.client = o.client ∧
      ev.side = o.side ∧ ev.price = o.price
  /-- The incoming order is filled by others' orders only, and what it did not get is what is
      left of it, resting or canceled. -/
  unreduced : e.cfg.stp = .cancelResting → ∀ c, e.Enters cmd c →
    aggressorFilled e'.out = min c.quantity.toNat (Flat.openSize
      (((e.facing c).takeWhile (reaches (incomingOrder c 0))).filter fun x => x.client ≠ c.client)) ∧
    (∀ o ∈ e'.queued c.side, o.seq = e'.arrival → o.remaining.toNat = c.quantity.toNat - aggressorFilled e'.out) ∧
    ∀ ev ∈ e'.out, ev.type = .canceled → ev.reason ≠ .selfTradePrevented →
      ev.quantity.toNat = c.quantity.toNat - aggressorFilled e'.out
  /-- A command that sends nothing in touches at most the order it names. -/
  spares : (∀ c, ¬ e.Enters cmd c) → ∀ s, ∀ o ∈ e.queued s, o.id ≠ cmd.id → o ∈ e'.queued s

end

/-! ## The match of an order that entered -/

variable {B : Type} [Book B] [LawfulBook B] {e e' : Engine B} {a b : FlatEngine} {cmd c : Command} {now : TsNanos}

namespace Entered

variable (h : Entered e e' b cmd c)
include h

theorem apart (hstp : e.cfg.stp ≠ .none) : Apart e'.out := by
  obtain ⟨tail, hout, htail⟩ := h.out
  have hrest : Apart (b.leftover c ++ tail) := apart_of_no_fill fun ev hev => by
    rcases List.mem_append.mp hev with hev | hev
    · obtain ⟨reason, _, rfl⟩ := FlatEngine.mem_leftover hev
      exact EventType.noConfusion
    · rw [htail ev hev]; decide
  have hclients : ∀ i o q, .traded i o q ∈ b.dealings c → i.client ≠ o.client := by
    intro i o q hd
    obtain ⟨_, hi, _, _, hne⟩ := FlatEngine.dealing_inc hd
    rw [hi]
    intro hc
    exact hne ⟨by rw [h.cfg]; exact hstp, hc.symm⟩
  obtain ⟨hd, hlast⟩ := apart_deals hclients
  rw [← apart_unnumbered, hout]
  unfold FlatEngine.reports
  rw [List.append_assoc, List.cons_append]
  have hone : Apart [Event.accept c (limitOf c)] := List.IsChain.singleton _
  refine apart_append hone (apart_append hd hrest hlast) ?_
  simp [Event.accept]

/-- An order that left the other side was filled, or pulled. -/
theorem left_or_gone {o : OrderInfo} (ho : o ∈ e.facing c) : (∃ o' ∈ e'.facing c, Reduced o' o) ∨ o ∈ (b.matching c).gone := by
  obtain ⟨rest, hL, hrest⟩ : ∃ rest, b.side (opposite c.side) = (b.matching c).gone ++ rest ∧
      List.Forall₂ Reduced (b.matching c).left rest := refMatch_left ..
  rw [h.facing, hL] at ho
  rcases List.mem_append.mp ho with ho | ho
  · exact Or.inr ho
  · rw [h.facing']
    exact Or.inl (reduced_mem hrest ho)

/-- What was pulled or filled is not there any more. -/
theorem gone_seq {o : OrderInfo} (ho : o ∈ (b.matching c).gone) : ∀ o' ∈ e'.facing c, o'.seq ≠ o.seq := by
  obtain ⟨rest, hL, hrest⟩ : ∃ rest, b.side (opposite c.side) = (b.matching c).gone ++ rest ∧
      List.Forall₂ Reduced (b.matching c).left rest := refMatch_left ..
  have hseqs : ((b.matching c).gone.map (·.seq) ++ rest.map (·.seq)).Nodup := by
    rw [← List.map_append, ← hL]
    exact h.inv.seqs.sublist ((b.toFlat.side_sublist (opposite c.side)).map _)
  rw [h.facing']
  intro o' ho' e
  have h1 : o.seq ∈ rest.map (·.seq) := by
    rw [← reduced_seqs hrest, ← e]
    exact List.mem_map_of_mem ho'
  exact (List.nodup_append.mp hseqs).2.2 o.seq (List.mem_map_of_mem ho) o.seq h1 rfl

theorem met_iff {o : OrderInfo} : e.Met c o ↔
    metIn c.client (reaches (incomingOrder c (b.arrival + 1))) c.quantity.toNat (b.side (opposite c.side)) o := by
  unfold Engine.Met
  rw [h.facing]
  rfl

theorem supply_eq : e.supply c =
    tradable b.cfg.stp c.client (reaches (incomingOrder c 0)) (b.side (opposite c.side)) := by
  unfold Engine.supply
  rw [h.facing, h.cfg]

/-- An order that met one of its client's own is stopped there. -/
theorem stops (hstp : e.cfg.stp = .cancelAggressor) {o : OrderInfo} (hown : o.client = c.client) (hm : e.Met c o) :
    (∃ pre ev post, e'.out = pre ++ ev :: post ∧ ev.type = .canceled ∧ ev.reason = .selfTradePrevented ∧
      ev.orderId = c.id ∧ ev.client = c.client ∧ ∀ x ∈ post, x.type = .bookChanged) ∧
    aggressorFilled e'.out = e.supply c ∧ e'.queued c.side = e.standing cmd c.side := by
  have hcfg : b.cfg.stp = .cancelAggressor := by rw [h.cfg, hstp]
  obtain ⟨hlt, x, hx, hxown⟩ := tradable_met hown (h.met_iff.mp hm)
  have hstopped : ∃ i y, .stopped i y ∈ b.dealings c :=
    (stopped_iff _ _ _ _).mpr ⟨hcfg, by rw [hcfg]; exact hlt, x, hx, hxown⟩
  have hzero : (b.matching c).inc.remaining = 0 := stopped_zero _ _ _ _ _ _ hstopped
  obtain ⟨i, y, hd⟩ := hstopped
  obtain ⟨hi, rfl⟩ := stopped_inc hd
  obtain ⟨ds, ds', hds⟩ := List.append_of_mem hd
  obtain rfl := stopped_last _ _ ds hds
  refine ⟨?_, ?_, ?_⟩
  · obtain ⟨tail, hout, htail⟩ := h.out
    have hleft : b.leftover c = [] := if_pos hzero
    unfold FlatEngine.reports at hout
    rw [hleft, List.append_nil, hds, List.flatMap_append, ← List.cons_append, List.append_assoc] at hout
    obtain ⟨pre, rest, hsplit, _, hrest⟩ := List.map_eq_append_iff.mp hout
    obtain ⟨ev, post, rfl, hev, hpost⟩ := List.map_eq_cons_iff.mp hrest
    have htype : ev.unnumbered.type = .canceled := by rw [hev]; rfl
    have hreason : ev.unnumbered.reason = .selfTradePrevented := by rw [hev]; rfl
    have hid : ev.unnumbered.orderId = c.id := by rw [hev]; exact congrArg OrderInfo.id hi
    have hclient : ev.unnumbered.client = c.client := by rw [hev]; rfl
    refine ⟨pre, ev, post, hsplit, htype, hreason, hid, hclient, fun z hz => ?_⟩
    have hpost : post.map Event.unnumbered = tail := hpost
    have hz' : z.unnumbered ∈ tail := hpost ▸ List.mem_map_of_mem hz
    exact (htail _ hz' : z.unnumbered.type = _)
  · rw [h.filled_eq, FlatEngine.taken_dealings, h.supply_eq, hcfg]
    exact Nat.min_eq_right (Nat.le_of_lt hlt)
  · rw [h.standing]
    exact (h.own'.resolve_right fun hr => hr.1 hzero).1

/-- An own order that was met is pulled. -/
theorem pulls (hstp : e.cfg.stp = .cancelResting) {o : OrderInfo} (hown : o.client = c.client) (hm : e.Met c o) :
    (∀ o' ∈ e'.facing c, o'.seq ≠ o.seq) ∧
    ∃ ev ∈ e'.out, ev.type = .canceled ∧ ev.reason = .selfTradePrevented ∧ ev.orderId = o.id ∧ ev.client = o.client ∧
      ev.side = o.side ∧ ev.price = o.price := by
  have hcfg : b.cfg.stp = .cancelResting := by rw [h.cfg, hstp]
  have hm := h.met_iff.mp hm
  obtain ⟨hgone, i, hd⟩ := @metIn_pulled _ (incomingOrder c (b.arrival + 1)) _ _ (b.accepted c) 0 hown hm
  rw [← hcfg] at hgone hd
  refine ⟨h.gone_seq hgone, ?_⟩
  obtain ⟨ev, hev, heq⟩ := h.mem_out hd (List.mem_singleton.mpr rfl)
  have htype : ev.unnumbered.type = .canceled := by rw [heq]; rfl
  have hreason : ev.unnumbered.reason = .selfTradePrevented := by rw [heq]; rfl
  have hid : ev.unnumbered.orderId = o.id := by rw [heq]; rfl
  have hclient : ev.unnumbered.client = o.client := by rw [heq]; rfl
  have hside : ev.unnumbered.side = o.side := by rw [heq]; rfl
  have hprice : ev.unnumbered.price = o.price := by rw [heq]; rfl
  exact ⟨ev, hev, htype, hreason, hid, hclient, hside, hprice⟩

/-- Pulled orders take nothing off the incoming one. -/
theorem unreduced (hstp : e.cfg.stp = .cancelResting) :
    aggressorFilled e'.out = min c.quantity.toNat (Flat.openSize
      (((e.facing c).takeWhile (reaches (incomingOrder c 0))).filter fun x => x.client ≠ c.client)) ∧
    (∀ o ∈ e'.queued c.side, o.seq = e'.arrival → o.remaining.toNat = c.quantity.toNat - aggressorFilled e'.out) ∧
    ∀ ev ∈ e'.out, ev.type = .canceled → ev.reason ≠ .selfTradePrevented →
      ev.quantity.toNat = c.quantity.toNat - aggressorFilled e'.out := by
  have hcfg : b.cfg.stp = .cancelResting := by rw [h.cfg, hstp]
  have hno : ¬ ∃ i x, .stopped i x ∈ b.dealings c := by
    intro hs
    have hagg := ((stopped_iff _ _ _ _).mp hs).1
    rw [hcfg] at hagg
    cases hagg
  obtain ⟨hleft, _⟩ := FlatEngine.remaining_eq hno
  refine ⟨?_, fun o ho hseq => ?_, fun ev hev htype hreason => ?_⟩
  · rw [h.filled_eq, FlatEngine.taken_dealings, hcfg, tradable_resting, h.facing]
  · rw [h.filled_eq, ← hleft]
    have hold : o ∉ b.side c.side := fun hm => by
      have := h.inv.arrived o (Flat.mem_orders.mpr ⟨_, hm⟩)
      rw [hseq, h.arrival'] at this
      exact Nat.not_succ_le_self _ this
    rcases h.own' with ⟨hown, _⟩ | ⟨_, _, hown⟩
    · rw [hown] at ho
      exact absurd ho hold
    · rw [hown, (Flat.enqueue_perm _ _).mem_iff] at ho
      rw [(List.mem_cons.mp ho).resolve_right hold]
  · rw [h.filled_eq, ← hleft]
    have htype' : ev.unnumbered.type = .canceled := htype
    have hreason' : ev.unnumbered.reason ≠ .selfTradePrevented := hreason
    rcases h.origin hev with hm | ⟨d, hd, hm⟩ | hm | hm
    · rw [hm] at htype'; cases htype'
    · cases d with
      | traded i o q =>
        simp only [Deal.events, List.mem_cons, List.not_mem_nil, or_false] at hm
        rcases hm with hm | hm | hm <;> (rw [hm] at htype'; cases htype')
      | pulled i o => rw [List.mem_singleton.mp hm] at hreason'; exact absurd rfl hreason'
      | stopped i x => rw [List.mem_singleton.mp hm] at hreason'; exact absurd rfl hreason'
    · obtain ⟨reason, _, hm⟩ := FlatEngine.mem_leftover hm
      have hq : ev.unnumbered.quantity = (b.matching c).inc.remaining := by rw [hm]; rfl
      exact congrArg UInt64.toNat hq
    · rw [htype] at hm; cases hm

end Entered

/-! ## Every command of a run -/

theorem Simulates.stp_kept (h : Simulates e a) (hstp : e.cfg.stp ≠ .none) (hp : e.process now cmd = some e') :
    StpKept e e' cmd := by
  by_cases hin : ∃ c, e.Enters cmd c
  · obtain ⟨c, hin⟩ := hin
    obtain ⟨b, _, hb⟩ := h.entered hp hin
    have honly : ∀ c', e.Enters cmd c' → c' = c := hb.unique
    refine ⟨hb.apart hstp, fun ev hev ht => ⟨c, hin, fun hagg => ?_⟩, ?_, ?_, ?_, ?_, fun hno => absurd hin (hno c)⟩
    · obtain ⟨i, o, q, hd, hm⟩ := hb.fill_origin hev ht
      obtain ⟨hid, hclient, _⟩ := FlatEngine.dealing_inc hd
      rcases hm with hm | hm
      · have h1 : ev.unnumbered.orderId = c.id := by rw [hm]; exact hid
        have h2 : ev.unnumbered.client = c.client := by rw [hm]; exact hclient
        exact ⟨h1, h2⟩
      · have hmaker : ev.unnumbered.aggressor = false := by rw [hm]; rfl
        have hagg' : ev.unnumbered.aggressor = true := hagg
        rw [hmaker] at hagg'
        cases hagg'
    · intro hagg c' hc' o ho
      obtain rfl := honly c' hc'
      rcases hb.left_or_gone ho with hleft | hgone
      · exact Or.inl hleft
      rcases gone_dealt _ _ _ _ _ _ o hgone with ⟨i, hd⟩ | ⟨hres, _⟩
      · have hmaker : Event.makerFill i o o.remaining ∈ Deal.events (.traded i o o.remaining) := by simp [Deal.events]
        obtain ⟨ev, hev, heq⟩ := hb.mem_out hd hmaker
        have htype : ev.unnumbered.type = .fill := by rw [heq]; rfl
        have hmaker : ev.unnumbered.aggressor = false := by rw [heq]; rfl
        have hid : ev.unnumbered.orderId = o.id := by rw [heq]; rfl
        have hclient : ev.unnumbered.client = o.client := by rw [heq]; rfl
        have hqty : ev.unnumbered.quantity = o.remaining := by rw [heq]; rfl
        have hleaves : ev.unnumbered.leaves = 0 := by rw [heq]; exact UInt64.sub_self o.remaining
        exact Or.inr ⟨ev, hev, htype, hmaker, hid, hclient, hqty, hleaves⟩
      · rw [hb.cfg, hagg] at hres
        cases hres
    · intro hagg c' hc' o hown hmet
      obtain rfl := honly c' hc'
      exact hb.stops hagg hown hmet
    · intro hres c' hc' o hown hmet
      obtain rfl := honly c' hc'
      exact hb.pulls hres hown hmet
    · intro hres c' hc'
      obtain rfl := honly c' hc'
      exact hb.unreduced hres
  · have hno : ∀ c, ¬ e.Enters cmd c := fun c hc => hin ⟨c, hc⟩
    have hnofill := h.unfilled hp hno
    obtain ⟨_, hspare, _⟩ := h.not_entered hp hno
    exact ⟨apart_of_no_fill hnofill, fun x hx ht => absurd ht (hnofill x hx), fun _ c hc => absurd hc (hno c),
      fun _ c hc => absurd hc (hno c), fun _ c hc => absurd hc (hno c), fun _ c hc => absurd hc (hno c), fun _ => hspare⟩

/-- With self-trade prevention on, no command of a run trades a client's orders with each
    other. -/
theorem self_trades_prevented {cfg : EngineConfig} {is : List Engine.Input} (h : Engine.run cfg is = some e)
    (hstp : cfg.stp ≠ .none) (hp : e.process now cmd = some e') : StpKept e e' cmd := by
  obtain ⟨a, hs, hcfg⟩ := run_simulates h
  refine hs.stp_kept ?_ hp
  rw [hs.refines.cfg, hcfg]
  exact hstp

theorem self_trades_prevented_one : ∃ e e' : Engine OrderBook,
    Engine.run { minPrice := 1, maxPrice := 500, maxOrders := 4, stp := .cancelResting }
      [.command 0 (.makeNew 1 7 .buy .limit 100 5 0)] = some e ∧
    e.process 0 (.makeNew 2 7 .sell .limit 100 3 0) = some e' ∧ StpKept e e' (.makeNew 2 7 .sell .limit 100 3 0) := by
  have key : (do
      let e ← Engine.run (B := OrderBook) { minPrice := 1, maxPrice := 500, maxOrders := 4, stp := .cancelResting }
        [.command 0 (.makeNew 1 7 .buy .limit 100 5 0)]
      e.process 0 (.makeNew 2 7 .sell .limit 100 3 0)).isSome = true := by decide +kernel
  obtain ⟨e', he'⟩ := Option.isSome_iff_exists.mp key
  obtain ⟨e, he, hp⟩ := Option.bind_eq_some_iff.mp he'
  exact ⟨e, e', he, hp, self_trades_prevented he (by decide) hp⟩

end Lob
