/-
  Lob.Engine.Deals — what a match does, order by order, and what it reports.

  `deals` is the reference matcher without the engine: one entry a resting order it deals
  with. `emits_refMatch` says that a match reports exactly its deals, `taken_eq` that they
  take the smaller of what is open and what self-trade prevention lets trade
  (`tradable`).
-/

import Lob.Engine.FlatProofs

namespace Lob

/-! ## Events, less their numbers -/

def Event.unnumbered (e : Event) : Event := { e with seq := 0, tsOut := 0 }

/-- `v'` is `v` with the events `es` reported. -/
def EngineVars.Emits (v v' : EngineVars) (es : List Event) : Prop :=
  v'.out.map Event.unnumbered = v.out.map Event.unnumbered ++ es

theorem emits_nil (v : EngineVars) : v.Emits v [] := (List.append_nil _).symm

theorem EngineVars.Emits.trans {v v' v'' : EngineVars} {es es' : List Event} (h : v.Emits v' es) (h' : v'.Emits v'' es') :
    v.Emits v'' (es ++ es') := by
  unfold EngineVars.Emits at *
  rw [h', h, List.append_assoc]

theorem emits_newEvent (v : EngineVars) (e : Event) : v.Emits (v.newEvent e) [e.unnumbered] := by
  unfold EngineVars.Emits EngineVars.newEvent
  rw [List.map_append]
  rfl

theorem emits_reject (v : EngineVars) (cmd : Command) (r : RejectReason) : v.Emits (v.emitReject cmd r) [.reject cmd r] :=
  emits_newEvent { v with stats := { v.stats with rejects := v.stats.rejects + 1 } } (.reject cmd r)

theorem emits_trade (v : EngineVars) (inc resting : OrderInfo) (traded : Quantity) :
    v.Emits (v.emitTrade inc resting traded)
      [.takerFill inc resting traded, .makerFill inc resting traded, .trade inc resting traded] :=
  ((emits_newEvent v (.takerFill inc resting traded)).trans (emits_newEvent _ (.makerFill inc resting traded))).trans
    (emits_newEvent _ (.trade inc resting traded))

/-! ## Counting events -/

/-- What the trades among the events add up to. -/
def volume (log : List Event) : Nat := ((log.filter fun ev => ev.type = .trade).map fun ev => ev.quantity.toNat).sum

def occurs (t : EventType) (log : List Event) : Nat := log.countP fun ev => ev.type = t

section

variable {t : EventType} {es es' : List Event}

@[simp] theorem volume_nil : volume [] = 0 := rfl
@[simp] theorem occurs_nil : occurs t [] = 0 := rfl

@[simp] theorem volume_append : volume (es ++ es') = volume es + volume es' := by
  unfold volume
  rw [List.filter_append, List.map_append, List.sum_append]

@[simp] theorem occurs_append : occurs t (es ++ es') = occurs t es + occurs t es' := List.countP_append ..

theorem volume_untimed (log : List Event) : volume (log.map Event.untimed) = volume log := by
  unfold volume
  rw [List.filter_map, List.map_map]
  rfl

theorem occurs_untimed (log : List Event) : occurs t (log.map Event.untimed) = occurs t log := by
  unfold occurs
  rw [List.countP_map]
  rfl

end

/-! ## Open sizes -/

namespace Flat

variable {L L' : List OrderInfo} {o : OrderInfo}

@[simp] theorem openSize_cons (o : OrderInfo) (L : List OrderInfo) : openSize (o :: L) = o.remaining.toNat + openSize L := by
  simp [openSize]

@[simp] theorem openSize_append (L L' : List OrderInfo) : openSize (L ++ L') = openSize L + openSize L' := by
  simp [openSize]

theorem openSize_perm (h : L.Perm L') : openSize L = openSize L' := (h.map _).sum_nat

theorem openSize_sublist (h : L'.Sublist L) : openSize L' ≤ openSize L := by
  induction h with
  | slnil => exact Nat.le_refl _
  | cons o _ ih => rw [openSize_cons]; omega
  | cons_cons o _ ih => rw [openSize_cons, openSize_cons]; omega

theorem openSize_shrinks (h : Shrinks L' L) : openSize L' ≤ openSize L := by
  obtain ⟨M, hs, hf⟩ := h
  refine Nat.le_trans ?_ (openSize_sublist hs)
  clear hs
  induction hf with
  | nil => exact Nat.le_refl _
  | cons hr _ ih =>
    have := UInt64.le_iff_toNat_le.mp hr.le
    rw [openSize_cons, openSize_cons]
    omega

theorem le_openSize (h : o ∈ L) : o.remaining.toNat ≤ openSize L := by
  obtain ⟨xs, ys, rfl⟩ := List.append_of_mem h
  rw [openSize_append, openSize_cons]
  omega

end Flat

/-! ## Deals -/

/-- What the matcher does with one resting order, both orders as they stood. -/
inductive Deal where
  | traded (inc resting : OrderInfo) (qty : Quantity)
  /-- The resting order is the client's own: pulled, and skipped. -/
  | pulled (inc resting : OrderInfo)
  /-- The resting order is the client's own: the incoming order stops. -/
  | stopped (inc : OrderInfo) (client : ClientId)

namespace Deal

def events : Deal → List Event
  | traded inc resting qty => [.takerFill inc resting qty, .makerFill inc resting qty, .trade inc resting qty]
  | pulled inc resting => [.stpResting inc resting]
  | stopped inc client => [.stpAggressor inc client]

/-- What the incoming order got. -/
def taken : Deal → Nat
  | traded _ _ qty => qty.toNat
  | _ => 0

end Deal

def deals (stp : StpMode) (client : ClientId) : OrderInfo → List OrderInfo → List Deal
  | _, [] => []
  | inc, o :: rest =>
    if inc.remaining = 0 ∨ reaches inc o = false then []
    else if stp ≠ .none ∧ o.client = client then
      if stp = .cancelAggressor then [.stopped inc client]
      else .pulled inc o :: deals stp client inc rest
    else
      let traded := min inc.remaining o.remaining
      .traded inc o traded :: deals stp client { inc with remaining := inc.remaining - traded } rest

/-- The open size self-trade prevention lets an order trade with, of those it reaches. -/
def tradable (stp : StpMode) (client : ClientId) (reach : OrderInfo → Bool) : List OrderInfo → Nat
  | [] => 0
  | o :: rest =>
    if reach o = false then 0
    else if stp ≠ .none ∧ o.client = client then
      if stp = .cancelAggressor then 0 else tradable stp client reach rest
    else o.remaining.toNat + tradable stp client reach rest

def taken (ds : List Deal) : Nat := (ds.map Deal.taken).sum

/-! ## A match reports its deals -/

theorem deals_of_zero (stp : StpMode) (client : ClientId) {inc : OrderInfo} (h : inc.remaining = 0) (L : List OrderInfo) :
    deals stp client inc L = [] := by
  cases L with
  | nil => rfl
  | cons o L => unfold deals; rw [if_pos (Or.inl h)]

variable {stp : StpMode} {client : ClientId}

theorem emits_refMatch (stp : StpMode) (client : ClientId) (v : EngineVars) (inc : OrderInfo) (filled : Quantity)
    (L : List OrderInfo) :
    v.Emits (refMatch stp client v inc filled L).vars ((deals stp client inc L).flatMap Deal.events) := by
  fun_induction refMatch stp client v inc filled L with
  | case1 v => exact emits_nil v
  | case2 v inc filled o rest h =>
    unfold deals
    rw [if_pos h]
    exact emits_nil v
  | case3 v inc filled o rest h hstp hagg =>
    unfold deals
    rw [if_neg h, if_pos hstp, if_pos hagg]
    exact emits_newEvent v (.stpAggressor inc client)
  | case4 v inc filled o rest h hstp hagg ih =>
    unfold deals
    rw [if_neg h, if_pos hstp, if_neg hagg]
    exact (emits_newEvent v (.stpResting inc o)).trans ih
  | case5 v inc filled o rest h hstp traded v' inc' hfull ih =>
    unfold deals
    rw [if_neg h, if_neg hstp]
    exact (emits_trade v inc o traded).trans ih
  | case6 v inc filled o rest h hstp traded v' inc' hne =>
    unfold deals
    rw [if_neg h, if_neg hstp]
    simp only
    rw [deals_of_zero stp client (show inc'.remaining = 0 from Quantity.sub_min_eq_zero hne)]
    exact emits_trade v inc o traded

/-! ## How much a match takes -/

theorem taken_cons (d : Deal) (ds : List Deal) : taken (d :: ds) = d.taken + taken ds := rfl

theorem taken_untraded : ∀ {ds : List Deal}, (∀ i o q, .traded i o q ∉ ds) → taken ds = 0 := by
  intro ds
  induction ds with
  | nil => intro _; rfl
  | cons d ds ih =>
    intro h
    rw [taken_cons, ih fun i o q hd => h i o q (List.mem_cons_of_mem _ hd)]
    cases d with
    | traded i o q => exact absurd (List.mem_cons_self ..) (h i o q)
    | pulled i o => rfl
    | stopped i c => rfl

/-- What is reached does not depend on how much of the order is open. -/
theorem reaches_remaining (inc : OrderInfo) (q : Quantity) : reaches { inc with remaining := q } = reaches inc := rfl

theorem taken_eq (stp : StpMode) (client : ClientId) (inc : OrderInfo) (L : List OrderInfo) :
    taken (deals stp client inc L) = min inc.remaining.toNat (tradable stp client (reaches inc) L) := by
  fun_induction deals stp client inc L with
  | case1 inc => simp [taken, tradable]
  | case2 inc o rest h =>
    rcases h with h | h
    · rw [h]; simp [taken]
    · simp [taken, tradable, h]
  | case3 inc o rest h hstp hagg =>
    have hr : reaches inc o ≠ false := fun e => h (Or.inr e)
    unfold tradable
    rw [if_neg hr, if_pos hstp, if_pos hagg]
    simp [taken, Deal.taken]
  | case4 inc o rest h hstp hagg ih =>
    have hr : reaches inc o ≠ false := fun e => h (Or.inr e)
    unfold tradable
    rw [if_neg hr, if_pos hstp, if_neg hagg, taken_cons, ih]
    simp [Deal.taken]
  | case5 inc o rest h hstp traded ih =>
    have hr : reaches inc o ≠ false := fun e => h (Or.inr e)
    unfold tradable
    rw [if_neg hr, if_neg hstp, taken_cons, ih, reaches_remaining]
    have ht : traded.toNat = min inc.remaining.toNat o.remaining.toNat := Quantity.toNat_min ..
    have hleft : (inc.remaining - traded).toNat = inc.remaining.toNat - o.remaining.toNat := Quantity.toNat_sub_min ..
    simp only [Deal.taken]
    rw [hleft, ht]
    omega

/-- What `match` returns. -/
theorem filled_eq (stp : StpMode) (client : ClientId) (v : EngineVars) (inc : OrderInfo) (filled : Quantity)
    (L : List OrderInfo) : (refMatch stp client v inc filled L).filled =
      filled + UInt64.ofNat (taken (deals stp client inc L)) := by
  fun_induction refMatch stp client v inc filled L with
  | case1 => simp [deals, taken]
  | case2 v inc filled o rest h => unfold deals; rw [if_pos h]; simp [taken]
  | case3 v inc filled o rest h hstp hagg =>
    unfold deals
    rw [if_neg h, if_pos hstp, if_pos hagg]
    simp [taken, Deal.taken]
  | case4 v inc filled o rest h hstp hagg ih =>
    unfold deals
    rw [if_neg h, if_pos hstp, if_neg hagg, taken_cons]
    simpa [Deal.taken, Matched.after] using ih
  | case5 v inc filled o rest h hstp traded v' inc' hfull ih =>
    unfold deals
    rw [if_neg h, if_neg hstp]
    refine ih.trans ?_
    simp only [taken_cons, Deal.taken]
    rw [UInt64.ofNat_add, UInt64.ofNat_toNat, UInt64.add_assoc]
  | case6 v inc filled o rest h hstp traded v' inc' hne =>
    unfold deals
    rw [if_neg h, if_neg hstp]
    simp only
    rw [deals_of_zero stp client (show inc'.remaining = 0 from Quantity.sub_min_eq_zero hne)]
    simp [taken, Deal.taken, traded]

/-- What is left of the order, unless self-trade prevention stopped it. -/
theorem left_eq (stp : StpMode) (client : ClientId) (v : EngineVars) (inc : OrderInfo) (filled : Quantity)
    (L : List OrderInfo) (hs : ∀ d ∈ deals stp client inc L, ∀ i c, d ≠ .stopped i c) :
    (refMatch stp client v inc filled L).inc.remaining.toNat + taken (deals stp client inc L) = inc.remaining.toNat := by
  fun_induction refMatch stp client v inc filled L with
  | case1 => simp [deals, taken]
  | case2 v inc filled o rest h => unfold deals; rw [if_pos h]; simp [taken]
  | case3 v inc filled o rest h hstp hagg =>
    unfold deals at hs
    rw [if_neg h, if_pos hstp, if_pos hagg] at hs
    exact absurd rfl (hs _ (by simp) inc client)
  | case4 v inc filled o rest h hstp hagg ih =>
    unfold deals at hs ⊢
    rw [if_neg h, if_pos hstp, if_neg hagg] at hs ⊢
    have := ih fun d hd => hs d (List.mem_cons_of_mem _ hd)
    rw [taken_cons]
    simpa [Deal.taken, Matched.after] using this
  | case5 v inc filled o rest h hstp traded v' inc' hfull ih =>
    unfold deals at hs ⊢
    rw [if_neg h, if_neg hstp] at hs ⊢
    have := ih fun d hd => hs d (List.mem_cons_of_mem _ hd)
    have ht : traded.toNat = min inc.remaining.toNat o.remaining.toNat := Quantity.toNat_min ..
    have hleft : inc'.remaining.toNat = inc.remaining.toNat - o.remaining.toNat := Quantity.toNat_sub_min ..
    simp only [taken_cons, Deal.taken, Matched.after]
    change _ + (traded.toNat + taken (deals stp client inc' rest)) = _
    omega
  | case6 v inc filled o rest h hstp traded v' inc' hne =>
    unfold deals
    rw [if_neg h, if_neg hstp]
    have h0 : inc'.remaining = 0 := Quantity.sub_min_eq_zero hne
    simp only
    rw [deals_of_zero stp client h0]
    have ht : traded.toNat = min inc.remaining.toNat o.remaining.toNat := Quantity.toNat_min ..
    have hleft : inc'.remaining.toNat = inc.remaining.toNat - o.remaining.toNat := Quantity.toNat_sub_min ..
    simp only [taken_cons, Deal.taken]
    change _ + (traded.toNat + 0) = _
    omega

/-! ## What an order's events add up to -/

/-- The quantities of the aggressor Fill events. -/
def aggressorFilled (es : List Event) : Nat :=
  ((es.filter fun ev => ev.type = .fill ∧ ev.aggressor = true).map fun ev => ev.quantity.toNat).sum

theorem aggressorFilled_append (es es' : List Event) :
    aggressorFilled (es ++ es') = aggressorFilled es + aggressorFilled es' := by
  unfold aggressorFilled
  rw [List.filter_append, List.map_append, List.sum_append]

theorem aggressorFilled_none {es : List Event} (h : ∀ ev ∈ es, ev.type ≠ .fill) : aggressorFilled es = 0 := by
  unfold aggressorFilled
  rw [List.filter_eq_nil_iff.mpr fun ev hev => by simp [h ev hev]]
  rfl

theorem aggressorFilled_unnumbered (es : List Event) :
    aggressorFilled (es.map Event.unnumbered) = aggressorFilled es := by
  unfold aggressorFilled
  rw [List.filter_map, List.map_map]
  rfl

/-- The aggressor is filled by what its deals take. -/
theorem aggressorFilled_deals (ds : List Deal) : aggressorFilled (ds.flatMap Deal.events) = taken ds := by
  induction ds with
  | nil => rfl
  | cons d ds ih =>
    rw [List.flatMap_cons, aggressorFilled_append, ih, taken_cons]
    cases d <;> rfl

/-! ## Why a match ends -/

theorem stopped_zero (stp : StpMode) (client : ClientId) (v : EngineVars) (inc : OrderInfo) (filled : Quantity)
    (L : List OrderInfo) (hs : ∃ i c, .stopped i c ∈ deals stp client inc L) :
    (refMatch stp client v inc filled L).inc.remaining = 0 := by
  obtain ⟨i, c, hs⟩ := hs
  fun_induction refMatch stp client v inc filled L with
  | case1 => cases hs
  | case2 v inc filled o rest h => unfold deals at hs; rw [if_pos h] at hs; cases hs
  | case3 => rfl
  | case4 v inc filled o rest h hstp hagg ih =>
    unfold deals at hs
    rw [if_neg h, if_pos hstp, if_neg hagg] at hs
    exact ih ((List.mem_cons.mp hs).resolve_left (by intro e; cases e))
  | case5 v inc filled o rest h hstp traded v' inc' hfull ih =>
    unfold deals at hs
    rw [if_neg h, if_neg hstp] at hs
    exact ih ((List.mem_cons.mp hs).resolve_left (by intro e; cases e))
  | case6 v inc filled o rest h hstp traded v' inc' hne => exact Quantity.sub_min_eq_zero hne

/-- Self-trade prevention stops an order that reaches one of its client's own with something
    left. -/
theorem stopped_iff (stp : StpMode) (client : ClientId) (inc : OrderInfo) (L : List OrderInfo) :
    (∃ i c, .stopped i c ∈ deals stp client inc L) ↔ stp = .cancelAggressor ∧
      tradable stp client (reaches inc) L < inc.remaining.toNat ∧ ∃ o ∈ L.takeWhile (reaches inc), o.client = client := by
  fun_induction deals stp client inc L with
  | case1 inc => simp
  | case2 inc o rest h =>
    rcases h with h | h
    · simp [h]
    · simp [h]
  | case3 inc o rest h hstp hagg =>
    have hr : reaches inc o = true := by simpa using fun e => h (Or.inr e)
    have hpos : 0 < inc.remaining.toNat := Nat.pos_of_ne_zero fun e => h (Or.inl (UInt64.toNat_inj.mp e))
    have ht : tradable stp client (reaches inc) (o :: rest) = 0 := by
      unfold tradable
      rw [if_neg (by simp [hr]), if_pos hstp, if_pos hagg]
    rw [ht, List.takeWhile_cons_of_pos hr]
    exact ⟨fun _ => ⟨hagg, hpos, o, by simp, hstp.2⟩, fun _ => ⟨inc, client, by simp⟩⟩
  | case4 inc o rest h hstp hagg ih =>
    constructor
    · intro ⟨i, c, hd⟩
      have hd := (List.mem_cons.mp hd).resolve_left nofun
      exact absurd (ih.mp ⟨i, c, hd⟩).1 hagg
    · intro h; exact absurd h.1 hagg
  | case5 inc o rest h hstp traded ih =>
    have hr : reaches inc o = true := by simpa using fun e => h (Or.inr e)
    have hcons : (∃ i c, Deal.stopped i c ∈ .traded inc o traded :: deals stp client
        { inc with remaining := inc.remaining - traded } rest) ↔
        ∃ i c, Deal.stopped i c ∈ deals stp client { inc with remaining := inc.remaining - traded } rest := by
      simp
    rw [hcons, ih, reaches_remaining, List.takeWhile_cons_of_pos hr]
    refine and_congr_right fun hagg => ?_
    have hown : o.client ≠ client := fun e => hstp ⟨by rw [hagg]; decide, e⟩
    have hsum : tradable stp client (reaches inc) (o :: rest) =
        o.remaining.toNat + tradable stp client (reaches inc) rest := by
      conv => lhs; unfold tradable
      rw [if_neg (by simp [hr]), if_neg hstp]
    have hleft : (inc.remaining - traded).toNat = inc.remaining.toNat - o.remaining.toNat := Quantity.toNat_sub_min ..
    refine and_congr ?_ ?_
    · rw [hsum]
      show _ < (inc.remaining - traded).toNat ↔ _
      rw [hleft]
      omega
    · simp [hown]

/-- An order stopped before it traded met one of its client's own first. -/
theorem stopped_first {inc : OrderInfo} {L : List OrderInfo} (hs : ∃ i c, .stopped i c ∈ deals stp client inc L)
    (hno : ∀ i o q, .traded i o q ∉ deals stp client inc L) :
    stp = .cancelAggressor ∧ ∃ o, L.head? = some o ∧ reaches inc o = true ∧ o.client = client := by
  obtain ⟨hagg, hlt, _⟩ := (stopped_iff stp client inc L).mp hs
  refine ⟨hagg, ?_⟩
  cases L with
  | nil => obtain ⟨i, c, hs⟩ := hs; cases hs
  | cons o rest =>
    unfold deals at hs hno
    split at hs
    · obtain ⟨i, c, hs⟩ := hs; cases hs
    rename_i h
    have hr : reaches inc o = true := by simpa using fun e => h (Or.inr e)
    by_cases hown : o.client = client
    · exact ⟨o, rfl, hr, hown⟩
    · rw [if_neg h, if_neg fun h => hown h.2] at hno
      exact absurd (List.mem_cons_self ..) (hno inc o (min inc.remaining o.remaining))

/-- An order that meets one of its client's own first is stopped at once. -/
theorem deals_stopped {inc o : OrderInfo} {L : List OrderInfo} (h0 : inc.remaining ≠ 0) (hL : L.head? = some o)
    (hr : reaches inc o = true) (hown : o.client = client) :
    deals .cancelAggressor client inc L = [.stopped inc client] := by
  cases L with
  | nil => cases hL
  | cons x rest =>
    obtain rfl : x = o := Option.some.inj hL
    unfold deals
    rw [if_neg (by simp [h0, hr]), if_pos ⟨by decide, hown⟩, if_pos rfl]

/-- What is pulled was there. -/
theorem pulled_mem {inc i o : OrderInfo} {L : List OrderInfo} (h : .pulled i o ∈ deals stp client inc L) : o ∈ L := by
  fun_induction deals stp client inc L with
  | case1 inc => cases h
  | case2 inc x rest hc => cases h
  | case3 inc x rest hc hstp hagg => exact absurd (List.mem_singleton.mp h) nofun
  | case4 inc x rest hc hstp hagg ih =>
    rcases List.mem_cons.mp h with h | h
    · cases h
      exact List.mem_cons_self ..
    · exact List.mem_cons_of_mem _ (ih h)
  | case5 inc x rest hc hstp traded ih =>
    exact List.mem_cons_of_mem _ (ih ((List.mem_cons.mp h).resolve_left nofun))

/-- A trade is with an order within reach, that self-trade prevention lets the order trade with. -/
theorem traded_inc {inc i o : OrderInfo} {q : Quantity} {L : List OrderInfo} (h : .traded i o q ∈ deals stp client inc L) :
    i = { inc with remaining := i.remaining } ∧ o ∈ L ∧ reaches inc o = true ∧ ¬ (stp ≠ .none ∧ o.client = client) := by
  fun_induction deals stp client inc L with
  | case1 inc => cases h
  | case2 inc x rest hc => cases h
  | case3 inc x rest hc hstp hagg => exact absurd (List.mem_singleton.mp h) Deal.noConfusion
  | case4 inc x rest hc hstp hagg ih =>
    obtain ⟨h1, h2, h3, h4⟩ := ih ((List.mem_cons.mp h).resolve_left Deal.noConfusion)
    exact ⟨h1, List.mem_cons_of_mem _ h2, h3, h4⟩
  | case5 inc x rest hc hstp traded ih =>
    rcases List.mem_cons.mp h with h | h
    · obtain ⟨rfl, rfl, _⟩ := Deal.traded.inj h
      exact ⟨rfl, List.mem_cons_self .., by simpa using fun e => hc (Or.inr e), hstp⟩
    · obtain ⟨h1, h2, h3, h4⟩ := ih h
      exact ⟨h1, List.mem_cons_of_mem _ h2, h3, h4⟩

/-- What stops an order is its client. -/
theorem stopped_inc {inc i : OrderInfo} {c : ClientId} {L : List OrderInfo} (h : .stopped i c ∈ deals stp client inc L) :
    i = { inc with remaining := i.remaining } ∧ c = client := by
  fun_induction deals stp client inc L with
  | case1 inc => cases h
  | case2 inc x rest hc => cases h
  | case3 inc x rest hc hstp hagg =>
    obtain ⟨rfl, rfl⟩ := Deal.stopped.inj (List.mem_singleton.mp h)
    exact ⟨rfl, rfl⟩
  | case4 inc x rest hc hstp hagg ih => exact ih ((List.mem_cons.mp h).resolve_left Deal.noConfusion)
  | case5 inc x rest hc hstp traded ih => exact ih ((List.mem_cons.mp h).resolve_left Deal.noConfusion)

/-- When something is left of the order. -/
theorem open_iff (stp : StpMode) (client : ClientId) (v : EngineVars) (inc : OrderInfo) (filled : Quantity)
    (L : List OrderInfo) : (refMatch stp client v inc filled L).inc.remaining ≠ 0 ↔
      tradable stp client (reaches inc) L < inc.remaining.toNat ∧
      ¬ (stp = .cancelAggressor ∧ ∃ o ∈ L.takeWhile (reaches inc), o.client = client) := by
  by_cases hs : ∃ i c, .stopped i c ∈ deals stp client inc L
  · have h0 := stopped_zero stp client v inc filled L hs
    obtain ⟨hagg, _, hown⟩ := (stopped_iff stp client inc L).mp hs
    exact ⟨fun h => absurd h0 h, fun h => absurd ⟨hagg, hown⟩ h.2⟩
  · have hleft := left_eq stp client v inc filled L fun d hd i c e => hs ⟨i, c, e ▸ hd⟩
    have htaken := taken_eq stp client inc L
    rw [stopped_iff] at hs
    have hne : (refMatch stp client v inc filled L).inc.remaining ≠ 0 ↔
        (refMatch stp client v inc filled L).inc.remaining.toNat ≠ 0 :=
      not_congr ⟨fun e => by rw [e]; rfl, fun e => UInt64.toNat_inj.mp e⟩
    rw [hne]
    constructor
    · intro h
      have hlt : tradable stp client (reaches inc) L < inc.remaining.toNat := by omega
      exact ⟨hlt, fun ⟨hagg, hown⟩ => hs ⟨hagg, hlt, hown⟩⟩
    · intro ⟨h, _⟩
      omega

/-- An order with something left has gone through every order it reaches. -/
theorem left_open (stp : StpMode) (client : ClientId) (v : EngineVars) (inc : OrderInfo) (filled : Quantity)
    (L : List OrderInfo) (h : (refMatch stp client v inc filled L).inc.remaining ≠ 0) :
    (refMatch stp client v inc filled L).left = L.dropWhile (reaches inc) := by
  fun_induction refMatch stp client v inc filled L with
  | case1 => rfl
  | case2 v inc filled o rest hc => rw [List.dropWhile_cons_of_neg (by simp [hc.resolve_left h])]
  | case3 => exact absurd rfl h
  | case4 v inc filled o rest hc _ _ ih =>
    rw [List.dropWhile_cons_of_pos (by simpa using fun e => hc (Or.inr e))]
    exact ih h
  | case5 v inc filled o rest hc _ traded v' inc' _ ih =>
    rw [List.dropWhile_cons_of_pos (by simpa using fun e => hc (Or.inr e))]
    exact ih h
  | case6 v inc filled o rest _ _ traded v' inc' hne => exact absurd (Quantity.sub_min_eq_zero hne) h

/-! ## Which orders come to rest -/

namespace FlatEngine

variable {a a' : FlatEngine} {cmd : Command} {fillable : Bool}

/-- The orders an order with something left stands beside. -/
theorem afterMatch_open (h0 : (a.matching cmd).inc.remaining ≠ 0) : (a.afterMatch cmd).orders.length =
    (a.side cmd.side).length + ((a.side (opposite cmd.side)).dropWhile (reaches (incomingOrder cmd 0))).length := by
  have hleft : (a.matching cmd).left = (a.side (opposite cmd.side)).dropWhile (reaches (incomingOrder cmd 0)) :=
    left_open _ _ _ _ _ _ h0
  rw [Flat.length_orders _ cmd.side, afterMatch_side, if_neg (by simp), afterMatch_side, if_pos rfl, hleft]

/-- An order comes to rest when it passes the checks, is of a kind that rests, outlasts what it
    may trade with, is not stopped for trading with itself, and finds a free slot. -/
theorem lands_some_iff : (∃ o, a.lands fillable cmd = some o) ↔
    a.refusal fillable cmd = none ∧ rests cmd.ordType = true ∧
    tradable a.cfg.stp cmd.client (reaches (incomingOrder cmd 0)) (a.side (opposite cmd.side)) < cmd.quantity.toNat ∧
    ¬ (a.cfg.stp = .cancelAggressor ∧
      ∃ o ∈ (a.side (opposite cmd.side)).takeWhile (reaches (incomingOrder cmd 0)), o.client = cmd.client) ∧
    (a.side cmd.side).length + ((a.side (opposite cmd.side)).dropWhile (reaches (incomingOrder cmd 0))).length <
      a.cfg.maxOrders := by
  have hopen : (a.matching cmd).inc.remaining ≠ 0 ↔ _ := open_iff a.cfg.stp cmd.client (a.accepted cmd)
    (incomingOrder cmd (a.arrival + 1)) 0 (a.side (opposite cmd.side))
  have hroom := @afterMatch_open a cmd
  unfold lands
  constructor
  · intro ⟨o, ho⟩
    split at ho
    · rename_i h
      obtain ⟨h1, h2⟩ := hopen.mp h.2.1
      exact ⟨h.1, h.2.2.1, h1, h2, by rw [← hroom h.2.1]; exact h.2.2.2⟩
    · cases ho
  · intro ⟨h1, h2, h3, h4, h5⟩
    have h0 := hopen.mpr ⟨h3, h4⟩
    exact ⟨_, if_pos ⟨h1, h0, h2, by rw [hroom h0]; exact h5⟩⟩

/-! ## What a command reports -/

/-- The deals of an accepted order. -/
def dealings (a : FlatEngine) (cmd : Command) : List Deal :=
  deals a.cfg.stp cmd.client (incomingOrder cmd (a.arrival + 1)) (a.side (opposite cmd.side))

theorem emits_match (a : FlatEngine) (cmd : Command) :
    a.Emits (a.afterMatch cmd).toEngineVars (.accept cmd (limitOf cmd) :: (a.dealings cmd).flatMap Deal.events) :=
  (emits_newEvent { a.toEngineVars with arrival := a.arrival + 1 } (.accept cmd (limitOf cmd))).trans
    (emits_refMatch _ _ (a.accepted cmd) _ _ _)

theorem emits_remainder (a : FlatEngine) (cmd : Command) (reason : RejectReason) :
    a.Emits ((a.afterMatch cmd).emitRemainder cmd (limitOf cmd) (a.matching cmd).inc.remaining reason)
      ((.accept cmd (limitOf cmd) :: (a.dealings cmd).flatMap Deal.events) ++
        [.remainder cmd (limitOf cmd) (a.matching cmd).inc.remaining reason]) :=
  (emits_match a cmd).trans (emits_newEvent _ (.remainder cmd (limitOf cmd) (a.matching cmd).inc.remaining reason))

/-- The events of an accepted order: its own, its deals', and at most one more for what is
    left of it. -/
theorem accepted_events (a : FlatEngine) (cmd : Command) : ∃ tail, a.Emits (a.handleAccepted cmd).toEngineVars
    ((.accept cmd (limitOf cmd) :: (a.dealings cmd).flatMap Deal.events) ++ tail) ∧
    ∀ ev ∈ tail, ∃ reason, ev = .remainder cmd (limitOf cmd) (a.matching cmd).inc.remaining reason := by
  have hs := accepted_settles a cmd
  generalize a.handleAccepted cmd = a' at hs ⊢
  cases hs with
  | filled done => exact ⟨[], by rw [List.append_nil]; exact emits_match a cmd, by simp⟩
  | rested open_ kind room => exact ⟨[], by rw [List.append_nil]; exact emits_match a cmd, by simp⟩
  | canceled reason open_ why =>
    exact ⟨_, emits_remainder a cmd reason, fun ev hev => ⟨reason, List.mem_singleton.mp hev⟩⟩

/-- No event of an accepted order rejects it. -/
theorem accepted_no_reject {es : List Event} (h : a.Emits (a.handleAccepted cmd).toEngineVars es) :
    ∀ ev ∈ es, ev.type ≠ .rejected := by
  obtain ⟨tail, he, ht⟩ := accepted_events a cmd
  obtain rfl := List.append_cancel_left (h.symm.trans he)
  intro ev hev
  rcases List.mem_append.mp hev with hev | hev
  · rcases List.mem_cons.mp hev with rfl | hev
    · nofun
    · obtain ⟨d, _, hd⟩ := List.mem_flatMap.mp hev
      cases d <;> simp only [Deal.events, List.mem_cons, List.not_mem_nil, or_false] at hd
      · rcases hd with rfl | rfl | rfl <;> nofun
      · rw [hd]; nofun
      · rw [hd]; nofun
  · obtain ⟨reason, rfl⟩ := ht ev hev
    nofun

theorem emits_finish (a : FlatEngine) (cmd : Command) :
    ∃ es, a.Emits (a.finish cmd).toEngineVars es ∧ ∀ ev ∈ es, ev.type = .bookChanged := by
  unfold finish
  simp only
  have key : ∀ b : FlatEngine, b.Emits (b.tickPeak b.size) [] := fun b => emits_nil b.toEngineVars
  split
  · unfold bookChanged EngineVars.emitBookChanged
    split
    · exact ⟨[], emits_nil a.toEngineVars, by simp⟩
    · refine ⟨_, emits_newEvent { a.toEngineVars with lastBid := a.top .buy, lastAsk := a.top .sell } (.bookChange ..), ?_⟩
      simp [Event.unnumbered, Event.bookChange]
  · exact ⟨[], key a, by simp⟩

/-- A command reports what its handler reports, and then perhaps that the book changed. -/
theorem process_out (a : FlatEngine) (fillable : Bool) (cmd : Command) {es : List Event}
    (h : (a.start 0 cmd).Emits ((a.withVars (a.start 0 cmd)).dispatch fillable cmd).toEngineVars es) :
    ∃ tail, (a.process fillable cmd).out.map Event.unnumbered = es ++ tail ∧ ∀ ev ∈ tail, ev.type = .bookChanged := by
  obtain ⟨tail, ht, hb⟩ := emits_finish ((a.withVars (a.start 0 cmd)).dispatch fillable cmd) cmd
  exact ⟨tail, h.trans ht, hb⟩

end FlatEngine

theorem out_unnumbered {v w : EngineVars} (h : v.untimed = w) :
    v.out.map Event.unnumbered = w.out.map Event.unnumbered := by
  rw [← h]
  unfold EngineVars.untimed
  rw [List.map_map]
  rfl

theorem mem_unnumbered {v w : EngineVars} (h : v.untimed = w) {es : List Event} (he : w.out.map Event.unnumbered = es)
    (t : EventType) : (∃ ev ∈ v.out, ev.type = t) ↔ ∃ ev ∈ es, ev.type = t := by
  rw [← he, ← out_unnumbered h]
  constructor
  · intro ⟨ev, hev, ht⟩
    exact ⟨_, List.mem_map_of_mem hev, ht⟩
  · intro ⟨ev, hev, ht⟩
    obtain ⟨ev', hev', rfl⟩ := List.mem_map.mp hev
    exact ⟨ev', hev', ht⟩

end Lob
