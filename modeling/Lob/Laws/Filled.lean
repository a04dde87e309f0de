/-
  Lob.Laws.Filled — what `filled()` counts.

  `fillsOf` adds up the Fill events of an order id, `sinceAccepted` are the events since the
  id was last accepted. Every order that enters keeps the two equal (`counted_accepted`):
  its own fills are what its deals took, and a resting order's what was taken of it. A size
  down where the order stands does not: it takes off `remaining` and leaves `quantity`, so
  `filled()` grows by what was given up (`resized_filled`).
-/

import Lob.Book.OrderBookProofs
import Lob.Engine.Entries
import Lob.Engine.Named

namespace Lob

/-! ## Fills -/

/-- The quantities of the Fill events of an order. -/
def fillsOf (id : OrderId) (es : List Event) : Nat :=
  ((es.filter fun ev => ev.type = .fill ∧ ev.orderId = id).map fun ev => ev.quantity.toNat).sum

/-- The events since the order was last accepted, the latest first. -/
def sinceAccepted (id : OrderId) (log : List Event) : List Event :=
  log.reverse.takeWhile fun ev => ¬ (ev.type = .accepted ∧ ev.orderId = id)

variable {id : OrderId} {log es : List Event} {ev : Event}

theorem fillsOf_append (id : OrderId) (es es' : List Event) : fillsOf id (es ++ es') = fillsOf id es + fillsOf id es' := by
  unfold fillsOf
  rw [List.filter_append, List.map_append, List.sum_append]

theorem fillsOf_none (h : ∀ ev ∈ es, ev.type = .fill → ev.orderId ≠ id) : fillsOf id es = 0 := by
  unfold fillsOf
  rw [List.filter_eq_nil_iff.mpr fun ev hev => by simpa using h ev hev]
  rfl

theorem fillsOf_reverse (id : OrderId) (es : List Event) : fillsOf id es.reverse = fillsOf id es := by
  unfold fillsOf
  exact (((List.reverse_perm es).filter _).map _).sum_nat

theorem fillsOf_unnumbered (id : OrderId) (es : List Event) : fillsOf id (es.map Event.unnumbered) = fillsOf id es := by
  unfold fillsOf
  rw [List.filter_map, List.map_map]
  rfl

theorem sinceAccepted_unnumbered (id : OrderId) (log : List Event) :
    sinceAccepted id (log.map Event.unnumbered) = (sinceAccepted id log).map Event.unnumbered := by
  unfold sinceAccepted
  rw [← List.map_reverse, List.takeWhile_map]
  rfl

/-- Events under which the order is not accepted add their fills. -/
theorem fills_later (h : ∀ ev ∈ es, ¬ (ev.type = .accepted ∧ ev.orderId = id)) :
    fillsOf id (sinceAccepted id (log ++ es)) = fillsOf id (sinceAccepted id log) + fillsOf id es := by
  unfold sinceAccepted
  rw [List.reverse_append, List.takeWhile_append_of_pos, fillsOf_append, fillsOf_reverse, Nat.add_comm]
  intro ev hev
  exact decide_eq_true (h ev (List.mem_reverse.mp hev))

/-- An order accepted anew has the fills that follow. -/
theorem fills_accepted (hev : ev.type = .accepted ∧ ev.orderId = id)
    (h : ∀ ev ∈ es, ¬ (ev.type = .accepted ∧ ev.orderId = id)) :
    fillsOf id (sinceAccepted id (log ++ ev :: es)) = fillsOf id es := by
  have hlast : sinceAccepted id (log ++ [ev]) = [] := by
    unfold sinceAccepted
    rw [List.reverse_append, List.reverse_singleton, List.singleton_append, List.takeWhile_cons_of_neg (by simpa using hev)]
  rw [List.append_cons, fills_later h, hlast]
  exact Nat.zero_add _

/-! ## The fills of a match -/

section

variable {stp : StpMode} {client : ClientId}

theorem fillsOf_traded (id : OrderId) (i o : OrderInfo) (q : Quantity) : fillsOf id (Deal.events (.traded i o q)) =
    (if i.id = id then q.toNat else 0) + (if o.id = id then q.toNat else 0) := by
  unfold fillsOf Deal.events Event.takerFill Event.makerFill Event.trade
  by_cases hi : i.id = id
  · by_cases ho : o.id = id
    · simp [hi, ho]
    · simp [hi, ho]
  · by_cases ho : o.id = id
    · simp [hi, ho]
    · simp [hi, ho]

theorem fillsOf_pulled (id : OrderId) (i o : OrderInfo) : fillsOf id (Deal.events (.pulled i o)) = 0 := rfl

/-- The fills of the incoming order are what its deals take. -/
theorem fillsOf_taker {inc : OrderInfo} {L : List OrderInfo} (h : ∀ o ∈ L, o.id ≠ inc.id) :
    fillsOf inc.id ((deals stp client inc L).flatMap Deal.events) = taken (deals stp client inc L) := by
  fun_induction deals stp client inc L with
  | case1 inc => rfl
  | case2 inc o rest hc => rfl
  | case3 inc o rest hc hstp hagg => rfl
  | case4 inc o rest hc hstp hagg ih =>
    rw [List.flatMap_cons, fillsOf_append, fillsOf_pulled, taken_cons, ih fun x hx => h x (List.mem_cons_of_mem _ hx)]
    rfl
  | case5 inc o rest hc hstp traded ih =>
    have ih := ih fun x hx => h x (List.mem_cons_of_mem _ hx)
    rw [List.flatMap_cons, fillsOf_append, fillsOf_traded, if_pos rfl, if_neg (h o (List.mem_cons_self ..)), taken_cons]
    exact congrArg (traded.toNat + 0 + ·) ih

/-- Whoever takes no part gets no fills. -/
theorem fillsOf_other {inc : OrderInfo} {L : List OrderInfo} (hid : inc.id ≠ id) (h : ∀ o ∈ L, o.id ≠ id) :
    fillsOf id ((deals stp client inc L).flatMap Deal.events) = 0 := by
  fun_induction deals stp client inc L with
  | case1 inc => rfl
  | case2 inc o rest hc => rfl
  | case3 inc o rest hc hstp hagg => rfl
  | case4 inc o rest hc hstp hagg ih =>
    rw [List.flatMap_cons, fillsOf_append, fillsOf_pulled, ih hid fun x hx => h x (List.mem_cons_of_mem _ hx)]
  | case5 inc o rest hc hstp traded ih =>
    rw [List.flatMap_cons, fillsOf_append, fillsOf_traded, if_neg hid, if_neg (h o (List.mem_cons_self ..)),
      ih hid fun x hx => h x (List.mem_cons_of_mem _ hx)]

/-- The fills of a resting order are what was taken of it. -/
theorem fillsOf_maker (stp : StpMode) (client : ClientId) (v : EngineVars) (inc : OrderInfo) (filled : Quantity)
    (L : List OrderInfo) (hids : (L.map (·.id)).Nodup) (hinc : ∀ o ∈ L, o.id ≠ inc.id) :
    ∀ x ∈ (refMatch stp client v inc filled L).left, ∃ o ∈ L, x = { o with remaining := x.remaining } ∧
      x.remaining.toNat + fillsOf x.id ((deals stp client inc L).flatMap Deal.events) = o.remaining.toNat := by
  fun_induction refMatch stp client v inc filled L with
  | case1 => intro x hx; cases hx
  | case2 v inc filled o rest hc =>
    intro x hx
    unfold deals
    rw [if_pos hc]
    exact ⟨x, hx, rfl, rfl⟩
  | case3 v inc filled o rest hc hstp hagg =>
    intro x hx
    unfold deals
    rw [if_neg hc, if_pos hstp, if_pos hagg]
    exact ⟨x, hx, rfl, rfl⟩
  | case4 v inc filled o rest hc hstp hagg ih =>
    rw [List.map_cons, List.nodup_cons] at hids
    intro x hx
    obtain ⟨o', ho', hx', hrem⟩ := ih hids.2 (fun y hy => hinc y (List.mem_cons_of_mem _ hy)) x hx
    unfold deals
    rw [if_neg hc, if_pos hstp, if_neg hagg, List.flatMap_cons, fillsOf_append, fillsOf_pulled, Nat.zero_add]
    exact ⟨o', List.mem_cons_of_mem _ ho', hx', hrem⟩
  | case5 v inc filled o rest hc hstp traded v' inc' hfull ih =>
    rw [List.map_cons, List.nodup_cons] at hids
    intro x hx
    obtain ⟨o', ho', hx', hrem⟩ := ih hids.2 (fun y hy => hinc y (List.mem_cons_of_mem _ hy)) x hx
    have hid : x.id = o'.id := by rw [hx']
    have hne : o.id ≠ x.id := fun e => hids.1 (List.mem_map.mpr ⟨o', ho', hid.symm.trans e.symm⟩)
    have hnot : inc.id ≠ x.id := fun e => hinc o' (List.mem_cons_of_mem _ ho') (hid.symm.trans e.symm)
    unfold deals
    rw [if_neg hc, if_neg hstp, List.flatMap_cons, fillsOf_append, fillsOf_traded, if_neg hne, if_neg hnot, Nat.zero_add]
    exact ⟨o', List.mem_cons_of_mem _ ho', hx', hrem⟩
  | case6 v inc filled o rest hc hstp traded v' inc' hpart =>
    rw [List.map_cons, List.nodup_cons] at hids
    intro x hx
    have h0 : inc'.remaining = 0 := Quantity.sub_min_eq_zero hpart
    unfold deals
    rw [if_neg hc, if_neg hstp]
    simp only
    rw [deals_of_zero stp client h0, List.flatMap_cons, List.flatMap_nil, List.append_nil, fillsOf_traded]
    rcases List.mem_cons.mp hx with rfl | hx
    · -- the order the match ended on
      have hle : traded.toNat ≤ o.remaining.toNat := UInt64.le_iff_toNat_le.mp (Quantity.min_le_right _ _)
      refine ⟨o, List.mem_cons_self .., rfl, ?_⟩
      rw [if_neg (hinc o (List.mem_cons_self ..)).symm, if_pos rfl]
      have hsub : (o.remaining - traded).toNat = o.remaining.toNat - traded.toNat :=
        UInt64.toNat_sub_of_le _ _ (Quantity.min_le_right _ _)
      show (o.remaining - traded).toNat + (0 + traded.toNat) = _
      omega
    · refine ⟨x, List.mem_cons_of_mem _ hx, rfl, ?_⟩
      rw [if_neg (hinc x (List.mem_cons_of_mem _ hx)).symm, if_neg fun e => hids.1 (List.mem_map.mpr ⟨x, hx, e.symm⟩)]
      rfl

end

/-! ## A command, counted -/

/-- The quantity of every order is what is open and what was filled since it was accepted. -/
def Counted (L : List OrderInfo) (log : List Event) : Prop :=
  ∀ o ∈ L, o.quantity.toNat = o.remaining.toNat + fillsOf o.id (sinceAccepted o.id log)

theorem counted_unnumbered {L : List OrderInfo} : Counted L (log.map Event.unnumbered) ↔ Counted L log := by
  unfold Counted
  simp only [sinceAccepted_unnumbered, fillsOf_unnumbered]

/-- Events of neither kind leave every count. -/
theorem Counted.quiet {L L' : List OrderInfo} (h : Counted L log) (hes : ∀ ev ∈ es, ev.type ≠ .fill ∧ ev.type ≠ .accepted)
    (hL : ∀ o ∈ L', o ∈ L) : Counted L' (log ++ es) := by
  intro o ho
  rw [fills_later fun ev hev hacc => (hes ev hev).2 hacc.1, fillsOf_none fun ev hev ht => absurd ht (hes ev hev).1]
  exact h o (hL o ho)

namespace FlatEngine

variable {a b : FlatEngine} {c cmd : Command} {fillable : Bool}

theorem dealings_unaccepted (b : FlatEngine) (c : Command) : ∀ ev ∈ (b.dealings c).flatMap Deal.events, ev.type ≠ .accepted := by
  intro ev hev
  obtain ⟨d, _, hd⟩ := List.mem_flatMap.mp hev
  cases d with
  | traded i o q =>
    simp only [Deal.events, List.mem_cons, List.not_mem_nil, or_false] at hd
    rcases hd with rfl | rfl | rfl
    · exact EventType.noConfusion
    · exact EventType.noConfusion
    · exact EventType.noConfusion
  | pulled i o => rw [List.mem_singleton.mp hd]; exact EventType.noConfusion
  | stopped i x => rw [List.mem_singleton.mp hd]; exact EventType.noConfusion

/-- The fills of an order, once another or itself is accepted and matched. -/
theorem fills_reports {tail : List Event} (htail : ∀ ev ∈ tail, ev.type = .bookChanged) (id : OrderId) :
    fillsOf id (sinceAccepted id (log ++ (b.reports c ++ tail))) =
      (if c.id = id then 0 else fillsOf id (sinceAccepted id log)) + fillsOf id ((b.dealings c).flatMap Deal.events) := by
  have hrest : ∀ ev ∈ b.leftover c ++ tail, ev.type ≠ .fill ∧ ev.type ≠ .accepted := by
    intro ev hev
    rcases List.mem_append.mp hev with hev | hev
    · obtain ⟨reason, _, rfl⟩ := mem_leftover hev
      exact ⟨EventType.noConfusion, EventType.noConfusion⟩
    · rw [htail ev hev]
      exact ⟨EventType.noConfusion, EventType.noConfusion⟩
  have hfills : fillsOf id ((b.dealings c).flatMap Deal.events ++ (b.leftover c ++ tail)) =
      fillsOf id ((b.dealings c).flatMap Deal.events) := by
    have hnone : fillsOf id (b.leftover c ++ tail) = 0 := fillsOf_none fun ev hev ht => absurd ht (hrest ev hev).1
    rw [fillsOf_append, hnone, Nat.add_zero]
  have hno : ∀ ev ∈ (b.dealings c).flatMap Deal.events ++ (b.leftover c ++ tail), ¬ (ev.type = .accepted ∧ ev.orderId = id) := by
    intro ev hev hacc
    rcases List.mem_append.mp hev with hev | hev
    · exact dealings_unaccepted b c ev hev hacc.1
    · exact (hrest ev hev).2 hacc.1
  unfold reports
  rw [List.append_assoc, List.cons_append]
  by_cases hid : c.id = id
  · rw [fills_accepted ⟨rfl, hid⟩ hno, hfills, if_pos hid, Nat.zero_add]
  · have hnone : fillsOf id [.accept c (limitOf c)] = 0 := rfl
    rw [fills_later, ← List.singleton_append, fillsOf_append, hfills, hnone, if_neg hid, Nat.zero_add]
    · intro ev hev hacc
      rcases List.mem_cons.mp hev with rfl | hev
      · exact hid hacc.2
      · exact hno ev hev hacc

/-- An order that enters, under an id of its own, keeps every count. -/
theorem counted_accepted (hids : (b.orders.map (·.id)).Nodup) (hfresh : ∀ o ∈ b.orders, o.id ≠ c.id)
    (h : Counted b.orders log) {tail : List Event} (htail : ∀ ev ∈ tail, ev.type = .bookChanged) :
    Counted (b.handleAccepted c).orders (log ++ (b.reports c ++ tail)) := by
  have hperm := orders_perm b.toFlat c.side
  have hnodup := (hperm.map (·.id)).nodup_iff.mp hids
  rw [List.map_append, List.nodup_append] at hnodup
  obtain ⟨_, hfacing, hapart⟩ := hnodup
  have hmem : ∀ {s o}, o ∈ b.side s → o ∈ b.orders := fun ho => Flat.mem_orders.mpr ⟨_, ho⟩
  have hinc : ∀ o ∈ b.side (opposite c.side), o.id ≠ c.id := fun o ho => hfresh o (hmem ho)
  have hbeside : ∀ o ∈ b.side c.side, o.quantity.toNat =
      o.remaining.toNat + fillsOf o.id (sinceAccepted o.id (log ++ (b.reports c ++ tail))) := by
    intro o ho
    have hother : fillsOf o.id ((b.dealings c).flatMap Deal.events) = 0 :=
      @fillsOf_other _ b.cfg.stp c.client (incomingOrder c (b.arrival + 1)) _ (hfresh o (hmem ho)).symm fun x hx e =>
        hapart _ (List.mem_map_of_mem ho) _ (List.mem_map_of_mem hx) e.symm
    rw [fills_reports htail, if_neg (hfresh o (hmem ho)).symm, hother]
    exact h o (hmem ho)
  intro o ho
  rcases List.mem_append.mp ((orders_perm (b.handleAccepted c).toFlat c.side).mem_iff.mp ho) with ho | ho
  · rcases accepted_own b c with ⟨hown, _⟩ | ⟨hopen, _, hown⟩
    · rw [hown] at ho
      exact hbeside o ho
    · rw [hown] at ho
      rcases List.mem_cons.mp ((Flat.enqueue_perm _ _).mem_iff.mp ho) with rfl | ho
      · -- the order that entered
        have hstop : ¬ ∃ i x, .stopped i x ∈ b.dealings c := fun hs => hopen (stopped_zero _ _ _ _ _ _ hs)
        obtain ⟨hleft, hle⟩ := remaining_eq hstop
        have htaken : fillsOf c.id ((b.dealings c).flatMap Deal.events) = taken (b.dealings c) :=
          @fillsOf_taker b.cfg.stp c.client (incomingOrder c (b.arrival + 1)) _ hinc
        have hid : (b.matching c).inc.id = c.id := by rw [matching_inc]; rfl
        have hq : (b.matching c).inc.quantity = c.quantity := by rw [matching_inc]; rfl
        rw [hid, fills_reports htail, if_pos rfl, htaken, hleft, hq]
        omega
      · exact hbeside o ho
  · rw [accepted_facing] at ho
    obtain ⟨x, hx, hox, hrem⟩ : ∃ x ∈ b.side (opposite c.side), o = { x with remaining := o.remaining } ∧
        o.remaining.toNat + fillsOf o.id ((b.dealings c).flatMap Deal.events) = x.remaining.toNat :=
      fillsOf_maker b.cfg.stp c.client (b.accepted c) (incomingOrder c (b.arrival + 1)) 0 _ hfacing hinc o ho
    have hid : o.id = x.id := by rw [hox]
    have hq : o.quantity = x.quantity := by rw [hox]
    have hold := h x (hmem hx)
    rw [← hid] at hold
    rw [fills_reports htail, if_neg fun e => hinc x hx (hid.symm.trans e.symm), hq]
    omega

/-- A size down of an order where it stands. -/
def Resizes (a : FlatEngine) (cmd : Command) : Prop :=
  cmd.type = .modify ∧ cmd.quantity ≠ 0 ∧ ∃ o, a.find cmd.id = some o ∧ keepsPlace cmd o

theorem mem_swap {o : OrderInfo} (hi : a.Inv) (hf : a.find cmd.id = some o) (o' : OrderInfo) : o' ∈ (a.swap o o').orders :=
  (Flat.swap_perm (hi.mem_side (Flat.find_some hf).2.1) o').mem_iff.mpr (List.mem_cons_self ..)

theorem one_quiet {tail : List Event} (hev : ev.type ≠ .fill ∧ ev.type ≠ .accepted) (htail : ∀ ev ∈ tail, ev.type = .bookChanged) :
    ∀ x ∈ [ev] ++ tail, x.type ≠ .fill ∧ x.type ≠ .accepted := by
  intro x hx
  rcases List.mem_cons.mp hx with rfl | hx
  · exact hev
  · rw [htail x hx]
    exact ⟨EventType.noConfusion, EventType.noConfusion⟩

/-- Any command but a size down keeps every count. -/
theorem dispatch_counted (hi : a.Inv) (hids : (a.orders.map (·.id)).Nodup)
    (hfresh : ∀ b c, a.Enters fillable cmd b c → ∀ o ∈ b.orders, o.id ≠ c.id) (h : Counted a.orders log) (hr : ¬ a.Resizes cmd) :
    ∃ es, a.Emits (a.dispatch fillable cmd).toEngineVars es ∧ ∀ tail : List Event, (∀ ev ∈ tail, ev.type = .bookChanged) →
      Counted (a.dispatch fillable cmd).orders (log ++ (es ++ tail)) := by
  have hdrop : ∀ o, a.find cmd.id = some o → ∀ x ∈ (a.drop o).orders, x ∈ a.orders := fun o hf x hx =>
    (Flat.drop_perm (hi.mem_side (Flat.find_some hf).2.1)).mem_iff.mpr (List.mem_cons_of_mem _ hx)
  have ho := dispatch_outcome a fillable cmd
  generalize a.dispatch fillable cmd = a' at ho ⊢
  cases ho with
  | refused r why =>
    exact ⟨_, emits_reject _ cmd r, fun tail ht =>
      h.quiet (one_quiet ⟨EventType.noConfusion, EventType.noConfusion⟩ ht) fun o ho => ho⟩
  | admitted type live passes =>
    exact ⟨_, emits_accepted a cmd, fun tail ht => counted_accepted hids (hfresh a cmd (.new type live passes)) h ht⟩
  | canceled o found why =>
    exact ⟨_, emits_newEvent _ (.cancel o cmd.tsRecv), fun tail ht =>
      h.quiet (one_quiet ⟨EventType.noConfusion, EventType.noConfusion⟩ ht) (hdrop o found)⟩
  | replaced o found type sized keeps => exact absurd ⟨type, sized, o, found, keeps⟩ hr
  | requeued o found type sized moves passes =>
    have hin : a.Enters fillable cmd (a.withFlat (a.drop o)) (replacement cmd o) := .again o found type sized moves passes
    refine ⟨_, emits_accepted (a.withFlat (a.drop o)) (replacement cmd o), fun tail ht => ?_⟩
    refine counted_accepted ?_ (hfresh _ _ hin) (fun x hx => h x (hdrop o found x hx)) ht
    exact ((Flat.shrinks_orders (drop_sides a o)).map _ fun _ _ hr => hr.id_eq).nodup hids
  | lost o found type sized moves r refusal =>
    exact ⟨_, emits_reject _ (replacement cmd o) r, fun tail ht =>
      h.quiet (one_quiet ⟨EventType.noConfusion, EventType.noConfusion⟩ ht) (hdrop o found)⟩

/-- A size down breaks the count of its order: less of it is open, and no more of it filled. -/
theorem resized_uncounted (hi : a.Inv) (h : Counted a.orders log) (hr : a.Resizes cmd) :
    ∃ es, a.Emits (a.dispatch fillable cmd).toEngineVars es ∧ ∀ tail : List Event, (∀ ev ∈ tail, ev.type = .bookChanged) →
      ¬ Counted (a.dispatch fillable cmd).orders (log ++ (es ++ tail)) := by
  obtain ⟨type, sized, o, found, keeps⟩ := hr
  rw [dispatch_modify type, handleModify_keep found sized keeps]
  refine ⟨_, emits_newEvent _ (.replace { o with remaining := cmd.quantity } cmd.quantity cmd.tsRecv), fun tail ht hcount => ?_⟩
  have hquiet : ∀ x ∈ [(Event.replace { o with remaining := cmd.quantity } cmd.quantity cmd.tsRecv).unnumbered] ++ tail,
      x.type ≠ .fill ∧ x.type ≠ .accepted := one_quiet ⟨EventType.noConfusion, EventType.noConfusion⟩ ht
  have hnew := hcount _ (mem_swap hi found { o with remaining := cmd.quantity })
  rw [fills_later fun ev hev hacc => (hquiet ev hev).2 hacc.1, fillsOf_none fun ev hev ht => absurd ht (hquiet ev hev).1] at hnew
  have hold := h o (Flat.find_some found).2.1
  have hlt := UInt64.lt_iff_toNat_lt.mp keeps.2
  simp only at hnew
  omega

/-- No id comes to be on two orders. -/
theorem dispatch_ids (hids : (a.orders.map (·.id)).Nodup)
    (hfresh : ∀ b c, a.Enters fillable cmd b c → ∀ o ∈ b.orders, o.id ≠ c.id) :
    ((a.dispatch fillable cmd).orders.map (·.id)).Nodup := by
  have hshrink : ∀ {f : Flat}, (∀ s, Shrinks (f.side s) (a.side s)) → (f.orders.map (·.id)).Nodup := fun hs =>
    ((Flat.shrinks_orders hs).map _ fun _ _ hr => hr.id_eq).nodup hids
  rcases lands_or_shrinks a fillable cmd with ⟨b, c, o, hin, hl, hd⟩ | ⟨_, hs⟩
  · have hmatch := matching_shrinks b c
    rw [hd]
    show (((b.afterMatch c).place o).orders.map (·.id)).Nodup
    rw [((Flat.place_perm (b.afterMatch c).toFlat o).map _).nodup_iff, List.map_cons, List.nodup_cons]
    refine ⟨fun hm => ?_, hshrink fun s => (hmatch s).trans (hin.sides s)⟩
    obtain ⟨x, hx, e⟩ := List.mem_map.mp hm
    obtain ⟨y, hy, hr⟩ := (Flat.shrinks_orders hmatch).mem hx
    have hid : o.id = c.id := by rw [hl.order]; rfl
    exact hfresh b c hin y hy (hr.id_eq.symm.trans (e.trans hid))
  · exact hshrink hs

end FlatEngine

/-! ## Runs, counted -/

section

variable {B : Type} [Book B] [LawfulBook B]

namespace Engine

/-- `filled()` of every resting order is what its Fill events since it was accepted add up to. -/
def Counts (e : Engine B) (log : List Event) : Prop :=
  ∀ s, ∀ o ∈ e.queued s, o.filled.toNat = fillsOf o.id (sinceAccepted o.id log)

/-- `cmd` makes a resting order smaller where it stands. -/
def Resizes (e : Engine B) (cmd : Command) : Prop :=
  cmd.type = .modify ∧ cmd.quantity ≠ 0 ∧ ∃ p, e.find cmd.id = some (some p) ∧
    FlatEngine.keepsPlace cmd (e.order p).toOrderInfo

/-- The order `cmd` names keeps its `filled()`, and its quantity is `cmd`'s and that together. -/
def KeepsFilled (e e' : Engine B) (cmd : Command) : Prop :=
  ∀ s, ∀ o ∈ e.queued s, o.id = cmd.id →
    ∃ o' ∈ e'.queued s, o'.id = o.id ∧ o'.filled = o.filled ∧ o'.quantity = cmd.quantity + o'.filled

/-- `cmd` sends in an order under the id of one that rests. -/
def Doubles (e : Engine B) (cmd : Command) : Prop :=
  ∃ c, e.Enters cmd c ∧ ∃ s, ∃ o ∈ e.standing cmd s, o.id = c.id

end Engine

end

variable {B : Type} [Book B] [LawfulBook B] {e e' : Engine B} {a : FlatEngine} {cmd : Command} {now : TsNanos} {cfg : EngineConfig}

theorem Simulates.counts_iff (h : Simulates e a) : e.Counts log ↔ Counted a.orders log := by
  have hle : ∀ o ∈ a.orders, o.filled.toNat = o.quantity.toNat - o.remaining.toNat ∧ o.remaining.toNat ≤ o.quantity.toNat :=
    fun o ho => ⟨UInt64.toNat_sub_of_le _ _ (h.inv.opened o ho).2, UInt64.le_iff_toNat_le.mp (h.inv.opened o ho).2⟩
  unfold Engine.Counts Counted
  constructor
  · intro hc o ho
    obtain ⟨s, hs⟩ := Flat.mem_orders.mp ho
    have hcount := hc s o (by rw [h.refines.queued]; exact hs)
    have := hle o ho
    omega
  · intro hc s o ho
    rw [h.refines.queued] at ho
    have ho := Flat.mem_orders.mpr ⟨s, ho⟩
    have hcount := hc o ho
    have := hle o ho
    omega

theorem Simulates.resizes_iff (h : Simulates e a) (cmd : Command) : e.Resizes cmd ↔ a.Resizes cmd := by
  obtain ⟨r, hfind, hflat⟩ := h.refines.find_eq cmd.id
  unfold Engine.Resizes FlatEngine.Resizes
  constructor
  · intro ⟨ht, h0, p, hp, hk⟩
    rw [hfind] at hp
    cases hp
    exact ⟨ht, h0, _, hflat, hk⟩
  · intro ⟨ht, h0, o, ho, hk⟩
    rw [ho] at hflat
    obtain ⟨p, rfl, rfl⟩ := Option.map_eq_some_iff.mp hflat.symm
    exact ⟨ht, h0, p, hfind, hk⟩

theorem Simulates.fresh (h : Simulates e a) (hd : ¬ e.Doubles cmd) :
    ∀ b c, (a.withVars (a.start 0 cmd)).Enters (e.fillable cmd) cmd b c → ∀ o ∈ b.orders, o.id ≠ c.id := by
  intro b c hin o ho hid
  obtain ⟨s, hs⟩ := Flat.mem_orders.mp ho
  have hstanding : e.standing cmd s = b.side s := (h.start 0 cmd).standing_eq hin s
  exact hd ⟨c, (h.enters_process cmd c).mpr ⟨b, hin⟩, s, o, hstanding ▸ hs, hid⟩

/-- Only id 0 is ever on two orders. -/
theorem Simulates.not_doubles (h : Simulates e a) (hc : ¬ cmd.Nameless) : ¬ e.Doubles cmd := by
  intro ⟨c, hin, s, o, ho, hid⟩
  obtain ⟨b, hb⟩ := (h.enters_process cmd c).mp hin
  have hstanding : e.standing cmd s = b.side s := (h.start 0 cmd).standing_eq hb s
  rw [hstanding] at ho
  have hzero := Flat.find_none hb.passes.fresh o (Flat.mem_orders.mpr ⟨s, ho⟩) hid
  cases hb with
  | new type live passes => exact hc ⟨type, hzero⟩
  | again o' found type sized moves passes => exact (Flat.find_some found).1 hzero

/-- One command keeps every count, unless it is a size down of an order where it stands. -/
theorem Simulates.counts_process (h : Simulates e a) (hids : (a.orders.map (·.id)).Nodup) (hd : ¬ e.Doubles cmd)
    (hc : e.Counts log) (hp : e.process now cmd = some e') : e'.Counts (log ++ e'.out) ↔ ¬ e.Resizes cmd := by
  have hs' := (process_refines h now cmd).2 e' hp
  have hflat := (FlatEngine.process_eq a (e.fillable cmd) cmd).1
  have hcount := counted_unnumbered.mpr (h.counts_iff.mp hc)
  have hstart : (a.withVars (a.start 0 cmd)).Resizes cmd ↔ a.Resizes cmd := Iff.rfl
  rw [hs'.counts_iff, ← counted_unnumbered, List.map_append, hflat, h.resizes_iff]
  constructor
  · intro hafter hr
    obtain ⟨es, hem, hbroken⟩ := @FlatEngine.resized_uncounted _ (a.withVars (a.start 0 cmd)) cmd (e.fillable cmd) h.inv
      hcount (hstart.mpr hr)
    obtain ⟨tail, hout, htail⟩ := h.out_eq hp hem
    rw [hout] at hafter
    exact hbroken tail htail hafter
  · intro hr
    obtain ⟨es, hem, hkept⟩ := @FlatEngine.dispatch_counted _ (a.withVars (a.start 0 cmd)) cmd (e.fillable cmd) h.inv hids
      (h.fresh hd) hcount (mt hstart.mp hr)
    obtain ⟨tail, hout, htail⟩ := h.out_eq hp hem
    rw [hout]
    exact hkept tail htail

/-- A size down leaves the quantity, so that `filled()` grows by what is given up. -/
theorem Simulates.resized_filled (h : Simulates e a) (hp : e.process now cmd = some e') (hr : e.Resizes cmd) :
    ∃ s, ∃ o ∈ e.queued s, o.id = cmd.id ∧ cmd.quantity < o.remaining ∧ ∀ o' ∈ e'.queued s, o'.id = o.id →
      o'.quantity = o.quantity ∧ o'.filled.toNat = o.filled.toNat + (o.remaining.toNat - cmd.quantity.toNat) := by
  have hs' := (process_refines h now cmd).2 e' hp
  have hflat := (FlatEngine.process_eq a (e.fillable cmd) cmd).1
  obtain ⟨type, sized, o, found, keeps⟩ := (h.resizes_iff cmd).mp hr
  obtain ⟨hid0, hmem, hid⟩ := Flat.find_some found
  have hside := h.inv.mem_side hmem
  have hd : ((a.withVars (a.start 0 cmd)).dispatch (e.fillable cmd) cmd).toFlat = a.swap o { o with remaining := cmd.quantity } := by
    rw [FlatEngine.dispatch_modify type, FlatEngine.handleModify_keep (a := a.withVars (a.start 0 cmd)) found sized keeps]
    rfl
  have hnew : ({ o with remaining := cmd.quantity } : OrderInfo) ∈ (a.process (e.fillable cmd) cmd).orders := by
    rw [hflat, hd]
    exact FlatEngine.mem_swap h.inv found _
  refine ⟨o.side, o, by rw [h.refines.queued]; exact hside, hid, keeps.2, fun x hx hxid => ?_⟩
  rw [hs'.refines.queued] at hx
  have h0 : o.id ≠ 0 := hid ▸ hid0
  -- the id is on one order only
  have hfind := hs'.inv.find_mem hnew h0
  have hx' := hs'.inv.find_mem (Flat.mem_orders.mpr ⟨_, hx⟩) (hxid ▸ h0)
  rw [hxid] at hx'
  obtain rfl := Option.some.inj (hfind.symm.trans hx')
  have hle := (h.inv.opened o hmem).2
  have hlt := UInt64.lt_iff_toNat_lt.mp keeps.2
  have hbefore : o.filled.toNat = o.quantity.toNat - o.remaining.toNat := UInt64.toNat_sub_of_le _ _ hle
  have hafter : (o.quantity - cmd.quantity).toNat = o.quantity.toNat - cmd.quantity.toNat :=
    UInt64.toNat_sub_of_le _ _ (UInt64.le_trans (UInt64.le_of_lt keeps.2) hle)
  have hle := UInt64.le_iff_toNat_le.mp hle
  refine ⟨rfl, ?_⟩
  show (o.quantity - cmd.quantity).toNat = _
  omega

/-- No size down keeps what the order has filled. -/
theorem Simulates.keeps_filled_iff (h : Simulates e a) (hp : e.process now cmd = some e') :
    (e.Resizes cmd → e.KeepsFilled e' cmd) ↔ ¬ e.Resizes cmd := by
  refine ⟨fun hk hr => ?_, fun hr hr' => absurd hr' hr⟩
  obtain ⟨s, o, ho, hid, hlt, hall⟩ := h.resized_filled hp hr
  obtain ⟨o', ho', hid', hfilled, _⟩ := hk hr s o ho hid
  obtain ⟨_, hgrown⟩ := hall o' ho' hid'
  have hlt := UInt64.lt_iff_toNat_lt.mp hlt
  rw [hfilled] at hgrown
  omega

/-- Along a run in which no order is sent in under the id of one that rests, `filled()` is the
    fills since acceptance in every state exactly when no command makes an order smaller where
    it stands; and when one does, `filled()` is not kept. -/
theorem filled_counts_iff {e0 : Engine B} {is : List Engine.Input} (h0 : Engine.init cfg = some e0)
    (hs : e0.steps is = some e) (hd : e0.Meets (fun e cmd => ¬ e.Doubles cmd) is) :
    ((∀ pre e1, pre <+: is → e0.steps pre = some e1 → e1.Counts (e0.emitted pre)) ↔
      e0.Meets (fun e cmd => ¬ e.Resizes cmd) is) ∧
    ((∀ pre now cmd e1 e2, pre ++ [.command now cmd] <+: is → e0.steps pre = some e1 → e1.process now cmd = some e2 →
      e1.Resizes cmd → e1.KeepsFilled e2 cmd) ↔ e0.Meets (fun e cmd => ¬ e.Resizes cmd) is) := by
  have hinit := init_simulates h0
  have hstart : e0.Counts [] := hinit.counts_iff.mpr fun o ho => by cases ho
  constructor
  · refine @meets_emitted_iff _ _ _ Engine.Counts _ (fun e cmd => ¬ e.Doubles cmd) (fun a => (a.orders.map (·.id)).Nodup)
      ?_ ?_ ?_ (fun e b log hc => hc) is e0 e _ [] hd hinit List.nodup_nil hstart hs
    · intro e e' a now cmd log hd h hids hc hp
      exact h.counts_process hids hd hc hp
    · intro e a cmd hd h hids
      rw [(FlatEngine.process_eq a (e.fillable cmd) cmd).1]
      exact FlatEngine.dispatch_ids (a := a.withVars (a.start 0 cmd)) hids (h.fresh hd)
    · intro a b _ hids
      exact hids
  · rw [meets_each]
    constructor
    · intro hall pre now cmd e1 hpre h1
      obtain ⟨a1, hsim, _⟩ := run_simulates ((run_eq_steps h0 pre).trans h1)
      obtain ⟨rest, rfl⟩ := hpre
      rw [steps_append, steps_append, h1, Option.bind_some] at hs
      obtain ⟨e2, h2, _⟩ := Option.bind_eq_some_iff.mp hs
      obtain ⟨e2', h2, _⟩ := Option.bind_eq_some_iff.mp h2
      exact (hsim.keeps_filled_iff h2).mp (hall pre now cmd e1 e2' ⟨rest, rfl⟩ h1 h2)
    · intro hm pre now cmd e1 e2 hpre h1 _ hr
      exact absurd hr (hm pre now cmd e1 hpre h1)

theorem filled_counts_iff_partial : ∃ e0 e : Engine OrderBook,
    Engine.init { minPrice := 1, maxPrice := 500, maxOrders := 4 } = some e0 ∧
    e0.steps [.command 0 (.makeNew 1 7 .buy .limit 100 5 0), .command 0 (.makeNew 2 8 .sell .limit 100 3 0)] = some e ∧
    ((∀ pre e1, pre <+: [.command 0 (.makeNew 1 7 .buy .limit 100 5 0), .command 0 (.makeNew 2 8 .sell .limit 100 3 0)] →
      e0.steps pre = some e1 → e1.Counts (e0.emitted pre)) ↔ e0.Meets (fun e cmd => ¬ e.Resizes cmd)
        [.command 0 (.makeNew 1 7 .buy .limit 100 5 0), .command 0 (.makeNew 2 8 .sell .limit 100 3 0)]) := by
  obtain ⟨e0, h0⟩ := @init_defined OrderBook _ { minPrice := 1, maxPrice := 500, maxOrders := 4 } _ rfl
  obtain ⟨e, he, _⟩ := @run_flat OrderBook _ _ e0 _ [.command 0 (.makeNew 1 7 .buy .limit 100 5 0),
    .command 0 (.makeNew 2 8 .sell .limit 100 3 0)] h0 (by decide)
  rw [run_eq_steps h0] at he
  -- only id 0 is ever on two orders
  have hd : e0.Meets (fun e cmd => ¬ e.Doubles cmd)
      [.command 0 (.makeNew 1 7 .buy .limit 100 5 0), .command 0 (.makeNew 2 8 .sell .limit 100 3 0)] :=
    @meets_of_simulates _ _ _ _ (fun cmd => ¬ cmd.Nameless) (fun _ _ _ h hc => h.not_doubles hc) _ e0 _ (init_simulates h0)
      (by decide)
  exact ⟨e0, e, h0, he, (filled_counts_iff h0 he hd).1⟩

/-- A bid of 10, made 4 where it stands: 6 count as filled, and nothing was traded. -/
theorem resized_counts_filled : ¬ ∀ (e0 e : Engine OrderBook),
    Engine.init { minPrice := 1, maxPrice := 500, maxOrders := 4 } = some e0 →
    e0.steps [.command 0 (.makeNew 1 7 .buy .limit 100 10 0), .command 0 (.makeModify 1 7 kNoPrice 4 0)] = some e →
    e.Counts (e0.emitted [.command 0 (.makeNew 1 7 .buy .limit 100 10 0), .command 0 (.makeModify 1 7 kNoPrice 4 0)]) := by
  intro h
  have key : (do
      let e0 ← Engine.init (B := OrderBook) { minPrice := 1, maxPrice := 500, maxOrders := 4 }
      let e ← e0.steps [.command 0 (.makeNew 1 7 .buy .limit 100 10 0), .command 0 (.makeModify 1 7 kNoPrice 4 0)]
      some ((e.queued .buy).map fun o => (o.filled.toNat, fillsOf o.id (sinceAccepted o.id (e0.emitted
        [.command 0 (.makeNew 1 7 .buy .limit 100 10 0), .command 0 (.makeModify 1 7 kNoPrice 4 0)]))))) =
      some [(6, 0)] := by decide +kernel
  obtain ⟨e0, h0, key⟩ := Option.bind_eq_some_iff.mp key
  obtain ⟨e, he, key⟩ := Option.bind_eq_some_iff.mp key
  have hcount := h e0 e h0 he .buy
  have key := Option.some.inj key
  cases hL : e.queued .buy with
  | nil => rw [hL] at key; cases key
  | cons o L =>
    rw [hL, List.map_cons] at key
    have ho := hcount o (by rw [hL]; exact List.mem_cons_self ..)
    rw [(Prod.mk.inj (List.cons.inj key).1).1, (Prod.mk.inj (List.cons.inj key).1).2] at ho
    exact absurd ho (by decide)

end Lob
