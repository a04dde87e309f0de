/-
  Lob.Laws.Position — an order's place in its queue never gets worse.

  What stands in front of an order that rests, at its price, is in any later state what is
  left of it: some are gone, the others are in the same order with no more open, and none
  has joined (`front_only_shrinks`). So the orders and the quantity it waits for only go
  down, whatever commands come, as long as it is not queued anew.
-/

import Lob.Book.OrderBookProofs
import Lob.Engine.Deals
import Lob.Engine.Runs

namespace Lob

/-! ## Shrinking lists -/

variable {L L' : List OrderInfo} {o o' : OrderInfo}

theorem Shrinks.filter (h : Shrinks L' L) {p : OrderInfo → Bool} (hp : ∀ o' o, Reduced o' o → p o' = p o) :
    Shrinks (L'.filter p) (L.filter p) := by
  obtain ⟨M, hs, hf⟩ := h
  refine ⟨M.filter p, hs.filter p, ?_⟩
  clear hs
  induction hf with
  | nil => exact .nil
  | cons hxy _ ih =>
    rw [List.filter_cons, List.filter_cons, hp _ _ hxy]
    split
    · exact .cons hxy ih
    · exact ih

/-! ## In front -/

/-- The orders queued before `o` at its price. -/
def inFront (L : List OrderInfo) (o : OrderInfo) : List OrderInfo := (L.takeWhile (· ≠ o)).filter (·.price = o.price)

/-- In a sorted side they are the earlier ones at the price. -/
theorem inFront_eq {s : Side} (hs : L.Pairwise (ahead s)) (ho : o ∈ L) :
    inFront L o = L.filter fun x => x.price = o.price ∧ x.seq < o.seq := by
  obtain ⟨A, C, rfl⟩ := List.append_of_mem ho
  obtain ⟨_, hC, hA⟩ := List.pairwise_append.mp hs
  have hbefore : ∀ x ∈ A, ahead s x o := fun x hx => hA x hx o List.mem_cons_self
  have hself : ¬ ahead s o o := by
    rintro (h | ⟨_, h⟩)
    · exact irrefl_of (better s) o.price h
    · exact Nat.lt_irrefl _ h
  have hne : ∀ x ∈ A, decide (x ≠ o) = true := by
    intro x hx
    refine decide_eq_true ?_
    rintro rfl
    exact hself (hbefore x hx)
  have hwhile : (A ++ o :: C).takeWhile (· ≠ o) = A := by
    rw [List.takeWhile_append_of_pos hne, List.takeWhile_cons_of_neg (by simp), List.append_nil]
  have hfront : A.filter (fun x => x.price = o.price) = A.filter fun x => x.price = o.price ∧ x.seq < o.seq := by
    refine List.filter_congr fun x hx => decide_eq_decide.mpr ⟨fun hp => ⟨hp, ?_⟩, And.left⟩
    rcases hbefore x hx with h | ⟨_, h⟩
    · rw [hp] at h
      exact absurd h (irrefl_of (better s) o.price)
    · exact h
  have hbehind : (o :: C).filter (fun x => x.price = o.price ∧ x.seq < o.seq) = [] := by
    refine List.filter_eq_nil_iff.mpr fun x hx => ?_
    rw [decide_eq_true_iff]
    rintro ⟨hp, hlt⟩
    rcases List.mem_cons.mp hx with rfl | hx
    · exact Nat.lt_irrefl _ hlt
    · rcases (List.pairwise_cons.mp hC).1 x hx with h | ⟨_, h⟩
      · rw [hp] at h
        exact irrefl_of (better s) o.price h
      · exact Nat.lt_asymm hlt h
  rw [inFront, hwhile, hfront, List.filter_append, hbehind, List.append_nil]

/-! ## Over a run -/

variable {n : Nat}

/-- What is left of the orders stamped up to `n`. -/
structure FlatEngine.Leaves (a0 : FlatEngine) (n : Nat) (a : FlatEngine) : Prop where
  arrived : n ≤ a.arrival
  sides : ∀ s, Shrinks ((a.side s).filter fun o => o.seq ≤ n) (a0.side s)

theorem FlatEngine.Leaves.moves {a0 a a' : FlatEngine} {fillable : Bool} {cmd : Command} (h : a0.Leaves n a)
    (hm : FlatEngine.Moves a fillable cmd a') : a0.Leaves n a' := by
  have hseq : ∀ o' o : OrderInfo, Reduced o' o → decide (o'.seq ≤ n) = decide (o.seq ≤ n) := fun o' o hr => by rw [hr.seq]
  cases hm with
  | shrinks m kept le sides =>
    refine ⟨by rw [kept.arrival]; exact h.arrived.trans le, fun s => ?_⟩
    exact ((sides s).filter hseq).trans (h.sides s)
  | lands b c g o kept before sides landing result origin =>
    refine ⟨by rw [kept.arrival]; exact Nat.le_succ_of_le h.arrived, fun s => ?_⟩
    have hg : Shrinks (g.side s) (a.side s) := by
      rw [landing.book]
      exact (FlatEngine.matching_shrinks b c s).trans (sides s)
    have hnew : ¬ o.seq ≤ n := by
      have := landing.lands.seq
      rw [before.1] at this
      exact Nat.not_le.mpr (h.arrived.trans_lt this)
    -- the new order is left out
    have hsame : (a'.side s).filter (fun o => o.seq ≤ n) = (g.side s).filter fun o => o.seq ≤ n := by
      rw [result, Flat.place_side]
      split
      · next heq =>
        rw [heq, Flat.enqueue, List.filter_append, List.filter_cons_of_neg (by simpa using hnew), ← List.filter_append,
          List.takeWhile_append_dropWhile]
      · rfl
    rw [hsame]
    exact (hg.filter hseq).trans (h.sides s)

theorem FlatEngine.Leaves.step {a0 a : FlatEngine} (h : a0.Leaves n a) (fillable : Command → Bool) (i : Engine.Input) :
    a0.Leaves n (a.step fillable i) := by
  cases i with
  | setHalted b => exact ⟨h.arrived, h.sides⟩
  | command now cmd =>
    obtain ⟨hflat, _, harr, _⟩ := FlatEngine.process_eq a (fillable cmd) cmd
    have hstart : a0.Leaves n (a.withVars (a.start 0 cmd)) := ⟨h.arrived, h.sides⟩
    have hmoved := hstart.moves (FlatEngine.dispatch_moves _ (fillable cmd) cmd)
    refine ⟨harr ▸ hmoved.arrived, fun s => ?_⟩
    show Shrinks (((a.process (fillable cmd) cmd).toFlat.side s).filter _) _
    rw [hflat]
    exact hmoved.sides s

/-- No order with the id has come after `n`. -/
structure FlatEngine.Undisturbed (n : Nat) (id : OrderId) (a : FlatEngine) : Prop where
  arrived : n ≤ a.arrival
  old : ∀ o ∈ a.orders, o.id = id → o.seq ≤ n

theorem FlatEngine.Undisturbed.moves {id : OrderId} {a a' : FlatEngine} {fillable : Bool} {cmd : Command}
    (h : FlatEngine.Undisturbed n id a) (hid : cmd.id ≠ id) (hm : FlatEngine.Moves a fillable cmd a') :
    FlatEngine.Undisturbed n id a' := by
  have hkeep : ∀ {f : Flat}, (∀ s, Shrinks (f.side s) (a.side s)) → ∀ o ∈ f.orders, o.id = id → o.seq ≤ n := by
    intro f hs o ho hoid
    obtain ⟨x, hx, hr⟩ := (Flat.shrinks_orders (f := a.toFlat) hs).mem ho
    rw [hr.seq]
    exact h.old x hx (hr.id_eq.symm.trans hoid)
  cases hm with
  | shrinks m kept le sides => exact ⟨by rw [kept.arrival]; exact h.arrived.trans le, hkeep sides⟩
  | lands b c g o kept before sides landing result origin =>
    refine ⟨by rw [kept.arrival]; exact Nat.le_succ_of_le h.arrived, fun x hx hxid => ?_⟩
    rw [result, (Flat.place_perm g o).mem_iff, List.mem_cons] at hx
    rcases hx with rfl | hx
    · have hc : x.id = c.id := by rw [landing.order]; rfl
      rcases origin with ⟨rfl, _⟩ | ⟨old, _, _, _, rfl, _⟩ <;> exact absurd (hc.symm.trans hxid) hid
    · refine hkeep (fun s => ?_) x hx hxid
      rw [landing.book]
      exact (FlatEngine.matching_shrinks b c s).trans (sides s)

theorem FlatEngine.Undisturbed.step {id : OrderId} {a : FlatEngine} (h : FlatEngine.Undisturbed n id a)
    (fillable : Command → Bool) {i : Engine.Input} (hi : i.Obeys fun cmd => cmd.id ≠ id) :
    FlatEngine.Undisturbed n id (a.step fillable i) := by
  cases i with
  | setHalted b => exact ⟨h.arrived, h.old⟩
  | command now cmd =>
    obtain ⟨hflat, _, harr, _⟩ := FlatEngine.process_eq a (fillable cmd) cmd
    have hstart : FlatEngine.Undisturbed n id (a.withVars (a.start 0 cmd)) := ⟨h.arrived, h.old⟩
    have hmoved := hstart.moves hi (FlatEngine.dispatch_moves _ (fillable cmd) cmd)
    refine ⟨harr ▸ hmoved.arrived, ?_⟩
    show ∀ o ∈ (a.process (fillable cmd) cmd).toFlat.orders, _
    rw [hflat]
    exact hmoved.old

/-! ## The law -/

variable {B : Type} [Book B] [LawfulBook B] {cfg : EngineConfig} {e e' : Engine B} {is js : List Engine.Input}

/-- The two are one order: it has its stamp, or its id, which no command has named. -/
def Stays (js : List Engine.Input) (o o' : OrderInfo) : Prop :=
  o'.seq = o.seq ∨ (o'.id = o.id ∧ o.id ≠ 0 ∧ ∀ i ∈ js, i.Obeys fun cmd => cmd.id ≠ o.id)

/-- The stamp or the id tells which order it is. -/
theorem Flat.Inv.unique {f : Flat} {k : Nat} (h : f.Inv n k) (ho : o ∈ f.orders) (ho' : o' ∈ f.orders)
    (hsame : o'.seq = o.seq ∨ (o'.id = o.id ∧ o.id ≠ 0)) : o' = o := by
  rcases hsame with hseq | ⟨hid, h0⟩
  · exact List.inj_on_of_nodup_map h.seqs ho' ho hseq
  · have hfind := h.find_mem ho' (hid ▸ h0)
    rw [hid, h.find_mem ho h0] at hfind
    exact (Option.some.inj hfind).symm

/-- What a run leaves, and the order with the id. -/
theorem Simulates.leaves {a : FlatEngine} (h : Simulates e a) (hs : e.steps js = some e') (id : OrderId) :
    ∃ a', Simulates e' a' ∧ a.Leaves a.arrival a' ∧
      ((∀ i ∈ js, i.Obeys fun cmd => cmd.id ≠ id) → FlatEngine.Undisturbed a.arrival id a') := by
  have keep : ∀ a' fillable i, a'.Inv →
      (a.Leaves a.arrival a' ∧ ((∀ i ∈ js, i.Obeys fun cmd => cmd.id ≠ id) → FlatEngine.Undisturbed a.arrival id a')) →
        i ∈ js → a.Leaves a.arrival (a'.step fillable i) ∧
          ((∀ i ∈ js, i.Obeys fun cmd => cmd.id ≠ id) → FlatEngine.Undisturbed a.arrival id (a'.step fillable i)) :=
    fun a' fillable i _ hp hi => ⟨hp.1.step fillable i, fun hq => (hp.2 hq).step fillable (hq i hi)⟩
  have hstart : a.Leaves a.arrival a := ⟨Nat.le_refl _, fun s => shrinks_of_sublist List.filter_sublist⟩
  exact steps_induction keep js e a (fun _ hi => hi) h ⟨hstart, fun _ => ⟨Nat.le_refl _, fun x hx _ => h.inv.arrived x hx⟩⟩ hs

/-- In front of an order is what is left of what was. -/
theorem FlatEngine.Leaves.inFront {a a' : FlatEngine} (h : a.Leaves a.arrival a') (hi : a.Inv) (hi' : a'.Inv) {s : Side}
    (ho : o ∈ a.side s) (ho' : o' ∈ a'.side s) (hr : Reduced o' o) :
    Shrinks (inFront (a'.side s) o') (inFront (a.side s) o) := by
  have harrived : o.seq ≤ a.arrival := hi.arrived o (Flat.mem_orders.mpr ⟨s, ho⟩)
  have hold : (a'.side s).filter (fun x => x.price = o.price ∧ x.seq < o.seq) =
      ((a'.side s).filter fun x => x.seq ≤ a.arrival).filter fun x => x.price = o.price ∧ x.seq < o.seq := by
    rw [List.filter_filter]
    refine List.filter_congr fun x _ => ?_
    by_cases hx : x.price = o.price ∧ x.seq < o.seq
    · simp [hx, hx.2.le.trans harrived]
    · simp [hx]
  rw [inFront_eq (hi.sorted s) ho, inFront_eq (hi'.sorted s) ho', hr.price, hr.seq, hold]
  exact (h.sides s).filter fun x' x hx => by rw [hx.price, hx.seq]

/-- An order that still rests where it rested is the same with no more open, and in front of it is what is
    left of what was. -/
theorem front_only_shrinks (h0 : Engine.run cfg is = some e) (hs : e.steps js = some e') {s t : Side} {o o' : OrderInfo}
    (ho : o ∈ e.queued s) (ho' : o' ∈ e'.queued t) (hstays : Stays js o o') :
    t = s ∧ Reduced o' o ∧ Shrinks (inFront (e'.queued s) o') (inFront (e.queued s) o) ∧
      (inFront (e'.queued s) o').length ≤ (inFront (e.queued s) o).length ∧
        Flat.openSize (inFront (e'.queued s) o') ≤ Flat.openSize (inFront (e.queued s) o) := by
  obtain ⟨a, hsim, _⟩ := run_simulates h0
  obtain ⟨a', hsim', hleaves, hquiet⟩ := hsim.leaves hs o.id
  rw [hsim.refines.queued] at ho
  rw [hsim'.refines.queued] at ho'
  have hmem := Flat.mem_orders.mpr ⟨s, ho⟩
  have harrived : o'.seq ≤ a.arrival := by
    rcases hstays with hseq | ⟨hid, _, hnamed⟩
    · rw [hseq]
      exact hsim.inv.arrived o hmem
    · exact (hquiet hnamed).old o' (Flat.mem_orders.mpr ⟨t, ho'⟩) hid
  obtain ⟨x, hx, hr⟩ := (hleaves.sides t).mem (List.mem_filter.mpr ⟨ho', by simpa using harrived⟩)
  obtain rfl : x = o := by
    refine hsim.inv.unique hmem (Flat.mem_orders.mpr ⟨t, hx⟩) ?_
    rw [← hr.seq, ← hr.id_eq]
    exact hstays.imp_right fun h => ⟨h.1, h.2.1⟩
  obtain rfl : t = s := (hsim.inv.onSide t x hx).symm.trans (hsim.inv.onSide s x ho)
  rw [hsim.refines.queued, hsim'.refines.queued]
  have hfront := hleaves.inFront hsim.inv hsim'.inv ho ho' hr
  exact ⟨rfl, hr, hfront, hfront.length_le, Flat.openSize_shrinks hfront⟩

/-- The third of three bids, before and after a sale of 6 and a fourth bid. -/
def thirdBid : OrderInfo :=
  { id := 3, client := 9, side := .buy, type := .limit, price := 100, quantity := 5, remaining := 5, seq := 3 }

theorem front_only_shrinks_third : ∃ e e' : Engine OrderBook,
    Engine.run { minPrice := 1, maxPrice := 500, maxOrders := 8 } [.command 0 (.makeNew 1 7 .buy .limit 100 5 0),
      .command 0 (.makeNew 2 8 .buy .limit 100 5 0), .command 0 (.makeNew 3 9 .buy .limit 100 5 0)] = some e ∧
    e.steps [.command 0 (.makeNew 4 10 .sell .limit 100 6 0), .command 0 (.makeNew 5 11 .buy .limit 100 5 0)] = some e' ∧
    Flat.openSize (inFront (e.queued .buy) thirdBid) = 10 ∧
    Flat.openSize (inFront (e'.queued .buy) thirdBid) ≤ Flat.openSize (inFront (e.queued .buy) thirdBid) := by
  have key : (do
      let e ← Engine.run (B := OrderBook) { minPrice := 1, maxPrice := 500, maxOrders := 8 } [
        .command 0 (.makeNew 1 7 .buy .limit 100 5 0), .command 0 (.makeNew 2 8 .buy .limit 100 5 0),
        .command 0 (.makeNew 3 9 .buy .limit 100 5 0)]
      let e' ← e.steps [.command 0 (.makeNew 4 10 .sell .limit 100 6 0), .command 0 (.makeNew 5 11 .buy .limit 100 5 0)]
      some (decide (Flat.openSize (inFront (e.queued .buy) thirdBid) = 10 ∧ thirdBid ∈ e.queued .buy ∧
        thirdBid ∈ e'.queued .buy))) = some true := by
    decide +kernel
  obtain ⟨e, h0, key⟩ := Option.bind_eq_some_iff.mp key
  obtain ⟨e', hs, key⟩ := Option.bind_eq_some_iff.mp key
  obtain ⟨hten, ho, ho'⟩ := of_decide_eq_true (Option.some.inj key)
  have hstays : Stays [.command 0 (.makeNew 4 10 .sell .limit 100 6 0), .command 0 (.makeNew 5 11 .buy .limit 100 5 0)] thirdBid
      thirdBid := Or.inr ⟨rfl, by decide, by decide⟩
  exact ⟨e, e', h0, hs, hten, (front_only_shrinks h0 hs ho ho' hstays).2.2.2.2⟩

end Lob
