/-
  Lob.Engine.FlatProofs — what holds of the flat engine over every run.

  `Reduced o' o`: the same order, with no more open. `Shrinks L' L`: some orders of `L`
  left, the others stayed in their places. Every change to a side but one is of this kind
  (`shrinks_erase`, `shrinks_replace`, `refMatch_shrinks`); the other is `Flat.enqueue`, of
  an order newer than all. `Inv` is kept by both (`Inv.shrink`, `Inv.place`).
-/

import Lob.Engine.Flat
import Mathlib.Data.List.Pairwise
import Mathlib.Data.List.Forall2
import Mathlib.Data.List.TakeWhile

namespace Lob

/-! ## Shrinking lists -/

structure Reduced (o' o : OrderInfo) : Prop where
  same : o' = { o with remaining := o'.remaining }
  le : o'.remaining ≤ o.remaining
  pos : 0 < o.remaining → 0 < o'.remaining

def Shrinks (L' L : List OrderInfo) : Prop := ∃ M, M.Sublist L ∧ List.Forall₂ Reduced L' M

theorem Reduced.refl (o : OrderInfo) : Reduced o o := ⟨rfl, UInt64.le_refl _, id⟩

theorem Reduced.trans {o o' o'' : OrderInfo} (h : Reduced o' o) (h' : Reduced o'' o') : Reduced o'' o :=
  ⟨by rw [h'.same, h.same], UInt64.le_trans h'.le h.le, fun p => h'.pos (h.pos p)⟩

variable {L L' L'' : List OrderInfo} {o o' : OrderInfo}

theorem forall₂_refl (L : List OrderInfo) : List.Forall₂ Reduced L L :=
  List.forall₂_same.mpr fun o _ => Reduced.refl o

theorem Shrinks.refl (L : List OrderInfo) : Shrinks L L := ⟨L, List.Sublist.refl L, forall₂_refl L⟩

instance : IsTrans OrderInfo Reduced := ⟨fun _ _ _ h h' => h'.trans h⟩

theorem Shrinks.trans (h : Shrinks L'' L') (h' : Shrinks L' L) : Shrinks L'' L := by
  have key : ∀ A B, Shrinks A B ↔ List.SublistForall₂ Reduced A B := fun A B => by
    rw [List.sublistForall₂_iff]
    exact exists_congr fun M => And.comm
  rw [key] at *
  exact trans_of _ h h'

theorem shrinks_of_sublist (h : L'.Sublist L) : Shrinks L' L := ⟨L', h, forall₂_refl L'⟩

theorem shrinks_erase (L : List OrderInfo) (o : OrderInfo) : Shrinks (L.erase o) L :=
  shrinks_of_sublist List.erase_sublist

theorem shrinks_replace (h : Reduced o' o) (L : List OrderInfo) : Shrinks (L.replace o o') L := by
  refine ⟨L, List.Sublist.refl L, ?_⟩
  induction L with
  | nil => exact List.Forall₂.nil
  | cons x xs ih =>
    rw [List.replace_cons]
    split
    · rename_i e
      have e : x = o := (eq_of_beq e).symm
      exact List.Forall₂.cons (e ▸ h) (forall₂_refl xs)
    · exact List.Forall₂.cons (Reduced.refl x) ih

theorem Shrinks.mem (h : Shrinks L' L) (ho : o' ∈ L') : ∃ o ∈ L, Reduced o' o := by
  obtain ⟨M, hs, hf⟩ := h
  induction hf generalizing L with
  | nil => cases ho
  | @cons x y xs ys hxy hf ih =>
    rcases List.mem_cons.mp ho with rfl | ho
    · exact ⟨y, hs.subset (List.mem_cons_self ..), hxy⟩
    · exact ih ho ((List.sublist_cons_self y ys).trans hs)

/-- What a reduction keeps is kept in place. -/
theorem Shrinks.map {β : Type} (h : Shrinks L' L) (g : OrderInfo → β) (hg : ∀ o' o, Reduced o' o → g o' = g o) :
    (L'.map g).Sublist (L.map g) := by
  obtain ⟨M, hs, hf⟩ := h
  have e : L'.map g = M.map g := by
    clear hs
    induction hf with
    | nil => rfl
    | cons hxy _ ih => rw [List.map_cons, List.map_cons, hg _ _ hxy, ih]
  rw [e]
  exact hs.map g

theorem Shrinks.append {M M' : List OrderInfo} (h : Shrinks L' L) (h' : Shrinks M' M) : Shrinks (L' ++ M') (L ++ M) := by
  obtain ⟨A, hA, fA⟩ := h
  obtain ⟨B, hB, fB⟩ := h'
  exact ⟨A ++ B, hA.append hB, List.rel_append fA fB⟩

theorem Shrinks.length_le (h : Shrinks L' L) : L'.length ≤ L.length := by
  obtain ⟨M, hs, hf⟩ := h
  rw [hf.length_eq]; exact hs.length_le

theorem Reduced.seq (h : Reduced o' o) : o'.seq = o.seq := by rw [h.same]
theorem Reduced.id_eq (h : Reduced o' o) : o'.id = o.id := by rw [h.same]
theorem Reduced.price (h : Reduced o' o) : o'.price = o.price := by rw [h.same]
theorem Reduced.side (h : Reduced o' o) : o'.side = o.side := by rw [h.same]
theorem Reduced.type (h : Reduced o' o) : o'.type = o.type := by rw [h.same]
theorem Reduced.client (h : Reduced o' o) : o'.client = o.client := by rw [h.same]
theorem Reduced.quantity (h : Reduced o' o) : o'.quantity = o.quantity := by rw [h.same]

/-! ## The reference matcher -/

section
variable {stp : StpMode} {client : ClientId} {v : EngineVars} {inc o : OrderInfo} {filled : Quantity}

theorem refMatch_ends (h : inc.remaining = 0 ∨ reaches inc o = false) (rest : List OrderInfo) :
    refMatch stp client v inc filled (o :: rest) = ⟨v, inc, filled, [], o :: rest⟩ := by
  rw [refMatch, if_pos h]

theorem refMatch_zero (h : inc.remaining = 0) (L : List OrderInfo) :
    refMatch stp client v inc filled L = ⟨v, inc, filled, [], L⟩ := by
  cases L with
  | nil => rfl
  | cons o rest => exact refMatch_ends (Or.inl h) rest

variable (hgo : ¬ (inc.remaining = 0 ∨ reaches inc o = false))
include hgo

/-- Self-trade: the incoming order is cancelled. -/
theorem refMatch_aggressor (hstp : stp ≠ .none ∧ o.client = client) (hagg : stp = .cancelAggressor) (rest : List OrderInfo) :
    refMatch stp client v inc filled (o :: rest) =
      ⟨v.emitStpAggressor inc client, { inc with remaining := 0 }, filled, [], o :: rest⟩ := by
  rw [refMatch, if_neg hgo, if_pos hstp, if_pos hagg]

/-- Self-trade: the resting order is cancelled. -/
theorem refMatch_resting (hstp : stp ≠ .none ∧ o.client = client) (hagg : stp ≠ .cancelAggressor) (rest : List OrderInfo) :
    refMatch stp client v inc filled (o :: rest) =
      (refMatch stp client (v.emitStpResting inc o) inc filled rest).after o := by
  rw [refMatch, if_neg hgo, if_pos hstp, if_neg hagg]

variable (hstp : ¬ (stp ≠ .none ∧ o.client = client))
include hstp

/-- The resting order is filled. -/
theorem refMatch_full (hfull : o.remaining = min inc.remaining o.remaining) (rest : List OrderInfo) :
    refMatch stp client v inc filled (o :: rest) =
      (refMatch stp client (v.emitTrade inc o (min inc.remaining o.remaining))
        { inc with remaining := inc.remaining - min inc.remaining o.remaining }
        (filled + min inc.remaining o.remaining) rest).after o := by
  rw [refMatch, if_neg hgo, if_neg hstp]
  exact if_pos hfull

/-- The incoming order is filled, on part of the resting one. -/
theorem refMatch_part (hpart : o.remaining ≠ min inc.remaining o.remaining) (rest : List OrderInfo) :
    refMatch stp client v inc filled (o :: rest) =
      ⟨v.emitTrade inc o (min inc.remaining o.remaining),
        { inc with remaining := inc.remaining - min inc.remaining o.remaining },
        filled + min inc.remaining o.remaining, [],
        { o with remaining := o.remaining - min inc.remaining o.remaining } :: rest⟩ := by
  rw [refMatch, if_neg hgo, if_neg hstp]
  exact if_neg hpart

end

/-- The incoming order goes on, or stays, with less open. -/
theorem refMatch_inc (stp : StpMode) (client : ClientId) (v : EngineVars) (inc : OrderInfo) (filled : Quantity)
    (L : List OrderInfo) : (refMatch stp client v inc filled L).inc =
      { inc with remaining := (refMatch stp client v inc filled L).inc.remaining } ∧
    (refMatch stp client v inc filled L).inc.remaining ≤ inc.remaining := by
  fun_induction refMatch stp client v inc filled L with
  | case1 => exact ⟨rfl, UInt64.le_refl _⟩
  | case2 => exact ⟨rfl, UInt64.le_refl _⟩
  | case3 => exact ⟨rfl, UInt64.zero_le⟩
  | case4 v inc filled o rest _ _ _ ih => exact ih
  | case5 v inc filled o rest _ _ traded v' inc' _ ih =>
    exact ⟨ih.1, UInt64.le_trans ih.2 (Quantity.sub_min_le_left _ _)⟩
  | case6 v inc filled o rest _ _ traded v' inc' _ => exact ⟨rfl, Quantity.sub_min_le_left _ _⟩

theorem refMatch_left (stp : StpMode) (client : ClientId) (v : EngineVars) (inc : OrderInfo) (filled : Quantity)
    (L : List OrderInfo) : ∃ rest, L = (refMatch stp client v inc filled L).gone ++ rest ∧
      List.Forall₂ Reduced (refMatch stp client v inc filled L).left rest := by
  fun_induction refMatch stp client v inc filled L with
  | case1 => exact ⟨[], rfl, List.Forall₂.nil⟩
  | case2 v inc filled o rest => exact ⟨o :: rest, rfl, forall₂_refl _⟩
  | case3 v inc filled o rest => exact ⟨o :: rest, rfl, forall₂_refl _⟩
  | case4 v inc filled o rest _ _ _ ih =>
    obtain ⟨M, e, hf⟩ := ih
    exact ⟨M, congrArg (o :: ·) e, hf⟩
  | case5 v inc filled o rest _ _ traded v' inc' _ ih =>
    obtain ⟨M, e, hf⟩ := ih
    exact ⟨M, congrArg (o :: ·) e, hf⟩
  | case6 v inc filled o rest _ _ traded v' inc' hne =>
    exact ⟨o :: rest, rfl, List.Forall₂.cons ⟨rfl, UInt64.sub_le (Quantity.min_le_right _ _),
      fun _ => Quantity.sub_min_pos hne⟩ (forall₂_refl rest)⟩

theorem refMatch_shrinks (stp : StpMode) (client : ClientId) (v : EngineVars) (inc : OrderInfo) (filled : Quantity)
    (L : List OrderInfo) : Shrinks (refMatch stp client v inc filled L).left L := by
  obtain ⟨rest, e, hf⟩ := refMatch_left stp client v inc filled L
  exact ⟨rest, by conv => rhs; rw [e]
                  exact List.sublist_append_right _ _, hf⟩

/-- Why the match ended. -/
theorem refMatch_stop (stp : StpMode) (client : ClientId) (v : EngineVars) (inc : OrderInfo) (filled : Quantity)
    (L : List OrderInfo) : (refMatch stp client v inc filled L).inc.remaining = 0 ∨
      ∀ o, (refMatch stp client v inc filled L).left.head? = some o → reaches inc o = false := by
  fun_induction refMatch stp client v inc filled L with
  | case1 => right; simp
  | case2 v inc filled o rest h =>
    rcases h with h | h
    · exact Or.inl h
    · right; intro x hx; cases hx; exact h
  | case3 => exact Or.inl rfl
  | case4 v inc filled o rest _ _ _ ih => exact ih
  | case5 v inc filled o rest _ _ traded v' inc' _ ih => exact ih
  | case6 v inc filled o rest _ _ traded v' inc' hne => exact Or.inl (Quantity.sub_min_eq_zero hne)

theorem refMatch_reported (stp : StpMode) (client : ClientId) (v : EngineVars) (inc : OrderInfo) (filled : Quantity)
    (L : List OrderInfo) : v.Reported (refMatch stp client v inc filled L).vars := by
  fun_induction refMatch stp client v inc filled L with
  | case1 v => exact .refl v
  | case2 v => exact .refl v
  | case3 v => exact EngineVars.reported_newEvent _
  | case4 v inc filled o rest _ _ _ ih => exact (EngineVars.reported_newEvent _).trans ih
  | case5 v inc filled o rest _ _ traded v' inc' _ ih => exact (EngineVars.reported_trade inc o traded).trans ih
  | case6 v inc filled o rest _ _ traded v' inc' hne => exact EngineVars.reported_trade inc o traded

/-! ## The invariant -/

/-- `o` is matched before `o'`: a better price, or the same and earlier. -/
def ahead (s : Side) (o o' : OrderInfo) : Prop := better s o.price o'.price ∨ (o.price = o'.price ∧ o.seq < o'.seq)

structure Flat.Inv (f : Flat) (arrival maxOrders : Nat) : Prop where
  sorted : ∀ s, (f.side s).Pairwise (ahead s)
  seqs : (f.orders.map (·.seq)).Nodup
  arrived : ∀ o ∈ f.orders, o.seq ≤ arrival
  opened : ∀ o ∈ f.orders, 0 < o.remaining ∧ o.remaining ≤ o.quantity
  onSide : ∀ s, ∀ o ∈ f.side s, o.side = s
  ids : f.orders.Pairwise fun o o' => o.id = o'.id → o.id = 0
  kinds : ∀ o ∈ f.orders, rests o.type = true
  room : f.orders.length ≤ maxOrders

theorem orders_perm (f : Flat) (s : Side) : f.orders.Perm (f.side s ++ f.side (opposite s)) := by
  cases s
  · exact List.Perm.refl _
  · exact List.perm_append_comm

theorem setList_side (f : Flat) (s : Side) (L : List OrderInfo) : (f.setList s L).side s = L := if_pos rfl

theorem setList_opposite (f : Flat) (s : Side) (L : List OrderInfo) :
    (f.setList s L).side (opposite s) = f.side (opposite s) := if_neg (opposite_ne s)

namespace Flat

variable {f f' : Flat} {n n' k : Nat}

theorem mem_orders : o ∈ f.orders ↔ ∃ s, o ∈ f.side s := by
  unfold orders
  rw [List.mem_append]
  constructor
  · intro h
    rcases h with h | h
    · exact ⟨.buy, h⟩
    · exact ⟨.sell, h⟩
  · intro ⟨s, h⟩
    cases s
    · exact Or.inl h
    · exact Or.inr h

theorem side_sublist (f : Flat) (s : Side) : (f.side s).Sublist f.orders := by
  unfold orders
  cases s
  · exact List.sublist_append_left ..
  · exact List.sublist_append_right ..

theorem side_setList (f : Flat) (s t : Side) (L : List OrderInfo) :
    (f.setList s L).side t = if t = s then L else f.side t := rfl

theorem length_orders (f : Flat) (s : Side) : f.orders.length = (f.side s).length + (f.side (opposite s)).length := by
  rw [(orders_perm f s).length_eq, List.length_append]

/-- The orders, with the one taken off put back. -/
theorem drop_perm {o : OrderInfo} (ho : o ∈ f.side o.side) : f.orders.Perm (o :: (f.drop o).orders) := by
  have h1 : (f.drop o).side o.side = (f.side o.side).erase o := setList_side ..
  have h2 : (f.drop o).side (opposite o.side) = f.side (opposite o.side) := setList_opposite ..
  refine (orders_perm f o.side).trans (((List.perm_cons_erase ho).append_right _).trans ?_)
  rw [List.cons_append, ← h1, ← h2]
  exact List.Perm.cons o (orders_perm (f.drop o) o.side).symm

theorem replace_perm {o o' : OrderInfo} : ∀ {L : List OrderInfo}, o ∈ L → (L.replace o o').Perm (o' :: L.erase o) := by
  intro L
  induction L with
  | nil => intro h; cases h
  | cons x L ih =>
    intro h
    by_cases e : o = x
    · subst e
      rw [List.replace_cons_self, List.erase_cons_head]
    · have hb : (o == x) = false := by simpa using e
      have hb' : (x == o) = false := by simpa using Ne.symm e
      rw [List.replace_cons, hb, List.erase_cons_tail (by simp [hb'])]
      exact ((ih ((List.mem_cons.mp h).resolve_left e)).cons x).trans (List.Perm.swap ..)

/-- One order changed, and the others. -/
theorem swap_perm {o : OrderInfo} (ho : o ∈ f.side o.side) (o' : OrderInfo) : (f.swap o o').orders.Perm (o' :: (f.drop o).orders) := by
  have h1 : (f.swap o o').side o.side = (f.side o.side).replace o o' := setList_side ..
  have h2 : (f.swap o o').side (opposite o.side) = (f.drop o).side (opposite o.side) := by
    rw [show (f.swap o o').side (opposite o.side) = f.side (opposite o.side) from setList_opposite ..]
    exact (setList_opposite ..).symm
  have h3 : (f.drop o).side o.side = (f.side o.side).erase o := setList_side ..
  refine (orders_perm _ o.side).trans ?_
  rw [h1, h2]
  refine ((replace_perm ho).append_right _).trans ?_
  rw [List.cons_append, ← h3]
  exact List.Perm.cons o' (orders_perm (f.drop o) o.side).symm

theorem drop_length {o : OrderInfo} (ho : o ∈ f.side o.side) : (f.drop o).orders.length + 1 = f.orders.length :=
  (drop_perm ho).length_eq.symm

theorem shrinks_setList {s : Side} (h : Shrinks L (f.side s)) (t : Side) : Shrinks ((f.setList s L).side t) (f.side t) := by
  rw [side_setList]
  split
  · rename_i e; rw [e]; exact h
  · exact Shrinks.refl _

theorem shrinks_orders (h : ∀ s, Shrinks (f'.side s) (f.side s)) : Shrinks f'.orders f.orders :=
  (h .buy).append (h .sell)

theorem Inv.shrink (h : f.Inv n k) (hs : ∀ s, Shrinks (f'.side s) (f.side s)) (hn : n ≤ n') : f'.Inv n' k := by
  have ho := shrinks_orders hs
  constructor
  · intro s
    have key : ∀ L : List OrderInfo, L.Pairwise (ahead s) ↔
        (L.map fun o => (o.price, o.seq)).Pairwise fun x y => better s x.1 y.1 ∨ (x.1 = y.1 ∧ x.2 < y.2) := fun L => by
      rw [List.pairwise_map]; rfl
    rw [key]
    exact ((key _).mp (h.sorted s)).sublist ((hs s).map _ fun o' o hr => by rw [hr.price, hr.seq])
  · exact h.seqs.sublist (ho.map _ fun o' o hr => hr.seq)
  · intro o' ho'
    obtain ⟨o, hm, hr⟩ := ho.mem ho'
    rw [hr.seq]; exact Nat.le_trans (h.arrived o hm) hn
  · intro o' ho'
    obtain ⟨o, hm, hr⟩ := ho.mem ho'
    obtain ⟨h1, h2⟩ := h.opened o hm
    exact ⟨hr.pos h1, by rw [hr.quantity]; exact UInt64.le_trans hr.le h2⟩
  · intro s o' ho'
    obtain ⟨o, hm, hr⟩ := (hs s).mem ho'
    rw [hr.side]; exact h.onSide s o hm
  · have key : ∀ L : List OrderInfo, L.Pairwise (fun o o' => o.id = o'.id → o.id = 0) ↔
        (L.map (·.id)).Pairwise fun x y => x = y → x = 0 := fun L => by rw [List.pairwise_map]
    rw [key]
    exact ((key _).mp h.ids).sublist (ho.map _ fun o' o hr => hr.id_eq)
  · intro o' ho'
    obtain ⟨o, hm, hr⟩ := ho.mem ho'
    rw [hr.type]; exact h.kinds o hm
  · exact Nat.le_trans ho.length_le h.room

theorem Inv.mem_side (h : f.Inv n k) {o : OrderInfo} (ho : o ∈ f.orders) : o ∈ f.side o.side := by
  obtain ⟨s, hs⟩ := mem_orders.mp ho
  rw [h.onSide s o hs]
  exact hs

theorem enqueue_perm (o : OrderInfo) (L : List OrderInfo) : (enqueue o L).Perm (o :: L) := by
  unfold enqueue
  refine List.perm_middle.trans ?_
  rw [List.takeWhile_append_dropWhile]

/-- Where an order joins a sorted list. -/
theorem enqueue_sorted (hs : L.Pairwise (ahead o.side)) (hseq : ∀ x ∈ L, x.seq < o.seq) :
    (enqueue o L).Pairwise (ahead o.side) := by
  have hsplit := List.takeWhile_append_dropWhile (p := fun x => decide (¬ better o.side o.price x.price)) (l := L)
  have hU : ∀ u ∈ L.takeWhile (fun x => decide (¬ better o.side o.price x.price)), ¬ better o.side o.price u.price :=
    fun u hu => by simpa using List.mem_takeWhile_imp hu
  have hW : ∀ w ∈ L.dropWhile (fun x => decide (¬ better o.side o.price x.price)), better o.side o.price w.price := by
    intro w hw
    cases hd : L.dropWhile (fun x => decide (¬ better o.side o.price x.price)) with
    | nil => rw [hd] at hw; cases hw
    | cons x xs =>
      have hx : better o.side o.price x.price := by
        have := List.head?_dropWhile_not (fun x => decide (¬ better o.side o.price x.price)) L
        rw [hd] at this
        simpa using this
      rw [hd] at hw
      rcases List.mem_cons.mp hw with rfl | hw
      · exact hx
      · -- behind `x`, which `o` beats already
        have hpw := hs.sublist (List.dropWhile_sublist (fun x => decide (¬ better o.side o.price x.price)))
        rw [hd] at hpw
        rcases (List.pairwise_cons.mp hpw).1 w hw with h | h
        · exact trans_of (better o.side) hx h
        · rw [← h.1]; exact hx
  unfold enqueue
  rw [← hsplit] at hs
  rw [List.pairwise_append] at hs ⊢
  refine ⟨hs.1, List.pairwise_cons.mpr ⟨fun w hw => Or.inl (hW w hw), hs.2.1⟩, fun u hu w hw => ?_⟩
  rcases List.mem_cons.mp hw with rfl | hw
  · rcases trichotomous_of (better w.side) u.price w.price with h | h | h
    · exact Or.inl h
    · exact Or.inr ⟨h, hseq u (List.takeWhile_subset _ hu)⟩
    · exact absurd h (hU u hu)
  · exact hs.2.2 u hu w hw

theorem place_side (f : Flat) (o : OrderInfo) (t : Side) :
    (f.place o).side t = if t = o.side then enqueue o (f.side o.side) else f.side t := rfl

theorem place_perm (f : Flat) (o : OrderInfo) : (f.place o).orders.Perm (o :: f.orders) := by
  unfold orders
  rw [place_side, place_side]
  cases hs : o.side with
  | buy =>
    rw [if_pos rfl, if_neg (by decide)]
    exact (enqueue_perm o _).append_right _
  | sell =>
    rw [if_neg (by decide), if_pos rfl]
    exact ((enqueue_perm o _).append_left _).trans List.perm_middle

/-- What an order needs to rest. -/
structure Lands (f : Flat) (n k : Nat) (o : OrderInfo) : Prop where
  seq : n < o.seq
  opened : 0 < o.remaining ∧ o.remaining ≤ o.quantity
  kind : rests o.type = true
  fresh : ∀ x ∈ f.orders, x.id = o.id → o.id = 0
  room : f.orders.length < k

theorem Inv.place (h : f.Inv n k) (ho : f.Lands n k o) (hn : o.seq ≤ n') (hle : n ≤ n') : (f.place o).Inv n' k := by
  have hp := place_perm f o
  have hmem : ∀ x, x ∈ (f.place o).orders ↔ x = o ∨ x ∈ f.orders := fun x => by rw [hp.mem_iff, List.mem_cons]
  constructor
  · intro t
    rw [place_side]
    split
    · rename_i e
      rw [e]
      refine enqueue_sorted (h.sorted _) fun x hx => ?_
      exact Nat.lt_of_le_of_lt (h.arrived x (mem_orders.mpr ⟨_, hx⟩)) ho.seq
    · exact h.sorted t
  · rw [(hp.map _).nodup_iff, List.map_cons, List.nodup_cons]
    refine ⟨fun hm => ?_, h.seqs⟩
    obtain ⟨x, hx, e⟩ := List.mem_map.mp hm
    have hold := h.arrived x hx
    rw [e] at hold
    exact absurd ho.seq (Nat.not_lt.mpr hold)
  · intro x hx
    rcases (hmem x).mp hx with rfl | hx
    · exact hn
    · exact Nat.le_trans (h.arrived x hx) hle
  · intro x hx
    rcases (hmem x).mp hx with rfl | hx
    · exact ho.opened
    · exact h.opened x hx
  · intro t x hx
    rw [place_side] at hx
    split at hx
    · rename_i e
      rw [e]
      rcases List.mem_cons.mp ((enqueue_perm o _).mem_iff.mp hx) with rfl | hx
      · rfl
      · exact h.onSide _ x hx
    · exact h.onSide t x hx
  · refine (hp.pairwise_iff ?_).mpr (List.pairwise_cons.mpr ⟨fun x hx e => ho.fresh x hx e.symm, h.ids⟩)
    intro x y hxy e
    rw [e]; exact hxy e.symm
  · intro x hx
    rcases (hmem x).mp hx with rfl | hx
    · exact ho.kind
    · exact h.kinds x hx
  · rw [hp.length_eq]; exact ho.room

/-- An order found by its id. -/
theorem find_some {id : OrderId} (h : f.find id = some o) : id ≠ 0 ∧ o ∈ f.orders ∧ o.id = id := by
  unfold find at h
  split at h
  · cases h
  · exact ⟨by assumption, List.mem_of_find?_eq_some h, by simpa using List.find?_some h⟩

theorem find_none {id : OrderId} (h : f.find id = none) : ∀ x ∈ f.orders, x.id = id → id = 0 := by
  intro x hx e
  unfold find at h
  split at h
  · assumption
  · have := List.find?_eq_none.mp h x hx
    simp [e] at this

/-- With a non-zero id an order is found by it. -/
theorem Inv.find_mem (h : f.Inv n k) (ho : o ∈ f.orders) (h0 : o.id ≠ 0) : f.find o.id = some o := by
  cases hf : f.find o.id with
  | none => exact absurd (find_none hf o ho rfl) h0
  | some x =>
    obtain ⟨_, hx, hid⟩ := find_some hf
    have hsymm : Std.Symm fun o o' : OrderInfo => o.id = o'.id → o.id = 0 := ⟨fun x y hxy e => by rw [e]; exact hxy e.symm⟩
    by_contra hne
    exact h0 (hid ▸ h.ids.forall hx ho (fun e => hne (by rw [e])) hid)

theorem Inv.drop_side (h : f.Inv n k) (o : OrderInfo) (s : Side) : (f.drop o).side s = (f.side s).erase o := by
  rcases eq_or_opposite o.side s with rfl | rfl
  · exact setList_side ..
  · have hno : o ∉ f.side (opposite o.side) := fun hm => ne_opposite o.side (h.onSide _ o hm)
    rw [List.erase_of_not_mem hno]
    exact setList_opposite ..

theorem Inv.swap_side (h : f.Inv n k) (o o' : OrderInfo) (s : Side) :
    (f.swap o o').side s = (f.side s).replace o o' := by
  rcases eq_or_opposite o.side s with rfl | rfl
  · exact setList_side ..
  · have hno : o ∉ f.side (opposite o.side) := fun hm => ne_opposite o.side (h.onSide _ o hm)
    rw [List.replace_of_not_mem hno]
    exact setList_opposite ..

end Flat

/-! ## What a command does to the book -/

namespace FlatEngine

variable {a a' : FlatEngine} {cmd : Command} {fillable : Bool}

def Inv (a : FlatEngine) : Prop := a.toFlat.Inv a.arrival a.cfg.maxOrders

theorem afterMatch_side (a : FlatEngine) (cmd : Command) (t : Side) :
    (a.afterMatch cmd).side t = if t = opposite cmd.side then (a.matching cmd).left else a.side t := rfl

theorem matching_shrinks (a : FlatEngine) (cmd : Command) (t : Side) :
    Shrinks ((a.afterMatch cmd).side t) (a.side t) := by
  rw [afterMatch_side]
  split
  · rename_i e; rw [e]; exact refMatch_shrinks ..
  · exact Shrinks.refl _

theorem matching_inc (a : FlatEngine) (cmd : Command) : (a.matching cmd).inc =
    { incomingOrder cmd (a.arrival + 1) with remaining := (a.matching cmd).inc.remaining } :=
  (refMatch_inc ..).1

theorem matching_le (a : FlatEngine) (cmd : Command) : (a.matching cmd).inc.remaining ≤ cmd.quantity :=
  (refMatch_inc ..).2

theorem matching_reported (a : FlatEngine) (cmd : Command) : (a.accepted cmd).Reported (a.matching cmd).vars :=
  refMatch_reported ..

theorem matching_stop (a : FlatEngine) (cmd : Command) (h : (a.matching cmd).inc.remaining ≠ 0) :
    ∀ o, ((a.afterMatch cmd).side (opposite cmd.side)).head? = some o →
      reaches (incomingOrder cmd (a.arrival + 1)) o = false := by
  rw [afterMatch_side, if_pos rfl]
  exact (refMatch_stop ..).resolve_left h

/-- Why an order was not refused. -/
structure Passes (a : FlatEngine) (fillable : Bool) (cmd : Command) : Prop where
  quantity : cmd.quantity ≠ 0
  band : isMarket cmd = false → a.inBand cmd.price
  fresh : a.find cmd.id = none
  postOnly : cmd.ordType = .postOnly → a.wouldCross cmd = false
  fok : cmd.ordType = .fok → fillable = true

theorem refusal_none : a.refusal fillable cmd = none ↔ a.Passes fillable cmd := by
  unfold refusal
  constructor
  · intro h
    split at h
    · cases h
    split at h
    · cases h
    split at h
    · cases h
    split at h
    · cases h
    split at h
    · cases h
    rename_i h1 h2 h3 h4 h5
    refine ⟨h1, fun hm => ?_, by simpa using h3, fun ht => ?_, fun ht => ?_⟩
    · by_contra hb; exact h2 ⟨hm, hb⟩
    · by_contra hb; exact h4 ⟨ht, by simpa using hb⟩
    · by_contra hb; exact h5 ⟨ht, by simpa using hb⟩
  · intro h
    rw [if_neg h.quantity, if_neg (fun e => e.2 (h.band e.1)), if_neg (fun e => e h.fresh), if_neg, if_neg]
    · intro ⟨ht, hf⟩; rw [h.fok ht] at hf; cases hf
    · intro ⟨ht, hc⟩; rw [h.postOnly ht] at hc; cases hc

/-- An order that comes to rest: `c` the command it came with, `g` the book it joined. -/
structure Landing (a : FlatEngine) (fillable : Bool) (c : Command) (g : Flat) (o : OrderInfo) : Prop where
  book : g = (a.afterMatch c).toFlat
  matched : o = (a.matching c).inc
  order : o = { incomingOrder c (a.arrival + 1) with remaining := o.remaining }
  opened : o.remaining ≠ 0 ∧ o.remaining ≤ c.quantity
  passes : a.Passes fillable c
  kind : rests c.ordType = true
  room : g.orders.length < a.cfg.maxOrders
  stop : ∀ x, (g.side (opposite c.side)).head? = some x → reaches o x = false

theorem Landing.lands {c : Command} {g : Flat} {o : OrderInfo} (h : Landing a fillable c g o) :
    g.Lands a.arrival a.cfg.maxOrders o := by
  refine ⟨?_, ⟨?_, ?_⟩, ?_, fun x hx e => ?_, h.room⟩
  · rw [h.order]; exact Nat.lt_succ_self _
  · exact UInt64.pos_iff_ne_zero.mpr h.opened.1
  · rw [h.order]; exact h.opened.2
  · rw [h.order]; exact h.kind
  · rw [h.book] at hx
    obtain ⟨y, hy, hr⟩ := (Flat.shrinks_orders (matching_shrinks a c)).mem hx
    rw [h.order] at e ⊢
    exact Flat.find_none h.passes.fresh y hy (hr.id_eq.symm.trans e)

/-- The rest of the state, past an accepted order. -/
structure Kept (a a' : FlatEngine) (n : Nat) : Prop where
  cfg : a'.cfg = a.cfg
  arrival : a'.arrival = n
  halted : a'.halted = a.halted
  lastBid : a'.lastBid = a.lastBid
  lastAsk : a'.lastAsk = a.lastAsk

theorem Kept.of_reported {f : Flat} {v : EngineVars} (h : a.toEngineVars.Reported v) :
    Kept a ((a.withVars v).withFlat f) a.arrival :=
  ⟨rfl, h.arrival, h.halted, h.lastBid, h.lastAsk⟩

theorem Kept.of_match {f : Flat} {v : EngineVars} (h : (a.matching cmd).vars.Reported v) :
    Kept a (((a.afterMatch cmd).withVars v).withFlat f) (a.arrival + 1) := by
  have h := (matching_reported a cmd).trans h
  exact ⟨rfl, h.arrival, h.halted, h.lastBid, h.lastAsk⟩

/-- Where an accepted order ends up. -/
inductive Settles (a : FlatEngine) (cmd : Command) : FlatEngine → Prop
  | filled (done : (a.matching cmd).inc.remaining = 0) : Settles a cmd (a.afterMatch cmd)
  | canceled (reason : RejectReason) (open_ : (a.matching cmd).inc.remaining ≠ 0)
      (why : (reason = .none ∧ rests cmd.ordType = false) ∨ (reason = .poolExhausted ∧ rests cmd.ordType = true ∧
        a.cfg.maxOrders ≤ (a.afterMatch cmd).orders.length)) :
      Settles a cmd ((a.afterMatch cmd).withVars
        ((a.afterMatch cmd).emitRemainder cmd (limitOf cmd) (a.matching cmd).inc.remaining reason))
  | rested (open_ : (a.matching cmd).inc.remaining ≠ 0) (kind : rests cmd.ordType = true)
      (room : (a.afterMatch cmd).orders.length < a.cfg.maxOrders) :
      Settles a cmd ((a.afterMatch cmd).withFlat ((a.afterMatch cmd).place (a.matching cmd).inc))

theorem accepted_settles (a : FlatEngine) (cmd : Command) : Settles a cmd (a.handleAccepted cmd) := by
  unfold handleAccepted
  simp only
  split
  · exact .filled (by assumption)
  rename_i h0
  split
  · exact .canceled .none h0 (Or.inl ⟨rfl, by assumption⟩)
  rename_i hrest
  have hrest : rests cmd.ordType = true := by simpa using hrest
  split
  · exact .canceled .poolExhausted h0 (Or.inr ⟨rfl, hrest, by assumption⟩)
  · exact .rested h0 hrest (Nat.lt_of_not_le (by assumption))

theorem Passes.landing (hp : a.Passes fillable cmd) (h0 : (a.matching cmd).inc.remaining ≠ 0)
    (hk : rests cmd.ordType = true) (hr : (a.afterMatch cmd).orders.length < a.cfg.maxOrders) :
    Landing a fillable cmd (a.afterMatch cmd).toFlat (a.matching cmd).inc := by
  refine ⟨rfl, rfl, matching_inc a cmd, ⟨h0, matching_le a cmd⟩, hp, hk, hr, fun x hx => ?_⟩
  rw [matching_inc]
  exact matching_stop a cmd h0 x hx

/-- The order that comes to rest, if one does. -/
def lands (a : FlatEngine) (fillable : Bool) (cmd : Command) : Option OrderInfo :=
  if a.refusal fillable cmd = none ∧ (a.matching cmd).inc.remaining ≠ 0 ∧ rests cmd.ordType = true ∧
      (a.afterMatch cmd).orders.length < a.cfg.maxOrders then some (a.matching cmd).inc
  else none

theorem lands_iff {o : OrderInfo} : a.lands fillable cmd = some o ↔
    Landing a fillable cmd (a.afterMatch cmd).toFlat o := by
  unfold lands
  constructor
  · intro h
    split at h
    · rename_i hc
      cases h
      exact (refusal_none.mp hc.1).landing hc.2.1 hc.2.2.1 hc.2.2.2
    · cases h
  · intro h
    have h0 := h.opened.1
    rw [h.matched] at h0
    rw [if_pos ⟨refusal_none.mpr h.passes, h0, h.kind, h.room⟩, h.matched]

theorem Landing.lands_eq {g : Flat} {o : OrderInfo} (h : Landing a fillable cmd g o) : a.lands fillable cmd = some o := by
  have hb := h.book
  subst hb
  exact lands_iff.mpr h

theorem handleModify_keep {o : OrderInfo} (hf : a.find cmd.id = some o) (h0 : cmd.quantity ≠ 0) (hk : keepsPlace cmd o) :
    a.handleModify fillable cmd =
      (a.withVars (a.emitReplaced { o with remaining := cmd.quantity } cmd.quantity cmd.tsRecv)).withFlat
        (a.swap o { o with remaining := cmd.quantity }) := by
  unfold handleModify
  rw [hf]
  simp only [h0, hk, if_true, if_false]

theorem handleModify_requeue {o : OrderInfo} (hf : a.find cmd.id = some o) (h0 : cmd.quantity ≠ 0)
    (hk : ¬ keepsPlace cmd o) : a.handleModify fillable cmd =
      (a.withFlat (a.drop o)).handleNew fillable (replacement cmd o) := by
  unfold handleModify
  rw [hf]
  simp only [h0, hk, if_false]

theorem dispatch_modify (ht : cmd.type = .modify) : a.dispatch fillable cmd = a.handleModify fillable cmd := by
  unfold dispatch
  simp only [ht]

/-- What a command comes to. -/
inductive Outcome (a : FlatEngine) (fillable : Bool) (cmd : Command) : FlatEngine → Prop
  | refused (r : RejectReason) (why : (cmd.type = .new ∧ a.halted = true ∧ r = .bookHalted) ∨
        (cmd.type = .new ∧ a.halted = false ∧ a.refusal fillable cmd = some r) ∨
        (cmd.type ≠ .new ∧ a.find cmd.id = none ∧ r = .unknownOrder)) :
      Outcome a fillable cmd (a.withVars (a.emitReject cmd r))
  | admitted (type : cmd.type = .new) (live : a.halted = false) (passes : a.Passes fillable cmd) :
      Outcome a fillable cmd (a.handleAccepted cmd)
  | canceled (o : OrderInfo) (found : a.find cmd.id = some o)
      (why : cmd.type = .cancel ∨ (cmd.type = .modify ∧ cmd.quantity = 0)) :
      Outcome a fillable cmd ((a.withVars (a.emitCanceled o cmd.tsRecv)).withFlat (a.drop o))
  | replaced (o : OrderInfo) (found : a.find cmd.id = some o) (type : cmd.type = .modify) (sized : cmd.quantity ≠ 0)
      (keeps : keepsPlace cmd o) :
      Outcome a fillable cmd ((a.withVars (a.emitReplaced { o with remaining := cmd.quantity } cmd.quantity
        cmd.tsRecv)).withFlat (a.swap o { o with remaining := cmd.quantity }))
  | requeued (o : OrderInfo) (found : a.find cmd.id = some o) (type : cmd.type = .modify) (sized : cmd.quantity ≠ 0)
      (moves : ¬ keepsPlace cmd o) (passes : (a.withFlat (a.drop o)).Passes fillable (replacement cmd o)) :
      Outcome a fillable cmd ((a.withFlat (a.drop o)).handleAccepted (replacement cmd o))
  | lost (o : OrderInfo) (found : a.find cmd.id = some o) (type : cmd.type = .modify) (sized : cmd.quantity ≠ 0)
      (moves : ¬ keepsPlace cmd o) (r : RejectReason)
      (refusal : (a.withFlat (a.drop o)).refusal fillable (replacement cmd o) = some r) :
      Outcome a fillable cmd ((a.withFlat (a.drop o)).withVars (a.emitReject (replacement cmd o) r))

theorem dispatch_outcome (a : FlatEngine) (fillable : Bool) (cmd : Command) :
    Outcome a fillable cmd (a.dispatch fillable cmd) := by
  unfold dispatch
  cases ht : cmd.type with
  | new =>
    simp only
    cases hh : a.halted with
    | true => exact .refused .bookHalted (Or.inl ⟨ht, hh, rfl⟩)
    | false =>
      simp only [Bool.false_eq_true, if_false]
      unfold handleNew
      cases hr : a.refusal fillable cmd with
      | some r => exact .refused r (Or.inr (Or.inl ⟨ht, hh, hr⟩))
      | none => exact .admitted ht hh (refusal_none.mp hr)
  | cancel =>
    simp only
    unfold handleCancel
    cases hf : a.find cmd.id with
    | none => exact .refused .unknownOrder (Or.inr (Or.inr ⟨by simp [ht], hf, rfl⟩))
    | some o => exact .canceled o hf (Or.inl ht)
  | modify =>
    simp only
    cases hf : a.find cmd.id with
    | none =>
      unfold handleModify
      rw [hf]
      exact .refused .unknownOrder (Or.inr (Or.inr ⟨by simp [ht], hf, rfl⟩))
    | some o =>
      by_cases h0 : cmd.quantity = 0
      · have e : a.handleModify fillable cmd = a.handleCancel (Command.makeCancel cmd.id cmd.client cmd.tsRecv) := by
          unfold handleModify; rw [hf]; simp only [h0, if_true]
        have e' : a.handleCancel (Command.makeCancel cmd.id cmd.client cmd.tsRecv) =
            (a.withVars (a.emitCanceled o cmd.tsRecv)).withFlat (a.drop o) := by
          unfold handleCancel
          rw [show (Command.makeCancel cmd.id cmd.client cmd.tsRecv).id = cmd.id from rfl, hf]
          rfl
        rw [e, e']
        exact .canceled o hf (Or.inr ⟨ht, h0⟩)
      by_cases hk : keepsPlace cmd o
      · rw [handleModify_keep hf h0 hk]
        exact .replaced o hf ht h0 hk
      · rw [handleModify_requeue hf h0 hk]
        unfold handleNew
        cases hr : (a.withFlat (a.drop o)).refusal fillable (replacement cmd o) with
        | some r => exact .lost o hf ht h0 hk r hr
        | none => exact .requeued o hf ht h0 hk (refusal_none.mp hr)

/-! ## What a command does to the book -/

/-- It takes orders off, or takes orders off and lets one come to rest. -/
inductive Moves (a : FlatEngine) (fillable : Bool) (cmd : Command) (a' : FlatEngine) : Prop where
  | shrinks (n : Nat) (kept : Kept a a' n) (le : a.arrival ≤ n) (sides : ∀ s, Shrinks (a'.side s) (a.side s))
  | lands (b : FlatEngine) (c : Command) (g : Flat) (o : OrderInfo) (kept : Kept a a' (a.arrival + 1))
      (before : b.toEngineVars = a.toEngineVars ∧ b.cfg = a.cfg) (sides : ∀ s, Shrinks (b.side s) (a.side s))
      (landing : Landing b fillable c g o) (result : a'.toFlat = g.place o)
      (origin : (c = cmd ∧ cmd.type = .new ∧ a.halted = false ∧ b = a) ∨
        ∃ old ∈ a.orders, a.find cmd.id = some old ∧ cmd.type = .modify ∧ c = replacement cmd old ∧
          b = a.withFlat (a.drop old))

theorem Kept.after {b : FlatEngine} {n : Nat} (h : Kept b a' n) (hv : b.toEngineVars = a.toEngineVars) (hc : b.cfg = a.cfg) :
    Kept a a' n :=
  ⟨h.cfg.trans hc, h.arrival, h.halted.trans (by rw [hv]), h.lastBid.trans (by rw [hv]), h.lastAsk.trans (by rw [hv])⟩

theorem reduced_keep {o : OrderInfo} (h0 : cmd.quantity ≠ 0) (hk : keepsPlace cmd o) :
    Reduced { o with remaining := cmd.quantity } o :=
  ⟨rfl, UInt64.le_of_lt hk.2, fun _ => UInt64.pos_iff_ne_zero.mpr h0⟩

theorem drop_sides (a : FlatEngine) (o : OrderInfo) (s : Side) : Shrinks ((a.drop o).side s) (a.side s) :=
  Flat.shrinks_setList (shrinks_erase _ o) s

theorem dispatch_moves (a : FlatEngine) (fillable : Bool) (cmd : Command) :
    Moves a fillable cmd (a.dispatch fillable cmd) := by
  -- an accepted order, sent in to `b`
  have haccepted : ∀ (b : FlatEngine) (c : Command), b.toEngineVars = a.toEngineVars → b.cfg = a.cfg →
      (∀ s, Shrinks (b.side s) (a.side s)) → b.Passes fillable c →
      ((c = cmd ∧ cmd.type = .new ∧ a.halted = false ∧ b = a) ∨
        ∃ old ∈ a.orders, a.find cmd.id = some old ∧ cmd.type = .modify ∧ c = replacement cmd old ∧
          b = a.withFlat (a.drop old)) →
      Moves a fillable cmd (b.handleAccepted c) := by
    intro b c hv hc hb hp ho
    have harr : b.arrival = a.arrival := by rw [hv]
    have hshrink : ∀ s, Shrinks ((b.afterMatch c).side s) (a.side s) := fun s => (matching_shrinks b c s).trans (hb s)
    have hs := accepted_settles b c
    generalize b.handleAccepted c = a' at hs ⊢
    cases hs with
    | filled done =>
      exact .shrinks (b.arrival + 1) ((Kept.of_match (f := (b.afterMatch c).toFlat) (.refl _)).after hv hc)
        (by rw [harr]; exact Nat.le_succ _) hshrink
    | canceled reason open_ why =>
      exact .shrinks (b.arrival + 1)
        ((Kept.of_match (f := (b.afterMatch c).toFlat) (EngineVars.reported_newEvent _)).after hv hc)
        (by rw [harr]; exact Nat.le_succ _) hshrink
    | rested open_ kind room =>
      exact .lands b c _ _ (by rw [← harr]; exact (Kept.of_match (.refl _)).after hv hc) ⟨hv, hc⟩ hb
        (hp.landing open_ kind room) rfl ho
  have ho := dispatch_outcome a fillable cmd
  generalize a.dispatch fillable cmd = a' at ho ⊢
  cases ho with
  | refused r why =>
    exact .shrinks a.arrival (Kept.of_reported (f := a.toFlat) (EngineVars.reported_reject cmd r)) (Nat.le_refl _)
      fun s => Shrinks.refl _
  | admitted type live passes => exact haccepted a cmd rfl rfl (fun s => Shrinks.refl _) passes (Or.inl ⟨rfl, type, live, rfl⟩)
  | canceled o found why =>
    exact .shrinks a.arrival (Kept.of_reported (EngineVars.reported_newEvent _)) (Nat.le_refl _) (drop_sides a o)
  | replaced o found type sized keeps =>
    exact .shrinks a.arrival (Kept.of_reported (EngineVars.reported_newEvent _)) (Nat.le_refl _)
      (Flat.shrinks_setList (shrinks_replace (reduced_keep sized keeps) _))
  | requeued o found type sized moves passes =>
    exact haccepted (a.withFlat (a.drop o)) (replacement cmd o) rfl rfl (drop_sides a o) passes
      (Or.inr ⟨o, (Flat.find_some found).2.1, found, type, rfl, rfl⟩)
  | lost o found type sized moves r refusal =>
    exact .shrinks a.arrival (Kept.of_reported (EngineVars.reported_reject _ r)) (Nat.le_refl _) (drop_sides a o)

theorem dispatch_cfg (a : FlatEngine) (fillable : Bool) (cmd : Command) : (a.dispatch fillable cmd).cfg = a.cfg := by
  cases dispatch_moves a fillable cmd with
  | shrinks n kept le sides => exact kept.cfg
  | lands b c g o kept before sides landing result origin => exact kept.cfg

/-- The order taken off made room for its replacement. -/
theorem requeue_room (hi : a.Inv) {id : OrderId} {o : OrderInfo} (hf : a.find id = some o) (c : Command) :
    ((a.withFlat (a.drop o)).afterMatch c).orders.length < a.cfg.maxOrders := by
  have h1 := (Flat.shrinks_orders (matching_shrinks (a.withFlat (a.drop o)) c)).length_le
  have h2 := Flat.drop_length (hi.mem_side (Flat.find_some hf).2.1)
  have h3 := hi.room
  have h4 : (a.withFlat (a.drop o)).orders.length = (a.drop o).orders.length := rfl
  omega

/-! ## The invariant over a command -/

theorem Inv.moves (h : a.Inv) (hm : Moves a fillable cmd a') : a'.Inv := by
  unfold Inv at h ⊢
  cases hm with
  | shrinks n kept le sides =>
    rw [kept.arrival, kept.cfg]
    exact h.shrink sides le
  | lands b c g o kept before sides landing result origin =>
    rw [kept.arrival, kept.cfg, result]
    have harr : b.arrival = a.arrival := by rw [before.1]
    have hlands := landing.lands
    rw [harr, before.2] at hlands
    have hg : g.Inv a.arrival a.cfg.maxOrders := by
      rw [landing.book]
      exact h.shrink (fun s => (matching_shrinks b c s).trans (sides s)) (Nat.le_refl _)
    refine hg.place hlands ?_ (Nat.le_succ _)
    rw [landing.order, ← harr]
    exact Nat.le_refl _

theorem process_eq (a : FlatEngine) (fillable : Bool) (cmd : Command) :
    (a.process fillable cmd).toFlat = ((a.withVars (a.start 0 cmd)).dispatch fillable cmd).toFlat ∧
    (a.process fillable cmd).cfg = ((a.withVars (a.start 0 cmd)).dispatch fillable cmd).cfg ∧
    (a.process fillable cmd).arrival = ((a.withVars (a.start 0 cmd)).dispatch fillable cmd).arrival ∧
    (a.process fillable cmd).halted = ((a.withVars (a.start 0 cmd)).dispatch fillable cmd).halted := by
  have hb : ∀ c : FlatEngine, (c.bookChanged cmd.tsRecv).arrival = c.arrival ∧
      (c.bookChanged cmd.tsRecv).halted = c.halted := by
    intro c
    unfold bookChanged EngineVars.emitBookChanged withVars
    split <;> exact ⟨rfl, rfl⟩
  unfold process finish
  simp only
  split
  · exact ⟨rfl, rfl, (hb _).1, (hb _).2⟩
  · exact ⟨rfl, rfl, rfl, rfl⟩

theorem Inv.process (h : a.Inv) (fillable : Bool) (cmd : Command) : (a.process fillable cmd).Inv := by
  obtain ⟨e1, e2, e3, _⟩ := process_eq a fillable cmd
  have h' : (a.withVars (a.start 0 cmd)).Inv := h
  have := h'.moves (dispatch_moves (a.withVars (a.start 0 cmd)) fillable cmd)
  unfold Inv at this ⊢
  rw [e1, e2, e3]
  exact this

theorem Inv.init (cfg : EngineConfig) (cap : Nat) : (init cfg cap).Inv := by
  refine ⟨fun _ => List.Pairwise.nil, List.nodup_nil, ?_, ?_, ?_, List.Pairwise.nil, ?_, Nat.zero_le _⟩
  · intro o ho; cases ho
  · intro o ho; cases ho
  · intro _ o ho; cases ho
  · intro o ho; cases ho

end FlatEngine

end Lob
