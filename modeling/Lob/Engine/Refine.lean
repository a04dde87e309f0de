/-
  Lob.Engine.Refine — the engine refines the flat engine, over every lawful book.

  `Refines e a`: the engine's store holds the flat lists of `a`, and everything it has
  reported is the same, clock readings aside. `process_refines`: a command keeps it. The
  flat engine is told how the fill-or-kill sizing came out (`Engine.fillable`);
  `Refines.fillable_eq` says that it is the flat lists' own answer when no resting order
  sits at the sentinel. `process` is undefined only where an order would rest out of band.
-/

import Lob.Engine.MatchRefine
import Lob.Engine.Queries

namespace Lob

variable {B : Type} [Book B] [LawfulBook B]

/-! ## The refinement -/

structure Refines (e : Engine B) (a : FlatEngine) : Prop where
  vars : e.untimed = a.toEngineVars
  cfg : e.cfg = a.cfg
  rep : ∃ T, Rep e.cfg.maxOrders e.cfg.minPrice e.cfg.maxPrice e.toStore T a.toFlat

structure Simulates (e : Engine B) (a : FlatEngine) : Prop where
  refines : Refines e a
  inv : a.Inv

namespace Engine

/-- How the fill-or-kill sizing of `handle_new` comes out. -/
def fillable (e : Engine B) (cmd : Command) : Bool :=
  decide (cmd.quantity ≤ Book.marketableQty e.book cmd.side (limitOf cmd))

end Engine

variable {e e' : Engine B} {a a' : FlatEngine} {cmd : Command}

/-- Reporting alike keeps the refinement. -/
theorem Refines.withVars (h : Refines e a) {v w : EngineVars} (hv : v.untimed = w) :
    Refines (e.withVars v) (a.withVars w) := ⟨hv, h.cfg, h.rep⟩

theorem Refines.emit (h : Refines e a) (emit : EngineVars → EngineVars)
    (hemit : ∀ v, (emit v).untimed = emit v.untimed) :
    Refines (e.withVars (emit e.toEngineVars)) (a.withVars (emit a.toEngineVars)) :=
  h.withVars (by rw [hemit, h.vars])

theorem Refines.fillable_eq (h : Refines e a) (hr : Real a.cfg.minPrice (a.side (opposite cmd.side))) :
    e.fillable cmd = a.fillable cmd := by
  obtain ⟨T, hrep⟩ := h.rep
  unfold Engine.fillable FlatEngine.fillable FlatEngine.marketable
  rw [hrep.marketableQty (by rw [h.cfg]; exact hr)]

theorem Refines.wouldCross_eq (h : Refines e a) (cmd : Command) : e.wouldCross cmd = a.wouldCross cmd := by
  obtain ⟨T, hrep⟩ := h.rep
  unfold Engine.wouldCross FlatEngine.wouldCross
  rcases hrep.best (opposite cmd.side) with ⟨e1, e2⟩ | ⟨l, o, L, e1, e2, e3, _⟩
  · rw [e1, e2]; rfl
  · rw [e1, e2]
    simp only [List.head?_cons, e3]

theorem Refines.inBand_eq (h : Refines e a) (p : Price) : Book.inBand e.book p = decide (a.inBand p) := by
  obtain ⟨T, hrep⟩ := h.rep
  rw [LawfulBook.inBand_eq, hrep.low, hrep.high, h.cfg]
  rfl

/-- A lookup by id, in the index and in the flat engine. -/
theorem Refines.find_eq (h : Refines e a) (id : OrderId) :
    ∃ r, e.find id = some r ∧ a.find id = r.map fun p => (e.order p).toOrderInfo := by
  obtain ⟨T, hrep⟩ := h.rep
  obtain ⟨r, hr, hflat, _⟩ := hrep.find_eq id
  exact ⟨r, hr, hflat⟩

theorem Refines.halted_eq (h : Refines e a) : e.halted = a.halted :=
  (congrArg EngineVars.halted h.vars : e.untimed.halted = _)

theorem Refines.refusal_eq (h : Refines e a) (cmd : Command) :
    e.refusal cmd = some (a.refusal (e.fillable cmd) cmd) := by
  obtain ⟨r, hfind, hflat⟩ := h.find_eq cmd.id
  unfold Engine.refusal FlatEngine.refusal
  rw [h.inBand_eq, h.wouldCross_eq, hfind, hflat]
  by_cases h0 : cmd.quantity = 0
  · rw [if_pos h0, if_pos h0]
  rw [if_neg h0, if_neg h0]
  by_cases hb : isMarket cmd = false ∧ ¬ a.inBand cmd.price
  · rw [if_pos (by simpa using hb), if_pos hb]
  rw [if_neg (by simpa using hb), if_neg hb, Option.map_some]
  congr 1
  cases r with
  | some p => rfl
  | none => simp [Engine.fillable, UInt64.not_le]

/-! ## An accepted order -/

/-- Flat lists that agree side by side, and in size. -/
theorem flat_ext {f g : Flat} (s : Side) (h1 : f.side s = g.side s) (h2 : f.side (opposite s) = g.side (opposite s))
    (h3 : f.size = g.size) (h4 : f.cap = g.cap) : f = g := by
  obtain ⟨fs, fn, fc⟩ := f
  obtain ⟨gs, gn, gc⟩ := g
  have : fs = gs := by
    funext t
    rcases eq_or_opposite s t with rfl | rfl
    · exact h1
    · exact h2
  simp_all

/-- The match of an accepted order. -/
theorem Refines.match (h : Refines e a) (cmd : Command) : ∃ s : Engine.Matching B,
    (({ e with arrival := e.arrival + 1 } : Engine B).withVars
      (({ e with arrival := e.arrival + 1 } : Engine B).emitAccepted cmd (limitOf cmd))).matchOrder
        (incomingOrder cmd (e.arrival + 1)) cmd.client = some s ∧
    Refines s.eng (a.afterMatch cmd) ∧ s.inc = (a.matching cmd).inc ∧
    s.filled = (a.matching cmd).filled := by
  obtain ⟨T, hrep⟩ := h.rep
  let e1 : Engine B := ({ e with arrival := e.arrival + 1 } : Engine B).withVars
    (({ e with arrival := e.arrival + 1 } : Engine B).emitAccepted cmd (limitOf cmd))
  have harr : e.arrival = a.arrival := (congrArg EngineVars.arrival h.vars : e.untimed.arrival = _)
  have hvars : e1.untimed = a.accepted cmd := by
    show (EngineVars.emitAccepted _ cmd (limitOf cmd)).untimed = _
    rw [EngineVars.untimed_accepted]
    unfold FlatEngine.accepted
    rw [← h.vars]
    rfl
  obtain ⟨s, T', f', he, hrep', hcfg, hr, ht⟩ :=
    matchOrder_spec (e := e1) hrep (incomingOrder cmd (e.arrival + 1)) cmd.client
  have hm : refMatch e1.cfg.stp cmd.client e1.untimed (incomingOrder cmd (e.arrival + 1)) 0
      (a.side (opposite (incomingOrder cmd (e.arrival + 1)).side)) = a.matching cmd := by
    unfold FlatEngine.matching
    rw [hvars, harr, show e1.cfg = a.cfg from h.cfg]
    rfl
  rw [hm] at hr ht
  have hcfg : s.eng.cfg = e.cfg := hcfg
  have hf : f' = (a.afterMatch cmd).toFlat := by
    refine flat_ext (opposite cmd.side) ?_ ?_ ht.size ht.cap
    · rw [FlatEngine.afterMatch_side, if_pos rfl, hr]
      rfl
    · refine ht.other.trans ?_
      rw [FlatEngine.afterMatch_side, if_neg (by simp)]
      rfl
  refine ⟨s, he, ⟨?_, hcfg.trans h.cfg, ⟨T', ?_⟩⟩, ?_, ?_⟩
  · show s.eng.untimed = (a.matching cmd).vars
    rw [hr]
  · rw [hcfg, ← hf]; exact hrep'
  · rw [hr]
  · rw [hr]

/-- What `submit` comes to: the flat engine is done too, or an order and a free slot are
    handed to the book. -/
inductive Submitted (a : FlatEngine) (fillable : Bool) (cmd : Command) : Engine B → Option (Ptr × OrderInfo) → Prop
  | done {e : Engine B} (refines : Refines e (a.handleNew fillable cmd)) : Submitted a fillable cmd e none
  | handed {b : Engine B} {slot : Ptr} {pool : ObjectPool} {o : OrderInfo}
      (refines : Refines b (a.afterMatch cmd))
      (acquire : b.pool.acquire = some (slot, pool))
      (landing : a.Landing fillable cmd (a.afterMatch cmd).toFlat o)
      (result : a.handleNew fillable cmd = (a.afterMatch cmd).withFlat
        ((a.afterMatch cmd).place o)) :
      Submitted a fillable cmd { b with pool := pool } (some (slot, o))

theorem submit_spec (h : Refines e a) (cmd : Command) :
    ∃ e' r, e.submit cmd = some (e', r) ∧ r.map (·.2) = a.lands (e.fillable cmd) cmd ∧
      Submitted a (e.fillable cmd) cmd e' r := by
  unfold Engine.submit
  rw [h.refusal_eq]
  simp only [Option.bind_eq_bind, Option.bind_some]
  cases hr : a.refusal (e.fillable cmd) cmd with
  | some r =>
    refine ⟨_, _, rfl, by simp [FlatEngine.lands, hr], .done ?_⟩
    unfold FlatEngine.handleNew
    rw [hr]
    exact h.emit (fun v => v.emitReject cmd r) fun v => v.untimed_reject cmd r
  | none =>
    have hnew : a.handleNew (e.fillable cmd) cmd = a.handleAccepted cmd := by
      unfold FlatEngine.handleNew; rw [hr]
    have hp := FlatEngine.refusal_none.mp hr
    obtain ⟨s, hs, hm, hinc, _⟩ := h.match cmd
    obtain ⟨T, hrep⟩ := hm.rep
    have htype : s.inc.type = cmd.ordType := by rw [hinc, FlatEngine.matching_inc]; rfl
    simp only [hs, Option.bind_some, htype]
    have hrem : s.inc.remaining = (a.matching cmd).inc.remaining := by rw [hinc]
    rw [hrem]
    -- what is left of the order is emitted alike
    have hleft : ∀ reason, Refines (s.eng.withVars (s.eng.emitRemainder cmd (limitOf cmd) (a.matching cmd).inc.remaining reason))
        ((a.afterMatch cmd).withVars ((a.afterMatch cmd).emitRemainder cmd
          (limitOf cmd) (a.matching cmd).inc.remaining reason)) := fun reason =>
      hm.emit (fun v => v.emitRemainder cmd (limitOf cmd) (a.matching cmd).inc.remaining reason)
        fun v => v.untimed_remainder ..
    have hroom : (a.afterMatch cmd).cfg.maxOrders ≤ (a.afterMatch cmd).orders.length ↔
        s.eng.pool.acquire = none := by
      have hlen := hrep.length_le
      rw [acquire_none, hrep.orders, ← List.length_eq_zero_iff, ← hm.cfg]
      unfold infos
      rw [List.length_map]
      omega
    unfold FlatEngine.handleAccepted at hnew
    simp only at hnew
    by_cases h0 : (a.matching cmd).inc.remaining = 0
    · rw [if_pos h0] at hnew ⊢
      exact ⟨_, _, rfl, by simp [FlatEngine.lands, h0], .done (by rw [hnew]; exact hm)⟩
    rw [if_neg h0] at hnew ⊢
    by_cases hrest : rests cmd.ordType = false
    · rw [if_pos hrest] at hnew ⊢
      exact ⟨_, _, rfl, by simp [FlatEngine.lands, hrest], .done (by rw [hnew]; exact hleft .none)⟩
    rw [if_neg hrest] at hnew ⊢
    cases hacq : s.eng.pool.acquire with
    | none =>
      rw [if_pos (hroom.mpr hacq)] at hnew
      refine ⟨_, _, rfl, ?_, .done (by rw [hnew]; exact hleft .poolExhausted)⟩
      unfold FlatEngine.lands
      rw [if_neg fun h => absurd h.2.2.2 (Nat.not_lt.mpr (hroom.mpr hacq))]
      rfl
    | some x =>
      obtain ⟨slot, pool⟩ := x
      have hfree : ¬ ((a.afterMatch cmd).cfg.maxOrders ≤
          (a.afterMatch cmd).orders.length) := by
        rw [hroom, hacq]; simp
      rw [if_neg hfree] at hnew
      refine ⟨_, _, rfl, ?_, .handed hm hacq ⟨rfl, hinc, ?_, ?_, hp, by simpa using hrest, Nat.lt_of_not_le hfree, ?_⟩ ?_⟩
      · unfold FlatEngine.lands
        rw [if_pos ⟨hr, h0, by simpa using hrest, Nat.lt_of_not_le hfree⟩, hinc]
        rfl
      · rw [hinc]; exact FlatEngine.matching_inc a cmd
      · rw [hrem]; exact ⟨h0, FlatEngine.matching_le a cmd⟩
      · intro x hx
        rw [hinc, FlatEngine.matching_inc]
        exact FlatEngine.matching_stop a cmd h0 x hx
      · rw [hnew, hinc]

theorem handleNew_refines (h : Refines e a) (cmd : Command) :
    (e.handleNew cmd = none → ∃ o, a.Landing (e.fillable cmd) cmd (a.afterMatch cmd).toFlat o ∧
      ¬ a.inBand o.price) ∧
    ∀ e', e.handleNew cmd = some e' → Refines e' (a.handleNew (e.fillable cmd) cmd) := by
  obtain ⟨e1, r, hsub, _, hs⟩ := submit_spec h cmd
  unfold Engine.handleNew
  rw [hsub]
  simp only [Option.bind_eq_bind, Option.bind_some]
  cases hs with
  | done hd =>
    refine ⟨fun e => (by cases e), fun e' he => ?_⟩
    cases he
    exact hd
  | @handed b slot pool o hb hacq hl hres =>
    obtain ⟨T, hrep⟩ := hb.rep
    have hfresh : ∀ p ∈ slots T, (b.toStore.order p).id = o.id → o.id = 0 := by
      intro p hp
      refine hl.lands.fresh (b.toStore.order p).toOrderInfo ?_
      rw [hrep.orders]
      exact List.mem_map_of_mem hp
    obtain ⟨hnone, hsome⟩ := hrep.place hacq o hfresh
    constructor
    · intro e
      refine ⟨o, hl, ?_⟩
      rw [Option.bind_eq_none_iff] at e
      have : Store.place { b.toStore with pool := pool } slot o = none := by
        cases hp : Store.place { b.toStore with pool := pool } slot o with
        | none => rfl
        | some st => exact absurd (e st hp) (by simp)
      have hb' := hnone this
      rw [hb.cfg] at hb'
      exact hb'
    · intro e' he
      obtain ⟨st, hst, he⟩ := Option.bind_eq_some_iff.mp he
      cases he
      obtain ⟨T', hrep'⟩ := hsome st hst
      rw [hres]
      exact ⟨hb.vars, hb.cfg, T', hrep'⟩

/-! ## An order found -/

/-- An order of a flat list with distinct arrivals, and the lists around it. -/
theorem not_mem_of_seqs {f : Flat} {arrival k : Nat} (h : f.Inv arrival k) {s : Side} {L M : List OrderInfo} {o : OrderInfo}
    (hs : f.side s = L ++ o :: M) : o ∉ L := by
  intro ho
  have hnd := (h.seqs.perm ((orders_perm f s).map _)).sublist ((List.sublist_append_left _ _).map _)
  rw [hs, List.map_append, List.map_cons, List.nodup_append] at hnd
  exact hnd.2.2 _ (List.mem_map_of_mem ho) _ (by simp) rfl

/-- A found order: its slot, its rung, and its place in the flat list. -/
theorem Rep.found {n arrival k : Nat} {lo hi : Price} {st : Store B} {T : Side → List Rung} {f : Flat}
    (h : Rep n lo hi st T f) (hi : f.Inv arrival k) {p : Ptr} (hp : p ∈ slots T) :
    ∃ s xs l q c ys, T s = xs ++ (l, q ++ p :: c) :: ys ∧ (st.order p).side = s ∧
      f.side s = infos st.pool.storage (ptrs xs ++ q) ++ (st.order p).toOrderInfo :: infos st.pool.storage (c ++ ptrs ys) ∧
      (st.order p).toOrderInfo ∉ infos st.pool.storage (ptrs xs ++ q) := by
  obtain ⟨s, hps⟩ := side_of_mem_slots hp
  obtain ⟨xs, l, q, c, ys, hT⟩ := rung_of_mem hps
  have hside : f.side s = infos st.pool.storage (ptrs xs ++ q) ++ (st.order p).toOrderInfo ::
      infos st.pool.storage (c ++ ptrs ys) := by
    rw [h.flat, hT]
    simp [infos, ptrs, Store.order]
  exact ⟨s, xs, l, q, c, ys, hT, ((h.side s).rung_at hT).2.1, hside, not_mem_of_seqs hi hside⟩

theorem Simulates.drop (h : Simulates e a) {o : OrderInfo} {id : OrderId} {p : Ptr} (hfind : e.find id = some (some p))
    (ho : a.find id = some o) : o = (e.toStore.order p).toOrderInfo ∧
    ∃ st', e.toStore.drop p id = some st' ∧ Refines (e.withStore st') (a.withFlat (a.drop o)) := by
  obtain ⟨T, hrep⟩ := h.refines.rep
  obtain ⟨r, hr, hflat, hslot⟩ := hrep.find_eq id
  have hfind' : e.toStore.find id = some (some p) := hfind
  rw [hfind'] at hr
  obtain rfl : some p = r := Option.some.inj hr
  obtain ⟨hp, hid, _⟩ := hslot p rfl
  have hoe : o = (e.toStore.order p).toOrderInfo := by
    have := ho.symm.trans hflat
    simpa using this
  refine ⟨hoe, ?_⟩
  obtain ⟨s, xs, l, q, c, ys, hT, hside, hflat, hnot⟩ := hrep.found h.inv hp
  obtain ⟨st', l', hdrop, hrep', _, _⟩ := hrep.drop hT
  rw [hid] at hdrop hrep'
  refine ⟨st', hdrop, h.refines.vars, h.refines.cfg, setSide T s (xs ++ rung l' (q ++ c) ++ ys), ?_⟩
  have hos : o.side = s := by rw [hoe]; exact hside
  have hf : a.toFlat.without s (infos e.pool.storage (ptrs xs ++ q ++ (c ++ ptrs ys))) id = a.drop o := by
    unfold Flat.without Flat.drop
    rw [hos, show o.id = id from by rw [hoe]; exact hid, hflat, List.erase_append_right _ (by rw [hoe]; exact hnot), hoe,
      List.erase_cons_head]
    unfold infos
    exact congrArg (fun L => { a.toFlat.setList s L with size := if id = 0 then a.size else a.size - 1 }) List.map_append
  rw [hf] at hrep'
  exact hrep'

theorem handleCancel_refines (h : Simulates e a) (cmd : Command) :
    ∃ e', e.handleCancel cmd = some e' ∧ Refines e' (a.handleCancel cmd) := by
  obtain ⟨r, hfind, hflat⟩ := h.refines.find_eq cmd.id
  unfold Engine.handleCancel FlatEngine.handleCancel
  rw [hfind, hflat]
  cases r with
  | none =>
    exact ⟨_, rfl, h.refines.emit (fun v => v.emitReject cmd .unknownOrder) fun v => v.untimed_reject cmd _⟩
  | some p =>
    obtain ⟨_, st', hdrop, href⟩ := h.drop hfind hflat
    simp only [Option.bind_eq_bind, Option.bind_some, Option.map_some]
    have hdrop' : Store.drop (e.withVars (e.emitCanceled (e.order p).toOrderInfo cmd.tsRecv)).toStore p cmd.id = some st' := hdrop
    rw [hdrop', Option.bind_some]
    refine ⟨_, rfl, ?_⟩
    exact href.emit (fun v => v.emitCanceled (e.toStore.order p).toOrderInfo cmd.tsRecv) fun v => v.untimed_canceled ..

/-- What `handle_modify` comes to before it calls `handle_new`. -/
inductive Amended (a : FlatEngine) (cmd : Command) : Engine B → Option Command → Prop
  | done {e : Engine B} (still : ∀ o, a.find cmd.id = some o → cmd.quantity = 0 ∨ FlatEngine.keepsPlace cmd o)
      (refines : ∀ fillable, Refines e (a.handleModify fillable cmd)) : Amended a cmd e none
  | again {e : Engine B} {o : OrderInfo} (found : a.find cmd.id = some o) (sized : cmd.quantity ≠ 0)
      (requeue : ¬ FlatEngine.keepsPlace cmd o) (refines : Refines e (a.withFlat (a.drop o))) :
      Amended a cmd e (some (FlatEngine.replacement cmd o))

/-- Changing one order where it stands. -/
theorem Rep.swap_eq {n arrival k : Nat} {lo hi : Price} {st st' : Store B} {T T' : Side → List Rung} {f f' : Flat}
    (h : Rep n lo hi st T f) (h' : Rep n lo hi st' T' f') (hi : f.Inv arrival k) {p : Ptr} (hp : p ∈ slots T)
    (hptr : ∀ t, ptrs (T' t) = ptrs (T t))
    (hsame : ∀ r, r ≠ p → (st'.order r).toOrderInfo = (st.order r).toOrderInfo) (hsize : f'.size = f.size)
    (hcap : f'.cap = f.cap) : f' = f.swap (st.order p).toOrderInfo (st'.order p).toOrderInfo := by
  obtain ⟨s, xs, l, q, c, ys, hT, hside, hflat, hnot⟩ := h.found hi hp
  have hkeep : ∀ L : List Ptr, p ∉ L → infos st'.pool.storage L = infos st.pool.storage L := fun L hL =>
    List.map_congr_left fun r hr => hsame r fun e => hL (e ▸ hr)
  have hnd := (slots_perm T s).nodup_iff.mp (List.nodup_append.mp h.nodup).1
  have hptrs : ptrs (T s) = (ptrs xs ++ q) ++ p :: (c ++ ptrs ys) := by rw [hT]; simp
  have hns := (List.nodup_append.mp hnd).1
  rw [hptrs, List.nodup_append, List.nodup_cons] at hns
  unfold Flat.swap
  rw [hside]
  refine flat_ext s ?_ ?_ hsize hcap
  · have h1 := hkeep (ptrs xs ++ q) fun hm => hns.2.2 p hm p (by simp) rfl
    have h2 := hkeep (c ++ ptrs ys) hns.2.1.1
    rw [setList_side, hflat, List.replace_append_right hnot, List.replace_cons_self, h'.flat, hptr, hptrs, ← h1, ← h2]
    simp [infos, Store.order]
  · rw [setList_opposite, h.flat, h'.flat, hptr]
    exact hkeep _ fun hm => (List.nodup_append.mp hnd).2.2 p (by rw [hptrs]; simp) p hm rfl

omit [Book B] [LawfulBook B] in
theorem setQuantity_order (st : Store B) (p r : Ptr) (q : Quantity) : ((st.setQuantity p q).order r).toOrderInfo =
    if r = p then { (st.order p).toOrderInfo with quantity := q } else (st.order r).toOrderInfo := by
  show (Function.update st.pool.storage p { st.pool.storage p with quantity := q } r).toOrderInfo = _
  by_cases e : r = p
  · rw [e, Function.update_self, if_pos rfl]; rfl
  · rw [Function.update_of_ne e, if_neg e]; rfl

/-- Size down in place. -/
theorem Simulates.keep (h : Simulates e a) {p : Ptr} (hfind : e.find cmd.id = some (some p))
    (hk : FlatEngine.keepsPlace cmd (e.order p).toOrderInfo) : ∃ st',
    e.toStore.reduce p ((e.order p).remaining - cmd.quantity) = some st' ∧
    let st' := st'.setQuantity p (cmd.quantity + (st'.order p).filled)
    (st'.order p).toOrderInfo = { (e.order p).toOrderInfo with remaining := cmd.quantity } ∧
    Refines (e.withStore st') (a.withFlat (a.swap (e.order p).toOrderInfo
      { (e.order p).toOrderInfo with remaining := cmd.quantity })) := by
  obtain ⟨T, hrep⟩ := h.refines.rep
  obtain ⟨r, hr, _, hslot⟩ := hrep.find_eq cmd.id
  rw [show e.toStore.find cmd.id = some (some p) from hfind] at hr
  obtain rfl : some p = r := Option.some.inj hr
  obtain ⟨hp, _, _⟩ := hslot p rfl
  obtain ⟨s, xs, l, q, c, ys, hT, _, _, _⟩ := hrep.found h.inv hp
  have hle : cmd.quantity ≤ (e.order p).remaining := UInt64.le_of_lt hk.2
  obtain ⟨st', R, hred, hptr, hsto, _, hrep'⟩ := hrep.reduce hT (UInt64.sub_le hle)
  -- less open first, then the quantity made up from what was filled
  have hrem : (st'.order p).toOrderInfo = { (e.order p).toOrderInfo with remaining := cmd.quantity } := by
    have : (e.order p).remaining - ((e.order p).remaining - cmd.quantity) = cmd.quantity := by grind
    show (st'.pool.storage p).toOrderInfo = _
    rw [hsto, takeFrom_self]
    show { (e.order p).toOrderInfo with
      remaining := (e.order p).remaining - ((e.order p).remaining - cmd.quantity) } = _
    rw [this]
  have hqty : cmd.quantity + (st'.order p).filled = (e.order p).quantity := by
    unfold OrderInfo.filled
    rw [hrem]
    show cmd.quantity + ((e.order p).quantity - cmd.quantity) = _
    grind
  have hinfo : ((st'.setQuantity p (cmd.quantity + (st'.order p).filled)).order p).toOrderInfo =
      { (e.order p).toOrderInfo with remaining := cmd.quantity } := by
    rw [setQuantity_order, if_pos rfl, hqty, hrem]
  have hset := hrep'.setQuantity p (cmd.quantity + (st'.order p).filled)
  refine ⟨st', hred, hinfo, h.refines.vars, h.refines.cfg, setSide T s R, ?_⟩
  rw [← hinfo]
  have hswap := hrep.swap_eq hset h.inv hp (fun t => ?_) (fun r hr => ?_) rfl rfl
  · rw [hswap] at hset
    exact hset
  · rcases eq_or_opposite s t with rfl | rfl
    · rw [setSide_same, hptr]
    · rw [setSide_opposite]
  · rw [setQuantity_order, if_neg hr]
    show (st'.pool.storage r).toOrderInfo = _
    rw [hsto, takeFrom_of_ne _ _ hr]
    rfl

theorem amend_spec (h : Simulates e a) (cmd : Command) :
    ∃ e' r, e.amend cmd = some (e', r) ∧ Amended a cmd e' r := by
  obtain ⟨r, hfind, hflat⟩ := h.refines.find_eq cmd.id
  unfold Engine.amend
  rw [hfind, Option.bind_eq_bind, Option.bind_some]
  cases r with
  | none =>
    refine ⟨_, _, rfl, .done (fun o ho => (by rw [hflat] at ho; cases ho)) fun fillable => ?_⟩
    unfold FlatEngine.handleModify
    rw [hflat]
    exact h.refines.emit (fun v => v.emitReject cmd .unknownOrder) fun v => v.untimed_reject cmd _
  | some p =>
    rw [Option.map_some] at hflat
    by_cases h0 : cmd.quantity = 0
    · obtain ⟨e', he, hc⟩ := handleCancel_refines h (Command.makeCancel cmd.id cmd.client cmd.tsRecv)
      refine ⟨e', none, ?_, .done (fun _ _ => Or.inl h0) fun fillable => ?_⟩
      · simp only [if_pos h0, he, Option.bind_eq_bind, Option.bind_some]
      · unfold FlatEngine.handleModify
        rw [hflat]
        simp only [h0, if_true]
        exact hc
    by_cases hk : FlatEngine.keepsPlace cmd (e.order p).toOrderInfo
    · obtain ⟨st', hred, hinfo, href⟩ := h.keep hfind hk
      let st2 := st'.setQuantity p (cmd.quantity + (st'.order p).filled)
      refine ⟨(e.withStore st2).withVars (e.emitReplaced (st2.order p).toOrderInfo cmd.quantity cmd.tsRecv), none, ?_,
        .done (fun o ho => Or.inr (Option.some.inj (hflat.symm.trans ho) ▸ hk)) fun fillable => ?_⟩
      · simp only [if_neg h0]
        rw [if_pos (show newPrice cmd (e.order p).price = (e.order p).price ∧ cmd.quantity < (e.order p).remaining from hk),
          hred]
        rfl
      · rw [FlatEngine.handleModify_keep hflat h0 hk]
        have := href.emit (fun v => v.emitReplaced { (e.order p).toOrderInfo with remaining := cmd.quantity } cmd.quantity
          cmd.tsRecv) fun v => v.untimed_replaced ..
        rw [← hinfo] at this
        rw [← hinfo]
        exact this
    · obtain ⟨_, st', hdrop, href⟩ := h.drop hfind hflat
      refine ⟨e.withStore st', some (FlatEngine.replacement cmd (e.order p).toOrderInfo), ?_, .again hflat h0 hk href⟩
      simp only [if_neg h0]
      rw [if_neg (show ¬ (newPrice cmd (e.order p).price = (e.order p).price ∧ cmd.quantity < (e.order p).remaining) from hk),
        hdrop]
      rfl

/-! ## A command -/

/-- Only a fill-or-kill order asks how the sizing came out. -/
theorem refusal_irrelevant (hf : cmd.ordType ≠ .fok) (b b' : Bool) : a.refusal b cmd = a.refusal b' cmd := by
  unfold FlatEngine.refusal
  simp only [hf, false_and, if_false]

/-- What an undefined command was about to do: `o` would rest out of band. -/
inductive Stray (a : FlatEngine) (fillable : Bool) (cmd : Command) : Prop
  | new (o : OrderInfo) (type : cmd.type = .new) (live : a.halted = false)
      (landing : a.Landing fillable cmd (a.afterMatch cmd).toFlat o) (out : ¬ a.inBand o.price)
  | modify (old o : OrderInfo) (type : cmd.type = .modify) (found : a.find cmd.id = some old)
      (landing : ∃ g, (a.withFlat (a.drop old)).Landing fillable (FlatEngine.replacement cmd old) g o)
      (out : ¬ a.inBand o.price)

theorem handleModify_refines (h : Simulates e a) (cmd : Command) (fillable : Bool) :
    (e.handleModify cmd = none → ∃ old o, a.find cmd.id = some old ∧
      (∃ g, (a.withFlat (a.drop old)).Landing fillable (FlatEngine.replacement cmd old) g o) ∧ ¬ a.inBand o.price) ∧
    ∀ e', e.handleModify cmd = some e' → Refines e' (a.handleModify fillable cmd) := by
  obtain ⟨e1, r, hamend, hs⟩ := amend_spec h cmd
  unfold Engine.handleModify
  rw [hamend]
  simp only [Option.bind_eq_bind, Option.bind_some]
  cases hs with
  | done still hd =>
    refine ⟨fun e => (by cases e), fun e' he => ?_⟩
    cases he
    exact hd fillable
  | @again old hfound h0 hk href =>
    have hfok : (FlatEngine.replacement cmd old).ordType ≠ .fok := by
      intro e
      have hkind := h.inv.kinds old (Flat.find_some hfound).2.1
      rw [show old.type = .fok from e] at hkind
      exact absurd hkind (by decide)
    obtain ⟨hnone, hsome⟩ := handleNew_refines href (FlatEngine.replacement cmd old)
    rw [FlatEngine.handleModify_requeue hfound h0 hk]
    constructor
    · intro he
      obtain ⟨o, hl, hout⟩ := hnone he
      refine ⟨old, o, hfound, ⟨_, { hl with passes := FlatEngine.refusal_none.mp ?_ }⟩, hout⟩
      rw [refusal_irrelevant hfok fillable]
      exact FlatEngine.refusal_none.mpr hl.passes
    · intro e' he
      have := hsome e' he
      unfold FlatEngine.handleNew at this ⊢
      rw [refusal_irrelevant hfok fillable]
      exact this

theorem dispatch_refines (h : Simulates e a) (cmd : Command) :
    (e.dispatch cmd = none → Stray a (e.fillable cmd) cmd) ∧
    ∀ e', e.dispatch cmd = some e' → Refines e' (a.dispatch (e.fillable cmd) cmd) := by
  have hhalt := h.refines.halted_eq
  unfold Engine.dispatch FlatEngine.dispatch
  cases ht : cmd.type with
  | new =>
    simp only [hhalt]
    by_cases hh : a.halted = true
    · rw [if_pos hh, if_pos hh]
      refine ⟨fun e => (by cases e), fun e' he => ?_⟩
      cases he
      exact h.refines.emit (fun v => v.emitReject cmd .bookHalted) fun v => v.untimed_reject cmd _
    · rw [if_neg hh, if_neg hh]
      obtain ⟨hnone, hsome⟩ := handleNew_refines h.refines cmd
      refine ⟨fun e => ?_, hsome⟩
      obtain ⟨o, hl, hout⟩ := hnone e
      exact .new o ht (by simpa using hh) hl hout
  | cancel =>
    obtain ⟨e', he, hc⟩ := handleCancel_refines h cmd
    simp only [he]
    refine ⟨fun e => (by cases e), fun e'' he'' => ?_⟩
    cases he''
    exact hc
  | modify =>
    obtain ⟨hnone, hsome⟩ := handleModify_refines h cmd (e.fillable cmd)
    refine ⟨fun e => ?_, hsome⟩
    obtain ⟨old, o, hf, hl, hout⟩ := hnone e
    exact .modify old o ht hf hl hout

theorem Refines.finish (h : Refines e a) (cmd : Command) : Refines (e.finish cmd) (a.finish cmd) := by
  obtain ⟨T, hrep⟩ := h.rep
  have hb : Refines (if e.cfg.emitBookChanged then e.bookChanged cmd.tsRecv else e)
      (if a.cfg.emitBookChanged then a.bookChanged cmd.tsRecv else a) := by
    rw [h.cfg]
    split
    · unfold Engine.bookChanged FlatEngine.bookChanged Book.bestBid Book.bestAsk
      simp only [hrep.bestQty, hrep.bestPrice]
      exact h.emit (fun v => v.emitBookChanged ..) fun v => v.untimed_bookChanged ..
    · exact h
  unfold Engine.finish FlatEngine.finish
  simp only
  generalize (if e.cfg.emitBookChanged then e.bookChanged cmd.tsRecv else e) = e1 at hb
  generalize (if a.cfg.emitBookChanged then a.bookChanged cmd.tsRecv else a) = a1 at hb
  obtain ⟨T1, hrep1⟩ := hb.rep
  have ht : Refines ({ e1 with pool := e1.pool.tickHighWater } : Engine B) a1 :=
    ⟨hb.vars, hb.cfg, T1, { hrep1 with }⟩
  rw [show e1.index.size = a1.size from hrep1.size]
  exact ht.emit (fun v => v.tickPeak a1.size) fun v => v.untimed_tickPeak ..

theorem Simulates.start (h : Simulates e a) (now : TsNanos) (cmd : Command) :
    Simulates (e.withVars (e.start now cmd)) (a.withVars (a.start 0 cmd)) :=
  ⟨h.refines.withVars (by rw [EngineVars.untimed_start, h.refines.vars]), h.inv⟩

theorem process_refines (h : Simulates e a) (now : TsNanos) (cmd : Command) :
    (e.process now cmd = none → Stray (a.withVars (a.start 0 cmd)) (e.fillable cmd) cmd) ∧
    ∀ e', e.process now cmd = some e' → Simulates e' (a.process (e.fillable cmd) cmd) := by
  obtain ⟨hnone, hsome⟩ := dispatch_refines (h.start now cmd) cmd
  unfold Engine.process
  simp only [Option.bind_eq_bind]
  constructor
  · intro he
    refine hnone ?_
    cases hd : (e.withVars (e.start now cmd)).dispatch cmd with
    | none => rfl
    | some e1 => rw [hd] at he; cases he
  · intro e' he
    obtain ⟨e1, hd, he⟩ := Option.bind_eq_some_iff.mp he
    cases he
    exact ⟨(hsome e1 hd).finish cmd, h.inv.process _ cmd⟩

end Lob
