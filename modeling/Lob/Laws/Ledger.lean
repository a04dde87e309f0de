/-
  Lob.Laws.Ledger — a client can keep the open quantities from the events alone.

  `Ledger.post` is the client's book-keeping; it has no entry for an event that does not
  fit. `listed` is the ledger that the resting orders make up. Every command posts from
  one to the other (`dispatch_post`), but for two kinds: an amend refused under way, and one
  in which self-trade prevention cancels something, which it reports with quantity 0.
-/

import Lob.Book.OrderBookProofs
import Lob.Engine.Named
import Lob.Engine.Refusals

namespace Lob

/-! ## The ledger -/

/-- The open quantity of each order id; 0 when it has none. -/
abbrev Ledger := OrderId → Nat

namespace Ledger

def set (l : Ledger) (id : OrderId) (n : Nat) : Ledger := fun k => if k = id then n else l k

/-- One event entered, if it fits. -/
def post (l : Ledger) (ev : Event) : Option Ledger :=
  match ev.type with
  | .accepted => some (l.set ev.orderId ev.leaves.toNat)
  | .fill =>
    if ev.leaves.toNat + ev.quantity.toNat = l ev.orderId then some (l.set ev.orderId ev.leaves.toNat) else none
  | .replaced => if ev.leaves.toNat < l ev.orderId then some (l.set ev.orderId ev.leaves.toNat) else none
  | .canceled => if ev.quantity.toNat = l ev.orderId then some (l.set ev.orderId 0) else none
  | .rejected | .trade | .bookChanged => some l

def postAll (l : Ledger) : List Event → Option Ledger
  | [] => some l
  | ev :: es => (l.post ev).bind fun l => l.postAll es

variable {l : Ledger} {i j : OrderId} {n m : Nat}

@[simp] theorem set_same : (l.set i n) i = n := if_pos rfl

theorem set_other (h : j ≠ i) : (l.set i n) j = l j := if_neg h

@[simp] theorem set_set : (l.set i n).set i m = l.set i m := by
  funext k
  unfold set
  split <;> rfl

theorem set_comm (h : i ≠ j) : (l.set i n).set j m = (l.set j m).set i n := by
  funext k
  unfold set
  by_cases h1 : k = i
  · subst h1
    simp [h]
  · simp [h1]

theorem set_self (h : l i = n) : l.set i n = l := by
  funext k
  unfold set
  split
  · rename_i e; rw [e, h]
  · rfl

theorem postAll_append (l : Ledger) (es es' : List Event) :
    l.postAll (es ++ es') = (l.postAll es).bind fun l => l.postAll es' := by
  induction es generalizing l with
  | nil => rfl
  | cons ev es ih =>
    show ((l.post ev).bind fun l => l.postAll (es ++ es')) = ((l.post ev).bind fun l => l.postAll es).bind _
    rw [Option.bind_assoc]
    congr 1
    funext l
    exact ih l

theorem postAll_unnumbered (l : Ledger) (es : List Event) : l.postAll (es.map Event.unnumbered) = l.postAll es := by
  induction es generalizing l with
  | nil => rfl
  | cons ev es ih =>
    show ((l.post ev.unnumbered).bind fun l => l.postAll (es.map Event.unnumbered)) = (l.post ev).bind fun l => l.postAll es
    congr 1
    funext l
    exact ih l

theorem postAll_bookChanged (l : Ledger) {es : List Event} (h : ∀ ev ∈ es, ev.type = .bookChanged) :
    l.postAll es = some l := by
  induction es with
  | nil => rfl
  | cons ev es ih =>
    have hev : l.post ev = some l := by
      unfold post
      rw [h ev (List.mem_cons_self ..)]
    unfold postAll
    rw [hev]
    exact ih fun ev hev => h ev (List.mem_cons_of_mem _ hev)

end Ledger

/-- The ledger some orders make up. -/
def listed : List OrderInfo → Ledger
  | [] => fun _ => 0
  | o :: L => (listed L).set o.id o.remaining.toNat

theorem listed_cons (o : OrderInfo) (L : List OrderInfo) : listed (o :: L) = (listed L).set o.id o.remaining.toNat := rfl

theorem listed_other {L : List OrderInfo} {id : OrderId} (h : id ∉ L.map (·.id)) : listed L id = 0 := by
  induction L with
  | nil => rfl
  | cons o L ih =>
    rw [List.map_cons, List.mem_cons, not_or] at h
    unfold listed
    rw [Ledger.set_other h.1, ih h.2]

theorem listed_of_mem {L : List OrderInfo} (h : (L.map (·.id)).Nodup) {o : OrderInfo} (ho : o ∈ L) :
    listed L o.id = o.remaining.toNat := by
  induction L with
  | nil => cases ho
  | cons x L ih =>
    rw [List.map_cons, List.nodup_cons] at h
    unfold listed
    rcases List.mem_cons.mp ho with rfl | ho
    · exact Ledger.set_same
    · have hne : o.id ≠ x.id := fun e => h.1 (e ▸ List.mem_map_of_mem ho)
      rw [Ledger.set_other hne, ih h.2 ho]

theorem listed_perm {L L' : List OrderInfo} (hp : L.Perm L') (h : (L.map (·.id)).Nodup) : listed L = listed L' := by
  induction hp with
  | nil => rfl
  | cons o hp ih =>
    rw [List.map_cons, List.nodup_cons] at h
    unfold listed
    rw [ih h.2]
  | swap x y L =>
    simp only [List.map_cons, List.nodup_cons, List.mem_cons, not_or] at h
    unfold listed listed
    exact Ledger.set_comm (Ne.symm h.1.1)
  | trans hp hp' ih ih' => exact (ih h).trans (ih' ((hp.map _).nodup_iff.mp h))

/-! ## A match, posted -/

/-- An order of quantity `q` meets one of its client's own before it is filled. -/
def meetsOwn (client : ClientId) (reach : OrderInfo → Bool) : Nat → List OrderInfo → Prop
  | _, [] => False
  | q, o :: rest =>
    q ≠ 0 ∧ reach o = true ∧ (o.client = client ∨ meetsOwn client reach (q - o.remaining.toNat) rest)

variable {stp : StpMode} {client : ClientId}

/-- Without such a meeting all a match does is trade. -/
theorem deals_traded (inc : OrderInfo) (L : List OrderInfo)
    (h : ¬ (stp ≠ .none ∧ meetsOwn client (reaches inc) inc.remaining.toNat L)) :
    ∀ d ∈ deals stp client inc L, ∃ i o q, d = .traded i o q := by
  fun_induction deals stp client inc L with
  | case1 inc => intro d hd; cases hd
  | case2 inc o rest hc => intro d hd; cases hd
  | case3 inc o rest hc hstp hagg =>
    refine absurd ⟨hstp.1, fun e => hc (Or.inl (UInt64.toNat_inj.mp e)), ?_, Or.inl hstp.2⟩ h
    simpa using fun e => hc (Or.inr e)
  | case4 inc o rest hc hstp hagg ih =>
    refine absurd ⟨hstp.1, fun e => hc (Or.inl (UInt64.toNat_inj.mp e)), ?_, Or.inl hstp.2⟩ h
    simpa using fun e => hc (Or.inr e)
  | case5 inc o rest hc hstp traded ih =>
    intro d hd
    rcases List.mem_cons.mp hd with rfl | hd
    · exact ⟨_, _, _, rfl⟩
    refine ih (fun hm => ?_) d hd
    obtain ⟨h1, h2⟩ := hm
    refine h ⟨h1, fun e => hc (Or.inl (UInt64.toNat_inj.mp e)), ?_, Or.inr ?_⟩
    · simpa using fun e => hc (Or.inr e)
    · have h3 : (inc.remaining - traded).toNat = inc.remaining.toNat - o.remaining.toNat := Quantity.toNat_sub_min ..
      rw [reaches_remaining] at h2
      rw [← h3]
      exact h2

/-- The three events of one match. -/
theorem post_trade {inc o : OrderInfo} {K : List OrderInfo} (hne : inc.id ≠ o.id) {traded : Quantity}
    (h1 : traded ≤ inc.remaining) (h2 : traded ≤ o.remaining) :
    ((listed (o :: K)).set inc.id inc.remaining.toNat).postAll (Deal.events (.traded inc o traded)) =
      some ((listed ({ o with remaining := o.remaining - traded } :: K)).set inc.id (inc.remaining - traded).toNat) := by
  have hsub : ∀ x : Quantity, traded ≤ x → (x - traded).toNat + traded.toNat = x.toNat := fun x hx => by
    rw [UInt64.toNat_sub_of_le _ _ hx]
    exact Nat.sub_add_cancel (UInt64.le_iff_toNat_le.mp hx)
  have hmaker : ((listed (o :: K)).set inc.id (inc.remaining - traded).toNat) o.id = o.remaining.toNat := by
    rw [Ledger.set_other hne.symm]
    exact Ledger.set_same
  unfold Deal.events Ledger.postAll Ledger.post
  simp only [Event.takerFill, Ledger.set_same, hsub _ h1, if_true, Option.bind_some, Ledger.set_set]
  unfold Ledger.postAll Ledger.post
  simp only [Event.makerFill, hmaker, hsub _ h2, if_true, Option.bind_some]
  unfold Ledger.postAll Ledger.post Ledger.postAll
  simp only [Event.trade, Option.bind_some, listed]
  rw [Ledger.set_comm hne, Ledger.set_set]

theorem post_refMatch (stp : StpMode) (client : ClientId) (v : EngineVars) (inc : OrderInfo) (filled : Quantity)
    (L M : List OrderInfo) (hids : ((L ++ M).map (·.id)).Nodup) (hinc : inc.id ∉ (L ++ M).map (·.id))
    (hall : ∀ d ∈ deals stp client inc L, ∃ i o q, d = .traded i o q) :
    ((listed (L ++ M)).set inc.id inc.remaining.toNat).postAll ((deals stp client inc L).flatMap Deal.events) =
      some ((listed ((refMatch stp client v inc filled L).left ++ M)).set inc.id
        (refMatch stp client v inc filled L).inc.remaining.toNat) := by
  fun_induction refMatch stp client v inc filled L with
  | case1 => rfl
  | case2 v inc filled o rest h => unfold deals; rw [if_pos h]; rfl
  | case3 v inc filled o rest h hstp hagg =>
    unfold deals at hall
    rw [if_neg h, if_pos hstp, if_pos hagg] at hall
    obtain ⟨i, x, q, e⟩ := hall _ (List.mem_singleton.mpr rfl)
    cases e
  | case4 v inc filled o rest h hstp hagg ih =>
    unfold deals at hall
    rw [if_neg h, if_pos hstp, if_neg hagg] at hall
    obtain ⟨i, x, q, e⟩ := hall _ (List.mem_cons_self ..)
    cases e
  | case5 v inc filled o rest h hstp traded v' inc' hfull ih =>
    unfold deals at hall ⊢
    rw [if_neg h, if_neg hstp] at hall ⊢
    rw [List.cons_append, List.map_cons] at hids hinc
    rw [List.nodup_cons] at hids
    rw [List.mem_cons, not_or] at hinc
    have hstep := post_trade (K := rest ++ M) hinc.1 (Quantity.min_le_left inc.remaining o.remaining)
      (Quantity.min_le_right inc.remaining o.remaining)
    -- the maker is filled, and off the list
    have hgone : listed ({ o with remaining := o.remaining - traded } :: (rest ++ M)) = listed (rest ++ M) := by
      rw [listed_cons]
      refine Ledger.set_self ?_
      rw [listed_other hids.1, hfull, UInt64.sub_self]
      rfl
    change _ = some ((listed ({ o with remaining := o.remaining - traded } :: (rest ++ M))).set inc.id inc'.remaining.toNat) at hstep
    rw [hgone] at hstep
    rw [List.flatMap_cons, Ledger.postAll_append]
    refine (congrArg (fun x : Option Ledger => x.bind _) hstep).trans ?_
    exact ih hids.2 hinc.2 fun d hd => hall d (List.mem_cons_of_mem _ hd)
  | case6 v inc filled o rest h hstp traded v' inc' hne =>
    unfold deals
    rw [if_neg h, if_neg hstp]
    rw [List.cons_append, List.map_cons, List.mem_cons, not_or] at hinc
    simp only
    rw [deals_of_zero stp client (show inc'.remaining = 0 from Quantity.sub_min_eq_zero hne), List.flatMap_cons,
      List.flatMap_nil, List.append_nil]
    exact post_trade hinc.1 (Quantity.min_le_left inc.remaining o.remaining) (Quantity.min_le_right inc.remaining o.remaining)

/-! ## A command, posted -/

namespace FlatEngine

variable {a a' : FlatEngine} {cmd : Command} {fillable : Bool}

theorem ids_nodup {f : Flat} {n k : Nat} (hi : f.Inv n k) (h : ∀ o ∈ f.orders, o.id ≠ 0) : (f.orders.map (·.id)).Nodup := by
  rw [List.Nodup, List.pairwise_map]
  exact hi.ids.imp_of_mem fun {o o'} ho _ hpair e => h o ho (hpair e)

/-- The incoming order meets one of its client's own before it is filled, and self-trade
    prevention is on. -/
def MeetsOwn (a : FlatEngine) (c : Command) : Prop :=
  a.cfg.stp ≠ .none ∧ meetsOwn c.client (reaches (incomingOrder c 0)) c.quantity.toNat (a.side (opposite c.side))

/-- An accepted order, posted to a ledger of the orders that rest. -/
theorem accepted_post (hi : a.Inv) (hn : a.Named) (hp : a.Passes fillable cmd) (h0 : cmd.id ≠ 0) (hown : ¬ a.MeetsOwn cmd)
    {l : Ledger} (hl : ∀ n, l.set cmd.id n = (listed a.orders).set cmd.id n) :
    ∃ es, a.Emits (a.handleAccepted cmd).toEngineVars es ∧ l.postAll es = some (listed (a.handleAccepted cmd).orders) := by
  have hnd : (a.orders.map (·.id)).Nodup := ids_nodup hi hn.ids
  have hfresh : cmd.id ∉ a.orders.map (·.id) := by
    intro hm
    obtain ⟨o, ho, e⟩ := List.mem_map.mp hm
    exact h0 (Flat.find_none hp.fresh o ho e)
  have hperm := orders_perm a.toFlat (opposite cmd.side)
  rw [opposite_opposite] at hperm
  have hi' : (a.afterMatch cmd).toFlat.Inv a.arrival a.cfg.maxOrders := hi.shrink (matching_shrinks a cmd) (Nat.le_refl _)
  have hnd' : ((a.afterMatch cmd).orders.map (·.id)).Nodup := ids_nodup hi' (named_afterMatch hn cmd).ids
  have hfresh' : cmd.id ∉ (a.afterMatch cmd).orders.map (·.id) := by
    intro hm
    obtain ⟨o', ho', e⟩ := List.mem_map.mp hm
    obtain ⟨o, ho, hr⟩ := (Flat.shrinks_orders (matching_shrinks a cmd)).mem ho'
    exact hfresh (List.mem_map.mpr ⟨o, ho, hr.id_eq.symm.trans e⟩)
  have hperm' := orders_perm (a.afterMatch cmd).toFlat (opposite cmd.side)
  rw [opposite_opposite, afterMatch_side, if_pos rfl, afterMatch_side, if_neg (by simp)] at hperm'
  have hmatch : l.postAll (.accept cmd (limitOf cmd) :: (a.dealings cmd).flatMap Deal.events) =
      some ((listed (a.afterMatch cmd).orders).set cmd.id (a.matching cmd).inc.remaining.toNat) := by
    unfold Ledger.postAll
    rw [show l.post (.accept cmd (limitOf cmd)) = some (l.set cmd.id cmd.quantity.toNat) from rfl, hl, Option.bind_some,
      listed_perm hperm hnd, listed_perm hperm' hnd']
    exact post_refMatch a.cfg.stp cmd.client (a.accepted cmd) (incomingOrder cmd (a.arrival + 1)) 0 _ _
      ((hperm.map _).nodup_iff.mp hnd) (mt (hperm.map _).mem_iff.mpr hfresh)
      (deals_traded (incomingOrder cmd (a.arrival + 1)) (a.side (opposite cmd.side)) hown)
  have hzero : listed (a.afterMatch cmd).orders cmd.id = 0 := listed_other hfresh'
  have hs := accepted_settles a cmd
  generalize a.handleAccepted cmd = a' at hs ⊢
  cases hs with
  | filled done =>
    refine ⟨_, emits_match a cmd, hmatch.trans ?_⟩
    rw [done]
    exact congrArg some (Ledger.set_self hzero)
  | canceled reason open_ why =>
    refine ⟨_, emits_remainder a cmd reason, ?_⟩
    rw [Ledger.postAll_append, hmatch, Option.bind_some]
    unfold Ledger.postAll Ledger.post Ledger.postAll
    simp only [Event.remainder, Ledger.set_same, if_true, Option.bind_some, Ledger.set_set]
    exact congrArg some (Ledger.set_self hzero)
  | rested open_ kind room =>
    refine ⟨_, emits_match a cmd, hmatch.trans ?_⟩
    have hid : (a.matching cmd).inc.id = cmd.id := by rw [matching_inc]; rfl
    have hpl := Flat.place_perm (a.afterMatch cmd).toFlat (a.matching cmd).inc
    show some _ = some (listed ((a.afterMatch cmd).place (a.matching cmd).inc).orders)
    rw [listed_perm hpl]
    · show _ = some ((listed (a.afterMatch cmd).orders).set (a.matching cmd).inc.id _)
      rw [hid]
    · rw [(hpl.map _).nodup_iff, List.map_cons, List.nodup_cons, hid]
      exact ⟨hfresh', hnd'⟩

/-- What self-trade prevention cancels in a command. -/
def Prevents (a : FlatEngine) (fillable : Bool) (cmd : Command) : Prop :=
  (cmd.type = .new ∧ a.halted = false ∧ a.refusal fillable cmd = none ∧ a.MeetsOwn cmd) ∨
  (cmd.type = .modify ∧ cmd.quantity ≠ 0 ∧ ∃ o, a.find cmd.id = some o ∧ ¬ keepsPlace cmd o ∧
    (a.withFlat (a.drop o)).refusal fillable (replacement cmd o) = none ∧ a.MeetsOwn (replacement cmd o))

/-- An amend refused under way. -/
def Loses (a : FlatEngine) (fillable : Bool) (cmd : Command) : Prop :=
  cmd.type = .modify ∧ cmd.quantity ≠ 0 ∧ ∃ o, a.find cmd.id = some o ∧ ¬ keepsPlace cmd o ∧
    ∃ r, (a.withFlat (a.drop o)).refusal fillable (replacement cmd o) = some r

theorem dispatch_post (hi : a.Inv) (hn : a.Named) (hc : ¬ cmd.Nameless) (hl : ¬ a.Loses fillable cmd)
    (hs : ¬ a.Prevents fillable cmd) : ∃ es, a.Emits (a.dispatch fillable cmd).toEngineVars es ∧
      (listed a.orders).postAll es = some (listed (a.dispatch fillable cmd).orders) := by
  have hnd : (a.orders.map (·.id)).Nodup := ids_nodup hi hn.ids
  have ho := dispatch_outcome a fillable cmd
  -- the ledger, with a found order put first
  have hout : ∀ {o : OrderInfo}, a.find cmd.id = some o →
      listed a.orders = (listed (a.drop o).orders).set o.id o.remaining.toNat ∧ listed (a.drop o).orders o.id = 0 ∧
      a.orders.Perm (o :: (a.drop o).orders) := by
    intro o hf
    have hp := Flat.drop_perm (hi.mem_side (Flat.find_some hf).2.1)
    have hnd' := (hp.map _).nodup_iff.mp hnd
    rw [List.map_cons, List.nodup_cons] at hnd'
    exact ⟨listed_perm hp hnd, listed_other hnd'.1, hp⟩
  generalize a.dispatch fillable cmd = a' at ho ⊢
  cases ho with
  | refused r why => exact ⟨_, emits_reject _ cmd r, rfl⟩
  | admitted type live passes =>
    refine accepted_post hi hn passes (fun e => hc ⟨type, e⟩) (fun hm => hs (Or.inl ⟨type, live, refusal_none.mpr passes, hm⟩))
      fun n => rfl
  | canceled o found why =>
    obtain ⟨h1, h2, _⟩ := hout found
    refine ⟨_, emits_newEvent _ (.cancel o cmd.tsRecv), ?_⟩
    rw [h1]
    unfold Ledger.postAll Ledger.post Ledger.postAll
    simp only [Event.cancel, Event.unnumbered, Ledger.set_same, if_true, Option.bind_some, Ledger.set_set]
    exact congrArg some (Ledger.set_self h2)
  | replaced o found type sized keeps =>
    obtain ⟨h1, h2, hp⟩ := hout found
    refine ⟨_, emits_newEvent _ (.replace { o with remaining := cmd.quantity } cmd.quantity cmd.tsRecv), ?_⟩
    have hlt : cmd.quantity.toNat < o.remaining.toNat := UInt64.lt_iff_toNat_lt.mp keeps.2
    have hsw := Flat.swap_perm (f := a.toFlat) (hi.mem_side (Flat.find_some found).2.1) { o with remaining := cmd.quantity }
    rw [h1]
    unfold Ledger.postAll Ledger.post Ledger.postAll
    simp only [Event.replace, Event.unnumbered, Ledger.set_same, hlt, if_true, Option.bind_some, Ledger.set_set]
    refine congrArg some (Eq.symm (listed_perm hsw ?_))
    have hnd' := (hp.map _).nodup_iff.mp hnd
    exact (hsw.map _).nodup_iff.mpr hnd'
  | requeued o found type sized moves passes =>
    obtain ⟨h1, _, _⟩ := hout found
    have ho := hi.mem_side (Flat.find_some found).2.1
    have hid := (Flat.find_some found).2.2
    have hi' : (a.withFlat (a.drop o)).Inv := hi.shrink (drop_sides a o) (Nat.le_refl _)
    have hopp : (a.withFlat (a.drop o)).side (opposite (replacement cmd o).side) = a.side (opposite o.side) := setList_opposite ..
    refine accepted_post hi' (hn.drop ho) passes (Flat.find_some found).1 (fun hm => ?_) fun n => ?_
    · refine hs (Or.inr ⟨type, sized, o, found, moves, refusal_none.mpr passes, ?_⟩)
      unfold MeetsOwn at hm
      rw [hopp] at hm
      exact hm
    · rw [h1, hid]
      exact Ledger.set_set
  | lost o found type sized moves r refusal => exact absurd ⟨type, sized, o, found, moves, r, refusal⟩ hl

end FlatEngine

/-! ## Runs, posted -/

section

variable {B : Type} [Book B]

namespace Engine

/-- The commands of a run, each one's events posted as it is processed. -/
def audit : Engine B → Ledger → List Input → Option (Engine B × Ledger)
  | e, l, [] => some (e, l)
  | e, l, .command now cmd :: is => do
    let e ← e.process now cmd
    let l ← l.postAll e.out
    audit e l is
  | e, l, .setHalted h :: is => audit (e.setHalted h) l is

variable [LawfulBook B]

/-- The order sent in meets one of its client's own before it is filled, and self-trade
    prevention is on. -/
def MeetsOwn (e : Engine B) (c : Command) : Prop :=
  e.cfg.stp ≠ .none ∧ meetsOwn c.client (reaches (incomingOrder c 0)) c.quantity.toNat (e.queued (opposite c.side))

/-- Self-trade prevention cancels something: the command, or the replacement it sends in, passes
    the checks and meets one of its client's own. -/
def Prevents (e : Engine B) (cmd : Command) : Prop :=
  (cmd.type = .new ∧ e.halted = false ∧ e.refusal cmd = some none ∧ e.MeetsOwn cmd) ∨
  (cmd.type = .modify ∧ cmd.quantity ≠ 0 ∧ ¬ e.Refused cmd ∧ ∃ p, e.find cmd.id = some (some p) ∧
    ¬ FlatEngine.keepsPlace cmd (e.order p).toOrderInfo ∧ e.MeetsOwn (FlatEngine.replacement cmd (e.order p).toOrderInfo))

end Engine

/-- The ledger has each resting order's open quantity, and nothing else. -/
structure Tallies (e : Engine B) [LawfulBook B] (l : Ledger) : Prop where
  resting : ∀ s, ∀ o ∈ e.queued s, l o.id = o.remaining.toNat ∧ 0 < l o.id
  opened : ∀ id, 0 < l id → ∃ s, ∃ o ∈ e.queued s, o.id = id

end

variable {B : Type} [Book B] [LawfulBook B] {e e' : Engine B} {a : FlatEngine} {cmd : Command} {now : TsNanos}

theorem Simulates.prevents_iff (h : Simulates e a) (cmd : Command) :
    e.Prevents cmd ↔ a.Prevents (e.fillable cmd) cmd := by
  obtain ⟨r, hfind, hflat⟩ := h.refines.find_eq cmd.id
  have hhalt := h.refines.halted_eq
  have hmeets : ∀ c, e.MeetsOwn c ↔ a.MeetsOwn c := fun c => by
    unfold Engine.MeetsOwn FlatEngine.MeetsOwn
    rw [h.refines.queued, h.refines.cfg]
  unfold Engine.Prevents FlatEngine.Prevents
  rw [hhalt, h.refines.refusal_eq, hmeets, h.refused_iff, Option.some_inj]
  refine or_congr Iff.rfl ⟨?_, ?_⟩
  · intro ⟨ht, h0, hnot, p, hp, hk, hm⟩
    rw [hfind] at hp
    cases hp
    refine ⟨ht, h0, _, hflat, hk, ?_, (hmeets _).mp hm⟩
    by_contra hne
    exact hnot ⟨ht, h0, _, hflat, hk, Option.ne_none_iff_exists'.mp hne⟩
  · intro ⟨ht, h0, o, ho, hk, hp, hm⟩
    rw [ho] at hflat
    obtain ⟨p, rfl, rfl⟩ := Option.map_eq_some_iff.mp hflat.symm
    refine ⟨ht, h0, fun ⟨_, _, o', ho', _, r, hr⟩ => ?_, p, hfind, hk, (hmeets _).mpr hm⟩
    rw [ho] at ho'
    cases ho'
    rw [hp] at hr
    cases hr

/-- One command: its events fit the ledger of the orders that rest, and make it the next. -/
theorem Simulates.post (h : Simulates e a) (hn : a.Named) (hc : ¬ cmd.Nameless) (hl : ¬ e.Refused cmd)
    (hs : ¬ e.Prevents cmd) (hp : e.process now cmd = some e') :
    (listed a.orders).postAll e'.out = some (listed (a.process (e.fillable cmd) cmd).orders) := by
  have hre : (e.withVars (e.start now cmd)).Refused cmd ↔ e.Refused cmd := Iff.rfl
  have hpr : (e.withVars (e.start now cmd)).Prevents cmd ↔ e.Prevents cmd := Iff.rfl
  rw [← hre, (h.start now cmd).refused_iff] at hl
  rw [← hpr, (h.start now cmd).prevents_iff] at hs
  have hl : ¬ (a.withVars (a.start 0 cmd)).Loses (e.fillable cmd) cmd := hl
  have hs : ¬ (a.withVars (a.start 0 cmd)).Prevents (e.fillable cmd) cmd := hs
  obtain ⟨es, hem, hpost⟩ := FlatEngine.dispatch_post (a := a.withVars (a.start 0 cmd)) h.inv hn hc hl hs
  obtain ⟨tail, hout, htail⟩ := h.out_eq hp hem
  obtain ⟨e1, _⟩ := FlatEngine.process_eq a (e.fillable cmd) cmd
  rw [← Ledger.postAll_unnumbered, hout, Ledger.postAll_append, e1]
  refine (congrArg (fun x : Option Ledger => x.bind _) hpost).trans ?_
  exact Ledger.postAll_bookChanged _ htail

theorem Simulates.tallies (h : Simulates e a) (hn : a.Named) : Tallies e (listed a.orders) := by
  have hnd := FlatEngine.ids_nodup h.inv hn.ids
  constructor
  · intro s o ho
    rw [h.refines.queued] at ho
    have hm := Flat.mem_orders.mpr ⟨s, ho⟩
    have hl := listed_of_mem hnd hm
    refine ⟨hl, ?_⟩
    rw [hl]
    exact UInt64.lt_iff_toNat_lt.mp (h.inv.opened o hm).1
  · intro id hpos
    by_contra hno
    have hmem : id ∉ a.orders.map (·.id) := fun hm => ?_
    · exact absurd (listed_other hmem) (Nat.ne_of_gt hpos)
    obtain ⟨o, ho, rfl⟩ := List.mem_map.mp hm
    obtain ⟨s, hs⟩ := Flat.mem_orders.mp ho
    exact hno ⟨s, o, by rw [h.refines.queued]; exact hs, rfl⟩

theorem audit_steps : ∀ (is : List Engine.Input) (e : Engine B) (a : FlatEngine), Simulates e a → a.Named → a.Priced →
    (∀ i ∈ is, i.Obeys fun cmd => ¬ cmd.Unpriced ∧ ¬ cmd.Nameless) →
    e.Meets (fun e cmd => ¬ e.Refused cmd ∧ ¬ e.Prevents cmd) is →
    ∃ e' l, e.audit (listed a.orders) is = some (e', l) ∧ e.steps is = some e' ∧ Tallies e' l := by
  intro is
  induction is with
  | nil => intro e a h hn _ _ _; exact ⟨e, _, rfl, rfl, h.tallies hn⟩
  | cons i is ih =>
    intro e a h hn hp his hm
    have hi := his i (List.mem_cons_self ..)
    have hrest := fun j hj => his j (List.mem_cons_of_mem _ hj)
    cases i with
    | setHalted b => exact ih (e.setHalted b) (a.setHalted b) (step_simulates h (i := .setHalted b) rfl) hn hp hrest hm
    | command now cmd =>
      cases he : e.process now cmd with
      | none =>
        have hp' : (a.withVars (a.start 0 cmd)).Priced := hp
        exact absurd ((process_refines h now cmd).1 he) (hp'.no_stray (FlatEngine.safe_of_priced hi.1))
      | some e1 =>
        obtain ⟨e', l, ha, hs, ht⟩ := ih e1 _ ((process_refines h now cmd).2 e1 he)
          (FlatEngine.named_step h.inv hn e.fillable (i := .command now cmd) hi.2)
          (hp.process _ (FlatEngine.safe_of_priced hi.1)) hrest (hm.2 e1 he)
        refine ⟨e', l, ?_, Option.bind_eq_some_iff.mpr ⟨e1, he, hs⟩, ht⟩
        unfold Engine.audit
        rw [he]
        simp only [Option.bind_eq_bind, Option.bind_some]
        rw [h.post hn hi.2 hm.1.1 hm.1.2 he]
        exact ha

/-- In a run with non-zero ids and no unpriced orders, none of whose amends is refused under way
    and in which self-trade prevention cancels nothing, every event fits the ledger, and after
    it the ledger is what rests. -/
theorem ledger_faithful {cfg : EngineConfig} {e0 : Engine B} {is : List Engine.Input} (h0 : Engine.init cfg = some e0)
    (his : ∀ i ∈ is, i.Obeys fun cmd => ¬ cmd.Unpriced ∧ ¬ cmd.Nameless)
    (hm : e0.Meets (fun e cmd => ¬ e.Refused cmd ∧ ¬ e.Prevents cmd) is) :
    ∃ e l, e0.audit (fun _ => 0) is = some (e, l) ∧ e0.steps is = some e ∧ Tallies e l :=
  audit_steps is e0 _ (init_simulates h0) ⟨fun o ho => (by cases ho), rfl⟩ (FlatEngine.Priced.init _ _) his hm

/-- A sell of a client meets a bid of its own: the bid is canceled with quantity 0, though 5 are
    open. -/
theorem stp_cancel_unposted : ¬ ∀ (e : Engine OrderBook),
    Engine.init { minPrice := 1, maxPrice := 500, maxOrders := 4, stp := .cancelResting } = some e →
    (e.audit (fun _ => 0) [.command 0 (.makeNew 1 7 .buy .limit 100 5 0),
      .command 0 (.makeNew 2 7 .sell .limit 100 5 0)]).isSome = true := by
  intro h
  have key : (do
      let e ← Engine.init (B := OrderBook) { minPrice := 1, maxPrice := 500, maxOrders := 4, stp := .cancelResting }
      some (e.audit (fun _ => 0) [.command 0 (.makeNew 1 7 .buy .limit 100 5 0),
        .command 0 (.makeNew 2 7 .sell .limit 100 5 0)]).isSome) = some false := by decide +kernel
  obtain ⟨e, he, key⟩ := Option.bind_eq_some_iff.mp key
  rw [h e he] at key
  cases key

theorem ledger_faithful_partial : ∃ e0 : Engine OrderBook,
    Engine.init { minPrice := 1, maxPrice := 500, maxOrders := 4 } = some e0 ∧
    ∃ e l, e0.audit (fun _ => 0) [.command 0 (.makeNew 1 7 .buy .limit 100 5 0),
      .command 0 (.makeNew 2 8 .sell .limit 100 3 0)] = some (e, l) ∧
      e0.steps [.command 0 (.makeNew 1 7 .buy .limit 100 5 0), .command 0 (.makeNew 2 8 .sell .limit 100 3 0)] = some e ∧
      Tallies e l := by
  obtain ⟨e0, h0⟩ := @init_defined OrderBook _ { minPrice := 1, maxPrice := 500, maxOrders := 4 } _ rfl
  have hs := init_simulates h0
  -- without self-trade prevention there is nothing to prevent
  have hnew : ∀ (e : Engine OrderBook) cmd, cmd.type = .new → e.cfg.stp = .none → ¬ e.Refused cmd ∧ ¬ e.Prevents cmd := by
    intro e cmd ht hstp
    refine ⟨fun h => ?_, fun h => ?_⟩
    · rw [h.1] at ht; cases ht
    · rcases h with ⟨_, _, _, hm⟩ | ⟨h, _⟩
      · exact hm.1 hstp
      · rw [h] at ht; cases ht
  have hstp : e0.cfg.stp = .none := by rw [hs.refines.cfg]; rfl
  refine ⟨e0, h0, ledger_faithful h0 ?_ ⟨hnew e0 _ rfl hstp, fun e1 h1 => ⟨hnew e1 _ rfl ?_, fun _ _ => trivial⟩⟩⟩
  · decide
  · rw [hs.process_cfg h1]
    exact hstp

end Lob
