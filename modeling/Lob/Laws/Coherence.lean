/-
  Lob.Laws.Coherence — the book, the index and the pool hold the same orders.

  `Rep` gives most of it in any state; with non-zero ids the sizes agree too
  (`Flat.Named`). The two consequences for a full pool are read off what a command comes
  to (`Outcome`, `Settles`).
-/

import Lob.Book.OrderBookProofs
import Lob.Engine.Deals
import Lob.Engine.Named

namespace Lob

open Lob.Base.Links (walk)
open FlatPtrMap (Holds keys splitmix)

/-! ## The three structures -/

/-- The values in the occupied slots of the index. -/
def FlatPtrMap.values {V : Type} (m : FlatPtrMap V) : List V :=
  ((List.range (m.mask + 1)).filter fun j => (m.slots j).key ≠ 0).map fun j => (m.slots j).value

section

variable {B : Type} [Book B] [LawfulBook B]

/-- The slots linked on either side. -/
def Engine.resting (e : Engine B) : List Ptr := e.linked .buy ++ e.linked .sell

/-- The level queues, the index and the pool hold the same slots, each once. -/
structure Coherent (e : Engine B) : Prop where
  linked : e.resting.Nodup
  pool : ∀ p, p ∈ e.resting ↔ p < e.pool.capacity ∧ p ∉ e.pool.free
  free : e.pool.free.Nodup
  values : e.index.values.Perm (e.resting.map some)
  find : ∀ id p, e.find id = some (some p) ↔ p ∈ e.resting ∧ (e.order p).id = id
  ids : (e.resting.map fun p => (e.order p).id).Nodup
  levels : ∀ s, ∀ l ∈ LawfulBook.levels e.book s,
    ∀ p ∈ walk (fun p => (e.order p).next) e.pool.capacity l.head, (e.order p).side = s ∧ (e.order p).price = l.price
  opened : ∀ p ∈ e.resting, 0 < (e.order p).remaining ∧ (e.order p).remaining ≤ (e.order p).quantity
  orderCount : Book.totalCount e.book = e.resting.length
  restingOrders : e.restingOrders = e.resting.length
  inUse : e.pool.inUse = e.resting.length
  room : e.resting.length ≤ e.cfg.maxOrders

variable {e : Engine B} {a : FlatEngine}

theorem Rep.resting {n : Nat} {lo hi : Price} {T : Side → List Rung} {f : Flat} (h : Rep n lo hi e.toStore T f) :
    e.resting = slots T := by
  unfold Engine.resting slots
  rw [h.linked, h.linked]

theorem Rep.values {n : Nat} {lo hi : Price} {st : Store B} {T : Side → List Rung} {f : Flat} (h : Rep n lo hi st T f)
    (h0 : ∀ p ∈ slots T, (st.order p).id ≠ 0) : st.index.values.Perm ((slots T).map some) := by
  have hnd := (List.nodup_append.mp h.nodup).1
  have hslot : ∀ j < st.index.mask + 1, (st.index.slots j).key ≠ 0 → ∃ p ∈ slots T,
      (st.order p).id = (st.index.slots j).key ∧ (st.index.slots j).value = some p := fun j hj hk =>
    (h.holds _ _ hk).mp ⟨j, hj, rfl⟩
  refine (List.perm_ext_iff_of_nodup ?_ (hnd.map (Option.some_injective _))).mpr fun v => ?_
  · unfold FlatPtrMap.values
    refine List.Nodup.map_on ?_ (List.nodup_range.filter _)
    intro i hi j hj e
    simp only [List.mem_filter, List.mem_range, decide_eq_true_eq] at hi hj
    obtain ⟨p, _, hpk, hpv⟩ := hslot i hi.1 hi.2
    obtain ⟨q, _, hqk, hqv⟩ := hslot j hj.1 hj.2
    have : p = q := Option.some.inj (hpv.symm.trans (e.trans hqv))
    subst this
    exact h.index.distinct i hi.1 j hj.1 _ (FlatPtrMap.keyAt_eq_some.mpr ⟨rfl, hi.2⟩)
      (FlatPtrMap.keyAt_eq_some.mpr ⟨hqk.symm.trans hpk, hi.2⟩)
  · unfold FlatPtrMap.values
    simp only [List.mem_map, List.mem_filter, List.mem_range, decide_eq_true_eq]
    constructor
    · intro ⟨j, ⟨hj, hk⟩, hv⟩
      obtain ⟨p, hp, _, hpv⟩ := hslot j hj hk
      exact ⟨p, hp, hpv.symm.trans hv⟩
    · intro ⟨p, hp, hv⟩
      obtain ⟨j, hj, hs⟩ := (h.holds (st.order p).id (some p) (h0 p hp)).mpr ⟨p, hp, rfl, rfl⟩
      exact ⟨j, ⟨hj, by rw [hs]; exact h0 p hp⟩, by rw [hs]; exact hv⟩

theorem Simulates.coherent (h : Simulates e a) (hn : a.Named) : Coherent e := by
  obtain ⟨T, hrep⟩ := h.refines.rep
  have hnd := hrep.nodup
  have horders := hrep.orders
  have hinfo : ∀ p ∈ slots T, (e.order p).toOrderInfo ∈ a.orders := by
    intro p hp
    rw [horders]
    exact List.mem_map_of_mem hp
  have h0 : ∀ p ∈ slots T, (e.order p).id ≠ 0 := fun p hp => hn.ids _ (hinfo p hp)
  have hlen : a.orders.length = (slots T).length := by rw [horders]; exact List.length_map ..
  constructor
  · rw [hrep.resting]; exact (List.nodup_append.mp hnd).1
  · intro p
    rw [hrep.resting, hrep.capacity]
    have hmem := hrep.free.mem_iff (a := p)
    rw [List.mem_append, List.mem_range] at hmem
    rw [← hmem]
    constructor
    · exact fun hp => ⟨Or.inl hp, fun hf => (List.nodup_append.mp hnd).2.2 p hp p hf rfl⟩
    · exact fun ⟨hp, hf⟩ => hp.resolve_right hf
  · exact (List.nodup_append.mp hnd).2.1
  · rw [hrep.resting]; exact hrep.values h0
  · intro id p
    rw [hrep.resting]
    obtain ⟨r, hr, _, hslot⟩ := hrep.find_eq id
    have hfind : e.find id = some r := hr
    rw [hfind]
    constructor
    · intro e1
      obtain ⟨hp, hid, _⟩ := hslot p (Option.some.inj e1)
      exact ⟨hp, hid⟩
    · intro ⟨hp, hid⟩
      have hv := (hrep.holds id (some p) (hid ▸ h0 p hp)).mpr ⟨p, hp, hid, rfl⟩
      have := FlatPtrMap.find_of_holds hrep.index (hid ▸ h0 p hp) hv
      rw [← hfind]
      exact this
  · rw [hrep.resting]
    refine List.Nodup.map_on (fun p hp q hq e => ?_) (List.nodup_append.mp hnd).1
    exact hrep.unique hp hq e (h0 p hp)
  · intro s l hl p hp
    rw [hrep.levels] at hl
    obtain ⟨t, ht, rfl⟩ := List.mem_map.mp hl
    have hq := (hrep.side s).queue t ht
    have hw : walk (fun p => (e.order p).next) e.pool.capacity t.2.head? = t.2 :=
      hq.links.walk_eq (by rw [hrep.capacity]; exact hrep.queue_length_le ht)
    rw [hq.head, hw] at hp
    exact ⟨(hrep.side s).side t ht p hp, (hrep.side s).price t ht p hp⟩
  · intro p hp
    rw [hrep.resting] at hp
    exact h.inv.opened _ (hinfo p hp)
  · rw [hrep.resting]
    unfold Book.totalCount slots
    rw [hrep.counts, hrep.counts, List.length_append]
  · rw [hrep.resting, ← hlen, ← hn.size]
    exact hrep.size
  · rw [hrep.resting]; exact hrep.inUse
  · rw [hrep.resting, ← hlen, h.refines.cfg]
    exact h.inv.room

end

/-! ## A full pool -/

namespace FlatEngine

variable {a : FlatEngine} {cmd : Command} {fillable : Bool}

theorem deal_reason {d : Deal} {ev : Event} (h : ev ∈ d.events) : ev.reason ≠ .poolExhausted := by
  have hne : RejectReason.none ≠ .poolExhausted := by decide
  have hstp : RejectReason.selfTradePrevented ≠ .poolExhausted := by decide
  cases d <;> simp only [Deal.events, List.mem_cons, List.not_mem_nil, or_false] at h
  · rcases h with rfl | rfl | rfl <;> exact hne
  · rw [h]
    exact hstp
  · rw [h]
    exact hstp

/-- The events of an accepted order: only a full pool has this one among them. -/
theorem accepted_exhausted (a : FlatEngine) (cmd : Command) : ∃ es, a.Emits (a.handleAccepted cmd).toEngineVars es ∧
    ((∃ ev ∈ es, ev.reason = .poolExhausted) →
      (a.handleAccepted cmd).orders.length = (a.afterMatch cmd).orders.length ∧
        a.cfg.maxOrders ≤ (a.afterMatch cmd).orders.length) := by
  have hmatch : ∀ ev ∈ (.accept cmd (limitOf cmd) :: (a.dealings cmd).flatMap Deal.events : List Event),
      ev.reason ≠ .poolExhausted := by
    intro ev hev
    rcases List.mem_cons.mp hev with rfl | hev
    · nofun
    · obtain ⟨d, _, hd⟩ := List.mem_flatMap.mp hev
      exact deal_reason hd
  have hs := accepted_settles a cmd
  generalize a.handleAccepted cmd = a' at hs ⊢
  cases hs with
  | filled done => exact ⟨_, emits_match a cmd, fun ⟨ev, hev, he⟩ => absurd he (hmatch ev hev)⟩
  | rested open_ kind room => exact ⟨_, emits_match a cmd, fun ⟨ev, hev, he⟩ => absurd he (hmatch ev hev)⟩
  | canceled reason open_ why =>
    refine ⟨_, emits_remainder a cmd reason, fun ⟨ev, hev, he⟩ => ?_⟩
    rcases List.mem_append.mp hev with hev | hev
    · exact absurd he (hmatch ev hev)
    · rw [List.mem_singleton.mp hev] at he
      have he : reason = .poolExhausted := he
      rcases why with ⟨hr, _⟩ | ⟨_, _, hfull⟩
      · rw [hr] at he; cases he
      · exact ⟨rfl, hfull⟩

theorem refusal_reason {r : RejectReason} (h : a.refusal fillable cmd = some r) : r ≠ .poolExhausted := by
  unfold refusal at h
  repeat' split at h
  all_goals first | cases h; decide | cases h

/-- With the reason PoolExhausted a command leaves exactly `max_orders` orders resting, and
    is no Modify. -/
theorem dispatch_exhausted (hi : a.Inv) (fillable : Bool) (cmd : Command) :
    ∃ es, a.Emits (a.dispatch fillable cmd).toEngineVars es ∧ ((∃ ev ∈ es, ev.reason = .poolExhausted) →
      cmd.type = .new ∧ (a.dispatch fillable cmd).orders.length = a.cfg.maxOrders) := by
  have hone : ∀ {ev0 : Event} {P : Prop}, ev0.reason ≠ .poolExhausted →
      (∃ ev ∈ [ev0], ev.reason = RejectReason.poolExhausted) → P := by
    intro ev0 P h0 ⟨ev, hev, he⟩
    rw [List.mem_singleton.mp hev] at he
    exact absurd he h0
  have ho := dispatch_outcome a fillable cmd
  generalize a.dispatch fillable cmd = a' at ho ⊢
  cases ho with
  | refused r why =>
    refine ⟨_, emits_reject _ cmd r, hone ?_⟩
    show r ≠ .poolExhausted
    rcases why with ⟨_, _, e⟩ | ⟨_, _, e⟩ | ⟨_, _, e⟩
    · rw [e]; decide
    · exact refusal_reason e
    · rw [e]; decide
  | admitted type live passes =>
    obtain ⟨es, he, hx⟩ := accepted_exhausted a cmd
    refine ⟨es, he, fun h => ⟨type, ?_⟩⟩
    obtain ⟨h1, h2⟩ := hx h
    have h3 := (Flat.shrinks_orders (matching_shrinks a cmd)).length_le
    have h4 := hi.room
    rw [h1]
    omega
  | canceled o found why => exact ⟨_, emits_newEvent _ (.cancel o cmd.tsRecv), hone nofun⟩
  | replaced o found type sized keeps => exact ⟨_, emits_newEvent _ (.replace _ cmd.quantity cmd.tsRecv), hone nofun⟩
  | requeued o found type sized moves passes =>
    obtain ⟨es, he, hx⟩ := accepted_exhausted (a.withFlat (a.drop o)) (replacement cmd o)
    refine ⟨es, he, fun h => ?_⟩
    -- the order taken off made room
    obtain ⟨_, h2⟩ := hx h
    exact absurd h2 (Nat.not_le.mpr (requeue_room hi found _))
  | lost o found type sized moves r refusal =>
    exact ⟨_, emits_reject _ (replacement cmd o) r, hone (refusal_reason refusal)⟩

theorem process_exhausted (hi : a.Inv) {ev : Event} (hev : ev ∈ (a.process fillable cmd).out)
    (hr : ev.reason = .poolExhausted) (hb : ev.type ≠ .bookChanged) :
    cmd.type = .new ∧ (a.process fillable cmd).orders.length = a.cfg.maxOrders := by
  obtain ⟨es, he, hx⟩ := dispatch_exhausted (a := a.withVars (a.start 0 cmd)) hi fillable cmd
  obtain ⟨tail, hout, htail⟩ := process_out a fillable cmd he
  have hmem : ev.unnumbered ∈ es ++ tail := by rw [← hout]; exact List.mem_map_of_mem hev
  obtain ⟨e1, _, _, _⟩ := process_eq a fillable cmd
  rw [e1]
  rcases List.mem_append.mp hmem with h | h
  · exact hx ⟨_, h, hr⟩
  · exact absurd (htail _ h) hb

end FlatEngine

variable {B : Type} [Book B] [LawfulBook B] {cfg : EngineConfig}

/-- After every command of a run with non-zero ids and no unpriced orders the three
    structures are coherent. A Canceled event for a full pool is reported only with
    `max_orders` orders resting, and never for a Modify. -/
theorem run_coherent {e0 : Engine B} {is : List Engine.Input} (h0 : Engine.init cfg = some e0)
    (his : ∀ i ∈ is, i.Obeys fun cmd => ¬ cmd.Unpriced ∧ ¬ cmd.Nameless) :
    ∃ e : Engine B, Engine.run cfg is = some e ∧ Coherent e ∧
      ∀ now cmd e', e.process now cmd = some e' →
        (∀ ev ∈ e'.out, ev.type = .canceled → ev.reason = .poolExhausted → e'.resting.length = cfg.maxOrders) ∧
        (cmd.type = .modify → ∀ ev ∈ e'.out, ev.type = .canceled → ev.reason ≠ .poolExhausted) := by
  obtain ⟨e, he, _, _⟩ := run_flat h0 fun i hi => (his i hi).imp fun _ h => h.1
  obtain ⟨a, hs, hcfg, hn⟩ := run_induction he (fun i hi => (his i hi).imp fun _ h => h.2)
    (fun cap => (⟨fun o ho => (by cases ho), rfl⟩ : (FlatEngine.init cfg cap).Named))
    fun a fillable i hi hn hok => FlatEngine.named_step hi hn fillable hok
  refine ⟨e, he, hs.coherent hn, fun now cmd e' hp => ?_⟩
  have hs' := (process_refines hs now cmd).2 e' hp
  have key : ∀ ev ∈ e'.out, ev.type = .canceled → ev.reason = .poolExhausted →
      cmd.type = .new ∧ e'.resting.length = cfg.maxOrders := by
    intro ev hev ht hr
    have hmem : ev.untimed ∈ (a.process (e.fillable cmd) cmd).out := by
      rw [← hs'.refines.vars]
      exact List.mem_map_of_mem hev
    obtain ⟨h1, h2⟩ := FlatEngine.process_exhausted hs.inv hmem hr (by
      show ev.type ≠ .bookChanged
      rw [ht]; decide)
    obtain ⟨T, hrep⟩ := hs'.refines.rep
    refine ⟨h1, ?_⟩
    rw [hrep.orders] at h2
    unfold infos at h2
    rw [List.length_map, hcfg] at h2
    rw [hrep.resting]
    exact h2
  exact ⟨fun ev hev ht hr => (key ev hev ht hr).2, fun hm ev hev ht hr => by
    have := (key ev hev ht hr).1
    rw [hm] at this
    cases this⟩

theorem run_coherent_full_pool : ∃ e : Engine OrderBook,
    Engine.run { minPrice := 1, maxPrice := 500, maxOrders := 1 } [.command 0 (.makeNew 1 7 .buy .limit 100 5 0),
      .command 0 (.makeNew 2 8 .sell .limit 101 5 0), .command 0 (.makeModify 1 7 99 9 0)] = some e ∧ Coherent e ∧
      ∀ now cmd e', e.process now cmd = some e' →
        (∀ ev ∈ e'.out, ev.type = .canceled → ev.reason = .poolExhausted → e'.resting.length = 1) ∧
        (cmd.type = .modify → ∀ ev ∈ e'.out, ev.type = .canceled → ev.reason ≠ .poolExhausted) :=
  @run_coherent OrderBook _ _ { minPrice := 1, maxPrice := 500, maxOrders := 1 } _ _ rfl (by decide)

end Lob
