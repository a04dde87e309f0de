/-
  Lob.Laws.Workload — the generated flow is a workload the engine takes.

  Fed by the generator, on the band it is configured with, the engine accepts every New.
  What it does reject it rejects as unknown, a Cancel or Modify of an order that has left;
  and with no more News than the pool has places it never runs out of them
  (`workload_accepted`). So the benches and the equivalence tests exercise matching.
-/

import Lob.Book.OrderBookProofs
import Lob.Engine.Refusals
import Lob.Laws.Coherence
import Lob.Laws.Flow

namespace Lob

open OrderFlowGenerator

/-! ## The commands of the flow -/

/-- A command of the flow after `n` News. -/
structure Command.Usual (lo hi : Price) (n : Nat) (c : Command) : Prop where
  sized : c.type ≠ .cancel → c.quantity ≠ 0
  fresh : c.type = .new → c.id.toNat = n + 1
  kind : c.type = .new → (c.ordType = .market ∧ c.price = kNoPrice) ∨ (c.ordType = .limit ∧ c.price ≠ kNoPrice)
  banded : c.type ≠ .cancel → c.price = kNoPrice ∨ (lo ≤ c.price ∧ c.price ≤ hi)

/-- So is every command, after the News before it. -/
def Usual (lo hi : Price) (cs : List Command) : Prop :=
  ∀ before c, before ++ [c] <+: cs → c.Usual lo hi (news before).length

theorem Usual.init {lo hi : Price} {cs : List Command} {c : Command} (h : Usual lo hi (cs ++ [c])) : Usual lo hi cs :=
  fun before x hx => h before x (hx.trans (List.prefix_append ..))

section
variable {G F : Type} [OfScientific F] {s : OrderFlowGenerator G F} {cfg : FlowConfig F} {cs : List Command}

theorem lot_sized (hq : 0 < cfg.minQty) {q : Quantity} (h : cfg.InLot q) : q ≠ 0 := by
  rintro rfl
  exact absurd (UInt64.lt_of_lt_of_le hq h.1) (UInt64.lt_irrefl 0)

/-- A New of the generator. -/
theorem OrderFlowGenerator.Tracks.usual_new (h : Tracks cfg cs s) (hmin : kNoPrice < cfg.minPrice) (hq : 0 < cfg.minQty) {client : ClientId}
    {side : Side} {ordType : OrderType} {price : Price} {qty : Quantity} (hlot : s.cfg.InLot qty)
    (hkind : (ordType = .market ∧ price = kNoPrice) ∨ (ordType = .limit ∧ s.cfg.InBand price))
    (hk : (news (cs ++ [Command.makeNew s.nextId client side ordType price qty 0])).length < 2 ^ 64) :
    (Command.makeNew s.nextId client side ordType price qty 0).Usual cfg.minPrice cfg.maxPrice (news cs).length := by
  rw [h.cfg_eq] at hlot hkind
  rw [news_concat, List.length_append] at hk
  have hk : (news cs).length + 1 < 2 ^ 64 := hk
  refine ⟨fun _ => lot_sized hq hlot, fun _ => ?_, fun _ => ?_, fun _ => ?_⟩
  · show s.nextId.toNat = _
    rw [h.nextId, UInt64.toNat_ofNat']
    exact Nat.mod_eq_of_lt hk
  · rcases hkind with hmarket | ⟨hlimit, hband⟩
    · exact Or.inl hmarket
    · refine Or.inr ⟨hlimit, fun hno => ?_⟩
      have hno : price = kNoPrice := hno
      rw [hno] at hband
      exact absurd hmin (not_lt.mpr hband.1)
  · rcases hkind with ⟨_, hno⟩ | ⟨_, hband⟩
    · exact Or.inl hno
    · exact Or.inr hband

theorem OrderFlowGenerator.Tracks.usual (h : Tracks cfg cs s) (hmin : kNoPrice < cfg.minPrice) (hq : 0 < cfg.minQty)
    {r : Command × OrderFlowGenerator G F} (hr : s.Emits r) (hk : (news (cs ++ [r.1])).length < 2 ^ 64) :
    r.1.Usual cfg.minPrice cfg.maxPrice (news cs).length := by
  cases hr with
  | market g mid side client qty _ hlot => exact h.usual_new hmin hq hlot (Or.inl ⟨rfl, rfl⟩) hk
  | aggressive g mid side client qty price _ hlot hband => exact h.usual_new hmin hq hlot (Or.inr ⟨rfl, hband⟩) hk
  | passive g mid side client qty price _ hlot hband => exact h.usual_new hmin hq hlot (Or.inr ⟨rfl, hband⟩) hk
  | cancel g i v => exact ⟨fun hc => absurd rfl hc, nofun, nofun, fun hc => absurd rfl hc⟩
  | modify g v price qty _ hlot hprice =>
    rw [h.cfg_eq] at hlot hprice
    exact ⟨fun _ => lot_sized hq hlot, nofun, nofun, fun _ => hprice⟩

variable [LT F] [DecidableLT F] [Add F]

theorem run_usual (d : Draws G F) (hv : cfg.Valid) (hmin : kNoPrice < cfg.minPrice) (hq : 0 < cfg.minQty) (g : G) :
    ∀ n, (news ((make cfg g).run d n).1).length < 2 ^ 64 → Usual cfg.minPrice cfg.maxPrice ((make cfg g).run d n).1 := by
  intro n
  induction n with
  | zero =>
    intro _ before c hpre
    have hlen := hpre.length_le
    rw [List.length_append] at hlen
    exact absurd hlen (Nat.not_succ_le_zero _)
  | succ n ih =>
    intro hk
    have hk' := Nat.lt_of_le_of_lt (news_run_le d (make cfg g) n) hk
    have h := run_tracks d cfg hv hmin g n hk'
    have hcfg := h.cfg_eq
    intro before c hpre
    rcases List.prefix_concat_iff.mp hpre with hwhole | hpre
    · obtain ⟨rfl, hlast⟩ := List.append_inj' hwhole rfl
      cases hlast
      exact h.usual hmin hq (next_emits d (by rw [hcfg]; exact hv.band) (by rw [hcfg]; exact hv.qty) h.live_lt) hk
    · exact ih hk' before c hpre

end

/-! ## What the engine does with them -/

namespace FlatEngine

variable {a a' : FlatEngine} {cmd : Command} {fillable : Bool} {lo hi : Price} {n : Nat}

/-- The engine after `n` News of the flow: it holds no more orders than that, all of them Limit
    orders under their numbers. -/
structure Serving (n : Nat) (a : FlatEngine) : Prop where
  live : a.halted = false
  ids : ∀ o ∈ a.orders, o.id.toNat ≤ n
  limits : ∀ o ∈ a.orders, o.type = .limit
  few : a.orders.length ≤ n

theorem Serving.init (cfg : EngineConfig) (cap : Nat) : (init cfg cap).Serving 0 :=
  ⟨rfl, fun _ ho => (by cases ho), fun _ ho => (by cases ho), Nat.le_refl 0⟩

/-- How many News a command makes it. -/
def after (n : Nat) (cmd : Command) : Nat := n + if cmd.type = .new then 1 else 0

theorem le_after (n : Nat) (cmd : Command) : n ≤ after n cmd := Nat.le_add_right ..

theorem Serving.shrink (h : a.Serving n) (hc : a'.halted = a.halted) (hs : ∀ s, Shrinks (a'.side s) (a.side s)) {n' : Nat}
    (hn : n ≤ n') : a'.Serving n' := by
  have ho := Flat.shrinks_orders hs
  refine ⟨hc.trans h.live, fun o ho' => ?_, fun o ho' => ?_, (ho.length_le.trans h.few).trans hn⟩
  · obtain ⟨x, hx, hr⟩ := ho.mem ho'
    rw [hr.id_eq]
    exact (h.ids x hx).trans hn
  · obtain ⟨x, hx, hr⟩ := ho.mem ho'
    rw [hr.type]
    exact h.limits x hx

theorem Serving.moves (hinv : a.Inv) (h : a.Serving n) (hc : cmd.Usual lo hi n) (hm : Moves a fillable cmd a') :
    a'.Serving (after n cmd) := by
  cases hm with
  | shrinks m kept le sides => exact h.shrink kept.halted sides (le_after n cmd)
  | lands b c g o kept before sides landing result origin =>
    have hg : ∀ s, Shrinks (g.side s) (a.side s) := by
      rw [landing.book]
      exact fun s => (matching_shrinks b c s).trans (sides s)
    -- the order that came to rest is a New, or was there before
    have horder : o.id.toNat ≤ after n cmd ∧ o.type = .limit ∧ g.orders.length + 1 ≤ after n cmd := by
      have hkind := landing.kind
      rw [landing.order]
      rcases origin with ⟨rfl, htype, _, rfl⟩ | ⟨old, hold, hfind, htype, rfl, rfl⟩
      · have hafter : after n c = n + 1 := by rw [after, if_pos htype]
        rw [hafter]
        refine ⟨(hc.fresh htype).le, ?_, ?_⟩
        · rcases hc.kind htype with ⟨hmarket, _⟩ | ⟨hlimit, _⟩
          · rw [hmarket] at hkind
            cases hkind
          · exact hlimit
        · exact Nat.succ_le_succ ((Flat.shrinks_orders hg).length_le.trans h.few)
      · obtain ⟨_, _, hid⟩ := Flat.find_some hfind
        refine ⟨?_, h.limits old hold, ?_⟩
        · show cmd.id.toNat ≤ _
          rw [← hid]
          exact (h.ids old hold).trans (le_after n cmd)
        · have hlen := Flat.drop_length (hinv.mem_side hold)
          have hshrink := (Flat.shrinks_orders (matching_shrinks (a.withFlat (a.drop old)) (replacement cmd old))).length_le
          rw [landing.book]
          have hdrop : (a.withFlat (a.drop old)).orders.length + 1 = a.orders.length := hlen
          have hfew := h.few
          have hle := le_after n cmd
          omega
    have hperm := Flat.place_perm g o
    refine ⟨kept.halted.trans h.live, fun x hx => ?_, fun x hx => ?_, ?_⟩
    · rw [result, hperm.mem_iff, List.mem_cons] at hx
      rcases hx with rfl | hx
      · exact horder.1
      · obtain ⟨y, hy, hr⟩ := (Flat.shrinks_orders hg).mem hx
        rw [hr.id_eq]
        exact (h.ids y hy).trans (le_after n cmd)
    · rw [result, hperm.mem_iff, List.mem_cons] at hx
      rcases hx with rfl | hx
      · exact horder.2.1
      · obtain ⟨y, hy, hr⟩ := (Flat.shrinks_orders hg).mem hx
        rw [hr.type]
        exact h.limits y hy
    · rw [result, hperm.length_eq]
      exact horder.2.2

theorem Serving.process (hinv : a.Inv) (h : a.Serving n) (hc : cmd.Usual lo hi n) (fillable : Bool) :
    (a.process fillable cmd).Serving (after n cmd) := by
  obtain ⟨e1, _, _, e4⟩ := process_eq a fillable cmd
  have h' : (a.withVars (a.start 0 cmd)).Serving n := ⟨h.live, h.ids, h.limits, h.few⟩
  have hinv' : (a.withVars (a.start 0 cmd)).Inv := hinv
  have hmoved := h'.moves hinv' hc (dispatch_moves (a.withVars (a.start 0 cmd)) fillable cmd)
  obtain ⟨hlive, hids, hlimits, hfew⟩ := hmoved
  refine ⟨e4.trans hlive, ?_, ?_, ?_⟩
  all_goals
    rw [e1]
    assumption

/-- A New passes every check of `handle_new`. -/
theorem Serving.admits (h : a.Serving n) (hc : cmd.Usual a.cfg.minPrice a.cfg.maxPrice n) (ht : cmd.type = .new) :
    a.refusal fillable cmd = none := by
  have hsized : cmd.quantity ≠ 0 := hc.sized (by rw [ht]; nofun)
  have hkind := hc.kind ht
  refine refusal_none.mpr ⟨hsized, fun hm => ?_, ?_, fun hpost => ?_, fun hfok => ?_⟩
  · have hpriced : cmd.price ≠ kNoPrice := by
      intro e
      unfold isMarket at hm
      exact of_decide_eq_false hm (Or.inr e)
    exact (hc.banded (by rw [ht]; nofun)).resolve_left hpriced
  · cases hfind : a.find cmd.id with
    | none => rfl
    | some o =>
      obtain ⟨_, ho, hid⟩ := Flat.find_some hfind
      have hle := h.ids o ho
      have hfresh := hc.fresh ht
      rw [hid] at hle
      omega
  · rw [hpost] at hkind
    rcases hkind with ⟨e, _⟩ | ⟨e, _⟩ <;> cases e
  · rw [hfok] at hkind
    rcases hkind with ⟨e, _⟩ | ⟨e, _⟩ <;> cases e

/-- So does a replacement. -/
theorem Serving.readmits (hinv : a.Inv) (hp : a.Priced) (h : a.Serving n) (hc : cmd.Usual a.cfg.minPrice a.cfg.maxPrice n)
    {o : OrderInfo} (hf : a.find cmd.id = some o) (ht : cmd.type = .modify) (r : RejectReason) :
    (a.withFlat (a.drop o)).refusal fillable (replacement cmd o) ≠ some r := by
  intro hr
  have hsized : cmd.quantity ≠ 0 := hc.sized (by rw [ht]; nofun)
  obtain ⟨_, ho, _⟩ := Flat.find_some hf
  rcases (refusal_replacement hinv hf hsized).mp ⟨r, hr⟩ with ⟨_, hout⟩ | ⟨hpost, _⟩
  · refine hout ?_
    show a.inBand (newPrice cmd o.price)
    unfold newPrice
    split
    · exact (hp o ho).2
    · rename_i hne
      exact (hc.banded (by rw [ht]; nofun)).resolve_left hne
  · rw [h.limits o ho] at hpost
    cases hpost

/-- What the engine reports for a command of the flow. -/
structure Takes (a : FlatEngine) (n : Nat) (cmd : Command) (es : List Event) : Prop where
  rejects : ∀ ev ∈ es, ev.type = .rejected → ev.reason = .unknownOrder
  room : (∃ ev ∈ es, ev.reason = .poolExhausted) → cmd.type = .new ∧ a.cfg.maxOrders ≤ n
  accepts : cmd.type = .new → ∃ ev ∈ es, ev.type = .accepted ∧ ev.orderId = cmd.id

theorem takes_accepted {b : FlatEngine} {c : Command}
    (hroom : b.cfg.maxOrders ≤ (b.afterMatch c).orders.length → cmd.type = .new ∧ a.cfg.maxOrders ≤ n)
    (hid : cmd.type = .new → c.id = cmd.id) :
    ∃ es, b.Emits (b.handleAccepted c).toEngineVars es ∧ a.Takes n cmd es := by
  obtain ⟨es, he, hx⟩ := accepted_exhausted b c
  obtain ⟨tail, he', _⟩ := accepted_events b c
  have hes : es = _ := List.append_cancel_left (he.symm.trans he')
  refine ⟨es, he, fun ev hev ht => absurd ht (accepted_no_reject he ev hev), fun hex => hroom (hx hex).2, fun ht => ?_⟩
  rw [hes]
  exact ⟨_, List.mem_append_left _ List.mem_cons_self, rfl, hid ht⟩

theorem Serving.dispatch (hinv : a.Inv) (hp : a.Priced) (h : a.Serving n)
    (hc : cmd.Usual a.cfg.minPrice a.cfg.maxPrice n) (fillable : Bool) :
    ∃ es, a.Emits (a.dispatch fillable cmd).toEngineVars es ∧ a.Takes n cmd es := by
  have hone : ∀ {ev0 : Event}, (ev0.type = .rejected → ev0.reason = .unknownOrder) → ev0.reason ≠ .poolExhausted →
      cmd.type ≠ .new → a.Takes n cmd [ev0] := by
    intro ev0 hreject hreason ht
    refine ⟨fun ev hev => ?_, fun ⟨ev, hev, he⟩ => ?_, fun hnew => absurd hnew ht⟩
    · rw [List.mem_singleton.mp hev]
      exact hreject
    · rw [List.mem_singleton.mp hev] at he
      exact absurd he hreason
  have ho := dispatch_outcome a fillable cmd
  generalize a.dispatch fillable cmd = a' at ho ⊢
  cases ho with
  | refused r why =>
    rcases why with ⟨_, hhalted, _⟩ | ⟨htype, _, hrefusal⟩ | ⟨htype, _, rfl⟩
    · rw [h.live] at hhalted
      cases hhalted
    · rw [h.admits hc htype] at hrefusal
      cases hrefusal
    · exact ⟨_, emits_reject _ cmd _, hone (fun _ => rfl) nofun htype⟩
  | admitted type live passes =>
    have hlen := (Flat.shrinks_orders (matching_shrinks a cmd)).length_le
    exact takes_accepted (fun hfull => ⟨type, (hfull.trans hlen).trans h.few⟩) fun _ => rfl
  | canceled o found why =>
    refine ⟨_, emits_newEvent _ (.cancel o cmd.tsRecv), hone nofun nofun ?_⟩
    rcases why with ht | ⟨ht, _⟩ <;> rw [ht] <;> nofun
  | replaced o found type sized keeps =>
    exact ⟨_, emits_newEvent _ (.replace _ cmd.quantity cmd.tsRecv), hone nofun nofun (by rw [type]; nofun)⟩
  | requeued o found type sized moves passes =>
    refine takes_accepted (b := a.withFlat (a.drop o)) (fun hfull => ?_) fun ht => ?_
    · exact absurd hfull (Nat.not_le.mpr (requeue_room hinv found _))
    · rw [type] at ht
      cases ht
  | lost o found type sized moves r refusal => exact absurd refusal (h.readmits hinv hp hc found type r)

end FlatEngine

/-! ## Runs -/

variable {B : Type} [Book B] [LawfulBook B] {e e' : Engine B} {a : FlatEngine} {n : Nat}

/-- One command of the flow. -/
theorem Simulates.served (h : Simulates e a) (hp : a.Priced) (hserving : a.Serving n) (now : TsNanos) {cmd : Command}
    (hc : cmd.Usual a.cfg.minPrice a.cfg.maxPrice n) : ∃ e' a', e.process now cmd = some e' ∧ Simulates e' a' ∧ a'.Priced ∧
      a'.cfg = a.cfg ∧ a'.Serving (FlatEngine.after n cmd) ∧ a.Takes n cmd (e'.out.filter fun ev => ev.type ≠ .bookChanged) := by
  have hpriced : ¬ cmd.Unpriced := by
    rintro ⟨ht, hrests, hno⟩
    rcases hc.kind ht with ⟨hmarket, _⟩ | ⟨_, hpriced⟩
    · rw [hmarket] at hrests
      cases hrests
    · exact hpriced hno
  obtain ⟨e', he', h'⟩ := step_flat h hp (i := .command now cmd) hpriced
  refine ⟨e', _, he', h', hp.step a.fillable (i := .command now cmd) hpriced, a.step_cfg a.fillable (.command now cmd),
    hserving.process h.inv hc (a.fillable cmd), ?_⟩
  have hstart : (a.withVars (a.start 0 cmd)).Serving n := ⟨hserving.live, hserving.ids, hserving.limits, hserving.few⟩
  have hinv : (a.withVars (a.start 0 cmd)).Inv := h.inv
  have hp0 : (a.withVars (a.start 0 cmd)).Priced := hp
  obtain ⟨es, hes, hrejects, hroom, haccepts⟩ := hstart.dispatch hinv hp0 hc (a.fillable cmd)
  obtain ⟨tail, hout, htail⟩ := FlatEngine.process_out a (a.fillable cmd) cmd hes
  have hall : e'.out.map Event.unnumbered = es ++ tail := (out_unnumbered h'.refines.vars).trans hout
  have hin : ∀ ev ∈ e'.out, ev.type ≠ .bookChanged → ev.unnumbered ∈ es := by
    intro ev hev ht
    have hmem := List.mem_map_of_mem (f := Event.unnumbered) hev
    rw [hall] at hmem
    exact (List.mem_append.mp hmem).resolve_right fun hx => ht (htail ev.unnumbered hx)
  refine ⟨fun ev hev => ?_, fun hex => ?_, fun ht => ?_⟩
  · obtain ⟨hev, hb⟩ := List.mem_filter.mp hev
    exact hrejects ev.unnumbered (hin ev hev (of_decide_eq_true hb))
  · obtain ⟨ev, hev, hr⟩ := hex
    obtain ⟨hev, hb⟩ := List.mem_filter.mp hev
    exact hroom ⟨_, hin ev hev (of_decide_eq_true hb), hr⟩
  · obtain ⟨ev, hev, hacc, hid⟩ := haccepts ht
    have hmem : ev ∈ e'.out.map Event.unnumbered := by
      rw [hall]
      exact List.mem_append_left _ hev
    obtain ⟨ev', hev', rfl⟩ := List.mem_map.mp hmem
    have hacc : ev'.type = .accepted := hacc
    exact ⟨ev', List.mem_filter.mpr ⟨hev', by rw [hacc]; rfl⟩, hacc, hid⟩

/-- What a run on commands of the flow reports. -/
structure Engine.Took (cs : List Command) (capacity : Nat) (log : List Event) : Prop where
  rejects : ∀ ev ∈ log, ev.type = .rejected → ev.reason = .unknownOrder
  room : (news cs).length ≤ capacity → ∀ ev ∈ log, ev.type = .canceled → ev.reason ≠ .poolExhausted
  accepts : ∀ c ∈ news cs, ∃ ev ∈ log, ev.type = .accepted ∧ ev.orderId = c.id

theorem Engine.Took.nil (capacity : Nat) : Engine.Took [] capacity [] :=
  ⟨fun _ hev => absurd hev List.not_mem_nil, fun _ _ hev => absurd hev List.not_mem_nil,
    fun _ hc => absurd hc List.not_mem_nil⟩

theorem Engine.Took.snoc {cs : List Command} {log out : List Event} (h : Engine.Took cs a.cfg.maxOrders log) {cmd : Command}
    (ht : a.Takes (news cs).length cmd (out.filter fun ev => ev.type ≠ .bookChanged)) :
    Engine.Took (cs ++ [cmd]) a.cfg.maxOrders (log ++ out) := by
  have hin : ∀ {ev : Event}, ev ∈ out → ev.type ≠ .bookChanged → ev ∈ out.filter fun ev => ev.type ≠ .bookChanged :=
    fun hev hb => List.mem_filter.mpr ⟨hev, decide_eq_true hb⟩
  refine ⟨fun ev hev hr => ?_, fun hroom ev hev hc hx => ?_, fun c hc => ?_⟩
  · rcases List.mem_append.mp hev with hev | hev
    · exact h.rejects ev hev hr
    · exact ht.rejects ev (hin hev (by rw [hr]; nofun)) hr
  · rw [news_concat, List.length_append] at hroom
    rcases List.mem_append.mp hev with hev | hev
    · exact h.room (by omega) ev hev hc hx
    · obtain ⟨htype, hfull⟩ := ht.room ⟨ev, hin hev (by rw [hc]; nofun), hx⟩
      rw [if_pos htype, List.length_singleton] at hroom
      omega
  · rw [news_concat] at hc
    rcases List.mem_append.mp hc with hc | hc
    · obtain ⟨ev, hev, hacc⟩ := h.accepts c hc
      exact ⟨ev, List.mem_append_left _ hev, hacc⟩
    · split at hc
      · rename_i htype
        rw [List.mem_singleton.mp hc]
        obtain ⟨ev, hev, hacc⟩ := ht.accepts htype
        exact ⟨ev, List.mem_append_right _ (List.mem_filter.mp hev).1, hacc⟩
      · cases hc

theorem steps_served {lo hi : Price} (h : Simulates e a) (hp : a.Priced) (hlo : a.cfg.minPrice = lo) (hhi : a.cfg.maxPrice = hi)
    (hserving : a.Serving 0) {is : List Engine.Input} {cs : List Command} (hc : Usual lo hi cs)
    (his : is.map Engine.Input.command? = cs.map some) :
    ∃ e' a', e.steps is = some e' ∧ Simulates e' a' ∧ a'.Priced ∧ a'.cfg = a.cfg ∧ a'.Serving (news cs).length ∧
      Engine.Took cs a.cfg.maxOrders (e.emitted is) := by
  induction is using List.reverseRecOn generalizing cs with
  | nil =>
    obtain rfl := List.map_eq_nil_iff.mp his.symm
    exact ⟨e, a, rfl, h, hp, rfl, hserving, .nil _⟩
  | append_singleton is i ih =>
    rw [List.map_append] at his
    obtain ⟨cs, last, rfl, hcs, hlast⟩ := List.map_eq_append_iff.mp his.symm
    obtain ⟨cmd, rfl, hcmd⟩ := List.map_eq_singleton_iff.mp hlast
    obtain ⟨e1, a1, h1, hs1, hp1, hcfg1, hserving1, htook1⟩ := ih hc.init hcs.symm
    cases i with
    | setHalted b => cases hcmd
    | command now c =>
      cases hcmd
      have husual : cmd.Usual a1.cfg.minPrice a1.cfg.maxPrice (news cs).length := by
        rw [hcfg1, hlo, hhi]
        exact hc cs cmd (List.prefix_refl _)
      obtain ⟨e2, a2, h2, hs2, hp2, hcfg2, hserving2, htakes⟩ := hs1.served hp1 hserving1 now husual
      have hsteps : e1.steps [.command now cmd] = some e2 := Option.bind_eq_some_iff.mpr ⟨e2, h2, rfl⟩
      refine ⟨e2, a2, ?_, hs2, hp2, hcfg2.trans hcfg1, ?_, ?_⟩
      · rw [steps_append, h1]
        exact hsteps
      · have hnews : (news (cs ++ [cmd])).length = FlatEngine.after (news cs).length cmd := by
          rw [news_concat, List.length_append, FlatEngine.after]
          split <;> rfl
        rw [hnews]
        exact hserving2
      · rw [emitted_append h1, emitted_cons (show e1.step (.command now cmd) = some e2 from h2)]
        rw [hcfg1.symm] at htook1 ⊢
        have hout : (Engine.Input.command now cmd).heard e2 ++ e2.emitted [] = e2.out := List.append_nil _
        rw [hout]
        exact htook1.snoc htakes

/-- The engine takes whatever the generator sends. -/
theorem workload_accepted {G F : Type} [OfScientific F] [LT F] [DecidableLT F] [Add F] (d : Draws G F) {cfg : FlowConfig F}
    (hv : cfg.Valid) (hmin : kNoPrice < cfg.minPrice) (hq : 0 < cfg.minQty) (g : G) (n : Nat)
    (hn : (news ((make cfg g).run d n).1).length < 2 ^ 64) {ecfg : EngineConfig} (hlo : ecfg.minPrice = cfg.minPrice)
    (hhi : ecfg.maxPrice = cfg.maxPrice) {e0 : Engine B} (h0 : Engine.init ecfg = some e0) {is : List Engine.Input}
    (his : is.map Engine.Input.command? = ((make cfg g).run d n).1.map some) :
    ∃ e, e0.steps is = some e ∧ Engine.Took ((make cfg g).run d n).1 ecfg.maxOrders (e0.emitted is) := by
  obtain ⟨e, _, he, _, _, _, _, htook⟩ := steps_served (init_simulates h0) (FlatEngine.Priced.init ecfg _) hlo hhi
    (FlatEngine.Serving.init ecfg _) (run_usual d hv hmin hq g n hn) his
  exact ⟨e, he, htook⟩

def defaultBand : EngineConfig := { minPrice := 1, maxPrice := 20000, maxOrders := 4 }

/-- A thousand commands of the default flow, with the code's own draws. -/
theorem workload_accepted_default : ∃ e0 : Engine OrderBook, Engine.init defaultBand = some e0 ∧
    ∃ e, e0.steps (((make defaults (Xoshiro.ofSeed 42)).run xoshiro 1000).1.map (.command 0)) = some e ∧
      Engine.Took ((make defaults (Xoshiro.ofSeed 42)).run xoshiro 1000).1 4
        (e0.emitted (((make defaults (Xoshiro.ofSeed 42)).run xoshiro 1000).1.map (.command 0))) := by
  have hle := news_length_le ((make defaults (Xoshiro.ofSeed 42)).run xoshiro 1000).1
  rw [run_length] at hle
  have hvalid : defaults.Valid := ⟨by decide, by decide, by decide, by decide, by decide⟩
  refine ⟨_, rfl, workload_accepted xoshiro hvalid (by decide) (by decide) (Xoshiro.ofSeed 42) 1000 (by omega)
    (show defaultBand.minPrice = defaults.minPrice from rfl) rfl rfl ?_⟩
  rw [List.map_map]
  rfl

end Lob
