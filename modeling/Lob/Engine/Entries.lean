/-
  Lob.Engine.Entries — the order a command sends in to match, if it sends one.

  A New that passes the checks enters as it is. A Modify that gives up its order's place
  enters as the replacement, with the old order gone from the book. Everything the engine
  trades, and everything that comes to rest, enters by one of these two ways
  (`dispatch_cases`).
-/

import Lob.Engine.Refusals

namespace Lob

/-! ## Entering the flat engine -/

namespace FlatEngine

/-- `cmd` enters as the New `c`, and finds the engine as `b`. -/
inductive Enters (a : FlatEngine) (fillable : Bool) (cmd : Command) : FlatEngine → Command → Prop
  | new (type : cmd.type = .new) (live : a.halted = false) (passes : a.Passes fillable cmd) :
      Enters a fillable cmd a cmd
  | again (o : OrderInfo) (found : a.find cmd.id = some o) (type : cmd.type = .modify) (sized : cmd.quantity ≠ 0)
      (moves : ¬ keepsPlace cmd o) (passes : (a.withFlat (a.drop o)).Passes fillable (replacement cmd o)) :
      Enters a fillable cmd (a.withFlat (a.drop o)) (replacement cmd o)

variable {a b : FlatEngine} {fillable : Bool} {cmd c : Command}

theorem Enters.passes (h : a.Enters fillable cmd b c) : b.Passes fillable c := by
  cases h with
  | new type live passes => exact passes
  | again o found type sized moves passes => exact passes

theorem Enters.vars (h : a.Enters fillable cmd b c) : b.toEngineVars = a.toEngineVars ∧ b.cfg = a.cfg := by
  cases h with
  | new type live passes => exact ⟨rfl, rfl⟩
  | again o found type sized moves passes => exact ⟨rfl, rfl⟩

theorem Enters.sides (h : a.Enters fillable cmd b c) (s : Side) : Shrinks (b.side s) (a.side s) := by
  cases h with
  | new type live passes => exact Shrinks.refl _
  | again o found type sized moves passes => exact drop_sides a o s

/-- The old order stood on the replacement's own side. -/
theorem Enters.opposite_side (h : a.Enters fillable cmd b c) : b.side (opposite c.side) = a.side (opposite c.side) := by
  cases h with
  | new type live passes => rfl
  | again o found type sized moves passes => exact setList_opposite ..

theorem Enters.inv (h : a.Enters fillable cmd b c) (hi : a.Inv) : b.Inv := by
  unfold Inv
  rw [h.vars.1, h.vars.2]
  exact hi.shrink h.sides (Nat.le_refl _)

/-- A command enters one way only. -/
theorem Enters.unique {b' : FlatEngine} {c' : Command} (h : a.Enters fillable cmd b c) (h' : a.Enters fillable cmd b' c') :
    b' = b ∧ c' = c := by
  cases h with
  | new type live passes =>
    cases h' with
    | new => exact ⟨rfl, rfl⟩
    | again o found type' => rw [type] at type'; cases type'
  | again o found type sized moves passes =>
    cases h' with
    | new type' => rw [type] at type'; cases type'
    | again o' found' =>
      obtain rfl : o = o' := Option.some.inj (found.symm.trans found')
      exact ⟨rfl, rfl⟩

theorem Enters.dispatch (h : a.Enters fillable cmd b c) : a.dispatch fillable cmd = b.handleAccepted c := by
  cases h with
  | new type live passes =>
    unfold FlatEngine.dispatch handleNew
    simp only [type, live, refusal_none.mpr passes, Bool.false_eq_true, if_false]
  | again o found type sized moves passes =>
    unfold FlatEngine.dispatch
    simp only [type, handleModify_requeue found sized moves]
    unfold handleNew
    rw [refusal_none.mpr passes]

theorem mem_replace_of_ne {x o o' : OrderInfo} {L : List OrderInfo} (h : x ∈ L) (hne : x ≠ o) : x ∈ L.replace o o' := by
  induction L with
  | nil => cases h
  | cons y L ih =>
    rw [List.replace_cons]
    split
    · rename_i e
      have e : y = o := (eq_of_beq e).symm
      exact List.mem_cons_of_mem _ ((List.mem_cons.mp h).resolve_left fun e' => hne (e'.trans e))
    · rcases List.mem_cons.mp h with rfl | h
      · exact List.mem_cons_self ..
      · exact List.mem_cons_of_mem _ (ih h)

/-- An order that enters is dealt with, and nothing else trades or comes to rest. -/
theorem dispatch_cases (a : FlatEngine) (fillable : Bool) (cmd : Command) :
    (∃ b c, a.Enters fillable cmd b c ∧ a.dispatch fillable cmd = b.handleAccepted c) ∨
    ((∀ b c, ¬ a.Enters fillable cmd b c) ∧ (∀ s, Shrinks ((a.dispatch fillable cmd).side s) (a.side s)) ∧
      (∀ s, ∀ o ∈ a.side s, o.id ≠ cmd.id → o ∈ (a.dispatch fillable cmd).side s) ∧
      ∃ ev, a.Emits (a.dispatch fillable cmd).toEngineVars [ev] ∧
        (ev.type = .rejected ∨ (ev.type = .canceled ∧ ev.reason = .none) ∨ ev.type = .replaced)) := by
  by_cases hin : ∃ b c, a.Enters fillable cmd b c
  · obtain ⟨b, c, h⟩ := hin
    exact Or.inl ⟨b, c, h, h.dispatch⟩
  refine Or.inr ⟨fun b c h => hin ⟨b, c, h⟩, ?_⟩
  have ho := dispatch_outcome a fillable cmd
  -- the order found is the only one that is touched
  have hdrop : ∀ o, a.find cmd.id = some o → ∀ s, ∀ x ∈ a.side s, x.id ≠ cmd.id → x ∈ (a.drop o).side s := by
    intro o hf s x hx hne
    have hxo : x ≠ o := fun e => hne (e ▸ (Flat.find_some hf).2.2)
    show x ∈ if s = o.side then (a.side o.side).erase o else a.side s
    split
    · rename_i e
      exact (List.mem_erase_of_ne hxo).mpr (e ▸ hx)
    · exact hx
  generalize a.dispatch fillable cmd = a' at ho ⊢
  cases ho with
  | refused r why =>
    exact ⟨fun s => Shrinks.refl _, fun _ _ hx _ => hx, _, emits_reject _ cmd r, Or.inl rfl⟩
  | admitted type live passes => exact absurd ⟨a, cmd, .new type live passes⟩ hin
  | canceled o found why =>
    exact ⟨drop_sides a o, hdrop o found, _, emits_newEvent _ (.cancel o cmd.tsRecv), Or.inr (Or.inl ⟨rfl, rfl⟩)⟩
  | replaced o found type sized keeps =>
    refine ⟨Flat.shrinks_setList (shrinks_replace (reduced_keep sized keeps) _), fun s x hx hne => ?_, _,
      emits_newEvent _ (.replace { o with remaining := cmd.quantity } cmd.quantity cmd.tsRecv), Or.inr (Or.inr rfl)⟩
    have hxo : x ≠ o := fun e => hne (e ▸ (Flat.find_some found).2.2)
    show x ∈ if s = o.side then (a.side o.side).replace o { o with remaining := cmd.quantity } else a.side s
    split
    · rename_i e
      exact mem_replace_of_ne (e ▸ hx) hxo
    · exact hx
  | requeued o found type sized moves passes => exact absurd ⟨_, _, .again o found type sized moves passes⟩ hin
  | lost o found type sized moves r refusal =>
    exact ⟨drop_sides a o, hdrop o found, _, emits_reject _ (replacement cmd o) r, Or.inl rfl⟩

/-- What comes to rest in a command, of the orders sent in. -/
theorem lands_or_shrinks (a : FlatEngine) (fillable : Bool) (cmd : Command) :
    (∃ b c o, a.Enters fillable cmd b c ∧ Landing b fillable c (b.afterMatch c).toFlat o ∧
      a.dispatch fillable cmd = (b.afterMatch c).withFlat ((b.afterMatch c).place o)) ∨
    ((∀ b c o, a.Enters fillable cmd b c → b.lands fillable c ≠ some o) ∧
      ∀ s, Shrinks ((a.dispatch fillable cmd).side s) (a.side s)) := by
  rcases dispatch_cases a fillable cmd with ⟨b, c, hin, he⟩ | ⟨hno, hsh, _, _⟩
  · have hs := accepted_settles b c
    rw [he]
    generalize b.handleAccepted c = a' at hs ⊢
    have hshrinks : ∀ s, Shrinks ((b.afterMatch c).side s) (a.side s) := fun s => (matching_shrinks b c s).trans (hin.sides s)
    cases hs with
    | filled done =>
      refine Or.inr ⟨fun b' c' o h hl => ?_, hshrinks⟩
      obtain ⟨rfl, rfl⟩ := hin.unique h
      have hl := lands_iff.mp hl
      rw [hl.matched] at hl
      exact hl.opened.1 done
    | canceled reason open_ why =>
      refine Or.inr ⟨fun b' c' o h hl => ?_, hshrinks⟩
      obtain ⟨rfl, rfl⟩ := hin.unique h
      have hl := lands_iff.mp hl
      rcases why with ⟨_, hk⟩ | ⟨_, _, hroom⟩
      · rw [hl.kind] at hk; cases hk
      · exact absurd hl.room (Nat.not_lt.mpr hroom)
    | rested open_ kind room => exact Or.inl ⟨b, c, _, hin, hin.passes.landing open_ kind room, rfl⟩
  · exact Or.inr ⟨fun b c o h => absurd h (hno b c), hsh⟩

/-! ## What an order that enters leaves behind -/

theorem accepted_facing (b : FlatEngine) (c : Command) :
    (b.handleAccepted c).side (opposite c.side) = (b.matching c).left := by
  have hs := accepted_settles b c
  generalize b.handleAccepted c = a' at hs ⊢
  cases hs with
  | filled done => rw [afterMatch_side, if_pos rfl]
  | canceled reason open_ why => exact if_pos rfl
  | rested open_ kind room =>
    have hside : (b.matching c).inc.side = c.side := by rw [matching_inc]; rfl
    show ((b.afterMatch c).place (b.matching c).inc).side (opposite c.side) = _
    rw [Flat.place_side, hside, if_neg (opposite_ne _), afterMatch_side, if_pos rfl]

theorem accepted_arrival (b : FlatEngine) (c : Command) : (b.handleAccepted c).arrival = b.arrival + 1 := by
  have hs := accepted_settles b c
  generalize b.handleAccepted c = a' at hs ⊢
  cases hs with
  | filled done => exact (matching_reported b c).arrival
  | canceled reason open_ why => exact (matching_reported b c).arrival
  | rested open_ kind room => exact (matching_reported b c).arrival

/-! ## What an order that enters reports -/

/-- The event for what is left of an order that neither is filled nor rests. -/
def leftover (b : FlatEngine) (c : Command) : List Event :=
  if (b.matching c).inc.remaining = 0 then []
  else if rests c.ordType = false then [.remainder c (limitOf c) (b.matching c).inc.remaining .none]
  else if b.cfg.maxOrders ≤ (b.afterMatch c).orders.length then
    [.remainder c (limitOf c) (b.matching c).inc.remaining .poolExhausted]
  else []

def reports (b : FlatEngine) (c : Command) : List Event :=
  (.accept c (limitOf c) :: (b.dealings c).flatMap Deal.events) ++ b.leftover c

/-- What is left of the order is canceled, or rests. -/
theorem accepted_own (b : FlatEngine) (c : Command) : ((b.handleAccepted c).side c.side = b.side c.side ∧
      ((b.matching c).inc.remaining ≠ 0 →
        ∃ reason, b.leftover c = [.remainder c (limitOf c) (b.matching c).inc.remaining reason])) ∨
    ((b.matching c).inc.remaining ≠ 0 ∧ b.leftover c = [] ∧
      (b.handleAccepted c).side c.side = Flat.enqueue (b.matching c).inc (b.side c.side)) := by
  have hown : (b.afterMatch c).side c.side = b.side c.side := by rw [afterMatch_side, if_neg (ne_opposite _)]
  have hs := accepted_settles b c
  unfold leftover
  generalize b.handleAccepted c = a' at hs ⊢
  cases hs with
  | filled done => exact Or.inl ⟨hown, fun h => absurd done h⟩
  | canceled reason open_ why =>
    refine Or.inl ⟨hown, fun _ => ?_⟩
    rw [if_neg open_]
    rcases why with ⟨_, hk⟩ | ⟨_, hk, hroom⟩
    · exact ⟨.none, if_pos hk⟩
    · exact ⟨.poolExhausted, by rw [if_neg (by simp [hk]), if_pos hroom]⟩
  | rested open_ kind room =>
    have hside : (b.matching c).inc.side = c.side := by rw [matching_inc]; rfl
    refine Or.inr ⟨open_, ?_, ?_⟩
    · rw [if_neg open_, if_neg (by simp [kind]), if_neg (Nat.not_le.mpr room)]
    · show ((b.afterMatch c).place (b.matching c).inc).side c.side = _
      rw [Flat.place_side, hside, if_pos rfl, hown]

theorem emits_accepted (b : FlatEngine) (c : Command) : b.Emits (b.handleAccepted c).toEngineVars (b.reports c) := by
  unfold handleAccepted reports leftover
  simp only
  by_cases h0 : (b.matching c).inc.remaining = 0
  · rw [if_pos h0, if_pos h0, List.append_nil]; exact emits_match b c
  rw [if_neg h0, if_neg h0]
  by_cases hrest : rests c.ordType = false
  · rw [if_pos hrest, if_pos hrest]; exact emits_remainder b c .none
  rw [if_neg hrest, if_neg hrest]
  by_cases hroom : b.cfg.maxOrders ≤ (b.afterMatch c).orders.length
  · rw [if_pos (by exact hroom), if_pos hroom]; exact emits_remainder b c .poolExhausted
  · rw [if_neg (by exact hroom), if_neg hroom, List.append_nil]; exact emits_match b c

theorem mem_leftover {b : FlatEngine} {c : Command} {ev : Event} (h : ev ∈ b.leftover c) :
    ∃ reason, reason ≠ .selfTradePrevented ∧ ev = .remainder c (limitOf c) (b.matching c).inc.remaining reason := by
  unfold leftover at h
  split at h
  · cases h
  split at h
  · exact ⟨.none, by decide, List.mem_singleton.mp h⟩
  split at h
  · exact ⟨.poolExhausted, by decide, List.mem_singleton.mp h⟩
  · cases h

end FlatEngine

/-! ## Entering the engine -/

section

variable {B : Type} [Book B]

namespace Engine

/-- `cmd` sends in the New `c`: itself, or the replacement of an order it takes off. -/
inductive Enters (e : Engine B) (cmd : Command) : Command → Prop
  | new (type : cmd.type = .new) (live : e.halted = false) (passes : e.refusal cmd = some none) : Enters e cmd cmd
  | again (p : Ptr) (type : cmd.type = .modify) (sized : cmd.quantity ≠ 0) (found : e.find cmd.id = some (some p))
      (moves : ¬ FlatEngine.keepsPlace cmd (e.order p).toOrderInfo) (passes : ¬ e.Refused cmd) :
      Enters e cmd (FlatEngine.replacement cmd (e.order p).toOrderInfo)

variable [LawfulBook B]

/-- The orders of a side, the one a Modify takes off left out. -/
def standing (e : Engine B) (cmd : Command) (s : Side) : List OrderInfo :=
  if cmd.type = .modify then (e.queued s).filter fun o => o.id ≠ cmd.id else e.queued s

/-- The orders an incoming one faces, best first. -/
def facing (e : Engine B) (c : Command) : List OrderInfo := e.queued (opposite c.side)

/-- The open size an incoming order may trade with. -/
def supply (e : Engine B) (c : Command) : Nat :=
  tradable e.cfg.stp c.client (reaches (incomingOrder c 0)) (e.facing c)

/-- An incoming order comes to rest: it is of a kind that rests, outlasts what it may trade
    with, is not stopped for trading with itself, and finds a free slot. -/
def Lands (e : Engine B) (cmd c : Command) : Prop :=
  rests c.ordType = true ∧ e.supply c < c.quantity.toNat ∧
  ¬ (e.cfg.stp = .cancelAggressor ∧ ∃ o ∈ (e.facing c).takeWhile (reaches (incomingOrder c 0)), o.client = c.client) ∧
  (e.standing cmd c.side).length + ((e.facing c).dropWhile (reaches (incomingOrder c 0))).length < e.cfg.maxOrders

end Engine

end

variable {B : Type} [Book B] [LawfulBook B] {e e' : Engine B} {a : FlatEngine} {cmd c : Command} {now : TsNanos}

omit [LawfulBook B] in
/-- What `process` does first does not matter to what enters. -/
theorem enters_start : (e.withVars (e.start now cmd)).Enters cmd c ↔ e.Enters cmd c := by
  constructor
  · intro h
    cases h with
    | new type live passes => exact .new type live passes
    | again p type sized found moves passes => exact .again p type sized found moves passes
  · intro h
    cases h with
    | new type live passes => exact .new type live passes
    | again p type sized found moves passes => exact .again p type sized found moves passes

theorem Simulates.enters_iff (h : Simulates e a) (cmd c : Command) :
    e.Enters cmd c ↔ ∃ b, a.Enters (e.fillable cmd) cmd b c := by
  obtain ⟨r, hfind, hflat⟩ := h.refines.find_eq cmd.id
  have hhalt := h.refines.halted_eq
  constructor
  · intro hin
    cases hin with
    | new type live passes =>
      rw [h.refines.refusal_eq, Option.some_inj, FlatEngine.refusal_none] at passes
      exact ⟨a, .new type (hhalt ▸ live) passes⟩
    | again p type sized found moves passes =>
      rw [hfind, Option.some_inj] at found
      rw [found] at hflat
      refine ⟨_, .again _ hflat type sized moves (FlatEngine.refusal_none.mp ?_)⟩
      by_contra hne
      exact passes ((h.refused_iff cmd).mpr ⟨type, sized, _, hflat, moves, Option.ne_none_iff_exists'.mp hne⟩)
  · intro ⟨b, hin⟩
    cases hin with
    | new type live passes =>
      refine .new type (hhalt.trans live) ?_
      rw [h.refines.refusal_eq, FlatEngine.refusal_none.mpr passes]
    | again o found type sized moves passes =>
      rw [found] at hflat
      obtain ⟨p, rfl, rfl⟩ := Option.map_eq_some_iff.mp hflat.symm
      refine .again p type sized hfind moves fun hr => ?_
      obtain ⟨_, _, o', ho', _, x, hx⟩ := (h.refused_iff cmd).mp hr
      obtain rfl := Option.some.inj (found.symm.trans ho')
      rw [FlatEngine.refusal_none.mpr passes] at hx
      cases hx

theorem Simulates.enters_process (h : Simulates e a) (cmd c : Command) :
    e.Enters cmd c ↔ ∃ b, (a.withVars (a.start 0 cmd)).Enters (e.fillable cmd) cmd b c :=
  enters_start.symm.trans ((h.start 0 cmd).enters_iff cmd c)

/-- The orders that stand beside an incoming one. -/
theorem Simulates.standing_eq {b : FlatEngine} {fillable : Bool} (h : Simulates e a) (hin : a.Enters fillable cmd b c)
    (s : Side) : e.standing cmd s = b.side s := by
  unfold Engine.standing
  rw [h.refines.queued]
  cases hin with
  | new type live passes => rw [if_neg (by rw [type]; exact nofun)]
  | again o found type sized moves passes =>
    obtain ⟨h0, ho, hid⟩ := Flat.find_some found
    rw [if_pos type]
    show _ = (a.drop o).side s
    rw [h.inv.drop_side, List.Nodup.erase_eq_filter]
    · refine List.filter_congr fun x hx => ?_
      have hx' := Flat.mem_orders.mpr ⟨s, hx⟩
      by_cases e : x = o
      · simp [e, hid]
      · have : x.id ≠ cmd.id := fun e' => e ?_
        · simp [e, this]
        · have h1 := h.inv.find_mem hx' (by rw [e']; exact h0)
          rw [e'] at h1
          exact Option.some.inj (h1.symm.trans found)
    · exact ((h.inv.sorted s).imp fun hxy e => by
        rw [e] at hxy
        rcases hxy with hxy | hxy
        · exact irrefl _ hxy
        · exact absurd hxy.2 (Nat.lt_irrefl _))

theorem Simulates.facing_eq (h : Simulates e a) (c : Command) : e.facing c = a.side (opposite c.side) := h.refines.queued _

/-- What comes to rest, in the engine's own terms. -/
theorem Simulates.lands_iff {b : FlatEngine} {fillable : Bool} (h : Simulates e a) (hin : a.Enters fillable cmd b c) :
    e.Lands cmd c ↔ ∃ o, b.lands fillable c = some o := by
  rw [FlatEngine.lands_some_iff, FlatEngine.refusal_none]
  unfold Engine.Lands Engine.supply
  rw [h.standing_eq hin, h.facing_eq, hin.opposite_side, hin.vars.2, h.refines.cfg]
  exact ⟨fun h => ⟨hin.passes, h⟩, fun h => h.2⟩

/-- Where `cmd` leaves an order to rest, the order's New and what it found; where not, the book
    only shrank. -/
theorem Simulates.landing_cases (h : Simulates e a) (cmd : Command) :
    (∃ b c o, (a.withVars (a.start 0 cmd)).Enters (e.fillable cmd) cmd b c ∧
      FlatEngine.Landing b (e.fillable cmd) c (b.afterMatch c).toFlat o ∧
      (a.process (e.fillable cmd) cmd).toFlat = (b.afterMatch c).place o ∧
      (∀ c', e.Enters cmd c' ∧ e.Lands cmd c' ↔ c' = c) ∧ (∀ s, e.standing cmd s = b.side s) ∧
      e.facing c = b.side (opposite c.side)) ∨
    ((∀ c, e.Enters cmd c → ¬ e.Lands cmd c) ∧
      (∀ b c o, (a.withVars (a.start 0 cmd)).Enters (e.fillable cmd) cmd b c → b.lands (e.fillable cmd) c ≠ some o) ∧
      ∀ s, Shrinks ((a.process (e.fillable cmd) cmd).side s) (a.side s)) := by
  have hs := h.start 0 cmd
  obtain ⟨hflat, _⟩ := FlatEngine.process_eq a (e.fillable cmd) cmd
  rw [hflat]
  rcases FlatEngine.lands_or_shrinks (a.withVars (a.start 0 cmd)) (e.fillable cmd) cmd with
    ⟨b, c, o, hin, hl, hd⟩ | ⟨hno, hsh⟩
  · refine Or.inl ⟨b, c, o, hin, hl, by rw [hd]; rfl, fun c' => ⟨fun ⟨hc', _⟩ => ?_, ?_⟩, hs.standing_eq hin, ?_⟩
    · obtain ⟨b', hin'⟩ := (h.enters_process cmd c').mp hc'
      exact (hin.unique hin').2
    · rintro rfl
      exact ⟨(h.enters_process cmd _).mpr ⟨b, hin⟩, (hs.lands_iff hin).mpr ⟨o, FlatEngine.lands_iff.mpr hl⟩⟩
    · rw [h.facing_eq, hin.opposite_side]
      rfl
  · refine Or.inr ⟨fun c hc hlands => ?_, hno, hsh⟩
    obtain ⟨b, hin⟩ := (h.enters_process cmd c).mp hc
    obtain ⟨o, ho⟩ := (hs.lands_iff hin).mp hlands
    exact hno b c o hin ho

/-- `cmd` sent in `c`: `b` is what `c` found, and `e'` what it and its reports left. -/
structure Entered (e e' : Engine B) (b : FlatEngine) (cmd c : Command) : Prop where
  unique : ∀ c', e.Enters cmd c' → c' = c
  inv : b.Inv
  cfg : b.cfg = e.cfg
  passes : b.Passes (e.fillable cmd) c
  facing : e.facing c = b.side (opposite c.side)
  standing : ∀ s, e.standing cmd s = b.side s
  facing' : e'.facing c = (b.matching c).left
  own' : (e'.queued c.side = b.side c.side ∧ ((b.matching c).inc.remaining ≠ 0 →
      ∃ reason, b.leftover c = [.remainder c (limitOf c) (b.matching c).inc.remaining reason])) ∨
    ((b.matching c).inc.remaining ≠ 0 ∧ b.leftover c = [] ∧
      e'.queued c.side = Flat.enqueue (b.matching c).inc (b.side c.side))
  arrival' : e'.arrival = b.arrival + 1
  out : ∃ tail, e'.out.map Event.unnumbered = b.reports c ++ tail ∧ ∀ ev ∈ tail, ev.type = .bookChanged

theorem Simulates.entered (h : Simulates e a) (hp : e.process now cmd = some e') (hin : e.Enters cmd c) :
    ∃ b, (a.withVars (a.start 0 cmd)).Enters (e.fillable cmd) cmd b c ∧ Entered e e' b cmd c := by
  obtain ⟨b, hb⟩ := (h.enters_process cmd c).mp hin
  have hs := h.start 0 cmd
  have hs' := (process_refines h now cmd).2 e' hp
  obtain ⟨e1, _, e3, _⟩ := FlatEngine.process_eq a (e.fillable cmd) cmd
  rw [hb.dispatch] at e1 e3
  have hside : ∀ s, e'.queued s = (b.handleAccepted c).side s := fun s => by rw [hs'.refines.queued, e1]
  refine ⟨b, hb, ?_, hb.inv hs.inv, ?_, hb.passes, ?_, hs.standing_eq hb, ?_, ?_, ?_, ?_⟩
  · intro c' hc'
    obtain ⟨b', hb'⟩ := (h.enters_process cmd c').mp hc'
    exact (hb.unique hb').2
  · rw [hb.vars.2]
    exact h.refines.cfg.symm
  · rw [h.facing_eq, hb.opposite_side]
    rfl
  · exact (hside _).trans (FlatEngine.accepted_facing b c)
  · rw [hside]
    exact FlatEngine.accepted_own b c
  · rw [← FlatEngine.accepted_arrival b c, ← e3]
    exact (congrArg EngineVars.arrival hs'.refines.vars : e'.untimed.arrival = _)
  · have hem := FlatEngine.emits_accepted b c
    rw [hb.vars.1, ← hb.dispatch] at hem
    exact h.out_eq hp hem

/-- A command that sends nothing in reports one thing, and touches at most the order it names. -/
theorem Simulates.not_entered (h : Simulates e a) (hp : e.process now cmd = some e') (hno : ∀ c, ¬ e.Enters cmd c) :
    (∀ s, Shrinks (e'.queued s) (e.queued s)) ∧ (∀ s, ∀ o ∈ e.queued s, o.id ≠ cmd.id → o ∈ e'.queued s) ∧
    ∃ ev tail, e'.out.map Event.unnumbered = ev :: tail ∧
      (ev.type = .rejected ∨ (ev.type = .canceled ∧ ev.reason = .none) ∨ ev.type = .replaced) ∧
      ∀ x ∈ tail, x.type = .bookChanged := by
  have hs' := (process_refines h now cmd).2 e' hp
  obtain ⟨e1, _⟩ := FlatEngine.process_eq a (e.fillable cmd) cmd
  rcases FlatEngine.dispatch_cases (a.withVars (a.start 0 cmd)) (e.fillable cmd) cmd with
    ⟨b, c, hin, _⟩ | ⟨_, hsh, hmem, ev, hem, hty⟩
  · exact absurd ((h.enters_process cmd c).mpr ⟨b, hin⟩) (hno c)
  · refine ⟨fun s => ?_, fun s => ?_, ?_⟩
    · rw [hs'.refines.queued, h.refines.queued, e1]
      exact hsh s
    · rw [hs'.refines.queued, h.refines.queued, e1]
      exact hmem s
    · obtain ⟨tail, hout, htail⟩ := h.out_eq hp hem
      exact ⟨ev, tail, hout, hty, htail⟩

theorem Simulates.unfilled (h : Simulates e a) (hp : e.process now cmd = some e') (hno : ∀ c, ¬ e.Enters cmd c) :
    ∀ x ∈ e'.out, x.type ≠ .fill := by
  obtain ⟨_, _, ev, tail, hout, htype, htail⟩ := h.not_entered hp hno
  intro x hx ht
  have hm : x.unnumbered ∈ ev :: tail := hout ▸ List.mem_map_of_mem hx
  have ht' : x.unnumbered.type = .fill := ht
  rcases List.mem_cons.mp hm with hm | hm
  · rw [hm] at ht'
    rcases htype with hty | ⟨hty, _⟩ | hty
    · rw [hty] at ht'; cases ht'
    · rw [hty] at ht'; cases ht'
    · rw [hty] at ht'; cases ht'
  · rw [htail _ hm] at ht'
    cases ht'

/-! ## The match of an order that entered -/

namespace FlatEngine

variable {b : FlatEngine}

theorem dealing_inc {i o : OrderInfo} {q : Quantity} (h : .traded i o q ∈ b.dealings c) :
    i.id = c.id ∧ i.client = c.client ∧ o ∈ b.side (opposite c.side) ∧ reaches (incomingOrder c 0) o = true ∧
      ¬ (b.cfg.stp ≠ .none ∧ o.client = c.client) := by
  obtain ⟨h1, h2, h3, h4⟩ := traded_inc h
  refine ⟨?_, ?_, h2, h3, h4⟩
  · rw [h1]; rfl
  · rw [h1]; rfl

/-- What is left of an order that was not stopped. -/
theorem remaining_eq (h : ¬ ∃ i x, .stopped i x ∈ b.dealings c) :
    (b.matching c).inc.remaining.toNat = c.quantity.toNat - taken (b.dealings c) ∧ taken (b.dealings c) ≤ c.quantity.toNat := by
  have hleft : (b.matching c).inc.remaining.toNat + taken (b.dealings c) = c.quantity.toNat :=
    left_eq b.cfg.stp c.client (b.accepted c) (incomingOrder c (b.arrival + 1)) 0 (b.side (opposite c.side))
      fun d hd i x e => h ⟨i, x, e ▸ hd⟩
  omega

theorem taken_dealings (b : FlatEngine) (c : Command) : taken (b.dealings c) =
    min c.quantity.toNat (tradable b.cfg.stp c.client (reaches (incomingOrder c 0)) (b.side (opposite c.side))) :=
  taken_eq ..

end FlatEngine

theorem aggressorFilled_leftover (b : FlatEngine) (c : Command) : aggressorFilled (b.leftover c) = 0 :=
  aggressorFilled_none fun ev hev => by
    obtain ⟨reason, _, rfl⟩ := FlatEngine.mem_leftover hev
    exact EventType.noConfusion

theorem aggressorFilled_reports (b : FlatEngine) (c : Command) : aggressorFilled (b.reports c) = taken (b.dealings c) := by
  unfold FlatEngine.reports
  rw [aggressorFilled_append, aggressorFilled_leftover, Nat.add_zero]
  exact aggressorFilled_deals _

variable {b : FlatEngine}

/-- An unnumbered event, found among the numbered ones. -/
theorem mem_of_unnumbered {es : List Event} {ev : Event} (h : ev ∈ es.map Event.unnumbered) : ∃ x ∈ es, x.unnumbered = ev :=
  List.mem_map.mp h

theorem aggressorFilled_out {es tail : List Event} {out : List Event} (h : out.map Event.unnumbered = es ++ tail)
    (ht : ∀ ev ∈ tail, ev.type = .bookChanged) : aggressorFilled out = aggressorFilled es := by
  have htail : aggressorFilled tail = 0 := aggressorFilled_none fun ev hev => by rw [ht ev hev]; decide
  rw [← aggressorFilled_unnumbered, h, aggressorFilled_append, htail, Nat.add_zero]

namespace Entered

variable (h : Entered e e' b cmd c)
include h

theorem filled_eq : aggressorFilled e'.out = taken (b.dealings c) := by
  obtain ⟨tail, hout, htail⟩ := h.out
  rw [aggressorFilled_out hout htail, aggressorFilled_reports]

/-- An event of a match. -/
theorem mem_out {d : Deal} (hd : d ∈ b.dealings c) {ev : Event} (hev : ev ∈ d.events) : ∃ x ∈ e'.out, x.unnumbered = ev := by
  obtain ⟨tail, hout, _⟩ := h.out
  refine mem_of_unnumbered ?_
  rw [hout]
  refine List.mem_append_left _ (List.mem_append_left _ (List.mem_cons_of_mem _ ?_))
  exact List.mem_flatMap.mpr ⟨d, hd, hev⟩

/-- Where an event comes from. -/
theorem origin {x : Event} (hx : x ∈ e'.out) : x.unnumbered = .accept c (limitOf c) ∨
    (∃ d ∈ b.dealings c, x.unnumbered ∈ d.events) ∨ x.unnumbered ∈ b.leftover c ∨ x.type = .bookChanged := by
  obtain ⟨tail, hout, htail⟩ := h.out
  have hmem : x.unnumbered ∈ b.reports c ++ tail := by
    rw [← hout]
    exact List.mem_map_of_mem hx
  rcases List.mem_append.mp hmem with hm | hm
  · rcases List.mem_append.mp hm with hm | hm
    · rcases List.mem_cons.mp hm with hm | hm
      · exact Or.inl hm
      · exact Or.inr (Or.inl (List.mem_flatMap.mp hm))
    · exact Or.inr (Or.inr (Or.inl hm))
  · exact Or.inr (Or.inr (Or.inr (htail x.unnumbered hm)))

/-- The trade an aggressor's or a maker's Fill is of. -/
theorem fill_origin {x : Event} (hx : x ∈ e'.out) (ht : x.type = .fill) : ∃ i o q, .traded i o q ∈ b.dealings c ∧
    (x.unnumbered = .takerFill i o q ∨ x.unnumbered = .makerFill i o q) := by
  have ht' : x.unnumbered.type = .fill := ht
  rcases h.origin hx with hm | ⟨d, hd, hm⟩ | hm | hm
  · rw [hm] at ht'; cases ht'
  · cases d with
    | traded i o q =>
      simp only [Deal.events, List.mem_cons, List.not_mem_nil, or_false] at hm
      rcases hm with hm | hm | hm
      · exact ⟨i, o, q, hd, Or.inl hm⟩
      · exact ⟨i, o, q, hd, Or.inr hm⟩
      · rw [hm] at ht'; cases ht'
    | pulled i o => rw [List.mem_singleton.mp hm] at ht'; cases ht'
    | stopped i x => rw [List.mem_singleton.mp hm] at ht'; cases ht'
  · obtain ⟨reason, _, hm⟩ := FlatEngine.mem_leftover hm
    rw [hm] at ht'; cases ht'
  · rw [ht] at hm; cases hm

end Entered

end Lob
