/-
  Lob.Engine.Refusals — commands that are refused, and what they leave behind.

  `handle_new` checks before it changes anything (`Simulates.dispatch_refused`).
  `handle_modify` calls it with the old order gone from the book, the index and the pool,
  so a replacement refused there takes the order with it (`Engine.Refused`).
-/

import Lob.Engine.Deals
import Lob.Engine.Runs

namespace Lob

section

variable {B : Type} [Book B]

namespace Engine

/-- The amend gives up the order's place, and its replacement will not pass `handle_new`: its
    price is out of band, or it is post-only and would cross. -/
def Refused (e : Engine B) (cmd : Command) : Prop :=
  cmd.type = .modify ∧ cmd.quantity ≠ 0 ∧ ∃ p, e.find cmd.id = some (some p) ∧
    let o := (e.order p).toOrderInfo
    let repl := FlatEngine.replacement cmd o
    ¬ FlatEngine.keepsPlace cmd o ∧
    ((isMarket repl = false ∧ Book.inBand e.book repl.price = false) ∨ (o.type = .postOnly ∧ e.wouldCross repl = true))

end Engine

/-! ## The high-water mark -/

variable {e e' : Engine B} {cmd : Command} {now : TsNanos}

/-- Where the high-water mark is up to date, `finish` leaves the store alone. -/
theorem finish_store (e : Engine B) (cmd : Command) (h : e.pool.inUse ≤ e.pool.highWater) :
    (e.finish cmd).toStore = e.toStore := by
  have hp : e.pool.tickHighWater = e.pool := by
    unfold ObjectPool.tickHighWater
    rw [Nat.max_eq_right h]
  unfold Engine.finish
  simp only
  split
  · show ({ e.toStore with pool := e.pool.tickHighWater } : Store B) = e.toStore
    rw [hp]
  · show ({ e.toStore with pool := e.pool.tickHighWater } : Store B) = e.toStore
    rw [hp]

/-- `finish` reports nothing but a change of the book. -/
theorem finish_out (e : Engine B) (cmd : Command) :
    ∃ tail, (e.finish cmd).out = e.out ++ tail ∧ ∀ ev ∈ tail, ev.type = .bookChanged := by
  unfold Engine.finish
  simp only
  split
  · unfold Engine.bookChanged EngineVars.emitBookChanged
    split
    · exact ⟨[], (List.append_nil _).symm, by simp⟩
    · exact ⟨_, rfl, fun ev hev => by rw [List.mem_singleton.mp hev]; rfl⟩
  · exact ⟨[], (List.append_nil _).symm, by simp⟩

/-- After a command, or a run, the high-water mark is up to date. -/
theorem process_highWater (h : e.process now cmd = some e') : e'.pool.inUse ≤ e'.pool.highWater := by
  unfold Engine.process at h
  obtain ⟨e1, _, he⟩ := Option.bind_eq_some_iff.mp h
  cases he
  exact Nat.le_max_left _ _

theorem steps_highWater : ∀ (is : List Engine.Input) (e : Engine B), e.pool.inUse ≤ e.pool.highWater →
    e.steps is = some e' → e'.pool.inUse ≤ e'.pool.highWater := by
  intro is
  induction is with
  | nil => intro e h he; cases he; exact h
  | cons i is ih =>
    intro e h he
    obtain ⟨e1, h1, h2⟩ := Option.bind_eq_some_iff.mp he
    refine ih e1 ?_ h2
    cases i with
    | command now cmd => exact process_highWater h1
    | setHalted b => cases h1; exact h

theorem run_highWater {cfg : EngineConfig} {is : List Engine.Input} (h : Engine.run cfg is = some e) :
    e.pool.inUse ≤ e.pool.highWater := by
  obtain ⟨e0, h0, hs⟩ := Option.bind_eq_some_iff.mp h
  refine steps_highWater is e0 ?_ hs
  obtain ⟨b, _, he⟩ := Option.bind_eq_some_iff.mp h0
  cases he
  exact Nat.le_refl _

end

/-! ## A replacement refused -/

namespace FlatEngine

variable {a : FlatEngine} {cmd : Command} {fillable : Bool} {o : OrderInfo}

/-- An order that left is not found. -/
theorem find_drop (hi : a.Inv) {id : OrderId} (h : a.find id = some o) : (a.drop o).find id = none := by
  obtain ⟨h0, ho, hid⟩ := Flat.find_some h
  cases hf : (a.drop o).find id with
  | none => rfl
  | some o' =>
    obtain ⟨_, ho', hid'⟩ := Flat.find_some hf
    have hpair := ((Flat.drop_perm (hi.mem_side ho)).pairwise_iff (R := fun o o' : OrderInfo => o.id = o'.id → o.id = 0)
      (fun {x y} hxy e => by rw [e]; exact hxy e.symm)).mp hi.ids
    exact absurd ((List.pairwise_cons.mp hpair).1 o' ho' (hid.trans hid'.symm)) (hid ▸ h0)

/-- What a replacement can be refused for. -/
theorem refusal_replacement (hi : a.Inv) (h : a.find cmd.id = some o) (h0 : cmd.quantity ≠ 0) :
    (∃ r, (a.withFlat (a.drop o)).refusal fillable (replacement cmd o) = some r) ↔
      (isMarket (replacement cmd o) = false ∧ ¬ a.inBand (replacement cmd o).price) ∨
        (o.type = .postOnly ∧ a.wouldCross (replacement cmd o) = true) := by
  obtain ⟨_, ho, _⟩ := Flat.find_some h
  have hcross : (a.withFlat (a.drop o)).wouldCross (replacement cmd o) = a.wouldCross (replacement cmd o) := by
    unfold wouldCross
    rw [show (a.withFlat (a.drop o)).side (opposite (replacement cmd o).side) = a.side (opposite o.side) from
      setList_opposite ..]
    rfl
  have hfind : (a.withFlat (a.drop o)).find (replacement cmd o).id = none := find_drop hi h
  have hfok : o.type ≠ .fok := by
    intro e
    have := hi.kinds o ho
    rw [e] at this
    exact absurd this (by decide)
  unfold refusal
  rw [if_neg (show (replacement cmd o).quantity ≠ 0 from h0), hfind, hcross]
  by_cases hb : isMarket (replacement cmd o) = false ∧ ¬ a.inBand (replacement cmd o).price
  · rw [if_pos (show isMarket (replacement cmd o) = false ∧ ¬ (a.withFlat (a.drop o)).inBand (replacement cmd o).price from hb)]
    exact ⟨fun _ => Or.inl hb, fun _ => ⟨_, rfl⟩⟩
  rw [if_neg (show ¬ (isMarket (replacement cmd o) = false ∧ ¬ (a.withFlat (a.drop o)).inBand (replacement cmd o).price) from hb),
    if_neg (by simp), if_neg (fun e : (replacement cmd o).ordType = .fok ∧ _ => hfok e.1)]
  by_cases hc : o.type = .postOnly ∧ a.wouldCross (replacement cmd o) = true
  · rw [if_pos (show (replacement cmd o).ordType = .postOnly ∧ _ from hc)]
    exact ⟨fun _ => Or.inr hc, fun _ => ⟨_, rfl⟩⟩
  · rw [if_neg (show ¬ ((replacement cmd o).ordType = .postOnly ∧ _) from hc)]
    constructor
    · intro ⟨r, hr⟩; cases hr
    · intro h; exact absurd h (by simp only [hb, hc, or_self, not_false_eq_true])

end FlatEngine

variable {B : Type} [Book B] [LawfulBook B] {e e' : Engine B} {a : FlatEngine} {cmd : Command} {now : TsNanos}

/-- The events of a command are what its handler reports, and then perhaps that the book changed. -/
theorem Simulates.out_eq (h : Simulates e a) (hp : e.process now cmd = some e') {es : List Event}
    (hem : (a.start 0 cmd).Emits ((a.withVars (a.start 0 cmd)).dispatch (e.fillable cmd) cmd).toEngineVars es) :
    ∃ tail, e'.out.map Event.unnumbered = es ++ tail ∧ ∀ ev ∈ tail, ev.type = .bookChanged := by
  have hs' := (process_refines h now cmd).2 e' hp
  obtain ⟨tail, hout, htail⟩ := FlatEngine.process_out a (e.fillable cmd) cmd hem
  exact ⟨tail, (out_unnumbered hs'.refines.vars).trans hout, htail⟩

theorem Simulates.refused_iff (h : Simulates e a) (cmd : Command) : e.Refused cmd ↔
    cmd.type = .modify ∧ cmd.quantity ≠ 0 ∧ ∃ o, a.find cmd.id = some o ∧ ¬ FlatEngine.keepsPlace cmd o ∧
      ∃ r, (a.withFlat (a.drop o)).refusal (e.fillable cmd) (FlatEngine.replacement cmd o) = some r := by
  obtain ⟨r, hfind, hflat⟩ := h.refines.find_eq cmd.id
  have key : ∀ o, a.find cmd.id = some o → cmd.quantity ≠ 0 →
      ((isMarket (FlatEngine.replacement cmd o) = false ∧ Book.inBand e.book (FlatEngine.replacement cmd o).price = false) ∨
        (o.type = .postOnly ∧ e.wouldCross (FlatEngine.replacement cmd o) = true) ↔
      ∃ r, (a.withFlat (a.drop o)).refusal (e.fillable cmd) (FlatEngine.replacement cmd o) = some r) := by
    intro o ho h0
    rw [FlatEngine.refusal_replacement h.inv ho h0, h.refines.inBand_eq, h.refines.wouldCross_eq]
    simp
  unfold Engine.Refused
  constructor
  · intro ⟨ht, h0, p, hp, hk, hc⟩
    rw [hfind] at hp
    cases hp
    exact ⟨ht, h0, _, hflat, hk, (key _ hflat h0).mp hc⟩
  · intro ⟨ht, h0, o, ho, hk, hc⟩
    rw [ho] at hflat
    obtain ⟨p, rfl, rfl⟩ := Option.map_eq_some_iff.mp hflat.symm
    exact ⟨ht, h0, p, hfind, hk, (key _ ho h0).mpr hc⟩

/-! ## A command refused -/

/-- The handlers change nothing before they refuse a command. -/
theorem Simulates.dispatch_refused (h : Simulates e a) {r : RejectReason}
    (why : (cmd.type = .new ∧ a.halted = true ∧ r = .bookHalted) ∨
      (cmd.type = .new ∧ a.halted = false ∧ a.refusal (e.fillable cmd) cmd = some r) ∨
      (cmd.type ≠ .new ∧ a.find cmd.id = none ∧ r = .unknownOrder)) :
    e.dispatch cmd = some (e.withVars (e.emitReject cmd r)) := by
  have hhalt := h.refines.halted_eq
  obtain ⟨x, hfind, hflat⟩ := h.refines.find_eq cmd.id
  unfold Engine.dispatch
  rcases why with ⟨ht, hh, rfl⟩ | ⟨ht, hh, hr⟩ | ⟨ht, hf, rfl⟩
  · simp only [ht, hhalt, hh, if_true]
  · simp only [ht, hhalt, hh, Bool.false_eq_true, if_false]
    unfold Engine.handleNew Engine.submit
    rw [h.refines.refusal_eq, hr]
    rfl
  · rw [hf] at hflat
    have hx : x = none := by simpa using hflat.symm
    rw [hx] at hfind
    cases htype : cmd.type with
    | new => exact absurd htype ht
    | cancel =>
      simp only
      unfold Engine.handleCancel
      rw [hfind]
      rfl
    | modify =>
      simp only
      unfold Engine.handleModify Engine.amend
      rw [hfind]
      rfl

/-- A command refused is reported, and changes nothing. -/
theorem Simulates.process_refused (h : Simulates e a) (hw : e.pool.inUse ≤ e.pool.highWater) (now : TsNanos) {r : RejectReason}
    (why : (cmd.type = .new ∧ a.halted = true ∧ r = .bookHalted) ∨
      (cmd.type = .new ∧ a.halted = false ∧ a.refusal (e.fillable cmd) cmd = some r) ∨
      (cmd.type ≠ .new ∧ a.find cmd.id = none ∧ r = .unknownOrder)) :
    ∃ e', e.process now cmd = some e' ∧ e'.toStore = e.toStore ∧
      (∃ ev ∈ e'.out, ev.unnumbered = .reject cmd r) ∧
      ∀ ev ∈ e'.out, ev.unnumbered = .reject cmd r ∨ ev.type = .bookChanged := by
  let e1 := (e.withVars (e.start now cmd)).withVars ((e.withVars (e.start now cmd)).emitReject cmd r)
  have hp : e.process now cmd = some (e1.finish cmd) := by
    unfold Engine.process
    rw [(h.start now cmd).dispatch_refused (r := r) why]
    rfl
  obtain ⟨tail, hout, htail⟩ := finish_out e1 cmd
  have hone : ∀ ev, ev ∈ e1.out ↔ ev = { Event.reject cmd r with seq := e.seq + 1, tsOut := now } := fun ev =>
    List.mem_singleton
  refine ⟨_, hp, finish_store e1 cmd hw, ⟨{ Event.reject cmd r with seq := e.seq + 1, tsOut := now }, ?_, rfl⟩,
    fun ev hev => ?_⟩
  · rw [hout]
    exact List.mem_append_left _ ((hone _).mpr rfl)
  · rw [hout] at hev
    rcases List.mem_append.mp hev with hev | hev
    · rw [(hone ev).mp hev]
      exact Or.inl rfl
    · exact Or.inr (htail ev hev)

end Lob
