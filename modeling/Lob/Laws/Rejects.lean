/-
  Lob.Laws.Rejects — a reject changes nothing, unless it is of an amend under way.

  A command that reports a reject was refused before anything changed
  (`Simulates.dispatch_refused`), or is an amend whose replacement was refused, and then
  its order is gone (`lost_dispatch`).
-/

import Lob.Book.OrderBookProofs
import Lob.Engine.Refusals

namespace Lob

namespace FlatEngine

/-- A command that reports a reject was refused, or lost the order it amends. -/
theorem rejected_outcome {a a' : FlatEngine} {fillable : Bool} {cmd : Command} (h : Outcome a fillable cmd a')
    {es : List Event} (he : a.Emits a'.toEngineVars es) (hr : ∃ ev ∈ es, ev.type = .rejected) :
    (∃ r, a' = a.withVars (a.emitReject cmd r) ∧ ((cmd.type = .new ∧ a.halted = true ∧ r = .bookHalted) ∨
      (cmd.type = .new ∧ a.halted = false ∧ a.refusal fillable cmd = some r) ∨
      (cmd.type ≠ .new ∧ a.find cmd.id = none ∧ r = .unknownOrder))) ∨
    (cmd.type = .modify ∧ cmd.quantity ≠ 0 ∧ ∃ o, a.find cmd.id = some o ∧ ¬ keepsPlace cmd o ∧
      ∃ r, (a.withFlat (a.drop o)).refusal fillable (replacement cmd o) = some r) := by
  have hone : ∀ {ev0 : Event} {v : EngineVars}, a.Emits v [ev0] → ev0.type ≠ .rejected →
      v = a'.toEngineVars → False := by
    intro ev0 v hv h0 e
    rw [e] at hv
    obtain rfl := List.append_cancel_left (he.symm.trans hv)
    obtain ⟨ev, hev, ht⟩ := hr
    rw [List.mem_singleton.mp hev] at ht
    exact h0 ht
  obtain ⟨ev, hev, ht⟩ := hr
  cases h with
  | refused r why => exact Or.inl ⟨r, rfl, why⟩
  | admitted type live passes => exact absurd ht (accepted_no_reject he ev hev)
  | canceled o found why => exact (hone (emits_newEvent _ (.cancel o cmd.tsRecv)) nofun rfl).elim
  | replaced o found type sized keeps =>
    exact (hone (emits_newEvent _ (.replace _ cmd.quantity cmd.tsRecv)) nofun rfl).elim
  | requeued o found type sized moves passes => exact absurd ht (accepted_no_reject (a := a.withFlat (a.drop o)) he ev hev)
  | lost o found type sized moves r refusal => exact Or.inr ⟨type, sized, o, found, moves, r, refusal⟩

/-- A lost order is reported as a reject, and is not found again. -/
theorem lost_dispatch {a : FlatEngine} (hi : a.Inv) {fillable : Bool} {cmd : Command} {o : OrderInfo} {r : RejectReason}
    (ht : cmd.type = .modify) (h0 : cmd.quantity ≠ 0) (hf : a.find cmd.id = some o) (hk : ¬ keepsPlace cmd o)
    (hr : (a.withFlat (a.drop o)).refusal fillable (replacement cmd o) = some r) :
    a.Emits (a.dispatch fillable cmd).toEngineVars [.reject (replacement cmd o) r] ∧
      (a.dispatch fillable cmd).find cmd.id = none := by
  have e : a.dispatch fillable cmd = (a.withFlat (a.drop o)).withVars (a.emitReject (replacement cmd o) r) := by
    unfold dispatch
    rw [ht]
    simp only
    rw [handleModify_requeue hf h0 hk]
    unfold handleNew
    rw [hr]
    rfl
  rw [e]
  exact ⟨emits_reject _ (replacement cmd o) r, find_drop hi hf⟩

end FlatEngine

variable {B : Type} [Book B] [LawfulBook B] {e e' : Engine B} {cmd : Command} {now : TsNanos} {cfg : EngineConfig}

/-- From every reachable state: a command that reports a reject leaves book, index and pool
    as they were, exactly when it is no amend refused under way. -/
theorem reject_keeps_iff {is : List Engine.Input} (he : Engine.run cfg is = some e) (hp : e.process now cmd = some e') :
    ((∃ ev ∈ e'.out, ev.type = .rejected) → e'.toStore = e.toStore) ↔ ¬ e.Refused cmd := by
  obtain ⟨a, hs, _⟩ := run_simulates he
  have hs1 := hs.start now cmd
  have hs' := (process_refines hs now cmd).2 e' hp
  unfold Engine.process at hp
  obtain ⟨e1, hd, hfin⟩ := Option.bind_eq_some_iff.mp hp
  cases hfin
  let b := a.withVars (a.start 0 cmd)
  have hrefused : (e.withVars (e.start now cmd)).Refused cmd ↔ e.Refused cmd := Iff.rfl
  rw [← hrefused, hs1.refused_iff]
  constructor
  · -- an order lost is reported, and missing
    intro h ⟨ht, h0, o, hf, hk, r, hr⟩
    obtain ⟨hem, hgone⟩ := FlatEngine.lost_dispatch hs1.inv ht h0 hf hk hr
    obtain ⟨tail, hout, _⟩ := FlatEngine.process_out a _ cmd hem
    have hrep := h ((mem_unnumbered hs'.refines.vars hout .rejected).mpr ⟨_, List.mem_append_left _ (List.mem_singleton.mpr rfl), rfl⟩)
    obtain ⟨T, hrep1⟩ := hs.refines.rep
    obtain ⟨T', hrep2⟩ := hs'.refines.rep
    obtain ⟨x, hx, hflat, _⟩ := hrep1.find_eq cmd.id
    obtain ⟨y, hy, hflat', _⟩ := hrep2.find_eq cmd.id
    rw [hrep, hx] at hy
    obtain rfl : x = y := Option.some.inj hy
    have hf : a.find cmd.id = some o := hf
    rw [hf] at hflat
    have hgone' : (a.process (e.fillable cmd) cmd).find cmd.id = none := by
      rw [(FlatEngine.process_eq a _ cmd).1]
      exact hgone
    rw [hgone'] at hflat'
    cases x with
    | none => cases hflat
    | some p => cases hflat'
  · intro hnot hrej
    obtain ⟨es, hes⟩ : ∃ es, b.Emits (b.dispatch (e.fillable cmd) cmd).toEngineVars es := by
      have ho : b.Emits (b.dispatch (e.fillable cmd) cmd).toEngineVars
        ((b.dispatch (e.fillable cmd) cmd).out.map Event.unnumbered) := rfl
      exact ⟨_, ho⟩
    obtain ⟨tail, hout, htail⟩ := FlatEngine.process_out a _ cmd hes
    obtain ⟨ev, hev, ht⟩ := (mem_unnumbered hs'.refines.vars hout .rejected).mp hrej
    have hev : ev ∈ es := (List.mem_append.mp hev).resolve_right fun h => by
      rw [htail ev h] at ht; cases ht
    rcases FlatEngine.rejected_outcome (FlatEngine.dispatch_outcome b (e.fillable cmd) cmd) hes ⟨ev, hev, ht⟩ with
      ⟨r, _, why⟩ | hlost
    · have hd' := hs1.dispatch_refused (r := r) why
      rw [hd'] at hd
      cases hd
      exact finish_store _ cmd (show e.pool.inUse ≤ e.pool.highWater from run_highWater he)
    · exact absurd hlost hnot

/-- A buy at 100, amended to a price out of band: rejected, and gone. -/
theorem amend_out_of_band_loses_order : ¬ ∀ (e e' : Engine OrderBook),
    Engine.run { minPrice := 1, maxPrice := 500, maxOrders := 4 } [.command 0 (.makeNew 1 7 .buy .limit 100 5 0)] = some e →
    e.process 0 (.makeModify 1 7 600 5 0) = some e' →
    (∃ ev ∈ e'.out, ev.type = .rejected) → e'.toStore = e.toStore := by
  intro h
  have key : (do
      let e ← Engine.run (B := OrderBook) { minPrice := 1, maxPrice := 500, maxOrders := 4 }
        [.command 0 (.makeNew 1 7 .buy .limit 100 5 0)]
      let e' ← e.process 0 (.makeModify 1 7 600 5 0)
      some (e'.out.any fun ev => ev.type = .rejected, e.find 1, e'.find 1)) = some (true, some (some 0), some none) := by
    decide +kernel
  obtain ⟨e, he, key⟩ := Option.bind_eq_some_iff.mp key
  obtain ⟨e', he', key⟩ := Option.bind_eq_some_iff.mp key
  simp only [Option.some.injEq, Prod.mk.injEq, List.any_eq_true, decide_eq_true_eq] at key
  obtain ⟨hrej, h1, h2⟩ := key
  rw [h e e' he he' hrej, h1] at h2
  cases h2

theorem reject_keeps_iff_unknown : ∃ e e' : Engine OrderBook,
    Engine.run { minPrice := 1, maxPrice := 500, maxOrders := 4 } [.command 0 (.makeNew 1 7 .buy .limit 100 5 0)] = some e ∧
    e.process 0 (.makeCancel 2 7 0) = some e' ∧
    (((∃ ev ∈ e'.out, ev.type = .rejected) → e'.toStore = e.toStore) ↔ ¬ e.Refused (.makeCancel 2 7 0)) := by
  have key : (do
      let e ← Engine.run (B := OrderBook) { minPrice := 1, maxPrice := 500, maxOrders := 4 }
        [.command 0 (.makeNew 1 7 .buy .limit 100 5 0)]
      e.process 0 (.makeCancel 2 7 0)).isSome = true := by decide +kernel
  obtain ⟨e', key⟩ := Option.isSome_iff_exists.mp key
  obtain ⟨e, he, he'⟩ := Option.bind_eq_some_iff.mp key
  exact ⟨e, e', he, he', reject_keeps_iff he he'⟩

end Lob
