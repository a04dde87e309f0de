/-
  Lob.Laws.Modify — a Modify against a Cancel and a New.

  A size down at the same price changes one order where it stands (`Resized`). A Modify to
  size 0 is a Cancel. Any other Modify leaves the book, and reports what a Cancel of the
  order followed by a New in its place would leave and report, stamps and numbering aside
  (`modify_semantics`): the two runs meet in `FlatEngine.handleNew`, on the same lists and
  with other counters, which it does not read (`handleNew_alike`).
-/

import Lob.Laws.Erasure
import Lob.Engine.Entries
import Lob.Engine.Named

namespace Lob

/-! ## A New, whatever was reported before -/

namespace FlatEngine

variable {a b : FlatEngine} {f f' : Bool} {c c' cmd : Command} {v : EngineVars}

theorem dispatch_cancel {o : OrderInfo} {id : OrderId} (hf : a.find id = some o) (client : ClientId) (ts : TsNanos) :
    a.dispatch f (.makeCancel id client ts) = (a.withVars (a.emitCanceled o ts)).withFlat (a.drop o) := by
  show a.handleCancel (.makeCancel id client ts) = _
  unfold handleCancel
  rw [show (Command.makeCancel id client ts).id = id from rfl, hf]
  rfl

end FlatEngine

/-! ## One order changed in its place -/

variable {L : List OrderInfo} {o : OrderInfo} {q : Quantity}

variable {B : Type} [Book B] [LawfulBook B] {e e' : Engine B} {a a' : FlatEngine} {cmd : Command} {cfg : EngineConfig}

/-- The id is in the index. -/
def Engine.Lists (e : Engine B) (id : OrderId) : Prop := ∃ p, e.find id = some (some p)

/-- The events of a command but BookChanged, without stamps and numbers. -/
def told (es : List Event) : List Event :=
  ((es.filter fun ev => decide (ev.type ≠ .bookChanged)).map Event.unnumbered).map timeless.event

/-- What is told of reports that only a BookChanged follows. -/
theorem told_eq {out es tail : List Event} (h : out.map Event.unnumbered = es ++ tail) (ht : ∀ ev ∈ tail, ev.type = .bookChanged) :
    told out = (es.map timeless.event).filter fun ev => decide (ev.type ≠ .bookChanged) := by
  have hcut : (out.filter fun ev => decide (ev.type ≠ .bookChanged)).map Event.unnumbered =
      es.filter fun ev => decide (ev.type ≠ .bookChanged) := by
    have hfil := congrArg (List.filter fun ev : Event => decide (ev.type ≠ .bookChanged)) h
    have hnone : tail.filter (fun ev => decide (ev.type ≠ .bookChanged)) = [] :=
      List.filter_eq_nil_iff.mpr fun ev hev => by simp [ht ev hev]
    rw [List.filter_map, List.filter_append, hnone, List.append_nil] at hfil
    exact hfil
  unfold told
  rw [hcut, List.filter_map]
  rfl

/-- A command the engine gets through: what it leaves, and what it tells. -/
theorem Simulates.handled (h : Simulates e a) (hp : a.Priced) (hc : ¬ cmd.Unpriced) (now : TsNanos) :
    ∃ e', e.process now cmd = some e' ∧ Simulates e' (a.process (a.fillable cmd) cmd) ∧
      (a.process (a.fillable cmd) cmd).Priced ∧
      ∀ es, (a.start 0 cmd).Emits ((a.withVars (a.start 0 cmd)).dispatch (a.fillable cmd) cmd).toEngineVars es →
        told e'.out = (es.map timeless.event).filter fun ev => decide (ev.type ≠ .bookChanged) := by
  obtain ⟨e', he', hs'⟩ := step_flat h hp (i := .command now cmd) hc
  refine ⟨e', he', hs', hp.process _ (FlatEngine.safe_of_priced hc), fun es hem => ?_⟩
  obtain ⟨tail, hout, htail⟩ := FlatEngine.process_out a (a.fillable cmd) cmd hem
  exact told_eq ((out_unnumbered hs'.refines.vars).trans hout) htail

/-! ## The three ways in the engine -/

/-- An order of the book is found by its id. -/
theorem Simulates.found (h : Simulates e a) (hn : a.Named) {s : Side} (ho : o ∈ e.queued s) : o ∈ a.side s ∧ o ∈ a.orders ∧ a.find o.id = some o := by
  rw [h.refines.queued] at ho
  have hmem := Flat.mem_orders.mpr ⟨s, ho⟩
  exact ⟨ho, hmem, h.inv.find_mem hmem (hn.ids o hmem)⟩

/-- A Cancel of a resting order. -/
theorem Simulates.canceled (h : Simulates e a) (hp : a.Priced) (hf : a.find o.id = some o) (client : ClientId) (ts now : TsNanos) :
    ∃ e' a', e.process now (.makeCancel o.id client ts) = some e' ∧ Simulates e' a' ∧ a'.Priced ∧ a'.toFlat = a.drop o ∧
      a'.cfg = a.cfg ∧ a'.arrival = a.arrival ∧ a'.halted = a.halted ∧
      told e'.out = [timeless.event (.cancel o 0)] := by
  have hunpriced : ¬ (Command.makeCancel o.id client ts).Unpriced := fun hu => CommandType.noConfusion hu.1
  obtain ⟨e', he', hs', hp', htold⟩ := h.handled hp hunpriced now
  obtain ⟨e1, e2, e3, e4⟩ := FlatEngine.process_eq a (a.fillable (.makeCancel o.id client ts)) (.makeCancel o.id client ts)
  have hf' : (a.withVars (a.start 0 (.makeCancel o.id client ts))).find o.id = some o := hf
  rw [FlatEngine.dispatch_cancel hf'] at e1 e2 e3 e4 htold
  refine ⟨e', _, he', hs', hp', e1, e2, e3, e4, ?_⟩
  rw [htold [.cancel o ts] (emits_newEvent _ (.cancel o ts))]
  rfl

end Lob
