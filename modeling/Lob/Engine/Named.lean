/-
  Lob.Engine.Named — with non-zero ids the index counts what it holds.

  Key 0 marks the empty slots of the index: inserting it adds to `size` an entry that no
  lookup finds. `Flat.Named` says that no order has it and that `size` is the number of
  orders; every command but a New with id 0 keeps it (`named_step`).
-/

import Lob.Engine.Runs

namespace Lob

/-! ## Counting names -/

/-- A New that uses the key the index keeps for its empty slots. -/
def Command.Nameless (cmd : Command) : Prop := cmd.type = .new ∧ cmd.id = 0

instance (cmd : Command) : Decidable cmd.Nameless := by unfold Command.Nameless; infer_instance

namespace Flat

/-- Every order has a non-zero id, and the index has counted each once. -/
structure Named (f : Flat) : Prop where
  ids : ∀ o ∈ f.orders, o.id ≠ 0
  size : f.size = f.orders.length

variable {f : Flat} {n k : Nat}

theorem Named.live (h : f.Named) : f.live = f.orders.length := by
  unfold Flat.live
  rw [List.filter_eq_self.mpr fun o ho => by simpa using h.ids o ho]

theorem Named.shrink {f' : Flat} (h : f.Named) (hs : ∀ s, Shrinks (f'.side s) (f.side s)) :
    ∀ o ∈ f'.orders, o.id ≠ 0 := by
  intro o' ho'
  obtain ⟨o, ho, hr⟩ := (shrinks_orders hs).mem ho'
  rw [hr.id_eq]
  exact h.ids o ho

theorem Named.drop (h : f.Named) {o : OrderInfo} (ho : o ∈ f.side o.side) : (f.drop o).Named := by
  refine ⟨h.shrink fun s => shrinks_setList (shrinks_erase _ o) s, ?_⟩
  have h1 := drop_length ho
  have h2 := h.size
  show (if o.id = 0 then f.size else f.size - 1) = _
  rw [if_neg (h.ids o (mem_orders.mpr ⟨_, ho⟩))]
  omega

theorem Named.swap (h : f.Named) {o o' : OrderInfo} (ho : o ∈ f.side o.side) (hr : Reduced o' o) : (f.swap o o').Named := by
  refine ⟨h.shrink fun s => shrinks_setList (shrinks_replace hr _) s, ?_⟩
  rw [(swap_perm ho o').length_eq, List.length_cons, drop_length ho]
  exact h.size

theorem Named.place (h : f.Named) {o : OrderInfo} (ho : o.id ≠ 0) : (f.place o).Named := by
  have hp := place_perm f o
  refine ⟨fun x hx => ?_, ?_⟩
  · rcases List.mem_cons.mp (hp.mem_iff.mp hx) with rfl | hx
    · exact ho
    · exact h.ids x hx
  · rw [hp.length_eq, List.length_cons]
    show (if f.full then f.live else f.size) + 1 = _
    rw [h.live, h.size]
    split <;> rfl

end Flat

namespace FlatEngine

variable {a a' : FlatEngine} {cmd : Command} {fillable : Bool}

theorem afterMatch_length (a : FlatEngine) (cmd : Command) :
    (a.afterMatch cmd).orders.length + (a.matching cmd).gone.length = a.orders.length := by
  obtain ⟨rest, hL, hrest⟩ : ∃ rest, a.side (opposite cmd.side) = (a.matching cmd).gone ++ rest ∧
      List.Forall₂ Reduced (a.matching cmd).left rest := refMatch_left ..
  rw [Flat.length_orders _ (opposite cmd.side), Flat.length_orders a.toFlat (opposite cmd.side), hL, List.length_append,
    afterMatch_side, if_pos rfl, afterMatch_side, if_neg (by simp), hrest.length_eq]
  omega

theorem named_afterMatch (h : a.Named) (cmd : Command) : (a.afterMatch cmd).Named := by
  refine ⟨h.shrink (matching_shrinks a cmd), ?_⟩
  have h1 := afterMatch_length a cmd
  have h2 : (a.matching cmd).gone.filter (fun o => o.id ≠ 0) = (a.matching cmd).gone := by
    refine List.filter_eq_self.mpr fun o ho => ?_
    obtain ⟨rest, hL, _⟩ : ∃ rest, a.side (opposite cmd.side) = (a.matching cmd).gone ++ rest ∧
        List.Forall₂ Reduced (a.matching cmd).left rest := refMatch_left ..
    have := h.ids o (Flat.mem_orders.mpr ⟨opposite cmd.side, by rw [hL]; exact List.mem_append_left _ ho⟩)
    simpa using this
  show a.size - ((a.matching cmd).gone.filter fun o => o.id ≠ 0).length = _
  rw [h2, h.size]
  omega

theorem named_accepted (h : a.Named) (hp : a.Passes fillable cmd) (h0 : a.lands fillable cmd ≠ none → cmd.id ≠ 0) :
    (a.handleAccepted cmd).Named := by
  have hs := accepted_settles a cmd
  generalize a.handleAccepted cmd = a' at hs ⊢
  cases hs with
  | filled done => exact named_afterMatch h cmd
  | canceled reason open_ why => exact named_afterMatch h cmd
  | rested open_ kind room =>
    refine (named_afterMatch h cmd).place ?_
    rw [matching_inc]
    refine h0 ?_
    rw [(hp.landing open_ kind room).lands_eq]
    exact nofun

/-- Only an order with id 0 that comes to rest goes unnamed. -/
theorem named_dispatch (hi : a.Inv) (h : a.Named)
    (hc : ¬ (cmd.Nameless ∧ a.halted = false ∧ ∃ o, a.lands fillable cmd = some o)) :
    (a.dispatch fillable cmd).Named := by
  have ho := dispatch_outcome a fillable cmd
  generalize a.dispatch fillable cmd = a' at ho ⊢
  cases ho with
  | refused r why => exact h
  | admitted type live passes =>
    exact named_accepted h passes fun hl e => hc ⟨⟨type, e⟩, live, Option.ne_none_iff_exists'.mp hl⟩
  | canceled o found why => exact h.drop (hi.mem_side (Flat.find_some found).2.1)
  | replaced o found type sized keeps => exact h.swap (hi.mem_side (Flat.find_some found).2.1) (reduced_keep sized keeps)
  | requeued o found type sized moves passes =>
    exact named_accepted (h.drop (hi.mem_side (Flat.find_some found).2.1)) passes fun _ => (Flat.find_some found).1
  | lost o found type sized moves r refusal => exact h.drop (hi.mem_side (Flat.find_some found).2.1)

theorem named_process (hi : a.Inv) (h : a.Named)
    (hc : ¬ (cmd.Nameless ∧ a.halted = false ∧ ∃ o, (a.withVars (a.start 0 cmd)).lands fillable cmd = some o)) :
    (a.process fillable cmd).Named := by
  obtain ⟨e, _⟩ := process_eq a fillable cmd
  show (a.process fillable cmd).toFlat.Named
  rw [e]
  exact named_dispatch (a := a.withVars (a.start 0 cmd)) hi h hc

theorem named_step (hi : a.Inv) (h : a.Named) (fillable : Command → Bool) {i : Engine.Input}
    (hc : i.Obeys fun cmd => ¬ cmd.Nameless) : (a.step fillable i).Named := by
  cases i with
  | setHalted b => exact h
  | command now cmd => exact named_process hi h fun hn => hc hn.1

end FlatEngine

end Lob
