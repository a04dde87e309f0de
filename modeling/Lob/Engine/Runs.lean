/-
  Lob.Engine.Runs — runs of the engine, and the flat run each one is.

  `run_induction`: what holds of the flat engine at the start, and is kept by every input
  of a run, holds of what the engine refines at the end. `run_flat`: where no Limit or
  PostOnly New carries `kNoPrice`, a run is defined, and refines the flat run of the same
  inputs (`FlatEngine.run`), whichever book it is over. `linked` and `queued` are what a
  reader of the book finds on a side.
-/

import Lob.Engine.Refine

namespace Lob

open Lob.Base.Links (walk)

/-! ## What rests -/

namespace Engine

variable {B : Type} [Book B] [LawfulBook B]

/-- The slots linked on a side: level by level, best first, each queue from its head. -/
def linked (e : Engine B) (s : Side) : List Ptr :=
  (LawfulBook.levels e.book s).flatMap fun l => walk (fun p => (e.order p).next) e.pool.capacity l.head

/-- The orders linked on a side. -/
def queued (e : Engine B) (s : Side) : List OrderInfo := (e.linked s).map fun p => (e.order p).toOrderInfo

end Engine

variable {B : Type} [Book B] [LawfulBook B] {e e' : Engine B} {a a' : FlatEngine} {cfg : EngineConfig}

theorem Rep.queue_length_le {n : Nat} {lo hi : Price} {st : Store B} {T : Side → List Rung} {f : Flat}
    (h : Rep n lo hi st T f) {s : Side} {t : Rung} (ht : t ∈ T s) : t.2.length ≤ n := by
  obtain ⟨xs, ys, hT⟩ := List.append_of_mem ht
  have h1 : t.2.Sublist (ptrs (T s)) := by
    rw [hT, ptrs_append, ptrs_cons]
    exact (List.sublist_append_left _ _).trans (List.sublist_append_right _ _)
  have h2 := (slots_perm T s).length_eq
  have h3 := h.length_le
  have h4 := h1.length_le
  rw [List.length_append] at h2
  omega

theorem Rep.linked {n : Nat} {lo hi : Price} {T : Side → List Rung} {f : Flat} (h : Rep n lo hi e.toStore T f) (s : Side) :
    e.linked s = ptrs (T s) := by
  unfold Engine.linked ptrs
  rw [h.levels, List.flatMap_map]
  refine List.flatMap_congr fun t ht => ?_
  have hq := (h.side s).queue t ht
  rw [hq.head]
  exact hq.links.walk_eq (by rw [h.capacity]; exact h.queue_length_le ht)

theorem Refines.queued (h : Refines e a) (s : Side) : e.queued s = a.side s := by
  obtain ⟨T, hrep⟩ := h.rep
  unfold Engine.queued
  rw [hrep.linked, hrep.flat]
  rfl

/-- The order at the top of a side that is not empty. -/
theorem Refines.best_order (h : Refines e a) {s : Side} (hs : Book.empty e.book s = false) :
    ∃ o ∈ a.side s, Book.bestPrice e.book s = o.price := by
  obtain ⟨T, hrep⟩ := h.rep
  unfold Book.empty at hs
  have hne : a.side s ≠ [] := by
    intro e0
    have hlen := congrArg List.length (hrep.flat s)
    rw [e0, infos, List.length_map, ← hrep.counts] at hlen
    rw [← hlen] at hs
    exact absurd hs (by simp)
  obtain ⟨o, L, hL⟩ := List.exists_cons_of_ne_nil hne
  refine ⟨o, by rw [hL]; simp, ?_⟩
  rw [hrep.bestPrice]
  unfold Flat.top
  rw [hL]
  rfl

/-! ## Steps and runs of the flat engine -/

/-- The commands among the inputs obey `p`. -/
def Engine.Input.Obeys (p : Command → Prop) : Engine.Input → Prop
  | .command _ cmd => p cmd
  | .setHalted _ => True

instance (p : Command → Prop) [DecidablePred p] : DecidablePred (Engine.Input.Obeys p) := fun i => by
  cases i <;> unfold Engine.Input.Obeys <;> infer_instance


theorem Engine.Input.Obeys.imp {p q : Command → Prop} (hpq : ∀ cmd, p cmd → q cmd) {i : Engine.Input} (h : i.Obeys p) :
    i.Obeys q := by
  cases i with
  | command now cmd => exact hpq cmd h
  | setHalted b => trivial

namespace FlatEngine

/-- One input, the fill-or-kill sizing answered by `fillable`. -/
def step (a : FlatEngine) (fillable : Command → Bool) : Engine.Input → FlatEngine
  | .command _ cmd => a.process (fillable cmd) cmd
  | .setHalted h => a.setHalted h

def steps (a : FlatEngine) (is : List Engine.Input) : FlatEngine := is.foldl (fun a i => a.step a.fillable i) a

/-- The capacity of the index of a new engine. -/
def initCap (cfg : EngineConfig) : Nat := (FlatPtrMap.make cfg.maxOrders : FlatPtrMap (Option Ptr)).mask + 1

def run (cfg : EngineConfig) (is : List Engine.Input) : FlatEngine := (init cfg (initCap cfg)).steps is

theorem step_cfg (a : FlatEngine) (fillable : Command → Bool) (i : Engine.Input) : (a.step fillable i).cfg = a.cfg := by
  cases i with
  | setHalted h => rfl
  | command now cmd =>
    obtain ⟨_, hcfg, _, _⟩ := process_eq a (fillable cmd) cmd
    exact hcfg.trans (dispatch_cfg (a.withVars (a.start 0 cmd)) (fillable cmd) cmd)

/-- What the moves of a command keep is kept by an input. -/
theorem step_keeps {ok : Command → Prop} {R : FlatEngine → Prop} {Q : Flat → EngineConfig → Prop}
    (keep : ∀ (a a' : FlatEngine) fillable cmd, ok cmd → a.Inv → R a → Moves a fillable cmd a' → Q a.toFlat a.cfg →
      Q a'.toFlat a'.cfg) (hR : ∀ (a : FlatEngine) v, R a → R (a.withVars v))
    {a : FlatEngine} (hi : a.Inv) (hr : R a) (fillable : Command → Bool) {i : Engine.Input} (hok : i.Obeys ok)
    (h : Q a.toFlat a.cfg) : Q (a.step fillable i).toFlat (a.step fillable i).cfg := by
  cases i with
  | setHalted b => exact h
  | command now cmd =>
    obtain ⟨e1, e2, _, _⟩ := process_eq a (fillable cmd) cmd
    show Q (a.process (fillable cmd) cmd).toFlat (a.process (fillable cmd) cmd).cfg
    rw [e1, e2]
    exact keep (a.withVars (a.start 0 cmd)) _ _ cmd hok hi (hR a _ hr)
      (dispatch_moves (a.withVars (a.start 0 cmd)) (fillable cmd) cmd) h

end FlatEngine

/-! ## Steps and runs of the engine -/

theorem init_simulates (h : Engine.init cfg = some e) : Simulates e (FlatEngine.init cfg (FlatEngine.initCap cfg)) := by
  unfold Engine.init at h
  obtain ⟨b, hb, he⟩ := Option.bind_eq_some_iff.mp h
  cases he
  obtain ⟨hok, hlo, hhi, hlev, hcount⟩ := LawfulBook.make_ok hb
  refine ⟨⟨rfl, rfl, fun _ => [], ?_⟩, FlatEngine.Inv.init _ _⟩
  have hno : ∀ id v, id ≠ 0 → ¬ FlatPtrMap.Holds (FlatPtrMap.make cfg.maxOrders : FlatPtrMap (Option Ptr)) id v :=
    fun id v h0 => FlatPtrMap.not_holds_make cfg.maxOrders h0 v
  refine ⟨hok, hlo, hhi, hlev, hcount, fun s => sideRep_nil _ s, fun _ => rfl, List.Perm.refl _, rfl, rfl,
    FlatPtrMap.make_ok _ _, fun id v h0 => ⟨fun hv => absurd hv (hno id v h0), ?_⟩, rfl, rfl, ?_⟩
  · intro ⟨p, hp, _⟩; cases hp
  · show (FlatPtrMap.keys (FlatPtrMap.make cfg.maxOrders : FlatPtrMap (Option Ptr))).card = 0
    rw [Finset.card_eq_zero]
    ext k
    rw [FlatPtrMap.mem_keys]
    simp only [Finset.notMem_empty, iff_false, not_and, not_exists]
    exact fun h0 v => hno k v h0

omit [LawfulBook B] in
theorem init_defined {b : B} (h : Book.make cfg.minPrice cfg.maxPrice = some b) : ∃ e : Engine B, Engine.init cfg = some e :=
  ⟨_, Option.bind_eq_some_iff.mpr ⟨b, h, rfl⟩⟩

omit [LawfulBook B] in
theorem run_eq_steps (h0 : Engine.init cfg = some e) (is : List Engine.Input) : Engine.run cfg is = e.steps is := by
  unfold Engine.run
  rw [h0]
  rfl

omit [LawfulBook B] in
theorem steps_append (e : Engine B) (is js : List Engine.Input) : e.steps (is ++ js) = (e.steps is).bind fun e' => e'.steps js := by
  induction is generalizing e with
  | nil => rfl
  | cons i is ih =>
    show ((e.step i).bind fun e' => e'.steps (is ++ js)) = ((e.step i).bind fun e' => e'.steps is).bind _
    rw [Option.bind_assoc]
    exact congrArg _ (funext fun e' => ih e')

theorem step_simulates (h : Simulates e a) {i : Engine.Input} (hs : e.step i = some e') :
    Simulates e' (a.step e.fillable i) := by
  cases i with
  | command now cmd => exact (process_refines h now cmd).2 e' hs
  | setHalted b =>
    cases hs
    obtain ⟨T, hrep⟩ := h.refines.rep
    refine ⟨⟨?_, h.refines.cfg, T, hrep⟩, h.inv⟩
    show ({ e.untimed with halted := b } : EngineVars) = { a.toEngineVars with halted := b }
    rw [h.refines.vars]

theorem Simulates.process_cfg {cmd : Command} {now : TsNanos} (h : Simulates e a) (hp : e.process now cmd = some e') :
    e'.cfg = e.cfg := by
  rw [((process_refines h now cmd).2 e' hp).refines.cfg, h.refines.cfg]
  exact a.step_cfg e.fillable (.command now cmd)

/-- What is kept by every input of a run holds at its end. -/
theorem steps_induction {P : FlatEngine → Prop} {ok : Engine.Input → Prop}
    (keep : ∀ a fillable i, a.Inv → P a → ok i → P (a.step fillable i)) :
    ∀ (is : List Engine.Input) (e : Engine B) (a : FlatEngine), (∀ i ∈ is, ok i) → Simulates e a → P a →
      e.steps is = some e' → ∃ a', Simulates e' a' ∧ P a' := by
  intro is
  induction is with
  | nil =>
    intro e a _ h hp he
    cases he
    exact ⟨a, h, hp⟩
  | cons i is ih =>
    intro e a hok h hp he
    obtain ⟨e1, h1, h2⟩ := Option.bind_eq_some_iff.mp he
    exact ih e1 _ (fun j hj => hok j (List.mem_cons_of_mem _ hj)) (step_simulates h h1)
      (keep a e.fillable i h.inv hp (hok i (by simp))) h2

theorem run_induction {P : FlatEngine → Prop} {ok : Engine.Input → Prop} {is : List Engine.Input}
    (h : Engine.run cfg is = some e) (hok : ∀ i ∈ is, ok i) (start : ∀ cap, P (FlatEngine.init cfg cap))
    (keep : ∀ a fillable i, a.Inv → P a → ok i → P (a.step fillable i)) : ∃ a, Simulates e a ∧ a.cfg = cfg ∧ P a := by
  obtain ⟨e0, h0, hs⟩ := Option.bind_eq_some_iff.mp h
  exact steps_induction (fun a fillable i hi hp hok => ⟨(a.step_cfg fillable i).trans hp.1, keep a fillable i hi hp.2 hok⟩)
    is e0 _ hok (init_simulates h0) ⟨rfl, start _⟩ hs

/-- Any reachable engine refines a flat one. -/
theorem run_simulates {is : List Engine.Input} (h : Engine.run cfg is = some e) : ∃ a, Simulates e a ∧ a.cfg = cfg := by
  obtain ⟨a, ha, hc, _⟩ := @run_induction B _ _ e cfg (fun _ => True) (fun _ => True) is h (fun _ _ => trivial)
    (fun _ => trivial) fun _ _ _ _ _ _ => trivial
  exact ⟨a, ha, hc⟩

/-- Every command of a run meets `p` in the state it comes to. -/
def Engine.Meets {B : Type} [Book B] (p : Engine B → Command → Prop) : Engine B → List Engine.Input → Prop
  | _, [] => True
  | e, .command now cmd :: is => p e cmd ∧ ∀ e', e.process now cmd = some e' → Engine.Meets p e' is
  | e, .setHalted h :: is => Engine.Meets p (e.setHalted h) is

theorem Engine.Meets.obeying {B : Type} [Book B] {p : Engine B → Command → Prop} {q : Command → Prop} :
    ∀ {is : List Engine.Input} {e : Engine B}, (∀ i ∈ is, i.Obeys q) → e.Meets p is →
      e.Meets (fun e cmd => p e cmd ∧ q cmd) is := by
  intro is
  induction is with
  | nil => intro e _ _; trivial
  | cons i is ih =>
    intro e his hm
    have hrest := fun j hj => his j (List.mem_cons_of_mem _ hj)
    cases i with
    | setHalted b => exact ih hrest hm
    | command now cmd => exact ⟨⟨hm.1, his _ (List.mem_cons_self ..)⟩, fun e' he' => ih hrest (hm.2 e' he')⟩

/-- The commands of a run, each with the state it comes to. -/
theorem meets_each {B : Type} [Book B] {p : Engine B → Command → Prop} : ∀ {is : List Engine.Input} {e : Engine B},
    e.Meets p is ↔ ∀ pre now cmd e1, pre ++ [.command now cmd] <+: is → e.steps pre = some e1 → p e1 cmd := by
  intro is
  induction is with
  | nil =>
    intro e
    refine ⟨fun _ pre now cmd e1 hpre => ?_, fun _ => trivial⟩
    exact absurd (List.prefix_nil.mp hpre) (List.append_ne_nil_of_right_ne_nil _ (List.cons_ne_nil _ _))
  | cons i is ih =>
    intro e
    have hrest : (∀ e', e.step i = some e' → e'.Meets p is) ↔ ∀ pre now cmd e1, i :: pre ++ [.command now cmd] <+: i :: is →
        e.steps (i :: pre) = some e1 → p e1 cmd := by
      constructor
      · intro hm pre now cmd e1 hpre h1
        obtain ⟨e', he', h1⟩ := Option.bind_eq_some_iff.mp h1
        exact ih.mp (hm e' he') pre now cmd e1 ((List.prefix_cons_inj i).mp hpre) h1
      · intro hall e' he'
        exact ih.mpr fun pre now cmd e1 hpre h1 => hall pre now cmd e1 ((List.prefix_cons_inj i).mpr hpre)
          (Option.bind_eq_some_iff.mpr ⟨e', he', h1⟩)
    constructor
    · intro hm pre now cmd e1 hpre h1
      cases pre with
      | nil =>
        obtain ⟨rfl, _⟩ := List.cons_prefix_cons.mp hpre
        cases h1
        exact hm.1
      | cons j pre =>
        obtain ⟨rfl, _⟩ := List.cons_prefix_cons.mp hpre
        refine hrest.mp (fun e' he' => ?_) pre now cmd e1 hpre h1
        cases j with
        | setHalted b => cases he'; exact hm
        | command now cmd => exact hm.2 e' he'
    · intro hall
      have hm := hrest.mpr fun pre now cmd e1 => hall (i :: pre) now cmd e1
      cases i with
      | setHalted b => exact hm _ rfl
      | command now cmd => exact ⟨hall [] now cmd e ⟨is, rfl⟩ rfl, hm⟩

/-- What holds of every command in a state that refines a flat one holds along a run. -/
theorem meets_of_simulates {p : Engine B → Command → Prop} {ok : Command → Prop}
    (hp : ∀ (e : Engine B) a cmd, Simulates e a → ok cmd → p e cmd) :
    ∀ (is : List Engine.Input) (e : Engine B) (a : FlatEngine), Simulates e a → (∀ i ∈ is, i.Obeys ok) → e.Meets p is := by
  intro is
  induction is with
  | nil => intro e a _ _; trivial
  | cons i is ih =>
    intro e a h his
    have hrest := fun j hj => his j (List.mem_cons_of_mem _ hj)
    cases i with
    | setHalted b => exact ih _ _ (step_simulates h (i := .setHalted b) rfl) hrest
    | command now cmd =>
      exact ⟨hp e a cmd h (his _ (List.mem_cons_self ..)), fun e' he' => ih e' _ ((process_refines h now cmd).2 e' he') hrest⟩

/-- What every command that meets `p` keeps holds at the end of such a run, and the run is
    defined if every such command is. -/
theorem meets_induction {p : Engine B → Command → Prop} {P : FlatEngine → Prop}
    (keep : ∀ (e : Engine B) a now cmd, Simulates e a → P a → p e cmd →
      e.process now cmd ≠ none ∧ P (a.process (e.fillable cmd) cmd))
    (switch : ∀ a b, P a → P (FlatEngine.setHalted a b)) :
    ∀ (is : List Engine.Input) (e : Engine B) (a : FlatEngine), Simulates e a → P a → e.Meets p is →
      ∃ e' a', e.steps is = some e' ∧ Simulates e' a' ∧ P a' := by
  intro is
  induction is with
  | nil => intro e a h hp _; exact ⟨e, a, rfl, h, hp⟩
  | cons i is ih =>
    intro e a h hp hm
    cases i with
    | setHalted b =>
      exact ih (e.setHalted b) (a.setHalted b) (step_simulates h (i := .setHalted b) rfl) (switch a b hp) hm
    | command now cmd =>
      obtain ⟨hdef, hp'⟩ := keep e a now cmd h hp hm.1
      obtain ⟨e1, he1⟩ := Option.ne_none_iff_exists'.mp hdef
      obtain ⟨e', a', hs, h', hp''⟩ := ih e1 _ ((process_refines h now cmd).2 e1 he1) hp' (hm.2 e1 he1)
      exact ⟨e', a', Option.bind_eq_some_iff.mpr ⟨e1, he1, hs⟩, h', hp''⟩

/-- The events of a run, in order. -/
def Engine.emitted {B : Type} [Book B] : Engine B → List Engine.Input → List Event
  | _, [] => []
  | e, .command now cmd :: is =>
    match e.process now cmd with
    | none => []
    | some e' => e'.out ++ Engine.emitted e' is
  | e, .setHalted h :: is => Engine.emitted (e.setHalted h) is

/-- The events of one input, `e` the engine after it. -/
def Engine.Input.heard {B : Type} (e : Engine B) : Engine.Input → List Event
  | .command _ _ => e.out
  | .setHalted _ => []

def Engine.Input.command? : Engine.Input → Option Command
  | .command _ cmd => some cmd
  | .setHalted _ => none

omit [LawfulBook B] in
theorem emitted_cons {i : Engine.Input} (h : e.step i = some e') (is : List Engine.Input) :
    e.emitted (i :: is) = i.heard e' ++ e'.emitted is := by
  cases i with
  | setHalted b => cases h; rfl
  | command now cmd =>
    have h : e.process now cmd = some e' := h
    rw [Engine.emitted, h]
    rfl

omit [LawfulBook B] in
theorem emitted_append : ∀ {is : List Engine.Input} {e : Engine B}, e.steps is = some e' →
    ∀ js, e.emitted (is ++ js) = e.emitted is ++ e'.emitted js := by
  intro is
  induction is with
  | nil =>
    intro e he js
    cases he
    rfl
  | cons i is ih =>
    intro e he js
    obtain ⟨e1, he1, hrest⟩ := Option.bind_eq_some_iff.mp he
    rw [List.cons_append, emitted_cons he1, emitted_cons he1, ih hrest, List.append_assoc]

omit [LawfulBook B] in
/-- A state of a run is the first one, or one of the run that is left. -/
theorem states_cons {i : Engine.Input} {is : List Engine.Input} (h : e.step i = some e') {Q : List Engine.Input → Engine B → Prop} :
    (∀ pre e1, pre <+: i :: is → e.steps pre = some e1 → Q pre e1) ↔
      Q [] e ∧ ∀ pre e1, pre <+: is → e'.steps pre = some e1 → Q (i :: pre) e1 := by
  constructor
  · intro hall
    refine ⟨hall [] e List.nil_prefix rfl, fun pre e1 hpre h1 => ?_⟩
    exact hall (i :: pre) e1 ((List.prefix_cons_inj i).mpr hpre) (Option.bind_eq_some_iff.mpr ⟨e', h, h1⟩)
  · intro ⟨hfirst, hrest⟩ pre e1 hpre h1
    cases pre with
    | nil => cases h1; exact hfirst
    | cons j pre =>
      obtain ⟨rfl, htail⟩ := List.cons_prefix_cons.mp hpre
      obtain ⟨e2, h2, h1⟩ := Option.bind_eq_some_iff.mp h1
      obtain rfl := Option.some.inj (h.symm.trans h2)
      exact hrest pre e1 htail h1

/-- Where each command that meets `q` keeps `P`, which may look back on the events so far,
    exactly when it meets `p`, `P` holds in every state of a run that meets `q` exactly when
    every command of it meets `p`. -/
theorem meets_emitted_iff {P : Engine B → List Event → Prop} {p q : Engine B → Command → Prop} {I : FlatEngine → Prop}
    (keep : ∀ (e e' : Engine B) a now cmd log, q e cmd → Simulates e a → I a → P e log → e.process now cmd = some e' →
      (P e' (log ++ e'.out) ↔ p e cmd))
    (inv : ∀ (e : Engine B) a cmd, q e cmd → Simulates e a → I a → I (a.process (e.fillable cmd) cmd))
    (halt : ∀ a b, a.Inv → I a → I (FlatEngine.setHalted a b))
    (switch : ∀ (e : Engine B) b log, P e log → P (e.setHalted b) log) :
    ∀ (is : List Engine.Input) (e e' : Engine B) (a : FlatEngine) (log : List Event), e.Meets q is → Simulates e a → I a →
      P e log → e.steps is = some e' →
      ((∀ pre e1, pre <+: is → e.steps pre = some e1 → P e1 (log ++ e.emitted pre)) ↔ e.Meets p is) := by
  intro is
  induction is with
  | nil =>
    intro e e' a log _ _ _ hP _
    refine ⟨fun _ => trivial, fun _ pre e1 hpre h1 => ?_⟩
    obtain rfl := List.prefix_nil.mp hpre
    cases h1
    rw [Engine.emitted, List.append_nil]
    exact hP
  | cons i is ih =>
    intro e e' a log hq h hI hP hs
    obtain ⟨e1, he1, hs1⟩ := Option.bind_eq_some_iff.mp hs
    have h1 := step_simulates h he1
    have hfirst : P e (log ++ e.emitted []) := by
      rw [Engine.emitted, List.append_nil]
      exact hP
    rw [states_cons he1, and_iff_right hfirst]
    simp only [emitted_cons he1, ← List.append_assoc]
    cases i with
    | setHalted b =>
      cases he1
      refine ih (e.setHalted b) e' _ _ hq h1 (halt a b h.inv hI) ?_ hs1
      rw [Engine.Input.heard, List.append_nil]
      exact switch e b log hP
    | command now cmd =>
      have hkeep := keep e e1 a now cmd log hq.1 h hI hP he1
      have htail := fun hP1 => ih e1 e' _ (log ++ e1.out) (hq.2 e1 he1) h1 (inv e a cmd hq.1 h hI) hP1 hs1
      constructor
      · intro hall
        have hP1 := hall [] e1 List.nil_prefix rfl
        rw [Engine.emitted, List.append_nil] at hP1
        refine ⟨hkeep.mp hP1, fun e2 he2 => ?_⟩
        obtain rfl := Option.some.inj (he1.symm.trans he2)
        exact (htail hP1).mp hall
      · intro hm
        exact (htail (hkeep.mpr hm.1)).mpr (hm.2 e1 he1)

/-- Where each command keeps `P` exactly when it meets `p`, `P` holds in every state of a run
    exactly when every command of it meets `p`. -/
theorem meets_iff {P : Engine B → Prop} {p : Engine B → Command → Prop} {I : FlatEngine → Prop} {ok : Command → Prop}
    (keep : ∀ (e e' : Engine B) a now cmd, ok cmd → Simulates e a → I a → P e → e.process now cmd = some e' →
      (P e' ↔ p e cmd))
    (inv : ∀ a fillable i, a.Inv → I a → i.Obeys ok → I (a.step fillable i))
    (switch : ∀ (e : Engine B) b, P e → P (e.setHalted b)) :
    ∀ (is : List Engine.Input) (e e' : Engine B) (a : FlatEngine), (∀ i ∈ is, i.Obeys ok) → Simulates e a → I a → P e →
      e.steps is = some e' → ((∀ pre e1, pre <+: is → e.steps pre = some e1 → P e1) ↔ e.Meets p is) := by
  intro is e e' a hok h hI hP hs
  refine @meets_emitted_iff _ _ _ (fun e _ => P e) p (fun _ cmd => ok cmd) I ?_ ?_ ?_ (fun e b _ => switch e b)
    is e e' a [] (meets_of_simulates (fun _ _ _ _ hc => hc) is e a h hok) h hI hP hs
  · intro e e' a now cmd _ hc h hI hP hp
    exact keep e e' a now cmd hc h hI hP hp
  · intro e a cmd hc h hI
    exact inv a e.fillable (.command 0 cmd) h.inv hI hc
  · intro a b hi hI
    exact inv a (fun _ => false) (.setHalted b) hi hI trivial

/-! ## Prices -/

/-- A New that may come to rest and carries no price. -/
def Command.Unpriced (cmd : Command) : Prop := cmd.type = .new ∧ rests cmd.ordType = true ∧ cmd.price = kNoPrice

instance (cmd : Command) : Decidable cmd.Unpriced := by unfold Command.Unpriced; infer_instance

namespace FlatEngine

def Priced (a : FlatEngine) : Prop := ∀ o ∈ a.orders, o.price ≠ kNoPrice ∧ a.inBand o.price

variable {cmd : Command} {fillable : Bool}

theorem rests_not_market {t : OrderType} (h : rests t = true) : t ≠ .market := by
  intro e; rw [e] at h; exact absurd h (by decide)

theorem limitOf_rests {c : Command} (h : rests c.ordType = true) : limitOf c = c.price := by
  unfold limitOf
  split
  · rename_i hm
    unfold isMarket at hm
    have := (of_decide_eq_true hm).resolve_left (rests_not_market h)
    exact this.symm
  · rfl

/-- An order comes to rest at the price it was given. -/
theorem Landing.price_eq {c : Command} {g : Flat} {o : OrderInfo} (h : Landing a fillable c g o) : o.price = c.price := by
  rw [h.order]
  exact limitOf_rests h.kind

theorem Landing.in_band {c : Command} {g : Flat} {o : OrderInfo} (h : Landing a fillable c g o) (hc : c.price ≠ kNoPrice) :
    a.inBand c.price := by
  refine h.passes.band ?_
  unfold isMarket
  exact decide_eq_false fun e => e.elim (rests_not_market h.kind) hc

theorem Priced.sides (h : a.Priced) (hc : a'.cfg = a.cfg) (hs : ∀ s, Shrinks (a'.side s) (a.side s)) : a'.Priced := by
  intro o' ho'
  obtain ⟨o, ho, hr⟩ := (Flat.shrinks_orders hs).mem ho'
  unfold inBand
  rw [hr.price, hc]
  exact h o ho

theorem newPrice_ne (cmd : Command) {p : Price} (h : p ≠ kNoPrice) : newPrice cmd p ≠ kNoPrice := by
  unfold newPrice
  split
  · exact h
  · assumption

/-- No unpriced order comes to rest. -/
def Safe (a : FlatEngine) (fillable : Bool) (cmd : Command) : Prop :=
  cmd.Unpriced → a.halted = false → a.lands fillable cmd = none

theorem safe_of_priced (hc : ¬ cmd.Unpriced) : Safe a fillable cmd := fun h => absurd h hc

theorem Safe.priced {g : Flat} {o : OrderInfo} (h : Safe a fillable cmd) (hl : Landing a fillable cmd g o)
    (ht : cmd.type = .new) (hh : a.halted = false) : cmd.price ≠ kNoPrice := by
  intro e
  have := h ⟨ht, hl.kind, e⟩ hh
  rw [hl.lands_eq] at this
  cases this

theorem Priced.moves (h : a.Priced) (hm : Moves a fillable cmd a') (hc : Safe a fillable cmd) : a'.Priced := by
  cases hm with
  | shrinks n kept le sides => exact h.sides kept.cfg sides
  | lands b c g o kept before sides landing result origin =>
    have hprice : c.price ≠ kNoPrice := by
      rcases origin with ⟨rfl, ht, hh, rfl⟩ | ⟨old, hold, _, _, rfl, _⟩
      · exact hc.priced landing ht hh
      · exact newPrice_ne cmd (h old hold).1
    have hband := landing.in_band hprice
    intro x hx
    rw [result, (Flat.place_perm g o).mem_iff, List.mem_cons] at hx
    unfold inBand at hband ⊢
    rw [before.2] at hband
    rw [kept.cfg]
    rcases hx with rfl | hx
    · rw [landing.price_eq]
      exact ⟨hprice, hband⟩
    · rw [landing.book] at hx
      obtain ⟨y, hy, hr⟩ := (Flat.shrinks_orders fun s => (matching_shrinks b c s).trans (sides s)).mem hx
      rw [hr.price]
      exact h y hy

theorem Priced.process (h : a.Priced) (fillable : Bool) (hc : Safe (a.withVars (a.start 0 cmd)) fillable cmd) :
    (a.process fillable cmd).Priced := by
  obtain ⟨e1, e2, _, _⟩ := process_eq a fillable cmd
  have h' : (a.withVars (a.start 0 cmd)).Priced := h
  have := h'.moves (dispatch_moves (a.withVars (a.start 0 cmd)) fillable cmd) hc
  unfold Priced inBand at this ⊢
  rw [e1, e2]
  exact this

theorem Priced.step (h : a.Priced) (fillable : Command → Bool) {i : Engine.Input}
    (hi : i.Obeys fun cmd => ¬ cmd.Unpriced) : (a.step fillable i).Priced := by
  cases i with
  | command now cmd => exact h.process (fillable cmd) (safe_of_priced hi)
  | setHalted b => exact h

theorem Priced.init (cfg : EngineConfig) (cap : Nat) : (init cfg cap).Priced := fun _ ho => by cases ho

theorem Priced.real (h : a.Priced) (s : Side) : Real a.cfg.minPrice (a.side s) :=
  Or.inr fun o ho => (h o (Flat.mem_orders.mpr ⟨s, ho⟩)).1

/-- With real prices nothing strays. -/
theorem Priced.no_stray (h : a.Priced) (hc : Safe a fillable cmd) : ¬ Stray a fillable cmd := by
  intro hs
  cases hs with
  | new o type live landing out =>
    rw [landing.price_eq] at out
    exact out (landing.in_band (hc.priced landing type live))
  | modify old o type found landing out =>
    obtain ⟨g, hl⟩ := landing
    rw [hl.price_eq] at out
    exact out (hl.in_band (newPrice_ne cmd (h old (Flat.find_some found).2.1).1))

end FlatEngine

theorem step_flat (h : Simulates e a) (hp : a.Priced) {i : Engine.Input} (hi : i.Obeys fun cmd => ¬ cmd.Unpriced) :
    ∃ e', e.step i = some e' ∧ Simulates e' (a.step a.fillable i) := by
  cases i with
  | setHalted b => exact ⟨_, rfl, step_simulates h (i := .setHalted b) rfl⟩
  | command now cmd =>
    cases he : e.process now cmd with
    | none =>
      have hp' : (a.withVars (a.start 0 cmd)).Priced := hp
      exact absurd ((process_refines h now cmd).1 he) (hp'.no_stray (FlatEngine.safe_of_priced hi))
    | some e' =>
      refine ⟨e', he, ?_⟩
      have := (process_refines h now cmd).2 e' he
      rw [h.refines.fillable_eq (hp.real _)] at this
      exact this

theorem steps_flat : ∀ (is : List Engine.Input) (e : Engine B) (a : FlatEngine), Simulates e a → a.Priced →
    (∀ i ∈ is, i.Obeys fun cmd => ¬ cmd.Unpriced) →
    ∃ e', e.steps is = some e' ∧ Simulates e' (a.steps is) ∧ (a.steps is).Priced := by
  intro is
  induction is with
  | nil => intro e a h hp _; exact ⟨e, rfl, h, hp⟩
  | cons i is ih =>
    intro e a h hp his
    have hi := his i (by simp)
    obtain ⟨e1, he1, h1⟩ := step_flat h hp hi
    obtain ⟨e', he', h', hp'⟩ := ih e1 _ h1 (hp.step a.fillable hi) fun j hj => his j (List.mem_cons_of_mem _ hj)
    exact ⟨e', Option.bind_eq_some_iff.mpr ⟨e1, he1, he'⟩, h', hp'⟩

/-- A run without unpriced orders is defined, and is the flat run. -/
theorem run_flat {is : List Engine.Input} (h0 : Engine.init cfg = some e)
    (his : ∀ i ∈ is, i.Obeys fun cmd => ¬ cmd.Unpriced) :
    ∃ e' : Engine B, Engine.run cfg is = some e' ∧ Simulates e' (FlatEngine.run cfg is) ∧ (FlatEngine.run cfg is).Priced := by
  obtain ⟨e', he', h', hp'⟩ := steps_flat is e _ (init_simulates h0) (FlatEngine.Priced.init _ _) his
  exact ⟨e', Option.bind_eq_some_iff.mpr ⟨e, h0, he'⟩, h', hp'⟩

end Lob
