/-
  Lob.Laws.Rehash — when the order index grows.

  The constructor doubles the capacity until `cap * 3 >= expected * 4`; `insert` grows at
  `(size + 1) * 4 >= cap * 3`. The two meet at equality, which `max_orders` allows when it
  is three quarters of the capacity chosen: `3 * 2 ^ j`, from 12 on (`Tight`). There the
  order that takes the last slot of the pool makes the index grow, and nothing else ever
  does (`capacity_kept_iff`).
-/

import Lob.Book.OrderBookProofs
import Lob.Engine.Entries
import Lob.Engine.Named

namespace Lob

open Lob.Base.Cyclic

/-! ## The capacity chosen -/

/-- A number that is three quarters of the capacity chosen for it. -/
def Tight (n : Nat) : Prop := ∃ j, 2 ≤ j ∧ n = 3 * 2 ^ j

namespace FlatPtrMap

variable {V : Type} [Inhabited V]

theorem capFor_fits (expected : Nat) : ∀ n cap, 2 ≤ cap → expected * 4 ≤ cap * 3 + n * 4 →
    expected * 4 ≤ capFor expected n cap * 3 := by
  intro n
  induction n with
  | zero =>
    intro cap _ h
    simp only [capFor]
    omega
  | succ n ih =>
    intro cap h2 h
    simp only [capFor]
    split
    · refine ih (cap <<< 1) ?_ ?_
      · rw [Nat.shiftLeft_eq]
        omega
      · rw [Nat.shiftLeft_eq]
        omega
    · omega

/-- The loop doubles only what is too small. -/
theorem capFor_least (expected : Nat) : ∀ n b, ∃ b', b ≤ b' ∧ capFor expected n (2 ^ b) = 2 ^ b' ∧
    (b < b' → 2 ^ (b' - 1) * 3 < expected * 4) := by
  intro n
  induction n with
  | zero => intro b; exact ⟨b, Nat.le_refl b, rfl, fun h => absurd h (Nat.lt_irrefl b)⟩
  | succ n ih =>
    intro b
    by_cases hlt : 2 ^ b * 3 < expected * 4
    · obtain ⟨b', hb, heq, hleast⟩ := ih (b + 1)
      simp only [capFor, if_pos hlt]
      rw [Nat.shiftLeft_eq, ← Nat.pow_add]
      refine ⟨b', by omega, heq, fun _ => ?_⟩
      by_cases hnext : b + 1 < b'
      · exact hleast hnext
      · rw [show b' - 1 = b by omega]
        exact hlt
    · simp only [capFor, if_neg hlt]
      exact ⟨b, Nat.le_refl b, rfl, fun h => absurd h (Nat.lt_irrefl b)⟩

/-- The capacity chosen is the first power of two, from 16 on, with room for three quarters. -/
theorem make_capacity (expected : Nat) : ∃ b, 4 ≤ b ∧ (make expected : FlatPtrMap V).capacity = 2 ^ b ∧
    expected * 4 ≤ 2 ^ b * 3 ∧ (4 < b → 2 ^ (b - 1) * 3 < expected * 4) := by
  obtain ⟨b, hb, heq, hleast⟩ := capFor_least expected expected 4
  have hfits := capFor_fits expected expected (2 ^ 4) (by decide) (by omega)
  have hpos := Nat.two_pow_pos b
  rw [heq] at hfits
  refine ⟨b, hb, ?_, hfits, hleast⟩
  show capFor expected expected (2 ^ 4) - 1 + 1 = 2 ^ b
  rw [heq]
  omega

theorem tight_iff (expected : Nat) : Tight expected ↔ expected * 4 = (make expected : FlatPtrMap V).capacity * 3 := by
  obtain ⟨b, hb, hcap, hfits, hleast⟩ := make_capacity (V := V) expected
  rw [hcap]
  constructor
  · intro ⟨j, hj, hn⟩
    have hquad : expected * 4 = 2 ^ (j + 2) * 3 := by
      rw [hn, Nat.pow_add]
      omega
    have hle : j + 2 ≤ b := by
      rw [hquad] at hfits
      exact (Nat.pow_le_pow_iff_right (by decide)).mp (Nat.le_of_mul_le_mul_right hfits (by decide))
    have hge : b ≤ j + 2 := by
      by_contra hlt
      have hless := hleast (by omega)
      rw [hquad] at hless
      have := (Nat.pow_lt_pow_iff_right (by decide)).mp (Nat.lt_of_mul_lt_mul_right hless)
      omega
    rw [hquad, Nat.le_antisymm hle hge]
  · intro h
    refine ⟨b - 2, by omega, ?_⟩
    obtain ⟨k, rfl⟩ : ∃ k, b = k + 2 := ⟨b - 2, by omega⟩
    rw [Nat.pow_add] at h
    rw [Nat.add_sub_cancel]
    omega

end FlatPtrMap

/-! ## A command -/

namespace FlatEngine

variable {a b : FlatEngine} {c cmd : Command} {fillable : Bool} {o : OrderInfo}

theorem Enters.cap_eq (h : a.Enters fillable cmd b c) : b.cap = a.cap := by
  cases h with
  | new type live passes => rfl
  | again o found type sized moves passes => rfl

theorem Enters.named (h : a.Enters fillable cmd b c) (hi : a.Inv) (hn : a.Named) : b.Named := by
  cases h with
  | new type live passes => exact hn
  | again o found type sized moves passes => exact hn.drop (hi.mem_side (Flat.find_some found).2.1)

theorem settles_cap {a' : FlatEngine} (h : Settles b c a') (hno : ∀ o, b.lands fillable c ≠ some o)
    (hp : b.Passes fillable c) : a'.cap = b.cap := by
  cases h with
  | filled done => rfl
  | canceled reason open_ why => rfl
  | rested open_ kind room => exact absurd (hp.landing open_ kind room).lands_eq (hno _)

/-- Only an order that comes to rest goes into the index. -/
theorem dispatch_cap (hno : ∀ b c o, a.Enters fillable cmd b c → b.lands fillable c ≠ some o) :
    (a.dispatch fillable cmd).cap = a.cap := by
  have ho := dispatch_outcome a fillable cmd
  generalize a.dispatch fillable cmd = a' at ho ⊢
  cases ho with
  | refused r why => rfl
  | admitted type live passes =>
    exact settles_cap (accepted_settles a cmd) (fun o => hno a cmd o (.new type live passes)) passes
  | canceled o found why => rfl
  | replaced o found type sized keeps => rfl
  | requeued o found type sized moves passes =>
    have hin : a.Enters fillable cmd (a.withFlat (a.drop o)) (replacement cmd o) := .again o found type sized moves passes
    have hcap := settles_cap (accepted_settles (a.withFlat (a.drop o)) (replacement cmd o)) (fun x => hno _ _ x hin) passes
    exact hcap
  | lost o found type sized moves r refusal => rfl

/-- The index grows for the order that takes the last slot, and only where the capacity is
    tight. -/
theorem Landing.cap_iff {k : Nat} (h : Landing b fillable c (b.afterMatch c).toFlat o) (hn : b.Named)
    (hfits : b.cfg.maxOrders * 4 ≤ b.cap * 3) (hpos : 0 < b.cap)
    (hk : k = (b.side c.side).length + ((b.side (opposite c.side)).dropWhile (reaches (incomingOrder c 0))).length) :
    ((b.afterMatch c).place o).cap = b.cap ↔ ¬ (b.cfg.maxOrders * 4 = b.cap * 3 ∧ k + 1 = b.cfg.maxOrders) := by
  have hopen : (b.matching c).inc.remaining ≠ 0 := by
    rw [← h.matched]
    exact h.opened.1
  have hsize : (b.afterMatch c).size = k := by
    rw [(named_afterMatch hn c).size, afterMatch_open hopen, hk]
  have hroom := h.room
  rw [afterMatch_open hopen, ← hk] at hroom
  have hcap : (b.afterMatch c).cap = b.cap := rfl
  have hfull : (b.afterMatch c).full = true ↔ b.cap * 3 ≤ (k + 1) * 4 := by
    unfold Flat.full
    rw [hsize, hcap, decide_eq_true_iff]
  show (if (b.afterMatch c).full then 2 * (b.afterMatch c).cap else (b.afterMatch c).cap) = b.cap ↔ _
  rw [hcap]
  by_cases hf : (b.afterMatch c).full = true
  · rw [if_pos hf]
    have hle := hfull.mp hf
    constructor
    · intro he
      omega
    · intro hne
      exact absurd ⟨by omega, by omega⟩ hne
  · rw [if_neg hf]
    have hle := mt hfull.mpr hf
    constructor
    · intro _ hbad
      omega
    · intro _
      rfl

end FlatEngine

/-! ## The engine -/

variable {B : Type} [Book B] [LawfulBook B] {e e' : Engine B} {a : FlatEngine} {cmd : Command} {cfg : EngineConfig}

/-- `cmd` leaves an order to rest in the last free slot of the pool. -/
def Engine.TakesLast (e : Engine B) (cmd : Command) : Prop :=
  ∃ c, e.Enters cmd c ∧ e.Lands cmd c ∧
    (e.standing cmd c.side).length + ((e.facing c).dropWhile (reaches (incomingOrder c 0))).length + 1 = e.cfg.maxOrders

theorem Refines.capacity_eq (h : Refines e a) : e.index.capacity = a.cap := by
  obtain ⟨T, hrep⟩ := h.rep
  exact hrep.cap

theorem Simulates.cap_process (h : Simulates e a) (hn : a.Named) (hcap : a.cap = FlatEngine.initCap a.cfg) (cmd : Command) :
    (a.process (e.fillable cmd) cmd).cap = a.cap ↔ ¬ (Tight e.cfg.maxOrders ∧ e.TakesLast cmd) := by
  rcases h.landing_cases cmd with ⟨b, c, o, hin, hl, hflat, hlands, hstanding, hfacing⟩ | ⟨hno, hnone, _⟩
  · obtain ⟨w, hw, hwcap, hfits, _⟩ := FlatPtrMap.make_capacity (V := Option Ptr) a.cfg.maxOrders
    have hbcfg : b.cfg = a.cfg := hin.vars.2
    have hbcap : b.cap = a.cap := hin.cap_eq
    have hmake : (FlatPtrMap.make a.cfg.maxOrders : FlatPtrMap (Option Ptr)).capacity = a.cap := hcap.symm
    rw [hmake] at hwcap
    have hpos := Nat.two_pow_pos w
    have hlanded := hl.cap_iff (hin.named (h.start 0 cmd).inv hn) (by rw [hbcfg, hbcap, hwcap]; exact hfits) (by omega) rfl
    rw [hflat, ← hbcap, hlanded, hbcfg, hbcap, FlatPtrMap.tight_iff (V := Option Ptr), h.refines.cfg, hmake]
    refine not_congr (and_congr_right fun _ => ?_)
    constructor
    · intro hlast
      obtain ⟨hc, hland⟩ := (hlands c).mpr rfl
      refine ⟨c, hc, hland, ?_⟩
      rw [hstanding, hfacing, h.refines.cfg]
      exact hlast
    · intro ⟨c', hc', hl', hlast⟩
      obtain rfl := (hlands c').mp ⟨hc', hl'⟩
      rw [hstanding, hfacing, h.refines.cfg] at hlast
      exact hlast
  · refine ⟨fun _ ⟨_, c, hc, hlands, _⟩ => hno c hc hlands, fun _ => ?_⟩
    rw [(FlatEngine.process_eq a (e.fillable cmd) cmd).1]
    exact FlatEngine.dispatch_cap hnone

/-- Along a run with non-zero ids the index keeps the capacity the constructor chose exactly
    when no order takes the last slot of a pool of tight size. -/
theorem capacity_kept_iff {e0 : Engine B} {is : List Engine.Input} (h0 : Engine.init cfg = some e0)
    (his : ∀ i ∈ is, i.Obeys fun cmd => ¬ cmd.Nameless) (hs : e0.steps is = some e) :
    (∀ pre e1, pre <+: is → e0.steps pre = some e1 → e1.index.capacity = e0.index.capacity) ↔
      e0.Meets (fun e cmd => ¬ (Tight e.cfg.maxOrders ∧ e.TakesLast cmd)) is := by
  have hinit := init_simulates h0
  have hcap0 : e0.index.capacity = FlatEngine.initCap cfg := hinit.refines.capacity_eq
  refine @meets_iff _ _ _ _ _ (fun a => a.cfg = cfg ∧ a.Named) (fun cmd => ¬ cmd.Nameless) ?_
    (fun a fillable i hi ha hok => ⟨(a.step_cfg fillable i).trans ha.1, FlatEngine.named_step hi ha.2 fillable hok⟩)
    (fun e b he => he) is e0 e _ his hinit ⟨rfl, fun o ho => absurd ho List.not_mem_nil, rfl⟩ rfl hs
  intro e e' a now cmd _ hsim ha hcap hp
  have hsim' := (process_refines hsim now cmd).2 e' hp
  have hacap : a.cap = FlatEngine.initCap a.cfg := by
    rw [← hsim.refines.capacity_eq, hcap, hcap0, ha.1]
  rw [hsim'.refines.capacity_eq, ← hsim.cap_process ha.2 hacap, ← hcap, hsim.refines.capacity_eq]

/-- Eleven bids and an offer that they fill: a pool of twelve with a place left. -/
def roomLeft : List Engine.Input :=
  ((List.range 11).map fun k => .command 0 (.makeNew (UInt64.ofNat (k + 1)) 7 .buy .limit 100 5 0)) ++
    [.command 0 (.makeNew 12 8 .sell .limit 100 7 0)]

theorem capacity_kept_iff_tight : ∃ e0 e : Engine OrderBook,
    Engine.init { minPrice := 1, maxPrice := 500, maxOrders := 12 } = some e0 ∧ e0.steps roomLeft = some e ∧
      Tight e.cfg.maxOrders ∧ (∀ pre e1, pre <+: roomLeft → e0.steps pre = some e1 → e1.index.capacity = e0.index.capacity) ∧
      e0.Meets (fun e cmd => ¬ (Tight e.cfg.maxOrders ∧ e.TakesLast cmd)) roomLeft := by
  have key : (do
      let e0 ← Engine.init (B := OrderBook) { minPrice := 1, maxPrice := 500, maxOrders := 12 }
      let e ← e0.steps roomLeft
      some (decide (e.cfg.maxOrders = 12 ∧
        ∀ n ∈ List.range 13, (e0.steps (roomLeft.take n)).map (·.index.capacity) = some e0.index.capacity))) = some true := by
    decide +kernel
  obtain ⟨e0, h0, key⟩ := Option.bind_eq_some_iff.mp key
  obtain ⟨e, he, key⟩ := Option.bind_eq_some_iff.mp key
  obtain ⟨hcfg, hkept⟩ := of_decide_eq_true (Option.some.inj key)
  have hall : ∀ pre e1, pre <+: roomLeft → e0.steps pre = some e1 → e1.index.capacity = e0.index.capacity := by
    intro pre e1 hpre h1
    have hcap := hkept pre.length (List.mem_range.mpr (Nat.lt_succ_of_le hpre.length_le))
    rw [← List.prefix_iff_eq_take.mp hpre, h1] at hcap
    exact Option.some.inj hcap
  exact ⟨e0, e, h0, he, ⟨2, by decide, hcfg⟩, hall, (capacity_kept_iff h0 (by decide) he).mp hall⟩

/-- A pool of twelve, filled with bids: the twelfth makes the index grow. -/
theorem last_slot_rehashes : ¬ ∀ (e0 e : Engine OrderBook),
    Engine.init { minPrice := 1, maxPrice := 500, maxOrders := 12 } = some e0 →
    e0.steps ((List.range 12).map fun k => .command 0 (.makeNew (UInt64.ofNat (k + 1)) 7 .buy .limit 100 5 0)) = some e →
    e.index.capacity = e0.index.capacity := by
  intro h
  obtain ⟨e0, h0⟩ := @init_defined OrderBook _ { minPrice := 1, maxPrice := 500, maxOrders := 12 } _ rfl
  obtain ⟨e, he, hs, _⟩ := @run_flat OrderBook _ _ e0 _
    ((List.range 12).map fun k => .command 0 (.makeNew (UInt64.ofNat (k + 1)) 7 .buy .limit 100 5 0)) h0 (by decide)
  have hkept := h e0 e h0 ((run_eq_steps h0 _).symm.trans he)
  rw [hs.refines.capacity_eq, (init_simulates h0).refines.capacity_eq] at hkept
  exact absurd hkept (by decide +kernel)

end Lob
