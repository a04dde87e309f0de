/-
  Lob.Laws.Lookup — the index is a finite map, over any sequence of calls.

  `latest k past` is what the history says of a key: the value of its latest insert, unless
  an erase came after. `find_latest` reads every call's answer off the history, for any
  hash and any expected size, and says that every probe loop ends: a slot is always empty.
-/

import Lob.Index.FlatPtrMapProofs
import Mathlib.Data.Finset.Card

namespace Lob.FlatPtrMap

variable {V : Type}

/-! ## Histories -/

inductive Op (V : Type) where
  | insert (key : UInt64) (value : V)
  | find (key : UInt64)
  | erase (key : UInt64)

def Op.key : Op V → UInt64
  | .insert k _ => k
  | .find k => k
  | .erase k => k

/-- The value of the latest insert of `k` that no erase of `k` follows; the calls are newest first. -/
def latest (k : UInt64) : List (Op V) → Option V
  | [] => none
  | .insert k' v :: past => if k' = k then some v else latest k past
  | .find _ :: past => latest k past
  | .erase k' :: past => if k' = k then none else latest k past

/-- The keys a history leaves in the map. -/
def present (past : List (Op V)) : Finset UInt64 :=
  (past.map Op.key).toFinset.filter fun k => (latest k past).isSome

theorem latest_key {k : UInt64} {v : V} {past : List (Op V)} (h : latest k past = some v) :
    k ∈ past.map Op.key := by
  induction past with
  | nil => cases h
  | cons op past ih =>
    rw [List.map_cons, List.mem_cons]
    cases op with
    | insert k' v' =>
      by_cases e : k' = k
      · exact Or.inl e.symm
      · exact Or.inr (ih ((if_neg e).symm.trans h))
    | find k' => exact Or.inr (ih h)
    | erase k' =>
      by_cases e : k' = k
      · exact Or.inl e.symm
      · exact Or.inr (ih ((if_neg e).symm.trans h))

theorem mem_present {past : List (Op V)} {k : UInt64} : k ∈ present past ↔ ∃ v, latest k past = some v := by
  rw [present, Finset.mem_filter, List.mem_toFinset, Option.isSome_iff_exists]
  constructor
  · exact fun h => h.2
  · intro h
    obtain ⟨v, hv⟩ := h
    exact ⟨latest_key hv, v, hv⟩

/-! ## Calls -/

section
variable [Inhabited V] (hash : UInt64 → UInt64)

def call (m : FlatPtrMap V) : Op V → Option (FlatPtrMap V)
  | .insert k v => insert hash m k v
  | .find k => (find hash m k).map fun _ => m
  | .erase k => (erase hash m k).map Prod.fst

def calls (m : FlatPtrMap V) (ops : List (Op V)) : Option (FlatPtrMap V) := ops.foldlM (call hash) m

end

/-- The table stands for its history. -/
structure Refines (hash : UInt64 → UInt64) (m : FlatPtrMap V) (past : List (Op V)) : Prop where
  ok : Ok hash m
  size : m.size = (keys m).card
  holds : ∀ k v, k ≠ 0 → (Holds m k v ↔ latest k past = some v)

variable {hash : UInt64 → UInt64} {m : FlatPtrMap V} {past : List (Op V)}

theorem Refines.keys_eq (h : Refines hash m past) (h0 : ∀ op ∈ past, op.key ≠ 0) : keys m = present past := by
  ext k
  rw [mem_keys, mem_present]
  constructor
  · intro hk
    obtain ⟨hk, v, hv⟩ := hk
    exact ⟨v, (h.holds k v hk).mp hv⟩
  · intro hk
    obtain ⟨v, hv⟩ := hk
    obtain ⟨op, hop, e⟩ := List.mem_map.mp (latest_key hv)
    have hk : k ≠ 0 := e ▸ h0 op hop
    exact ⟨hk, v, (h.holds k v hk).mpr hv⟩

theorem Refines.not_holds (h : Refines hash m past) {k : UInt64} (hk : k ≠ 0) (hno : latest k past = none) (v : V) :
    ¬ Holds m k v := by
  intro hv
  rw [h.holds k v hk, hno] at hv
  cases hv

section
variable [Inhabited V]

theorem Refines.make (hash : UInt64 → UInt64) (expected : Nat) : Refines hash (make expected : FlatPtrMap V) [] := by
  have hno : ∀ k v, k ≠ 0 → ¬ Holds (FlatPtrMap.make expected : FlatPtrMap V) k v := fun k v hk =>
    not_holds_make expected hk v
  refine ⟨make_ok hash expected, ?_, fun k v hk => ?_⟩
  · have hkeys : keys (FlatPtrMap.make expected : FlatPtrMap V) = ∅ := by
      ext k
      rw [mem_keys]
      refine iff_of_false (fun hk => ?_) (Finset.notMem_empty k)
      obtain ⟨hk, v, hv⟩ := hk
      exact hno k v hk hv
    rw [hkeys]
    rfl
  · exact iff_of_false (hno k v hk) (by simp [latest])

theorem Refines.insert (h : Refines hash m past) {k : UInt64} (v : V) (hk : k ≠ 0) :
    ∃ m', insert hash m k v = some m' ∧ Refines hash m' (.insert k v :: past) := by
  have hlatest : ∀ m' : FlatPtrMap V,
      (∀ k' v', k' ≠ 0 → (Holds m' k' v' ↔ if k' = k then v' = v else Holds m k' v')) →
      ∀ k' v', k' ≠ 0 → (Holds m' k' v' ↔ latest k' (.insert k v :: past) = some v') := by
    intro m' hm' k' v' h0
    rw [hm' k' v' h0, latest]
    by_cases e : k' = k
    · rw [if_pos e, if_pos e.symm, Option.some.injEq]
      exact eq_comm
    · rw [if_neg e, if_neg (Ne.symm e)]
      exact h.holds k' v' h0
  have hsz : (if full m then (keys m).card else m.size) = (keys m).card := by
    split
    · rfl
    · exact h.size
  cases hl : latest k past with
  | none =>
    have hno := h.not_holds hk hl
    obtain ⟨m', e, hok, _, hsize, hholds⟩ := insert_spec h.ok v hk hno
    refine ⟨m', e, hok, ?_, hlatest m' hholds⟩
    rw [hsize, hsz, card_keys_insert hk hno hholds]
  | some w =>
    have hw : Holds m k w := (h.holds k w hk).mpr hl
    obtain ⟨m', e, hok, hsize, hholds⟩ := insert_present_spec h.ok v hk hw
    refine ⟨m', e, hok, ?_, hlatest m' hholds⟩
    rw [hsize, hsz, keys_insert_present hw hholds]

theorem Refines.find (h : Refines hash m past) {k : UInt64} (hk : k ≠ 0) :
    find hash m k = some ((latest k past).getD default) := by
  cases hl : latest k past with
  | none => exact find_of_not_holds h.ok (Or.inr (h.not_holds hk hl))
  | some w => exact find_of_holds h.ok hk ((h.holds k w hk).mpr hl)

theorem Refines.erase (h : Refines hash m past) {k : UInt64} (hk : k ≠ 0) :
    ∃ m', erase hash m k = some (m', (latest k past).isSome) ∧ Refines hash m' (.erase k :: past) := by
  cases hl : latest k past with
  | none =>
    refine ⟨m, erase_of_not_holds h.ok (Or.inr (h.not_holds hk hl)), h.ok, h.size, fun k' v' h0 => ?_⟩
    rw [h.holds k' v' h0, latest]
    split
    · rename_i e
      rw [← e, hl]
    · rfl
  | some w =>
    obtain ⟨m', e, hok, _, hsize, hcard, hholds⟩ := erase_spec h.ok hk ((h.holds k w hk).mpr hl)
    have hs := h.size
    refine ⟨m', e, hok, by omega, fun k' v' h0 => ?_⟩
    rw [hholds k' v' h0, latest]
    by_cases e : k' = k
    · rw [if_pos e.symm]
      exact iff_of_false (fun hc => hc.1 e) (by simp)
    · rw [if_neg (Ne.symm e), h.holds k' v' h0]
      exact and_iff_right e

/-! ## Runs -/

theorem Refines.call (h : Refines hash m past) {op : Op V} (h0 : op.key ≠ 0) :
    ∃ m', call hash m op = some m' ∧ Refines hash m' (op :: past) := by
  cases op with
  | insert k v => exact h.insert v h0
  | find k =>
    refine ⟨m, ?_, h.ok, h.size, h.holds⟩
    have e := h.find (k := k) h0
    rw [FlatPtrMap.call, e, Option.map_some]
  | erase k =>
    obtain ⟨m', e, hm'⟩ := h.erase (k := k) h0
    refine ⟨m', ?_, hm'⟩
    rw [FlatPtrMap.call, e, Option.map_some]

theorem Refines.calls {ops : List (Op V)} (h : Refines hash m past) (h0 : ∀ op ∈ ops, op.key ≠ 0) :
    ∃ m', calls hash m ops = some m' ∧ Refines hash m' (ops.reverse ++ past) := by
  induction ops generalizing m past with
  | nil => exact ⟨m, rfl, h⟩
  | cons op ops ih =>
    obtain ⟨m₁, e₁, h₁⟩ := h.call (h0 op (List.mem_cons_self ..))
    obtain ⟨m₂, e₂, h₂⟩ := ih h₁ fun op hop => h0 op (List.mem_cons_of_mem _ hop)
    refine ⟨m₂, ?_, ?_⟩
    · rw [FlatPtrMap.calls, List.foldlM_cons, e₁]
      exact e₂
    · rw [List.reverse_cons, List.append_assoc]
      exact h₂

/-- After any calls with non-zero keys the table answers as its history does, its size is the
    number of keys present, and the next call ends: some slot is empty. -/
theorem find_latest (hash : UInt64 → UInt64) (expected : Nat) (ops : List (Op V)) (h0 : ∀ op ∈ ops, op.key ≠ 0) :
    ∃ m, calls hash (make expected) ops = some m ∧
      (∀ k, k ≠ 0 → FlatPtrMap.find hash m k = some ((latest k ops.reverse).getD default)) ∧
      (∀ k, k ≠ 0 → ∃ m', FlatPtrMap.erase hash m k = some (m', (latest k ops.reverse).isSome)) ∧
      (∀ k v, k ≠ 0 → ∃ m', FlatPtrMap.insert hash m k v = some m') ∧
      m.size = (present ops.reverse).card ∧
      ∃ i < m.capacity, (m.slots i).key = 0 := by
  obtain ⟨m, e, h⟩ := (Refines.make hash expected).calls h0
  rw [List.append_nil] at h
  refine ⟨m, e, fun k hk => h.find hk, fun k hk => ?_, fun k v hk => ?_, ?_, ?_⟩
  · obtain ⟨m', e', _⟩ := h.erase hk
    exact ⟨m', e'⟩
  · obtain ⟨m', e', _⟩ := h.insert v hk
    exact ⟨m', e'⟩
  · rw [h.size, h.keys_eq fun op hop => h0 op (List.mem_reverse.mp hop)]
  · obtain ⟨z, hz, e⟩ := h.ok.exists_empty
    exact ⟨z, hz, keyAt_eq_none.mp e⟩

/-- Three keys with one home, the first erased: the others move back and are still found. -/
theorem find_latest_shifted : ∃ m : FlatPtrMap Nat,
    calls (fun _ => 15) (make 0) [.insert 1 10, .insert 2 20, .insert 3 30, .erase 1] = some m ∧
      FlatPtrMap.find (fun _ => 15) m 3 = some 30 ∧ m.size = 2 := by
  obtain ⟨m, e, hf, _, _, hs, _⟩ := find_latest (V := Nat) (fun _ => 15) 0
    [.insert 1 10, .insert 2 20, .insert 3 30, .erase 1] (by decide)
  exact ⟨m, e, (hf 3 (by decide)).trans (by decide), hs.trans (by decide)⟩

end

end Lob.FlatPtrMap
