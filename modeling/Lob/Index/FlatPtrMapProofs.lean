/-
  Lob.Index.FlatPtrMapProofs — the index is a finite map on its non-zero keys.

  `Holds m k v`: some slot holds the entry `k ↦ v`. Under `Ok`, for any hash:
  - `find_of_holds`, `find_of_not_holds`, `find_zero`;
  - `insert_spec`, `insert_zero_spec`;
  - `erase_spec`, `erase_of_not_holds`.
  Each says that the loops end. Key 0 marks an empty slot: inserting it counts an entry
  that no lookup finds and no erase takes away.
-/

import Lob.Base.Cyclic
import Lob.Base.Probe
import Lob.Index.FlatPtrMap
import Mathlib.Data.Finset.Card
import Mathlib.Data.Finset.Image
import Mathlib.Data.Nat.Bitwise

namespace Lob.FlatPtrMap

open Lob.Base.Cyclic Lob.Base.Probe

variable {V : Type}

/-! ## Tables -/

def keyAt (slots : Nat → Slot V) (i : Nat) : Option UInt64 := if (slots i).key = 0 then none else some (slots i).key

def Holds (m : FlatPtrMap V) (k : UInt64) (v : V) : Prop := ∃ j < m.mask + 1, m.slots j = ⟨k, v⟩

def keys (m : FlatPtrMap V) : Finset UInt64 := ((Finset.range (m.mask + 1)).image fun j => (m.slots j).key).erase 0

structure Ok (hash : UInt64 → UInt64) (m : FlatPtrMap V) : Prop where
  cap : ∃ n, m.mask + 1 = 2 ^ n
  two : 2 ≤ m.mask + 1
  clustered : Clustered (home hash m.mask) (m.mask + 1) (keyAt m.slots)
  distinct : ∀ i < m.mask + 1, ∀ j < m.mask + 1, ∀ k, keyAt m.slots i = some k → keyAt m.slots j = some k → i = j
  load : m.size * 4 < (m.mask + 1) * 3
  used : (keys m).card ≤ m.size

@[simp] theorem keyAt_eq_none {slots : Nat → Slot V} {i : Nat} : keyAt slots i = none ↔ (slots i).key = 0 := by
  unfold keyAt; split <;> simp_all

theorem keyAt_eq_some {slots : Nat → Slot V} {i : Nat} {k : UInt64} :
    keyAt slots i = some k ↔ (slots i).key = k ∧ k ≠ 0 := by
  unfold keyAt
  split
  · rename_i h
    simp only [reduceCtorEq, false_iff, not_and, not_not]
    rintro rfl; exact h
  · rename_i h
    simp only [Option.some.injEq]
    constructor
    · rintro rfl; exact ⟨rfl, h⟩
    · exact fun h => h.1

theorem mem_keys {m : FlatPtrMap V} {k : UInt64} : k ∈ keys m ↔ k ≠ 0 ∧ ∃ v, Holds m k v := by
  simp only [keys, Finset.mem_erase, Finset.mem_image, Finset.mem_range, Holds]
  constructor
  · rintro ⟨h0, j, hj, rfl⟩; exact ⟨h0, (m.slots j).value, j, hj, rfl⟩
  · rintro ⟨h0, v, j, hj, he⟩; exact ⟨h0, j, hj, by rw [he]⟩

theorem keyAt_update (slots : Nat → Slot V) (e : Nat) (s : Slot V) :
    keyAt (Function.update slots e s) = Function.update (keyAt slots) e (if s.key = 0 then none else some s.key) := by
  funext j
  by_cases h : j = e
  · subst h; simp [keyAt]
  · simp [keyAt, Function.update_of_ne h]

variable {hash : UInt64 → UInt64} {m : FlatPtrMap V}

theorem Ok.and_mask (hm : Ok hash m) (i : Nat) : i &&& m.mask = i % (m.mask + 1) := by
  obtain ⟨n, hn⟩ := hm.cap; exact Base.Cyclic.and_mask hn i

theorem Ok.home_lt (hm : Ok hash m) (k : UInt64) : home hash m.mask k < m.mask + 1 := by
  unfold home; rw [hm.and_mask]; exact Nat.mod_lt _ (by omega)

theorem Ok.holds_unique (hm : Ok hash m) {k : UInt64} {v w : V} (h0 : k ≠ 0) (hv : Holds m k v) (hw : Holds m k w) :
    v = w := by
  obtain ⟨i, hi, ei⟩ := hv
  obtain ⟨j, hj, ej⟩ := hw
  have := hm.distinct i hi j hj k (keyAt_eq_some.mpr ⟨by rw [ei], h0⟩) (keyAt_eq_some.mpr ⟨by rw [ej], h0⟩)
  subst this
  rw [ei] at ej; cases ej; rfl

/-- Fewer keys than slots: an empty slot is left. -/
theorem exists_empty {slots : Nat → Slot V} {c : Nat}
    (hd : ∀ i < c, ∀ j < c, ∀ k, keyAt slots i = some k → keyAt slots j = some k → i = j)
    (hc : (((Finset.range c).image fun j => (slots j).key).erase 0).card < c) : ∃ z < c, keyAt slots z = none := by
  apply Classical.byContradiction
  intro hno
  have hne : ∀ z < c, (slots z).key ≠ 0 := fun z hz h => hno ⟨z, hz, keyAt_eq_none.mpr h⟩
  have := Finset.card_le_card_of_injOn (s := Finset.range c)
    (t := ((Finset.range c).image fun j => (slots j).key).erase 0) (fun j => (slots j).key)
    (fun j hj => by
      have hj := Finset.mem_range.mp hj
      exact Finset.mem_erase.mpr ⟨hne j hj, Finset.mem_image.mpr ⟨j, Finset.mem_range.mpr hj, rfl⟩⟩)
    (fun i hi j hj e => by
      have hi := Finset.mem_range.mp hi
      have hj := Finset.mem_range.mp hj
      exact hd i hi j hj _ (keyAt_eq_some.mpr ⟨rfl, hne i hi⟩) (keyAt_eq_some.mpr ⟨e.symm, hne i hi⟩))
  rw [Finset.card_range] at this
  omega

theorem Ok.exists_empty (hm : Ok hash m) : ∃ z < m.mask + 1, keyAt m.slots z = none := by
  refine FlatPtrMap.exists_empty hm.distinct ?_
  have := hm.used; have := hm.load; have := hm.two
  unfold keys at *
  omega

/-! ## Probing -/

/-- The probe from `i` stops within reach of an empty slot, past taken slots of other keys. -/
theorem probe_spec (hc : ∃ n, m.mask + 1 = 2 ^ n) (k : UInt64) {z : Nat} (hz : z < m.mask + 1)
    (hn : keyAt m.slots z = none) :
    ∀ (n i : Nat), i < m.mask + 1 → dist (m.mask + 1) i z < n →
      ∃ j < m.mask + 1, probe m k n i = some j ∧ (keyAt m.slots j = none ∨ (m.slots j).key = k) ∧
        ∀ d < dist (m.mask + 1) i j, ∃ k', keyAt m.slots ((i + d) % (m.mask + 1)) = some k' ∧ k' ≠ k := by
  intro n
  induction n with
  | zero => intro i _ h; omega
  | succ n ih =>
    intro i hi hd
    simp only [probe]
    split
    · rename_i h0
      exact ⟨i, hi, rfl, Or.inl (keyAt_eq_none.mpr h0), fun d hd => by rw [dist_self hi] at hd; omega⟩
    rename_i h0
    split
    · rename_i hk
      exact ⟨i, hi, rfl, Or.inr hk, fun d hd => by rw [dist_self hi] at hd; omega⟩
    rename_i hk
    obtain ⟨b, hb⟩ := hc
    rw [and_mask hb]
    have hi' : (i + 1) % (m.mask + 1) < m.mask + 1 := Nat.mod_lt _ (by omega)
    have hiz : i ≠ z := fun e => h0 (keyAt_eq_none.mp (e ▸ hn))
    have hpred := dist_pred hi hz hiz
    obtain ⟨j, hj, hp, hjk, hpath⟩ := ih _ hi' (by omega)
    refine ⟨j, hj, hp, hjk, fun d hdj => ?_⟩
    rcases d with _ | d
    · rw [Nat.add_zero, Nat.mod_eq_of_lt hi]
      exact ⟨_, keyAt_eq_some.mpr ⟨rfl, h0⟩, hk⟩
    · by_cases hij : i = j
      · subst hij; rw [dist_self hi] at hdj; omega
      have := dist_pred hi hj hij
      have := hpath d (by omega)
      rwa [Nat.mod_add_mod, Nat.add_assoc, Nat.add_comm 1 d] at this

theorem Ok.seek_spec (hm : Ok hash m) (k : UInt64) :
    ∃ j < m.mask + 1, seek hash m k = some j ∧ (keyAt m.slots j = none ∨ (m.slots j).key = k) ∧
      Path (m.mask + 1) (keyAt m.slots) (home hash m.mask k) j ∧
      ∀ i < m.mask + 1, keyAt m.slots i = some k → j = i := by
  obtain ⟨z, hz, hn⟩ := hm.exists_empty
  have hh := hm.home_lt k
  obtain ⟨j, hj, hp, hjk, hpath⟩ := probe_spec hm.cap k hz hn (m.mask + 1) _ hh (dist_lt hh)
  refine ⟨j, hj, hp, hjk, fun d hd => ?_, fun i hi hk => ?_⟩
  · obtain ⟨k', hk', _⟩ := hpath d hd
    rw [hk']; exact Option.some_ne_none k'
  · rcases Nat.lt_trichotomy (dist (m.mask + 1) (home hash m.mask k) j) (dist (m.mask + 1) (home hash m.mask k) i)
      with h | h | h
    · -- `j` lies on the way to `i`, so it is taken, by `k` itself
      have hne := hm.clustered i hi k hk _ h
      rw [add_dist hh hj] at hne
      rcases hjk with h0 | h1
      · exact absurd h0 hne
      · exact hm.distinct j hj i hi k (keyAt_eq_some.mpr ⟨h1, (keyAt_eq_some.mp hk).2⟩) hk
    · exact eq_of_dist_eq hh hj hi h
    · obtain ⟨k', hk', hne⟩ := hpath _ h
      rw [add_dist hh hi, hk] at hk'
      cases hk'; exact absurd rfl hne

/-! ## Where a probe ends -/

theorem Ok.seek_of_holds (hm : Ok hash m) {k : UInt64} {v : V} (h0 : k ≠ 0) (hv : Holds m k v) :
    ∃ j < m.mask + 1, seek hash m k = some j ∧ m.slots j = ⟨k, v⟩ := by
  obtain ⟨i, hi, ei⟩ := hv
  obtain ⟨j, hj, hs, _, _, hu⟩ := hm.seek_spec k
  have := hu i hi (keyAt_eq_some.mpr ⟨by rw [ei], h0⟩)
  subst this
  exact ⟨j, hj, hs, ei⟩

theorem Ok.seek_of_not_holds (hm : Ok hash m) {k : UInt64} (h : k = 0 ∨ ∀ v, ¬ Holds m k v) :
    ∃ j < m.mask + 1, seek hash m k = some j ∧ (m.slots j).key = 0 ∧
      Path (m.mask + 1) (keyAt m.slots) (home hash m.mask k) j := by
  obtain ⟨j, hj, hs, hk, hp, _⟩ := hm.seek_spec k
  refine ⟨j, hj, hs, ?_, hp⟩
  rcases hk with hk | hk
  · exact keyAt_eq_none.mp hk
  · rcases h with rfl | h
    · exact hk
    · exact absurd ⟨j, hj, by rw [← hk]⟩ (h (m.slots j).value)

/-- The map with one entry more: what an insert of a new key leaves. -/
theorem card_keys_insert {m' : FlatPtrMap V} {k : UInt64} (h0 : k ≠ 0) (hk : ∀ v, ¬ Holds m k v)
    (hm' : ∀ k' v', k' ≠ 0 → (Holds m' k' v' ↔ if k' = k then v' = v else Holds m k' v')) :
    (keys m').card = (keys m).card + 1 := by
  have : keys m' = Insert.insert k (keys m) := by
    ext k'
    rw [Finset.mem_insert, mem_keys, mem_keys]
    by_cases e : k' = k
    · subst e; simp [h0, hm' k' _ h0]
    · constructor
      · rintro ⟨hk', w, hw⟩; exact Or.inr ⟨hk', w, by simpa [hm' _ _ hk', e] using hw⟩
      · rintro (rfl | ⟨hk', w, hw⟩)
        · exact absurd rfl e
        · exact ⟨hk', w, by simpa [hm' _ _ hk', e] using hw⟩
  rw [this, Finset.card_insert_of_notMem]
  rw [mem_keys]; rintro ⟨_, w, hw⟩; exact hk w hw

/-- A new value for a key the map has. -/
theorem keys_insert_present {m' : FlatPtrMap V} {k : UInt64} {v w : V} (hk : Holds m k w)
    (hm' : ∀ k' v', k' ≠ 0 → (Holds m' k' v' ↔ if k' = k then v' = v else Holds m k' v')) : keys m' = keys m := by
  ext k'
  rw [mem_keys, mem_keys]
  refine and_congr_right fun h0 => ?_
  by_cases e : k' = k
  · subst e
    exact iff_of_true ⟨v, (hm' k' v h0).mpr (by rw [if_pos rfl])⟩ ⟨w, hk⟩
  · simp only [hm' k' _ h0, if_neg e]

/-! ## Placing -/

/-- `place` of a new key below the load bound. -/
theorem place_fresh (hm : Ok hash m) {k : UInt64} {v : V} (h0 : k ≠ 0) (hk : ∀ v, ¬ Holds m k v)
    (hl : (m.size + 1) * 4 < (m.mask + 1) * 3) :
    ∃ m', place hash m k v = some m' ∧ Ok hash m' ∧ m'.mask = m.mask ∧ m'.size = m.size + 1 ∧
      ∀ k' v', k' ≠ 0 → (Holds m' k' v' ↔ if k' = k then v' = v else Holds m k' v') := by
  obtain ⟨e, he, hs, hz, hp⟩ := hm.seek_of_not_holds (Or.inr hk)
  have hcell : ∀ j, j ≠ e → Function.update m.slots e ⟨k, v⟩ j = m.slots j := fun j h => Function.update_of_ne h _ _
  have holds : ∀ k' v', k' ≠ 0 → (Holds { m with slots := Function.update m.slots e ⟨k, v⟩, size := m.size + 1 } k' v' ↔
      if k' = k then v' = v else Holds m k' v') := by
    intro k' v' h0'
    constructor
    · rintro ⟨j, hj, ej⟩
      by_cases h : j = e
      · subst h
        simp only [Function.update_self, Slot.mk.injEq] at ej
        rw [if_pos ej.1.symm]; exact ej.2.symm
      · simp only [hcell j h] at ej
        by_cases hkk : k' = k
        · subst hkk; exact absurd ⟨j, hj, ej⟩ (hk v')
        · rw [if_neg hkk]; exact ⟨j, hj, ej⟩
    · split
      · rintro rfl; rename_i hkk; subst hkk; exact ⟨e, he, Function.update_self ..⟩
      · rintro ⟨j, hj, ej⟩
        refine ⟨j, hj, ?_⟩
        have : j ≠ e := by rintro rfl; rw [ej] at hz; exact h0' hz
        simp only [hcell j this]; exact ej
  refine ⟨{ m with slots := Function.update m.slots e ⟨k, v⟩, size := m.size + 1 }, by simp [place, hs, hz],
    ⟨hm.cap, hm.two, ?_, ?_, hl, ?_⟩, rfl, rfl, holds⟩
  · show Clustered _ _ (keyAt (Function.update m.slots e ⟨k, v⟩))
    rw [keyAt_update, if_neg h0]
    exact clustered_put hm.clustered hp
  · show ∀ i < m.mask + 1, ∀ j < m.mask + 1, ∀ k', keyAt (Function.update m.slots e ⟨k, v⟩) i = some k' →
      keyAt (Function.update m.slots e ⟨k, v⟩) j = some k' → i = j
    intro i hi j hj k' hi' hj'
    rw [keyAt_eq_some] at hi' hj'
    by_cases hie : i = e <;> by_cases hje : j = e
    · rw [hie, hje]
    · subst hie
      rw [Function.update_self] at hi'; rw [hcell j hje] at hj'
      have e' : (m.slots j).key = k := hj'.1.trans hi'.1.symm
      exact absurd ⟨j, hj, by rw [← e']⟩ (hk (m.slots j).value)
    · subst hje
      rw [Function.update_self] at hj'; rw [hcell i hie] at hi'
      have e' : (m.slots i).key = k := hi'.1.trans hj'.1.symm
      exact absurd ⟨i, hi, by rw [← e']⟩ (hk (m.slots i).value)
    · rw [hcell i hie] at hi'; rw [hcell j hje] at hj'
      exact hm.distinct i hi j hj k' (keyAt_eq_some.mpr hi') (keyAt_eq_some.mpr hj')
  · rw [card_keys_insert h0 hk holds]; exact Nat.succ_le_succ hm.used

/-- `place` of key 0 counts an entry no lookup finds. -/
theorem place_zero (hm : Ok hash m) (v : V) (hl : (m.size + 1) * 4 < (m.mask + 1) * 3) :
    ∃ m', place hash m 0 v = some m' ∧ Ok hash m' ∧ m'.mask = m.mask ∧ m'.size = m.size + 1 ∧
      ∀ k' v', k' ≠ 0 → (Holds m' k' v' ↔ Holds m k' v') := by
  obtain ⟨e, he, hs, hz, hp⟩ := hm.seek_of_not_holds (Or.inl rfl)
  have hkey : keyAt (Function.update m.slots e ⟨0, v⟩) = keyAt m.slots := by
    rw [keyAt_update, if_pos rfl, ← keyAt_eq_none.mpr hz, Function.update_eq_self]
  have holds : ∀ k' v', k' ≠ 0 →
      (Holds { m with slots := Function.update m.slots e ⟨0, v⟩, size := m.size + 1 } k' v' ↔ Holds m k' v') := by
    intro k' v' h0
    constructor <;> rintro ⟨j, hj, ej⟩
    · have : j ≠ e := by rintro rfl; simp only [Function.update_self, Slot.mk.injEq] at ej; exact h0 ej.1.symm
      exact ⟨j, hj, by simpa only [Function.update_of_ne this] using ej⟩
    · have : j ≠ e := by rintro rfl; rw [ej] at hz; exact h0 hz
      exact ⟨j, hj, by simpa only [Function.update_of_ne this] using ej⟩
  refine ⟨{ m with slots := Function.update m.slots e ⟨0, v⟩, size := m.size + 1 }, by simp [place, hs, hz],
    ⟨hm.cap, hm.two, ?_, ?_, hl, ?_⟩, rfl, rfl, holds⟩
  · show Clustered _ _ (keyAt (Function.update m.slots e ⟨0, v⟩)); rw [hkey]; exact hm.clustered
  · show ∀ i < m.mask + 1, ∀ j < m.mask + 1, ∀ k', keyAt (Function.update m.slots e ⟨0, v⟩) i = some k' → _
    rw [hkey]; exact hm.distinct
  · have : keys { m with slots := Function.update m.slots e ⟨0, v⟩, size := m.size + 1 } = keys m := by
      ext k'
      rw [mem_keys, mem_keys]
      exact and_congr_right fun h0 => exists_congr fun w => holds k' w h0
    rw [this]; exact Nat.le_succ_of_le hm.used

/-- `place` of a key the table holds replaces its value. -/
theorem place_present (hm : Ok hash m) {k : UInt64} {w : V} (v : V) (h0 : k ≠ 0) (hk : Holds m k w) :
    ∃ m', place hash m k v = some m' ∧ Ok hash m' ∧ m'.size = m.size ∧
      ∀ k' v', k' ≠ 0 → (Holds m' k' v' ↔ if k' = k then v' = v else Holds m k' v') := by
  obtain ⟨e, he, hs, hz⟩ := hm.seek_of_holds h0 hk
  have hcell : ∀ j, j ≠ e → Function.update m.slots e ⟨k, v⟩ j = m.slots j := fun j h => Function.update_of_ne h _ _
  have hkey : keyAt (Function.update m.slots e ⟨k, v⟩) = keyAt m.slots := by
    rw [keyAt_update, if_neg h0, ← (keyAt_eq_some.mpr ⟨by rw [hz], h0⟩ : keyAt m.slots e = some k), Function.update_eq_self]
  have holds : ∀ k' v', k' ≠ 0 → (Holds { m with slots := Function.update m.slots e ⟨k, v⟩ } k' v' ↔
      if k' = k then v' = v else Holds m k' v') := by
    intro k' v' h0'
    constructor
    · rintro ⟨j, hj, ej⟩
      by_cases h : j = e
      · subst h
        simp only [Function.update_self, Slot.mk.injEq] at ej
        rw [if_pos ej.1.symm]
        exact ej.2.symm
      · simp only [hcell j h] at ej
        have hne : k' ≠ k := by
          rintro rfl
          exact h (hm.distinct j hj e he k' (keyAt_eq_some.mpr ⟨by rw [ej], h0⟩) (keyAt_eq_some.mpr ⟨by rw [hz], h0⟩))
        rw [if_neg hne]
        exact ⟨j, hj, ej⟩
    · split
      · rename_i hkk
        rintro rfl
        exact ⟨e, he, by rw [hkk]; exact Function.update_self ..⟩
      · rename_i hkk
        rintro ⟨j, hj, ej⟩
        have hne : j ≠ e := by
          rintro rfl
          exact hkk (congrArg Slot.key (ej.symm.trans hz))
        exact ⟨j, hj, (hcell j hne).trans ej⟩
  have hkeys := keys_insert_present hk holds
  refine ⟨{ m with slots := Function.update m.slots e ⟨k, v⟩ }, by simp [place, hs, hz, h0],
    ⟨hm.cap, hm.two, ?_, ?_, hm.load, ?_⟩, rfl, holds⟩
  · show Clustered _ _ (keyAt (Function.update m.slots e ⟨k, v⟩))
    rw [hkey]
    exact hm.clustered
  · show ∀ i < m.mask + 1, ∀ j < m.mask + 1, ∀ k', keyAt (Function.update m.slots e ⟨k, v⟩) i = some k' → _
    rw [hkey]
    exact hm.distinct
  · rw [hkeys]
    exact hm.used

/-! ## Lookup -/

variable [Inhabited V]

theorem find_of_holds (hm : Ok hash m) {k : UInt64} {v : V} (h0 : k ≠ 0) (hv : Holds m k v) :
    find hash m k = some v := by
  obtain ⟨j, _, hs, ej⟩ := hm.seek_of_holds h0 hv
  simp [find, hs, ej, h0]

theorem find_of_not_holds (hm : Ok hash m) {k : UInt64} (h : k = 0 ∨ ∀ v, ¬ Holds m k v) :
    find hash m k = some default := by
  obtain ⟨j, _, hs, ej, _⟩ := hm.seek_of_not_holds h
  simp [find, hs, ej]

theorem find_zero (hm : Ok hash m) : find hash m 0 = some default := find_of_not_holds hm (Or.inl rfl)

/-! ## Growing -/

theorem ok_empty (hash : UInt64 → UInt64) (n : Nat) (hn : 1 ≤ n) :
    Ok hash (⟨fun _ => emptySlot, 2 ^ n - 1, 0⟩ : FlatPtrMap V) := by
  have h2 : 2 ≤ 2 ^ n := Nat.le_self_pow (by omega) 2
  have hk : ∀ i, keyAt (fun _ : Nat => (emptySlot : Slot V)) i = none := fun _ => rfl
  refine ⟨⟨n, ?_⟩, ?_, ?_, ?_, ?_, ?_⟩
  · show 2 ^ n - 1 + 1 = 2 ^ n; omega
  · show 2 ≤ 2 ^ n - 1 + 1; omega
  · intro i _ k h; rw [hk] at h; cases h
  · intro i _ j _ k h; rw [hk] at h; cases h
  · show 0 * 4 < (2 ^ n - 1 + 1) * 3; omega
  · have : keys (⟨fun _ => emptySlot, 2 ^ n - 1, 0⟩ : FlatPtrMap V) = ∅ := by
      ext k
      rw [mem_keys]
      simp only [Finset.notMem_empty, iff_false, not_and, not_exists]
      rintro h0 v ⟨j, _, e⟩
      exact h0 (Slot.mk.inj e).1.symm
    rw [this]; rfl

theorem make_ok (hash : UInt64 → UInt64) (expected : Nat) : Ok hash (make expected : FlatPtrMap V) := by
  obtain ⟨b, hb, e⟩ := doubling_pow (f := capFor expected) (fun _ => rfl) (fun _ _ => ite_eq_or_eq ..) expected 4
  have : (make expected : FlatPtrMap V) = ⟨fun _ => emptySlot, 2 ^ b - 1, 0⟩ := by rw [← e]; rfl
  rw [this]; exact ok_empty hash b (by omega)

theorem not_holds_make (expected : Nat) {k : UInt64} (h0 : k ≠ 0) (v : V) :
    ¬ Holds (make expected : FlatPtrMap V) k v := by
  rintro ⟨j, _, e⟩; exact h0 (Slot.mk.inj e).1.symm

/-- The load check of `insert`. -/
def full (m : FlatPtrMap V) : Prop := (m.size + 1) * 4 ≥ (m.mask + 1) * 3

instance : Decidable (full m) := by unfold full; infer_instance

/-- After re-inserting the first `n` slots of `m` into a table twice its size. -/
theorem grow_prefix (hm : Ok hash m) : ∀ n ≤ m.mask + 1, ∃ a,
    (List.range n).foldlM (fun a j => if (m.slots j).key ≠ 0 then
        insertDepth hash 1 a (m.slots j).key (m.slots j).value else some a)
      (⟨fun _ => emptySlot, ((m.mask + 1) <<< 1) - 1, 0⟩ : FlatPtrMap V) = some a ∧
    Ok hash a ∧ a.mask + 1 = 2 * (m.mask + 1) ∧ a.size = (keys a).card ∧
    ∀ k v, k ≠ 0 → (Holds a k v ↔ ∃ j < n, m.slots j = ⟨k, v⟩) := by
  obtain ⟨b, hb⟩ := hm.cap
  have hcap : ((m.mask + 1) <<< 1) - 1 = 2 ^ (b + 1) - 1 := by rw [hb, Nat.shiftLeft_eq, Nat.pow_one, Nat.pow_succ]
  intro n
  induction n with
  | zero =>
    intro _
    refine ⟨_, rfl, ?_, ?_, ?_, ?_⟩
    · rw [hcap]; exact ok_empty hash (b + 1) (by omega)
    · show ((m.mask + 1) <<< 1) - 1 + 1 = _; rw [Nat.shiftLeft_eq]; omega
    · have := (ok_empty (V := V) hash (b + 1) (by omega)).used
      rw [← hcap] at this
      simp only at this ⊢; omega
    · intro k v h0
      simp only [Nat.not_lt_zero, false_and, exists_const, iff_false]
      rintro ⟨j, _, e⟩
      exact h0 (Slot.mk.inj e).1.symm
  | succ n ih =>
    intro hn
    obtain ⟨a, hf, ha, hmask, hsize, hholds⟩ := ih (by omega)
    rw [List.range_succ, List.foldlM_append, hf]
    simp only [Option.bind_eq_bind, Option.bind_some, List.foldlM_cons, List.foldlM_nil]
    by_cases h0 : (m.slots n).key = 0
    · refine ⟨a, by simp [h0], ha, hmask, hsize, fun k v hk => ?_⟩
      rw [hholds k v hk]
      constructor
      · rintro ⟨j, hj, e⟩; exact ⟨j, by omega, e⟩
      · rintro ⟨j, hj, e⟩
        rcases Nat.lt_succ_iff_lt_or_eq.mp hj with hj | rfl
        · exact ⟨j, hj, e⟩
        · rw [e] at h0; exact absurd h0 hk
    -- the keys already moved are keys of `m`, so the new table stays below its load bound
    have hsub : (keys a).card ≤ (keys m).card := by
      refine Finset.card_le_card fun k hk => ?_
      rw [mem_keys] at hk ⊢
      obtain ⟨hk0, v, hv⟩ := hk
      obtain ⟨j, hj, e⟩ := (hholds k v hk0).mp hv
      exact ⟨hk0, v, j, by omega, e⟩
    have hload : (a.size + 1) * 4 < (a.mask + 1) * 3 := by
      have := hm.used; have := hm.load; have := hm.two; omega
    have hfresh : ∀ v, ¬ Holds a (m.slots n).key v := by
      intro v hv
      obtain ⟨j, hj, e⟩ := (hholds _ v h0).mp hv
      have := hm.distinct j (by omega) n (by omega) _ (keyAt_eq_some.mpr ⟨by rw [e], h0⟩) (keyAt_eq_some.mpr ⟨rfl, h0⟩)
      omega
    obtain ⟨a', hp, ha', hmask', hsize', hholds'⟩ := place_fresh ha h0 hfresh hload (v := (m.slots n).value)
    refine ⟨a', ?_, ha', by rw [hmask', hmask], ?_, fun k v hk => ?_⟩
    · have : ¬ (a.size + 1) * 4 ≥ (a.mask + 1) * 3 := by omega
      simp only [ne_eq, h0, not_false_eq_true, if_true, insertDepth, this, if_false, Option.bind_eq_bind,
        Option.bind_some, hp, Option.pure_def]
    · rw [hsize', hsize, card_keys_insert h0 hfresh hholds']
    · rw [hholds' k v hk]
      split
      · rename_i e
        constructor
        · rintro rfl; exact ⟨n, by omega, by rw [e]⟩
        · rintro ⟨j, hj, ej⟩
          have hjn := hm.distinct j (by omega) n (by omega) k (keyAt_eq_some.mpr ⟨by rw [ej], hk⟩)
            (keyAt_eq_some.mpr ⟨e.symm, hk⟩)
          subst hjn; rw [ej]
      · rename_i e
        rw [hholds k v hk]
        constructor
        · rintro ⟨j, hj, ej⟩; exact ⟨j, by omega, ej⟩
        · rintro ⟨j, hj, ej⟩
          rcases Nat.lt_succ_iff_lt_or_eq.mp hj with hj | rfl
          · exact ⟨j, hj, ej⟩
          · exact absurd (by rw [ej]) e

/-- The table `insert` places into: grown or not, it has room. -/
theorem reserve_spec (hm : Ok hash m) : ∃ a,
    (if (m.size + 1) * 4 ≥ (m.mask + 1) * 3 then growWith (insertDepth hash 1) m else some m) = some a ∧
    Ok hash a ∧ (a.size + 1) * 4 < (a.mask + 1) * 3 ∧ a.mask + 1 = (if full m then 2 * (m.mask + 1) else m.mask + 1) ∧
    a.size = (if full m then (keys m).card else m.size) ∧ ∀ k v, k ≠ 0 → (Holds a k v ↔ Holds m k v) := by
  by_cases hf : full m
  · obtain ⟨a, hg, ha, hmask, hsize, hholds⟩ := grow_prefix hm (m.mask + 1) (Nat.le_refl _)
    have hkeys : keys a = keys m := by
      ext k
      rw [mem_keys, mem_keys]
      exact and_congr_right fun h0 => exists_congr fun v => hholds k v h0
    refine ⟨a, ?_, ha, ?_, by rw [if_pos hf, hmask], by rw [if_pos hf, hsize, hkeys], hholds⟩
    · exact (if_pos hf).trans hg
    · rw [hkeys] at hsize
      have := hm.used; have := hm.load; have := hm.two; omega
  · refine ⟨m, if_neg hf, hm, ?_, by rw [if_neg hf], by rw [if_neg hf], fun _ _ _ => Iff.rfl⟩
    unfold full at hf; omega

/-! ## Insertion -/

theorem insert_eq (m : FlatPtrMap V) (k : UInt64) (v : V) : insert hash m k v =
    (if (m.size + 1) * 4 ≥ (m.mask + 1) * 3 then growWith (insertDepth hash 1) m else some m).bind
      fun a => place hash a k v := by
  unfold insert
  rw [insertDepth]
  split <;> rfl

/-- Inserting a new key. -/
theorem insert_spec (hm : Ok hash m) {k : UInt64} (v : V) (h0 : k ≠ 0) (hk : ∀ v, ¬ Holds m k v) :
    ∃ m', insert hash m k v = some m' ∧ Ok hash m' ∧
      m'.mask + 1 = (if full m then 2 * (m.mask + 1) else m.mask + 1) ∧
      m'.size = (if full m then (keys m).card else m.size) + 1 ∧
      (∀ k' v', k' ≠ 0 → (Holds m' k' v' ↔ if k' = k then v' = v else Holds m k' v')) := by
  obtain ⟨a, ha, hok, hload, hmask, hsize, hholds⟩ := reserve_spec hm
  have hk' : ∀ v, ¬ Holds a k v := fun v => by rw [hholds k v h0]; exact hk v
  obtain ⟨m', hp, hm', hmask', hsize', hholds'⟩ := place_fresh hok h0 hk' hload (v := v)
  refine ⟨m', ?_, hm', by rw [hmask', hmask], by rw [hsize', hsize], fun k' v' h => ?_⟩
  · rw [insert_eq, ha]; exact hp
  · rw [hholds' k' v' h, hholds k' v' h]

/-- Inserting a key the table holds. -/
theorem insert_present_spec (hm : Ok hash m) {k : UInt64} {w : V} (v : V) (h0 : k ≠ 0) (hk : Holds m k w) :
    ∃ m', insert hash m k v = some m' ∧ Ok hash m' ∧ m'.size = (if full m then (keys m).card else m.size) ∧
      ∀ k' v', k' ≠ 0 → (Holds m' k' v' ↔ if k' = k then v' = v else Holds m k' v') := by
  obtain ⟨a, ha, hok, _, _, hsize, hholds⟩ := reserve_spec hm
  obtain ⟨m', hp, hm', hsize', hholds'⟩ := place_present hok v h0 ((hholds k w h0).mpr hk)
  refine ⟨m', ?_, hm', hsize'.trans hsize, fun k' v' h => ?_⟩
  · rw [insert_eq, ha]
    exact hp
  · rw [hholds' k' v' h, hholds k' v' h]

/-- Inserting key 0. -/
theorem insert_zero_spec (hm : Ok hash m) (v : V) :
    ∃ m', insert hash m 0 v = some m' ∧ Ok hash m' ∧
      m'.mask + 1 = (if full m then 2 * (m.mask + 1) else m.mask + 1) ∧
      m'.size = (if full m then (keys m).card else m.size) + 1 ∧
      (∀ k' v', k' ≠ 0 → (Holds m' k' v' ↔ Holds m k' v')) := by
  obtain ⟨a, ha, hok, hload, hmask, hsize, hholds⟩ := reserve_spec hm
  obtain ⟨m', hp, hm', hmask', hsize', hholds'⟩ := place_zero hok v hload
  refine ⟨m', ?_, hm', by rw [hmask', hmask], by rw [hsize', hsize], fun k' v' h => ?_⟩
  · rw [insert_eq, ha]; exact hp
  · rw [hholds' k' v' h, hholds k' v' h]

/-! ## Deletion -/

section
variable {slots : Nat → Slot V} {c hole l : Nat}

/-- No key is in two slots, the hole aside. -/
def DistinctBut (slots : Nat → Slot V) (c hole : Nat) : Prop :=
  ∀ a < c, ∀ b < c, a ≠ hole → b ≠ hole → ∀ k, keyAt slots a = some k → keyAt slots b = some k → a = b

theorem keyAt_cleared : keyAt (Function.update slots hole emptySlot) hole = none := by
  rw [keyAt_update, Function.update_self]
  exact if_pos rfl

omit [Inhabited V] in
theorem keyAt_of_ne (x : Slot V) {a : Nat} (h : a ≠ hole) : keyAt (Function.update slots hole x) a = keyAt slots a := by
  rw [keyAt_update, Function.update_of_ne h]

theorem DistinctBut.clear (h : DistinctBut slots c hole) : ∀ a < c, ∀ b < c, ∀ k,
    keyAt (Function.update slots hole emptySlot) a = some k → keyAt (Function.update slots hole emptySlot) b = some k → a = b := by
  have hne : ∀ a k, keyAt (Function.update slots hole emptySlot) a = some k → a ≠ hole := by
    intro a k ha e
    rw [e, keyAt_cleared] at ha
    cases ha
  intro a ha b hb k hka hkb
  have hah := hne a k hka
  have hbh := hne b k hkb
  rw [keyAt_of_ne _ hah] at hka
  rw [keyAt_of_ne _ hbh] at hkb
  exact h a ha b hb hah hbh k hka hkb

omit [Inhabited V] in
/-- The entry at `l` moves into the hole and leaves one behind. -/
theorem DistinctBut.move (h : DistinctBut slots c hole) (hl : l < c) (hne : l ≠ hole) :
    DistinctBut (Function.update slots hole (slots l)) c l := by
  have hhole : keyAt (Function.update slots hole (slots l)) hole = keyAt slots l := by
    rw [keyAt_update, Function.update_self]
    rfl
  intro a ha b hb hal hbl k hka hkb
  by_cases hah : a = hole <;> by_cases hbh : b = hole
  · rw [hah, hbh]
  · rw [hah, hhole] at hka
    rw [keyAt_of_ne _ hbh] at hkb
    exact absurd (h b hb l hl hbh hne k hkb hka) hbl
  · rw [hbh, hhole] at hkb
    rw [keyAt_of_ne _ hah] at hka
    exact absurd (h a ha l hl hah hne k hka hkb) hal
  · rw [keyAt_of_ne _ hah] at hka
    rw [keyAt_of_ne _ hbh] at hkb
    exact h a ha b hb hah hbh k hka hkb

theorem entries_clear {s : Slot V} (hs : s.key ≠ 0) :
    (∃ j < c, Function.update slots hole emptySlot j = s) ↔ ∃ j < c, j ≠ hole ∧ slots j = s := by
  constructor
  · intro h
    obtain ⟨j, hj, e⟩ := h
    have hjh : j ≠ hole := fun hjh => by
      rw [hjh, Function.update_self] at e
      exact hs (by rw [← e]; rfl)
    exact ⟨j, hj, hjh, by rwa [Function.update_of_ne hjh] at e⟩
  · intro h
    obtain ⟨j, hj, hjh, e⟩ := h
    exact ⟨j, hj, by rw [Function.update_of_ne hjh]; exact e⟩

omit [Inhabited V] in
theorem entries_move (hh : hole < c) (hl : l < c) (hne : l ≠ hole) (s : Slot V) :
    (∃ j < c, j ≠ l ∧ Function.update slots hole (slots l) j = s) ↔ ∃ j < c, j ≠ hole ∧ slots j = s := by
  constructor
  · intro h
    obtain ⟨j, hj, hjl, e⟩ := h
    by_cases hjh : j = hole
    · rw [hjh, Function.update_self] at e
      exact ⟨l, hl, hne, e⟩
    · rw [Function.update_of_ne hjh] at e
      exact ⟨j, hj, hjh, e⟩
  · intro h
    obtain ⟨j, hj, hjh, e⟩ := h
    by_cases hjl : j = l
    · exact ⟨hole, hh, Ne.symm hne, by rw [Function.update_self, ← hjl]; exact e⟩
    · exact ⟨j, hj, hjl, by rw [Function.update_of_ne hjh]; exact e⟩

end

/-- The backward shift drops exactly the entry in the hole. -/
theorem shift_spec {mask : Nat} (hc : ∃ n, mask + 1 = 2 ^ n) {z : Nat} (hz : z < mask + 1) :
    ∀ (n : Nat) (slots : Nat → Slot V) (hole i : Nat),
      Shifting (home hash mask) (mask + 1) (keyAt slots) hole i → keyAt slots z = none →
      DistinctBut slots (mask + 1) hole → dist (mask + 1) i z ≤ n →
      ∃ slots', shift hash mask n slots hole i = some slots' ∧
        Clustered (home hash mask) (mask + 1) (keyAt slots') ∧
        (∀ a < mask + 1, ∀ b < mask + 1, ∀ k, keyAt slots' a = some k → keyAt slots' b = some k → a = b) ∧
        ∀ s : Slot V, s.key ≠ 0 → ((∃ j < mask + 1, slots' j = s) ↔ ∃ j < mask + 1, j ≠ hole ∧ slots j = s) := by
  have hh : ∀ k, home hash mask k < mask + 1 := by
    obtain ⟨b, hb⟩ := hc
    intro k; unfold home; rw [and_mask hb]; exact Nat.mod_lt _ (by omega)
  have hdist : ∀ a b, probeDist mask a b = dist (mask + 1) a b := by
    obtain ⟨b, hb⟩ := hc
    intro x y; unfold probeDist; rw [and_mask hb]; rfl
  intro n
  induction n with
  | zero =>
    intro slots hole i hs hn _ hd
    -- the scan stands on a taken slot, never on `z`
    have hiz : i = z := eq_of_dist_eq hs.pos_lt hs.pos_lt hz (by rw [dist_self hs.pos_lt]; omega)
    have := hs.taken (dist (mask + 1) hole i) (Nat.le_refl _)
    rw [add_dist hs.hole_lt hs.pos_lt, hiz] at this
    exact absurd hn this
  | succ n ih =>
    intro slots hole i hs hn hdis hd
    obtain ⟨b, hb⟩ := hc
    have hl : (i + 1) % (mask + 1) < mask + 1 := Nat.mod_lt _ (by omega)
    have hne := hs.ne_hole hz hn
    have htaken := hs.taken (dist (mask + 1) hole i) (Nat.le_refl _)
    rw [add_dist hs.hole_lt hs.pos_lt] at htaken
    have hholeTaken := hs.taken 0 (Nat.zero_le _)
    rw [Nat.add_zero, Nat.mod_eq_of_lt hs.hole_lt] at hholeTaken
    have hiz : i ≠ z := by rintro rfl; exact htaken hn
    have hzh : z ≠ hole := by rintro rfl; exact hholeTaken hn
    have hd' : dist (mask + 1) ((i + 1) % (mask + 1)) z ≤ n := by have := dist_pred hs.pos_lt hz hiz; omega
    simp only [shift, and_mask hb, hdist]
    by_cases h0 : (slots ((i + 1) % (mask + 1))).key = 0
    · -- the scan is over
      refine ⟨_, if_pos h0, ?_, hdis.clear, fun s hs0 => entries_clear hs0⟩
      rw [keyAt_update]
      exact shifting_done hh hs (keyAt_eq_none.mpr h0)
    rw [if_neg h0]
    have hk : keyAt slots ((i + 1) % (mask + 1)) = some (slots ((i + 1) % (mask + 1))).key := keyAt_eq_some.mpr ⟨rfl, h0⟩
    split
    · -- the entry moves into the hole
      rename_i hmv
      have hs' := shifting_move hs hne hk hmv
      have hup : keyAt (Function.update slots hole (slots ((i + 1) % (mask + 1)))) =
          Function.update (keyAt slots) hole (some (slots ((i + 1) % (mask + 1))).key) := by
        rw [keyAt_update, if_neg h0]
      rw [← hup] at hs'
      obtain ⟨slots', e, hcl, hds, hho⟩ := ih _ _ _ hs' (by rw [keyAt_of_ne _ hzh]; exact hn) (hdis.move hl hne) hd'
      exact ⟨slots', e, hcl, hds, fun s hs0 => (hho s hs0).trans (entries_move hs.hole_lt hl hne s)⟩
    · rename_i hmv
      exact ih _ _ _ (shifting_keep hs hne hk hmv) hn hdis hd'

theorem erase_of_not_holds (hm : Ok hash m) {k : UInt64} (h : k = 0 ∨ ∀ v, ¬ Holds m k v) :
    erase hash m k = some (m, false) := by
  obtain ⟨j, _, hs, ej, _⟩ := hm.seek_of_not_holds h
  simp [erase, hs, ej]

theorem erase_spec (hm : Ok hash m) {k : UInt64} {v : V} (h0 : k ≠ 0) (hv : Holds m k v) :
    ∃ m', erase hash m k = some (m', true) ∧ Ok hash m' ∧ m'.mask = m.mask ∧ m'.size + 1 = m.size ∧
      (keys m').card + 1 = (keys m).card ∧ ∀ k' v', k' ≠ 0 → (Holds m' k' v' ↔ k' ≠ k ∧ Holds m k' v') := by
  obtain ⟨j, hj, hs, ej⟩ := hm.seek_of_holds h0 hv
  obtain ⟨z, hz, hn⟩ := hm.exists_empty
  have hkj : keyAt m.slots j = some k := keyAt_eq_some.mpr ⟨by rw [ej], h0⟩
  have hst := shifting_start hm.clustered hj (by rw [hkj]; exact Option.some_ne_none k)
  obtain ⟨slots', e, hcl, hds, hho⟩ := shift_spec hm.cap hz (m.mask + 1) m.slots j j hst hn
    (fun a ha b hb _ _ k' hka hkb => hm.distinct a ha b hb k' hka hkb) (Nat.le_of_lt (dist_lt hj))
  have holds : ∀ k' v', k' ≠ 0 → (Holds (⟨slots', m.mask, m.size - 1⟩ : FlatPtrMap V) k' v' ↔ k' ≠ k ∧ Holds m k' v') := by
    intro k' v' h0'
    refine (hho ⟨k', v'⟩ h0').trans ⟨?_, ?_⟩
    · rintro ⟨i, hi, hij, ei⟩
      refine ⟨?_, i, hi, ei⟩
      rintro rfl
      exact hij (hm.distinct i hi j hj k' (keyAt_eq_some.mpr ⟨by rw [ei], h0⟩) hkj)
    · rintro ⟨hne, i, hi, ei⟩
      refine ⟨i, hi, ?_, ei⟩
      rintro rfl
      rw [ej] at ei; cases ei; exact hne rfl
  have hkeys : keys (⟨slots', m.mask, m.size - 1⟩ : FlatPtrMap V) = (keys m).erase k := by
    ext k'
    rw [Finset.mem_erase, mem_keys, mem_keys]
    constructor
    · rintro ⟨hk', w, hw⟩; exact ⟨((holds k' w hk').mp hw).1, hk', w, ((holds k' w hk').mp hw).2⟩
    · rintro ⟨hne, hk', w, hw⟩; exact ⟨hk', w, (holds k' w hk').mpr ⟨hne, hw⟩⟩
  have hmem : k ∈ keys m := mem_keys.mpr ⟨h0, v, hv⟩
  have hpos : 0 < (keys m).card := Finset.card_pos.mpr ⟨k, hmem⟩
  have hcard := Finset.card_erase_of_mem hmem
  have hused := hm.used
  have hload := hm.load
  refine ⟨⟨slots', m.mask, m.size - 1⟩, ?_, ⟨hm.cap, hm.two, hcl, hds, ?_, ?_⟩, rfl, ?_, ?_, holds⟩
  · have hk0 : (m.slots j).key ≠ 0 := by rw [ej]; exact h0
    simp [erase, hs, hk0, removeAt, e]
  · show (m.size - 1) * 4 < (m.mask + 1) * 3; omega
  · rw [hkeys, hcard]; show _ ≤ m.size - 1; omega
  · show m.size - 1 + 1 = _; omega
  · rw [hkeys, hcard]; omega

end Lob.FlatPtrMap
