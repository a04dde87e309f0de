/-
  Lob.Index.FlatPtrMap — the open-addressing index (`flat_hash_map.hpp`).

  `slots` is the vector; every index is masked, so only `mask + 1` slots are ever read.
  A probe loop of the source ends when it meets an empty slot or its key: here it runs
  for as many steps as there are slots and answers `none` when it would not end. `V{}`
  is `default`. The hash is a parameter; `splitmix` is the source's.
-/

import Mathlib.Logic.Function.Basic

namespace Lob

structure Slot (V : Type) where
  key : UInt64
  value : V

structure FlatPtrMap (V : Type) where
  slots : Nat → Slot V
  mask : Nat
  size : Nat

namespace FlatPtrMap

variable {V : Type} [Inhabited V]

def emptySlot : Slot V := ⟨0, default⟩

/-- `while (cap * 3 < expected * 4) cap <<= 1`. -/
def capFor (expected : Nat) : Nat → Nat → Nat
  | 0, cap => cap
  | n + 1, cap => if cap * 3 < expected * 4 then capFor expected n (cap <<< 1) else cap

def make (expected : Nat) : FlatPtrMap V := ⟨fun _ => emptySlot, capFor expected expected 16 - 1, 0⟩

def capacity (m : FlatPtrMap V) : Nat := m.mask + 1

/-- The splitmix64 finalizer. -/
def splitmix (x : UInt64) : UInt64 :=
  let x := x ^^^ (x >>> 30)
  let x := x * 0xbf58476d1ce4e5b9
  let x := x ^^^ (x >>> 27)
  let x := x * 0x94d049bb133111eb
  x ^^^ (x >>> 31)

variable (hash : UInt64 → UInt64)

def home (mask : Nat) (key : UInt64) : Nat := (hash key).toNat &&& mask

/-- The loop `while (slots_[i].key != 0)`, left at an empty slot or at `key`. -/
def probe (m : FlatPtrMap V) (key : UInt64) : Nat → Nat → Option Nat
  | 0, _ => none
  | n + 1, i =>
    if (m.slots i).key = 0 then some i
    else if (m.slots i).key = key then some i
    else probe m key n ((i + 1) &&& m.mask)

def seek (m : FlatPtrMap V) (key : UInt64) : Option Nat := probe m key (m.mask + 1) (home hash m.mask key)

def find (m : FlatPtrMap V) (key : UInt64) : Option V := do
  let i ← seek hash m key
  if (m.slots i).key = 0 then some default else some (m.slots i).value

/-- `insert` past the load check. -/
def place (m : FlatPtrMap V) (key : UInt64) (value : V) : Option (FlatPtrMap V) := do
  let i ← seek hash m key
  if (m.slots i).key = 0 then
    some { m with slots := Function.update m.slots i ⟨key, value⟩, size := m.size + 1 }
  else some { m with slots := Function.update m.slots i ⟨(m.slots i).key, value⟩ }

/-- `grow`, with the `insert` it calls. -/
def growWith (ins : FlatPtrMap V → UInt64 → V → Option (FlatPtrMap V)) (old : FlatPtrMap V) : Option (FlatPtrMap V) :=
  (List.range (old.mask + 1)).foldlM
    (fun m j => if (old.slots j).key ≠ 0 then ins m (old.slots j).key (old.slots j).value else some m)
    ⟨fun _ => emptySlot, ((old.mask + 1) <<< 1) - 1, 0⟩

/-- `insert` allowed to nest `depth` calls through `grow`. -/
def insertDepth : Nat → FlatPtrMap V → UInt64 → V → Option (FlatPtrMap V)
  | 0, _, _, _ => none
  | depth + 1, m, key, value => do
    let m ← if (m.size + 1) * 4 ≥ (m.mask + 1) * 3 then growWith (insertDepth depth) m else some m
    place hash m key value

/-- The inserts `grow` makes never grow again, so two levels are enough. -/
def insert (m : FlatPtrMap V) (key : UInt64) (value : V) : Option (FlatPtrMap V) := insertDepth hash 2 m key value

/-- The `size_t` difference wraps modulo 2^64, a multiple of the capacity. -/
def probeDist (mask ideal slot : Nat) : Nat := (slot + (mask + 1) - ideal) &&& mask

/-- The loop of `remove_at`, standing at slot `i`. -/
def shift (mask : Nat) : Nat → (Nat → Slot V) → Nat → Nat → Option (Nat → Slot V)
  | 0, _, _, _ => none
  | n + 1, slots, hole, i =>
    let i := (i + 1) &&& mask
    if (slots i).key = 0 then some (Function.update slots hole emptySlot)
    else
      let ideal := home hash mask (slots i).key
      if probeDist mask ideal hole < probeDist mask ideal i then
        shift mask n (Function.update slots hole (slots i)) i i
      else shift mask n slots hole i

def removeAt (m : FlatPtrMap V) (hole : Nat) : Option (FlatPtrMap V) := do
  let slots ← shift hash m.mask (m.mask + 1) m.slots hole hole
  some { m with slots := slots }

def erase (m : FlatPtrMap V) (key : UInt64) : Option (FlatPtrMap V × Bool) := do
  let i ← seek hash m key
  if (m.slots i).key = 0 then some (m, false)
  else do
    let m ← removeAt hash m i
    some ({ m with size := m.size - 1 }, true)

end FlatPtrMap

end Lob
