/-
  Lob.Book.NodePool — the free-list allocator of the pooled map (`node_pool_allocator.hpp`).

  `NodePool` is the state the copies of an allocator share, in a byte memory with 64-bit
  pointers. A free slot's first word is the next free slot. `grow` is given where the new
  block lies; what `operator new` promises of it is `Fresh`. `Client` is a container that
  allocates, writes in the slots it holds and deallocates, with what it knows to be in them.

  Left out: allocations of any number of objects but one, which go to `operator new`.
-/

import Lob.Base.FreeList

namespace Lob

open Lob.Base.LittleEndian Lob.Base.FreeList

/-- `State`. -/
structure NodePool where
  mem : Memory
  blocks : List Nat := []
  freeHead : Nat := 0

namespace NodePool

def kPerBlock : Nat := 8192

/-- `slot_size()`; `size` is `sizeof(T)`. -/
def slotSize (size : Nat) : Nat := if size < 8 then 8 else size

/-- `(slot_size() + 15) & ~15`. -/
def stride (size : Nat) : Nat := Nat.ldiff (slotSize size + 15) 15

variable (s : NodePool)

/-- `*slot = free_head; free_head = slot`. -/
def link (slot : Nat) : NodePool := { s with mem := store s.mem slot s.freeHead, freeHead := slot }

/-- The loop of `grow`, down from `i`. -/
def linkAll (stride base : Nat) : Nat → NodePool → NodePool
  | 0, s => s
  | i + 1, s => linkAll stride base i (s.link (base + i * stride))

/-- `make_unique` zeroes the block. -/
def grow (size base : Nat) : NodePool :=
  let block := List.replicate (stride size * kPerBlock) 0
  let s := linkAll (stride size) base kPerBlock { s with mem := overwrite s.mem base block }
  { s with blocks := s.blocks ++ [base] }

def allocate (size base : Nat) : Nat × NodePool :=
  let s := if s.freeHead = 0 then s.grow size base else s
  (s.freeHead, { s with freeHead := load s.mem s.freeHead })

def deallocate (p : Nat) : NodePool := s.link p

/-- The bytes of a block. -/
def blockSize (size : Nat) : Nat := stride size * kPerBlock

/-- What a new block is: aligned to 16, in the address space, and no part of another. -/
def Fresh (size base : Nat) : Prop :=
  base ≠ 0 ∧ 16 ∣ base ∧ base + blockSize size ≤ 2 ^ 64 ∧ ∀ b ∈ s.blocks, Apart (blockSize size) base b

instance (size base : Nat) : Decidable (s.Fresh size base) := by
  unfold Fresh Apart
  infer_instance

end NodePool

/-- A user of the pool: the slots it holds, the bytes it knows, and the most slots it has held. -/
structure PoolClient where
  pool : NodePool
  live : List Nat := []
  known : Memory
  peak : Nat := 0

namespace PoolClient

open NodePool

inductive Op where
  | allocate (base : Nat)
  | deallocate (p : Nat)
  | write (p i : Nat) (b : UInt8)
  deriving DecidableEq, Repr

variable (c : PoolClient)

/-- It gives back what it holds, and writes in it only. -/
def Legal (size : Nat) : Op → Prop
  | .allocate base => c.pool.freeHead = 0 → c.pool.Fresh size base
  | .deallocate p => p ∈ c.live
  | .write p i _ => p ∈ c.live ∧ i < slotSize size

instance (size : Nat) (op : Op) : Decidable (c.Legal size op) := by
  cases op <;> unfold Legal <;> infer_instance

/-- A slot just handed out is known as it is. -/
def learn (size p : Nat) (m : Memory) : Memory := fun a => if p ≤ a ∧ a < p + slotSize size then m a else c.known a

/-- Handed a slot, with the pool then. -/
def take (size : Nat) (r : Nat × NodePool) : PoolClient where
  pool := r.2
  live := r.1 :: c.live
  known := c.learn size r.1 r.2.mem
  peak := max c.peak (c.live.length + 1)

def perform (size : Nat) : Op → PoolClient
  | .allocate base => c.take size (c.pool.allocate size base)
  | .deallocate p => { c with pool := c.pool.deallocate p, live := c.live.erase p }
  | .write p i b =>
    { c with
      pool := { c.pool with mem := Function.update c.pool.mem (p + i) b }
      known := Function.update c.known (p + i) b }

def step (size : Nat) (op : Op) : Option PoolClient := if c.Legal size op then some (c.perform size op) else none

/-- After a history of operations, newest first. -/
def after (size : Nat) : List Op → Option PoolClient
  | [] => some c
  | op :: h => (after size h).bind fun c => c.step size op

end PoolClient

end Lob
