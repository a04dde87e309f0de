/-
  Lob.Laws.NodePool — what the pooled map's allocator promises its container.

  After any history of allocations, deallocations and writes the slots held are aligned,
  inside a block and share no byte; what the container knows to be in them is in them, since
  the free list is threaded through the others only; and there are as many blocks as the most
  slots held at once need, so none is ever lost (`slots_sound`).
-/

import Lob.Book.NodePool
import Mathlib.Data.List.Perm.Basic

namespace Lob

open Lob.Base.LittleEndian Lob.Base.FreeList

namespace NodePool

variable {s : NodePool} {size base slot : Nat} {free : List Nat}

/-! ## Sizes -/

theorem stride_eq (size : Nat) : stride size = (slotSize size + 15) / 16 * 16 := by
  refine Nat.eq_of_testBit_eq fun i => ?_
  rw [stride, Nat.testBit_ldiff, show (15 : Nat) = 2 ^ 4 - 1 from rfl, Nat.testBit_two_pow_sub_one,
    show (16 : Nat) = 2 ^ 4 from rfl, Nat.testBit_mul_two_pow, Nat.testBit_div_two_pow]
  by_cases h : i < 4
  · simp [h, Nat.not_le.mpr h]
  · simp [h, Nat.not_lt.mp h]

theorem eight_le_slotSize (size : Nat) : 8 ≤ slotSize size := by
  unfold slotSize
  split <;> omega

theorem slotSize_le_stride (size : Nat) : slotSize size ≤ stride size := by
  rw [stride_eq]
  omega

/-! ## Growing -/

/-- The chain of the free slots. -/
structure Threaded (s : NodePool) (free : List Nat) : Prop where
  chain : Chain s.mem s.freeHead free

theorem Threaded.blocks (h : s.Threaded free) (blocks : List Nat) : Threaded { s with blocks := blocks } free := ⟨h.chain⟩

theorem Threaded.link (h : s.Threaded free) (h0 : slot ≠ 0) (hx : ∀ y ∈ free, Apart 8 slot y ∧ y < 2 ^ 64) :
    (s.link slot).Threaded (slot :: free) := by
  refine ⟨h.chain.push h0 ?_ fun y hy => (hx y hy).1⟩
  rw [h.chain.head]
  cases free with
  | nil => exact Nat.two_pow_pos 64
  | cons y free => exact (hx y List.mem_cons_self).2

theorem link_mem (s : NodePool) (slot : Nat) {i : Nat} (h : ¬ (slot ≤ i ∧ i < slot + 8)) : (s.link slot).mem i = s.mem i :=
  store_of_not h

theorem Threaded.linkAll {stride : Nat} (hs : 8 ≤ stride) (hb : base ≠ 0) : ∀ (n : Nat) {s : NodePool} {free : List Nat},
    s.Threaded free → base + n * stride ≤ 2 ^ 64 → (spread stride base n ++ free).Pairwise (Apart 8) →
      (∀ y ∈ free, y < 2 ^ 64) → (linkAll stride base n s).Threaded (spread stride base n ++ free) := by
  intro n
  induction n with
  | zero => exact fun h _ _ _ => h
  | succ n ih =>
    intro s free h hend hapart hlt
    rw [Nat.succ_mul] at hend
    rw [spread_succ, List.append_assoc] at hapart ⊢
    have hlast := (List.pairwise_append.mp hapart).2.1
    refine ih (h.link (by omega) fun y hy => ⟨(List.pairwise_cons.mp hlast).1 y hy, hlt y hy⟩) (by omega) hapart fun y hy => ?_
    rcases List.mem_cons.mp hy with rfl | hy
    · omega
    · exact hlt y hy

theorem linkAll_mem (stride base : Nat) (hs : 8 ≤ stride) {i : Nat} : ∀ (n : Nat) (s : NodePool),
    ¬ (base ≤ i ∧ i < base + n * stride) → (linkAll stride base n s).mem i = s.mem i := by
  intro n
  induction n with
  | zero => exact fun s _ => rfl
  | succ n ih =>
    intro s h
    rw [Nat.succ_mul] at h
    exact (ih (s.link (base + n * stride)) (by omega)).trans (link_mem s _ (by omega))

theorem linkAll_blocks (stride base : Nat) : ∀ (n : Nat) (s : NodePool), (linkAll stride base n s).blocks = s.blocks := by
  intro n
  induction n with
  | zero => exact fun s => rfl
  | succ n ih => exact fun s => ih (s.link (base + n * stride))

theorem grow_blocks (s : NodePool) (size base : Nat) : (s.grow size base).blocks = s.blocks ++ [base] := by
  simp only [NodePool.grow, linkAll_blocks]

theorem allocate_blocks (h0 : s.freeHead = 0) : (s.allocate size base).2.blocks = s.blocks ++ [base] := by
  simp only [NodePool.allocate, if_pos h0, grow_blocks]

/-- Nothing outside the new block is written. -/
theorem grow_mem (s : NodePool) (size base : Nat) {i : Nat} (h : ¬ (base ≤ i ∧ i < base + blockSize size)) :
    (s.grow size base).mem i = s.mem i := by
  have hs := (eight_le_slotSize size).trans (slotSize_le_stride size)
  simp only [NodePool.grow]
  rw [linkAll_mem (stride size) base hs kPerBlock _ (by rwa [Nat.mul_comm])]
  exact overwrite_of_not s.mem base _ (by rwa [List.length_replicate])

theorem Threaded.grow (h : s.Threaded []) (hb : s.Fresh size base) :
    (s.grow size base).Threaded (spread (stride size) base kPerBlock) := by
  have hs := (eight_le_slotSize size).trans (slotSize_le_stride size)
  have hend : base + kPerBlock * stride size ≤ 2 ^ 64 := by
    rw [Nat.mul_comm]
    exact hb.2.2.1
  have hapart : (spread (stride size) base kPerBlock ++ []).Pairwise (Apart 8) := by
    rw [List.append_nil]
    exact (spread_apart ..).imp fun hpq => hpq.mono hs
  have hzeroed : Threaded { s with mem := overwrite s.mem base (List.replicate (stride size * kPerBlock) 0) } [] := ⟨h.chain⟩
  have hall := hzeroed.linkAll hs hb.1 kPerBlock hend hapart fun y hy => absurd hy List.not_mem_nil
  rw [List.append_nil] at hall
  simp only [NodePool.grow]
  exact hall.blocks _

/-! ## The slots of the blocks -/

def slots (size : Nat) (blocks : List Nat) : List Nat := blocks.flatMap fun b => spread (stride size) b kPerBlock

variable {blocks : List Nat}

theorem slots_length (size : Nat) (blocks : List Nat) : (slots size blocks).length = kPerBlock * blocks.length := by
  induction blocks with
  | nil => rfl
  | cons b blocks ih =>
    have hone : (spread (stride size) b kPerBlock).length = kPerBlock := by simp [spread]
    rw [slots, List.flatMap_cons, List.length_append, hone]
    show _ + (slots size blocks).length = _
    rw [ih, List.length_cons, Nat.mul_succ, Nat.add_comm]

/-- A slot lies in its block. -/
theorem mem_slots {p : Nat} (h : p ∈ slots size blocks) : ∃ b ∈ blocks, ∃ i, p = b + i * stride size ∧ b ≤ p ∧
    p + stride size ≤ b + blockSize size := by
  obtain ⟨b, hb, hp⟩ := List.mem_flatMap.mp h
  obtain ⟨i, _, rfl⟩ := mem_spread.mp hp
  have hin := spread_within hp
  rw [Nat.mul_comm kPerBlock] at hin
  exact ⟨b, hb, i, rfl, hin⟩

theorem slots_apart (h : blocks.Pairwise (Apart (blockSize size))) : (slots size blocks).Pairwise (Apart (stride size)) := by
  refine List.pairwise_flatMap.mpr ⟨fun b _ => spread_apart .., h.imp fun {b b'} hapart p hp q hq => ?_⟩
  have hp := spread_within hp
  have hq := spread_within hq
  rw [Nat.mul_comm kPerBlock] at hp hq
  have hapart : b + stride size * kPerBlock ≤ b' ∨ b' + stride size * kPerBlock ≤ b := hapart
  unfold Apart
  omega

end NodePool

namespace PoolClient

open NodePool

variable {c c' : PoolClient} {size base p : Nat} {free : List Nat}

/-! ## The invariant -/

/-- The slots not held are threaded into the free list. -/
structure Held (c : PoolClient) (size : Nat) (free : List Nat) : Prop where
  threaded : c.pool.Threaded free
  slots : (c.live ++ free).Perm (NodePool.slots size c.pool.blocks)
  blocks : ∀ b ∈ c.pool.blocks, b ≠ 0 ∧ 16 ∣ b ∧ b + blockSize size ≤ 2 ^ 64
  apart : c.pool.blocks.Pairwise (Apart (blockSize size))
  known : ∀ p ∈ c.live, ∀ i < slotSize size, c.pool.mem (p + i) = c.known (p + i)

/-- As many blocks as the peak needs. -/
structure Thrifty (c : PoolClient) : Prop where
  live : c.live.length ≤ c.peak
  enough : c.peak ≤ kPerBlock * c.pool.blocks.length
  needed : kPerBlock * c.pool.blocks.length < c.peak + kPerBlock

theorem Held.length (h : Held c size free) : c.live.length + free.length = kPerBlock * c.pool.blocks.length := by
  rw [← List.length_append, h.slots.length_eq, slots_length]

theorem Held.all_apart (h : Held c size free) : (c.live ++ free).Pairwise (Apart (stride size)) :=
  (h.slots.pairwise_iff fun hpq => hpq.symm).mpr (slots_apart h.apart)

theorem Held.place (h : Held c size free) (hp : p ∈ c.live ++ free) :
    p ≠ 0 ∧ 16 ∣ p ∧ p < 2 ^ 64 ∧ ∃ b ∈ c.pool.blocks, b ≤ p ∧ p + slotSize size ≤ b + blockSize size := by
  obtain ⟨b, hb, i, rfl, hlow, hhigh⟩ := mem_slots (h.slots.mem_iff.mp hp)
  obtain ⟨h0, hdvd, hend⟩ := h.blocks b hb
  have hsize := slotSize_le_stride size
  have hslot := eight_le_slotSize size
  refine ⟨by omega, ?_, by omega, b, hb, hlow, by omega⟩
  rw [stride_eq]
  exact Nat.dvd_add hdvd (Dvd.dvd.mul_left (Nat.dvd_mul_left ..) _)

/-- A slot held and a free one. -/
theorem Held.split (h : Held c size free) {q : Nat} (hp : p ∈ c.live) (hq : q ∈ free) : Apart (stride size) p q :=
  (List.pairwise_append.mp h.all_apart).2.2 p hp q hq

/-- Two slots held. -/
theorem Held.two (h : Held c size free) {q : Nat} (hp : p ∈ c.live) (hq : q ∈ c.live) (hne : p ≠ q) :
    Apart (stride size) p q := by
  have hsymm : Std.Symm (Apart (stride size)) := ⟨fun _ _ => Apart.symm⟩
  exact (List.pairwise_append.mp h.all_apart).1.forall hp hq hne

/-! ## The operations -/

/-- `allocate` from a list that is not empty. -/
theorem Held.take (h : Held c size (p :: free)) :
    Held (c.take size (p, { c.pool with freeHead := load c.pool.mem p })) size free where
  threaded := ⟨h.threaded.chain.2.2⟩
  slots := List.perm_middle.symm.trans h.slots
  blocks := h.blocks
  apart := h.apart
  known := by
    intro q hq i hi
    show _ = c.learn size p c.pool.mem (q + i)
    unfold learn
    split
    · rfl
    · next hout =>
      rcases List.mem_cons.mp hq with rfl | hq
      · exact absurd ⟨Nat.le_add_right q i, Nat.add_lt_add_left hi q⟩ hout
      · exact h.known q hq i hi

/-- `grow`, when nothing is left. -/
theorem Held.grow (h : Held c size []) (hb : c.pool.Fresh size base) :
    Held { c with pool := c.pool.grow size base } size (spread (stride size) base kPerBlock) where
  threaded := h.threaded.grow hb
  slots := by
    show (c.live ++ _).Perm (NodePool.slots size (c.pool.grow size base).blocks)
    have hslots := h.slots
    rw [List.append_nil] at hslots
    rw [grow_blocks, NodePool.slots, List.flatMap_append, List.flatMap_singleton]
    exact hslots.append_right _
  blocks := by
    intro b hmem
    rw [grow_blocks] at hmem
    rcases List.mem_append.mp hmem with hmem | hmem
    · exact h.blocks b hmem
    · obtain rfl := List.mem_singleton.mp hmem
      exact ⟨hb.1, hb.2.1, hb.2.2.1⟩
  apart := by
    rw [grow_blocks, List.pairwise_append]
    refine ⟨h.apart, List.pairwise_singleton .., fun b hmem b' hb' => ?_⟩
    obtain rfl := List.mem_singleton.mp hb'
    exact (hb.2.2.2 b hmem).symm
  known := by
    intro p hp i hi
    obtain ⟨-, -, -, b, hmem, hlow, hhigh⟩ := h.place (List.mem_append_left [] hp)
    refine (grow_mem c.pool size base ?_).trans (h.known p hp i hi)
    exact (hb.2.2.2 b hmem).symm.outside (hlow.trans (Nat.le_add_right p i)) (by omega)

/-- `deallocate`. -/
theorem Held.give (h : Held c size free) (hp : p ∈ c.live) :
    Held { c with pool := c.pool.deallocate p, live := c.live.erase p } size (p :: free) := by
  have hslot := eight_le_slotSize size
  have hstride := slotSize_le_stride size
  have hnodup : c.live.Nodup :=
    (List.pairwise_append.mp h.all_apart).1.imp fun hpq => hpq.ne (by omega)
  constructor
  case threaded =>
    refine h.threaded.link (h.place (List.mem_append_left free hp)).1 fun y hy => ⟨?_, ?_⟩
    · exact (h.split hp hy).mono (hslot.trans hstride)
    · exact (h.place (List.mem_append_right c.live hy)).2.2.1
  case slots =>
    exact (List.perm_middle.trans ((List.perm_cons_erase hp).symm.append_right free)).trans h.slots
  case blocks => exact h.blocks
  case apart => exact h.apart
  case known =>
    intro q hq i hi
    obtain ⟨hne, hq⟩ := hnodup.mem_erase_iff.mp hq
    refine (link_mem c.pool p ?_).trans (h.known q hq i hi)
    exact fun hin => (h.two hq hp hne).outside (i := q + i) (Nat.le_add_right q i) (by omega) ⟨hin.1, by omega⟩

/-- A write within a slot that is held. -/
theorem Held.write (h : Held c size free) (hp : p ∈ c.live) {i : Nat} (hi : i < slotSize size) (b : UInt8) :
    Held (c.perform size (.write p i b)) size free where
  threaded := by
    refine ⟨h.threaded.chain.congr fun y hy j hj => ?_⟩
    show Function.update c.pool.mem (p + i) b (y + j) = c.pool.mem (y + j)
    refine Function.update_of_ne ?_ b c.pool.mem
    have hstride := slotSize_le_stride size
    have hslot := eight_le_slotSize size
    have hapart : p + stride size ≤ y ∨ y + stride size ≤ p := h.split hp hy
    omega
  slots := h.slots
  blocks := h.blocks
  apart := h.apart
  known := by
    intro q hq j hj
    show Function.update c.pool.mem (p + i) b (q + j) = Function.update c.known (p + i) b (q + j)
    by_cases heq : q + j = p + i
    · rw [heq, Function.update_self, Function.update_self]
    · rw [Function.update_of_ne heq, Function.update_of_ne heq]
      exact h.known q hq j hj

/-- What is kept of the pool is the new one. -/
@[simp] theorem take_pool (c : PoolClient) (pool : NodePool) (r : Nat × NodePool) :
    PoolClient.take { c with pool := pool } size r = c.take size r := rfl

theorem allocate_of_free (hne : c.pool.freeHead ≠ 0) :
    c.perform size (.allocate base) =
      c.take size (c.pool.freeHead, { c.pool with freeHead := load c.pool.mem c.pool.freeHead }) := by
  simp only [perform, NodePool.allocate, if_neg hne]

/-- A list that is empty is refilled, and `allocate` goes on. -/
theorem allocate_of_none (h0 : c.pool.freeHead = 0) (hne : (c.pool.grow size base).freeHead ≠ 0) :
    c.perform size (.allocate base) = PoolClient.perform { c with pool := c.pool.grow size base } size (.allocate base) := by
  have hgrow : c.pool.allocate size base = (c.pool.grow size base).allocate size base := by
    unfold NodePool.allocate
    rw [if_pos h0, if_neg hne]
  simp only [perform, hgrow, take_pool]

theorem Held.head (h : Held c size free) : c.pool.freeHead = free.headD 0 := h.threaded.chain.head

theorem Held.head_ne (h : Held c size (p :: free)) : c.pool.freeHead ≠ 0 := by
  rw [h.head]
  exact (h.place (List.mem_append_right c.live List.mem_cons_self)).1

theorem Held.allocate (h : Held c size (p :: free)) (base : Nat) : Held (c.perform size (.allocate base)) size free := by
  have hhead : c.pool.freeHead = p := h.head
  rw [allocate_of_free h.head_ne, hhead]
  exact h.take

/-- The peak grows with the slots held; the blocks do not. -/
theorem Held.allocate_thrifty (h : Held c size (p :: free)) (base : Nat) (henough : c.peak ≤ kPerBlock * c.pool.blocks.length)
    (hneeded : kPerBlock * c.pool.blocks.length < max c.peak (c.live.length + 1) + kPerBlock) :
    (c.perform size (.allocate base)).Thrifty := by
  have hroom : c.live.length + 1 ≤ kPerBlock * c.pool.blocks.length := by
    rw [← h.length, List.length_cons]
    omega
  rw [allocate_of_free h.head_ne]
  exact ⟨Nat.le_max_right .., Nat.max_le.mpr ⟨henough, hroom⟩, hneeded⟩

/-- One operation. -/
theorem step_held (h : Held c size free) (ht : c.Thrifty) {op : Op} (hs : c.step size op = some c') :
    (∃ free', Held c' size free') ∧ c'.Thrifty := by
  unfold step at hs
  split at hs
  case isFalse => cases hs
  next hlegal =>
  obtain rfl := Option.some.inj hs
  cases op with
  | allocate base =>
    cases free with
    | cons p free =>
      refine ⟨⟨free, h.allocate base⟩, h.allocate_thrifty base ht.enough (ht.needed.trans_le ?_)⟩
      exact Nat.add_le_add_right (Nat.le_max_left ..) _
    | nil =>
      have hgrown := h.grow (hlegal h.head)
      generalize spread (stride size) base kPerBlock = free at hgrown
      have hblocks : (c.pool.grow size base).blocks.length = c.pool.blocks.length + 1 := by
        rw [grow_blocks, List.length_append, List.length_singleton]
      have hfull : c.live.length = kPerBlock * c.pool.blocks.length := h.length
      have hlength : c.live.length + free.length = kPerBlock * (c.pool.grow size base).blocks.length := hgrown.length
      have hpos : 0 < kPerBlock := by decide
      have hlive := ht.live
      have henough := ht.enough
      rw [hblocks, Nat.mul_succ] at hlength
      cases free with
      | nil =>
        rw [List.length_nil] at hlength
        omega
      | cons p free =>
        rw [allocate_of_none h.head hgrown.head_ne]
        refine ⟨⟨free, hgrown.allocate base⟩, hgrown.allocate_thrifty base ?_ ?_⟩
        · show c.peak ≤ kPerBlock * (c.pool.grow size base).blocks.length
          rw [hblocks, Nat.mul_succ]
          omega
        · show kPerBlock * (c.pool.grow size base).blocks.length < max c.peak (c.live.length + 1) + kPerBlock
          rw [hblocks, Nat.mul_succ]
          omega
  | deallocate p =>
    refine ⟨⟨p :: free, h.give hlegal⟩, ?_, ht.enough, ht.needed⟩
    exact (List.length_erase_le).trans ht.live
  | write p i b => exact ⟨⟨free, h.write hlegal.1 hlegal.2 b⟩, ht.live, ht.enough, ht.needed⟩

/-- With a memory and nothing in it. -/
def start (m known : Memory) : PoolClient := { pool := { mem := m }, known := known }

theorem after_held {m known : Memory} : ∀ {h : List Op} {c : PoolClient}, (start m known).after size h = some c →
    (∃ free, Held c size free) ∧ c.Thrifty := by
  intro h
  induction h with
  | nil =>
    rintro c ⟨⟩
    have hpos : kPerBlock * 0 < 0 + kPerBlock := by decide
    refine ⟨⟨[], ⟨rfl⟩, List.Perm.refl _, ?_, List.Pairwise.nil, ?_⟩, Nat.le_refl 0, Nat.le_refl 0, hpos⟩
    · exact fun b hb => absurd hb List.not_mem_nil
    · exact fun p hp => absurd hp List.not_mem_nil
  | cons op h ih =>
    intro c hc
    obtain ⟨d, hd, hs⟩ := Option.bind_eq_some_iff.mp hc
    obtain ⟨⟨free, hheld⟩, hthrifty⟩ := ih hd
    exact step_held hheld hthrifty hs

/-- After any history: the slots held are aligned, in a block and apart; what was written in
    them is in them; and the blocks are as many as the peak needs. -/
theorem slots_sound {m known : Memory} {h : List Op} {c : PoolClient} (hrun : (start m known).after size h = some c) :
    (∀ p ∈ c.live, p ≠ 0 ∧ 16 ∣ p ∧ ∃ b ∈ c.pool.blocks, b ≤ p ∧ p + slotSize size ≤ b + blockSize size) ∧
      c.live.Pairwise (Apart (slotSize size)) ∧
      (∀ p ∈ c.live, ∀ i < slotSize size, c.pool.mem (p + i) = c.known (p + i)) ∧
      c.pool.blocks.length = (c.peak + (kPerBlock - 1)) / kPerBlock := by
  obtain ⟨⟨free, hheld⟩, hthrifty⟩ := after_held hrun
  refine ⟨fun p hp => ?_, ?_, hheld.known, ?_⟩
  · obtain ⟨h0, hdvd, -, hin⟩ := hheld.place (List.mem_append_left free hp)
    exact ⟨h0, hdvd, hin⟩
  · exact (List.pairwise_append.mp hheld.all_apart).1.imp fun hpq => hpq.mono (slotSize_le_stride size)
  · have henough := hthrifty.enough
    have hneeded := hthrifty.needed
    have hpos : 0 < kPerBlock := by decide
    symm
    rw [Nat.div_eq_iff hpos]
    rw [Nat.mul_comm] at henough hneeded
    omega

theorem step_of_legal {op : Op} (h : c.Legal size op) : c.step size op = some (c.perform size op) := if_pos h

/-- Two nodes of the map, from one block: what is written in the second stays there. -/
theorem slots_sound_two : ∃ c p, (start (fun _ => 0) fun _ => 0).after 56 [.write p 3 7, .allocate (2 ^ 40), .allocate 16] = some c ∧
    p ∈ c.live ∧ 16 ∣ p ∧ c.live.Pairwise (Apart 56) ∧ c.pool.mem (p + 3) = c.known (p + 3) ∧ c.known (p + 3) = 7 ∧
      c.pool.blocks.length = (c.peak + 8191) / 8192 ∧ c.peak = 2 := by
  have hblock : blockSize 56 = 64 * 8192 := by
    rw [blockSize, stride_eq]
    rfl
  have hfirst : (start (fun _ => 0) fun _ => 0).Legal 56 (.allocate 16) := by
    refine fun _ => ⟨by decide, by decide, by rw [hblock]; decide, fun b hb => ?_⟩
    exact absurd hb List.not_mem_nil
  have hblocks : ((start (fun _ => 0) fun _ => 0).perform 56 (.allocate 16)).pool.blocks = [16] := allocate_blocks rfl
  have hlive : ((start (fun _ => 0) fun _ => 0).perform 56 (.allocate 16)).live.length = 1 := rfl
  have hpeak : ((start (fun _ => 0) fun _ => 0).perform 56 (.allocate 16)).peak = 1 := rfl
  have hs1 := step_of_legal hfirst
  generalize (start (fun _ => 0) fun _ => 0).perform 56 (.allocate 16) = c1 at hs1 hblocks hlive hpeak
  have hsecond : c1.Legal 56 (.allocate (2 ^ 40)) := by
    refine fun _ => ⟨by decide, by decide, by rw [hblock]; decide, fun b hb => ?_⟩
    rw [hblocks] at hb
    obtain rfl := List.mem_singleton.mp hb
    right
    rw [hblock]
    decide
  have hmem : (c1.pool.allocate 56 (2 ^ 40)).1 ∈ (c1.perform 56 (.allocate (2 ^ 40))).live := List.mem_cons_self
  have hpeak2 : (c1.perform 56 (.allocate (2 ^ 40))).peak = 2 := by
    show max c1.peak (c1.live.length + 1) = 2
    rw [hpeak, hlive]
    decide
  have hs2 := step_of_legal hsecond
  generalize (c1.pool.allocate 56 (2 ^ 40)).1 = p at hmem
  generalize c1.perform 56 (.allocate (2 ^ 40)) = c2 at hs2 hmem hpeak2
  have hwrite : c2.Legal 56 (.write p 3 7) := ⟨hmem, by decide⟩
  have hrun : (start (fun _ => 0) fun _ => 0).after 56 [.write p 3 7, .allocate (2 ^ 40), .allocate 16] =
      some (c2.perform 56 (.write p 3 7)) := by
    simp only [after, Option.bind_some, hs1, hs2, step_of_legal hwrite]
  obtain ⟨hplace, hapart, hknown, hneed⟩ := slots_sound hrun
  refine ⟨_, p, hrun, hmem, (hplace p hmem).2.1, hapart, hknown p hmem 3 (by decide), ?_, hneed, hpeak2⟩
  exact Function.update_self ..

end PoolClient

end Lob
