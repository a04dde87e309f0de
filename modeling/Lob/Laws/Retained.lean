/-
  Lob.Laws.Retained — what stays in a connection's receive buffer.

  After a parse the buffer is the start of one frame, which later bytes complete
  (`Awaits`), or its length field announces less than a header (`Cramped`). `peekHeader`
  answers `none` to both, and the loop waits: on a cramped frame for good
  (`cramped_forever`).
-/

import Lob.Laws.Framing

namespace Lob

open Wire Lob.Base.LittleEndian

/-! ## Frames begun -/

/-- The length field of a frame, its third and fourth bytes. -/
def lengthField (p : List UInt8) : Nat := leValue ((p.drop 2).take 2)

/-- A proper prefix of a frame. -/
def Partial (p : List UInt8) : Prop := ∃ f, Whole f ∧ p <+: f ∧ p ≠ f

/-- The length field is there, and announces less than a header. -/
def Cramped (p : List UInt8) : Prop := 4 ≤ p.length ∧ lengthField p < kHeaderSize

/-- Some frame of the stream is cramped, those before it being whole. -/
def Malformed (stream : List UInt8) : Prop :=
  ∃ (done : List (List UInt8)) (part : List UInt8), stream = done.flatten ++ part ∧ (∀ f ∈ done, Whole f) ∧ Cramped part

/-- The buffer is a proper prefix of a frame, and some bytes would empty it. -/
def Gateway.Awaits (now : Nat → TsNanos) (g : Gateway) (fd : Fd) : Prop :=
  ∃ part, g.Buffers fd part ∧ Partial part ∧ part.length < 65535 ∧ ∃ more, (g.serve now fd more false).Buffers fd []

variable {p q : List UInt8}

theorem lengthField_append (h : 4 ≤ p.length) (q : List UInt8) : lengthField (p ++ q) = lengthField p := by
  unfold lengthField
  rw [List.drop_append_of_le_length (by omega), List.take_append_of_le_length (by rw [List.length_drop]; omega)]

theorem lengthField_lt (p : List UInt8) : lengthField p < 65536 := by
  have hlt := leValue_lt ((p.drop 2).take 2)
  have hlen : ((p.drop 2).take 2).length ≤ 2 := List.length_take_le ..
  have hpow : 2 ^ (8 * ((p.drop 2).take 2).length) ≤ 2 ^ 16 := Nat.pow_le_pow_right (by decide) (by omega)
  unfold lengthField
  omega

theorem lengthField_framed (t v : UInt8) (len : UInt16) (seq : UInt32) (body : List UInt8) :
    lengthField (framed t v len seq body) = len.toNat := by
  show leValue (leBytes 2 len.toNat) = len.toNat
  rw [leValue_leBytes]
  exact Nat.mod_eq_of_lt len.toNat_lt

theorem Cramped.append (h : Cramped p) (q : List UInt8) : Cramped (p ++ q) := by
  obtain ⟨hlen, hfield⟩ := h
  refine ⟨?_, ?_⟩
  · rw [List.length_append]
    omega
  · rw [lengthField_append hlen]
    exact hfield

theorem Cramped.peek (h : Cramped p) : peekHeader p = none := by
  obtain ⟨_, hfield⟩ := h
  by_cases hs : p.length < kHeaderSize
  · exact peekHeader_short hs
  · obtain ⟨t, v, len, seq, body, rfl⟩ := framed_of_length (Nat.le_of_not_lt hs)
    rw [lengthField_framed] at hfield
    rw [peekHeader_framed, if_pos (Or.inl hfield)]

theorem Partial.not_cramped (h : Partial p) : ¬ Cramped p := by
  intro hc
  obtain ⟨f, ⟨hlen, hfield⟩, ⟨q, rfl⟩, _⟩ := h
  have hq := (hc.append q).2
  unfold lengthField at hq
  rw [hfield] at hq
  omega

theorem Partial.length_lt (h : Partial p) : p.length < 65535 := by
  obtain ⟨f, ⟨_, hfield⟩, hp, hne⟩ := h
  have hlt : lengthField f < 65536 := lengthField_lt f
  have hle := hp.length_le
  have hlen : p.length ≠ f.length := fun e => hne (hp.eq_of_length e)
  unfold lengthField at hlt
  omega

/-- What has not reached its length field begins a frame. -/
theorem partial_of_short (h : p.length < 4) : Partial p := by
  obtain ⟨a, b, c, hpad⟩ : ∃ a b c, p ++ List.replicate (3 - p.length) 0 = [a, b, c] := by
    have hlen : (p ++ List.replicate (3 - p.length) 0).length = 3 := by
      rw [List.length_append, List.length_replicate]
      omega
    exact List.length_eq_three.mp hlen
  have hfield : leValue [c, 1] = c.toNat + 256 := by
    have hc : leValue [c] = c.toNat := by
      rw [show [c] = [] ++ [c] from rfl, leValue_concat [] c (leValue_lt [])]
      show 0 + c.toNat * 1 = c.toNat
      omega
    rw [show [c, 1] = [c] ++ [1] from rfl, leValue_concat [c] 1 (leValue_lt [c]), hc]
    rfl
  have hf : p ++ (List.replicate (3 - p.length) 0 ++ 1 :: List.replicate (c.toNat + 252) 0) =
      a :: b :: c :: 1 :: List.replicate (c.toNat + 252) 0 := by
    rw [← List.append_assoc, hpad]
    rfl
  refine ⟨_, ⟨?_, ?_⟩, List.prefix_append p (List.replicate (3 - p.length) 0 ++ 1 :: List.replicate (c.toNat + 252) 0), ?_⟩
  · rw [hf]
    simp only [List.length_cons, List.length_replicate, kHeaderSize]
    omega
  · rw [hf]
    show leValue [c, 1] = _
    rw [hfield]
    simp only [List.length_cons, List.length_replicate]
  · intro e
    have := congrArg List.length e
    rw [List.length_append, List.length_append, List.length_cons] at this
    omega

/-- What the loop breaks off at is the start of a frame, or cramped. -/
theorem partial_or_cramped (h : peekHeader p = none) : Partial p ∨ Cramped p := by
  by_cases h4 : p.length < 4
  · exact Or.inl (partial_of_short h4)
  have h4 : 4 ≤ p.length := Nat.le_of_not_lt h4
  by_cases hfield : lengthField p < kHeaderSize
  · exact Or.inr ⟨h4, hfield⟩
  have hshort : p.length < lengthField p := by
    by_cases hs : p.length < kHeaderSize
    · omega
    · obtain ⟨t, v, len, seq, body, rfl⟩ := framed_of_length (Nat.le_of_not_lt hs)
      rw [lengthField_framed] at hfield ⊢
      rw [peekHeader_framed] at h
      by_cases hc : len.toNat < kHeaderSize ∨ kHeaderSize + body.length < len.toNat
      · rw [framed_length]
        omega
      · rw [if_neg hc] at h
        cases h
  have hlen : (p ++ List.replicate (lengthField p - p.length) 0).length = lengthField p := by
    rw [List.length_append, List.length_replicate]
    omega
  refine Or.inl ⟨_, ⟨?_, ?_⟩, List.prefix_append p (List.replicate (lengthField p - p.length) 0), ?_⟩
  · rw [hlen]
    omega
  · rw [hlen]
    exact lengthField_append h4 _
  · intro e
    have := congrArg List.length e
    rw [hlen] at this
    omega

/-! ## A stream, frame by frame -/

theorem walk_frames (n : Nat) : ∀ b : List UInt8, b.length ≤ n →
    ∃ (done : List (List UInt8)) (part : List UInt8), b = done.flatten ++ part ∧ (∀ f ∈ done, Whole f) ∧
      peekHeader part = none := by
  induction n with
  | zero =>
    intro b hb
    obtain rfl := List.eq_nil_of_length_eq_zero (Nat.le_zero.mp hb)
    exact ⟨[], [], rfl, fun f hf => absurd hf List.not_mem_nil, peekHeader_short (by decide)⟩
  | succ n ih =>
    intro b hb
    cases hp : peekHeader b with
    | none => exact ⟨[], b, rfl, fun f hf => absurd hf List.not_mem_nil, hp⟩
    | some h =>
      obtain ⟨body, rfl, hmin, hmax⟩ := peekHeader_some hp
      rw [framed_length] at hb hmax
      -- the first frame is as much of the body as the header says
      have hsplit : framed h.type h.version h.length h.seq body =
          framed h.type h.version h.length h.seq (body.take (h.length.toNat - kHeaderSize)) ++
            body.drop (h.length.toNat - kHeaderSize) := by
        unfold framed
        rw [List.append_assoc, List.take_append_drop]
      have hwhole : Whole (framed h.type h.version h.length h.seq (body.take (h.length.toNat - kHeaderSize))) := by
        have hlen : (framed h.type h.version h.length h.seq (body.take (h.length.toNat - kHeaderSize))).length =
            h.length.toNat := by
          rw [framed_length, List.length_take]
          omega
        refine ⟨?_, ?_⟩
        · rw [hlen]
          exact hmin
        · rw [hlen]
          exact lengthField_framed ..
      have hrest : (body.drop (h.length.toNat - kHeaderSize)).length ≤ n := by
        rw [List.length_drop]
        unfold kHeaderSize at hb
        omega
      obtain ⟨done, part, hb', hw, hpart⟩ := ih _ hrest
      refine ⟨framed h.type h.version h.length h.seq (body.take (h.length.toNat - kHeaderSize)) :: done, part, ?_, ?_, hpart⟩
      · rw [hsplit, List.flatten_cons, List.append_assoc, ← hb']
      · intro f hf
        rcases List.mem_cons.mp hf with rfl | hf
        · exact hwhole
        · exact hw f hf

/-- A stream is cut into frames in one way. -/
theorem walk_unique {done done' : List (List UInt8)} {part part' : List UInt8} (hw : ∀ f ∈ done, Whole f)
    (hw' : ∀ f ∈ done', Whole f) (hp : peekHeader part = none) (hp' : peekHeader part' = none)
    (h : done.flatten ++ part = done'.flatten ++ part') : part = part' := by
  induction done generalizing done' with
  | nil =>
    cases done' with
    | nil => exact h
    | cons f' done' =>
      obtain ⟨hdr, hpeek, _⟩ := (hw' f' List.mem_cons_self).peek (done'.flatten ++ part')
      rw [List.flatten_nil, List.nil_append, List.flatten_cons, List.append_assoc] at h
      rw [← h, hp] at hpeek
      cases hpeek
  | cons f done ih =>
    obtain ⟨hdr, hpeek, hlen, _⟩ := (hw f List.mem_cons_self).peek (done.flatten ++ part)
    rw [List.flatten_cons, List.append_assoc] at h
    cases done' with
    | nil =>
      rw [List.flatten_nil, List.nil_append] at h
      rw [h, hp'] at hpeek
      cases hpeek
    | cons f' done' =>
      obtain ⟨hdr', hpeek', hlen', _⟩ := (hw' f' List.mem_cons_self).peek (done'.flatten ++ part')
      rw [List.flatten_cons, List.append_assoc] at h
      rw [h, hpeek'] at hpeek
      obtain rfl := Option.some.inj hpeek
      obtain ⟨_, hrest⟩ := List.append_inj h (hlen.symm.trans hlen')
      exact ih (fun x hx => hw x (List.mem_cons_of_mem _ hx)) (fun x hx => hw' x (List.mem_cons_of_mem _ hx)) hrest

/-! ## The receive buffer -/

namespace Gateway

variable {g : Gateway} {fd : Fd} {b : List UInt8}

theorem Buffers.unique {b' : List UInt8} (h : g.Buffers fd b) (h' : g.Buffers fd b') : b = b' :=
  Option.some.inj (h.symm.trans h')

theorem Buffers.recv (h : g.Buffers fd b) (data : List UInt8) : (g.recv fd data).Buffers fd (b ++ data) :=
  h.setConn fun _ hc => congrArg (· ++ data) hc

/-- What chunks leave buffered: all they bring less the whole frames. -/
theorem feed_walk (now : Nat → TsNanos) (chunks : List (List UInt8)) (hg : g.Buffers fd b) (hb : peekHeader b = none) :
    ∃ (done : List (List UInt8)) (part : List UInt8), b ++ chunks.flatten = done.flatten ++ part ∧
      (∀ f ∈ done, Whole f) ∧ peekHeader part = none ∧ (g.feed now fd chunks).Buffers fd part := by
  induction chunks generalizing g b with
  | nil => exact ⟨[], b, List.append_nil b, fun f hf => absurd hf List.not_mem_nil, hb, hg⟩
  | cons data chunks ih =>
    obtain ⟨done, part, hsplit, hw, hp⟩ := walk_frames _ (b ++ data) (Nat.le_refl _)
    have hrecv := hg.recv data
    rw [hsplit] at hrecv
    obtain ⟨hg1, _⟩ := parse_spec now hw hp hrecv
    obtain ⟨done', part', hsplit', hw', hp', hg2⟩ := ih hg1 hp
    refine ⟨done ++ done', part', ?_, ?_, hp', hg2⟩
    · rw [List.flatten_cons, ← List.append_assoc, hsplit, List.append_assoc, hsplit', List.flatten_append, List.append_assoc]
    · intro f hf
      rcases List.mem_append.mp hf with hf | hf
      · exact hw f hf
      · exact hw' f hf

/-- Behind a cramped frame nothing is consumed any more, whatever arrives. -/
theorem cramped_forever (now : Nat → TsNanos) (chunks : List (List UInt8)) (hg : g.Buffers fd b) (hc : Cramped b) :
    (g.feed now fd chunks).Buffers fd (b ++ chunks.flatten) := by
  obtain ⟨done, part, hsplit, hw, hp, hg'⟩ := feed_walk now chunks hg hc.peek
  have hcramped := hc.append chunks.flatten
  have hnone : ∀ f ∈ ([] : List (List UInt8)), Whole f := fun f hf => absurd hf List.not_mem_nil
  rw [walk_unique hnone hw hcramped.peek hp hsplit]
  exact hg'

/-- A stream with a cramped frame in it is kept from there on. -/
theorem not_awaits (now : Nat → TsNanos) {chunks : List (List UInt8)} (hopen : g.Buffers fd [])
    (hbad : Malformed chunks.flatten) : ¬ (g.feed now fd chunks).Awaits now fd := by
  intro ⟨x, hx, hpart, _⟩
  obtain ⟨done, part, hsplit, hw, hc⟩ := hbad
  obtain ⟨done', part', hsplit', hw', hp', hg'⟩ := feed_walk now chunks hopen (peekHeader_short (by decide))
  rw [List.nil_append, hsplit] at hsplit'
  obtain rfl := walk_unique hw hw' hc.peek hp' hsplit'
  obtain rfl := hg'.unique hx
  exact hpart.not_cramped hc

theorem awaits_of_partial (now : Nat → TsNanos) (hg : g.Buffers fd b) (h : Partial b) : g.Awaits now fd := by
  refine ⟨b, hg, h, h.length_lt, ?_⟩
  obtain ⟨f, hf, ⟨more, hmore⟩, _⟩ := h
  refine ⟨more, ?_⟩
  have hrecv := hg.recv more
  have hone : ∀ x ∈ [f], Whole x := fun x hx => by
    rw [List.mem_singleton.mp hx]
    exact hf
  rw [show b ++ more = [f].flatten ++ [] by rw [hmore]; simp] at hrecv
  exact (parse_spec now hone (peekHeader_short (by decide)) hrecv).1

/-- However a stream is cut, the buffer holds the start of one frame after every parse exactly
    when no frame of the stream is cramped. -/
theorem retained_iff (now : Nat → TsNanos) (g : Gateway) (fd : Fd) (hopen : g.Buffers fd []) (chunks : List (List UInt8)) :
    (∀ pre, pre <+: chunks → (g.feed now fd pre).Awaits now fd) ↔ ¬ Malformed chunks.flatten := by
  constructor
  · intro hall hbad
    exact not_awaits now hopen hbad (hall chunks (List.prefix_refl _))
  · intro hgood pre hpre
    obtain ⟨done, part, hsplit, hw, hp, hg'⟩ := feed_walk now pre hopen (peekHeader_short (by decide))
    rcases partial_or_cramped hp with hpart | hc
    · exact awaits_of_partial now hg' hpart
    · obtain ⟨post, rfl⟩ := hpre
      refine absurd ⟨done, part ++ post.flatten, ?_, hw, hc.append _⟩ hgood
      rw [List.nil_append] at hsplit
      rw [List.flatten_append, hsplit, List.append_assoc]

/-- A frame cut in its header. -/
theorem retained_iff_cut : (∀ pre, pre <+: [[3, 1, 40], [0]] → ((({} : Gateway).accept 4).feed (fun _ => 0) 4 pre).Awaits
    (fun _ => 0) 4) ↔ ¬ Malformed [[3, 1, 40], [0]].flatten :=
  retained_iff (fun _ => 0) (({} : Gateway).accept 4) 4 rfl [[3, 1, 40], [0]]

/-- A header of length 0 is never taken off the buffer. -/
theorem zero_length_sticks : ¬ ∀ pre, pre <+: [[1, 1, 0, 0, 0, 0, 0, 0]] →
    ((({} : Gateway).accept 4).feed (fun _ => 0) 4 pre).Awaits (fun _ => 0) 4 := by
  intro h
  have hfield : Cramped [1, 1, 0, 0, 0, 0, 0, 0] := by
    unfold Cramped lengthField
    decide
  have hbad : Malformed [[1, 1, 0, 0, 0, 0, 0, 0]].flatten :=
    ⟨[], [1, 1, 0, 0, 0, 0, 0, 0], rfl, fun f hf => absurd hf List.not_mem_nil, hfield⟩
  have hopen : (({} : Gateway).accept 4).Buffers 4 [] := rfl
  exact not_awaits _ hopen hbad (h _ (List.prefix_refl _))

end Gateway

end Lob
