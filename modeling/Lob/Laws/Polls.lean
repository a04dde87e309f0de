/-
  Lob.Laws.Polls — what a page that polls the stats file gets.

  The file at the path is never written to: what is written is the temporary one, which
  nobody else has open, and it takes the path's name when nothing more goes into it
  (`Published`). So what a poll has read is of one text: that of the file that was there at
  the start, or one document's. When the poll ends it has all of it, but for a document whose
  write failed, and that parses to what one snapshot shows; and a later poll never has an
  earlier text (`polls_whole`).
-/

import Lob.Laws.Documents
import Lob.Laws.Snapshots
import Lob.Server.StatsFile

namespace Lob

open Base Base.Json

namespace StatsServer

variable {B D : Type} {fmt : D → List Char} {docs docs' : List (DashboardDocument D)} {short short' : List Nat}
  {f0 files files' : Files StatsName Char} {s s' : StatsServer B D} {seen : List Nat} {i k : Nat} {p : Poll}

/-! ## The invariant -/

/-- What the file has: 0 stands for the file at the path at the start, `k + 1` for the document `k`,
    all of it unless its write failed. -/
def Holds (fmt : D → List Char) (f0 : Files StatsName Char) (docs : List (DashboardDocument D)) (short : List Nat)
    (files : Files StatsName Char) (i : Nat) : Nat → Prop
  | 0 => f0.dir .path = some i ∧ files.data i = f0.data i
  | k + 1 => ∃ d, docs[k]? = some d ∧ files.data i <+: text fmt d ∧ (k ∉ short → files.data i = text fmt d)

/-- A poll reads what `k` stands for, in a file that is not being written. -/
structure Reads (fmt : D → List Char) (f0 : Files StatsName Char) (docs : List (DashboardDocument D)) (short : List Nat)
    (files : Files StatsName Char) (p : Poll) (k : Nat) : Prop where
  made : p.file < files.next
  apart : files.dir .tmp ≠ some p.file
  holds : Holds fmt f0 docs short files p.file k
  got : p.got <+: files.data p.file
  ended : p.ended = true → p.got = files.data p.file

/-- The temporary file as far as it is written; `whole` is the last document, and `fine` that its
    write did not fail. -/
def Writing.Of (files : Files StatsName Char) (whole : List Char) (fine : Prop) : Writing → Prop
  | .idle => True
  | .opening text => text = whole
  | .writing i rest => files.dir .tmp = some i ∧ files.data i ++ rest = whole
  | .removing => ∃ i, files.dir .tmp = some i ∧ files.data i <+: whole ∧ (fine → files.data i = whole)
  | .renaming => ∃ i, files.dir .tmp = some i ∧ files.data i <+: whole ∧ (fine → files.data i = whole)

/-- `seen` are the texts of the polls, in their order. -/
structure Published (fmt : D → List Char) (f0 : Files StatsName Char) (s : StatsServer B D) (seen : List Nat) : Prop where
  files : s.files.WellFormed
  polls : List.Forall₂ (Reads fmt f0 s.docs s.short s.files) s.polls seen
  order : seen.Pairwise (· ≤ ·)
  path : ∀ i, s.files.dir .path = some i → ∃ k, Holds fmt f0 s.docs s.short s.files i k ∧ ∀ j ∈ seen, j ≤ k
  writing : s.writing = .idle ∨
    ∃ d, s.docs.getLast? = some d ∧ Writing.Of s.files (text fmt d) (s.docs.length - 1 ∉ s.short) s.writing

theorem Holds.le (h : Holds fmt f0 docs short files i k) : k ≤ docs.length := by
  cases k with
  | zero => exact Nat.zero_le _
  | succ k =>
    obtain ⟨d, hd, _⟩ := h
    exact (List.getElem?_eq_some_iff.mp hd).1

/-- Neither the documents before nor the file have changed. -/
theorem Holds.frame (h : Holds fmt f0 docs short files i k) (hdocs : docs <+: docs') (hshort : short ⊆ short')
    (hdata : files'.data i = files.data i) : Holds fmt f0 docs' short' files' i k := by
  cases k with
  | zero => exact ⟨h.1, hdata.trans h.2⟩
  | succ k =>
    obtain ⟨d, hd, hpart, hall⟩ := h
    obtain ⟨more, rfl⟩ := hdocs
    refine ⟨d, ?_, hdata ▸ hpart, fun hk => hdata.trans (hall fun hin => hk (hshort hin))⟩
    rw [List.getElem?_append_left (List.getElem?_eq_some_iff.mp hd).1]
    exact hd

theorem Reads.frame (h : Reads fmt f0 docs short files p k) (hdocs : docs <+: docs') (hshort : short ⊆ short')
    (hdata : files'.data p.file = files.data p.file) (hmade : p.file < files'.next) (hapart : files'.dir .tmp ≠ some p.file) :
    Reads fmt f0 docs' short' files' p k :=
  ⟨hmade, hapart, h.holds.frame hdocs hshort hdata, hdata ▸ h.got, fun he => (h.ended he).trans hdata.symm⟩

/-- What is seen is there. -/
theorem Published.seen_le (h : Published fmt f0 s seen) : ∀ j ∈ seen, j ≤ s.docs.length := by
  obtain ⟨-, hpolls, -, -, -⟩ := h
  generalize s.polls = polls at hpolls
  induction hpolls with
  | nil => exact fun j hj => absurd hj List.not_mem_nil
  | cons hr _ ih =>
    intro j hj
    rcases List.mem_cons.mp hj with rfl | hj
    · exact hr.holds.le
    · exact ih j hj

/-! ## The telemetry thread -/

/-- A step on the files that leaves alone those that are not being written, and gives the path's name to
    what there is of the last document only. -/
theorem Published.refile (h : Published fmt f0 s seen) {w : Writing} (hwf : files.WellFormed)
    (hkeep : ∀ j < s.files.next, s.files.dir .tmp ≠ some j →
      files.data j = s.files.data j ∧ j < files.next ∧ files.dir .tmp ≠ some j)
    (hpath : ∀ i, files.dir .path = some i → s.files.dir .path = some i ∨
      ∃ d, s.docs.getLast? = some d ∧ files.data i <+: text fmt d ∧ (s.docs.length - 1 ∉ s.short → files.data i = text fmt d))
    (hw : w = .idle ∨ ∃ d, s.docs.getLast? = some d ∧ Writing.Of files (text fmt d) (s.docs.length - 1 ∉ s.short) w) :
    Published fmt f0 { s with files := files, writing := w } seen where
  files := hwf
  polls := h.polls.imp fun p k hr => by
    obtain ⟨hdata, hmade, hapart⟩ := hkeep p.file hr.made hr.apart
    exact hr.frame (List.prefix_refl _) (List.Subset.refl _) hdata hmade hapart
  order := h.order
  path := by
    intro i hi
    rcases hpath i hi with hold | ⟨d, hd, hdata⟩
    · obtain ⟨k, hk, hseen⟩ := h.path i hold
      have hother : s.files.dir .tmp ≠ some i := fun ht => nomatch h.files.one _ _ i hold ht
      exact ⟨k, hk.frame (List.prefix_refl _) (List.Subset.refl _) (hkeep i (h.files.made _ i hold) hother).1, hseen⟩
    · rw [List.getLast?_eq_getElem?] at hd
      have hlt := (List.getElem?_eq_some_iff.mp hd).1
      exact ⟨s.docs.length - 1 + 1, ⟨d, hd, hdata⟩, fun j hj => (h.seen_le j hj).trans (by omega)⟩
  writing := hw

theorem Published.create (h : Published fmt f0 s seen) {ok : Bool} (hs : s.create ok = some s') : Published fmt f0 s' seen := by
  have hwriting := h.writing
  unfold StatsServer.create at hs
  split at hs
  case h_2 => cases hs
  next t ht =>
  split at hs
  · obtain rfl : { s with files := (s.files.truncate .tmp).2, writing := .writing (s.files.truncate .tmp).1 t } = s' :=
      Option.some.inj hs
    rw [ht] at hwriting
    rcases hwriting with hno | ⟨d, hd, rfl⟩
    · cases hno
    · refine h.refile (h.files.truncate .tmp) (fun j hj hne => ?_) (fun i hi => Or.inl ?_) (Or.inr ⟨d, hd, Files.truncate_dir, ?_⟩)
      · obtain ⟨hother, hdata, hmade⟩ := Files.truncate_frame hj hne
        refine ⟨hdata, hmade, ?_⟩
        rw [Files.truncate_dir]
        exact fun heq => hother (Option.some.inj heq)
      · rwa [Files.truncate_other (by decide)] at hi
      · rw [Files.truncate_data, List.nil_append]
  · cases hs
    exact h.refile h.files (fun j hj hne => ⟨rfl, hj, hne⟩) (fun i hi => Or.inl hi) (Or.inl rfl)

theorem Published.write (h : Published fmt f0 s seen) {n : Nat} (hs : s.write n = some s') : Published fmt f0 s' seen := by
  have hwriting := h.writing
  unfold StatsServer.write at hs
  split at hs
  case h_2 => cases hs
  next i rest ht =>
  cases hs
  rw [ht] at hwriting
  rcases hwriting with hno | ⟨d, hd, htmp, hwhole⟩
  · cases hno
  · have hdata : (s.files.append i (rest.take n)).data i ++ rest.drop n = text fmt d := by
      rw [Files.append_data, List.append_assoc, List.take_append_drop, hwhole]
    refine h.refile (h.files.append i _) (fun j hj hne => ⟨Files.append_other _ ?_, hj, hne⟩) (fun i hi => Or.inl hi) (Or.inr ⟨d, hd, ?_⟩)
    · rintro rfl
      exact hne htmp
    split
    · next hleft =>
      rw [List.isEmpty_iff.mp hleft, List.append_nil] at hdata
      exact ⟨i, htmp, ⟨[], by rw [List.append_nil, hdata]⟩, fun _ => hdata⟩
    · exact ⟨htmp, hdata⟩

/-- What there is of a document is a start of it. -/
theorem Published.fail (h : Published fmt f0 s seen) (hs : s.fail = some s') : Published fmt f0 s' seen := by
  have hwriting := h.writing
  unfold StatsServer.fail at hs
  split at hs
  case h_2 => cases hs
  next i rest ht =>
  cases hs
  rw [ht] at hwriting
  rcases hwriting with hno | ⟨d, hd, htmp, hwhole⟩
  · cases hno
  · have hshort : s.short ⊆ s.short ++ [s.docs.length - 1] := List.subset_append_left ..
    constructor
    case files => exact h.files
    case polls => exact h.polls.imp fun p k hr => hr.frame (List.prefix_refl _) hshort rfl hr.made hr.apart
    case order => exact h.order
    case path =>
      intro i hi
      obtain ⟨k, hk, hseen⟩ := h.path i hi
      exact ⟨k, hk.frame (List.prefix_refl _) hshort rfl, hseen⟩
    case writing =>
      refine Or.inr ⟨d, hd, i, htmp, ⟨rest, hwhole⟩, fun hfine => ?_⟩
      exact absurd (List.mem_append_right _ List.mem_cons_self) hfine

theorem Published.remove (h : Published fmt f0 s seen) {ok : Bool} (hs : s.remove ok = some s') :
    Published fmt f0 s' seen := by
  have hwriting := h.writing
  unfold StatsServer.remove at hs
  split at hs
  case h_2 => cases hs
  next ht =>
  cases hs
  rw [ht] at hwriting
  rcases hwriting with hno | ⟨d, hd, i, htmp, hwhole⟩
  · cases hno
  · cases ok with
    | false => exact h.refile h.files (fun j hj hne => ⟨rfl, hj, hne⟩) (fun i hi => Or.inl hi) (Or.inr ⟨d, hd, i, htmp, hwhole⟩)
    | true =>
      refine h.refile (h.files.remove .path) (fun j hj hne => ⟨rfl, hj, ?_⟩) (fun i hi => ?_) (Or.inr ⟨d, hd, i, ?_, hwhole⟩)
      · show (s.files.remove .path).dir .tmp ≠ some j
        rwa [Files.remove_other (by decide)]
      · have hi : (s.files.remove .path).dir .path = some i := hi
        rw [Files.remove_gone] at hi
        cases hi
      · show (s.files.remove .path).dir .tmp = some i
        rwa [Files.remove_other (by decide)]

theorem Published.rename (h : Published fmt f0 s seen) {ok : Bool} (hs : s.rename ok = some s') :
    Published fmt f0 s' seen := by
  have hwriting := h.writing
  unfold StatsServer.rename at hs
  split at hs
  case h_2 => cases hs
  next ht =>
  cases hs
  rw [ht] at hwriting
  rcases hwriting with hno | ⟨d, hd, i, htmp, hwhole⟩
  · cases hno
  · cases ok with
    | false => exact h.refile h.files (fun j hj hne => ⟨rfl, hj, hne⟩) (fun i hi => Or.inl hi) (Or.inl rfl)
    | true =>
      refine h.refile (h.files.rename (by decide)) (fun j hj hne => ⟨rfl, hj, ?_⟩) (fun k hk => Or.inr ⟨d, hd, ?_⟩) (Or.inl rfl)
      · show (s.files.rename .tmp .path).dir .tmp ≠ some j
        rw [Files.rename_gone]
        nofun
      · have hk : (s.files.rename .tmp .path).dir .path = some k := hk
        rw [Files.rename_dir (by decide), htmp] at hk
        cases hk
        exact hwhole

section Copy

variable [Book B]

theorem Published.copy (h : Published fmt f0 s seen) {doc : DashboardDocument D} (hs : s.copy fmt doc = some s') :
    Published fmt f0 s' seen := by
  unfold StatsServer.copy at hs
  split at hs
  case isFalse => cases hs
  obtain ⟨m, _, rfl⟩ := Option.map_eq_some_iff.mp hs
  have hdocs : s.docs <+: s.docs ++ [doc] := List.prefix_append ..
  constructor
  case files => exact h.files
  case polls => exact h.polls.imp fun p k hr => hr.frame hdocs (List.Subset.refl _) rfl hr.made hr.apart
  case order => exact h.order
  case path =>
    intro i hi
    obtain ⟨k, hk, hseen⟩ := h.path i hi
    exact ⟨k, hk.frame hdocs (List.Subset.refl _) rfl, hseen⟩
  case writing => exact Or.inr ⟨doc, List.getLast?_concat, rfl⟩

end Copy

/-! ## The polls -/

theorem Published.poll (h : Published fmt f0 s seen) : ∃ seen', Published fmt f0 s.poll seen' := by
  unfold StatsServer.poll
  split
  case h_2 => exact ⟨seen, h⟩
  next i hi =>
  obtain ⟨k, hk, hseen⟩ := h.path i hi
  have hother : s.files.dir .tmp ≠ some i := fun ht => nomatch h.files.one _ _ i hi ht
  refine ⟨seen ++ [k], h.files, ?_, ?_, ?_, h.writing⟩
  · have hnew : Reads fmt f0 s.docs s.short s.files { file := i } k := ⟨h.files.made _ i hi, hother, hk, List.nil_prefix, nofun⟩
    exact List.rel_append h.polls (.cons hnew .nil)
  · refine List.pairwise_append.mpr ⟨h.order, List.pairwise_singleton .., fun j hj l hl => ?_⟩
    rw [List.mem_singleton.mp hl]
    exact hseen j hj
  · intro i' hi'
    obtain rfl := Option.some.inj (hi.symm.trans hi')
    refine ⟨k, hk, fun j hj => ?_⟩
    rcases List.mem_append.mp hj with hj | hj
    · exact hseen j hj
    · exact (List.mem_singleton.mp hj).le

/-- Reading on: more of the same file, or its end. -/
theorem Reads.read (h : Reads fmt f0 docs short files p k) (n : Nat) :
    Reads fmt f0 docs short files (p.read (files.data p.file) n) k := by
  obtain ⟨rest, heq⟩ := h.got
  unfold Poll.read
  split
  · next hlt =>
    refine ⟨h.made, h.apart, h.holds, ?_, fun he => ?_⟩
    · show p.got ++ _ <+: files.data p.file
      rw [← heq, List.drop_left, List.prefix_append_right_inj]
      exact List.take_prefix n rest
    · rw [h.ended he] at hlt
      exact absurd hlt (Nat.lt_irrefl _)
  · next hge => exact ⟨h.made, h.apart, h.holds, h.got, fun _ => h.got.eq_of_length_le (Nat.not_lt.mp hge)⟩

theorem forall₂_modify {α β : Type} {R : α → β → Prop} {f : α → α} (hf : ∀ a b, R a b → R (f a) b) {l : List α} {r : List β}
    (h : List.Forall₂ R l r) (k : Nat) : List.Forall₂ R (l.modify k f) r := by
  induction h generalizing k with
  | nil => cases k <;> exact .nil
  | cons hab hrest ih =>
    cases k with
    | zero => exact .cons (hf _ _ hab) hrest
    | succ k => exact .cons hab (ih k)

theorem Published.read (h : Published fmt f0 s seen) (k n : Nat) : Published fmt f0 (s.read k n) seen :=
  ⟨h.files, forall₂_modify (fun _ _ hr => hr.read n) h.polls k, h.order, h.path, h.writing⟩

/-! ## Histories -/

variable [Book B] {m0 : Monitor B}

/-- What a history keeps: the documents are of the copies the telemetry thread has made. -/
structure Tracks (fmt : D → List Char) (m0 : Monitor B) (f0 : Files StatsName Char) (s : StatsServer B D) : Prop where
  monitor : ∃ h, m0.after h = some s.monitor
  copies : s.docs.map DashboardDocument.toDashboardSnapshot = s.monitor.written
  published : ∃ seen, Published fmt f0 s seen

/-- Only a move of the telemetry thread is a copy. -/
theorem written_same {m m' : Monitor B} {mv : Monitor.Move} (hne : mv ≠ .telemetry) (hm : m.step mv = some m') :
    m'.written = m.written := by
  cases mv with
  | gateway input =>
    cases hm
    rfl
  | publisher heartbeat =>
    cases hm
    rfl
  | telemetry => exact absurd rfl hne
  | engine now t1 due =>
    obtain ⟨p, _, hm⟩ := Option.bind_eq_some_iff.mp hm
    have hwent : (m.went t1 p).written = m.written := by
      obtain ⟨hist, ht, _⟩ := Monitor.timed_frame m t1 m.pipeline.popping
      unfold Monitor.went
      rw [ht]
      exact (Monitor.noted_frame { m with hist := hist } _).2.2
    split at hm <;> cases hm <;> exact hwent

omit [Book B] in
/-- The telemetry thread's calls change the files only. -/
theorem writer_frame {b : Bool} {n : Nat}
    (hs : s.create b = some s' ∨ s.write n = some s' ∨ s.fail = some s' ∨ s.remove b = some s' ∨ s.rename b = some s') :
    s'.monitor = s.monitor ∧ s'.docs = s.docs := by
  unfold StatsServer.create StatsServer.write StatsServer.fail StatsServer.remove StatsServer.rename at hs
  rcases hs with hs | hs | hs | hs | hs
  all_goals
    repeat' split at hs
    all_goals cases hs
    all_goals exact ⟨rfl, rfl⟩

theorem Tracks.same (h : Tracks fmt m0 f0 s) (hsame : s'.monitor = s.monitor ∧ s'.docs = s.docs)
    (hp : ∃ seen, Published fmt f0 s' seen) : Tracks fmt m0 f0 s' := by
  refine ⟨?_, ?_, hp⟩
  · rw [hsame.1]
    exact h.monitor
  · rw [hsame.1, hsame.2]
    exact h.copies

theorem Tracks.step (h : Tracks fmt m0 f0 s) {mv : Move D} (hs : s.step fmt mv = some s') : Tracks fmt m0 f0 s' := by
  obtain ⟨⟨hist, hmon⟩, hcopies, seen, hp⟩ := id h
  cases mv with
  | server mv =>
    simp only [StatsServer.step] at hs
    split at hs
    case isTrue => cases hs
    next hne =>
    obtain ⟨m, hm, rfl⟩ := Option.map_eq_some_iff.mp hs
    refine ⟨⟨mv :: hist, ?_⟩, hcopies.trans (written_same hne hm).symm, seen, hp.files, hp.polls, hp.order, hp.path, hp.writing⟩
    rw [Monitor.after, hmon]
    exact hm
  | copy doc =>
    have hcopy := hp.copy hs
    simp only [StatsServer.step, StatsServer.copy] at hs
    split at hs
    case isFalse => cases hs
    next hlegal =>
    obtain ⟨m, hm, rfl⟩ := Option.map_eq_some_iff.mp hs
    refine ⟨⟨.telemetry :: hist, ?_⟩, ?_, seen, hcopy⟩
    · rw [Monitor.after, hmon]
      exact hm
    · cases hm
      show (s.docs ++ [doc]).map _ = s.monitor.written ++ [s.monitor.snap]
      rw [List.map_append, hcopies, List.map_singleton, hlegal.2.1]
  | create ok => exact h.same (writer_frame (n := 0) (Or.inl hs)) ⟨seen, hp.create hs⟩
  | write n => exact h.same (writer_frame (b := true) (Or.inr (Or.inl hs))) ⟨seen, hp.write hs⟩
  | fail => exact h.same (writer_frame (n := 0) (b := true) (Or.inr (Or.inr (Or.inl hs)))) ⟨seen, hp.fail hs⟩
  | remove ok => exact h.same (writer_frame (n := 0) (Or.inr (Or.inr (Or.inr (Or.inl hs))))) ⟨seen, hp.remove hs⟩
  | rename ok => exact h.same (writer_frame (n := 0) (Or.inr (Or.inr (Or.inr (Or.inr hs))))) ⟨seen, hp.rename hs⟩
  | poll =>
    cases hs
    have hframe : s.poll.monitor = s.monitor ∧ s.poll.docs = s.docs := by
      unfold StatsServer.poll
      split <;> exact ⟨rfl, rfl⟩
    exact h.same hframe hp.poll
  | read k n =>
    cases hs
    exact h.same ⟨rfl, rfl⟩ ⟨seen, hp.read k n⟩

/-- With nothing written yet, and the files `f0` there. -/
def start (D : Type) (m0 : Monitor B) (f0 : Files StatsName Char) : StatsServer B D := { monitor := m0, files := f0 }

theorem after_tracks (h0 : m0.written = []) (hf : f0.WellFormed) : ∀ {h : List (Move D)} {s : StatsServer B D},
    (start D m0 f0).after fmt h = some s → Tracks fmt m0 f0 s := by
  intro h
  induction h with
  | nil =>
    rintro s ⟨⟩
    exact ⟨⟨[], rfl⟩, h0.symm, [], hf, .nil, .nil, fun i hi => ⟨0, ⟨hi, rfl⟩, nofun⟩, Or.inl rfl⟩
  | cons mv h ih =>
    intro s hs
    obtain ⟨s1, h1, hs⟩ := Option.bind_eq_some_iff.mp hs
    exact (ih h1).step hs

/-- A text with the line's end reads as without. -/
theorem read_text {d : DashboardDocument D} (hd : d.Printable fmt) : (parse (text fmt d)).map Value.read = some (d.reading fmt) := by
  obtain ⟨v, hlex, hread⟩ := hd.lex_toJson
  have hend := lex_append hlex (c := '\n') (b := []) (w := []) (by decide) (by decide)
  rw [List.append_nil] at hend
  exact parse_reads ⟨v, hend.lex, hread⟩

/-! ## The law -/

/-- What a poll has got: of the file that was there at the start, or of one document. -/
def Tells (fmt : D → List Char) (f0 : Files StatsName Char) (s : StatsServer B D) (p : Poll) : Nat → Prop
  | 0 => ∃ i, f0.dir .path = some i ∧ p.got <+: f0.data i ∧ (p.ended = true → p.got = f0.data i)
  | k + 1 => ∃ d, s.docs[k]? = some d ∧ p.got <+: text fmt d ∧ (p.ended = true → k ∉ s.short →
      p.got = text fmt d ∧ (d.Printable fmt → (parse p.got).map Value.read = some (d.reading fmt)))

omit [Book B] in
theorem Reads.tells (h : Reads fmt f0 s.docs s.short s.files p k) : Tells fmt f0 s p k := by
  have hholds := h.holds
  cases k with
  | zero =>
    obtain ⟨hi, hdata⟩ := hholds
    exact ⟨p.file, hi, hdata ▸ h.got, fun he => (h.ended he).trans hdata⟩
  | succ k =>
    obtain ⟨d, hd, hpart, hall⟩ := hholds
    refine ⟨d, hd, h.got.trans hpart, fun he hk => ?_⟩
    have hgot := (h.ended he).trans (hall hk)
    exact ⟨hgot, fun hprint => hgot ▸ read_text hprint⟩

/-- The documents show states of the engine's run, in their order. A poll has some of one text, all of it when it
    ends unless it is a document whose write failed, and the polls' texts are in order. -/
theorem polls_whole {cfg : DashboardConfig} {ecfg : EngineConfig} {i e n : Nat} {listening udpValid : Bool} {m0 : Monitor B}
    (h0 : Monitor.start cfg ecfg i e n listening udpValid = some m0) {f0 : Files StatsName Char} (hf : f0.WellFormed)
    {h : List (Move D)} {s : StatsServer B D} (hs : (start D m0 f0).after fmt h = some s) :
    ∃ (pres : List (List Engine.Input)) (seen : List Nat),
      List.Forall₂ (fun d pre => d.toDashboardSnapshot.Shows cfg m0.pipeline.engine pre) s.docs pres ∧
        pres.Pairwise (· <+: ·) ∧ seen.Pairwise (· ≤ ·) ∧ List.Forall₂ (Tells fmt f0 s) s.polls seen := by
  obtain ⟨_, hshown⟩ := Monitor.start_shown h0
  have hwritten : m0.written = [] := List.forall₂_nil_right_iff.mp hshown.told.written
  obtain ⟨⟨hist, hmon⟩, hcopies, seen, hp⟩ := after_tracks hwritten hf hs
  obtain ⟨is, done, pres, pre, hshows⟩ := Monitor.after_shown hshown hmon
  refine ⟨pres, seen, ?_, (List.pairwise_append.mp hshows.told.order).1, hp.order, hp.polls.imp fun p k hr => hr.tells⟩
  have hall := hshows.told.written
  rw [← hcopies] at hall
  exact List.forall₂_map_left_iff.mp hall

/-- A document after so many seconds, nothing having happened. -/
def quiet (uptime : Nat) : DashboardDocument Nat :=
  { uptimeS := uptime, throughputOps := 0, mdMsgsPerS := 0, mdMbitPerS := 0, latMean := 0 }

/-- The file of an earlier run. -/
def oldRun : Files StatsName Char where
  dir n := if n = .path then some 0 else none
  data _ := "old\n".toList
  next := 1

/-- A poll of the old file that reads on while a document replaces it, one of that document, and one of a document
    whose write failed after 100 characters. -/
def pollThrice : List (Move Nat) :=
  [.read 2 1, .read 2 5000, .read 1 1, .read 1 5000, .read 0 1, .read 0 5000, .poll, .rename true, .remove true, .fail,
    .write 100, .create true, .copy (quiet 6), .read 1 100, .poll, .rename true, .read 0 2, .remove true, .write 5000,
    .create true, .copy (quiet 5), .poll]

theorem polls_whole_thrice : ∃ (m0 : Monitor OrderBook) (s : StatsServer OrderBook Nat),
    Monitor.start {} { minPrice := 1, maxPrice := 500, maxOrders := 4 } 2 8 2 true true = some m0 ∧
      (start Nat m0 oldRun).after (Nat.toDigits 10) pollThrice = some s ∧
        ∃ p q r d, s.polls = [p, q, r] ∧ p.got = "old\n".toList ∧ d ∈ s.docs ∧ d.uptimeS = 5 ∧
          (parse q.got).map Value.read = some (d.reading (Nat.toDigits 10)) ∧ r.ended = true ∧ r.got.length = 100 := by
  have key : (do
      let m0 ← Monitor.start (B := OrderBook) {} { minPrice := 1, maxPrice := 500, maxOrders := 4 } 2 8 2 true true
      let s ← (start Nat m0 oldRun).after (Nat.toDigits 10) pollThrice
      some (decide (s.polls.map (·.ended) = [true, true, true] ∧ s.docs.map (·.uptimeS) = [5, 6] ∧ s.short = [1] ∧
        (∀ d ∈ s.docs, d.Printable (Nat.toDigits 10)) ∧ (∀ p ∈ s.polls[0]?, p.got = "old\n".toList) ∧
        (∀ q ∈ s.polls[1]?, ¬ q.got <+: "old\n".toList ∧ ∀ d ∈ s.docs[1]?, ¬ q.got <+: text (Nat.toDigits 10) d) ∧
        ∀ r ∈ s.polls[2]?, r.got.length = 100))) = some true := by
    decide +kernel
  obtain ⟨m0, h0, key⟩ := Option.bind_eq_some_iff.mp key
  obtain ⟨s, hs, key⟩ := Option.bind_eq_some_iff.mp key
  obtain ⟨hends, huptimes, hshort, hprint, hp, hq, hr⟩ := of_decide_eq_true (Option.some.inj key)
  obtain ⟨p, polls, hpolls, _, hends⟩ := List.map_eq_cons_iff.mp hends
  obtain ⟨q, polls, rfl, hqended, hends⟩ := List.map_eq_cons_iff.mp hends
  obtain ⟨r, polls, rfl, hrended, hends⟩ := List.map_eq_cons_iff.mp hends
  obtain rfl := List.map_eq_nil_iff.mp hends
  obtain ⟨d, docs, hdocs, hd, huptimes⟩ := List.map_eq_cons_iff.mp huptimes
  obtain ⟨d', docs, rfl, _, huptimes⟩ := List.map_eq_cons_iff.mp huptimes
  obtain rfl := List.map_eq_nil_iff.mp huptimes
  rw [hpolls] at hp hq hr
  rw [hdocs] at hprint hq
  obtain ⟨hold, hnext⟩ := hq q rfl
  have hfiles : oldRun.WellFormed := by
    constructor
    · intro n i hi
      obtain ⟨-, hi⟩ := Option.ite_none_right_eq_some.mp hi
      cases hi
      decide
    · intro n m i hi hj
      obtain ⟨rfl, -⟩ := Option.ite_none_right_eq_some.mp hi
      obtain ⟨rfl, -⟩ := Option.ite_none_right_eq_some.mp hj
      rfl
  obtain ⟨pres, seen, _, _, _, htells⟩ := polls_whole h0 hfiles hs
  rw [hpolls] at htells
  obtain ⟨k, hk⟩ : ∃ k, Tells (Nat.toDigits 10) oldRun s q k := by
    cases htells with
    | cons _ hrest =>
      cases hrest with
      | cons hmine _ => exact ⟨_, hmine⟩
  refine ⟨m0, s, h0, hs, p, q, r, d, hpolls, hp p rfl, hdocs ▸ List.mem_cons_self, hd, ?_, hrended, hr r rfl⟩
  rcases k with _ | _ | _ | k
  · obtain ⟨i, _, hgot, _⟩ := hk
    exact absurd hgot hold
  · obtain ⟨e, he, _, hall⟩ := hk
    rw [hdocs] at he
    cases he
    exact (hall hqended (by rw [hshort]; decide)).2 (hprint d List.mem_cons_self)
  · obtain ⟨e, he, hgot, _⟩ := hk
    rw [hdocs] at he
    cases he
    exact absurd hgot (hnext d' rfl)
  · obtain ⟨e, he, _⟩ := hk
    rw [hdocs] at he
    cases he

end StatsServer

end Lob
