/-
  Lob.Base.Json — reading a JSON document.

  `lex` cuts a text into tokens one character at a time, so that a text is lexed piece by
  piece: `Clean` is what a text amounts to so far, no number going on. `parse` reads the
  tokens. The tokens of a value read back as it, and so does every text that lexes to them,
  however it is laid out (`parse_of_lex`). `Value.read` reads the numbers that are integers.

  Left out of JSON: escapes in a string, `true`, `false` and `null`.
-/

import Mathlib.Data.List.TakeWhile

namespace Lob.Base.Json

inductive Token where
  | punct (c : Char)
  | str (s : List Char)
  | num (text : List Char)
  deriving DecidableEq, Repr

/-! ## Numbers -/

/-- What is left after one digit and those that follow. -/
def digits : List Char → Option (List Char)
  | [] => none
  | c :: cs => if c.isDigit then some (cs.dropWhile Char.isDigit) else none

def intPart : List Char → Option (List Char)
  | '0' :: cs => some cs
  | cs => digits cs

def fracPart : List Char → Option (List Char)
  | '.' :: cs => digits cs
  | cs => some cs

def expPart : List Char → Option (List Char)
  | c :: cs =>
    if c = 'e' ∨ c = 'E' then
      match cs with
      | '+' :: cs => digits cs
      | '-' :: cs => digits cs
      | cs => digits cs
    else some (c :: cs)
  | [] => some []

/-- From the digits on. -/
def unsigned (cs : List Char) : Option (List Char) := (intPart cs).bind fun cs => (fracPart cs).bind expPart

def isNumber : List Char → Bool
  | '-' :: cs => unsigned cs = some []
  | cs => unsigned cs = some []

def inNumber (c : Char) : Bool := c.isDigit || c == '-' || c == '+' || c == '.' || c == 'e' || c == 'E'

/-! ## Tokens of a text -/

inductive Mode where
  | between
  | str (s : List Char)
  | num (text : List Char)
  deriving DecidableEq, Repr

structure Lexer where
  tokens : List Token := []
  mode : Mode := .between
  deriving DecidableEq, Repr

def isSpace (c : Char) : Bool := c == ' ' || c == '\n' || c == '\r' || c == '\t'

def isPunct (c : Char) : Bool := c == '{' || c == '}' || c == '[' || c == ']' || c == ':' || c == ','

/-- It stands for itself in a string. -/
def plain (c : Char) : Bool := c != '"' && c != '\\' && 32 ≤ c.toNat

namespace Lexer

/-- A character where no token has begun. -/
def start (tokens : List Token) (c : Char) : Option Lexer :=
  if isSpace c then some ⟨tokens, .between⟩
  else if isPunct c then some ⟨tokens ++ [.punct c], .between⟩
  else if c = '"' then some ⟨tokens, .str []⟩
  else if inNumber c then some ⟨tokens, .num [c]⟩
  else none

def step (l : Lexer) (c : Char) : Option Lexer :=
  match l.mode with
  | .between => start l.tokens c
  | .str s =>
    if c = '"' then some ⟨l.tokens ++ [.str s], .between⟩
    else if plain c then some ⟨l.tokens, .str (s ++ [c])⟩
    else none
  | .num text =>
    if inNumber c then some ⟨l.tokens, .num (text ++ [c])⟩
    else if isNumber text then start (l.tokens ++ [.num text]) c
    else none

def run : Lexer → List Char → Option Lexer
  | l, [] => some l
  | l, c :: cs => (l.step c).bind fun l => l.run cs

/-- At the end of the text. -/
def finish (l : Lexer) : Option (List Token) :=
  match l.mode with
  | .between => some l.tokens
  | .str _ => none
  | .num text => if isNumber text then some (l.tokens ++ [.num text]) else none

end Lexer

def lex (cs : List Char) : Option (List Token) := (Lexer.run {} cs).bind Lexer.finish

/-! ## Values -/

inductive Value where
  | num (text : List Char)
  | str (s : List Char)
  | arr (items : List Value)
  | obj (members : List (List Char × Value))

mutual

/-- The first value of the tokens, with the tokens after it. -/
def value : Nat → List Token → Option (Value × List Token)
  | 0, _ => none
  | _ + 1, .num text :: ts => some (.num text, ts)
  | _ + 1, .str s :: ts => some (.str s, ts)
  | _ + 1, .punct '[' :: .punct ']' :: ts => some (.arr [], ts)
  | fuel + 1, .punct '[' :: ts => (items fuel ts).map fun r => (.arr r.1, r.2)
  | _ + 1, .punct '{' :: .punct '}' :: ts => some (.obj [], ts)
  | fuel + 1, .punct '{' :: ts => (members fuel ts).map fun r => (.obj r.1, r.2)
  | _ + 1, _ => none

/-- The items up to the bracket. -/
def items : Nat → List Token → Option (List Value × List Token)
  | 0, _ => none
  | fuel + 1, ts =>
    match value fuel ts with
    | some (v, .punct ',' :: ts) => (items fuel ts).map fun r => (v :: r.1, r.2)
    | some (v, .punct ']' :: ts) => some ([v], ts)
    | _ => none

def members : Nat → List Token → Option (List (List Char × Value) × List Token)
  | fuel + 1, .str k :: .punct ':' :: ts =>
    match value fuel ts with
    | some (v, .punct ',' :: ts) => (members fuel ts).map fun r => ((k, v) :: r.1, r.2)
    | some (v, .punct '}' :: ts) => some ([(k, v)], ts)
    | _ => none
  | _, _ => none

end

/-- The value of a document. -/
def parse (cs : List Char) : Option Value :=
  (lex cs).bind fun ts =>
    match value (2 * ts.length) ts with
    | some (v, []) => some v
    | _ => none

mutual

def Value.tokens : Value → List Token
  | .num text => [.num text]
  | .str s => [.str s]
  | .arr items => .punct '[' :: (itemTokens items ++ [.punct ']'])
  | .obj members => .punct '{' :: (memberTokens members ++ [.punct '}'])

def itemTokens : List Value → List Token
  | [] => []
  | [v] => v.tokens
  | v :: w :: vs => v.tokens ++ .punct ',' :: itemTokens (w :: vs)

def memberTokens : List (List Char × Value) → List Token
  | [] => []
  | [(k, v)] => .str k :: .punct ':' :: v.tokens
  | (k, v) :: m :: ms => .str k :: .punct ':' :: (v.tokens ++ .punct ',' :: memberTokens (m :: ms))

end

/-! ## What a document says -/

def natural (cs : List Char) : Option Nat :=
  if cs ≠ [] ∧ cs.all Char.isDigit then some (Nat.ofDigitChars 10 cs 0) else none

/-- The integer a text is the decimals of. -/
def integer : List Char → Option Int
  | '-' :: cs => (natural cs).map fun n => -(n : Int)
  | cs => (natural cs).map Int.ofNat

/-- A value with its integers read; `real` is any other number. -/
inductive Reading where
  | int (n : Int)
  | real (text : List Char)
  | str (s : List Char)
  | arr (items : List Reading)
  | obj (members : List (List Char × Reading))

def Reading.num (text : List Char) : Reading := ((integer text).map Reading.int).getD (.real text)

mutual

def Value.read : Value → Reading
  | .num text => .num text
  | .str s => .str s
  | .arr items => .arr (readItems items)
  | .obj members => .obj (readMembers members)

def readItems : List Value → List Reading
  | [] => []
  | v :: vs => v.read :: readItems vs

def readMembers : List (List Char × Value) → List (List Char × Reading)
  | [] => []
  | (k, v) :: ms => (k, v.read) :: readMembers ms

end

theorem readItems_eq (vs : List Value) : readItems vs = vs.map Value.read := by
  induction vs with
  | nil => rfl
  | cons v vs ih => rw [readItems, ih, List.map_cons]

/-! ## Numbers are of their characters -/

theorem digits_split {cs rest : List Char} (h : digits cs = some rest) :
    ∃ ds, cs = ds ++ rest ∧ ds ≠ [] ∧ ∀ c ∈ ds, inNumber c = true := by
  cases cs with
  | nil => cases h
  | cons c cs =>
    rw [digits] at h
    split at h
    case isFalse => cases h
    next hc =>
    obtain rfl := Option.some.inj h
    refine ⟨c :: cs.takeWhile Char.isDigit, ?_, nofun, fun d hd => ?_⟩
    · rw [List.cons_append, List.takeWhile_append_dropWhile]
    · rcases List.mem_cons.mp hd with rfl | hd
      · simp [inNumber, hc]
      · simp [inNumber, List.mem_takeWhile_imp hd]

theorem intPart_split {cs rest : List Char} (h : intPart cs = some rest) :
    ∃ ds, cs = ds ++ rest ∧ ds ≠ [] ∧ ∀ c ∈ ds, inNumber c = true := by
  unfold intPart at h
  split at h
  · obtain rfl := Option.some.inj h
    exact ⟨['0'], rfl, nofun, by simp [inNumber]⟩
  · exact digits_split h

theorem fracPart_split {cs rest : List Char} (h : fracPart cs = some rest) :
    ∃ ds, cs = ds ++ rest ∧ ∀ c ∈ ds, inNumber c = true := by
  unfold fracPart at h
  split at h
  · obtain ⟨ds, rfl, -, hds⟩ := digits_split h
    refine ⟨'.' :: ds, rfl, fun c hc => ?_⟩
    rcases List.mem_cons.mp hc with rfl | hc
    · rfl
    · exact hds c hc
  · obtain rfl := Option.some.inj h
    exact ⟨[], rfl, nofun⟩

theorem expPart_all {cs : List Char} (h : expPart cs = some []) : ∀ c ∈ cs, inNumber c = true := by
  have hdigits : ∀ {cs : List Char}, digits cs = some [] → ∀ c ∈ cs, inNumber c = true := by
    intro cs h
    obtain ⟨ds, rfl, -, hds⟩ := digits_split h
    rwa [List.append_nil]
  unfold expPart at h
  split at h
  · next e cs =>
    split at h
    case isFalse => cases h
    next he =>
    have hfirst : inNumber e = true := by rcases he with rfl | rfl <;> rfl
    intro c hc
    rcases List.mem_cons.mp hc with rfl | hc
    · exact hfirst
    · split at h
      · rcases List.mem_cons.mp hc with rfl | hc
        · rfl
        · exact hdigits h c hc
      · rcases List.mem_cons.mp hc with rfl | hc
        · rfl
        · exact hdigits h c hc
      · exact hdigits h c hc
  · nofun

theorem unsigned_all {cs : List Char} (h : unsigned cs = some []) : cs ≠ [] ∧ ∀ c ∈ cs, inNumber c = true := by
  obtain ⟨cs1, hint, h⟩ := Option.bind_eq_some_iff.mp h
  obtain ⟨cs2, hfrac, hexp⟩ := Option.bind_eq_some_iff.mp h
  obtain ⟨ds, rfl, hne, hds⟩ := intPart_split hint
  obtain ⟨es, rfl, hes⟩ := fracPart_split hfrac
  refine ⟨by simp [hne], fun c hc => ?_⟩
  rcases List.mem_append.mp hc with hc | hc
  · exact hds c hc
  · rcases List.mem_append.mp hc with hc | hc
    · exact hes c hc
    · exact expPart_all hexp c hc

theorem isNumber_all {t : List Char} (h : isNumber t = true) : t ≠ [] ∧ ∀ c ∈ t, inNumber c = true := by
  unfold isNumber at h
  split at h
  · refine ⟨nofun, fun c hc => ?_⟩
    rcases List.mem_cons.mp hc with rfl | hc
    · rfl
    · exact (unsigned_all (of_decide_eq_true h)).2 c hc
  · exact unsigned_all (of_decide_eq_true h)

/-! ## Integers -/

def decimal (n : Int) : List Char := n.repr.toList

def Value.int (n : Int) : Value := .num (decimal n)

theorem digits_all {cs : List Char} (hne : cs ≠ []) (h : ∀ c ∈ cs, c.isDigit = true) : digits cs = some [] := by
  cases cs with
  | nil => exact absurd rfl hne
  | cons c cs =>
    rw [digits, if_pos (h c List.mem_cons_self), List.dropWhile_eq_nil_iff.mpr fun d hd => h d (List.mem_cons_of_mem c hd)]

/-- No number but 0 begins with it. -/
theorem toDigits_head (n : Nat) : ∀ ds : List Char, Nat.toDigits 10 n = '0' :: ds → ds = [] := by
  induction n using Nat.strongRecOn with
  | ind n ih =>
    intro ds h
    by_cases hn : n < 10
    · rw [Nat.toDigits_of_lt_base hn] at h
      exact (List.cons.inj h).2.symm
    · rw [Nat.toDigits_of_base_le (by decide) (by omega)] at h
      obtain ⟨e, es, heq⟩ : ∃ e es, Nat.toDigits 10 (n / 10) = e :: es := List.exists_cons_of_ne_nil Nat.toDigits_ne_nil
      rw [heq, List.cons_append] at h
      obtain rfl := (List.cons.inj h).1
      have hzero : Nat.ofDigitChars 10 (Nat.toDigits 10 (n / 10)) 0 = n / 10 := Nat.ofDigitChars_toDigits (by decide) (by decide)
      rw [heq, ih (n / 10) (by omega) es heq] at hzero
      have hnone : Nat.ofDigitChars 10 ['0'] 0 = 0 := rfl
      omega

theorem unsigned_toDigits (n : Nat) : unsigned (Nat.toDigits 10 n) = some [] := by
  have hall : ∀ c ∈ Nat.toDigits 10 n, c.isDigit = true := fun c => Nat.isDigit_of_mem_toDigits (by decide) (by decide)
  have hint : intPart (Nat.toDigits 10 n) = some [] := by
    unfold intPart
    split
    · next cs h => rw [toDigits_head n cs h]
    · exact digits_all Nat.toDigits_ne_nil hall
  rw [unsigned, hint]
  rfl

theorem decimal_ofNat (n : Nat) : decimal (.ofNat n) = Nat.toDigits 10 n := String.toList_ofList

theorem decimal_negSucc (n : Nat) : decimal (.negSucc n) = '-' :: Nat.toDigits 10 (n + 1) := by
  show ("-" ++ Nat.repr (n + 1)).toList = _
  rw [String.toList_append]
  exact congrArg (['-'] ++ ·) String.toList_ofList

/-- No digit is a minus. -/
theorem toDigits_ne_minus {n : Nat} {cs : List Char} : Nat.toDigits 10 n ≠ '-' :: cs := by
  intro h
  have hmem : '-' ∈ Nat.toDigits 10 n := h ▸ List.mem_cons_self
  cases Nat.isDigit_of_mem_toDigits (by decide) (by decide) hmem

theorem isNumber_decimal (n : Int) : isNumber (decimal n) = true := by
  cases n with
  | ofNat n =>
    rw [decimal_ofNat]
    unfold isNumber
    split
    · next h => exact absurd h toDigits_ne_minus
    · exact decide_eq_true (unsigned_toDigits n)
  | negSucc n =>
    rw [decimal_negSucc]
    exact decide_eq_true (unsigned_toDigits (n + 1))

theorem natural_toDigits (n : Nat) : natural (Nat.toDigits 10 n) = some n := by
  have hall : (Nat.toDigits 10 n).all Char.isDigit = true :=
    List.all_eq_true.mpr fun c => Nat.isDigit_of_mem_toDigits (by decide) (by decide)
  rw [natural, if_pos ⟨Nat.toDigits_ne_nil, hall⟩, Nat.ofDigitChars_toDigits (by decide) (by decide)]

theorem integer_decimal (n : Int) : integer (decimal n) = some n := by
  cases n with
  | ofNat n =>
    rw [decimal_ofNat]
    unfold integer
    split
    · next h => exact absurd h toDigits_ne_minus
    · rw [natural_toDigits]
      rfl
  | negSucc n =>
    rw [decimal_negSucc, integer, natural_toDigits]
    rfl

/-- An integer that was written is read. -/
@[simp] theorem read_int (n : Int) : (Value.int n).read = .int n := by
  rw [Value.int, Value.read, Reading.num, integer_decimal]
  rfl

/-! ## The lexer on a text in pieces -/

namespace Lexer

theorem run_append (l : Lexer) (cs ds : List Char) : l.run (cs ++ ds) = (l.run cs).bind fun l => l.run ds := by
  induction cs generalizing l with
  | nil => rfl
  | cons c cs ih =>
    rw [List.cons_append, run, run, Option.bind_assoc]
    congr 1
    funext l
    exact ih l

/-- With tokens before. -/
def after (pre : List Token) (l : Lexer) : Lexer := ⟨pre ++ l.tokens, l.mode⟩

theorem start_after (pre ts : List Token) (c : Char) : start (pre ++ ts) c = (start ts c).map (after pre) := by
  unfold start
  repeat' split
  all_goals simp [after]

theorem step_after (pre : List Token) (l : Lexer) (c : Char) : (l.after pre).step c = (l.step c).map (after pre) := by
  obtain ⟨ts, mode⟩ := l
  cases mode with
  | between => exact start_after pre ts c
  | str s =>
    simp only [step, after]
    repeat' split
    all_goals simp [after]
  | num text =>
    simp only [step, after]
    split
    · rfl
    · split
      · rw [List.append_assoc]
        exact start_after pre _ c
      · rfl

theorem run_after (pre : List Token) (l : Lexer) (cs : List Char) : (l.after pre).run cs = (l.run cs).map (after pre) := by
  induction cs generalizing l with
  | nil => rfl
  | cons c cs ih =>
    rw [run, run, step_after]
    cases l.step c with
    | none => rfl
    | some l => exact ih l

/-- What is no part of a number ends one. -/
theorem step_finish {l : Lexer} {ts : List Token} (h : l.finish = some ts) {c : Char} (hc : inNumber c = false) :
    l.step c = start ts c := by
  obtain ⟨toks, mode⟩ := l
  cases mode with
  | between =>
    obtain rfl := Option.some.inj h
    rfl
  | str s => cases h
  | num text =>
    simp only [finish] at h
    split at h
    case isFalse => cases h
    next hnum =>
    obtain rfl := Option.some.inj h
    simp only [step, hc, hnum, if_true, Bool.false_eq_true, if_false]

theorem run_str (ts : List Token) (a : List Char) : ∀ s : List Char, s.all plain = true →
    Lexer.run ⟨ts, .str a⟩ s = some ⟨ts, .str (a ++ s)⟩ := by
  intro s
  induction s generalizing a with
  | nil => simp [run]
  | cons c s ih =>
    intro h
    obtain ⟨hc, hs⟩ := Bool.and_eq_true_iff.mp h
    have hquote : c ≠ '"' := by
      rintro rfl
      cases hc
    rw [run]
    simp only [step, if_neg hquote, if_pos hc, Option.bind_some]
    rw [ih (a ++ [c]) hs, List.append_assoc, List.singleton_append]

theorem run_num (ts : List Token) (a : List Char) : ∀ s : List Char, (∀ c ∈ s, inNumber c = true) →
    Lexer.run ⟨ts, .num a⟩ s = some ⟨ts, .num (a ++ s)⟩ := by
  intro s
  induction s generalizing a with
  | nil => simp [run]
  | cons c s ih =>
    intro h
    rw [run]
    simp only [step, if_pos (h c List.mem_cons_self), Option.bind_some]
    rw [ih (a ++ [c]) fun d hd => h d (List.mem_cons_of_mem c hd), List.append_assoc, List.singleton_append]

end Lexer

/-- No token is left open at the end. -/
def Clean (a : List Char) (u : List Token) : Prop := Lexer.run {} a = some ⟨u, .between⟩

instance (a : List Char) (u : List Token) : Decidable (Clean a u) := by
  unfold Clean
  infer_instance

variable {a b s t : List Char} {u w : List Token}

theorem Clean.lex (h : Clean a u) : lex a = some u := by
  rw [Json.lex, h]
  rfl

theorem Clean.append (h : Clean a u) (hd : Clean b w) : Clean (a ++ b) (u ++ w) := by
  have hafter := Lexer.run_after u {} b
  rw [hd] at hafter
  rw [Clean, Lexer.run_append, h]
  simpa [Lexer.after] using hafter

/-- A piece that begins with no part of a number. -/
theorem lex_append (h : lex a = some u) {c : Char} (hc : inNumber c = false) (hd : Clean (c :: b) w) :
    Clean (a ++ c :: b) (u ++ w) := by
  obtain ⟨l, hrun, hfin⟩ := Option.bind_eq_some_iff.mp h
  have hbetween : Lexer.run ⟨u, .between⟩ (c :: b) = some ⟨u ++ w, .between⟩ := by
    have hafter := Lexer.run_after u {} (c :: b)
    rw [hd] at hafter
    simpa [Lexer.after] using hafter
  rw [Clean, Lexer.run_append, hrun, ← hbetween]
  show l.run (c :: b) = _
  rw [Lexer.run, Lexer.run, Lexer.step_finish hfin hc]
  rfl

theorem Clean.number (h : Clean a u) (ht : isNumber t = true) : Json.lex (a ++ t) = some (u ++ [.num t]) := by
  obtain ⟨hne, hall⟩ := isNumber_all ht
  cases t with
  | nil => exact absurd rfl hne
  | cons c t =>
    have hstart : Lexer.start u c = some ⟨u, .num [c]⟩ := by
      have hc := hall c List.mem_cons_self
      have hspace : isSpace c = false := by
        rw [Bool.eq_false_iff]
        intro h
        simp only [isSpace, Bool.or_eq_true, beq_iff_eq] at h
        rcases h with ((rfl | rfl) | rfl) | rfl <;> cases hc
      have hpunct : isPunct c = false := by
        rw [Bool.eq_false_iff]
        intro h
        simp only [isPunct, Bool.or_eq_true, beq_iff_eq] at h
        rcases h with ((((rfl | rfl) | rfl) | rfl) | rfl) | rfl <;> cases hc
      have hquote : c ≠ '"' := by
        rintro rfl
        cases hc
      simp [Lexer.start, hspace, hpunct, hquote, hc]
    have hrun : Lexer.run {} (a ++ c :: t) = some ⟨u, .num (c :: t)⟩ := by
      rw [Lexer.run_append, h]
      show Lexer.run ⟨u, .between⟩ (c :: t) = _
      rw [Lexer.run]
      show (Lexer.start u c).bind _ = _
      rw [hstart]
      exact Lexer.run_num u [c] t fun d hd => hall d (List.mem_cons_of_mem c hd)
    rw [Json.lex, hrun, Option.bind_some]
    simp only [Lexer.finish, ht, if_true]

theorem Clean.string (h : s.all plain = true) : Clean ('"' :: (s ++ ['"'])) [.str s] := by
  rw [Clean, Lexer.run]
  show Lexer.run ⟨[], .str []⟩ (s ++ ['"']) = _
  rw [Lexer.run_append, Lexer.run_str [] [] s h]
  rfl

/-! ## A value from its tokens -/

/-- One more item. -/
theorem itemTokens_concat (vs : List Value) (v : Value) :
    itemTokens (vs ++ [v]) = itemTokens vs ++ ((if vs.isEmpty then [] else [.punct ',']) ++ v.tokens) := by
  induction vs with
  | nil => rfl
  | cons w vs ih =>
    cases vs with
    | nil => simp [itemTokens]
    | cons x vs =>
      simp only [List.cons_append, itemTokens] at ih ⊢
      rw [ih]
      simp

theorem memberTokens_concat (ms : List (List Char × Value)) (k : List Char) (v : Value) :
    memberTokens (ms ++ [(k, v)]) =
      memberTokens ms ++ ((if ms.isEmpty then [] else [.punct ',']) ++ .str k :: .punct ':' :: v.tokens) := by
  induction ms with
  | nil => rfl
  | cons m ms ih =>
    obtain ⟨l, w⟩ := m
    cases ms with
    | nil => simp [memberTokens]
    | cons x ms =>
      simp only [List.cons_append, memberTokens] at ih ⊢
      rw [ih]
      simp

theorem Value.tokens_cons : ∀ v : Value, ∃ t ts, v.tokens = t :: ts ∧ t ≠ .punct ']'
  | .num text => ⟨.num text, [], rfl, nofun⟩
  | .str s => ⟨.str s, [], rfl, nofun⟩
  | .arr items => ⟨.punct '[', itemTokens items ++ [.punct ']'], rfl, by decide⟩
  | .obj members => ⟨.punct '{', memberTokens members ++ [.punct '}'], rfl, by decide⟩

theorem itemTokens_cons (v : Value) (vs : List Value) : ∃ t ts, itemTokens (v :: vs) = t :: ts ∧ t ≠ .punct ']' := by
  obtain ⟨t, ts, heq, hne⟩ := v.tokens_cons
  cases vs with
  | nil => exact ⟨t, ts, heq, hne⟩
  | cons w vs => exact ⟨t, ts ++ .punct ',' :: itemTokens (w :: vs), by rw [itemTokens, heq, List.cons_append], hne⟩

theorem memberTokens_cons (k : List Char) (v : Value) (ms : List (List Char × Value)) :
    ∃ ts, memberTokens ((k, v) :: ms) = .str k :: ts := by
  cases ms with
  | nil => exact ⟨_, rfl⟩
  | cons m ms => exact ⟨_, rfl⟩

mutual

theorem value_tokens : ∀ (v : Value) (ts : List Token) (fuel : Nat), 2 * v.tokens.length ≤ fuel →
    value fuel (v.tokens ++ ts) = some (v, ts)
  | v, ts, 0, h => by
    obtain ⟨t, rest, heq, -⟩ := v.tokens_cons
    rw [heq, List.length_cons] at h
    omega
  | .num text, ts, fuel + 1, _ => rfl
  | .str s, ts, fuel + 1, _ => rfl
  | .arr [], ts, fuel + 1, _ => rfl
  | .arr (v :: vs), ts, fuel + 1, h => by
    obtain ⟨t, rest, heq, hne⟩ := itemTokens_cons v vs
    have hitems := items_tokens (v :: vs) ts fuel (by nofun) (by
      simp only [Value.tokens, List.length_cons, List.length_append, List.length_nil] at h
      omega)
    rw [Value.tokens, List.cons_append, List.append_assoc, List.singleton_append]
    rw [heq, List.cons_append] at hitems ⊢
    rw [value]
    · rw [hitems]
      rfl
    · rintro ts' h'
      exact hne (List.cons.inj h').1
  | .obj [], ts, fuel + 1, _ => rfl
  | .obj ((k, v) :: ms), ts, fuel + 1, h => by
    obtain ⟨rest, heq⟩ := memberTokens_cons k v ms
    have hmembers := members_tokens ((k, v) :: ms) ts fuel (by nofun) (by
      simp only [Value.tokens, List.length_cons, List.length_append, List.length_nil] at h
      omega)
    rw [Value.tokens, List.cons_append, List.append_assoc, List.singleton_append]
    rw [heq, List.cons_append] at hmembers ⊢
    rw [value]
    · rw [hmembers]
      rfl
    · nofun

theorem items_tokens : ∀ (vs : List Value) (ts : List Token) (fuel : Nat), vs ≠ [] → 2 * (itemTokens vs).length < fuel →
    items fuel (itemTokens vs ++ .punct ']' :: ts) = some (vs, ts)
  | [], _, _, h, _ => absurd rfl h
  | [v], ts, fuel + 1, _, h => by
    rw [itemTokens] at h ⊢
    rw [items, value_tokens v _ fuel (by omega)]
    rfl
  | v :: w :: vs, ts, fuel + 1, _, h => by
    rw [itemTokens, List.length_append, List.length_cons] at h
    rw [itemTokens, List.append_assoc, List.cons_append, items, value_tokens v _ fuel (by omega)]
    simp only
    rw [items_tokens (w :: vs) ts fuel (by nofun) (by omega)]
    rfl

theorem members_tokens : ∀ (ms : List (List Char × Value)) (ts : List Token) (fuel : Nat), ms ≠ [] →
    2 * (memberTokens ms).length < fuel → members fuel (memberTokens ms ++ .punct '}' :: ts) = some (ms, ts)
  | [], _, _, h, _ => absurd rfl h
  | [(k, v)], ts, fuel + 1, _, h => by
    rw [memberTokens, List.length_cons, List.length_cons] at h
    rw [memberTokens, List.cons_append, List.cons_append, members, value_tokens v _ fuel (by omega)]
    rfl
  | (k, v) :: m :: ms, ts, fuel + 1, _, h => by
    rw [memberTokens, List.length_cons, List.length_cons, List.length_append, List.length_cons] at h
    rw [memberTokens, List.cons_append, List.cons_append, List.append_assoc, List.cons_append, members,
      value_tokens v _ fuel (by omega)]
    simp only
    rw [members_tokens (m :: ms) ts fuel (by nofun) (by omega)]
    rfl

end

/-- However the text is laid out. -/
theorem parse_of_lex {v : Value} (h : lex a = some v.tokens) : parse a = some v := by
  have hvalue := value_tokens v [] _ (Nat.le_refl _)
  rw [List.append_nil] at hvalue
  rw [parse, h, Option.bind_some, hvalue]

end Lob.Base.Json
