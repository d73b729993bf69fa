import Latchwork.Procedure.Expr
import Latchwork.Proofs.Name
import Latchwork.Proofs.ReadBack

/-!
# Expressions, read back

A reader for the arithmetic of an emitted text: sums, products, shifts and the operators that work
bit by bit. It knows the grammar of the dialects, which agree on these operators, and not how a text
was printed: a cast binds more tightly than a product, a product than a sum, a sum than a shift, a
shift than a conjunction, a conjunction than an exclusive disjunction, that than a disjunction, and
operators of one kind group to the left. Only the C dialect has casts and marks on wide literals.

The text is cut into symbols first. The symbols are then read from the left with a stack of operands
and a stack of what is still to be done with them. An expression whose operands are at least as
tight as its own operator asks for is read back from its text.
-/

namespace Latchwork

/-! ### Lexemes -/

/-- The operators between two operands. -/
inductive Connective where
  | times
  | add
  | shiftLeft
  | shiftRight
  | and
  | xor
  | or
  deriving DecidableEq, Repr

/-- The symbols that a text is cut into. -/
inductive Lexeme where
  | name (t : Text)
  | literal (value : Nat)
  | wideLiteral (value : Nat)
  | connective (c : Connective)
  | cast
  | opening
  | closing
  | equals
  | mark (c : Char)
  deriving DecidableEq, Repr

namespace Lexeme

/-- May the code point stand inside a word: a name or a numeral? -/
def isPart (p : CodePoint) : Bool := p.satisfies Text.isIdentifierPart

/-- The number that decimal digits spell without zeros in front of them. -/
def number? (digits : List CodePoint) : Option Nat :=
  (digits.mapM CodePoint.char?).bind fun cs =>
    (Numeral.read? 10 cs).filter fun value => Nat.toDigits 10 value == cs

/-- The mark at the end of a wide literal. -/
def wideMark : List CodePoint := [.char 'U', .char 'L', .char 'L']

/-- The symbol that a word is. -/
def ofWord? (d : Dialect) (word : List CodePoint) : Option Lexeme :=
  if Text.isIdentifierPoints word then some (.name ⟨word⟩)
  else if d = .c ∧ wideMark.isSuffixOf word then
    (number? (word.take (word.length - wideMark.length))).map .wideLiteral
  else (number? word).map .literal

/-- The marks that stand in no arithmetic. -/
def marks : List Char := ['=', ';', ':', ',', '[', ']', '?', '\x7b', '\x7d']

/-- The symbol that is written with one mark. -/
def ofMark? : CodePoint → Option Lexeme
  | .char '*' => some (.connective .times)
  | .char '+' => some (.connective .add)
  | .char '&' => some (.connective .and)
  | .char '^' => some (.connective .xor)
  | .char '|' => some (.connective .or)
  | .char '(' => some .opening
  | .char ')' => some .closing
  | .char c => if marks.contains c then some (.mark c) else none
  | .half _ => none

/-- The symbol that is written with two marks. -/
def ofPair? : CodePoint → CodePoint → Option Lexeme
  | .char '<', .char '<' => some (.connective .shiftLeft)
  | .char '>', .char '>' => some (.connective .shiftRight)
  | .char '=', .char '=' => some .equals
  | _, _ => none

/-- How a comment starts. -/
def commentMark : Dialect → List CodePoint
  | .c => [.char '/', .char '/']
  | .python => [.char '#']

/-- What follows the opening bracket of a cast. -/
def castText : List CodePoint := (Text.ofString "unsigned long long)").points

/-- The symbols of a line. A comment takes the rest of it. -/
def lex (d : Dialect) : List CodePoint → Option (List Lexeme)
  | [] => some []
  | p :: rest =>
    if isPart p then do
      let first ← ofWord? d (p :: rest.takeWhile isPart)
      let others ← lex d (rest.dropWhile isPart)
      return first :: others
    else if p = .char ' ' then lex d rest
    else match rest.head?.bind (ofPair? p) with
      | some symbol => (lex d rest.tail).map (symbol :: ·)
      | none =>
        if p = .char '(' ∧ d = .c ∧ castText.isPrefixOf rest then
          (lex d (rest.drop castText.length)).map (.cast :: ·)
        else if (commentMark d).isPrefixOf (p :: rest) ∧ .char '\n' ∉ rest then some []
        else do
          let first ← ofMark? p
          let others ← lex d rest
          return first :: others
termination_by points => points.length
decreasing_by
  · have := (List.dropWhile_suffix isPart (l := rest)).length_le
    simp only [List.length_cons]
    omega
  · simp
  · simp only [List.length_cons, List.length_tail]
    omega
  · simp only [List.length_cons, List.length_drop]
    omega
  · simp

variable {d : Dialect}

theorem lex_blank (rest : List CodePoint) : lex d (.char ' ' :: rest) = lex d rest := by
  rw [lex, if_neg (by decide), if_pos rfl]

/-- The marks that symbols of two marks are made of. -/
def pairMarks : List CodePoint := [.char '<', .char '>', .char '=']

private theorem mem_pairMarks {p q : CodePoint} {symbol : Lexeme} (h : ofPair? p q = some symbol) :
    p ∈ pairMarks ∧ q ∈ pairMarks := by
  unfold ofPair? at h
  split at h
  case h_4 => cases h
  all_goals decide

private theorem lex_pair {p q : CodePoint} {symbol : Lexeme} (hpair : ofPair? p q = some symbol)
    (rest : List CodePoint) : lex d (p :: q :: rest) = (lex d rest).map (symbol :: ·) := by
  have hpart : ∀ p ∈ pairMarks, ¬isPart p = true ∧ p ≠ .char ' ' := by decide
  have hpart := hpart p (mem_pairMarks hpair).1
  rw [lex, if_neg hpart.1, if_neg hpart.2, List.head?_cons, Option.bind_some, hpair, List.tail_cons]

/-- What an opening bracket starts with is not one of two marks. -/
theorem ofPair?_opening (rest : List CodePoint) :
    rest.head?.bind (ofPair? (.char '(')) = none := by
  cases rest with
  | nil => rfl
  | cons q rest => rfl

private theorem lex_cast (rest : List CodePoint) :
    lex .c (.char '(' :: (castText ++ rest)) = (lex .c rest).map (.cast :: ·) := by
  have hfront : castText.isPrefixOf (castText ++ rest) = true :=
    List.isPrefixOf_iff_prefix.2 (List.prefix_append ..)
  rw [lex, if_neg (by decide), if_neg (by decide), ofPair?_opening]
  simp [hfront]

/-- A word is cut off where it ends. -/
theorem lex_word {word rest : List CodePoint} {symbol : Lexeme} (hne : word ≠ [])
    (hparts : ∀ p ∈ word, isPart p = true) (hword : ofWord? d word = some symbol)
    (hrest : ∀ p ∈ rest.head?, isPart p = false) :
    lex d (word ++ rest) = (lex d rest).map (symbol :: ·) := by
  obtain ⟨p, word, rfl⟩ := List.exists_cons_of_ne_nil hne
  have hp : isPart p = true := hparts p List.mem_cons_self
  have hword' : ∀ q ∈ word, isPart q = true := fun q hq => hparts q (List.mem_cons_of_mem p hq)
  have htake : rest.takeWhile isPart = [] := by
    cases rest with
    | nil => rfl
    | cons q rest => exact List.takeWhile_cons_of_neg (by simpa using hrest q rfl)
  have hdrop : rest.dropWhile isPart = rest := by
    cases rest with
    | nil => rfl
    | cons q rest => exact List.dropWhile_cons_of_neg (by simpa using hrest q rfl)
  rw [List.cons_append, lex, if_pos hp, List.takeWhile_append_of_pos hword',
    List.dropWhile_append_of_pos hword', htake, hdrop, List.append_nil, hword]
  cases lex d rest <;> rfl

private theorem isPart_of_mark {p : CodePoint} {symbol : Lexeme} (h : ofMark? p = some symbol) :
    isPart p = false ∧ p ≠ .char ' ' := by
  unfold ofMark? at h
  split at h
  case h_8 c _ _ _ _ _ _ _ =>
    have hmarks : marks.all (fun c => !isPart (.char c) && c != ' ') = true := by rfl
    split at h
    · next hc => simpa using List.all_eq_true.1 hmarks c (List.contains_iff_mem.1 hc)
    · cases h
  case h_9 => cases h
  all_goals decide

/-- A mark is cut off. An opening bracket is one unless a cast starts with it. -/
theorem lex_mark {p : CodePoint} {rest : List CodePoint} {symbol : Lexeme}
    (hmark : ofMark? p = some symbol) (hpair : rest.head?.bind (ofPair? p) = none)
    (hcast : d = .c → p = .char '(' → castText.isPrefixOf rest = false) :
    lex d (p :: rest) = (lex d rest).map (symbol :: ·) := by
  obtain ⟨hpart, hblank⟩ := isPart_of_mark hmark
  have hbracket : ¬(p = .char '(' ∧ d = .c ∧ castText.isPrefixOf rest = true) := by
    rintro ⟨hp, hd, hfront⟩
    cases (hcast hd hp).symm.trans hfront
  have hcomment : ¬((commentMark d).isPrefixOf (p :: rest) = true ∧ .char '\n' ∉ rest) := by
    rintro ⟨hfront, -⟩
    obtain ⟨tail, htail⟩ := List.isPrefixOf_iff_prefix.1 hfront
    cases d <;> cases htail <;> cases hmark
  rw [lex, if_neg (by rw [hpart]; decide), if_neg hblank, hpair]
  simp only [if_neg hbracket, if_neg hcomment, hmark]
  cases lex d rest <;> rfl

/-- A comment has no symbols. -/
theorem lex_comment {rest : List CodePoint} (h : .char '\n' ∉ rest) :
    lex d (commentMark d ++ rest) = some [] := by
  have hfront : (commentMark d).isPrefixOf (commentMark d ++ rest) = true :=
    List.isPrefixOf_iff_prefix.2 (List.prefix_append ..)
  cases d with
  | c =>
    rw [commentMark, List.cons_append, lex, if_neg (by decide), if_neg (by decide)]
    change (if _ then _ else if _ then some [] else _) = _
    rw [if_neg (by simp), if_pos ⟨hfront, by simpa using h⟩]
  | python =>
    have hnone : rest.head?.bind (ofPair? (.char '#')) = none := by
      cases rest with
      | nil => rfl
      | cons q rest => rfl
    rw [commentMark, List.singleton_append, lex, if_neg (by decide), if_neg (by decide), hnone]
    change (if _ then _ else if _ then some [] else _) = _
    rw [if_neg (by simp), if_pos ⟨hfront, h⟩]

/-- What is cut into symbols is a single line. -/
theorem not_mem_of_lex {points : List CodePoint} {xs : List Lexeme} (h : lex d points = some xs) :
    .char '\n' ∉ points := by
  fun_induction lex d points generalizing xs with
  | case1 => simp
  | case2 p rest hpart ih =>
    obtain ⟨first, -, h⟩ := Option.bind_eq_some_iff.1 h
    obtain ⟨others, hothers, -⟩ := Option.bind_eq_some_iff.1 h
    have hword : ∀ q ∈ p :: rest.takeWhile isPart, q ≠ .char '\n' := by
      rintro q hq rfl
      rcases List.mem_cons.1 hq with rfl | hq
      · cases hpart
      · cases List.mem_takeWhile_imp hq
    intro hmem
    rw [← List.takeWhile_append_dropWhile (p := isPart) (l := rest), ← List.cons_append,
      List.mem_append] at hmem
    rcases hmem with hmem | hmem
    · exact hword _ hmem rfl
    · exact ih hothers hmem
  | case3 rest _ ih => simpa using ih h
  | case4 p rest _ _ symbol hpair ih =>
    obtain ⟨others, hothers, -⟩ := Option.map_eq_some_iff.1 h
    obtain ⟨q, hq, hpair⟩ := Option.bind_eq_some_iff.1 hpair
    obtain ⟨tail, rfl⟩ : ∃ tail, rest = q :: tail := List.head?_eq_some_iff.1 hq
    have hmarks : ∀ p ∈ pairMarks, .char '\n' ≠ p := by decide
    obtain ⟨hp, hq⟩ := mem_pairMarks hpair
    simpa [hmarks p hp, hmarks q hq] using ih hothers
  | case5 p rest _ _ _ hcast ih =>
    obtain ⟨others, hothers, -⟩ := Option.map_eq_some_iff.1 h
    obtain ⟨rfl, -, hfront⟩ := hcast
    obtain ⟨tail, rfl⟩ := List.isPrefixOf_iff_prefix.1 hfront
    rw [List.drop_left] at ih hothers
    have hcast : .char '\n' ∉ CodePoint.char '(' :: castText := by decide
    rw [← List.cons_append, List.mem_append, not_or]
    exact ⟨hcast, ih hothers⟩
  | case6 p rest _ _ _ _ hcomment =>
    obtain ⟨hfront, hrest⟩ := hcomment
    obtain ⟨tail, htail⟩ := List.isPrefixOf_iff_prefix.1 hfront
    have hp : p ≠ .char '\n' := by cases d <;> cases htail <;> decide
    simp [hp.symm, hrest]
  | case7 p rest _ _ _ _ _ ih =>
    obtain ⟨first, hmark, h⟩ := Option.bind_eq_some_iff.1 h
    obtain ⟨others, hothers, -⟩ := Option.bind_eq_some_iff.1 h
    have hp : p ≠ .char '\n' := by
      rintro rfl
      cases hmark
    simpa [hp.symm] using ih hothers

/-- The text is cut into the symbols, whatever follows it. -/
def Marks (d : Dialect) (t : Text) (symbols : List Lexeme) : Prop :=
  ∀ rest, lex d (t.points ++ rest) = (lex d rest).map (symbols ++ ·)

/-- The text is cut into the symbols where no word goes on after it. -/
def Spells (d : Dialect) (t : Text) (symbols : List Lexeme) : Prop :=
  ∀ rest : List CodePoint, (∀ p ∈ rest.head?, isPart p = false) →
    lex d (t.points ++ rest) = (lex d rest).map (symbols ++ ·)

/-- Words and marks after a text whose last word ends before them. -/
theorem Spells.append_marks {s t : Text} {xs ys : List Lexeme} (hs : Spells d s xs)
    (hne : t.points ≠ []) (hhead : ∀ p ∈ t.points.head?, isPart p = false) (ht : Marks d t ys) :
    Marks d (s ++ t) (xs ++ ys) := by
  intro rest
  have hends : ∀ p ∈ (t.points ++ rest).head?, isPart p = false := by
    rwa [List.head?_append_of_ne_nil _ hne]
  rw [Text.points_append, List.append_assoc, hs _ hends, ht rest, Option.map_map]
  simp [Function.comp_def]

theorem Marks.append {s t : Text} {xs ys : List Lexeme} (hs : Marks d s xs) (ht : Spells d t ys) :
    Spells d (s ++ t) (xs ++ ys) := by
  intro rest hrest
  rw [Text.points_append, List.append_assoc, hs, ht rest hrest, Option.map_map]
  simp [Function.comp_def]

theorem Marks.append_marks {s t : Text} {xs ys : List Lexeme} (hs : Marks d s xs)
    (ht : Marks d t ys) : Marks d (s ++ t) (xs ++ ys) := by
  intro rest
  rw [Text.points_append, List.append_assoc, hs, ht, Option.map_map]
  simp [Function.comp_def]

/-- A text that is cut into symbols has these symbols when nothing follows it. -/
theorem Spells.lex_eq {t : Text} {symbols : List Lexeme} (h : Spells d t symbols) :
    lex d t.points = some symbols := by
  have hend := h [] (by simp)
  rwa [List.append_nil, lex, Option.map_some, List.append_nil] at hend

private theorem spells_word {t : Text} {symbol : Lexeme} (hne : t.points ≠ [])
    (hparts : ∀ p ∈ t.points, isPart p = true) (hword : ofWord? d t.points = some symbol) :
    Spells d t [symbol] := by
  intro rest hrest
  rw [lex_word hne hparts hword hrest]
  rfl

theorem spells_name {t : Text} (h : t.isIdentifier = true) : Spells d t [.name t] := by
  refine spells_word ?_ (fun p hp => ?_) (if_pos h)
  · intro hnil
    rw [Text.isIdentifier, hnil] at h
    cases h
  · obtain ⟨c, rfl, hc⟩ := Text.isIdentifierPart_of_mem h hp
    exact hc

private theorem isPart_decimal {value : Nat} {c : Char} (h : c ∈ Nat.toDigits 10 value) :
    isPart (.char c) = true ∧ Text.isIdentifierStart c = false := by
  have hdigit : c.isDigit = true := Nat.isDigit_of_mem_toDigits (by decide) (by decide) h
  have hline : c ≠ '_' := by
    rintro rfl
    cases hdigit
  constructor
  · simp [isPart, CodePoint.satisfies, CodePoint.char?, Text.isIdentifierPart, Char.isAlphanum,
      hdigit]
  · simp only [Char.isDigit, Text.isIdentifierStart, Char.isAlpha, Char.isUpper,
      Char.isLower] at hdigit ⊢
    grind

private theorem isIdentifierPoints_decimal (value : Nat) (rest : List CodePoint) :
    Text.isIdentifierPoints ((Nat.toDigits 10 value).map .char ++ rest) = false := by
  obtain ⟨c, cs, hdigits⟩ := List.exists_cons_of_ne_nil (Nat.toDigits_ne_nil (b := 10) (n := value))
  have hc : c ∈ Nat.toDigits 10 value := hdigits ▸ List.mem_cons_self
  rw [hdigits]
  simp [Text.isIdentifierPoints, CodePoint.satisfies, CodePoint.char?, (isPart_decimal hc).2]

private theorem number?_decimal (value : Nat) :
    number? ((Nat.toDigits 10 value).map .char) = some value := by
  rw [number?, Text.mapM_char?_map, Option.bind_some, Numeral.read?_decimal]
  simp

private theorem spells_literal (d : Dialect) (value : Nat) :
    Spells d (Numeral.decimal value) [.literal value] := by
  have hpoints : (Text.ofString (Numeral.decimal value)).points =
      (Nat.toDigits 10 value).map .char := by simp
  refine spells_word (by simp) (fun p hp => ?_) ?_
  · rw [hpoints, List.mem_map] at hp
    obtain ⟨c, hc, rfl⟩ := hp
    exact (isPart_decimal hc).1
  · have hname := isIdentifierPoints_decimal value []
    rw [List.append_nil] at hname
    have hplain : ¬(d = .c ∧ wideMark.isSuffixOf ((Nat.toDigits 10 value).map .char) = true) := by
      rintro ⟨-, hmark⟩
      have hmem := (List.isSuffixOf_iff_suffix.1 hmark).subset (List.mem_cons_self (l := [_, _]))
      obtain ⟨c, hc, hletter⟩ := List.mem_map.1 hmem
      cases hletter
      cases (isPart_decimal hc).2
    rw [hpoints, ofWord?, hname, if_neg (by decide), if_neg hplain, number?_decimal]
    rfl

private theorem spells_wideLiteral (value : Nat) :
    Spells .c (Numeral.decimal value ++ "ULL") [.wideLiteral value] := by
  have hpoints : (Text.ofString (Numeral.decimal value) ++ Text.ofString "ULL").points =
      (Nat.toDigits 10 value).map .char ++ wideMark := by simp [wideMark]
  refine spells_word (by simp) (fun p hp => ?_) ?_
  · rw [hpoints, List.mem_append] at hp
    rcases hp with hp | hp
    · obtain ⟨c, hc, rfl⟩ := List.mem_map.1 hp
      exact (isPart_decimal hc).1
    · have hall : ∀ p ∈ wideMark, isPart p = true := List.all_eq_true.1 (by decide)
      exact hall p hp
  · have hmark : wideMark.isSuffixOf ((Nat.toDigits 10 value).map .char ++ wideMark) = true :=
      List.isSuffixOf_iff_suffix.2 (List.suffix_append ..)
    rw [hpoints, ofWord?, isIdentifierPoints_decimal, if_neg (by decide), if_pos ⟨rfl, hmark⟩]
    simp [number?_decimal]

end Lexeme

/-! ### Formulas -/

/-- How tightly an operator binds its operands. -/
def Connective.tightness : Connective → Nat
  | .times => 6
  | .add => 5
  | .shiftLeft => 4
  | .shiftRight => 4
  | .and => 3
  | .xor => 2
  | .or => 1

/-- The operators that a formula has without brackets. -/
def Operator.connective? : Operator → Option Connective
  | .times => some .times
  | .add => some .add
  | .and => some .and
  | .xor => some .xor
  | .or => some .or
  | .equal => none

namespace Expr

/-- How tightly an expression holds together: names, numbers and brackets most, then casts. -/
def tightness : Expr → Nat
  | .widen _ => 7
  | .binary op _ _ => (op.connective?.map Connective.tightness).getD 0
  | _ => 8

/-- The expressions that are read back: operands hold together at least as tightly as the operator
binds, on its right more tightly, and what is shifted does not start like a cast. -/
inductive IsFormula (d : Dialect) : Expr → Prop where
  | name {m : Name} (h : m.text.isIdentifier = true) : IsFormula d (.name m)
  | literal (value : Nat) : IsFormula d (.literal value)
  | wideLiteral (hd : d = .c) (value : Nat) : IsFormula d (.wideLiteral value)
  | widen {e : Expr} (hd : d = .c) (he : IsFormula d e) (htight : 7 < e.tightness) :
    IsFormula d (.widen e)
  | binary {op : Operator} {c : Connective} {a b : Expr} (hop : op.connective? = some c)
    (ha : IsFormula d a) (hb : IsFormula d b) (hleft : c.tightness ≤ a.tightness)
    (hright : c.tightness < b.tightness) : IsFormula d (.binary op a b)
  | shiftLeft {e : Expr} (he : IsFormula d e) (htight : 4 ≤ e.tightness)
    (hhead : (e.text d).points.head? ≠ some (.char 'u')) (count : Nat) :
    IsFormula d (.shiftLeft e count)
  | shiftRight {e : Expr} (he : IsFormula d e) (htight : 4 ≤ e.tightness)
    (hhead : (e.text d).points.head? ≠ some (.char 'u')) (count : Nat) :
    IsFormula d (.shiftRight e count)

/-- The symbols of an operand that is shifted, in brackets. -/
def shiftSymbols (c : Connective) (operand : List Lexeme) (count : Nat) : List Lexeme :=
  .opening :: (operand ++ [.connective c, .literal count, .closing])

/-- The symbols that a formula is written with. -/
def symbols : Expr → List Lexeme
  | .name m => [.name m.text]
  | .literal value => [.literal value]
  | .wideLiteral value => [.wideLiteral value]
  | .widen e => .cast :: e.symbols
  | .binary op a b => a.symbols ++ (op.connective?.map Lexeme.connective).toList ++ b.symbols
  | .shiftLeft e count => shiftSymbols .shiftLeft e.symbols count
  | .shiftRight e count => shiftSymbols .shiftRight e.symbols count
  | _ => []

end Expr

namespace Lexeme

variable {d : Dialect}

theorem marks_mark {t : Text} {c : Char} {symbol : Lexeme} (ht : t.points = [.char c])
    (hmark : ofMark? (.char c) = some symbol) (hc : c ≠ '(')
    (hpair : ∀ q, ofPair? (.char c) q = none) : Marks d t [symbol] := by
  intro rest
  have hnone : rest.head?.bind (ofPair? (.char c)) = none := by
    cases rest with
    | nil => rfl
    | cons q rest => exact hpair q
  rw [ht, List.singleton_append, lex_mark hmark hnone fun _ h => absurd (CodePoint.char.inj h) hc]
  rfl

theorem marks_spaced {t : Text} {c : Char} {symbol : Lexeme}
    (ht : t.points = [.char ' ', .char c, .char ' ']) (hmark : ofMark? (.char c) = some symbol)
    (hc : c ≠ '(') : Marks d t [symbol] := by
  intro rest
  have hnone : (CodePoint.char ' ' :: rest).head?.bind (ofPair? (.char c)) = none := by
    rw [List.head?_cons, Option.bind_some]
    unfold ofPair?
    split <;> first | rfl | simp_all
  rw [ht, List.cons_append, List.cons_append, List.cons_append, List.nil_append, lex_blank,
    lex_mark hmark hnone fun _ h => absurd (CodePoint.char.inj h) hc, lex_blank]
  rfl

private theorem marks_operator {op : Operator} {c : Connective} (h : op.connective? = some c) :
    Marks d op.text [.connective c] ∧ (Text.ofString op.text).points ≠ [] ∧
      ∀ p ∈ (Text.ofString op.text).points.head?, isPart p = false := by
  cases op <;> cases h
  case or | add | and | xor => exact ⟨marks_spaced rfl rfl (by decide), by decide, by decide⟩
  case times => exact ⟨marks_mark rfl rfl (by decide) fun _ => rfl, by decide, by decide⟩

/-- Two marks between blanks. -/
theorem marks_pair {t : Text} {p q : CodePoint} {symbol : Lexeme}
    (ht : t.points = [.char ' ', p, q, .char ' ']) (hpair : ofPair? p q = some symbol) :
    Marks d t [symbol] := by
  intro rest
  rw [ht]
  simp only [List.cons_append, List.nil_append, lex_blank, lex_pair hpair]

end Lexeme

namespace Expr

variable {d : Dialect} {e : Expr}

open Lexeme

/-- What does not start like a cast is not one. -/
theorem isPrefixOf_castText {points : List CodePoint} (h : points.head? ≠ some (.char 'u'))
    {p : CodePoint} (hp : p ≠ .char 'u') (rest : List CodePoint) :
    castText.isPrefixOf (points ++ p :: rest) = false := by
  rw [Bool.eq_false_iff, ne_eq, List.isPrefixOf_iff_prefix]
  rintro ⟨tail, htail⟩
  have hhead : (points ++ p :: rest).head? = some (.char 'u') := by
    rw [← htail]
    rfl
  cases points with
  | nil => exact hp (Option.some.inj hhead)
  | cons q points => exact h hhead

/-- The text of a shift in brackets is cut into its symbols. -/
theorem spells_shift {c : Connective} {mark : Text} {p q : CodePoint} {operand : Text}
    {symbols : List Lexeme} (hmark : mark.points = [.char ' ', p, q, .char ' '])
    (hpair : ofPair? p q = some (.connective c)) (hoperand : Spells d operand symbols)
    (hhead : operand.points.head? ≠ some (.char 'u')) (count : Nat) :
    Spells d ("(" ++ operand ++ mark ++ Numeral.decimal count ++ ")")
      (shiftSymbols c symbols count) := by
  have hclosing : Marks d ")" [.closing] := marks_mark rfl rfl (by decide) fun _ => rfl
  have htail := (marks_pair hmark hpair).append_marks
    ((spells_literal d count).append_marks (by decide) (by decide) hclosing)
  have hblank : ∀ x ∈ (mark ++ (Numeral.decimal count ++ ")" : Text)).points.head?,
      isPart x = false := by
    simp [hmark]
    rfl
  have hinner := hoperand.append_marks (by simp [hmark]) hblank htail
  intro rest _
  have hpoints : ("(" ++ operand ++ mark ++ Numeral.decimal count ++ ")" : Text).points ++ rest =
      .char '(' :: ((operand ++ (mark ++ (Numeral.decimal count ++ ")"))).points ++ rest) := by
    simp
  obtain ⟨tail, hsplit⟩ : ∃ tail,
      (operand ++ (mark ++ (Numeral.decimal count ++ ")"))).points ++ rest =
        operand.points ++ .char ' ' :: tail :=
    ⟨p :: q :: .char ' ' :: _, by simp [hmark]; rfl⟩
  have hcast := isPrefixOf_castText hhead (by decide : CodePoint.char ' ' ≠ .char 'u') tail
  rw [← hsplit] at hcast
  rw [hpoints, lex_mark rfl (ofPair?_opening _) fun _ _ => hcast, hinner rest, Option.map_map]
  rfl

/-- The text of a formula is cut into its symbols. -/
theorem IsFormula.spells (h : e.IsFormula d) : Spells d (e.text d) e.symbols := by
  induction h with
  | name h => exact spells_name h
  | literal value => exact spells_literal d value
  | wideLiteral hd value =>
    subst hd
    exact spells_wideLiteral value
  | widen hd he htight ih =>
    subst hd
    have hcast : Marks .c "(unsigned long long)" [.cast] := fun rest => lex_cast rest
    exact hcast.append ih
  | @binary op c a b hop ha hb hleft hright iha ihb =>
    have hequal : ¬(op = .equal ∧ d = .python) := by
      rintro ⟨rfl, -⟩
      cases hop
    obtain ⟨hmarks, hne, hhead⟩ := marks_operator (d := d) hop
    rw [text, if_neg hequal, symbols, hop]
    exact (iha.append_marks hne hhead hmarks).append ihb
  | shiftLeft he htight hhead count ih => exact spells_shift rfl rfl ih hhead count
  | shiftRight he htight hhead count ih => exact spells_shift rfl rfl ih hhead count

end Expr

/-! ### Reading -/

/-- What is still to be done once an operand is complete. -/
inductive Pending where
  | bracket
  | cast
  | connective (c : Connective)
  deriving DecidableEq, Repr

/-- How tightly something that is still to be done binds. A bracket waits for its end. -/
def Pending.tightness : Pending → Nat
  | .bracket => 0
  | .cast => 7
  | .connective c => c.tightness

/-- The expression of an operator on two operands. Only numbers are shifted by. -/
def Connective.apply? : Connective → Expr → Expr → Option Expr
  | .times, a, b => some (.binary .times a b)
  | .add, a, b => some (.binary .add a b)
  | .and, a, b => some (.binary .and a b)
  | .xor, a, b => some (.binary .xor a b)
  | .or, a, b => some (.binary .or a b)
  | .shiftLeft, a, .literal count => some (.shiftLeft a count)
  | .shiftRight, a, .literal count => some (.shiftRight a count)
  | .shiftLeft, _, _ => none
  | .shiftRight, _, _ => none

/-- Does what binds at least so tightly. -/
def reduce (level : Nat) : List Pending → List Expr → Option (List Pending × List Expr)
  | [], operands => some ([], operands)
  | p :: pending, operands =>
    if p.tightness < level then some (p :: pending, operands)
    else match p, operands with
      | .cast, e :: operands => reduce level pending (.widen e :: operands)
      | .connective c, b :: a :: operands => do reduce level pending ((← c.apply? a b) :: operands)
      | _, _ => none

private theorem reduce_of_lt {level : Nat} {pending : List Pending} (operands : List Expr)
    (h : ∀ p ∈ pending.head?, p.tightness < level) :
    reduce level pending operands = some (pending, operands) := by
  cases pending with
  | nil => rfl
  | cons p pending =>
    rw [reduce.eq_def]
    exact if_pos (h p rfl)

/-- A reader between two symbols: its operands, what is still to be done, and whether an operand
comes next. -/
structure Reader where
  operands : List Expr
  pending : List Pending
  wants : Bool

namespace Reader

/-- The reader with one more operand. -/
def push (r : Reader) (e : Expr) : Reader := ⟨e :: r.operands, r.pending, false⟩

/-- Reads a symbol. -/
def step (r : Reader) (symbol : Lexeme) : Option Reader :=
  match r.wants, symbol with
  | true, .name t => some (r.push (.name (.given t)))
  | true, .literal value => some (r.push (.literal value))
  | true, .wideLiteral value => some (r.push (.wideLiteral value))
  | true, .cast => some ⟨r.operands, .cast :: r.pending, true⟩
  | true, .opening => some ⟨r.operands, .bracket :: r.pending, true⟩
  | false, .connective c => do
    let (pending, operands) ← reduce c.tightness r.pending r.operands
    return ⟨operands, .connective c :: pending, true⟩
  | false, .closing =>
    match reduce 1 r.pending r.operands with
    | some (.bracket :: pending, operands) => some ⟨operands, pending, false⟩
    | _ => none
  | _, _ => none

private theorem step_connective {c : Connective} {operands operands' : List Expr}
    {pending pending' : List Pending}
    (h : reduce c.tightness pending' operands' = some (pending, operands)) :
    step ⟨operands', pending', false⟩ (.connective c) =
      some ⟨operands, .connective c :: pending, true⟩ := by
  change (reduce c.tightness pending' operands' >>= _) = _
  rw [h]
  rfl

/-- The expression that was read. -/
def result? (r : Reader) : Option Expr :=
  match r.wants, reduce 1 r.pending r.operands with
  | false, some ([], [e]) => some e
  | _, _ => none

end Reader

namespace Expr

/-- The expression that symbols spell. All of its names are taken as given. -/
def formula? (symbols : List Lexeme) : Option Expr := do
  let r ← symbols.foldlM Reader.step ⟨[], [], true⟩
  r.result?

/-- The expression that a text spells. -/
def read? (d : Dialect) (t : Text) : Option Expr := do formula? (← Lexeme.lex d t.points)

/-- The expression with all of its names taken as given. -/
def spelled : Expr → Expr
  | .name m => .name (.given m.text)
  | .literal value => .literal value
  | .wideLiteral value => .wideLiteral value
  | .widen e => .widen e.spelled
  | .binary op a b => .binary op a.spelled b.spelled
  | .shiftLeft e count => .shiftLeft e.spelled count
  | .shiftRight e count => .shiftRight e.spelled count
  | .choose condition whenSet whenClear =>
    .choose condition.spelled whenSet.spelled whenClear.spelled
  | .element storage address => .element (.given storage.text) (.given address.text)

variable {d : Dialect} {e : Expr}

private theorem IsFormula.tightness_pos (h : e.IsFormula d) : 1 ≤ e.tightness := by
  cases h with
  | @binary op c a b hop _ _ _ _ =>
    rw [tightness, hop]
    cases c <;> decide
  | _ => simp [tightness]

/-- Symbols are read as an expression: reading them is as good as having it as an operand, for all
that binds no more tightly than it holds together. What was to be done before must bind less
tightly. -/
def IsReadAs (symbols : List Lexeme) (tightness : Nat) (e : Expr) : Prop :=
  ∀ (operands : List Expr) (pending : List Pending),
    (∀ p ∈ pending.head?, p.tightness < tightness) →
    ∃ operands' pending',
      symbols.foldlM Reader.step ⟨operands, pending, true⟩ = some ⟨operands', pending', false⟩ ∧
        ∀ level ≤ tightness, reduce level pending' operands' =
          reduce level pending (e :: operands)

/-- A shift in brackets is read as one operand. -/
theorem IsReadAs.shift {symbols : List Lexeme} {tightness : Nat} (h : IsReadAs symbols tightness e)
    {c : Connective} (hc : c.tightness = 4) (htight : 4 ≤ tightness) {count : Nat} {whole : Expr}
    (hwhole : c.apply? e (.literal count) = some whole) (level : Nat) :
    IsReadAs (shiftSymbols c symbols count) level whole := by
  intro operands pending _
  obtain ⟨operands', pending', hread, hreduce⟩ := h operands (.bracket :: pending)
    fun p hp => by cases hp; exact (by decide : 0 < 4).trans_le htight
  have hbracket : ∀ p ∈ (Pending.bracket :: pending).head?, p.tightness < c.tightness :=
    fun p hp => by cases hp; rw [hc]; decide
  have hshift := Reader.step_connective ((hreduce _ (hc ▸ htight)).trans (reduce_of_lt _ hbracket))
  refine ⟨whole :: operands, pending, ?_, fun _ _ => rfl⟩
  change (symbols ++ _).foldlM Reader.step ⟨operands, .bracket :: pending, true⟩ = _
  rw [List.foldlM_append, hread]
  change (Reader.step _ _ >>= _) = _
  rw [hshift]
  have hclosed : reduce 1 (.connective c :: .bracket :: pending)
      (.literal count :: e :: operands) = some (.bracket :: pending, whole :: operands) := by
    rw [reduce, if_neg (by change ¬c.tightness < 1; omega)]
    rw [hwhole]
    exact reduce_of_lt _ fun p hp => by cases hp; decide
  change (Reader.step ⟨.literal count :: e :: operands, .connective c :: .bracket :: pending,
    false⟩ .closing >>= _) = _
  simp only [Reader.step, hclosed]
  rfl

/-- A formula is read as its spelling. -/
theorem IsFormula.isReadAs (h : e.IsFormula d) : IsReadAs e.symbols e.tightness e.spelled := by
  induction h with
  | name h => exact fun operands pending _ => ⟨_, _, rfl, fun _ _ => rfl⟩
  | literal value => exact fun operands pending _ => ⟨_, _, rfl, fun _ _ => rfl⟩
  | wideLiteral hd value => exact fun operands pending _ => ⟨_, _, rfl, fun _ _ => rfl⟩
  | @widen e hd he htight ih =>
    intro operands pending _
    obtain ⟨operands', pending', hread, hreduce⟩ := ih operands (.cast :: pending)
      fun p hp => by cases hp; exact htight
    refine ⟨operands', pending', hread, fun level hlevel => ?_⟩
    have hlevel : level ≤ 7 := hlevel
    rw [hreduce level (by omega), reduce, if_neg (by change ¬7 < level; omega)]
    rfl
  | @binary op c a b hop ha hb hleft hright iha ihb =>
    have htight : (Expr.binary op a b).tightness = c.tightness := by rw [tightness, hop]; rfl
    rw [htight]
    intro operands pending hpending
    obtain ⟨operands₁, pending₁, hreadLeft, hreduceLeft⟩ :=
      iha operands pending fun p hp => (hpending p hp).trans_le hleft
    obtain ⟨operands₂, pending₂, hreadRight, hreduceRight⟩ :=
      ihb (a.spelled :: operands) (.connective c :: pending) fun p hp => by cases hp; exact hright
    refine ⟨operands₂, pending₂, ?_, fun level hlevel => ?_⟩
    · have hstep := Reader.step_connective ((hreduceLeft _ hleft).trans (reduce_of_lt _ hpending))
      rw [symbols, hop, List.foldlM_append, List.foldlM_append, hreadLeft]
      simpa [hstep] using hreadRight
    · have happly : c.apply? a.spelled b.spelled = some (Expr.binary op a b).spelled := by
        cases op <;> cases hop <;> rfl
      rw [hreduceRight level (by omega), reduce, if_neg (by change ¬c.tightness < level; omega)]
      simp [happly]
  | shiftLeft he htight hhead count ih => exact ih.shift (c := .shiftLeft) rfl htight rfl _
  | shiftRight he htight hhead count ih => exact ih.shift (c := .shiftRight) rfl htight rfl _

/-- A formula is read back from its symbols. -/
theorem IsFormula.formula?_symbols (h : e.IsFormula d) : formula? e.symbols = some e.spelled := by
  obtain ⟨operands, pending, hread, hreduce⟩ := h.isReadAs [] [] (by simp)
  have hlast := hreduce 1 h.tightness_pos
  rw [formula?, hread]
  change Reader.result? _ = _
  rw [Reader.result?, hlast]
  rfl

private theorem IsFormula.read?_text (h : e.IsFormula d) : read? d (e.text d) = some e.spelled := by
  rw [read?, h.spells.lex_eq]
  exact h.formula?_symbols

/-! ### Words and packed bits -/

/-- Joined formulas are a formula, if each holds together more tightly than the operator binds. -/
theorem isFormula_joined {op : Operator} {c : Connective} (hop : op.connective? = some c)
    {terms : List Expr} (h : ∀ e ∈ terms, e.IsFormula d ∧ c.tightness < e.tightness) :
    (joined op terms).IsFormula d := by
  cases terms with
  | nil => exact .literal 0
  | cons first rest =>
    obtain ⟨hfirst, htight⟩ := h first List.mem_cons_self
    have hleft : c.tightness ≤ first.tightness := htight.le
    have hrest : ∀ e ∈ rest, e.IsFormula d ∧ c.tightness < e.tightness := fun e he =>
      h e (List.mem_cons_of_mem first he)
    change (rest.foldl (.binary op) first).IsFormula d
    clear h htight
    induction rest generalizing first with
    | nil => exact hfirst
    | cons e rest ih =>
      obtain ⟨he, hright⟩ := hrest e List.mem_cons_self
      have hjoined : (Expr.binary op first e).tightness = c.tightness := by
        rw [tightness, hop]
        rfl
      exact ih _ (.binary hop hfirst he hleft hright) hjoined.ge
        fun e' he' => hrest e' (List.mem_cons_of_mem e he')

private theorem spelled_joined (op : Operator) (terms : List Expr) :
    (joined op terms).spelled = joined op (terms.map spelled) := by
  cases terms with
  | nil => rfl
  | cons first rest =>
    change (rest.foldl (.binary op) first).spelled =
      (rest.map spelled).foldl (.binary op) first.spelled
    induction rest generalizing first with
    | nil => rfl
    | cons e rest ih => exact ih (.binary op first e)

variable {names : List Name}

private theorem isFormula_joined_names {op : Operator} {c : Connective}
    (hop : op.connective? = some c) {place : Nat → Expr → Expr}
    (h : ∀ k, ∀ m ∈ names,
      (place k (.name m)).IsFormula d ∧ c.tightness < (place k (.name m)).tightness) :
    (joined op ((names.map .name).mapIdx place)).IsFormula d := by
  refine isFormula_joined hop fun e he => ?_
  obtain ⟨k, hk⟩ := List.mem_iff_getElem?.1 he
  rw [List.getElem?_mapIdx, List.getElem?_map, Option.map_map, Option.map_eq_some_iff] at hk
  obtain ⟨m, hm, rfl⟩ := hk
  exact h k m (List.mem_of_getElem? hm)

private theorem spelled_joined_names {op : Operator} {place : Nat → Expr → Expr}
    (h : ∀ k e, (place k e).spelled = place k e.spelled) :
    (joined op ((names.map .name).mapIdx place)).spelled =
      joined op ((names.map fun m => .name (.given m.text)).mapIdx place) := by
  have hterms : ((names.map .name).mapIdx place).map spelled =
      (names.map fun m => .name (.given m.text)).mapIdx place := by
    apply List.ext_getElem?
    intro k
    simp only [List.getElem?_map, List.getElem?_mapIdx, Option.map_map]
    exact congrArg (Option.map · names[k]?) (funext fun m => h k (.name m))
  rw [spelled_joined, hterms]

/-- Packed names are a formula. -/
theorem isFormula_packed (h : ∀ m ∈ names, m.text.isIdentifier = true) :
    (packed d (names.map .name)).IsFormula d := by
  refine isFormula_joined_names rfl fun k m hm => ?_
  have hname : (Expr.name m).IsFormula d := .name (h m hm)
  split
  · exact ⟨hname, (by decide : 5 < 8)⟩
  · have hproduct : ∀ weight : Expr, weight.IsFormula d → 6 ≤ weight.tightness →
        (Expr.binary .times weight (.name m)).IsFormula d := fun weight hweight htight =>
      .binary rfl hweight hname htight (by decide : 6 < 8)
    refine ⟨?_, (by decide : 5 < 6)⟩
    unfold scaled
    split
    · next hwide => exact hproduct _ (.wideLiteral hwide.1 _) (by decide : 6 ≤ 8)
    · exact hproduct _ (.literal _) (by decide : 6 ≤ 8)

/-- Packed names are read back from their text. -/
theorem read?_packed (h : ∀ m ∈ names, m.text.isIdentifier = true) :
    read? d ((packed d (names.map .name)).text d) =
      some (packed d (names.map fun m => .name (.given m.text))) := by
  rw [(isFormula_packed h).read?_text]
  refine congrArg some (spelled_joined_names fun k e => ?_)
  split
  · rfl
  · unfold scaled
    split <;> rfl

/-- A word of names is a formula, if none of them looks like the start of a cast. -/
theorem isFormula_word (h : ∀ m ∈ names, m.text.isIdentifier = true)
    (hhead : ∀ m ∈ names, m.text.points.head? ≠ some (.char 'u')) :
    (word d (names.map .name)).IsFormula d := by
  refine isFormula_joined_names rfl fun k m hm => ?_
  have hname : (Expr.name m).IsFormula d := .name (h m hm)
  unfold shifted
  split_ifs with hzero hwide
  · exact ⟨hname, (by decide : 1 < 8)⟩
  · have hcast : (Expr.widen (.name m)).IsFormula d := .widen hwide.1 hname (by decide : 7 < 8)
    exact ⟨.shiftLeft hcast (by decide : 4 ≤ 7) (by simp [text]) k, (by decide : 1 < 8)⟩
  · exact ⟨.shiftLeft hname (by decide : 4 ≤ 8) (hhead m hm) k, (by decide : 1 < 8)⟩

/-- A word of names is read back from its text. -/
theorem read?_word (h : ∀ m ∈ names, m.text.isIdentifier = true)
    (hhead : ∀ m ∈ names, m.text.points.head? ≠ some (.char 'u')) :
    read? d ((word d (names.map .name)).text d) =
      some (word d (names.map fun m => .name (.given m.text))) := by
  rw [(isFormula_word h hhead).read?_text]
  refine congrArg some (spelled_joined_names fun k e => ?_)
  unfold shifted
  split_ifs <;> rfl

end Expr

end Latchwork
