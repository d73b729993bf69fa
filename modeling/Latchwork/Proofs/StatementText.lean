import Latchwork.Dialect.C
import Latchwork.Dialect.Python
import Latchwork.Proofs.Formula
import Latchwork.Proofs.Scope

/-!
# Statements, read back

A reader for the statements of an emitted loop, on symbols. It takes a clause at a time: in C what
stands before a semicolon, in Python a line, together with the line that it guards. A clause binds a
value to a name, in C with the type that the name is declared with, writes to a storage if a flag is
set, or returns if a flag is set. A value is a formula, a choice between formulas, a comparison of
formulas, or an element of a storage.

Python does not tell declarations from assignments, and a note is a comment in both dialects. What a
statement does is the same for its written form, because a store knows names by their spelling.
-/

namespace Latchwork

theorem Text.append_assoc (a b c : Text) : a ++ b ++ c = a ++ (b ++ c) := Text.ext (by simp)

/-! ### Symbols of values -/

namespace Lexeme

/-- What stands before a symbol and after it, where it stands first. -/
def cut? (x : Lexeme) (xs : List Lexeme) : Option (List Lexeme × List Lexeme) :=
  if x ∈ xs then some (xs.takeWhile (· != x), (xs.dropWhile (· != x)).tail) else none

variable {d : Dialect} {x : Lexeme} {xs : List Lexeme}

private theorem cut?_append (h : x ∉ xs) (ys : List Lexeme) : cut? x (xs ++ x :: ys) = some
    (xs, ys) := by
  have hother : ∀ y ∈ xs, (y != x) = true := fun y hy => bne_iff_ne.2 (ne_of_mem_of_not_mem hy h)
  rw [cut?, if_pos (by simp), List.takeWhile_append_of_pos hother,
    List.dropWhile_append_of_pos hother, List.takeWhile_cons_of_neg (by simp),
    List.dropWhile_cons_of_neg (by simp), List.append_nil, List.tail_cons]

private theorem cut?_eq_none (h : x ∉ xs) : cut? x xs = none := if_neg h

/-- Is the symbol one that only arithmetic is written with? -/
def isSign : Lexeme → Bool
  | .name _ => false
  | .equals => false
  | .mark _ => false
  | _ => true

end Lexeme

namespace Expr

open Lexeme

/-- A choice. In C the condition stands before both values, in Python between them. -/
def choice? : Dialect → List Lexeme → Option Expr
  | .c, symbols => do
    let (condition, values) ← cut? (.mark '?') symbols
    let (whenSet, whenClear) ← cut? (.mark ':') values
    return .choose (← formula? condition) (← formula? whenSet) (← formula? whenClear)
  | .python, symbols => do
    let (whenSet, rest) ← cut? (.name "if") symbols
    let (condition, whenClear) ← cut? (.name "else") rest
    return .choose (← formula? condition) (← formula? whenSet) (← formula? whenClear)

/-- The operands of a comparison, from what stands on both sides of it. In Python it is made a
number. -/
def operands? (left right : List Lexeme) : Dialect → Option (List Lexeme × List Lexeme)
  | .c => some (left, right)
  | .python => do
    return (← left.dropPrefix? [.name "int", .opening], ← right.dropSuffix? [.closing])

/-- A comparison. In C it binds more tightly than the operators that work bit by bit. -/
def comparison? (d : Dialect) (symbols : List Lexeme) : Option Expr := do
  let (left, right) ← cut? .equals symbols
  let (left, right) ← operands? left right d
  let a ← formula? left
  let b ← formula? right
  if d = .python ∨ 4 ≤ a.tightness ∧ 4 ≤ b.tightness then some (.binary .equal a b) else none

/-- An element of a storage. -/
def element? : List Lexeme → Option Expr
  | [.name storage, .mark '[', .name address, .mark ']'] =>
    some (.element (.given storage) (.given address))
  | _ => none

/-- The value that symbols spell. -/
def value? (d : Dialect) (symbols : List Lexeme) : Option Expr :=
  choice? d symbols <|> comparison? d symbols <|> element? symbols <|> formula? symbols

/-- The values that are read back. -/
inductive IsValue (d : Dialect) : Expr → Prop where
  | formula {e : Expr} (h : e.IsFormula d) : IsValue d e
  | equal {a b : Expr} (ha : a.IsFormula d) (hb : b.IsFormula d) (hleft : 4 ≤ a.tightness)
    (hright : 4 ≤ b.tightness) : IsValue d (.binary .equal a b)
  | choose {condition whenSet whenClear : Expr} (hcondition : condition.IsFormula d)
    (hset : whenSet.IsFormula d) (hclear : whenClear.IsFormula d) :
    IsValue d (.choose condition whenSet whenClear)
  | element {storage address : Name} (hstorage : storage.text.isIdentifier = true)
    (haddress : address.text.isIdentifier = true) : IsValue d (.element storage address)

/-- The symbols that a value is written with. -/
def valueSymbols (d : Dialect) : Expr → List Lexeme
  | .binary .equal a b =>
    match d with
    | .c => a.symbols ++ .equals :: b.symbols
    | .python => [.name "int", .opening] ++ a.symbols ++ .equals :: (b.symbols ++ [.closing])
  | .choose condition whenSet whenClear =>
    match d with
    | .c => condition.symbols ++ .mark '?' :: (whenSet.symbols ++ .mark ':' :: whenClear.symbols)
    | .python =>
      whenSet.symbols ++ .name "if" :: (condition.symbols ++ .name "else" :: whenClear.symbols)
  | .element storage address => [.name storage.text, .mark '[', .name address.text, .mark ']']
  | e => e.symbols

variable {d : Dialect} {e : Expr}

/-- A formula is written with its names and the signs of arithmetic. -/
theorem IsFormula.mem_symbols (h : e.IsFormula d) {x : Lexeme} (hx : x ∈ e.symbols) :
    (∃ m ∈ e.names, x = .name m.text) ∨ x.isSign = true := by
  induction h with
  | name h =>
    obtain rfl := List.mem_singleton.1 hx
    exact .inl ⟨_, .head _, rfl⟩
  | literal value | wideLiteral hd value =>
    obtain rfl := List.mem_singleton.1 hx
    exact .inr rfl
  | widen hd he htight ih =>
    rcases List.mem_cons.1 hx with rfl | hx
    · exact .inr rfl
    · exact ih hx
  | binary hop ha hb hleft hright iha ihb =>
    rw [symbols, hop, List.mem_append, List.mem_append] at hx
    rcases hx with (hx | hx) | hx
    · rcases iha hx with ⟨m, hm, hxm⟩ | hsign
      · exact .inl ⟨m, List.mem_append_left _ hm, hxm⟩
      · exact .inr hsign
    · obtain rfl := List.mem_singleton.1 hx
      exact .inr rfl
    · rcases ihb hx with ⟨m, hm, hxm⟩ | hsign
      · exact .inl ⟨m, List.mem_append_right _ hm, hxm⟩
      · exact .inr hsign
  | shiftLeft he htight hhead count ih | shiftRight he htight hhead count ih =>
    simp only [symbols, shiftSymbols, List.mem_cons, List.mem_append, List.not_mem_nil,
      or_false] at hx
    rcases hx with rfl | hx | rfl | rfl | rfl
    · exact .inr rfl
    · exact ih hx
    all_goals exact .inr rfl

private theorem IsFormula.valueSymbols_eq (h : e.IsFormula d) : e.valueSymbols d = e.symbols := by
  cases h with
  | @binary op => cases op <;> first | rfl | contradiction
  | _ => rfl

private theorem IsFormula.not_mem_symbols (h : e.IsFormula d) {x : Lexeme}
    (hname : ∀ t, x ≠ .name t) (hsign : x.isSign = false) : x ∉ e.symbols := by
  intro hx
  rcases h.mem_symbols hx with ⟨m, -, rfl⟩ | hsigned
  · exact hname _ rfl
  · cases hsign.symm.trans hsigned

/-- The marks that values are written with: brackets, and in C those of a choice. -/
theorem IsValue.mem_marks (h : e.IsValue d) {c : Char} (hc : .mark c ∈ e.valueSymbols d) :
    c ∈ ['[', ']'] ∨ d = .c ∧ c ∈ ['?', ':'] := by
  have hformula : ∀ {e : Expr}, e.IsFormula d → .mark c ∉ e.symbols := fun h =>
    h.not_mem_symbols (by simp) rfl
  cases h with
  | @formula e h =>
    rw [h.valueSymbols_eq] at hc
    exact absurd hc (hformula h)
  | equal ha hb => cases d <;> simp [valueSymbols, hformula ha, hformula hb] at hc
  | choose hcondition hset hclear =>
    cases d with
    | c =>
      refine .inr ⟨rfl, ?_⟩
      simpa [valueSymbols, hformula hcondition, hformula hset, hformula hclear] using hc
    | python => simp [valueSymbols, hformula hcondition, hformula hset, hformula hclear] at hc
  | element => exact .inl (by simpa [valueSymbols] using hc)

private theorem IsFormula.word_not_mem_symbols (h : e.IsFormula d) {word : Text}
    (hword : ∀ m ∈ e.names, m.text ≠ word) : .name word ∉ e.symbols := by
  intro hx
  rcases h.mem_symbols hx with ⟨m, hm, hxm⟩ | hsigned
  · exact hword m hm (Lexeme.name.inj hxm).symm
  · cases hsigned

private theorem choice?_eq_none {symbols : List Lexeme} (hmark : .mark '?' ∉ symbols)
    (hword : .name "if" ∉ symbols) : choice? d symbols = none := by
  cases d with
  | c =>
    rw [choice?, cut?_eq_none hmark]
    rfl
  | python =>
    rw [choice?, cut?_eq_none hword]
    rfl

private theorem comparison?_eq_none {symbols : List Lexeme} (h : .equals ∉ symbols) :
    comparison? d symbols = none := by
  rw [comparison?, cut?_eq_none h]
  rfl

private theorem tightness_spelled (e : Expr) : e.spelled.tightness = e.tightness := by
  cases e <;> rfl

private theorem IsFormula.value?_symbols (h : e.IsFormula d) (hif : ∀ m ∈ e.names, m.text ≠ "if") :
    value? d e.symbols = some e.spelled := by
  have helement : element? e.symbols = none := by
    unfold element?
    split
    · next hsymbols =>
      exact absurd (by rw [hsymbols]; simp) (h.not_mem_symbols (x := .mark '[') (by simp) rfl)
    · rfl
  rw [value?, choice?_eq_none (h.not_mem_symbols (by simp) rfl) (h.word_not_mem_symbols hif),
    comparison?_eq_none (h.not_mem_symbols (by simp) rfl), helement, h.formula?_symbols]
  rfl

/-- A comparison of formulas without keywords is read. -/
theorem value?_equal {a b : Expr} (ha : a.IsFormula d) (hb : b.IsFormula d)
    (hleft : 4 ≤ a.tightness) (hright : 4 ≤ b.tightness)
    (hif : ∀ m ∈ a.names ++ b.names, m.text ≠ "if") :
    value? d (valueSymbols d (.binary .equal a b)) =
      some (.binary .equal a.spelled b.spelled) := by
  have hequals : Lexeme.equals ∉ a.symbols := ha.not_mem_symbols (by simp) rfl
  have hmark := ha.not_mem_symbols (x := .mark '?') (by simp) rfl
  have hmark' := hb.not_mem_symbols (x := .mark '?') (by simp) rfl
  have hword := ha.word_not_mem_symbols fun m hm => hif m (List.mem_append_left _ hm)
  have hword' := hb.word_not_mem_symbols fun m hm => hif m (List.mem_append_right _ hm)
  have hchoice : choice? d (valueSymbols d (.binary .equal a b)) = none := by
    refine choice?_eq_none ?_ ?_
    · cases d <;> simp [valueSymbols, hmark, hmark']
    · cases d <;> simp [valueSymbols, hword, hword', Text.ofString_inj]
  have hcomparison : comparison? d (valueSymbols d (.binary .equal a b)) =
      some (.binary .equal a.spelled b.spelled) := by
    cases d with
    | c =>
      rw [comparison?, valueSymbols, cut?_append hequals]
      simp [operands?, ha.formula?_symbols, hb.formula?_symbols, tightness_spelled, hleft, hright]
    | python =>
      have hleft : Lexeme.equals ∉ [Lexeme.name "int", .opening] ++ a.symbols := by simp [hequals]
      have hprefix : List.dropPrefix? ([Lexeme.name "int", .opening] ++ a.symbols)
          [.name "int", .opening] = some a.symbols :=
        List.dropPrefix?_append_of_beq _ (by simp)
      have hsuffix : List.dropSuffix? (b.symbols ++ [Lexeme.closing]) [.closing] =
          some b.symbols := List.dropSuffix?_eq_some_iff.2 ⟨[.closing], rfl, by simp⟩
      rw [comparison?, valueSymbols, cut?_append hleft]
      simp only [operands?, hprefix, hsuffix, bind, Option.bind, pure, ha.formula?_symbols,
        hb.formula?_symbols, true_or, if_true]
  rw [value?, hchoice, hcomparison]
  rfl

/-- A choice between formulas without keywords is read. -/
theorem value?_choose {condition whenSet whenClear : Expr} (hcondition : condition.IsFormula d)
    (hset : whenSet.IsFormula d) (hclear : whenClear.IsFormula d)
    (hif : ∀ m ∈ whenSet.names, m.text ≠ "if") (helse : ∀ m ∈ condition.names, m.text ≠ "else") :
    value? d (valueSymbols d (.choose condition whenSet whenClear)) =
      some (.choose condition.spelled whenSet.spelled whenClear.spelled) := by
  have hchoice : choice? d (valueSymbols d (.choose condition whenSet whenClear)) =
      some (.choose condition.spelled whenSet.spelled whenClear.spelled) := by
    cases d with
    | c =>
      rw [choice?, valueSymbols, cut?_append (hcondition.not_mem_symbols (by simp) rfl)]
      change (cut? _ _ >>= _) = _
      rw [cut?_append (hset.not_mem_symbols (by simp) rfl)]
      simp [hcondition.formula?_symbols, hset.formula?_symbols, hclear.formula?_symbols]
    | python =>
      rw [choice?, valueSymbols, cut?_append (hset.word_not_mem_symbols hif)]
      change (cut? _ _ >>= _) = _
      rw [cut?_append (hcondition.word_not_mem_symbols helse)]
      simp [hcondition.formula?_symbols, hset.formula?_symbols, hclear.formula?_symbols]
  rw [value?, hchoice]
  rfl

private theorem value?_element {storage address : Name} (hstorage : storage.text ≠ "if")
    (haddress : address.text ≠ "if") :
    value? d (valueSymbols d (.element storage address)) =
      some (.element (.given storage.text) (.given address.text)) := by
  rw [value?, choice?_eq_none (by simp [valueSymbols])
    (by simp [valueSymbols, hstorage.symm, haddress.symm]), comparison?_eq_none
    (by simp [valueSymbols])]
  rfl

/-- The symbols of a value without keywords are read as its spelling. -/
theorem IsValue.value?_valueSymbols (h : e.IsValue d)
    (hfree : ∀ m ∈ e.names, m.text ≠ "if" ∧ m.text ≠ "else") :
    value? d (e.valueSymbols d) = some e.spelled := by
  cases h with
  | @formula e h =>
    rw [h.valueSymbols_eq]
    exact h.value?_symbols fun m hm => (hfree m hm).1
  | equal ha hb hleft hright =>
    exact value?_equal ha hb hleft hright fun m hm => (hfree m hm).1
  | choose hcondition hset hclear =>
    simp only [names, List.mem_append] at hfree
    exact value?_choose hcondition hset hclear (fun m hm => (hfree m (by simp [hm])).1)
      fun m hm => (hfree m (by simp [hm])).2
  | element hstorage haddress =>
    simp only [names, List.mem_cons, List.not_mem_nil, or_false, forall_eq_or_imp, forall_eq]
      at hfree
    exact value?_element hfree.1.1 hfree.2.1

end Expr

/-! ### Texts of values -/

namespace Lexeme

variable {d : Dialect} {t word : Text} {xs : List Lexeme}

private theorem marks_blank : Marks d " " [] := fun rest => by
  change lex d (.char ' ' :: rest) = _
  rw [lex_blank]
  simp

private theorem Spells.blank (h : Spells d t xs) : Marks d (t ++ " ") xs := by
  have hmarks := h.append_marks (by decide) (by decide) marks_blank
  rwa [List.append_nil] at hmarks

private theorem marks_keyword (ht : t = word ++ " ") (hword : word.isIdentifier = true) :
    Marks d t [.name word] := ht ▸ (spells_name hword).blank

private theorem marks_middle (ht : t = " " ++ (word ++ " ")) (hword : word.isIdentifier = true) :
    Marks d t [.name word] :=
  ht ▸ marks_blank.append_marks (marks_keyword rfl hword)

private theorem marks_sign {c : Char} (ht : t.points = [.char c]) (hc : c ∈ marks)
    (hequals : c ≠ '=') :
    Marks d t [.mark c] := by
  have hmark : marks.all (fun c => c == '=' || ofMark? (.char c) == some (.mark c) && c != '(' &&
      c != '<' && c != '>') = true := by rfl
  have hfacts := List.all_eq_true.1 hmark c hc
  simp only [beq_iff_eq, Bool.or_eq_true, Bool.and_eq_true, bne_iff_ne, ne_eq, hequals,
    false_or] at hfacts
  obtain ⟨⟨⟨hmark, hopening⟩, hless⟩, hgreater⟩ := hfacts
  refine marks_mark ht hmark hopening fun q => ?_
  unfold ofPair?
  split <;> simp_all

end Lexeme

namespace Expr

open Lexeme

variable {d : Dialect} {e : Expr}

/-- The text of a value is cut into its symbols. -/
theorem IsValue.spells (h : e.IsValue d) : Spells d (e.text d) (e.valueSymbols d) := by
  cases h with
  | @formula e h =>
    rw [h.valueSymbols_eq]
    exact h.spells
  | @equal a b ha hb hleft hright =>
    have hequals : Marks d " == " [.equals] := marks_pair rfl rfl
    have hplain := (ha.spells.append_marks (by decide) (by decide) hequals).append hb.spells
    cases d with
    | c => simpa [text, valueSymbols, Operator.text] using hplain
    | python =>
      have hcall : Marks .python "int(" [.name "int", .opening] := by
        have hopening : Marks .python "(" [.opening] := by
          intro rest
          change lex _ (.char '(' :: rest) = _
          rw [lex_mark rfl (ofPair?_opening rest) (by simp)]
          rfl
        exact (spells_name (t := "int") (by decide)).append_marks (by decide) (by decide) hopening
      have hclosing : Marks .python ")" [.closing] := marks_mark rfl rfl (by decide) fun _ => rfl
      have hwhole := (hcall.append hplain).append_marks (by decide) (by decide) hclosing
      intro rest _
      have hrest := hwhole rest
      simpa [text, valueSymbols, Operator.text] using hrest
  | @choose condition whenSet whenClear hcondition hset hclear =>
    cases d with
    | c =>
      have hfirst : Marks .c " ? " [.mark '?'] := marks_spaced rfl rfl (by decide)
      have hsecond : Marks .c " : " [.mark ':'] := marks_spaced rfl rfl (by decide)
      have hwhole := (((hcondition.spells.append_marks (by decide) (by decide) hfirst).append
        hset.spells).append_marks (by decide) (by decide) hsecond).append hclear.spells
      simpa [text, valueSymbols] using hwhole
    | python =>
      have hfirst : Marks .python " if " [.name "if"] := marks_middle rfl (by decide)
      have hsecond : Marks .python " else " [.name "else"] := marks_middle rfl (by decide)
      have hwhole := (((hset.spells.append_marks (by decide) (by decide) hfirst).append
        hcondition.spells).append_marks (by decide) (by decide) hsecond).append hclear.spells
      simpa [text, valueSymbols] using hwhole
  | element hstorage haddress =>
    have hopening : Marks d "[" [.mark '['] := marks_sign rfl (by decide) (by decide)
    have hclosing : Marks d "]" [.mark ']'] := marks_sign rfl (by decide) (by decide)
    have hwhole := (((spells_name hstorage).append_marks (by decide) (by decide) hopening).append
      (spells_name haddress)).append_marks (by decide) (by decide) hclosing
    intro rest _
    exact hwhole rest

end Expr

/-! ### Clauses -/

/-- What a clause does: it is a statement, or it returns a value if a flag is set. -/
inductive Step where
  | statement (st : Statement)
  | leave (flag : Name) (result : Expr)

namespace Clause

open Lexeme

/-- The flag that guards a clause, and what it guards. -/
def guard? : Dialect → List Lexeme → Option (Text × List Lexeme)
  | .c, .name word :: .opening :: .name flag :: .closing :: rest =>
    if word = "if" then some (flag, rest) else none
  | .python, .name word :: .name flag :: .mark ':' :: rest =>
    if word = "if" then some (flag, rest) else none
  | _, _ => none

/-- A write to a storage under a flag. -/
def write? (flag storage : Text) : List Lexeme → Option Step
  | [.mark '[', .name address, .mark ']', .mark '=', .name data] =>
    some (.statement (.store (.given flag) (.given storage) (.given address) (.given data)))
  | _ => none

/-- A return or a write under a flag. -/
def guarded? (d : Dialect) (flag : Text) : List Lexeme → Option Step
  | .name word :: rest =>
    if word = "return" then (Expr.value? d rest).map (.leave (.given flag))
    else write? flag word rest
  | _ => none

/-- A name and the value that is bound to it. -/
def assigned? (d : Dialect) (make : Name → Expr → Statement) : List Lexeme → Option Step
  | .name dest :: .mark '=' :: value =>
    (Expr.value? d value).map fun e => .statement (make (.given dest) e)
  | _ => none

/-- A clause that binds a value. In C a type before the name declares it. -/
def binding? : Dialect → List Lexeme → Option Step
  | .c, .name word :: rest =>
    if word = "bit" then assigned? .c (fun dest e => .bind dest e none) rest
    else if word = "unsigned" then
      (rest.dropPrefix? [.name "long", .name "long"]).bind (assigned? .c .bindWord)
    else assigned? .c .assign (.name word :: rest)
  | .python, symbols => assigned? .python .assign symbols
  | _, _ => none

/-- What a clause does. -/
def step? (d : Dialect) (symbols : List Lexeme) : Option Step :=
  match guard? d symbols with
  | some (flag, rest) => guarded? d flag rest
  | none => binding? d symbols

/-- The symbols of a guard. -/
def guardSymbols (flag : Text) : Dialect → List Lexeme
  | .c => [.name "if", .opening, .name flag, .closing]
  | .python => [.name "if", .name flag, .mark ':']

/-- The symbols of a type; Python has none. -/
def typeSymbols (words : List String) : Dialect → List Lexeme
  | .c => words.map fun word => .name word
  | .python => []

/-- The symbols that bind a value to a name. -/
def bindingSymbols (d : Dialect) (words : List String) (dest : Name) (value : Expr) :
    List Lexeme :=
  typeSymbols words d ++ .name dest.text :: .mark '=' :: value.valueSymbols d

/-- The symbols of a write. -/
def writeSymbols (storage address data : Name) : List Lexeme :=
  [.name storage.text, .mark '[', .name address.text, .mark ']', .mark '=', .name data.text]

/-- The symbols of a return. -/
def returnSymbols (d : Dialect) (result : Expr) : List Lexeme :=
  .name "return" :: result.valueSymbols d

end Clause

namespace Statement

/-- The clause that a statement is written as. -/
def clause (d : Dialect) : Statement → List Lexeme
  | .bind dest value _ => Clause.bindingSymbols d ["bit"] dest value
  | .bindWord dest value => Clause.bindingSymbols d ["unsigned", "long", "long"] dest value
  | .assign dest value => Clause.bindingSymbols d [] dest value
  | .store enable storage address data =>
    Clause.guardSymbols enable.text d ++ Clause.writeSymbols storage address data

/-- A statement as far as its text tells: names are known by their spelling, notes are left out, and
in Python all bindings are assignments. -/
def written (d : Dialect) : Statement → Statement
  | .bind dest value _ =>
    match d with
    | .c => .bind (.given dest.text) value.spelled none
    | .python => .assign (.given dest.text) value.spelled
  | .bindWord dest value =>
    match d with
    | .c => .bindWord (.given dest.text) value.spelled
    | .python => .assign (.given dest.text) value.spelled
  | .assign dest value => .assign (.given dest.text) value.spelled
  | .store enable storage address data =>
    .store (.given enable.text) (.given storage.text) (.given address.text) (.given data.text)

end Statement

/-- A text that is none of the reserved words of a dialect. -/
def Dialect.IsFree (d : Dialect) (t : Text) : Prop := ∀ word ∈ d.reservedWords, t ≠ word

/-- A name that can stand in a text: an identifier that is no reserved word. -/
structure Name.IsPlain (d : Dialect) (m : Name) : Prop where
  identifier : m.text.isIdentifier = true
  free : d.IsFree m.text

/-- A value that can be written and read back. -/
structure Expr.IsWritten (d : Dialect) (e : Expr) : Prop where
  value : e.IsValue d
  names : ∀ m ∈ e.names, d.IsFree m.text

/-- A statement that can be written and read back. In a guard, no flag looks like the start of a
cast. -/
inductive Statement.IsWritten (d : Dialect) : Statement → Prop where
  | bind {dest : Name} {value : Expr} (note : Option Note) (hdest : dest.IsPlain d)
    (hvalue : value.IsWritten d) : IsWritten d (.bind dest value note)
  | bindWord {dest : Name} {value : Expr} (hdest : dest.IsPlain d) (hvalue : value.IsWritten d) :
    IsWritten d (.bindWord dest value)
  | assign {dest : Name} {value : Expr} (hdest : dest.IsPlain d) (hvalue : value.IsWritten d) :
    IsWritten d (.assign dest value)
  | store {enable storage address data : Name} (henable : enable.IsPlain d)
    (hhead : enable.text.points.head? ≠ some (.char 'u')) (hstorage : storage.IsPlain d)
    (haddress : address.IsPlain d) (hdata : data.IsPlain d) :
    IsWritten d (.store enable storage address data)

namespace Clause

open Lexeme

variable {d : Dialect}

private theorem ne_keyword {t : Text} (h : d.IsFree t) :
    t ≠ "if" ∧ t ≠ "else" ∧ t ≠ "return" :=
  ⟨h "if" (by cases d <;> decide), h "else" (by cases d <;> decide),
    h "return" (by cases d <;> decide)⟩

private theorem value?_of_isWritten {e : Expr} (h : e.IsWritten d) :
    Expr.value? d (e.valueSymbols d) = some e.spelled :=
  h.value.value?_valueSymbols fun m hm =>
    ⟨(ne_keyword (h.names m hm)).1, (ne_keyword (h.names m hm)).2.1⟩

/-- What stands under a guard is read as what it guards. -/
theorem step?_guardSymbols (flag : Text) (rest : List Lexeme) :
    step? d (guardSymbols flag d ++ rest) = guarded? d flag rest := by
  cases d <;> simp [step?, guard?, guardSymbols]

theorem guarded?_returnSymbols {result : Expr} (h : result.IsWritten d) (flag : Text) :
    guarded? d flag (returnSymbols d result) = some (.leave (.given flag) result.spelled) := by
  rw [returnSymbols, guarded?, if_pos rfl, value?_of_isWritten h]
  rfl

private theorem guarded?_writeSymbols {storage address data : Name} (h : storage.IsPlain d)
    (flag : Text) :
    guarded? d flag (writeSymbols storage address data) =
      some (.statement (.store (.given flag) (.given storage.text) (.given address.text)
        (.given data.text))) := by
  rw [writeSymbols, guarded?, if_neg (ne_keyword h.free).2.2, write?]

/-- The clause of a statement is read as the statement, as far as its text tells. -/
theorem step?_clause {st : Statement} (h : st.IsWritten d) :
    step? d (st.clause d) = some (.statement (st.written d)) := by
  cases h with
  | bind note hdest hvalue =>
    have hread := value?_of_isWritten hvalue
    cases d <;> simp [step?, guard?, Statement.clause, bindingSymbols, typeSymbols, binding?,
      assigned?, Statement.written, hread]
  | bindWord hdest hvalue =>
    have hread := value?_of_isWritten hvalue
    cases d <;> simp [step?, guard?, Statement.clause, bindingSymbols, typeSymbols, binding?,
      assigned?, Statement.written, hread, List.dropPrefix?, Text.ofString_inj]
  | assign hdest hvalue =>
    have hread := value?_of_isWritten hvalue
    cases d with
    | c =>
      have hbit := hdest.free "bit" (by decide)
      have hunsigned := hdest.free "unsigned" (by decide)
      simp [step?, guard?, Statement.clause, bindingSymbols, typeSymbols, binding?, assigned?,
        Statement.written, hread, hbit, hunsigned]
    | python =>
      simp [step?, guard?, Statement.clause, bindingSymbols, typeSymbols, binding?, assigned?,
        Statement.written, hread]
  | store henable hhead hstorage haddress hdata =>
    rw [Statement.clause, step?_guardSymbols, guarded?_writeSymbols hstorage]
    rfl

end Clause

/-! ### Texts of statements -/

namespace Lexeme

variable {d : Dialect} {t : Text} {xs : List Lexeme}

theorem Marks.spells (h : Marks d t xs) : Spells d t xs := fun rest _ => h rest

/-- A line that starts with its first symbol, and the symbols of the line. -/
structure IsLine (d : Dialect) (line : Text) (symbols : List Lexeme) : Prop where
  lex_eq : lex d line.points = some symbols
  start : line.points.head? ≠ some (.char ' ')

/-- How a note is written after a statement. -/
def noteText (d : Dialect) (note : Note) : Text := ⟨.char ' ' :: commentMark d⟩ ++ " " ++ note.text

private theorem lex_noteText (d : Dialect) (note : Note) : lex d (noteText d note).points = some
    [] := by
  change lex d (.char ' ' :: (commentMark d ++ _ ++ _)) = _
  rw [lex_blank, List.append_assoc]
  refine lex_comment ?_
  cases note <;> decide

theorem Spells.isLine (h : Spells d t xs) (hstart : t.points.head? ≠ some (.char ' ')) :
    IsLine d t xs := ⟨h.lex_eq, hstart⟩

private theorem Spells.isLine_note (h : Spells d t xs) (hne : t.points ≠ [])
    (hstart : t.points.head? ≠ some (.char ' ')) (note : Note) :
    IsLine d (t ++ noteText d note) xs := by
  refine ⟨?_, ?_⟩
  · rw [Text.points_append, h _ (by rintro p ⟨⟩; rfl), lex_noteText, Option.map_some,
      List.append_nil]
  · rwa [Text.points_append, List.head?_append_of_ne_nil _ hne]

end Lexeme

private theorem Text.ne_nil_of_isIdentifier {t : Text} (h : t.isIdentifier = true) : t.points ≠
    [] := by
  intro hnil
  rw [isIdentifier, hnil] at h
  cases h

private theorem Text.head?_ne_blank {s t : Text} (h : s.isIdentifier = true) :
    (s ++ t).points.head? ≠ some (.char ' ') := by
  rw [points_append, List.head?_append_of_ne_nil _ (ne_nil_of_isIdentifier h)]
  exact fun hblank => not_mem_of_isIdentifier h (by decide) (List.mem_of_head? hblank)

namespace Clause

open Lexeme

variable {d : Dialect}

private theorem spells_binding {dest : Name} {value : Expr} (hdest : dest.IsPlain d)
    (hvalue : value.IsWritten d) :
    Spells d (dest.text ++ " = " ++ value.text d)
      (.name dest.text :: .mark '=' :: value.valueSymbols d) := by
  have hequals : Marks d " = " [.mark '='] := marks_spaced rfl rfl (by decide)
  exact ((spells_name hdest.identifier).append_marks (by decide) (by decide) hequals).append
    hvalue.value.spells

private theorem marks_semicolon : Marks d ";" [.mark ';'] := marks_sign rfl (by decide) (by decide)

private theorem spells_write {storage address data : Name} (hstorage : storage.IsPlain d)
    (haddress : address.IsPlain d) (hdata : data.IsPlain d) :
    Spells d (storage.text ++ "[" ++ address.text ++ "] = " ++ data.text)
      (writeSymbols storage address data) := by
  have hopening : Marks d "[" [.mark '['] := marks_sign rfl (by decide) (by decide)
  have hclosing : Marks d "]" [.mark ']'] := marks_sign rfl (by decide) (by decide)
  have hequals : Marks d " = " [.mark '='] := marks_spaced rfl rfl (by decide)
  have hmiddle : Marks d "] = " [.mark ']', .mark '='] := hclosing.append_marks hequals
  exact ((((spells_name hstorage.identifier).append_marks (by decide) (by decide)
    hopening).append (spells_name haddress.identifier)).append_marks (by decide) (by decide)
    hmiddle).append (spells_name hdata.identifier)

theorem spells_return {result : Expr} (h : result.IsWritten d) :
    Spells d ("return " ++ result.text d) (returnSymbols d result) := by
  have hword : Marks d "return " [.name "return"] := marks_keyword rfl (by decide)
  exact hword.append h.value.spells

/-- A guard in C. No flag looks like the start of a cast. -/
theorem marks_guard_c {flag : Name} (h : flag.IsPlain .c)
    (hhead : flag.text.points.head? ≠ some (.char 'u')) :
    Marks .c ("if (" ++ flag.text ++ ")") (guardSymbols flag.text .c) := by
  have hword : Marks .c "if " [.name "if"] := marks_keyword rfl (by decide)
  have hclosing : Marks .c ")" [.closing] := marks_mark rfl rfl (by decide) fun _ => rfl
  have hinner := (spells_name (d := .c) h.identifier).append_marks (by decide) (by decide) hclosing
  intro rest
  have hsplit : ("if (" ++ flag.text ++ ")" : Text).points ++ rest =
      (Text.ofString "if ").points ++ .char '(' :: ((flag.text ++ ")").points ++ rest) := by
    simp
  have hcast : castText.isPrefixOf ((flag.text ++ ")").points ++ rest) = false := by
    rw [Text.points_append, List.append_assoc]
    exact Expr.isPrefixOf_castText hhead (by decide) rest
  rw [hsplit, hword, lex_mark rfl (ofPair?_opening _) fun _ _ => hcast, hinner rest]
  simp [guardSymbols, Function.comp_def]

theorem marks_guard_python {flag : Name} (h : flag.IsPlain .python) :
    Marks .python ("if " ++ flag.text ++ ":") (guardSymbols flag.text .python) := by
  have hword : Marks .python "if " [.name "if"] := marks_keyword rfl (by decide)
  have hcolon : Marks .python ":" [.mark ':'] := marks_sign rfl (by decide) (by decide)
  exact (hword.append (spells_name h.identifier)).append_marks (by decide) (by decide) hcolon

/-- No mark that ends something stands in a value: in C no semicolon, in Python no colon. -/
theorem semicolon_not_mem {e : Expr} (h : e.IsWritten .c) : .mark ';' ∉ e.valueSymbols .c :=
  fun hmem => by simpa using h.value.mem_marks hmem

private theorem colon_not_mem {e : Expr} (h : e.IsWritten .python) :
    .mark ':' ∉ e.valueSymbols .python :=
  fun hmem => by simpa using h.value.mem_marks hmem

theorem semicolon_not_mem_clause {st : Statement} (h : st.IsWritten .c) :
    .mark ';' ∉ st.clause .c := by
  cases h with
  | bind note hdest hvalue | bindWord hdest hvalue | assign hdest hvalue =>
    simp [Statement.clause, bindingSymbols, typeSymbols, semicolon_not_mem hvalue]
  | store => simp [Statement.clause, guardSymbols, writeSymbols]

/-- What is ended by a semicolon. -/
theorem spells_ended {t : Text} {xs : List Lexeme} (h : Spells d t xs) :
    Spells d (t ++ ";") (xs ++ [.mark ';']) :=
  (h.append_marks (by decide) (by decide) marks_semicolon).spells

/-- In C a statement is a line that ends with a semicolon and possibly a note. -/
theorem exists_line_c {st : Statement} (h : st.IsWritten .c) :
    ∃ line, Dialect.C.statement st = .line line ∧
      IsLine .c line (st.clause .c ++ [.mark ';']) := by
  cases h with
  | @bind dest value note hdest hvalue =>
    have hbit : Marks .c "bit " [.name "bit"] := marks_keyword rfl (by decide)
    have hcode := spells_ended (hbit.append (spells_binding hdest hvalue))
    cases note with
    | none =>
      refine ⟨_, ?_, hcode.isLine (by simp)⟩
      simp only [Dialect.C.statement, Text.append_assoc]
    | some note =>
      refine ⟨_, ?_, hcode.isLine_note (by simp) (by simp) note⟩
      rw [Dialect.C.statement]
      exact congrArg Layout.line (Text.ext (by simp [noteText, commentMark]))
  | @bindWord dest value hdest hvalue =>
    have hunsigned : Marks .c "unsigned " [.name "unsigned"] := marks_keyword rfl (by decide)
    have hlong : Marks .c "long " [.name "long"] := marks_keyword rfl (by decide)
    have htype := hunsigned.append_marks (hlong.append_marks hlong)
    refine ⟨_, ?_, (spells_ended (htype.append (spells_binding hdest hvalue))).isLine (by simp)⟩
    rw [Dialect.C.statement]
    exact congrArg Layout.line (Text.ext (by simp))
  | assign hdest hvalue =>
    refine ⟨_, rfl, (spells_ended (spells_binding hdest hvalue)).isLine ?_⟩
    rw [Text.append_assoc, Text.append_assoc]
    exact Text.head?_ne_blank hdest.identifier
  | store henable hhead hstorage haddress hdata =>
    have hguard := (marks_guard_c henable hhead).append_marks marks_blank
    rw [List.append_nil] at hguard
    have hcode := spells_ended (hguard.append (spells_write hstorage haddress hdata))
    refine ⟨_, ?_, hcode.isLine (by simp)⟩
    rw [Dialect.C.statement]
    exact congrArg Layout.line (Text.ext (by simp))

/-- In Python a binding is a line, possibly with a note, and a write is a line under another one. -/
theorem exists_lines_python {st : Statement} (h : st.IsWritten .python) :
    (∃ line, Dialect.Python.statement st = [.line line] ∧ IsLine .python line (st.clause .python) ∧
      .mark ':' ∉ st.clause .python) ∨
    ∃ (flag : Name) (line inner : Text) (symbols : List Lexeme),
      Dialect.Python.statement st = [.line line, .block [.line inner]] ∧
      st.clause .python = guardSymbols flag.text .python ++ symbols ∧ symbols ≠ [] ∧
      IsLine .python line (guardSymbols flag.text .python) ∧ IsLine .python inner symbols := by
  cases h with
  | @bind dest value note hdest hvalue =>
    have hcode := spells_binding hdest hvalue
    have hstart : (dest.text ++ " = " ++ value.text .python).points.head? ≠ some (.char ' ') := by
      rw [Text.append_assoc]
      exact Text.head?_ne_blank hdest.identifier
    have hcolon : .mark ':' ∉ (Statement.bind dest value note).clause .python := by
      simp [Statement.clause, bindingSymbols, typeSymbols, colon_not_mem hvalue]
    cases note with
    | none => exact .inl ⟨_, rfl, hcode.isLine hstart, hcolon⟩
    | some note =>
      refine .inl ⟨_, ?_, hcode.isLine_note (by simp) hstart note, hcolon⟩
      rw [Dialect.Python.statement]
      exact congrArg (fun line => [Layout.line line]) (Text.ext (by simp [noteText, commentMark]))
  | bindWord hdest hvalue | assign hdest hvalue =>
    refine .inl ⟨_, rfl, (spells_binding hdest hvalue).isLine ?_, ?_⟩
    · rw [Text.append_assoc]
      exact Text.head?_ne_blank hdest.identifier
    · simp [Statement.clause, bindingSymbols, typeSymbols, colon_not_mem hvalue]
  | @store enable storage address data henable hhead hstorage haddress hdata =>
    refine .inr ⟨enable, _, _, writeSymbols storage address data, rfl, rfl, List.cons_ne_nil _ _,
      (marks_guard_python henable).spells.isLine (by simp),
      (spells_write hstorage haddress hdata).isLine ?_⟩
    simp only [Text.append_assoc]
    exact Text.head?_ne_blank hstorage.identifier

end Clause

/-! ### What written statements do -/

/-- A store knows names by their spelling. -/
theorem Expr.eval_spelled (s : Store) (e : Expr) : e.spelled.eval s = e.eval s := by
  induction e with
  | name | literal | wideLiteral | element => rfl
  | widen e ih => exact ih
  | binary op a b iha ihb => rw [spelled, eval, eval, iha, ihb]
  | shiftLeft e count ih => rw [spelled, eval, eval, ih]
  | shiftRight e count ih => rw [spelled, eval, eval, ih]
  | choose condition whenSet whenClear ihc iha ihb => rw [spelled, eval, eval, ihc, iha, ihb]

/-- A statement does what its text says. -/
theorem Statement.run_written (d : Dialect) (st : Statement) (s : Store) :
    (st.written d).run s = st.run s := by
  cases st with
  | bind dest value note =>
    cases d <;> exact congrArg (Except.map (s.set dest)) (value.eval_spelled s)
  | bindWord dest value =>
    cases d <;> exact congrArg (Except.map (s.set dest)) (value.eval_spelled s)
  | assign dest value => exact congrArg (Except.map (s.set dest)) (value.eval_spelled s)
  | store => rfl

end Latchwork
