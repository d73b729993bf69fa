import Latchwork.Procedure.Source
import Latchwork.Proofs.Artifacts
import Latchwork.Proofs.FixedWidth
import Latchwork.Proofs.StatementText
import Latchwork.Proofs.WireNames

/-!
# The loop of an emitted text, read back

A reader for the loop of a whole emitted text. The text is cut into lines, and the lines of the loop
come after the last one that opens a loop. In C they make one sequence of symbols, in which every
clause ends with a semicolon. In Python a clause is a line, together with the line under it that is
indented more deeply if there is one.

The loop that is read from the text of a compiled procedure has the statements of the procedure, its
exit test and its result, as far as a text tells. So a turn of the loop that the text describes is a
turn of the procedure. In C the loop also declares what it binds, each name with the type that it is
calculated with.
-/

namespace Latchwork

open Outcome

/-! ### Lines of a layout -/

namespace Layout

mutual
/-- The lines of a piece under an indentation. -/
def lines (unit indent : Text) : Layout → List Text
  | .line text => [indent ++ text]
  | .blank => [.empty]
  | .block body => linesAll unit (indent ++ unit) body

/-- The lines of several pieces under one indentation. -/
def linesAll (unit indent : Text) : List Layout → List Text
  | [] => []
  | piece :: rest => piece.lines unit indent ++ linesAll unit indent rest
end

mutual
private theorem points_render (unit indent : Text) : ∀ piece : Layout,
    (piece.render unit indent).points =
      ((piece.lines unit indent).map Text.points).flatMap (· ++ [.char '\n'])
  | .line text => by simp [render, lines]
  | .blank => by simp [render, lines]
  | .block body => points_renderAll unit (indent ++ unit) body

private theorem points_renderAll (unit indent : Text) : ∀ pieces : List Layout,
    (renderAll unit indent pieces).points =
      ((linesAll unit indent pieces).map Text.points).flatMap (· ++ [.char '\n'])
  | [] => rfl
  | piece :: rest => by
    rw [renderAll, Text.points_append, points_render unit indent piece,
      points_renderAll unit indent rest, linesAll, List.map_append, List.flatMap_append]
end

private theorem linesAll_append (unit indent : Text) (xs ys : List Layout) :
    linesAll unit indent (xs ++ ys) = linesAll unit indent xs ++ linesAll unit indent ys := by
  induction xs with
  | nil => rfl
  | cons x xs ih => rw [List.cons_append, linesAll, ih, linesAll, List.append_assoc]

end Layout

/-! ### Reading a loop -/

namespace Dialect

/-- The line that opens the loop. -/
def loopOpening : Dialect → Text
  | .c => "  for (;;) \x7b"
  | .python => "    while True:"

/-- The lines after the loop. -/
def loopClosing : Dialect → List Text
  | .c => ["  \x7d", "\x7d", .empty]
  | .python => [.empty]

/-- The lines of the last loop of a text. -/
def loopLines? (d : Dialect) (source : Text) : Option (List Text) :=
  if d.loopOpening ∈ source.splitOn '\n' then
    ((source.splitOn '\n').rtakeWhile (· != d.loopOpening)).dropSuffix? d.loopClosing
  else none

/-- The number of blanks that a line starts with, and its symbols. -/
def line? (d : Dialect) (line : Text) : Option (Nat × List Lexeme) :=
  (Lexeme.lex d line.points).map fun symbols =>
    ((line.points.takeWhile (· == .char ' ')).length, symbols)

/-- Clauses that each end with a semicolon. -/
def ended? (symbols : List Lexeme) : Option (List (List Lexeme)) :=
  (symbols.splitOn (.mark ';')).dropSuffix? [[]]

/-- Clauses at a level of indentation. A line that ends with a colon goes on with the line after it,
which is indented more deeply. -/
def indented? (level : Nat) : List (Nat × List Lexeme) → Option (List (List Lexeme))
  | [] => some []
  | (here, symbols) :: rest =>
    if here ≠ level then none
    else if symbols.getLast? = some (.mark ':') then
      match rest with
      | (inner, guarded) :: rest =>
        if level < inner then (indented? level rest).map ((symbols ++ guarded) :: ·) else none
      | [] => none
    else (indented? level rest).map (symbols :: ·)

/-- The clauses of lines; what stands in the loop is indented by two units. -/
def clauses? : Dialect → List (Nat × List Lexeme) → Option (List (List Lexeme))
  | .c, lines => ended? (lines.flatMap Prod.snd)
  | .python, lines =>
    indented? (2 * (indentation .python).length) (lines.filter fun line => !line.2.isEmpty)

end Dialect

/-- A loop: statements before the exit test, the flag and the result of the test, and the statements
after it. -/
structure Loop where
  before : List Statement
  exitFlag : Name
  result : Expr
  after : List Statement

namespace Loop

/-- The statement that a step is. -/
def statement? : Step → Option Statement
  | .statement st => some st
  | .leave .. => none

/-- The loop that steps make: one of them is the exit test. -/
def ofSteps? : List Step → Option Loop
  | [] => none
  | .leave flag result :: rest =>
    (rest.mapM statement?).map fun after => ⟨[], flag, result, after⟩
  | .statement st :: rest =>
    (ofSteps? rest).map fun loop => { loop with before := st :: loop.before }

/-- The loop of a source text. -/
def read? (d : Dialect) (source : Text) : Option Loop := do
  let lines ← d.loopLines? source
  let symbols ← lines.mapM d.line?
  let clauses ← d.clauses? symbols
  ofSteps? (← clauses.mapM (Clause.step? d))

/-- One turn of a loop. -/
def turn (loop : Loop) (s : Store) : Except Error Progress := do
  let s ← loop.before.foldlM Statement.run s
  let flag ← s.get loop.exitFlag
  if flag.isTrue then return .returned (← loop.result.eval s)
  let s ← loop.after.foldlM Statement.run s
  return .running s

private theorem ofSteps?_append (before after : List Statement) (flag : Name) (result : Expr) :
    ofSteps? (before.map .statement ++ .leave flag result :: after.map .statement) =
      some ⟨before, flag, result, after⟩ := by
  induction before with
  | nil =>
    have hafter : (after.map Step.statement).mapM statement? = some after := by
      induction after with
      | nil => rfl
      | cons st after ih => simp [statement?, ih]
    simp [ofSteps?, hafter]
  | cons st before ih => simp [ofSteps?, ih]

end Loop

/-- The loop of a procedure, as far as its text tells. -/
def Procedure.loop (p : Procedure) (d : Dialect) : Loop where
  before := p.settle.map (Statement.written d)
  exitFlag := .given p.exitFlag.text
  result := p.result.spelled
  after := (p.next ++ p.commit).map (Statement.written d)

private theorem Statement.foldlM_written (d : Dialect) (statements : List Statement) (s : Store) :
    (statements.map (Statement.written d)).foldlM Statement.run s =
      statements.foldlM Statement.run s := by
  induction statements generalizing s with
  | nil => rfl
  | cons st rest ih => simp only [List.map_cons, List.foldlM_cons, run_written, ih]

private theorem Procedure.turn_loop (p : Procedure) (d : Dialect) (s : Store) :
    (p.loop d).turn s = p.turn s := by
  simp only [Loop.turn, loop, turn, Statement.foldlM_written, Expr.eval_spelled,
    List.foldlM_append, bind_assoc]
  rfl

/-! ### The lines of an emitted loop -/

namespace Dialect

open Lexeme

variable {d : Dialect}

/-- The indentation of what stands in the loop. -/
def loopIndent (d : Dialect) : Text := d.indentation ++ d.indentation

private theorem line?_append {line : Text} {symbols : List Lexeme} (h : IsLine d line symbols)
    {indent : Text} {k : Nat} (hindent : indent.points = List.replicate k (.char ' ')) :
    d.line? (indent ++ line) = some (k, symbols) := by
  have hlex : ∀ k, lex d (List.replicate k (.char ' ') ++ line.points) = some symbols := by
    intro k
    induction k with
    | zero => exact h.lex_eq
    | succ k ih => rwa [List.replicate_succ, List.cons_append, lex_blank]
  have hstart : line.points.takeWhile (· == .char ' ') = [] := by
    have hhead := h.start
    cases hpoints : line.points with
    | nil => rfl
    | cons p rest =>
      rw [hpoints] at hhead
      exact List.takeWhile_cons_of_neg (by simpa using hhead)
  rw [line?, Text.points_append, hindent, hlex, Option.map_some, List.takeWhile_append_of_pos
    (by simp), hstart, List.append_nil, List.length_replicate]

private theorem not_mem_of_line? {line : Text} {read : Nat × List Lexeme}
    (h : d.line? line = some read) :
    .char '\n' ∉ line.points := by
  obtain ⟨symbols, hsymbols, -⟩ := Option.map_eq_some_iff.1 h
  exact not_mem_of_lex hsymbols

/-- Pieces of the loop hold clauses: their lines can be read, none of them opens a loop, and their
clauses come before those of what follows. -/
def Holds (d : Dialect) (pieces : List Layout) (clauses : List (List Lexeme)) : Prop :=
  ∃ read, (Layout.linesAll d.indentation d.loopIndent pieces).mapM d.line? = some read ∧
    (∀ line ∈ Layout.linesAll d.indentation d.loopIndent pieces,
      line ≠ d.loopOpening ∧ .char '\n' ∉ line.points) ∧
    ∀ rest others, d.clauses? rest = some others →
      d.clauses? (read ++ rest) = some (clauses ++ others)

private theorem Holds.append {xs ys : List Layout} {as bs : List (List Lexeme)} (hx : d.Holds xs as)
    (hy : d.Holds ys bs) : d.Holds (xs ++ ys) (as ++ bs) := by
  obtain ⟨first, hfirst, hlines, hclauses⟩ := hx
  obtain ⟨second, hsecond, hlines', hclauses'⟩ := hy
  refine ⟨first ++ second, ?_, ?_, fun rest others hrest => ?_⟩
  · rw [Layout.linesAll_append, List.mapM_append, hfirst, hsecond]
    rfl
  · rw [Layout.linesAll_append]
    exact List.forall_mem_append.2 ⟨hlines, hlines'⟩
  · rw [List.append_assoc, List.append_assoc]
    exact hclauses _ _ (hclauses' rest others hrest)

private theorem Holds.flatMap {α : Type} {f : α → List Layout} {g : α → List Lexeme}
    {items : List α}
    (h : ∀ x ∈ items, d.Holds (f x) [g x]) : d.Holds (items.flatMap f) (items.map g) := by
  induction items with
  | nil => exact ⟨[], rfl, by simp [Layout.linesAll], fun rest others hrest => hrest⟩
  | cons x items ih =>
    exact (h x List.mem_cons_self).append (ih fun y hy => h y (List.mem_cons_of_mem x hy))

private theorem append_ne_loopOpening (d : Dialect) (t : Text) :
    d.loopIndent ++ t ≠ d.loopOpening := by
  intro h
  have hpoints := congrArg Text.points h
  cases d <;> simp [loopOpening, loopIndent, indentation] at hpoints

private theorem points_loopIndent (d : Dialect) :
    d.loopIndent.points = List.replicate (2 * d.indentation.length) (.char ' ') := by
  cases d <;> rfl

private theorem points_blockIndent (d : Dialect) :
    (d.loopIndent ++ d.indentation).points =
      List.replicate (3 * d.indentation.length) (.char ' ') := by
  cases d <;> rfl

private theorem holds_line {line : Text} {symbols : List Lexeme} {clauses : List (List Lexeme)}
    (h : IsLine d line symbols)
    (hclauses : ∀ rest others, d.clauses? rest = some others →
      d.clauses? ((2 * d.indentation.length, symbols) :: rest) = some (clauses ++ others)) :
    d.Holds [.line line] clauses := by
  have hread := line?_append h d.points_loopIndent
  refine ⟨[_], ?_, ?_, hclauses⟩
  · simp [Layout.linesAll, Layout.lines, hread]
  · exact List.forall_mem_singleton.2 ⟨d.append_ne_loopOpening line, not_mem_of_line? hread⟩

private theorem holds_guarded {line inner : Text} {symbols guarded : List Lexeme}
    {clauses : List (List Lexeme)} (h : IsLine d line symbols) (hinner : IsLine d inner guarded)
    (hclauses : ∀ rest others, d.clauses? rest = some others →
      d.clauses? ((2 * d.indentation.length, symbols) ::
        (3 * d.indentation.length, guarded) :: rest) = some (clauses ++ others)) :
    d.Holds [.line line, .block [.line inner]] clauses := by
  have hread := line?_append h d.points_loopIndent
  have hread' := line?_append hinner d.points_blockIndent
  refine ⟨[_, _], ?_, ?_, hclauses⟩
  · simp [Layout.linesAll, Layout.lines, hread, hread']
  · have hdeep := d.append_ne_loopOpening (d.indentation ++ inner)
    rw [← Text.append_assoc] at hdeep
    exact List.forall_mem_cons.2 ⟨⟨d.append_ne_loopOpening line, not_mem_of_line? hread⟩,
      List.forall_mem_singleton.2 ⟨hdeep, not_mem_of_line? hread'⟩⟩

private theorem holds_comment {line : Text} (h : IsLine d line []) : d.Holds [.line line] [] :=
  holds_line h fun rest others hrest => by cases d <;> simpa [clauses?] using hrest

private theorem ended?_append {clause rest : List Lexeme} {others : List (List Lexeme)}
    (h : .mark ';' ∉ clause) (hrest : ended? rest = some others) :
    ended? (clause ++ .mark ';' :: rest) = some (clause :: others) := by
  rw [ended?, List.dropSuffix?_eq_some_iff] at hrest ⊢
  obtain ⟨last, hsplit, hlast⟩ := hrest
  refine ⟨last, ?_, hlast⟩
  rw [List.splitOn_append_cons_self_of_not_mem h, hsplit, List.cons_append]

private theorem holds_ended {line : Text} {clause : List Lexeme}
    (h : IsLine .c line (clause ++ [.mark ';'])) (hclause : .mark ';' ∉ clause) :
    Holds .c [.line line] [clause] :=
  holds_line h fun rest others hrest => by
    simpa [clauses?] using ended?_append hclause hrest

private theorem holds_guarded_c {line inner : Text} {guard clause : List Lexeme}
    (hline : IsLine .c line guard) (hinner : IsLine .c inner (clause ++ [.mark ';']))
    (hguard : .mark ';' ∉ guard) (hclause : .mark ';' ∉ clause) :
    Holds .c [.line line, .block [.line inner]] [guard ++ clause] :=
  holds_guarded hline hinner fun rest others hrest => by
    have hmem : .mark ';' ∉ guard ++ clause := by simp [hguard, hclause]
    simpa [clauses?] using ended?_append hmem hrest

private theorem indented?_plain {level : Nat} {symbols : List Lexeme}
    {rest : List (Nat × List Lexeme)} (h : symbols.getLast? ≠ some (.mark ':')) :
    indented? level ((level, symbols) :: rest) = (indented? level rest).map (symbols :: ·) := by
  rw [indented?.eq_def]
  simp [h]

private theorem indented?_guarded {level inner : Nat} {symbols guarded : List Lexeme}
    {rest : List (Nat × List Lexeme)} (h : symbols.getLast? = some (.mark ':'))
    (hinner : level < inner) :
    indented? level ((level, symbols) :: (inner, guarded) :: rest) =
      (indented? level rest).map ((symbols ++ guarded) :: ·) := by
  rw [indented?.eq_def]
  simp [h, hinner]

private theorem holds_plain {line : Text} {clause : List Lexeme} (h : IsLine .python line clause)
    (hne : clause ≠ []) (hcolon : .mark ':' ∉ clause) : Holds .python [.line line] [clause] :=
  holds_line h fun rest others hrest => by
    have hlast : clause.getLast? ≠ some (.mark ':') := fun hlast =>
      hcolon (List.mem_of_getLast? hlast)
    rw [clauses?] at hrest ⊢
    rw [List.filter_cons_of_pos (by simpa using hne), indented?_plain hlast, hrest]
    rfl

private theorem holds_guarded_python {line inner : Text} {guard clause : List Lexeme}
    (hline : IsLine .python line guard) (hinner : IsLine .python inner clause)
    (hguard : guard.getLast? = some (.mark ':')) (hne : clause ≠ []) :
    Holds .python [.line line, .block [.line inner]] [guard ++ clause] :=
  holds_guarded hline hinner fun rest others hrest => by
    have hguarded : guard ≠ [] := by
      rintro rfl
      cases hguard
    rw [clauses?] at hrest ⊢
    rw [List.filter_cons_of_pos (by simpa using hguarded),
      List.filter_cons_of_pos (by simpa using hne), indented?_guarded hguard (by decide), hrest]
    rfl

/-- How a statement is laid out. -/
def pieces : Dialect → Statement → List Layout
  | .c, st => [C.statement st]
  | .python, st => Python.statement st

private theorem holds_statement {st : Statement} (h : st.IsWritten d) : d.Holds (d.pieces st)
    [st.clause d] := by
  cases d with
  | c =>
    obtain ⟨line, hline, hsymbols⟩ := Clause.exists_line_c h
    rw [pieces, hline]
    exact holds_ended hsymbols (Clause.semicolon_not_mem_clause h)
  | python =>
    rcases Clause.exists_lines_python h with ⟨line, hline, hsymbols, hcolon⟩ |
      ⟨flag, line, inner, symbols, hlines, hclause, hne, hline, hinner⟩
    · rw [pieces, hline]
      refine holds_plain hsymbols ?_ hcolon
      cases st <;> simp [Statement.clause, Clause.bindingSymbols, Clause.guardSymbols]
    · rw [pieces, hlines, hclause]
      exact holds_guarded_python hline hinner rfl hne

/-- How the exit test is laid out. -/
def exitTest (p : Procedure) : Dialect → List Layout
  | .c => [.line ("if (" ++ p.exitFlag.text ++ ")"),
      .block [.line ("return " ++ p.result.text .c ++ ";")]]
  | .python => [.line ("if " ++ p.exitFlag.text ++ ":"),
      .block [.line ("return " ++ p.result.text .python)]]

/-- How the loop is laid out. -/
def loopBody (p : Procedure) : Dialect → List Layout
  | .c => C.loopBody p
  | .python => Python.loopBody p

/-- The line that opens the loop. -/
def loopLine : Dialect → Text
  | .c => "for (;;) \x7b"
  | .python => "while True:"

/-- What closes a block. -/
def closing : Dialect → List Layout
  | .c => [.line "\x7d"]
  | .python => []

private theorem isLine_comment {line : Text} (h : (commentMark d).isPrefixOf line.points = true)
    (hline : .char '\n' ∉ line.points) : IsLine d line [] := by
  obtain ⟨rest, hrest⟩ := List.isPrefixOf_iff_prefix.1 h
  rw [← hrest, List.mem_append, not_or] at hline
  refine ⟨hrest ▸ lex_comment hline.2, ?_⟩
  rw [← hrest]
  cases d <;> simp [commentMark]

/-- The loop is laid out in three parts, each under a comment, with the exit test after the first.
-/
theorem exists_loopBody (p : Procedure) (d : Dialect) : ∃ first second third : Text,
    loopBody p d = [.line first] ++ p.settle.flatMap d.pieces ++ exitTest p d ++
      [.line second] ++ p.next.flatMap d.pieces ++ [.line third] ++ p.commit.flatMap d.pieces ∧
    IsLine d first [] ∧ IsLine d second [] ∧ IsLine d third [] := by
  cases d with
  | c =>
    have hpieces : ∀ statements : List Statement,
        statements.map C.statement = statements.flatMap (pieces .c) := fun _ => List.map_eq_flatMap
    refine ⟨"// Calculate the current value of wires, in dependency order",
      "// Calculate the next values of registers", "// Update the registers", ?_,
      isLine_comment (by decide) (by decide), isLine_comment (by decide) (by decide),
      isLine_comment (by decide) (by decide)⟩
    rw [loopBody, C.loopBody, hpieces, hpieces, hpieces, exitTest]
    simp only [List.append_assoc, List.cons_append, List.nil_append]
  | python =>
    refine ⟨"# Calculate the current value of wires, in dependency order",
      "# Calculate the next values of registers", "# Update the registers", ?_,
      isLine_comment (by decide) (by decide), isLine_comment (by decide) (by decide),
      isLine_comment (by decide) (by decide)⟩
    rw [loopBody, Python.loopBody, exitTest]
    simp only [List.append_assoc, List.cons_append, List.nil_append]
    rfl

/-- The loop of a procedure that can be read back. -/
theorem holds_loopBody {p : Procedure} (hbody : ∀ st ∈ p.body, st.IsWritten d)
    (hflag : p.exitFlag.IsPlain d) (hhead : p.exitFlag.text.points.head? ≠ some (.char 'u'))
    (hresult : p.result.IsWritten d) :
    d.Holds (loopBody p d) (p.settle.map (Statement.clause d) ++
      [Clause.guardSymbols p.exitFlag.text d ++ Clause.returnSymbols d p.result] ++
        (p.next ++ p.commit).map (Statement.clause d)) := by
  set exitClause := Clause.guardSymbols p.exitFlag.text d ++ Clause.returnSymbols d p.result
  have hstatements : ∀ statements ⊆ p.body,
      d.Holds (statements.flatMap d.pieces) (statements.map (Statement.clause d)) :=
    fun statements hsub => Holds.flatMap fun st hst => holds_statement (hbody st (hsub hst))
  have hexit : d.Holds (exitTest p d) [exitClause] := by
    cases d with
    | c =>
      refine holds_guarded_c ((Clause.marks_guard_c hflag hhead).spells.isLine (by simp))
        ((Clause.spells_ended (Clause.spells_return hresult)).isLine (by simp))
        (by simp [Clause.guardSymbols]) ?_
      simp [Clause.returnSymbols, Clause.semicolon_not_mem hresult]
    | python =>
      exact holds_guarded_python ((Clause.marks_guard_python hflag).spells.isLine (by simp))
        ((Clause.spells_return hresult).isLine (by simp)) rfl (List.cons_ne_nil _ _)
  have hsettle := hstatements p.settle fun st hst => by simp [Procedure.body, hst]
  have hnext := hstatements p.next fun st hst => by simp [Procedure.body, hst]
  have hcommit := hstatements p.commit fun st hst => by simp [Procedure.body, hst]
  have hclauses : p.settle.map (Statement.clause d) ++ [exitClause] ++
      (p.next ++ p.commit).map (Statement.clause d) =
      [] ++ p.settle.map (Statement.clause d) ++ [exitClause] ++ [] ++
        p.next.map (Statement.clause d) ++ [] ++ p.commit.map (Statement.clause d) := by
    simp
  obtain ⟨first, second, third, hlayout, hfirst, hsecond, hthird⟩ := exists_loopBody p d
  rw [hlayout, hclauses]
  exact ((((((holds_comment hfirst).append hsettle).append hexit).append
    (holds_comment hsecond)).append hnext).append (holds_comment hthird)).append hcommit

end Dialect

/-- How a procedure is laid out. -/
def Dialect.layout (p : Procedure) : Dialect → List Layout
  | .c => C.layout p
  | .python => Python.layout p

private theorem source_eq (p : Procedure) (d : Dialect) :
    p.source d = Layout.renderAll d.indentation .empty (d.layout p) := by
  cases d <;> rfl

private theorem exists_layout (p : Procedure) (d : Dialect) : ∃ front declarations : List Layout,
    d.layout p = front ++ .block (declarations ++
      .line d.loopLine :: .block (d.loopBody p) :: d.closing) :: d.closing := by
  cases d with
  | c =>
    rw [Dialect.layout, Dialect.C.layout]
    exact ⟨[_, _, _, _, _, _, _], _, rfl⟩
  | python =>
    rw [Dialect.layout, Dialect.Python.layout]
    exact ⟨[_], _, rfl⟩

private theorem Text.exists_splitOn_flatMap_append {α : Type} [BEq α] [LawfulBEq α] (separator : α)
    (lines : List (List α)) (rest : List α) : ∃ front,
    (lines.flatMap (· ++ [separator]) ++ rest).splitOn separator =
      front ++ rest.splitOn separator := by
  induction lines with
  | nil => exact ⟨[], rfl⟩
  | cons line lines ih =>
    obtain ⟨front, hfront⟩ := ih
    refine ⟨line.splitOn separator ++ front, ?_⟩
    rw [List.flatMap_cons, List.append_assoc, List.append_assoc, List.singleton_append,
      List.splitOn_append_cons_self, hfront, List.append_assoc]

private theorem exists_linesAll (p : Procedure) (d : Dialect) : ∃ front closing : List Text,
    Layout.linesAll d.indentation .empty (d.layout p) = front ++ d.loopOpening ::
      (Layout.linesAll d.indentation d.loopIndent (d.loopBody p) ++ closing) ∧
    d.loopClosing = closing ++ [.empty] := by
  obtain ⟨front, declarations, hlayout⟩ := exists_layout p d
  refine ⟨Layout.linesAll d.indentation .empty front ++
    Layout.linesAll d.indentation d.indentation declarations,
    Layout.linesAll d.indentation d.indentation d.closing ++
      Layout.linesAll d.indentation .empty d.closing, ?_, by cases d <;> rfl⟩
  have hunit : Text.empty ++ d.indentation = d.indentation := Text.ext rfl
  have hopening : d.indentation ++ d.loopLine = d.loopOpening := by cases d <;> rfl
  rw [hlayout, Layout.linesAll_append, Layout.linesAll, Layout.lines, hunit,
    Layout.linesAll_append, Layout.linesAll, Layout.lines, Layout.linesAll, Layout.lines, hopening]
  simp only [List.append_assoc, List.cons_append, List.nil_append]
  rfl

/-- A source text has the lines of its loop between the line that opens it and the closing lines, if
they are single lines. -/
theorem Procedure.exists_splitOn_source (p : Procedure) (d : Dialect)
    (h : ∀ line ∈ Layout.linesAll d.indentation d.loopIndent (d.loopBody p),
      .char '\n' ∉ line.points) :
    ∃ front, (p.source d).splitOn '\n' = front ++ d.loopOpening ::
      (Layout.linesAll d.indentation d.loopIndent (d.loopBody p) ++ d.loopClosing) := by
  obtain ⟨front, closing, hlines, hclosing⟩ := exists_linesAll p d
  set body := Layout.linesAll d.indentation d.loopIndent (d.loopBody p)
  have hends : ∀ line ∈ d.loopOpening :: d.loopClosing, .char '\n' ∉ line.points := by
    cases d <;> decide
  have hsingle : ∀ points ∈ (d.loopOpening :: (body ++ closing)).map Text.points,
      .char '\n' ∉ points := by
    intro points hpoints
    obtain ⟨line, hline, rfl⟩ := List.mem_map.1 hpoints
    rw [← List.cons_append, List.mem_append, List.mem_cons] at hline
    rcases hline with (rfl | hline) | hline
    · exact hends _ List.mem_cons_self
    · exact h line hline
    · exact hends _ (List.mem_cons_of_mem _ (hclosing ▸ List.mem_append_left _ hline))
  have hafter := Text.splitOn_flatMap_append hsingle []
  rw [List.append_nil, List.splitOn_nil] at hafter
  obtain ⟨parts, hparts⟩ := Text.exists_splitOn_flatMap_append (CodePoint.char '\n')
    (front.map Text.points) (((d.loopOpening :: (body ++ closing)).map Text.points).flatMap
      (· ++ [.char '\n']))
  have hmk : ∀ lines : List Text, (lines.map Text.points).map Text.mk = lines := fun lines => by
    rw [List.map_map]
    exact List.map_id lines
  refine ⟨parts.map Text.mk, ?_⟩
  rw [Text.splitOn, source_eq, Layout.points_renderAll, hlines, List.map_append,
    List.flatMap_append, hparts, hafter, List.map_append, List.map_append, hmk, hclosing,
    ← List.append_assoc body, ← List.cons_append]
  rfl

/-! ### Loops are read back -/

private theorem rtakeWhile_append_cons {α : Type} {p : α → Bool} {x : α} {xs ys : List α}
    (hx : p x = false) (hys : ∀ y ∈ ys, p y = true) : (xs ++ x :: ys).rtakeWhile p = ys := by
  have hreverse : ∀ y ∈ ys.reverse, p y = true := by simpa using hys
  rw [List.rtakeWhile, List.reverse_append, List.reverse_cons, List.append_assoc,
    List.takeWhile_append_of_pos hreverse, List.singleton_append,
    List.takeWhile_cons_of_neg (by simp [hx]), List.append_nil, List.reverse_reverse]

private theorem Dialect.loopLines?_eq {d : Dialect} {source : Text} {front body : List Text}
    (h : source.splitOn '\n' = front ++ d.loopOpening :: (body ++ d.loopClosing))
    (hbody : d.loopOpening ∉ body) : d.loopLines? source = some body := by
  have hopening : d.loopOpening ∉ body ++ d.loopClosing := by
    rw [List.mem_append, not_or]
    exact ⟨hbody, by cases d <;> decide⟩
  have hafter : (source.splitOn '\n').rtakeWhile (· != d.loopOpening) = body ++ d.loopClosing := by
    rw [h]
    refine rtakeWhile_append_cons (by simp) fun line hline => ?_
    exact bne_iff_ne.2 (ne_of_mem_of_not_mem hline hopening)
  rw [loopLines?, if_pos (by rw [h]; simp), hafter]
  exact List.dropSuffix?_eq_some_iff.2 ⟨d.loopClosing, rfl, by simp⟩

/-- The loop of a procedure is read back from its text, if its statements can be. -/
theorem Loop.read?_source {p : Procedure} {d : Dialect} (hbody : ∀ st ∈ p.body, st.IsWritten d)
    (hflag : p.exitFlag.IsPlain d) (hhead : p.exitFlag.text.points.head? ≠ some (.char 'u'))
    (hresult : p.result.IsWritten d) : read? d (p.source d) = some (p.loop d) := by
  obtain ⟨symbols, hsymbols, hlines, hclauses⟩ :=
    Dialect.holds_loopBody hbody hflag hhead hresult
  obtain ⟨front, hsplit⟩ := p.exists_splitOn_source d fun line hline => (hlines line hline).2
  have hread := hclauses [] [] (by cases d <;> rfl)
  rw [List.append_nil, List.append_nil] at hread
  have hstatements : ∀ statements ⊆ p.body,
      (statements.map (Statement.clause d)).mapM (Clause.step? d) =
        some (statements.map fun st => .statement (st.written d)) := fun statements hsub =>
    mapM_map_eq_some fun st hst => Clause.step?_clause (hbody st (hsub hst))
  have hbefore := hstatements p.settle fun st hst => by simp [Procedure.body, hst]
  have hafter := hstatements (p.next ++ p.commit) fun st hst => by
    simpa [Procedure.body] using .inr (List.mem_append.1 hst)
  have hexit : Clause.step? d (Clause.guardSymbols p.exitFlag.text d ++
      Clause.returnSymbols d p.result) =
      some (.leave (.given p.exitFlag.text) p.result.spelled) := by
    rw [Clause.step?_guardSymbols, Clause.guarded?_returnSymbols hresult]
  have hloop := ofSteps?_append (p.settle.map (Statement.written d))
    ((p.next ++ p.commit).map (Statement.written d)) (.given p.exitFlag.text) p.result.spelled
  have hsteps : (p.settle.map (Statement.clause d) ++ [Clause.guardSymbols p.exitFlag.text d ++
      Clause.returnSymbols d p.result] ++ (p.next ++ p.commit).map (Statement.clause d)).mapM
        (Clause.step? d) = some ((p.settle.map (Statement.written d)).map .statement ++
      .leave (.given p.exitFlag.text) p.result.spelled ::
        ((p.next ++ p.commit).map (Statement.written d)).map .statement) := by
    rw [List.mapM_append, List.mapM_append, hbefore, hafter, List.mapM_cons, hexit, List.map_map,
      List.map_map]
    simp [Function.comp_def]
  have hlines? := Dialect.loopLines?_eq hsplit fun hline => (hlines _ hline).1 rfl
  simp only [read?, hlines?, hsymbols, hread, hsteps, Option.bind_eq_bind, Option.bind_some]
  exact hloop

/-! ### Compiled procedures -/

/-- A generated name is an identifier. -/
theorem isIdentifier_of_isGeneratedName {t : Text} (h : isGeneratedName t = true) :
    t.isIdentifier = true := by
  have hparts : ∀ {rest : List CodePoint}, isGeneratedName.isNumbered rest = true →
      ∀ p ∈ rest, p.satisfies Text.isIdentifierPart = true := by
    intro rest hrest p hp
    obtain ⟨digits, tail, -, hdigits, htail, rfl⟩ := isNumbered_iff.1 hrest
    obtain ⟨c, hc, rfl⟩ := List.mem_map.1 hp
    change Text.isIdentifierPart c = true
    rcases List.mem_append.1 hc with hc | hc
    · simp [Text.isIdentifierPart, Char.isAlphanum, hdigits c hc]
    · rcases htail with rfl | ⟨tail, rfl, htail⟩
      · cases hc
      · rcases List.mem_cons.1 hc with rfl | hc
        · rfl
        · exact htail c hc
  unfold isGeneratedName at h
  split at h
  case h_1 rest hpoints | h_2 rest hpoints =>
    rw [Text.isIdentifier, hpoints, Text.isIdentifierPoints, Bool.and_eq_true, List.all_eq_true]
    exact ⟨rfl, hparts h⟩
  case h_3 => cases h

private theorem Name.IsProper.isPlain {d : Dialect} {m : Name} (h : m.IsProper)
    (hgiven : ∀ t, m = .given t → d.Allows t) : m.IsPlain d := by
  cases hparts : m.parts with
  | none =>
    cases m with
    | given t => exact ⟨(hgiven t rfl).identifier, (hgiven t rfl).free⟩
    | _ => cases hparts
  | some parts =>
    have hgenerated := isGeneratedName_text h hparts
    refine ⟨isIdentifier_of_isGeneratedName hgenerated, ?_⟩
    rintro word hword heq
    have hreserved : ∀ word ∈ d.reservedWords, isGeneratedName word = false := by
      cases d <;> decide
    rw [heq, hreserved word hword] at hgenerated
    cases hgenerated

private theorem Expr.IsWritten.of_isValue {d : Dialect} {e : Expr} (h : e.IsValue d)
    (hnames : ∀ m ∈ e.names, m.IsPlain d) : e.IsWritten d := ⟨h, fun m hm => (hnames m hm).free⟩

/-- A cell settles to a value that can be read back, if its names are identifiers. -/
theorem Component.exists_settle_value {c : Component} {st : Statement} (h : c.settle = [st])
    (d : Dialect) :
    ∃ value note, st = .bind (.wire (c.wire 0)) value note ∧
      ((∀ m ∈ value.names, m.text.isIdentifier = true) → value.IsValue d) := by
  cases hcell : c.cell with
  | constant value =>
    rw [settle, hcell] at h
    cases h
    exact ⟨_, _, rfl, fun _ => .formula (.literal _)⟩
  | inverter a =>
    rw [settle, hcell] at h
    cases h
    refine ⟨_, _, rfl, fun hnames => .formula ?_⟩
    have ha : (Expr.wire a).IsFormula d := .name (hnames _ (by simp [Expr.names, Expr.wire]))
    exact .binary rfl (.literal 1) ha (by decide : 2 ≤ 8) (by decide : 2 < 8)
  | gate op a b =>
    rw [settle_gate hcell] at h
    cases h
    refine ⟨_, _, rfl, fun hnames => ?_⟩
    have ha : (Expr.wire a).IsFormula d := .name (hnames _ (by simp [Expr.names, Expr.wire]))
    have hb : (Expr.wire b).IsFormula d := .name (hnames _ (by simp [Expr.names, Expr.wire]))
    cases op with
    | and => exact .formula (.binary rfl ha hb (by decide : 3 ≤ 8) (by decide : 3 < 8))
    | or => exact .formula (.binary rfl ha hb (by decide : 1 ≤ 8) (by decide : 1 < 8))
    | xor => exact .formula (.binary rfl ha hb (by decide : 2 ≤ 8) (by decide : 2 < 8))
    | equal => exact .equal ha hb (by decide : 4 ≤ 8) (by decide : 4 ≤ 8)
  | multiplexer select whenSet whenClear =>
    rw [settle, hcell] at h
    cases h
    refine ⟨_, _, rfl, fun hnames => ?_⟩
    have hwire : ∀ w ∈ [select, whenSet, whenClear], (Expr.wire w).IsFormula d := fun w hw =>
      .name (hnames _ (by simpa [Expr.names, Expr.wire] using hw))
    exact .choose (hwire _ (by simp)) (hwire _ (by simp)) (hwire _ (by simp))
  | input name =>
    rw [settle, hcell] at h
    cases h
    refine ⟨_, _, rfl, fun hnames => .formula ?_⟩
    exact .binary rfl (.literal 1) (.name (hnames _ (by simp [Expr.names])))
      (by decide : 3 ≤ 8) (by decide : 3 < 8)
  | register | memory =>
    rw [settle, hcell] at h
    cases h

/-- Wires that are joined make a formula. -/
theorem Expr.isFormula_wires (d : Dialect) (bus : List Wire) :
    (word d (bus.map .wire)).IsFormula d ∧ (packed d (bus.map .wire)).IsFormula d := by
  have hnames : bus.map Expr.wire = (bus.map Name.wire).map .name := by
    rw [List.map_map]
    rfl
  have hidentifiers : ∀ m ∈ bus.map Name.wire, m.text.isIdentifier = true := by
    intro m hm
    obtain ⟨w, -, rfl⟩ := List.mem_map.1 hm
    exact w.isIdentifier_name
  have hheads : ∀ m ∈ bus.map Name.wire, m.text.points.head? ≠ some (.char 'u') := by
    intro m hm
    obtain ⟨w, -, rfl⟩ := List.mem_map.1 hm
    rw [Name.text, w.head?_name]
    decide
  rw [hnames]
  exact ⟨isFormula_word hidentifiers hheads, isFormula_packed hidentifiers⟩

namespace Emitted

variable {n : Netlist} {d : Dialect} {s : Schedule} {st : Statement}

/-- An emitted statement can be written and read back, if its names can. -/
theorem isWritten (h : Emitted n d s st)
    (hplain : ∀ m ∈ st.names, m.IsPlain d) : st.IsWritten d := by
  have hread : ∀ m ∈ st.reads, m.IsPlain d := fun m hm => hplain m (by simp [Statement.names, hm])
  have hbound : ∀ m ∈ st.binds, m.IsPlain d := fun m hm => hplain m (by simp [Statement.names, hm])
  have hchanged : ∀ m ∈ st.changes, m.IsPlain d := fun m hm =>
    hplain m (by simp [Statement.names, hm])
  have hformula : ∀ m ∈ st.reads, (Expr.name m).IsFormula d := fun m hm =>
    .name (hread m hm).identifier
  clear hplain
  cases h with
  | settle hc hst =>
    obtain ⟨value, note, rfl, hvalue⟩ := Component.exists_settle_value hst d
    exact .bind note (hbound _ (.head _))
      (.of_isValue (hvalue fun m hm => (hread m hm).identifier) hread)
  | follow hc hdata =>
    exact .bind none (hbound _ (.head _)) (.of_isValue (.formula (hformula _ (.head _))) hread)
  | @choose c hc hregister enable data henable hdata =>
    have hvalue : Expr.IsValue d (.choose (.wire enable) (.wire data) (.wire (c.wire 0))) :=
      .choose (hformula (.wire enable) (by simp [Statement.reads, Expr.names, Expr.wire]))
        (hformula (.wire data) (by simp [Statement.reads, Expr.names, Expr.wire]))
        (hformula (.wire (c.wire 0)) (by simp [Statement.reads, Expr.names, Expr.wire]))
    exact .bind none (hbound _ (.head _)) (.of_isValue hvalue hread)
  | @address c hc _ _ hcell k bus _ _ | @data c hc _ _ hcell k bus _ _ =>
    exact .bindWord (hbound _ (.head _))
      (.of_isValue (.formula (Expr.isFormula_wires d bus).1) hread)
  | @write c hc _ _ hcell k port henable =>
    have hhead : (Name.wire port.enable).text.points.head? ≠ some (.char 'u') := by
      rw [Name.text, Wire.head?_name]
      decide
    exact .store (hread _ (.head _)) hhead (hread _ (.tail _ (.head _)))
      (hread _ (.tail _ (.tail _ (.head _)))) (hread _ (.tail _ (.tail _ (.tail _ (.head _)))))
  | read hc hcell k =>
    have hvalue := Expr.IsValue.element (d := d) (hread _ (.head _)).identifier
      (hread _ (.tail _ (.head _))).identifier
    exact .bindWord (hbound _ (.head _)) (.of_isValue hvalue hread)
  | commit hc hregister =>
    exact .assign (hchanged _ (.head _)) (.of_isValue (.formula (hformula _ (.head _))) hread)
  | @pick c hc _ _ hcell k b hk hb =>
    have hname : (Expr.name (.read c.id k)).IsFormula d :=
      hformula _ (by simp [Statement.reads, Expr.names_bit, Expr.names])
    have hhead : (Name.read c.id k).text.points.head? ≠ some (.char 'u') := by simp [Name.text]
    have hvalue : (Expr.bit (.name (.read c.id k)) b).IsFormula d := by
      unfold Expr.bit
      split
      · exact .binary rfl hname (.literal 1) (by decide : 3 ≤ 8) (by decide : 3 < 8)
      · exact .binary rfl (.shiftRight hname (by decide : 4 ≤ 8) hhead b) (.literal 1)
          (by decide : 3 ≤ 8) (by decide : 3 < 8)
    exact .assign (hchanged _ (.head _)) (.of_isValue (.formula hvalue) hread)

end Emitted

private theorem Procedure.mem_declared_of_mem_scope {p : Procedure} {before after : List Statement}
    (h : p.body = before ++ after) {m : Name} (hm : m ∈ p.scope before) : m ∈ p.declared := by
  rw [declared, scope, h, List.flatMap_append, ← List.append_assoc]
  exact List.mem_append_left _ hm

/-- The type that a statement declares what it binds with. -/
def Statement.type? : Statement → Option IntType
  | .bind .. => some .int
  | .bindWord .. => some .wide
  | .assign .. => none
  | .store .. => none

private theorem Emitted.type?_eq {n : Netlist} {d : Dialect} {s : Schedule} {st : Statement}
    (h : Emitted n d s st) {m : Name} (hm : m ∈ st.binds) : st.type? = some m.type := by
  cases h with
  | settle hc hst =>
    obtain ⟨value, note, rfl, -⟩ := Component.exists_settle_value hst d
    obtain rfl := List.mem_singleton.1 hm
    rfl
  | write | commit | pick => cases hm
  | _ =>
    obtain rfl := List.mem_singleton.1 hm
    rfl

private theorem Procedure.IsScoped.mem_declared {p : Procedure} (h : p.IsScoped) {st : Statement}
    (hst : st ∈ p.body) {m : Name} (hm : m ∈ st.names) : m ∈ p.declared := by
  rw [Statement.names, List.mem_append, List.mem_append] at hm
  rcases hm with (hm | hm) | hm
  · obtain ⟨before, after, hsplit⟩ := List.append_of_mem hst
    exact mem_declared_of_mem_scope hsplit (h.reads before st after hsplit m hm)
  · exact List.mem_append_right _ (List.mem_flatMap.2 ⟨st, hst, hm⟩)
  · exact List.mem_append_left _ (h.changes st hst m hm)

namespace Netlist

variable {n : Netlist} {d : Dialect} {exit : Wire} {s : Schedule}

private theorem Compiled.mem_inputs [Machine] (h : n.Compiled d exit s) {title name : Text}
    (hm : .given name ∈ (s.procedure d title n.outputs exit).declared) : name ∈ s.inputs := by
  rw [declared_eq, List.mem_append, List.mem_append, List.mem_append] at hm
  rcases hm with (hm | hm) | hm | hm
  · obtain ⟨name', hname, heq⟩ := List.mem_map.1 hm
    cases heq
    exact hname
  · obtain ⟨c, hc, ⟨k, -, heq⟩ | ⟨-, heq⟩⟩ := mem_names_declarations.1 hm <;> cases heq
  · obtain ⟨c, hc, heq⟩ := (h.mem_binds_settle fun _ hc => hc).1 hm
    cases heq
  · rw [List.flatMap_assoc] at hm
    obtain ⟨c, hc, hm⟩ := List.mem_flatMap.1 hm
    cases (Component.holder?_of_mem_binds_next hm).1

/-- The loop that is read from the text of a compiled procedure is the loop of the procedure: every
statement of a turn, the exit test and the result are as they were compiled, but for what a text
does not tell. A turn of the loop that was read does what a turn of the procedure does, and what it
binds is declared with the type that it is calculated with. -/
theorem loop_of_source [Machine] (n : Netlist) (hn : n.IsLoaded) (d : Dialect) (name done : Value)
    (p : Procedure) (hp : n.compile d name done = .ok p) :
    Loop.read? d (p.source d) = some (p.loop d) ∧ (∀ s, (p.loop d).turn s = p.turn s) ∧
      ∀ st ∈ p.body, ∀ m ∈ st.binds, st.type? = some m.type := by
  obtain ⟨s, -, -, hs, -, hchecked, -⟩ := compile_eq_ok hp
  obtain ⟨s', exit, title, -, h, rfl⟩ := compile_ok hp hn.isNumbered
  cases hs.symm.trans h.schedule
  refine ⟨?_, Procedure.turn_loop _ d, fun st hst m hm => (h.emitted hst).type?_eq hm⟩
  have hscoped := h.isScoped title
  have hplain : ∀ m ∈ (s.procedure d title n.outputs exit).declared, m.IsPlain d := by
    intro m hm
    refine (h.isProper_of_mem_declared hm).isPlain fun t ht => ?_
    subst ht
    exact Schedule.allows_inputs hchecked (h.mem_inputs hm)
  have hexit : ∀ m ∈ Name.wire exit :: (s.procedure d title n.outputs exit).result.names,
      m.IsPlain d := fun m hm =>
    hplain m (Procedure.mem_declared_of_mem_scope (List.append_assoc ..) (hscoped.exit m hm))
  have hhead : (Name.wire exit).text.points.head? ≠ some (.char 'u') := by
    rw [Name.text, exit.head?_name]
    decide
  have hresult : Expr.IsFormula d (s.procedure d title n.outputs exit).result := by
    have hpacked := (Expr.isFormula_wires d (n.outputs.map Prod.snd)).2
    rwa [List.map_map] at hpacked
  refine Loop.read?_source (fun st hst => ?_) (hexit _ (.head _)) hhead
    (.of_isValue (.formula hresult) fun m hm => hexit m (.tail _ hm))
  exact (h.emitted hst).isWritten fun m hm => hplain m (hscoped.mem_declared hst hm)

end Netlist

end Latchwork
