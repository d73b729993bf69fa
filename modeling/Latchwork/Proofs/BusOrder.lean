import Latchwork.Memory.Altsyncram
import Latchwork.Proofs.Places
import Latchwork.Proofs.ReadBack
import Latchwork.Proofs.Simulation
import Latchwork.Proofs.WireNames

/-!
# The order of bits on a bus

A memory is wired up twice: as an instantiation for synthesis, where a bus is a concatenation with
the most significant bit on the left, and in the simulating procedure, where the bits of a word are
shifted to their places and taken out of them again. Both are read here from what is emitted, the
connections from the text of the instantiation and the places from the expressions, and bit for bit
they name the same wires.
-/

namespace Latchwork

open Outcome Text

/-! ### Connections in the text of an instantiation -/

namespace Verilog

/-- How a line with a connection ends: before another one, or at the end of the instantiation. -/
def lineEnd (line : List CodePoint) : Text :=
  if line.getLast? = some (.char ',') then ")," else "));"

/-- The port and the expression of a line that connects a port. -/
def connection? (line : List CodePoint) : Option (Text × Text) :=
  (between? (ofString "  .").points (lineEnd line).points line).bind fun body =>
    match body.splitOn (.char ' ') with
    | [port, .char '(' :: value] => some (⟨port⟩, ⟨value⟩)
    | _ => none

/-- The connections of an instantiation, which come before the definitions of its parameters. -/
def connections (t : Text) : List (Text × Text) :=
  ((t.points.splitOn (.char '\n')).takeWhile (· != (ofString "defparam").points)).filterMap
    connection?

/-- The names in a concatenation, from left to right. -/
def concatenation? (value : Text) : Option (List Text) :=
  (between? (ofString "\x7b").points (ofString "\x7d").points value.points).map fun body =>
    if body.isEmpty then [] else (Text.mk body).splitOn ','

/-- The text has neither blanks nor line breaks. -/
def IsWord (t : Text) : Prop := ∀ p ∈ t.points, p ≠ .char ' ' ∧ p ≠ .char '\n'

instance (t : Text) : Decidable (IsWord t) :=
  inferInstanceAs (Decidable (∀ p ∈ t.points, _))

theorem IsWord.append {s t : Text} (hs : IsWord s) (ht : IsWord t) : IsWord (s ++ t) := by
  intro p hp
  rcases List.mem_append.mp hp with hp | hp
  · exact hs p hp
  · exact ht p hp

/-- A connection as it stands on its line. -/
def connectionText (c : String × Text) : Text := "  ." ++ c.1 ++ " (" ++ c.2 ++ ")"

private theorem connection?_connectionText {c : String × Text} (hport : IsWord c.1)
    (hvalue : IsWord c.2) {ending : List CodePoint}
    (hending : (lineEnd ((connectionText c).points ++ ending)).points = .char ')' :: ending) :
    connection? ((connectionText c).points ++ ending) = some (ofString c.1, c.2) := by
  have hline : (connectionText c).points ++ ending = (ofString "  .").points ++
      ((ofString c.1).points ++ .char ' ' :: (.char '(' :: c.2.points)) ++
        (.char ')' :: ending) := by
    simp [connectionText]
  have hname : CodePoint.char ' ' ∉ (ofString c.1).points := fun h => (hport _ h).1 rfl
  have hrest : CodePoint.char ' ' ∉ CodePoint.char '(' :: c.2.points := by
    rw [List.mem_cons, not_or]
    exact ⟨by decide, fun h => (hvalue _ h).1 rfl⟩
  rw [connection?, hending, hline, between?_append, Option.bind_some,
    List.splitOn_append_cons_self_of_not_mem hname, List.splitOn_eq_singleton hrest]
  rfl

private theorem connection?_eq_none {line : List CodePoint} (h : line.head? ≠ some (.char ' ')) :
    connection? line = none := by
  have hindent : line.dropPrefix? (ofString "  .").points = none := by
    cases line with
    | nil => rfl
    | cons p rest =>
      have hp : (p == CodePoint.char ' ') = false := by simpa using h
      simp [List.dropPrefix?, hp]
  rw [connection?, between?, hindent, Option.bind_none, Option.bind_none]

/-- Items that end with a comma and a line break, with a closing part after the last item. -/
theorem splitOn_intercalate_append {α : Type} [BEq α] [LawfulBEq α] {comma newline : α}
    (hne : newline ≠ comma) {xs : List (List α)} (hxs : ∀ x ∈ xs, newline ∉ x)
    {last closing : List α} (hlast : newline ∉ last ++ closing) (rest : List α) :
    ([comma, newline].intercalate (xs ++ [last]) ++ closing ++ newline :: rest).splitOn newline =
      xs.map (· ++ [comma]) ++ (last ++ closing) :: rest.splitOn newline := by
  induction xs with
  | nil =>
    simp only [List.nil_append, List.intercalate_singleton, List.map_nil]
    exact List.splitOn_append_cons_self_of_not_mem hlast rest
  | cons x xs ih =>
    have hx : newline ∉ x ++ [comma] := by simp [hxs x List.mem_cons_self, hne]
    have hsplit : [comma, newline].intercalate (x :: xs ++ [last]) =
        (x ++ [comma]) ++ newline :: [comma, newline].intercalate (xs ++ [last]) := by
      cases xs <;> simp
    rw [hsplit, List.append_assoc, List.append_assoc, List.cons_append,
      List.splitOn_append_cons_self_of_not_mem hx, ← List.append_assoc,
      ih fun y hy => hxs y (List.mem_cons_of_mem x hy), List.map_cons, List.cons_append]

end Verilog

namespace Wire

private theorem not_mem_name (w : Wire) {c : Char} (hdigit : Json.hexDigit? c = none)
    (hc : c ∉ ['w', '_', 'T', 'r', 'u', 'e', 'F', 'a', 'l', 's']) :
    CodePoint.char c ∉ (ofString w.name).points := by
  rw [points_ofString, List.mem_map]
  rintro ⟨x, hmem, hx⟩
  cases hx
  exact w.isMadeOf_name.not_mem hdigit hc hmem

private theorem points_bus (ws : List Wire) :
    (Wire.bus ws).points = (ofString "\x7b").points ++
      [.char ','].intercalate (ws.map fun w => (ofString w.name).points).reverse ++
      (ofString "\x7d").points := by
  simp [bus, busText, Path.points_intercalate, Function.comp_def]

private theorem isWord_name (w : Wire) : Verilog.IsWord w.name := by
  intro p hp
  constructor
  · rintro rfl
    exact w.not_mem_name rfl (by decide) hp
  · rintro rfl
    exact w.not_mem_name rfl (by decide) hp

private theorem isWord_bus (ws : List Wire) : Verilog.IsWord (bus ws) := by
  have hnames : ∀ item ∈ (ws.map fun w => (ofString w.name).points).reverse, ∀ p ∈ item,
      p ≠ .char ' ' ∧ p ≠ .char '\n' := by
    intro item hitem
    obtain ⟨w, -, rfl⟩ := List.mem_map.mp (List.mem_reverse.mp hitem)
    exact w.isWord_name
  intro p hp
  rw [points_bus, List.mem_append, List.mem_append] at hp
  rcases hp with (hp | hp) | hp
  · exact (show Verilog.IsWord "\x7b" by decide) p hp
  · exact forall_mem_intercalate (by decide) hnames p hp
  · exact (show Verilog.IsWord "\x7d" by decide) p hp

/-- A bus is read as the names of its wires, the last one first. -/
theorem concatenation?_bus (ws : List Wire) :
    Verilog.concatenation? (bus ws) = some (ws.map fun w => ofString w.name).reverse := by
  rw [Verilog.concatenation?, points_bus, between?_append, Option.map_some, Option.some_inj]
  by_cases hne : ws = []
  · subst hne
    rfl
  have hnames : ∀ item ∈ (ws.map fun w => (ofString w.name).points).reverse,
      item ≠ [] ∧ CodePoint.char ',' ∉ item := by
    intro item hitem
    obtain ⟨w, -, rfl⟩ := List.mem_map.mp (List.mem_reverse.mp hitem)
    refine ⟨?_, w.not_mem_name rfl (by decide)⟩
    unfold name
    split <;> simp
  have hsplit := List.splitOn_intercalate (.char ',') (fun item hitem => (hnames item hitem).2)
    (by simpa using hne)
  split
  · next hempty =>
    -- An empty body would be one empty name.
    rw [List.isEmpty_iff.mp hempty, List.splitOn_nil] at hsplit
    exact absurd rfl (hnames [] (by rw [← hsplit]; exact List.mem_singleton.mpr rfl)).1
  · rw [Text.splitOn, hsplit, List.map_reverse, List.map_map]
    rfl

end Wire

namespace Altsyncram

private theorem isWord_portConnections {suffix : String} (hsuffix : suffix ∈ ["a", "b"])
    {port : MemoryPort} {c : String × Text} (hc : c ∈ portConnections suffix port) :
    Verilog.IsWord c.1 ∧ Verilog.IsWord c.2 := by
  have hs : Verilog.IsWord suffix := by
    simp only [List.mem_cons, List.not_mem_nil, or_false] at hsuffix
    rcases hsuffix with rfl | rfl <;> decide
  have hport : ∀ label : String, Verilog.IsWord label →
      Verilog.IsWord (label ++ suffix : String) := by
    intro label hlabel
    rw [ofString_append]
    exact hlabel.append hs
  simp only [portConnections, List.mem_cons, List.not_mem_nil, or_false] at hc
  rcases hc with rfl | rfl | rfl | rfl
  · exact ⟨hport _ (by decide), Wire.isWord_bus _⟩
  · exact ⟨hport _ (by decide), port.enable.isWord_name⟩
  · exact ⟨hport _ (by decide), Wire.isWord_bus _⟩
  · exact ⟨hport _ (by decide), Wire.isWord_bus _⟩

private theorem isWord_connections (a : Altsyncram) {c : String × Text} (hc : c ∈ a.connections) :
    Verilog.IsWord c.1 ∧ Verilog.IsWord c.2 := by
  have hfixed : ∀ c ∈ clock ++ unusedPort ++ tieOffs,
      Verilog.IsWord c.1 ∧ Verilog.IsWord c.2 := by decide
  simp only [List.mem_append] at hfixed
  simp only [connections, List.mem_append] at hc
  rcases hc with ((hc | hc) | hc) | hc
  · exact hfixed c (.inl (.inl hc))
  · obtain ⟨_, hl, hc⟩ := List.mem_flatten.mp hc
    obtain ⟨⟨suffix, port⟩, hmem, rfl⟩ := List.mem_map.mp hl
    exact isWord_portConnections (List.of_mem_zip hmem).1 hc
  · split at hc
    · cases hc
    · exact hfixed c (.inl (.inr hc))
  · exact hfixed c (.inr hc)

/-- The line above an instantiation. -/
def titleLine (a : Altsyncram) : String := "// " ++ a.kind.text ++ " instance " ++ a.id.text

/-- The first line of an instantiation. -/
def openingLine (a : Altsyncram) : String := "altsyncram " ++ a.cell ++ " ("

private theorem newline_not_mem_titleLine (a : Altsyncram) :
    CodePoint.char '\n' ∉ (ofString a.titleLine).points := by
  have hid := (isMadeOf_index a.id).not_mem (c := '\n') rfl (by decide)
  have hkind : '\n' ∉ a.kind.text.toList := by
    cases a.kind <;> decide
  simp [titleLine, hid, hkind]

private theorem newline_not_mem_openingLine (a : Altsyncram) :
    CodePoint.char '\n' ∉ (ofString a.openingLine).points := by
  have hid := (isMadeOf_index a.id).not_mem (c := '\n') rfl (by decide)
  simp [openingLine, cell, hid]

private theorem newline_not_mem_connectionText {a : Altsyncram} {c : String × Text}
    (hc : c ∈ a.connections) : CodePoint.char '\n' ∉ (Verilog.connectionText c).points := by
  obtain ⟨hport, hvalue⟩ := a.isWord_connections hc
  have hport' : CodePoint.char '\n' ∉ (ofString c.1).points := fun h => (hport _ h).2 rfl
  have hvalue' : CodePoint.char '\n' ∉ c.2.points := fun h => (hvalue _ h).2 rfl
  simp only [Verilog.connectionText, points_append, List.mem_append, not_or]
  exact ⟨⟨⟨⟨by decide, hport'⟩, by decide⟩, hvalue'⟩, by decide⟩

/-- The definitions of the parameters. -/
def definitions (a : Altsyncram) : String :=
  ",\n".intercalate (a.parameters.map fun p => "  " ++ a.cell ++ "." ++ p.1 ++ " = " ++ p.2) ++
    ";\n"

/-- The text of an instantiation, line by line. -/
theorem points_text (a : Altsyncram) :
    a.text.points = (ofString a.titleLine).points ++ .char '\n' ::
      ((ofString a.openingLine).points ++ .char '\n' ::
        ([.char ',', .char '\n'].intercalate
            (a.connections.map fun c => (Verilog.connectionText c).points) ++
          [.char ')', .char ';'] ++ .char '\n' ::
            ((ofString "defparam").points ++ .char '\n' :: (ofString a.definitions).points))) := by
  have hconnections : (a.connections.map fun c => (Verilog.connectionText c).points) =
      (a.connections.map Verilog.connectionText).map points := by
    simp
  have htext : a.text = ofString a.titleLine ++ "\n" ++ (ofString a.openingLine ++ "\n") ++
      Text.intercalate ",\n" (a.connections.map Verilog.connectionText) ++ ");\n" ++
        "defparam\n" ++ ofString a.definitions := by
    ext1
    simp [text, titleLine, openingLine, definitions]
    rfl
  rw [htext, hconnections]
  simp [Path.points_intercalate]

/-- The lines of an instantiation, up to the definitions of its parameters. -/
def instantiationLines (a : Altsyncram) (front : List (String × Text)) (last : String × Text) :
    List (List CodePoint) :=
  (ofString a.titleLine).points :: (ofString a.openingLine).points ::
    ((front.map fun c => (Verilog.connectionText c).points ++ [.char ',']) ++
      [(Verilog.connectionText last).points ++ [.char ')', .char ';']])

theorem splitOn_text {a : Altsyncram} {front : List (String × Text)} {last : String × Text}
    (h : a.connections = front ++ [last]) :
    a.text.points.splitOn (.char '\n') = a.instantiationLines front last ++
      (ofString "defparam").points :: (ofString a.definitions).points.splitOn (.char '\n') := by
  have hfront : ∀ x ∈ front.map fun c => (Verilog.connectionText c).points,
      CodePoint.char '\n' ∉ x := by
    intro x hx
    obtain ⟨c, hc, rfl⟩ := List.mem_map.mp hx
    exact newline_not_mem_connectionText (a := a) (by rw [h]; exact List.mem_append_left _ hc)
  have hlast : CodePoint.char '\n' ∉
      (Verilog.connectionText last).points ++ [.char ')', .char ';'] := by
    have hmem : last ∈ a.connections := by simp [h]
    rw [List.mem_append, not_or]
    exact ⟨newline_not_mem_connectionText hmem, by decide⟩
  have hkeyword : CodePoint.char '\n' ∉ (ofString "defparam").points := by decide
  rw [points_text, h, List.map_append, List.map_singleton,
    List.splitOn_append_cons_self_of_not_mem a.newline_not_mem_titleLine,
    List.splitOn_append_cons_self_of_not_mem a.newline_not_mem_openingLine,
    Verilog.splitOn_intercalate_append (by decide) hfront hlast,
    List.splitOn_append_cons_self_of_not_mem hkeyword, List.map_map]
  simp [instantiationLines, Function.comp_def]

/-- No line of an instantiation is the keyword that ends it. -/
theorem ne_keyword_of_mem {a : Altsyncram} {front : List (String × Text)} {last : String × Text}
    {line : List CodePoint} (h : line ∈ a.instantiationLines front last) :
    line ≠ (ofString "defparam").points := by
  simp only [instantiationLines, List.mem_cons, List.mem_append, List.mem_map, List.not_mem_nil,
    or_false] at h
  rcases h with rfl | rfl | ⟨c, -, rfl⟩ | rfl
  · simp [titleLine]
  · simp [openingLine]
  · simp [Verilog.connectionText]
  · simp [Verilog.connectionText]

/-- The lines of an instantiation hold its connections. -/
theorem filterMap_instantiationLines {a : Altsyncram} {front : List (String × Text)}
    {last : String × Text} (h : a.connections = front ++ [last]) :
    (a.instantiationLines front last).filterMap Verilog.connection? =
      a.connections.map fun c => (ofString c.1, c.2) := by
  have htitle : Verilog.connection? (ofString a.titleLine).points = none :=
    Verilog.connection?_eq_none (by simp [titleLine])
  have hopening : Verilog.connection? (ofString a.openingLine).points = none :=
    Verilog.connection?_eq_none (by simp [openingLine])
  have hcomma : ∀ c ∈ front, Verilog.connection?
      ((Verilog.connectionText c).points ++ [.char ',']) = some (ofString c.1, c.2) := by
    intro c hc
    obtain ⟨hport, hvalue⟩ := a.isWord_connections (by rw [h]; exact List.mem_append_left _ hc)
    exact Verilog.connection?_connectionText hport hvalue (by simp [Verilog.lineEnd])
  have hclosing : Verilog.connection?
      ((Verilog.connectionText last).points ++ [.char ')', .char ';']) =
        some (ofString last.1, last.2) := by
    obtain ⟨hport, hvalue⟩ := a.isWord_connections (show last ∈ a.connections by simp [h])
    exact Verilog.connection?_connectionText hport hvalue (by simp [Verilog.lineEnd])
  rw [instantiationLines, List.filterMap_cons_none htitle, List.filterMap_cons_none hopening,
    List.filterMap_append, List.filterMap_map, h, List.map_append]
  congr 1
  · rw [← List.filterMap_eq_map]
    exact List.filterMap_congr hcomma
  · rw [List.filterMap_cons_some hclosing]
    rfl

theorem exists_last_connection (a : Altsyncram) :
    ∃ front last, a.connections = front ++ [last] :=
  ⟨_, _, (List.dropLast_append_getLast (by simp [connections, tieOffs])).symm⟩

private theorem connections_text (a : Altsyncram) :
    Verilog.connections a.text = a.connections.map fun c => (ofString c.1, c.2) := by
  obtain ⟨front, last, h⟩ := a.exists_last_connection
  have hkept : ∀ line ∈ a.instantiationLines front last,
      (line != (ofString "defparam").points) = true :=
    fun line hline => bne_iff_ne.mpr (ne_keyword_of_mem hline)
  rw [Verilog.connections, splitOn_text h, List.takeWhile_append_of_pos hkept,
    List.takeWhile_cons_of_neg (by simp), List.append_nil]
  exact filterMap_instantiationLines h

/-- The connections of a port are found by their names. -/
theorem lookup_connections {a : Altsyncram} {k : Nat} {suffix : String} {port : MemoryPort}
    (hsuffix : ["a", "b"][k]? = some suffix) (hport : a.ports[k]? = some port)
    {c : String × Text} (hc : c ∈ portConnections suffix port) :
    (Verilog.connections a.text).lookup (ofString c.1) = some c.2 := by
  rw [connections_text]
  have hbeq : ∀ s t : String, (ofString s == ofString t) = decide (s = t) :=
    fun s t => decide_eq_decide.mpr ofString_inj
  -- Nothing that is tied off comes before the ports, so the first connection of a name counts.
  rcases a with ⟨id, kind, shape, ports⟩
  rcases k with _ | _ | k
  · obtain ⟨rest, rfl⟩ : ∃ rest, ports = port :: rest := by
      cases ports with
      | nil => cases hport
      | cons p rest => exact ⟨rest, by simpa using hport⟩
    obtain rfl : suffix = "a" := by simpa using hsuffix.symm
    simp only [portConnections, List.mem_cons, List.not_mem_nil, or_false] at hc
    rcases hc with rfl | rfl | rfl | rfl <;>
      simp [connections, clock, portConnections, List.lookup, hbeq]
  · obtain ⟨first, rest, rfl⟩ : ∃ first rest, ports = first :: port :: rest := by
      rcases ports with _ | ⟨first, _ | ⟨p, rest⟩⟩
      · cases hport
      · cases hport
      · exact ⟨first, rest, by simpa using hport⟩
    obtain rfl : suffix = "b" := by simpa using hsuffix.symm
    simp only [portConnections, List.mem_cons, List.not_mem_nil, or_false] at hc
    rcases hc with rfl | rfl | rfl | rfl <;>
      simp [connections, clock, portConnections, List.lookup, hbeq]
  · simp at hsuffix

end Altsyncram

/-! ### Bits in the simulating procedure -/

namespace Expr

/-- The name of a bit, widened or not. -/
def bitName? : Expr → Option Name
  | .name n => some n
  | .widen (.name n) => some n
  | _ => none

/-- The name of a bit, and the number of places that it is shifted by. -/
def term? : Expr → Option (Name × Nat)
  | .shiftLeft e count => e.bitName?.map fun n => (n, count)
  | e => e.bitName?.map fun n => (n, 0)

/-- The bits of a word, each with its shift. A word without bits is zero. -/
def terms? : Expr → Option (List (Name × Nat))
  | .literal 0 => some []
  | .binary .or left right =>
    left.terms?.bind fun terms => right.term?.map fun term => terms ++ [term]
  | e => e.term?.map fun term => [term]

/-- The word that a bit is taken out of, and the place of the bit. -/
def picked? : Expr → Option (Name × Nat)
  | .binary .and (.name word) (.literal 1) => some (word, 0)
  | .binary .and (.shiftRight (.name word) count) (.literal 1) => some (word, count)
  | _ => none

private theorem term?_shifted (d : Dialect) (index : Nat) (w : Wire) :
    (shifted d index (wire w)).term? = some (.wire w, index) := by
  unfold shifted
  split
  · next h =>
    subst h
    rfl
  · split <;> rfl

private theorem terms?_of_term? {e : Expr} {term : Name × Nat} (h : e.term? = some term) :
    e.terms? = some [term] := by
  cases e with
  | literal => cases h
  | binary => cases h
  | _ => simp [terms?, h]

private theorem terms?_foldl {first : Expr} {before after : List (Name × Nat)} {rest : List Expr}
    (hfirst : first.terms? = some before) (hrest : rest.mapM term? = some after) :
    (rest.foldl (.binary .or) first).terms? = some (before ++ after) := by
  induction rest generalizing first before after with
  | nil =>
    cases hrest
    simpa using hfirst
  | cons e rest ih =>
    rw [List.mapM_cons] at hrest
    obtain ⟨term, hterm, hrest⟩ := Option.bind_eq_some_iff.mp hrest
    obtain ⟨later, hlater, hrest⟩ := Option.bind_eq_some_iff.mp hrest
    cases hrest
    have hjoined : (Expr.binary .or first e).terms? = some (before ++ [term]) := by
      simp [terms?, hfirst, hterm]
    rw [List.foldl_cons, ih hjoined hlater, List.append_assoc, List.singleton_append]

private theorem terms?_joined {es : List Expr} {terms : List (Name × Nat)}
    (h : es.mapM term? = some terms) : (joined .or es).terms? = some terms := by
  cases es with
  | nil =>
    cases h
    rfl
  | cons e rest =>
    rw [List.mapM_cons] at h
    obtain ⟨term, hterm, h⟩ := Option.bind_eq_some_iff.mp h
    obtain ⟨later, hlater, h⟩ := Option.bind_eq_some_iff.mp h
    cases h
    exact terms?_foldl (terms?_of_term? hterm) hlater

private theorem terms?_word (d : Dialect) (bus : List Wire) :
    (word d (bus.map wire)).terms? =
      some (bus.zipIdx.map fun place => (.wire place.1, place.2)) := by
  rw [word, List.mapIdx_eq_zipIdx_map, List.zipIdx_map, List.map_map]
  apply terms?_joined
  exact mapM_map_eq_some fun place _ => term?_shifted d place.2 place.1

private theorem picked?_bit (word : Name) (index : Nat) :
    (bit (.name word) index).picked? = some (word, index) := by
  unfold bit
  split
  · next h =>
    subst h
    rfl
  · rfl

end Expr

namespace Statement

/-- What is bound to a word. -/
def word? (dest : Name) : Statement → Option Expr
  | .bindWord name value => if name = dest then some value else none
  | _ => none

/-- The enable, the storage and the data of a write to an address. -/
def write? (address : Name) : Statement → Option (Name × Name × Name)
  | .store enable storage place data =>
    if place = address then some (enable, storage, data) else none
  | _ => none

/-- The cell that a bit of a word is assigned to, and the place of the bit. -/
def pick? (word : Name) : Statement → Option (Name × Nat)
  | .assign dest value =>
    value.picked?.bind fun (source, place) => if source = word then some (dest, place) else none
  | _ => none

private theorem pick?_assign_bit (word source dest : Name) (place : Nat) :
    pick? word (.assign dest (.bit (.name source) place)) =
      if source = word then some (dest, place) else none := by
  simp [pick?, Expr.picked?_bit]

end Statement

/-- Of a flattened list of groups, a filter may keep only what one group holds. -/
theorem filterMap_flatten_mapIdx {α β γ : Type} {f : Nat → α → List β} {g : β → Option γ}
    {xs : List α} {k : Nat} {x : α} (hx : xs[k]? = some x)
    (hother : ∀ j y, j ≠ k → (f j y).filterMap g = []) :
    (xs.mapIdx f).flatten.filterMap g = (f k x).filterMap g := by
  induction xs generalizing f k with
  | nil => cases hx
  | cons y ys ih =>
    rw [List.mapIdx_cons, List.flatten_cons, List.filterMap_append]
    cases k with
    | zero =>
      obtain rfl : y = x := by simpa using hx
      have hrest : (ys.mapIdx fun j => f (j + 1)).flatten.filterMap g = [] := by
        rw [List.filterMap_flatten, List.flatten_eq_nil_iff]
        intro l hl
        obtain ⟨l', hl', rfl⟩ := List.mem_map.mp hl
        obtain ⟨j, hj, rfl⟩ := List.mem_mapIdx.mp hl'
        exact hother (j + 1) _ (by omega)
      rw [hrest, List.append_nil]
    | succ k =>
      rw [hother 0 y (by omega), List.nil_append]
      exact ih (by simpa using hx) fun j z hj => hother (j + 1) z (by omega)

namespace Component

variable {c : Component} {shape : MemoryShape} {ports : List MemoryPort} {k : Nat}
  {port : MemoryPort} {γ : Type} {g : Statement → Option γ}

/-- What the next state of a memory has for one of its ports. -/
theorem filterMap_next (d : Dialect) (hcell : c.cell = .memory shape ports)
    (hport : ports[k]? = some port)
    (hwords : ∀ j p, j ≠ k → (portWords d c.id j p).filterMap g = [])
    (hwrite : ∀ j p, j ≠ k → g (portWrite c.id j p) = none)
    (hread : ∀ j, j ≠ k → g (portRead c.id j) = none) :
    (c.next d).filterMap g = (portWords d c.id k port).filterMap g ++
      [portWrite c.id k port].filterMap g ++ [portRead c.id k].filterMap g := by
  have hsingle : ∀ f : Nat → MemoryPort → Statement,
      ports.mapIdx f = (ports.mapIdx fun j p => [f j p]).flatten := by
    intro f
    rw [List.mapIdx_eq_zipIdx_map, List.mapIdx_eq_zipIdx_map, ← List.flatMap_def]
    exact List.map_eq_flatMap
  rw [next, hcell]
  simp only [List.filterMap_append]
  rw [filterMap_flatten_mapIdx hport hwords, hsingle, hsingle,
    filterMap_flatten_mapIdx hport fun j p hj => by simp [hwrite j p hj],
    filterMap_flatten_mapIdx hport fun j p hj => by simp [hread j hj]]

/-- The words of a port are bound once each: those of its buses, and the one that it reads. -/
theorem filterMap_word (d : Dialect) (hcell : c.cell = .memory shape ports)
    (hport : ports[k]? = some port) :
    (c.next d).filterMap (Statement.word? (.address c.id k)) =
        [.word d (port.address.map .wire)] ∧
      (c.next d).filterMap (Statement.word? (.data c.id k)) = [.word d (port.data.map .wire)] ∧
      (c.next d).filterMap (Statement.word? (.read c.id k)) =
        [.element (.storage c.id) (.address c.id k)] := by
  refine ⟨?_, ?_, ?_⟩
  all_goals
    rw [filterMap_next d hcell hport]
    · simp [portWords, portWrite, portRead, Statement.word?]
    · intro j p hj
      simp [portWords, Statement.word?, hj]
    · intro j p hj
      rfl
    · intro j hj
      simp [portRead, Statement.word?, hj]

/-- A port writes once, if its enable is set. -/
theorem filterMap_write (d : Dialect) (hcell : c.cell = .memory shape ports)
    (hport : ports[k]? = some port) :
    (c.next d).filterMap (Statement.write? (.address c.id k)) =
      [(.wire port.enable, .storage c.id, .data c.id k)] := by
  rw [filterMap_next d hcell hport]
  · have hwrite : Statement.write? (.address c.id k) (portWrite c.id k port) =
        some (.wire port.enable, .storage c.id, .data c.id k) := by
      simp [portWrite, Statement.write?]
    rw [List.filterMap_cons_some hwrite]
    rfl
  · intro j p hj
    rfl
  · intro j p hj
    simp [portWrite, Statement.write?, hj]
  · intro j hj
    rfl

private theorem filterMap_pick (hcell : c.cell = .memory shape ports)
    (hport : ports[k]? = some port) :
    c.commit.filterMap (Statement.pick? (.read c.id k)) =
      port.output.zipIdx.map fun place => (.wire place.1, place.2) := by
  rw [commit, hcell]
  simp only
  rw [filterMap_flatten_mapIdx hport]
  · rw [portCommit, List.mapIdx_eq_zipIdx_map, List.filterMap_map, ← List.filterMap_eq_map]
    apply List.filterMap_congr
    intro place _
    simp [Statement.pick?_assign_bit]
  · intro j p hj
    rw [List.filterMap_eq_nil_iff]
    intro st hst
    obtain ⟨bit, hbit, rfl⟩ := List.mem_mapIdx.mp hst
    simp [Statement.pick?_assign_bit, hj]

end Component

/-! ### What the places mean -/

/-- An expression weighs bits if it calculates the sum of their weights, in every lawful engine. -/
def Expr.Weighs (d : Dialect) (e : Expr) (terms : List (Name × Nat)) : Prop :=
  ∀ (E : Engine) (fits : Nat → Prop) (accepts : Int → Prop), E.Lawful d fits accepts →
    fits terms.length → ∀ (s : Store) (dest : Name) (bit : Name → Bool),
      (∀ term ∈ terms, s.get term.1 = .ok (.ofBit (bit term.1))) →
        E.run s (.bindWord dest e) = .ok (s.set dest
          (.ofWord (terms.map fun term => (bit term.1).toNat * 2 ^ term.2).sum))

/-- A statement picks a bit of a word of some width if it puts the bit into a cell, in every lawful
engine. -/
def Statement.Picks (d : Dialect) (st : Statement) (word : Name) (width : Nat)
    (pick : Name × Nat) : Prop :=
  ∀ (E : Engine) (fits : Nat → Prop) (accepts : Int → Prop), E.Lawful d fits accepts →
    fits width → ∀ (s : Store) (value : Nat), s.get word = .ok (.ofWord value) →
      value < 2 ^ width → E.run s st = .ok (s.set pick.1 (.ofBit (value.testBit pick.2)))

private theorem sum_zipIdx_eq_weigh (bus : List Wire) (bit : Wire → Bool) :
    (bus.zipIdx.map fun place => (bit place.1).toNat * 2 ^ place.2).sum =
      weigh bus.length fun k => bus[k]?.any bit := by
  induction bus using List.reverseRecOn with
  | nil => rfl
  | append_singleton bus w ih =>
    have hlower : weigh bus.length (fun k => (bus ++ [w])[k]?.any bit) =
        weigh bus.length fun k => bus[k]?.any bit := by
      apply Finset.sum_congr rfl
      intro k hk
      dsimp only
      rw [List.getElem?_append_left (Finset.mem_range.mp hk)]
    rw [List.zipIdx_append, List.map_append, List.sum_append, ih, List.length_append,
      List.length_singleton, weigh_succ, hlower]
    simp

private theorem Expr.weighs_word (d : Dialect) (bus : List Wire) :
    Expr.Weighs d (.word d (bus.map .wire))
      (bus.zipIdx.map fun place => (.wire place.1, place.2)) := by
  intro E fits accepts hE hfits s dest bit hbits
  have hbus : ∀ (k : Nat) (w : Wire), bus[k]? = some w →
      s.get (.wire w) = .ok (.ofBit (bus[k]?.any fun w => bit (.wire w))) := by
    intro k w hw
    have hmem : (w, k) ∈ bus.zipIdx := List.mk_mem_zipIdx_iff_getElem?.mpr hw
    rw [hw, hbits (.wire w, k) (List.mem_map.mpr ⟨(w, k), hmem, rfl⟩)]
    rfl
  rw [hE.word (by simpa using hfits) hbus, ← sum_zipIdx_eq_weigh, List.map_map]
  rfl

/-- What is picked from the word that a port of a memory reads is a bit of it. -/
theorem Component.picks_of_mem_commit {d : Dialect} {c : Component} {shape : MemoryShape}
    {ports : List MemoryPort} (hcell : c.cell = .memory shape ports)
    (hwidth : ∀ port ∈ ports, port.output.length = shape.dataWidth) {k : Nat} {st : Statement}
    (hst : st ∈ c.commit) {pick : Name × Nat}
    (hpick : Statement.pick? (.read c.id k) st = some pick) :
    st.Picks d (.read c.id k) shape.dataWidth pick := by
  rw [commit, hcell] at hst
  obtain ⟨j, port, hport, hst⟩ := mem_flatten_mapIdx.mp hst
  obtain ⟨place, hplace, rfl⟩ := List.mem_mapIdx.mp hst
  rw [Statement.pick?_assign_bit] at hpick
  split at hpick
  · next hsource =>
    cases hpick
    cases hsource
    rw [hwidth port (List.mem_of_getElem? hport)] at hplace
    intro E fits accepts hE hfits s value hvalue hlt
    exact hE.pick hvalue hfits hlt hplace
  · cases hpick

/-! ### Both sides of a bus -/

/-- A port is connected to the concatenation of these names, from left to right. -/
def Verilog.Connects (t : Text) (port : String) (names : List Text) : Prop :=
  ∃ value, (connections t).lookup (ofString port) = some value ∧ concatenation? value = some names

/-- The bus on a port carries a word of the procedure: the word is bound once, the concatenation has
a name for each bit, and counted from the right the names have the places of their weights. -/
def Verilog.CarriesWord (t : Text) (port : String) (d : Dialect) (program : List Statement)
    (word : Name) (width : Nat) : Prop :=
  ∃ names e terms, Connects t port names ∧ names.length = width ∧
    program.filterMap (Statement.word? word) = [e] ∧ e.terms? = some terms ∧
    Expr.Weighs d e terms ∧ names.reverse.zipIdx = terms.map fun term => (term.1.text, term.2)

/-- The bus on a port carries the bits that are picked from a word: the concatenation has a name for
each of them, and counted from the right the names have the places of their bits. -/
def Verilog.CarriesBits (t : Text) (port : String) (d : Dialect) (program : List Statement)
    (word : Name) (width : Nat) : Prop :=
  ∃ names, Connects t port names ∧ names.length = width ∧
    (∀ st ∈ program, ∀ pick, Statement.pick? word st = some pick → st.Picks d word width pick) ∧
    names.reverse.zipIdx =
      (program.filterMap (Statement.pick? word)).map fun pick => (pick.1.text, pick.2)

private theorem Verilog.zipIdx_reverse_names (bus : List Wire) :
    ((bus.map fun w => ofString w.name).reverse).reverse.zipIdx =
      (bus.zipIdx.map fun place => (Name.wire place.1, place.2)).map
        fun term => (term.1.text, term.2) := by
  rw [List.reverse_reverse, List.zipIdx_map, List.map_map]
  rfl

private theorem Verilog.carriesWord {t : Text} {port : String} {bus : List Wire} {d : Dialect}
    {program : List Statement} {word : Name}
    (hport : (connections t).lookup (ofString port) = some (Wire.bus bus))
    (hword : program.filterMap (Statement.word? word) = [.word d (bus.map .wire)]) :
    CarriesWord t port d program word bus.length :=
  ⟨_, _, _, ⟨_, hport, Wire.concatenation?_bus bus⟩, by simp, hword, Expr.terms?_word d bus,
    Expr.weighs_word d bus, zipIdx_reverse_names bus⟩

namespace Altsyncram

/-- The instantiation of a checked memory fails only where the number of locations is too long to
be written. -/
theorem ofInstance_eq [Machine] {i : Instance} {c : Component} (h : Component.ofInstance i = .ok c)
    {shape : MemoryShape} {ports : List MemoryPort} (hcell : c.cell = .memory shape ports) :
    ofInstance i = if shape.addressWidth < Numeral.digitBits then .ok ⟨c.id, c.kind, shape, ports⟩
      else .error .numeralTooLong := by
  obtain ⟨kind, hkind, h⟩ := bind_eq_ok.mp h
  obtain ⟨cell, hmade, h⟩ := bind_eq_ok.mp h
  cases h
  cases hcell
  unfold ofInstance
  rw [hkind, hmade]
  show (shape.checkDepth.bind fun _ => _) = _
  unfold MemoryShape.checkDepth Numeral.writtenPower
  by_cases hdepth : shape.addressWidth < Numeral.digitBits
  · rw [if_neg (Nat.not_le.mpr hdepth), if_pos hdepth]
    rfl
  · rw [if_pos (Nat.not_lt.mp hdepth), if_neg hdepth]
    rfl

end Altsyncram

private theorem Component.statements_of_compile [Machine] {i : Instance} {c : Component}
    (h : Component.ofInstance i = .ok c) (hmemory : c.kind.isMemory = true) {n : Netlist}
    {d : Dialect} {name done : Value} {p : Procedure} (hi : i ∈ n.instances)
    (hcompile : n.compile d name done = .ok p) :
    c.next d <:+: p.next ∧ c.commit <:+: p.commit := by
  obtain ⟨s, exit, title, hs, -, -, -, -, rfl⟩ := Netlist.compile_eq_ok hcompile
  obtain ⟨c', hc', hic⟩ := exists_result (Netlist.schedule_ok hs).2.1 hi
  obtain rfl : c' = c := Except.ok.inj (hic.symm.trans h)
  obtain ⟨shape, ports, hcell, -⟩ := exists_ports h hmemory
  have hsequential : c' ∈ s.sequential :=
    Netlist.Compiled.mem_sequential.mpr ⟨hc', by rw [hcell]; rfl⟩
  exact ⟨List.infix_of_mem_flatten (List.mem_map_of_mem hsequential),
    List.infix_of_mem_flatten (List.mem_map_of_mem hsequential)⟩

/-- Synthesis and simulation order the bits of a memory in the same way. For each port of a memory
that passes its check, the buses of address and data carry the words that the procedure assembles,
the write enable is the one that guards the write of the procedure, and the output bus carries the
bits of the word that the procedure reads. -/
theorem Altsyncram.busOrder_agrees [Machine] (i : Instance) (c : Component)
    (h : Component.ofInstance i = .ok c) (hmemory : c.kind.isMemory = true) :
    ∃ (shape : MemoryShape) (a : Altsyncram), MemoryShape.ofInstance i = .ok shape ∧
      (Altsyncram.ofInstance i = if shape.addressWidth < Numeral.digitBits then .ok a
        else .error .numeralTooLong) ∧
      (∀ (n : Netlist) (d : Dialect) (name done : Value) (p : Procedure), i ∈ n.instances →
        n.compile d name done = .ok p → c.next d <:+: p.next ∧ c.commit <:+: p.commit) ∧
      ∀ (k : Nat) (suffix : String), k < shape.portCount → ["a", "b"][k]? = some suffix →
        ∀ d : Dialect,
          Verilog.CarriesWord a.text ("address_" ++ suffix) d (c.next d) (.address i.id k)
            shape.addressWidth ∧
          Verilog.CarriesWord a.text ("data_" ++ suffix) d (c.next d) (.data i.id k)
            shape.dataWidth ∧
          (∃ enable : Name,
            (Verilog.connections a.text).lookup (ofString ("wren_" ++ suffix)) =
              some enable.text ∧
            (c.next d).filterMap (Statement.write? (.address i.id k)) =
              [(enable, .storage i.id, .data i.id k)]) ∧
          (c.next d).filterMap (Statement.word? (.read i.id k)) =
            [.element (.storage i.id) (.address i.id k)] ∧
          Verilog.CarriesBits a.text ("q_" ++ suffix) d c.commit (.read i.id k)
            shape.dataWidth := by
  obtain ⟨shape, ports, hcell, hshape, hlength, rfl⟩ := Component.exists_ports h hmemory
  rw [← (Component.ofInstance_ok h).1]
  refine ⟨shape, ⟨c.id, c.kind, shape, shape.splitPorts i⟩, hshape,
    Altsyncram.ofInstance_eq h hcell, fun n d name done p hi hp =>
      Component.statements_of_compile h hmemory hi hp, fun k suffix hk hsuffix d => ?_⟩
  obtain ⟨port, hport⟩ : ∃ port, (shape.splitPorts i)[k]? = some port :=
    ⟨_, List.getElem?_eq_getElem (by rwa [MemoryShape.length_splitPorts hlength])⟩
  have hwires := (MemoryShape.isPort_of_getElem? hlength hport).2
  have houtputs : ∀ port ∈ shape.splitPorts i, port.output.length = shape.dataWidth := by
    intro port hmem
    obtain ⟨j, hj⟩ := List.mem_iff_getElem?.mp hmem
    exact (MemoryShape.isPort_of_getElem? hlength hj).2.length_output
  obtain ⟨haddress, hdata, hread⟩ := Component.filterMap_word d hcell hport
  have hlookup : ∀ x ∈ portConnections suffix port, (Verilog.connections
      (Altsyncram.mk c.id c.kind shape (shape.splitPorts i)).text).lookup (ofString x.1) =
        some x.2 := fun x hx => lookup_connections hsuffix hport hx
  simp only [portConnections, List.forall_mem_cons] at hlookup
  obtain ⟨hwireAddress, hwireEnable, hwireData, hwireOutput, -⟩ := hlookup
  refine ⟨?_, ?_, ?_, hread, ?_⟩
  · rw [← hwires.length_address]
    exact Verilog.carriesWord hwireAddress haddress
  · rw [← hwires.length_data]
    exact Verilog.carriesWord hwireData hdata
  · exact ⟨.wire port.enable, hwireEnable, Component.filterMap_write d hcell hport⟩
  · refine ⟨_, ⟨_, hwireOutput, Wire.concatenation?_bus port.output⟩,
      by simpa using hwires.length_output, fun st hst pick hpick =>
        Component.picks_of_mem_commit hcell houtputs hst hpick, ?_⟩
    rw [Component.filterMap_pick hcell hport]
    exact Verilog.zipIdx_reverse_names port.output

/-- A memory with two ports, two data bits and two locations. -/
def Altsyncram.dualMemory : Instance :=
  ⟨.number 1, "dualRam", [("dwidth", "2"), ("awidth", "1")],
    [⟨.number 0, .number 0⟩, ⟨.number 0, .number 1⟩, ⟨.number 0, .number 2⟩, ⟨.number 0, .number 3⟩,
      ⟨.number 0, .number 4⟩, ⟨.number 0, .number 5⟩, ⟨.number 0, .number 6⟩,
      ⟨.number 0, .number 7⟩], .number 4⟩

open Desktop in
/-- The buses of its second port carry the words and the bits of that port. -/
theorem Altsyncram.dualMemory_busOrder :
    ∃ c a, Component.ofInstance dualMemory = .ok c ∧ c.kind.isMemory = true ∧
      Altsyncram.ofInstance dualMemory = .ok a ∧
      Verilog.CarriesWord a.text ("address_" ++ "b") .c (c.next .c) (.address (.number 1) 1) 1 ∧
      Verilog.CarriesWord a.text ("data_" ++ "b") .c (c.next .c) (.data (.number 1) 1) 2 ∧
      Verilog.CarriesBits a.text ("q_" ++ "b") .c c.commit (.read (.number 1) 1) 2 := by
  have hshape : MemoryShape.ofInstance dualMemory =
      .ok ⟨2, 1, [], true, by decide, by decide, by decide⟩ := rfl
  have hcomponent : Component.ofInstance dualMemory = .ok ⟨.number 1, .dualRam,
      .memory ⟨2, 1, [], true, by decide, by decide, by decide⟩
        [⟨⟨.number 0, .number 0⟩, [⟨.number 0, .number 2⟩, ⟨.number 0, .number 3⟩],
            [⟨.number 0, .number 6⟩], [⟨.number 1, .number 0⟩, ⟨.number 1, .number 1⟩]⟩,
          ⟨⟨.number 0, .number 1⟩, [⟨.number 0, .number 4⟩, ⟨.number 0, .number 5⟩],
            [⟨.number 0, .number 7⟩], [⟨.number 1, .number 2⟩, ⟨.number 1, .number 3⟩]⟩]⟩ := rfl
  obtain ⟨shape, a, hread, hmade, -, hports⟩ := busOrder_agrees dualMemory _ hcomponent rfl
  cases hread.symm.trans hshape
  rw [if_pos (by decide)] at hmade
  obtain ⟨haddress, hdata, -, -, houtput⟩ := hports 1 "b" (by decide) rfl .c
  exact ⟨_, a, hcomponent, rfl, hmade, haddress, hdata, houtput⟩

end Latchwork
