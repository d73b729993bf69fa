import Latchwork.Proofs.Artifacts
import Latchwork.Proofs.DigestInput
import Latchwork.Proofs.RoundTrip
import Latchwork.Proofs.Scope

/-!
# Emitted texts can be encoded

A text may hold halves of surrogate pairs, and then it has no bytes. The texts that are emitted for
a netlist hold none: whatever they take over from the netlist is an identifier, a number or the word
of a note, and all else is fixed.
-/

namespace Latchwork

open Outcome

namespace Text

private theorem isString_iff {t : Text} : t.IsString ↔ ∀ p ∈ t.points, ∃ c, p = .char c := by
  constructor
  · rintro ⟨s, rfl⟩ p hp
    obtain ⟨c, -, rfl⟩ := List.mem_map.mp hp
    exact ⟨c, rfl⟩
  · intro h
    have hmem : t.points ∈ Set.range (List.map CodePoint.char) := by
      rw [Set.range_list_map]
      intro p hp
      obtain ⟨c, rfl⟩ := h p hp
      exact ⟨c, rfl⟩
    obtain ⟨cs, hcs⟩ := hmem
    refine ⟨String.ofList cs, ?_⟩
    ext1
    rw [← hcs, points_ofString, String.toList_ofList]

@[simp] theorem isString_ofString (s : String) : (ofString s).IsString := ⟨s, rfl⟩

@[simp] theorem isString_empty : empty.IsString := ⟨"", rfl⟩

@[simp] theorem isString_append {s t : Text} : (s ++ t).IsString ↔ s.IsString ∧ t.IsString := by
  simp [isString_iff, or_imp, forall_and]

private theorem isString_intercalate {separator : Text} (hseparator : separator.IsString)
    {ts : List Text} (h : ∀ t ∈ ts, t.IsString) : (intercalate separator ts).IsString := by
  rw [isString_iff, Path.points_intercalate]
  apply forall_mem_intercalate (isString_iff.mp hseparator)
  intro item hitem
  obtain ⟨t, ht, rfl⟩ := List.mem_map.mp hitem
  exact isString_iff.mp (h t ht)

private theorem IsString.exists_utf8 {t : Text} (h : t.IsString) : ∃ bytes, t.utf8 = .ok bytes := by
  obtain ⟨s, rfl⟩ := h
  exact ⟨_, utf8_ofString s⟩

end Text

/-! ### Laid out texts -/

/-- Are all lines of a piece strings? -/
inductive Layout.IsString : Layout → Prop where
  | line {t : Text} (h : t.IsString) : IsString (.line t)
  | blank : IsString .blank
  | block {body : List Layout} (h : ∀ piece ∈ body, piece.IsString) : IsString (.block body)

namespace Layout

@[simp] theorem isString_line {t : Text} : (line t).IsString ↔ t.IsString := by
  constructor
  · intro h
    cases h with
    | line h => exact h
  · exact .line

@[simp] theorem isString_block {body : List Layout} :
    (block body).IsString ↔ ∀ piece ∈ body, piece.IsString := by
  constructor
  · intro h
    cases h with
    | block h => exact h
  · exact .block

private theorem isString_renderAll_of {unit indent : Text} {pieces : List Layout}
    (h : ∀ piece ∈ pieces, (piece.render unit indent).IsString) :
    (renderAll unit indent pieces).IsString := by
  induction pieces with
  | nil => exact Text.isString_empty
  | cons piece rest ih =>
    rw [renderAll, Text.isString_append]
    exact ⟨h piece List.mem_cons_self, ih fun q hq => h q (List.mem_cons_of_mem _ hq)⟩

private theorem IsString.render {unit indent : Text} {piece : Layout} (h : piece.IsString)
    (hunit : unit.IsString) (hindent : indent.IsString) : (piece.render unit indent).IsString := by
  induction h generalizing indent with
  | line h => simp [Layout.render, h, hindent]
  | blank => simp [Layout.render]
  | block _ ih =>
    rw [Layout.render]
    apply isString_renderAll_of
    intro piece hpiece
    exact ih piece hpiece (by simp [hindent, hunit])

private theorem isString_renderAll {unit indent : Text} {pieces : List Layout}
    (h : ∀ piece ∈ pieces, piece.IsString) (hunit : unit.IsString) (hindent : indent.IsString) :
    (renderAll unit indent pieces).IsString :=
  isString_renderAll_of fun piece hpiece => (h piece hpiece).render hunit hindent

end Layout

/-! ### Procedures -/

private theorem Name.isString_text {m : Name} (h : ∀ t, m = .given t → t.isIdentifier = true) :
    m.text.IsString := by
  cases m with
  | given t => exact Text.isString_of_isIdentifier (h t rfl)
  | _ => simp [text]

private theorem Expr.isString_text {e : Expr} (d : Dialect) (h : ∀ m ∈ e.names, m.text.IsString) :
    (e.text d).IsString := by
  induction e with
  | name m => exact h m (by simp [names])
  | literal value => simp [text]
  | wideLiteral value => simp [text]
  | widen e ih => simpa [text] using ih h
  | binary op a b iha ihb =>
    simp only [names, List.mem_append, or_imp, forall_and] at h
    have ha := iha h.1
    have hb := ihb h.2
    unfold text
    dsimp only
    split <;> simp [ha, hb]
  | shiftLeft e count ih => simpa [text] using ih h
  | shiftRight e count ih => simpa [text] using ih h
  | choose condition whenSet whenClear ihc ihs ihr =>
    simp only [names, List.mem_append, or_imp, forall_and] at h
    cases d <;> simp [text, ihc h.1.1, ihs h.1.2, ihr h.2]
  | element storage address =>
    simp only [names, List.mem_cons, List.not_mem_nil, or_false, forall_eq_or_imp,
      forall_eq] at h
    simp [text, h.1, h.2]

namespace Statement

@[simp] theorem names_bind (dest : Name) (value : Expr) (note : Option Note) :
    (bind dest value note).names = value.names ++ [dest] := by
  simp [names, reads, binds, changes]

@[simp] theorem names_bindWord (dest : Name) (value : Expr) :
    (bindWord dest value).names = value.names ++ [dest] := by
  simp [names, reads, binds, changes]

@[simp] theorem names_assign (dest : Name) (value : Expr) :
    (assign dest value).names = value.names ++ [dest] := by
  simp [names, reads, binds, changes]

@[simp] theorem names_store (enable storage address data : Name) :
    (store enable storage address data).names =
      [enable, storage, address, data, storage] := rfl

end Statement

/-- A procedure in which all names are strings. -/
structure Procedure.IsSpelled (p : Procedure) : Prop where
  name : p.name.IsString
  inputs : ∀ t ∈ p.inputs, t.IsString
  outputs : ∀ t ∈ p.outputs, t.IsString
  declarations : ∀ d ∈ p.declarations, ∀ m ∈ d.names, m.text.IsString
  statements : ∀ st ∈ p.settle ++ p.next ++ p.commit, ∀ m ∈ st.names, m.text.IsString
  exit : p.exitFlag.text.IsString
  result : ∀ m ∈ p.result.names, m.text.IsString

namespace Dialect

private theorem C.isString_declaration {d : Declaration} (h : ∀ m ∈ d.names, m.text.IsString) :
    (C.declaration d).IsString := by
  cases d with
  | cells names value =>
    simp only [C.declaration, Layout.isString_line, Text.isString_append, Text.isString_ofString,
      true_and, and_true]
    apply Text.isString_intercalate (Text.isString_ofString ", ")
    intro t ht
    obtain ⟨m, hm, rfl⟩ := List.mem_map.mp ht
    simp [h m hm]
  | storage name shape => simp [C.declaration, h name (by simp [Declaration.names])]

private theorem C.isString_statement {st : Statement} (h : ∀ m ∈ st.names, m.text.IsString) :
    (C.statement st).IsString := by
  cases st with
  | bind dest value note =>
    rw [Statement.names_bind, List.forall_mem_append, List.forall_mem_singleton] at h
    cases note <;> simp [C.statement, h.2, Expr.isString_text .c h.1]
  | bindWord dest value =>
    rw [Statement.names_bindWord, List.forall_mem_append, List.forall_mem_singleton] at h
    simp [C.statement, h.2, Expr.isString_text .c h.1]
  | assign dest value =>
    rw [Statement.names_assign, List.forall_mem_append, List.forall_mem_singleton] at h
    simp [C.statement, h.2, Expr.isString_text .c h.1]
  | store enable storage address data =>
    simp only [Statement.names_store, List.forall_mem_cons] at h
    simp [C.statement, h]

private theorem Python.isString_declaration {d : Declaration} (h : ∀ m ∈ d.names, m.text.IsString) :
    ∀ piece ∈ Python.declaration d, piece.IsString := by
  cases d with
  | cells names value =>
    intro piece hpiece
    obtain ⟨m, hm, rfl⟩ := List.mem_map.mp hpiece
    simp [h m hm]
  | storage name shape => simp [Python.declaration, h name (by simp [Declaration.names])]

private theorem Python.isString_statement {st : Statement} (h : ∀ m ∈ st.names, m.text.IsString) :
    ∀ piece ∈ Python.statement st, piece.IsString := by
  cases st with
  | bind dest value note =>
    rw [Statement.names_bind, List.forall_mem_append, List.forall_mem_singleton] at h
    cases note <;> simp [Python.statement, h.2, Expr.isString_text .python h.1]
  | bindWord dest value =>
    rw [Statement.names_bindWord, List.forall_mem_append, List.forall_mem_singleton] at h
    simp [Python.statement, h.2, Expr.isString_text .python h.1]
  | assign dest value =>
    rw [Statement.names_assign, List.forall_mem_append, List.forall_mem_singleton] at h
    simp [Python.statement, h.2, Expr.isString_text .python h.1]
  | store enable storage address data =>
    simp only [Statement.names_store, List.forall_mem_cons] at h
    simp [Python.statement, h]

end Dialect

namespace Procedure.IsSpelled

variable {p : Procedure}

private theorem isString_c (h : p.IsSpelled) : ∀ piece ∈ Dialect.C.layout p, piece.IsString := by
  have hcomma := Text.isString_ofString ", "
  have hparameters : (Dialect.C.parameters p).IsString := by
    unfold Dialect.C.parameters
    split
    · simp
    · apply Text.isString_intercalate hcomma
      intro t ht
      obtain ⟨name, hname, rfl⟩ := List.mem_map.mp ht
      simp [h.inputs name hname]
  have hstatements : ∀ st ∈ p.settle ++ p.next ++ p.commit, (Dialect.C.statement st).IsString :=
    fun st hst => Dialect.C.isString_statement (h.statements st hst)
  simp only [List.mem_append, or_imp, forall_and] at hstatements
  have hbody : ∀ piece ∈ Dialect.C.loopBody p, piece.IsString := by
    simpa [Dialect.C.loopBody, or_imp, forall_and, h.exit, Expr.isString_text .c h.result,
      and_assoc] using hstatements
  have hdeclarations : ∀ d ∈ p.declarations, (Dialect.C.declaration d).IsString :=
    fun d hd => Dialect.C.isString_declaration (h.declarations d hd)
  simpa [Dialect.C.layout, or_imp, forall_and, h.name, hparameters,
    Text.isString_intercalate hcomma h.inputs, Text.isString_intercalate hcomma h.outputs]
    using And.intro hdeclarations hbody

private theorem isString_python (h : p.IsSpelled) :
    ∀ piece ∈ Dialect.Python.layout p, piece.IsString := by
  have hcomma := Text.isString_ofString ", "
  have hstatements : ∀ statements : List Statement, statements ⊆ p.settle ++ p.next ++ p.commit →
      ∀ piece ∈ statements.flatMap Dialect.Python.statement, piece.IsString := by
    intro statements hsub piece hpiece
    obtain ⟨st, hst, hpiece⟩ := List.mem_flatMap.mp hpiece
    exact Dialect.Python.isString_statement (h.statements st (hsub hst)) piece hpiece
  have hbody : ∀ piece ∈ Dialect.Python.loopBody p, piece.IsString := by
    simp only [Dialect.Python.loopBody, List.forall_mem_append]
    refine ⟨⟨⟨⟨⟨?_, hstatements _ ?_⟩, ?_⟩, hstatements _ ?_⟩, ?_⟩, hstatements _ ?_⟩
    · simp
    · simp
    · simp [h.exit, Expr.isString_text .python h.result]
    · simp
    · simp
    · simp
  have hdeclarations : ∀ piece ∈ p.declarations.flatMap Dialect.Python.declaration,
      piece.IsString := by
    intro piece hpiece
    obtain ⟨d, hd, hpiece⟩ := List.mem_flatMap.mp hpiece
    exact Dialect.Python.isString_declaration (h.declarations d hd) piece hpiece
  have hinputs := Text.isString_intercalate hcomma h.inputs
  have houtputs := Text.isString_intercalate hcomma h.outputs
  simp only [Dialect.Python.layout, List.forall_mem_cons, Layout.isString_block,
    List.forall_mem_append]
  exact ⟨by simp [h.name, hinputs],
    ⟨⟨by simp [hinputs, houtputs], hdeclarations⟩, by simp, hbody, by simp⟩, by simp⟩

private theorem isString_source (h : p.IsSpelled) (d : Dialect) : (p.source d).IsString := by
  cases d with
  | c => exact Layout.isString_renderAll h.isString_c (by simp [Dialect.indentation]) (by simp)
  | python =>
    exact Layout.isString_renderAll h.isString_python (by simp [Dialect.indentation]) (by simp)

end Procedure.IsSpelled

/-! ### Compiled procedures -/

namespace Component

variable {c : Component} {d : Dialect} {st : Statement} {m : Name}

private theorem isString_settle (hinput : ∀ name, c.cell = .input name → name.isIdentifier = true)
    (hst : st ∈ c.settle) (hm : m ∈ st.names) : m.text.IsString := by
  apply Name.isString_text
  rintro t rfl
  cases hseq : c.cell.isSequential with
  | true =>
    have hnone : c.settle = [] := by
      unfold settle
      cases hcell : c.cell <;> simp_all [Cell.isSequential]
    simp [hnone] at hst
  | false =>
    obtain ⟨st', hsettle, hbinds, hchanges, hreads⟩ := exists_settle_eq hseq
    rw [hsettle, List.mem_singleton] at hst
    subst hst
    rw [Statement.names, hbinds, hchanges] at hm
    have hread : .given t ∈ st.reads := by simpa using hm
    rcases (hreads _).mp hread with ⟨w, -, hw⟩ | ⟨name, hname, heq⟩
    · cases hw
    · cases heq
      exact hinput t hname

private theorem isString_next (hst : st ∈ c.next d) (hm : m ∈ st.names) : m.text.IsString := by
  apply Name.isString_text
  rintro t rfl
  exfalso
  unfold next at hst
  split at hst
  · rw [List.mem_singleton.mp hst] at hm
    simp [Expr.names, Expr.wire] at hm
  · rw [List.mem_singleton.mp hst] at hm
    simp [Expr.names, Expr.wire] at hm
  · rw [List.mem_append, List.mem_append] at hst
    rcases hst with (hst | hst) | hst
    · obtain ⟨k, port, -, hst⟩ := mem_flatten_mapIdx.mp hst
      rcases List.mem_pair.mp hst with rfl | rfl <;> simp [Expr.mem_names_word] at hm
    · obtain ⟨k, hk, rfl⟩ := List.mem_mapIdx.mp hst
      simp [portWrite] at hm
    · obtain ⟨k, hk, rfl⟩ := List.mem_mapIdx.mp hst
      simp [portRead, Expr.names] at hm
  · cases hst

private theorem isString_commit (hst : st ∈ c.commit) (hm : m ∈ st.names) : m.text.IsString := by
  apply Name.isString_text
  rintro t rfl
  exfalso
  unfold commit at hst
  split at hst
  · rw [List.mem_singleton.mp hst] at hm
    simp [Expr.names] at hm
  · obtain ⟨k, port, -, hst⟩ := mem_flatten_mapIdx.mp hst
    obtain ⟨b, hb, rfl⟩ := List.mem_mapIdx.mp hst
    simp [Expr.names_bit, Expr.names] at hm
  · cases hst

private theorem isString_declare {decl : Declaration} (hdecl : decl ∈ c.declare)
    (hm : m ∈ decl.names) :
    m.text.IsString := by
  apply Name.isString_text
  rintro t rfl
  exfalso
  unfold declare at hdecl
  split at hdecl
  · rw [List.mem_singleton.mp hdecl] at hm
    simp [Declaration.names] at hm
  · rcases List.mem_pair.mp hdecl with rfl | rfl
    · simp [Declaration.names] at hm
    · simp [Declaration.names] at hm
  · cases hdecl

end Component

namespace Netlist

variable {n : Netlist} {d : Dialect} {name done : Value} {source : Text}

/-- The procedure of a netlist is a string. -/
theorem isString_source [Machine] (h : n.source d name done = .ok source) : source.IsString := by
  obtain ⟨s, exit, title, hs, -, hallows, hinputs, -, rfl⟩ := source_eq_ok h
  have hcombinational : ∀ c ∈ s.combinational, c ∈ s.components := by
    obtain ⟨-, hcs, hofComponents⟩ := schedule_ok hs
    intro c hc
    have hperm := (Schedule.ofComponents_ok (nodup_numbers hcs) hofComponents).2.1
    exact (List.mem_filter.mp (hperm.mem_iff.mp hc)).1
  apply Procedure.IsSpelled.isString_source
  constructor
  · exact Text.isString_of_isIdentifier hallows.identifier
  · intro t ht
    exact Text.isString_of_isIdentifier (Schedule.allows_inputs hinputs ht).identifier
  · intro t ht
    obtain ⟨o, ho, rfl⟩ := List.mem_map.mp ht
    exact Text.isString_of_isIdentifier (n.namesIdentifiers o ho)
  · intro decl hdecl m hm
    obtain ⟨c, -, hdecl⟩ := List.mem_flatMap.mp hdecl
    exact Component.isString_declare hdecl hm
  · intro st hst m hm
    rw [List.mem_append, List.mem_append] at hst
    rcases hst with (hst | hst) | hst
    · obtain ⟨c, hc, hst⟩ := List.mem_flatMap.mp hst
      have hinput : ∀ t, c.cell = .input t → t.isIdentifier = true := fun t ht =>
        (Schedule.allows_input hinputs (hcombinational c hc) ht).identifier
      exact Component.isString_settle hinput hst hm
    · obtain ⟨c, -, hst⟩ := List.mem_flatMap.mp hst
      exact Component.isString_next hst hm
    · obtain ⟨c, -, hst⟩ := List.mem_flatMap.mp hst
      exact Component.isString_commit hst hm
  · simp [Schedule.procedure, Name.text]
  · intro m hm
    have hresult : (s.procedure d title n.outputs exit).result =
        .packed d ((n.outputs.map Prod.snd).map .wire) := by
      rw [List.map_map]
      rfl
    rw [hresult] at hm
    obtain ⟨w, -, rfl⟩ := Expr.mem_names_packed.mp hm
    simp [Name.text]

end Netlist

/-! ### Instantiations -/

private theorem Wire.isString_bus (ws : List Wire) : (bus ws).IsString := by
  have hnames : ∀ t ∈ (ws.map fun w => Text.ofString w.name).reverse, t.IsString := by
    intro t ht
    obtain ⟨w, -, rfl⟩ := List.mem_map.mp (List.mem_reverse.mp ht)
    exact Text.isString_ofString _
  simp [bus, busText, Text.isString_intercalate (Text.isString_ofString ",") hnames]

namespace Altsyncram

private theorem isString_connections (a : Altsyncram) {c : String × Text} (hc : c ∈ a.connections) :
    c.2.IsString := by
  have hfixed : ∀ c ∈ clock ++ unusedPort ++ tieOffs, c.2.IsString := by
    simp [clock, unusedPort, tieOffs]
  simp only [List.forall_mem_append] at hfixed
  simp only [connections, List.mem_append] at hc
  rcases hc with ((hc | hc) | hc) | hc
  · exact hfixed.1.1 c hc
  · obtain ⟨_, hl, hc⟩ := List.mem_flatten.mp hc
    obtain ⟨⟨suffix, port⟩, -, rfl⟩ := List.mem_map.mp hl
    simp only [portConnections, List.mem_cons, List.not_mem_nil, or_false] at hc
    rcases hc with rfl | rfl | rfl | rfl
    · exact Wire.isString_bus _
    · exact Text.isString_ofString _
    · exact Wire.isString_bus _
    · exact Wire.isString_bus _
  · split at hc
    · cases hc
    · exact hfixed.1.2 c hc
  · exact hfixed.2 c hc

private theorem isString_text (a : Altsyncram) : a.text.IsString := by
  have hconnections : ∀ t ∈ a.connections.map Verilog.connectionText, t.IsString := by
    intro t ht
    obtain ⟨c, hc, rfl⟩ := List.mem_map.mp ht
    simp [Verilog.connectionText, a.isString_connections hc]
  have hlines := Text.isString_intercalate (Text.isString_ofString ",\n") hconnections
  simp only [text, Text.isString_append, Text.isString_ofString, true_and, and_true]
  exact hlines

end Altsyncram

namespace Netlist

variable {n : Netlist} {d : Dialect} {name done : Value} {base source : Text} {vendor python : Bool}
  {script : Option Text}

/-- All artifacts of a netlist have bytes. -/
theorem exists_utf8_of_mem_artifacts [Machine] (h : n.source .c name done = .ok source)
    (hscript : n.script name done python = .ok script) {f : Text × Text}
    (hf : f ∈ n.artifacts base source vendor script) : ∃ bytes, f.2.utf8 = .ok bytes := by
  apply Text.IsString.exists_utf8
  simp only [artifacts, List.mem_append, List.mem_singleton, List.mem_map] at hf
  rcases hf with ((rfl | ⟨g, -, rfl⟩) | hf) | ⟨t, ht, rfl⟩
  · exact isString_source h
  · exact Text.isString_ofString _
  · have hblocks : n.blocksText.IsString := by
      apply Text.isString_intercalate (Text.isString_ofString "\n")
      intro t ht
      obtain ⟨a, -, rfl⟩ := List.mem_map.mp ht
      exact a.isString_text
    unfold vendorTexts at hf
    split at hf
    · split at hf
      · cases hf
      · rw [List.mem_singleton.mp hf]
        simp [hblocks]
    · cases hf
  · rw [Option.mem_toList] at ht
    subst ht
    unfold Netlist.script at hscript
    split at hscript
    · obtain ⟨_, hsource, heq⟩ := map_eq_ok.mp hscript
      cases heq
      exact isString_source hsource
    · cases hscript

end Netlist

end Latchwork
