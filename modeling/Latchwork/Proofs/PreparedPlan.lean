import Latchwork.Proofs.FlatPlan

/-!
# Prepared plans

A prepared plan holds the C procedure, an initialisation file for each memory with initial values,
the instantiations if they are asked for and there is a memory, and the Python procedure if that is
asked for. All names are entries of one directory, so extraction fails only where the file system
refuses, and into an empty directory it writes every file. An instantiation names an initialisation
file exactly if the plan holds it, and both say the same of the width and the depth of the memory.
-/

namespace Latchwork

open Outcome Text

/-! ### Parameters in the text of an instantiation -/

namespace Verilog

/-- How a line with a definition ends: before another one, or at the end of all. -/
def definitionEnd (line : List CodePoint) : CodePoint :=
  if line.getLast? = some (.char ',') then .char ',' else .char ';'

/-- The parameter and the value of a line that defines a parameter. -/
def definition? (line : List CodePoint) : Option (Text × Text) :=
  (between? (ofString "  ").points [definitionEnd line] line).bind fun body =>
    match body.splitOn (.char ' ') with
    | [target, [.char '='], value] => some (⟨target⟩, ⟨value⟩)
    | _ => none

/-- The definitions of parameters in an instantiation, which come after its connections. -/
def definitions (t : Text) : List (Text × Text) :=
  ((t.points.splitOn (.char '\n')).dropWhile (· != (ofString "defparam").points)).filterMap
    definition?

/-- The value of a parameter, as it is written. -/
def parameter? (t : Text) (cell key : String) : Option Text :=
  (definitions t).lookup (ofString (cell ++ "." ++ key))

/-- The value of a parameter that is a text between quotes. -/
def textParameter? (t : Text) (cell key : String) : Option Text :=
  (parameter? t cell key).bind fun value =>
    (between? [.char '"'] [.char '"'] value.points).map Text.mk

/-- The value of a parameter that is a number. -/
def numberParameter? (t : Text) (cell key : String) : Option Nat :=
  (parameter? t cell key).bind fun value => value.string?.bind fun s => Numeral.read? 10 s.toList

/-- A definition as it stands on its line. -/
def definitionText (cell : String) (p : String × String) : String :=
  "  " ++ cell ++ "." ++ p.1 ++ " = " ++ p.2

/-- A definition reads back as its parameter and its value. -/
theorem definition?_definitionText {cell : String} {p : String × String}
    (hcell : IsWord (ofString cell)) (hkey : IsWord (ofString p.1)) (hvalue : IsWord (ofString p.2))
    {ending : CodePoint} (hending : ending = .char ',' ∨ ending = .char ';') :
    definition? ((ofString (definitionText cell p)).points ++ [ending]) =
      some (ofString (cell ++ "." ++ p.1), ofString p.2) := by
  have hline : (ofString (definitionText cell p)).points ++ [ending] = (ofString "  ").points ++
      ((ofString (cell ++ "." ++ p.1)).points ++ .char ' ' ::
        ([.char '='] ++ .char ' ' :: (ofString p.2).points)) ++ [ending] := by
    simp [definitionText]
  have hend : definitionEnd ((ofString (definitionText cell p)).points ++ [ending]) = ending := by
    rcases hending with rfl | rfl <;> simp [definitionEnd]
  have htarget : IsWord (ofString (cell ++ "." ++ p.1)) := by
    rw [ofString_append, ofString_append]
    exact (hcell.append (by decide)).append hkey
  have hblank : ∀ t : Text, IsWord t → CodePoint.char ' ' ∉ t.points :=
    fun t ht hmem => (ht _ hmem).1 rfl
  rw [definition?, hend, hline, between?_append, Option.bind_some,
    List.splitOn_append_cons_self_of_not_mem (hblank _ htarget),
    List.splitOn_append_cons_self_of_not_mem (by decide),
    List.splitOn_eq_singleton (hblank _ hvalue)]
  rfl

private theorem isWord_of_isMadeOf {s : String} {extra : List Char} (h : IsMadeOf extra s.toList)
    (hblank : ' ' ∉ extra) (hnewline : '\n' ∉ extra) : IsWord (ofString s) := by
  intro p hp
  obtain ⟨c, hc, rfl⟩ := List.mem_map.mp hp
  constructor
  · rintro ⟨⟩
    exact h.not_mem rfl hblank hc
  · rintro ⟨⟩
    exact h.not_mem rfl hnewline hc

private theorem isWord_decimal (n : Nat) : IsWord (ofString (Numeral.decimal n)) := by
  have hmade : IsMadeOf [] (Numeral.decimal n).toList := by
    rw [Numeral.toList_decimal]
    exact .decimal n
  exact isWord_of_isMadeOf hmade (by decide) (by decide)

private theorem isWord_index (i : Index) : IsWord (ofString i.text) :=
  isWord_of_isMadeOf (isMadeOf_index i) (by decide) (by decide)

end Verilog

namespace Altsyncram

open Verilog (IsWord)

private theorem isWord_cell (a : Altsyncram) : IsWord (ofString a.cell) := by
  rw [cell, ofString_append]
  exact .append (by decide) (Verilog.isWord_index a.id)

private theorem isWord_quote {value : String} (h : IsWord (ofString value)) :
    IsWord (ofString (quote value)) := by
  rw [quote, ofString_append, ofString_append]
  exact .append (.append (by decide) h) (by decide)

/-- Are the parameter and its value words? -/
def IsWords (p : String × String) : Prop := IsWord (ofString p.1) ∧ IsWord (ofString p.2)

private theorem isWords_ifDual (a : Altsyncram) {name value : String}
    (hname : IsWord (ofString name))
    (hvalue : IsWord (ofString value)) : ∀ p ∈ a.ifDual name value, IsWords p := by
  unfold ifDual
  split
  · rw [List.forall_mem_singleton]
    exact ⟨hname, hvalue⟩
  · simp

private theorem isWords_perPort (a : Altsyncram) {name value : String}
    (hname : IsWord (ofString name))
    (hvalue : IsWord (ofString value)) : ∀ p ∈ a.perPort name value, IsWords p := by
  intro p hp
  obtain ⟨suffix, hsuffix, rfl⟩ := List.mem_map.mp hp
  have hsuffix : IsWord (ofString suffix) := by
    unfold suffixes at hsuffix
    split at hsuffix
    · rcases List.mem_pair.mp hsuffix with rfl | rfl <;> decide
    · rw [List.mem_singleton.mp hsuffix]
      decide
  refine ⟨?_, hvalue⟩
  rw [ofString_append, ofString_append]
  exact (hname.append (by decide)).append hsuffix

private theorem isWords_parameters (a : Altsyncram) : ∀ p ∈ a.parameters, IsWords p := by
  have hname : IsWord (ofString (quote (InitFile.name a.id))) := by
    apply isWord_quote
    rw [InitFile.name, ofString_append, ofString_append]
    exact .append (.append (by decide) (Verilog.isWord_index a.id)) (by decide)
  have hinit : ∀ p ∈ if a.shape.init.isEmpty then [] else
      [("init_file", quote (InitFile.name a.id))], IsWords p := by
    split
    · simp
    · rw [List.forall_mem_singleton]
      exact ⟨show IsWord "init_file" by decide, hname⟩
  have hmode : ∀ p ∈ [("operation_mode",
      quote (if a.shape.dual then "BIDIR_DUAL_PORT" else "SINGLE_PORT"))], IsWords p := by
    rw [List.forall_mem_singleton]
    refine ⟨show IsWord "operation_mode" by decide, isWord_quote ?_⟩
    split <;> decide
  have hfixed : ∀ p ∈ [("lpm_type", quote "altsyncram")] ++
      [("power_up_uninitialized", quote "FALSE")] ++
      [("width_byteena_a", "1"), ("width_byteena_b", "1")], IsWords p := by
    unfold IsWords
    decide
  rw [List.forall_mem_append, List.forall_mem_append] at hfixed
  obtain ⟨⟨htype, hpower⟩, hbyte⟩ := hfixed
  have hnumber : ∀ (name : String) (n : Nat), IsWord (ofString name) →
      ∀ p ∈ a.perPort name (Numeral.decimal n), IsWords p :=
    fun name n hname => a.isWords_perPort hname (Verilog.isWord_decimal n)
  simp only [parameters, List.forall_mem_append]
  and_intros
  · exact a.isWords_ifDual (by decide) (by decide)
  · exact a.isWords_perPort (by decide) (by decide)
  · exact a.isWords_perPort (by decide) (by decide)
  · exact a.isWords_ifDual (by decide) (by decide)
  · exact hinit
  · exact htype
  · exact hnumber _ _ (by decide)
  · exact hmode
  · exact a.isWords_perPort (by decide) (by decide)
  · exact a.isWords_perPort (by decide) (by decide)
  · exact hpower
  · exact a.isWords_ifDual (by decide) (by decide)
  · exact a.isWords_perPort (by decide) (by decide)
  · exact hnumber _ _ (by decide)
  · exact hnumber _ _ (by decide)
  · exact hbyte
  · exact a.isWords_ifDual (by decide) (by decide)

private theorem exists_last_parameter (a : Altsyncram) : ∃ front last, a.parameters = front ++
    [last] :=
  ⟨_, _, (List.dropLast_append_getLast (by simp [parameters])).symm⟩

/-- The lines of the definitions of parameters. -/
theorem splitOn_definitions {a : Altsyncram} {front : List (String × String)}
    {last : String × String} (h : a.parameters = front ++ [last]) :
    (ofString a.definitions).points.splitOn (.char '\n') =
      (front.map fun p => (ofString (Verilog.definitionText a.cell p)).points ++ [.char ',']) ++
        [(ofString (Verilog.definitionText a.cell last)).points ++ [.char ';'], []] := by
  have hnewline : ∀ p ∈ a.parameters,
      CodePoint.char '\n' ∉ (ofString (Verilog.definitionText a.cell p)).points := by
    intro p hp
    have hwords := a.isWords_parameters p hp
    have hword : ∀ t : Text, IsWord t → CodePoint.char '\n' ∉ t.points :=
      fun t ht hmem => (ht _ hmem).2 rfl
    simp only [Verilog.definitionText, ofString_append, points_append, List.mem_append, not_or]
    exact ⟨⟨⟨⟨⟨by decide, hword _ a.isWord_cell⟩, by decide⟩, hword _ hwords.1⟩, by decide⟩,
      hword _ hwords.2⟩
  have hpoints : (ofString a.definitions).points = [.char ',', .char '\n'].intercalate
      ((front.map fun p => (ofString (Verilog.definitionText a.cell p)).points) ++
        [(ofString (Verilog.definitionText a.cell last)).points]) ++ [.char ';'] ++
          .char '\n' :: [] := by
    simp only [definitions, h, ofString_append, points_append, points_ofString,
      String.toList_intercalate, map_intercalate, List.map_append, List.map_map]
    rw [List.append_assoc]
    rfl
  rw [hpoints, Verilog.splitOn_intercalate_append (by decide)]
  · simp
  · intro x hx
    obtain ⟨p, hp, rfl⟩ := List.mem_map.mp hx
    exact hnewline p (by simp [h, hp])
  · rw [List.mem_append, not_or]
    exact ⟨hnewline last (by simp [h]), by decide⟩

/-- The text of an instantiation reads back as its parameters. -/
theorem definitions_text (a : Altsyncram) :
    Verilog.definitions a.text = a.parameters.map fun p =>
      (ofString (a.cell ++ "." ++ p.1), ofString p.2) := by
  obtain ⟨front, last, hconnections⟩ := a.exists_last_connection
  obtain ⟨first, final, hparameters⟩ := a.exists_last_parameter
  have hskipped : ∀ line ∈ a.instantiationLines front last,
      (line != (ofString "defparam").points) = true :=
    fun line hline => bne_iff_ne.mpr (ne_keyword_of_mem hline)
  have hread : ∀ p ∈ a.parameters, ∀ ending : CodePoint,
      ending = .char ',' ∨ ending = .char ';' →
      Verilog.definition? ((ofString (Verilog.definitionText a.cell p)).points ++ [ending]) =
        some (ofString (a.cell ++ "." ++ p.1), ofString p.2) := by
    intro p hp ending hending
    obtain ⟨hkey, hvalue⟩ := a.isWords_parameters p hp
    exact Verilog.definition?_definitionText a.isWord_cell hkey hvalue hending
  have hkeyword : Verilog.definition? (ofString "defparam").points = none := by decide
  have hempty : Verilog.definition? [] = none := by decide
  have hfirst : (first.map fun p => (ofString (Verilog.definitionText a.cell p)).points ++
      [.char ',']).filterMap Verilog.definition? =
        first.map fun p => (ofString (a.cell ++ "." ++ p.1), ofString p.2) := by
    rw [List.filterMap_map, ← List.filterMap_eq_map]
    apply List.filterMap_congr
    intro p hp
    rw [Function.comp_apply, hread p (by simp [hparameters, hp]) (.char ',') (.inl rfl)]
    rfl
  rw [Verilog.definitions, splitOn_text hconnections, List.dropWhile_append_of_pos hskipped,
    List.dropWhile_cons_of_neg (by simp), List.filterMap_cons_none hkeyword,
    splitOn_definitions hparameters, List.filterMap_append, hfirst,
    List.filterMap_cons_some (hread final (by simp [hparameters]) (.char ';') (.inr rfl)),
    List.filterMap_cons_none hempty, List.filterMap_nil, hparameters, List.map_append,
    List.map_singleton]

private theorem parameter?_text (a : Altsyncram) (key : String) :
    Verilog.parameter? a.text a.cell key = (a.parameters.lookup key).map ofString := by
  rw [Verilog.parameter?, definitions_text]
  induction a.parameters with
  | nil => rfl
  | cons p rest ih =>
    have hkeys : (ofString (a.cell ++ "." ++ key) == ofString (a.cell ++ "." ++ p.1)) =
        (key == p.1) := by
      apply decide_eq_decide.mpr
      rw [ofString_inj]
      exact ⟨String.append_right_inj _ |>.mp, fun h => by rw [h]⟩
    rw [List.map_cons, List.lookup_cons, List.lookup_cons, hkeys]
    cases key == p.1 with
    | true => rfl
    | false => exact ih

private theorem lookup_init (a : Altsyncram) :
    a.parameters.lookup "init_file" =
      if a.shape.init.isEmpty then none else some (quote (InitFile.name a.id)) := by
  cases hdual : a.shape.dual <;> cases hinit : a.shape.init.isEmpty <;>
    simp [parameters, ifDual, perPort, suffixes, hdual, hinit, List.lookup]

private theorem lookup_width (a : Altsyncram) :
    a.parameters.lookup "width_a" = some (Numeral.decimal a.shape.dataWidth) := by
  cases hdual : a.shape.dual <;> cases hinit : a.shape.init.isEmpty <;>
    simp [parameters, ifDual, perPort, suffixes, hdual, hinit, List.lookup]

private theorem lookup_numwords (a : Altsyncram) :
    a.parameters.lookup "numwords_a" = some (Numeral.decimal a.shape.depth) := by
  cases hdual : a.shape.dual <;> cases hinit : a.shape.init.isEmpty <;>
    simp [parameters, ifDual, perPort, suffixes, hdual, hinit, List.lookup]

private theorem textParameter?_init (a : Altsyncram) :
    Verilog.textParameter? a.text a.cell "init_file" =
      if a.shape.init.isEmpty then none else some (ofString (InitFile.name a.id)) := by
  rw [Verilog.textParameter?, parameter?_text, lookup_init]
  split
  · rfl
  · have hpoints : (ofString (quote (InitFile.name a.id))).points =
        [.char '"'] ++ (ofString (InitFile.name a.id)).points ++ [.char '"'] := by
      simp [quote]
    rw [Option.map_some, Option.bind_some, hpoints, between?_append]
    rfl

private theorem numberParameter?_text (a : Altsyncram) {key : String} {n : Nat}
    (h : a.parameters.lookup key = some (Numeral.decimal n)) :
    Verilog.numberParameter? a.text a.cell key = some n := by
  rw [Verilog.numberParameter?, parameter?_text, h, Option.map_some, Option.bind_some,
    string?_ofString, Option.bind_some, Numeral.toList_decimal]
  exact Numeral.read?_decimal n

end Altsyncram

/-! ### The files of a prepared plan -/

/-- Does a plan match an instantiation? The instantiation names an initialisation file exactly if
the plan holds the file of its memory, by that very name, and both give the same width and depth. -/
structure Plan.Matches (p : Plan) (a : Altsyncram) : Prop where
  named : (Verilog.parameter? a.text a.cell "init_file").isSome ↔
    ofString (InitFile.name a.id) ∈ p.files.map Prod.fst
  file : (Verilog.parameter? a.text a.cell "init_file").isSome → ∃ content image,
    Verilog.textParameter? a.text a.cell "init_file" = some (InitFile.name a.id) ∧
      (ofString (InitFile.name a.id), .text (ofString content)) ∈ p.files ∧
      InitFile.image? content.toList = some image ∧
      Verilog.numberParameter? a.text a.cell "width_a" = some image.width ∧
      Verilog.numberParameter? a.text a.cell "numwords_a" = some image.depth

private theorem infix_intercalate {α : Type} {separator x : List α} {xs : List (List α)}
    (h : x ∈ xs) :
    x <:+: separator.intercalate xs := by
  induction xs with
  | nil => cases h
  | cons y rest ih =>
    by_cases hrest : rest = []
    · rw [hrest, List.mem_singleton] at h
      rw [hrest, h, List.intercalate_singleton]
    · rw [List.intercalate_cons_of_ne_nil hrest]
      rcases List.mem_cons.mp h with rfl | h
      · rw [List.append_assoc]
        exact (List.prefix_append ..).isInfix
      · exact (ih h).trans (List.suffix_append ..).isInfix

namespace Netlist

variable {n : Netlist} {d : Dialect} {name done : Value} {base source : Text} {vendor python : Bool}
  {script : Option Text} {i : Instance}

private theorem map_fst_initTexts [Machine] (n : Netlist) :
    (n.initTexts.map fun f => ofString f.1) =
      (n.instances.filter (·.initialised?.isSome)).map fun i => ofString (InitFile.name i.id) := by
  unfold initTexts
  induction n.instances with
  | nil => rfl
  | cons i rest ih =>
    cases hinit : i.initialised? with
    | none =>
      rw [List.filterMap_cons_none (by simp [InitFile.file?, hinit]),
        List.filter_cons_of_neg (by simp [hinit]), ih]
    | some shape =>
      rw [List.filterMap_cons_some (b := (InitFile.name i.id, InitFile.text shape))
        (by simp [InitFile.file?, hinit]), List.filter_cons_of_pos (by simp [hinit]),
        List.map_cons, List.map_cons, ih]

private theorem exists_block [Machine] (h : n.source d name done = .ok source)
    (hi : i ∈ n.instances) (hmemory : i.isMemory = true) : ∃ a, Altsyncram.block? i = some a := by
  obtain ⟨c, hic, -, hdepth⟩ := exists_component h hi
  rw [Instance.isMemory_eq hic, (Component.ofInstance_ok hic).2.2.1.isMemory_eq] at hmemory
  obtain ⟨shape, ports, hcell, -⟩ := Component.exists_ports hic hmemory
  exact ⟨_, Altsyncram.block?_of_memory hic hcell (hdepth shape ports hcell)⟩

private theorem of_block [Machine] (h : n.source d name done = .ok source) (hi : i ∈ n.instances)
    {a : Altsyncram} (ha : Altsyncram.block? i = some a) :
    i.isMemory = true ∧ a.id = i.id ∧ MemoryShape.ofInstance i = .ok a.shape := by
  obtain ⟨c, hic, -, hdepth⟩ := exists_component h hi
  cases hmemory : c.kind.isMemory with
  | false => cases ha.symm.trans (Altsyncram.block?_of_not_memory hic hmemory)
  | true =>
    obtain ⟨shape, ports, hcell, hshape, -⟩ := Component.exists_ports hic hmemory
    cases ha.symm.trans (Altsyncram.block?_of_memory hic hcell (hdepth shape ports hcell))
    refine ⟨?_, rfl, hshape⟩
    rw [Instance.isMemory_eq hic, (Component.ofInstance_ok hic).2.2.1.isMemory_eq, hmemory]

private theorem blocks_ne_nil_iff [Machine] (h : n.source d name done = .ok source) :
    n.blocks ≠ [] ↔ n.instances.any Instance.isMemory = true := by
  rw [List.any_eq_true]
  constructor
  · intro hne
    obtain ⟨a, ha⟩ := List.exists_mem_of_ne_nil _ hne
    obtain ⟨i, hi, hblock⟩ := List.mem_filterMap.mp ha
    exact ⟨i, hi, (of_block h hi hblock).1⟩
  · rintro ⟨i, hi, hmemory⟩
    obtain ⟨a, ha⟩ := exists_block h hi hmemory
    exact List.ne_nil_of_mem (List.mem_filterMap.mpr ⟨i, hi, ha⟩)

private theorem mem_artifacts_of_initialised [Machine] (hi : i ∈ n.instances) {shape : MemoryShape}
    (hshape : i.initialised? = some shape) :
    (ofString (InitFile.name i.id), ofString (InitFile.text shape)) ∈
      n.artifacts base source vendor script := by
  have hmem : (InitFile.name i.id, InitFile.text shape) ∈ n.initTexts :=
    mem_initTexts.mpr ⟨i, hi, shape, hshape, rfl⟩
  have htexts := List.mem_map_of_mem (f := fun f : String × String => (ofString f.1, ofString f.2))
    hmem
  -- Otherwise the long texts are unfolded to compare them under the projections.
  dsimp only at htexts
  rw [artifacts, List.append_assoc, List.append_assoc, List.mem_append, List.mem_append]
  exact .inr (.inl htexts)

private theorem mem_artifacts_of_block [Machine] {a : Altsyncram} (ha : a ∈ n.blocks) :
    (base ++ ofString "_altsyncram.v", vendorHeader ++ n.blocksText) ∈
      n.artifacts base source true script := by
  have hblocks : n.blocks ≠ [] := List.ne_nil_of_mem ha
  simp [artifacts, vendorTexts, hblocks]

/-- Only memories with initial values have an initialisation file. -/
theorem isSome_of_mem_artifacts [Machine] (hi : i ∈ n.instances)
    (hname : ofString (InitFile.name i.id) ∈
      (n.artifacts base source vendor script).map Prod.fst) : i.initialised?.isSome := by
  have hendings : ∀ ending ∈ [".c", "_altsyncram.v", ".py"], ending.toList ≠ [] ∧
      (ending.toList.map CodePoint.char).getLast? ≠ some (.char 'f') := by
    decide
  obtain ⟨f, hf, hname⟩ := List.mem_map.mp hname
  refine forall_name_artifacts (P := fun t => t = ofString (InitFile.name i.id) →
    i.initialised?.isSome) ?_ ?_ hf hname
  · intro ending hending heq
    obtain ⟨hne, hlast⟩ := hendings ending hending
    have hbase : (base ++ ofString ending).points.getLast? = _ := getLast?_append hne
    rw [← hbase, heq, InitFile.getLast?_name] at hlast
    exact absurd rfl hlast
  · intro j hj hinit heq
    have hid := InitFile.name_inj (ofString_inj.mp heq)
    rwa [← eq_of_id_eq hj hi (congrArg Index.value hid)]

/-- A prepared plan matches the instantiation of each memory. -/
theorem matches_of_block [Machine] (h : n.source d name done = .ok source) (hi : i ∈ n.instances)
    {a : Altsyncram} (ha : Altsyncram.block? i = some a) {p : Plan}
    (hp : p.files = Plan.ofTexts (n.artifacts base source vendor script)) : p.Matches a := by
  obtain ⟨-, hid, hshape⟩ := of_block h hi ha
  have hinit : i.initialised? = if a.shape.init.isEmpty then none else some a.shape := by
    unfold Instance.initialised?
    rw [hshape]
    cases hempty : a.shape.init.isEmpty <;> simp [Except.toOption, Option.filter, hempty]
  have hnamed : (Verilog.parameter? a.text a.cell "init_file").isSome = i.initialised?.isSome := by
    rw [Altsyncram.parameter?_text, Altsyncram.lookup_init, hinit]
    cases a.shape.init.isEmpty <;> rfl
  constructor
  · rw [hnamed, hp, Plan.map_fst_ofTexts, hid]
    constructor
    · intro hsome
      obtain ⟨shape, hshape⟩ := Option.isSome_iff_exists.mp hsome
      exact List.mem_map.mpr ⟨_, mem_artifacts_of_initialised hi hshape, rfl⟩
    · exact isSome_of_mem_artifacts hi
  · intro hsome
    rw [hnamed, hinit] at hsome
    cases hempty : a.shape.init.isEmpty with
    | true =>
      rw [hempty] at hsome
      cases hsome
    | false =>
      rw [hempty] at hinit
      refine ⟨InitFile.text a.shape, _, ?_, ?_, InitFile.image?_text a.shape,
        a.numberParameter?_text a.lookup_width, a.numberParameter?_text a.lookup_numwords⟩
      · rw [Altsyncram.textParameter?_init, hempty]
        rfl
      · rw [hp, hid]
        exact Plan.mem_ofTexts (mem_artifacts_of_initialised hi hinit)

private theorem isString_of_mem_artifacts [Machine] (hbase : base.isIdentifier = true)
    {f : Text × Text} (hf : f ∈ n.artifacts base source vendor script) : f.1.IsString := by
  refine forall_name_artifacts (fun ending _ => ?_) (fun i _ _ => isString_ofString _) hf
  simp [isString_of_isIdentifier hbase]

/-- The artifacts of a netlist are files in one directory. -/
theorem isFlat_artifacts [Machine] (h : n.source .c (.text base) done = .ok source)
    (hscript : n.script (.text base) done python = .ok script) :
    Plan.IsFlat (Plan.ofTexts (n.artifacts base source vendor script)) := by
  obtain ⟨-, -, title, -, htitle, hallows, -⟩ := source_eq_ok h
  cases htitle
  have hmem : ∀ f ∈ Plan.ofTexts (n.artifacts base source vendor script),
      ∃ g ∈ n.artifacts base source vendor script, f = (g.1, .text g.2) := by
    intro f hf
    obtain ⟨g, hg, rfl⟩ := List.mem_map.mp hf
    exact ⟨g, hg, rfl⟩
  constructor
  · intro f hf
    obtain ⟨g, hg, rfl⟩ := hmem f hf
    exact isFileName_of_mem_artifacts hallows.identifier hg
  · intro f hf
    obtain ⟨g, hg, rfl⟩ := hmem f hf
    exact isString_of_mem_artifacts hallows.identifier hg
  · intro f hf
    obtain ⟨g, hg, rfl⟩ := hmem f hf
    exact exists_utf8_of_mem_artifacts h hscript hg

private theorem infix_blocksText [Machine] {a : Altsyncram} (ha : a ∈ n.blocks) :
    a.text.points <:+: n.blocksText.points := by
  rw [blocksText, Path.points_intercalate, List.map_map]
  exact infix_intercalate (List.mem_map.mpr ⟨a, ha, rfl⟩)

/-- What a prepared plan holds. -/
theorem prepare_eq_ok [Machine] {s : Settings} {env : Environment} {p : Plan}
    (h : (n.prepare name s env).2 = .ok p) :
    ∃ base source vendor script, name = .text base ∧ s.vendorIn env = .ok vendor ∧
      n.source .c (.text base) (s.doneIn env) = .ok source ∧
      n.script (.text base) (s.doneIn env) s.python = .ok script ∧
      p.files = Plan.ofTexts (n.artifacts base source vendor script) := by
  cases hvendor : s.vendorIn env with
  | error e =>
    unfold prepare at h
    rw [hvendor] at h
    cases h
  | ok vendor =>
    rw [prepare_snd hvendor] at h
    obtain ⟨source, hsource, -⟩ := bind_eq_ok.mp h
    obtain ⟨-, -, base, -, rfl, -⟩ := source_eq_ok hsource
    have hplan := plan_eq hsource vendor s.python
    rw [h] at hplan
    obtain ⟨-, -, hrest⟩ := bind_eq_ok.mp hplan.symm
    obtain ⟨script, hscript, hfiles⟩ := map_eq_ok.mp hrest
    exact ⟨base, source, vendor, script, rfl, rfl, hsource, hscript, hfiles.symm⟩

private theorem isSome_script [Machine]
    (h : n.script name done python = .ok script) : script.isSome = python := by
  unfold Netlist.script at h
  cases python with
  | false =>
    cases h
    rfl
  | true =>
    obtain ⟨source, -, rfl⟩ := map_eq_ok.mp h
    rfl

/-- A prepared plan is complete and safe to extract. Its files are the C procedure, an
initialisation file for each memory with initial values, the file of the instantiations if it is
asked for and there is a memory, and the Python procedure if that is asked for. Each memory has an
instantiation, which the plan matches, and which stands in the file of the instantiations if there
is one. -/
theorem prepare_isComplete [Machine] (n : Netlist) (name : Value) (s : Settings) (env : Environment)
    {p : Plan} (h : (n.prepare name s env).2 = .ok p) :
    ∃ base vendor, name = .text base ∧ s.vendorIn env = .ok vendor ∧
      p.files.map Prod.fst = [base ++ ".c"] ++
        ((n.instances.filter (·.initialised?.isSome)).map fun i => ofString (InitFile.name i.id)) ++
        (if vendor && n.instances.any Instance.isMemory then [base ++ "_altsyncram.v"] else []) ++
        (if s.python then [base ++ ".py"] else []) ∧
      p.IsSafe ∧
      ∀ i ∈ n.instances, i.isMemory = true → ∃ a, Altsyncram.ofInstance i = .ok a ∧ a.id = i.id ∧
        p.Matches a ∧ (vendor = true → ∃ content,
          (base ++ ofString "_altsyncram.v", .text content) ∈ p.files ∧
            a.text.points <:+: content.points) := by
  obtain ⟨base, source, vendor, script, rfl, hvendor, hsource, hscript, hfiles⟩ := prepare_eq_ok h
  refine ⟨base, vendor, rfl, hvendor, ?_, ?_, ?_⟩
  · rw [hfiles, Plan.map_fst_ofTexts, map_fst_artifacts, map_fst_initTexts, isSome_script hscript]
    simp only [blocks_ne_nil_iff hsource, Bool.and_eq_true]
  · apply Plan.IsFlat.isSafe
    rw [hfiles]
    exact isFlat_artifacts hsource hscript
  · intro i hi hmemory
    obtain ⟨a, ha⟩ := exists_block hsource hi hmemory
    obtain ⟨-, hid, -⟩ := of_block hsource hi ha
    refine ⟨a, Altsyncram.block?_eq_some.mp ha, hid, matches_of_block hsource hi ha hfiles, ?_⟩
    rintro rfl
    have hblocks : a ∈ n.blocks := List.mem_filterMap.mpr ⟨i, hi, ha⟩
    refine ⟨vendorHeader ++ n.blocksText, ?_, ?_⟩
    · rw [hfiles]
      exact Plan.mem_ofTexts (mem_artifacts_of_block hblocks)
    · rw [points_append]
      exact (infix_blocksText hblocks).trans (List.suffix_append ..).isInfix

open Desktop in
/-- With all artifacts asked for, a memory of two locations has four of them. -/
theorem firstSet_isComplete :
    ∃ p, ((firstSet 1).prepare (.text "top") ⟨.text "done", .bool true, true⟩ []).2 = .ok p ∧
      p.files.map Prod.fst = [↑"top.c", ↑"ram_c1.mif", ↑"top_altsyncram.v", ↑"top.py"] ∧
      p.IsSafe := by
  obtain ⟨source, hsource⟩ := firstSet_source .c
  obtain ⟨p, hp⟩ := (exists_plan_iff hsource true true).mpr
    ⟨fun _ => firstSet_source .python, firstSet_holdsContents⟩
  obtain ⟨base, vendor, hbase, hvendor, hnames, hsafe, -⟩ := prepare_isComplete (firstSet 1)
    (.text "top") ⟨.text "done", .bool true, true⟩ [] hp
  cases hbase
  cases hvendor
  refine ⟨p, hp, hnames.trans ?_, hsafe⟩
  cbv

end Netlist

end Latchwork
