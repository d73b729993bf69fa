import Latchwork.Plan.Prepare
import Latchwork.Proofs.BusOrder
import Latchwork.Proofs.Confinement
import Latchwork.Proofs.Diagnosis
import Latchwork.Proofs.InitialContents

/-!
# The artifacts of a compiled netlist

Once a netlist has its C procedure, little can go wrong with the other files of its plan. Its
memories have passed all checks, so their instantiations are made, and the names of the files are
distinct and can all be added. What is left is the size of an initialisation file, which has a line
for each location, and what the Python procedure asks for.
-/

namespace Latchwork

open Outcome

private theorem Outcome.map_flatten_mapM {ε α β : Type} {f : α → Except ε (List β)}
    {g : α → Option β} {xs : List α} (h : ∀ x ∈ xs, f x = .ok (g x).toList) :
    (xs.mapM f).map List.flatten = .ok (xs.filterMap g) := by
  have hresults : xs.mapM f = .ok (xs.map fun x => (g x).toList) := by
    rw [mapM_eq_ok, List.map_map]
    exact List.map_congr_left h
  rw [hresults, List.filterMap_eq_flatMap_toList, List.flatMap_def]
  rfl

theorem Outcome.map_eq_error {ε α β : Type} {x : Except ε α} {f : α → β} {e : ε} :
    x.map f = .error e ↔ x = .error e := by
  cases x with
  | error cause => simp [Except.map]
  | ok a => simp [Except.map]

/-! ### What compilation has checked -/

namespace Schedule

variable {s : Schedule} {d : Dialect}

theorem allows_input (h : s.checkInputNames d = .ok ()) {c : Component}
    (hc : c ∈ s.components) {t : Text} (ht : c.cell = .input t) : d.Allows t := by
  have hcheck := forM_eq_ok.mp h c hc
  simp only [Component.inputName?, ht] at hcheck
  exact Dialect.allows_of_checkName hcheck

/-- The inputs of a schedule whose names pass their check are allowed. -/
theorem allows_inputs (h : s.checkInputNames d = .ok ()) {t : Text} (ht : t ∈ s.inputs) :
    d.Allows t := by
  obtain ⟨c, hc, hname⟩ := List.mem_filterMap.mp (List.mem_eraseDups.mp ht)
  unfold Component.inputName? at hname
  split at hname
  · next hcell =>
    cases hname
    exact allows_input h hc hcell
  · cases hname

end Schedule

namespace Netlist

variable {n : Netlist} {d : Dialect} {name done : Value} {source : Text}

/-- A netlist with a procedure has a schedule, an allowed name, and numbers that can be written. -/
theorem source_eq_ok [Machine] (h : n.source d name done = .ok source) :
    ∃ s exit title, n.schedule = .ok s ∧ name = .text title ∧ d.Allows title ∧
      s.checkInputNames d = .ok () ∧ n.checkNumerals s = .ok () ∧
      source = (s.procedure d title n.outputs exit).source d := by
  obtain ⟨p, hp, rfl⟩ := map_eq_ok.mp h
  unfold compile at hp
  obtain ⟨s, hs, hp⟩ := bind_eq_ok.mp hp
  obtain ⟨exit, -, hp⟩ := bind_eq_ok.mp hp
  obtain ⟨title, htitle, hp⟩ := bind_eq_ok.mp hp
  obtain ⟨⟨⟩, hinputs, hp⟩ := bind_eq_ok.mp hp
  dsimp only at hp
  split at hp
  · cases hp
  obtain ⟨⟨⟩, hnumerals, hp⟩ := bind_eq_ok.mp hp
  cases hp
  unfold Dialect.circuitName at htitle
  split at htitle
  · obtain ⟨⟨⟩, hname, rfl⟩ := map_eq_ok.mp htitle
    exact ⟨s, exit, _, hs, rfl, Dialect.allows_of_checkName hname, hinputs, hnumerals, rfl⟩
  · cases htitle

/-- The instances of a netlist with a procedure pass their check, and their numbers can be written,
also the number of locations of a memory. -/
theorem exists_component [Machine] (h : n.source d name done = .ok source) {i : Instance}
    (hi : i ∈ n.instances) :
    ∃ c, Component.ofInstance i = .ok c ∧ i.IsShort ∧
      ∀ shape ports, c.cell = .memory shape ports → shape.addressWidth < Numeral.digitBits := by
  obtain ⟨s, -, -, hs, -, -, -, hnumerals, -⟩ := source_eq_ok h
  obtain ⟨-, hshort, hdepths⟩ := checkNumerals_eq_ok.mp hnumerals
  obtain ⟨c, hc, hic⟩ := exists_result (schedule_ok hs).2.1 hi
  exact ⟨c, hic, hshort.instances i hi, hdepths c hc⟩

end Netlist

/-! ### Initialisation files -/

/-- The shape of a memory that has initial values. -/
def Instance.initialised? [Machine] (i : Instance) : Option MemoryShape :=
  (MemoryShape.ofInstance i).toOption.filter fun shape => !shape.init.isEmpty

private theorem Instance.initialised?_eq_some [Machine] {i : Instance} {shape : MemoryShape} :
    i.initialised? = some shape ↔ MemoryShape.ofInstance i = .ok shape ∧ shape.init ≠ [] := by
  unfold initialised?
  cases MemoryShape.ofInstance i with
  | error e => simp [Except.toOption]
  | ok s =>
    simp only [Except.toOption, Option.filter_eq_some_iff, Option.some.injEq, Except.ok.injEq]
    exact and_congr_right fun _ => by simp

namespace InitFile

/-- The file of an instance, if it is a memory with initial values. -/
def file? [Machine] (i : Instance) : Option (String × String) :=
  i.initialised?.map fun shape => (name i.id, text shape)

/-- The file that an instance needs is made unless the contents cannot be held, if its name can be
written. -/
theorem needed_eq [Machine] {i : Instance} {c : Component} (h : Component.ofInstance i = .ok c)
    (hshort : i.id.IsShort) :
    needed i = (i.initialised?.elim (.ok ()) MemoryShape.checkPadding).map fun _ =>
      (file? i).toList := by
  obtain ⟨-, hkind, -, -⟩ := Component.ofInstance_ok h
  unfold needed file?
  rw [hkind]
  cases hmemory : c.kind.isMemory with
  | false =>
    have hnone : i.initialised? = none := by
      apply Option.eq_none_iff_forall_not_mem.mpr
      intro shape hshape
      obtain ⟨kind, hkind', hmemory', -⟩ :=
        MemoryShape.ofInstance_ok (Instance.initialised?_eq_some.mp hshape).1
      cases hkind.symm.trans hkind'
      cases hmemory.symm.trans hmemory'
    rw [hnone]
    show (if c.kind.isMemory = true then _ else _) = _
    rw [hmemory]
    rfl
  | true =>
    obtain ⟨shape, ports, -, hshape, -, -⟩ := Component.exists_ports h hmemory
    show (if c.kind.isMemory = true then _ else _) = _
    rw [hmemory, if_pos rfl, hshape]
    show (if shape.init.isEmpty = true then _ else _) = _
    by_cases hinit : shape.init = []
    · have hnone : i.initialised? = none := by
        simp [Instance.initialised?, hshape, Except.toOption, hinit]
      rw [hnone, hinit]
      rfl
    · rw [Instance.initialised?_eq_some.mpr ⟨hshape, hinit⟩, if_neg (by simpa using hinit)]
      have hname : writtenName i.id = .ok (name i.id) := Numeral.written_eq_ok.mpr ⟨hshort, rfl⟩
      unfold ofShape
      rw [hname, Option.elim_some]
      cases shape.checkPadding <;> rfl

end InitFile

namespace Netlist

variable {n : Netlist} {d : Dialect} {name done : Value} {source : Text}

/-- Can the contents of all memories with initial values be held? -/
def HoldsContents [Machine] (n : Netlist) : Prop :=
  ∀ i ∈ n.instances, ∀ shape, MemoryShape.ofInstance i = .ok shape → shape.init ≠ [] → shape.IsHeld

/-- The files of the memories with initial values, in order. -/
def initTexts [Machine] (n : Netlist) : List
    (String × String) := n.instances.filterMap InitFile.file?

private theorem initFiles_eq [Machine] (h : n.source d name done = .ok source)
    (hheld : n.HoldsContents) :
    n.initFiles = .ok n.initTexts := by
  apply map_flatten_mapM
  intro i hi
  obtain ⟨c, hic, hshort, -⟩ := exists_component h hi
  rw [InitFile.needed_eq hic hshort.id]
  cases hinit : i.initialised? with
  | none => rfl
  | some shape =>
    obtain ⟨hshape, hne⟩ := Instance.initialised?_eq_some.mp hinit
    rw [Option.elim_some, MemoryShape.checkPadding_eq_ok_iff.mpr (hheld i hi shape hshape hne)]
    rfl

/-- If there are no files, the contents of some memory cannot be held. -/
theorem initFiles_eq_error [Machine] (h : n.source d name done = .ok source) {e : Error}
    (he : n.initFiles = .error e) :
    ¬n.HoldsContents ∧ (e = .numberTooLarge ∨ e = .outOfMemory) := by
  constructor
  · intro hheld
    cases he.symm.trans (initFiles_eq h hheld)
  · obtain ⟨before, i, after, hsplit, -, hi⟩ := mapM_eq_error (map_eq_error.mp he)
    obtain ⟨c, hic, hshort, -⟩ := exists_component h (i := i) (by simp [hsplit])
    rw [InitFile.needed_eq hic hshort.id, map_eq_error] at hi
    cases hinit : i.initialised? with
    | none =>
      rw [hinit] at hi
      cases hi
    | some shape =>
      rw [hinit, Option.elim_some] at hi
      exact MemoryShape.checkPadding_eq_error hi

private theorem holdsContents_iff [Machine] (h : n.source d name done = .ok source) :
    (∃ files, n.initFiles = .ok files) ↔ n.HoldsContents := by
  constructor
  · rintro ⟨files, hfiles⟩ i hi shape hshape hne
    obtain ⟨results, hresults, -⟩ := map_eq_ok.mp hfiles
    obtain ⟨file, -, hfile⟩ := exists_result hresults hi
    obtain ⟨c, hic, hshort, -⟩ := exists_component h hi
    rw [InitFile.needed_eq hic hshort.id, Instance.initialised?_eq_some.mpr ⟨hshape, hne⟩,
      Option.elim_some] at hfile
    obtain ⟨⟨⟩, hcheck, -⟩ := map_eq_ok.mp hfile
    exact MemoryShape.checkPadding_eq_ok_iff.mp hcheck
  · intro hheld
    exact ⟨_, initFiles_eq h hheld⟩

end Netlist

/-! ### Vendor instantiations -/

/-- The wires of a port can be written if the numbers of its instance can. -/
theorem MemoryShape.IsPort.isShort {shape : MemoryShape} {i : Instance} {k : Nat}
    {port : MemoryPort} (h : shape.IsPort i k port) (hk : k < shape.portCount)
    (houtputs : i.outputCount.value = shape.outputCount) (hi : i.IsShort) :
    ∀ w ∈ port.enable :: port.data ++ port.address ++ port.output, w.IsShort := by
  have hinput : ∀ (place : Nat) (w : Wire), i.inputs[place]? = some w → w.IsShort := fun _ w hw =>
    hi.inputs w (List.mem_of_getElem? hw)
  intro w hw
  rcases List.mem_append.mp hw with hw | hw
  · rcases List.mem_append.mp hw with hw | hw
    · rcases List.mem_cons.mp hw with rfl | hw
      · exact hinput _ _ h.enable
      · obtain ⟨b, hb⟩ := List.getElem?_of_mem hw
        exact hinput _ w (h.data b w hb)
    · obtain ⟨b, hb⟩ := List.getElem?_of_mem hw
      exact hinput _ w (h.address b w hb)
  · obtain ⟨b, hb⟩ := List.getElem?_of_mem hw
    have hlt : b < shape.dataWidth := by
      rw [← h.length_output]
      exact (List.getElem?_eq_some_iff.mp hb).1
    have hplace : k * shape.dataWidth + b < i.outputCount.value := by
      have hle := Nat.mul_le_mul_right shape.dataWidth (Nat.succ_le_of_lt hk)
      rw [Nat.succ_mul] at hle
      rw [houtputs, outputCount]
      omega
    rw [h.output b w hb]
    exact ⟨hi.id, hi.outputCount.mono hplace.le⟩

namespace Altsyncram

/-- The instantiation of an instance, if it is a memory. -/
def block? [Machine] (i : Instance) : Option Altsyncram := (ofInstance i).toOption

theorem block?_eq_some [Machine] {i : Instance} {a : Altsyncram} :
    block? i = some a ↔ ofInstance i = .ok a := by
  unfold block?
  cases ofInstance i <;> simp [Except.toOption]

/-- The instantiation of a memory whose number of locations can be written. -/
theorem block?_of_memory [Machine] {i : Instance} {c : Component}
    (h : Component.ofInstance i = .ok c)
    {shape : MemoryShape} {ports : List MemoryPort} (hcell : c.cell = .memory shape ports)
    (hdepth : shape.addressWidth < Numeral.digitBits) :
    block? i = some ⟨i.id, c.kind, shape, ports⟩ := by
  rw [block?_eq_some, ofInstance_eq h hcell, if_pos hdepth, (Component.ofInstance_ok h).1]

/-- What is no memory has no instantiation. -/
theorem block?_of_not_memory [Machine] {i : Instance} {c : Component}
    (h : Component.ofInstance i = .ok c) (hmemory : c.kind.isMemory = false) : block? i = none := by
  obtain ⟨-, -, hfor, -⟩ := Component.ofInstance_ok h
  rw [← hfor.isMemory_eq] at hmemory
  obtain ⟨kind, hkind, h⟩ := bind_eq_ok.mp h
  obtain ⟨cell, hmade, h⟩ := bind_eq_ok.mp h
  cases h
  unfold block? ofInstance
  rw [hkind, hmade]
  cases cell with
  | memory shape ports => cases hmemory
  | _ => rfl

/-- The instantiation that an instance needs is made. -/
theorem needed_eq [Machine] {i : Instance} {c : Component} (h : Component.ofInstance i = .ok c)
    (hdepth : ∀ shape ports, c.cell = .memory shape ports →
      shape.addressWidth < Numeral.digitBits) : needed i = .ok (block? i).toList := by
  obtain ⟨-, hkind, -, -⟩ := Component.ofInstance_ok h
  unfold needed
  rw [hkind]
  show (if c.kind.isMemory = true then _ else _) = _
  cases hmemory : c.kind.isMemory with
  | false =>
    rw [block?_of_not_memory h hmemory]
    rfl
  | true =>
    obtain ⟨shape, ports, hcell, -⟩ := Component.exists_ports h hmemory
    have hblock := block?_of_memory h hcell (hdepth shape ports hcell)
    rw [hblock, block?_eq_some.mp hblock]
    rfl

/-- The instantiation of an instance whose numbers can be written can be written. -/
theorem written_eq [Machine] {i : Instance} {c : Component} (h : Component.ofInstance i = .ok c)
    (hi : i.IsShort) {a : Altsyncram} (ha : block? i = some a) : a.written = .ok a.text := by
  refine Numeral.written_eq_ok.mpr ⟨?_, rfl⟩
  obtain ⟨-, -, hfor, houtputs⟩ := Component.ofInstance_ok h
  cases hmemory : c.kind.isMemory with
  | false => cases ha.symm.trans (block?_of_not_memory h hmemory)
  | true =>
    obtain ⟨shape, ports, hcell, -, hlength, rfl⟩ := Component.exists_ports h hmemory
    rw [hcell] at houtputs
    rw [block?_eq_some, ofInstance_eq h hcell] at ha
    split at ha
    · cases ha
      refine List.forall_mem_append.mpr ⟨?_, ?_⟩
      · rw [(Component.ofInstance_ok h).1]
        exact hi.id
      · intro number hnumber
        obtain ⟨port, hport, hnumber⟩ := List.mem_flatMap.mp hnumber
        obtain ⟨w, hw, hnumber⟩ := List.mem_flatMap.mp hnumber
        obtain ⟨k, hk⟩ := List.mem_iff_getElem?.mp hport
        obtain ⟨hlt, hplaces⟩ := MemoryShape.isPort_of_getElem? hlength hk
        exact Wire.isShort_iff.mp (hplaces.isShort hlt houtputs hi w hw) number hnumber
    · cases ha

private theorem points_text_ne_nil (a : Altsyncram) : a.text.points ≠ [] := by
  rw [points_text]
  simp

end Altsyncram

namespace Netlist

variable {n : Netlist} {d : Dialect} {name done : Value} {source : Text}

/-- The instantiations of the memories, in order. -/
def blocks [Machine] (n : Netlist) : List Altsyncram := n.instances.filterMap Altsyncram.block?

private theorem altsyncrams_eq [Machine]
    (h : n.source d name done = .ok source) : n.altsyncrams = .ok n.blocks := by
  apply map_flatten_mapM
  intro i hi
  obtain ⟨c, hic, -, hdepth⟩ := exists_component h hi
  exact Altsyncram.needed_eq hic hdepth

/-- The text of all instantiations. -/
def blocksText [Machine] (n : Netlist) : Text := .intercalate "\n" (n.blocks.map Altsyncram.text)

private theorem altsyncramText_eq [Machine] (h : n.source d name done = .ok source) :
    n.altsyncramText = .ok n.blocksText := by
  have hwritten : n.blocks.mapM Altsyncram.written = .ok (n.blocks.map Altsyncram.text) := by
    rw [mapM_eq_ok, List.map_map]
    refine List.map_congr_left fun a ha => ?_
    obtain ⟨i, hi, hblock⟩ := List.mem_filterMap.mp ha
    obtain ⟨c, hic, hshort, -⟩ := exists_component h hi
    exact Altsyncram.written_eq hic hshort hblock
  unfold altsyncramText
  rw [altsyncrams_eq h]
  show (n.blocks.mapM Altsyncram.written).bind _ = _
  rw [hwritten]
  rfl

private theorem isEmpty_blocksText [Machine] (n : Netlist) :
    n.blocksText.isEmpty = n.blocks.isEmpty := by
  unfold blocksText
  cases n.blocks with
  | nil => rfl
  | cons a rest =>
    obtain ⟨point, points, hpoints⟩ := List.exists_cons_of_ne_nil a.points_text_ne_nil
    cases rest <;> simp [Text.intercalate, Text.isEmpty, hpoints]

/-- The file of the instantiations, if there are any. -/
def vendorTexts [Machine] (n : Netlist) (base : Text) : List (Text × Text) :=
  if n.blocks.isEmpty then [] else [(base ++ "_altsyncram.v", vendorHeader ++ n.blocksText)]

private theorem vendorFiles_eq [Machine] (h : n.source d name done = .ok source) (base : Text) :
    n.vendorFiles base = .ok (n.vendorTexts base) := by
  unfold vendorFiles vendorTexts
  rw [altsyncramText_eq h]
  show Except.ok (if n.blocksText.isEmpty = true then _ else _) = _
  rw [isEmpty_blocksText]

end Netlist

/-! ### Names of files -/

/-- Is the text a name of a file in a directory? It has no separators, no null character, and no
point at its end. -/
structure Text.IsFileName (t : Text) : Prop where
  slash : .char '/' ∉ t.points
  backslash : .char '\\' ∉ t.points
  null : .char '\x00' ∉ t.points
  nonempty : t.points ≠ []
  ending : t.points.getLast? ≠ some (.char '.')

namespace Text.IsFileName

instance (t : Text) : Decidable t.IsFileName :=
  decidable_of_iff (.char '/' ∉ t.points ∧ .char '\\' ∉ t.points ∧ .char '\x00' ∉ t.points ∧
      t.points ≠ [] ∧ t.points.getLast? ≠ some (.char '.'))
    ⟨fun ⟨hslash, hbackslash, hnull, hne, hending⟩ => ⟨hslash, hbackslash, hnull, hne, hending⟩,
      fun h => ⟨h.slash, h.backslash, h.null, h.nonempty, h.ending⟩⟩

private theorem append {s t : Text} (hslash : .char '/' ∉ s.points)
    (hbackslash : .char '\\' ∉ s.points)
    (hnull : .char '\x00' ∉ s.points) (ht : t.IsFileName) : (s ++ t).IsFileName where
  slash := by simp [hslash, ht.slash]
  backslash := by simp [hbackslash, ht.backslash]
  null := by simp [hnull, ht.null]
  nonempty := by simp [ht.nonempty]
  ending := by
    rw [points_append, List.getLast?_append_of_ne_nil _ ht.nonempty]
    exact ht.ending

/-- A name without separators is not absolute. -/
theorem isAbsoluteName_eq {t : Text} (h : t.IsFileName) : isAbsoluteName t = false := by
  have hslash := h.slash
  have hbackslash := h.backslash
  have hpath : (t.points.map fun p => if p == .char '/' then .char '\\' else p) = t.points := by
    conv_rhs => rw [← List.map_id t.points]
    apply List.map_congr_left
    intro p hp
    have hne : p ≠ .char '/' := fun heq => hslash (heq ▸ hp)
    simp [hne]
  have hopening : ∀ opening : List CodePoint, .char '\\' ∈ opening →
      opening.isPrefixOf t.points = false := by
    intro opening hmem
    apply Bool.eq_false_iff.mpr
    intro hstart
    exact hbackslash ((List.isPrefixOf_iff_prefix.mp hstart).subset hmem)
  unfold isAbsoluteName
  rw [hpath]
  dsimp only
  rw [hopening _ (by decide), hopening _ (by decide)]
  generalize t.points = points at hslash hbackslash
  have hhead : (points.head? == some (.char '/')) = false := by
    apply beq_false_of_ne
    intro heq
    exact hslash (List.mem_of_mem_head? heq)
  have hshare : isNetworkShare points = false := by
    unfold isNetworkShare
    split
    · simp at hbackslash
    · rfl
  have hdrive : isDriveRoot points = false := by
    unfold isDriveRoot
    split
    · simp at hbackslash
    · rfl
  simp [hhead, hshare, hdrive]

end Text.IsFileName

private theorem Text.isFileName_append {base ending : Text} (hbase : base.isIdentifier = true)
    (hending : ending.IsFileName) : (base ++ ending).IsFileName :=
  .append (not_mem_of_isIdentifier hbase (by decide)) (not_mem_of_isIdentifier hbase (by decide))
    (not_mem_of_isIdentifier hbase (by decide)) hending

theorem Text.getLast?_append {stem : Text} {ending : String} (h : ending.toList ≠ []) :
    (stem ++ ending).points.getLast? = (ending.toList.map CodePoint.char).getLast? := by
  rw [points_append, points_ofString, List.getLast?_append_of_ne_nil _ (by simpa using h)]

namespace InitFile

/-- Ids are told apart by the names of their files. -/
theorem name_inj {a b : Index} (h : name a = name b) : a = b := by
  apply Index.text_inj
  rw [← String.toList_inj] at h ⊢
  simpa [name] using h

theorem getLast?_name (id : Index) :
    (Text.ofString (name id)).points.getLast? = some (.char 'f') := by
  rw [name, Text.ofString_append, Text.getLast?_append (by decide)]
  rfl

private theorem isFileName_name (id : Index) : (Text.ofString (name id)).IsFileName := by
  have hmade := Text.isMadeOf_index id
  have hslash := hmade.not_mem (c := '/') rfl (by decide)
  have hbackslash := hmade.not_mem (c := '\\') rfl (by decide)
  have hnull := hmade.not_mem (c := '\x00') rfl (by decide)
  rw [name, Text.ofString_append]
  apply Text.IsFileName.append
  · simpa using hslash
  · simpa using hbackslash
  · simpa using hnull
  · decide

end InitFile

namespace Netlist

variable {n : Netlist} {d : Dialect} {name done : Value} {source : Text}

/-- The files of a netlist with a C procedure: the procedure, the initialisation files, the
instantiations if they are asked for, and the Python procedure if there is one. -/
def artifacts [Machine] (n : Netlist) (base source : Text) (vendor : Bool) (python : Option Text) :
    List (Text × Text) :=
  [(base ++ ".c", source)] ++
    (n.initTexts.map fun f => (Text.ofString f.1, Text.ofString f.2)) ++
    (if vendor then n.vendorTexts base else []) ++
    python.toList.map fun script => (base ++ ".py", script)

/-- The initialisation files are those of the memories with initial values. -/
theorem mem_initTexts [Machine] {f : String × String} :
    f ∈ n.initTexts ↔ ∃ i ∈ n.instances, ∃ shape, i.initialised? = some shape ∧
      f = (InitFile.name i.id, InitFile.text shape) := by
  rw [initTexts, List.mem_filterMap]
  apply exists_congr
  intro i
  rw [InitFile.file?, Option.map_eq_some_iff]
  simp only [eq_comm]

private theorem nodup_initTexts [Machine] (n : Netlist) : (n.initTexts.map Prod.fst).Nodup := by
  rw [List.Nodup, initTexts, List.pairwise_map, List.pairwise_filterMap]
  apply n.ascending.imp
  intro i j hlt f hf g hg heq
  obtain ⟨_, -, rfl⟩ := Option.map_eq_some_iff.mp hf
  obtain ⟨_, -, rfl⟩ := Option.map_eq_some_iff.mp hg
  have hid := congrArg Index.value (InitFile.name_inj heq)
  omega

/-- The names of all files. -/
theorem map_fst_artifacts [Machine] (n : Netlist) (base source : Text) (vendor : Bool)
    (python : Option Text) :
    (n.artifacts base source vendor python).map Prod.fst =
      [base ++ ".c"] ++ (n.initTexts.map fun f => Text.ofString f.1) ++
        (if vendor ∧ n.blocks ≠ [] then [base ++ "_altsyncram.v"] else []) ++
        (if python.isSome then [base ++ ".py"] else []) := by
  have hvendor : (if vendor then n.vendorTexts base else []).map Prod.fst =
      if vendor ∧ n.blocks ≠ [] then [base ++ "_altsyncram.v"] else [] := by
    unfold vendorTexts
    cases vendor <;> cases n.blocks <;> rfl
  have hpython : (python.toList.map fun script => (base ++ ↑".py", script)).map Prod.fst =
      if python.isSome then [base ++ ".py"] else [] := by
    cases python <;> rfl
  rw [artifacts, List.map_append, List.map_append, List.map_append, hvendor, hpython,
    List.map_map]
  rfl

/-- What holds of the names made from the name of the circuit and from ids holds of all names. -/
theorem forall_name_artifacts [Machine] {P : Text → Prop} {base : Text} {vendor : Bool}
    {python : Option Text}
    (hbase : ∀ ending ∈ [".c", "_altsyncram.v", ".py"], P (base ++ Text.ofString ending))
    (hinit : ∀ i ∈ n.instances, i.initialised?.isSome → P (InitFile.name i.id)) {f : Text × Text}
    (hf : f ∈ n.artifacts base source vendor python) : P f.1 := by
  have hmem : f.1 ∈ (n.artifacts base source vendor python).map Prod.fst := List.mem_map_of_mem hf
  rw [map_fst_artifacts] at hmem
  simp only [List.mem_append, List.mem_singleton, List.mem_map] at hmem
  rcases hmem with ((hname | ⟨g, hg, hname⟩) | hname) | hname
  · rw [hname]
    exact hbase ".c" (by simp)
  · obtain ⟨i, hi, shape, hshape, rfl⟩ := mem_initTexts.mp hg
    rw [← hname]
    exact hinit i hi (by simp [hshape])
  · split at hname
    · rw [List.mem_singleton.mp hname]
      exact hbase "_altsyncram.v" (by simp)
    · cases hname
  · split at hname
    · rw [List.mem_singleton.mp hname]
      exact hbase ".py" (by simp)
    · cases hname

/-- All names are names of files. -/
theorem isFileName_of_mem_artifacts [Machine] {base : Text} (hbase : base.isIdentifier = true)
    {vendor : Bool} {python : Option Text} {f : Text × Text}
    (hf : f ∈ n.artifacts base source vendor python) : f.1.IsFileName := by
  have hendings : ∀ ending ∈ [".c", "_altsyncram.v", ".py"], (Text.ofString ending).IsFileName := by
    decide
  exact forall_name_artifacts
    (fun ending hending => Text.isFileName_append hbase (hendings ending hending))
    (fun i _ _ => InitFile.isFileName_name i.id) hf

private theorem nodup_append_of_ending {xs ys : List Text} (hxs : xs.Nodup) (hys : ys.Nodup)
    (letter : Char) (hx : ∀ t ∈ xs, t.points.getLast? ≠ some (.char letter))
    (hy : ∀ t ∈ ys, t.points.getLast? = some (.char letter)) : (xs ++ ys).Nodup := by
  refine List.nodup_append.mpr ⟨hxs, hys, ?_⟩
  rintro t ht u hu rfl
  exact hx t ht (hy t hu)

/-- All names are distinct: files of different kinds end in different letters. -/
theorem nodup_artifacts [Machine] (n : Netlist) (base source : Text) (vendor : Bool)
    (python : Option Text) : ((n.artifacts base source vendor python).map Prod.fst).Nodup := by
  have hc : ∀ t ∈ [base ++ ↑".c"], t.points.getLast? = some (.char 'c') := by
    simp
  have hinit : ∀ t ∈ n.initTexts.map fun f => Text.ofString f.1,
      t.points.getLast? = some (.char 'f') := by
    intro t ht
    obtain ⟨f, hf, rfl⟩ := List.mem_map.mp ht
    obtain ⟨i, -, shape, -, rfl⟩ := mem_initTexts.mp hf
    exact InitFile.getLast?_name i.id
  have hvendor : ∀ t ∈ if vendor ∧ n.blocks ≠ [] then [base ++ ↑"_altsyncram.v"] else [],
      t.points.getLast? = some (.char 'v') := by
    intro t ht
    split at ht
    · rw [List.mem_singleton.mp ht, Text.getLast?_append (by decide)]
      rfl
    · cases ht
  have hpython : ∀ t ∈ if python.isSome then [base ++ ↑".py"] else [],
      t.points.getLast? = some (.char 'y') := by
    intro t ht
    split at ht
    · rw [List.mem_singleton.mp ht, Text.getLast?_append (by decide)]
      rfl
    · cases ht
  have hdistinct : (n.initTexts.map fun f => Text.ofString f.1).Nodup := by
    have hnames := n.nodup_initTexts.map fun _ _ => Text.ofString_inj.mp
    rwa [List.map_map] at hnames
  rw [map_fst_artifacts]
  refine nodup_append_of_ending (nodup_append_of_ending (nodup_append_of_ending
    (List.nodup_singleton _) hdistinct 'f' ?_ hinit) ?_ 'v' ?_ hvendor) ?_ 'y' ?_ hpython
  · simp
  · split <;> simp
  · intro t ht
    rcases List.mem_append.mp ht with ht | ht
    · simp [hc t ht]
    · simp [hinit t ht]
  · split <;> simp
  · intro t ht
    rcases List.mem_append.mp ht with ht | ht
    · rcases List.mem_append.mp ht with ht | ht
      · simp [hc t ht]
      · simp [hinit t ht]
    · simp [hvendor t ht]

end Netlist

/-! ### Plans -/

namespace Plan

/-- Text files as a plan holds them. -/
def ofTexts (files : List (Text × Text)) : List (Text × FileContent) :=
  files.map fun f => (f.1, .text f.2)

@[simp] theorem map_fst_ofTexts (files : List (Text × Text)) :
    (ofTexts files).map Prod.fst = files.map Prod.fst := by
  rw [ofTexts, List.map_map]
  rfl

theorem mem_ofTexts {files : List (Text × Text)} {name text : Text} (h : (name, text) ∈ files) :
    (name, .text text) ∈ ofTexts files :=
  List.mem_map.mpr ⟨_, h, rfl⟩

private theorem addTexts_append (p : Plan) (xs ys : List (Text × Text)) :
    p.addTexts (xs ++ ys) = (p.addTexts xs).bind fun q => q.addTexts ys :=
  List.foldlM_append

private theorem name_of_add {p q : Plan} {name : Text} {content : FileContent}
    (h : p.add name content = .ok q) : q.name = p.name := by
  unfold add at h
  split at h
  · cases h
  · split at h
    · cases h
    · cases h
      rfl

/-- Files with new and distinct names that are not absolute can be added one after another. -/
theorem exists_foldlM_add (p : Plan) (files : List (Text × FileContent))
    (hdistinct : (p.files.map Prod.fst ++ files.map Prod.fst).Nodup)
    (hrelative : ∀ f ∈ files, isAbsoluteName f.1 = false) :
    ∃ q, files.foldlM (fun r f => add r f.1 f.2) p = .ok q ∧ q.files = p.files ++ files ∧
      q.name = p.name := by
  induction files generalizing p with
  | nil => exact ⟨p, rfl, by simp, rfl⟩
  | cons f rest ih =>
    have hnew : f.1 ∉ p.files.map Prod.fst := by
      intro hmem
      exact (List.nodup_append.mp hdistinct).2.2 f.1 hmem f.1 (by simp) rfl
    obtain ⟨q, hq⟩ := exists_add f.2 hnew (hrelative f (by simp))
    have hfiles := files_of_add hq
    obtain ⟨r, hr, hall, hname⟩ := ih q (by simpa [hfiles] using hdistinct)
      fun g hg => hrelative g (by simp [hg])
    refine ⟨r, ?_, by simp [hall, hfiles], hname.trans (name_of_add hq)⟩
    rw [List.foldlM_cons, hq]
    exact hr

private theorem exists_addTexts (p : Plan) (files : List (Text × Text))
    (hdistinct : (p.files.map Prod.fst ++ files.map Prod.fst).Nodup)
    (hrelative : ∀ f ∈ files, isAbsoluteName f.1 = false) :
    ∃ q, p.addTexts files = .ok q ∧ q.files = p.files ++ ofTexts files := by
  obtain ⟨q, hq, hfiles, -⟩ := p.exists_foldlM_add (ofTexts files) (by simpa using hdistinct) (by
    intro f hf
    obtain ⟨g, hg, rfl⟩ := List.mem_map.mp hf
    exact hrelative g hg)
  rw [ofTexts, List.foldlM_map] at hq
  exact ⟨q, hq, hfiles⟩

end Plan

namespace Netlist

variable {n : Netlist} {name done : Value} {source : Text}

/-- The Python procedure, if it is asked for. -/
def script [Machine] (n : Netlist) (name done : Value) (python : Bool) : Except Error
    (Option Text) :=
  if python then (n.source .python name done).map some else .ok none

private theorem artifacts_eq_append [Machine] (n : Netlist) (base source : Text) (vendor : Bool)
    (script : Option Text) :
    n.artifacts base source vendor script = n.artifacts base source vendor none ++
      script.toList.map fun script => (base ++ ".py", script) := by
  simp [artifacts]

/-- The additions to a plan, once the initialisation files are there. -/
theorem plan_eq_bind [Machine] {base : Text} (h : n.source .c (.text base) done = .ok source)
    (hheld : n.HoldsContents) (vendor python : Bool) :
    n.plan (.text base) done vendor python =
      ((Plan.empty (.text base)).addTexts (n.artifacts base source vendor none)).bind fun p =>
        (n.script (.text base) done python).bind fun script =>
          p.addTexts (script.toList.map fun script => (base ++ ".py", script)) := by
  have hbase : (Value.text base).plain = base := rfl
  have hlast (p : Plan) : (if python = true then do
        let script ← n.source .python (.text base) done
        p.addTexts [(base ++ ".py", script)]
      else pure p) = (n.script (.text base) done python).bind fun script =>
        p.addTexts (script.toList.map fun script => (base ++ ".py", script)) := by
    unfold script
    cases python with
    | false => rfl
    | true => cases n.source .python (.text base) done <;> rfl
  unfold plan artifacts
  simp only [h, hbase, initFiles_eq h hheld, vendorFiles_eq h, hlast, Plan.addTexts_append]
  show (((Plan.empty (.text base)).addTexts [(base ++ ↑".c", source)]).bind fun p =>
    (p.addTexts _).bind fun p => _) = _
  cases (Plan.empty (.text base)).addTexts [(base ++ ↑".c", source)] with
  | error e => rfl
  | ok p =>
    show ((p.addTexts _).bind fun p => _) = (((p.addTexts _).bind _).bind _).bind _
    cases p.addTexts (n.initTexts.map fun f => (Text.ofString f.1, Text.ofString f.2)) with
    | error e => rfl
    | ok p =>
      cases vendor with
      | false => rfl
      | true =>
        show (p.addTexts (n.vendorTexts base)).bind _ =
          ((p.addTexts (n.vendorTexts base)).bind _).bind _
        cases p.addTexts (n.vendorTexts base) <;> rfl

/-- The plan of a netlist with a C procedure holds its artifacts. It fails only with the
initialisation files or the Python procedure. -/
theorem plan_eq [Machine] {base : Text} (h : n.source .c (.text base) done = .ok source)
    (vendor python : Bool) :
    (n.plan (.text base) done vendor python).map Plan.files =
      n.initFiles.bind fun _ => (n.script (.text base) done python).map fun script =>
        Plan.ofTexts (n.artifacts base source vendor script) := by
  obtain ⟨-, -, title, -, htitle, hallows, -⟩ := source_eq_ok h
  cases htitle
  have hrelative : ∀ script, ∀ f ∈ n.artifacts base source vendor script,
      isAbsoluteName f.1 = false :=
    fun script f hf => (isFileName_of_mem_artifacts hallows.identifier hf).isAbsoluteName_eq
  cases hinit : n.initFiles with
  | error e =>
    obtain ⟨p, hp, -⟩ := Plan.exists_addTexts (.empty (.text base)) [(base ++ ".c", source)]
      (List.nodup_singleton _) (by
        intro f hf
        exact hrelative none f (by simp [artifacts, List.mem_singleton.mp hf]))
    unfold plan
    rw [h]
    show (((Plan.empty (.text base)).addTexts [(base ++ ↑".c", source)]).bind fun p => _).map _ = _
    rw [hp]
    show ((n.initFiles).bind fun p => _).map _ = _
    rw [hinit]
    rfl
  | ok files =>
    have hheld := (holdsContents_iff h).mp ⟨files, hinit⟩
    obtain ⟨q, hq, hfiles⟩ := Plan.exists_addTexts (.empty (.text base))
      (n.artifacts base source vendor none) (n.nodup_artifacts base source vendor none)
      (hrelative none)
    rw [plan_eq_bind h hheld, hq]
    show ((n.script (.text base) done python).bind _).map _ =
      (n.script (.text base) done python).map _
    cases n.script (.text base) done python with
    | error e => rfl
    | ok script =>
      have hall := n.artifacts_eq_append base source vendor script
      have hdistinct := n.nodup_artifacts base source vendor script
      rw [hall, List.map_append] at hdistinct
      obtain ⟨r, hr, hfiles'⟩ := Plan.exists_addTexts q
        (script.toList.map fun script => (base ++ ".py", script))
        (by rw [hfiles]; simpa [Plan.empty] using hdistinct)
        fun f hf => hrelative script f (by rw [hall]; exact List.mem_append_right _ hf)
      show (q.addTexts _).map Plan.files =
        .ok (Plan.ofTexts (n.artifacts base source vendor script))
      rw [hr, hall, Except.map, hfiles', hfiles]
      simp [Plan.ofTexts, Plan.empty]

private theorem exists_script_iff [Machine] {python : Bool} :
    (∃ script, n.script name done python = .ok script) ↔
      (python = true → ∃ source, n.source .python name done = .ok source) := by
  unfold script
  cases python with
  | false => simp
  | true => simp [map_eq_ok]

/-- A plan is made if the contents of all memories can be held and the script is there. -/
theorem exists_plan_iff [Machine] (h : n.source .c name done = .ok source) (vendor python : Bool) :
    (∃ p, n.plan name done vendor python = .ok p) ↔
      (python = true → ∃ script, n.source .python name done = .ok script) ∧ n.HoldsContents := by
  obtain ⟨-, -, base, -, rfl, -⟩ := source_eq_ok h
  have hplan := plan_eq h vendor python
  rw [← holdsContents_iff h, ← exists_script_iff]
  constructor
  · rintro ⟨p, hp⟩
    rw [hp] at hplan
    obtain ⟨files, hfiles, hrest⟩ := bind_eq_ok.mp hplan.symm
    obtain ⟨script, hscript, -⟩ := map_eq_ok.mp hrest
    exact ⟨⟨script, hscript⟩, files, hfiles⟩
  · rintro ⟨⟨script, hscript⟩, files, hfiles⟩
    rw [hscript, hfiles] at hplan
    obtain ⟨p, hp, -⟩ := map_eq_ok.mp hplan
    exact ⟨p, hp⟩

private theorem plan_eq_error [Machine] (h : n.source .c name done = .ok source)
    {vendor python : Bool} {e : Error} (he : n.plan name done vendor python = .error e) :
    n.initFiles = .error e ∨ python = true ∧ n.source .python name done = .error e := by
  obtain ⟨-, -, base, -, rfl, -⟩ := source_eq_ok h
  have hplan := plan_eq h vendor python
  rw [he] at hplan
  rcases bind_eq_error.mp hplan.symm with hinit | ⟨-, -, hrest⟩
  · exact .inl hinit
  · right
    unfold script at hrest
    cases python with
    | false => cases hrest
    | true => exact ⟨rfl, map_eq_error.mp (map_eq_error.mp hrest)⟩

/-- What is prepared under a vendor flag is the plan. -/
theorem prepare_snd [Machine] {s : Settings} {env : Environment} {vendor : Bool}
    (h : s.vendorIn env = .ok vendor) :
    (n.prepare name s env).2 = n.plan name (s.doneIn env) vendor s.python := by
  unfold prepare
  rw [h]

/-- With a vendor flag that can be read, a plan is prepared exactly if the netlist has its C
procedure, its Python procedure if that is asked for, and memories whose initial contents can be
held. Once the C procedure is there, the instantiations always are, and so are the initialisation
files unless contents cannot be held; preparation fails with nothing else but the fault of the
Python procedure. -/
theorem prepare_ok_iff [Machine] (n : Netlist) (name : Value) (s : Settings) (env : Environment)
    {vendor : Bool} (hvendor : s.vendorIn env = .ok vendor) :
    ((∃ p, (n.prepare name s env).2 = .ok p) ↔
      (∃ source, n.source .c name (s.doneIn env) = .ok source) ∧
      (s.python = true → ∃ source, n.source .python name (s.doneIn env) = .ok source) ∧
      n.HoldsContents) ∧
    ∀ source, n.source .c name (s.doneIn env) = .ok source →
      (∃ text, n.altsyncramText = .ok text) ∧
      ((∃ files, n.initFiles = .ok files) ↔ n.HoldsContents) ∧
      ∀ e, (n.prepare name s env).2 = .error e →
        n.initFiles = .error e ∧ (e = .numberTooLarge ∨ e = .outOfMemory) ∨
          s.python = true ∧ n.source .python name (s.doneIn env) = .error e := by
  rw [prepare_snd hvendor]
  constructor
  · constructor
    · rintro ⟨p, hp⟩
      obtain ⟨source, hsource, -⟩ := bind_eq_ok.mp hp
      exact ⟨⟨source, hsource⟩, (exists_plan_iff hsource vendor s.python).mp ⟨p, hp⟩⟩
    · rintro ⟨⟨source, hsource⟩, hrest⟩
      exact (exists_plan_iff hsource vendor s.python).mpr hrest
  · intro source hsource
    refine ⟨⟨_, altsyncramText_eq hsource⟩, holdsContents_iff hsource, fun e he => ?_⟩
    rcases plan_eq_error hsource he with hinit | hpython
    · exact .inl ⟨hinit, (initFiles_eq_error hsource hinit).2⟩
    · exact .inr hpython

/-- A memory of bits with an address of the given width, whose first location is set, beside an exit
flag that is always set. -/
def firstSet (width : Nat) : Netlist :=
  withFlag
    [⟨.number 0, "high", [], [], .number 1⟩,
      ⟨.number 1, "ram", [("dwidth", "1"), ("awidth", Numeral.decimal width), ("init", "[1]")],
        List.replicate (width + 2) ⟨.number 0, .number 0⟩, .number 1⟩]
    ⟨.number 0, .number 0⟩ (by simp [Index.value])

/-- The schedule of such a memory. -/
def firstSetSchedule (shape : MemoryShape) : Schedule :=
  ⟨[⟨.number 0, .high, .constant true⟩,
      ⟨.number 1, .ram, .memory shape
        [⟨⟨.number 0, .number 0⟩, [⟨.number 0, .number 0⟩],
          List.replicate shape.addressWidth ⟨.number 0, .number 0⟩, [⟨.number 1, .number 0⟩]⟩]⟩],
    [⟨.number 0, .high, .constant true⟩]⟩

open Desktop in
private theorem firstSet_schedule : (firstSet 1).schedule =
    .ok (firstSetSchedule ⟨1, 1, [1], false, by decide, by decide, by decide⟩) := by
  cbv

open Desktop in
theorem firstSet_source (d : Dialect) :
    ∃ source, (firstSet 1).source d (.text "top") (.text "done") = .ok source := by
  unfold source compile
  rw [firstSet_schedule]
  cases d
  · exact ⟨_, rfl⟩
  · exact ⟨_, rfl⟩

open Desktop in
theorem firstSet_holdsContents : (firstSet 1).HoldsContents := by
  intro i hi shape hshape _
  obtain ⟨c, hc, hic⟩ := exists_result (schedule_ok firstSet_schedule).2.1 hi
  obtain ⟨ports, hcell⟩ := Component.exists_memory hic hshape
  simp only [firstSetSchedule, List.mem_cons, List.not_mem_nil, or_false] at hc
  rcases hc with rfl | rfl <;> cases hcell
  exact ⟨by decide, by decide, by decide⟩

open Desktop in
/-- With two locations all artifacts are made. -/
theorem firstSet_prepared :
    Settings.vendorIn ⟨.text "done", .bool true, true⟩ [] = .ok true ∧
      ∃ p, ((firstSet 1).prepare (.text "top") ⟨.text "done", .bool true, true⟩ []).2 = .ok p :=
  ⟨rfl, (prepare_ok_iff _ _ _ _ rfl).1.mpr
    ⟨firstSet_source .c, fun _ => firstSet_source .python, firstSet_holdsContents⟩⟩

open Desktop in
/-- With more locations than can be counted there is a C procedure and no plan. -/
theorem firstSet_unprepared :
    (firstSet 64).IsLoaded ∧ Settings.vendorIn {} [] = .ok true ∧
      (∃ source, (firstSet 64).source .c (.text "top") (.text "done") = .ok source) ∧
      ((firstSet 64).prepare (.text "top") {} []).2 = .error .numberTooLarge := by
  have hschedule : (firstSet 64).schedule =
      .ok (firstSetSchedule ⟨1, 64, [1], false, by decide, by decide, by decide⟩) := by
    cbv
  obtain ⟨source, hsource⟩ :
      ∃ source, (firstSet 64).source .c (.text "top") (.text "done") = .ok source := by
    unfold Netlist.source compile
    rw [hschedule]
    exact ⟨_, rfl⟩
  have hinit : (firstSet 64).initFiles = .error .numberTooLarge := by cbv
  have hplan := plan_eq hsource true false
  rw [hinit] at hplan
  refine ⟨.inl ⟨(firstSet 64).toValue, by cbv⟩, rfl, ⟨source, hsource⟩, ?_⟩
  rw [prepare_snd rfl]
  exact map_eq_error.mp hplan

end Netlist

end Latchwork
