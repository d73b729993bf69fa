import Latchwork.Instance

/-!
# Netlists

A netlist is a table of instances, in the order in which they were added, and an ordered table of
named outputs. Ids are pairwise distinct as numbers; output names are pairwise distinct identifiers.
Whatever goes through the instances goes through them in ascending order of their ids.
-/

namespace Latchwork

/-- A flat netlist. -/
structure Netlist where
  table : List Instance
  outputs : List (Text × Wire)
  idsDistinct : (table.map fun i => i.id.value).Nodup
  namesDistinct : (outputs.map Prod.fst).Nodup
  namesIdentifiers : ∀ o ∈ outputs, Text.isIdentifier o.1 = true

namespace Netlist

/-- The netlist with no instances and no outputs. -/
def empty : Netlist := ⟨[], [], List.nodup_nil, List.nodup_nil, by simp⟩

/-- Puts an instance in its place among others in ascending order. -/
def place (i : Instance) : List Instance → List Instance
  | [] => [i]
  | j :: rest => if i.id.value < j.id.value then i :: j :: rest else j :: place i rest

/-- Placing an instance adds it and nothing else. -/
theorem mem_place {i k : Instance} {l : List Instance} : k ∈ place i l ↔ k = i ∨ k ∈ l := by
  induction l with
  | nil => simp [place]
  | cons j rest ih =>
    unfold place
    split
    · simp
    · simp only [List.mem_cons, ih]
      exact or_left_comm

/-- Placing an instance with a new id keeps the ascending order. -/
theorem pairwise_place {i : Instance} {l : List Instance}
    (hl : l.Pairwise fun a b => a.id.value < b.id.value)
    (hi : ∀ j ∈ l, j.id.value ≠ i.id.value) :
    (place i l).Pairwise fun a b => a.id.value < b.id.value := by
  induction l with
  | nil => simp [place]
  | cons j rest ih =>
    obtain ⟨hj, hr⟩ := List.pairwise_cons.1 hl
    unfold place
    split
    · next h =>
      refine List.pairwise_cons.2 ⟨fun k hk => ?_, hl⟩
      rcases List.mem_cons.1 hk with rfl | hk
      · exact h
      · exact Nat.lt_trans h (hj k hk)
    · next h =>
      refine List.pairwise_cons.2 ⟨fun k hk => ?_, ih hr fun k hk => hi k (.tail _ hk)⟩
      rcases mem_place.1 hk with rfl | hk
      · have := hi j (.head _)
        omega
      · exact hj k hk

/-- Instances in ascending order of their ids. -/
def sorted (l : List Instance) : List Instance := l.foldr place []

/-- Sorting neither adds nor drops an instance. -/
theorem mem_sorted {i : Instance} {l : List Instance} : i ∈ sorted l ↔ i ∈ l := by
  induction l with
  | nil => rfl
  | cons j rest ih =>
    change i ∈ place j (sorted rest) ↔ _
    rw [mem_place, ih, List.mem_cons]

/-- Instances with distinct ids ascend once they are sorted. -/
theorem pairwise_sorted {l : List Instance} (h : (l.map fun i => i.id.value).Nodup) :
    (sorted l).Pairwise fun a b => a.id.value < b.id.value := by
  induction l with
  | nil => exact .nil
  | cons j rest ih =>
    rw [List.map_cons, List.nodup_cons] at h
    refine pairwise_place (ih h.2) fun k hk heq => h.1 ?_
    exact List.mem_map.2 ⟨k, mem_sorted.1 hk, heq⟩

/-- Placing an instance before all others. -/
theorem place_of_lt {i : Instance} {l : List Instance}
    (h : ∀ j ∈ l, i.id.value < j.id.value) : place i l = i :: l := by
  cases l with
  | nil => rfl
  | cons j rest => simp [place, h j (.head _)]

/-- Instances that ascend are sorted. -/
theorem sorted_of_pairwise {l : List Instance}
    (h : l.Pairwise fun a b => a.id.value < b.id.value) : sorted l = l := by
  induction l with
  | nil => rfl
  | cons i rest ih =>
    obtain ⟨hi, hrest⟩ := List.pairwise_cons.1 h
    change place i (sorted rest) = _
    rw [ih hrest, place_of_lt hi]

/-- The instances in ascending order of their ids. -/
def instances (n : Netlist) : List Instance := sorted n.table

/-- Instances are gone through in ascending order. -/
theorem ascending (n : Netlist) : n.instances.Pairwise fun a b => a.id.value < b.id.value :=
  pairwise_sorted n.idsDistinct

/-- The instances are those of the table. -/
theorem mem_instances {n : Netlist} {i : Instance} : i ∈ n.instances ↔ i ∈ n.table :=
  mem_sorted

/-- The instance whose id stands for a number. -/
def find? (n : Netlist) (id : Nat) : Option Instance :=
  n.table.find? fun i => i.id.value == id

/-- Is the number the id of an instance? -/
def hasId (n : Netlist) (id : Nat) : Bool := n.table.any fun i => i.id.value == id

/-- Adds an instance whose id is new. -/
def insert (n : Netlist) (i : Instance) (h : n.hasId i.id.value = false) : Netlist :=
  { n with
    table := n.table ++ [i]
    idsDistinct := by
      simp only [hasId, List.any_eq_false, beq_iff_eq] at h
      rw [List.map_append, List.nodup_append]
      refine ⟨n.idsDistinct, by simp, fun a ha b hb => ?_⟩
      obtain ⟨j, hj, rfl⟩ := List.mem_map.1 ha
      simp only [List.map_cons, List.map_nil, List.mem_singleton] at hb
      rw [hb]
      exact h j hj }

/-- Insertion puts the instance at the end of the table. -/
@[simp] theorem table_insert {n : Netlist} {i : Instance} {h : n.hasId i.id.value = false} :
    (n.insert i h).table = n.table ++ [i] := rfl

/-- Insertion adds the instance and nothing else. -/
@[simp] theorem mem_insert {n : Netlist} {i j : Instance} {h : n.hasId i.id.value = false} :
    j ∈ (n.insert i h).instances ↔ j = i ∨ j ∈ n.instances := by
  rw [mem_instances, mem_instances, table_insert, List.mem_append, List.mem_singleton, or_comm]

/-- Insertion keeps the outputs. -/
@[simp] theorem outputs_insert {n : Netlist} {i : Instance} {h : n.hasId i.id.value = false} :
    (n.insert i h).outputs = n.outputs := rfl

/-- Adds an instance unless its id is taken. -/
def insert? (n : Netlist) (i : Instance) : Option Netlist :=
  if h : n.hasId i.id.value = false then some (n.insert i h) else none

/-- Appends an output whose name is a new identifier. -/
def append (n : Netlist) (name : Text) (w : Wire) (hi : Text.isIdentifier name = true)
    (hn : name ∉ n.outputs.map Prod.fst) : Netlist :=
  { n with
    outputs := n.outputs ++ [(name, w)]
    namesDistinct := by
      rw [List.map_append, List.nodup_append]
      refine ⟨n.namesDistinct, by simp, fun a ha b hb => ?_⟩
      simp only [List.map_cons, List.map_nil, List.mem_singleton] at hb
      rintro rfl
      exact hn (hb ▸ ha)
    namesIdentifiers := fun o ho => by
      rcases List.mem_append.1 ho with ho | ho
      · exact n.namesIdentifiers o ho
      · rw [List.mem_singleton.1 ho]
        exact hi }

/-- Appending an output puts it last. -/
@[simp] theorem outputs_append {n : Netlist} {name : Text} {w : Wire}
    {hi : Text.isIdentifier name = true} {hn : name ∉ n.outputs.map Prod.fst} :
    (n.append name w hi hn).outputs = n.outputs ++ [(name, w)] := rfl

/-- Appending an output keeps the table of instances. -/
@[simp] theorem table_append {n : Netlist} {name : Text} {w : Wire}
    {hi : Text.isIdentifier name = true} {hn : name ∉ n.outputs.map Prod.fst} :
    (n.append name w hi hn).table = n.table := rfl

/-- Appending an output keeps the instances. -/
@[simp] theorem instances_append {n : Netlist} {name : Text} {w : Wire}
    {hi : Text.isIdentifier name = true} {hn : name ∉ n.outputs.map Prod.fst} :
    (n.append name w hi hn).instances = n.instances := rfl

/-- Names a wire, given as data, as an output. The name must be an identifier, then it must be
new, and only then is the wire looked at. -/
def nameOutput (n : Netlist) (name wire : Value) : Except Error Netlist :=
  match name with
  | .text s =>
    if hi : Text.isIdentifier s = true then
      if hn : s ∈ n.outputs.map Prod.fst then .error (.outputDefined s)
      else (Wire.ofValue wire).map fun w => n.append s w hi hn
    else .error (.outputName name)
  | _ => .error (.outputName name)

/-- The wire of a named output. -/
def output? (n : Netlist) (name : Text) : Option Wire :=
  (n.outputs.find? fun o => o.1 == name).map (·.2)

/-- The wire of the output that a value names. -/
def output (n : Netlist) (given : Value) : Except Error Wire :=
  match given.text?.bind n.output? with
  | some w => .ok w
  | none => .error (.missingOutput given)

/-- Can the value be looked up among ids at all? Lists and objects cannot. -/
def isKey : Value → Bool
  | .list _ => false
  | .object _ => false
  | _ => true

/-- The instance whose id equals a value as a number. -/
def lookup? (n : Netlist) (given : Value) : Option Instance :=
  match given.integer? with
  | some (.ofNat id) => n.find? id
  | _ => none

/-- The instance whose id equals a value as a number, which must be there. -/
def lookup (n : Netlist) (given : Value) : Except Error Instance :=
  if isKey given then
    match n.lookup? given with
    | some i => .ok i
    | none => .error .unknownId
  else .error .unhashableId

/-- The number of instances. -/
def size (n : Netlist) : Nat := n.table.length

/-- The name of an external input, if the instance is one. -/
def inputName? (i : Instance) : Option Text :=
  if i.kind == Primitive.name.text then i.param? "name" else none

/-- The names of the external inputs, in order of first appearance. -/
def inputs (n : Netlist) : List Text := (n.instances.filterMap inputName?).eraseDups

/-- Checks that a wire is an output of an instance. The place of the wire is spelled out before the
wire is looked at. -/
def checkWire (n : Netlist) (site : Site) (w : Wire) : Except Error Unit :=
  site.written.bind fun _ =>
    match n.find? w.driver.value with
    | none => .error (.noInstance site w.driver)
    | some i =>
      if w.port.value < i.outputCount.value then .ok ()
      else .error (.noOutput site w.port i.id i.kind i.outputCount)

/-- Checks the input wires of an instance, in order. -/
def checkInputs (n : Netlist) (i : Instance) : Except Error Unit :=
  i.inputs.zipIdx.forM fun (w, k) => n.checkWire (.input k i.id i.kind) w

/-- Checks every wire: those of the instances in ascending order, then those of the outputs. -/
def check (n : Netlist) : Except Error Unit := do
  n.instances.forM n.checkInputs
  n.outputs.forM fun (name, w) => n.checkWire (.output name) w

/-- How a netlist is written: one line an instance, then one line an output. -/
def text (n : Netlist) : Text :=
  let instanceLine (i : Instance) : Text := "(instance " ++ i.text ++ ")\n"
  let outputLine (o : Text × Wire) : Text :=
    "(output " ++ Text.quoted o.1 ++ " " ++ o.2.text ++ ")\n"
  "(\n" ++ Text.join (n.instances.map instanceLine ++ n.outputs.map outputLine) ++ ")"

/-- The numbers in the text of a netlist. -/
def numerals (n : Netlist) : List Nat :=
  n.instances.flatMap Instance.numerals ++ n.outputs.flatMap fun o => o.2.numerals

/-- The text of a netlist, in writing. -/
def written (n : Netlist) : Except Error Text := Numeral.written n.numerals n.text

end Netlist

end Latchwork
