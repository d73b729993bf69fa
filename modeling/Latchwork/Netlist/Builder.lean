import Latchwork.Netlist.Basic

/-!
# Building a netlist

A builder is a netlist under construction together with the ids that are reserved for instances to
come. Reserving an id lets a wire refer to an instance that is added later. Every operation returns
the builder that it leaves, also when it fails: an id is given up as soon as an instance claims it,
whether or not the instance can be made.
-/

namespace Latchwork

/-- The least number from a given one on that is not in a list. -/
def firstFree (used : List Nat) (n : Nat) : Nat :=
  if n ∈ used then firstFree (used.erase n) (n + 1) else n
  termination_by used.length
  decreasing_by
    rename_i h
    have := List.length_pos_of_mem h
    rw [List.length_erase_of_mem h]
    omega

/-- The search never goes back. -/
theorem le_firstFree (used : List Nat) (n : Nat) : n ≤ firstFree used n := by
  fun_induction firstFree used n with
  | case1 used n _ ih => omega
  | case2 => exact Nat.le_refl _

/-- The number that is found is not in the list. -/
theorem firstFree_not_mem (used : List Nat) (n : Nat) : firstFree used n ∉ used := by
  fun_induction firstFree used n with
  | case1 used n _ ih =>
    intro h
    have := le_firstFree (used.erase n) (n + 1)
    exact ih ((List.mem_erase_of_ne (by omega)).2 h)
  | case2 _ _ h => exact h

/-- Every number that is passed over is in the list. -/
theorem mem_of_lt_firstFree {used : List Nat} {n k : Nat} (hn : n ≤ k)
    (hk : k < firstFree used n) : k ∈ used := by
  fun_induction firstFree used n with
  | case1 used n h ih =>
    rcases Nat.lt_or_eq_of_le hn with hlt | rfl
    · exact List.mem_of_mem_erase (ih hlt hk)
    · exact h
  | case2 => omega

/-- A netlist under construction. The search for free ids starts at the cursor. -/
structure Builder where
  netlist : Netlist
  reserved : List Nat
  cursor : Nat

namespace Builder

/-- A builder that starts from a netlist, with no id reserved. -/
def ofNetlist (n : Netlist) : Builder := ⟨n, [], 0⟩

/-- The numbers that may not be handed out. -/
def used (b : Builder) : List Nat := b.netlist.table.map (·.id.value) ++ b.reserved

/-- Hands out the first free id and reserves it. -/
def allocate (b : Builder) : Nat × Builder :=
  let id := firstFree b.used b.cursor
  (id, { b with reserved := id :: b.reserved, cursor := id })

/-- An id that is handed out belongs to no instance and was not reserved. -/
theorem allocate_not_mem (b : Builder) : b.allocate.1 ∉ b.used := firstFree_not_mem _ _

/-- Allocation changes neither instances nor outputs. -/
@[simp] theorem netlist_allocate (b : Builder) : b.allocate.2.netlist = b.netlist := rfl

/-- Gives up the reservation of an id, if the value is a number that is reserved. -/
def release (b : Builder) (id : Value) : Builder :=
  match id.integer? with
  | some (.ofNat n) => { b with reserved := b.reserved.filter (· != n) }
  | _ => b

/-- Adds an instance with a given id. A taken id is refused before the instance is looked at. -/
def insertAt (b : Builder) (id : Value) (data : InstanceData) : Builder × Except Error Instance :=
  if !Netlist.isKey id then (b, .error .unhashableId)
  else if (b.netlist.lookup? id).isSome then (b, .error (.duplicateId id))
  else
    let b := b.release id
    match Instance.make id data with
    | .error e => (b, .error e)
    | .ok i =>
      match b.netlist.insert? i with
      | some netlist => ({ b with netlist := netlist }, .ok i)
      | none => (b, .error (.duplicateId id))

/-- Adds an instance; without an id one is allocated. -/
def insert (b : Builder) (id : Value) (data : InstanceData) :
    Builder × Except Error Instance :=
  match id with
  | .null =>
    let (n, b) := b.allocate
    b.insertAt (.int n) data
  | _ => b.insertAt id data

/-- Adds an instance and gives the wires of its outputs. The inputs are given one by one. -/
def insertWires (b : Builder) (id kind params : Value) (inputs : List Value) (outputCount : Value) :
    Builder × Except Error (List Wire) :=
  let (b, made) := b.insert id ⟨kind, params, .list inputs, outputCount⟩
  (b, made.map Instance.wires)

/-- Names a wire as an output. -/
def nameOutput (b : Builder) (name wire : Value) : Builder × Except Error Unit :=
  match b.netlist.nameOutput name wire with
  | .ok netlist => ({ b with netlist := netlist }, .ok ())
  | .error e => (b, .error e)

end Builder

end Latchwork
