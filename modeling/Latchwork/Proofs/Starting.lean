import Latchwork.Proofs.Simulation

/-!
# Starting a procedure

Before its first turn a procedure is translated and its tables are set up. Two things can stop the
translation: an expression that is nested too deeply, and a name that nothing can be bound to. And a
table can have more words than can be counted, or more than the machine holds. A procedure that
meets none of these is ready, and starts with its opening store. No other one reaches its loop.
-/

namespace Latchwork

open Outcome

namespace MemoryShape

/-- Can the contents be held? Their locations can be counted, and the zeros past the given values
fit the memory of the machine. -/
structure IsHeld [Machine] (shape : MemoryShape) : Prop where
  addressed : shape.addressWidth < 64
  counted : shape.padding ≤ Capacity.countLimit
  fits : Capacity.elementBytes * shape.padding ≤ Machine.memory

/-- The check of the contents passes if they can be held. -/
theorem checkPadding_eq_ok_iff [Machine] {shape : MemoryShape} :
    shape.checkPadding = .ok () ↔ shape.IsHeld := by
  unfold checkPadding Capacity.checkList
  split
  · next h => exact iff_of_false (by simp) fun hheld => Nat.not_le.mpr hheld.addressed h
  · next haddressed =>
    split
    · next h => exact iff_of_false (by simp) fun hheld => Nat.not_lt.mpr hheld.counted h
    · next hcounted =>
      split
      · next h => exact iff_of_false (by simp) fun hheld => Nat.not_lt.mpr hheld.fits h
      · next hfits =>
        exact iff_of_true rfl
          ⟨Nat.not_le.mp haddressed, Nat.not_lt.mp hcounted, Nat.not_lt.mp hfits⟩

/-- Contents that cannot be held are too many to be counted, or too many for the memory. -/
theorem checkPadding_eq_error [Machine] {shape : MemoryShape} {e : Error}
    (h : shape.checkPadding = .error e) : e = .numberTooLarge ∨ e = .outOfMemory := by
  unfold checkPadding Capacity.checkList at h
  split_ifs at h <;> cases h
  · exact .inl rfl
  · exact .inl rfl
  · exact .inr rfl

end MemoryShape

namespace Procedure

/-- Checks that the tables of a procedure can be held. -/
def checkStorages [Machine] (p : Procedure) : Except Error Unit :=
  p.declarations.forM fun
    | .storage _ shape => shape.checkPadding
    | .cells .. => .ok ()

/-- Declarations set what they set, if the tables among them can be held. -/
theorem foldlM_run_eq [Machine] (ds : List Declaration) (s : Store) :
    ds.foldlM Declaration.run s =
      (ds.forM fun
        | .storage _ shape => shape.checkPadding
        | .cells .. => .ok ()).map fun _ => ds.foldl Declaration.place s := by
  induction ds generalizing s with
  | nil => rfl
  | cons first rest ih =>
    rw [List.foldlM_cons]
    cases first with
    | cells names value => exact ih _
    | storage name shape =>
      change (shape.checkPadding.map _ >>= _ : Except Error Store) =
        (shape.checkPadding >>= fun _ => rest.forM _).map _
      cases shape.checkPadding with
      | error e => rfl
      | ok => exact ih _

/-- A procedure starts with its opening store, if its tables can be held. -/
theorem start_eq [Machine] (p : Procedure) (input : Text → Int) :
    p.start (p.inputs.map fun name => .number (input name)) =
      p.checkStorages.map fun _ => p.opening input := by
  have hstart : ∀ arguments, p.start arguments = p.declarations.foldlM Declaration.run
      ((p.inputs.zip arguments).foldl (fun (s : Store) g => s.set (.given g.1) g.2) ⟨p.name, ∅⟩) :=
    fun _ => rfl
  have hgiven : ∀ (names : List Text) (s : Store),
      (names.zip (names.map fun name => Content.number (input name))).foldl
        (fun (s : Store) g => s.set (.given g.1) g.2) s = names.foldl (Store.give input) s := by
    intro names
    induction names with
    | nil => exact fun _ => rfl
    | cons name rest ih => exact fun s => ih _
  rw [hstart, hgiven]
  exact foldlM_run_eq _ _

variable {p : Procedure} {e : Error}

private theorem checkStorages_eq_ok [Machine] :
    p.checkStorages = .ok () ↔ ∀ m shape, .storage m shape ∈ p.declarations → shape.IsHeld := by
  refine forM_eq_ok.trans ⟨fun h m shape hm => ?_, fun h declaration hmem => ?_⟩
  · exact MemoryShape.checkPadding_eq_ok_iff.mp (h _ hm)
  · cases declaration with
    | cells names value => rfl
    | storage m shape => exact MemoryShape.checkPadding_eq_ok_iff.mpr (h m shape hmem)

/-- A table that cannot be held is too large for a number or for the memory. -/
theorem checkStorages_eq_error [Machine] (h : p.checkStorages = .error e) :
    e = .numberTooLarge ∨ e = .outOfMemory := by
  obtain ⟨before, declaration, after, -, -, hfailed⟩ := forM_eq_error.1 h
  cases declaration with
  | cells names value => cases hfailed
  | storage name shape => exact MemoryShape.checkPadding_eq_error hfailed

/-- A procedure is translated if its expressions are not nested too deeply and nothing has the name
that nothing can be bound to. -/
theorem checkRunnable_eq_ok :
    p.checkRunnable = .ok () ↔
      (∀ x ∈ p.expressions, x.depth ≤ nestingLimit) ∧
        Text.ofString constantName ∉ p.name :: p.inputs := by
  unfold checkRunnable
  split
  · next h =>
    obtain ⟨x, hx, hdeep⟩ := List.any_eq_true.mp h
    refine iff_of_false (by simp) fun hand => ?_
    exact Nat.not_lt.mpr (hand.1 x hx) (of_decide_eq_true hdeep)
  · next h =>
    have hshallow : ∀ x ∈ p.expressions, x.depth ≤ nestingLimit := fun x hx =>
      Nat.not_lt.mp fun hdeep => h (List.any_eq_true.mpr ⟨x, hx, decide_eq_true hdeep⟩)
    split
    · next hname => exact iff_of_false (by simp) fun hand => hand.2 (List.contains_iff_mem.mp hname)
    · next hname =>
      exact iff_of_true rfl ⟨hshallow, fun hmem => hname (List.contains_iff_mem.mpr hmem)⟩

private theorem checkRunnable_eq_error (h : p.checkRunnable = .error e) :
    e = .nesting ∨ e = .forbiddenName constantName := by
  unfold checkRunnable at h
  split_ifs at h <;> cases h
  · exact .inl rfl
  · exact .inr rfl

/-- A procedure that is translated, and whose tables can be held. -/
structure IsReady [Machine] (p : Procedure) : Prop where
  shallow : ∀ x ∈ p.expressions, x.depth ≤ nestingLimit
  named : Text.ofString constantName ∉ p.name :: p.inputs
  held : ∀ m shape, .storage m shape ∈ p.declarations → shape.IsHeld

theorem isReady_iff [Machine] :
    p.IsReady ↔ p.checkRunnable = .ok () ∧ p.checkStorages = .ok () := by
  rw [checkRunnable_eq_ok, checkStorages_eq_ok]
  exact ⟨fun h => ⟨⟨h.shallow, h.named⟩, h.held⟩, fun h => ⟨h.1.1, h.1.2, h.2⟩⟩

end Procedure

namespace Netlist

variable {n : Netlist} {name done : Value} {p : Procedure}

/-- A netlist is executable if the procedure that it is compiled to is translated. -/
theorem executable_eq [Machine] (h : n.compile .python name done = .ok p) :
    n.executable name done = p.checkRunnable.map fun _ => p := by
  rw [executable, h]
  rfl

/-- A procedure that is ready is executable and starts with its opening store. -/
theorem start_of_isReady [Machine] (h : n.compile .python name done = .ok p) (hready : p.IsReady)
    (input : Text → Int) :
    n.executable name done = .ok p ∧
      p.start (p.inputs.map fun x => .number (input x)) = .ok (p.opening input) := by
  obtain ⟨hrunnable, hstorages⟩ := Procedure.isReady_iff.mp hready
  rw [executable_eq h, hrunnable, Procedure.start_eq, hstorages]
  exact ⟨rfl, rfl⟩

/-- Only a procedure that is ready can be started. -/
theorem isReady_of_start [Machine] (h : n.compile .python name done = .ok p) {q : Procedure}
    {s : Store} {input : Text → Int} (hq : n.executable name done = .ok q)
    (hs : q.start (q.inputs.map fun x => .number (input x)) = .ok s) :
    q = p ∧ s = p.opening input ∧ p.IsReady := by
  rw [executable_eq h] at hq
  obtain ⟨⟨⟩, hrunnable, rfl⟩ := map_eq_ok.mp hq
  rw [Procedure.start_eq] at hs
  obtain ⟨⟨⟩, hstorages, rfl⟩ := map_eq_ok.mp hs
  exact ⟨rfl, rfl, Procedure.isReady_iff.mpr ⟨hrunnable, hstorages⟩⟩

/-- What happens to a procedure that is not ready: it is not translated, or it is and its tables
cannot be held. -/
theorem fails_of_not_isReady [Machine] (h : n.compile .python name done = .ok p)
    (hready : ¬p.IsReady) (input : Text → Int) :
    (∃ e, n.executable name done = .error e ∧
      (e = .nesting ∨ e = .forbiddenName Procedure.constantName)) ∨
    n.executable name done = .ok p ∧
      ∃ e, p.start (p.inputs.map fun x => .number (input x)) = .error e ∧
        (e = .numberTooLarge ∨ e = .outOfMemory) := by
  rw [executable_eq h, Procedure.start_eq]
  cases hrunnable : p.checkRunnable with
  | error e => exact .inl ⟨e, rfl, Procedure.checkRunnable_eq_error hrunnable⟩
  | ok =>
    cases hstorages : p.checkStorages with
    | error e => exact .inr ⟨rfl, e, rfl, Procedure.checkStorages_eq_error hstorages⟩
    | ok => exact (hready (Procedure.isReady_iff.mpr ⟨hrunnable, hstorages⟩)).elim

end Netlist

end Latchwork
