import Latchwork.Proofs.Unbounded

/-!
# How a run ends

A run takes its turns in bursts, each of which goes on where the one before it ended. So it ends as
the turns one by one do: with what the procedure returns after some number of them, or as endless.
A compiled procedure has no other way to fail once its tables can be held.
-/

namespace Latchwork

open Outcome

namespace Procedure

variable {p : Procedure} {start : Progress}

private theorem bursts_cases (hturns : ∀ k, ∃ here, p.turns k start = .ok here) {k : Nat}
    {s : Store} (hk : p.turns k start = .ok (.running s)) (count size : Nat) :
    (∃ m c, p.turns m start = .ok (.returned c) ∧ p.bursts count size (.running s) = .ok c) ∨
      p.bursts count size (.running s) = .error .endless := by
  induction count generalizing size k s with
  | zero => exact .inr rfl
  | succ count ih =>
    have hburst : p.burst size (.running s) = p.turns (k + power 2 size) start := by
      rw [burst_eq_turns, turns_add, hk]
      rfl
    obtain ⟨here, hhere⟩ := hturns (k + power 2 size)
    rw [bursts, hburst, hhere]
    cases here with
    | returned c => exact .inl ⟨_, c, hhere, rfl⟩
    | running t => exact ih hhere (size + 1)

end Procedure

namespace Netlist

variable {n : Netlist} {input : Text → Int} {exit : Wire}

/-- A netlist returns one bit for each output. -/
theorem Reaches.returned_lt [Machine] {k result : Nat}
    (h : n.Reaches input exit k (.returned result)) :
    result < 2 ^ n.outputs.length := by
  generalize hstage : Stage.returned result = stage at h
  induction h with
  | start | advance => cases hstage
  | leave =>
    cases hstage
    exact weigh_lt _ _
  | rest _ ih => exact ih hstage

/-- The run of a compiled procedure on integers ends with what its netlist returns. Otherwise it is
endless, or has tables that cannot be held. -/
theorem Compiled.run_cases [Machine] {s : Schedule} (h : n.Compiled .python exit s) (title : Text)
    (input : Text → Int) :
    (∃ k result, n.Reaches input exit k (.returned result) ∧
      (s.procedure .python title n.outputs exit).run (s.inputs.map fun x => .number (input x)) =
        .ok (.ofWord result)) ∨
    ∃ e, (s.procedure .python title n.outputs exit).run
        (s.inputs.map fun x => .number (input x)) = .error e ∧
      (e = .endless ∨ e = .numberTooLarge ∨ e = .outOfMemory) := by
  generalize hp : s.procedure .python title n.outputs exit = p
  have hinputs : s.inputs = p.inputs := by rw [← hp, Schedule.procedure]
  have hagree : ∀ k stage, n.Reaches input exit k stage →
      ∃ here, p.turns k (.running (p.opening input)) = .ok here ∧
        here.Agrees n s.inputs input stage := fun k stage hstage =>
    hp ▸ h.turns_opening title hstage
  have hturns : ∀ k, ∃ here, p.turns k (.running (p.opening input)) = .ok here := by
    intro k
    obtain ⟨stage, hstage⟩ := exists_reaches h.schedule input exit k
    obtain ⟨here, hhere, -⟩ := hagree k stage hstage
    exact ⟨here, hhere⟩
  rw [Procedure.run, hinputs, Procedure.start_eq]
  cases hstorages : p.checkStorages with
  | error e => exact .inr ⟨e, rfl, .inr (Procedure.checkStorages_eq_error hstorages)⟩
  | ok =>
    have hopening : p.turns 0 (.running (p.opening input)) = .ok (.running (p.opening input)) := rfl
    rcases Procedure.bursts_cases hturns hopening (p.stateBits _ + 1) 0 with
      ⟨k, c, hk, hrun⟩ | hrun
    · obtain ⟨stage, hstage⟩ := exists_reaches h.schedule input exit k
      obtain ⟨here, hhere, hsame⟩ := hagree k stage hstage
      obtain rfl := Except.ok.inj (hhere.symm.trans hk)
      cases stage with
      | running => cases hsame
      | returned result =>
        obtain rfl : c = .ofWord result := hsame
        exact .inl ⟨k, result, hstage, hrun⟩
    · exact .inr ⟨.endless, hrun, .inl rfl⟩

end Netlist

end Latchwork
