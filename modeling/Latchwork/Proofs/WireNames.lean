import Latchwork.Procedure.Name
import Latchwork.Proofs.ReadBack

/-!
# Names of equal wires

Wires are compared by the numbers that their indices stand for, but a name is made from the spelling
of the indices. It gives back the driver as it was spelled, and so it does the port unless that is
the first one. Two different wires therefore never share a name. Equal wires share it unless one has
a truth value where the other has a number, and the name shows it.
-/

namespace Latchwork.Wire

private theorem beq_iff {a b : Wire} :
    (a == b) = true ↔ a.driver.value = b.driver.value ∧ a.port.value = b.port.value := by
  change (a.driver.value == b.driver.value && a.port.value == b.port.value) = true ↔ _
  rw [Bool.and_eq_true, beq_iff_eq, beq_iff_eq]

/-- The characters of the name of a wire, digits apart. -/
theorem isMadeOf_name (w : Wire) :
    Text.IsMadeOf ['w', '_', 'T', 'r', 'u', 'e', 'F', 'a', 'l', 's'] w.name.toList := by
  have hindex := fun i => (Text.isMadeOf_index i).mono
    (show _ ⊆ ['w', '_', 'T', 'r', 'u', 'e', 'F', 'a', 'l', 's'] by simp)
  have hdriver : Text.IsMadeOf ['w', '_', 'T', 'r', 'u', 'e', 'F', 'a', 'l', 's']
      (['w'] ++ w.driver.text.toList) := .append (.of_subset (by simp)) (hindex w.driver)
  unfold name
  split
  · simpa using hdriver
  · simpa using (hdriver.append (.of_subset (show ['_'] ⊆ _ by simp))).append (hindex w.port)

/-- The characters of the name of a wire are those of an identifier. -/
theorem isIdentifier_name (w : Wire) : Text.isIdentifier w.name = true := by
  have hpart : ∀ c ∈ w.name.toList, Text.isIdentifierPart c = true := by
    intro c hc
    rcases w.isMadeOf_name c hc with hdigit | hmem
    · simp only [Json.hexDigit?, CodePoint.char?, Option.bind_some, Text.isIdentifierPart,
        Char.isAlphanum, Char.isAlpha, Char.isUpper, Char.isLower, Char.isDigit,
        Char.le_def] at hdigit ⊢
      grind
    · have hall : ∀ c ∈ ['w', '_', 'T', 'r', 'u', 'e', 'F', 'a', 'l', 's'],
          Text.isIdentifierPart c = true := List.all_eq_true.1 rfl
      exact hall c hmem
  obtain ⟨rest, hname⟩ : ∃ rest, w.name.toList = 'w' :: rest := by
    unfold name
    split <;> simp
  rw [hname] at hpart
  simp only [Text.isIdentifier, Text.points_ofString, hname, List.map_cons, Text.isIdentifierPoints,
    Bool.and_eq_true, List.all_eq_true]
  refine ⟨rfl, fun p hp => ?_⟩
  obtain ⟨c, hc, rfl⟩ := List.mem_map.1 hp
  exact hpart c (List.mem_cons_of_mem _ hc)

theorem head?_name (w : Wire) : (Text.ofString w.name).points.head? = some (.char 'w') := by
  unfold name
  split <;> simp

private theorem splitOn_name (w : Wire) :
    w.name.toList.splitOn '_' =
      if w.port.value = 0 then ['w' :: w.driver.text.toList]
      else ['w' :: w.driver.text.toList, w.port.text.toList] := by
  have hindex : ∀ i : Index, '_' ∉ i.text.toList := fun i =>
    (Text.isMadeOf_index i).not_mem rfl (by decide)
  have hdriver : '_' ∉ 'w' :: w.driver.text.toList := by simp [hindex w.driver]
  unfold name
  split
  · rw [String.toList_append]
    exact List.splitOn_eq_singleton hdriver
  · have hchars : ("w" ++ w.driver.text ++ "_" ++ w.port.text).toList =
        ('w' :: w.driver.text.toList) ++ '_' :: w.port.text.toList := by simp
    rw [hchars, List.splitOn_append_cons_self_of_not_mem hdriver,
      List.splitOn_eq_singleton (hindex w.port)]

/-- A name shows the spelling of the driver, and that of a port that is not the first. -/
theorem name_eq_iff {a b : Wire} :
    a.name = b.name ↔
      a.driver = b.driver ∧ (a.port.value = 0 ∧ b.port.value = 0 ∨ a.port = b.port) := by
  constructor
  · intro h
    have hparts : a.name.toList.splitOn '_' = b.name.toList.splitOn '_' := by rw [h]
    rw [splitOn_name, splitOn_name] at hparts
    by_cases ha : a.port.value = 0 <;> by_cases hb : b.port.value = 0 <;>
      simp only [ha, hb, if_true, if_false, List.cons.injEq, true_and, and_true, reduceCtorEq,
        and_false, String.toList_inj] at hparts
    · exact ⟨Index.text_inj hparts, .inl ⟨ha, hb⟩⟩
    · exact ⟨Index.text_inj hparts.1, .inr (Index.text_inj hparts.2)⟩
  · rintro ⟨hdriver, ⟨ha, hb⟩ | hport⟩
    · rw [name, name, if_pos ha, if_pos hb, hdriver]
    · rw [name, name, hdriver, hport]

/-- The names of two wires tell whether they are equal exactly if equality leaves nothing to the
spelling: where the wires are equal, their drivers are the same index, and so are their ports unless
they are the first. -/
theorem beq_iff_name_eq_iff (a b : Wire) :
    ((a == b) = true ↔ a.name = b.name) ↔
      ((a == b) = true → a.driver = b.driver ∧ (a.port.value = 0 ∨ a.port = b.port)) := by
  rw [name_eq_iff]
  constructor
  · intro h hequal
    obtain ⟨hdriver, ⟨ha, -⟩ | hport⟩ := h.mp hequal
    · exact ⟨hdriver, .inl ha⟩
    · exact ⟨hdriver, .inr hport⟩
  · intro h
    constructor
    · intro hequal
      obtain ⟨hdriver, ha | hport⟩ := h hequal
      · exact ⟨hdriver, .inl ⟨ha, (beq_iff.mp hequal).2 ▸ ha⟩⟩
      · exact ⟨hdriver, .inr hport⟩
    · rintro ⟨hdriver, ⟨ha, hb⟩ | hport⟩
      · exact beq_iff.mpr ⟨congrArg Index.value hdriver, ha.trans hb.symm⟩
      · exact beq_iff.mpr ⟨congrArg Index.value hdriver, congrArg Index.value hport⟩

/-- The wire of the instance that is given as a truth value equals the wire of instance one, and has
another name. -/
theorem truthValue_named_apart :
    ∃ a b, ofArguments [.bool true] = .ok a ∧ ofArguments [.int 1] = .ok b ∧ (a == b) = true ∧
      a.name = "wTrue" ∧ b.name = "w1" :=
  ⟨_, _, rfl, rfl, rfl, rfl, rfl⟩

end Latchwork.Wire
