import Latchwork.Text.Encoding

/-!
# Environments

Environment variables by name. Names and values are held as bytes, as the names of files are: bytes
that are no UTF-8 are halves in the text, and halves that stand for the bytes of a character are
read back as that character. Main statement: `get?_define`, by which a variable has the value that
it was given last, in this spelling.
-/

namespace Latchwork

/-- Environment variables by name. -/
abbrev Environment := List (Text × Text)

namespace Environment

/-- The value of a variable. -/
def get? (env : Environment) (name : Text) : Option Text :=
  (env.find? fun e => e.1 == name).map (·.2)

/-- Gives a value to a variable of some name as it is read back. -/
def insert (env : Environment) (name value : Text) : Environment :=
  (name, value) :: env.filter fun e => e.1 != name

/-- Checks the bytes of a variable: a zero ends a name and a value, an equals sign ends a name, and
a name is not empty. -/
def checkVariable (name value : Bytes) : Except Error Unit :=
  if name.contains 0 || value.contains 0 then .error .nullCharacter
  else if name.contains '='.toUInt8 then .error .variableName
  else if name.isEmpty then .error .emptyVariable
  else .ok ()

/-- Gives a value to a variable. -/
def define (env : Environment) (name value : Text) : Except Error Environment := do
  let nameBytes ← name.nameBytes
  let valueBytes ← value.nameBytes
  checkVariable nameBytes valueBytes
  return env.insert (Text.ofName nameBytes) (Text.ofName valueBytes)

/-- A variable has the value that was put there. -/
@[simp] theorem get?_insert_self (env : Environment) (name value : Text) :
    (env.insert name value).get? name = some value := by
  simp [get?, insert]

/-- Other variables have the values that they had. -/
theorem get?_insert_of_ne (env : Environment) {name other : Text} (value : Text)
    (h : other ≠ name) : (env.insert name value).get? other = env.get? other := by
  have hf : (env.filter fun e => e.1 != name).find? (fun e => e.1 == other) =
      env.find? fun e => e.1 == other := by
    rw [List.find?_filter]
    congr 1
    funext e
    by_cases ho : e.1 = other
    · simp [ho, h]
    · simp [ho]
  simp [get?, insert, hf, h.symm]

/-- A variable has the value that it was given, both as they are read back from their bytes. -/
theorem get?_define {env env' : Environment} {name value : Text}
    (h : env.define name value = .ok env') :
    ∃ n v, name.nameBytes = .ok n ∧ value.nameBytes = .ok v ∧
      env'.get? (Text.ofName n) = some (Text.ofName v) := by
  unfold define at h
  cases hn : name.nameBytes with
  | error e =>
    rw [hn] at h
    cases h
  | ok n =>
    cases hv : value.nameBytes with
    | error e =>
      rw [hn, hv] at h
      cases h
    | ok v =>
      refine ⟨n, v, rfl, rfl, ?_⟩
      rw [hn, hv] at h
      cases hc : checkVariable n v with
      | error e =>
        simp only [bind, Except.bind, hc] at h
        cases h
      | ok u =>
        simp only [bind, Except.bind, hc, pure, Except.pure, Except.ok.injEq] at h
        rw [← h, get?_insert_self]

end Environment

end Latchwork
