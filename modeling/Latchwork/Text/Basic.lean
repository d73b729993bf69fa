/-!
# Texts

A text is a sequence of code points. Data from outside may hold half of a surrogate pair that stands
alone: it is a code point and no character, so texts are more than strings. Every string is a text,
and a text without such halves is a string.
-/

namespace Latchwork

/-- A code point: a character, or half of a surrogate pair, counted from the first half. -/
inductive CodePoint where
  | char (c : Char)
  | half (index : Fin 0x800)
  deriving DecidableEq, Repr

namespace CodePoint

/-- Every character is a code point. -/
instance : Coe Char CodePoint := ⟨char⟩

/-- The number of a code point. -/
def value : CodePoint → Nat
  | .char c => c.toNat
  | .half index => 0xD800 + index.val

instance : Hashable CodePoint := ⟨fun point => hash point.value⟩

/-- The code point of a number. -/
def ofValue (n : Nat) : CodePoint :=
  if h : 0xD800 ≤ n ∧ n < 0xE000 then .half ⟨n - 0xD800, by omega⟩ else .char (Char.ofNat n)

/-- The character, if the code point is one. -/
def char? : CodePoint → Option Char
  | .char c => some c
  | .half _ => none

/-- Has the code point a property of characters? Halves have none. -/
def satisfies (p : Char → Bool) (point : CodePoint) : Bool := point.char?.any p

/-- A code point is recovered from its number. -/
@[simp] theorem ofValue_value (point : CodePoint) : ofValue point.value = point := by
  cases point with
  | char c =>
    have hc : ¬(0xD800 ≤ c.toNat ∧ c.toNat < 0xE000) := by
      rcases c.valid with h | h <;> simp only [Char.toNat, UInt32.toNat] at * <;> omega
    simp [ofValue, value, hc]
  | half index =>
    have := index.isLt
    have hi : 0xD800 ≤ 0xD800 + index.val ∧ 0xD800 + index.val < 0xE000 := by omega
    simp [ofValue, value, hi]

/-- Code points with one number are equal. -/
theorem value_inj {a b : CodePoint} : a.value = b.value ↔ a = b :=
  ⟨fun h => by rw [← ofValue_value a, ← ofValue_value b, h], fun h => h ▸ rfl⟩

end CodePoint

/-- A sequence of code points. -/
structure Text where
  points : List CodePoint
  deriving DecidableEq, Repr, Hashable

namespace Text

/-- The text of a string. -/
def ofString (s : String) : Text := ⟨s.toList.map .char⟩

/-- Every string is a text. -/
instance : Coe String Text := ⟨ofString⟩

/-- The string that a text is, if all of its code points are characters. -/
def string? (t : Text) : Option String := (t.points.mapM CodePoint.char?).map String.ofList

/-- The text without code points. -/
def empty : Text := ⟨[]⟩

/-- Is the text without code points? -/
def isEmpty (t : Text) : Bool := t.points.isEmpty

/-- One text after another. -/
instance : Append Text := ⟨fun a b => ⟨a.points ++ b.points⟩⟩

/-- Texts one after another. -/
def join (ts : List Text) : Text := ⟨ts.flatMap points⟩

/-- Texts one after another with a separator between two of them. -/
def intercalate (separator : Text) : List Text → Text
  | [] => empty
  | [t] => t
  | t :: rest => t ++ separator ++ intercalate separator rest

/-- The parts of a text between the occurrences of a character. -/
def splitOn (t : Text) (c : Char) : List Text := (t.points.splitOn (.char c)).map mk

/-- Is the character the last one of the text? -/
def endsWith (t : Text) (c : Char) : Bool := t.points.getLast? == some (.char c)

/-- The numbers of the code points. -/
def codes (t : Text) : List Nat := t.points.map CodePoint.value

/-- The order of texts, by the numbers of their code points. -/
def precedes (a b : Text) : Bool := !b.codes.lex a.codes fun x y => decide (x < y)

@[simp] theorem points_ofString (s : String) : (ofString s).points = s.toList.map .char := rfl

@[simp] theorem points_append (a b : Text) : (a ++ b).points = a.points ++ b.points := rfl

@[simp] theorem points_empty : empty.points = [] := rfl

@[simp] theorem points_join (ts : List Text) : (join ts).points = ts.flatMap points := rfl

/-- Texts with the same code points are equal. -/
@[ext] theorem ext {a b : Text} (h : a.points = b.points) : a = b := by
  cases a
  cases b
  simpa using h

/-- The text of joined strings is the joined text. -/
@[simp] theorem ofString_append (s t : String) :
    ofString (s ++ t) = ofString s ++ ofString t := by
  ext1
  simp

/-- Characters alone are always characters. -/
theorem mapM_char?_map (cs : List Char) :
    (cs.map CodePoint.char).mapM CodePoint.char? = some cs := by
  induction cs with
  | nil => rfl
  | cons c cs ih => simp [CodePoint.char?, ih]

/-- A string is recovered from its text. -/
@[simp] theorem string?_ofString (s : String) : (ofString s).string? = some s := by
  rw [string?, points_ofString, mapM_char?_map]
  exact congrArg some (String.ofList_toList ..)

/-- Strings with one text are equal. -/
theorem ofString_inj {s t : String} : ofString s = ofString t ↔ s = t :=
  ⟨fun h => by simpa using congrArg string? h, fun h => h ▸ rfl⟩

end Text

end Latchwork
