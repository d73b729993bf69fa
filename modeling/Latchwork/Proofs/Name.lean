import Latchwork.Procedure.Name
import Mathlib

/-!
# Names do not clash

Where ids and ports are numbers, two names of a procedure are spelled alike only if they are the
same name. A generated name is a letter, the digits of an id, and a tail that starts with a low line
or is empty; the three can be read off its spelling. A given name that has not this form differs
from all of them.
-/

namespace Latchwork

namespace Index

/-- Was the index given as a number? -/
def IsNumber (i : Index) : Prop := i = .number i.value

private theorem IsNumber.eq {a b : Index} (ha : a.IsNumber) (hb : b.IsNumber)
    (h : a.value = b.value) :
    a = b := by
  rw [ha, hb, h]

end Index

/-- Are driver and port of a wire numbers? -/
def Wire.IsNumbered (w : Wire) : Prop := w.driver.IsNumber ∧ w.port.IsNumber

/-- Numbered wires are told apart by the values of driver and port. -/
theorem Wire.IsNumbered.eq {a b : Wire} (ha : a.IsNumbered) (hb : b.IsNumbered)
    (hd : a.driver.value = b.driver.value) (hp : a.port.value = b.port.value) : a = b := by
  cases a
  cases b
  simp only [Wire.mk.injEq]
  exact ⟨ha.1.eq hb.1 hd, ha.2.eq hb.2 hp⟩

/-- Code points with a property of characters are characters with it. -/
theorem CodePoint.exists_chars {p : Char → Bool} {points : List CodePoint}
    (h : ∀ point ∈ points, point.satisfies p = true) :
    ∃ cs : List Char, points = cs.map .char ∧ ∀ c ∈ cs, p c = true := by
  induction points with
  | nil => exact ⟨[], rfl, by simp⟩
  | cons point rest ih =>
    obtain ⟨cs, rfl, hcs⟩ := ih fun q hq => h q (.tail _ hq)
    cases point with
    | char c =>
      have hc : p c = true := by simpa [satisfies, char?] using h (.char c) (.head _)
      exact ⟨c :: cs, rfl, by simpa [hc] using hcs⟩
    | half index => simpa [satisfies, char?] using h (.half index) (.head _)

/-- The code points of an identifier are letters, digits and low lines. -/
theorem Text.isIdentifierPart_of_mem {t : Text} (h : t.isIdentifier = true) {p : CodePoint}
    (hp : p ∈ t.points) : ∃ c, p = .char c ∧ isIdentifierPart c = true := by
  have hpart : p.satisfies isIdentifierPart = true := by
    unfold isIdentifier isIdentifierPoints at h
    split at h
    · cases h
    next first rest hpoints =>
    rw [hpoints] at hp
    rw [Bool.and_eq_true] at h
    rcases List.mem_cons.mp hp with rfl | hp
    · cases p with
      | half index => cases h.1
      | char c =>
        have hstart : isIdentifierStart c = true := h.1
        simp only [isIdentifierStart, Bool.or_eq_true] at hstart
        simp only [CodePoint.satisfies, CodePoint.char?, Option.any_some, isIdentifierPart,
          Char.isAlphanum, Bool.or_eq_true]
        rcases hstart with hstart | hstart
        · exact .inl (.inl hstart)
        · exact .inr hstart
    · exact List.all_eq_true.mp h.2 p hp
  cases p with
  | half index => cases hpart
  | char c => exact ⟨c, rfl, hpart⟩

/-- What is neither a letter nor a digit nor a low line is not in an identifier. -/
theorem Text.not_mem_of_isIdentifier {t : Text} (h : t.isIdentifier = true) {c : Char}
    (hc : isIdentifierPart c = false) : .char c ∉ t.points := by
  intro hmem
  obtain ⟨c', heq, hpart⟩ := isIdentifierPart_of_mem h hmem
  cases heq
  cases hc.symm.trans hpart

/-- Is the tail of a generated name: nothing, or a low line and characters of identifiers? -/
def Name.IsTail (tail : List Char) : Prop :=
  tail = [] ∨ ∃ rest, tail = '_' :: rest ∧ ∀ c ∈ rest, Text.isIdentifierPart c = true

/-- A number and a tail are what follows the letter of a generated name. -/
theorem isNumbered_iff {points : List CodePoint} :
    isGeneratedName.isNumbered points = true ↔
      ∃ digits tail : List Char, digits ≠ [] ∧ (∀ c ∈ digits, c.isDigit = true) ∧
        Name.IsTail tail ∧ points = (digits ++ tail).map .char := by
  let isDigit : CodePoint → Bool := fun p => p.satisfies Char.isDigit
  constructor
  · intro h
    rw [isGeneratedName.isNumbered, Bool.and_eq_true] at h
    obtain ⟨hne, htail⟩ := h
    obtain ⟨digits, hdigits, hall⟩ := CodePoint.exists_chars (p := Char.isDigit)
      fun q (hq : q ∈ points.takeWhile isDigit) => List.mem_takeWhile_imp hq
    have hsplit : points = digits.map .char ++ points.dropWhile isDigit := by
      rw [← hdigits, List.takeWhile_append_dropWhile]
    have hdigits_ne : digits ≠ [] := by
      rintro rfl
      simp only [isDigit] at hdigits
      simp [hdigits] at hne
    split at htail
    · next hdrop =>
      refine ⟨digits, [], hdigits_ne, hall, .inl rfl, ?_⟩
      rw [hsplit, hdrop]
      simp
    · next rest hdrop =>
      obtain ⟨cs, rfl, hcs⟩ := CodePoint.exists_chars fun q hq => List.all_eq_true.1 htail q hq
      refine ⟨digits, '_' :: cs, hdigits_ne, hall, .inr ⟨cs, rfl, hcs⟩, ?_⟩
      rw [hsplit, hdrop]
      simp
    · cases htail
  · rintro ⟨digits, tail, hne, hall, htail, rfl⟩
    have hmap : ∀ q ∈ digits.map CodePoint.char, isDigit q = true := by
      simpa [isDigit, CodePoint.satisfies, CodePoint.char?] using hall
    have htake : ((digits ++ tail).map CodePoint.char).takeWhile isDigit = digits.map .char := by
      rw [List.map_append, List.takeWhile_append_of_pos hmap]
      rcases htail with rfl | ⟨rest, rfl, -⟩ <;>
        simp [isDigit, CodePoint.satisfies, CodePoint.char?]
    have hdrop : ((digits ++ tail).map CodePoint.char).dropWhile isDigit = tail.map .char := by
      rw [List.map_append, List.dropWhile_append_of_pos hmap]
      rcases htail with rfl | ⟨rest, rfl, -⟩ <;>
        simp [isDigit, CodePoint.satisfies, CodePoint.char?]
    simp only [isGeneratedName.isNumbered]
    rw [htake, hdrop]
    rcases htail with rfl | ⟨rest, rfl, hrest⟩
    · simpa using hne
    · simpa [hne, CodePoint.satisfies, CodePoint.char?] using hrest

namespace Name

/-- A name whose ids and ports are numbers, or a given one that has not the form of these. -/
def IsProper : Name → Prop
  | .given t => isGeneratedName t = false
  | .wire w => w.IsNumbered
  | .next id => id.IsNumber
  | .storage id => id.IsNumber
  | .address id _ => id.IsNumber
  | .data id _ => id.IsNumber
  | .read id _ => id.IsNumber

/-- The letter, the id and the tail of a generated name. -/
def parts : Name → Option (Char × Nat × List Char)
  | .given _ => none
  | .wire w => some ('w', w.driver.value,
      if w.port.value = 0 then [] else '_' :: Nat.toDigits 10 w.port.value)
  | .next id => some ('w', id.value, ['_'])
  | .storage id => some ('m', id.value, [])
  | .address id port => some ('m', id.value, '_' :: 'a' :: Nat.toDigits 10 port)
  | .data id port => some ('m', id.value, '_' :: 'd' :: Nat.toDigits 10 port)
  | .read id port => some ('m', id.value, '_' :: 'q' :: Nat.toDigits 10 port)

/-- A letter, the digits of a number, and a tail. -/
def spelled (letter : Char) (id : Nat) (tail : List Char) : List CodePoint :=
  (letter :: (Nat.toDigits 10 id ++ tail)).map .char

private theorem points_index {i : Index} (h : i.IsNumber) :
    i.text.toList = Nat.toDigits 10 i.value := by
  rw [h]
  simp [Index.text, Numeral.decimal]

/-- A generated name is spelled by its parts. -/
theorem points_text {n : Name} (hn : n.IsProper) {letter : Char} {id : Nat} {tail : List Char}
    (h : n.parts = some (letter, id, tail)) : n.text.points = spelled letter id tail := by
  cases n with
  | given t => cases h
  | wire w =>
    cases h
    simp only [text, Wire.name, spelled]
    split <;> simp [points_index hn.1, points_index hn.2]
  | next i =>
    cases h
    simp [text, spelled, points_index hn]
  | storage i =>
    cases h
    simp [text, spelled, points_index hn]
  | address i port =>
    cases h
    simp [text, spelled, points_index hn, Numeral.decimal]
  | data i port =>
    cases h
    simp [text, spelled, points_index hn, Numeral.decimal]
  | read i port =>
    cases h
    simp [text, spelled, points_index hn, Numeral.decimal]

private theorem head?_tail {n : Name} {letter : Char} {id : Nat} {tail : List Char}
    (h : n.parts = some (letter, id, tail)) : ∀ c ∈ tail.head?, c = '_' := by
  cases n with
  | given t => cases h
  | wire w =>
    cases h
    split <;> simp
  | _ =>
    cases h
    simp

private theorem toDigits_inj {a b : Nat} (h : Nat.toDigits 10 a = Nat.toDigits 10 b) : a = b := by
  have hv := congrArg (fun ds => Nat.ofDigitChars 10 ds 0) h
  simpa only [Nat.ofDigitChars_ten_toDigits] using hv

private theorem takeWhile_digits {id : Nat} {tail : List Char} (h : ∀ c ∈ tail.head?, c = '_') :
    (Nat.toDigits 10 id ++ tail).takeWhile Char.isDigit = Nat.toDigits 10 id := by
  have hdigits : ∀ c ∈ Nat.toDigits 10 id, c.isDigit = true := fun c hc =>
    Nat.isDigit_of_mem_toDigits (by decide) (by decide) hc
  rw [List.takeWhile_append_of_pos hdigits]
  cases tail with
  | nil => simp
  | cons c rest =>
    obtain rfl := h c rfl
    simp

private theorem spelled_inj {l l' : Char} {id id' : Nat} {tail tail' : List Char}
    (ht : ∀ c ∈ tail.head?, c = '_') (ht' : ∀ c ∈ tail'.head?, c = '_')
    (h : spelled l id tail = spelled l' id' tail') : l = l' ∧ id = id' ∧ tail = tail' := by
  have hchars := (List.map_inj_right fun a b => CodePoint.char.inj).1 h
  obtain ⟨hl, hrest⟩ := List.cons.inj hchars
  have hdigits : Nat.toDigits 10 id = Nat.toDigits 10 id' := by
    calc
      Nat.toDigits 10 id = (Nat.toDigits 10 id ++ tail).takeWhile Char.isDigit :=
        (takeWhile_digits ht).symm
      _ = (Nat.toDigits 10 id' ++ tail').takeWhile Char.isDigit := by rw [hrest]
      _ = Nat.toDigits 10 id' := takeWhile_digits ht'
  rw [hdigits] at hrest
  exact ⟨hl, toDigits_inj hdigits, List.append_cancel_left hrest⟩

/-- The name that has these parts. -/
def ofParts (letter : Char) (id : Nat) (tail : List Char) : Name :=
  match letter, tail with
  | 'w', [] => .wire ⟨.number id, .number 0⟩
  | 'w', ['_'] => .next (.number id)
  | 'w', _ :: digits => .wire ⟨.number id, .number (Nat.ofDigitChars 10 digits 0)⟩
  | _, '_' :: 'a' :: digits => .address (.number id) (Nat.ofDigitChars 10 digits 0)
  | _, '_' :: 'd' :: digits => .data (.number id) (Nat.ofDigitChars 10 digits 0)
  | _, '_' :: 'q' :: digits => .read (.number id) (Nat.ofDigitChars 10 digits 0)
  | _, _ => .storage (.number id)

/-- A name is recovered from its parts. -/
theorem ofParts_parts {n : Name} (hn : n.IsProper) {letter : Char} {id : Nat} {tail : List Char}
    (h : n.parts = some (letter, id, tail)) : ofParts letter id tail = n := by
  cases n with
  | given t => cases h
  | wire w =>
    obtain ⟨driver, port⟩ := w
    obtain ⟨hd, hp⟩ := hn
    change driver = .number driver.value at hd
    change port = .number port.value at hp
    cases h
    by_cases hz : port.value = 0
    · rw [hz] at hp
      rw [hd, hp]
      rfl
    · obtain ⟨digit, digits, hdigits⟩ := List.exists_cons_of_ne_nil
        (Nat.toDigits_ne_nil (n := port.value) (b := 10))
      have hvalue : Nat.ofDigitChars 10 (digit :: digits) 0 = port.value := by
        rw [← hdigits, Nat.ofDigitChars_ten_toDigits]
      simp only [hz, if_false, hdigits, ofParts, hvalue]
      rw [← hd, ← hp]
  | next i =>
    cases h
    exact congrArg Name.next hn.symm
  | storage i =>
    cases h
    exact congrArg Name.storage hn.symm
  | address i port =>
    cases h
    change Name.address (.number i.value) (Nat.ofDigitChars 10 (Nat.toDigits 10 port) 0) = _
    rw [Nat.ofDigitChars_ten_toDigits, ← hn]
  | data i port =>
    cases h
    change Name.data (.number i.value) (Nat.ofDigitChars 10 (Nat.toDigits 10 port) 0) = _
    rw [Nat.ofDigitChars_ten_toDigits, ← hn]
  | read i port =>
    cases h
    change Name.read (.number i.value) (Nat.ofDigitChars 10 (Nat.toDigits 10 port) 0) = _
    rw [Nat.ofDigitChars_ten_toDigits, ← hn]

/-- The characters of a tail can stand in an identifier. -/
theorem isIdentifierPart_tail {n : Name} {letter : Char} {id : Nat} {tail : List Char}
    (h : n.parts = some (letter, id, tail)) : ∀ c ∈ tail, Text.isIdentifierPart c = true := by
  have hdigits : ∀ k, ∀ c ∈ Nat.toDigits 10 k, Text.isIdentifierPart c = true := by
    intro k c hc
    have hd := Nat.isDigit_of_mem_toDigits (by decide) (by decide) hc
    simp [Text.isIdentifierPart, Char.isAlphanum, hd]
  intro c hc
  cases n with
  | given t => cases h
  | wire w =>
    cases h
    split at hc
    · cases hc
    · rcases List.mem_cons.1 hc with rfl | hc
      · rfl
      · exact hdigits _ c hc
  | next i =>
    cases h
    rw [List.mem_singleton.1 hc]
    rfl
  | storage i =>
    cases h
    cases hc
  | address i port | data i port | read i port =>
    cases h
    simp only [List.mem_cons] at hc
    rcases hc with rfl | rfl | hc
    · rfl
    · rfl
    · exact hdigits _ c hc

private theorem isNumbered_spelled (id : Nat) {tail : List Char} (ht : ∀ c ∈ tail.head?, c = '_')
    (hpart : ∀ c ∈ tail, Text.isIdentifierPart c = true) :
    isGeneratedName.isNumbered ((Nat.toDigits 10 id ++ tail).map .char) = true := by
  have hdigits : ∀ c ∈ Nat.toDigits 10 id, c.isDigit = true := fun c hc =>
    Nat.isDigit_of_mem_toDigits (by decide) (by decide) hc
  refine isNumbered_iff.2 ⟨Nat.toDigits 10 id, tail, Nat.toDigits_ne_nil, hdigits, ?_, rfl⟩
  cases tail with
  | nil => exact .inl rfl
  | cons c rest =>
    obtain rfl := ht c rfl
    exact .inr ⟨rest, rfl, fun c hc => hpart c (List.mem_cons_of_mem _ hc)⟩

/-- A proper name other than a given one has the form of generated names. -/
theorem isGeneratedName_text {n : Name} (hn : n.IsProper) {letter : Char} {id : Nat}
    {tail : List Char} (h : n.parts = some (letter, id, tail)) : isGeneratedName n.text = true := by
  have hnumbered := isNumbered_spelled id (head?_tail h) (isIdentifierPart_tail h)
  rw [isGeneratedName, points_text hn h, spelled, List.map_cons]
  cases n with
  | given t => cases h
  | _ =>
    cases h
    exact hnumbered

/-- Proper names are spelled alike only if they are the same. -/
theorem text_inj {a b : Name} (ha : a.IsProper) (hb : b.IsProper) (h : a.text = b.text) :
    a = b := by
  cases hpa : a.parts with
  | none =>
    cases hpb : b.parts with
    | none => cases a <;> cases b <;> simp_all [parts, text]
    | some q =>
      -- a given name has not the form that the other one has
      have hgenerated := isGeneratedName_text hb hpb
      cases a <;> simp_all [parts, text, IsProper]
  | some p =>
    cases hpb : b.parts with
    | none =>
      have hgenerated := isGeneratedName_text ha hpa
      cases b <;> simp_all [parts, text, IsProper]
    | some q =>
      have hspelled := points_text ha hpa
      rw [h, points_text hb hpb] at hspelled
      obtain ⟨hl, hid, ht⟩ := spelled_inj (head?_tail hpb) (head?_tail hpa) hspelled
      rw [← ofParts_parts ha hpa, ← ofParts_parts hb hpb, hl, hid, ht]

end Name

end Latchwork
