import Latchwork.Json.Printer
import Latchwork.Json.Reader
import Latchwork.Proofs.Outcome

/-!
# Written values are read back

Reading the text of a value gives the value again, for values without floating-point numbers whose
numerals are not too long, whose texts hold characters only and whose keys are pairwise distinct. A
half of a surrogate pair that stands alone may join with the next one, and a repeated key keeps its
last value only: neither is read back.

The reader is followed state by state. What is written for a value takes it from any state that
awaits a value to the state that the value is delivered to, whatever comes after.
-/

namespace Latchwork

/-- Are all code points of the text characters? -/
def Text.IsString (t : Text) : Prop := ∃ s : String, t = s

/-- A value that is read back from what is written for it. -/
inductive Value.Portable : Value → Prop where
  | null : Portable .null
  | bool (b : Bool) : Portable (.bool b)
  | int {z : Int} (h : Numeral.isTooLong z.natAbs = false) : Portable (.int z)
  | text {t : Text} (h : t.IsString) : Portable (.text t)
  | list {items : List Value} (h : ∀ v ∈ items, Portable v) : Portable (.list items)
  | object {members : List (Text × Value)} (distinct : (members.map Prod.fst).Nodup)
    (names : ∀ m ∈ members, m.1.IsString) (h : ∀ m ∈ members, Portable m.2) :
    Portable (.object members)

namespace Json

/-! ### Strings -/

private theorem toList_hexadecimalOfWidth_succ {width : Nat} (hwidth : 0 < width) (n : Nat) :
    (Numeral.hexadecimalOfWidth (width + 1) n).toList =
      (Numeral.hexadecimalOfWidth width (n / 16)).toList ++ [Nat.digitChar (n % 16)] := by
  simp only [Numeral.hexadecimalOfWidth, String.toList_ofList]
  by_cases hn : n < 16
  · have hzero : n / 16 = 0 := by omega
    have hdigits : List.replicate width '0' = List.replicate (width - 1) '0' ++ ['0'] := by
      rw [← List.replicate_succ']
      congr 1
      omega
    rw [Nat.toDigits_of_lt_base hn, hzero, Nat.mod_eq_of_lt hn]
    simp [hdigits]
  · rw [Nat.toDigits_of_base_le (by decide) (by omega)]
    simp

/-- Four hexadecimal digits give back the number that they spell. -/
theorem hexQuad?_hexadecimal {code : Nat} (h : code < 0x10000) :
    ∃ a b c d : Char, (Numeral.hexadecimalOfWidth 4 code).toList = [a, b, c, d] ∧
      hexQuad? a b c d = some code := by
  have hdigit : ∀ d < 16, hexDigit? (Nat.digitChar d) = some d := by decide
  have hfirst : (Numeral.hexadecimalOfWidth 1 (code / 16 / 16 / 16)).toList =
      [Nat.digitChar (code / 16 / 16 / 16)] := by
    rw [Numeral.hexadecimalOfWidth, String.toList_ofList, Nat.toDigits_of_lt_base (by omega)]
    rfl
  refine ⟨Nat.digitChar (code / 16 / 16 / 16), Nat.digitChar (code / 16 / 16 % 16),
    Nat.digitChar (code / 16 % 16), Nat.digitChar (code % 16), ?_, ?_⟩
  · rw [toList_hexadecimalOfWidth_succ (by decide), toList_hexadecimalOfWidth_succ (by decide),
      toList_hexadecimalOfWidth_succ (by decide), hfirst]
    rfl
  · have hvalue : ((code / 16 / 16 / 16 * 16 + code / 16 / 16 % 16) * 16 + code / 16 % 16) * 16 +
        code % 16 = code := by omega
    simp only [hexQuad?, hdigit _ (show code / 16 / 16 / 16 < 16 by omega),
      hdigit _ (show code / 16 / 16 % 16 < 16 by omega),
      hdigit _ (show code / 16 % 16 < 16 by omega), hdigit _ (show code % 16 < 16 by omega)]
    exact congrArg some hvalue

private theorem length_unicodeEscape {code : Nat} (h : code < 0x10000) :
    (unicodeEscape code).length = 6 := by
  obtain ⟨a, b, c, d, hdigits, -⟩ := hexQuad?_hexadecimal h
  rw [unicodeEscape, hdigits]
  rfl

/-- A code point in front of what the scan of a string gives. -/
def withPoint (p : CodePoint) (scanned : Except Fault (List CodePoint × Nat)) :
    Except Fault (List CodePoint × Nat) :=
  scanned.map fun r => (p :: r.1, r.2)

section Strings

variable {start offset : Nat} {rest : List CodePoint}

private theorem scanString_visible {c : Char} (hquote : c ≠ Text.doubleQuote) (hslash : c ≠ '\\')
    (hvisible : 32 ≤ c.toNat) :
    scanString start offset (.char c :: rest) =
      withPoint c (scanString start (offset + 1) rest) := by
  have hpoint : CodePoint.char c ≠ .char '\\' := by simpa using hslash
  have hlow : ¬(CodePoint.char c).value < 32 := by
    simp only [CodePoint.value]
    omega
  rw [scanString]
  · rw [if_neg (by simpa using hquote), if_neg hlow]
    cases scanString start (offset + 1) rest <;> rfl
  · exact fun h => absurd h hpoint
  · exact fun _ _ _ _ _ _ h => absurd h hpoint
  · exact fun _ _ h => absurd h hpoint

private theorem scanString_escape {e c : Char} (he : escaped? e = some c) :
    scanString start offset (.char '\\' :: .char e :: rest) =
      withPoint c (scanString start (offset + 2) rest) := by
  have hu : e ≠ 'u' := by
    rintro rfl
    cases he
  rw [scanString]
  · have hescaped : (CodePoint.char e).char?.bind escaped? = some c := he
    rw [hescaped]
    cases scanString start (offset + 2) rest <;> rfl
  · intro a b c d next rest' h
    exact absurd (CodePoint.char.inj h) hu

private theorem scanString_number {code : Nat} (hcode : code < 0x10000)
    (hhigh : isHighSurrogate code = false) (hrest : rest ≠ []) :
    scanString start offset ((unicodeEscape code).map .char ++ rest) =
      withPoint (.ofValue code) (scanString start (offset + 6) rest) := by
  obtain ⟨a, b, c, d, hdigits, hquad⟩ := hexQuad?_hexadecimal hcode
  obtain ⟨next, rest, rfl⟩ := List.exists_cons_of_ne_nil hrest
  simp only [unicodeEscape, hdigits, List.map_cons, List.map_nil, List.cons_append, List.nil_append]
  rw [scanString, hquad]
  simp only [hhigh]
  cases scanString start (offset + 6) (next :: rest) <;> rfl

/-- A character that is written as a surrogate pair. -/
theorem scanString_pair {high low : Nat} (hhigh : isHighSurrogate high = true)
    (hlow : isLowSurrogate low = true) (hrest : rest ≠ []) :
    scanString start offset ((unicodeEscape high ++ unicodeEscape low).map .char ++ rest) =
      withPoint (pointOfPair high low) (scanString start (offset + 12) rest) := by
  have hhigh' : high < 0x10000 := by
    simp only [isHighSurrogate, Bool.and_eq_true, decide_eq_true_eq] at hhigh
    omega
  have hlow' : low < 0x10000 := by
    simp only [isLowSurrogate, Bool.and_eq_true, decide_eq_true_eq] at hlow
    omega
  obtain ⟨a, b, c, d, hdigits, hquad⟩ := hexQuad?_hexadecimal hhigh'
  obtain ⟨a', b', c', d', hdigits', hquad'⟩ := hexQuad?_hexadecimal hlow'
  obtain ⟨next, rest, rfl⟩ := List.exists_cons_of_ne_nil hrest
  simp only [unicodeEscape, hdigits, hdigits', List.map_cons, List.map_nil, List.cons_append,
    List.nil_append]
  rw [scanString, hquad]
  simp only [hhigh, if_true, lowSurrogate?, hquad', hlow]
  change (scanString start (offset + 12) (next :: rest) >>= _) = _
  cases scanString start (offset + 12) (next :: rest) <;> rfl

private theorem scanString_basic {c : Char} (hc : c.toNat < 0x10000) (hrest : rest ≠ []) :
    scanString start offset ((unicodeEscape c.toNat).map .char ++ rest) =
      withPoint c (scanString start (offset + (unicodeEscape c.toNat).length) rest) := by
  have hhigh : isHighSurrogate c.toNat = false := by
    have hvalid := c.valid
    simp only [isHighSurrogate, Bool.and_eq_false_iff, decide_eq_false_iff_not]
    simp only [UInt32.isValidChar, Nat.isValidChar, Char.toNat_val] at hvalid
    omega
  rw [scanString_number hc hhigh hrest, length_unicodeEscape hc]
  exact congrArg (withPoint · _) (CodePoint.ofValue_value (.char c))

/-- A character above the basic plane is read back from the two halves of its pair. -/
theorem scanString_astral {c : Char} (hc : ¬c.toNat < 0x10000) (hrest : rest ≠ []) :
    scanString start offset ((unicodeEscape (0xD800 + (c.toNat - 0x10000) / 0x400) ++
        unicodeEscape (0xDC00 + (c.toNat - 0x10000) % 0x400)).map .char ++ rest) =
      withPoint c (scanString start (offset + (unicodeEscape
        (0xD800 + (c.toNat - 0x10000) / 0x400) ++
          unicodeEscape (0xDC00 + (c.toNat - 0x10000) % 0x400)).length) rest) := by
  have hlt : c.toNat < 0x110000 := by
    have hvalid := c.valid
    simp only [UInt32.isValidChar, Nat.isValidChar, Char.toNat_val] at hvalid
    omega
  have hhigh : isHighSurrogate (0xD800 + (c.toNat - 0x10000) / 0x400) = true := by
    simp only [isHighSurrogate, Bool.and_eq_true, decide_eq_true_eq]
    omega
  have hlow : isLowSurrogate (0xDC00 + (c.toNat - 0x10000) % 0x400) = true := by
    simp only [isLowSurrogate, Bool.and_eq_true, decide_eq_true_eq]
    omega
  have hpoint : pointOfPair (0xD800 + (c.toNat - 0x10000) / 0x400)
      (0xDC00 + (c.toNat - 0x10000) % 0x400) = .char c := by
    rw [pointOfPair, show 0x10000 + (0xD800 + (c.toNat - 0x10000) / 0x400 - 0xD800) * 0x400 +
      (0xDC00 + (c.toNat - 0x10000) % 0x400 - 0xDC00) = c.toNat by omega]
    exact CodePoint.ofValue_value (.char c)
  rw [scanString_pair hhigh hlow hrest, hpoint, List.length_append,
    length_unicodeEscape (by omega), length_unicodeEscape (by omega)]

/-- What is written for a character is read as that character. -/
theorem scanString_stringChar (c : Char) (hrest : rest ≠ []) :
    scanString start offset ((stringChar c).map .char ++ rest) =
      withPoint c (scanString start (offset + (stringChar c).length) rest) := by
  unfold stringChar
  split
  · next h =>
    have he : escaped? c = some c := by
      rcases Bool.or_eq_true_iff.1 h with h | h <;> (rw [of_decide_eq_true h]; rfl)
    exact scanString_escape he
  split
  · next hescape hvisible =>
    simp only [Bool.or_eq_true, decide_eq_true_eq, not_or] at hescape
    simp only [Bool.and_eq_true, decide_eq_true_eq] at hvisible
    exact scanString_visible hescape.1 hescape.2 hvisible.1
  split
  · next h =>
    rw [h]
    exact scanString_escape rfl
  split
  · next h =>
    rw [h]
    exact scanString_escape rfl
  split
  · next h =>
    rw [h]
    exact scanString_escape rfl
  split
  · next h =>
    rw [← Char.ofNat_toNat c, h]
    exact scanString_escape rfl
  split
  · next h =>
    rw [← Char.ofNat_toNat c, h]
    exact scanString_escape rfl
  split
  · next h => exact scanString_basic h hrest
  · next h => exact scanString_astral h hrest

/-- What is written for characters is read up to the closing quote. -/
theorem scanString_flatMap (cs : List Char) (rest : List CodePoint) :
    scanString start offset
        ((cs.flatMap stringChar).map .char ++ .char Text.doubleQuote :: rest) =
      .ok (cs.map .char, offset + (cs.flatMap stringChar).length + 1) := by
  induction cs generalizing offset with
  | nil =>
    have hpoint : CodePoint.char Text.doubleQuote ≠ .char '\\' := by decide
    rw [List.flatMap_nil, List.map_nil, List.nil_append, scanString]
    · rfl
    · exact fun h => absurd h hpoint
    · exact fun _ _ _ _ _ _ h => absurd h hpoint
    · exact fun _ _ h => absurd h hpoint
  | cons c cs ih =>
    rw [List.flatMap_cons, List.map_append, List.append_assoc,
      scanString_stringChar c (by simp), ih]
    simp [withPoint, Except.map, Nat.add_assoc]

end Strings

/-! ### Numerals -/

private theorem eq_zero_of_head?_toDigits {n : Nat} (h : (Nat.toDigits 10 n).head? = some '0') :
    n = 0 := by
  induction n using Nat.strongRecOn with
  | ind n ih =>
    by_cases hn : n < 10
    · rw [Nat.toDigits_of_lt_base hn, List.head?_cons] at h
      have hdigit : ∀ d < 10, d.digitChar = '0' → d = 0 := by decide
      exact hdigit n hn (Option.some.inj h)
    · rw [Nat.toDigits_of_base_le (by decide) (by omega),
        List.head?_append_of_ne_nil _ Nat.toDigits_ne_nil] at h
      have := ih (n / 10) (by omega) h
      omega

/-- The digits of a number spell it. -/
theorem natOf_toDigits (n : Nat) : NumeralParts.natOf (Nat.toDigits 10 n) = n := by
  rw [NumeralParts.natOf, Numeral.ofDigits, List.foldl_map]
  exact Nat.ofDigitChars_ten_toDigits

/-- Code points with which no numeral goes on. -/
def Closes (rest : List CodePoint) : Prop := numeralChars rest = []

/-- The digits of a number after a sign, if there is one. -/
def signed (negative : Bool) (n : Nat) : List Char :=
  if negative then '-' :: Nat.toDigits 10 n else Nat.toDigits 10 n

theorem isDigit_of_mem_toDigits {n : Nat} {c : Char} (h : c ∈ Nat.toDigits 10 n) :
    c.isDigit = true :=
  Nat.isDigit_of_mem_toDigits (by decide) (by decide) h

private theorem numeralChars_signed (negative : Bool) (n : Nat) {rest : List CodePoint}
    (hrest : Closes rest) :
    numeralChars ((signed negative n).map .char ++ rest) = signed negative n := by
  have hdigits : ∀ cs : List Char, (∀ c ∈ cs, c.isDigit = true) →
      numeralChars (cs.map .char ++ rest) = cs := by
    intro cs hcs
    induction cs with
    | nil => exact hrest
    | cons c cs ih =>
      rw [List.map_cons, List.cons_append, numeralChars, if_pos (by simp [hcs c]),
        ih fun c' hc' => hcs c' (.tail _ hc')]
  cases negative with
  | false => exact hdigits _ fun c => isDigit_of_mem_toDigits
  | true => exact congrArg ('-' :: ·) (hdigits _ fun c => isDigit_of_mem_toDigits)

private theorem head?_signed (negative : Bool) (n : Nat) :
    ∃ p ∈ ((signed negative n).map CodePoint.char).head?, isSpace p = false := by
  cases negative with
  | true => exact ⟨.char '-', rfl, rfl⟩
  | false =>
    obtain ⟨c, later, hcons⟩ := List.exists_cons_of_ne_nil (Nat.toDigits_ne_nil (n := n) (b := 10))
    have hdigit : c.isDigit = true := isDigit_of_mem_toDigits (by rw [hcons]; exact .head _)
    refine ⟨.char c, by rw [signed, hcons]; rfl, ?_⟩
    apply Bool.eq_false_iff.2
    intro hspace
    simp only [isSpace, Bool.or_eq_true, decide_eq_true_eq, CodePoint.char.injEq] at hspace
    rcases hspace with ((rfl | rfl) | rfl) | rfl <;> cases hdigit

/-- The parts of an integer numeral. -/
theorem scan?_signed (negative : Bool) (n : Nat) :
    NumeralParts.scan? (signed negative n) =
      some ⟨negative, Nat.toDigits 10 n, none, none⟩ := by
  have hwhole : (if (Nat.toDigits 10 n).head? == some '0' then ['0']
      else (Nat.toDigits 10 n).takeWhile Char.isDigit) = Nat.toDigits 10 n := by
    split
    · next h =>
      rw [eq_zero_of_head?_toDigits (beq_iff_eq.1 h)]
      rfl
    · exact List.takeWhile_eq_self_iff.2 fun c => isDigit_of_mem_toDigits
  cases negative with
  | false =>
    have hsign : ((Nat.toDigits 10 n).head? == some '-') = false := by
      apply Bool.eq_false_iff.2
      intro h
      have := isDigit_of_mem_toDigits (List.mem_of_head? (beq_iff_eq.1 h))
      cases this
    simp only [signed, NumeralParts.scan?, hsign, Bool.false_eq_true, if_false, hwhole]
    simp [Nat.toDigits_ne_nil]
  | true =>
    simp only [signed, NumeralParts.scan?, if_true, List.head?_cons, beq_self_eq_true,
      List.drop_succ_cons, List.drop_zero, hwhole]
    simp [Nat.toDigits_ne_nil]

private theorem find?_constants_signed (negative : Bool) (n : Nat) (rest : List CodePoint) :
    (constants.find? fun c => (Text.ofString c.1).points.isPrefixOf
      ((signed negative n).map .char ++ rest)) = none := by
  obtain ⟨first, later, hcons⟩ :=
    List.exists_cons_of_ne_nil (Nat.toDigits_ne_nil (n := n) (b := 10))
  have hfirst : first.isDigit = true := isDigit_of_mem_toDigits (by rw [hcons]; exact .head _)
  have hne : ∀ x ∈ ['n', 't', 'f', 'N', 'I', '-'], ¬x = first := by
    have hletters : ∀ x ∈ ['n', 't', 'f', 'N', 'I', '-'], x.isDigit = false := by simp
    rintro x hx rfl
    rw [hletters x hx] at hfirst
    cases hfirst
  simp only [List.forall_mem_cons] at hne
  rw [signed, hcons]
  cases negative <;> simp [constants, hne]

private theorem scanToken_signed (offset : Nat) (negative : Bool) {n : Nat}
    (hn : Numeral.isTooLong n = false) {rest : List CodePoint} (hrest : Closes rest) :
    scanToken offset ((signed negative n).map .char ++ rest) =
      (.scalar (.int (if negative then -(n : Int) else n)), (signed negative n).length) := by
  have hlength : ¬Numeral.digitLimit < (Nat.toDigits 10 n).length := decide_eq_false_iff_not.1 hn
  unfold scanToken
  rw [find?_constants_signed, numeralChars_signed negative n hrest, scan?_signed]
  simp only [NumeralParts.token, NumeralParts.length, if_neg hlength, natOf_toDigits]
  cases negative <;> simp [signed, Nat.add_comm]

private theorem toList_integer (z : Int) :
    ∃ negative n, z = (if negative then -(n : Int) else n) ∧ z.natAbs = n ∧
      (Numeral.integer z).toList = signed negative n := by
  cases z with
  | ofNat n => exact ⟨false, n, rfl, rfl, String.toList_ofList⟩
  | negSucc n =>
    refine ⟨true, n + 1, rfl, rfl, ?_⟩
    simp [Numeral.integer, Numeral.decimal, signed]

/-! ### Steps of the reader -/

/-- From one state before some code points, the reader comes to another state before others. -/
def Leads (here : State) (s : List CodePoint) (there : State) (t : List CodePoint) : Prop :=
  ∀ stop offset, ∃ offset', here.run stop (tokens offset s) = there.run stop (tokens offset' t)

section Steps

variable {here there : State} {s t : List CodePoint}

private theorem Leads.trans {between : State} {u : List CodePoint} (h : Leads here s between t)
    (h' : Leads between t there u) : Leads here s there u := by
  intro stop offset
  obtain ⟨offset', hrun⟩ := h stop offset
  obtain ⟨offset'', hrun'⟩ := h' stop offset'
  exact ⟨offset'', hrun.trans hrun'⟩

private theorem leads_spaces {blanks : List CodePoint} (h : ∀ p ∈ blanks, isSpace p = true)
    (here : State) (s : List CodePoint) : Leads here (blanks ++ s) here s := by
  induction blanks with
  | nil => exact fun _ offset => ⟨offset, rfl⟩
  | cons p blanks ih =>
    intro stop offset
    obtain ⟨offset', hrun⟩ := ih (fun q hq => h q (.tail _ hq)) stop (offset + 1)
    refine ⟨offset', ?_⟩
    rw [List.cons_append, tokens, if_pos (h p (.head _)), hrun]

private theorem leads_lineBreak (depth : Nat) (here : State) (s : List CodePoint) :
    Leads here ((lineBreak depth : Text).points ++ s) here s := by
  refine leads_spaces (fun p hp => ?_) here s
  simp only [lineBreak, Text.points_ofString, String.toList_append, String.toList_ofList,
    List.map_append, List.mem_append, List.map_replicate] at hp
  rcases hp with hp | hp
  · rw [List.mem_singleton.1 hp]
    rfl
  · rw [List.eq_of_mem_replicate hp]
    rfl

private theorem closes_lineBreak (depth : Nat) (s : List CodePoint) :
    Closes ((lineBreak depth : Text).points ++ s) := by
  simp [Closes, lineBreak, numeralChars]

private theorem leads_token {token : Token} (spelled : List CodePoint)
    (hstart : ∃ p ∈ spelled.head?, isSpace p = false)
    (hscan : ∀ offset, scanToken offset (spelled ++ s) = (token, spelled.length))
    (hstep : ∀ offset, here.step ⟨offset, token⟩ = .ok there) :
    Leads here (spelled ++ s) there s := by
  obtain ⟨p, hp, hspace⟩ := hstart
  obtain ⟨later, rfl⟩ := List.head?_eq_some_iff.1 hp
  intro stop offset
  refine ⟨offset + 1 + later.length, ?_⟩
  have htoken := hscan offset
  rw [List.cons_append] at htoken ⊢
  rw [tokens, if_neg (by simp [hspace]), htoken]
  dsimp only
  rw [State.run, hstep, List.length_cons, Nat.add_sub_cancel, List.drop_left]
  rfl

private theorem scanToken_quote {offset stop : Nat} {points : List CodePoint}
    (h : scanString offset (offset + 1) s = .ok (points, stop)) :
    scanToken offset (.char Text.doubleQuote :: s) = (.text ⟨points⟩, stop - offset) := by
  have hconstants : (constants.find? fun c => (Text.ofString c.1).points.isPrefixOf
      (.char Text.doubleQuote :: s)) = none := rfl
  have hnumeral : NumeralParts.scan? (numeralChars (.char Text.doubleQuote :: s)) = none := rfl
  unfold scanToken
  rw [hconstants, hnumeral]
  dsimp only
  rw [if_neg (by decide), if_neg (by decide), if_neg (by decide), if_neg (by decide),
    if_neg (by decide), if_neg (by decide), if_pos rfl, h]

/-- A string is one step of the machine. -/
theorem leads_string {text : Text} (htext : text.IsString)
    (hstep : ∀ offset, here.step ⟨offset, .text text⟩ = .ok there) :
    Leads here ((stringText text : Text).points ++ s) there s := by
  obtain ⟨name, rfl⟩ := htext
  have hpoints : (Text.ofString name).points.flatMap stringPoint =
      name.toList.flatMap stringChar := by
    rw [Text.points_ofString, List.flatMap_map]
    rfl
  have hspelled : (stringText name : Text).points = .char Text.doubleQuote ::
      ((name.toList.flatMap stringChar).map .char ++ [.char Text.doubleQuote]) := by
    rw [stringText, hpoints, Text.points_ofString, String.toList_ofList, List.map_append,
      List.map_cons, List.cons_append]
    rfl
  rw [hspelled]
  refine leads_token _ ⟨_, rfl, rfl⟩ (fun offset => ?_) hstep
  have hscan : scanString offset (offset + 1)
      ((name.toList.flatMap stringChar).map .char ++ .char Text.doubleQuote :: s) = _ :=
    scanString_flatMap name.toList s
  rw [List.cons_append, List.append_assoc, List.singleton_append, scanToken_quote hscan,
    Prod.mk.injEq]
  refine ⟨rfl, ?_⟩
  rw [List.length_cons, List.length_append, List.length_map, List.length_singleton]
  omega

end Steps

/-! ### Values -/

/-- A state from which a value goes to a context. -/
def State.Awaits (here : State) (context : Context) : Prop :=
  ∀ token : Located, token.token ≠ .closeList → here.step token = context.step token

private theorem awaits_value (context : Context) :
    (State.value context).Awaits context := fun _ _ => rfl

private theorem awaits_listStart (outer : Context) :
    (State.listStart outer).Awaits (.inList [] outer) := by
  intro token h
  obtain ⟨offset, token⟩ := token
  cases token with
  | closeList => exact absurd rfl h
  | _ => rfl

/-- What is written for a value takes the reader to where the value is delivered. -/
def Arrives (v : Value) : Prop :=
  ∀ (depth : Nat) {here : State} {context : Context} {rest : List CodePoint},
    here.Awaits context → Closes rest → context.depth + v.depth ≤ nestingLimit →
    Leads here ((textAt depth v : Text).points ++ rest) (context.deliver v) rest

private theorem arrives_of_scalar {v : Value} {spelled : List CodePoint}
    (htext : ∀ depth, (textAt depth v : Text).points = spelled)
    (hstart : ∃ p ∈ spelled.head?, isSpace p = false)
    (hscan : ∀ offset rest, Closes rest →
      scanToken offset (spelled ++ rest) = (.scalar v, spelled.length)) : Arrives v := by
  intro depth here context rest hhere hrest _
  rw [htext]
  refine leads_token spelled hstart (fun offset => hscan offset rest hrest) fun offset => ?_
  rw [hhere _ (by nofun)]
  rfl

private theorem depth_le_of_mem_items {v : Value} {items : List Value} (h : v ∈ items) :
    v.depth ≤ Value.depthOfItems items := by
  induction items with
  | nil => cases h
  | cons w items ih =>
    rw [Value.depthOfItems]
    rcases List.mem_cons.1 h with rfl | h
    · exact Nat.le_max_left _ _
    · exact Nat.le_trans (ih h) (Nat.le_max_right _ _)

private theorem depth_le_of_mem_members {m : Text × Value} {members : List (Text × Value)}
    (h : m ∈ members) : m.2.depth ≤ Value.depthOfMembers members := by
  induction members with
  | nil => cases h
  | cons k members ih =>
    rw [Value.depthOfMembers]
    rcases List.mem_cons.1 h with rfl | h
    · exact Nat.le_max_left _ _
    · exact Nat.le_trans (ih h) (Nat.le_max_right _ _)

/-- The elements of a list arrive one after the other. -/
theorem leads_items {outer : Context} {tail : List CodePoint} (depth : Nat) (htail : Closes tail)
    {items : List Value} (hne : items ≠ []) (hall : ∀ v ∈ items, Arrives v)
    (hdepth : ∀ v ∈ items, outer.depth + 1 + v.depth ≤ nestingLimit) {here : State}
    {before : List Value} (hhere : here.Awaits (.inList before outer)) :
    Leads here (((",".intercalate (itemTexts depth items) : String) : Text).points ++ tail)
      (.listNext (items.reverse ++ before) outer) tail := by
  induction items generalizing here before with
  | nil => exact absurd rfl hne
  | cons v items ih =>
    have hv := hall v (.head _)
    have hvdepth := hdepth v (.head _)
    cases items with
    | nil =>
      rw [itemTexts, itemTexts, String.intercalate_singleton, Text.ofString_append,
        Text.points_append, List.append_assoc]
      exact (leads_lineBreak depth here _).trans (hv depth hhere htail hvdepth)
    | cons w items =>
      rw [itemTexts, itemTexts, String.intercalate_cons_cons, ← itemTexts]
      simp only [Text.ofString_append, Text.points_append, List.append_assoc]
      refine (leads_lineBreak depth here _).trans ((hv depth hhere (by rfl) hvdepth).trans ?_)
      have hcomma : Leads (Context.deliver v (.inList before outer))
          ((Text.ofString ",").points ++
            (((",".intercalate (itemTexts depth (w :: items)) : String) : Text).points ++ tail))
          (.value (.inList (v :: before) outer))
          (((",".intercalate (itemTexts depth (w :: items)) : String) : Text).points ++ tail) :=
        leads_token _ ⟨_, rfl, rfl⟩ (fun _ => rfl) fun _ => rfl
      refine hcomma.trans ?_
      have hrest := ih (by simp) (fun x hx => hall x (.tail _ hx))
        (fun x hx => hdepth x (.tail _ hx)) (awaits_value (.inList (v :: before) outer))
      rw [List.reverse_cons, List.append_assoc]
      exact hrest

/-- A state from which the key of a member is read. -/
def State.AwaitsKey (here : State) (members : List (Text × Value)) (outer : Context) : Prop :=
  ∀ offset name, here.step ⟨offset, .text name⟩ = .ok (.objectColon members name outer)

private theorem setMember_of_not_mem {key : Text} {v : Value} {members : List (Text × Value)}
    (h : key ∉ members.map Prod.fst) : setMember key v members = members ++ [(key, v)] := by
  induction members with
  | nil => rfl
  | cons m members ih =>
    rw [List.map_cons, List.mem_cons, not_or] at h
    rw [setMember, if_neg fun heq => h.1 heq.symm, ih h.2]
    rfl

/-- A member arrives: its key, a colon, and its value. -/
theorem leads_member {outer : Context} {tail : List CodePoint} (depth : Nat) (htail : Closes tail)
    {key : Text} {v : Value} (hkey : key.IsString) (hv : Arrives v)
    (hdepth : outer.depth + 1 + v.depth ≤ nestingLimit) {here : State}
    {before : List (Text × Value)} (hnew : key ∉ before.map Prod.fst)
    (hhere : here.AwaitsKey before outer) :
    Leads here (((lineBreak depth ++ stringText key ++ ": " ++ textAt depth v : String) :
        Text).points ++ tail)
      (.objectNext (before ++ [(key, v)]) outer) tail := by
  have hpoints : (Text.ofString ": ").points = [.char ':'] ++ [.char ' '] := rfl
  simp only [Text.ofString_append, Text.points_append, List.append_assoc, hpoints]
  refine (leads_lineBreak depth here _).trans ?_
  refine (leads_string hkey fun offset => hhere offset key).trans ?_
  have hcolon : Leads (.objectColon before key outer)
      ([.char ':'] ++ ([.char ' '] ++ ((textAt depth v : Text).points ++ tail)))
      (.value (.inObject before key outer))
      ([.char ' '] ++ ((textAt depth v : Text).points ++ tail)) :=
    leads_token [.char ':'] ⟨_, rfl, rfl⟩ (fun _ => rfl) fun _ => rfl
  refine hcolon.trans ((leads_spaces (by simp [isSpace]) _ _).trans ?_)
  have harrives := hv depth (awaits_value (.inObject before key outer)) htail hdepth
  rwa [Context.deliver, setMember_of_not_mem hnew] at harrives

/-- The members of an object arrive one after the other. -/
theorem leads_members {outer : Context} {tail : List CodePoint} (depth : Nat) (htail : Closes tail)
    {members : List (Text × Value)} (hne : members ≠ []) (hnames : ∀ m ∈ members, m.1.IsString)
    (hall : ∀ m ∈ members, Arrives m.2)
    (hdepth : ∀ m ∈ members, outer.depth + 1 + m.2.depth ≤ nestingLimit) {here : State}
    {before : List (Text × Value)} (hdistinct : ((before ++ members).map Prod.fst).Nodup)
    (hhere : here.AwaitsKey before outer) :
    Leads here (((",".intercalate (memberTexts depth members) : String) : Text).points ++ tail)
      (.objectNext (before ++ members) outer) tail := by
  induction members generalizing here before with
  | nil => exact absurd rfl hne
  | cons m members ih =>
    obtain ⟨key, v⟩ := m
    have hkey := hnames _ (.head _)
    have hv := hall _ (.head _)
    have hvdepth := hdepth _ (.head _)
    have hnew : key ∉ before.map Prod.fst := by
      rw [List.map_append, List.map_cons, List.nodup_append] at hdistinct
      exact fun hmem => hdistinct.2.2 key hmem key (.head _) rfl
    cases members with
    | nil =>
      rw [memberTexts, memberTexts, String.intercalate_singleton]
      exact leads_member depth htail hkey hv hvdepth hnew hhere
    | cons k members =>
      obtain ⟨key', w⟩ := k
      rw [memberTexts, memberTexts, String.intercalate_cons_cons, ← memberTexts,
        Text.ofString_append, Text.points_append, Text.ofString_append, Text.points_append,
        List.append_assoc, List.append_assoc]
      refine (leads_member depth (by rfl) hkey hv hvdepth hnew hhere).trans ?_
      have hcomma : Leads (.objectNext (before ++ [(key, v)]) outer)
          ((Text.ofString ",").points ++
            (((",".intercalate (memberTexts depth ((key', w) :: members)) : String) :
              Text).points ++ tail))
          (.objectKey (before ++ [(key, v)]) outer)
          (((",".intercalate (memberTexts depth ((key', w) :: members)) : String) :
            Text).points ++ tail) :=
        leads_token _ ⟨_, rfl, rfl⟩ (fun _ => rfl) fun _ => rfl
      refine hcomma.trans ?_
      have hsplit : before ++ (key, v) :: (key', w) :: members =
          (before ++ [(key, v)]) ++ (key', w) :: members := List.append_cons ..
      rw [hsplit] at hdistinct ⊢
      exact ih (by simp) (fun x hx => hnames x (.tail _ hx)) (fun x hx => hall x (.tail _ hx))
        (fun x hx => hdepth x (.tail _ hx)) hdistinct fun _ _ => rfl

private theorem arrives_int {z : Int} (h : Numeral.isTooLong z.natAbs = false) : Arrives
    (.int z) := by
  obtain ⟨negative, n, hz, rfl, hlist⟩ := toList_integer z
  have htext : ∀ depth, (textAt depth (.int z) : Text).points =
      (signed negative z.natAbs).map .char := by
    intro depth
    rw [textAt, scalarText, Text.points_ofString, hlist] <;> nofun
  refine arrives_of_scalar htext (head?_signed negative _) fun offset rest hrest => ?_
  rw [scanToken_signed offset negative h hrest, ← hz, List.length_map]

private theorem arrives_text {t : Text} (h : t.IsString) : Arrives (.text t) := by
  intro depth here context rest hhere hrest _
  have htext : textAt depth (.text t) = stringText t := by
    rw [textAt, scalarText] <;> nofun
  rw [htext]
  refine leads_string h fun offset => ?_
  rw [hhere _ (by nofun)]
  rfl

/-- A list arrives if its elements do. -/
theorem arrives_list {items : List Value} (hall : ∀ v ∈ items, Arrives v) :
    Arrives (.list items) := by
  intro depth here context rest hhere hrest hdepth
  rw [Value.depth] at hdepth
  have henter : ∀ offset, here.step ⟨offset, .openList⟩ = .ok (.listStart context) := by
    intro offset
    rw [hhere _ (by nofun)]
    exact if_pos (by omega)
  cases items with
  | nil =>
    rw [textAt]
    exact (leads_token [.char '['] ⟨_, rfl, rfl⟩ (fun _ => rfl) henter).trans
      (leads_token [.char ']'] ⟨_, rfl, rfl⟩ (fun _ => rfl) fun _ => rfl)
  | cons v items =>
    have hitems : ∀ w ∈ v :: items, context.depth + 1 + w.depth ≤ nestingLimit := by
      intro w hw
      have := depth_le_of_mem_items hw
      omega
    have hclose : ∀ offset, (State.listNext ((v :: items).reverse ++ []) context).step
        ⟨offset, .closeList⟩ = .ok (context.deliver (.list (v :: items))) := by
      intro offset
      change Except.ok (context.deliver (.list ((v :: items).reverse ++ []).reverse)) = _
      rw [List.append_nil, List.reverse_reverse]
    rw [textAt]
    · simp only [Text.ofString_append, Text.points_append, List.append_assoc]
      refine (leads_token _ ⟨_, rfl, rfl⟩ (fun _ => rfl) henter).trans ?_
      refine (leads_items (depth + 1) (closes_lineBreak depth _) (by simp) hall hitems
        (awaits_listStart context)).trans ?_
      exact (leads_lineBreak depth _ _).trans (leads_token _ ⟨_, rfl, rfl⟩ (fun _ => rfl) hclose)
    · nofun

/-- An object with distinct keys arrives if the values of its members do. -/
theorem arrives_object {members : List (Text × Value)}
    (hdistinct : (members.map Prod.fst).Nodup) (hnames : ∀ m ∈ members, m.1.IsString)
    (hall : ∀ m ∈ members, Arrives m.2) : Arrives (.object members) := by
  intro depth here context rest hhere hrest hdepth
  rw [Value.depth] at hdepth
  have henter : ∀ offset, here.step ⟨offset, .openObject⟩ = .ok (.objectStart context) := by
    intro offset
    rw [hhere _ (by nofun)]
    exact if_pos (by omega)
  cases members with
  | nil =>
    rw [textAt]
    exact (leads_token [.char '\x7b'] ⟨_, rfl, rfl⟩ (fun _ => rfl) henter).trans
      (leads_token [.char '\x7d'] ⟨_, rfl, rfl⟩ (fun _ => rfl) fun _ => rfl)
  | cons m members =>
    have hmembers : ∀ k ∈ m :: members, context.depth + 1 + k.2.depth ≤ nestingLimit := by
      intro k hk
      have := depth_le_of_mem_members hk
      omega
    rw [textAt]
    · simp only [Text.ofString_append, Text.points_append, List.append_assoc]
      refine (leads_token _ ⟨_, rfl, rfl⟩ (fun _ => rfl) henter).trans ?_
      refine (leads_members (depth + 1) (closes_lineBreak depth _) (by simp) hnames hall hmembers
        hdistinct fun _ _ => rfl).trans ?_
      refine (leads_lineBreak depth _ _).trans ?_
      exact leads_token _ ⟨_, rfl, rfl⟩ (fun _ => rfl) fun _ => rfl
    · nofun

private theorem arrives_of_portable {v : Value} (hv : v.Portable) : Arrives v := by
  induction hv with
  | null =>
    exact arrives_of_scalar (fun _ => by simp [textAt, scalarText]; rfl) ⟨_, rfl, rfl⟩
      fun _ _ _ => rfl
  | bool b =>
    cases b
    · exact arrives_of_scalar (fun _ => by simp [textAt, scalarText]; rfl) ⟨_, rfl, rfl⟩
        fun _ _ _ => rfl
    · exact arrives_of_scalar (fun _ => by simp [textAt, scalarText]; rfl) ⟨_, rfl, rfl⟩
        fun _ _ _ => rfl
  | int h => exact arrives_int h
  | text h => exact arrives_text h
  | list _ ih => exact arrives_list ih
  | object hdistinct hnames _ ih => exact arrives_object hdistinct hnames ih

private theorem run_byteOrderMark (stop : Nat) (s : List CodePoint) :
    State.run stop (.value .top) (tokens 0 (.ofValue 0xFEFF :: s)) =
      .error (.malformed .expectingValue 0) := by
  rw [tokens]
  rfl

private theorem closes_of_spaces {blanks : List CodePoint} (h : ∀ p ∈ blanks, isSpace p = true) :
    Closes blanks := by
  cases blanks with
  | nil => rfl
  | cons p blanks =>
    have hp := h p (.head _)
    simp only [isSpace, Bool.or_eq_true, decide_eq_true_eq] at hp
    rcases hp with ((rfl | rfl) | rfl) | rfl <;> rfl

/-- A portable value is read from what is written for it, also with blanks after it. -/
theorem read_print {v : Value} (hv : v.Portable) (hdepth : v.depth ≤ nestingLimit) {blanks : String}
    (hblanks : ∀ p ∈ (blanks : Text).points, isSpace p = true) :
    read (print v ++ blanks : String) = .ok v := by
  have hrun : State.run (print v ++ blanks : Text).points.length (.value .top)
      (tokens 0 (print v ++ blanks : Text).points) = .ok v := by
    have harrives := arrives_of_portable hv 0 (awaits_value .top) (closes_of_spaces hblanks) (by
      rwa [Context.depth, Nat.zero_add])
    have hspaces := leads_spaces hblanks (Context.deliver v .top) []
    rw [List.append_nil] at hspaces
    obtain ⟨offset, hrun⟩ := (harrives.trans hspaces) (print v ++ blanks : Text).points.length 0
    rw [tokens] at hrun
    exact hrun
  rw [Text.ofString_append, read, readPoints]
  split
  · next hmark =>
    obtain ⟨s, hs⟩ := List.head?_eq_some_iff.1 (beq_iff_eq.1 hmark)
    rw [hs, run_byteOrderMark] at hrun
    cases hrun
  · rw [hrun]
    rfl

end Json

end Latchwork
