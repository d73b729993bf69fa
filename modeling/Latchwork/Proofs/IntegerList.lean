import Latchwork.Proofs.ReadBack
import Latchwork.Proofs.RoundTrip

/-!
# Lists of integers in parameters

A parameter can list integers as a text. The grammar of such texts is given here without the reader:
blanks around the brackets and inside them, commas between the items, and numerals that may have
blanks around them, one sign, digits of any script and single low lines. The reader accepts exactly
these texts and gives the integers in order; all others are malformed. What is printed for a list of
integers is such a text, as long as no integer has too many digits.
-/

namespace Latchwork

open Text

/-! ### Trimming and dividing -/

namespace Text

/-- Is a core what is left of characters once those of a class are dropped at both ends? -/
structure IsTrimmed (drops : Char → Bool) (core cs : List Char) : Prop where
  around : ∃ before after, cs = before ++ core ++ after ∧ (∀ c ∈ before, drops c = true) ∧
    ∀ c ∈ after, drops c = true
  first : ∀ c ∈ core.head?, drops c = false
  last : ∀ c ∈ core.getLast?, drops c = false

variable {drops : Char → Bool} {core cs : List Char}

private theorem dropWhile_eq_self (h : ∀ c ∈ cs.head?, drops c = false) :
    cs.dropWhile drops = cs := by
  cases cs with
  | nil => rfl
  | cons c rest => rw [List.dropWhile_cons_of_neg (by simp [h c rfl])]

/-- A trimmed text is a core. -/
theorem isTrimmed_trimEnds (drops : Char → Bool) (cs : List Char) :
    IsTrimmed drops (trimEnds drops cs) cs := by
  let kept := cs.dropWhile drops
  change IsTrimmed drops (kept.rdropWhile drops) cs
  have hsplit : cs = cs.takeWhile drops ++ kept.rdropWhile drops ++ kept.rtakeWhile drops := by
    rw [List.append_assoc, List.rdropWhile_append_rtakeWhile, List.takeWhile_append_dropWhile]
  refine ⟨⟨_, _, hsplit, fun c hc => List.mem_takeWhile_imp hc, fun c hc =>
    List.mem_rtakeWhile_imp hc⟩, ?_, ?_⟩
  · intro c hc
    -- the first character of the core is the first that the front leaves
    have hhead : kept.head? = some c := by
      obtain ⟨after, hafter⟩ := List.rdropWhile_prefix drops kept
      rw [← hafter, List.head?_append, Option.mem_def.1 hc, Option.some_or]
    have hkept := List.head?_dropWhile_not drops cs
    rw [hhead] at hkept
    exact hkept
  · intro c hc
    obtain ⟨hne, rfl⟩ := List.mem_getLast?_eq_getLast hc
    simpa using List.rdropWhile_last_not drops kept hne

private theorem IsTrimmed.eq (h : IsTrimmed drops core cs) : trimEnds drops cs = core := by
  obtain ⟨⟨before, after, rfl, hbefore, hafter⟩, hfirst, hlast⟩ := h
  unfold trimEnds
  rw [List.append_assoc, List.dropWhile_append_of_pos hbefore]
  by_cases hempty : core = []
  · subst hempty
    rw [List.nil_append, List.dropWhile_eq_nil_iff.2 hafter]
    rfl
  · have hkept : ∀ c ∈ (core ++ after).head?, drops c = false := by
      rwa [List.head?_append_of_ne_nil core hempty]
    have hrest : ∀ c ∈ core.reverse.head?, drops c = false := by rwa [List.head?_reverse]
    rw [dropWhile_eq_self hkept, List.reverse_append,
      List.dropWhile_append_of_pos (by simpa using hafter), dropWhile_eq_self hrest,
      List.reverse_reverse]

private theorem isTrimmed_self (hfirst : ∀ c ∈ cs.head?, drops c = false)
    (hlast : ∀ c ∈ cs.getLast?, drops c = false) : IsTrimmed drops cs cs :=
  ⟨⟨[], [], by simp, by simp, by simp⟩, hfirst, hlast⟩

private theorem trimEnds_eq_iff : trimEnds drops cs = core ↔ IsTrimmed drops core cs :=
  ⟨fun h => h ▸ isTrimmed_trimEnds drops cs, IsTrimmed.eq⟩

/-- What holds of all elements of lists that are not empty holds of both ends of the joined list. -/
theorem ends_intercalate {α : Type} {p : α → Prop} (separator : List α) {items : List (List α)}
    (h : ∀ item ∈ items, item ≠ [] ∧ ∀ x ∈ item, p x) :
    (∀ x ∈ (separator.intercalate items).head?, p x) ∧
      ∀ x ∈ (separator.intercalate items).getLast?, p x := by
  by_cases hne : items = []
  · simp [hne]
  constructor
  · obtain ⟨first, rest, rfl⟩ := List.exists_cons_of_ne_nil hne
    obtain ⟨hfirst, hall⟩ := h first List.mem_cons_self
    intro x hx
    have hhead : x ∈ first.head? := by
      cases rest with
      | nil => simpa using hx
      | cons next rest =>
        rwa [List.intercalate_cons_cons, List.append_assoc, List.head?_append_of_ne_nil _ hfirst]
          at hx
    exact hall x (List.mem_of_head? hhead)
  · obtain ⟨before, last, rfl⟩ := (List.eq_nil_or_concat' items).resolve_left hne
    obtain ⟨hlast, hall⟩ := h last (by simp)
    intro x hx
    rw [getLast?_intercalate hlast] at hx
    exact hall x (List.mem_of_getLast? hx)

/-- Are items the parts of a text between its commas? -/
structure IsDivided (items : List (List Char)) (cs : List Char) : Prop where
  nonempty : items ≠ []
  joined : [','].intercalate items = cs
  free : ∀ item ∈ items, ',' ∉ item

private theorem splitOn_eq_iff {items : List (List Char)} :
    cs.splitOn ',' = items ↔ IsDivided items cs := by
  constructor
  · rintro rfl
    exact ⟨List.splitOn_ne_nil ',' cs, List.intercalate_splitOn ',', fun item hitem =>
      not_mem_of_mem_splitOn hitem⟩
  · rintro ⟨hne, rfl, hfree⟩
    exact List.splitOn_intercalate ',' hfree hne

end Text

/-! ### Numerals -/

namespace Numeral

/-- Digits of any script, with at most one low line between two of them, and their values. -/
inductive AreDigits : List Char → List Nat → Prop where
  | last {c : Char} {d : Nat} (h : digitValue? c = some d) : AreDigits [c] [d]
  | next {c : Char} {d : Nat} {cs : List Char} {ds : List Nat} (h : digitValue? c = some d)
    (hrest : AreDigits cs ds) : AreDigits (c :: cs) (d :: ds)
  | spaced {c : Char} {d : Nat} {cs : List Char} {ds : List Nat} (h : digitValue? c = some d)
    (hrest : AreDigits cs ds) : AreDigits (c :: '_' :: cs) (d :: ds)

private theorem digitValue?_lowLine : digitValue? '_' = none := by decide

private theorem digits?_cons {c : Char} {cs : List Char} {ds : List Nat} :
    digits? (c :: cs) = some ds ↔
      ∃ d later, digitValue? c = some d ∧ laterDigits? cs = some later ∧ ds = d :: later := by
  simp only [digits?, Option.bind_eq_some_iff, Option.map_eq_some_iff]
  constructor
  · rintro ⟨d, hd, later, hlater, rfl⟩
    exact ⟨d, later, hd, hlater, rfl⟩
  · rintro ⟨d, later, hd, hlater, rfl⟩
    exact ⟨d, hd, later, hlater, rfl⟩

private theorem laterDigits?_eq {cs : List Char} (h : cs ≠ []) :
    laterDigits? cs = digits? (if cs.head? = some '_' then cs.tail else cs) := by
  fun_cases laterDigits? cs with
  | case1 => exact absurd rfl h
  | case2 c rest => rfl
  | case3 c rest hother =>
    by_cases hc : c = '_'
    · subst hc
      cases rest with
      | nil => rfl
      | cons c' rest => exact absurd rfl (hother c' rest rfl)
    · simp [hc, digits?]

private theorem AreDigits.head? {cs : List Char} {ds : List Nat} (h : AreDigits cs ds) :
    ∃ c d, cs.head? = some c ∧ digitValue? c = some d := by
  cases h with
  | last h => exact ⟨_, _, rfl, h⟩
  | next h => exact ⟨_, _, rfl, h⟩
  | spaced h => exact ⟨_, _, rfl, h⟩

/-- The digits of an unsigned numeral, as its grammar has them. -/
theorem digits?_eq_some_iff {cs : List Char} {ds : List Nat} :
    digits? cs = some ds ↔ AreDigits cs ds := by
  constructor
  · intro h
    induction hn : cs.length using Nat.strongRecOn generalizing cs ds with
    | ind n ih =>
      cases cs with
      | nil => cases h
      | cons c rest =>
        obtain ⟨d, later, hd, hlater, rfl⟩ := digits?_cons.1 h
        by_cases hrest : rest = []
        · subst hrest
          cases hlater
          exact .last hd
        · rw [laterDigits?_eq hrest] at hlater
          by_cases hlow : rest.head? = some '_'
          · obtain ⟨tail, rfl⟩ := List.head?_eq_some_iff.1 hlow
            exact .spaced hd (ih tail.length (by simp [← hn]) hlater rfl)
          · rw [if_neg hlow] at hlater
            exact .next hd (ih rest.length (by simp [← hn]) hlater rfl)
  · intro h
    induction h with
    | last h => exact digits?_cons.2 ⟨_, [], h, rfl, rfl⟩
    | @next c d cs ds h hrest ih =>
      obtain ⟨first, value, hfirst, hvalue⟩ := hrest.head?
      have hlow : cs.head? ≠ some '_' := by
        rintro heq
        cases hfirst.symm.trans heq
        cases digitValue?_lowLine.symm.trans hvalue
      have hne : cs ≠ [] := by
        rintro rfl
        cases hfirst
      have hlater : laterDigits? cs = some ds := by rw [laterDigits?_eq hne, if_neg hlow, ih]
      exact digits?_cons.2 ⟨_, _, h, hlater, rfl⟩
    | spaced h hrest ih =>
      exact digits?_cons.2 ⟨_, _, h, (laterDigits?_eq (by simp)).trans ih, rfl⟩

private theorem ofDigits_eq (ds : List Nat) : ofDigits ds = Nat.ofDigits 10 ds.reverse := by
  rw [ofDigits, Nat.ofDigits_eq_foldr, List.foldr_reverse]
  congr 1
  funext n d
  simp [Nat.add_comm]

/-- Do characters spell a natural number in digits, of which there are not too many? -/
def IsNatural (cs : List Char) (n : Nat) : Prop :=
  ∃ ds, AreDigits cs ds ∧ ds.length ≤ digitLimit ∧ Nat.ofDigits 10 ds.reverse = n

private theorem natural?_eq_some_iff {cs : List Char} {n : Nat} :
    natural? cs = some n ↔ IsNatural cs n := by
  simp only [natural?, Option.bind_eq_some_iff, Option.ite_none_right_eq_some, Option.some.injEq,
    digits?_eq_some_iff, ofDigits_eq]
  rfl

/-- Do characters spell an integer: a natural number with at most one sign before it? -/
inductive IsSigned : List Char → Int → Prop where
  | plain {cs : List Char} {n : Nat} (h : IsNatural cs n) : IsSigned cs n
  | plus {cs : List Char} {n : Nat} (h : IsNatural cs n) : IsSigned ('+' :: cs) n
  | minus {cs : List Char} {n : Nat} (h : IsNatural cs n) : IsSigned ('-' :: cs) (-n)

private theorem map_natural?_eq_some_iff {cs : List Char} {f : Int → Int} {z : Int} :
    (do let n ← natural? cs; pure (n : Int) : Option Int).map f = some z ↔
      ∃ n : Nat, IsNatural cs n ∧ f n = z := by
  simp only [← natural?_eq_some_iff]
  cases natural? cs <;> simp

private theorem signed?_eq_some_iff {cs : List Char} {z : Int} :
    signed? cs = some z ↔ IsSigned cs z := by
  constructor
  · intro h
    unfold signed? at h
    split at h
    · obtain ⟨n, hn, rfl⟩ := map_natural?_eq_some_iff.1 h
      exact .minus hn
    · obtain ⟨n, hn, rfl⟩ := map_natural?_eq_some_iff.1 h
      exact .plus hn
    · obtain ⟨n, hn, rfl⟩ := map_natural?_eq_some_iff.1 h
      exact .plain hn
  · intro h
    cases h with
    | plus h => exact map_natural?_eq_some_iff.2 ⟨_, h, rfl⟩
    | minus h => exact map_natural?_eq_some_iff.2 ⟨_, h, rfl⟩
    | plain h =>
      -- no digit is a sign
      obtain ⟨ds, hds, -⟩ := id h
      obtain ⟨c, d, hc, hd⟩ := hds.head?
      unfold signed?
      split
      · cases hc
        cases hd
      · cases hc
        cases hd
      · exact map_natural?_eq_some_iff.2 ⟨_, h, rfl⟩

/-- Do characters spell an integer, with blanks around it? -/
def IsInteger (cs : List Char) (z : Int) : Prop :=
  ∃ core, IsTrimmed isNumeralBlank core cs ∧ IsSigned core z

private theorem integer?_eq_some_iff {cs : List Char} {z : Int} :
    integer? cs = some z ↔ IsInteger cs z := by
  rw [integer?, signed?_eq_some_iff]
  simp only [IsInteger, ← trimEnds_eq_iff, exists_eq_left']

end Numeral

/-! ### Lists -/

private theorem Outcome.mapM_eq_some_iff {α β : Type} {f : α → Option β} {xs : List α}
    {ys : List β} :
    xs.mapM f = some ys ↔ List.Forall₂ (fun x y => f x = some y) xs ys := by
  induction xs generalizing ys with
  | nil => cases ys <;> simp
  | cons x xs ih =>
    rw [List.mapM_cons]
    cases ys with
    | nil => cases f x <;> cases xs.mapM f <;> simp
    | cons y ys =>
      rw [List.forall₂_cons, ← ih]
      cases f x <;> cases xs.mapM f <;> simp

namespace Text

/-- Do characters list integers: numerals between commas, or nothing, with blanks around? -/
def IsListBody (body : List Char) (xs : List Int) : Prop :=
  ∃ core, IsTrimmed isBlank core body ∧ (core = [] ∧ xs = [] ∨
    core ≠ [] ∧ ∃ items, IsDivided items core ∧ List.Forall₂ Numeral.IsInteger items xs)

/-- Is a text a list of integers in brackets, with blanks around? -/
def IsIntegerList (t : Text) (xs : List Int) : Prop :=
  ∃ cs body, t.points = cs.map .char ∧ IsTrimmed isBlank ('[' :: body ++ [']']) cs ∧
    IsListBody body xs

end Text

namespace Instance

private theorem body_eq_some_iff {body : List Char} {xs : List Int} :
    (if (strip body).isEmpty then some [] else ((strip body).splitOn ',').mapM Numeral.integer?) =
      some xs ↔ IsListBody body xs := by
  simp only [IsListBody, ← trimEnds_eq_iff, ← splitOn_eq_iff, exists_eq_left']
  change _ ↔ strip body = [] ∧ _ ∨ strip body ≠ [] ∧ List.Forall₂ _ ((strip body).splitOn ',') xs
  by_cases hempty : strip body = []
  · simp [hempty, eq_comm]
  · rw [if_neg (by simpa using hempty), Outcome.mapM_eq_some_iff]
    simp [hempty, Numeral.integer?_eq_some_iff]

private theorem integersOf?_eq_some_iff {cs : List Char} {xs : List Int} :
    integersOf? cs = some xs ↔
      ∃ body, IsTrimmed isBlank ('[' :: body ++ [']']) cs ∧ IsListBody body xs := by
  simp only [← trimEnds_eq_iff, ← body_eq_some_iff]
  change _ ↔ ∃ body, strip cs = '[' :: body ++ [']'] ∧ _
  unfold integersOf?
  constructor
  · intro h
    split at h
    · next rest hstrip =>
      split at h
      · next hlast =>
        obtain ⟨body, rfl⟩ := List.getLast?_eq_some_iff.1 (beq_iff_eq.1 hlast)
        rw [List.dropLast_concat] at h
        exact ⟨body, hstrip, h⟩
      · cases h
    · cases h
  · rintro ⟨body, hstrip, h⟩
    rw [hstrip]
    simpa using h

private theorem integerList?_eq_some_iff {t : Text} {xs : List Int} :
    integerList? t = some xs ↔ t.IsIntegerList xs := by
  unfold integerList? IsIntegerList
  rw [Option.bind_eq_some_iff]
  simp only [integersOf?_eq_some_iff]
  constructor
  · rintro ⟨s, hs, body, hbody⟩
    obtain ⟨cs, hcs, rfl⟩ := Option.map_eq_some_iff.1 hs
    rw [String.toList_ofList] at hbody
    exact ⟨cs, body, eq_map_of_mapM_char? hcs, hbody⟩
  · rintro ⟨cs, body, hpoints, hbody⟩
    refine ⟨String.ofList cs, ?_, body, by simpa using hbody⟩
    rw [string?, hpoints, mapM_char?_map]
    rfl

end Instance

/-! ### Printed lists -/

namespace Numeral

private theorem digitValue?_of_isDigit {c : Char} (h : c.isDigit = true) :
    digitValue? c = some (c.toNat - 48) := by
  obtain ⟨hlow, hhigh⟩ : 48 ≤ c.toNat ∧ c.toNat ≤ 57 := Char.isDigit_iff_toNat.1 h
  rw [digitValue?, zeroDigits, List.find?_cons_of_pos (by simp; omega)]
  rfl

private theorem areDigits_of_isDigit {cs : List Char} (hne : cs ≠ [])
    (h : ∀ c ∈ cs, c.isDigit = true) :
    AreDigits cs (cs.map fun c => c.toNat - 48) := by
  induction cs with
  | nil => exact absurd rfl hne
  | cons c rest ih =>
    rw [List.forall_mem_cons] at h
    have hc := digitValue?_of_isDigit h.1
    by_cases hrest : rest = []
    · subst hrest
      exact .last hc
    · exact .next hc (ih hrest h.2)

private theorem isNatural_toDigits {n : Nat} (h : (Nat.toDigits 10 n).length ≤ digitLimit) :
    IsNatural (Nat.toDigits 10 n) n := by
  refine ⟨_, areDigits_of_isDigit Nat.toDigits_ne_nil fun c => Json.isDigit_of_mem_toDigits, ?_, ?_⟩
  · rwa [List.length_map]
  · rw [← ofDigits_eq]
    exact Json.natOf_toDigits n

private theorem isSigned_integer {z : Int} (h : (Nat.toDigits 10 z.natAbs).length ≤ digitLimit) :
    IsSigned (integer z).toList z := by
  cases z with
  | ofNat n =>
    rw [integer, toList_decimal]
    exact .plain (isNatural_toDigits h)
  | negSucc n =>
    rw [integer, String.toList_append, toList_decimal]
    exact .minus (isNatural_toDigits h)

private theorem mem_integer {z : Int} {c : Char} (h : c ∈ (integer z).toList) :
    c = '-' ∨ c.isDigit = true := by
  cases z with
  | ofNat n =>
    rw [integer, toList_decimal] at h
    exact .inr (Json.isDigit_of_mem_toDigits h)
  | negSucc n =>
    rw [integer, String.toList_append, toList_decimal] at h
    rcases List.mem_append.1 h with h | h
    · exact .inl (by simpa using h)
    · exact .inr (Json.isDigit_of_mem_toDigits h)

private theorem integer_ne_nil (z : Int) : (integer z).toList ≠ [] := by
  cases z with
  | ofNat n => simp [integer, decimal]
  | negSucc n => simp [integer]

private theorem contains_digit {ranges : CodeRanges} (h : ∀ r ∈ ranges, r.2 < 48 ∨ 57 < r.1)
    {c : Char} (hc : c.isDigit = true) : ranges.contains (.char c) = false := by
  obtain ⟨hlow, hhigh⟩ : 48 ≤ c.toNat ∧ c.toNat ≤ 57 := Char.isDigit_iff_toNat.1 hc
  apply Bool.eq_false_iff.2
  intro hcontains
  obtain ⟨r, hr, hle, hge⟩ := CodeRanges.contains_iff.1 hcontains
  have := h r hr
  simp only [CodePoint.value] at hle hge
  omega

private theorem kept_of_mem_integer {z : Int} {c : Char} (h : c ∈ (integer z).toList) :
    isBlank c = false ∧ isNumeralBlank c = false ∧ c ≠ ',' := by
  rcases mem_integer h with rfl | hdigit
  · decide
  · refine ⟨contains_digit (by decide) hdigit, contains_digit (by decide) hdigit, ?_⟩
    rintro rfl
    cases hdigit

end Numeral

private theorem Numeral.isInteger_integer {z : Int}
    (h : (Nat.toDigits 10 z.natAbs).length ≤ digitLimit)
    (blanks : List Char) (hblanks : ∀ c ∈ blanks, isNumeralBlank c = true) :
    IsInteger (blanks ++ (integer z).toList) z := by
  refine ⟨(integer z).toList, ⟨⟨blanks, [], by simp, hblanks, by simp⟩, fun c hc => ?_, fun c hc =>
    ?_⟩, isSigned_integer h⟩
  · exact (kept_of_mem_integer (List.mem_of_head? hc)).2.1
  · exact (kept_of_mem_integer (List.mem_of_getLast? hc)).2.1

/-- Printed integers with a comma and a blank between two of them list these integers. -/
theorem Text.isListBody_intercalate {xs : List Int}
    (h : ∀ x ∈ xs, (Nat.toDigits 10 x.natAbs).length ≤ Numeral.digitLimit) :
    IsListBody ([',', ' '].intercalate (xs.map fun x => (Numeral.integer x).toList)) xs := by
  have hitems : ∀ item ∈ xs.map fun x => (Numeral.integer x).toList,
      item ≠ [] ∧ ∀ c ∈ item, isBlank c = false := by
    rw [List.forall_mem_map]
    exact fun x _ => ⟨Numeral.integer_ne_nil x, fun c hc => (Numeral.kept_of_mem_integer hc).1⟩
  have hfree : ∀ x : Int, ',' ∉ (Numeral.integer x).toList := fun x hmem =>
    (Numeral.kept_of_mem_integer hmem).2.2 rfl
  obtain ⟨hfirst, hlast⟩ := ends_intercalate [',', ' '] hitems
  refine ⟨_, isTrimmed_self hfirst hlast, ?_⟩
  cases xs with
  | nil => exact .inl ⟨rfl, rfl⟩
  | cons x xs =>
    rw [List.forall_mem_cons] at h
    -- the blank after a comma belongs to the numeral that follows
    have hdivided : IsDivided
        ((Numeral.integer x).toList :: xs.map fun x => ' ' :: (Numeral.integer x).toList)
        ([',', ' '].intercalate ((x :: xs).map fun x => (Numeral.integer x).toList)) := by
      refine ⟨by simp, ?_, ?_⟩
      · rw [List.map_cons, intercalate_blank, List.map_map]
        rfl
      · rw [List.forall_mem_cons, List.forall_mem_map]
        exact ⟨hfree x, fun x _ => by simp [hfree x]⟩
    have hne : [',', ' '].intercalate ((x :: xs).map fun x => (Numeral.integer x).toList) ≠ [] := by
      intro hnil
      have hempty := hdivided.joined.trans hnil
      cases xs with
      | nil => exact Numeral.integer_ne_nil x (by simpa using hempty)
      | cons y ys => simp at hempty
    refine .inr ⟨hne, _, hdivided, .cons (Numeral.isInteger_integer h.1 [] (by simp)) ?_⟩
    rw [List.forall₂_map_left_iff, List.forall₂_same]
    intro x hx
    exact Numeral.isInteger_integer (h.2 x hx) [' '] (List.forall_mem_singleton.2 rfl)

namespace Value

private theorem displayItems_int (xs : List Int) :
    displayItems (xs.map .int) = xs.map Numeral.integer := by
  induction xs with
  | nil => rfl
  | cons x xs ih =>
    rw [List.map_cons, displayItems, ih]
    rfl

private theorem isIntegerList_plain {xs : List Int}
    (h : ∀ x ∈ xs, (Nat.toDigits 10 x.natAbs).length ≤ Numeral.digitLimit) :
    (Value.list (xs.map .int)).plain.IsIntegerList xs := by
  refine ⟨_, _, ?_, isTrimmed_self ?_ ?_, Text.isListBody_intercalate h⟩
  · rw [plain, display, displayItems_int]
    · simp [String.toList_intercalate, Function.comp_def]
    · simp
  · intro c hc
    cases hc
    rfl
  · intro c hc
    rw [List.getLast?_concat] at hc
    cases hc
    rfl

private theorem short_numerals {xs : List Int}
    (h : ∀ x ∈ xs, (Nat.toDigits 10 x.natAbs).length ≤ Numeral.digitLimit) :
    ∀ k ∈ (Value.list (xs.map .int)).numerals, Numeral.isTooLong k = false := by
  induction xs with
  | nil => simp [numerals, numeralsOfItems]
  | cons x xs ih =>
    intro k hk
    rcases List.mem_append.1 (hk : k ∈ [x.natAbs] ++ (Value.list (xs.map .int)).numerals) with
      hk | hk
    · rw [List.mem_singleton.1 hk, Numeral.isTooLong, decide_eq_false_iff_not, Nat.not_lt]
      exact h x (.head _)
    · exact ih (fun y hy => h y (.tail _ hy)) k hk

end Value

namespace Instance

private theorem intsParam_of_param? {i : Instance} {key t : Text} (h : i.param? key = some t) :
    i.intsParam key =
      (integerList? t).elim (.error (.notIntegerList i.id i.kind key t)) .ok := by
  unfold intsParam param
  rw [h]
  cases hlist : integerList? t <;> simp [bind, Except.bind, hlist] <;> rfl

/-- A parameter gives integers exactly if its text is a list of them, and any other text makes the
instance malformed. An instance that is made with a list of integers as a parameter gives them
back, as long as none of them has too many digits. -/
theorem intsParam_ok_iff_isIntegerList (key : Text) :
    (∀ (i : Instance) (t : Text), i.param? key = some t →
      (∀ xs, i.intsParam key = .ok xs ↔ t.IsIntegerList xs) ∧
      ((∀ xs, ¬t.IsIntegerList xs) → ∃ e, i.intsParam key = .error e ∧
        e.family = .malformedInstance ∧ e.subject = i.id.toValue ∧ e.subjectName = .text key)) ∧
    ∀ (id : Index) (kind : Text) (inputs : List Wire) (count : Index) (xs : List Int),
      (∀ x ∈ xs, (Nat.toDigits 10 x.natAbs).length ≤ Numeral.digitLimit) →
      ∃ i, make id.toValue
          { kind := .text kind
            params := .object [(key, .list (xs.map .int))]
            inputs := .list (inputs.map Wire.toValue)
            outputCount := count.toValue } = .ok i ∧
        i.intsParam key = .ok xs := by
  have hread : ∀ {i : Instance} {t : Text}, i.param? key = some t →
      ∀ xs, i.intsParam key = .ok xs ↔ t.IsIntegerList xs := by
    intro i t h xs
    rw [intsParam_of_param? h, ← integerList?_eq_some_iff]
    cases integerList? t <;> simp
  refine ⟨fun i t h => ⟨hread h, fun hother => ?_⟩, fun id kind inputs count xs hxs => ?_⟩
  · have hnone : integerList? t = none := by
      apply Option.eq_none_iff_forall_ne_some.2
      intro xs hxs
      exact hother xs (integerList?_eq_some_iff.1 hxs)
    rw [intsParam_of_param? h, hnone]
    exact ⟨_, rfl, rfl, rfl, rfl⟩
  · let text := (Value.list (xs.map .int)).plain
    refine ⟨⟨id, kind, [(key, text)], inputs, count⟩, ?_, ?_⟩
    · have hwritten : (Value.list (xs.map .int)).written = .ok text :=
        Numeral.written_eq_ok.2 ⟨Value.short_numerals hxs, rfl⟩
      simp only [make, Index.index?_toValue, Value.text?, paramsOf, Netlist.wiresOf_map,
        List.mapM_cons, hwritten]
      rfl
    · have hparam : param? ⟨id, kind, [(key, text)], inputs, count⟩ key = some text := by
        simp [param?]
      exact (hread hparam xs).2 (Value.isIntegerList_plain hxs)

/-- A memory whose contents are spelled with blanks, signs, a low line and digits of two scripts. -/
def spelledContents : Instance :=
  ⟨.number 1, "ram", [("init", " [ +1_0,-\u0662 ]\n")], [], .number 1⟩

/-- Its contents are read in order, and a list with a negative integer comes back. -/
theorem spelledContents_read :
    spelledContents.param? "init" = some " [ +1_0,-\u0662 ]\n" ∧
      (Text.ofString " [ +1_0,-\u0662 ]\n").IsIntegerList [10, -2] ∧
      (∀ x ∈ [-10, 0], (Nat.toDigits 10 x.natAbs).length ≤ Numeral.digitLimit) ∧
      ∃ i, make (.int 1)
          { kind := .text "ram"
            params := .object [("init", .list [.int (-10), .int 0])]
            inputs := .list []
            outputCount := .int 1 } = .ok i ∧
        i.intsParam "init" = .ok [-10, 0] := by
  obtain ⟨hread, hback⟩ := intsParam_ok_iff_isIntegerList "init"
  have hparam : spelledContents.param? "init" = some " [ +1_0,-\u0662 ]\n" := by decide
  have hshort : ∀ x ∈ [-10, 0], (Nat.toDigits 10 x.natAbs).length ≤ Numeral.digitLimit := by
    decide
  refine ⟨hparam, ((hread _ _ hparam).1 _).1 ?_, hshort, ?_⟩
  · rfl
  · exact hback (.number 1) "ram" [] (.number 1) [-10, 0] hshort

end Instance

end Latchwork
