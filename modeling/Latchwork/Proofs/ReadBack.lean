import Latchwork.Json.Token
import Latchwork.Proofs.Outcome

/-!
# Emitted text, read back

Readers for the pieces that emitted text is made of: numerals, items between separators, and what
stands between two delimiters. They know the notation and not the printers. Each piece reads back as
what it was printed from, as long as no item holds its own separator.
-/

namespace Latchwork

namespace Numeral

@[simp] theorem toList_decimal (n : Nat) : (decimal n).toList = Nat.toDigits 10 n :=
  String.toList_ofList

@[simp] theorem toList_hexadecimal (n : Nat) : (hexadecimal n).toList = Nat.toDigits 16 n :=
  String.toList_ofList

/-- The number with one more digit, in a base of at most sixteen. -/
def extend? (base n : Nat) (c : Char) : Option Nat :=
  (Json.hexDigit? c).bind fun d => if d < base then some (base * n + d) else none

/-- The number that digits spell, most significant first. There is at least one of them. -/
def read? (base : Nat) (digits : List Char) : Option Nat :=
  if digits.isEmpty then none else digits.foldlM (extend? base) 0

/-- The number that a literal stands for: hexadecimal with a mark in front, and decimal without. -/
def literal? : List Char → Option Nat
  | '0' :: 'x' :: digits => read? 16 digits
  | digits => read? 10 digits

private theorem hexDigit?_digitChar {d : Nat} (h : d < 16) :
    Json.hexDigit? (Nat.digitChar d) = some d := by
  have hall : ∀ d < 16, Json.hexDigit? (Nat.digitChar d) = some d := by decide
  exact hall d h

variable {base : Nat}

private theorem extend?_digitChar (hhigh : base ≤ 16) {d : Nat} (h : d < base) (n : Nat) :
    extend? base n (Nat.digitChar d) = some (base * n + d) := by
  rw [extend?, hexDigit?_digitChar (by omega), Option.bind_some, if_pos h]

private theorem foldlM_toDigits (hlow : 1 < base) (hhigh : base ≤ 16) (n : Nat) :
    (Nat.toDigits base n).foldlM (extend? base) 0 = some n := by
  induction n using Nat.strongRecOn with
  | ind n ih =>
    by_cases h : n < base
    · rw [Nat.toDigits_of_lt_base h]
      simp [extend?_digitChar hhigh h]
    · have hsmaller : n / base < n := Nat.div_lt_self (by omega) hlow
      have hdigit : n % base < base := Nat.mod_lt n (by omega)
      rw [Nat.toDigits_of_base_le hlow (by omega), List.foldlM_append, ih _ hsmaller]
      simp [extend?_digitChar hhigh hdigit, Nat.div_add_mod]

private theorem read?_toDigits (hlow : 1 < base) (hhigh : base ≤ 16) (n : Nat) :
    read? base (Nat.toDigits base n) = some n := by
  have hne : (Nat.toDigits base n).isEmpty = false := by simp
  rw [read?, hne]
  exact foldlM_toDigits hlow hhigh n

theorem read?_decimal (n : Nat) : read? 10 (Nat.toDigits 10 n) = some n :=
  read?_toDigits (by decide) (by decide) n

theorem read?_hexadecimal (n : Nat) : read? 16 (Nat.toDigits 16 n) = some n :=
  read?_toDigits (by decide) (by decide) n

private theorem isSome_hexDigit? (hlow : 1 < base) (hhigh : base ≤ 16) {n : Nat} {c : Char}
    (h : c ∈ Nat.toDigits base n) : (Json.hexDigit? c).isSome := by
  induction n using Nat.strongRecOn with
  | ind n ih =>
    by_cases hn : n < base
    · rw [Nat.toDigits_of_lt_base hn, List.mem_singleton] at h
      rw [h, hexDigit?_digitChar (by omega)]
      rfl
    · rw [Nat.toDigits_of_base_le hlow (by omega), List.mem_append, List.mem_singleton] at h
      have hdigit : n % base < base := Nat.mod_lt n (by omega)
      cases h with
      | inl h => exact ih _ (Nat.div_lt_self (by omega) hlow) h
      | inr h =>
        rw [h, hexDigit?_digitChar (by omega)]
        rfl

theorem not_mem_decimal {c : Char} (hc : Json.hexDigit? c = none) (n : Nat) :
    c ∉ Nat.toDigits 10 n := by
  intro h
  simpa [hc] using isSome_hexDigit? (by decide) (by decide) h

theorem not_mem_hexadecimal {c : Char} (hc : Json.hexDigit? c = none) (n : Nat) :
    c ∉ Nat.toDigits 16 n := by
  intro h
  simpa [hc] using isSome_hexDigit? (by decide) (by decide) h

end Numeral

namespace Text

/-- What holds of the separator and of all items holds of the joined list. -/
theorem forall_mem_intercalate {α : Type} {p : α → Prop} {separator : List α}
    (hseparator : ∀ x ∈ separator, p x) {items : List (List α)}
    (h : ∀ item ∈ items, ∀ x ∈ item, p x) : ∀ x ∈ separator.intercalate items, p x := by
  induction items with
  | nil => simp
  | cons item items ih =>
    have hitem := h item List.mem_cons_self
    have hrest := ih fun other hother => h other (List.mem_cons_of_mem item hother)
    cases items with
    | nil => simpa using hitem
    | cons other items =>
      intro x hx
      rw [List.intercalate_cons_cons, List.mem_append, List.mem_append] at hx
      rcases hx with (hx | hx) | hx
      · exact hitem x hx
      · exact hseparator x hx
      · exact hrest x hx

/-- A function on elements goes through the joining of lists. -/
theorem map_intercalate {α β : Type} (f : α → β) (separator : List α) (items : List (List α)) :
    (separator.intercalate items).map f =
      (separator.map f).intercalate (items.map (List.map f)) := by
  induction items with
  | nil => rfl
  | cons item rest ih =>
    cases rest with
    | nil => simp
    | cons next rest => simpa [List.intercalate_cons_cons] using ih

/-- Joined lists end as the last of them does. -/
theorem getLast?_intercalate {α : Type} {separator last : List α} (h : last ≠ [])
    (before : List (List α)) :
    (separator.intercalate (before ++ [last])).getLast? = last.getLast? := by
  induction before with
  | nil => simp
  | cons first before ih =>
    rw [List.cons_append, List.intercalate_cons_of_ne_nil (by simp), List.getLast?_append, ih,
      Option.or_of_isSome (by simpa using h)]

/-- Characters are recovered from the code points that they are. -/
theorem eq_map_of_mapM_char? {points : List CodePoint} {cs : List Char}
    (h : points.mapM CodePoint.char? = some cs) : points = cs.map .char := by
  induction points generalizing cs with
  | nil =>
    cases h
    rfl
  | cons p rest ih =>
    rw [List.mapM_cons] at h
    cases p with
    | half index => cases h
    | char c =>
      change ((rest.mapM CodePoint.char?).bind fun later => some (c :: later)) = some cs at h
      obtain ⟨later, hlater, hcs⟩ := Option.bind_eq_some_iff.mp h
      cases hcs
      rw [ih hlater, List.map_cons]

/-- Digits, and characters from a given list, make up the text. -/
def IsMadeOf (extra cs : List Char) : Prop := ∀ c ∈ cs, (Json.hexDigit? c).isSome ∨ c ∈ extra

namespace IsMadeOf

variable {extra xs ys : List Char}

theorem of_subset (h : xs ⊆ extra) : IsMadeOf extra xs := fun _ hc => .inr (h hc)

theorem mono {more : List Char} (h : IsMadeOf extra xs) (hsub : extra ⊆ more) : IsMadeOf more xs :=
  fun c hc => (h c hc).imp_right fun hmem => hsub hmem

theorem append (hx : IsMadeOf extra xs) (hy : IsMadeOf extra ys) : IsMadeOf extra (xs ++ ys) := by
  intro c hc
  rcases List.mem_append.mp hc with hc | hc
  · exact hx c hc
  · exact hy c hc

theorem decimal (n : Nat) : IsMadeOf extra (Nat.toDigits 10 n) :=
  fun _ hc => .inl (Numeral.isSome_hexDigit? (by decide) (by decide) hc)

theorem hexadecimal (n : Nat) : IsMadeOf extra (Nat.toDigits 16 n) :=
  fun _ hc => .inl (Numeral.isSome_hexDigit? (by decide) (by decide) hc)

theorem intercalate (hx : IsMadeOf extra xs) {items : List (List Char)}
    (h : ∀ item ∈ items, IsMadeOf extra item) : IsMadeOf extra (xs.intercalate items) :=
  forall_mem_intercalate hx h

/-- A separator that is neither a digit nor allowed does not occur. -/
theorem not_mem (h : IsMadeOf extra xs) {c : Char} (hdigit : Json.hexDigit? c = none)
    (hextra : c ∉ extra) : c ∉ xs := by
  intro hc
  rcases h c hc with hsome | hmem
  · simp [hdigit] at hsome
  · exact hextra hmem

end IsMadeOf

/-- An index is spelled with digits or as a truth value. -/
theorem isMadeOf_index (i : Index) :
    IsMadeOf ['T', 'r', 'u', 'e', 'F', 'a', 'l', 's'] i.text.toList := by
  cases i with
  | number n =>
    rw [Index.text, Numeral.toList_decimal]
    exact .decimal n
  | flag b => cases b <;> exact .of_subset (by simp [Index.text])

/-- Drops the blanks at the two ends. -/
def trim (cs : List Char) : List Char := trimEnds (· == ' ') cs

/-- The text has no blank at its ends. -/
def IsTight (cs : List Char) : Prop := cs.head? ≠ some ' ' ∧ cs.getLast? ≠ some ' '

theorem IsTight.of_not_mem {cs : List Char} (h : ' ' ∉ cs) : IsTight cs :=
  ⟨fun hhead => h (List.mem_of_head? hhead), fun hlast => h (List.mem_of_getLast? hlast)⟩

/-- The ends of a text are those of its first and its last part. -/
theorem IsTight.of_ends {xs ys : List Char} (hxs : xs ≠ []) (hys : ys ≠ [])
    (hhead : xs.head? ≠ some ' ') (hlast : ys.getLast? ≠ some ' ') (middle : List Char) :
    IsTight (xs ++ middle ++ ys) := by
  constructor
  · rwa [List.append_assoc, List.head?_append_of_ne_nil xs hxs]
  · rwa [List.getLast?_append_of_ne_nil _ hys]

private theorem trim_cons_blank (cs : List Char) : trim (' ' :: cs) = trim cs := rfl

private theorem trim_eq_self {cs : List Char} (h : IsTight cs) : trim cs = cs := by
  have hdrop : ∀ xs : List Char, xs.head? ≠ some ' ' → xs.dropWhile (· == ' ') = xs := by
    intro xs hxs
    cases xs with
    | nil => rfl
    | cons x xs =>
      have hx : (x == ' ') = false := by simpa using hxs
      rw [List.dropWhile_cons_of_neg (by simp [hx])]
  have hlast : cs.reverse.head? ≠ some ' ' := by simpa using h.2
  rw [trim, trimEnds, hdrop cs h.1, hdrop cs.reverse hlast, List.reverse_reverse]

/-- The items between the occurrences of a separator, without the blanks around them. -/
def items (separator : Char) (cs : List Char) : List (List Char) :=
  (cs.splitOn separator).map trim

section Items

variable {separator : Char}

/-- A blank after each separator belongs to the item that follows. -/
theorem intercalate_blank (x : List Char) (xs : List (List Char)) :
    [separator, ' '].intercalate (x :: xs) = [separator].intercalate (x :: xs.map (' ' :: ·)) := by
  induction xs generalizing x with
  | nil => simp
  | cons y ys ih =>
    have hfirst : ∀ (y : List Char) (ys : List (List Char)),
        [separator].intercalate ((' ' :: y) :: ys) = ' ' :: [separator].intercalate (y :: ys) := by
      intro y ys
      cases ys <;> simp
    rw [List.intercalate_cons_cons, ih, List.map_cons, List.intercalate_cons_cons, hfirst]
    simp

/-- Items with a separator and a blank between two of them. -/
theorem items_intercalate {xs : List (List Char)} (hne : xs ≠ []) (hblank : separator ≠ ' ')
    (hxs : ∀ x ∈ xs, separator ∉ x ∧ IsTight x) :
    items separator ([separator, ' '].intercalate xs) = xs := by
  cases xs with
  | nil => exact absurd rfl hne
  | cons x xs =>
    have hfree : ∀ y ∈ x :: xs.map (' ' :: ·), separator ∉ y := by
      intro y hy
      rcases List.mem_cons.mp hy with rfl | hy
      · exact (hxs y List.mem_cons_self).1
      · obtain ⟨z, hz, rfl⟩ := List.mem_map.mp hy
        simp [hblank, (hxs z (List.mem_cons_of_mem x hz)).1]
    have htrim : ∀ y ∈ xs, trim (' ' :: y) = y := by
      intro y hy
      rw [trim_cons_blank, trim_eq_self (hxs y (List.mem_cons_of_mem x hy)).2]
    rw [intercalate_blank, items, List.splitOn_intercalate separator hfree (by simp),
      List.map_cons, trim_eq_self (hxs x List.mem_cons_self).2, List.map_map]
    congr 1
    exact (List.map_congr_left htrim).trans (List.map_id' xs)

end Items

/-- The parts between separators hold none. -/
theorem not_mem_of_mem_splitOn {α : Type} [BEq α] [LawfulBEq α] {separator : α}
    {xs part : List α} (h : part ∈ xs.splitOn separator) : separator ∉ part := by
  induction xs generalizing part with
  | nil =>
    rw [List.splitOn_nil, List.mem_singleton] at h
    simp [h]
  | cons x rest ih =>
    rw [List.splitOn_cons_eq_if_modifyHead] at h
    split at h
    · rcases List.mem_cons.1 h with rfl | h
      · simp
      · exact ih h
    next hx =>
      obtain ⟨first, others, hsplit⟩ :=
        List.exists_cons_of_ne_nil (List.splitOn_ne_nil separator rest)
      rw [hsplit, List.modifyHead_cons] at h
      rcases List.mem_cons.1 h with rfl | h
      · have hfirst : separator ∉ first := ih (by simp [hsplit])
        grind
      · exact ih (by simp [hsplit, h])

/-- Lines that each end with a separator are split off, one after the other. -/
theorem splitOn_flatMap_append {α : Type} [BEq α] [LawfulBEq α] {separator : α}
    {lines : List (List α)} (h : ∀ line ∈ lines, separator ∉ line) (rest : List α) :
    (lines.flatMap (· ++ [separator]) ++ rest).splitOn separator =
      lines ++ rest.splitOn separator := by
  induction lines with
  | nil => rfl
  | cons line lines ih =>
    have hline := h line List.mem_cons_self
    rw [List.flatMap_cons, List.append_assoc, List.append_assoc, List.singleton_append,
      List.splitOn_append_cons_self_of_not_mem hline,
      ih fun other hother => h other (List.mem_cons_of_mem line hother), List.cons_append]

/-- Lines that each end with a separator are split into these lines and what follows the last. -/
theorem splitOn_flatMap {separator : Char} {lines : List (List Char)}
    (h : ∀ line ∈ lines, separator ∉ line) :
    (lines.flatMap (· ++ [separator])).splitOn separator = lines ++ [[]] := by
  simpa using splitOn_flatMap_append h []

/-- What stands between an opening and a closing part. -/
def between? {α : Type} [BEq α] (opening closing xs : List α) : Option (List α) :=
  (xs.dropPrefix? opening).bind fun rest => rest.dropSuffix? closing

theorem between?_append {α : Type} [BEq α] [LawfulBEq α] (opening body closing : List α) :
    between? opening closing (opening ++ body ++ closing) = some body := by
  rw [between?, List.append_assoc, List.dropPrefix?_append_of_beq _ (by simp), Option.bind_some,
    List.dropSuffix?_eq_some_iff]
  exact ⟨closing, rfl, by simp⟩

end Text

/-- Indices are told apart by their spelling. -/
theorem Index.text_inj {a b : Index} (h : a.text = b.text) : a = b := by
  have hflag : ∀ (n : Nat) (b : Bool), (Index.number n).text ≠ (Index.flag b).text := by
    intro n b heq
    have hlist : Nat.toDigits 10 n = (Index.flag b).text.toList := by
      rw [← heq, Index.text, Numeral.toList_decimal]
    cases b with
    | false => exact Numeral.not_mem_decimal (c := 'l') rfl n (by rw [hlist]; decide)
    | true => exact Numeral.not_mem_decimal (c := 'T') rfl n (by rw [hlist]; decide)
  cases a with
  | number m =>
    cases b with
    | number k =>
      have hdigits := congrArg String.toList h
      rw [Index.text, Index.text, Numeral.toList_decimal, Numeral.toList_decimal] at hdigits
      have hread := Numeral.read?_decimal m
      rw [hdigits, Numeral.read?_decimal] at hread
      rw [Option.some.inj hread]
    | flag c => exact absurd h (hflag m c)
  | flag c =>
    cases b with
    | number k => exact absurd h.symm (hflag k c)
    | flag c' => cases c <;> cases c' <;> first | rfl | exact absurd h (by decide)

/-- Printed items are read one by one. -/
theorem Outcome.mapM_map_eq_some {α β γ : Type} {print : α → β} {read : β → Option γ} {f : α → γ}
    {xs : List α} (h : ∀ x ∈ xs, read (print x) = some (f x)) :
    (xs.map print).mapM read = some (xs.map f) := by
  induction xs with
  | nil => rfl
  | cons x xs ih =>
    have hrest := ih fun other hother => h other (List.mem_cons_of_mem x hother)
    rw [List.map_cons, List.mapM_cons, h x List.mem_cons_self, hrest]
    rfl

end Latchwork
