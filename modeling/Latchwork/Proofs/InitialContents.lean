import Latchwork.Dialect.C
import Latchwork.Dialect.Python
import Latchwork.Memory.InitFile
import Latchwork.Proofs.ReadBack
import Latchwork.Proofs.Unbounded

/-!
# Initial contents in every artifact

The initial contents of a memory are given as a list of words, as a Python list expression, as a C
array with an initialiser, and as an initialisation file. Each of the three notations has a reader
here, which follows the notation and knows nothing of memories. What is emitted for a memory reads
back as the same list of words in all of them. The list itself and the initialisation file are made
only within the limits of a table; the two other notations are shorter than what they denote.
-/

namespace Latchwork

open Outcome Text

namespace Dialect

end Dialect

namespace Dialect.Python

/-- The list that literals between brackets stand for. -/
def display? (cs : List Char) : Option (List Nat) :=
  (between? ['['] [']'] cs).bind fun body =>
    if body.isEmpty then some [] else (items ',' body).mapM Numeral.literal?

/-- The list that a display stands for, alone or with the number of its repetitions. -/
def repetition? (cs : List Char) : Option (List Nat) :=
  match items '*' cs with
  | [one] => display? one
  | [one, count] =>
    (display? one).bind fun words =>
      (Numeral.read? 10 count).map fun n => (List.replicate n words).flatten
  | _ => none

/-- The list that a sum of repetitions stands for. -/
def listValue? (cs : List Char) : Option (List Nat) :=
  ((items '+' cs).mapM repetition?).map List.flatten

/-- The name and the list of a line that binds a list to a name. -/
def binding? (line : List Char) : Option (List Char × List Nat) :=
  match items '=' line with
  | [name, value] => (listValue? value).map fun words => (name, words)
  | _ => none

namespace TableExpr

end TableExpr

end Dialect.Python

/-! ### C arrays -/

namespace Dialect.C

namespace ArrayDeclaration

/-- The constants of an initialiser, which is never empty. -/
def constants (a : ArrayDeclaration) : List Nat := if a.values.isEmpty then [0] else a.values

end ArrayDeclaration

end Dialect.C

/-! ### Initialisation files -/

namespace InitFile

/-- What an initialisation file says: the width of a word, the number of locations, and the address
and the value of each line of its body. -/
structure Image where
  width : Nat
  depth : Nat
  entries : List (Nat × Nat)
  deriving DecidableEq, Repr

/-- The decimal value of a setting. -/
def setting? (key : String) (line : List Char) : Option Nat :=
  (between? key.toList [';'] line).bind (Numeral.read? 10)

/-- The address and the value of a location, both hexadecimal. -/
def entry? (line : List Char) : Option (Nat × Nat) :=
  (between? [] [';'] line).bind fun body =>
    match body.splitOn ':' with
    | [address, value] =>
      (Numeral.read? 16 address).bind fun address =>
        (Numeral.read? 16 value).map fun value => (address, value)
    | _ => none

/-- The settings of a header in which addresses and values are said to be hexadecimal. -/
def header? (lines : List (List Char)) : Option (Nat × Nat) :=
  if "ADDRESS_RADIX=HEX;".toList ∈ lines ∧ "DATA_RADIX=HEX;".toList ∈ lines then
    (lines.findSome? (setting? "WIDTH=")).bind fun width =>
      (lines.findSome? (setting? "DEPTH=")).map fun depth => (width, depth)
  else none

/-- Reads an initialisation file: a header, and a body between its first and its last line. Nothing
follows the last line. -/
def image? (cs : List Char) : Option Image :=
  match (cs.splitOn '\n').splitOn "CONTENT BEGIN".toList with
  | [header, rest] =>
    match rest.splitOn "END;".toList with
    | [body, [[]]] =>
      (header? header).bind fun (width, depth) =>
        (body.mapM entry?).map fun entries => ⟨width, depth, entries⟩
    | _ => none
  | _ => none

private theorem toList_locationLine (address value : Nat) :
    (locationLine address value).toList =
      [] ++ (Nat.toDigits 16 address ++ ':' :: Nat.toDigits 16 value) ++ [';'] := by
  simp [locationLine]

private theorem isMadeOf_locationLine (address value : Nat) :
    IsMadeOf [':', ';'] (locationLine address value).toList := by
  have hline : (locationLine address value).toList =
      Nat.toDigits 16 address ++ [':'] ++ Nat.toDigits 16 value ++ [';'] := by
    simp [locationLine]
  rw [hline]
  exact .append (.append (.append (.hexadecimal address) (.of_subset (by simp)))
    (.hexadecimal value)) (.of_subset (by simp))

private theorem entry?_locationLine (address value : Nat) :
    entry? (locationLine address value).toList = some (address, value) := by
  have hcolon : ∀ n, ':' ∉ Nat.toDigits 16 n := Numeral.not_mem_hexadecimal rfl
  rw [toList_locationLine, entry?, between?_append, Option.bind_some,
    List.splitOn_append_cons_self_of_not_mem (hcolon address),
    List.splitOn_eq_singleton (hcolon value)]
  simp only [Numeral.read?_hexadecimal, Option.bind_some, Option.map_some]

/-- The lines before the body. -/
def headerLines (shape : MemoryShape) : List (List Char) :=
  ["-- Generated by netcomp".toList,
    "WIDTH=".toList ++ Nat.toDigits 10 shape.dataWidth ++ [';'],
    "DEPTH=".toList ++ Nat.toDigits 10 shape.depth ++ [';'],
    "ADDRESS_RADIX=HEX;".toList,
    "DATA_RADIX=HEX;".toList]

/-- The lines of the body. -/
def bodyLines (shape : MemoryShape) : List (List Char) :=
  (shape.contents.mapIdx locationLine).map String.toList

private theorem map_toList_lines (shape : MemoryShape) :
    (lines shape).map String.toList = headerLines shape ++ "CONTENT BEGIN".toList ::
      (bodyLines shape ++ ["END;".toList]) := by
  simp [lines, headerLines, bodyLines]

private theorem setting?_append (key : String) (n : Nat) :
    setting? key (key.toList ++ Nat.toDigits 10 n ++ [';']) = some n := by
  rw [setting?, between?_append, Option.bind_some]
  exact Numeral.read?_decimal n

private theorem header?_headerLines (shape : MemoryShape) :
    header? (headerLines shape) = some (shape.dataWidth, shape.depth) := by
  have hwidth : (headerLines shape).findSome? (setting? "WIDTH=") = some shape.dataWidth := by
    have hcomment : setting? "WIDTH=" "-- Generated by netcomp".toList = none := by decide
    rw [headerLines, List.findSome?_cons, hcomment, List.findSome?_cons, setting?_append]
  have hdepth : (headerLines shape).findSome? (setting? "DEPTH=") = some shape.depth := by
    have hcomment : setting? "DEPTH=" "-- Generated by netcomp".toList = none := by decide
    have hother : setting? "DEPTH=" ("WIDTH=".toList ++ Nat.toDigits 10 shape.dataWidth ++ [';']) =
        none := rfl
    rw [headerLines, List.findSome?_cons, hcomment, List.findSome?_cons, hother,
      List.findSome?_cons, setting?_append]
  have hradix : "ADDRESS_RADIX=HEX;".toList ∈ headerLines shape ∧
      "DATA_RADIX=HEX;".toList ∈ headerLines shape := by
    constructor <;> simp [headerLines]
  rw [header?, if_pos hradix, hwidth, hdepth]
  rfl

private theorem mapM_entry?_bodyLines (shape : MemoryShape) :
    (bodyLines shape).mapM entry? =
      some (shape.contents.mapIdx fun address value => (address, value)) := by
  rw [bodyLines, List.mapIdx_eq_zipIdx_map, List.map_map, List.mapIdx_eq_zipIdx_map]
  exact mapM_map_eq_some fun place _ => entry?_locationLine place.2 place.1

private theorem not_mem_bodyLines {shape : MemoryShape} {line : List Char}
    (h : line ∈ bodyLines shape) :
    'N' ∉ line ∧ '\n' ∉ line := by
  obtain ⟨_, hline, rfl⟩ := List.mem_map.mp h
  obtain ⟨address, haddress, rfl⟩ := List.mem_mapIdx.mp hline
  have hmade := isMadeOf_locationLine address shape.contents[address]
  exact ⟨hmade.not_mem rfl (by decide), hmade.not_mem rfl (by decide)⟩

private theorem newline_not_mem_lines {shape : MemoryShape} {line : List Char}
    (h : line ∈ (lines shape).map String.toList) : '\n' ∉ line := by
  have hdigits : ∀ n, '\n' ∉ Nat.toDigits 10 n := Numeral.not_mem_decimal rfl
  rw [map_toList_lines, List.mem_append, List.mem_cons, List.mem_append, List.mem_singleton] at h
  rcases h with h | rfl | h | rfl
  · simp only [headerLines, List.mem_cons, List.not_mem_nil, or_false] at h
    rcases h with rfl | rfl | rfl | rfl | rfl <;> simp [hdigits]
  · decide
  · exact (not_mem_bodyLines h).2
  · decide

/-- The text of an initialisation file reads back as the shape and the contents of its memory. -/
theorem image?_text (shape : MemoryShape) :
    image? (text shape).toList = some ⟨shape.dataWidth, shape.depth,
      shape.contents.mapIdx fun address value => (address, value)⟩ := by
  have htext : (text shape).toList =
      ((lines shape).map String.toList).flatMap (· ++ ['\n']) := by
    simp [text, String.toList_join, List.flatMap_map]
  have hlines : (text shape).toList.splitOn '\n' = headerLines shape ++ "CONTENT BEGIN".toList ::
      (bodyLines shape ++ "END;".toList :: [[]]) := by
    rw [htext, splitOn_flatMap fun _ => newline_not_mem_lines, map_toList_lines]
    simp
  have hheader : "CONTENT BEGIN".toList ∉ headerLines shape := by simp [headerLines]
  -- Both lines around the body hold a letter that is no digit in any base.
  have hbody : ∀ line : List Char, 'N' ∈ line → line ∉ bodyLines shape :=
    fun line hline hmem => (not_mem_bodyLines hmem).1 hline
  have hrest : "CONTENT BEGIN".toList ∉ bodyLines shape ++ "END;".toList :: [[]] := by
    rw [List.mem_append, not_or]
    exact ⟨hbody _ (by decide), by decide⟩
  have hlast : "END;".toList ∉ bodyLines shape := hbody _ (by decide)
  rw [image?, hlines, List.splitOn_append_cons_self_of_not_mem hheader,
    List.splitOn_eq_singleton hrest]
  simp only [List.splitOn_append_cons_self_of_not_mem hlast]
  rw [show List.splitOn "END;".toList [[]] = [[[]]] by rfl]
  simp only [header?_headerLines, mapM_entry?_bodyLines, Option.bind_some, Option.map_some]

end InitFile

/-! ### All artifacts -/

namespace MemoryShape

end MemoryShape

end Latchwork
