import Latchwork.CommandLine.Run
import Latchwork.Proofs.Artifacts
import Latchwork.Proofs.Running
import Latchwork.Proofs.Scope

/-!
# Parameters

The inputs of a netlist are found in two ways: from its instances as they are, and from the
components that they are checked into. The first list decides which assignments a simulation
accepts, the second is the parameter list of the procedure. They are the same list, so the arguments
that were accepted are those that the procedure takes.

The parameter list is read back from the header of the emitted text.
-/

namespace Latchwork

open Outcome

/-! ### The header of an emitted text -/

namespace Text

/-- What stands between the first opening bracket and the closing bracket after it. -/
def bracketed (cs : List Char) : List Char :=
  ((cs.dropWhile (· != '(')).drop 1).takeWhile (· != ')')

private theorem bracketed_append {xs ys : List Char} (hxs : '(' ∉ xs) (hys : ')' ∉ ys)
    (zs : List Char) :
    bracketed (xs ++ '(' :: (ys ++ ')' :: zs)) = ys := by
  have hopening : ∀ c ∈ xs, (c != '(') = true := fun c hc =>
    bne_iff_ne.2 (ne_of_mem_of_not_mem hc hxs)
  have hclosing : ∀ c ∈ ys, (c != ')') = true := fun c hc =>
    bne_iff_ne.2 (ne_of_mem_of_not_mem hc hys)
  rw [bracketed, List.dropWhile_append_of_pos hopening, List.dropWhile_cons_of_neg (by simp),
    List.drop_one, List.tail_cons, List.takeWhile_append_of_pos hclosing,
    List.takeWhile_cons_of_neg (by simp), List.append_nil]

/-- The text of characters. -/
def ofChars (cs : List Char) : Text := ⟨cs.map .char⟩

/-- Characters that may stand inside of identifiers, at least one of them. -/
structure IsWordLike (cs : List Char) : Prop where
  nonempty : cs ≠ []
  parts : ∀ c ∈ cs, isIdentifierPart c = true

private theorem IsWordLike.not_mem {cs : List Char} (h : IsWordLike cs) {c : Char}
    (hc : isIdentifierPart c = false) : c ∉ cs := fun hmem => by
  cases hc.symm.trans (h.parts c hmem)

private theorem exists_isWordLike {t : Text} (h : t.isIdentifier = true) :
    ∃ cs, t = ofChars cs ∧ IsWordLike cs := by
  have hparts : ∀ p ∈ t.points, p.satisfies isIdentifierPart = true := by
    intro p hp
    obtain ⟨c, rfl, hc⟩ := isIdentifierPart_of_mem h hp
    exact hc
  obtain ⟨cs, hcs, hall⟩ := CodePoint.exists_chars hparts
  refine ⟨cs, Text.ext hcs, ?_, hall⟩
  rintro rfl
  rw [isIdentifier, hcs] at h
  cases h

private theorem exists_areWordLike {ts : List Text} (h : ∀ t ∈ ts, t.isIdentifier = true) :
    ∃ words : List (List Char), ts = words.map ofChars ∧ ∀ cs ∈ words, IsWordLike cs := by
  induction ts with
  | nil => exact ⟨[], rfl, by simp⟩
  | cons t ts ih =>
    obtain ⟨cs, rfl, hcs⟩ := exists_isWordLike (h t List.mem_cons_self)
    obtain ⟨words, rfl, hwords⟩ := ih fun t ht => h t (List.mem_cons_of_mem _ ht)
    exact ⟨cs :: words, rfl, by simpa [hcs] using hwords⟩

end Text

private theorem Layout.points_renderAll_lines (unit : Text) (ts : List Text) (rest : List Layout) :
    (renderAll unit .empty (ts.map .line ++ rest)).points =
      (ts.map Text.points).flatMap (· ++ [.char '\n']) ++ (renderAll unit .empty rest).points := by
  induction ts with
  | nil => rfl
  | cons t ts ih => simp [renderAll, render, ih]

namespace Dialect

/-- The number of lines before the header of a procedure. -/
def headerPlace : Dialect → Nat
  | .c => 6
  | .python => 0

/-- How a list without parameters is written. -/
def noParameters : Dialect → List Char
  | .c => ['v', 'o', 'i', 'd']
  | .python => []

/-- The name that an entry of a parameter list declares. -/
def parameter? : Dialect → List Char → Option Text
  | .c, entry => (entry.dropPrefix? ['b', 'i', 't', ' ']).map Text.ofChars
  | .python, entry => some (Text.ofChars entry)

/-- The parameters that the header of a source text declares, in order. -/
def parameters? (d : Dialect) (source : Text) : Option (List Text) := do
  let header ← (source.splitOn '\n')[d.headerPlace]?
  let list := Text.bracketed (← header.string?).toList
  if list = d.noParameters then some [] else (Text.items ',' list).mapM d.parameter?

/-- How a parameter is declared. -/
def entry : Dialect → List Char → List Char
  | .c, name => ['b', 'i', 't'] ++ [' '] ++ name
  | .python, name => name

/-- How parameters are declared. -/
def entries (d : Dialect) (names : List (List Char)) : List Char :=
  if names = [] then d.noParameters else [',', ' '].intercalate (names.map d.entry)

variable {d : Dialect} {name : List Char}

private theorem parameter?_entry (d : Dialect) (name : List Char) :
    d.parameter? (d.entry name) = some (Text.ofChars name) := by
  cases d with
  | python => rfl
  | c =>
    have hentry : entry .c name = ['b', 'i', 't', ' '] ++ name := rfl
    rw [parameter?, hentry, List.dropPrefix?_append_of_beq _ (by simp), Option.map_some]

private theorem not_mem_entry (h : Text.IsWordLike name) {c : Char}
    (hc : Text.isIdentifierPart c = false) (hblank : c ≠ ' ') : c ∉ d.entry name := by
  cases d with
  | python => exact h.not_mem hc
  | c =>
    have hbit : c ∉ ['b', 'i', 't'] := by
      intro hmem
      have hall : ∀ c ∈ ['b', 'i', 't'], Text.isIdentifierPart c = true :=
        List.all_eq_true.1 rfl
      cases hc.symm.trans (hall c hmem)
    simp [entry, hblank, h.not_mem hc] at hbit ⊢
    exact hbit

private theorem isTight_entry (h : Text.IsWordLike name) : Text.IsTight (d.entry name) := by
  have hblank : ' ' ∉ name := h.not_mem (by decide)
  cases d with
  | python => exact .of_not_mem hblank
  | c =>
    exact .of_ends (by decide) h.nonempty (by decide)
      (fun hlast => hblank (List.mem_of_getLast? hlast)) [' ']

private theorem not_mem_entries {names : List (List Char)}
    (h : ∀ name ∈ names, Text.IsWordLike name)
    {c : Char} (hc : Text.isIdentifierPart c = false) (hblank : c ≠ ' ') (hcomma : c ≠ ',') :
    c ∉ d.entries names := by
  have hvoid : ∀ c ∈ ['v', 'o', 'i', 'd'], Text.isIdentifierPart c = true :=
    List.all_eq_true.1 rfl
  unfold entries
  split
  · intro hmem
    cases d with
    | python => cases hmem
    | c => cases hc.symm.trans (hvoid c hmem)
  · intro hmem
    have hall : ∀ x ∈ [',', ' '].intercalate (names.map d.entry), x ≠ c := by
      refine Text.forall_mem_intercalate (by simp [hblank.symm, hcomma.symm]) ?_
      intro item hitem x hx hxc
      obtain ⟨name, hname, rfl⟩ := List.mem_map.1 hitem
      exact not_mem_entry (h name hname) hc hblank (hxc ▸ hx)
    exact hall c hmem rfl

/-- The declared parameters are read back. -/
theorem read_entries {names : List (List Char)} (h : ∀ name ∈ names, Text.IsWordLike name) :
    (if d.entries names = d.noParameters then some []
      else (Text.items ',' (d.entries names)).mapM d.parameter?) =
        some (names.map Text.ofChars) := by
  cases names with
  | nil => simp [entries]
  | cons name rest =>
    have hentries : d.entries (name :: rest) =
        [',', ' '].intercalate ((name :: rest).map d.entry) := if_neg (by simp)
    have hsome : d.entries (name :: rest) ≠ d.noParameters := by
      -- the first entry starts with the type of a bit, or with the first character of a name
      have hname := (h name List.mem_cons_self).nonempty
      rw [hentries]
      cases d <;> cases rest <;> simp [entry, noParameters, hname]
    have hitems : Text.items ',' (d.entries (name :: rest)) = (name :: rest).map d.entry := by
      rw [hentries]
      refine Text.items_intercalate (by simp) (by decide) fun x hx => ?_
      obtain ⟨y, hy, rfl⟩ := List.mem_map.1 hx
      exact ⟨not_mem_entry (h y hy) (by decide) (by decide), isTight_entry (h y hy)⟩
    rw [if_neg hsome, hitems]
    exact mapM_map_eq_some fun name _ => parameter?_entry d name

/-- The header of a procedure. -/
def header (d : Dialect) (p : Procedure) : Text :=
  match d with
  | .c => C.resultType p ++ " " ++ p.name ++ "(" ++ C.parameters p ++ ") \x7b"
  | .python => "def " ++ p.name ++ "(" ++ Text.intercalate ", " p.inputs ++ "):"

private theorem points_parameters {p : Procedure} {names : List (List Char)}
    (hinputs : p.inputs = names.map Text.ofChars) :
    (C.parameters p).points = (entries .c names).map .char := by
  cases names with
  | nil =>
    rw [C.parameters, hinputs]
    rfl
  | cons name rest =>
    have hentries : entries .c (name :: rest) =
        [',', ' '].intercalate ((name :: rest).map (entry .c)) := if_neg (by simp)
    rw [C.parameters, hinputs, hentries, if_neg (by simp), Path.points_intercalate,
      Text.map_intercalate]
    simp [entry, Text.ofChars, Function.comp_def]

private theorem points_inputs {p : Procedure} {names : List (List Char)}
    (hinputs : p.inputs = names.map Text.ofChars) :
    (Text.intercalate ", " p.inputs).points = (entries .python names).map .char := by
  have hentries : entries .python names = [',', ' '].intercalate names := by
    cases names with
    | nil => rfl
    | cons name rest =>
      rw [entries, if_neg (by simp)]
      exact congrArg _ (List.map_id (name :: rest))
  rw [hinputs, hentries, Path.points_intercalate, Text.map_intercalate]
  simp [Text.ofChars, Function.comp_def]

/-- A header has its parameters in the first pair of brackets. -/
theorem exists_header {p : Procedure} {title : List Char} {names : List (List Char)}
    (hname : p.name = Text.ofChars title) (htitle : Text.IsWordLike title)
    (hinputs : p.inputs = names.map Text.ofChars) :
    ∃ front back : List Char,
      (d.header p).points = (front ++ '(' :: (d.entries names ++ ')' :: back)).map .char ∧
        '(' ∉ front ∧ '\n' ∉ front ∧ '\n' ∉ back := by
  have hopening : '(' ∉ title := htitle.not_mem (by decide)
  have hnewline : '\n' ∉ title := htitle.not_mem (by decide)
  cases d with
  | c =>
    refine ⟨(C.resultType p).toList ++ [' '] ++ title, [' ', '\x7b'], ?_, ?_, ?_, by decide⟩
    · rw [header, hname]
      simp [points_parameters hinputs, Text.ofChars]
    · unfold C.resultType
      split <;> simp [hopening]
    · unfold C.resultType
      split <;> simp [hnewline]
  | python =>
    refine ⟨"def ".toList ++ title, [':'], ?_, by simp [hopening], by simp [hnewline], by decide⟩
    rw [header, hname]
    simp [points_inputs hinputs, Text.ofChars]

end Dialect

namespace Procedure

private theorem exists_source_lines (p : Procedure) (d : Dialect) :
    ∃ (front : List Text) (rest : List Layout),
      p.source d = Layout.renderAll d.indentation .empty
        ((front ++ [d.header p]).map .line ++ rest) ∧
      front.length = d.headerPlace ∧ ∀ t ∈ front, .char '\n' ∉ t.points := by
  cases d with
  | c =>
    refine ⟨[_, _, _, _, _, _], _, rfl, rfl, ?_⟩
    simp
  | python => exact ⟨[], _, rfl, rfl, by simp⟩

/-- The parameters that the text of a procedure declares are its inputs. -/
theorem parameters?_source {p : Procedure} (hname : p.name.isIdentifier = true)
    (hinputs : ∀ t ∈ p.inputs, t.isIdentifier = true) (d : Dialect) :
    d.parameters? (p.source d) = some p.inputs := by
  obtain ⟨title, htitle, hword⟩ := Text.exists_isWordLike hname
  obtain ⟨names, hnames, hwords⟩ := Text.exists_areWordLike hinputs
  obtain ⟨front, back, hpoints, hopening, hfront, hback⟩ :=
    Dialect.exists_header (d := d) htitle hword hnames
  obtain ⟨lines, rest, hsource, hlength, hlines⟩ := exists_source_lines p d
  have hclosing : ')' ∉ d.entries names :=
    Dialect.not_mem_entries hwords (by decide) (by decide) (by decide)
  have hnewline : '\n' ∉ d.entries names :=
    Dialect.not_mem_entries hwords (by decide) (by decide) (by decide)
  have hheader : .char '\n' ∉ (d.header p).points := by
    simp [hpoints, hfront, hback, hnewline]
  have hline : ((p.source d).splitOn '\n')[d.headerPlace]? = some (d.header p) := by
    have hall : ∀ line ∈ (lines ++ [d.header p]).map Text.points, .char '\n' ∉ line := by
      simpa [or_imp, forall_and, hheader] using hlines
    rw [Text.splitOn, hsource, Layout.points_renderAll_lines, Text.splitOn_flatMap_append hall]
    simp [← hlength]
  have hstring : (d.header p).string? =
      some (String.ofList (front ++ '(' :: (d.entries names ++ ')' :: back))) := by
    rw [Text.string?, hpoints, Text.mapM_char?_map]
    rfl
  have hread := Dialect.read_entries (d := d) hwords
  rw [← Text.bracketed_append hopening hclosing back, ← hnames] at hread
  simpa [Dialect.parameters?, hline, hstring] using hread

end Procedure

/-! ### The inputs of a netlist -/

namespace Netlist

/-- The ids of the instances that stand for an input of some name. -/
def idsOf (instances : List Instance) (name : Text) : Set Nat :=
  {k | ∃ i ∈ instances, inputName? i = some name ∧ i.id.value = k}

/-- The names of the inputs, each once, in order of their first appearance by id. -/
structure ListsInputs (n : Netlist) (names : List Text) : Prop where
  nodup : names.Nodup
  mem_iff : ∀ name, name ∈ names ↔ (idsOf n.instances name).Nonempty
  ordered : names.Pairwise fun a b => ∀ j k,
    IsLeast (idsOf n.instances a) j → IsLeast (idsOf n.instances b) k → j < k

private theorem mem_idsOf_cons {i : Instance} {instances : List Instance} {name : Text} {k : Nat} :
    k ∈ idsOf (i :: instances) name ↔
      inputName? i = some name ∧ i.id.value = k ∨ k ∈ idsOf instances name := by
  simp [idsOf]

/-- Of instances in ascending order, the first that stands for an input comes before the first that
stands for a later one. -/
theorem pairwise_eraseDups_inputName? {instances : List Instance}
    (h : instances.Pairwise fun a b => a.id.value < b.id.value) :
    (instances.filterMap inputName?).eraseDups.Pairwise fun a b => ∀ j k,
      IsLeast (idsOf instances a) j → IsLeast (idsOf instances b) k → j < k := by
  -- the instances that repeat the first name are dropped all at once, so the length decreases
  induction hlength : instances.length using Nat.strongRecOn generalizing instances with
  | ind length ih =>
    cases instances with
    | nil => simp
    | cons i rest =>
      obtain ⟨hfirst, hrest⟩ := List.pairwise_cons.1 h
      rw [List.length_cons] at hlength
      cases hname : inputName? i with
      | none =>
        have hids : ∀ name, idsOf (i :: rest) name = idsOf rest name := by
          intro name
          ext k
          simp [mem_idsOf_cons, hname]
        rw [List.filterMap_cons_none hname]
        simpa only [hids] using ih rest.length (by omega) hrest rfl
      | some a =>
        have hids : ∀ b ≠ a, idsOf (rest.filter fun j => inputName? j != some a) b =
            idsOf (i :: rest) b := by
          intro b hb
          ext k
          have hother : inputName? i ≠ some b := fun heq =>
            hb (Option.some.inj (heq.symm.trans hname))
          simp only [mem_idsOf_cons, hother, false_and, false_or]
          refine exists_congr fun j => ?_
          grind
        have hdrop : ((rest.filterMap inputName?).filter fun b => !b == a) =
            (rest.filter fun j => inputName? j != some a).filterMap inputName? := by
          rw [List.filter_filterMap, List.filterMap_filter]
          congr 1
          funext j
          cases inputName? j <;> grind
        have hshorter := List.length_filter_le (fun j => inputName? j != some a) rest
        have htail := ih _ (by omega) (hrest.filter fun j => inputName? j != some a) rfl
        rw [List.filterMap_cons_some hname, List.eraseDups_cons, hdrop, List.pairwise_cons]
        have hne : ∀ b ∈ ((rest.filter fun j => inputName? j != some a).filterMap
            inputName?).eraseDups, b ≠ a := by
          intro b hb
          rw [List.mem_eraseDups, ← hdrop, List.mem_filter] at hb
          simpa using hb.2
        constructor
        · intro b hb j k hj hk
          have hle : j ≤ i.id.value := hj.2 (mem_idsOf_cons.2 (.inl ⟨hname, rfl⟩))
          obtain ⟨hsame, -⟩ | ⟨i', hi', -, rfl⟩ := mem_idsOf_cons.1 hk.1
          · exact absurd (Option.some.inj (hsame.symm.trans hname)) (hne b hb)
          · exact hle.trans_lt (hfirst i' hi')
        · refine htail.imp_of_mem fun {b c} hb hc hlt => ?_
          rwa [hids b (hne b hb), hids c (hne c hc)] at hlt

private theorem listsInputs_inputs (n : Netlist) : n.ListsInputs n.inputs where
  nodup := nodup_eraseDups _
  mem_iff name := by
    rw [inputs, List.mem_eraseDups, List.mem_filterMap]
    constructor
    · rintro ⟨i, hi, hname⟩
      exact ⟨i.id.value, i, hi, hname, rfl⟩
    · rintro ⟨k, i, hi, hname, rfl⟩
      exact ⟨i, hi, hname⟩
  ordered := pairwise_eraseDups_inputName? n.ascending

private theorem filterMap_inputName? [Machine] {instances : List Instance}
    {components : List Component} (h : instances.mapM Component.ofInstance = .ok components) :
    components.filterMap (·.inputName?) = instances.filterMap inputName? := by
  rw [mapM_eq_ok] at h
  induction instances generalizing components with
  | nil =>
    obtain rfl := List.map_eq_nil_iff.1 h.symm
    rfl
  | cons i instances ih =>
    cases components with
    | nil => cases h
    | cons c components =>
      obtain ⟨hi, hrest⟩ := List.cons.inj h
      rw [List.filterMap_cons, List.filterMap_cons, ih hrest, Component.inputName?_eq hi]

private theorem inputs_schedule [Machine] {n : Netlist} {s : Schedule} (h : n.schedule = .ok s) :
    s.inputs = n.inputs := by
  rw [Schedule.inputs, inputs, filterMap_inputName? (schedule_ok h).2.1]

end Netlist

/-! ### Calls -/

namespace Procedure

variable {p : Procedure} {given : List (Text × Value)} {value : Text → Int}

/-- A call that gives an integer to each input, and to nothing else, is a run on these integers. -/
theorem callNamed_eq_run [Machine] (hgiven : ∀ g ∈ given, g.1 ∈ p.inputs)
    (hinputs : ∀ name ∈ p.inputs, argumentFor given name = .ok (.int (value name))) :
    p.callNamed given = p.run (p.inputs.map fun name => .number (value name)) := by
  have hknown : (given.all fun g => p.inputs.contains g.1) = true := by simpa using hgiven
  have harguments : ∀ names ⊆ p.inputs,
      names.mapM (argumentFor given) = .ok (names.map fun name => Value.int (value name)) := by
    intro names hnames
    induction names with
    | nil => rfl
    | cons name rest ih =>
      rw [List.mapM_cons, hinputs name (hnames List.mem_cons_self),
        ih fun t ht => hnames (List.mem_cons_of_mem name ht)]
      rfl
  rw [callNamed, if_pos hknown, harguments _ (List.Subset.refl _)]
  change p.call _ = _
  rw [call, if_pos (by simp), List.map_map]
  rfl

end Procedure

namespace CommandLine

/-- The last of the assignments to a name gives it this bit. -/
def Assigns (inputs : List (Text × Bool)) (name : Text) (b : Bool) : Prop :=
  ∃ before after, inputs = before ++ (name, b) :: after ∧ ∀ g ∈ after, g.1 ≠ name

variable {inputs : List (Text × Bool)}

@[simp] theorem map_fst_givenInputs :
    (givenInputs inputs).map (·.1) = (inputs.map (·.1)).eraseDups := by
  simp [givenInputs, Function.comp_def]

/-- The argument for a name that was assigned is the last bit that it was assigned. -/
theorem exists_assigns {name : Text} (h : name ∈ (givenInputs inputs).map (·.1)) :
    ∃ b, Assigns inputs name b ∧
      Procedure.argumentFor (givenInputs inputs) name = .ok (.int (b.toNat : Nat)) := by
  rw [map_fst_givenInputs] at h
  obtain ⟨g, hg, rfl⟩ := List.mem_map.1 (List.mem_eraseDups.1 h)
  obtain ⟨last, hlast⟩ : ∃ last, inputs.reverse.find? (fun g' => g'.1 == g.1) = some last :=
    Option.isSome_iff_exists.1 (List.find?_isSome.2 ⟨g, List.mem_reverse.2 hg, by simp⟩)
  obtain ⟨hname, before, after, hsplit, hbefore⟩ := List.find?_eq_some_iff_append.1 hlast
  have hname : last.1 = g.1 := by simpa using hname
  refine ⟨last.2, ⟨after.reverse, before.reverse, ?_, ?_⟩, ?_⟩
  · rw [← hname, ← List.reverse_reverse inputs, hsplit]
    simp
  · intro other hother
    simpa using hbefore other (List.mem_reverse.1 hother)
  · obtain ⟨first, hfirst⟩ : ∃ first,
        (inputs.map (·.1)).eraseDups.find? (fun name => name == g.1) = some first :=
      Option.isSome_iff_exists.1 (List.find?_isSome.2 ⟨g.1, h, by simp⟩)
    have hsame : first = g.1 := by simpa using List.find?_some hfirst
    subst hsame
    rw [Procedure.argumentFor, givenInputs, List.find?_map]
    simp [hfirst, hlast]

private theorem inputComplaint_eq_none {n : Netlist} {given : List Text} :
    inputComplaint n given = none ↔
      (∀ name ∈ given, name ∈ n.inputs) ∧ ∀ name ∈ n.inputs, name ∈ given := by
  unfold inputComplaint
  split
  · next name hname =>
    have hmem := List.mem_of_find?_eq_some hname
    have hunknown : name ∉ n.inputs := by simpa using List.find?_some hname
    simp only [reduceCtorEq, false_iff, not_and]
    exact fun hknown => absurd (hknown name hmem) hunknown
  · next hknown => simpa using fun _ => hknown

end CommandLine

namespace Netlist

/-- What can be run was compiled. -/
theorem executable_eq_ok [Machine] {n : Netlist} {name done : Value} {p : Procedure}
    (h : n.executable name done = .ok p) : n.compile .python name done = .ok p := by
  obtain ⟨q, hq, hrest⟩ := bind_eq_ok.1 h
  obtain ⟨⟨⟩, -, hpure⟩ := bind_eq_ok.1 hrest
  cases hpure
  exact hq

/-- A call with the inputs that were accepted is a run on the bits that they were last assigned. -/
theorem Compiled.exists_callNamed [Machine] {n : Netlist} {exit : Wire} {s : Schedule}
    (h : n.Compiled .python exit s) (title : Text) {inputs : List (Text × Bool)}
    (hnone : CommandLine.inputComplaint n ((CommandLine.givenInputs inputs).map (·.1)) = none) :
    ∃ bit : Text → Bool, (∀ name ∈ s.inputs, CommandLine.Assigns inputs name (bit name)) ∧
      (s.procedure .python title n.outputs exit).callNamed (CommandLine.givenInputs inputs) =
        (s.procedure .python title n.outputs exit).run
          (s.inputs.map fun name => .number (bit name).toNat) := by
  have hinputs : s.inputs = n.inputs := inputs_schedule h.schedule
  obtain ⟨hknown, hcomplete⟩ := CommandLine.inputComplaint_eq_none.1 hnone
  have hassigned : ∀ name ∈ s.inputs, ∃ b, CommandLine.Assigns inputs name b ∧
      Procedure.argumentFor (CommandLine.givenInputs inputs) name =
        .ok (.int (b.toNat : Nat)) := fun name hname =>
    CommandLine.exists_assigns (hcomplete name (hinputs ▸ hname))
  choose! bit hassigns hargument using hassigned
  have hgiven : ∀ g ∈ CommandLine.givenInputs inputs,
      g.1 ∈ (s.procedure .python title n.outputs exit).inputs := by
    intro g hg
    change g.1 ∈ s.inputs
    rw [hinputs]
    exact hknown g.1 (List.mem_map_of_mem hg)
  exact ⟨bit, hassigns, Procedure.callNamed_eq_run hgiven hargument⟩

/-- The inputs of a netlist are listed once each, in order of first appearance by id, and the
parameters that an emitted text declares are this list. So whatever assignments are made on the
command line, if nothing is wrong with their names and the netlist is compiled, the procedure is
called with exactly its parameters, each with the bit that it was last assigned. The call is a run
on these bits, and does not fail for its arguments. -/
theorem parameters_agree [Machine] (n : Netlist) :
    n.ListsInputs n.inputs ∧
      (∀ d name done text, n.source d name done = .ok text →
        d.parameters? text = some n.inputs) ∧
      ∀ inputs done p, n.IsLoaded →
        CommandLine.inputComplaint n ((CommandLine.givenInputs inputs).map (·.1)) = none →
        n.executable defaultName done = .ok p →
        p.inputs = n.inputs ∧ ((CommandLine.givenInputs inputs).map (·.1)).Perm p.inputs ∧
          ∃ bit : Text → Bool, (∀ name ∈ p.inputs, CommandLine.Assigns inputs name (bit name)) ∧
            p.callNamed (CommandLine.givenInputs inputs) =
              p.run (p.inputs.map fun name => .number (bit name).toNat) ∧
            p.callNamed (CommandLine.givenInputs inputs) ≠ .error .callArguments := by
  refine ⟨n.listsInputs_inputs, fun d name done text h => ?_, fun inputs done p hn hnone hp => ?_⟩
  · obtain ⟨s, exit, title, hs, -, hallows, hchecked, -, rfl⟩ := source_eq_ok h
    rw [← inputs_schedule hs]
    have hwords : ∀ t ∈ s.inputs, t.isIdentifier = true := fun t ht =>
      (Schedule.allows_inputs hchecked ht).identifier
    exact Procedure.parameters?_source hallows.identifier hwords d
  · obtain ⟨s, exit, title, -, hcompiled, rfl⟩ := compile_ok (executable_eq_ok hp) hn.isNumbered
    have hinputs : s.inputs = n.inputs := inputs_schedule hcompiled.schedule
    obtain ⟨hknown, hcomplete⟩ := CommandLine.inputComplaint_eq_none.1 hnone
    obtain ⟨bit, hassigns, hcall⟩ := hcompiled.exists_callNamed title hnone
    refine ⟨hinputs, ?_, bit, hassigns, hcall, ?_⟩
    · have hdistinct : ((CommandLine.givenInputs inputs).map (·.1)).Nodup := by
        rw [CommandLine.map_fst_givenInputs]
        exact nodup_eraseDups _
      refine (List.perm_ext_iff_of_nodup hdistinct (nodup_eraseDups _)).2 fun name => ?_
      change _ ↔ name ∈ s.inputs
      rw [hinputs]
      exact ⟨hknown name, hcomplete name⟩
    · intro hfailed
      rcases hcompiled.run_cases title fun name => (bit name).toNat with
        ⟨_, _, -, hrun⟩ | ⟨e, hrun, he⟩
      · cases hfailed.symm.trans (hcall.trans hrun)
      · cases hfailed.symm.trans (hcall.trans hrun)
        simp at he

/-- Three instances for two inputs, the first and the last of which have the same name. -/
def repeatedInput : Netlist :=
  withFlag
    [⟨.number 0, "name", [("name", "b")], [], .number 1⟩,
      ⟨.number 1, "name", [("name", "a")], [], .number 1⟩,
      ⟨.number 2, "name", [("name", "b")], [], .number 1⟩]
    ⟨.number 2, .number 0⟩ (by decide)

open Desktop in
/-- The netlist with a repeated input is called with two arguments, however often they are
assigned. -/
theorem repeatedInput_parameters :
    repeatedInput.inputs = ["b", "a"].map Text.ofString ∧
      (∃ text, repeatedInput.source .c defaultName (.text "done") = .ok text ∧
        Dialect.parameters? .c text = some (["b", "a"].map Text.ofString)) ∧
      ∃ p, repeatedInput.executable defaultName (.text "done") = .ok p ∧
        p.callNamed (CommandLine.givenInputs [("a", true), ("b", false), ("a", false)]) ≠
          .error .callArguments := by
  have hschedule : repeatedInput.schedule = .ok
      ⟨[⟨.number 0, .name, .input "b"⟩, ⟨.number 1, .name, .input "a"⟩,
          ⟨.number 2, .name, .input "b"⟩],
        [⟨.number 0, .name, .input "b"⟩, ⟨.number 1, .name, .input "a"⟩,
          ⟨.number 2, .name, .input "b"⟩]⟩ := by
    cbv
  have hinputs : repeatedInput.inputs = ["b", "a"].map Text.ofString := by cbv
  obtain ⟨text, htext⟩ : ∃ text,
      repeatedInput.source .c defaultName (.text "done") = .ok text :=
    ⟨_, by rw [source, compile, hschedule]; rfl⟩
  obtain ⟨p, hp⟩ : ∃ p, repeatedInput.executable defaultName (.text "done") = .ok p :=
    ⟨_, by rw [executable, compile, hschedule]; rfl⟩
  obtain ⟨-, hsource, hcalls⟩ := parameters_agree repeatedInput
  obtain ⟨-, -, -, -, -, hfine⟩ := hcalls [("a", true), ("b", false), ("a", false)] (.text "done") p
    (.inl ⟨repeatedInput.toValue, by cbv⟩) (by cbv) hp
  exact ⟨hinputs, ⟨text, htext, hinputs ▸ hsource _ _ _ _ htext⟩, p, hp, hfine⟩

end Netlist

end Latchwork
