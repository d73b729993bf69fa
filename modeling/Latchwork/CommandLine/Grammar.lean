import Latchwork.Text.Digit
import Latchwork.Text.Quoted

/-!
# Command-line grammar

How a list of arguments is split into options and operands. Every argument is classified first, by
its own spelling alone; then operands and options are taken in turn. Long options may be shortened
as long as they stay unique, values may be attached to their option, and a divider ends the
options.

The result is the list of what was given, in order, and the way in which the list ends. What was
given before a fault counts as given, since taking it may have had an effect.
-/

namespace Latchwork.CommandLine

/-- The options of all commands. -/
inductive OptionId where
  | help
  | verbose
  | name
  | outputDirectory
  | done
  | noVendor
  | python
  | archive
  | input
  deriving DecidableEq, Repr

/-- An option with its spellings. -/
structure OptionSpec where
  id : OptionId
  spellings : List String
  takesValue : Bool
  deriving DecidableEq, Repr

/-- How an option is named in messages. -/
def OptionSpec.label (o : OptionSpec) : String := "/".intercalate o.spellings

/-- The arguments that a program takes: options, and one operand that must be given. A greedy
operand takes everything that follows it. -/
structure Grammar where
  program : String
  options : List OptionSpec
  operand : String
  greedy : Bool

/-- What an argument looks like. An option may have a value attached to it. -/
inductive Token where
  | argument
  | divider
  | option (spec : Option OptionSpec) (long : Bool) (attached : Option Text)
  deriving DecidableEq, Repr

/-- Something that was given. A divider in the place of a value leaves the option without one. -/
inductive Event where
  | flag (o : OptionSpec)
  | value (o : OptionSpec) (text : Option Text)
  | operand (texts : List Text)
  deriving DecidableEq, Repr

/-- How a list of arguments ends: with a fault, or with arguments that nothing has taken. -/
inductive Ending where
  | fault (message : Text)
  | finished (extras : List Text)
  deriving DecidableEq, Repr

/-- What was given, and how the arguments end. -/
structure Parsed where
  events : List Event
  ending : Ending
  deriving DecidableEq, Repr

/-- The argument that ends the options. -/
def divider : Text := "--"

/-- An option with the value that a text gives. -/
def Event.ofValue (o : OptionSpec) (text : Text) : Event :=
  .value o (if text == divider then none else some text)

/-- The text before the first equals sign and the text after it, if there is one. -/
def splitEquals (t : Text) : Text × Option Text :=
  match t.points.dropWhile (· != .char '=') with
  | [] => (t, none)
  | _ :: after => (⟨t.points.takeWhile (· != .char '=')⟩, some ⟨after⟩)

/-- Does an argument look like a negative number? A final line feed does not count. -/
def isNegativeNumber (t : Text) : Bool :=
  let isDigit (p : CodePoint) : Bool := p.satisfies fun c => (Text.digitValue? c).isSome
  match t.points with
  | .char '-' :: rest =>
    let body := if t.endsWith '\n' then rest.dropLast else rest
    let whole := body.takeWhile isDigit
    match body.dropWhile isDigit with
    | [] => !whole.isEmpty
    | .char '.' :: fraction => !fraction.isEmpty && fraction.all isDigit
    | _ => false
  | _ => false

namespace Grammar

/-- Every spelling with its option, in order. -/
def spellings (g : Grammar) : List (String × OptionSpec) :=
  g.options.flatMap fun o => o.spellings.map fun s => (s, o)

/-- The option with a spelling. -/
def find? (g : Grammar) (spelling : Text) : Option OptionSpec :=
  (g.spellings.find? fun s => spelling == s.1).map (·.2)

/-- Does a text begin a spelling? -/
def begins (t : Text) (spelling : String) : Bool :=
  t.points.isPrefixOf (Text.ofString spelling).points

/-- A reading of an argument that is no full spelling. -/
structure Candidate where
  spelling : String
  spec : OptionSpec
  attached : Option Text

/-- The readings of an argument that is no full spelling: a shortened long option, or a short option
with its value attached. -/
def candidates (g : Grammar) (arg : Text) : List Candidate :=
  match arg.points with
  | .char '-' :: .char '-' :: _ =>
    let (start, after) := splitEquals arg
    (g.spellings.filter fun s => begins start s.1).map fun s => ⟨s.1, s.2, after⟩
  | .char '-' :: c :: rest =>
    g.spellings.filterMap fun s =>
      if (⟨[.char '-', c]⟩ : Text) == s.1 then some ⟨s.1, s.2, some ⟨rest⟩⟩
      else if begins arg s.1 then some ⟨s.1, s.2, none⟩
      else none
  | _ => []

/-- Does a spelling start with two dashes? -/
def isLong (spelling : Text) : Bool := divider.points.isPrefixOf spelling.points

/-- Classifies an argument that starts with a dash and is no full spelling. -/
def classifyDashed (g : Grammar) (arg : Text) : Except Text Token :=
  let (start, after) := splitEquals arg
  match after, g.find? start with
  | some value, some o => .ok (.option (some o) (isLong start) (some value))
  | _, _ =>
    match g.candidates arg with
    | [c] => .ok (.option (some c.spec) (isLong c.spelling) c.attached)
    | [] =>
      if isNegativeNumber arg || arg.points.contains (.char ' ') then .ok .argument
      else .ok (.option none (isLong arg) none)
    | several =>
      .error ("ambiguous option: " ++ arg ++ " could match " ++
        ", ".intercalate (several.map Candidate.spelling))

/-- Classifies an argument by its spelling. -/
def classify (g : Grammar) (arg : Text) : Except Text Token :=
  match arg.points with
  | .char '-' :: rest =>
    match g.find? arg with
    | some o => .ok (.option (some o) (isLong arg) none)
    | none => if rest.isEmpty then .ok .argument else g.classifyDashed arg
  | _ => .ok .argument

/-- Classifies all arguments; those after a divider are no options. -/
def classifyAll (g : Grammar) : List Text → Except Text (List (Text × Token))
  | [] => .ok []
  | arg :: rest =>
    if arg == divider then .ok ((arg, .divider) :: rest.map fun a => (a, .argument))
    else do
      let token ← g.classify arg
      let later ← g.classifyAll rest
      return (arg, token) :: later

/-- The complaint about a value that an option does not take. -/
def ignoredValue (o : OptionSpec) (value : Text) : Text :=
  "argument " ++ o.label ++ ": ignored explicit argument " ++ Text.quoted value

/-- The complaint about an option without its value. -/
def missingValue (o : OptionSpec) : Text := "argument " ++ o.label ++ ": expected one argument"

/-- An option without an attached value: what it gives at once, and the option that takes the next
argument as its value. -/
def takeAlone (o : OptionSpec) : List Event × Option OptionSpec :=
  if o.takesValue then ([], some o) else ([.flag o], none)

/-- Takes apart an option with an attached value: what is given, and the option that takes the next
argument as its value. A short option without a value may have other short options attached. -/
def takeAttached (g : Grammar) (o : OptionSpec) (long : Bool) :
    List CodePoint → Except Text (List Event × Option OptionSpec)
  | [] => if o.takesValue then .ok ([.ofValue o .empty], none) else .error (ignoredValue o .empty)
  | c :: rest =>
    if o.takesValue then .ok ([.ofValue o ⟨c :: rest⟩], none)
    else if long then .error (ignoredValue o ⟨c :: rest⟩)
    else
      match g.find? ⟨[.char '-', c]⟩ with
      | none => .error (ignoredValue o ⟨c :: rest⟩)
      | some p => do
        let (events, wanting) ←
          if rest.isEmpty then pure (takeAlone p) else g.takeAttached p false rest
        return (.flag o :: events, wanting)

/-- Takes apart an option at the front of the arguments. -/
def takeOption (g : Grammar) (o : OptionSpec) (long : Bool) :
    Option Text → Except Text (List Event × Option OptionSpec)
  | none => .ok (takeAlone o)
  | some value => g.takeAttached o long value.points

end Grammar

namespace Parsed

/-- Nothing was given, and the arguments end in a fault. -/
def ofFault (message : Text) : Parsed := ⟨[], .fault message⟩

/-- Events that come before all others. -/
def withEvents (events : List Event) (p : Parsed) : Parsed := ⟨events ++ p.events, p.ending⟩

/-- An argument that nothing takes, before all others. -/
def withExtra (extra : Text) (p : Parsed) : Parsed :=
  match p.ending with
  | .fault message => ⟨p.events, .fault message⟩
  | .finished later => ⟨p.events, .finished (extra :: later)⟩

end Parsed

/-- Where the scan is with respect to the operand. -/
inductive Stage where
  | before
  | beside
  | after
  deriving DecidableEq, Repr

namespace Grammar

/-- Takes classified arguments one after another. The first argument that is no option is the
operand; a divider right beside it is not part of it. -/
def scan (g : Grammar) (stage : Stage) : List (Text × Token) → Parsed
  | [] =>
    if stage = .before then
      .ofFault ("the following arguments are required: " ++ g.operand)
    else ⟨[], .finished []⟩
  | (arg, .argument) :: rest =>
    if stage ≠ .before then (g.scan .after rest).withExtra arg
    else if g.greedy then ⟨[.operand (arg :: rest.map (·.1))], .finished []⟩
    else (g.scan .beside rest).withEvents [.operand [arg]]
  | (arg, .divider) :: rest =>
    match stage with
    | .before =>
      if g.greedy && !rest.isEmpty then ⟨[.operand (arg :: rest.map (·.1))], .finished []⟩
      else g.scan .before rest
    | .beside => g.scan .after rest
    | .after => (g.scan .after rest).withExtra arg
  | (arg, .option none _ _) :: rest => (g.scan (passed stage) rest).withExtra arg
  | (_, .option (some o) long attached) :: rest =>
    match g.takeOption o long attached with
    | .error message => .ofFault message
    | .ok (events, none) => (g.scan (passed stage) rest).withEvents events
    | .ok (events, some p) =>
      match rest with
      | (value, .argument) :: after =>
        (g.scan (passed stage) after).withEvents (events ++ [.ofValue p value])
      | _ => .ofFault (missingValue p)
where
  /-- The stage past an option. -/
  passed : Stage → Stage
    | .beside => .after
    | stage => stage

/-- Splits a list of arguments. -/
def parse (g : Grammar) (args : List Text) : Parsed :=
  match g.classifyAll args with
  | .error message => .ofFault message
  | .ok classified => g.scan .before classified

end Grammar

end Latchwork.CommandLine
