import Latchwork.Json.Reader
import Latchwork.Json.Schema
import Latchwork.Primitive

/-!
# Errors

Every way in which an operation can fail, as a cause, and the wording of each. Errors fall into
families; those of the first six concern a netlist that cannot be compiled and may point at an
instance and at a name.
-/

namespace Latchwork

/-- The place where a wire is used. -/
inductive Site where
  | input (position : Nat) (id : Index) (kind : Text)
  | output (name : Text)
  deriving DecidableEq, Repr

/-- The numbers in the name of a place. Positions count inputs that are at hand, and are short. -/
def Site.numerals : Site → List Nat
  | .input _ id _ => id.numerals
  | .output _ => []

/-- How a place is named. -/
def Site.text : Site → Text
  | .input position id kind =>
    "Input " ++ Numeral.decimal position ++ " of instance " ++ id.text ++ " (" ++ kind ++ ")"
  | .output name => "Output " ++ Text.quoted name

/-- Why a file or a directory cannot be opened or made. -/
inductive FileFault where
  | notFound
  | exists
  | notDirectory
  | isDirectory
  | nameTooLong
  deriving DecidableEq, Repr

/-- The number and the wording of a fault. -/
def FileFault.text : FileFault → String
  | .notFound => "[Errno 2] No such file or directory"
  | .exists => "[Errno 17] File exists"
  | .notDirectory => "[Errno 20] Not a directory"
  | .isDirectory => "[Errno 21] Is a directory"
  | .nameTooLong => "[Errno 36] File name too long"

/-- Why bytes are no text in UTF-8. -/
inductive DecodeFault where
  | startByte
  | continuationByte
  | endOfData
  deriving DecidableEq, Repr

/-- The wording of a fault. -/
def DecodeFault.text : DecodeFault → String
  | .startByte => "invalid start byte"
  | .continuationByte => "invalid continuation byte"
  | .endOfData => "unexpected end of data"

/-- A cause of failure. -/
inductive Error where
  -- data that has not the form of an instance, a wire or an output
  | instanceId (given : Value)
  | portIndex (given : Value)
  | instanceKind (given : Value)
  | outputCount (given : Value)
  | notIterable
  | notPair
  | argumentCount
  | unhashableId
  | unknownId
  -- instances against their primitives
  | duplicateId (given : Value)
  | unknownPrimitive (kind : Value) (id : Option Value)
  | missingParameter (id : Index) (kind : Text) (key : Value)
  | notInteger (id : Index) (kind key value : Text)
  | notIntegerList (id : Index) (kind key value : Text)
  | inputsNeeded (id : Index) (kind : Primitive) (needed given : Nat)
  | outputsNeeded (id : Index) (kind : Primitive) (needed : Nat) (given : Index)
  | registerInit (id : Index) (given : Int)
  | dataWidth (id : Index) (given : Int)
  | addressWidth (id : Index) (given : Int)
  | tooManyInitialValues (id : Index) (count depth : Nat)
  | initialValueTooWide (id : Index) (value : Int) (address width : Nat)
  | memoryInputs (id : Index) (dwidth awidth needed given : Nat)
  | notMemory (id : Index) (kind : Primitive)
  -- netlists
  | noInstance (site : Site) (driver : Index)
  | noOutput (site : Site) (port driver : Index) (kind : Text) (count : Index)
  | outputName (given : Value)
  | outputDefined (name : Text)
  | missingOutput (given : Value)
  | cycle (ids : List Index)
  -- names of the emitted procedure
  | notText
  | notIdentifier (name : Text)
  | inputNotIdentifier (name : Text) (id : Value)
  | reservedWord (name : Text) (id : Option Value)
  | generatedName (name : Text) (id : Option Value)
  | tooManyOutputs (count : Nat)
  -- reading a netlist
  | unreadable (cause : Json.ReadError)
  | violations (found : List Json.Violation)
  | rejected (cause : Error)
  | notFinite (cause : Json.NotFinite)
  -- limits
  | nesting
  | numberTooLarge
  | outOfMemory
  | numeralTooLong
  -- running a procedure
  | forbiddenName (name : Text)
  | callArguments
  | unboundName (name : Text)
  | wrongOperand
  | outOfRange
  | endless
  -- building
  | override (setting : String) (value : Text)
  | filename
  | absoluteFilename (name : Text)
  | digestSize
  | parentStep
  | planName
  | content
  | unencodable (points : List CodePoint) (start : Nat)
  | undecodable (fault : DecodeFault) (bytes : List UInt8) (start : Nat)
  | nullCharacter
  | archiveField
  | file (fault : FileFault)
  | variableName
  | emptyVariable
  -- command lines
  | emptyAssignment (position : Nat)
  deriving Repr

/-- The families of errors. -/
inductive ErrorFamily where
  | unknownPrimitive
  | malformedInstance
  | missingParameter
  | reservedIdentifier
  | missingOutput
  | cyclicNetlist
  | invalidNetlist
  | wrongType
  | badValue
  | overflow
  | memory
  | nesting
  | missingKey
  | missingMethod
  | violatedAssumption
  | forbiddenName
  | unbound
  | outOfRange
  | endless
  | unencodable
  | undecodable
  | archive
  | invalidArgument
  | file (fault : FileFault)
  deriving DecidableEq, Repr

namespace Error

/-- The family of an error. A text that is not a netlist makes an invalid netlist, unless a number
in it is out of bounds. -/
def family : Error → ErrorFamily
  | .instanceId _ | .portIndex _ | .instanceKind _ | .outputCount _ => .wrongType
  | .notIterable | .argumentCount | .unhashableId => .wrongType
  | .notPair => .badValue
  | .unknownId => .missingKey
  | .duplicateId _ => .malformedInstance
  | .unknownPrimitive .. => .unknownPrimitive
  | .missingParameter .. => .missingParameter
  | .notInteger .. | .notIntegerList .. => .malformedInstance
  | .inputsNeeded .. | .outputsNeeded .. | .registerInit .. => .malformedInstance
  | .dataWidth .. | .addressWidth .. | .tooManyInitialValues .. => .malformedInstance
  | .initialValueTooWide .. | .memoryInputs .. => .malformedInstance
  | .notMemory .. => .wrongType
  | .noInstance .. | .noOutput .. => .malformedInstance
  | .outputName _ | .outputDefined _ => .badValue
  | .missingOutput _ => .missingOutput
  | .cycle _ => .cyclicNetlist
  | .notText => .wrongType
  | .notIdentifier _ => .badValue
  | .inputNotIdentifier .. => .malformedInstance
  | .reservedWord .. | .generatedName .. => .reservedIdentifier
  | .tooManyOutputs _ => .badValue
  | .unreadable (.malformed ..) => .invalidNetlist
  | .unreadable (.tooManyDigits _) => .badValue
  | .unreadable .tooDeep => .nesting
  | .violations _ | .rejected _ => .invalidNetlist
  | .notFinite .nan => .badValue
  | .notFinite .infinity => .overflow
  | .nesting => .nesting
  | .numberTooLarge => .overflow
  | .outOfMemory => .memory
  | .numeralTooLong => .badValue
  | .forbiddenName _ => .forbiddenName
  | .callArguments | .wrongOperand => .wrongType
  | .unboundName _ => .unbound
  | .outOfRange => .outOfRange
  | .endless => .endless
  | .override .. => .badValue
  | .filename => .violatedAssumption
  | .absoluteFilename _ => .badValue
  | .digestSize => .badValue
  | .parentStep => .violatedAssumption
  | .planName => .missingMethod
  | .content => .wrongType
  | .unencodable .. => .unencodable
  | .undecodable .. => .undecodable
  | .nullCharacter => .badValue
  | .archiveField => .archive
  | .file fault => .file fault
  | .variableName => .badValue
  | .emptyVariable => .invalidArgument
  | .emptyAssignment _ => .badValue

/-- Messages that say which value was found in place of the right one. -/
def mustBe (what wanted found : Text) : Text :=
  what ++ " must be " ++ wanted ++ ", not " ++ found

/-- A parameter of an instance in messages. -/
def parameterText (id : Index) (kind key : Text) : Text :=
  "Parameter " ++ Text.quoted key ++ " of instance " ++ id.text ++ " (" ++ kind ++ ")"

/-- The wording for code points that cannot be encoded, from a position on. -/
def unencodableText (points : List CodePoint) (start : Nat) : String :=
  let place :=
    match points with
    | [point] =>
      "character '" ++ Text.escapeCode point.value ++ "' in position " ++ Numeral.decimal start
    | _ =>
      "characters in position " ++ Numeral.decimal start ++ "-" ++
        Numeral.decimal (start + points.length - 1)
  "'utf-8' codec can't encode " ++ place ++ ": surrogates not allowed"

/-- The wording for bytes that cannot be decoded, from a position on. -/
def undecodableText (fault : DecodeFault) (bytes : List UInt8) (start : Nat) : String :=
  let place :=
    match bytes with
    | [byte] =>
      "byte 0x" ++ Numeral.hexadecimalOfWidth 2 byte.toNat ++ " in position " ++
        Numeral.decimal start
    | _ =>
      "bytes in position " ++ Numeral.decimal start ++ "-" ++
        Numeral.decimal (start + bytes.length - 1)
  "'utf-8' codec can't decode " ++ place ++ ": " ++ fault.text

/-- The wording of an error. -/
def message : Error → Text
  | .instanceId given => mustBe "Instance id" "a non-negative integer" given.display
  | .portIndex given => mustBe "Port index" "a non-negative integer" given.display
  | .instanceKind given => mustBe "Instance kind" "a string" given.display
  | .outputCount given => mustBe "Output count" "a non-negative integer" given.display
  | .notIterable => "the value has no elements"
  | .notPair => "the value has not exactly two elements"
  | .argumentCount => "wrong number of arguments"
  | .unhashableId => "a list or an object cannot be an id"
  | .unknownId => "no instance has this id"
  | .duplicateId given => "Instance id " ++ given.plain ++ " is used more than once"
  | .unknownPrimitive kind none => "Unknown primitive " ++ kind.display
  | .unknownPrimitive kind (some id) =>
    "Instance " ++ id.plain ++ " has unknown primitive " ++ kind.display
  | .missingParameter id kind key =>
    "Instance " ++ id.text ++ " (" ++ kind ++ ") has no parameter " ++ key.display
  | .notInteger id kind key value =>
    mustBe (parameterText id kind key) "an integer" (Text.quoted value)
  | .notIntegerList id kind key value =>
    mustBe (parameterText id kind key) "a list of integers" (Text.quoted value)
  | .inputsNeeded id kind needed given =>
    "Instance " ++ id.text ++ " (" ++ kind.text ++ ") needs " ++ Numeral.decimal needed ++
      " inputs, not " ++ Numeral.decimal given
  | .outputsNeeded id kind needed given =>
    "Instance " ++ id.text ++ " (" ++ kind.text ++ ") must have " ++ Numeral.decimal needed ++
      " outputs, not " ++ given.text
  | .registerInit id given =>
    "Register instance " ++ id.text ++ " has initial value " ++ Numeral.integer given ++
      "; it must be 0 or 1"
  | .dataWidth id given =>
    "Memory instance " ++ id.text ++ " has data width " ++ Numeral.integer given ++
      "; it must be positive"
  | .addressWidth id given =>
    "Memory instance " ++ id.text ++ " has address width " ++ Numeral.integer given ++
      "; it must not be negative"
  | .tooManyInitialValues id count depth =>
    "Memory instance " ++ id.text ++ " has " ++ Numeral.decimal count ++
      " initial values, but only " ++ Numeral.decimal depth ++ " locations"
  | .initialValueTooWide id value address width =>
    "Initial value " ++ Numeral.integer value ++ " at address " ++ Numeral.decimal address ++
      " of memory instance " ++ id.text ++ " does not fit in " ++ Numeral.decimal width ++ " bits"
  | .memoryInputs id dwidth awidth needed given =>
    "Memory instance " ++ id.text ++ " with data width " ++ Numeral.decimal dwidth ++
      " and address width " ++ Numeral.decimal awidth ++ " needs " ++
      Numeral.decimal needed ++ " inputs, not " ++ Numeral.decimal given
  | .notMemory id kind => "Instance " ++ id.text ++ " is a " ++ kind.text ++ ", not a memory"
  | .noInstance site driver =>
    site.text ++ " refers to instance " ++ driver.text ++ ", which does not exist"
  | .noOutput site port driver kind count =>
    site.text ++ " refers to output " ++ port.text ++ " of instance " ++ driver.text ++ " (" ++
      kind ++ "), which has only " ++ count.text ++ " outputs"
  | .outputName given => mustBe "Output name" "an identifier" given.display
  | .outputDefined name => "Output " ++ Text.quoted name ++ " is already defined"
  | .missingOutput given => "Netlist has no output named " ++ given.display
  | .cycle ids =>
    "Combinational cycle detected through instances " ++ " -> ".intercalate (ids.map Index.text)
  | .notText => "the value is not a text"
  | .notIdentifier name => Text.quoted name ++ " is not a valid identifier"
  | .inputNotIdentifier name id =>
    "Input name " ++ Text.quoted name ++ " of instance " ++ id.plain ++
      " is not a valid identifier"
  | .reservedWord name _ => "'" ++ name ++ "' is a reserved keyword"
  | .generatedName name _ => "'" ++ name ++ "' collides with a generated name"
  | .tooManyOutputs count =>
    "The C back-end can encode at most 64 outputs, not " ++ Numeral.decimal count
  | .unreadable (.malformed fault place) =>
    "Invalid netlist: " ++ (Json.ReadError.malformed fault place).message
  | .unreadable cause => cause.message
  | .violations _ => "Invalid netlist:"
  | .rejected cause => "Invalid netlist: " ++ cause.message
  | .notFinite .nan => "cannot convert float NaN to integer"
  | .notFinite .infinity => "cannot convert float infinity to integer"
  | .nesting => "the values are nested too deeply"
  | .numberTooLarge => "the number is too large"
  | .outOfMemory => "the memory is exhausted"
  | .numeralTooLong =>
    "Exceeds the limit (" ++ Numeral.decimal Numeral.digitLimit ++
      " digits) for integer string conversion; " ++
      "use sys.set_int_max_str_digits() to increase the limit"
  | .forbiddenName name => "no value can be bound to " ++ name
  | .callArguments => "the arguments do not fit the procedure"
  | .unboundName name => "no value is bound to " ++ name
  | .wrongOperand => "the operand is not a number"
  | .outOfRange => "the address is out of range"
  | .endless => "the procedure never returns"
  | .override setting value =>
    "Override '" ++ setting ++ "' must be one of (\"0\", \"n\", \"no\", \"false\", \"\") " ++
      "or (\"1\", \"y\", \"yes\", \"true\"), not " ++ Text.quoted value
  | .filename => "the file name is not a new text"
  | .absoluteFilename name => "Filename " ++ Text.quoted name ++ " must not be an absolute path"
  | .digestSize => "the digest size must be between 1 and 64"
  | .parentStep => "the path leaves the directory"
  | .planName => "the name of the plan is not a text"
  | .content => "the content is neither a text nor bytes"
  | .unencodable points start => unencodableText points start
  | .undecodable fault bytes start => undecodableText fault bytes start
  | .nullCharacter => "embedded null byte"
  | .archiveField => "a number does not fit its field of the archive"
  | .file fault => fault.text
  | .variableName => "illegal environment variable name"
  | .emptyVariable => "[Errno 22] Invalid argument"
  | .emptyAssignment position =>
    "dictionary update sequence element #" ++ Numeral.decimal position ++
      " has length 0; 2 is required"

/-- The numbers in the wording of an error. Numbers that count what is at hand are short. -/
def numerals : Error → List Nat
  | .instanceId given | .portIndex given | .instanceKind given | .outputCount given =>
    given.numerals
  | .duplicateId given | .outputName given | .missingOutput given => given.numerals
  | .unknownPrimitive kind id => kind.numerals ++ (id.map Value.numerals).getD []
  | .missingParameter id _ key => id.numerals ++ key.numerals
  | .notInteger id .. | .notIntegerList id .. | .inputsNeeded id .. | .notMemory id _ => id.numerals
  | .outputsNeeded id _ needed given => needed :: id.numerals ++ given.numerals
  | .registerInit id given | .dataWidth id given | .addressWidth id given =>
    given.natAbs :: id.numerals
  | .tooManyInitialValues id _ depth => depth :: id.numerals
  | .initialValueTooWide id value _ width => value.natAbs :: width :: id.numerals
  | .memoryInputs id dwidth awidth needed _ => dwidth :: awidth :: needed :: id.numerals
  | .noInstance site driver => site.numerals ++ driver.numerals
  | .noOutput site port driver _ count =>
    site.numerals ++ port.numerals ++ driver.numerals ++ count.numerals
  | .cycle ids => ids.flatMap Index.numerals
  | .inputNotIdentifier _ id => id.numerals
  | .rejected cause => cause.numerals
  | _ => []

/-- What a caller sees of an error: one whose wording holds a number that is too long is never
worded, and the number is the error. -/
def raised (e : Error) : Error := if e.numerals.any Numeral.isTooLong then .numeralTooLong else e

/-- The instance that an error points at; null where there is none. -/
def subject : Error → Value
  | .duplicateId given => given
  | .unknownPrimitive _ id => id.getD .null
  | .missingParameter id .. => id.toValue
  | .notInteger id .. => id.toValue
  | .notIntegerList id .. => id.toValue
  | .inputsNeeded id .. => id.toValue
  | .outputsNeeded id .. => id.toValue
  | .registerInit id _ => id.toValue
  | .dataWidth id _ => id.toValue
  | .addressWidth id _ => id.toValue
  | .tooManyInitialValues id .. => id.toValue
  | .initialValueTooWide id .. => id.toValue
  | .memoryInputs id .. => id.toValue
  | .noInstance (.input _ id _) _ => id.toValue
  | .noOutput (.input _ id _) .. => id.toValue
  | .cycle (id :: _) => id.toValue
  | .inputNotIdentifier _ id => id
  | .reservedWord _ id => id.getD .null
  | .generatedName _ id => id.getD .null
  | _ => .null

/-- The name that an error points at; null where there is none. -/
def subjectName : Error → Value
  | .unknownPrimitive kind _ => kind
  | .missingParameter _ _ key => key
  | .notInteger _ _ key _ => .text key
  | .notIntegerList _ _ key _ => .text key
  | .registerInit .. => .text "init"
  | .dataWidth .. => .text "dwidth"
  | .addressWidth .. => .text "awidth"
  | .tooManyInitialValues .. => .text "init"
  | .initialValueTooWide .. => .text "init"
  | .noInstance (.output name) _ => .text name
  | .noOutput (.output name) .. => .text name
  | .missingOutput given => given
  | .inputNotIdentifier name _ => .text name
  | .reservedWord name _ => .text name
  | .generatedName name _ => .text name
  | _ => .null

end Error

/-- Whatever is written with numerals, unless one of the numbers is too long. Every text with
numbers in it that leaves the library goes through here. -/
def Numeral.written {α : Type} (numbers : List Nat) (text : α) : Except Error α :=
  if numbers.any isTooLong then .error .numeralTooLong else .ok text

/-- Whatever is written with the numeral of a power of two, which is judged by its exponent. -/
def Numeral.writtenPower {α : Type} (exponent : Nat) (text : α) : Except Error α :=
  if digitBits ≤ exponent then .error .numeralTooLong else .ok text

/-- The name of a place, in writing. -/
def Site.written (site : Site) : Except Error Text := Numeral.written site.numerals site.text

/-- The text of a value, in writing. -/
def Value.written (v : Value) : Except Error Text := Numeral.written v.numerals v.plain

end Latchwork
