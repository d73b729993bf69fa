import Latchwork.Archive
import Latchwork.FileTree
import Latchwork.Hash.Blake2b
import Latchwork.Log

/-!
# Build plans

A build plan holds every file that compiling a netlist produces, in the order of addition, before
anything is written. A plan can be hashed, packed into an archive, or extracted into a file tree.
-/

namespace Latchwork

/-- The content of a planned file. -/
inductive FileContent where
  | text (t : Text)
  | bytes (b : Bytes)
  | foreign (v : Value)
  deriving Repr

/-- The bytes that are written for a content. Data that is neither text nor bytes has none. -/
def FileContent.toBytes : FileContent → Except Error Bytes
  | .text t => t.utf8
  | .bytes b => .ok b
  | .foreign _ => .error .content

/-- The member of an archive for a content under a name. Data with elements is refused only after
its name has been judged. -/
def FileContent.archived (name : Text) : FileContent → Except Error ArchiveMember
  | .foreign v => do
    if v.elements?.isSome then
      let _ ← ArchiveMember.ofFile name []
    throw .content
  | content => do ArchiveMember.ofFile name (← content.toBytes)

/-- The files of a circuit, in order of addition and with distinct names. -/
structure Plan where
  name : Value
  files : List (Text × FileContent)
  namesDistinct : (files.map Prod.fst).Nodup

namespace Plan

/-- The plan of a circuit with no files. -/
def empty (name : Value) : Plan := ⟨name, [], .nil⟩

/-- Adds a file. Its name must be new and must not be absolute. -/
def add (p : Plan) (name : Text) (content : FileContent) : Except Error Plan :=
  if h : name ∈ p.files.map Prod.fst then .error .filename
  else if isAbsoluteName name then .error (.absoluteFilename name)
  else .ok
    { p with
      files := p.files ++ [(name, content)]
      namesDistinct := by
        rw [List.map_append, List.nodup_append]
        refine ⟨p.namesDistinct, by simp, fun a ha b hb => ?_⟩
        simp only [List.map_cons, List.map_nil, List.mem_singleton] at hb
        rintro rfl
        exact h (hb ▸ ha) }

/-- A file that is added comes last. -/
theorem files_of_add {p q : Plan} {name : Text} {content : FileContent}
    (h : p.add name content = .ok q) : q.files = p.files ++ [(name, content)] := by
  unfold add at h
  split at h
  · cases h
  · split at h
    · cases h
    · cases h
      rfl

/-- Adds a file whose name is given as data. -/
def addOf (p : Plan) (name : Value) (content : FileContent) : Except Error Plan :=
  match name.text? with
  | some s => p.add s content
  | none => .error .filename

/-- Adds several text files in order. -/
def addTexts (p : Plan) (files : List (Text × Text)) : Except Error Plan :=
  files.foldlM (fun p f => p.add f.1 (.text f.2)) p

/-- The files in order of their names. -/
def sortedFiles (p : Plan) : List (Text × FileContent) :=
  p.files.mergeSort fun a b => a.1.precedes b.1

/-- The name of the circuit in bytes. -/
def nameBytes (p : Plan) : Except Error Bytes :=
  match p.name with
  | .text name => name.utf8
  | _ => .error .planName

/-- The bytes that the digest is computed from: names and contents in order of the names, then the
name of the circuit. -/
def digestInput (p : Plan) : Except Error Bytes := do
  let files ← p.sortedFiles.mapM fun f => do
    let name ← f.1.utf8
    let content ← f.2.toBytes
    return name ++ content
  return files.flatten ++ (← p.nameBytes)

/-- The size of a digest unless another one is asked for. -/
def defaultDigestSize : Nat := 64

/-- The digest size that a number stands for. -/
def digestSize (size : Int) : Except Error Nat :=
  if size < -(power 2 31 : Nat) ∨ (power 2 31 : Nat) ≤ size then .error .numberTooLarge
  else if 1 ≤ size ∧ size ≤ 64 then .ok size.toNat
  else .error .digestSize

/-- The digest of a plan, which does not depend on the order of addition. -/
def digest (p : Plan) (size : Int) : Except Error Bytes := do
  let size ← digestSize size
  return Blake2b.hash size (← p.digestInput)

/-- The archive of a plan, with its members in order of their names. -/
def archive (p : Plan) : Except Error Bytes := do
  let members ← p.sortedFiles.mapM fun f => f.2.archived f.1
  return Archive.bytes members

end Plan

/-- What an extraction has done so far: the tree it leaves and its reports. -/
structure Extraction where
  tree : FileTree
  logs : List LogEntry

namespace Plan

/-- Writes a content to a file. Data that is neither text nor bytes leaves the file empty. -/
def writeContent (target : Text) (e : Extraction) (content : Except Error Bytes) :
    Extraction × Except Error Unit :=
  let logs := e.logs ++ [.info ("Writing to '" ++ target ++ "'")]
  match e.tree.write target (content.toOption.getD []), content with
  | .error cause, _ => (⟨e.tree, logs⟩, .error cause)
  | .ok tree, .error cause => (⟨tree, logs⟩, .error cause)
  | .ok tree, .ok bytes =>
    let size := Numeral.decimal bytes.length
    let wrote := LogEntry.debug ("Wrote " ++ size ++ " bytes to '" ++ target ++ "'")
    (⟨tree, logs ++ [wrote]⟩, .ok ())

/-- Writes one file below a directory. Names with a step up are refused, then texts that cannot be
encoded. -/
def extractFile (root : Path) (e : Extraction) (name : Text) (content : FileContent) :
    Extraction × Except Error Unit :=
  let path := Path.ofText name
  if path.steps.contains Path.up then (e, .error .parentStep)
  else
    let target := root.append path.steps
    match e.tree.makeDirectories target.parent with
    | (tree, .error cause) => ({ e with tree := tree }, .error cause)
    | (tree, .ok ()) =>
      let e := { e with tree := tree }
      match content, content.toBytes with
      | .text _, .error cause => (e, .error cause)
      | _, bytes => writeContent target.text e bytes

/-- Writes files below a directory, in order, up to the first that cannot be written. -/
def extractFiles (root : Path) (e : Extraction) :
    List (Text × FileContent) → Extraction × Except Error Unit
  | [] => (e, .ok ())
  | (name, content) :: rest =>
    match extractFile root e name content with
    | (e, .error cause) => (e, .error cause)
    | (e, .ok ()) => extractFiles root e rest

/-- Writes all files below a directory, which is made if it is missing. The result is the place of
that directory. -/
def extract (p : Plan) (tree : FileTree) (root : Path) : Extraction × Except Error Place :=
  let logs := [LogEntry.info ("Creating directory '" ++ root.text ++ "/'")]
  match tree.makeDirectories root with
  | (tree, .error cause) => (⟨tree, logs⟩, .error cause)
  | (tree, .ok ()) =>
    let (e, result) := extractFiles root ⟨tree, logs⟩ p.files
    (e, result.map fun _ => root.place)

/-- Writes all files below a directory that is given as data. -/
def extractTo (p : Plan) (tree : FileTree) (root : Value) : Extraction × Except Error Place :=
  match root with
  | .text t => p.extract tree (Path.ofText t)
  | _ => (⟨tree, []⟩, .error .notText)

/-- Writes all files to a directory of some name below another one, both given as data. -/
def extractBelow (p : Plan) (tree : FileTree) (root name : Value) :
    Extraction × Except Error Place :=
  match root, name with
  | .text root, .text name => p.extract tree (Path.ofText (Path.joinText root name))
  | _, _ => (⟨tree, []⟩, .error .notText)

end Plan

end Latchwork
