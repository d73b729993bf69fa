import Latchwork.Text.Encoding
import Latchwork.Trie

/-!
# File trees

A file tree is what lies below a working directory: files with their contents, and directories. The
steps of a path are divided by slashes; empty steps do not count. A path that starts with a slash
leads down from the top directory, where nothing is known but a few directories and the null device,
which reads as nothing and forgets what is written to it. Steps that lead out of the working
directory lead to directories that are there. Nothing outside is listed.
-/

namespace Latchwork

/-- A path in its plain spelling, without empty steps and steps that stay in place. Of the slashes
at its start it keeps one, or two if there are exactly two. -/
structure Path where
  slashes : Nat
  steps : List Text
  deriving DecidableEq, Repr

namespace Path

/-- The step that stays in place. -/
def here : Text := "."

/-- The step to the directory above. -/
def up : Text := ".."

/-- The steps that a text spells, without the empty ones. -/
def stepsOf (t : Text) : List Text := (t.splitOn '/').filter fun step => !step.isEmpty

/-- The path that a text spells. -/
def ofText (t : Text) : Path :=
  let slashes := (t.points.takeWhile (· == .char '/')).length
  ⟨if slashes = 2 then 2 else min slashes 1, (stepsOf t).filter (· != here)⟩

/-- The spelling of a name below a directory. -/
def joinText (root name : Text) : Text :=
  if root.isEmpty || root.endsWith '/' then root ++ name else root ++ "/" ++ name

/-- How a path is written; the empty path is a point. -/
def text (p : Path) : Text :=
  if p.slashes = 0 ∧ p.steps.isEmpty then here
  else ⟨List.replicate p.slashes (.char '/')⟩ ++ Text.intercalate "/" p.steps

/-- A path below another one. -/
def append (p : Path) (steps : List Text) : Path := { p with steps := p.steps ++ steps }

/-- The path without its last step. -/
def parent (p : Path) : Path := { p with steps := p.steps.dropLast }

end Path

/-- A place that a path leads to: the steps from the top directory or from the working directory to
it. In a place outside the working directory the first steps may lead up. -/
structure Place where
  fromTop : Bool
  steps : List Text
  deriving DecidableEq, Repr

namespace Place

/-- The directory above a place. There is none above the top directory. -/
def above (p : Place) : Place :=
  match p.steps.getLast? with
  | none => if p.fromTop then p else { p with steps := [Path.up] }
  | some last =>
    if last == Path.up then { p with steps := p.steps ++ [Path.up] }
    else { p with steps := p.steps.dropLast }

/-- The place one step further. -/
def next (p : Place) (step : Text) : Place :=
  if step == Path.here then p
  else if step == Path.up then p.above
  else { p with steps := p.steps ++ [step] }

/-- How a place is written; the working directory is a point. -/
def text (p : Place) : Text :=
  Path.text ⟨if p.fromTop then 1 else 0, p.steps⟩

end Place

/-- The place where the steps of a path start. -/
def Path.origin (p : Path) : Place := ⟨p.slashes != 0, []⟩

/-- The place that a path leads to. -/
def Path.place (p : Path) : Place := p.steps.foldl Place.next p.origin

/-- Does a share name of the form server and share follow two separators? The share may be empty,
but no further separator may come in its place. -/
def isNetworkShare : List CodePoint → Bool
  | .char '\\' :: .char '\\' :: c :: rest =>
    c != .char '\\' &&
      match rest.dropWhile (· != .char '\\') with
      | [] => false
      | _ :: share => share.head? != some (.char '\\')
  | _ => false

/-- Does the text start with a drive letter, a colon and a separator? -/
def isDriveRoot : List CodePoint → Bool
  | .char c :: .char ':' :: .char '\\' :: _ => c.isAlpha
  | _ => false

/-- Is a file name absolute, either with slashes alone or with both slashes and backslashes as
separators, drives, network shares and extended paths? -/
def isAbsoluteName (name : Text) : Bool :=
  let path := name.points.map fun p => if p == .char '/' then .char '\\' else p
  name.points.head? == some (.char '/') ||
    if (Text.ofString "\\\\?\\UNC\\").points.isPrefixOf path then true
    else if (Text.ofString "\\\\?\\").points.isPrefixOf path then
      let rest := path.drop 4
      isNetworkShare rest || isDriveRoot rest || rest.head? == some (.char '\\')
    else isNetworkShare path || isDriveRoot path

/-- What a place holds. -/
inductive Entry where
  | directory
  | file (content : Bytes)
  | device
  deriving DecidableEq, Repr

/-- The files and directories that have been put somewhere, by the steps from the working directory
and from the top directory. -/
structure FileTree where
  near : Trie Entry
  top : Trie Entry
  deriving Repr

namespace FileTree

/-- The empty working directory. -/
def empty : FileTree := ⟨.empty, .empty⟩

/-- What is always there: the working directory, those above it, the top directory, and in it the
null device. -/
def standing? (p : Place) : Option Entry :=
  if p.fromTop then
    if p.steps == [] then some .directory
    else if p.steps == [↑"dev"] then some .directory
    else if p.steps == [↑"tmp"] then some .directory
    else if p.steps == [↑"dev", ↑"null"] then some .device
    else none
  else if p.steps.all (· == Path.up) then some .directory
  else none

/-- What lies below a place. -/
def under (t : FileTree) (p : Place) : Trie Entry :=
  (if p.fromTop then t.top else t.near).under p.steps

/-- What a place holds. -/
def find? (t : FileTree) (p : Place) : Option Entry :=
  match standing? p with
  | some entry => some entry
  | none => (t.under p).value?

/-- Lets a place hold an entry. -/
def set (t : FileTree) (p : Place) (entry : Entry) : FileTree :=
  if p.fromTop then { t with top := t.top.insert entry p.steps }
  else { t with near := t.near.insert entry p.steps }

/-- A place where nothing stands by itself holds what was put there. -/
theorem find?_set_self {t : FileTree} {p : Place} {entry : Entry} (h : standing? p = none) :
    (t.set p entry).find? p = some entry := by
  have hget (u : Trie Entry) := u.get?_insert_self entry p.steps
  simp only [Trie.get?] at hget
  by_cases hp : p.fromTop <;> simp [find?, under, set, h, hp, hget]

/-- Other places hold what they held. -/
theorem find?_set_of_ne {t : FileTree} {p q : Place} {entry : Entry} (h : q ≠ p) :
    (t.set p entry).find? q = t.find? q := by
  obtain ⟨fromTop, steps⟩ := p
  obtain ⟨fromTop', steps'⟩ := q
  have hget (hf : fromTop' = fromTop) (u : Trie Entry) :=
    u.get?_insert_of_ne entry (fun hs => h (by rw [hf, hs]) : steps' ≠ steps)
  simp only [Trie.get?] at hget
  unfold find?
  cases fromTop <;> cases fromTop' <;> simp [under, set, hget]

/-- The most bytes in one step of a path. -/
def stepLimit : Nat := 255

/-- The most bytes in the spelling of a path. -/
def spellingLimit : Nat := 4095

/-- Checks the spelling of a path before anything is looked up. -/
def checkSpelling (name : Text) : Except Error Unit := do
  let bytes ← name.nameBytes
  if bytes.contains 0 then throw .nullCharacter
  else if spellingLimit < bytes.length then throw (.file .nameTooLong)
  else if bytes.isEmpty then throw (.file .notFound)

/-- One step from a place, which must be a directory. Steps with the same bytes are the same. -/
def step (t : FileTree) (p : Place) (step : Text) : Except Error Place :=
  match t.find? p with
  | some .directory => do
    let bytes ← step.nameBytes
    if stepLimit < bytes.length then throw (.file .nameTooLong)
    return p.next (Text.ofName bytes)
  | some _ => .error (.file .notDirectory)
  | none => .error (.file .notFound)

/-- The place that steps lead to, each from a directory. -/
def walk (t : FileTree) (p : Place) (steps : List Text) : Except Error Place :=
  steps.foldlM t.step p

/-- The place that the spelling of a path leads to. -/
def locate (t : FileTree) (name : Text) (steps : List Text) : Except Error Place :=
  t.walk (Path.ofText name).origin steps

/-- Reads the file of a given name. A slash at the end of the name asks for a directory. -/
def read (t : FileTree) (name : Text) : Except Error Bytes := do
  checkSpelling name
  let p ← t.locate name (Path.stepsOf name)
  match t.find? p with
  | some .directory => throw (.file .isDirectory)
  | some (.file content) =>
    if name.endsWith '/' then throw (.file .notDirectory) else return content
  | some .device => if name.endsWith '/' then throw (.file .notDirectory) else return []
  | none => throw (.file .notFound)

/-- Opens a file of a given name for writing: the place that is written to, which is not a
directory. A slash at the end of the name asks for a directory, whether there is one or not. -/
def openForWriting (t : FileTree) (name : Text) : Except Error Place := do
  checkSpelling name
  let steps := Path.stepsOf name
  if name.endsWith '/' then
    let p ← t.locate name steps.dropLast
    match t.find? p with
    | some .directory => throw (.file .isDirectory)
    | some _ => throw (.file .notDirectory)
    | none => throw (.file .notFound)
  else
    let p ← t.locate name steps
    match t.find? p with
    | some .directory => throw (.file .isDirectory)
    | _ => return p

/-- Writes a file of a given name in place of one that may be there. -/
def write (t : FileTree) (name : Text) (content : Bytes) : Except Error FileTree := do
  let p ← t.openForWriting name
  match t.find? p with
  | some .device => return t
  | _ => return t.set p (.file content)

/-- Is the name that of a device? -/
def isDevice (t : FileTree) (name : Text) : Bool :=
  match t.openForWriting name with
  | .ok p => t.find? p == some .device
  | .error _ => false

/-- Makes the directories that the steps of a path lead through, one after another, from a place
that a path leads to. What stands in the place of the last one already exists; before it, it is no
directory. -/
def makeSteps (t : FileTree) (path : Path) (p : Place) : List Text → FileTree × Except Error Unit
  | [] => (t, .ok ())
  | step :: rest =>
    let path := path.append [step]
    match (checkSpelling path.text).bind fun _ => t.step p step with
    | .error e => (t, .error e)
    | .ok p =>
      match t.find? p with
      | some .directory => t.makeSteps path p rest
      | some _ => if rest.isEmpty then (t, .error (.file .exists)) else t.makeSteps path p rest
      | none => (t.set p .directory).makeSteps path p rest

/-- More directories than this are not made at once. -/
def makingLimit : Nat := 985

/-- The number of steps of a path, from a place on, that lead to nothing that is there. -/
def missing (t : FileTree) (p : Place) : List Text → Nat
  | [] => 0
  | step :: rest =>
    match t.step p step with
    | .error _ => rest.length + 1
    | .ok p => if (t.find? p).isSome then t.missing p rest else rest.length + 1

/-- Makes a directory and those above it, as far as they are missing. -/
def makeDirectories (t : FileTree) (path : Path) : FileTree × Except Error Unit :=
  if makingLimit < t.missing path.origin path.steps then (t, .error .nesting)
  else t.makeSteps { path with steps := [] } path.origin path.steps

/-- What has been put somewhere, with its place. -/
def entries (t : FileTree) : List (Place × Entry) :=
  t.near.toList.map (fun e => (⟨false, e.1⟩, e.2)) ++
    t.top.toList.map fun e => (⟨true, e.1⟩, e.2)

/-- Is a directory without entries? -/
def isEmptyAt (t : FileTree) (p : Place) : Bool := (t.under p).children.isEmpty

/-- The files with their contents and the empty directories, which end in a slash, in order of their
spellings. -/
def listing (t : FileTree) : List (Text × Option Bytes) :=
  let inside := t.entries.filter fun e =>
    !e.1.fromTop && e.1.steps.head? != some Path.up
  let shown := inside.filterMap fun (p, entry) =>
    match entry with
    | .file content => some (p.text, some content)
    | .directory => if t.isEmptyAt p then some (p.text ++ "/", none) else none
    | .device => none
  shown.mergeSort fun a b => a.1.precedes b.1

end FileTree

end Latchwork
